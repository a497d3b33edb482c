import BlockLang.Token.Scan

namespace BlockLang

namespace Escape

/-- The character that a backslash and `c` stand for. -/
def meaning? : Char → Option Char
  | 'n' => some '\n'
  | 't' => some '\t'
  | '"' => some '"'
  | '\\' => some '\\'
  | _ => none

/-- The characters between the quotes, read; `done` holds those read before, last first. -/
def read (done : List Char) : List Char → Except LexFault (List Char)
  | [] => .ok done.reverse
  | ['\\'] => .error .unterminatedString
  | '\\' :: c :: cs =>
    match meaning? c with
    | some value => read (value :: done) cs
    | none => .error (.unknownEscape c)
  | c :: cs => read (c :: done) cs

/-- What stands between two quotes, if the text starts with one and ends with another. -/
def inner? : List Char → Option (List Char)
  | '"' :: cs => if cs.getLast? = some '"' then some cs.dropLast else none
  | _ => none

/-- The value of a literal, quotes included. -/
def value (literal : String) : Except LexFault String :=
  match inner? literal.toList with
  | some cs => (read [] cs).map String.ofList
  | none => .error .unterminatedString

end Escape

end BlockLang
