import BlockLang.Text.Unprintable

namespace BlockLang

namespace Quoted

def hexDigits (n : Nat) : String :=
  String.ofList (Nat.toDigits 16 n)

/-- The escape by code point. -/
def codePoint (c : Char) : String :=
  "\\u\x7b" ++ hexDigits c.toNat ++ "\x7d"

/-- One character of a quoted text; `quote` is the quote around it. -/
def escape (quote c : Char) : String :=
  match c with
  | '\t' => "\\t"
  | '\r' => "\\r"
  | '\n' => "\\n"
  | '\\' => "\\\\"
  | '\x00' => "\\0"
  | _ =>
    if c = quote then "\\" ++ c.toString
    else if isUnprintable c then codePoint c
    else c.toString

/-- A character between quotes, with an escape for what would not be seen or would end the quote. -/
def char (c : Char) : String :=
  "'" ++ escape '\'' c ++ "'"

def string (text : String) : String :=
  text.foldl (fun out c => out ++ escape '"' c) "\"" ++ "\""

end Quoted

end BlockLang
