import BlockLang.Ty

namespace BlockLang

inductive Keyword where
  | int
  | double
  | boolean
  | string
  | truth
  | falsehood
  | doLoop
  | whileTest
  | forLoop
  | print
deriving Repr, DecidableEq

namespace Keyword

def text : Keyword → String
  | int => "int"
  | double => "double"
  | boolean => "boolean"
  | string => "String"
  | truth => "true"
  | falsehood => "false"
  | doLoop => "do"
  | whileTest => "while"
  | forLoop => "for"
  | print => "print"

def all : List Keyword :=
  [int, double, boolean, string, truth, falsehood, doLoop, whileTest, forLoop, print]

def ofText? (word : String) : Option Keyword :=
  all.find? (·.text = word)

/-- The type that a keyword names. -/
def ty? : Keyword → Option Ty
  | int => some .int
  | double => some .double
  | boolean => some .boolean
  | string => some .string
  | _ => none

end Keyword

/-- The type with this name in a declaration. -/
def Ty.ofWord? (word : String) : Option Ty :=
  (Keyword.ofText? word).bind Keyword.ty?

/-- The sign of an operator without the `=` that may follow it. -/
inductive Sign where
  | plus
  | minus
  | bang
  | star
  | slash
  | percent
  | and
  | pipe
  | caret
  | andAnd
  | pipePipe
  | greater
  | less
  | equals
  | question
deriving Repr, DecidableEq

def Sign.text : Sign → String
  | plus => "+"
  | minus => "-"
  | bang => "!"
  | star => "*"
  | slash => "/"
  | percent => "%"
  | and => "&"
  | pipe => "|"
  | caret => "^"
  | andAnd => "&&"
  | pipePipe => "||"
  | greater => ">"
  | less => "<"
  | equals => "="
  | question => "?"

inductive TokenKind where
  | openBrace
  | closeBrace
  | openParen
  | closeParen
  | semicolon
  | comma
  | colon
  | number
  | decimal
  | string
  | identifier
  | keyword (word : Keyword)
  | operator (sign : Sign) (equals : Bool)
deriving Repr, DecidableEq

def TokenKind.describe : TokenKind → String
  | openBrace => "opening brace '\x7b'"
  | closeBrace => "closing brace '\x7d'"
  | openParen => "opening parentheses '('"
  | closeParen => "closing parentheses ')'"
  | semicolon => "semicolon ';'"
  | comma => "comma ','"
  | colon => "colon ':'"
  | number => "number"
  | decimal => "decimal number"
  | string => "string literal"
  | identifier => "identifier"
  | keyword word => "keyword `" ++ word.text ++ "`"
  | operator sign equals => "operator `" ++ sign.text ++ (if equals then "=" else "") ++ "`"

/-- The type that a token names. -/
def TokenKind.ty? : TokenKind → Option Ty
  | keyword word => word.ty?
  | _ => none

/-- A token with its text in the source. A string keeps its quotes and escapes. -/
structure Token where
  kind : TokenKind
  text : String
  offset : Nat
  line : Nat
deriving Repr, DecidableEq

end BlockLang
