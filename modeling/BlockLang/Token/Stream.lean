import BlockLang.Report
import BlockLang.Token.Escape

namespace BlockLang

/-- What a reader may be looking for. -/
inductive Wanted where
  | token (kind : TokenKind)
  | statement
  | expression
deriving Repr, DecidableEq

def Wanted.describe : Wanted → String
  | token kind => kind.describe
  | statement => "statement"
  | expression => "expression"

inductive ParseFault where
  | lex (fault : LexFault)
  | expected (wanted : Wanted) (found : TokenKind)
  | unexpectedEnd (wanted : Wanted)
  | invalidNumber (text : String)
  | invalidString (fault : LexFault)
  | tooDeep
deriving Repr, DecidableEq

def ParseFault.message : ParseFault → String
  | lex fault => "error while lexing source: " ++ fault.message
  | expected wanted found =>
    "expected " ++ wanted.describe ++ ", but found instead " ++ found.describe
  | unexpectedEnd wanted => "unexpected end of input, expected " ++ wanted.describe
  | invalidNumber text => "invalid number literal `" ++ text ++ "`"
  | invalidString fault => "invalid string literal: " ++ fault.message
  | tooDeep => "nested too deeply"

/-- What may be under way when a fault is met. -/
inductive Construct where
  | keyword
  | statement
  | doWhile
  | forLoop
  | initializer
  | condition
  | ternary
  | expression
deriving Repr, DecidableEq

def Construct.describe : Construct → String
  | keyword => "parsing keyword"
  | statement => "parsing statement"
  | doWhile => "parsing do-while loop"
  | forLoop => "parsing for loop"
  | initializer => "parsing variable initializer"
  | condition => "parsing loop condition"
  | ternary => "parsing ternary expression"
  | expression => "parsing expression"

/-- A fault, the offset it points at, and the constructs around it, outermost first. -/
structure ParseError where
  fault : ParseFault
  offset : Nat
  within : List Construct
deriving Repr, DecidableEq

def ParseError.report (source : Source) (error : ParseError) : Report :=
  { Report.located source (.ofNat error.offset) error.fault.message with
    contexts := error.within.reverse.map Construct.describe }

/-- Reads from the tokens that are left. A fault of the scan counts only when the reader gets to
it. -/
abbrev Reader := StateT Scan (Except ParseError)

namespace Reader

def fail {α : Type} (fault : ParseFault) (offset : Nat) : Reader α :=
  fun _ => .error ⟨fault, offset, []⟩

/-- Notes a construct around the faults of `reader`. -/
def within {α : Type} (construct : Construct) (reader : Reader α) : Reader α :=
  fun scan =>
    match reader scan with
    | .ok result => .ok result
    | .error error => .error { error with within := construct :: error.within }

/-- The next token, none at the end of the input. -/
def peek : Reader (Option Token) := fun scan =>
  match scan.tokens, scan.ending with
  | token :: _, _ => .ok (some token, scan)
  | [], .finished _ _ => .ok (none, scan)
  | [], .failed error => .error ⟨.lex error.fault, error.offset, []⟩

def peekKind : Reader (Option TokenKind) := do
  return (← peek).map (·.kind)

/-- The line of the next token, or of the end of the input. -/
def line : Reader Nat := fun scan =>
  match scan.tokens, scan.ending with
  | token :: _, _ => .ok (token.line, scan)
  | [], .finished _ line => .ok (line, scan)
  | [], .failed error => .error ⟨.lex error.fault, error.offset, []⟩

def advance : Reader Unit := fun scan =>
  .ok ((), { scan with tokens := scan.tokens.tail })

/-- The next token; the end of the input is a fault. -/
def demand (wanted : Wanted) : Reader Token := fun scan =>
  match scan.tokens, scan.ending with
  | token :: _, _ => .ok (token, scan)
  | [], .finished offset _ => .error ⟨.unexpectedEnd wanted, offset, []⟩
  | [], .failed error => .error ⟨.lex error.fault, error.offset, []⟩

/-- The next token, which must be of the kind. -/
def expect (kind : TokenKind) : Reader Token := do
  let token ← demand (.token kind)
  if token.kind = kind then return token
  else fail (.expected (.token kind) token.kind) token.offset

/-- Moves past a token of the kind. -/
def consume (kind : TokenKind) : Reader Unit := do
  let _ ← expect kind
  advance

end Reader

end BlockLang
