import BlockLang.Expr.Parser
import BlockLang.Stmt

namespace BlockLang

namespace Reader

/-- An expression between parentheses. -/
def parenthesized (depth : Nat) : Reader Expr := do
  consume .openParen
  let e ← expr depth
  consume .closeParen
  return e

def keyword (word : Keyword) : Reader Unit :=
  within .keyword (consume (.keyword word))

/-- The initial value of a declared name, if there is one. -/
def initializer? (depth : Nat) : Reader (Option Expr) := do
  if (← peekKind) = some (.operator .equals false) then
    advance
    return some (← within .initializer (expr depth))
  else
    return none

/-- The names of a declaration, separated by commas. -/
def declarators (ty : Ty) : Nat → Reader (List Declarator)
  | 0 => fail .tooDeep 0
  | depth + 1 => do
    let token ← expect .identifier
    advance
    let init ← initializer? depth
    let first : Declarator := ⟨token.line, token.text, ty, init, none⟩
    if (← peekKind) = some .comma then
      advance
      return first :: (← declarators ty depth)
    else
      return [first]

/-- A declaration without its semicolon; `ty` is the type that its first token names. -/
def declaration (ty : Ty) (depth : Nat) : Reader (List Declarator) := do
  advance
  declarators ty depth

/-- Expression statements separated by commas. -/
def evals : Nat → Reader (List Stmt)
  | 0 => fail .tooDeep 0
  | depth + 1 => do
    let e ← expr depth
    if (← peekKind) = some .comma then
      advance
      return .eval e :: (← evals depth)
    else
      return [.eval e]

/-- Expression statements, none if `last` follows right away. -/
def evalsUpTo (last : TokenKind) (depth : Nat) : Reader (List Stmt) := do
  if (← peekKind) = some last then return [] else evals depth

/-- What a loop starts with: a declaration or expression statements. -/
def loopStart (depth : Nat) : Reader (List Declarator × List Stmt) := do
  match (← peekKind).bind TokenKind.ty? with
  | some ty => return (← declaration ty depth, [])
  | none => return ([], ← evalsUpTo .semicolon depth)

def loopCondition (depth : Nat) : Reader (Option Expr) := do
  if (← peekKind) = some .semicolon then return none
  else return some (← within .condition (expr depth))

def evalStmt (depth : Nat) : Reader Stmt := do
  let e ← expr depth
  consume .semicolon
  return .eval e

mutual

/-- A statement. -/
def stmt : Nat → Reader Stmt
  | 0 => fail .tooDeep 0
  | depth + 1 => within .statement do
    let token ← demand .statement
    let line := token.line
    match token.kind with
    | .openBrace =>
      advance
      return .block line (← blockRest depth)
    | .keyword .doLoop => within .doWhile do
      keyword .doLoop
      let body ← stmt depth
      keyword .whileTest
      let condition ← parenthesized depth
      consume .semicolon
      return .doWhile line body condition
    | .keyword .forLoop => within .forLoop do
      keyword .forLoop
      consume .openParen
      let (names, init) ← loopStart depth
      consume .semicolon
      let condition ← loopCondition depth
      consume .semicolon
      let update ← evalsUpTo .closeParen depth
      consume .closeParen
      let body ← stmt depth
      return .forLoop line names init condition update body
    | .keyword .print =>
      advance
      let e ← parenthesized depth
      consume .semicolon
      return .print line e
    | kind =>
      match kind.ty? with
      | some ty =>
        let names ← declaration ty depth
        consume .semicolon
        return .declare line ty names
      | none => evalStmt depth

/-- The statements of a block up to its closing brace. -/
def blockRest : Nat → Reader (List Stmt)
  | 0 => fail .tooDeep 0
  | depth + 1 => do
    let token ← demand (.token .closeBrace)
    if token.kind = .closeBrace then
      advance
      return []
    else
      let first ← stmt depth
      return first :: (← blockRest depth)

end

/-- Statements up to the end of the input. -/
def program : Nat → Reader Program
  | 0 => fail .tooDeep 0
  | depth + 1 => do
    match ← peek with
    | none => return []
    | some _ =>
      let first ← stmt depth
      return first :: (← program depth)

end Reader

/-- The program that a source spells. -/
def Program.parse (source : Source) : Except ParseError Program :=
  let scan := Scan.ofSource source
  (Reader.program (Reader.depthOf scan) scan).map (·.1)

end BlockLang
