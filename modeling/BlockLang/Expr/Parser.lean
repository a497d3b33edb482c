import BlockLang.Double.Text
import BlockLang.Expr
import BlockLang.Token.Stream

namespace BlockLang

namespace Literal

/-- Reads digits as an int. Only behind a minus may they go one further than the greatest int. -/
def ofDigits? (negative : Bool) (digits : String) : Option Literal :=
  let value := Double.digitsValue digits.toList
  if negative then
    if value ≤ 2147483648 then some (int (Int32.ofInt (-value))) else none
  else
    if value < 2147483648 then some (int (Int32.ofNat value)) else none

/-- Reads digits with a point between them as a double. -/
def ofDecimal (digits : String) : Literal :=
  let cs := digits.toList
  double (Double.ofDigits (cs.takeWhile Char.isDigit) ((cs.dropWhile Char.isDigit).drop 1))

end Literal

/-- An operator behind an operand. -/
inductive InfixOp where
  | binary (op : BinaryOp)
  | question
deriving Repr, DecidableEq

namespace InfixOp

def precedence : InfixOp → Nat
  | binary op => op.precedence
  | question => 2

def isRightAssociative : InfixOp → Bool
  | binary op => op.isRightAssociative
  | question => true

def ofToken? : TokenKind → Option InfixOp
  | .operator .question false => some question
  | kind => (BinaryOp.ofToken? kind).map binary

end InfixOp

namespace Expr

/-- Puts prefix operators around an operand, the first of them outermost. -/
def applyPrefixes (ops : List (Nat × UnaryOp)) (operand : Expr) : Expr :=
  ops.foldr (fun (line, op) e => unary (.untyped line) op e) operand

end Expr

namespace Reader

/-- The prefix operators at the front of the tokens with their lines, and the tokens after them. -/
def splitPrefixes : List Token → List (Nat × UnaryOp) × List Token
  | [] => ([], [])
  | token :: tokens =>
    match UnaryOp.ofToken? token.kind with
    | some op =>
      let (ops, rest) := splitPrefixes tokens
      ((token.line, op) :: ops, rest)
    | none => ([], token :: tokens)

def prefixes : Reader (List (Nat × UnaryOp)) := fun scan =>
  let (ops, rest) := splitPrefixes scan.tokens
  .ok (ops, { scan with tokens := rest })

def peekOp : Reader (Option InfixOp) := do
  return (← peekKind).bind InfixOp.ofToken?

/-- A literal in place of its token. -/
def literal (token : Token) (value : Literal) : Reader Expr := do
  advance
  return .literal (.untyped token.line) value

/-- An int behind prefix operators. The last of them, if it is a minus, belongs to the int. -/
def intLiteral (ops : List (Nat × UnaryOp)) (token : Token) : Reader Expr :=
  let negative := ops.getLast?.any (·.2 = .negate)
  match Literal.ofDigits? negative token.text with
  | none => fail (.invalidNumber token.text) token.offset
  | some value => do
    let operand ← literal token value
    return .applyPrefixes (if negative then ops.dropLast else ops) operand

def stringLiteral (token : Token) : Reader Expr :=
  match Escape.value token.text with
  | .error fault => fail (.invalidString fault) token.offset
  | .ok value => literal token (.string value)

mutual

/-- An expression. The readers count a depth down. Between two tokens at most three of them are
entered, so that a depth of four for each token that is left never runs out. -/
def expr : Nat → Reader Expr
  | 0 => fail .tooDeep 0
  | depth + 1 => within .expression do
    let lhs ← operand depth
    climb depth 0 lhs

/-- Prefix operators, and what they apply to. -/
def operand : Nat → Reader Expr
  | 0 => fail .tooDeep 0
  | depth + 1 => do
    let ops ← prefixes
    let token ← demand .expression
    match token.kind with
    | .openParen =>
      advance
      let inner ← expr depth
      consume .closeParen
      return .applyPrefixes ops inner
    | .identifier =>
      advance
      return .applyPrefixes ops (.var (.untyped token.line) token.text none)
    | .number => intLiteral ops token
    | .decimal => return .applyPrefixes ops (← literal token (.ofDecimal token.text))
    | .string => return .applyPrefixes ops (← stringLiteral token)
    | .keyword .truth => return .applyPrefixes ops (← literal token (.boolean true))
    | .keyword .falsehood => return .applyPrefixes ops (← literal token (.boolean false))
    | found => fail (.expected .expression found) token.offset

/-- Adds to `lhs` the operators of at least the precedence `least`, with their right sides. -/
def climb : Nat → Nat → Expr → Reader Expr
  | 0, _, _ => fail .tooDeep 0
  | depth + 1, least, lhs => do
    match ← peekOp with
    | none => return lhs
    | some op =>
      if op.precedence < least then return lhs
      else
        let mark ← Mark.untyped <$> line
        advance
        match op with
        | .binary op =>
          let first ← operand depth
          let rhs ← extend depth (.binary op) first
          climb depth least (.binary mark op lhs rhs)
        | .question =>
          let whenTrue ← within .ternary (expr depth)
          if (← peekKind) = some .colon then
            advance
            let first ← operand depth
            let whenFalse ← extend depth .question first
            climb depth least (.ternary mark lhs whenTrue whenFalse)
          else
            climb depth least (.guarded mark lhs whenTrue)

/-- Adds to the right side of `op` the operators that bind it more tightly than `op` does, or as
tightly from the right. -/
def extend : Nat → InfixOp → Expr → Reader Expr
  | 0, _, _ => fail .tooDeep 0
  | depth + 1, op, rhs => do
    match ← peekOp with
    | none => return rhs
    | some next =>
      if op.precedence < next.precedence then
        let rhs ← climb depth (op.precedence + 1) rhs
        extend depth op rhs
      else if op.precedence = next.precedence ∧ next.isRightAssociative then
        let rhs ← climb depth op.precedence rhs
        extend depth op rhs
      else
        return rhs

end

/-- A depth that suffices for the tokens of a scan. -/
def depthOf (scan : Scan) : Nat :=
  4 * (scan.tokens.length + 1)

end Reader

/-- Reads one expression from the front of a scan, and gives what is left. -/
def Expr.parse (scan : Scan) : Except ParseError (Expr × Scan) :=
  Reader.expr (Reader.depthOf scan) scan

end BlockLang
