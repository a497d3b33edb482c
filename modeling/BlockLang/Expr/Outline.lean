import BlockLang.Double.Text
import BlockLang.Expr
import BlockLang.Outline

namespace BlockLang

def Literal.text : Literal → String
  | int value => toString value.toInt
  | double value => value.text
  | boolean value => if value then "true" else "false"
  | string value => value

namespace Outline

/-- An element around another one. -/
def wrap (tag : String) (e : Element) : Element :=
  .node tag [] [e]

def slotAttribute : Option UInt16 → List Attribute
  | some slot => [("slot", toString slot.toNat)]
  | none => []

def markAttributes (mark : Mark) : List Attribute :=
  [("line", toString mark.line), ("type", (mark.ty.map Ty.name).getD "")]

def ofExpr : Expr → Element
  | .literal mark value => .leaf "Literal" (markAttributes mark ++ [("value", value.text)])
  | .var mark name slot =>
    .leaf "Variable" (markAttributes mark ++ [("name", name)] ++ slotAttribute slot)
  | .unary mark op operand =>
    .node "UnaryExpression" (markAttributes mark ++ [("operator", op.symbol)])
      [wrap "Operand" (ofExpr operand)]
  | .binary mark op lhs rhs =>
    .node "BinaryExpression" (markAttributes mark ++ [("operator", op.symbol)])
      [wrap "Lhs" (ofExpr lhs), wrap "Rhs" (ofExpr rhs)]
  | .concat mark lhs rhs =>
    .node "StringConcatenation" (markAttributes mark ++ [("operator", "+")])
      [wrap "Lhs" (ofExpr lhs), wrap "Rhs" (ofExpr rhs)]
  | .ternary mark condition whenTrue whenFalse =>
    .node "ConditionalExpression" (markAttributes mark ++ [("operator", "?:")])
      [wrap "Condition" (ofExpr condition), wrap "ValueTrue" (ofExpr whenTrue),
        wrap "ValueFalse" (ofExpr whenFalse)]
  | .guarded mark condition whenTrue =>
    .node "ConditionalExpression" (markAttributes mark ++ [("operator", "?:")])
      [wrap "Condition" (ofExpr condition), wrap "ValueTrue" (ofExpr whenTrue)]

end Outline

def Expr.outline (e : Expr) : String :=
  Outline.text (Outline.ofExpr e)

end BlockLang
