import BlockLang.Expr.Outline
import BlockLang.Stmt

namespace BlockLang

namespace Outline

def ofDeclarator (d : Declarator) : Element :=
  let attributes :=
    [("line", toString d.line), ("name", d.name), ("type", d.ty.name)] ++ slotAttribute d.slot
  match d.init with
  | some init => .node "VariableDeclarator" attributes [wrap "Initializer" (ofExpr init)]
  | none => .leaf "VariableDeclarator" attributes

/-- A section with these elements, none if there are none. -/
def sectionOf (tag : String) (elements : List Element) : List Element :=
  if elements.isEmpty then [] else [.node tag [] elements]

def lineAttribute (line : Nat) : Attribute :=
  ("line", toString line)

mutual

def ofStmt : Stmt → Element
  | .declare line ty names =>
    .node "VariableDeclaration" [lineAttribute line, ("type", ty.name)] (names.map ofDeclarator)
  | .eval e => .node "ExpressionStatement" [lineAttribute e.line] [ofExpr e]
  | .print line e => .node "PrintStatement" [lineAttribute line] [ofExpr e]
  | .block line body => .node "Block" [lineAttribute line] (ofStmts body)
  | .doWhile line body condition =>
    .node "DoWhileStatement" [lineAttribute line]
      [wrap "Body" (ofStmt body), wrap "Condition" (ofExpr condition)]
  | .forLoop line names init condition update body =>
    .node "ForStatement" [lineAttribute line] <|
      sectionOf "ForInitDeclarations" (names.map ofDeclarator) ++
      sectionOf "ForInitStatements" (ofStmts init) ++
      (match condition with
        | some e => [wrap "Condition" (ofExpr e)]
        | none => []) ++
      sectionOf "ForUpdate" (ofStmts update) ++
      [wrap "Body" (ofStmt body)]

def ofStmts : List Stmt → List Element
  | [] => []
  | s :: ss => ofStmt s :: ofStmts ss

end

end Outline

def Program.outline (program : Program) : String :=
  Outline.text (.node "Program" [] (Outline.ofStmts program))

end BlockLang
