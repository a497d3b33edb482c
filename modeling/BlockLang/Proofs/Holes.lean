import BlockLang.Stmt

namespace BlockLang

/-- An expression in which one node is left open. -/
inductive Expr.Hole where
  | here
  | operand (mark : Mark) (op : UnaryOp) (inside : Hole)
  | lhs (mark : Mark) (op : BinaryOp) (inside : Hole) (rhs : Expr)
  | rhs (mark : Mark) (op : BinaryOp) (lhs : Expr) (inside : Hole)
  | joinedLhs (mark : Mark) (inside : Hole) (rhs : Expr)
  | joinedRhs (mark : Mark) (lhs : Expr) (inside : Hole)
  | condition (mark : Mark) (inside : Hole) (whenTrue whenFalse : Expr)
  | whenTrue (mark : Mark) (condition : Expr) (inside : Hole) (whenFalse : Expr)
  | whenFalse (mark : Mark) (condition whenTrue : Expr) (inside : Hole)
  | guard (mark : Mark) (inside : Hole) (whenTrue : Expr)
  | guarded (mark : Mark) (condition : Expr) (inside : Hole)

def Expr.Hole.fill : Expr.Hole → Expr → Expr
  | here, node => node
  | operand mark op inside, node => .unary mark op (inside.fill node)
  | lhs mark op inside r, node => .binary mark op (inside.fill node) r
  | rhs mark op l inside, node => .binary mark op l (inside.fill node)
  | joinedLhs mark inside r, node => .concat mark (inside.fill node) r
  | joinedRhs mark l inside, node => .concat mark l (inside.fill node)
  | condition mark inside t f, node => .ternary mark (inside.fill node) t f
  | whenTrue mark c inside f, node => .ternary mark c (inside.fill node) f
  | whenFalse mark c t inside, node => .ternary mark c t (inside.fill node)
  | guard mark inside t, node => .guarded mark (inside.fill node) t
  | guarded mark c inside, node => .guarded mark c (inside.fill node)

/-- The expression and all that are in it. -/
def Expr.nodes : Expr → List Expr
  | literal mark value => [literal mark value]
  | var mark name slot => [var mark name slot]
  | unary mark op e => unary mark op e :: e.nodes
  | binary mark op l r => binary mark op l r :: (l.nodes ++ r.nodes)
  | concat mark l r => concat mark l r :: (l.nodes ++ r.nodes)
  | ternary mark c t f => ternary mark c t f :: (c.nodes ++ t.nodes ++ f.nodes)
  | guarded mark c t => guarded mark c t :: (c.nodes ++ t.nodes)

def Expr.nodesOf : Option Expr → List Expr
  | some e => e.nodes
  | none => []

namespace Expr

variable {node : Expr}

theorem self_mem_nodes (e : Expr) : e ∈ e.nodes := by
  cases e <;> simp [nodes]

theorem Hole.mem_nodes (hole : Hole) : node ∈ (hole.fill node).nodes := by
  induction hole with
  | here => exact node.self_mem_nodes
  | _ => simp_all [fill, nodes]

theorem exists_hole {e : Expr} (h : node ∈ e.nodes) : ∃ hole : Hole, hole.fill node = e := by
  induction e with
  | literal mark value | var mark name slot =>
    exact ⟨.here, List.mem_singleton.mp h⟩
  | unary mark op e ih =>
    rcases List.mem_cons.mp h with rfl | h
    · exact ⟨.here, rfl⟩
    · obtain ⟨hole, rfl⟩ := ih h
      exact ⟨.operand mark op hole, rfl⟩
  | binary mark op l r ihl ihr =>
    simp only [nodes, List.mem_cons, List.mem_append] at h
    rcases h with rfl | h | h
    · exact ⟨.here, rfl⟩
    · obtain ⟨hole, rfl⟩ := ihl h
      exact ⟨.lhs mark op hole r, rfl⟩
    · obtain ⟨hole, rfl⟩ := ihr h
      exact ⟨.rhs mark op l hole, rfl⟩
  | concat mark l r ihl ihr =>
    simp only [nodes, List.mem_cons, List.mem_append] at h
    rcases h with rfl | h | h
    · exact ⟨.here, rfl⟩
    · obtain ⟨hole, rfl⟩ := ihl h
      exact ⟨.joinedLhs mark hole r, rfl⟩
    · obtain ⟨hole, rfl⟩ := ihr h
      exact ⟨.joinedRhs mark l hole, rfl⟩
  | ternary mark c t f ihc iht ihf =>
    simp only [nodes, List.mem_cons, List.mem_append] at h
    rcases h with rfl | (h | h) | h
    · exact ⟨.here, rfl⟩
    · obtain ⟨hole, rfl⟩ := ihc h
      exact ⟨.condition mark hole t f, rfl⟩
    · obtain ⟨hole, rfl⟩ := iht h
      exact ⟨.whenTrue mark c hole f, rfl⟩
    · obtain ⟨hole, rfl⟩ := ihf h
      exact ⟨.whenFalse mark c t hole, rfl⟩
  | guarded mark c t ihc iht =>
    simp only [nodes, List.mem_cons, List.mem_append] at h
    rcases h with rfl | h | h
    · exact ⟨.here, rfl⟩
    · obtain ⟨hole, rfl⟩ := ihc h
      exact ⟨.guard mark hole t, rfl⟩
    · obtain ⟨hole, rfl⟩ := iht h
      exact ⟨.guarded mark c hole, rfl⟩

theorem exists_hole_of_option {o : Option Expr} (h : node ∈ nodesOf o) :
    ∃ hole : Hole, o = some (hole.fill node) := by
  cases o with
  | none => cases h
  | some e =>
    obtain ⟨hole, rfl⟩ := exists_hole h
    exact ⟨hole, rfl⟩

end Expr

/-- Declared names, the initial value of one of which has a place left open. -/
inductive Declarator.Hole where
  | head (line : Nat) (name : String) (ty : Ty) (inside : Expr.Hole) (slot : Option UInt16)
      (rest : List Declarator)
  | tail (first : Declarator) (inside : Hole)

def Declarator.Hole.fill : Declarator.Hole → Expr → List Declarator
  | head line name ty inside slot rest, node =>
    ⟨line, name, ty, some (inside.fill node), slot⟩ :: rest
  | tail first inside, node => first :: inside.fill node

namespace Declarator

variable {node : Expr}

def nodes (d : Declarator) : List Expr :=
  Expr.nodesOf d.init

theorem Hole.mem_nodes (hole : Hole) : node ∈ (hole.fill node).flatMap nodes := by
  induction hole with
  | head line name ty inside slot rest => exact List.mem_append_left _ inside.mem_nodes
  | tail first inside ih => exact List.mem_append_right _ ih

theorem exists_hole {ds : List Declarator} (h : node ∈ ds.flatMap nodes) :
    ∃ hole : Hole, hole.fill node = ds := by
  induction ds with
  | nil => cases h
  | cons d ds ih =>
    rcases List.mem_append.mp h with h | h
    · obtain ⟨line, name, ty, init, slot⟩ := d
      obtain ⟨inside, rfl⟩ := Expr.exists_hole_of_option h
      exact ⟨.head line name ty inside slot ds, rfl⟩
    · obtain ⟨hole, rfl⟩ := ih h
      exact ⟨.tail d hole, rfl⟩

end Declarator

mutual

/-- A statement with a place left open for an expression. -/
inductive Stmt.Hole where
  | declare (line : Nat) (ty : Ty) (inside : Declarator.Hole)
  | eval (inside : Expr.Hole)
  | print (line : Nat) (inside : Expr.Hole)
  | block (line : Nat) (inside : ListHole)
  | doBody (line : Nat) (inside : Hole) (condition : Expr)
  | doCondition (line : Nat) (body : Stmt) (inside : Expr.Hole)
  | forNames (line : Nat) (inside : Declarator.Hole) (init : List Stmt) (condition : Option Expr)
      (update : List Stmt) (body : Stmt)
  | forInit (line : Nat) (names : List Declarator) (inside : ListHole) (condition : Option Expr)
      (update : List Stmt) (body : Stmt)
  | forCondition (line : Nat) (names : List Declarator) (init : List Stmt) (inside : Expr.Hole)
      (update : List Stmt) (body : Stmt)
  | forUpdate (line : Nat) (names : List Declarator) (init : List Stmt) (condition : Option Expr)
      (inside : ListHole) (body : Stmt)
  | forBody (line : Nat) (names : List Declarator) (init : List Stmt) (condition : Option Expr)
      (update : List Stmt) (inside : Hole)

/-- Statements, one of which has a place left open. -/
inductive Stmt.ListHole where
  | head (inside : Hole) (rest : List Stmt)
  | tail (first : Stmt) (inside : ListHole)

end

/-- A program with a place left open for an expression. -/
abbrev Program.Hole := Stmt.ListHole

mutual

def Stmt.Hole.fill : Stmt.Hole → Expr → Stmt
  | .declare line ty inside, node => .declare line ty (inside.fill node)
  | .eval inside, node => .eval (inside.fill node)
  | .print line inside, node => .print line (inside.fill node)
  | .block line inside, node => .block line (inside.fill node)
  | .doBody line inside condition, node => .doWhile line (inside.fill node) condition
  | .doCondition line body inside, node => .doWhile line body (inside.fill node)
  | .forNames line inside init condition update body, node =>
    .forLoop line (inside.fill node) init condition update body
  | .forInit line names inside condition update body, node =>
    .forLoop line names (inside.fill node) condition update body
  | .forCondition line names init inside update body, node =>
    .forLoop line names init (some (inside.fill node)) update body
  | .forUpdate line names init condition inside body, node =>
    .forLoop line names init condition (inside.fill node) body
  | .forBody line names init condition update inside, node =>
    .forLoop line names init condition update (inside.fill node)

def Stmt.ListHole.fill : Stmt.ListHole → Expr → List Stmt
  | .head inside rest, node => inside.fill node :: rest
  | .tail first inside, node => first :: inside.fill node

end

mutual

/-- The expressions in a statement, at any depth. -/
def Stmt.nodes : Stmt → List Expr
  | declare _ _ names => names.flatMap Declarator.nodes
  | eval e | print _ e => e.nodes
  | block _ body => nodesAll body
  | doWhile _ body condition => body.nodes ++ condition.nodes
  | forLoop _ names init condition update body =>
    names.flatMap Declarator.nodes ++ nodesAll init ++ Expr.nodesOf condition ++ nodesAll update ++
      body.nodes

def Stmt.nodesAll : List Stmt → List Expr
  | [] => []
  | s :: ss => s.nodes ++ nodesAll ss

end

namespace Stmt

variable {node : Expr}

mutual

theorem Hole.mem_nodes (hole : Hole) : node ∈ (hole.fill node).nodes :=
  match hole with
  | .declare _ _ inside => inside.mem_nodes
  | .eval inside | .print _ inside => inside.mem_nodes
  | .block _ inside => inside.mem_nodes
  | .doBody _ inside _ => List.mem_append_left _ inside.mem_nodes
  | .doCondition _ _ inside => List.mem_append_right _ inside.mem_nodes
  | .forNames _ inside _ _ _ _ => by
    simp only [Hole.fill, nodes, List.mem_append, inside.mem_nodes, true_or]
  | .forInit _ _ inside _ _ _ => by
    simp only [Hole.fill, nodes, List.mem_append, inside.mem_nodes, true_or, or_true]
  | .forCondition _ _ _ inside _ _ => by
    simp only [Hole.fill, nodes, List.mem_append, Expr.nodesOf, inside.mem_nodes, true_or, or_true]
  | .forUpdate _ _ _ _ inside _ => by
    simp only [Hole.fill, nodes, List.mem_append, inside.mem_nodes, true_or, or_true]
  | .forBody _ _ _ _ _ inside => List.mem_append_right _ inside.mem_nodes

theorem ListHole.mem_nodes (hole : ListHole) : node ∈ nodesAll (hole.fill node) :=
  match hole with
  | .head inside _ => List.mem_append_left _ inside.mem_nodes
  | .tail _ inside => List.mem_append_right _ inside.mem_nodes

end

mutual

theorem exists_hole (s : Stmt) (h : node ∈ s.nodes) : ∃ hole : Hole, hole.fill node = s :=
  match s with
  | .declare line ty names => by
    obtain ⟨inside, rfl⟩ := Declarator.exists_hole h
    exact ⟨.declare line ty inside, rfl⟩
  | .eval e => by
    obtain ⟨inside, rfl⟩ := Expr.exists_hole h
    exact ⟨.eval inside, rfl⟩
  | .print line e => by
    obtain ⟨inside, rfl⟩ := Expr.exists_hole h
    exact ⟨.print line inside, rfl⟩
  | .block line body => by
    obtain ⟨inside, rfl⟩ := exists_listHole body h
    exact ⟨.block line inside, rfl⟩
  | .doWhile line body condition => by
    rcases List.mem_append.mp h with h | h
    · obtain ⟨inside, rfl⟩ := exists_hole body h
      exact ⟨.doBody line inside condition, rfl⟩
    · obtain ⟨inside, rfl⟩ := Expr.exists_hole h
      exact ⟨.doCondition line body inside, rfl⟩
  | .forLoop line names init condition update body => by
    simp only [nodes, List.mem_append] at h
    rcases h with (((h | h) | h) | h) | h
    · obtain ⟨inside, rfl⟩ := Declarator.exists_hole h
      exact ⟨.forNames line inside init condition update body, rfl⟩
    · obtain ⟨inside, rfl⟩ := exists_listHole init h
      exact ⟨.forInit line names inside condition update body, rfl⟩
    · obtain ⟨inside, rfl⟩ := Expr.exists_hole_of_option h
      exact ⟨.forCondition line names init inside update body, rfl⟩
    · obtain ⟨inside, rfl⟩ := exists_listHole update h
      exact ⟨.forUpdate line names init condition inside body, rfl⟩
    · obtain ⟨inside, rfl⟩ := exists_hole body h
      exact ⟨.forBody line names init condition update inside, rfl⟩

theorem exists_listHole (ss : List Stmt) (h : node ∈ nodesAll ss) :
    ∃ hole : ListHole, hole.fill node = ss :=
  match ss with
  | [] => by cases h
  | s :: ss => by
    rcases List.mem_append.mp h with h | h
    · obtain ⟨inside, rfl⟩ := exists_hole s h
      exact ⟨.head inside ss, rfl⟩
    · obtain ⟨inside, rfl⟩ := exists_listHole ss h
      exact ⟨.tail s inside, rfl⟩

end

end Stmt

/-- An expression is in a program exactly if some place in the program can be filled with it. -/
theorem Program.mem_nodes_iff (program : Program) (node : Expr) :
    node ∈ Stmt.nodesAll program ↔ ∃ hole : Program.Hole, hole.fill node = program := by
  constructor
  · exact Stmt.exists_listHole program
  · rintro ⟨hole, rfl⟩
    exact hole.mem_nodes

end BlockLang
