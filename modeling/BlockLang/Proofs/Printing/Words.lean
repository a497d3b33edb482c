import BlockLang.Instruction
import BlockLang.Proofs.Grammar
import BlockLang.Stmt.Parser

namespace BlockLang

/-- What a token is written as. A word is `tight` if the next one follows without a blank. -/
structure Word where
  kind : TokenKind
  text : List Char
  tight : Bool

namespace Word

def openParen : Word := ⟨.openParen, ['('], true⟩
def closeParen : Word := ⟨.closeParen, [')'], false⟩
def openBrace : Word := ⟨.openBrace, ['\x7b'], false⟩
def closeBrace : Word := ⟨.closeBrace, ['\x7d'], false⟩
def semicolon : Word := ⟨.semicolon, [';'], false⟩
def comma : Word := ⟨.comma, [','], false⟩
def colon : Word := ⟨.colon, [':'], false⟩
def question : Word := ⟨.operator .question false, ['?'], false⟩

def keyword (word : Keyword) : Word :=
  ⟨.keyword word, word.text.toList, false⟩

def name (text : String) : Word :=
  ⟨.identifier, text.toList, false⟩

def number (n : Nat) : Word :=
  ⟨.number, Nat.toDigits 10 n, false⟩

def prefixed (op : UnaryOp) : Word :=
  ⟨op.token, op.symbol.toList, true⟩

def infixed (op : BinaryOp) : Word :=
  ⟨op.token, op.symbol.toList, false⟩

/-- No blank stands before a word that closes something. -/
def closes (w : Word) : Bool :=
  w.text = [')'] || w.text = [';'] || w.text = [',']

end Word

/-- What stands between a word and those behind it. -/
def Word.gap (w : Word) : List Word → List Char
  | [] => []
  | next :: _ => if w.tight || next.closes then [] else [' ']

/-- The text of words in a row. -/
def layout : List Word → List Char
  | [] => []
  | w :: ws => w.text ++ w.gap ws ++ layout ws

/-- A character of a string literal: what would end the literal, or start an escape, is escaped. -/
def Escape.write : Char → List Char
  | '\\' => ['\\', '\\']
  | '"' => ['\\', '"']
  | '\n' => ['\\', 'n']
  | c => [c]

def Escape.quote (cs : List Char) : List Char :=
  '"' :: (cs.flatMap write ++ ['"'])

/-- Parts of words, separated by commas. -/
def separated : List (List Word) → List Word
  | [] => []
  | [ws] => ws
  | ws :: rest => ws ++ Word.comma :: separated rest

variable (spell : Double → List Char)

def Literal.words : Literal → List Word
  | int value =>
    if value.toInt < 0 then [.prefixed .negate, .number value.toInt.natAbs]
    else [.number value.toInt.natAbs]
  | double value => [⟨.decimal, spell value, false⟩]
  | boolean value => [.keyword (if value then .truth else .falsehood)]
  | string value => [⟨.string, Escape.quote value.toList, false⟩]

namespace Expr

/-- An operand that is not a name stands between parentheses. -/
def enclose (e : Expr) (ws : List Word) : List Word :=
  if e.isVariable then ws else Word.openParen :: (ws ++ [Word.closeParen])

def words : Expr → List Word
  | literal _ value => value.words spell
  | var _ name _ => [.name name]
  | unary _ op e => .prefixed op :: e.enclose e.words
  | binary _ op l r => l.enclose l.words ++ .infixed op :: r.enclose r.words
  | concat _ l r => l.enclose l.words ++ .infixed (.arith .add) :: r.enclose r.words
  | ternary _ c t f =>
    c.enclose c.words ++ .question :: (t.enclose t.words ++ .colon :: f.enclose f.words)
  | guarded _ c t => c.enclose c.words ++ .question :: t.enclose t.words

end Expr

/-- The word that a type is declared with. The other two types have none. -/
def Ty.words : Ty → List Word
  | int => [.keyword .int]
  | double => [.keyword .double]
  | boolean => [.keyword .boolean]
  | string => [.keyword .string]
  | _ => []

/-- What stands behind a declared name. -/
def Declarator.initWords : Option Expr → List Word
  | none => []
  | some e => .infixed .assign :: e.words spell

def Declarator.words (d : Declarator) : List Word :=
  .name d.name :: initWords spell d.init

/-- A declaration without its semicolon. -/
def Declarator.wordsOfAll (ty : Ty) (names : List Declarator) : List Word :=
  ty.words ++ separated (names.map (Declarator.words spell))

namespace Stmt

/-- An expression statement in the head of a loop. -/
def evalWords : Stmt → List Word
  | eval e => e.words spell
  | _ => []

/-- What a loop starts with. -/
def startWords (init : List Stmt) : List Declarator → List Word
  | [] => separated (init.map (evalWords spell))
  | d :: ds => Declarator.wordsOfAll spell d.ty (d :: ds)

def conditionWords : Option Expr → List Word
  | none => []
  | some e => e.words spell

mutual

def words : Stmt → List Word
  | declare _ ty names => Declarator.wordsOfAll spell ty names ++ [.semicolon]
  | eval e => e.words spell ++ [.semicolon]
  | print _ e => .keyword .print :: .openParen :: (e.words spell ++ [.closeParen, .semicolon])
  | block _ body => .openBrace :: (wordsOfAll body ++ [.closeBrace])
  | doWhile _ body condition =>
    .keyword .doLoop :: (body.words ++ .keyword .whileTest :: .openParen ::
      (condition.words spell ++ [.closeParen, .semicolon]))
  | forLoop _ names init condition update body =>
    .keyword .forLoop :: .openParen :: (startWords spell init names ++ .semicolon ::
      (conditionWords spell condition ++ .semicolon ::
      (separated (update.map (evalWords spell)) ++ .closeParen :: body.words)))

def wordsOfAll : List Stmt → List Word
  | [] => []
  | s :: ss => s.words ++ wordsOfAll ss

end

end Stmt

/-- The text of a program, in which `spell` writes the doubles. -/
def Program.text (program : Program) : String :=
  String.ofList (layout (Stmt.wordsOfAll spell program))

/-- A name is spelled with letters, digits and underscores, and is not a keyword. -/
structure IsName (text : String) : Prop where
  start : ∃ c cs, text.toList = c :: cs ∧ isNameStart c = true
  chars : ∀ c ∈ text.toList, isNameChar c = true
  word : Keyword.ofText? text = none

/-- A text is digits with a point between them, and stands for the double. -/
structure Spells (text : List Char) (value : Double) : Prop where
  digits : ∃ whole fraction : List Char, text = whole ++ '.' :: fraction ∧
    whole ≠ [] ∧ fraction ≠ [] ∧ (∀ c ∈ whole, c.isDigit = true) ∧
    (∀ c ∈ fraction, c.isDigit = true) ∧ Double.ofDigits whole fraction = value

def Literal.Writable : Literal → Prop
  | double value => Spells (spell value) value
  | _ => True

/-- Nothing in the expression is known from checking, and names are spelled as such. -/
def Expr.Writable : Expr → Prop
  | literal mark value => mark.ty = none ∧ value.Writable spell
  | var mark name slot => mark.ty = none ∧ slot = none ∧ IsName name
  | unary mark _ e => mark.ty = none ∧ e.Writable
  | binary mark _ l r => mark.ty = none ∧ l.Writable ∧ r.Writable
  | concat _ _ _ => False
  | ternary mark c t f => mark.ty = none ∧ c.Writable ∧ t.Writable ∧ f.Writable
  | guarded mark c t => mark.ty = none ∧ c.Writable ∧ t.Writable

structure Declarator.Writable (ty : Ty) (d : Declarator) : Prop where
  ty : d.ty = ty
  slot : d.slot = none
  name : IsName d.name
  init : ∀ e, d.init = some e → e.Writable spell

/-- There are names, all of them of a type with values. -/
structure Declarator.AllWritable (ty : Ty) (names : List Declarator) : Prop where
  kind : ∃ kind, ty.kind? = some kind
  some : names ≠ []
  each : ∀ d ∈ names, d.Writable spell ty

def Stmt.EvalsWritable (ss : List Stmt) : Prop :=
  ∀ s ∈ ss, ∃ e : Expr, s = .eval e ∧ e.Writable spell

mutual

/-- A statement of the shape that is read: declarations declare something, and a loop starts with
declared names or with expression statements, not with both. -/
def Stmt.Writable : Stmt → Prop
  | .declare _ ty names => Declarator.AllWritable spell ty names
  | .eval e | .print _ e => e.Writable spell
  | .block _ body => AllWritable body
  | .doWhile _ body condition => body.Writable ∧ condition.Writable spell
  | .forLoop _ names init condition update body =>
    ((names = [] ∧ EvalsWritable spell init) ∨
      (init = [] ∧ ∃ ty, Declarator.AllWritable spell ty names)) ∧
    (∀ e, condition = some e → e.Writable spell) ∧ EvalsWritable spell update ∧ body.Writable

def Stmt.AllWritable : List Stmt → Prop
  | [] => True
  | s :: ss => s.Writable ∧ AllWritable ss

end

def Mark.withoutLine (mark : Mark) : Mark :=
  { mark with line := 0 }

def Expr.withoutLines : Expr → Expr
  | literal mark value => literal mark.withoutLine value
  | var mark name slot => var mark.withoutLine name slot
  | unary mark op e => unary mark.withoutLine op e.withoutLines
  | binary mark op l r => binary mark.withoutLine op l.withoutLines r.withoutLines
  | concat mark l r => concat mark.withoutLine l.withoutLines r.withoutLines
  | ternary mark c t f => ternary mark.withoutLine c.withoutLines t.withoutLines f.withoutLines
  | guarded mark c t => guarded mark.withoutLine c.withoutLines t.withoutLines

def Declarator.withoutLines (d : Declarator) : Declarator :=
  { d with line := 0, init := d.init.map Expr.withoutLines }

mutual

def Stmt.withoutLines : Stmt → Stmt
  | .declare _ ty names => .declare 0 ty (names.map Declarator.withoutLines)
  | .eval e => .eval e.withoutLines
  | .print _ e => .print 0 e.withoutLines
  | .block _ body => .block 0 (allWithoutLines body)
  | .doWhile _ body condition => .doWhile 0 body.withoutLines condition.withoutLines
  | .forLoop _ names init condition update body =>
    .forLoop 0 (names.map Declarator.withoutLines) (allWithoutLines init)
      (condition.map Expr.withoutLines) (allWithoutLines update) body.withoutLines

def Stmt.allWithoutLines : List Stmt → List Stmt
  | [] => []
  | s :: ss => s.withoutLines :: allWithoutLines ss

end

end BlockLang
