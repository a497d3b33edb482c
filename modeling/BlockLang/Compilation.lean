import BlockLang.Bytecode.Format
import BlockLang.Machine
import BlockLang.Stmt.Code
import BlockLang.Stmt.Parser
import BlockLang.Stmt.Typing

namespace BlockLang

inductive CompileError where
  | parse (error : ParseError)
  | semantic (diagnostics : List Diagnostic)
  | code (error : CodeError)
deriving Repr, DecidableEq

def CompileError.message (source : Source) : CompileError → String
  | parse error => (error.report source).render
  | semantic diagnostics => Diagnostic.summary diagnostics
  | code error => error.message

/-- Code for a checked program, whether or not there were mistakes. -/
def Checked.generate (checked : Checked) : Except CodeError Bytecode :=
  checked.program.generate checked.maxLocals

/-- Code for a checked program without mistakes. -/
def Checked.compile (checked : Checked) : Except CompileError Bytecode :=
  if checked.diagnostics.isEmpty then checked.generate.mapError .code
  else .error (.semantic checked.diagnostics)

namespace Source

/-- The checked program that a source spells. -/
def check (source : Source) (typing : BranchTyping) : Except ParseError Checked :=
  (Program.parse source).map (Program.check typing)

/-- The bytecode of a source that is parsed and checked without mistakes. -/
def compile (source : Source) (typing : BranchTyping) : Except CompileError Bytecode :=
  match source.check typing with
  | .error error => .error (.parse error)
  | .ok checked => checked.compile

end Source

end BlockLang
