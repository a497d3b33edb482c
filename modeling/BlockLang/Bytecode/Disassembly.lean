import BlockLang.Bytecode
import BlockLang.Report
import BlockLang.Text.Quoted

namespace BlockLang

namespace Bytecode

def instructionLine (address : Nat) (i : Instruction Int16) : String :=
  Report.padLeft 6 (toString address) ++ ": " ++
    i.text (fun offset => toString ((address : Int) + offset.toInt)) ++ "\n"

def stringLine (index : Nat) (text : String) : String :=
  "    #" ++ toString index ++ " = " ++ Quoted.string text ++ "\n"

/-- The listing, in which a jump shows the address it goes to. Code that is not made of whole
instructions has none. -/
def disassemble (b : Bytecode) : Except DecodeError String :=
  let sweep := Sweep.ofCode b.code
  match sweep.stop with
  | some error => .error error
  | none =>
    let strings := b.strings.toList.zipIdx.map fun (text, index) => stringLine index text
    let code := sweep.found.toList.map fun (address, i) => instructionLine address i
    .ok ("max locals: " ++ toString b.maxLocals.toNat ++ "\nstrings:\n" ++ String.join strings ++
      "code:\n" ++ String.join code)

end Bytecode

end BlockLang
