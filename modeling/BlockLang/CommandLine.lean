import BlockLang.Bytecode.Disassembly
import BlockLang.Compilation
import BlockLang.Stmt.Outline

namespace BlockLang

namespace CommandLine

structure Invocation where
  file : String
  output : Option String
  dump : Bool
  disassemble : Bool
  run : Bool
  typing : BranchTyping
deriving Repr, DecidableEq

/-- Arguments as far as they have been read. The file to compile may still be missing. -/
structure Arguments where
  file : Option String
  output : Option String
  dump : Bool
  disassemble : Bool
  run : Bool
  typing : BranchTyping

/-- The text behind a leading text. -/
def after? (leading text : String) : Option String :=
  if leading.toList.isPrefixOf text.toList then
    some (String.ofList (text.toList.drop leading.length))
  else none

def readFile (args : Arguments) (text : String) : Except String Arguments :=
  match args.file with
  | none => .ok { args with file := some text }
  | some _ => .error ("unexpected argument '" ++ text ++ "'")

def readTyping (args : Arguments) (word : String) : Except String Arguments :=
  (BranchTyping.ofName word).map fun typing => { args with typing := typing }

/-- Reads the arguments in order. A value follows its option as the next argument, behind an equals
sign, or, for a short option, at once. -/
def read (args : Arguments) : List String → Except String Arguments
  | [] => .ok args
  | "--" :: rest => rest.foldlM readFile args
  | "--dump" :: rest => read { args with dump := true } rest
  | "--disassemble" :: rest => read { args with disassemble := true } rest
  | "--run" :: rest => read { args with run := true } rest
  | ["-o"] | ["--output"] | ["--ternary-branches"] => .error "missing value of the last argument"
  | "-o" :: path :: rest => read { args with output := some path } rest
  | "--output" :: path :: rest => read { args with output := some path } rest
  | "--ternary-branches" :: word :: rest => do read (← readTyping args word) rest
  | argument :: rest =>
    match after? "--output=" argument, after? "--ternary-branches=" argument,
        after? "-o=" argument, after? "-o" argument with
    | some path, _, _, _ => read { args with output := some path } rest
    | _, some word, _, _ => do read (← readTyping args word) rest
    | _, _, some path, _ => read { args with output := some path } rest
    | _, _, _, some path => read { args with output := some path } rest
    | _, _, _, _ =>
      if argument ≠ "-" ∧ (after? "-" argument).isSome then
        .error ("unknown option '" ++ argument ++ "'")
      else do
        read (← readFile args argument) rest

def parse (arguments : List String) : Except String Invocation := do
  let args ← read ⟨none, none, false, false, false, .identical⟩ arguments
  match args.file with
  | some file => return ⟨file, args.output, args.dump, args.disassemble, args.run, args.typing⟩
  | none => throw "no file to compile"

/-- A file name with its extension replaced. A dot in front does not start an extension. -/
def replaceExtension (name : List Char) (extension : String) : List Char :=
  let stem := (name.reverse.dropWhile (· ≠ '.')).drop 1
  (if stem.isEmpty then name else stem.reverse) ++ '.' :: extension.toList

/-- Where the bytecode goes if nothing else is said: beside the file, with another extension. -/
def defaultOutput (file : String) : String :=
  let reversed := file.toList.reverse
  let name := (reversed.takeWhile (· ≠ '/')).reverse
  let folder := (reversed.dropWhile (· ≠ '/')).reverse
  String.ofList (folder ++ replaceExtension name "bin")

/-- What is printed, the exit code, and the file that is written. -/
structure Outcome where
  code : Nat
  stdout : String
  stderr : String
  written : Option (String × Bytes)

def failed (stdout message : String) (written : Option (String × Bytes)) : Outcome :=
  ⟨1, stdout, message ++ "\n", written⟩

/-- What is left to do with bytecode that has been written. -/
def present (invocation : Invocation) (stdout : String) (b : Bytecode)
    (written : Option (String × Bytes)) : Outcome :=
  let listing : Except DecodeError String :=
    if invocation.disassemble then b.disassemble else .ok ""
  match listing with
  | .error error => failed stdout error.message written
  | .ok listing =>
    let stdout := stdout ++ listing
    if invocation.run then
      match Machine.run b Machine.defaultLimit with
      | .error error => failed stdout error.message written
      | .ok lines => ⟨0, stdout ++ String.join (lines.map (· ++ "\n")), "", written⟩
    else
      ⟨0, stdout, "", written⟩

/-- Compiles a text. The checked program is shown even if it has mistakes, and the bytecode is
written before anything else is done with it. -/
def execute (invocation : Invocation) (text : String) : Outcome :=
  let source := Source.ofString text (some invocation.file)
  match source.check invocation.typing with
  | .error error => failed "" (error.report source).render none
  | .ok checked =>
    let stdout := if invocation.dump then checked.program.outline else ""
    match checked.compile with
    | .error error => failed stdout (error.message source) none
    | .ok b =>
      let output := invocation.output.getD (defaultOutput invocation.file)
      present invocation stdout b (some (output, b.encode))

end CommandLine

end BlockLang
