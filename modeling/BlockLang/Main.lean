import BlockLang.CommandLine

open BlockLang CommandLine in
def main (arguments : List String) : IO UInt32 := do
  match parse arguments with
  | .error message =>
    IO.eprintln ("error: " ++ message)
    return 1
  | .ok invocation =>
    let text ← IO.FS.readFile invocation.file
    let outcome := execute invocation text
    if let some (path, bytes) := outcome.written then
      IO.FS.writeBinFile path ⟨bytes⟩
    IO.print outcome.stdout
    IO.eprint outcome.stderr
    return UInt32.ofNat outcome.code
