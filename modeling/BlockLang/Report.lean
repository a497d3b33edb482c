import BlockLang.Source

namespace BlockLang

/-- An error as it is shown: the message, the line it points at with a mark under the column, and
what was being done, innermost first. -/
structure Report where
  message : String
  path : Option String
  place : Option Place
  contexts : List String

namespace Report

/-- Puts blanks before a text until it is `width` characters wide. -/
def padLeft (width : Nat) (text : String) : String :=
  "".pushn ' ' (width - text.length) ++ text

def describeContexts (contexts : List String) : String :=
  String.join (contexts.map ("\nwhile " ++ ·))

/-- A report that points nowhere. -/
def unlocated (message : String) : Report :=
  ⟨message, none, none, []⟩

/-- A report that points at an offset of a source. -/
def located (source : Source) (offset : UInt64) (message : String) : Report :=
  ⟨message, source.path, source.place? offset, []⟩

/-- Adds what was being done around everything noted so far. -/
def within (report : Report) (context : String) : Report :=
  { report with contexts := report.contexts ++ [context] }

def line? (report : Report) : Option Nat :=
  report.place.map (·.line)

def render (report : Report) : String :=
  match report.place with
  | none =>
    "error: " ++ report.message ++ "(no location info)" ++ describeContexts report.contexts
  | some place =>
    let file := report.path.getD "<unknown source>"
    s!"error: {report.message}\n   --> {file}:{place.line}:{place.column}\n    |\n" ++
      padLeft 3 (toString place.line) ++ " | " ++ place.text ++ "\n    | " ++
      padLeft place.column.toNat "^" ++ describeContexts report.contexts

end Report

end BlockLang
