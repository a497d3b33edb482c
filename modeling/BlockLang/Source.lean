namespace BlockLang

/-- The number of bytes that characters take in UTF-8. -/
def utf8Length (cs : List Char) : Nat :=
  cs.foldl (fun n c => n + c.utf8Size) 0

/-- One line of a source without its newline, and the offset it starts at. -/
structure Line where
  start : Nat
  text : String
deriving Repr, DecidableEq

namespace Line

/-- The characters up to the first newline, and then those of each later line. -/
def cut (cs : List Char) : List Char × List (List Char) :=
  cs.foldr
    (fun c (line, later) => if c = '\n' then ([], line :: later) else (c :: line, later))
    ([], [])

/-- Gives each line its offset. The first starts at `start`, and a newline takes one byte. -/
def place (start : Nat) (placed : Array Line) : List (List Char) → Array Line
  | [] => placed
  | cs :: later =>
    place (start + utf8Length cs + 1) (placed.push ⟨start, String.ofList cs⟩) later

/-- The lines of a text: one more than it has newlines. -/
def table (cs : List Char) : Array Line :=
  place 0 #[] ((cut cs).1 :: (cut cs).2)

/-- Counts the lines that start at or before `offset`, when those below `low` do and those from
`high` on do not. The starts increase, so either half can be dropped. -/
def countStarted (lines : Array Line) (offset low high : Nat) : Nat :=
  if low < high then
    let middle := (low + high) / 2
    if lines[middle]?.any (fun line => line.start ≤ offset) then
      countStarted lines offset (middle + 1) high
    else
      countStarted lines offset low middle
  else
    low
termination_by high - low

end Line

/-- Where an error points: a line and a column, both from one, and the text of the line.
Columns count bytes, in words of the machine as offsets do. -/
structure Place where
  line : Nat
  column : UInt64
  text : String
deriving Repr, DecidableEq

/-- A text to compile, with the path it was read from if it has one, and a table of its lines, in
which the line of an offset is found by halving. Offsets count bytes of UTF-8. -/
structure Source where
  text : String
  path : Option String
  lines : Array Line

namespace Source

def ofString (text : String) (path : Option String := none) : Source :=
  ⟨text, path, Line.table text.toList⟩

/-- The offset of the end of the text. -/
def size (source : Source) : Nat :=
  source.text.utf8ByteSize

/-- The line of an offset, from one. An offset beyond the text is on the last line. -/
def lineOf (source : Source) (offset : Nat) : Nat :=
  Line.countStarted source.lines offset 0 source.lines.size

/-- The line of an offset, and where in it the offset lies. -/
def place? (source : Source) (offset : UInt64) : Option Place :=
  let line := source.lineOf offset.toNat
  source.lines[line - 1]?.map fun l => ⟨line, offset - .ofNat l.start + 1, l.text⟩

end Source

end BlockLang
