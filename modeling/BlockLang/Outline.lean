namespace BlockLang

abbrev Attribute := String × String

/-- An element is a single tag, or a pair of tags around further elements. -/
inductive Element where
  | leaf (tag : String) (attributes : List Attribute)
  | node (tag : String) (attributes : List Attribute) (children : List Element)

namespace Outline

/-- A character inside an attribute: what would end the value, the tag or the line is escaped. -/
def escape : Char → String
  | '<' => "&lt;"
  | '>' => "&gt;"
  | '&' => "&amp;"
  | '"' => "&quot;"
  | '\n' => "\\n"
  | c => c.toString

def escapeText (text : String) : String :=
  text.foldl (fun out c => out ++ escape c) ""

def attributeText (a : Attribute) : String :=
  " " ++ a.1 ++ "=\"" ++ escapeText a.2 ++ "\""

def indent (depth : Nat) : String :=
  "".pushn ' ' (4 * depth)

/-- A tag as far as its attributes. -/
def opening (depth : Nat) (tag : String) (attributes : List Attribute) : String :=
  indent depth ++ "<" ++ tag ++ String.join (attributes.map attributeText)

mutual

def lines (depth : Nat) : Element → List String
  | .leaf tag attributes => [opening depth tag attributes ++ "/>"]
  | .node tag attributes children =>
    (opening depth tag attributes ++ ">") ::
      (linesOfAll (depth + 1) children ++ [indent depth ++ "</" ++ tag ++ ">"])

def linesOfAll (depth : Nat) : List Element → List String
  | [] => []
  | e :: es => lines depth e ++ linesOfAll depth es

end

/-- The text of an element: one tag to a line, with four blanks for each open element, and a newline
behind each. -/
def text (e : Element) : String :=
  String.join ((lines 0 e).map (· ++ "\n"))

end Outline

end BlockLang
