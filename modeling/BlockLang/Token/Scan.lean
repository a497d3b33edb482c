import BlockLang.Source
import BlockLang.Text.Blank
import BlockLang.Text.Quoted
import BlockLang.Token

namespace BlockLang

/-- What can be wrong with the characters of a source or of a string literal. -/
inductive LexFault where
  | missingFraction (found : Char)
  | gluedNumber (found : Char)
  | unexpected (found : Char)
  | unterminatedString
  | unknownEscape (found : Char)
deriving Repr, DecidableEq

def LexFault.message : LexFault → String
  | missingFraction found =>
    "unexpected " ++ Quoted.char found ++ ", expected digit after decimal point"
  | gluedNumber found =>
    "unexpected " ++ Quoted.char found ++ ", expected delimiter or space after number"
  | unexpected found => "unexpected " ++ Quoted.char found
  | unterminatedString => "string literal is never closed"
  | unknownEscape found => "unknown escape sequence `\\" ++ found.toString ++ "`"

structure LexError where
  fault : LexFault
  offset : Nat
deriving Repr, DecidableEq

/-- Drops blanks and comments and counts their bytes on from `offset`. A comment runs from two
slashes to the end of the line; `comment` says that one is open. -/
def skipTrivia (comment : Bool) (offset : Nat) : List Char → Nat × List Char
  | [] => (offset, [])
  | c :: cs =>
    if comment then skipTrivia (c != '\n') (offset + c.utf8Size) cs
    else if isBlank c then skipTrivia false (offset + c.utf8Size) cs
    else if c = '/' && cs.head? = some '/' then skipTrivia true (offset + 1) cs
    else (offset, c :: cs)

def isPunctuation (c : Char) : Bool :=
  let n := c.toNat
  (33 ≤ n && n ≤ 47) || (58 ≤ n && n ≤ 64) || (91 ≤ n && n ≤ 96) || (123 ≤ n && n ≤ 126)

/-- What may stand right after a number. -/
def isDelimiter (c : Char) : Bool :=
  isBlank c || (isPunctuation c && c != '_' && c != '.')

def isNameStart (c : Char) : Bool :=
  c.isAlpha || c = '_'

def isNameChar (c : Char) : Bool :=
  c.isAlphanum || c = '_'

/-- One token's kind and characters, and the characters after it. -/
structure Lexeme where
  kind : TokenKind
  chars : List Char
  rest : List Char

namespace Lexeme

/-- The tokens that are one character long whatever follows. -/
def single? : Char → Option TokenKind
  | '(' => some .openParen
  | ')' => some .closeParen
  | '{' => some .openBrace
  | '}' => some .closeBrace
  | ';' => some .semicolon
  | ',' => some .comma
  | ':' => some .colon
  | _ => none

/-- The characters of a string up to its closing quote, which is not one after an odd run of
backslashes. Only after a backslash may a newline stand in a string. -/
def stringBody? (escaped : Bool) (body : List Char) : List Char → Option (List Char × List Char)
  | [] => none
  | c :: cs =>
    if escaped then stringBody? false (c :: body) cs
    else if c = '\n' then none
    else if c = '"' then some ((c :: body).reverse, cs)
    else stringBody? (c = '\\') (c :: body) cs

/-- The sign that starts with `c`, the characters of it, and what follows. -/
def sign? (c : Char) (cs : List Char) : Option (Sign × List Char × List Char) :=
  match c with
  | '|' => some <| match cs with
    | '|' :: rest => (.pipePipe, ['|', '|'], rest)
    | _ => (.pipe, ['|'], cs)
  | '&' => some <| match cs with
    | '&' :: rest => (.andAnd, ['&', '&'], rest)
    | _ => (.and, ['&'], cs)
  | '<' => some (.less, ['<'], cs)
  | '>' => some (.greater, ['>'], cs)
  | '^' => some (.caret, ['^'], cs)
  | '=' => some (.equals, ['='], cs)
  | '!' => some (.bang, ['!'], cs)
  | '+' => some (.plus, ['+'], cs)
  | '-' => some (.minus, ['-'], cs)
  | '/' => some (.slash, ['/'], cs)
  | '*' => some (.star, ['*'], cs)
  | '%' => some (.percent, ['%'], cs)
  | '?' => some (.question, ['?'], cs)
  | _ => none

/-- A sign takes the `=` right after it. -/
def operator (sign : Sign) (chars : List Char) : List Char → Lexeme
  | '=' :: rest => ⟨.operator sign true, chars ++ ['='], rest⟩
  | rest => ⟨.operator sign false, chars, rest⟩

def operator? (c : Char) (cs : List Char) : Option Lexeme :=
  (sign? c cs).map fun (sign, chars, rest) => operator sign chars rest

/-- A name is a keyword if it is spelt like one. -/
def nameKind (chars : List Char) : TokenKind :=
  match Keyword.ofText? (String.ofList chars) with
  | some word => .keyword word
  | none => .identifier

def name (c : Char) (cs : List Char) : Lexeme :=
  let chars := c :: cs.takeWhile isNameChar
  ⟨nameKind chars, chars, cs.dropWhile isNameChar⟩

/-- A fault, and how many bytes after the start of the token it lies. -/
abbrev Fault := LexFault × Nat

/-- Ends a number, which must not run into what follows. -/
def endNumber (kind : TokenKind) (chars rest : List Char) : Except Fault Lexeme :=
  match rest with
  | c :: _ =>
    if isDelimiter c then .ok ⟨kind, chars, rest⟩ else .error (.gluedNumber c, chars.length)
  | [] => .ok ⟨kind, chars, []⟩

/-- Digits, or digits with a point between them; `c` is the first. -/
def number (c : Char) (cs : List Char) : Except Fault Lexeme :=
  let whole := c :: cs.takeWhile Char.isDigit
  match cs.dropWhile Char.isDigit with
  | '.' :: after =>
    let fraction := after.takeWhile Char.isDigit
    if fraction.isEmpty then
      .error (.missingFraction (after.head?.getD '\x00'), whole.length + 1)
    else
      endNumber .decimal (whole ++ '.' :: fraction) (after.dropWhile Char.isDigit)
  | rest => endNumber .number whole rest

/-- The token that starts with `c`. -/
def scan (c : Char) (cs : List Char) : Except Fault Lexeme :=
  match single? c with
  | some kind => .ok ⟨kind, [c], cs⟩
  | none =>
    if c = '"' then
      match stringBody? false [] cs with
      | some (body, rest) => .ok ⟨.string, c :: body, rest⟩
      | none => .error (.unterminatedString, 0)
    else if isNameStart c then .ok (name c cs)
    else
      match operator? c cs with
      | some lexeme => .ok lexeme
      | none => if c.isDigit then number c cs else .error (.unexpected c, 0)

theorem length_stringBody? {escaped : Bool} {body cs chars rest : List Char}
    (h : stringBody? escaped body cs = some (chars, rest)) : rest.length < cs.length := by
  induction cs generalizing escaped body with
  | nil => simp [stringBody?] at h
  | cons c cs ih =>
    simp only [stringBody?] at h
    split at h
    · exact Nat.lt_succ_of_lt (ih h)
    · split at h
      · simp at h
      · split at h
        · simp only [Option.some.injEq, Prod.mk.injEq] at h
          simp [← h.2]
        · exact Nat.lt_succ_of_lt (ih h)

theorem length_sign? {c : Char} {cs chars rest : List Char} {sign : Sign}
    (h : sign? c cs = some (sign, chars, rest)) : rest.length ≤ cs.length := by
  unfold sign? at h
  split at h <;> (try split at h) <;> cases h <;> simp

theorem length_operator (sign : Sign) (chars rest : List Char) :
    (operator sign chars rest).rest.length ≤ rest.length := by
  unfold operator
  split <;> simp

theorem length_operator? {c : Char} {cs : List Char} {l : Lexeme}
    (h : operator? c cs = some l) : l.rest.length ≤ cs.length := by
  obtain ⟨⟨sign, chars, rest⟩, hs, rfl⟩ := Option.map_eq_some_iff.1 h
  exact Nat.le_trans (length_operator sign chars rest) (length_sign? hs)

theorem rest_endNumber {kind : TokenKind} {chars rest : List Char} {l : Lexeme}
    (h : endNumber kind chars rest = .ok l) : l.rest = rest := by
  unfold endNumber at h
  split at h
  · split at h
    · simp only [Except.ok.injEq] at h
      rw [← h]
    · simp at h
  · simp only [Except.ok.injEq] at h
    rw [← h]

theorem length_dropWhile_le (p : Char → Bool) (cs : List Char) :
    (cs.dropWhile p).length ≤ cs.length :=
  (List.dropWhile_sublist p).length_le

theorem length_number {c : Char} {cs : List Char} {l : Lexeme}
    (h : number c cs = .ok l) : l.rest.length ≤ cs.length := by
  have hd := length_dropWhile_le Char.isDigit cs
  simp only [number] at h
  split at h
  · rename_i after heq
    split at h
    · simp at h
    · rw [rest_endNumber h]
      have := length_dropWhile_le Char.isDigit after
      rw [heq] at hd
      exact Nat.le_trans this (Nat.le_of_succ_le hd)
  · rw [rest_endNumber h]
    exact hd

/-- A token takes at least its first character. -/
theorem length_scan {c : Char} {cs : List Char} {l : Lexeme}
    (h : scan c cs = .ok l) : l.rest.length ≤ cs.length := by
  unfold scan at h
  split at h
  · simp only [Except.ok.injEq] at h
    simp [← h]
  · split at h
    · split at h
      · rename_i hb
        simp only [Except.ok.injEq] at h
        simpa [← h] using Nat.le_of_lt (length_stringBody? hb)
      · simp at h
    · split at h
      · simp only [Except.ok.injEq] at h
        simpa [← h, name] using length_dropWhile_le isNameChar cs
      · split at h
        · rename_i ho
          simp only [Except.ok.injEq] at h
          exact h ▸ length_operator? ho
        · split at h
          · exact length_number h
          · simp at h

end Lexeme

/-- What comes after the last token: the end of the input, or a fault. -/
inductive Ending where
  | finished (offset line : Nat)
  | failed (error : LexError)
deriving Repr, DecidableEq

structure Scan where
  tokens : List Token
  ending : Ending
deriving Repr, DecidableEq

namespace Scan

theorem length_skipTrivia_le (comment : Bool) (offset : Nat) (cs : List Char) :
    (skipTrivia comment offset cs).2.length ≤ cs.length := by
  induction cs generalizing comment offset with
  | nil => simp [skipTrivia]
  | cons c cs ih =>
    simp only [skipTrivia]
    split
    · exact Nat.le_succ_of_le (ih _ _)
    · split
      · exact Nat.le_succ_of_le (ih _ _)
      · split
        · exact Nat.le_succ_of_le (ih _ _)
        · exact Nat.le_refl _

/-- Scans the characters from `offset` on and adds their tokens to those found before. -/
def run (source : Source) (found : Array Token) (offset : Nat) (cs : List Char) : Scan :=
  match _trivia : skipTrivia false offset cs with
  | (start, []) => ⟨found.toList, .finished start (source.lineOf start)⟩
  | (start, c :: rest) =>
    match _lexeme : Lexeme.scan c rest with
    | .error (fault, distance) => ⟨found.toList, .failed ⟨fault, start + distance⟩⟩
    | .ok lexeme =>
      let token : Token :=
        ⟨lexeme.kind, String.ofList lexeme.chars, start, source.lineOf start⟩
      run source (found.push token) (start + utf8Length lexeme.chars) lexeme.rest
termination_by cs.length
decreasing_by
  have ht := length_skipTrivia_le false offset cs
  rw [_trivia] at ht
  exact Nat.lt_of_le_of_lt (Lexeme.length_scan _lexeme) ht

/-- The tokens of a source. -/
def ofSource (source : Source) : Scan :=
  run source #[] 0 source.text.toList

end Scan

end BlockLang
