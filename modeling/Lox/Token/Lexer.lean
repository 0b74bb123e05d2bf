import Lox.Diagnostic

/-! # The spans of a text

A text falls into spans: trivia, tokens and faulty stretches, each as long as its class allows.
The spans in order make up the text again, so nothing is lost.  `items` counts lines and drops the
trivia; the stream of items ends with one end-of-file token.  The scanner (`Lox.Token.Scanner`) finds the
same stream in the bytes of a text. -/

namespace Lox

/-- What a span of text is. -/
inductive Reading where
  | trivia
  | token (kind : Kind)
  | faulty (fault : LexFault)
  deriving DecidableEq, Repr

/-- A stretch of source text with its reading. -/
structure Span where
  text : List Char
  reading : Reading
  deriving DecidableEq, Repr

/-! ### Character classes -/

/-- Blank characters separate tokens and mean nothing. -/
def isBlank (c : Char) : Bool := c = ' ' || c = '\r' || c = '\t' || c = '\n'

/-- A word starts with a Latin letter or an underscore. -/
def isWordStart (c : Char) : Bool := c.isAlpha || c = '_'

/-- A word goes on with letters, digits and underscores. -/
def isWordPart (c : Char) : Bool := isWordStart c || c.isDigit

/-- The tokens of one character that no other character extends. -/
def punctuation? : Char → Option Kind
  | '(' => some .leftParen
  | ')' => some .rightParen
  | '{' => some .leftBrace
  | '}' => some .rightBrace
  | ',' => some .comma
  | '.' => some .dot
  | '-' => some .minus
  | '+' => some .plus
  | ';' => some .semicolon
  | '*' => some .star
  | _ => none

/-- The operators that a following equals sign turns into another: alone, and with the sign. -/
def extensible? : Char → Option (Kind × Kind)
  | '!' => some (.bang, .bangEqual)
  | '=' => some (.equal, .equalEqual)
  | '<' => some (.less, .lessEqual)
  | '>' => some (.greater, .greaterEqual)
  | _ => none

/-- The longest beginning whose characters are all in a class, and what comes after it. -/
def splitWhile (p : Char → Bool) (text : List Char) : List Char × List Char :=
  (text.takeWhile p, text.dropWhile p)

/-! ### Spans -/

/-- The category of a word: reserved or an identifier. -/
def wordKind (word : List Char) : Kind :=
  match Keyword.ofText? (String.ofList word) with
  | some keyword => .keyword keyword
  | none => .identifier

/-- The fraction of a number, when a point with a digit after it follows: the digits, and what
comes after them. -/
def fraction? : List Char → Option (List Char × List Char)
  | '.' :: d :: rest =>
    if d.isDigit then some (splitWhile Char.isDigit (d :: rest)) else none
  | _ => none

/-- The number that starts with the digit `c`. -/
def numberSpan (c : Char) (rest : List Char) : Span × List Char :=
  let (more, after) := splitWhile Char.isDigit rest
  match fraction? after with
  | some (fraction, after) =>
    (⟨c :: more ++ '.' :: fraction, .token (.number (Decimal.ofDigits (c :: more) fraction))⟩, after)
  | none => (⟨c :: more, .token (.number (Decimal.ofDigits (c :: more) []))⟩, after)

/-- The word that starts with `c`. -/
def wordSpan (c : Char) (rest : List Char) : Span × List Char :=
  let (more, after) := splitWhile isWordPart rest
  (⟨c :: more, .token (wordKind (c :: more))⟩, after)

/-- The string whose opening quote is `c`; it may hold line ends and has no escapes. -/
def stringSpan (c : Char) (rest : List Char) : Span × List Char :=
  match splitWhile (· ≠ '"') rest with
  | (body, quote :: after) =>
    (⟨c :: body ++ [quote], .token (.string (String.ofList body))⟩, after)
  | (body, []) => (⟨c :: body, .faulty .unterminatedString⟩, [])

/-- A slash, or the comment that two of them open, up to the end of its line. -/
def slashSpan (c : Char) (rest : List Char) : Span × List Char :=
  match rest with
  | '/' :: _ =>
    let (body, after) := splitWhile (· ≠ '\n') rest
    (⟨c :: body, .trivia⟩, after)
  | _ => (⟨[c], .token .slash⟩, rest)

/-- An operator that an equals sign may extend. -/
def operatorSpan (c : Char) (short long : Kind) (rest : List Char) : Span × List Char :=
  match rest with
  | '=' :: after => (⟨[c, '='], .token long⟩, after)
  | _ => (⟨[c], .token short⟩, rest)

/-- The span that starts with `c`, and the text after it. -/
def Span.first (c : Char) (rest : List Char) : Span × List Char :=
  if isBlank c then (⟨[c], .trivia⟩, rest)
  else if c = '/' then slashSpan c rest
  else if c = '"' then stringSpan c rest
  else if c.isDigit then numberSpan c rest
  else if isWordStart c then wordSpan c rest
  else match punctuation? c, extensible? c with
    | some kind, _ => (⟨[c], .token kind⟩, rest)
    | none, some (short, long) => operatorSpan c short long rest
    | none, none => (⟨[c], .faulty .unexpectedCharacter⟩, rest)

/-! ### Nothing is lost -/

theorem splitWhile_append (p : Char → Bool) (text : List Char) :
    (splitWhile p text).1 ++ (splitWhile p text).2 = text :=
  List.takeWhile_append_dropWhile

theorem fraction?_append {cs fraction after : List Char} (h : fraction? cs = some (fraction, after)) :
    '.' :: fraction ++ after = cs := by
  match cs with
  | '.' :: d :: rest =>
    simp only [fraction?] at h
    split at h
    · have := splitWhile_append Char.isDigit (d :: rest)
      simp_all
    · cases h
  | [] => simp [fraction?] at h
  | [c] => simp [fraction?] at h
  | c :: d :: rest =>
    by_cases hc : c = '.'
    · subst hc
      simp only [fraction?] at h
      split at h
      · have := splitWhile_append Char.isDigit (d :: rest)
        simp_all
      · cases h
    · simp [fraction?, hc] at h

theorem numberSpan_append (c : Char) (rest : List Char) :
    (numberSpan c rest).1.text ++ (numberSpan c rest).2 = c :: rest := by
  have hs := splitWhile_append Char.isDigit rest
  unfold numberSpan
  simp only
  split
  · rename_i h
    have hf := fraction?_append h
    simpa only [List.cons_append, List.append_assoc, hf, List.cons.injEq, true_and] using hs
  · simpa using hs

theorem wordSpan_append (c : Char) (rest : List Char) :
    (wordSpan c rest).1.text ++ (wordSpan c rest).2 = c :: rest := by
  simp [wordSpan, splitWhile_append]

theorem stringSpan_append (c : Char) (rest : List Char) :
    (stringSpan c rest).1.text ++ (stringSpan c rest).2 = c :: rest := by
  have hs := splitWhile_append (· ≠ '"') rest
  unfold stringSpan
  split <;> simp_all

theorem slashSpan_append (c : Char) (rest : List Char) :
    (slashSpan c rest).1.text ++ (slashSpan c rest).2 = c :: rest := by
  unfold slashSpan
  split
  · simp [splitWhile_append]
  · rfl

theorem operatorSpan_append (c : Char) (short long : Kind) (rest : List Char) :
    (operatorSpan c short long rest).1.text ++ (operatorSpan c short long rest).2 = c :: rest := by
  unfold operatorSpan
  split <;> rfl

/-- The first span and the text after it make up the whole text. -/
theorem Span.first_append (c : Char) (rest : List Char) :
    (Span.first c rest).1.text ++ (Span.first c rest).2 = c :: rest := by
  unfold Span.first
  split
  · rfl
  split
  · exact slashSpan_append c rest
  split
  · exact stringSpan_append c rest
  split
  · exact numberSpan_append c rest
  split
  · exact wordSpan_append c rest
  split
  · rfl
  · exact operatorSpan_append _ _ _ _
  · rfl

/-- A span is never empty. -/
theorem Span.first_ne_nil (c : Char) (rest : List Char) : (Span.first c rest).1.text ≠ [] := by
  unfold Span.first slashSpan stringSpan numberSpan wordSpan operatorSpan
  repeat' (first | split | simp)

/-- What follows a span is shorter than the text. -/
theorem Span.first_length (c : Char) (rest : List Char) :
    (Span.first c rest).2.length < (c :: rest).length := by
  have h := congrArg List.length (Span.first_append c rest)
  have := List.length_pos_iff.mpr (Span.first_ne_nil c rest)
  simp only [List.length_append] at h
  omega

/-- The spans of a text, in order. -/
def spans : List Char → List Span
  | [] => []
  | c :: rest => (Span.first c rest).1 :: spans (Span.first c rest).2
termination_by text => text.length
decreasing_by exact Span.first_length c rest

/-- The spans of a text make it up. -/
theorem flatten_spans (text : List Char) : (spans text).flatMap (·.text) = text := by
  fun_induction spans text with
  | case1 => rfl
  | case2 c rest ih => rw [List.flatMap_cons, ih, Span.first_append]

/-! ### Items -/

/-- One item of the stream: a token, or a fault in its place. -/
abbrev Item := Except LexError Token

/-- The line on which a span that starts on `line` ends. -/
def Span.lastLine (line : Nat) (s : Span) : Nat := line + s.text.count '\n'

/-- The item that a span ending on `line` is, unless it is trivia. -/
def Span.item? (line : Nat) (s : Span) : Option Item :=
  match s.reading with
  | .trivia => none
  | .token kind => some (.ok ⟨⟨String.ofList s.text, line⟩, kind⟩)
  | .faulty fault => some (.error ⟨fault, line⟩)

/-- The items of spans that start on `line`, closed by the end-of-file token. -/
def items (line : Nat) : List Span → List Item
  | [] => [.ok (Token.eof line)]
  | s :: rest =>
    match s.item? (s.lastLine line) with
    | some item => item :: items (s.lastLine line) rest
    | none => items (s.lastLine line) rest

/-- The tokens of a stream. -/
def tokensOf (stream : List Item) : List Token := stream.filterMap Except.toOption

/-- The faults of a stream. -/
def faultsOf (stream : List Item) : List LexError :=
  stream.filterMap fun
    | .ok _ => none
    | .error e => some e

end Lox
