import Lox.Token.Lexer

/-! # The scanner

The scanner walks over the bytes of a source text and gives one item after another, and the end-of-file
token after the last.  The shape of a lexeme shows in its bytes, as the characters that it asks about are
ASCII, and the bytes of other characters are all at least 128.  What a token keeps is read off a slice of the
bytes; a slice that starts or ends inside a character is no text, and the scanner would stop there. -/

namespace Lox

/-! ### Slices -/

/-- Bytes that are no text. -/
structure Torn where
  bytes : List UInt8
  deriving DecidableEq, Repr

/-- The text of a slice of the source. -/
def sliceText (bytes : List UInt8) : Except Torn String :=
  match String.fromUTF8? bytes.toByteArray with
  | some text => .ok text
  | none => .error ⟨bytes⟩

/-! ### Lexemes by their bytes -/

/-- Is a byte a character of a class?  The bytes from 128 on, parts of characters, count as characters
outside ASCII. -/
def byteIs (p : Char → Bool) (b : UInt8) : Bool := p (Char.ofNat b.toNat)

/-- Does a byte go on with a character that an earlier byte has begun? -/
def isContinuation (b : UInt8) : Bool := 128 ≤ b && b < 192

/-- What a lexeme is, as far as its bytes show. -/
inductive Shape where
  | trivia
  | fixed (kind : Kind)
  | word
  | number
  | string
  | unterminated
  | unexpected

namespace Scanner

/-- The bytes of a number after its first digit. -/
def numberBytes (rest : List UInt8) : List UInt8 :=
  let whole := rest.takeWhile (byteIs Char.isDigit)
  match rest.drop whole.length with
  | point :: digit :: more =>
    if byteIs (· = '.') point && byteIs Char.isDigit digit then
      whole ++ point :: (digit :: more).takeWhile (byteIs Char.isDigit)
    else whole
  | _ => whole

/-- The bytes of a string after its opening quote, and whether it is closed. -/
def stringBytes (rest : List UInt8) : Shape × List UInt8 :=
  let body := rest.takeWhile (byteIs (· ≠ '"'))
  match rest.drop body.length with
  | quote :: _ => (.string, body ++ [quote])
  | [] => (.unterminated, body)

/-- A slash, or the comment that two of them open, up to the end of its line. -/
def slashBytes (rest : List UInt8) : Shape × List UInt8 :=
  match rest with
  | next :: _ =>
    if byteIs (· = '/') next then (.trivia, rest.takeWhile (byteIs (· ≠ '\n'))) else (.fixed .slash, [])
  | [] => (.fixed .slash, [])

/-- An operator that an equals sign may extend. -/
def operatorBytes (short long : Kind) (rest : List UInt8) : Shape × List UInt8 :=
  match rest with
  | next :: _ => if byteIs (· = '=') next then (.fixed long, [next]) else (.fixed short, [])
  | [] => (.fixed short, [])

/-- The shape of the lexeme that starts with the byte `b`, and the bytes of it after that one. -/
def lexeme (b : UInt8) (rest : List UInt8) : Shape × List UInt8 :=
  let c := Char.ofNat b.toNat
  if isBlank c then (.trivia, [])
  else if c = '/' then slashBytes rest
  else if c = '"' then stringBytes rest
  else if c.isDigit then (.number, numberBytes rest)
  else if isWordStart c then (.word, rest.takeWhile (byteIs isWordPart))
  else match punctuation? c, extensible? c with
    | some kind, _ => (.fixed kind, [])
    | none, some (short, long) => operatorBytes short long rest
    | none, none => (.unexpected, rest.takeWhile isContinuation)

/-- The value of the text of a number: digits, perhaps with a point and more digits. -/
def numberValue (text : List Char) : Float :=
  Decimal.ofDigits (text.takeWhile Char.isDigit) (text.dropWhile Char.isDigit).tail

/-- The item that a lexeme of a shape is, unless it is trivia: its bytes, and the line it ends on. -/
def item? (shape : Shape) (bytes : List UInt8) (line : Nat) : Except Torn (Option Item) :=
  match shape with
  | .trivia => return none
  | .fixed kind => return some (.ok ⟨⟨← sliceText bytes, line⟩, kind⟩)
  | .word => do
    let text ← sliceText bytes
    return some (.ok ⟨⟨text, line⟩, wordKind text.toList⟩)
  | .number => do
    let text ← sliceText bytes
    return some (.ok ⟨⟨text, line⟩, .number (numberValue text.toList)⟩)
  | .string => do
    let text ← sliceText bytes
    return some (.ok ⟨⟨text, line⟩, .string (← sliceText bytes.tail.dropLast)⟩)
  | .unterminated => return some (.error ⟨.unterminatedString, line⟩)
  | .unexpected => do
    let _ ← sliceText bytes
    return some (.error ⟨.unexpectedCharacter, line⟩)

end Scanner

/-! ### The walk -/

/-- How far a source text is scanned: the bytes that are left, the line of the next one, and whether the
end-of-file token was given. -/
structure Scanner where
  rest : List UInt8
  line : Nat
  done : Bool
  deriving DecidableEq, Repr

namespace Scanner

/-- The start of a source text. -/
def start (source : String) : Scanner := ⟨source.toUTF8.data.toList, 1, false⟩

/-- The scanner behind a lexeme. -/
def behind (s : Scanner) (bytes : List UInt8) (rest : List UInt8) : Scanner :=
  { s with rest := rest, line := s.line + bytes.countP (byteIs (· = '\n')) }

/-- The next item, and nothing after the end-of-file token. -/
def next (s : Scanner) : Except Torn (Option Item × Scanner) :=
  if s.done then return (none, s)
  else match _h : s.rest with
    | [] => return (some (.ok (Token.eof s.line)), { s with done := true })
    | b :: rest => do
      let (shape, more) := lexeme b rest
      let s' := s.behind (b :: more) (rest.drop more.length)
      match ← item? shape (b :: more) s'.line with
      | some item => return (some item, s')
      | none => s'.next
termination_by s.rest.length
decreasing_by
  simp only [behind, _h, List.length_cons, List.length_drop]
  omega

/-- The items up to the end, at most `limit` of them. -/
def drain : (limit : Nat) → Scanner → Except Torn (List Item)
  | 0, _ => return []
  | limit + 1, s => do
    match ← s.next with
    | (some item, s) => return item :: (← drain limit s)
    | (none, _) => return []

end Scanner

/-- The stream of items of a source text. -/
def scan (source : String) : List Item :=
  match (Scanner.start source).drain (source.utf8ByteSize + 2) with
  | .ok items => items
  | .error _ => []

end Lox
