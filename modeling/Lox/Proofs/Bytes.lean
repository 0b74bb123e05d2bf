import Mathlib.Data.List.TakeWhile
import Lox.Token.Scanner

/-! # The scanner and the spans

The scanner looks at bytes, the spans at characters.  A class that tells no two characters outside ASCII
apart is decided by any byte of a character (`AsciiClass`, `utf8_cons`), so every lexeme found in the bytes is the
UTF-8 form of a span (`Scanner.lexeme_utf8`).  Hence no slice is torn and the stream of the scanner is the items
of the spans (`Scanner.drain_utf8`, `scan_eq`). -/

namespace Lox

/-! ### Bytes of characters -/

/-- The bytes of a text. -/
def utf8 (text : List Char) : List UInt8 := text.flatMap String.utf8EncodeChar

theorem utf8_append (text more : List Char) : utf8 (text ++ more) = utf8 text ++ utf8 more :=
  List.flatMap_append

theorem utf8_toList (source : String) : source.toUTF8.data.toList = utf8 source.toList := by
  rw [String.toUTF8_eq_toByteArray, ← String.utf8Encode_toList]
  simp only [List.utf8Encode, List.data_toByteArray, utf8]

theorem sliceText_utf8 (text : List Char) : sliceText (utf8 text) = .ok (String.ofList text) := by
  have hb : (utf8 text).toByteArray = (String.ofList text).toByteArray := by
    rw [← String.utf8Encode_toList, String.toList_ofList]
    rfl
  have hf : String.fromUTF8? (utf8 text).toByteArray = some (String.ofList text) := by
    rw [hb, String.fromUTF8?, dif_pos (String.ofList text).isValidUTF8]
    rfl
  simp only [sliceText, hf]

/-- The character that a byte would be by itself. -/
abbrev ofByte (b : UInt8) : Char := Char.ofNat b.toNat

theorem ofByte_val (b : UInt8) : (ofByte b).val.toNat = b.toNat := by
  have hb : b.toNat < 256 := b.toNat_lt
  have hv : b.toNat.isValidChar := Or.inl (by omega)
  rw [ofByte, Char.ofNat, dif_pos hv]
  rfl

theorem utf8EncodeChar_ascii {c : Char} (h : c.val.toNat < 128) :
    ∃ b, String.utf8EncodeChar c = [b] ∧ ofByte b = c := by
  refine ⟨UInt8.ofNat c.val.toNat, ?_, ?_⟩
  · simp only [String.utf8EncodeChar]
    rw [if_pos (by omega)]
  · apply Char.ext
    apply UInt32.toNat_inj.mp
    rw [ofByte_val, UInt8.toNat_ofNat']
    omega

/-- A character outside ASCII is a leading byte and bytes that go on with it. -/
theorem utf8EncodeChar_wide {c : Char} (h : 128 ≤ c.val.toNat) :
    ∃ b more, String.utf8EncodeChar c = b :: more ∧ 192 ≤ b ∧ ∀ x ∈ more, isContinuation x := by
  have lead {n : Nat} (low : 192 ≤ n) (high : n < 256) : (192 : UInt8) ≤ UInt8.ofNat n := by
    rw [UInt8.le_iff_toNat_le, UInt8.toNat_ofNat']
    change 192 ≤ _
    omega
  have going {n : Nat} : isContinuation (UInt8.ofNat (n % 64 + 128)) := by
    simp only [isContinuation, Bool.and_eq_true, decide_eq_true_eq]
    rw [UInt8.le_iff_toNat_le, UInt8.lt_iff_toNat_lt, UInt8.toNat_ofNat']
    change 128 ≤ _ ∧ _ < 192
    omega
  simp only [String.utf8EncodeChar]
  rw [if_neg (by omega)]
  split
  · exact ⟨_, _, rfl, lead (by omega) (by omega), List.forall_mem_singleton.mpr going⟩
  split
  · exact ⟨_, _, rfl, lead (by omega) (by omega),
      List.forall_mem_cons.mpr ⟨going, List.forall_mem_singleton.mpr going⟩⟩
  · exact ⟨_, _, rfl, lead (by omega) (by omega),
      List.forall_mem_cons.mpr ⟨going, List.forall_mem_cons.mpr ⟨going, List.forall_mem_singleton.mpr going⟩⟩⟩

/-! ### Classes of ASCII -/

/-- A function that tells no two characters outside ASCII apart. -/
def AsciiClass {α : Type} (f : Char → α) : Prop :=
  ∀ c d : Char, 128 ≤ c.val.toNat → 128 ≤ d.val.toNat → f c = f d

theorem AsciiClass.of_const {α : Type} {f : Char → α} (k : α)
    (h : ∀ c : Char, 128 ≤ c.val.toNat → f c = k) : AsciiClass f :=
  fun c d hc hd => (h c hc).trans (h d hd).symm

theorem ne_of_wide {c a : Char} (h : 128 ≤ c.val.toNat) (ha : a.val.toNat < 128) : c ≠ a := by
  rintro rfl
  omega

theorem AsciiClass.eq {a : Char} (ha : a.val.toNat < 128) : AsciiClass fun c => decide (c = a) :=
  .of_const false fun _ h => decide_eq_false (ne_of_wide h ha)

theorem AsciiClass.ne {a : Char} (ha : a.val.toNat < 128) : AsciiClass fun c => decide (c ≠ a) :=
  .of_const true fun _ h => decide_eq_true (ne_of_wide h ha)

theorem isBlank_of_wide {c : Char} (h : 128 ≤ c.val.toNat) : isBlank c = false := by
  have hn {a : Char} (ha : a.val.toNat < 128) := ne_of_wide h ha
  simp only [isBlank, Bool.or_eq_false_iff, decide_eq_false_iff_not]
  exact ⟨⟨⟨hn (by decide), hn (by decide)⟩, hn (by decide)⟩, hn (by decide)⟩

theorem isDigit_of_wide {c : Char} (h : 128 ≤ c.val.toNat) : c.isDigit = false := by
  simp only [Char.isDigit, Bool.and_eq_false_imp, decide_eq_true_eq, decide_eq_false_iff_not, ge_iff_le,
    UInt32.le_iff_toNat_le]
  intro _
  change ¬ _ ≤ 57
  omega

theorem isWordStart_of_wide {c : Char} (h : 128 ≤ c.val.toNat) : isWordStart c = false := by
  have hupper : c.isUpper = false := by
    change decide (c.val ≥ 65 ∧ c.val ≤ 90) = false
    simp only [decide_eq_false_iff_not, ge_iff_le, UInt32.le_iff_toNat_le]
    change ¬ (_ ∧ _ ≤ 90)
    omega
  have hlower : c.isLower = false := by
    change (decide (c.val ≥ 97) && decide (c.val ≤ 122)) = false
    simp only [Bool.and_eq_false_imp, decide_eq_true_eq, decide_eq_false_iff_not, ge_iff_le, UInt32.le_iff_toNat_le]
    intro _
    change ¬ _ ≤ 122
    omega
  have halpha : c.isAlpha = (c.isUpper || c.isLower) := rfl
  simp only [isWordStart, halpha, hupper, hlower, Bool.or_false, Bool.false_or, decide_eq_false_iff_not]
  exact ne_of_wide h (by decide)

theorem isWordPart_of_wide {c : Char} (h : 128 ≤ c.val.toNat) : isWordPart c = false := by
  rw [isWordPart, isWordStart_of_wide h, isDigit_of_wide h]
  rfl

theorem punctuation?_of_wide {c : Char} (h : 128 ≤ c.val.toNat) : punctuation? c = none := by
  unfold punctuation?
  split
  all_goals first | rfl | exact absurd h (by decide)

theorem extensible?_of_wide {c : Char} (h : 128 ≤ c.val.toNat) : extensible? c = none := by
  unfold extensible?
  split
  all_goals first | rfl | exact absurd h (by decide)

theorem asciiClass_isBlank : AsciiClass isBlank := .of_const _ fun _ => isBlank_of_wide
theorem asciiClass_isDigit : AsciiClass Char.isDigit := .of_const _ fun _ => isDigit_of_wide
theorem asciiClass_isWordStart : AsciiClass isWordStart := .of_const _ fun _ => isWordStart_of_wide
theorem asciiClass_isWordPart : AsciiClass isWordPart := .of_const _ fun _ => isWordPart_of_wide
theorem asciiClass_punctuation? : AsciiClass punctuation? := .of_const _ fun _ => punctuation?_of_wide
theorem asciiClass_extensible? : AsciiClass extensible? := .of_const _ fun _ => extensible?_of_wide

/-! ### Walks over the bytes of a text -/

/-- The bytes of a character: the first, and those that go on with it.  A class sees the character in each
of them. -/
structure Encodes (c : Char) (b : UInt8) (more : List UInt8) : Prop where
  bytes : String.utf8EncodeChar c = b :: more
  leading : isContinuation b = false
  going : ∀ x ∈ more, isContinuation x
  seen : ∀ {α : Type} {f : Char → α}, AsciiClass f → ∀ x ∈ b :: more, f (ofByte x) = f c
  single : c.val.toNat < 128 → more = []

theorem exists_encodes (c : Char) : ∃ b more, Encodes c b more := by
  by_cases h : c.val.toNat < 128
  · obtain ⟨b, hb, hc⟩ := utf8EncodeChar_ascii h
    refine ⟨b, [], hb, ?_, by simp, fun _ => List.forall_mem_singleton.mpr (by rw [hc]), fun _ => rfl⟩
    have hlow : b.toNat < 128 := by rw [← ofByte_val, hc]; exact h
    simp only [isContinuation, Bool.and_eq_false_imp, decide_eq_true_eq]
    intro hge
    rw [UInt8.le_iff_toNat_le] at hge
    change 128 ≤ _ at hge
    omega
  · have h := Nat.le_of_not_lt h
    obtain ⟨b, more, hb, hlead, hmore⟩ := utf8EncodeChar_wide h
    have hlead : 192 ≤ b.toNat := by simpa [UInt8.le_iff_toNat_le] using hlead
    refine ⟨b, more, hb, ?_, hmore, fun hf x hx => hf _ _ ?_ h, fun hlt => absurd h (Nat.not_le_of_lt hlt)⟩
    · simp only [isContinuation, Bool.and_eq_false_imp, decide_eq_true_eq, decide_eq_false_iff_not]
      intro _
      rw [UInt8.lt_iff_toNat_lt]
      change ¬ _ < 192
      omega
    · rw [ofByte_val]
      rcases List.mem_cons.mp hx with rfl | hx
      · omega
      · have hx := hmore x hx
        simp only [isContinuation, Bool.and_eq_true, decide_eq_true_eq] at hx
        exact UInt8.le_iff_toNat_le.mp hx.1

theorem Encodes.utf8_cons {c : Char} {b : UInt8} {more : List UInt8} (h : Encodes c b more) (rest : List Char) :
    utf8 (c :: rest) = b :: (more ++ utf8 rest) := by
  simp only [utf8, List.flatMap_cons, h.bytes, List.cons_append]

theorem Encodes.first {α : Type} {c : Char} {b : UInt8} {more : List UInt8} (h : Encodes c b more)
    {f : Char → α} (hf : AsciiClass f) : f (ofByte b) = f c :=
  h.seen hf b List.mem_cons_self

variable {p : Char → Bool}

theorem takeWhile_utf8 (hp : AsciiClass p) (text : List Char) :
    (utf8 text).takeWhile (byteIs p) = utf8 (text.takeWhile p) := by
  induction text with
  | nil => rfl
  | cons c rest ih =>
    obtain ⟨b, more, h⟩ := exists_encodes c
    rw [h.utf8_cons, ← List.cons_append]
    cases hc : p c with
    | true =>
      have hall : ∀ x ∈ b :: more, byteIs p x := fun x hx => (h.seen hp x hx).trans hc
      rw [List.takeWhile_append_of_pos hall, ih, List.takeWhile_cons_of_pos hc, h.utf8_cons]
      rfl
    | false =>
      have hb : ¬ byteIs p b := by
        rw [byteIs, h.first hp, hc]
        exact Bool.false_ne_true
      rw [List.cons_append, List.takeWhile_cons_of_neg hb, List.takeWhile_cons_of_neg (by simp [hc])]
      rfl

theorem drop_utf8 (hp : AsciiClass p) (text : List Char) :
    (utf8 text).drop ((utf8 text).takeWhile (byteIs p)).length = utf8 (text.dropWhile p) := by
  have h := utf8_append (text.takeWhile p) (text.dropWhile p)
  rw [List.takeWhile_append_dropWhile] at h
  rw [takeWhile_utf8 hp, h]
  exact List.drop_left

/-- No byte goes on with a character at the start of a text. -/
theorem takeWhile_isContinuation_utf8 (text : List Char) : (utf8 text).takeWhile isContinuation = [] := by
  cases text with
  | nil => rfl
  | cons c rest =>
    obtain ⟨b, more, h⟩ := exists_encodes c
    rw [h.utf8_cons, List.takeWhile_cons_of_neg (by simp [h.leading])]

/-- Line ends are counted alike in the bytes and in the characters. -/
theorem countP_utf8 (text : List Char) : (utf8 text).countP (byteIs (· = '\n')) = text.count '\n' := by
  induction text with
  | nil => rfl
  | cons c rest ih =>
    obtain ⟨b, more, h⟩ := exists_encodes c
    have hseen := h.seen (AsciiClass.eq (a := '\n') (by decide))
    rw [h.utf8_cons, ← List.cons_append, List.countP_append, ih, List.count_cons]
    by_cases hc : c = '\n'
    · rw [h.single (by rw [hc]; decide), List.countP_singleton]
      simp only [byteIs, h.first (AsciiClass.eq (a := '\n') (by decide)), hc, decide_true, ↓reduceIte,
        BEq.rfl]
      omega
    · have hnone : (b :: more).countP (byteIs (· = '\n')) = 0 := by
        rw [List.countP_eq_zero]
        intro x hx
        rw [byteIs, hseen x hx]
        simpa using hc
      rw [hnone, if_neg (by simpa using hc)]
      omega

/-! ### Lexemes -/

namespace Scanner

/-- A lexeme found in bytes is the UTF-8 form of a span, and the two are the same item. -/
structure Finds (found : Shape × List UInt8) (b : UInt8) (s : Span) : Prop where
  bytes : b :: found.2 = utf8 s.text
  item : ∀ line, item? found.1 (b :: found.2) line = .ok (s.item? line)

variable {c : Char} {b : UInt8}

theorem utf8_cons_of_single (hb : String.utf8EncodeChar c = [b]) (rest : List Char) :
    b :: utf8 rest = utf8 (c :: rest) := by
  simp [utf8, hb]

theorem Finds.trivia {more : List UInt8} {s : Span} (hs : s.reading = .trivia) (hb : b :: more = utf8 s.text) :
    Finds (.trivia, more) b s :=
  ⟨hb, fun _ => by simp only [Span.item?, hs]; rfl⟩

theorem Finds.fixed {more : List UInt8} {s : Span} {kind : Kind} (hs : s.reading = .token kind)
    (hb : b :: more = utf8 s.text) : Finds (.fixed kind, more) b s :=
  ⟨hb, fun _ => by simp only [item?, hb, sliceText_utf8, Span.item?, hs]; rfl⟩

theorem slash_utf8 (hb : String.utf8EncodeChar c = [b]) (rest : List Char) :
    Finds (slashBytes (utf8 rest)) b (slashSpan c rest).1 := by
  cases rest with
  | nil => exact .fixed rfl (utf8_cons_of_single hb [])
  | cons d rest =>
    obtain ⟨x, more, h⟩ := exists_encodes d
    have hx := h.first (AsciiClass.eq (a := '/') (by decide))
    rw [h.utf8_cons, slashBytes, byteIs, hx, ← h.utf8_cons]
    by_cases hd : d = '/'
    · subst hd
      rw [if_pos (decide_eq_true rfl), takeWhile_utf8 (.ne (by decide))]
      exact .trivia rfl (utf8_cons_of_single hb _)
    · rw [decide_eq_false hd, if_neg Bool.false_ne_true, slashSpan]
      · exact .fixed rfl (utf8_cons_of_single hb [])
      · rintro _ ⟨⟩
        exact hd rfl

theorem operator_utf8 (hb : String.utf8EncodeChar c = [b]) (short long : Kind) (rest : List Char) :
    Finds (operatorBytes short long (utf8 rest)) b (operatorSpan c short long rest).1 := by
  cases rest with
  | nil => exact .fixed rfl (utf8_cons_of_single hb [])
  | cons d rest =>
    obtain ⟨x, more, h⟩ := exists_encodes d
    have hx := h.first (AsciiClass.eq (a := '=') (by decide))
    rw [h.utf8_cons, operatorBytes, byteIs, hx]
    by_cases hd : d = '='
    · subst hd
      obtain rfl := h.single (by decide)
      rw [if_pos (decide_eq_true rfl)]
      refine .fixed rfl ?_
      change b :: [x] = utf8 [c, '=']
      rw [← utf8_cons_of_single hb, h.utf8_cons]
      rfl
    · rw [decide_eq_false hd, if_neg Bool.false_ne_true, operatorSpan]
      · exact .fixed rfl (utf8_cons_of_single hb [])
      · rintro _ ⟨⟩
        exact hd rfl

theorem word_utf8 (hb : String.utf8EncodeChar c = [b]) (rest : List Char) :
    Finds (.word, (utf8 rest).takeWhile (byteIs isWordPart)) b (wordSpan c rest).1 := by
  have hbytes : b :: (utf8 rest).takeWhile (byteIs isWordPart) = utf8 (c :: rest.takeWhile isWordPart) := by
    rw [takeWhile_utf8 asciiClass_isWordPart, utf8_cons_of_single hb]
  refine ⟨hbytes, fun line => ?_⟩
  simp only [hbytes, item?, sliceText_utf8, wordSpan, splitWhile, Span.item?]
  change Except.ok _ = _
  rw [String.toList_ofList]

theorem string_utf8 (hb : String.utf8EncodeChar c = [b]) (rest : List Char) :
    Finds (stringBytes (utf8 rest)) b (stringSpan c rest).1 := by
  have hp : AsciiClass fun d : Char => decide (d ≠ '"') := .ne (by decide)
  rw [stringBytes, drop_utf8 hp, takeWhile_utf8 hp, stringSpan, splitWhile]
  cases hafter : rest.dropWhile fun d => decide (d ≠ '"') with
  | nil => exact ⟨utf8_cons_of_single hb _, fun _ => rfl⟩
  | cons quote after =>
    have hquote : quote = '"' := by
      have := List.head?_dropWhile_not (fun d : Char => decide (d ≠ '"')) rest
      rw [hafter] at this
      simpa using this
    obtain ⟨x, more, h⟩ := exists_encodes quote
    obtain rfl := h.single (by rw [hquote]; decide)
    have hclosed : utf8 (rest.takeWhile fun d => decide (d ≠ '"')) ++ [x] =
        utf8 (rest.takeWhile (fun d => decide (d ≠ '"')) ++ [quote]) := by
      rw [utf8_append, h.utf8_cons]
      rfl
    rw [h.utf8_cons]
    change Finds (.string, _ ++ [x]) b ⟨c :: _ ++ [quote], .token (.string _)⟩
    refine ⟨by rw [hclosed]; exact utf8_cons_of_single hb _, fun line => ?_⟩
    simp only [List.tail_cons, item?, List.dropLast_concat, sliceText_utf8]
    rw [hclosed, utf8_cons_of_single hb, sliceText_utf8]
    rfl

/-! The fraction of a number is found by two bytes: the point and the digit after it. -/

/-- The bytes of the whole number or the number with a fraction. -/
theorem numberBytes_utf8 (rest : List Char) :
    numberBytes (utf8 rest) = utf8 (match fraction? (rest.dropWhile Char.isDigit) with
      | some (fraction, _) => rest.takeWhile Char.isDigit ++ '.' :: fraction
      | none => rest.takeWhile Char.isDigit) := by
  have hpoint : AsciiClass fun d : Char => decide (d = '.') := .eq (by decide)
  rw [numberBytes, drop_utf8 asciiClass_isDigit, takeWhile_utf8 asciiClass_isDigit]
  match hafter : rest.dropWhile Char.isDigit with
  | [] => rfl
  | [d] =>
    have hnone : fraction? [d] = none := by simp [fraction?]
    obtain ⟨x, more, h⟩ := exists_encodes d
    rw [hnone, h.utf8_cons]
    cases more with
    | nil => rfl
    | cons y more =>
      have hd : d ≠ '.' := by
        rintro rfl
        exact absurd (h.single (by decide)) (List.cons_ne_nil _ _)
      change (if byteIs (· = '.') x && _ then _ else _) = _
      rw [byteIs, h.first hpoint, decide_eq_false hd, Bool.false_and, if_neg Bool.false_ne_true]
  | d :: e :: after =>
    obtain ⟨x, more, h⟩ := exists_encodes d
    obtain ⟨y, others, h'⟩ := exists_encodes e
    by_cases hd : d = '.'
    · subst hd
      obtain rfl := h.single (by decide)
      have htail := takeWhile_utf8 asciiClass_isDigit (e :: after)
      rw [h'.utf8_cons] at htail
      rw [h.utf8_cons, h'.utf8_cons]
      change (if byteIs (· = '.') x && byteIs Char.isDigit y then
        _ ++ x :: (y :: (others ++ utf8 after)).takeWhile (byteIs Char.isDigit) else _) = _
      rw [htail, byteIs, byteIs, h.first hpoint, h'.first asciiClass_isDigit, fraction?]
      cases e.isDigit with
      | true =>
        simp only [decide_true, Bool.and_self, ↓reduceIte, splitWhile]
        rw [utf8_append, h.utf8_cons]
        rfl
      | false => rfl
    · have hfraction : fraction? (d :: e :: after) = none := by simp [fraction?, hd]
      have hfalse : byteIs (· = '.') x = false := (h.first hpoint).trans (decide_eq_false hd)
      rw [hfraction, h.utf8_cons, h'.utf8_cons]
      cases more with
      | nil => simp [hfalse]
      | cons z more => simp [hfalse]

theorem number_utf8 (hb : String.utf8EncodeChar c = [b]) (hc : c.isDigit) (rest : List Char) :
    Finds (.number, numberBytes (utf8 rest)) b (numberSpan c rest).1 := by
  have hdigits : ∀ d ∈ c :: rest.takeWhile Char.isDigit, d.isDigit :=
    List.forall_mem_cons.mpr ⟨hc, List.all_eq_true.mp List.all_takeWhile⟩
  have hbytes := utf8_cons_of_single hb
  rw [numberBytes_utf8, numberSpan]
  simp only [splitWhile]
  cases fraction? (rest.dropWhile Char.isDigit) with
  | none =>
    refine ⟨hbytes _, fun line => ?_⟩
    have htake : (c :: rest.takeWhile Char.isDigit).takeWhile Char.isDigit = c :: rest.takeWhile Char.isDigit :=
      List.takeWhile_eq_self_iff.mpr hdigits
    have hdrop : (c :: rest.takeWhile Char.isDigit).dropWhile Char.isDigit = [] :=
      List.dropWhile_eq_nil_iff.mpr hdigits
    simp only [hbytes, item?, sliceText_utf8]
    change Except.ok (some (Except.ok (⟨_, .number (numberValue _)⟩ : Token))) = _
    rw [String.toList_ofList, numberValue, htake, hdrop]
    simp [Span.item?]
  | some found =>
    refine ⟨hbytes _, fun line => ?_⟩
    simp only [hbytes, item?, sliceText_utf8]
    change Except.ok (some (Except.ok (⟨_, .number (numberValue _)⟩ : Token))) = _
    rw [String.toList_ofList, ← List.cons_append, numberValue, List.takeWhile_append_of_pos hdigits,
      List.dropWhile_append_of_pos hdigits]
    simp [Span.item?]

theorem unexpected_utf8 {more : List UInt8} (h : Encodes c b more) (rest : List Char) :
    Finds (.unexpected, (more ++ utf8 rest).takeWhile isContinuation) b
      ⟨[c], .faulty .unexpectedCharacter⟩ := by
  have hbytes : b :: (more ++ utf8 rest).takeWhile isContinuation = utf8 [c] := by
    rw [List.takeWhile_append_of_pos h.going, takeWhile_isContinuation_utf8, List.append_nil]
    simp [utf8, h.bytes]
  exact ⟨hbytes, fun line => by simp only [hbytes, item?, sliceText_utf8]; rfl⟩

/-- The lexeme at the start of a text is its first span. -/
theorem lexeme_utf8 {more : List UInt8} (h : Encodes c b more) (rest : List Char) :
    Finds (lexeme b (more ++ utf8 rest)) b (Span.first c rest).1 := by
  have hslash := h.first (AsciiClass.eq (a := '/') (by decide))
  have hquote := h.first (AsciiClass.eq (a := '"') (by decide))
  simp only [decide_eq_decide] at hslash hquote
  unfold lexeme Span.first
  simp only [h.first asciiClass_isBlank, h.first asciiClass_isDigit, h.first asciiClass_isWordStart,
    h.first asciiClass_punctuation?, h.first asciiClass_extensible?, hslash, hquote]
  by_cases hwide : 128 ≤ c.val.toNat
  · simp only [isBlank_of_wide hwide, isDigit_of_wide hwide, isWordStart_of_wide hwide,
      punctuation?_of_wide hwide, extensible?_of_wide hwide, ne_of_wide hwide (by decide : '/'.val.toNat < 128),
      ne_of_wide hwide (by decide : '"'.val.toNat < 128)]
    exact unexpected_utf8 h rest
  · obtain rfl := h.single (Nat.lt_of_not_le hwide)
    have hb := h.bytes
    rw [List.nil_append]
    by_cases hblank : isBlank c
    · rw [if_pos hblank, if_pos hblank]
      exact .trivia rfl (utf8_cons_of_single hb [])
    by_cases hs : c = '/'
    · rw [if_neg hblank, if_neg hblank, if_pos hs, if_pos hs]
      exact slash_utf8 hb rest
    by_cases hq : c = '"'
    · rw [if_neg hblank, if_neg hblank, if_neg hs, if_neg hs, if_pos hq, if_pos hq]
      exact string_utf8 hb rest
    by_cases hd : c.isDigit
    · simp only [hblank, hs, hq, hd, ↓reduceIte, Bool.false_eq_true]
      exact number_utf8 hb hd rest
    by_cases hw : isWordStart c
    · simp only [hblank, hs, hq, hd, hw, ↓reduceIte, Bool.false_eq_true]
      exact word_utf8 hb rest
    simp only [hblank, hs, hq, hd, hw, ↓reduceIte, Bool.false_eq_true]
    cases punctuation? c with
    | some kind => exact .fixed rfl (utf8_cons_of_single hb [])
    | none =>
      cases extensible? c with
      | some pair => exact operator_utf8 hb pair.1 pair.2 rest
      | none => exact unexpected_utf8 h rest

/-! ### The walk -/

/-- The scanner before a text that starts on a line. -/
def before (text : List Char) (line : Nat) : Scanner := ⟨utf8 text, line, false⟩

theorem start_eq (source : String) : start source = before source.toList 1 := by
  rw [start, utf8_toList]
  rfl

/-- The bytes after a lexeme are the text after its span. -/
theorem Finds.drop {found : Shape × List UInt8} {s : Span} {rest : List UInt8} {after : List Char}
    (h : Finds found b s) (htext : b :: rest = utf8 (s.text ++ after)) :
    rest.drop found.2.length = utf8 after := by
  rw [utf8_append, ← h.bytes, List.cons_append, List.cons.injEq] at htext
  rw [htext.2, List.drop_left]

theorem next_nil (line : Nat) :
    (before [] line).next = .ok (some (.ok (Token.eof line)), { before [] line with done := true }) := by
  rw [next]
  rfl

/-- One round of the scanner: a lexeme, and the item it is or the items behind it. -/
theorem next_cons {s : Scanner} {rest : List UInt8} (hdone : s.done = false) (hrest : s.rest = b :: rest) :
    s.next =
      let found := lexeme b rest
      let s' := s.behind (b :: found.2) (rest.drop found.2.length)
      (item? found.1 (b :: found.2) s'.line).bind fun
        | some item => .ok (some item, s')
        | none => s'.next := by
  rw [next, if_neg (by simp [hdone])]
  split
  · simp_all
  · rename_i h
    obtain ⟨rfl, rfl⟩ := List.cons.inj (h.symm.trans hrest)
    rfl

/-- The scanner before a text goes on to the first span, and behind it. -/
theorem next_utf8 (c : Char) (rest : List Char) (line : Nat) :
    (before (c :: rest) line).next =
      let s := (Span.first c rest).1
      let behind := before (Span.first c rest).2 (s.lastLine line)
      match s.item? (s.lastLine line) with
      | some item => .ok (some item, behind)
      | none => behind.next := by
  obtain ⟨b, more, h⟩ := exists_encodes c
  have hfound := lexeme_utf8 h rest
  have hdrop : (more ++ utf8 rest).drop (lexeme b (more ++ utf8 rest)).2.length = utf8 (Span.first c rest).2 :=
    hfound.drop (by rw [Span.first_append, h.utf8_cons])
  have hbehind : (before (c :: rest) line).behind (b :: (lexeme b (more ++ utf8 rest)).2)
      ((more ++ utf8 rest).drop (lexeme b (more ++ utf8 rest)).2.length) =
        before (Span.first c rest).2 ((Span.first c rest).1.lastLine line) := by
    rw [behind, hdrop, hfound.bytes, countP_utf8]
    rfl
  rw [next_cons rfl (h.utf8_cons rest)]
  simp only [hbehind]
  rw [hfound.item]
  rfl

end Scanner

/-! ### Whole streams -/

theorem items_ne_nil (line : Nat) (ss : List Span) : items line ss ≠ [] := by
  induction ss generalizing line with
  | nil => exact List.cons_ne_nil _ _
  | cons s rest ih =>
    rw [items]
    split
    · exact List.cons_ne_nil _ _
    · exact ih _

theorem length_items (line : Nat) (ss : List Span) : (items line ss).length ≤ ss.length + 1 := by
  induction ss generalizing line with
  | nil => exact Nat.le_refl _
  | cons s rest ih =>
    have := ih (s.lastLine line)
    rw [items, List.length_cons]
    split
    · rw [List.length_cons]
      omega
    · omega

namespace Scanner

/-- The scanner gives these items, one after another, and is then in another state. -/
inductive Emits : Scanner → List Item → Scanner → Prop where
  | nil (s : Scanner) : Emits s [] s
  | cons {s s' last : Scanner} {item : Item} {others : List Item} :
      s.next = .ok (some item, s') → Emits s' others last → Emits s (item :: others) last

/-- What a scanner gives is known from its next step on. -/
theorem Emits.congr {s s' last : Scanner} {stream : List Item} (h : Emits s' stream last)
    (hne : stream ≠ []) (hnext : s.next = s'.next) : Emits s stream last := by
  cases h with
  | nil => exact absurd rfl hne
  | cons hitem hothers => exact .cons (hnext.trans hitem) hothers

theorem Emits.drain {s last : Scanner} {stream : List Item} (h : Emits s stream last)
    (hend : last.next = .ok (none, last)) {limit : Nat} (hlimit : stream.length < limit) :
    s.drain limit = .ok stream := by
  induction h generalizing limit with
  | nil s =>
    obtain ⟨limit, rfl⟩ := Nat.exists_eq_add_one_of_ne_zero (Nat.ne_zero_of_lt hlimit)
    rw [Scanner.drain, hend]
    rfl
  | cons hitem _ ih =>
    obtain ⟨limit, rfl⟩ := Nat.exists_eq_add_one_of_ne_zero (Nat.ne_zero_of_lt hlimit)
    rw [Scanner.drain, hitem]
    change (Scanner.drain limit _).bind _ = _
    rw [ih hend (Nat.lt_of_succ_lt_succ hlimit)]
    rfl

/-- A scanner gives the items of the spans of its text, and nothing after them. -/
theorem emits_utf8 (text : List Char) (line : Nat) :
    ∃ last, Emits (before text line) (items line (spans text)) last ∧ last.next = .ok (none, last) := by
  fun_induction spans text generalizing line with
  | case1 => exact ⟨_, .cons (next_nil line) (.nil _), by rw [next]; rfl⟩
  | case2 c rest ih =>
    obtain ⟨last, hemits, hend⟩ := ih ((Span.first c rest).1.lastLine line)
    refine ⟨last, ?_, hend⟩
    have hnext := next_utf8 c rest line
    simp only at hnext
    rw [items]
    cases hitem : (Span.first c rest).1.item? ((Span.first c rest).1.lastLine line) with
    | some item =>
      rw [hitem] at hnext
      exact .cons hnext hemits
    | none =>
      rw [hitem] at hnext
      exact hemits.congr (items_ne_nil _ _) hnext

end Scanner

/-! ### The stream of a text -/

theorem length_spans (text : List Char) : (spans text).length ≤ text.length := by
  fun_induction spans text with
  | case1 => exact Nat.le_refl _
  | case2 c rest ih => exact Nat.lt_of_le_of_lt ih (Span.first_length c rest)

theorem length_le_utf8 (text : List Char) : text.length ≤ (utf8 text).length := by
  induction text with
  | nil => exact Nat.le_refl _
  | cons c rest ih =>
    obtain ⟨b, more, h⟩ := exists_encodes c
    rw [h.utf8_cons, List.length_cons, List.length_cons, List.length_append]
    omega

/-- The scanner never stops within a text: its stream is the items of the spans. -/
theorem scan_eq (source : String) : scan source = items 1 (spans source.toList) := by
  obtain ⟨last, hemits, hend⟩ := Scanner.emits_utf8 source.toList 1
  have hsize : (utf8 source.toList).length = source.utf8ByteSize := by
    rw [← utf8_toList]
    rfl
  have hlength : (items 1 (spans source.toList)).length < source.utf8ByteSize + 2 := by
    have hitems := length_items 1 (spans source.toList)
    have hspans := length_spans source.toList
    have hbytes := length_le_utf8 source.toList
    omega
  rw [scan, Scanner.start_eq, hemits.drain hend hlength]

end Lox
