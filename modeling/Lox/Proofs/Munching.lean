import Mathlib.Data.List.Forall2
import Lox.Proofs.Lookahead

/-! # Maximal munch

The lexical grammar says which texts are lexemes of which category (`IsLexeme`), with no word on how they are
found.  A span that is read as a token is a lexeme (`Span.first_firstSpan`), a lexeme alone is one span
(`IsLexeme.first`), and a text that goes on has no shorter first span (`Span.first_prefix`).  So the spans of
a text are cut by the grammar: at every place the longest lexeme, trivia, or a fault where nothing else can be
(`Span.first_munched`, `scan_munches`). -/

namespace Lox

/-! ### The lexical grammar -/

/-- The tokens of fixed spelling that are no words. -/
def operators : List (List Char × Kind) :=
  [(['('], .leftParen), ([')'], .rightParen), (['{'], .leftBrace), (['}'], .rightBrace), ([','], .comma),
   (['.'], .dot), (['-'], .minus), (['+'], .plus), ([';'], .semicolon), (['*'], .star), (['/'], .slash),
   (['!'], .bang), (['!', '='], .bangEqual), (['='], .equal), (['=', '='], .equalEqual),
   (['<'], .less), (['<', '='], .lessEqual), (['>'], .greater), (['>', '='], .greaterEqual)]

/-- The texts of tokens, with the category and the value of each. -/
inductive IsLexeme : List Char → Kind → Prop where
  | operator {text : List Char} {kind : Kind} : (text, kind) ∈ operators → IsLexeme text kind
  | whole {digits : List Char} : digits ≠ [] → (∀ c ∈ digits, c.isDigit) →
      IsLexeme digits (.number (Decimal.ofDigits digits []))
  | decimal {whole fraction : List Char} : whole ≠ [] → fraction ≠ [] →
      (∀ c ∈ whole, c.isDigit) → (∀ c ∈ fraction, c.isDigit) →
      IsLexeme (whole ++ '.' :: fraction) (.number (Decimal.ofDigits whole fraction))
  | keyword (word : Keyword) : IsLexeme word.text.toList (.keyword word)
  | identifier {c : Char} {rest : List Char} : isWordStart c → (∀ d ∈ rest, isWordPart d) →
      (∀ word : Keyword, word.text.toList ≠ c :: rest) → IsLexeme (c :: rest) .identifier
  | string {body : List Char} : '"' ∉ body →
      IsLexeme ('"' :: (body ++ ['"'])) (.string (String.ofList body))

/-- Trivia start a text: a blank character or two slashes. -/
inductive StartsTrivia : List Char → Prop where
  | blank {c : Char} (rest : List Char) : isBlank c → StartsTrivia (c :: rest)
  | comment (rest : List Char) : StartsTrivia ('/' :: '/' :: rest)

/-- A stretch of trivia before a text: a blank character, or a comment up to the end of its line. -/
inductive IsTrivia : List Char → List Char → Prop where
  | blank {c : Char} (after : List Char) : isBlank c → IsTrivia [c] after
  | comment {body after : List Char} : '\n' ∉ body → (∀ c ∈ after.head?, c = '\n') →
      IsTrivia ('/' :: '/' :: body) after

/-- A span is what the grammar asks for at its place, where the text goes on behind it. -/
structure Span.Munched (s : Span) (after : List Char) : Prop where
  nonempty : s.text ≠ []
  trivia : s.reading = .trivia ↔ StartsTrivia (s.text ++ after)
  trivia_text : s.reading = .trivia → IsTrivia s.text after
  token (kind : Kind) : s.reading = .token kind ↔
    ¬ StartsTrivia (s.text ++ after) ∧ IsLexeme s.text kind ∧
      ∀ text other, IsLexeme text other → text <+: s.text ++ after → text.length ≤ s.text.length
  unexpected : s.reading = .faulty .unexpectedCharacter ↔
    ¬ StartsTrivia (s.text ++ after) ∧ (s.text ++ after).head? ≠ some '"' ∧
      ∀ text kind, IsLexeme text kind → ¬ text <+: s.text ++ after
  unexpected_text : s.reading = .faulty .unexpectedCharacter → s.text.length = 1
  unterminated : s.reading = .faulty .unterminatedString ↔
    ∃ body, s.text ++ after = '"' :: body ∧ '"' ∉ body
  unterminated_text : s.reading = .faulty .unterminatedString → after = []

/-- Spans that make up a text, each cut by the grammar. -/
inductive Munches : List Char → List Span → Prop where
  | nil : Munches [] []
  | cons {s : Span} {after : List Char} {others : List Span} :
      s.Munched after → Munches after others → Munches (s.text ++ after) (s :: others)

/-! ### Where a span starts -/

/-- The classes of first characters, each with how its spans are found. -/
inductive Opening (c : Char) : Prop where
  | blank (h : isBlank c) (found : ∀ rest, Span.first c rest = (⟨[c], .trivia⟩, rest))
  | slash (h : c = '/') (found : ∀ rest, Span.first c rest = slashSpan c rest)
  | quote (h : c = '"') (found : ∀ rest, Span.first c rest = stringSpan c rest)
  | digit (h : c.isDigit) (found : ∀ rest, Span.first c rest = numberSpan c rest)
  | word (h : isWordStart c) (found : ∀ rest, Span.first c rest = wordSpan c rest)
  | punctuation {kind : Kind} (h : punctuation? c = some kind)
      (found : ∀ rest, Span.first c rest = (⟨[c], .token kind⟩, rest))
  | extensible {short long : Kind} (h : extensible? c = some (short, long))
      (found : ∀ rest, Span.first c rest = operatorSpan c short long rest)
  | other (found : ∀ rest, Span.first c rest = (⟨[c], .faulty .unexpectedCharacter⟩, rest))

theorem opening (c : Char) : Opening c := by
  by_cases hb : isBlank c
  · exact .blank hb fun rest => by rw [Span.first, if_pos hb]
  by_cases hs : c = '/'
  · exact .slash hs fun rest => by rw [Span.first, if_neg hb, if_pos hs]
  by_cases hq : c = '"'
  · exact .quote hq fun rest => by rw [Span.first, if_neg hb, if_neg hs, if_pos hq]
  by_cases hd : c.isDigit
  · exact .digit hd fun rest => by rw [Span.first, if_neg hb, if_neg hs, if_neg hq, if_pos hd]
  by_cases hw : isWordStart c
  · exact .word hw fun rest => by rw [Span.first, if_neg hb, if_neg hs, if_neg hq, if_neg hd, if_pos hw]
  cases hp : punctuation? c with
  | some kind => exact .punctuation hp fun rest => by simp [Span.first, hb, hs, hq, hd, hw, hp]
  | none =>
    match he : extensible? c with
    | some (short, long) => exact .extensible he fun rest => by simp [Span.first, hb, hs, hq, hd, hw, hp, he]
    | none => exact .other fun rest => by simp [Span.first, hb, hs, hq, hd, hw, hp, he]

theorem not_isBlank {c : Char} (h : c.isDigit ∨ isWordStart c) : ¬ isBlank c := by
  simp only [isBlank, Bool.or_eq_true, decide_eq_true_eq]
  rintro (((rfl | rfl) | rfl) | rfl) <;> exact absurd h (by decide)

theorem Span.first_digit {c : Char} (h : c.isDigit) (rest : List Char) :
    Span.first c rest = numberSpan c rest := by
  have hs : c ≠ '/' := by rintro rfl; exact absurd h (by decide)
  have hq : c ≠ '"' := by rintro rfl; exact absurd h (by decide)
  rw [Span.first, if_neg (not_isBlank (.inl h)), if_neg hs, if_neg hq, if_pos h]

theorem not_isDigit_of_isWordStart {c : Char} (h : isWordStart c) : ¬ c.isDigit := by
  have halpha : c.isAlpha = (decide (c.val ≥ 65 ∧ c.val ≤ 90) || decide (c.val ≥ 97) && decide (c.val ≤ 122)) := rfl
  simp only [isWordStart, halpha, Bool.or_eq_true, Bool.and_eq_true, decide_eq_true_eq, ge_iff_le,
    UInt32.le_iff_toNat_le] at h
  simp only [Char.isDigit, Bool.and_eq_true, decide_eq_true_eq, ge_iff_le, UInt32.le_iff_toNat_le]
  change ¬ (_ ∧ _ ≤ 57)
  rcases h with (h | h) | rfl
  · change 65 ≤ _ ∧ _ at h
    omega
  · change 97 ≤ _ ∧ _ at h
    omega
  · decide

theorem Span.first_word {c : Char} (h : isWordStart c) (rest : List Char) :
    Span.first c rest = wordSpan c rest := by
  have hs : c ≠ '/' := by rintro rfl; exact absurd h (by decide)
  have hq : c ≠ '"' := by rintro rfl; exact absurd h (by decide)
  rw [Span.first, if_neg (not_isBlank (.inr h)), if_neg hs, if_neg hq,
    if_neg (not_isDigit_of_isWordStart h), if_pos h]

/-! ### What is found -/

/-- What the first span of a text can be, with the text after it. -/
inductive FirstSpan (c : Char) (rest : List Char) : Span × List Char → Prop where
  | trivia {text after : List Char} : IsTrivia text after → FirstSpan c rest (⟨text, .trivia⟩, after)
  | token {text after : List Char} {kind : Kind} : IsLexeme text kind →
      FirstSpan c rest (⟨text, .token kind⟩, after)
  | unterminated : c = '"' → '"' ∉ rest → FirstSpan c rest (⟨c :: rest, .faulty .unterminatedString⟩, [])
  | unexpected : (∀ rest, Span.first c rest = (⟨[c], .faulty .unexpectedCharacter⟩, rest)) →
      FirstSpan c rest (⟨[c], .faulty .unexpectedCharacter⟩, rest)

namespace FirstSpan

variable {c : Char} {rest after : List Char} {s : Span} (h : FirstSpan c rest (s, after))
include h

theorem isTrivia (hr : s.reading = .trivia) : IsTrivia s.text after := by
  cases h with
  | trivia htext => exact htext
  | _ => cases hr

theorem isLexeme {kind : Kind} (hr : s.reading = .token kind) : IsLexeme s.text kind := by
  cases h with
  | token htext =>
    cases hr
    exact htext
  | _ => cases hr

theorem of_unterminated (hr : s.reading = .faulty .unterminatedString) :
    c = '"' ∧ '"' ∉ rest ∧ s.text = c :: rest ∧ after = [] := by
  cases h with
  | unterminated hc hrest => exact ⟨hc, hrest, rfl, rfl⟩
  | _ => cases hr

theorem of_unexpected (hr : s.reading = .faulty .unexpectedCharacter) :
    s.text = [c] ∧ ∀ rest, Span.first c rest = (⟨[c], .faulty .unexpectedCharacter⟩, rest) := by
  cases h with
  | unexpected hc => exact ⟨rfl, hc⟩
  | _ => cases hr

end FirstSpan

theorem slashSpan_firstSpan (rest : List Char) : FirstSpan '/' rest (slashSpan '/' rest) := by
  unfold slashSpan
  split
  · rename_i rest
    have hstop := opensWith_dropWhile (· ≠ '\n') ('/' :: rest)
    refine .trivia (.comment (fun hmem => by simpa using List.mem_takeWhile_imp hmem) fun c hc => ?_)
    cases hafter : ('/' :: rest).dropWhile (· ≠ '\n') with
    | nil =>
      rw [hafter] at hc
      cases hc
    | cons d after =>
      rw [hafter] at hc hstop
      cases hc
      simpa [opensWith] using hstop
  · exact .token (.operator (by decide))

theorem stringSpan_firstSpan (rest : List Char) : FirstSpan '"' rest (stringSpan '"' rest) := by
  have happend := splitWhile_append (· ≠ '"') rest
  have hall := splitWhile_all (· ≠ '"') rest
  have hstop := splitWhile_stops (· ≠ '"') rest
  unfold stringSpan
  split
  · rename_i body quote after hsplit
    rw [hsplit] at hall hstop
    obtain rfl : quote = '"' := by simpa [opensWith] using hstop
    exact .token (.string fun hmem => by simpa using hall _ hmem)
  · rename_i body hsplit
    rw [hsplit, List.append_nil] at happend
    rw [hsplit] at hall
    subst happend
    exact .unterminated rfl fun hmem => by simpa using hall _ hmem

theorem fraction?_digits {text fraction after : List Char} (h : fraction? text = some (fraction, after)) :
    fraction ≠ [] ∧ ∀ c ∈ fraction, c.isDigit := by
  unfold fraction? at h
  split at h
  · rename_i d rest
    split at h
    · rename_i hd
      cases h
      exact ⟨by simp [hd], splitWhile_all Char.isDigit (d :: rest)⟩
    · cases h
  · cases h

theorem numberSpan_firstSpan {c : Char} (hc : c.isDigit) (rest : List Char) :
    FirstSpan c rest (numberSpan c rest) := by
  have hwhole : ∀ d ∈ c :: (splitWhile Char.isDigit rest).1, d.isDigit :=
    List.forall_mem_cons.mpr ⟨hc, splitWhile_all _ _⟩
  unfold numberSpan
  dsimp only
  split
  · rename_i hf
    obtain ⟨hne, hall⟩ := fraction?_digits hf
    exact .token (.decimal (List.cons_ne_nil _ _) hne hwhole hall)
  · exact .token (.whole (List.cons_ne_nil _ _) hwhole)

theorem wordKind_isLexeme {c : Char} {rest : List Char} (hc : isWordStart c)
    (hrest : ∀ d ∈ rest, isWordPart d) : IsLexeme (c :: rest) (wordKind (c :: rest)) := by
  unfold wordKind
  cases hk : Keyword.ofText? (String.ofList (c :: rest)) with
  | some word =>
    have htext := congrArg String.toList (Keyword.text_of_ofText? hk)
    rw [String.toList_ofList] at htext
    rw [← htext]
    exact .keyword word
  | none =>
    refine .identifier hc hrest fun word htext => ?_
    rw [← htext, String.ofList_toList, Keyword.ofText?_text] at hk
    cases hk

theorem punctuation?_mem {c : Char} {kind : Kind} (h : punctuation? c = some kind) :
    ([c], kind) ∈ operators := by
  unfold punctuation? at h
  split at h <;> cases h <;> decide

theorem extensible?_mem {c : Char} {short long : Kind} (h : extensible? c = some (short, long)) :
    ([c], short) ∈ operators ∧ ([c, '='], long) ∈ operators := by
  unfold extensible? at h
  split at h <;> cases h <;> decide

theorem operatorSpan_firstSpan {c : Char} {short long : Kind} (h : extensible? c = some (short, long))
    (rest : List Char) : FirstSpan c rest (operatorSpan c short long rest) := by
  unfold operatorSpan
  split
  · exact .token (.operator (extensible?_mem h).2)
  · exact .token (.operator (extensible?_mem h).1)

theorem Span.first_firstSpan (c : Char) (rest : List Char) : FirstSpan c rest (Span.first c rest) := by
  cases opening c with
  | blank hc found =>
    rw [found]
    exact .trivia (.blank _ hc)
  | slash hc found =>
    rw [found, hc]
    exact slashSpan_firstSpan rest
  | quote hc found =>
    rw [found, hc]
    exact stringSpan_firstSpan rest
  | digit hc found =>
    rw [found]
    exact numberSpan_firstSpan hc rest
  | word hc found =>
    rw [found]
    exact .token (wordKind_isLexeme hc (splitWhile_all _ _))
  | punctuation hc found =>
    rw [found]
    exact .token (.operator (punctuation?_mem hc))
  | extensible hc found =>
    rw [found]
    exact operatorSpan_firstSpan hc rest
  | other found =>
    rw [found]
    exact .unexpected found

/-! ### A lexeme alone -/

theorem splitWhile_whole {p : Char → Bool} {text : List Char} (h : ∀ c ∈ text, p c) :
    splitWhile p text = (text, []) := by
  have hsplit : splitWhile p (text ++ []) = (text, []) := splitWhile_of_stop h rfl
  rwa [List.append_nil] at hsplit

theorem Keyword.text_isWord (word : Keyword) :
    ∃ c rest, word.text.toList = c :: rest ∧ isWordStart c ∧ ∀ d ∈ rest, isWordPart d := by
  cases word <;> exact ⟨_, _, rfl, by decide, List.all_eq_true.mp (by decide)⟩

/-- A text is at its end or goes on with a blank character. -/
def GoesBlank (after : List Char) : Prop := ∀ c ∈ after.head?, isBlank c

section blank

variable {after : List Char} (ha : GoesBlank after)

include ha

theorem GoesBlank.ne {c : Char} (hc : isBlank c = false) (rest : List Char) : after ≠ c :: rest := by
  rintro rfl
  exact Bool.false_ne_true (hc.symm.trans (ha c rfl))

/-- A class without blank characters does not go on before a blank one. -/
theorem GoesBlank.stops {p : Char → Bool} (hp : ∀ c, isBlank c → p c = false) : opensWith p after = false := by
  cases after with
  | nil => rfl
  | cons c after => exact hp c (ha c rfl)

theorem GoesBlank.digits : opensWith Char.isDigit after = false :=
  ha.stops fun _ hc => Bool.eq_false_iff.mpr fun hd => not_isBlank (.inl hd) hc

theorem GoesBlank.words : opensWith isWordPart after = false := by
  refine ha.stops fun c hc => Bool.eq_false_iff.mpr fun hw => ?_
  rw [isWordPart, Bool.or_eq_true] at hw
  exact not_isBlank hw.symm hc

theorem GoesBlank.fraction : fraction? after = none :=
  fraction?_eq_none.mpr fun rest h => absurd h (ha.ne rfl rest)

theorem operators_first {text : List Char} {kind : Kind} (h : (text, kind) ∈ operators) :
    ∃ c rest, text = c :: rest ∧ Span.first c (rest ++ after) = (⟨text, .token kind⟩, after) := by
  have single (c : Char) (short long : Kind) :
      operatorSpan c short long after = (⟨[c], .token short⟩, after) := by
    unfold operatorSpan
    split
    · exact absurd rfl (ha.ne rfl _)
    · rfl
  have slash : slashSpan '/' after = (⟨['/'], .token .slash⟩, after) := by
    unfold slashSpan
    split
    · exact absurd rfl (ha.ne rfl _)
    · rfl
  simp only [operators, List.mem_cons, Prod.mk.injEq, List.not_mem_nil, or_false] at h
  rcases h with ⟨rfl, rfl⟩ | ⟨rfl, rfl⟩ | ⟨rfl, rfl⟩ | ⟨rfl, rfl⟩ | ⟨rfl, rfl⟩ | ⟨rfl, rfl⟩ | ⟨rfl, rfl⟩ |
    ⟨rfl, rfl⟩ | ⟨rfl, rfl⟩ | ⟨rfl, rfl⟩ | ⟨rfl, rfl⟩ | ⟨rfl, rfl⟩ | ⟨rfl, rfl⟩ | ⟨rfl, rfl⟩ | ⟨rfl, rfl⟩ |
    ⟨rfl, rfl⟩ | ⟨rfl, rfl⟩ | ⟨rfl, rfl⟩ | ⟨rfl, rfl⟩
  all_goals refine ⟨_, _, rfl, ?_⟩
  all_goals first | rfl | exact slash | exact single _ _ _

/-- A lexeme at the end of a text, or before a blank character, is one span, a token of its category. -/
theorem IsLexeme.first_blank {text : List Char} {kind : Kind} (h : IsLexeme text kind) :
    ∃ c rest, text = c :: rest ∧ Span.first c (rest ++ after) = (⟨text, .token kind⟩, after) := by
  cases h with
  | operator h => exact operators_first ha h
  | @whole digits hne hall =>
    obtain ⟨c, rest, rfl⟩ := List.exists_cons_of_ne_nil hne
    obtain ⟨hc, hrest⟩ := List.forall_mem_cons.mp hall
    refine ⟨c, rest, rfl, ?_⟩
    rw [Span.first_digit hc, numberSpan, splitWhile_of_stop hrest ha.digits]
    dsimp only
    rw [ha.fraction]
  | @decimal whole fraction hne hne' hall hall' =>
    obtain ⟨c, rest, rfl⟩ := List.exists_cons_of_ne_nil hne
    obtain ⟨d, digits, rfl⟩ := List.exists_cons_of_ne_nil hne'
    obtain ⟨hc, hrest⟩ := List.forall_mem_cons.mp hall
    have hd := (List.forall_mem_cons.mp hall').1
    have hsplit : splitWhile Char.isDigit (d :: (digits ++ after)) = (d :: digits, after) :=
      splitWhile_of_stop hall' ha.digits
    refine ⟨c, rest ++ '.' :: d :: digits, rfl, ?_⟩
    rw [Span.first_digit hc, numberSpan, List.append_assoc, List.cons_append, List.cons_append,
      splitWhile_of_stop hrest rfl]
    simp only [fraction?, hd, ↓reduceIte, hsplit]
  | keyword word =>
    obtain ⟨c, rest, htext, hc, hrest⟩ := word.text_isWord
    refine ⟨c, rest, htext, ?_⟩
    rw [Span.first_word hc, wordSpan, splitWhile_of_stop hrest ha.words]
    simp only [wordKind, ← htext, String.ofList_toList, Keyword.ofText?_text]
  | @identifier c rest hc hrest hnot =>
    refine ⟨c, rest, rfl, ?_⟩
    have hnone : Keyword.ofText? (String.ofList (c :: rest)) = none := by
      rw [Option.eq_none_iff_forall_ne_some]
      intro word hword
      refine hnot word ?_
      rw [Keyword.text_of_ofText? hword, String.toList_ofList]
    rw [Span.first_word hc, wordSpan, splitWhile_of_stop hrest ha.words]
    simp only [wordKind, hnone]
  | @string body hbody =>
    refine ⟨'"', body ++ ['"'], rfl, ?_⟩
    have hall : ∀ d ∈ body, decide (d ≠ '"') := fun d hd => decide_eq_true fun he => hbody (he ▸ hd)
    change stringSpan '"' (body ++ ['"'] ++ after) = _
    rw [stringSpan, List.append_assoc, splitWhile_of_stop hall rfl]
    rfl

end blank

/-- A lexeme alone is one span, a token of its category. -/
theorem IsLexeme.first {text : List Char} {kind : Kind} (h : IsLexeme text kind) :
    ∃ c rest, text = c :: rest ∧ Span.first c rest = (⟨text, .token kind⟩, []) := by
  have hnil : GoesBlank [] := by rintro _ ⟨⟩
  simpa using h.first_blank hnil

/-! ### A text that goes on -/

theorem opensWith_append (p : Char → Bool) {text : List Char} (hne : text ≠ []) (more : List Char) :
    opensWith p (text ++ more) = opensWith p text := by
  obtain ⟨c, rest, rfl⟩ := List.exists_cons_of_ne_nil hne
  rfl

/-- A beginning of what comes after a span is ahead as well. -/
theorem Ahead.of_append {text : List Char} (hne : text ≠ []) (more : List Char) : Ahead (text ++ more) text := by
  have hopens (p : Char → Bool) (h : opensWith p (text ++ more) = false) : opensWith p text = false := by
    rwa [opensWith_append p hne] at h
  refine ⟨hopens _, hopens _, ?_, hopens _, hopens _, hopens _⟩
  intro h
  match text with
  | [] => rfl
  | [c] => simp [fraction?]
  | c :: d :: rest =>
    by_cases hc : c = '.'
    · subst hc
      simpa [fraction?] using h
    · simp [fraction?, hc]

theorem Ahead.nil (after : List Char) : Ahead after [] :=
  ⟨fun _ => rfl, fun _ => rfl, fun _ => rfl, fun _ => rfl, fun _ => rfl, fun _ => rfl⟩

section cut

variable {c : Char} {rest after tail : List Char} {s : Span}

/-- A span starts with the first character. -/
theorem Span.first_text (h : Span.first c rest = (s, after)) :
    ∃ tail, s.text = c :: tail ∧ rest = tail ++ after := by
  have happend := Span.first_append c rest
  have hne := Span.first_ne_nil c rest
  rw [h] at happend hne
  obtain ⟨d, tail, htext⟩ := List.exists_cons_of_ne_nil hne
  rw [htext, List.cons_append, List.cons.injEq] at happend
  exact ⟨tail, by rw [htext, happend.1], happend.2.symm⟩

/-- A span is found again before a beginning of what comes after it, or before nothing. -/
theorem Span.first_before (h : Span.first c rest = (s, after)) (htext : s.text = c :: tail)
    {after' : List Char} (ha : Ahead after after') (hs : after' = [] ∨ after ≠ []) :
    Span.first c (tail ++ after') = (s, after') := by
  obtain ⟨tail', htext', hrest⟩ := Span.first_text h
  obtain rfl : tail' = tail := by simpa [htext] using htext'.symm
  by_cases hopen : s.reading = .faulty .unterminatedString
  · obtain ⟨-, -, hwhole, rfl⟩ := (h ▸ Span.first_firstSpan c rest).of_unterminated hopen
    obtain rfl := hs.resolve_right (absurd rfl)
    rwa [hrest] at h
  · obtain ⟨tail, htail, hfirst⟩ := Span.first_ahead h hopen ha
    obtain rfl := List.append_cancel_right (htail.symm.trans hrest)
    exact hfirst

/-- A text that goes on has no shorter first span. -/
theorem Span.first_prefix (c : Char) (rest more : List Char) :
    (Span.first c rest).1.text <+: (Span.first c (rest ++ more)).1.text := by
  cases h : Span.first c (rest ++ more) with
  | mk s after =>
    obtain ⟨tail, htext, hrest⟩ := Span.first_text h
    rcases Nat.lt_or_ge tail.length rest.length with hlt | hge
    · -- The span ends within the shorter text, and so it does there.
      obtain ⟨left, rfl⟩ := List.prefix_of_prefix_length_le ⟨after, hrest.symm⟩
        (List.prefix_append rest more) hlt.le
      rw [List.append_assoc, List.append_cancel_left_eq] at hrest
      subst hrest
      have hne : left ≠ [] := by
        rintro rfl
        simp at hlt
      have hshort := Span.first_before h htext (.of_append hne more) (.inr (by simp [hne]))
      exact (congrArg (·.1.text) hshort).symm ▸ List.prefix_rfl
    · have hfront : c :: rest <+: s.text := by
        rw [htext, List.prefix_cons_inj]
        exact List.prefix_of_prefix_length_le (List.prefix_append rest more) ⟨after, hrest.symm⟩ hge
      exact List.IsPrefix.trans ⟨_, Span.first_append c rest⟩ hfront

/-- Without what comes after it, a span is found again. -/
theorem Span.first_alone (h : Span.first c rest = (s, after)) (htext : s.text = c :: tail) :
    Span.first c tail = (s, []) := by
  have := Span.first_before h htext (.nil after) (.inl rfl)
  rwa [List.append_nil] at this

end cut

/-! ### Every span is cut by the grammar -/

theorem IsTrivia.startsTrivia {text after : List Char} (h : IsTrivia text after) :
    StartsTrivia (text ++ after) := by
  cases h with
  | blank _ hc => exact .blank _ hc
  | comment _ _ => exact .comment _

theorem StartsTrivia.first {c : Char} {rest : List Char} (h : StartsTrivia (c :: rest)) :
    (Span.first c rest).1.reading = .trivia := by
  cases h with
  | blank _ hc => rw [Span.first, if_pos hc]
  | comment rest => rfl

/-- A string without an end is the rest of the text. -/
theorem Span.first_open {body : List Char} (h : '"' ∉ body) :
    Span.first '"' body = (⟨'"' :: body, .faulty .unterminatedString⟩, []) := by
  have hall : ∀ d ∈ body, decide (d ≠ '"') := fun d hd => decide_eq_true fun he => h (he ▸ hd)
  change stringSpan '"' body = _
  rw [stringSpan, splitWhile_whole hall]

/-- A lexeme that starts a text is no longer than the first span. -/
theorem IsLexeme.length_le {c : Char} {rest text : List Char} {kind : Kind} (h : IsLexeme text kind)
    (hfront : text <+: c :: rest) : text.length ≤ (Span.first c rest).1.text.length := by
  obtain ⟨d, tail, rfl, hfirst⟩ := h.first
  obtain ⟨rfl, more, rfl⟩ := List.cons_prefix_cons.mp hfront
  have := (Span.first_prefix d tail more).length_le
  rwa [hfirst] at this

/-- No lexeme starts where a character is unexpected. -/
theorem IsLexeme.not_prefix {c : Char} {rest text : List Char} {kind : Kind} (h : IsLexeme text kind)
    (hunexpected : ∀ rest, Span.first c rest = (⟨[c], .faulty .unexpectedCharacter⟩, rest)) :
    ¬ text <+: c :: rest := by
  intro hfront
  obtain ⟨d, tail, rfl, hfirst⟩ := h.first
  obtain ⟨rfl, -⟩ := List.cons_prefix_cons.mp hfront
  rw [hunexpected] at hfirst
  cases hfirst

/-- The first span of a text is the one that the grammar asks for. -/
theorem Span.first_munched {c : Char} {rest after : List Char} {s : Span}
    (h : Span.first c rest = (s, after)) : s.Munched after := by
  have hfirst : FirstSpan c rest (s, after) := h ▸ Span.first_firstSpan c rest
  obtain ⟨tail, htext, hrest⟩ := Span.first_text h
  have happend : s.text ++ after = c :: rest := by rw [htext, hrest, List.cons_append]
  have htrivia : StartsTrivia (s.text ++ after) → s.reading = .trivia := by
    rw [happend]
    intro hstarts
    have := hstarts.first
    rwa [h] at this
  refine ⟨?nonempty, ⟨?_, htrivia⟩, hfirst.isTrivia, ?token, ?unexpected, ?_, ?unterminated, ?_⟩
  case nonempty => rw [htext]; exact List.cons_ne_nil _ _
  · exact fun hr => (hfirst.isTrivia hr).startsTrivia
  case token =>
    refine fun kind => ⟨fun hr => ⟨fun hstarts => ?_, hfirst.isLexeme hr, fun text other hlexeme hfront => ?_⟩,
      fun ⟨_, hlexeme, _⟩ => ?_⟩
    · cases hr.symm.trans (htrivia hstarts)
    · rw [happend] at hfront
      have := hlexeme.length_le hfront
      rwa [h] at this
    · -- The text of the span has one reading, whatever comes after it.
      obtain ⟨d, tail', htext', hfirst⟩ := hlexeme.first
      obtain ⟨rfl, rfl⟩ := List.cons.inj (htext.symm.trans htext')
      rw [Span.first_alone h htext] at hfirst
      rw [(Prod.mk.inj hfirst).1]
  case unexpected =>
    rw [happend]
    refine ⟨fun hr => ⟨fun hstarts => ?_, fun hquote => ?_, fun text kind hlexeme => ?_⟩,
      fun ⟨hstarts, hquote, hlexeme⟩ => ?_⟩
    · cases hr.symm.trans (htrivia (happend ▸ hstarts))
    · obtain rfl : c = '"' := by simpa using hquote
      have := (hfirst.of_unexpected hr).2 []
      cases this
    · exact hlexeme.not_prefix (hfirst.of_unexpected hr).2
    · cases hr : s.reading with
      | trivia => exact absurd (happend ▸ (hfirst.isTrivia hr).startsTrivia) hstarts
      | token kind => exact absurd ⟨after, happend⟩ (hlexeme _ _ (hfirst.isLexeme hr))
      | faulty fault =>
        cases fault with
        | unexpectedCharacter => rfl
        | unterminatedString =>
          obtain ⟨rfl, -⟩ := hfirst.of_unterminated hr
          exact absurd rfl hquote
  · intro hr
    rw [(hfirst.of_unexpected hr).1]
    rfl
  case unterminated =>
    rw [happend]
    refine ⟨fun hr => ?_, ?_⟩
    · obtain ⟨rfl, hnot, -⟩ := hfirst.of_unterminated hr
      exact ⟨rest, rfl, hnot⟩
    · rintro ⟨body, heq, hnot⟩
      obtain ⟨rfl, rfl⟩ := List.cons.inj heq
      rw [Span.first_open hnot] at h
      cases h
      rfl
  · exact fun hr => (hfirst.of_unterminated hr).2.2.2

/-- The spans of a text are cut by the grammar. -/
theorem munches (text : List Char) : Munches text (spans text) := by
  fun_induction spans text with
  | case1 => exact .nil
  | case2 c rest ih =>
    have hmunched := Span.first_munched (Prod.eta (Span.first c rest)).symm
    have := Munches.cons hmunched ih
    rwa [Span.first_append] at this

/-! ### The stream -/

/-- An item shows a span: the token with the text of the span, or the fault. -/
inductive Span.Shows (s : Span) : Item → Prop where
  | token {kind : Kind} (line : Nat) : s.reading = .token kind →
      s.Shows (.ok ⟨⟨String.ofList s.text, line⟩, kind⟩)
  | faulty {fault : LexFault} (line : Nat) : s.reading = .faulty fault → s.Shows (.error ⟨fault, line⟩)

/-- The items of spans show the spans that are no trivia, in order. -/
theorem items_shows (line : Nat) (ss : List Span) :
    ∃ body, items line ss = body ++ [.ok (Token.eof (endLine line ss))] ∧
      List.Forall₂ Span.Shows (ss.filter (·.reading ≠ .trivia)) body := by
  induction ss generalizing line with
  | nil => exact ⟨[], rfl, .nil⟩
  | cons s ss ih =>
    obtain ⟨body, heq, hshows⟩ := ih (s.lastLine line)
    have hend : endLine line (s :: ss) = endLine (s.lastLine line) ss := rfl
    rw [items, heq, hend, List.filter_cons]
    unfold Span.item?
    cases hr : s.reading with
    | trivia => exact ⟨body, rfl, by simpa using hshows⟩
    | token kind => exact ⟨_ :: body, rfl, .cons (.token _ hr) hshows⟩
    | faulty fault => exact ⟨_ :: body, rfl, .cons (.faulty _ hr) hshows⟩

/-- The spans of a text make it up, each cut by the lexical grammar.  The stream shows those that are no
trivia and ends with its only end-of-file token; the scanner gives it out of the bytes of the text without ever
tearing a character, and has nothing after it. -/
theorem scan_munches (source : String) :
    Munches source.toList (spans source.toList) ∧
    (∃ body line, scan source = body ++ [.ok (Token.eof line)] ∧
      List.Forall₂ Span.Shows ((spans source.toList).filter (·.reading ≠ .trivia)) body ∧
      ∀ t, .ok t ∈ body → t.kind ≠ .eof) ∧
    ∃ last, (Scanner.start source).Emits (scan source) last ∧ last.next = .ok (none, last) := by
  refine ⟨munches _, ?_, ?_⟩
  · obtain ⟨body, heq, hshows⟩ := items_shows 1 (spans source.toList)
    refine ⟨body, _, (scan_eq source).trans heq, hshows, fun t ht => ?_⟩
    have htokens := tokensOf_items 1 (spans source.toList)
    rw [heq, tokensOf, List.filterMap_append] at htokens
    have hbody : tokensOf body = textTokens source := List.append_cancel_right htokens
    have hmem : t ∈ tokensOf body := List.mem_filterMap.mpr ⟨.ok t, ht, rfl⟩
    exact (textTokens_lexed source t (hbody ▸ hmem)).1
  · obtain ⟨last, hemits, hend⟩ := Scanner.emits_utf8 source.toList 1
    rw [Scanner.start_eq, scan_eq]
    exact ⟨last, hemits, hend⟩

end Lox
