import Mathlib.Data.List.TakeWhile
import Lox.Proofs.Scanning

/-! # How far the scanner looks ahead

A span of a text depends on what comes after it only through the first two characters there.  When another
text that is `Ahead` follows, the span is cut at the same place (`Span.first_ahead`), and so are the spans before it
(`spans_before`).  So a text that ends before a line break is cut into the same spans whatever comes on the next
lines (`spans_line`). -/

namespace Lox

/-! ### Looking ahead -/

/-- Does a text start with a character of a class? -/
def opensWith (p : Char → Bool) : List Char → Bool
  | [] => false
  | c :: _ => p c

theorem opensWith_dropWhile (p : Char → Bool) (text : List Char) :
    opensWith p (text.dropWhile p) = false := by
  induction text with
  | nil => rfl
  | cons c text ih =>
      rw [List.dropWhile_cons]
      cases hc : p c with
      | true => simpa using ih
      | false => simpa [opensWith] using hc

theorem splitWhile_of_stop {p : Char → Bool} {text after : List Char} (ht : ∀ c ∈ text, p c = true)
    (ha : opensWith p after = false) : splitWhile p (text ++ after) = (text, after) := by
  unfold splitWhile
  rw [List.takeWhile_append_of_pos ht, List.dropWhile_append_of_pos ht]
  cases after with
  | nil => simp
  | cons c after => simp [show p c = false from ha]

theorem splitWhile_all (p : Char → Bool) (text : List Char) : ∀ c ∈ (splitWhile p text).1, p c = true :=
  fun _ hc => List.mem_takeWhile_imp hc

theorem splitWhile_stops (p : Char → Bool) (text : List Char) :
    opensWith p (splitWhile p text).2 = false := opensWith_dropWhile p text

/-- A text is cut at the same place when another text follows, if the class does not go on there. -/
theorem splitWhile_ahead {p : Char → Bool} (text : List Char) {after : List Char}
    (ha : opensWith p after = false) :
    splitWhile p ((splitWhile p text).1 ++ after) = ((splitWhile p text).1, after) :=
  splitWhile_of_stop (splitWhile_all p text) ha

/-- The text `after'` takes no more characters into the span before it than `after` does. -/
structure Ahead (after after' : List Char) : Prop where
  word : opensWith isWordPart after = false → opensWith isWordPart after' = false
  digit : opensWith Char.isDigit after = false → opensWith Char.isDigit after' = false
  fraction : fraction? after = none → fraction? after' = none
  equal : opensWith (· = '=') after = false → opensWith (· = '=') after' = false
  slash : opensWith (· = '/') after = false → opensWith (· = '/') after' = false
  line : opensWith (· ≠ '\n') after = false → opensWith (· ≠ '\n') after' = false

theorem fraction?_eq_none {text : List Char} :
    fraction? text = none ↔ ∀ rest, text = '.' :: rest → opensWith Char.isDigit rest = false := by
  match text with
  | [] => simp [fraction?]
  | [c] => simp [fraction?, opensWith]
  | c :: d :: rest =>
    by_cases hc : c = '.'
    · subst hc
      simp [fraction?, opensWith]
    · simp [fraction?, hc]

/-- What is ahead is ahead as well behind more text. -/
theorem Ahead.append {after after' : List Char} (h : Ahead after after') (text : List Char) :
    Ahead (text ++ after) (text ++ after') := by
  match text with
  | [] => exact h
  | c :: text =>
      refine ⟨id, id, fun hnone => ?_, id, id, id⟩
      rw [fraction?_eq_none] at hnone ⊢
      rintro _ ⟨⟩
      have hd := hnone _ rfl
      cases text with
      | nil => exact h.digit hd
      | cons d text => exact hd

section spans

variable {c : Char} {rest after after' : List Char} {s : Span}

theorem wordSpan_ahead (h : wordSpan c rest = (s, after)) (ha : Ahead after after') :
    ∃ tail, rest = tail ++ after ∧ wordSpan c (tail ++ after') = (s, after') := by
  unfold wordSpan at h
  cases h
  refine ⟨_, (splitWhile_append isWordPart rest).symm, ?_⟩
  rw [wordSpan, splitWhile_ahead rest (ha.word (splitWhile_stops _ rest))]
  rfl

theorem slashSpan_ahead (h : slashSpan '/' rest = (s, after)) (ha : Ahead after after') :
    ∃ tail, rest = tail ++ after ∧ slashSpan '/' (tail ++ after') = (s, after') := by
  unfold slashSpan at h
  split at h
  · rename_i rest
    cases h
    refine ⟨_, (splitWhile_append (· ≠ '\n') ('/' :: rest)).symm, ?_⟩
    have hs := splitWhile_ahead ('/' :: rest) (ha.line (splitWhile_stops (· ≠ '\n') _))
    have ht : (splitWhile (· ≠ '\n') ('/' :: rest)).1 = '/' :: rest.takeWhile (· ≠ '\n') := rfl
    rw [ht, List.cons_append] at hs ⊢
    rw [slashSpan, hs]
    rfl
  · rename_i hne
    cases h
    refine ⟨[], rfl, ?_⟩
    have hn : opensWith (· = '/') after' = false := by
      refine ha.slash ?_
      cases rest with
      | nil => rfl
      | cons d rest => simpa [opensWith] using fun hd => hne rest (by rw [hd])
    cases after' with
    | nil => rfl
    | cons d after' =>
        have hd : d ≠ '/' := by simpa [opensWith] using hn
        unfold slashSpan
        split
        · rename_i he
          exact absurd (List.cons.inj he).1 hd
        · rfl

theorem stringSpan_ahead (h : stringSpan '"' rest = (s, after))
    (hs : s.reading ≠ .faulty .unterminatedString) (after' : List Char) :
    ∃ tail, rest = tail ++ after ∧ stringSpan '"' (tail ++ after') = (s, after') := by
  unfold stringSpan at h
  split at h
  · rename_i body quote text hq
    cases h
    have hr := splitWhile_append (· ≠ '"') rest
    rw [hq] at hr
    have hquote : opensWith (· ≠ '"') (quote :: after') = false := by
      have hd := splitWhile_stops (· ≠ '"') rest
      rwa [hq] at hd
    have hsplit := splitWhile_ahead rest hquote
    rw [hq] at hsplit
    refine ⟨body ++ [quote], by simpa using hr.symm, ?_⟩
    unfold stringSpan
    rw [List.append_assoc, List.singleton_append, hsplit]
  · cases h
    exact absurd rfl hs

theorem fraction?_ahead {cs fraction : List Char} (h : fraction? cs = some (fraction, after))
    (ha : Ahead after after') :
    cs = '.' :: fraction ++ after ∧ fraction? ('.' :: fraction ++ after') = some (fraction, after') := by
  refine ⟨(fraction?_append h).symm, ?_⟩
  unfold fraction? at h
  split at h
  · rename_i d rest
    split at h
    · rename_i hd
      cases h
      have hs := splitWhile_ahead (d :: rest) (ha.digit (splitWhile_stops Char.isDigit (d :: rest)))
      have ht : (splitWhile Char.isDigit (d :: rest)).1 = d :: rest.takeWhile Char.isDigit := by
        simp [splitWhile, hd]
      rw [show (d :: rest).takeWhile Char.isDigit = d :: rest.takeWhile Char.isDigit from ht]
      rw [ht, List.cons_append] at hs
      rw [List.cons_append, List.cons_append, fraction?, if_pos hd, hs]
    · cases h
  · cases h

theorem numberSpan_ahead (h : numberSpan c rest = (s, after)) (ha : Ahead after after') :
    ∃ tail, rest = tail ++ after ∧ numberSpan c (tail ++ after') = (s, after') := by
  have hr := splitWhile_append Char.isDigit rest
  unfold numberSpan at h
  dsimp only at h
  split at h
  · rename_i fraction text hf
    cases h
    obtain ⟨he, hf'⟩ := fraction?_ahead hf ha
    refine ⟨(splitWhile Char.isDigit rest).1 ++ '.' :: fraction, ?_, ?_⟩
    · rw [List.append_assoc, ← he]
      exact hr.symm
    · have hs : splitWhile Char.isDigit ((splitWhile Char.isDigit rest).1 ++ ('.' :: fraction ++ after')) =
          ((splitWhile Char.isDigit rest).1, '.' :: fraction ++ after') := splitWhile_ahead rest rfl
      rw [numberSpan, List.append_assoc, hs]
      dsimp only
      rw [hf']
  · rename_i hf
    cases h
    refine ⟨_, hr.symm, ?_⟩
    rw [numberSpan, splitWhile_ahead rest (ha.digit (splitWhile_stops _ rest))]
    dsimp only
    rw [ha.fraction hf]

theorem operatorSpan_ahead {short long : Kind} (h : operatorSpan c short long rest = (s, after))
    (ha : Ahead after after') :
    ∃ tail, rest = tail ++ after ∧ operatorSpan c short long (tail ++ after') = (s, after') := by
  unfold operatorSpan at h
  split at h
  · cases h
    exact ⟨['='], rfl, rfl⟩
  · rename_i hne
    cases h
    refine ⟨[], rfl, ?_⟩
    have hn : opensWith (· = '=') after' = false := by
      refine ha.equal ?_
      cases rest with
      | nil => rfl
      | cons d rest => simpa [opensWith] using fun hd => hne rest (by rw [hd])
    cases after' with
    | nil => rfl
    | cons d after' =>
        have hd : d ≠ '=' := by simpa [opensWith] using hn
        unfold operatorSpan
        split
        · rename_i he
          exact absurd (List.cons.inj he).1 hd
        · rfl

/-- A span is cut at the same place before a text that is ahead; a string that does not end goes on. -/
theorem Span.first_ahead (h : Span.first c rest = (s, after))
    (hs : s.reading ≠ .faulty .unterminatedString) (ha : Ahead after after') :
    ∃ tail, rest = tail ++ after ∧ Span.first c (tail ++ after') = (s, after') := by
  have hnil (hp : Span.first c after' = (s, after')) (he : rest = after) :
      ∃ tail, rest = tail ++ after ∧ Span.first c (tail ++ after') = (s, after') :=
    ⟨[], he, hp⟩
  unfold Span.first at h hnil ⊢
  by_cases hb : isBlank c
  · simp only [hb, if_true] at h hnil ⊢
    cases h
    exact hnil rfl rfl
  simp only [hb] at h hnil ⊢
  by_cases hslash : c = '/'
  · subst hslash
    exact slashSpan_ahead h ha
  simp only [hslash, if_false] at h hnil ⊢
  by_cases hquote : c = '"'
  · subst hquote
    exact stringSpan_ahead h hs after'
  simp only [hquote, if_false] at h hnil ⊢
  by_cases hd : c.isDigit
  · simp only [hd, if_true] at h ⊢
    exact numberSpan_ahead h ha
  simp only [hd] at h hnil ⊢
  by_cases hw : isWordStart c
  · simp only [hw, if_true] at h ⊢
    exact wordSpan_ahead h ha
  simp only [hw] at h hnil ⊢
  cases hp : punctuation? c with
  | some kind =>
      rw [hp] at h hnil
      cases h
      exact hnil rfl rfl
  | none =>
      rw [hp] at h hnil
      cases he : extensible? c with
      | some p =>
          rw [he] at h
          exact operatorSpan_ahead h ha
      | none =>
          rw [he] at h hnil
          cases h
          exact hnil rfl rfl

end spans

/-! ### Texts that go on otherwise -/

/-- The spans at the start of a text stay the same when another text that is ahead follows them. -/
theorem spans_before {text more : List Char} {ss rest : List Span} (h : spans text = ss ++ rest)
    (hs : ∀ s ∈ ss, s.reading ≠ .faulty .unterminatedString) (ha : Ahead (rest.flatMap (·.text)) more) :
    spans (ss.flatMap (·.text) ++ more) = ss ++ spans more := by
  induction ss generalizing text with
  | nil => rfl
  | cons s ss ih =>
      cases text with
      | nil =>
          rw [spans] at h
          cases h
      | cons c text =>
          rw [spans, List.cons_append, List.cons.injEq] at h
          obtain ⟨hfirst, hnext⟩ := h
          have hafter : (Span.first c text).2 = ss.flatMap (·.text) ++ rest.flatMap (·.text) := by
            rw [← List.flatMap_append, ← hnext, flatten_spans]
          have hcut : Span.first c text = (s, ss.flatMap (·.text) ++ rest.flatMap (·.text)) :=
            Prod.ext hfirst hafter
          have htext := Span.first_append c text
          obtain ⟨tail, rfl, hagain⟩ := Span.first_ahead hcut (hs s List.mem_cons_self) (ha.append _)
          rw [hcut, ← List.cons_append, List.append_cancel_right_eq] at htext
          rw [List.flatMap_cons, htext, List.append_assoc, List.cons_append, spans, hagain,
            ih hnext fun s' hs' => hs s' (List.mem_cons_of_mem _ hs'), List.cons_append]

/-- The spans at the end of a text are those of what they make up. -/
theorem spans_after {text : List Char} {ss rest : List Span} (h : spans text = ss ++ rest) :
    spans (rest.flatMap (·.text)) = rest := by
  induction ss generalizing text with
  | nil => rw [← List.nil_append rest, ← h, flatten_spans]
  | cons s ss ih =>
      cases text with
      | nil =>
          rw [spans] at h
          cases h
      | cons c text =>
          rw [spans, List.cons_append] at h
          exact ih (List.cons.inj h).2

/-- A text is cut into the same spans whatever comes on the next lines, when its strings end. -/
theorem spans_line {text : List Char} (more : List Char)
    (h : ∀ s ∈ spans text, s.reading ≠ .faulty .unterminatedString) :
    spans (text ++ '\n' :: more) = spans text ++ ⟨['\n'], .trivia⟩ :: spans more := by
  have ha : Ahead [] ('\n' :: more) :=
    ⟨fun _ => rfl, fun _ => rfl, fun _ => rfl, fun _ => rfl, fun _ => rfl, fun _ => rfl⟩
  have hspans := spans_before (List.append_nil (spans text)).symm h ha
  rwa [flatten_spans, spans] at hspans

end Lox
