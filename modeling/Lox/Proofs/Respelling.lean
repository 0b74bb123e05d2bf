import Lox.Proofs.Lines
import Lox.Proofs.Munching

/-! # Identifiers spelled otherwise

When identifiers of a text are replaced by others, the text is cut at the same places (`spans_respelled`): no
identifier reaches further into what comes after it than another, and nothing before an identifier reaches into
it.  So the tokens of the text are the same but for the new spellings (`textTokens_respell`). -/

namespace Lox

/-! ### Changing tokens -/

/-- Tokens, each with its place among them instead of its line. -/
def placed (ts : List Token) : List Token := ts.mapIdx fun i t => ⟨⟨t.text, i⟩, t.kind⟩

theorem mem_placed {ts : List Token} {t : Token} (ht : t ∈ placed ts) :
    ∃ i t₀, ts[i]? = some t₀ ∧ t = ⟨⟨t₀.text, i⟩, t₀.kind⟩ := by
  obtain ⟨i, hi, rfl⟩ := List.mem_mapIdx.mp ht
  exact ⟨i, ts[i], List.getElem?_eq_getElem hi, rfl⟩

/-- Placed tokens are told apart by their lexemes. -/
theorem placed_inj {ts : List Token} {t t' : Token} (ht : t ∈ placed ts) (ht' : t' ∈ placed ts)
    (h : t'.toLexeme = t.toLexeme) : t' = t := by
  obtain ⟨i, t₀, hget, rfl⟩ := mem_placed ht
  obtain ⟨j, t₁, hget', rfl⟩ := mem_placed ht'
  obtain rfl : j = i := congrArg Lexeme.line h
  obtain rfl := Option.some.inj (hget'.symm.trans hget)
  rfl

/-- The lexemes of placed tokens are all different. -/
theorem placed_nodup (ts : List Token) : ((placed ts).map Token.toLexeme).Nodup := by
  refine List.Nodup.of_map (·.line) ?_
  have hlines : ((placed ts).map Token.toLexeme).map (·.line) = List.range ts.length := by
    refine List.ext_getElem (by simp [placed]) fun i hi hi' => ?_
    simp [placed]
  rw [hlines]
  exact List.nodup_range

/-- A lexeme with the line that the token at its place is on. -/
def Lexeme.onLines (ts : List Token) (t : Lexeme) : Lexeme := ⟨t.text, (ts[t.line]?.map (·.line)).getD 0⟩

@[simp] theorem Lexeme.onLines_text (ts : List Token) (t : Lexeme) : (t.onLines ts).text = t.text := rfl

theorem map_placed {g : Lexeme → Lexeme} (hg : ∀ t, (g t).line = t.line) (ts : List Token) :
    (placed ts).map (Token.map (Lexeme.onLines ts ∘ g)) =
      ts.mapIdx fun i t => ⟨⟨(g ⟨t.text, i⟩).text, t.line⟩, t.kind⟩ := by
  refine List.ext_getElem? fun i => ?_
  rw [placed, List.getElem?_map, List.getElem?_mapIdx, List.getElem?_mapIdx, Option.map_map]
  cases hi : ts[i]? with
  | none => rfl
  | some t => simp [Token.map, Lexeme.onLines, hg, hi]

/-- Tokens at their places are on their lines. -/
theorem placed_onLines (ts : List Token) : (placed ts).map (Token.map (Lexeme.onLines ts)) = ts := by
  have h := @map_placed id (fun _ => rfl) ts
  rw [Function.comp_id] at h
  rw [h]
  exact List.mapIdx_eq_iff.mpr fun i => by cases ts[i]? <;> rfl

/-- Spans with the texts of tokens changed.  A change depends on the text of a token and on its place among the
tokens, counted from `i` on. -/
def respellFrom (g : Lexeme → Lexeme) : Nat → List Span → List Span
  | _, [] => []
  | i, s :: rest =>
    match s.reading with
    | .token _ => { s with text := (g ⟨String.ofList s.text, i⟩).text.toList } :: respellFrom g (i + 1) rest
    | _ => s :: respellFrom g i rest

/-- A text with the texts of tokens changed. -/
def respell (g : Lexeme → Lexeme) (source : String) : String :=
  String.ofList ((respellFrom g 0 (spans source.toList)).flatMap (·.text))

/-! ### Identifiers -/

theorem IsLexeme.word {text : List Char} (h : IsLexeme text .identifier) :
    ∃ c rest, text = c :: rest ∧ isWordStart c ∧ ∀ d ∈ rest, isWordPart d := by
  cases h with
  | operator h =>
    have hnone : ∀ p ∈ operators, p.2 ≠ .identifier := by decide
    exact absurd rfl (hnone _ h)
  | identifier hc hrest _ => exact ⟨_, _, rfl, hc, hrest⟩

/-- A text is a lexeme of one category only. -/
theorem IsLexeme.kind_unique {text : List Char} {kind kind' : Kind} (h : IsLexeme text kind)
    (h' : IsLexeme text kind') : kind' = kind := by
  obtain ⟨c, rest, rfl, hfirst⟩ := h.first
  obtain ⟨c', rest', htext, hfirst'⟩ := h'.first
  obtain ⟨rfl, rfl⟩ := List.cons.inj htext
  rw [hfirst] at hfirst'
  cases hfirst'
  rfl

/-- An identifier is no reserved word. -/
theorem IsLexeme.isName {text : List Char} (h : IsLexeme text .identifier) :
    Keyword.ofText? (String.ofList text) = none := by
  cases hword : Keyword.ofText? (String.ofList text) with
  | none => rfl
  | some word =>
    have htext : text = word.text.toList := by
      rw [Keyword.ofText?_eq_some.mp hword |>.symm, String.toList_ofList]
    rw [htext] at h
    exact nomatch h.kind_unique (.keyword word)

theorem IsLexeme.count_newline {text : List Char} (h : IsLexeme text .identifier) : text.count '\n' = 0 := by
  obtain ⟨c, rest, rfl, hc, hrest⟩ := h.word
  refine List.count_eq_zero.mpr fun hmem => ?_
  rcases List.mem_cons.mp hmem with rfl | hmem
  · exact absurd hc (by decide)
  · exact absurd (hrest _ hmem) (by decide)

/-- A span that is an identifier. -/
structure Span.IsIdentifier (s : Span) : Prop where
  reading : s.reading = .token .identifier
  text : IsLexeme s.text .identifier

/-- A span may be spelled as another one: the same, or both are identifiers. -/
def Span.Respelled (s s' : Span) : Prop := s' = s ∨ s.IsIdentifier ∧ s'.IsIdentifier

theorem Span.Respelled.reading {s s' : Span} (h : s.Respelled s') : s'.reading = s.reading := by
  rcases h with rfl | ⟨hs, hs'⟩
  · rfl
  · rw [hs.reading, hs'.reading]

theorem Span.Respelled.lastLine {s s' : Span} (h : s.Respelled s') (line : Nat) :
    s'.lastLine line = s.lastLine line := by
  rcases h with rfl | ⟨hs, hs'⟩
  · rfl
  · rw [Span.lastLine, Span.lastLine, hs.text.count_newline, hs'.text.count_newline]

/-! ### The same cuts -/

/-- An identifier is cut where no word goes on. -/
theorem Span.IsIdentifier.first {s : Span} (h : s.IsIdentifier) {after : List Char}
    (ha : opensWith isWordPart after = false) :
    ∃ c tail, s.text = c :: tail ∧ Span.first c (tail ++ after) = (s, after) := by
  obtain ⟨c, tail, htext, hfirst⟩ := h.text.first
  obtain ⟨c', tail', htext', hc, htail⟩ := h.text.word
  obtain ⟨rfl, rfl⟩ := List.cons.inj (htext.symm.trans htext')
  refine ⟨c, tail, htext, ?_⟩
  rw [Span.first_word hc, wordSpan, splitWhile_whole htail] at hfirst
  rw [Span.first_word hc, wordSpan, splitWhile_of_stop htail ha]
  have hword : (⟨c :: tail, .token (wordKind (c :: tail))⟩ : Span) = ⟨s.text, .token .identifier⟩ :=
    (Prod.mk.inj hfirst).1
  have hs : s = ⟨s.text, .token .identifier⟩ := by rw [← h.reading]
  exact congrArg (·, after) (hword.trans hs.symm)

/-- No word goes on after an identifier that was cut. -/
theorem Span.IsIdentifier.stops {s : Span} (h : s.IsIdentifier) {c : Char} {rest after : List Char}
    (hs : Span.first c rest = (s, after)) : opensWith isWordPart after = false := by
  obtain ⟨tail, htext, -⟩ := Span.first_text hs
  obtain ⟨c', tail', htext', hc, -⟩ := h.text.word
  obtain ⟨rfl, rfl⟩ := List.cons.inj (htext.symm.trans htext')
  rw [Span.first_word hc] at hs
  cases hs
  exact splitWhile_stops isWordPart rest

section cuts

variable {text : List Char} {ss' : List Span}

/-- A text opens with a character of the same class, when all characters that words start with are in the class
or none of them. -/
theorem respelled_opens {p : Char → Bool} {b : Bool} (hp : ∀ c, isWordStart c → p c = b)
    (h : List.Forall₂ Span.Respelled (spans text) ss') :
    opensWith p (ss'.flatMap (·.text)) = opensWith p text := by
  cases text with
  | nil =>
    rw [spans, List.forall₂_nil_left_iff] at h
    rw [h]
    rfl
  | cons c rest =>
    rw [spans] at h
    obtain ⟨s', ss', hs, -, rfl⟩ := List.forall₂_cons_left_iff.mp h
    obtain ⟨tail, htext, -⟩ := Span.first_text (Prod.eta (Span.first c rest)).symm
    rw [List.flatMap_cons]
    rcases hs with rfl | ⟨hs, hs'⟩
    · rw [htext]
      rfl
    · obtain ⟨d, more, htext', hd, -⟩ := hs'.text.word
      obtain ⟨d', more', htext'', hd', -⟩ := hs.text.word
      obtain ⟨rfl, -⟩ := List.cons.inj (htext.symm.trans htext'')
      rw [htext']
      exact (hp d hd).trans (hp c hd').symm

/-- A character that starts no word is none that starts one. -/
theorem ne_of_isWordStart {c d : Char} (hd : isWordStart d = false) (hc : isWordStart c) : c ≠ d := by
  rintro rfl
  cases hc.symm.trans hd

theorem isDigit_of_isWordStart {c : Char} (h : isWordStart c) : c.isDigit = false := by
  simpa using not_isDigit_of_isWordStart h

/-- What comes after a span is ahead when it is spelled otherwise. -/
theorem respelled_ahead (h : List.Forall₂ Span.Respelled (spans text) ss') :
    Ahead text (ss'.flatMap (·.text)) where
  word := (respelled_opens (b := true) (fun c hc => by simp [isWordPart, hc]) h).trans
  digit := (respelled_opens (fun c hc => isDigit_of_isWordStart hc) h).trans
  equal := (respelled_opens (fun _ hc => decide_eq_false (ne_of_isWordStart rfl hc)) h).trans
  slash := (respelled_opens (fun _ hc => decide_eq_false (ne_of_isWordStart rfl hc)) h).trans
  line := (respelled_opens (fun _ hc => decide_eq_true (ne_of_isWordStart rfl hc)) h).trans
  fraction := by
    rw [fraction?_eq_none, fraction?_eq_none]
    intro hnone rest' hdot
    -- A point is a span of its own, so what comes after it is spelled otherwise.
    cases text with
    | nil =>
      rw [spans, List.forall₂_nil_left_iff] at h
      rw [h] at hdot
      cases hdot
    | cons c rest =>
      have hc : c = '.' := by
        have hopens := respelled_opens (p := (· = '.')) (fun _ hd => decide_eq_false (ne_of_isWordStart rfl hd)) h
        rw [hdot] at hopens
        simpa [opensWith] using hopens.symm
      subst hc
      rw [spans] at h
      obtain ⟨s', others, hs, hrest, rfl⟩ := List.forall₂_cons_left_iff.mp h
      have hfirst : Span.first '.' rest = (⟨['.'], .token .dot⟩, rest) := rfl
      rw [hfirst] at hs hrest
      obtain rfl := hs.resolve_right fun hs => by cases hs.1.reading
      obtain rfl : others.flatMap (·.text) = rest' := by simpa using hdot
      rw [respelled_opens (fun c hc => isDigit_of_isWordStart hc) hrest]
      exact hnone rest rfl

/-- A text whose identifiers are replaced by others is cut at the same places. -/
theorem spans_respelled (h : List.Forall₂ Span.Respelled (spans text) ss') :
    spans (ss'.flatMap (·.text)) = ss' := by
  fun_induction spans text generalizing ss' with
  | case1 =>
    rw [List.forall₂_nil_left_iff] at h
    rw [h, List.flatMap_nil, spans]
  | case2 c rest ih =>
    obtain ⟨s', others, hs, hrest, rfl⟩ := List.forall₂_cons_left_iff.mp h
    have ha := respelled_ahead hrest
    have ih := ih hrest
    generalize hfirst : Span.first c rest = cut at hs hrest ha ih
    obtain ⟨s, after⟩ := cut
    have hcut : ∃ d tail, s'.text = d :: tail ∧
        Span.first d (tail ++ others.flatMap (·.text)) = (s', others.flatMap (·.text)) := by
      rcases hs with rfl | ⟨hs, hs'⟩
      · obtain ⟨tail, htext, -⟩ := Span.first_text hfirst
        refine ⟨c, tail, htext, Span.first_before hfirst htext ha ?_⟩
        refine (eq_or_ne after []).imp (fun hnil => ?_) id
        rw [hnil, spans, List.forall₂_nil_left_iff] at hrest
        rw [hrest, List.flatMap_nil]
      · exact hs'.first (ha.word (hs.stops hfirst))
    obtain ⟨d, tail, htext, hcut⟩ := hcut
    rw [List.flatMap_cons, htext, List.cons_append, spans, hcut, ih]

end cuts

/-! ### The same tokens -/

/-- What a change does to identifiers and other tokens of a text, each told its place. -/
def Respells (g : Lexeme → Lexeme) (source : String) : Prop :=
  ∀ t ∈ placed (textTokens source), (g t.toLexeme).text = t.text ∨
    t.kind = .identifier ∧ IsLexeme (g t.toLexeme).text.toList .identifier

/-- A token among the spans of a text is a lexeme of the grammar. -/
theorem isLexeme_of_mem {text : List Char} {s : Span} (hs : s ∈ spans text) {kind : Kind}
    (hr : s.reading = .token kind) : IsLexeme s.text kind := by
  fun_induction spans text with
  | case1 => cases hs
  | case2 c rest ih =>
    rcases List.mem_cons.mp hs with rfl | hs
    · exact (Span.first_firstSpan c rest).isLexeme hr
    · exact ih hs

/-- The tokens of a text are lexemes of the grammar. -/
theorem textTokens_isLexeme {source : String} {t : Token} (ht : t ∈ textTokens source) :
    IsLexeme t.text.toList t.kind := by
  have htokens (line : Nat) (ss : List Span) (ht : t ∈ tokensFrom line ss) :
      ∃ s ∈ ss, s.reading = .token t.kind ∧ t.text = String.ofList s.text := by
    induction ss generalizing line with
    | nil => exact nomatch ht
    | cons s ss ih =>
      obtain ⟨text, reading⟩ := s
      cases reading with
      | token kind =>
        rcases List.mem_cons.mp ht with rfl | ht
        · exact ⟨_, List.mem_cons_self, rfl, rfl⟩
        · obtain ⟨s, hs, h⟩ := ih _ ht
          exact ⟨s, List.mem_cons_of_mem _ hs, h⟩
      | _ =>
        obtain ⟨s, hs, h⟩ := ih _ ht
        exact ⟨s, List.mem_cons_of_mem _ hs, h⟩
  obtain ⟨s, hs, hr, htext⟩ := htokens 1 _ ht
  rw [htext, String.toList_ofList]
  exact isLexeme_of_mem hs hr

section tokens

variable {g : Lexeme → Lexeme} {ss : List Span}

/-- The tokens of spans with texts that change from place `i` on. -/
theorem respellFrom_respelled (line i : Nat) (hs : ∀ s ∈ ss, s.reading = .token .identifier → s.IsIdentifier)
    (hg : ∀ j t, (tokensFrom line ss)[j]? = some t → (g ⟨t.text, i + j⟩).text = t.text ∨
      t.kind = .identifier ∧ IsLexeme (g ⟨t.text, i + j⟩).text.toList .identifier) :
    List.Forall₂ Span.Respelled ss (respellFrom g i ss) ∧
      tokensFrom line (respellFrom g i ss) =
        (tokensFrom line ss).mapIdx fun j t => ⟨⟨(g ⟨t.text, i + j⟩).text, t.line⟩, t.kind⟩ := by
  induction ss generalizing line i with
  | nil => exact ⟨.nil, rfl⟩
  | cons s ss ih =>
    have hss : ∀ s ∈ ss, s.reading = .token .identifier → s.IsIdentifier :=
      fun s' hs' => hs s' (List.mem_cons_of_mem _ hs')
    obtain ⟨text, reading⟩ := s
    cases reading with
    | token kind =>
      have hs' : Span.Respelled ⟨text, .token kind⟩ ⟨(g ⟨String.ofList text, i⟩).text.toList, .token kind⟩ := by
        refine (hg 0 _ rfl).imp (fun htext => ?_) fun ⟨hkind, hlexeme⟩ => ?_
        · change (g ⟨String.ofList text, i⟩).text = String.ofList text at htext
          rw [htext, String.toList_ofList]
        · obtain rfl : kind = .identifier := hkind
          exact ⟨hs _ List.mem_cons_self rfl, rfl, hlexeme⟩
      obtain ⟨hspans, htokens⟩ := ih (Span.lastLine line ⟨text, .token kind⟩) (i + 1) hss fun j t ht => by
        have hj := hg (j + 1) t (by simpa [tokensFrom] using ht)
        rwa [← Nat.add_assoc, Nat.add_right_comm] at hj
      refine ⟨.cons hs' hspans, ?_⟩
      simp only [respellFrom, tokensFrom, hs'.lastLine, htokens, List.mapIdx_cons, String.ofList_toList,
        Nat.add_zero, Nat.add_assoc, Nat.add_comm 1]
    | trivia =>
      obtain ⟨hspans, htokens⟩ := ih (Span.lastLine line ⟨text, .trivia⟩) i hss hg
      exact ⟨.cons (.inl rfl) hspans, htokens⟩
    | faulty fault =>
      obtain ⟨hspans, htokens⟩ := ih (Span.lastLine line ⟨text, .faulty fault⟩) i hss hg
      exact ⟨.cons (.inl rfl) hspans, htokens⟩

variable {source : String} (h : Respells g source)

include h

theorem respelled_source : List.Forall₂ Span.Respelled (spans source.toList) (respellFrom g 0 (spans source.toList)) ∧
    tokensFrom 1 (respellFrom g 0 (spans source.toList)) =
      (textTokens source).mapIdx fun j t => ⟨⟨(g ⟨t.text, 0 + j⟩).text, t.line⟩, t.kind⟩ := by
  refine respellFrom_respelled 1 0 (fun s hs hr => ⟨hr, isLexeme_of_mem hs hr⟩) fun j t ht => ?_
  have hplaced : (placed (textTokens source))[j]? = some ⟨⟨t.text, j⟩, t.kind⟩ := by
    rw [placed, List.getElem?_mapIdx, textTokens, ht]
    rfl
  rw [Nat.zero_add]
  exact h _ (List.mem_of_getElem? hplaced)

theorem spans_respell : spans (respell g source).toList = respellFrom g 0 (spans source.toList) := by
  rw [respell, String.toList_ofList, spans_respelled (respelled_source h).1]

/-- The tokens of a text with other identifiers are on the same lines. -/
theorem textTokens_respell (hg : ∀ t, (g t).line = t.line) :
    textTokens (respell g source) =
      (placed (textTokens source)).map (Token.map (Lexeme.onLines (textTokens source) ∘ g)) := by
  rw [textTokens, spans_respell h, (respelled_source h).2, map_placed hg]
  simp only [Nat.zero_add]

/-- A text with other identifiers is as faultless as before. -/
theorem faultless_respell (hf : faultsOf (scan source) = []) : faultsOf (scan (respell g source)) = [] := by
  rw [faultsOf_scan] at hf ⊢
  rw [spans_respell h]
  intro s' hs'
  obtain ⟨i, hi, rfl⟩ := List.mem_iff_getElem.mp hs'
  have hspans := (respelled_source h).1
  have hlt : i < (spans source.toList).length := hspans.length_eq ▸ hi
  have hreading : (respellFrom g 0 (spans source.toList))[i].reading = (spans source.toList)[i].reading :=
    (hspans.get hlt hi).reading
  rw [hreading]
  exact hf _ (List.getElem_mem hlt)

end tokens

end Lox
