import Lox.Proofs.Analysis
import Lox.Proofs.Contexts
import Lox.Proofs.ParserComplete
import Lox.Proofs.Respelling

/-! # Braces in a text

An `Occurrence` is a statement in a text: the spans that it is made of, and the spans around it, which are a context
of the grammar.  To put the statement in braces is to write `{ ` before and ` }` behind it.  The text is then cut at
the same places (`Occurrence.spans_embraced`), so its tokens are those of before and two braces, all on the lines
where they were, and it is read as the same tree with the statement in braces (`Occurrence.readsAs_embraced`). -/

namespace Lox

/-! ### Occurrences of statements -/

/-- An occurrence of a statement in a text: the spans before it, its own, from its first token to its last, and those
after it. -/
structure Occurrence (source : String) where
  before : List Span
  own : List Span
  after : List Span
  cut : spans source.toList = before ++ (own ++ after)
  starts : ∀ s ∈ own.head?, s.reading ≠ .trivia
  ends : ∀ s ∈ own.getLast?, s.reading ≠ .trivia
  dangling : Bool
  statement : PlainStmt
  trees : PlainStmt → List PlainStmt
  text : StmtText dangling (tokensFrom (endLine 1 before) own) statement
  context : BodyContext dangling (tokensFrom 1 before) (tokensFrom (endLine 1 (before ++ own)) after) trees

/-- The text that spans make up. -/
abbrev textOfSpans (ss : List Span) : List Char := ss.flatMap (·.text)

theorem textOfSpans_append (ss ss' : List Span) : textOfSpans (ss ++ ss') = textOfSpans ss ++ textOfSpans ss' :=
  List.flatMap_append

/-- The one token of a span that is a token. -/
theorem tokensFrom_singleton {s : Span} {kind : Kind} (hr : s.reading = .token kind) (line : Nat) :
    tokensFrom line [s] = [⟨⟨String.ofList s.text, s.lastLine line⟩, kind⟩] := by
  rw [tokensFrom, hr]
  rfl

/-- The text with the statement in braces. -/
def Occurrence.embraced {source : String} (o : Occurrence source) : String :=
  String.ofList (textOfSpans o.before) ++ "\x7b " ++ String.ofList (textOfSpans o.own) ++ " \x7d" ++
    String.ofList (textOfSpans o.after)

/-- Spans are cut at every token of theirs. -/
theorem tokensFrom_split {line : Nat} {ss : List Span} {pre post : List Token} {t : Token}
    (h : tokensFrom line ss = pre ++ t :: post) :
    ∃ before s after, ss = before ++ s :: after ∧ s.reading = .token t.kind ∧ tokensFrom line before = pre ∧
      tokensFrom line (before ++ [s]) = pre ++ [t] ∧ tokensFrom (endLine line (before ++ [s])) after = post := by
  induction ss generalizing line pre with
  | nil => simp [tokensFrom] at h
  | cons s ss ih =>
      -- the tokens of the span, if it has any, are the first
      have hcons (us : List Span) :
          tokensFrom line (s :: us) = tokensFrom line [s] ++ tokensFrom (s.lastLine line) us :=
        tokensFrom_append line [s] us
      have hmore {front : List Token} (hs : tokensFrom line [s] ++ front = pre)
          (ht : tokensFrom (s.lastLine line) ss = front ++ t :: post) :
          ∃ before s' after, s :: ss = before ++ s' :: after ∧ s'.reading = .token t.kind ∧
            tokensFrom line before = pre ∧ tokensFrom line (before ++ [s']) = pre ++ [t] ∧
            tokensFrom (endLine line (before ++ [s'])) after = post := by
        obtain ⟨before, s', after, rfl, hr, hpre, hone, hpost⟩ := ih ht
        refine ⟨s :: before, s', after, rfl, hr, ?_, ?_, hpost⟩
        · rw [hcons, hpre, hs]
        · rw [List.cons_append, hcons, hone, ← List.append_assoc, hs]
      rw [hcons] at h
      cases hr : s.reading with
      | trivia =>
          have hs : tokensFrom line [s] = [] := by rw [tokensFrom, hr]; rfl
          rw [hs] at h
          exact hmore (by rw [hs]; rfl) h
      | faulty fault =>
          have hs : tokensFrom line [s] = [] := by rw [tokensFrom, hr]; rfl
          rw [hs] at h
          exact hmore (by rw [hs]; rfl) h
      | token kind =>
          have hs := tokensFrom_singleton hr line
          rw [hs] at h
          cases pre with
          | nil =>
              obtain ⟨rfl, rfl⟩ := List.cons.inj h
              exact ⟨[], s, ss, rfl, hr, rfl, hs, rfl⟩
          | cons u pre =>
              obtain ⟨rfl, ht⟩ := List.cons.inj h
              exact hmore (by rw [hs]; rfl) ht

/-- Every statement among the tokens of a text, with a context of the grammar around it, is an occurrence. -/
theorem exists_occurrence {source : String} {pre ts post : List Token} {dangling : Bool} {s : PlainStmt}
    {trees : PlainStmt → List PlainStmt} (h : textTokens source = pre ++ (ts ++ post)) (hs : StmtText dangling ts s)
    (hc : BodyContext dangling pre post trees) : ∃ o : Occurrence source, o.statement = s ∧ o.trees = trees := by
  -- the text up to the last token of the statement
  obtain ⟨us, l, rfl, -⟩ := hs.last
  have hend : tokensFrom 1 (spans source.toList) = (pre ++ us) ++ l :: post := by
    rw [← textTokens, h]
    simp
  obtain ⟨front, last, after, hcut, hlast, -, hfront, hpost⟩ := tokensFrom_split hend
  -- and what of it comes from the first token on
  obtain ⟨t, rest, hfirst⟩ := List.exists_cons_of_ne_nil hs.ne_nil
  have hstart : tokensFrom 1 (front ++ [last]) = pre ++ t :: rest := by
    rw [hfront, List.append_assoc, hfirst]
  obtain ⟨before, first, more, hsplit, hopen, hpre, -, -⟩ := tokensFrom_split hstart
  have hown : tokensFrom (endLine 1 before) (first :: more) = us ++ [l] := by
    rw [hsplit, tokensFrom_append, hpre, List.append_cancel_left_eq] at hstart
    rw [hstart, hfirst]
  have hclose : (first :: more).getLast? = some last := by
    have hlast := congrArg List.getLast? hsplit
    simpa using hlast.symm
  refine ⟨⟨before, first :: more, after, ?_, ?_, ?_, dangling, s, trees, ?_, ?_⟩, rfl, rfl⟩
  · rw [hcut, ← List.append_assoc, ← hsplit]
    simp
  · rintro s ⟨⟩
    rw [hopen]
    rintro ⟨⟩
  · rintro s hs'
    obtain rfl : last = s := by simpa [hclose] using hs'
    rw [hlast]
    rintro ⟨⟩
  · rwa [hown]
  · rwa [hpre, ← hsplit, hpost]

/-! ### Braces and blanks between spans -/

/-- A blank between tokens. -/
def blankSpan : Span := ⟨[' '], .trivia⟩

/-- An opening brace. -/
def openSpan : Span := ⟨['{'], .token .leftBrace⟩

/-- A closing brace. -/
def closeSpan : Span := ⟨['}'], .token .rightBrace⟩

theorem spans_blank (more : List Char) : spans (' ' :: more) = blankSpan :: spans more := by
  rw [spans]
  rfl

theorem spans_open (more : List Char) : spans ('{' :: more) = openSpan :: spans more := by
  rw [spans]
  rfl

theorem spans_close (more : List Char) : spans ('}' :: more) = closeSpan :: spans more := by
  rw [spans]
  rfl

/-- A brace is ahead of what follows a span, unless that starts a new line. -/
theorem Ahead.brace {after : List Char} (h : opensWith (· ≠ '\n') after) (more : List Char) :
    Ahead after ('{' :: more) where
  word _ := rfl
  digit _ := rfl
  fraction _ := rfl
  equal _ := rfl
  slash _ := rfl
  line hstops := by cases h.symm.trans hstops

/-- After the same first character, which is no point, another text is ahead. -/
theorem Ahead.same {c : Char} (hc : c ≠ '.') (after more : List Char) : Ahead (c :: after) (c :: more) where
  word := id
  digit := id
  fraction _ := fraction?_eq_none.mpr fun _ hdot => absurd (List.cons.inj hdot).1 hc
  equal := id
  slash := id
  line := id

theorem IsLexeme.ne_newline {c : Char} {rest : List Char} {kind : Kind} (h : IsLexeme (c :: rest) kind) :
    c ≠ '\n' := by
  rintro rfl
  obtain ⟨c, rest, htext, hfirst⟩ := h.first
  obtain ⟨rfl, rfl⟩ := List.cons.inj htext
  exact nomatch congrArg (·.1.reading) hfirst

/-- The spans that statements end with. -/
def Span.IsLast (s : Span) : Prop := s = ⟨[';'], .token .semicolon⟩ ∨ s = closeSpan

theorem Span.isLast {s : Span} {kind : Kind} (hr : s.reading = .token kind) (h : IsLexeme s.text kind)
    (hkind : kind = .semicolon ∨ kind = .rightBrace) : s.IsLast := by
  obtain ⟨text, reading⟩ := s
  obtain rfl : reading = .token kind := hr
  change IsLexeme text kind at h
  cases h with
  | operator hmem =>
    rcases hkind with rfl | rfl
    · exact .inl (by simpa [operators] using hmem)
    · exact .inr (by simpa [operators, closeSpan] using hmem)
  | _ => rcases hkind with h | h <;> cases h

/-- What statements end with is cut off whatever comes after it. -/
theorem Span.IsLast.spans {s : Span} (h : s.IsLast) (more : List Char) :
    spans (s.text ++ more) = s :: Lox.spans more := by
  rcases h with rfl | rfl
  · change Lox.spans (';' :: more) = _
    rw [Lox.spans]
    rfl
  · exact spans_close more

theorem Span.IsLast.ahead {s : Span} (h : s.IsLast) (after more : List Char) :
    Ahead (s.text ++ after) (s.text ++ more) := by
  rcases h with rfl | rfl
  · exact .same (by decide) after more
  · exact .same (by decide) after more

section occurrence

variable {source : String} (o : Occurrence source) (hf : Faultless (spans source.toList))

namespace Occurrence

include hf in
theorem faultless_own : Faultless o.own := fun s hs => hf s (by
  rw [o.cut]
  exact List.mem_append_right _ (List.mem_append_left _ hs))

/-- A span of the statement that is no trivia is a lexeme. -/
theorem lexeme {s : Span} (hs : s ∈ o.own) (ht : s.reading ≠ .trivia) (hg : ∀ fault, s.reading ≠ .faulty fault) :
    ∃ kind, s.reading = .token kind ∧ IsLexeme s.text kind := by
  have hmem : s ∈ spans source.toList := by
    rw [o.cut]
    exact List.mem_append_right _ (List.mem_append_left _ hs)
  cases hr : s.reading with
  | trivia => exact absurd hr ht
  | faulty fault => exact absurd hr (hg fault)
  | token kind => exact ⟨kind, rfl, isLexeme_of_mem hmem hr⟩

theorem own_ne_nil : o.own ≠ [] := by
  intro h
  have ht := o.text
  rw [h] at ht
  exact ht.ne_nil rfl

include hf

/-- The statement starts with a character that starts no line. -/
theorem opens (more : List Char) : opensWith (· ≠ '\n') (textOfSpans o.own ++ more) := by
  obtain ⟨s, ss, hown⟩ := List.exists_cons_of_ne_nil o.own_ne_nil
  have hs : s ∈ o.own := hown ▸ List.mem_cons_self
  obtain ⟨kind, -, hlexeme⟩ := o.lexeme hs (o.starts s (by simp [hown])) (o.faultless_own hf s hs)
  obtain ⟨c, rest, htext, -⟩ := hlexeme.first
  rw [htext] at hlexeme
  simpa [hown, htext, opensWith] using hlexeme.ne_newline

/-- The statement ends with a semicolon or a brace. -/
theorem closes : ∃ ss s, o.own = ss ++ [s] ∧ s.IsLast := by
  obtain ⟨ss, s, hown⟩ := (List.eq_nil_or_concat' o.own).resolve_left o.own_ne_nil
  have hs : s ∈ o.own := hown ▸ List.mem_append_right _ List.mem_cons_self
  obtain ⟨kind, hr, hlexeme⟩ := o.lexeme hs (o.ends s (by simp [hown])) (o.faultless_own hf s hs)
  refine ⟨ss, s, hown, s.isLast hr hlexeme ?_⟩
  have ht := o.text
  rw [hown, tokensFrom_append, tokensFrom_singleton hr] at ht
  obtain ⟨us, t, htokens, hkind⟩ := ht.last
  obtain ⟨-, hlast⟩ := List.append_inj' htokens rfl
  rwa [← (List.cons.inj hlast).1] at hkind

/-- The text with the statement in braces is cut at the same places. -/
theorem spans_embraced : spans o.embraced.toList =
    o.before ++ openSpan :: blankSpan :: (o.own ++ blankSpan :: closeSpan :: o.after) := by
  obtain ⟨ss, s, hown, hlast⟩ := o.closes hf
  have hstrings : ∀ s ∈ o.before ++ (o.own ++ o.after), s.reading ≠ .faulty .unterminatedString := fun s hs =>
    hf s (o.cut ▸ hs) _
  obtain ⟨hbefore, hrest⟩ := List.forall_mem_append.mp hstrings
  have hown' : spans (textOfSpans o.own ++ ' ' :: '}' :: textOfSpans o.after) =
      o.own ++ blankSpan :: closeSpan :: o.after := by
    have hcut : spans (textOfSpans (o.own ++ o.after)) = ss ++ (s :: o.after) := by
      rw [spans_after o.cut, hown, List.append_assoc, List.singleton_append]
    have hss : ∀ s ∈ ss, s.reading ≠ .faulty .unterminatedString := fun s hs =>
      hrest s (List.mem_append_left _ (hown ▸ List.mem_append_left _ hs))
    have hcut' : spans source.toList = (o.before ++ o.own) ++ o.after := by rw [o.cut, List.append_assoc]
    have hafter : spans (textOfSpans o.after) = o.after := spans_after hcut'
    -- all but the last span is found again before the last one, and that one before anything
    have hspans := spans_before hcut hss (hlast.ahead (textOfSpans o.after) (' ' :: '}' :: textOfSpans o.after))
    rw [hlast.spans, spans_blank, spans_close, hafter] at hspans
    simpa [hown, textOfSpans] using hspans
  have hopens : Ahead (textOfSpans (o.own ++ o.after))
      ('{' :: ' ' :: (textOfSpans o.own ++ ' ' :: '}' :: textOfSpans o.after)) := by
    refine .brace ?_ _
    rw [textOfSpans_append]
    exact o.opens hf _
  have htext : o.embraced.toList = textOfSpans o.before ++
      '{' :: ' ' :: (textOfSpans o.own ++ ' ' :: '}' :: textOfSpans o.after) := by
    simp [embraced]
  rw [htext, spans_before o.cut hbefore hopens, spans_open, spans_blank, hown']

/-- Braces bring no fault into a text. -/
theorem faultless_embraced : Faultless (spans o.embraced.toList) := by
  rw [o.spans_embraced hf]
  rw [o.cut] at hf
  intro s hs
  simp only [List.mem_append, List.mem_cons] at hs
  rcases hs with hs | rfl | rfl | hs | rfl | rfl | hs
  · exact hf s (List.mem_append_left _ hs)
  · exact nofun
  · exact nofun
  · exact hf s (List.mem_append_right _ (List.mem_append_left _ hs))
  · exact nofun
  · exact nofun
  · exact hf s (List.mem_append_right _ (List.mem_append_right _ hs))

omit hf in
theorem textTokens_eq : textTokens source = tokensFrom 1 o.before ++ (tokensFrom (endLine 1 o.before) o.own ++
    tokensFrom (endLine 1 (o.before ++ o.own)) o.after) := by
  have hline : endLine (endLine 1 o.before) o.own = endLine 1 (o.before ++ o.own) := (List.foldl_append ..).symm
  rw [textTokens, o.cut, tokensFrom_append, tokensFrom_append, hline]

/-- The tokens of the text with the statement in braces: two braces more, and the others on the same lines. -/
theorem textTokens_embraced : ∃ l r : Token, l.kind = .leftBrace ∧ r.kind = .rightBrace ∧
    textTokens o.embraced = tokensFrom 1 o.before ++ ((l :: (tokensFrom (endLine 1 o.before) o.own ++ [r])) ++
      tokensFrom (endLine 1 (o.before ++ o.own)) o.after) := by
  refine ⟨⟨⟨"\x7b", endLine 1 o.before⟩, .leftBrace⟩,
    ⟨⟨"\x7d", endLine 1 (o.before ++ o.own)⟩, .rightBrace⟩, rfl, rfl, ?_⟩
  have hline : endLine (endLine 1 o.before) o.own = endLine 1 (o.before ++ o.own) := (List.foldl_append ..).symm
  have hopen (line : Nat) (ss : List Span) : tokensFrom line (openSpan :: blankSpan :: ss) =
      ⟨⟨"\x7b", line⟩, .leftBrace⟩ :: tokensFrom line ss := rfl
  have hclose (line : Nat) (ss : List Span) : tokensFrom line (blankSpan :: closeSpan :: ss) =
      ⟨⟨"\x7d", line⟩, .rightBrace⟩ :: tokensFrom line ss := rfl
  rw [textTokens, o.spans_embraced hf, tokensFrom_append, hopen, tokensFrom_append, hclose, hline]
  simp

end Occurrence

end occurrence

/-! ### Reading -/

namespace Occurrence

variable {source : String} (o : Occurrence source) {body : List PlainStmt}

theorem formed : o.statement.Formed := by
  have hl := allLexed_scan source
  rw [o.textTokens_eq] at hl
  exact o.text.formed hl.right.left

variable (h : ReadsAs source body)

include h

/-- The text is read as the statement in its context. -/
theorem body_eq : body = o.trees o.statement := by
  have ht : BodyText (textOf (tokensOf (scan source))) (o.trees o.statement) := by
    rw [textOf_scan, o.textTokens_eq]
    exact o.context.fill o.text id
  exact Except.ok.inj (h.parsed.symm.trans (parseProgram_complete ht))

/-- With the statement in braces, the text is read as the statement in braces in the same context. -/
theorem readsAs_embraced : ReadsAs o.embraced (o.trees (.block [o.statement])) := by
  have hf := (faultsOf_scan source).mp h.clean
  refine ⟨(faultsOf_scan _).mpr (o.faultless_embraced hf), parseProgram_complete ?_⟩
  obtain ⟨l, r, hl, hr, htokens⟩ := o.textTokens_embraced hf
  have hbody : BodyText (tokensFrom (endLine 1 o.before) o.own) [o.statement] := by
    have hone := BodyText.cons (.statement o.text) .nil
    rwa [List.append_nil] at hone
  rw [textOf_scan, htokens]
  exact o.context.fill (.block hl hbody hr) nofun

end Occurrence

end Lox
