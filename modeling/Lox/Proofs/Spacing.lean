import Lox.Proofs.Layout

/-! # Tokens written out

A lexeme that ends a text, or has a blank character behind it, is one span whatever else comes (`spans_lexeme`),
and blank characters are spans of their own that count lines and nothing else (`items_blanks`).  So the tokens of a
text, written out with blank characters between them, are the tokens of what is written, which has no faults
(`scan_spaced`). -/

namespace Lox

/-! ### Writing out -/

/-- What stands between two tokens: one blank character or more. -/
structure Gap where
  text : List Char
  nonempty : text ≠ []
  blank : ∀ c ∈ text, isBlank c

/-- Tokens written out, each behind a gap. -/
def behindGaps (gap : Nat → Gap) : List Token → List Char
  | [] => []
  | t :: ts => (gap 0).text ++ (t.text.toList ++ behindGaps (fun i => gap (i + 1)) ts)

/-- Tokens written out in order, with a gap between each and the next. -/
def spaced (gap : Nat → Gap) : List Token → String
  | [] => ""
  | t :: ts => String.ofList (t.text.toList ++ behindGaps gap ts)

/-- A stream without faults: tokens that are given but for their lines, and the end-of-file token. -/
def Tells (stream : List Item) (ts : List Token) : Prop :=
  ∃ (ts' : List Token) (line : Nat), stream = ts'.map .ok ++ [.ok (Token.eof line)] ∧
    ts'.map Token.unlined = ts.map Token.unlined

theorem Tells.nil (line : Nat) : Tells [.ok (Token.eof line)] [] := ⟨[], line, rfl, rfl⟩

theorem Tells.cons {stream : List Item} {ts : List Token} (h : Tells stream ts) {t' t : Token}
    (ht : t'.unlined = t.unlined) : Tells (.ok t' :: stream) (t :: ts) := by
  obtain ⟨ts', line, rfl, hts⟩ := h
  exact ⟨t' :: ts', line, rfl, by rw [List.map_cons, List.map_cons, ht, hts]⟩

/-! ### Lexemes and gaps -/

theorem behindGaps_goesBlank (gap : Nat → Gap) (ts : List Token) : GoesBlank (behindGaps gap ts) := by
  intro c hc
  cases ts with
  | nil => cases hc
  | cons t ts =>
      obtain ⟨d, more, hgap⟩ := List.exists_cons_of_ne_nil (gap 0).nonempty
      rw [behindGaps, hgap] at hc
      cases hc
      exact (gap 0).blank _ (hgap ▸ List.mem_cons_self)

/-- A lexeme before a blank character is a span of its own. -/
theorem spans_lexeme {text after : List Char} {kind : Kind} (h : IsLexeme text kind) (ha : GoesBlank after) :
    spans (text ++ after) = ⟨text, .token kind⟩ :: spans after := by
  obtain ⟨c, rest, rfl, hfirst⟩ := h.first_blank ha
  rw [List.cons_append, spans, hfirst]

/-- Blank characters are trivia, so the items after them are those of the text that they come before. -/
theorem items_blanks {gap : List Char} (hgap : ∀ c ∈ gap, isBlank c) (line : Nat) (text : List Char) :
    items line (spans (gap ++ text)) = items (line + gap.count '\n') (spans text) := by
  induction gap generalizing line with
  | nil => rfl
  | cons c gap ih =>
      obtain ⟨hc, hgap⟩ := List.forall_mem_cons.mp hgap
      have hfirst : Span.first c (gap ++ text) = (⟨[c], .trivia⟩, gap ++ text) := by rw [Span.first, if_pos hc]
      have hitems : items line (⟨[c], .trivia⟩ :: spans (gap ++ text)) =
          items (line + [c].count '\n') (spans (gap ++ text)) := rfl
      rw [List.cons_append, spans, hfirst, hitems, ih hgap, Nat.add_assoc, ← List.count_append,
        List.singleton_append]

/-- A lexeme written out before a gap is read back, and then what comes behind it. -/
theorem Tells.lexeme {t : Token} {ts : List Token} {after : List Char} (ht : IsLexeme t.text.toList t.kind)
    (ha : GoesBlank after) (h : ∀ line, Tells (items line (spans after)) ts) (line : Nat) :
    Tells (items line (spans (t.text.toList ++ after))) (t :: ts) := by
  rw [spans_lexeme ht ha, items]
  refine (h _).cons ?_
  rw [String.ofList_toList]
  rfl

/-- Tokens written out behind gaps are read back. -/
theorem behindGaps_tells (gap : Nat → Gap) {ts : List Token} (h : ∀ t ∈ ts, IsLexeme t.text.toList t.kind)
    (line : Nat) : Tells (items line (spans (behindGaps gap ts))) ts := by
  induction ts generalizing gap line with
  | nil =>
      rw [behindGaps, spans]
      exact .nil line
  | cons t ts ih =>
      obtain ⟨ht, hts⟩ := List.forall_mem_cons.mp h
      rw [behindGaps, items_blanks (gap 0).blank]
      exact Tells.lexeme ht (behindGaps_goesBlank _ ts) (ih _ hts) _

/-- Lexemes written out with gaps between them are read back. -/
theorem spaced_tells (gap : Nat → Gap) {ts : List Token} (h : ∀ t ∈ ts, IsLexeme t.text.toList t.kind) :
    Tells (scan (spaced gap ts)) ts := by
  rw [scan_eq]
  cases ts with
  | nil =>
      rw [show (spaced gap []).toList = [] from rfl, spans]
      exact .nil 1
  | cons t ts =>
      obtain ⟨ht, hts⟩ := List.forall_mem_cons.mp h
      rw [spaced, String.toList_ofList]
      exact Tells.lexeme ht (behindGaps_goesBlank gap ts) (behindGaps_tells gap hts) 1

/-- The tokens of a text, written out with blank characters between them, are scanned without a fault as the same
tokens but for the lines. -/
theorem scan_spaced (source : String) :
    ∃ ts line, tokensOf (scan source) = ts ++ [Token.eof line] ∧
      ∀ gap, ∃ (ts' : List Token) (line' : Nat), scan (spaced gap ts) = ts'.map .ok ++ [.ok (Token.eof line')] ∧
        ts'.map Token.unlined = ts.map Token.unlined :=
  ⟨textTokens source, _, tokensOf_scan source, fun gap => spaced_tells gap fun _ => textTokens_isLexeme⟩

example :
    let gap : Gap := ⟨['\t', '\n'], by simp, by simp [isBlank]⟩
    spaced (fun _ => gap) [⟨⟨"a", 1⟩, .identifier⟩, ⟨⟨"!=", 1⟩, .bangEqual⟩, ⟨⟨"b", 2⟩, .identifier⟩] =
      "a\t\n!=\t\nb" := by cbv

end Lox
