import Lox.Proofs.Analysis
import Lox.Proofs.Lookahead

/-! # Texts one below the other

A text and one below it have the tokens of both, those of the second further down by the number of lines of
the first (`textTokens_below`), and no faults when they have none (`faultless_below`). -/

namespace Lox

/-! ### Moving down -/

/-- A lexeme some lines further down. -/
def Lexeme.lower (k : Nat) (t : Lexeme) : Lexeme := ⟨t.text, t.line + k⟩

@[simp] theorem Lexeme.lower_text (k : Nat) (t : Lexeme) : (t.lower k).text = t.text := rfl

@[simp] theorem Lexeme.lower_line (k : Nat) (t : Lexeme) : (t.lower k).line = t.line + k := rfl

/-- A token with another lexeme. -/
def Token.map (g : Lexeme → Lexeme) (t : Token) : Token := ⟨g t.toLexeme, t.kind⟩

@[simp] theorem Token.map_kind (g : Lexeme → Lexeme) (t : Token) : (t.map g).kind = t.kind := rfl

@[simp] theorem Token.map_toLexeme (g : Lexeme → Lexeme) (t : Token) :
    (t.map g).toLexeme = g t.toLexeme := rfl

theorem Span.lastLine_lower (line k : Nat) (s : Span) :
    s.lastLine (line + k) = s.lastLine line + k := Nat.add_right_comm line k _

/-- Spans further down have the same tokens further down. -/
theorem tokensFrom_lower (line k : Nat) (ss : List Span) :
    tokensFrom (line + k) ss = (tokensFrom line ss).map (Token.map (Lexeme.lower k)) := by
  induction ss generalizing line with
  | nil => rfl
  | cons s ss ih =>
      rw [tokensFrom, tokensFrom, Span.lastLine_lower, ih]
      cases s.reading <;> rfl

theorem tokensFrom_append (line : Nat) (ss ss' : List Span) :
    tokensFrom line (ss ++ ss') = tokensFrom line ss ++ tokensFrom (endLine line ss) ss' := by
  induction ss generalizing line with
  | nil => rfl
  | cons s ss ih =>
      rw [List.cons_append, tokensFrom, tokensFrom, ih]
      cases s.reading <;> rfl

theorem endLine_eq (line : Nat) (ss : List Span) :
    endLine line ss = line + (ss.flatMap (·.text)).count '\n' := by
  induction ss generalizing line with
  | nil => rfl
  | cons s ss ih =>
      have h := ih (s.lastLine line)
      rw [endLine, List.foldl_cons, List.flatMap_cons, List.count_append, ← Nat.add_assoc]
      exact h

/-! ### Texts without faults -/

/-- None of the spans is faulty. -/
def Faultless (ss : List Span) : Prop := ∀ s ∈ ss, ∀ fault, s.reading ≠ .faulty fault

theorem faultsOf_items (line : Nat) (ss : List Span) : faultsOf (items line ss) = [] ↔ Faultless ss := by
  induction ss generalizing line with
  | nil => exact ⟨fun _ _ hs => absurd hs List.not_mem_nil, fun _ => rfl⟩
  | cons s ss ih =>
      have h := ih (s.lastLine line)
      unfold faultsOf Faultless at h ⊢
      rw [items, List.forall_mem_cons]
      unfold Span.item?
      cases s.reading with
      | trivia => exact h.trans ⟨fun h => ⟨by rintro _ ⟨⟩, h⟩, fun h => h.2⟩
      | token kind => exact h.trans ⟨fun h => ⟨by rintro _ ⟨⟩, h⟩, fun h => h.2⟩
      | faulty fault => exact ⟨by rintro ⟨⟩, fun h => absurd rfl (h.1 fault)⟩

theorem faultsOf_scan (source : String) : faultsOf (scan source) = [] ↔ Faultless (spans source.toList) := by
  rw [scan_eq, faultsOf_items]

/-! ### Two texts -/

/-- How many lines a text has. -/
def lineCount (source : String) : Nat := source.toList.count '\n' + 1

/-- A text, and another one on the lines below it. -/
def below (source source' : String) : String := source ++ "\n" ++ source'

section below

variable {source source' : String}

theorem spans_below (h : Faultless (spans source.toList)) :
    spans (below source source').toList =
      spans source.toList ++ ⟨['\n'], .trivia⟩ :: spans source'.toList := by
  have ht : (below source source').toList = source.toList ++ '\n' :: source'.toList := by
    simp [below]
  rw [ht]
  exact spans_line source'.toList fun s hs => h s hs _

/-- The text below keeps its tokens, further down. -/
theorem textTokens_below (h : faultsOf (scan source) = []) :
    textTokens (below source source') =
      textTokens source ++ (textTokens source').map (Token.map (Lexeme.lower (lineCount source))) := by
  have hline : endLine 1 (spans source.toList) + 1 = 1 + lineCount source := by
    rw [endLine_eq, flatten_spans]
    rfl
  unfold textTokens
  rw [spans_below ((faultsOf_scan source).mp h), tokensFrom_append, ← tokensFrom_lower, ← hline]
  rfl

theorem faultless_below (h : faultsOf (scan source) = []) (h' : faultsOf (scan source') = []) :
    faultsOf (scan (below source source')) = [] := by
  rw [faultsOf_scan] at h h' ⊢
  rw [spans_below h]
  intro s hs
  rcases List.mem_append.mp hs with hs | hs
  · exact h s hs
  rcases List.mem_cons.mp hs with rfl | hs
  · exact nofun
  · exact h' s hs

end below

end Lox
