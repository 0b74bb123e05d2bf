import Lox.Proofs.Bytes
import Lox.Proofs.Shapes

/-! # What the scanner yields

The tokens of a text are spelled as their categories say (`scan_lexed`), and the last of them is the one
end-of-file token (`tokensOf_scan`). -/

namespace Lox

/-! ### Spelling of tokens -/

/-- How a token of a category is spelled, as far as names and reserved words go. -/
def Kind.Spells : Kind → String → Prop
  | .identifier, n => Keyword.ofText? n = none
  | .keyword word, n => n = word.text
  | _, _ => True

/-- A token that is spelled as its category says. -/
def Token.Lexed (t : Token) : Prop := t.kind.Spells t.text

theorem Token.Lexed.isName {t : Token} (h : t.Lexed) (hk : t.kind = .identifier) :
    t.toLexeme.IsName := by
  rw [Token.Lexed, hk] at h
  exact h

theorem Token.Lexed.text_eq {t : Token} (h : t.Lexed) {word : Keyword} (hk : t.kind = .keyword word) :
    t.text = word.text := by
  rw [Token.Lexed, hk] at h
  exact h

/-- A span whose token is spelled as its category says. -/
def Span.Lexed (s : Span) : Prop :=
  ∀ kind, s.reading = .token kind → kind ≠ .eof ∧ kind.Spells (String.ofList s.text)

theorem wordSpan_lexed (c : Char) (rest : List Char) : (wordSpan c rest).1.Lexed := by
  rintro _ ⟨⟩
  change wordKind (c :: (splitWhile isWordPart rest).1) ≠ .eof ∧
    (wordKind (c :: (splitWhile isWordPart rest).1)).Spells
      (String.ofList (c :: (splitWhile isWordPart rest).1))
  unfold wordKind
  cases hk : Keyword.ofText? (String.ofList (c :: (splitWhile isWordPart rest).1)) with
  | none => exact ⟨nofun, hk⟩
  | some word => exact ⟨nofun, (Keyword.text_of_ofText? hk).symm⟩

theorem punctuation?_spells {c : Char} {kind : Kind} (h : punctuation? c = some kind) (n : String) :
    kind ≠ .eof ∧ kind.Spells n := by
  unfold punctuation? at h
  split at h <;> cases h <;> exact ⟨nofun, trivial⟩

theorem extensible?_spells {c : Char} {short long : Kind} (h : extensible? c = some (short, long))
    (n : String) : (short ≠ .eof ∧ short.Spells n) ∧ long ≠ .eof ∧ long.Spells n := by
  unfold extensible? at h
  split at h <;> cases h <;> exact ⟨⟨nofun, trivial⟩, nofun, trivial⟩

/-- Only words can be names or reserved words. -/
theorem Span.first_lexed (c : Char) (rest : List Char) : (Span.first c rest).1.Lexed := by
  unfold Span.first
  split
  · exact nofun
  split
  · unfold slashSpan
    split
    · exact nofun
    · rintro _ ⟨⟩
      exact ⟨nofun, trivial⟩
  split
  · unfold stringSpan
    split
    · rintro _ ⟨⟩
      exact ⟨nofun, trivial⟩
    · exact nofun
  split
  · unfold numberSpan
    dsimp only
    split
    · rintro _ ⟨⟩
      exact ⟨nofun, trivial⟩
    · rintro _ ⟨⟩
      exact ⟨nofun, trivial⟩
  split
  · exact wordSpan_lexed c rest
  split
  · rename_i hp
    rintro _ ⟨⟩
    exact punctuation?_spells hp _
  · rename_i hx
    have h := extensible?_spells hx
    unfold operatorSpan
    split
    · rintro _ ⟨⟩
      exact (h _).2
    · rintro _ ⟨⟩
      exact (h _).1
  · exact nofun

theorem spans_lexed (text : List Char) : ∀ s ∈ spans text, s.Lexed := by
  fun_induction spans text with
  | case1 => exact fun _ hs => absurd hs List.not_mem_nil
  | case2 c rest ih =>
      intro s hs
      rcases List.mem_cons.mp hs with rfl | hs
      · exact Span.first_lexed c rest
      · exact ih s hs

/-! ### The end of a stream -/

/-- The tokens of spans that start on a line, without the end-of-file token. -/
def tokensFrom (line : Nat) : List Span → List Token
  | [] => []
  | s :: rest =>
    match s.reading with
    | .token kind => ⟨⟨String.ofList s.text, s.lastLine line⟩, kind⟩ :: tokensFrom (s.lastLine line) rest
    | _ => tokensFrom (s.lastLine line) rest

/-- The line on which spans end. -/
def endLine (line : Nat) (ss : List Span) : Nat := ss.foldl Span.lastLine line

theorem tokensOf_items (line : Nat) (ss : List Span) :
    tokensOf (items line ss) = tokensFrom line ss ++ [Token.eof (endLine line ss)] := by
  induction ss generalizing line with
  | nil => rfl
  | cons s ss ih =>
      have h := ih (s.lastLine line)
      unfold tokensOf at h ⊢
      rw [items, tokensFrom, endLine, List.foldl_cons]
      unfold Span.item?
      cases s.reading with
      | trivia => exact h
      | token kind =>
          rw [List.cons_append, ← endLine, ← h]
          rfl
      | faulty fault => exact h

theorem tokensFrom_lexed {line : Nat} {ss : List Span} (h : ∀ s ∈ ss, s.Lexed) :
    ∀ t ∈ tokensFrom line ss, t.kind ≠ .eof ∧ t.Lexed := by
  induction ss generalizing line with
  | nil => exact nofun
  | cons s ss ih =>
      have hs := h s List.mem_cons_self
      have hss : ∀ t ∈ tokensFrom (s.lastLine line) ss, t.kind ≠ .eof ∧ t.Lexed :=
        ih fun s' hs' => h s' (List.mem_cons_of_mem _ hs')
      rw [tokensFrom]
      cases hr : s.reading with
      | trivia => exact hss
      | faulty fault => exact hss
      | token kind =>
          intro t ht
          rcases List.mem_cons.mp ht with rfl | ht
          · exact hs kind hr
          · exact hss t ht

/-- The tokens of a text before the end-of-file token. -/
def textTokens (source : String) : List Token := tokensFrom 1 (spans source.toList)

theorem textTokens_lexed (source : String) : ∀ t ∈ textTokens source, t.kind ≠ .eof ∧ t.Lexed :=
  tokensFrom_lexed (spans_lexed _)

/-- The stream of a text ends with its only end-of-file token. -/
theorem tokensOf_scan (source : String) :
    tokensOf (scan source) = textTokens source ++ [Token.eof (endLine 1 (spans source.toList))] := by
  rw [scan_eq, tokensOf_items]
  rfl

end Lox
