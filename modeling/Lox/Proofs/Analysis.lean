import Lox.Program
import Lox.Proofs.Accepting
import Lox.Proofs.Forms
import Lox.Proofs.ParserSound

/-! # What analysis accepts

A text that analysis accepts is free of lexical faults and is a text of a body of statements; the program
is this body with numbered nodes, and resolution accepts it (`analyze_ok`, `analyzeExpression_ok`). -/

namespace Lox

/-! ### Texts that are read -/

/-- A text without lexical faults that the grammar reads as statements. -/
structure ReadsAs (source : String) (body : List PlainStmt) : Prop where
  clean : faultsOf (scan source) = []
  parsed : parseProgram (tokensOf (scan source)) = .ok body

/-- A text without lexical faults that the grammar reads as an expression. -/
structure ReadsAsExpr (source : String) (e : PlainExpr) : Prop where
  clean : faultsOf (scan source) = []
  parsed : parseExpression (tokensOf (scan source)) = .ok e

theorem textOf_scan (source : String) : textOf (tokensOf (scan source)) = textTokens source := by
  unfold textOf
  rw [tokensOf_scan, List.takeWhile_append_of_pos]
  · rw [List.takeWhile_cons_of_neg (by simp [Token.eof]), List.append_nil]
  · intro t ht
    simpa using (textTokens_lexed source t ht).1

theorem allLexed_scan (source : String) : AllLexed (textTokens source) := fun t ht =>
  (textTokens_lexed source t ht).2

theorem ReadsAs.text {source : String} {body : List PlainStmt} (h : ReadsAs source body) :
    BodyText (textTokens source) body := by
  rw [← textOf_scan]
  exact parseProgram_sound h.parsed

theorem ReadsAs.formed {source : String} {body : List PlainStmt} (h : ReadsAs source body) :
    Stmt.FormedAll body := h.text.formed (allLexed_scan source)

theorem ReadsAsExpr.spelled {source : String} {e : PlainExpr} (h : ReadsAsExpr source e) :
    e.Spelled := by
  have ht := parseExpression_sound h.parsed
  rw [textOf_scan] at ht
  exact ht.spelled (allLexed_scan source)

/-! ### The stages of analysis -/

section stages

variable {source : String} {body : List PlainStmt} {plain : PlainExpr}

theorem unlessFaulty_ok {α : Type} {faults : List Diagnostic} {a b : α}
    (h : unlessFaulty faults a = .ok b) : faults = [] ∧ a = b := by
  unfold unlessFaulty at h
  split at h
  · rename_i hf
    cases h
    exact ⟨List.isEmpty_iff.mp hf, rfl⟩
  · exact nomatch h

/-- What analysis finds in a text that the grammar rejects. -/
theorem analyze_unparsed {faults : List ParseError} (h : parseProgram (tokensOf (scan source)) = .error faults)
    (next : NodeId) :
    analyze next source = .error ((faultsOf (scan source)).map .lex ++ faults.map .parse) := by
  unfold analyze
  dsimp only
  rw [h]

/-- What analysis finds in a text that the grammar reads as statements, whatever the faults of its tokens. -/
theorem analyze_parsed (h : parseProgram (tokensOf (scan source)) = .ok body) (next : NodeId) :
    analyze next source = match resolveProgram (Stmt.numberAll next body).1 with
      | .error faults => .error ((faultsOf (scan source)).map .lex ++ faults.map .scope)
      | .ok distances => unlessFaulty ((faultsOf (scan source)).map .lex)
          (⟨(Stmt.numberAll next body).1, distances⟩, (Stmt.numberAll next body).2) := by
  unfold analyze
  cases hr : resolveProgram (Stmt.numberAll next body).1 <;> simp only [h, hr]

/-- What analysis finds in a text of statements. -/
theorem analyze_of_reads (h : ReadsAs source body) (next : NodeId) :
    analyze next source = match resolveProgram (Stmt.numberAll next body).1 with
      | .error faults => .error (faults.map .scope)
      | .ok distances => .ok (⟨(Stmt.numberAll next body).1, distances⟩, (Stmt.numberAll next body).2) := by
  rw [analyze_parsed h.parsed, h.clean]
  rfl

theorem readsAsExpr_of_read (h : readExpression source = .ok plain) : ReadsAsExpr source plain := by
  unfold readExpression at h
  dsimp only at h
  cases hp : parseExpression (tokensOf (scan source)) with
  | error faults =>
      rw [hp] at h
      exact nomatch h
  | ok e =>
      rw [hp] at h
      obtain ⟨hf, rfl⟩ := unlessFaulty_ok h
      exact ⟨List.map_eq_nil_iff.mp hf, hp⟩

/-- What analysis finds in a text of an expression. -/
theorem analyzeExpression_eq (h : readExpression source = .ok plain) (next : NodeId) :
    analyzeExpression next source = match resolveExpression (plain.number next).1 with
      | .error faults => .error (faults.map .scope)
      | .ok distances => .ok (⟨(plain.number next).1, distances⟩, (plain.number next).2) := by
  unfold analyzeExpression
  rw [h]
  rfl

end stages

/-! ### Accepted texts -/

/-- The stages of an analysis that accepts a program. -/
theorem analyze_stages {next last : NodeId} {source : String} {p : Program}
    (h : analyze next source = .ok (p, last)) :
    ∃ body, ReadsAs source body ∧ Stmt.numberAll next body = (p.statements, last) ∧
      resolveProgram p.statements = .ok p.distances := by
  cases hp : parseProgram (tokensOf (scan source)) with
  | error faults =>
      rw [analyze_unparsed hp] at h
      exact nomatch h
  | ok body =>
      rw [analyze_parsed hp] at h
      cases hr : resolveProgram (Stmt.numberAll next body).1 with
      | error faults =>
          rw [hr] at h
          exact nomatch h
      | ok ds =>
          rw [hr] at h
          obtain ⟨hf, he⟩ := unlessFaulty_ok h
          cases he
          exact ⟨body, ⟨List.map_eq_nil_iff.mp hf, hp⟩, rfl, hr⟩

/-- What analysis accepts as a program. -/
theorem analyze_ok {next last : NodeId} {source : String} {p : Program}
    (h : analyze next source = .ok (p, last)) :
    ∃ body, ReadsAs source body ∧ Stmt.numberAll next body = (p.statements, last) ∧
      Accepted p.statements p.distances := by
  obtain ⟨body, hreads, hnum, hr⟩ := analyze_stages h
  have hformed := Stmt.formedAll_number hreads.formed next
  rw [hnum] at hformed
  exact ⟨body, hreads, hnum, resolveProgram_ok hformed hr⟩

/-- The stages of an analysis that accepts an expression that stands alone. -/
theorem analyzeExpression_stages {next last : NodeId} {source : String} {e : LoneExpr}
    (h : analyzeExpression next source = .ok (e, last)) :
    ∃ plain, ReadsAsExpr source plain ∧ plain.number next = (e.expr, last) ∧
      resolveExpression e.expr = .ok e.distances := by
  cases hread : readExpression source with
  | error faults =>
      unfold analyzeExpression at h
      rw [hread] at h
      exact nomatch h
  | ok plain =>
      rw [analyzeExpression_eq hread] at h
      cases hr : resolveExpression (plain.number next).1 with
      | error faults =>
          rw [hr] at h
          exact nomatch h
      | ok ds =>
          rw [hr] at h
          cases h
          exact ⟨plain, readsAsExpr_of_read hread, rfl, hr⟩

/-- What analysis accepts as an expression that stands alone. -/
theorem analyzeExpression_ok {next last : NodeId} {source : String} {e : LoneExpr}
    (h : analyzeExpression next source = .ok (e, last)) :
    ∃ plain, ReadsAsExpr source plain ∧ plain.number next = (e.expr, last) ∧
      Found (usesAt [] none e.expr.references) e.distances := by
  obtain ⟨plain, hreads, hnum, hr⟩ := analyzeExpression_stages h
  exact ⟨plain, hreads, hnum, resolveExpression_ok hr⟩

end Lox
