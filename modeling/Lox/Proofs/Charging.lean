import Lox.Proofs.Progress
import Mathlib.Data.List.Forall2
import Mathlib.Data.List.Nodup
import Mathlib.Data.List.Perm.Subperm

/-! # Charging faults to tokens

The faults of a list of tokens are charged to its tokens: the fault at which a declaration is given up to the token
that the declaration starts at, a bad target of an assignment to the sign of the assignment, and a parameter or an
argument beyond the limit to the comma before it.  No token is charged twice, so there are no more faults than tokens
(`parseProgram_charges`), however many declarations that nest are given up at the same token.

A rule of the parser that starts at one token and stops at another charges its faults to tokens between the two
(`Parser.Pays`).  What nests spares its first token, for which the declaration that starts there may have to pay, and a
sign or a comma that is charged has been taken, so that nothing else is charged to it. -/

namespace Lox

/-! ### Charges -/

/-- Faults after which the parser is not confused: it reports them and goes on. -/
def ParseFault.mild : ParseFault → Bool
  | .assignmentTarget | .tooManyParameters | .tooManyArguments => true
  | _ => false

/-- What is left to read from the token at an index on, with faults found so far. -/
def Cursor.before (w : Cursor) (i : Nat) (errors : List ParseError) : Cursor := ⟨w.rest.drop i, w.endLine, errors⟩

/-- A fault is charged to a token that was left to read, by the index of the token. -/
inductive Charge (w : Cursor) : ParseError → Nat → Prop
  /-- A declaration is given up with a fault, which is charged to the token that it starts at. -/
  | declaration {e : ParseError} {i : Nat} {c : Cursor} (hi : i < w.rest.length)
      (h : Parser.declaration (Parser.depthFor w.rest) (w.before i []) = .ok none c) (he : c.errors.getLast? = some e)
      (hmild : e.fault.mild = false) : Charge w e i
  /-- A bad target is charged to the sign after it. -/
  | target {i : Nat} {sign : Token} (h : w.rest[i]? = some sign) (hk : sign.kind = .equal) :
      Charge w ⟨.assignmentTarget, .at sign.toLexeme⟩ i
  /-- A parameter or argument beyond the limit is charged to the comma before it. -/
  | limit {i : Nat} {comma : Token} {fault : ParseFault} (h : w.rest[i]? = some comma) (hk : comma.kind = .comma)
      (hf : fault = .tooManyParameters ∨ fault = .tooManyArguments) :
      Charge w ⟨fault, (w.before (i + 1) []).place⟩ i

theorem Charge.lt {w : Cursor} {e : ParseError} {i : Nat} (h : Charge w e i) : i < w.rest.length := by
  cases h with
  | declaration hi => exact hi
  | target h => exact (List.getElem?_eq_some_iff.mp h).1
  | limit h => exact (List.getElem?_eq_some_iff.mp h).1

/-- Faults are charged to tokens from `low` up to `high`, each to its own. -/
def Charged (w : Cursor) (low high : Nat) (errors : List ParseError) : Prop :=
  ∃ charges : List Nat, List.Forall₂ (Charge w) errors charges ∧ charges.Nodup ∧ ∀ k ∈ charges, low ≤ k ∧ k < high

namespace Charged

variable {w : Cursor} {low low' mid high : Nat} {errors errors' : List ParseError} {e : ParseError}

theorem nil : Charged w low high [] := ⟨[], .nil, .nil, nofun⟩

theorem single (h : Charge w e low) : Charged w low (low + 1) [e] :=
  ⟨[low], .cons h .nil, List.nodup_singleton low, by simp⟩

theorem mono (h : Charged w low' mid errors) (hlow : low ≤ low') (hhigh : mid ≤ high) : Charged w low high errors := by
  obtain ⟨charges, hall, hnodup, hbounds⟩ := h
  refine ⟨charges, hall, hnodup, fun k hk => ?_⟩
  exact ⟨Nat.le_trans hlow (hbounds k hk).1, Nat.lt_of_lt_of_le (hbounds k hk).2 hhigh⟩

/-- Faults that are charged on both sides of a token, in either order. -/
theorem both (h : Charged w low mid errors) (h' : Charged w low' high errors') (hmid : mid ≤ low') (hlow : low ≤ low')
    (hhigh : mid ≤ high) : Charged w low high (errors ++ errors') ∧ Charged w low high (errors' ++ errors) := by
  obtain ⟨charges, hall, hnodup, hbounds⟩ := h
  obtain ⟨charges', hall', hnodup', hbounds'⟩ := h'
  have hdisjoint : List.Disjoint charges charges' := fun k hk hk' => by
    have hlt := (hbounds k hk).2
    have hge := (hbounds' k hk').1
    omega
  have hwithin : ∀ k ∈ charges, low ≤ k ∧ k < high := fun k hk =>
    ⟨(hbounds k hk).1, Nat.lt_of_lt_of_le (hbounds k hk).2 hhigh⟩
  have hwithin' : ∀ k ∈ charges', low ≤ k ∧ k < high := fun k hk =>
    ⟨Nat.le_trans hlow (hbounds' k hk).1, (hbounds' k hk).2⟩
  constructor
  · exact ⟨charges ++ charges', List.rel_append hall hall', hnodup.append hnodup' hdisjoint,
      List.forall_mem_append.mpr ⟨hwithin, hwithin'⟩⟩
  · exact ⟨charges' ++ charges, List.rel_append hall' hall, hnodup'.append hnodup fun k hk hk' => hdisjoint hk' hk,
      List.forall_mem_append.mpr ⟨hwithin', hwithin⟩⟩

/-- Only tokens that there are can be charged. -/
theorem inside (h : Charged w low high errors) : Charged w low w.rest.length errors := by
  obtain ⟨charges, hall, hnodup, hbounds⟩ := h
  have hlt : ∀ k ∈ charges, k < w.rest.length := by
    clear hnodup hbounds
    induction hall with
    | nil => exact nofun
    | cons h _ ih => exact List.forall_mem_cons.mpr ⟨h.lt, ih⟩
  exact ⟨charges, hall, hnodup, fun k hk => ⟨(hbounds k hk).1, hlt k hk⟩⟩

/-- There are no more faults than tokens that can be charged. -/
theorem length_le (h : Charged w low high errors) : errors.length ≤ high - low := by
  obtain ⟨charges, hall, hnodup, hbounds⟩ := h
  have hsub : charges ⊆ List.range' low (high - low) := fun k hk => by
    rw [List.mem_range'_1]
    have hk := hbounds k hk
    omega
  have hle := (hnodup.subperm hsub).length_le
  rwa [List.length_range', ← hall.length_eq] at hle

end Charged

namespace Parser

/-! ### Parsers that pay -/

/-- From the token at `i` on, a parser comes to the token at `j`, whatever faults there were before.  The faults that
it adds satisfy `F`, and a result satisfies `Q`; it is not given up with a fault that it could report. -/
inductive Meets (w : Cursor) (i : Nat) {α : Type} (p : Parser α) (F : Nat → List ParseError → Prop)
    (Q : α → Nat → Prop) : Prop
  | ok {a : α} {j : Nat} {more : List ParseError} (hp : ∀ es, p (w.before i es) = .ok a (w.before j (es ++ more)))
      (hle : i ≤ j) (hf : F j more) (hq : Q a j)
  | fault {e : ParseError} {j : Nat} {more : List ParseError}
      (hp : ∀ es, p (w.before i es) = .error e (w.before j (es ++ more))) (hle : i ≤ j) (hf : F j more)
      (hmild : e.fault.mild = false)

/-- A parser that reports nothing. -/
abbrev Quiet (w : Cursor) (i : Nat) {α : Type} (p : Parser α) (Q : α → Nat → Prop) : Prop :=
  Meets w i p (fun _ more => more = []) Q

/-- A parser that charges what it reports to tokens from `low` on that it has passed. -/
abbrev Pays (w : Cursor) (i low : Nat) {α : Type} (p : Parser α) (Q : α → Nat → Prop) : Prop :=
  Meets w i p (Charged w low) Q

/-- A parser that reports one fault at most, which is charged to a token before. -/
abbrev Owes (w : Cursor) (i debtor : Nat) {α : Type} (p : Parser α) (Q : α → Nat → Prop) : Prop :=
  Meets w i p (fun _ more => more = [] ∨ ∃ e, more = [e] ∧ Charge w e debtor) Q

section rules

variable {w : Cursor} {i low : Nat} {α β : Type} {p : Parser α} {f : α → Parser β}
  {F F' H : Nat → List ParseError → Prop} {G : Nat → Nat → List ParseError → Prop} {Q Q' : α → Nat → Prop}
  {R : β → Nat → Prop}

theorem Meets.imp (h : Meets w i p F Q) (hf : ∀ j more, i ≤ j → F j more → F' j more)
    (hq : ∀ a j, i ≤ j → Q a j → Q' a j) : Meets w i p F' Q' := by
  cases h with
  | ok hp hle h hr => exact .ok hp hle (hf _ _ hle h) (hq _ _ hle hr)
  | fault hp hle h hmild => exact .fault hp hle (hf _ _ hle h) hmild

/-- One parser after another: what the first one adds satisfies `F`, and what the second one adds then satisfies `G`. -/
theorem Meets.bind (h : Meets w i p F Q) (hf : ∀ a k, i ≤ k → Q a k → Meets w k (f a) (G k) R)
    (hgiven : ∀ k more, F k more → H k more)
    (hboth : ∀ k j more more', i ≤ k → k ≤ j → F k more → G k j more' → H j (more ++ more')) :
    Meets w i (p >>= f) H R := by
  cases h with
  | @ok a k more hp hle hmore hq =>
      have hbind (es : List ParseError) : (p >>= f) (w.before i es) = f a (w.before k (es ++ more)) := by
        change EStateM.bind p f _ = _
        rw [EStateM.bind, hp]
      cases hf a k hle hq with
      | @ok b j more' hp' hle' hmore' hr =>
          refine .ok (fun es => ?_) (Nat.le_trans hle hle') (hboth k j more more' hle hle' hmore hmore') hr
          rw [hbind, hp', List.append_assoc]
      | @fault e j more' hp' hle' hmore' hmild =>
          refine .fault (fun es => ?_) (Nat.le_trans hle hle') (hboth k j more more' hle hle' hmore hmore') hmild
          rw [hbind, hp', List.append_assoc]
  | @fault e k more hp hle hmore hmild =>
      refine .fault (fun es => ?_) hle (hgiven k more hmore) hmild
      change EStateM.bind p f _ = _
      rw [EStateM.bind, hp]

namespace Quiet

/-- A parser that takes nothing. -/
theorem look {a : α} (hp : ∀ es, p (w.before i es) = .ok a (w.before i es)) (hq : Q a i) : Quiet w i p Q := by
  have hrun (es : List ParseError) : p (w.before i es) = .ok a (w.before i (es ++ [])) := by
    rw [List.append_nil]
    exact hp es
  exact .ok hrun (Nat.le_refl i) rfl hq

theorem pure {a : α} (h : Q a i) : Quiet w i (Pure.pure a) Q := look (fun _ => rfl) h

theorem fail {fault : ParseFault} (h : fault.mild = false) : Quiet w i (Parser.fail fault : Parser α) Q := by
  have hrun (es : List ParseError) : (Parser.fail fault : Parser α) (w.before i es) =
      .error ⟨fault, (w.before i []).place⟩ (w.before i (es ++ [])) := by
    rw [List.append_nil]
    rfl
  exact .fault hrun (Nat.le_refl i) rfl h

/-- Two parsers that report nothing. -/
theorem andThen (h : Quiet w i p Q) (hf : ∀ a k, i ≤ k → Q a k → Quiet w k (f a) R) : Quiet w i (p >>= f) R := by
  refine Meets.bind h hf (fun _ _ h => h) ?_
  rintro k j _ _ _ _ rfl rfl
  rfl

/-- After a parser that reports nothing, the tokens that it has passed can still be charged. -/
theorem bind (h : Quiet w i p Q) (hf : ∀ a k, i ≤ k → Q a k → Pays w k low (f a) R) : Pays w i low (p >>= f) R := by
  refine Meets.bind h hf ?_ ?_
  · rintro k _ rfl
    exact .nil
  · rintro k j _ more' _ _ rfl h'
    exact h'

theorem pays (h : Quiet w i p Q) : Pays w i low p Q := by
  refine h.imp ?_ fun _ _ _ h => h
  rintro j _ _ rfl
  exact .nil

end Quiet

namespace Pays

theorem pure {a : α} (h : Q a i) : Pays w i low (Pure.pure a) Q := (Quiet.pure h).pays

theorem fail {fault : ParseFault} (h : fault.mild = false) : Pays w i low (Parser.fail fault : Parser α) Q :=
  (Quiet.fail h).pays

theorem mono {low' : Nat} (h : Pays w i low' p Q) (hle : low ≤ low') : Pays w i low p Q :=
  h.imp (fun _ _ _ h => h.mono hle (Nat.le_refl _)) fun _ _ _ h => h

theorem weaken (h : Pays w i low p Q) (hq : ∀ a j, i ≤ j → Q a j → Q' a j) : Pays w i low p Q' :=
  h.imp (fun _ _ _ h => h) hq

/-- What comes second charges tokens that the first one has not passed. -/
theorem bind (h : Pays w i low p Q) (hf : ∀ a k, i ≤ k → Q a k → Pays w k (max low k) (f a) R) :
    Pays w i low (p >>= f) R := by
  refine Meets.bind h hf (fun _ _ h => h) fun k j more more' _ hle h h' => ?_
  exact (h.both h' (Nat.le_max_right low k) (Nat.le_max_left low k) hle).1

theorem map {g : α → β} (h : Pays w i low p Q) (hg : ∀ a j, i ≤ j → Q a j → R (g a) j) : Pays w i low (g <$> p) R := by
  have hbind : Pays w i low (p >>= fun a => Pure.pure (g a)) R := h.bind fun a j hj hq => .pure (hg a j hj hq)
  rwa [bind_pure_comp] at hbind

/-- A parser that may report a fault at its end, which is charged to the token before the first one. -/
theorem settle (h : Pays w (i + 1) (i + 1) p Q) (hf : ∀ a k, i < k → Q a k → Owes w k i (f a) R) :
    Pays w (i + 1) i (p >>= f) R := by
  refine Meets.bind h hf (fun k _ h => h.mono (Nat.le_succ i) (Nat.le_refl k)) fun k j more _ hik hkj h h' => ?_
  rcases h' with rfl | ⟨e, rfl, he⟩
  · rw [List.append_nil]
    exact h.mono (Nat.le_succ i) hkj
  · have hmore := h.mono (Nat.le_refl (i + 1)) hkj
    exact ((Charged.single he).both hmore (Nat.le_refl _) (Nat.le_succ i) (Nat.le_trans hik hkj)).2

/-- A loop pays if each of its rounds does. -/
theorem loop {step : α → Parser (Option α)}
    (hs : ∀ k a, i ≤ k → Pays w k (max low k) (step a) fun _ _ => True) (limit : Nat) (a : α) :
    Pays w i low (Parser.loop step limit a) fun _ j => i ≤ j := by
  induction limit generalizing i low a with
  | zero => exact .pure (Nat.le_refl i)
  | succ limit ih =>
      refine .bind ((hs i a (Nat.le_refl i)).mono (Nat.le_max_left low i)) fun o k hk _ => ?_
      match o with
      | none => exact .pure hk
      | some b =>
          have hrest : Pays w k (max low k) (Parser.loop step limit b) fun _ j => k ≤ j :=
            ih (fun j a hj => (hs j a (Nat.le_trans hk hj)).mono (by omega)) b
          exact hrest.weaken fun _ j hj _ => Nat.le_trans hk hj

end Pays

/-! ### Tokens -/

/-- At an index there is no token left, or the first one that is left is the one there. -/
theorem before_cases (w : Cursor) (i : Nat) :
    (w.rest.length ≤ i ∧ ∀ es, w.before i es = ⟨[], w.endLine, es⟩) ∨
      ∃ t, w.rest[i]? = some t ∧ ∀ es, w.before i es = ⟨t :: w.rest.drop (i + 1), w.endLine, es⟩ := by
  unfold Cursor.before
  by_cases hi : i < w.rest.length
  · exact .inr ⟨w.rest[i], List.getElem?_eq_getElem hi, fun es => by rw [List.drop_eq_getElem_cons hi]⟩
  · exact .inl ⟨Nat.le_of_not_lt hi, fun es => by rw [List.drop_eq_nil_of_le (Nat.le_of_not_lt hi)]⟩

/-- The token that was next was taken and gave the result, or nothing was. -/
def Took (w : Cursor) (i : Nat) (gives : Token → β → Prop) : Option β → Nat → Prop
  | some b, j => j = i + 1 ∧ ∃ t, w.rest[i]? = some t ∧ gives t b
  | none, j => j = i

/-- The token that was next was accepted, or nothing was. -/
def Accepted (w : Cursor) (i : Nat) (kind : Kind) : Bool → Nat → Prop
  | true, j => j = i + 1 ∧ ∃ t, w.rest[i]? = some t ∧ t.kind = kind
  | false, j => j = i

namespace Quiet

/-- A parser that takes the next token, or leaves it. -/
theorem took {p : Parser (Option β)} {gives : Token → β → Prop}
    (hnil : ∀ endLine errors, p ⟨[], endLine, errors⟩ = .ok none ⟨[], endLine, errors⟩)
    (hcons : ∀ t, (∃ b, gives t b ∧ ∀ rest endLine errors,
        p ⟨t :: rest, endLine, errors⟩ = .ok (some b) ⟨rest, endLine, errors⟩) ∨
      ∀ rest endLine errors, p ⟨t :: rest, endLine, errors⟩ = .ok none ⟨t :: rest, endLine, errors⟩) :
    Quiet w i p (Took w i gives) := by
  rcases before_cases w i with ⟨-, hc⟩ | ⟨t, ht, hc⟩
  · refine look (a := none) (fun es => ?_) rfl
    rw [hc, hnil]
  rcases hcons t with ⟨b, hb, hp⟩ | hp
  · have hrun (es : List ParseError) : p (w.before i es) = .ok (some b) (w.before (i + 1) (es ++ [])) := by
      rw [List.append_nil, hc, hp]
      rfl
    exact .ok hrun (Nat.le_succ i) rfl ⟨rfl, t, ht, hb⟩
  · refine look (a := none) (fun es => ?_) rfl
    rw [hc, hp]

theorem accept? (kind : Kind) :
    Quiet w i (Parser.accept? kind) (Took w i fun t lexeme => t.kind = kind ∧ t.toLexeme = lexeme) := by
  refine took (fun _ _ => rfl) fun t => ?_
  by_cases hk : t.kind = kind
  · exact .inl ⟨t.toLexeme, ⟨hk, rfl⟩, fun _ _ _ => if_pos hk⟩
  · exact .inr fun _ _ _ => if_neg hk

theorem take? (want : Kind → Option β) :
    Quiet w i (Parser.take? want) (Took w i fun t taken => want t.kind = some taken.1 ∧ t.toLexeme = taken.2) := by
  refine took (fun _ _ => rfl) fun t => ?_
  cases hw : want t.kind with
  | some b => exact .inl ⟨(b, t.toLexeme), ⟨rfl, rfl⟩, fun _ _ _ => by simp only [Parser.take?, hw]⟩
  | none => exact .inr fun _ _ _ => by simp only [Parser.take?, hw]

theorem accept (kind : Kind) : Quiet w i (Parser.accept kind) (Accepted w i kind) := by
  refine (accept? kind).andThen fun o k _ htook => ?_
  match o with
  | some lexeme =>
      obtain ⟨rfl, t, ht, hk, -⟩ := htook
      exact .pure ⟨rfl, t, ht, hk⟩
  | none => exact .pure htook

theorem expect {kind : Kind} {fault : ParseFault} (h : fault.mild = false) :
    Quiet w i (Parser.expect kind fault) fun _ j => j = i + 1 := by
  refine (accept? kind).andThen fun o k _ htook => ?_
  match o with
  | some lexeme => exact .pure htook.1
  | none => exact .fail h

theorem nextIs (kind : Kind) : Quiet w i (Parser.nextIs kind) fun _ j => j = i := by
  rcases before_cases w i with ⟨-, hc⟩ | ⟨t, -, hc⟩
  · refine look (a := false) (fun es => ?_) rfl
    rw [hc]
    rfl
  · refine look (a := decide (t.kind = kind)) (fun es => ?_) rfl
    rw [hc]
    rfl

theorem atEnd : Quiet w i Parser.atEnd fun b j => j = i ∧ (b = false → i < w.rest.length) := by
  refine look (a := (w.rest.drop i).isEmpty) (fun _ => rfl) ⟨rfl, fun hempty => ?_⟩
  rw [List.isEmpty_eq_false_iff, ne_eq, List.drop_eq_nil_iff] at hempty
  exact Nat.lt_of_not_le hempty

end Quiet

/-- A parameter or argument beyond the limit is reported right after its comma, to which it is charged. -/
theorem Pays.reportHere {comma : Token} (h : w.rest[i]? = some comma) (hk : comma.kind = .comma) {fault : ParseFault}
    (hf : fault = .tooManyParameters ∨ fault = .tooManyArguments) :
    Pays w (i + 1) i (Parser.reportHere fault) fun _ j => j = i + 1 :=
  .ok (fun _ => rfl) (Nat.le_refl _) (.single (.limit h hk hf)) rfl

theorem Owes.pure {k : Nat} {a : α} (h : Q a k) : Owes w k i (Pure.pure a) Q :=
  Meets.imp (Quiet.pure h) (fun _ _ _ h => .inl h) fun _ _ _ h => h

/-- A bad target of an assignment is reported at the sign, to which it is charged. -/
theorem Owes.report {k : Nat} {sign : Token} (ht : w.rest[i]? = some sign) (hk : sign.kind = .equal) {a : α}
    (h : Q a k) :
    Owes w k i
      (do
        report ⟨.assignmentTarget, .at sign.toLexeme⟩
        return a) Q :=
  .ok (fun _ => rfl) (Nat.le_refl k) (.inr ⟨_, rfl, .target ht hk⟩) h

end rules

/-! ### Expressions -/

section expressions

variable {w : Cursor} {limit : Nat} {α β : Type} {nested operand : Parser PlainExpr}

/-- Wherever it starts, a parser charges what it reports to tokens from its first one on. -/
abbrev Covers (w : Cursor) (p : Parser α) : Prop := ∀ i, Pays w i i p fun _ _ => True

/-- Wherever it starts, a parser takes its first token, and charges what it reports to tokens after it. -/
abbrev Spares (w : Cursor) (p : Parser α) : Prop := ∀ i, Pays w i (i + 1) p fun _ j => i < j

theorem Spares.covers {p : Parser α} (h : Spares w p) : Covers w p := fun i =>
  ((h i).mono (Nat.le_succ i)).weaken fun _ _ _ _ => trivial

theorem leftJoined_spares {op? : Kind → Option β} {join : β → Lexeme → PlainExpr → PlainExpr → PlainExpr}
    (h : Spares w operand) : Spares w (leftJoined op? join limit operand) := by
  intro i
  refine .bind (h i) fun first k _ hk => .weaken (.loop (fun j left hj => ?_) limit first) fun _ j _ hj => by omega
  refine (Quiet.take? op?).bind fun o l _ htook => ?_
  match o with
  | none => exact .pure trivial
  | some (op, sign) =>
      obtain ⟨rfl, -⟩ := htook
      exact .bind ((h (j + 1)).mono (by omega)) fun right _ _ _ => .pure trivial

theorem commaSeparated_covers {tooMany : ParseFault} (ht : tooMany = .tooManyParameters ∨ tooMany = .tooManyArguments)
    {item : Parser α} (h : Covers w item) : Covers w (commaSeparated tooMany limit item) := by
  have hchecked (count i : Nat) {comma : Token} (hi : w.rest[i]? = some comma) (hk : comma.kind = .comma) :
      Pays w (i + 1) i
        (do
          if maxArity ≤ count then reportHere tooMany
          item) fun _ _ => True := by
    split
    · refine .bind (.reportHere hi hk ht) fun _ k _ hk => ?_
      subst hk
      exact (h (i + 1)).mono (by omega)
    · exact (h (i + 1)).mono (by omega)
  intro i
  refine .bind (h i) fun first k hk _ => .bind (.loop (fun j items hj => ?_) limit [first]) fun items _ _ _ =>
    .pure trivial
  refine (Quiet.accept .comma).bind fun b l _ haccepted => ?_
  match b with
  | false => exact .pure trivial
  | true =>
      obtain ⟨rfl, comma, hcomma, hkind⟩ := haccepted
      exact .bind ((hchecked items.length j hcomma hkind).mono (by omega)) fun a _ _ _ => .pure trivial

theorem arguments_covers (h : Covers w nested) : Covers w (arguments limit nested) := by
  intro i
  have hend (es : List PlainExpr) (k low : Nat) :
      Pays w k low (do return (es, ← expect .rightParen .argumentsEnd)) fun _ _ => True :=
    (Quiet.expect rfl).bind fun _ _ _ _ => .pure trivial
  refine (Quiet.nextIs .rightParen).bind fun b k _ hk => ?_
  subst hk
  match b with
  | true => exact hend [] k k
  | false => exact .bind (commaSeparated_covers (.inr rfl) h k) fun es j _ _ => hend es j _

theorem primary_spares (h : Covers w nested) : Spares w (primary nested) := by
  intro i
  refine (Quiet.take? literalValue).bind fun o k _ htook => ?_
  match o with
  | some (value, _) =>
      obtain ⟨rfl, -⟩ := htook
      exact .pure (Nat.lt_succ_self i)
  | none =>
  obtain rfl : k = i := htook
  refine (Quiet.accept? (.keyword .super)).bind fun o j _ htook => ?_
  match o with
  | some keyword =>
      obtain ⟨rfl, -⟩ := htook
      exact (Quiet.expect rfl).bind fun _ l _ _ => (Quiet.expect rfl).bind fun _ m _ _ => .pure (by omega)
  | none =>
  obtain rfl : j = k := htook
  refine (Quiet.accept? (.keyword .this)).bind fun o k _ htook => ?_
  match o with
  | some keyword =>
      obtain ⟨rfl, -⟩ := htook
      exact .pure (Nat.lt_succ_self j)
  | none =>
  obtain rfl : k = j := htook
  refine (Quiet.accept? .identifier).bind fun o j _ htook => ?_
  match o with
  | some name =>
      obtain ⟨rfl, -⟩ := htook
      exact .pure (Nat.lt_succ_self k)
  | none =>
  obtain rfl : j = k := htook
  refine (Quiet.accept .leftParen).bind fun b k _ haccepted => ?_
  match b with
  | true =>
      obtain ⟨rfl, -⟩ := haccepted
      exact .bind (h (j + 1)) fun _ l _ _ => (Quiet.expect rfl).bind fun _ m _ _ => .pure (by omega)
  | false => exact .fail rfl

theorem postfixed_spares (h : Covers w nested) : Spares w (postfixed limit nested) := by
  intro i
  refine .bind (primary_spares h i) fun first k _ hk =>
    .weaken (.loop (fun j e hj => ?_) limit first) fun _ j _ hj => by omega
  refine (Quiet.accept .leftParen).bind fun b l _ haccepted => ?_
  match b with
  | true =>
      obtain ⟨rfl, -⟩ := haccepted
      exact .bind ((arguments_covers h (j + 1)).mono (by omega)) fun _ _ _ _ => .pure trivial
  | false =>
  refine (Quiet.accept .dot).bind fun b l _ _ => ?_
  match b with
  | true => exact (Quiet.expect rfl).bind fun _ _ _ _ => .pure trivial
  | false => exact .pure trivial

theorem prefixed_spares (h : Covers w nested) : Spares w (prefixed limit nested) := by
  intro i
  refine .bind (.loop (fun j ops hj => ?_) limit []) fun ops k _ hk => ?_
  · exact (Quiet.take? prefixOp).bind fun o l _ _ => .pure trivial
  · exact .bind ((postfixed_spares h k).mono (by omega)) fun _ j _ hj => .pure (by omega)

theorem operation_spares (h : Covers w nested) : Spares w (operation limit nested) :=
  leftJoined_spares (leftJoined_spares (leftJoined_spares (leftJoined_spares (prefixed_spares h))))

theorem disjunction_spares (h : Covers w nested) : Spares w (disjunction limit nested) :=
  leftJoined_spares (leftJoined_spares (operation_spares h))

theorem assignment_spares (h : Spares w nested) : Spares w (assignment limit nested) := by
  intro i
  refine .bind (disjunction_spares h.covers i) fun target k _ hk => (Quiet.accept? .equal).bind fun o l _ htook => ?_
  match o with
  | none => exact .pure (by omega)
  | some sign =>
      obtain ⟨rfl, t, ht, hkind, rfl⟩ := htook
      -- the value is charged to tokens after the sign, which is left for the target
      refine .weaken (.mono (.settle (h.covers (k + 1)) fun value j _ _ => ?_) (by omega : max (i + 1) k ≤ k))
        (Q := fun _ _ => True) fun _ j hj _ => by omega
      cases target with
      | name ref => exact .pure trivial
      | get id object name => exact .pure trivial
      | _ => exact .report ht hkind trivial

/-- The faults of an expression are charged to tokens after its first one. -/
theorem expression_spares (depth : Nat) : Spares w (expression depth) := by
  induction depth with
  | zero => exact fun i => .fail rfl
  | succ depth ih =>
      rw [expression_succ]
      exact assignment_spares ih

theorem expressionThen_spares {fault : ParseFault} (hf : fault.mild = false) (h : Spares w nested) :
    Spares w (expressionThen fault nested) := fun i =>
  .bind (h i) fun _ k _ hk => (Quiet.expect hf).bind fun _ j hj _ => .pure (by omega)

theorem unlessNext_covers (kind : Kind) (h : Covers w nested) : Covers w (unlessNext kind nested) := by
  intro i
  refine (Quiet.nextIs kind).bind fun b k _ hk => ?_
  subst hk
  match b with
  | true => exact .pure trivial
  | false => exact .bind (h k) fun _ _ _ _ => .pure trivial

end expressions

/-! ### Statements -/

section statements

variable {w : Cursor} {i limit : Nat} {α β : Type} {expr : Parser PlainExpr} {stmt : Parser PlainStmt}
  {decl : Parser (Option PlainStmt)}

/-- Statements from the token at `i` on spare their first token. -/
def StatesFrom (w : Cursor) (i : Nat) (stmt : Parser PlainStmt) : Prop :=
  ∀ k, i ≤ k → Pays w k (k + 1) stmt fun _ _ => True

/-- Declarations from the token at `i` on pay for their first token, if there is one. -/
def DeclaresFrom (w : Cursor) (i : Nat) (decl : Parser (Option PlainStmt)) : Prop :=
  ∀ k, i ≤ k → k < w.rest.length → Pays w k k decl fun _ _ => True

theorem DeclaresFrom.mono {k : Nat} (h : DeclaresFrom w i decl) (hk : i ≤ k) : DeclaresFrom w k decl := fun j hj =>
  h j (Nat.le_trans hk hj)

theorem variableDeclaration_covers (h : Covers w expr) : Covers w (variableDeclaration expr) := by
  intro i
  refine (Quiet.expect rfl).bind fun name k hk _ => (Quiet.accept .equal).bind fun b j hj _ => ?_
  have hend (e : Option PlainExpr) (l low : Nat) :
      Pays w l low
        (do
          let _ ← expect .semicolon .variableEnd
          return Stmt.var name e) fun _ _ => True :=
    (Quiet.expect rfl).bind fun _ _ _ _ => .pure trivial
  match b with
  | true =>
      have hvalue : Pays w j i (some <$> expr) fun _ _ => True :=
        ((h j).mono (by omega)).map fun _ _ _ _ => trivial
      exact hvalue.bind fun e l _ _ => hend e l _
  | false => exact (Quiet.pure (Q := fun _ _ => True) trivial).bind fun e l _ _ => hend e l _

/-- Items up to a closing brace or the end. -/
theorem upToBrace_pays {item : Parser α} (add : α → List β → List β)
    (h : ∀ k, i ≤ k → k < w.rest.length → Pays w k k item fun _ _ => True) :
    Pays w i i
      (loop (fun items => do
        if (← nextIs .rightBrace) || (← atEnd) then return none
        else return some (add (← item) items)) limit []) fun _ _ => True := by
  refine .weaken (.loop (fun k items hk => ?_) limit []) fun _ _ _ _ => trivial
  refine (Quiet.nextIs .rightBrace).bind fun b j _ hj => Quiet.atEnd.bind fun b' l _ hl => ?_
  obtain rfl : j = k := hj
  obtain ⟨rfl, hmore⟩ := hl
  cases hb : b || b' with
  | true =>
      rw [if_pos rfl]
      exact .pure trivial
  | false =>
      rw [if_neg Bool.false_ne_true]
      have hlt := hmore (Bool.or_eq_false_iff.mp hb).2
      exact .bind ((h l hk hlt).mono (by omega)) fun _ _ _ _ => .pure trivial

theorem block_pays (h : DeclaresFrom w i decl) : Pays w i i (block limit decl) fun _ _ => True :=
  .bind (upToBrace_pays (fun o body => o.toList ++ body) h) fun _ _ _ _ =>
    (Quiet.expect rfl).bind fun _ _ _ _ => .pure trivial

theorem routine_pays (sort : Routine) (h : DeclaresFrom w i decl) :
    Pays w i i (routine sort limit decl) fun _ _ => True := by
  refine (Quiet.expect rfl).bind fun name k hk _ => (Quiet.expect rfl).bind fun _ j hj _ =>
    (Quiet.nextIs .rightParen).bind fun b l hl _ => ?_
  have hrest (params : List Lexeme) (m : Nat) (hm : i ≤ m) :
      Pays w m m
        (do
          let _ ← expect .rightParen .parametersEnd
          let _ ← expect .leftBrace (.bodyStart sort)
          return FunDecl.mk name params (← block limit decl)) fun _ _ => True := by
    refine (Quiet.expect rfl).bind fun _ n hn _ => (Quiet.expect rfl).bind fun _ o ho _ => ?_
    exact .bind ((block_pays (h.mono (by omega))).mono (by omega)) fun _ _ _ _ => .pure trivial
  match b with
  | true => exact (hrest [] l (by omega)).mono (by omega)
  | false =>
      have hname : Covers w (expect .identifier .parameterName) := fun m =>
        (Quiet.expect rfl).pays.weaken fun _ _ _ _ => trivial
      refine .bind ((commaSeparated_covers (.inl rfl) hname l).mono (by omega)) fun params m hm _ => ?_
      exact (hrest params m (by omega)).mono (by omega)

theorem classDeclaration_pays (h : DeclaresFrom w i decl) :
    Pays w i i (classDeclaration limit decl) fun _ _ => True := by
  refine (Quiet.expect rfl).bind fun name k hk _ => (Quiet.accept .less).bind fun b j hj _ => ?_
  have hrest (superclass : Option (Reference Unit)) (l : Nat) (hl : i ≤ l) :
      Pays w l i
        (do
          let _ ← expect .leftBrace .classBodyStart
          let methods ← loop (fun methods => do
            if (← nextIs .rightBrace) || (← atEnd) then return none
            else return some ((← routine .method limit decl) :: methods)) limit []
          let _ ← expect .rightBrace .classBodyEnd
          return Stmt.cls name superclass methods.reverse) fun _ _ => True := by
    refine (Quiet.expect rfl).bind fun _ m hm _ => ?_
    refine .bind (.mono (upToBrace_pays List.cons fun n hn _ => ?_) (by omega)) fun _ _ _ _ =>
      (Quiet.expect rfl).bind fun _ _ _ _ => .pure trivial
    exact routine_pays .method (h.mono (by omega))
  match b with
  | true => exact (Quiet.expect rfl).bind fun lexeme l hl _ => hrest (some ⟨(), lexeme⟩) l (by omega)
  | false => exact hrest none j (by omega)

theorem forInitializer_covers (h : Spares w expr) : Covers w (forInitializer expr) := by
  intro i
  refine (Quiet.accept .semicolon).bind fun b k hk _ => ?_
  match b with
  | true => exact .pure trivial
  | false =>
  refine (Quiet.accept (.keyword .var)).bind fun b j hj _ => ?_
  match b with
  | true => exact ((variableDeclaration_covers h.covers j).mono (by omega)).map fun _ _ _ _ => trivial
  | false => exact ((expressionThen_spares rfl h j).mono (by omega)).map fun _ _ _ _ => trivial

theorem forStatement_pays (he : Spares w expr) (hs : StatesFrom w i stmt) :
    Pays w i i (forStatement expr stmt) fun _ _ => True := by
  refine (Quiet.expect rfl).bind fun _ k hk _ => ?_
  refine .bind ((forInitializer_covers he k).mono (by omega)) fun start j hj _ => ?_
  refine .bind ((unlessNext_covers .semicolon he.covers j).mono (by omega)) fun condition l hl _ =>
    (Quiet.expect rfl).bind fun _ m hm _ => ?_
  refine .bind ((unlessNext_covers .rightParen he.covers m).mono (by omega)) fun step n hn _ =>
    (Quiet.expect rfl).bind fun _ o ho _ => ?_
  exact .bind ((hs o (by omega)).mono (by omega)) fun body _ _ _ => .pure trivial

theorem ifStatement_pays (he : Covers w expr) (hs : StatesFrom w i stmt) :
    Pays w i i (ifStatement expr stmt) fun _ _ => True := by
  refine (Quiet.expect rfl).bind fun _ k hk _ => .bind ((he k).mono (by omega)) fun condition j hj _ =>
    (Quiet.expect rfl).bind fun _ l hl _ => ?_
  refine .bind ((hs l (by omega)).mono (by omega)) fun yes m hm _ =>
    (Quiet.accept (.keyword .else_)).bind fun b n hn _ => ?_
  match b with
  | true =>
      have hno : Pays w n (n + 1) (some <$> stmt) fun _ _ => True := (hs n (by omega)).map fun _ _ _ _ => trivial
      exact .bind (hno.mono (by omega)) fun no _ _ _ => .pure trivial
  | false => exact (Quiet.pure (Q := fun _ _ => True) trivial).bind fun no _ _ _ => .pure trivial

theorem whileStatement_pays (he : Covers w expr) (hs : StatesFrom w i stmt) :
    Pays w i i (whileStatement expr stmt) fun _ _ => True := by
  refine (Quiet.expect rfl).bind fun _ k hk _ => .bind ((he k).mono (by omega)) fun condition j hj _ =>
    (Quiet.expect rfl).bind fun _ l hl _ => ?_
  exact .bind ((hs l (by omega)).mono (by omega)) fun body _ _ _ => .pure trivial

theorem statementWith_pays (hs : StatesFrom w (i + 1) stmt) (hd : DeclaresFrom w (i + 1) decl) :
    Pays w i (i + 1) (statementWith limit stmt decl) fun _ _ => True := by
  have he : Spares w (expression limit) := expression_spares limit
  refine (Quiet.accept _).bind fun b k _ haccepted => ?_
  match b with
  | true =>
      obtain ⟨rfl, -⟩ := haccepted
      exact forStatement_pays he hs
  | false =>
  obtain rfl : k = i := haccepted
  refine (Quiet.accept _).bind fun b j _ haccepted => ?_
  match b with
  | true =>
      obtain ⟨rfl, -⟩ := haccepted
      exact ifStatement_pays he.covers hs
  | false =>
  obtain rfl : j = k := haccepted
  refine (Quiet.accept _).bind fun b k _ haccepted => ?_
  match b with
  | true =>
      obtain ⟨rfl, -⟩ := haccepted
      exact ((expressionThen_spares rfl he (j + 1)).mono (by omega)).map fun _ _ _ _ => trivial
  | false =>
  obtain rfl : k = j := haccepted
  refine (Quiet.accept? _).bind fun o j _ htook => ?_
  match o with
  | some keyword =>
      obtain ⟨rfl, -⟩ := htook
      exact .bind (unlessNext_covers .semicolon he.covers (k + 1)) fun value _ _ _ =>
        (Quiet.expect rfl).bind fun _ _ _ _ => .pure trivial
  | none =>
  obtain rfl : j = k := htook
  refine (Quiet.accept _).bind fun b k _ haccepted => ?_
  match b with
  | true =>
      obtain ⟨rfl, -⟩ := haccepted
      exact whileStatement_pays he.covers hs
  | false =>
  obtain rfl : k = j := haccepted
  refine (Quiet.accept _).bind fun b j _ haccepted => ?_
  match b with
  | true =>
      obtain ⟨rfl, -⟩ := haccepted
      exact (block_pays hd).map fun _ _ _ _ => trivial
  | false =>
      obtain rfl : j = k := haccepted
      exact (expressionThen_spares rfl he j).map fun _ _ _ _ => trivial

theorem declarationWith_pays (hs : Pays w i (i + 1) stmt fun _ _ => True) (hd : DeclaresFrom w (i + 1) decl) :
    Pays w i (i + 1) (declarationWith limit stmt decl) fun _ _ => True := by
  refine (Quiet.accept _).bind fun b k _ haccepted => ?_
  match b with
  | true =>
      obtain ⟨rfl, -⟩ := haccepted
      exact classDeclaration_pays hd
  | false =>
  obtain rfl : k = i := haccepted
  refine (Quiet.accept _).bind fun b j _ haccepted => ?_
  match b with
  | true =>
      obtain ⟨rfl, -⟩ := haccepted
      exact (routine_pays .function hd).map fun _ _ _ _ => trivial
  | false =>
  obtain rfl : j = k := haccepted
  refine (Quiet.accept _).bind fun b k _ haccepted => ?_
  match b with
  | true =>
      obtain ⟨rfl, -⟩ := haccepted
      exact variableDeclaration_covers (expression_spares limit).covers (j + 1)
  | false =>
      obtain rfl : k = j := haccepted
      exact hs

/-! ### Recovery -/

theorem skipAfter_eq_drop (t : Token) (rest : List Token) : ∃ n, skipAfter t rest = rest.drop n := by
  induction rest generalizing t with
  | nil => exact ⟨0, rfl⟩
  | cons u rest ih =>
      rw [skipAfter]
      split
      · exact ⟨0, rfl⟩
      · obtain ⟨n, hn⟩ := ih u
        exact ⟨n + 1, hn⟩

/-- Unless it is at the end, the parser moves on when it recovers. -/
theorem synchronize_before (w : Cursor) (i : Nat) :
    ∃ j, i ≤ j ∧ (i < w.rest.length → i < j) ∧ ∀ es, synchronize (w.before i es) = w.before j es := by
  rcases before_cases w i with ⟨hle, hc⟩ | ⟨t, -, hc⟩
  · refine ⟨i, Nat.le_refl i, fun hi => absurd hi (Nat.not_lt_of_le hle), fun es => ?_⟩
    rw [hc]
    rfl
  · obtain ⟨n, hn⟩ := skipAfter_eq_drop t (w.rest.drop (i + 1))
    refine ⟨i + 1 + n, by omega, fun _ => by omega, fun es => ?_⟩
    rw [hc]
    change (⟨skipAfter t (w.rest.drop (i + 1)), w.endLine, es⟩ : Cursor) = _
    rw [hn, List.drop_drop]
    rfl

/-- A parser that recovers pays for the fault it was given up with at its first token. -/
theorem recovering_pays {p : Parser α} (h : Pays w i (i + 1) p fun _ _ => True) (hi : i < w.rest.length)
    (hc : ∀ (e : ParseError) (c : Cursor), recovering p (w.before i []) = .ok none c → c.errors.getLast? = some e →
      e.fault.mild = false → Charge w e i) : Pays w i i (recovering p) fun _ _ => True := by
  cases h with
  | @ok a j more hp hle hmore _ =>
      have hrun (es : List ParseError) : recovering p (w.before i es) = .ok (some a) (w.before j (es ++ more)) := by
        rw [recovering, hp]
      exact .ok hrun hle (hmore.mono (Nat.le_succ i) (Nat.le_refl j)) trivial
  | @fault e j more hp hle hmore hmild =>
      obtain ⟨k, hjk, hlt, hsync⟩ := synchronize_before w j
      have hrun (es : List ParseError) :
          recovering p (w.before i es) = .ok none (w.before k (es ++ (more ++ [e]))) := by
        rw [recovering, hp, ← List.append_assoc]
        exact congrArg (EStateM.Result.ok none) (hsync (es ++ more ++ [e]))
      -- the first token is taken by now, and nothing else was charged to it
      have hcharge : Charge w e i := hc e _ (hrun []) (List.getLast?_concat ..) hmild
      have hik : i < k := by omega
      have hmore := hmore.mono (Nat.le_refl (i + 1)) hjk
      refine .ok hrun (Nat.le_of_lt hik) ?_ trivial
      exact ((Charged.single hcharge).both hmore (Nat.le_refl _) (Nat.le_succ i) hik).2

/-! ### The knot -/

/-- Statements and declarations, nested so deep as the tokens that are left ask for. -/
theorem statement_declaration_pay (hc : ∀ t ∈ w.rest, t.kind ≠ .eof) (depth : Nat) :
    (∀ i, (i < w.rest.length → 2 * w.rest.length + 1 ≤ depth + 2 * i) →
      Pays w i (i + 1) (statement depth) fun _ _ => True) ∧
    ∀ i < w.rest.length, 2 * w.rest.length + 2 ≤ depth + 2 * i → Pays w i i (declaration depth) fun _ _ => True := by
  induction depth with
  | zero => exact ⟨fun i _ => .fail rfl, fun i hi hdepth => absurd hdepth (by omega)⟩
  | succ depth ih =>
    obtain ⟨hstatement, hdeclaration⟩ := ih
    constructor
    · intro i hdepth
      rw [statement_succ]
      refine statementWith_pays (fun k hk => hstatement k fun hlt => ?_) fun k hk hlt => hdeclaration k hlt ?_
      · have hdepth := hdepth (by omega)
        omega
      · have hdepth := hdepth (by omega)
        omega
    · intro i hi hdepth
      rw [declaration_succ]
      have hdecl : Pays w i (i + 1) (declarationWith depth (statement depth) (declaration depth)) fun _ _ => True :=
        declarationWith_pays (hstatement i fun _ => by omega) fun k hk hlt => hdeclaration k hlt (by omega)
      -- read at another depth, the declaration at `i` is the same, and so is the fault that it is given up with
      refine recovering_pays hdecl hi fun e c hrun he hmild => .declaration hi ?_ he hmild
      rw [← declaration_succ] at hrun
      have hlength : (w.before i []).rest.length = w.rest.length - i := List.length_drop
      rw [← hrun]
      refine declaration_depth (List.ne_nil_of_length_pos ?_) (fun t ht => hc t (List.mem_of_mem_drop ht)) ?_ ?_
      · omega
      · omega
      · rw [depthFor]
        omega

end statements

/-! ### Whole inputs -/

section inputs

variable {w : Cursor} {depth : Nat} {α β : Type}

/-- A parser that always comes to a result, whatever it reports on the way. -/
def Concludes (p : Parser α) : Prop := ∀ c, ∃ a c', p c = .ok a c'

namespace Concludes

theorem pure (a : α) : Concludes (Pure.pure a) := fun c => ⟨a, c, rfl⟩

theorem bind {p : Parser α} {f : α → Parser β} (h : Concludes p) (hf : ∀ a, Concludes (f a)) :
    Concludes (p >>= f) := by
  intro c
  obtain ⟨a, c', hp⟩ := h c
  obtain ⟨b, c'', hfa⟩ := hf a c'
  refine ⟨b, c'', ?_⟩
  change EStateM.bind p f c = _
  rw [EStateM.bind, hp]
  exact hfa

theorem loop {step : α → Parser (Option α)} (h : ∀ a, Concludes (step a)) (limit : Nat) (a : α) :
    Concludes (Parser.loop step limit a) := by
  induction limit generalizing a with
  | zero => exact .pure a
  | succ limit ih =>
      refine .bind (h a) fun o => ?_
      match o with
      | some b => exact ih b
      | none => exact .pure a

theorem atEnd : Concludes Parser.atEnd := fun c => ⟨c.rest.isEmpty, c, rfl⟩

theorem recovering (p : Parser α) : Concludes (Parser.recovering p) := by
  intro c
  unfold Parser.recovering
  cases p c with
  | ok a c' => exact ⟨some a, c', rfl⟩
  | error e c' => exact ⟨none, synchronize (c'.report e), rfl⟩

theorem declaration (depth : Nat) : Concludes (Parser.declaration depth) := by
  cases depth with
  | zero => exact .pure none
  | succ depth =>
      rw [declaration_succ]
      exact .recovering _

/-- Declarations are read up to the end, whatever is wrong with them. -/
theorem declarations (depth : Nat) : Concludes (Parser.declarations depth) := by
  refine .bind (.loop (fun body => .bind .atEnd fun b => ?_) depth []) fun body => .pure body.reverse
  match b with
  | true => exact .pure none
  | false => exact .bind (.declaration depth) fun o => .pure (some (o.toList ++ body))

end Concludes

theorem declarations_pay (hc : ∀ t ∈ w.rest, t.kind ≠ .eof) (hdepth : 2 * w.rest.length + 2 ≤ depth) :
    Pays w 0 0 (declarations depth) fun _ _ => True := by
  have hdeclaration := (statement_declaration_pay hc depth).2
  refine .bind (.loop (fun k body _ => ?_) depth []) fun body _ _ _ => .pure trivial
  refine Quiet.atEnd.bind fun b j _ hj => ?_
  obtain ⟨rfl, hmore⟩ := hj
  match b with
  | true => exact .pure trivial
  | false =>
      have hdecl := hdeclaration j (hmore rfl) (by omega)
      exact .bind (hdecl.mono (by omega)) fun o _ _ _ => .pure trivial

/-- A parser that comes to a result has charged all that it reports. -/
theorem Pays.concludes {i low : Nat} {p : Parser α} {Q : α → Nat → Prop} (h : Pays w i low p Q) (hp : Concludes p) :
    ∃ a j more, p (w.before i []) = .ok a (w.before j more) ∧ Charged w low j more := by
  cases h with
  | @ok a j more hrun _ hmore _ => exact ⟨a, j, more, hrun [], hmore⟩
  | fault hrun =>
      obtain ⟨a, c, hok⟩ := hp (w.before i [])
      rw [hrun] at hok
      cases hok

end inputs

end Parser

theorem runParser_error {α : Type} {p : Parser α} {tokens : List Token} {a : α} {c : Cursor} {errors : List ParseError}
    (hp : p (Cursor.ofTokens tokens) = .ok a c) (h : runParser p tokens = .error errors) : c.errors = errors := by
  rw [runParser, hp] at h
  dsimp only at h
  by_cases hempty : c.errors.isEmpty = true
  · rw [if_pos hempty] at h
    cases h
  · rw [if_neg hempty] at h
    exact Except.error.inj h

/-- Faults do not cascade beyond the input.  All faults of a list of tokens are charged to tokens before its end, each
to its own: the one at which a declaration is given up to the token that the declaration starts at, a bad target of an
assignment to the sign, a parameter or argument beyond the limit to the comma before it.  So there are no more faults
than tokens. -/
theorem parseProgram_charges {tokens : List Token} {errors : List ParseError}
    (h : parseProgram tokens = .error errors) :
    errors.length ≤ (textOf tokens).length ∧
      ∃ charges : List Nat, List.Forall₂ (Charge (Cursor.ofTokens tokens)) errors charges ∧ charges.Nodup ∧
        ∀ i ∈ charges, i < (textOf tokens).length := by
  have hlength := textOf_length tokens
  have hpay : Parser.Pays (Cursor.ofTokens tokens) 0 0 (Parser.declarations (Parser.depthFor tokens))
      fun _ _ => True := by
    refine Parser.declarations_pay (textOf_noEnd tokens) ?_
    rw [Parser.depthFor]
    exact Nat.add_le_add_right (Nat.mul_le_mul_left 2 hlength) 2
  obtain ⟨body, j, more, hrun, hcharged⟩ := hpay.concludes (.declarations _)
  obtain rfl : more = errors := runParser_error hrun h
  have hcharged := hcharged.inside
  refine ⟨hcharged.length_le, ?_⟩
  obtain ⟨charges, hall, hnodup, hbounds⟩ := hcharged
  exact ⟨charges, hall, hnodup, fun i hi => (hbounds i hi).2⟩

/-- A bad target in a statement without a semicolon, in a block that is not closed: three faults for four tokens. -/
theorem parseProgram_charges_unclosed :
    ∃ tokens errors, parseProgram tokens = .error errors ∧ (textOf tokens).length = 4 ∧ errors.length = 3 ∧
      ∃ charges : List Nat, List.Forall₂ (Charge (Cursor.ofTokens tokens)) errors charges ∧ charges.Nodup := by
  have h : parseProgram [⟨⟨"\x7b", 1⟩, .leftBrace⟩, ⟨⟨"nil", 1⟩, .keyword .nil⟩, ⟨⟨"=", 1⟩, .equal⟩,
      ⟨⟨"nil", 1⟩, .keyword .nil⟩] =
      .error [⟨.assignmentTarget, .at ⟨"=", 1⟩⟩, ⟨.expressionEnd, .atEnd 1⟩, ⟨.blockEnd, .atEnd 1⟩] := rfl
  obtain ⟨-, charges, hall, hnodup, -⟩ := parseProgram_charges h
  exact ⟨_, _, h, by decide, rfl, charges, hall, hnodup⟩

end Lox
