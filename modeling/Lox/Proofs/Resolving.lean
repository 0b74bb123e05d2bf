import Mathlib.Data.List.Forall2
import Lox.Proofs.Shapes

/-! # What resolution finds

A walk that finds no fault records, for every use of a name, the distance that can be read off its place
(`Stmt.resolve_spec`).  The scopes of the walk follow the surroundings of the place it has come to
(`Follows`). -/

namespace Lox

/-! ### Walks -/

namespace Resolve

/-- `Spec Pre r Post`: begun in scopes that satisfy `Pre`, the walk `r` either finds a fault, or the
scopes it ends in and the distances it adds satisfy `Post`. -/
def Spec (Pre : List Scope → Prop) (r : Resolve Unit) (Post : List Scope → Distances → Prop) : Prop :=
  ∀ σ, ∃ σ' new faults,
    (∀ ds fs, r ⟨σ, ds, fs⟩ = ((), ⟨σ', new ++ ds, faults ++ fs⟩)) ∧
      (Pre σ → faults = [] → Post σ' new)

variable {Pre : List Scope → Prop} {Post : List Scope → Distances → Prop} {r r' : Resolve Unit}

theorem Spec.bind {M : List Scope → Distances → Prop} (h : Spec Pre r M)
    (h' : ∀ new, Spec (M · new) r' (fun σ new' => Post σ (new' ++ new))) :
    Spec Pre (r >>= fun _ => r') Post := by
  intro σ
  obtain ⟨σ₁, n₁, f₁, e₁, p₁⟩ := h σ
  obtain ⟨σ₂, n₂, f₂, e₂, p₂⟩ := h' n₁ σ₁
  refine ⟨σ₂, n₂ ++ n₁, f₂ ++ f₁, fun ds fs => ?_, fun hp hf => ?_⟩
  · change (match r ⟨σ, ds, fs⟩ with | (_, w) => r' w) = _
    rw [e₁]
    dsimp only
    rw [e₂, List.append_assoc, List.append_assoc]
  · obtain ⟨hf₂, hf₁⟩ := List.append_eq_nil_iff.mp hf
    exact p₂ (p₁ hp hf₁) hf₂

theorem Spec.imp {Pre' : List Scope → Prop} {Post' : List Scope → Distances → Prop}
    (h : Spec Pre r Post) (hpre : ∀ σ, Pre' σ → Pre σ) (hpost : ∀ σ new, Post σ new → Post' σ new) :
    Spec Pre' r Post' := by
  intro σ
  obtain ⟨σ', new, faults, e, p⟩ := h σ
  exact ⟨σ', new, faults, e, fun hp hf => hpost _ _ (p (hpre _ hp) hf)⟩

theorem Spec.pure (h : ∀ σ, Pre σ → Post σ []) : Spec Pre (pure ()) Post :=
  fun σ => ⟨σ, [], [], fun _ _ => rfl, fun hp _ => h σ hp⟩

/-- After a fault nothing is promised. -/
theorem Spec.fault (f : ScopeFault) (t : Lexeme) : Spec Pre (fault f t) Post :=
  fun σ => ⟨σ, [], [⟨f, t⟩], fun _ _ => rfl, fun _ h => nomatch h⟩

theorem Spec.faulted {Pre' : List Scope → Prop} {Post' : List Scope → Distances → Prop}
    (h : Spec Pre' r Post') (f : ScopeFault) (t : Lexeme) :
    Spec Pre (Resolve.fault f t >>= fun _ => r) Post := by
  intro σ
  obtain ⟨σ', new, faults, e, -⟩ := h σ
  refine ⟨σ', new, faults ++ [⟨f, t⟩], fun ds fs => ?_, fun _ hf => ?_⟩
  · rw [List.append_assoc]
    exact e ds _
  · simp at hf

theorem Spec.modifyInnermost {f : Scope → Scope}
    (h : ∀ σ, Pre σ → Post (σ.modifyHead f) []) :
    Spec Pre (modifyInnermost f) Post := by
  intro σ
  refine ⟨_, [], [], fun ds fs => ?_, fun hp _ => h σ hp⟩
  cases σ <;> rfl

/-- A name that the innermost scope has already is a fault. -/
theorem Spec.declare {t : Lexeme} (hnil : Pre [] → Post [] [])
    (hcons : ∀ s outer, Pre (s :: outer) → s.declares t.text = false →
      Post (((t.text, false) :: s) :: outer) []) : Spec Pre (declare t) Post := by
  intro σ
  cases σ with
  | nil => exact ⟨[], [], [], fun _ _ => rfl, fun hp _ => hnil hp⟩
  | cons s outer =>
      cases hd : s.declares t.text with
      | true =>
          refine ⟨s :: outer, [], [⟨.redeclared, t⟩], fun ds fs => ?_, fun _ h => nomatch h⟩
          change (if s.declares t.text then Resolve.fault .redeclared t
            else Resolve.modifyInnermost ((t.text, false) :: ·)) ⟨s :: outer, ds, fs⟩ = _
          rw [hd]
          rfl
      | false =>
          refine ⟨((t.text, false) :: s) :: outer, [], [], fun ds fs => ?_,
            fun hp _ => hcons s outer hp hd⟩
          change (if s.declares t.text then Resolve.fault .redeclared t
            else Resolve.modifyInnermost ((t.text, false) :: ·)) ⟨s :: outer, ds, fs⟩ = _
          rw [hd]
          rfl

/-- A lookup records how far out the scopes declare the name, if they do. -/
theorem locate_mk (ref : Reference NodeId) (σ : List Scope) (ds : Distances) (fs : List ScopeError) :
    locate ref ⟨σ, ds, fs⟩ =
      ((), ⟨σ, ((σ.findIdx? (·.declares ref.name.text)).map fun d => (ref.id, d)).toList ++ ds, fs⟩) := by
  have hrun (f : Walk → Walk) (w : Walk) : (modify f : Resolve Unit) w = ((), f w) := rfl
  rw [locate, hrun]
  dsimp only
  cases σ.findIdx? (·.declares ref.name.text) <;> rfl

theorem Spec.locate {ref : Reference NodeId}
    (h : ∀ σ, Pre σ → Post σ
      ((σ.findIdx? (·.declares ref.name.text)).map fun d => (ref.id, d)).toList) :
    Spec Pre (locate ref) Post :=
  fun σ => ⟨σ, _, [], fun ds fs => locate_mk ref σ ds fs, fun hp _ => h σ hp⟩

/-- A name of the innermost scope that may not be read yet is a fault. -/
theorem Spec.read {ref : Reference NodeId}
    (h : ∀ σ, Pre σ → (∀ s outer, σ = s :: outer → s.isPending ref.name.text = false) →
      Post σ ((σ.findIdx? (·.declares ref.name.text)).map fun d => (ref.id, d)).toList) :
    Spec Pre (read ref) Post := by
  have hl : Spec (fun σ => Pre σ ∧ ∀ s outer, σ = s :: outer → s.isPending ref.name.text = false)
      (Resolve.locate ref) Post := .locate fun σ hp => h σ hp.1 hp.2
  intro σ
  cases σ with
  | nil =>
      obtain ⟨σ', new, faults, e, p⟩ := hl []
      exact ⟨σ', new, faults, fun ds fs => e ds fs, fun hp hf => p ⟨hp, nofun⟩ hf⟩
  | cons s outer =>
      have hrun : ∀ ds fs, Resolve.read ref ⟨s :: outer, ds, fs⟩ = (if s.isPending ref.name.text then
          Resolve.fault .readInOwnInitializer ref.name >>= fun _ => Resolve.locate ref
          else Resolve.locate ref) ⟨s :: outer, ds, fs⟩ := fun _ _ => rfl
      cases hd : s.isPending ref.name.text with
      | true =>
          rw [hd] at hrun
          obtain ⟨σ', new, faults, e, p⟩ := @Spec.faulted Pre Post _ _ _ hl
            .readInOwnInitializer ref.name (s :: outer)
          exact ⟨σ', new, faults, fun ds fs => (hrun ds fs).trans (e ds fs), p⟩
      | false =>
          rw [hd] at hrun
          obtain ⟨σ', new, faults, e, p⟩ := hl (s :: outer)
          refine ⟨σ', new, faults, fun ds fs => (hrun ds fs).trans (e ds fs),
            fun hp hf => p ⟨hp, ?_⟩ hf⟩
          rintro _ _ ⟨⟩
          exact hd

/-- The scopes inside are dropped at the end. -/
theorem Spec.inScope (h : ∀ σ, Spec (fun σ' => σ' = [] :: σ ∧ Pre σ) r fun σ' new => Post σ'.tail new) :
    Spec Pre (inScope r) Post := by
  intro σ
  obtain ⟨σ', new, faults, e, p⟩ := h σ ([] :: σ)
  refine ⟨σ'.tail, new, faults, fun ds fs => ?_, fun hp hf => p ⟨rfl, hp⟩ hf⟩
  change (match r ⟨[] :: σ, ds, fs⟩ with
    | (_, w) => ((), ({ w with scopes := w.scopes.tail } : Walk))) = _
  rw [e]

end Resolve

/-! ### Scopes of a walk and surroundings of a place -/

namespace Scope

theorem declares_eq (s : Scope) (n : String) : s.declares n = (s.lookup n).isSome := by
  induction s with
  | nil => rfl
  | cons p s ih =>
      unfold declares at ih ⊢
      rw [List.any_cons, List.lookup_cons, ih]
      by_cases hn : n = p.1
      · simp [hn]
      · simp [beq_false_of_ne hn, beq_false_of_ne (Ne.symm hn)]

theorem lookup_define (s : Scope) (name n : String) :
    (s.define name).lookup n = if n = name then some true else s.lookup n := by
  unfold define
  cases hd : s.declares name with
  | false =>
      rw [if_neg Bool.false_ne_true, List.lookup_cons]
      by_cases hn : n = name
      · simp [hn]
      · simp [hn, beq_false_of_ne hn]
  | true =>
      rw [if_pos rfl]
      induction s with
      | nil => exact nomatch hd
      | cons p s ih =>
          rw [List.map_cons, List.lookup_cons, List.lookup_cons]
          by_cases hp : n = p.1
          · subst hp
            by_cases hn : p.1 = name <;> simp [hn]
          · simp only [beq_false_of_ne hp]
            by_cases hn : n = name
            · subst hn
              have hd' : Scope.declares s n = true := by
                simpa [declares, Ne.symm hp] using hd
              exact ih hd'
            · rw [if_neg hn]
              clear ih hd
              induction s with
              | nil => rfl
              | cons q s ih =>
                  rw [List.map_cons, List.lookup_cons, List.lookup_cons]
                  by_cases hq : n = q.1
                  · subst hq
                    simp [beq_false_of_ne hn]
                  · simpa only [beq_false_of_ne hq] using ih

/-- A scope that has the names of an enclosure, all ready to be read. -/
def Fits (s : Scope) (e : Enclosure) : Prop :=
  ∀ n, s.lookup n = if e.binds n then some true else none

theorem Fits.declares {s : Scope} {e : Enclosure} (h : s.Fits e) (n : String) :
    s.declares n = e.binds n := by
  rw [declares_eq, h n]
  cases e.binds n <;> rfl

theorem Fits.isPending {s : Scope} {e : Enclosure} (h : s.Fits e) (n : String) :
    s.isPending n = false := by
  unfold Scope.isPending
  rw [h n]
  cases e.binds n <;> rfl

/-- A name that is declared and then made ready. -/
theorem Fits.declare {s : Scope} {all before : List Lexeme} (h : s.Fits (.names all before))
    (t : Lexeme) : Fits (Scope.define ((t.text, false) :: s) t.text) (.names all (t :: before)) := by
  intro n
  rw [lookup_define, List.lookup_cons]
  by_cases hn : n = t.text
  · simp [hn, Enclosure.binds]
  · simp [hn, Enclosure.binds, beq_false_of_ne hn, beq_false_of_ne (Ne.symm hn), h n]

theorem fits_names (all : List Lexeme) : Fits [] (.names all []) := fun _ => rfl

theorem fits_this : Fits (Scope.define [] "this") .this := by
  intro n
  rw [lookup_define]
  by_cases hn : n = "this" <;> simp [hn, Enclosure.binds]

theorem fits_super : Fits (Scope.define [] "super") .super := by
  intro n
  rw [lookup_define]
  by_cases hn : n = "super" <;> simp [hn, Enclosure.binds]

end Scope

/-- The scopes of a walk that has come to a place with given surroundings. -/
abbrev Follows (σ : List Scope) (around : Surroundings) : Prop := List.Forall₂ Scope.Fits σ around

/-- What an expression at a place, in the initializer of `own`, sees of the scopes of a walk. -/
structure Sees (σ : List Scope) (around : Surroundings) (own : Option Lexeme) : Prop where
  distance : ∀ n, σ.findIdx? (·.declares n) =
    if own.any (·.text == n) then some 0 else around.distance? n
  pending : ∀ s outer, σ = s :: outer → ∀ n, s.isPending n = own.any (·.text == n)

theorem Follows.distance {σ : List Scope} {around : Surroundings} (h : Follows σ around) (n : String) :
    σ.findIdx? (·.declares n) = around.distance? n := by
  unfold Surroundings.distance?
  induction h with
  | nil => rfl
  | cons h _ ih => rw [List.findIdx?_cons, List.findIdx?_cons, h.declares, ih]

theorem Follows.sees {σ : List Scope} {around : Surroundings} (h : Follows σ around) :
    Sees σ around none where
  distance n := h.distance n
  pending := by
    rintro s outer rfl n
    cases h with
    | cons h _ => exact h.isPending n

theorem Follows.sees_own {s : Scope} {σ : List Scope} {e : Enclosure} {around : Surroundings}
    (h : Follows (s :: σ) (e :: around)) (t : Lexeme) :
    Sees (((t.text, false) :: s) :: σ) (e :: around) (some t) where
  distance n := by
    have hd := h.distance n
    rw [List.findIdx?_cons] at hd ⊢
    by_cases hn : t.text = n
    · simp [Scope.declares, hn]
    · simpa [Scope.declares, hn] using hd
  pending := by
    rintro _ outer ⟨⟩ n
    cases h with
    | cons h _ =>
        have hp := h.isPending n
        unfold Scope.isPending at hp ⊢
        rw [List.lookup_cons]
        by_cases hn : n = t.text
        · simp [hn]
        · simpa [beq_false_of_ne hn, beq_false_of_ne (Ne.symm hn)] using hp

/-! ### Expressions -/

/-- What resolution records for uses of names, the latest first. -/
def distancesOf (us : List Use) : Distances := (us.filterMap Use.entry?).reverse

theorem distancesOf_append (us us' : List Use) :
    distancesOf (us ++ us') = distancesOf us' ++ distancesOf us := by
  simp [distancesOf]

theorem usesAt_append (around : Surroundings) (own : Option Lexeme)
    (rs rs' : List (UseKind × Reference NodeId)) :
    usesAt around own (rs ++ rs') = usesAt around own rs ++ usesAt around own rs' := List.map_append

/-- What a walk without a fault has found out about uses of names. -/
structure Found (us : List Use) (new : Distances) : Prop where
  distances : new = distancesOf us
  allowed : ∀ u ∈ us, u.Allowed

theorem Found.nil : Found [] [] := ⟨rfl, nofun⟩

theorem Found.append {us us' : List Use} {new new' : Distances} (h : Found us new)
    (h' : Found us' new') : Found (us ++ us') (new' ++ new) where
  distances := by rw [h.distances, h'.distances, distancesOf_append]
  allowed u hu := (List.mem_append.mp hu).elim (h.allowed u) (h'.allowed u)

theorem Found.single (u : Use) (h : u.Allowed) : Found [u] u.entry?.toList where
  distances := by
    unfold distancesOf
    rw [List.filterMap_cons]
    cases u.entry? <;> rfl
  allowed v hv := by
    rw [List.mem_singleton.mp hv]
    exact h

open Resolve

section expressions

variable {ctx : Context} {σ : List Scope} {around : Surroundings} {own : Option Lexeme}

/-- The distance that a walk records for a use is the one that can be read off its place. -/
theorem Sees.found (hs : Sees σ around own) (kind : UseKind) (ref : Reference NodeId)
    (h : Use.Allowed ⟨kind, ref, around, own⟩) :
    Found [⟨kind, ref, around, own⟩]
      ((σ.findIdx? (·.declares ref.name.text)).map fun d => (ref.id, d)).toList := by
  rw [hs.distance]
  exact .single ⟨kind, ref, around, own⟩ h

/-- Scopes in which an expression at a place is walked. -/
structure Before (σ : List Scope) (around : Surroundings) (own : Option Lexeme) (σ' : List Scope) :
    Prop where
  same : σ' = σ
  sees : Sees σ' around own

/-- After an expression the scopes are as before, and its uses are found. -/
structure After (σ : List Scope) (around : Surroundings) (own : Option Lexeme) (us : List Use)
    (σ' : List Scope) (new : Distances) : Prop extends Before σ around own σ' where
  found : Found us new

theorem locate_spec (kind : UseKind) (ref : Reference NodeId)
    (h : Use.Allowed ⟨kind, ref, around, own⟩) :
    Spec (Before σ around own) (locate ref) (After σ around own [⟨kind, ref, around, own⟩]) :=
  .locate fun _ hb => ⟨hb, hb.sees.found kind ref h⟩

theorem read_spec (ref : Reference NodeId) :
    Spec (Before σ around own) (Resolve.read ref) (After σ around own [⟨.read, ref, around, own⟩]) := by
  refine .read fun σ' hb hp => ⟨hb, hb.sees.found .read ref ?_⟩
  change own.any (·.text == ref.name.text) = false
  cases σ' with
  | nil =>
      have hd := hb.sees.distance ref.name.text
      cases ho : own.any (·.text == ref.name.text) with
      | false => rfl
      | true =>
          rw [ho] at hd
          exact nomatch hd
  | cons s outer => exact (hb.sees.pending s outer rfl _).symm.trans (hp s outer rfl)

/-- One walk after another, in the same scopes. -/
theorem Resolve.Spec.append {r r' : Resolve Unit} {us us' : List Use}
    (h : Spec (Before σ around own) r (After σ around own us))
    (h' : Spec (Before σ around own) r' (After σ around own us')) :
    Spec (Before σ around own) (r >>= fun _ => r') (After σ around own (us ++ us')) := by
  refine .bind h fun new σ₁ => ?_
  obtain ⟨σ₂, n₂, f₂, e₂, p₂⟩ := h' σ₁
  refine ⟨σ₂, n₂, f₂, e₂, fun h₁ hf => ?_⟩
  have h₂ := p₂ h₁.toBefore hf
  exact ⟨h₂.toBefore, h₁.found.append h₂.found⟩

mutual

/-- An expression at a place: its uses get the distances that can be read off the place. -/
theorem Expr.resolve_spec (hc : ctx.inClass = around.inClass) :
    ∀ e : Expr NodeId, Spec (Before σ around own) (e.resolve ctx)
      (After σ around own (usesAt around own e.references))
  | .literal _ _ => .pure fun _ hb => ⟨hb, .nil⟩
  | .group _ inner => Expr.resolve_spec hc inner
  | .unary _ _ _ operand => Expr.resolve_spec hc operand
  | .binary _ _ _ left right => by
      rw [Expr.resolve, Expr.references, usesAt_append]
      exact .append (Expr.resolve_spec hc left) (Expr.resolve_spec hc right)
  | .logical _ _ _ left right => by
      rw [Expr.resolve, Expr.references, usesAt_append]
      exact .append (Expr.resolve_spec hc left) (Expr.resolve_spec hc right)
  | .name ref => read_spec ref
  | .assign target value => by
      rw [Expr.resolve, Expr.references, usesAt_append]
      exact .append (Expr.resolve_spec hc value) (locate_spec .write target trivial)
  | .call _ callee _ arguments => by
      rw [Expr.resolve, Expr.references, usesAt_append]
      exact .append (Expr.resolve_spec hc callee) (Expr.resolveEach_spec hc arguments)
  | .get _ object _ => Expr.resolve_spec hc object
  | .set _ object _ value => by
      rw [Expr.resolve, Expr.references, usesAt_append]
      exact .append (Expr.resolve_spec hc value) (Expr.resolve_spec hc object)
  | .this ref => by
      rw [Expr.resolve]
      cases hk : ctx.inClass with
      | outside => exact .fault _ _
      | base =>
          exact locate_spec .this ref fun h => nomatch hk.symm.trans (hc.trans h)
      | derived =>
          exact locate_spec .this ref fun h => nomatch hk.symm.trans (hc.trans h)
  | .super ref method => by
      rw [Expr.resolve]
      cases hk : ctx.inClass with
      | outside => exact .fault _ _
      | base => exact .fault _ _
      | derived => exact locate_spec .super ref (hc.symm.trans hk)

theorem Expr.resolveEach_spec (hc : ctx.inClass = around.inClass) :
    ∀ es : List (Expr NodeId), Spec (Before σ around own) (Expr.resolveEach ctx es)
      (After σ around own (usesAt around own (Expr.referencesEach es)))
  | [] => .pure fun _ hb => ⟨hb, .nil⟩
  | e :: es => by
      rw [Expr.resolveEach, Expr.referencesEach, usesAt_append]
      exact .append (Expr.resolve_spec hc e) (Expr.resolveEach_spec hc es)

end

end expressions

/-! ### Statements -/

/-- What the rules on names and classes see to: the names of each scope that is opened are distinct, and no
class inherits from itself. -/
structure Neat (scopes : List (List Lexeme)) (heirs : List (Lexeme × Lexeme)) : Prop where
  distinct : ∀ names ∈ scopes, Distinct names
  acyclic : Acyclic heirs

/-- What the rules see to in statements: besides, returns stand in functions, and the names declared in the
scope around are new there. -/
structure Tidy (inFunction : Bool) (free : Prop) (scopes : List (List Lexeme))
    (heirs : List (Lexeme × Lexeme)) (around : Surroundings) (declared : List Lexeme) : Prop extends
    Neat scopes heirs where
  returns : inFunction = false → free
  fresh : around.Fresh declared

/-- What a walk without a fault has found out that has gone through expressions and come to a place. -/
structure Walked (around : Surroundings) (xs : List Placed) (tidy : Prop) (σ : List Scope)
    (new : Distances) : Prop where
  follows : Follows σ around
  found : Found (xs.flatMap Placed.uses) new
  tidy : tidy

section statements

variable {around around₁ around₂ : Surroundings} {xs xs' : List Placed} {P P' : Prop}

theorem Walked.nil (σ : List Scope) (h : Follows σ around) (hp : P) : Walked around [] P σ [] :=
  ⟨h, .nil, hp⟩

theorem Resolve.Spec.walk {r r' : Resolve Unit} (h : Spec (Follows · around) r (Walked around₁ xs P))
    (h' : Spec (Follows · around₁) r' (Walked around₂ xs' P')) :
    Spec (Follows · around) (r >>= fun _ => r') (Walked around₂ (xs ++ xs') (P ∧ P')) := by
  refine .bind h fun new σ₁ => ?_
  obtain ⟨σ₂, n₂, f₂, e₂, p₂⟩ := h' σ₁
  refine ⟨σ₂, n₂, f₂, e₂, fun h₁ hf => ?_⟩
  have h₂ := p₂ h₁.follows hf
  refine ⟨h₂.follows, ?_, h₁.tidy, h₂.tidy⟩
  rw [List.flatMap_append]
  exact h₁.found.append h₂.found

theorem Resolve.Spec.tidy {r : Resolve Unit} (h : Spec (Follows · around) r (Walked around₁ xs P))
    (hp : P → P') : Spec (Follows · around) r (Walked around₁ xs P') :=
  h.imp (fun _ hσ => hσ) fun _ _ hw => ⟨hw.follows, hw.found, hp hw.tidy⟩

/-- An expression that is no initializer. -/
theorem Expr.walk {ctx : Context} (hc : ctx.inClass = around.inClass) (e : Expr NodeId) :
    Spec (Follows · around) (e.resolve ctx) (Walked around [⟨around, none, e⟩] True) := by
  intro σ
  obtain ⟨σ', new, faults, he, hp⟩ :=
    @Expr.resolve_spec ctx σ around none hc e σ
  refine ⟨σ', new, faults, he, fun hσ hf => ?_⟩
  have h := hp ⟨rfl, hσ.sees⟩ hf
  refine ⟨h.same ▸ hσ, ?_, trivial⟩
  rw [List.flatMap_singleton]
  exact h.found

/-- An expression that may be absent and is no initializer. -/
theorem Expr.walk? {ctx : Context} (hc : ctx.inClass = around.inClass) (e : Option (Expr NodeId)) :
    Spec (Follows · around) (Expr.resolve? ctx e)
      (Walked around (e.toList.map fun e => ⟨around, none, e⟩) True) := by
  cases e with
  | none => exact .pure fun σ hσ => .nil σ hσ trivial
  | some e => exact Expr.walk hc e

/-- Scopes of a walk that has declared a name and not yet made it ready. -/
inductive Pending (t : Lexeme) : Surroundings → List Scope → Prop
  | top : Pending t [] []
  | inner {all before : List Lexeme} {outer : Surroundings} {s : Scope} {σ : List Scope}
      (hs : s.Fits (.names all before)) (h : Follows σ outer) (hn : s.declares t.text = false) :
      Pending t (.names all before :: outer) (((t.text, false) :: s) :: σ)

theorem declare_spec (ho : around.Open) (t : Lexeme) :
    Spec (Follows · around) (declare t) (fun σ new => new = [] ∧ Pending t around σ) := by
  match around, ho with
  | [], _ => exact .declare (fun _ => ⟨rfl, .top⟩) fun s outer h => nomatch h
  | .names all before :: outer, _ =>
      refine .declare (fun h => nomatch h) fun s σ h hn => ⟨rfl, ?_⟩
      cases h with
      | cons hs h => exact .inner hs h hn

theorem Pending.sees {t : Lexeme} {σ : List Scope} (h : Pending t around σ) :
    Sees σ around (around.initializing t) := by
  cases h with
  | top => exact Follows.sees .nil
  | inner hs h hn => exact Follows.sees_own (.cons hs h) t

theorem Pending.define {t : Lexeme} {σ : List Scope} (h : Pending t around σ) :
    Follows (σ.modifyHead (·.define t.text)) (around.declare t) := by
  cases h with
  | top => exact .nil
  | inner hs h hn => exact .cons (hs.declare t) h

theorem Pending.fresh {t : Lexeme} {σ : List Scope} (h : Pending t around σ) : around.Fresh [t] := by
  cases h with
  | top => trivial
  | @inner all before outer s σ hs h hn =>
      refine ⟨by simp [Distinct], fun t' ht b hb he => ?_⟩
      rw [List.mem_singleton.mp ht] at he
      rw [hs.declares] at hn
      have hany : before.any (·.text == t.text) = true := List.any_eq_true.mpr ⟨b, hb, by simp [he]⟩
      exact nomatch hn.symm.trans hany

/-- A name that may be read at once. -/
theorem introduce_walk (ho : around.Open) (t : Lexeme) :
    Spec (Follows · around) (introduce t) (Walked (around.declare t) [] (around.Fresh [t])) := by
  refine .bind (declare_spec ho t) fun new => .modifyInnermost fun σ h => ?_
  obtain ⟨rfl, h⟩ := h
  exact .nil _ h.define h.fresh

/-- A variable declaration: the name may be read after the initializer. -/
theorem var_walk {ctx : Context} (hc : ctx.inClass = around.inClass) (ho : around.Open) (t : Lexeme)
    (e : Option (Expr NodeId)) :
    Spec (Follows · around) ((Stmt.var t e).resolve ctx)
      (Walked (around.declare t) ((Stmt.var t e).expressions around) (around.Fresh [t])) := by
  have hinit (new : Distances) : Spec (fun σ => new = [] ∧ Pending t around σ) (Expr.resolve? ctx e)
      (fun σ new' => Pending t around σ ∧
        Found (((Stmt.var t e).expressions around).flatMap Placed.uses) (new' ++ new)) := by
    cases e with
    | none => exact .pure fun σ h => ⟨h.2, by rw [h.1]; exact .nil⟩
    | some e =>
        intro σ
        obtain ⟨σ', new', faults, he, hp⟩ :=
          @Expr.resolve_spec ctx σ around (around.initializing t) hc e σ
        refine ⟨σ', new', faults, he, fun ⟨hn, h⟩ hf => ?_⟩
        have hq := hp ⟨rfl, h.sees⟩ hf
        refine ⟨hq.same ▸ h, ?_⟩
        rw [Stmt.expressions, Option.toList_some, List.map_singleton, List.flatMap_singleton, hn,
          List.append_nil]
        exact hq.found
  rw [Stmt.resolve]
  refine .bind (declare_spec ho t) fun new => .bind (hinit new) fun new' => ?_
  exact .modifyInnermost fun σ h => ⟨h.1.define, h.2, h.1.fresh⟩

theorem Follows.tail {σ : List Scope} (h : Follows σ around₁) (ht : around₁.tail = around) :
    Follows σ.tail around := by
  rw [← ht]
  cases h with
  | nil => exact .nil
  | cons _ h => exact h

/-- A walk in a scope of its own. -/
theorem Resolve.Spec.inside {e : Enclosure} {r : Resolve Unit} (he : Scope.Fits [] e)
    (h : Spec (Follows · (e :: around)) r (Walked around₁ xs P)) (ht : around₁.tail = around) :
    Spec (Follows · around) (Resolve.inScope r) (Walked around xs P) := by
  refine .inScope fun σ => h.imp ?_ ?_
  · rintro _ ⟨rfl, hσ⟩
    exact .cons he hσ
  · rintro σ' new ⟨hσ, hx, hp⟩
    exact ⟨hσ.tail ht, hx, hp⟩

/-- A walk in a scope of its own that has a name from the start. -/
theorem Resolve.Spec.insideWith {e : Enclosure} {n : String} {r : Resolve Unit}
    (he : Scope.Fits (Scope.define [] n) e) (h : Spec (Follows · (e :: around)) r (Walked around₁ xs P))
    (ht : around₁.tail = around) :
    Spec (Follows · around) (Resolve.inScope (Resolve.define n >>= fun _ => r)) (Walked around xs P) := by
  refine .inScope fun σ => .bind (M := fun σ' new => new = [] ∧ Follows σ' (e :: around)) ?_ fun new => ?_
  · refine .modifyInnermost ?_
    rintro _ ⟨rfl, hσ⟩
    exact ⟨rfl, .cons he hσ⟩
  · intro σ₁
    obtain ⟨σ₂, n₂, f₂, e₂, p₂⟩ := h σ₁
    refine ⟨σ₂, n₂, f₂, e₂, ?_⟩
    rintro ⟨rfl, hσ⟩ hf
    obtain ⟨hσ', hx, hp⟩ := p₂ hσ hf
    rw [List.append_nil]
    exact ⟨hσ'.tail ht, hx, hp⟩

/-- The parameters of a function. -/
theorem params_walk (all : List Lexeme) (outer : Surroundings) :
    ∀ params before : List Lexeme,
      Spec (Follows · (.names all before :: outer)) (params.forM introduce)
        (Walked (.names all (params.reverse ++ before) :: outer) []
          (Surroundings.Fresh (.names all before :: outer) params))
  | [], _ => .pure fun σ h => .nil σ h (.nil _)
  | t :: params, before => by
      have h := (@introduce_walk (.names all before :: outer) trivial t).walk
        (params_walk all outer params (t :: before))
      rw [List.reverse_cons, List.append_assoc]
      exact h.tidy fun ⟨h₁, h₂⟩ => Surroundings.Fresh.append (t := some t) h₁ h₂

theorem Surroundings.distance?_declare (around : Surroundings) {t : Lexeme} {n : String}
    (hn : n ≠ t.text) : (around.declare t).distance? n = around.distance? n := by
  match around with
  | [] => rfl
  | .names all before :: outer =>
      simp [declare, distance?, List.findIdx?_cons, Enclosure.binds, Ne.symm hn]
  | .this :: _ => rfl
  | .super :: _ => rfl

/-- The superclass of a class: the name of the class, which is declared already, is another one. -/
theorem inherit_walk (name : Lexeme) (superclass : Reference NodeId) :
    Spec (Follows · (around.declare name)) (inherit name superclass)
      (Walked (around.declare name) [⟨around, none, .name superclass⟩]
        (superclass.name.text ≠ name.text)) := by
  have hread : Spec (fun σ => Follows σ (around.declare name) ∧ superclass.name.text ≠ name.text)
      (Resolve.read superclass)
      (Walked (around.declare name) [⟨around, none, .name superclass⟩]
        (superclass.name.text ≠ name.text)) := by
    refine .read fun σ ⟨hσ, hn⟩ _ => ⟨hσ, ?_, hn⟩
    rw [hσ.distance, around.distance?_declare hn]
    exact .single ⟨.read, superclass, around, none⟩ rfl
  have hrun : inherit name superclass = if superclass.name.text = name.text then
      Resolve.fault .inheritsFromItself superclass.name >>= fun _ => Resolve.read superclass
      else Resolve.read superclass := by
    unfold inherit
    split <;> rfl
  rw [hrun]
  by_cases hn : superclass.name.text = name.text
  · rw [if_pos hn]
    exact .faulted hread _ _
  · rw [if_neg hn]
    exact hread.imp (fun _ hσ => ⟨hσ, hn⟩) fun _ _ hw => hw

/-- A `return`, which must stand in a function. -/
theorem ret_walk {ctx : Context} (hc : ctx.inClass = around.inClass) (keyword : Lexeme)
    (value : Option (Expr NodeId)) :
    Spec (Follows · around) ((Stmt.ret keyword value).resolve ctx)
      (Walked around (value.toList.map fun e => ⟨around, none, e⟩) (ctx.inFunction = true)) := by
  rw [Stmt.resolve]
  cases hi : ctx.inFunction with
  | true => exact (Expr.walk? hc value).tidy fun _ => rfl
  | false => exact .faulted (Expr.walk? hc value) _ _

theorem Stmt.tail_afterAll (around : Surroundings) (body : List (Stmt NodeId)) :
    (Stmt.afterAll around body).tail = around.tail := by
  induction body generalizing around with
  | nil => rfl
  | cons s body ih => exact (ih _).trans (around.tail_declare? s.declared?)

theorem Surroundings.Fresh.distinct {all params ts : List Lexeme} {outer : Surroundings}
    (hp : Surroundings.Fresh (.names all [] :: outer) params)
    (ht : Surroundings.Fresh (.names all params :: outer) ts) : Distinct (params ++ ts) := by
  unfold Distinct
  rw [List.map_append, List.nodup_append]
  refine ⟨hp.1, ht.1, ?_⟩
  rintro _ hp' _ ht' rfl
  obtain ⟨p, hp', he⟩ := List.mem_map.mp hp'
  obtain ⟨t, ht', he'⟩ := List.mem_map.mp ht'
  exact ht.2 t ht' p hp' (he.trans he'.symm)

end statements

section trees

section tidy

variable {scopes scopes' : List (List Lexeme)} {heirs heirs' : List (Lexeme × Lexeme)}

theorem Neat.nil : Neat [] [] := ⟨nofun, nofun⟩

theorem Neat.append (h : Neat scopes heirs) (h' : Neat scopes' heirs') :
    Neat (scopes ++ scopes') (heirs ++ heirs') where
  distinct names hn := (List.mem_append.mp hn).elim (h.distinct names) (h'.distinct names)
  acyclic := h.acyclic.append h'.acyclic

theorem Neat.scope {names : List Lexeme} (hn : Distinct names) (h : Neat scopes heirs) :
    Neat (names :: scopes) heirs where
  distinct names' hn' := by
    rcases List.mem_cons.mp hn' with rfl | hn'
    · exact hn
    · exact h.distinct names' hn'
  acyclic := h.acyclic

theorem Neat.heir {p : Lexeme × Lexeme} (hp : p.2.text ≠ p.1.text) (h : Neat scopes heirs) :
    Neat scopes (p :: heirs) where
  distinct := h.distinct
  acyclic q hq := by
    rcases List.mem_cons.mp hq with rfl | hq
    · exact hp
    · exact h.acyclic q hq

theorem Tidy.none {b : Bool} {around : Surroundings} : Tidy b True [] [] around [] :=
  ⟨.nil, fun _ => trivial, .nil _⟩

theorem Tidy.append {b : Bool} {free free' : Prop} {around : Surroundings} {t : Option Lexeme}
    {ts : List Lexeme} (h : Tidy b free scopes heirs around t.toList)
    (h' : Tidy b free' scopes' heirs' (around.declare? t) ts) :
    Tidy b (free ∧ free') (scopes ++ scopes') (heirs ++ heirs') around (t.toList ++ ts) where
  toNeat := h.toNeat.append h'.toNeat
  returns hb := ⟨h.returns hb, h'.returns hb⟩
  fresh := h.fresh.append h'.fresh

end tidy

/-- The order of the parameters does not matter to the body. -/
theorem params_follow {σ : List Scope} {all params : List Lexeme} {outer : Surroundings}
    (h : Follows σ (.names all (params.reverse ++ []) :: outer)) :
    Follows σ (.names all params :: outer) := by
  cases h with
  | cons hs h =>
      refine .cons (fun n => ?_) h
      simpa [Enclosure.binds] using hs n

/-- A walk through a branch or a loop body. -/
theorem Resolve.Spec.branch {s : Stmt NodeId} {ctx : Context} {around : Surroundings}
    (hd : s.declared? = none) (h : Spec (Follows · around) (s.resolve ctx) (Walked (s.after around)
      (s.expressions around)
      (Tidy ctx.inFunction s.ReturnFree s.scopes s.heirs around s.declared?.toList))) :
    Spec (Follows · around) (s.resolve ctx) (Walked around (s.expressions around)
      (Tidy ctx.inFunction s.ReturnFree s.scopes s.heirs around [])) := by
  rw [Stmt.after, hd] at h
  exact h

mutual

/-- A statement at a place: its uses of names get the distances that can be read off their places, and
the rules on names and returns are kept. -/
theorem Stmt.resolve_spec : ∀ (s : Stmt NodeId) {ctx : Context} {around : Surroundings}, s.Formed →
    ctx.inClass = around.inClass → around.Open →
    Spec (Follows · around) (s.resolve ctx) (Walked (s.after around) (s.expressions around)
      (Tidy ctx.inFunction s.ReturnFree s.scopes s.heirs around s.declared?.toList))
  | .expression value, _, _, _, hc, _ => (Expr.walk hc value).tidy fun _ => .none
  | .print value, _, _, _, hc, _ => (Expr.walk hc value).tidy fun _ => .none
  | .var name initializer, _, _, _, hc, ho =>
      (var_walk hc ho name initializer).tidy fun hf => ⟨.nil, fun _ => trivial, hf⟩
  | .block body, ctx, around, hf, hc, _ => by
      have h := @Stmt.resolveAll_spec body ctx (.names (Stmt.declarations body) [] :: around) hf
        hc trivial
      exact (h.inside (Scope.fits_names _) (Stmt.tail_afterAll _ _)).tidy
        fun ht => ⟨.scope ht.fresh.1 ht.toNeat, ht.returns, .nil _⟩
  | .ite condition yes none, _, _, ⟨_, hy, hd⟩, hc, ho =>
      ((Expr.walk hc condition).walk (.branch hd (Stmt.resolve_spec yes hy hc ho))).tidy
        fun ht => ht.2
  | .ite condition yes (some no), _, _, ⟨_, ⟨hy, hd⟩, hn, hd'⟩, hc, ho =>
      ((Expr.walk hc condition).walk ((Spec.branch hd (Stmt.resolve_spec yes hy hc ho)).walk
        (.branch hd' (Stmt.resolve_spec no hn hc ho)))).tidy
          fun ht => Tidy.append (t := none) ht.2.1 ht.2.2
  | .while condition body, _, _, ⟨_, hb, hd⟩, hc, ho =>
      ((Expr.walk hc condition).walk (.branch hd (Stmt.resolve_spec body hb hc ho))).tidy
        fun ht => ht.2
  | .function decl, _, around, hf, hc, ho =>
      ((introduce_walk ho decl.name).walk (FunDecl.resolve_spec decl hf.2
        (hc.trans (around.inClass_declare? (some decl.name)).symm))).tidy
          fun ht => ⟨ht.2, fun _ => trivial, ht.1⟩
  | .ret keyword value, _, _, _, hc, _ =>
      (ret_walk hc keyword value).tidy fun hb => ⟨.nil, fun hn => (nomatch hb.symm.trans hn), .nil _⟩
  | .cls name none methods, ctx, around, hf, _, ho => by
      have hm := @FunDecl.resolveEach_spec methods { ctx with inClass := .base }
        (.this :: around.declare name) hf.2.2
        (Surroundings.inClass_this (ho.declare? (some name))).symm
      exact ((introduce_walk ho name).walk (hm.insideWith Scope.fits_this rfl)).tidy
        fun ht => ⟨ht.2, fun _ => trivial, ht.1⟩
  | .cls name (some superclass) methods, ctx, around, hf, _, ho => by
      have hm := @FunDecl.resolveEach_spec methods { ctx with inClass := .derived }
        (.this :: .super :: around.declare name) hf.2.2 rfl
      have hs := (hm.insideWith Scope.fits_this rfl).insideWith Scope.fits_super rfl
      exact ((introduce_walk ho name).walk ((inherit_walk name superclass).walk hs)).tidy
        fun ht => ⟨.heir ht.2.1 ht.2.2, fun _ => trivial, ht.1⟩

/-- Statements in order. -/
theorem Stmt.resolveAll_spec : ∀ (body : List (Stmt NodeId)) {ctx : Context} {around : Surroundings},
    Stmt.FormedAll body → ctx.inClass = around.inClass → around.Open →
    Spec (Follows · around) (Stmt.resolveAll ctx body) (Walked (Stmt.afterAll around body)
      (Stmt.expressionsAll around body)
      (Tidy ctx.inFunction (Stmt.ReturnFreeAll body) (Stmt.scopesAll body) (Stmt.heirsAll body) around
        (Stmt.declarations body)))
  | [], _, _, _, _, _ => .pure fun σ h => .nil σ h .none
  | s :: body, _, around, ⟨hs, hb⟩, hc, ho => by
      have h := (Stmt.resolve_spec s hs hc ho).walk (Stmt.resolveAll_spec body hb
        (hc.trans (around.inClass_declare? s.declared?).symm) (ho.declare? s.declared?))
      rw [Stmt.declarations_cons]
      exact h.tidy fun ht => ht.1.append ht.2

/-- A function: its parameters and its body share a scope. -/
theorem FunDecl.resolve_spec : ∀ (decl : FunDecl NodeId) {ctx : Context} {around : Surroundings},
    decl.Formed → ctx.inClass = around.inClass →
    Spec (Follows · around) (decl.resolve ctx) (Walked around (decl.expressions around)
      (Neat decl.scopes decl.heirs))
  | .mk _ params body, ctx, around, ⟨_, hb⟩, hc => by
      have hparams := params_walk (params ++ Stmt.declarations body) around params []
      have hbody := @Stmt.resolveAll_spec body { ctx with inFunction := true }
        (.names (params ++ Stmt.declarations body) params :: around) hb hc trivial
      have hall := (hparams.imp (fun _ h => h) fun σ new hw => ⟨params_follow hw.follows, hw.found,
        hw.tidy⟩).walk hbody
      exact (hall.inside (Scope.fits_names _) (Stmt.tail_afterAll _ _)).tidy
        fun ht => .scope (ht.1.distinct ht.2.fresh) ht.2.toNeat

/-- Functions in order. -/
theorem FunDecl.resolveEach_spec : ∀ (decls : List (FunDecl NodeId)) {ctx : Context}
    {around : Surroundings}, FunDecl.FormedEach decls → ctx.inClass = around.inClass →
    Spec (Follows · around) (FunDecl.resolveEach ctx decls) (Walked around
      (FunDecl.expressionsEach around decls) (Neat (FunDecl.scopesEach decls) (FunDecl.heirsEach decls)))
  | [], _, _, _, _ => .pure fun σ h => .nil σ h .nil
  | decl :: decls, _, _, ⟨hd, hs⟩, hc =>
      ((FunDecl.resolve_spec decl hd hc).walk (FunDecl.resolveEach_spec decls hs hc)).tidy
        fun ht => ht.1.append ht.2

end

end trees

/-! ### Whole programs -/

theorem Resolve.outcome_ok {r : Resolve Unit} {Post : List Scope → Distances → Prop}
    (hr : Spec (Follows · []) r Post) {ds : Distances} (h : r.outcome = .ok ds) : ∃ σ, Post σ ds := by
  obtain ⟨σ, new, faults, he, hp⟩ := hr []
  unfold Resolve.outcome at h
  change (match r ⟨[], [], []⟩ with
    | (_, w) => if w.faults.isEmpty then Except.ok w.distances else .error w.faults.reverse) = _ at h
  rw [he, List.append_nil, List.append_nil] at h
  dsimp only at h
  split at h
  · rename_i hf
    cases h
    exact ⟨σ, hp .nil (List.isEmpty_iff.mp hf)⟩
  · cases h

/-- A program that resolution accepts. -/
structure Accepted (body : List (Stmt NodeId)) (ds : Distances) : Prop where
  formed : Stmt.FormedAll body
  distances : ds = distancesOf (usesOf body)
  allowed : ∀ u ∈ usesOf body, u.Allowed
  returns : Stmt.ReturnFreeAll body
  neat : Neat (Stmt.scopesAll body) (Stmt.heirsAll body)

theorem resolveProgram_ok {body : List (Stmt NodeId)} {ds : Distances} (hf : Stmt.FormedAll body)
    (h : resolveProgram body = .ok ds) : Accepted body ds := by
  obtain ⟨σ, hw⟩ := Resolve.outcome_ok (@Stmt.resolveAll_spec body _ [] hf rfl trivial) h
  exact ⟨hf, hw.found.distances, hw.found.allowed, hw.tidy.returns rfl, hw.tidy.toNeat⟩

theorem resolveExpression_ok {e : Expr NodeId} {ds : Distances} (h : resolveExpression e = .ok ds) :
    Found (usesAt [] none e.references) ds := by
  obtain ⟨σ, hw⟩ := Resolve.outcome_ok (@Expr.walk [] _ rfl e) h
  have hx := hw.found
  rwa [List.flatMap_singleton] at hx

end Lox
