import Lox.Proofs.Braces
import Lox.Proofs.Composition
import Lox.Proofs.Layers

/-! # Distances beyond braces

Braces put an empty scope around a statement, and the layers of a place tell where (`Layers.Spread`).  A use of a
name that reaches beyond them finds its declaration one scope further out, any other where it was
(`Layers.Spread.distance?`); what the rules allow stays allowed.  So a program with braces around a statement is
accepted when it is without them (`Accepted.braced`), and the two are the same code but for braces, with distances
that fit the layers (`Stmt.BracingAll.code`). -/

namespace Lox

/-! ### Scopes around a place -/

/-- The local scopes around a place in two programs, of which the second has empty ones more where the layers
say so. -/
inductive Layers.Spread : Layers → Surroundings → Surroundings → Prop
  | nil (around : Surroundings) : Spread [] around around
  | shared (e : Enclosure) {Γ : Layers} {around around' : Surroundings} (h : Spread Γ around around') :
      Spread (.shared :: Γ) (e :: around) (e :: around')
  | extra {Γ : Layers} {around around' : Surroundings} (h : Spread Γ around around') (ho : around.Open) :
      Spread (.extra :: Γ) around (.names [] [] :: around')

namespace Layers.Spread

variable {Γ : Layers} {around around' : Surroundings}

/-- Where a name is declared, seen from the second program. -/
theorem distance? (h : Γ.Spread around around') (n : String) :
    around'.distance? n = (around.distance? n).map Γ.outward := by
  unfold Surroundings.distance?
  induction h with
  | nil around => exact Option.map_id'.symm
  | shared e h ih =>
      rw [List.findIdx?_cons, List.findIdx?_cons, ih]
      split
      · rfl
      · rw [Option.map_map, Option.map_map]
        rfl
  | extra h ho ih =>
      rw [List.findIdx?_cons, if_neg (by simp [Enclosure.binds]), ih, Option.map_map]
      rfl

/-- The innermost scope of the second program binds `super` where that of the first does. -/
theorem super_head (h : Γ.Spread around around') :
    (∃ outer, around' = .super :: outer) ↔ ∃ outer, around = .super :: outer := by
  cases h with
  | nil around => rfl
  | shared e h => simp
  | extra h ho =>
      refine ⟨fun ⟨outer, he⟩ => ?_, fun ⟨outer, he⟩ => ?_⟩
      · exact nomatch (List.cons.inj he).1
      · rw [he] at ho
        exact ho.elim

theorem inClass (h : Γ.Spread around around') : around'.inClass = around.inClass := by
  induction h with
  | nil around => rfl
  | @shared e Γ around around' h ih =>
      cases e with
      | names all before => exact ih
      | super => rfl
      | this =>
          have hs := h.super_head
          unfold Surroundings.inClass
          split <;> split <;> simp_all
  | extra h ho ih => exact ih

/-- A declaration, where names may be declared. -/
theorem declare (h : Γ.Spread around around') (ho : Γ.Open) (t : Lexeme) :
    Γ.Spread (around.declare t) (around'.declare t) := by
  cases h with
  | nil around => exact .nil _
  | @shared e Γ around around' h =>
      cases e with
      | names all before => exact .shared _ h
      | this => exact .shared _ h
      | super => exact .shared _ h
  | extra h _ => exact absurd rfl ho

theorem declare? (h : Γ.Spread around around') {t : Option Lexeme} (ho : t = none ∨ Γ.Open) :
    Γ.Spread (around.declare? t) (around'.declare? t) := by
  cases t with
  | none => exact h
  | some t => exact h.declare (ho.resolve_left (Option.some_ne_none t)) t

theorem initializing (h : Γ.Spread around around') (ho : Γ.Open) (t : Lexeme) :
    around'.initializing t = around.initializing t := by
  cases h with
  | nil around => rfl
  | shared e h => rfl
  | extra h _ => exact absurd rfl ho

/-- The place after a statement. -/
theorem after {ι : Type} (h : Γ.Spread around around') {s : Stmt ι} (ho : s.declared? = none ∨ Γ.Open) :
    Γ.Spread (s.after around) (s.after around') := h.declare? ho

end Layers.Spread

/-! ### Uses -/

section uses

variable {Γ : Layers} {around around' : Surroundings}

/-- The same use at a place in two programs. -/
theorem Layers.Spread.use_distance? (h : Γ.Spread around around') {i : Option Lexeme} (ho : i ≠ none → Γ.Open)
    (k : UseKind) (r : Reference NodeId) :
    (Use.mk k r around' i).distance? = (Use.mk k r around i).distance?.map Γ.outward := by
  unfold Use.distance? Use.isOwn
  dsimp only
  split
  · rename_i hi
    have hsome : i ≠ none := by
      rintro rfl
      exact nomatch hi
    rw [Option.map_some, (ho hsome).outward_zero]
  · exact h.distance? r.name.text

theorem Layers.Spread.use_allowed (h : Γ.Spread around around') {i : Option Lexeme} {k : UseKind}
    {r : Reference NodeId} (ha : (Use.mk k r around i).Allowed) : (Use.mk k r around' i).Allowed := by
  unfold Use.Allowed at ha ⊢
  dsimp only at ha ⊢
  rw [h.inClass]
  exact ha

/-- What is known of a use: its distance is on record, and it obeys the rules. -/
structure Use.Known (T : Std.HashMap NodeId Nat) (bound : NodeId) (u : Use) : Prop where
  entry : T[u.ref.id]? = u.distance?
  lt : u.ref.id < bound
  sound : u.Sound
  allowed : u.Allowed

/-- Around a use of `super`, the scope that binds it is the next one after that of `this`. -/
theorem Use.Known.this_next {T : Std.HashMap NodeId Nat} {bound : NodeId} {u : Use} (h : u.Known T bound)
    (hk : u.kind = .super) :
    ∃ d, u.around.distance? "this" = some d ∧ u.around.distance? "super" = some (d + 1) ∧
      u.distance? = some (d + 1) := by
  have hname := h.sound.spelled
  have hclass := h.allowed
  unfold Use.Allowed at hclass
  rw [hk] at hname hclass
  have hsuper : u.ref.name.text = "super" := hname
  obtain ⟨d, -, ht, hs⟩ := @Surroundings.Sound.inMethod (fun _ => id) _ h.sound.around hclass
  refine ⟨d, ht, hs, ?_⟩
  rw [Use.distance?, h.sound.isOwn_eq_false (.inr hsuper), hsuper]
  exact hs

/-- What is known of the expressions at places. -/
def AllKnown (T : Std.HashMap NodeId Nat) (bound : NodeId) (xs : List Placed) : Prop :=
  ∀ x ∈ xs, ∀ u ∈ x.uses, u.Known T bound

theorem AllKnown.left {T : Std.HashMap NodeId Nat} {bound : NodeId} {xs ys : List Placed}
    (h : AllKnown T bound (xs ++ ys)) : AllKnown T bound xs := fun x hx => h x (List.mem_append_left _ hx)

theorem AllKnown.right {T : Std.HashMap NodeId Nat} {bound : NodeId} {xs ys : List Placed}
    (h : AllKnown T bound (xs ++ ys)) : AllKnown T bound ys := fun x hx => h x (List.mem_append_right _ hx)

theorem AllKnown.tail {T : Std.HashMap NodeId Nat} {bound : NodeId} {x : Placed} {xs : List Placed}
    (h : AllKnown T bound (x :: xs)) : AllKnown T bound xs := fun y hy => h y (List.mem_cons_of_mem _ hy)

/-- The distances of the uses in an expression fit the layers around it. -/
theorem Tables.fitsAll {U : Tables} (h : Γ.Spread around around') {i : Option Lexeme} (ho : i ≠ none → Γ.Open)
    {e : Expr NodeId} (hl : ∀ u ∈ (Placed.mk around i e).uses, u.Known U.left U.known)
    (hr : ∀ u ∈ (Placed.mk around' i e).uses, u.Known U.right U.known) : U.FitsAll Γ e.references := by
  rintro ⟨k, r⟩ hu
  have hleft := hl ⟨k, r, around, i⟩ (List.mem_map.mpr ⟨(k, r), hu, rfl⟩)
  have hright := hr ⟨k, r, around', i⟩ (List.mem_map.mpr ⟨(k, r), hu, rfl⟩)
  have hmoved := h.use_distance? ho k r
  refine ⟨hleft.lt, ?_, fun hk d hd => ?_⟩
  · exact hright.entry.trans (hmoved.trans (congrArg _ hleft.entry.symm))
  -- both scopes are found on both sides, each next to the other
  obtain ⟨n, ht, -, hn⟩ := hleft.this_next hk
  obtain ⟨n', ht', -, hn'⟩ := hright.this_next hk
  obtain rfl : n + 1 = d := Option.some.inj (hn.symm.trans (hleft.entry.symm.trans hd))
  have hthis : Γ.outward n = n' := by
    have hd := h.distance? "this"
    rw [ht, ht', Option.map_some] at hd
    exact (Option.some.inj hd).symm
  have hsuper : Γ.outward (n + 1) = n' + 1 := by
    rw [hn, hn', Option.map_some] at hmoved
    exact (Option.some.inj hmoved).symm
  rw [Layers.Adjoins, hsuper, hthis]

end uses

/-! ### Uses in braces -/

/-- A place `k` scopes inside braces that have `n` scopes around them, without the braces and with them. -/
structure InBraces (n k : Nat) (around around' : Surroundings) : Prop where
  length : around.length = k + n
  spread : Layers.Spread (List.replicate k .shared ++ [.extra]) around around'

namespace InBraces

variable {n k : Nat} {around around' : Surroundings}

theorem here {outer : Surroundings} (ho : outer.Open) : InBraces outer.length 0 outer (.names [] [] :: outer) where
  length := (Nat.zero_add _).symm
  spread := .extra (.nil outer) ho

theorem cons (h : InBraces n k around around') (e : Enclosure) : InBraces n (k + 1) (e :: around) (e :: around') where
  length := by rw [List.length_cons, h.length, Nat.add_right_comm]
  spread := .shared e h.spread

theorem isOpen (h : 0 < k) : Layers.Open (List.replicate k .shared ++ [.extra]) := by
  cases k with
  | zero => exact absurd h (Nat.lt_irrefl 0)
  | succ k => exact Layers.open_shared _

theorem declare? (h : InBraces n k around around') {t : Option Lexeme} (ht : t = none ∨ 0 < k) :
    InBraces n k (around.declare? t) (around'.declare? t) where
  length := by
    have hl := around.tail_declare? t
    cases t with
    | none => exact h.length
    | some t =>
        match around, h.length with
        | [], hlen => exact hlen
        | .names _ _ :: _, hlen => exact hlen
        | .this :: _, hlen => exact hlen
        | .super :: _, hlen => exact hlen
  spread := h.spread.declare? (ht.imp_right isOpen)

/-- Names that are declared inside the braces keep their distances, all others are one scope further out. -/
theorem outward (h : InBraces n k around around') (d : Nat) :
    Layers.outward (List.replicate k .shared ++ [.extra]) d = if around.length ≤ d + n then d + 1 else d := by
  rw [Layers.outward_shared, h.length]
  by_cases hd : d < k
  · rw [if_pos hd, if_neg (by omega)]
  · rw [if_neg hd, if_pos (by omega), Layers.outward, Layers.outward]
    omega

end InBraces

/-- An expression at its place in braces, without them and with them. -/
structure Placed.InBraces (n : Nat) (x x' : Placed) : Prop where
  expr : x'.expr = x.expr
  initializing : x'.initializing = x.initializing
  place : ∃ k, Lox.InBraces n k x.around x'.around ∧ (x.initializing ≠ none → 0 < k)

section places

variable {n : Nat}

theorem Placed.InBraces.of_place {k : Nat} {around around' : Surroundings} (h : Lox.InBraces n k around around')
    (e : Expr NodeId) : Placed.InBraces n ⟨around, none, e⟩ ⟨around', none, e⟩ :=
  ⟨rfl, rfl, k, h, fun hn => absurd rfl hn⟩

mutual

/-- The expressions of a statement in braces, without them and with them. -/
theorem Stmt.expressions_inBraces : ∀ (s : Stmt NodeId) {k : Nat} {around around' : Surroundings},
    InBraces n k around around' → s.Formed → (s.declared? = none ∨ 0 < k) →
    List.Forall₂ (Placed.InBraces n) (s.expressions around) (s.expressions around')
  | .expression value, _, _, _, h, _, _ => .cons (.of_place h value) .nil
  | .print value, _, _, _, h, _, _ => .cons (.of_place h value) .nil
  | .var _ none, _, _, _, _, _, _ => .nil
  | .var name (some value), k, _, _, h, _, hd => by
      have hk : 0 < k := hd.resolve_left (Option.some_ne_none name)
      exact .cons ⟨rfl, h.spread.initializing (InBraces.isOpen hk) name, k, h, fun _ => hk⟩ .nil
  | .block body, _, _, _, h, hf, _ =>
      Stmt.expressionsAll_inBraces body (h.cons (.names (Stmt.declarations body) [])) hf (Nat.succ_pos _)
  | .ite condition yes none, _, _, _, h, hf, _ =>
      .cons (.of_place h condition) (yes.expressions_inBraces h hf.2.1 (.inl hf.2.2))
  | .ite condition yes (some no), _, _, _, h, hf, _ =>
      .cons (.of_place h condition) (List.rel_append (yes.expressions_inBraces h hf.2.1.1 (.inl hf.2.1.2))
        (no.expressions_inBraces h hf.2.2.1 (.inl hf.2.2.2)))
  | .while condition body, _, _, _, h, hf, _ =>
      .cons (.of_place h condition) (body.expressions_inBraces h hf.2.1 (.inl hf.2.2))
  | .function decl, _, _, _, h, hf, hd =>
      decl.expressions_inBraces (h.declare? (t := some decl.name) hd) hf.2
  | .ret _ none, _, _, _, _, _, _ => .nil
  | .ret _ (some value), _, _, _, h, _, _ => .cons (.of_place h value) .nil
  | .cls name none methods, _, _, _, h, hf, hd =>
      FunDecl.expressionsEach_inBraces methods ((h.declare? (t := some name) hd).cons .this) hf.2.2
  | .cls name (some superclass) methods, _, _, _, h, hf, hd =>
      .cons (.of_place h (.name superclass)) (FunDecl.expressionsEach_inBraces methods
        (((h.declare? (t := some name) hd).cons .super).cons .this) hf.2.2)

theorem Stmt.expressionsAll_inBraces : ∀ (body : List (Stmt NodeId)) {k : Nat} {around around' : Surroundings},
    InBraces n k around around' → Stmt.FormedAll body → 0 < k →
    List.Forall₂ (Placed.InBraces n) (Stmt.expressionsAll around body) (Stmt.expressionsAll around' body)
  | [], _, _, _, _, _, _ => .nil
  | s :: body, _, _, _, h, hf, hk =>
      List.rel_append (s.expressions_inBraces h hf.1 (.inr hk))
        (Stmt.expressionsAll_inBraces body (h.declare? (.inr hk)) hf.2 hk)

theorem FunDecl.expressions_inBraces : ∀ (d : FunDecl NodeId) {k : Nat} {around around' : Surroundings},
    InBraces n k around around' → d.Formed →
    List.Forall₂ (Placed.InBraces n) (d.expressions around) (d.expressions around')
  | .mk _ params body, _, _, _, h, hf =>
      Stmt.expressionsAll_inBraces body (h.cons (.names (params ++ Stmt.declarations body) params)) hf.2
        (Nat.succ_pos _)

theorem FunDecl.expressionsEach_inBraces : ∀ (ds : List (FunDecl NodeId)) {k : Nat}
    {around around' : Surroundings}, InBraces n k around around' → FunDecl.FormedEach ds →
    List.Forall₂ (Placed.InBraces n) (FunDecl.expressionsEach around ds) (FunDecl.expressionsEach around' ds)
  | [], _, _, _, _, _ => .nil
  | d :: ds, _, _, _, h, hf =>
      List.rel_append (d.expressions_inBraces h hf.1) (FunDecl.expressionsEach_inBraces ds h hf.2)

end

end places

/-! ### Distances -/

/-- Does a use of a name reach beyond a place with `n` scopes around it, to the local scope of the declaration? -/
def Use.reaches (n : Nat) (u : Use) : Bool := u.distance?.any fun d => decide (u.around.length ≤ d + n)

/-- The same use in braces, without them and with them. -/
structure Use.InBraces (n : Nat) (u u' : Use) : Prop where
  ref : u'.ref = u.ref
  distance : u'.distance? = u.distance?.map fun d => if u.reaches n then d + 1 else d
  allowed : u.Allowed → u'.Allowed

section distances

variable {n : Nat}

theorem Use.reaches_eq {u : Use} {d : Nat} (h : u.distance? = some d) :
    u.reaches n = decide (u.around.length ≤ d + n) := by
  rw [Use.reaches, h, Option.any_some]

/-- The uses of names in an expression, without the braces and with them. -/
theorem Placed.InBraces.uses {x x' : Placed} (h : x.InBraces n x') :
    List.Forall₂ (Use.InBraces n) x.uses x'.uses := by
  obtain ⟨around, i, e⟩ := x
  obtain ⟨around', i', e'⟩ := x'
  obtain ⟨he, hi, k, hp, hk⟩ := h
  dsimp only at he hi hp hk
  subst he hi
  unfold Placed.uses usesAt
  refine List.forall₂_map_left_iff.mpr (List.forall₂_map_right_iff.mpr (List.forall₂_same.mpr fun r _ => ?_))
  have hd := hp.spread.use_distance? (fun hne => InBraces.isOpen (hk hne)) r.1 r.2
  refine ⟨rfl, hd.trans ?_, hp.spread.use_allowed⟩
  cases hu : (Use.mk r.1 r.2 around i').distance? with
  | none => rfl
  | some d =>
      rw [Option.map_some, Option.map_some, hp.outward, Use.reaches_eq hu]
      simp only [decide_eq_true_eq]

theorem uses_inBraces {xs xs' : List Placed} (h : List.Forall₂ (Placed.InBraces n) xs xs') :
    List.Forall₂ (Use.InBraces n) (xs.flatMap Placed.uses) (xs'.flatMap Placed.uses) := by
  induction h with
  | nil => exact .nil
  | cons hx _ ih => exact List.rel_append hx.uses ih

/-- Distances of which some are longer by one. -/
def Distances.lengthened (ids : List NodeId) (ds : Distances) : Distances :=
  ds.map fun (i, d) => (i, if i ∈ ids then d + 1 else d)

/-- The uses of names in a statement that reach a local scope beyond it; the scopes around it are given. -/
def Stmt.beyond (outer : Surroundings) (S : Stmt NodeId) : List NodeId :=
  (((S.expressions outer).flatMap Placed.uses).filter (Use.reaches outer.length)).map (·.ref.id)

theorem distancesOf_lengthened {ids : List NodeId} {us us' : List Use}
    (h : List.Forall₂ (fun u u' => u'.ref = u.ref ∧
      u'.distance? = u.distance?.map fun d => if u.ref.id ∈ ids then d + 1 else d) us us') :
    distancesOf us' = (distancesOf us).lengthened ids := by
  unfold distancesOf Distances.lengthened
  rw [List.map_reverse]
  refine congrArg _ ?_
  induction h with
  | nil => rfl
  | @cons u u' us us' hu _ ih =>
      obtain ⟨hr, hd⟩ := hu
      rw [List.filterMap_cons, List.filterMap_cons, Use.entry?, hd, hr, Use.entry?]
      cases u.distance? with
      | none => exact ih
      | some d => exact congrArg _ ih

theorem Use.InBraces.all_allowed {us us' : List Use} (h : List.Forall₂ (Use.InBraces n) us us')
    (ha : ∀ u ∈ us, u.Allowed) : ∀ u ∈ us', u.Allowed := by
  induction h with
  | nil => exact nofun
  | cons hu _ ih =>
      exact List.forall_mem_cons.mpr ⟨hu.allowed (ha _ List.mem_cons_self),
        ih fun v hv => ha v (List.mem_cons_of_mem _ hv)⟩

/-- Uses of which those reach beyond the braces that are listed. -/
theorem Use.InBraces.lengthened {ids : List NodeId} {us us' : List Use}
    (h : List.Forall₂ (Use.InBraces n) us us') (hids : ∀ u ∈ us, u.ref.id ∈ ids ↔ u.reaches n = true) :
    List.Forall₂ (fun u u' => u'.ref = u.ref ∧
      u'.distance? = u.distance?.map fun d => if u.ref.id ∈ ids then d + 1 else d) us us' := by
  induction h with
  | nil => exact .nil
  | @cons u u' us us' hu _ ih =>
      refine .cons ⟨hu.ref, hu.distance.trans ?_⟩ (ih fun v hv => hids v (List.mem_cons_of_mem _ hv))
      simp only [hids u List.mem_cons_self]

/-- Uses none of which is listed. -/
theorem uses_unchanged {ids : List NodeId} {us : List Use} (h : ∀ u ∈ us, u.ref.id ∉ ids) :
    List.Forall₂ (fun u u' => u'.ref = u.ref ∧
      u'.distance? = u.distance?.map fun d => if u.ref.id ∈ ids then d + 1 else d) us us := by
  refine List.forall₂_same.mpr fun u hu => ⟨rfl, ?_⟩
  simp only [if_neg (h u hu)]
  exact Option.map_id'.symm

end distances

/-! ### Acceptance -/

section accepting

variable {S : Stmt NodeId} {body body' : List (Stmt NodeId)} {ds : Distances}

/-- With braces around a statement, the distances grow of those of its uses that reach a local scope beyond it. -/
theorem Stmt.BracingAll.distances (h : Stmt.BracingAll S body body') (hs : S.Formed) (hd : S.declared? = none)
    (hn : ((usesOf body).map (·.ref.id)).Nodup) : ∃ outer before after, outer.Open ∧
      Stmt.expressionsAll [] body = before ++ (S.expressions outer ++ after) ∧
      distancesOf (usesOf body') = (distancesOf (usesOf body)).lengthened (S.beyond outer) := by
  obtain ⟨outer, before, after, ho, hx, hx'⟩ := @Stmt.BracingAll.expressions S _ _ h [] trivial
  refine ⟨outer, before, after, ho, hx, distancesOf_lengthened ?_⟩
  have hin := uses_inBraces (S.expressions_inBraces (InBraces.here ho) hs (.inl hd))
  rw [usesOf, hx, List.flatMap_append, List.flatMap_append, List.map_append, List.map_append] at hn
  obtain ⟨-, hrest, hbefore⟩ := List.nodup_append.mp hn
  obtain ⟨hinner, -, hafter⟩ := List.nodup_append.mp hrest
  -- a use outside the statement has a number that no use inside has
  have hsub : ∀ i ∈ S.beyond outer, i ∈ ((S.expressions outer).flatMap Placed.uses).map (·.ref.id) := by
    intro i hi
    obtain ⟨u, hu, rfl⟩ := List.mem_map.mp hi
    exact List.mem_map_of_mem (List.mem_filter.mp hu).1
  unfold usesOf
  rw [hx, hx', List.flatMap_append, List.flatMap_append, List.flatMap_append, List.flatMap_append]
  refine List.rel_append (uses_unchanged fun u hu hi => ?_)
    (List.rel_append (Use.InBraces.lengthened hin fun u hu => ⟨fun hi => ?_, fun hr => ?_⟩)
      (uses_unchanged fun u hu hi => ?_))
  · exact hbefore _ (List.mem_map_of_mem hu) _ (List.mem_append_left _ (hsub _ hi)) rfl
  · obtain ⟨v, hv, he⟩ := List.mem_map.mp hi
    obtain ⟨hv, hr⟩ := List.mem_filter.mp hv
    rwa [List.inj_on_of_nodup_map hinner hv hu he] at hr
  · exact List.mem_map_of_mem (List.mem_filter.mpr ⟨hu, hr⟩)
  · exact hafter _ (hsub _ hi) _ (List.mem_map_of_mem hu) rfl

/-- A program with braces around a statement is accepted when it is without them. -/
theorem Accepted.braced (hb : Accepted body ds) (h : Stmt.BracingAll S body body') (hs : S.Formed)
    (hd : S.declared? = none) (hf : Stmt.FormedAll body') : Accepted body' (distancesOf (usesOf body')) where
  formed := hf
  distances := rfl
  allowed := by
    obtain ⟨outer, before, after, ho, hx, hx'⟩ := @Stmt.BracingAll.expressions S _ _ h [] trivial
    have hin := uses_inBraces (S.expressions_inBraces (InBraces.here ho) hs (.inl hd))
    have hall : ∀ u ∈ (before ++ (S.expressions outer ++ after)).flatMap Placed.uses, u.Allowed := by
      rw [← hx]
      exact hb.allowed
    rw [List.flatMap_append, List.flatMap_append] at hall
    intro u hu
    rw [usesOf, hx', List.flatMap_append, List.flatMap_append] at hu
    rcases List.mem_append.mp hu with hu | hu
    · exact hall u (List.mem_append_left _ hu)
    rcases List.mem_append.mp hu with hu | hu
    · exact Use.InBraces.all_allowed hin
        (fun v hv => hall v (List.mem_append_right _ (List.mem_append_left _ hv))) u hu
    · exact hall u (List.mem_append_right _ (List.mem_append_right _ hu))
  returns := h.rules.returns hb.returns
  neat.distinct names hn := by
    rcases h.rules.scopes names hn with rfl | hn
    · exact List.nodup_nil
    · exact hb.neat.distinct names hn
  neat.acyclic := h.rules.heirs ▸ hb.neat.acyclic

end accepting

/-! ### Code -/

section code

variable {U : Tables}

/-- The distances of the uses in the first of some expressions fit the layers around it. -/
theorem AllKnown.fits {Γ : Layers} {around around' : Surroundings} (h : Γ.Spread around around') {e : Expr NodeId}
    {xs xs' : List Placed} (hl : AllKnown U.left U.known (⟨around, none, e⟩ :: xs))
    (hr : AllKnown U.right U.known (⟨around', none, e⟩ :: xs')) : U.FitsAll Γ e.references :=
  Tables.fitsAll h (fun hn => absurd rfl hn) (hl _ List.mem_cons_self) (hr _ List.mem_cons_self)

theorem AllKnown.fits? {Γ : Layers} {around around' : Surroundings} (h : Γ.Spread around around')
    {e : Option (Expr NodeId)}
    (hl : AllKnown U.left U.known (e.toList.map fun e => ⟨around, none, e⟩))
    (hr : AllKnown U.right U.known (e.toList.map fun e => ⟨around', none, e⟩)) :
    ∀ x ∈ e, U.FitsAll Γ x.references := by
  rintro x ⟨⟩
  exact hl.fits h hr

mutual

/-- A statement in two programs is the same code but for braces around it, when its uses are known in both. -/
theorem Stmt.code : ∀ (s : Stmt NodeId) {Γ : Layers} {around around' : Surroundings}, Γ.Spread around around' →
    s.Formed → (s.declared? = none ∨ Γ.Open) → AllKnown U.left U.known (s.expressions around) →
    AllKnown U.right U.known (s.expressions around') → BracedNode U Γ s s
  | .expression value, _, _, _, h, _, _, hl, hr => .expression (hl.fits h hr)
  | .print value, _, _, _, h, _, _, hl, hr => .print (hl.fits h hr)
  | .var name initializer, Γ, around, around', h, _, hd, hl, hr => by
      have ho : Γ.Open := hd.resolve_left (Option.some_ne_none name)
      refine .var ho ?_
      rintro x ⟨⟩
      have hr := hr _ List.mem_cons_self
      rw [h.initializing ho name] at hr
      exact Tables.fitsAll h (fun _ => ho) (hl _ List.mem_cons_self) hr
  | .block body, _, _, _, h, hf, _, hl, hr =>
      .block (Stmt.codeAll body (h.shared (.names (Stmt.declarations body) [])) hf (Layers.open_shared _) hl hr)
  | .ite condition yes none, _, _, _, h, hf, _, hl, hr =>
      .ite (hl.fits h hr) (.same (yes.code h hf.2.1 (.inl hf.2.2) hl.tail hr.tail))
  | .ite condition yes (some no), _, _, _, h, hf, _, hl, hr =>
      .iteElse (hl.fits h hr) (.same (yes.code h hf.2.1.1 (.inl hf.2.1.2) hl.tail.left hr.tail.left))
        (.same (no.code h hf.2.2.1 (.inl hf.2.2.2) hl.tail.right hr.tail.right))
  | .while condition body, _, _, _, h, hf, _, hl, hr =>
      .while (hl.fits h hr) (.same (body.code h hf.2.1 (.inl hf.2.2) hl.tail hr.tail))
  | .function decl, _, _, _, h, hf, hd, hl, hr => by
      have ho := hd.resolve_left (Option.some_ne_none decl.name)
      exact .function ho (decl.code (h.declare ho decl.name) hf.2 hl hr)
  | .ret keyword value, _, _, _, h, _, _, hl, hr => .ret keyword (AllKnown.fits? h hl hr)
  | .cls name none methods, _, _, _, h, hf, hd, hl, hr => by
      have ho := hd.resolve_left (Option.some_ne_none name)
      exact .base ho (FunDecl.codeEach methods ((h.declare ho name).shared .this) hf.2.2 hl hr)
  | .cls name (some superclass) methods, _, _, _, h, hf, hd, hl, hr => by
      have ho := hd.resolve_left (Option.some_ne_none name)
      exact .derived ho (hl.fits h hr (.read, superclass) List.mem_cons_self)
        (FunDecl.codeEach methods (((h.declare ho name).shared .super).shared .this) hf.2.2 hl.tail hr.tail)

theorem Stmt.codeAll : ∀ (body : List (Stmt NodeId)) {Γ : Layers} {around around' : Surroundings},
    Γ.Spread around around' → Stmt.FormedAll body → Γ.Open →
    AllKnown U.left U.known (Stmt.expressionsAll around body) →
    AllKnown U.right U.known (Stmt.expressionsAll around' body) → BracedStmts U Γ body body
  | [], _, _, _, _, _, _, _, _ => .nil _
  | s :: body, _, _, _, h, hf, ho, hl, hr =>
      .cons (.same (s.code h hf.1 (.inr ho) hl.left hr.left))
        (Stmt.codeAll body (h.after (.inr ho)) hf.2 ho hl.right hr.right)

theorem FunDecl.code : ∀ (d : FunDecl NodeId) {Γ : Layers} {around around' : Surroundings},
    Γ.Spread around around' → d.Formed → AllKnown U.left U.known (d.expressions around) →
    AllKnown U.right U.known (d.expressions around') → BracedFun U Γ d d
  | .mk name params body, _, _, _, h, hf, hl, hr =>
      .mk name params (Stmt.codeAll body (h.shared (.names (params ++ Stmt.declarations body) params)) hf.2
        (Layers.open_shared _) hl hr)

theorem FunDecl.codeEach : ∀ (ds : List (FunDecl NodeId)) {Γ : Layers} {around around' : Surroundings},
    Γ.Spread around around' → FunDecl.FormedEach ds →
    AllKnown U.left U.known (FunDecl.expressionsEach around ds) →
    AllKnown U.right U.known (FunDecl.expressionsEach around' ds) → BracedFuns U Γ ds ds
  | [], _, _, _, _, _, _, _ => .nil _
  | d :: ds, _, _, _, h, hf, hl, hr =>
      .cons (d.code h hf.1 hl.left hr.left) (FunDecl.codeEach ds h hf.2 hl.right hr.right)

end

variable {S : Stmt NodeId}

mutual

/-- A statement and the same with an occurrence of `S` in braces are the same code but for the braces. -/
theorem Stmt.Bracing.code (hs : S.Formed) : ∀ {s s' : Stmt NodeId}, S.Bracing s s' →
    ∀ {Γ : Layers} {around : Surroundings}, Γ.Spread around around → around.Open → s.Formed →
    (s.declared? = none ∨ Γ.Open) → AllKnown U.left U.known (s.expressions around) →
    AllKnown U.right U.known (s'.expressions around) → BracedStmt U Γ s s'
  | _, _, .here hd, Γ, around, h, ha, _, _, hl, hr => by
      have hnone : Stmt.declarations [S] = [] := by rw [Stmt.declarations_cons, hd]; rfl
      rw [Stmt.expressions, hnone, Stmt.expressionsAll, Stmt.expressionsAll, List.append_nil] at hr
      exact .braced (S.code (h.extra ha) hs (.inl hd) hl hr)
  | .block body, _, .block h, Γ, around, hΓ, _, hf, _, hl, hr => by
      rw [Stmt.expressions, h.declarations] at hr
      exact .same (.block (h.code hs (hΓ.shared (.names (Stmt.declarations body) [])) trivial hf
        (Layers.open_shared Γ) hl hr))
  | _, _, .yes c none h, _, _, hΓ, ha, hf, _, hl, hr =>
      .same (.ite (hl.fits hΓ hr) (h.code hs hΓ ha hf.2.1 (.inl hf.2.2) hl.tail hr.tail))
  | _, _, .yes c (some no) h, _, _, hΓ, ha, hf, _, hl, hr =>
      .same (.iteElse (hl.fits hΓ hr) (h.code hs hΓ ha hf.2.1.1 (.inl hf.2.1.2) hl.tail.left hr.tail.left)
        (.same (no.code hΓ hf.2.2.1 (.inl hf.2.2.2) hl.tail.right hr.tail.right)))
  | _, _, .no c yes h, _, _, hΓ, ha, hf, _, hl, hr =>
      .same (.iteElse (hl.fits hΓ hr) (.same (yes.code hΓ hf.2.1.1 (.inl hf.2.1.2) hl.tail.left hr.tail.left))
        (h.code hs hΓ ha hf.2.2.1 (.inl hf.2.2.2) hl.tail.right hr.tail.right))
  | _, _, .while c h, _, _, hΓ, ha, hf, _, hl, hr =>
      .same (.while (hl.fits hΓ hr) (h.code hs hΓ ha hf.2.1 (.inl hf.2.2) hl.tail hr.tail))
  | .function decl, _, .function h, Γ, around, hΓ, _, hf, hd, hl, hr => by
      have ho := hd.resolve_left (Option.some_ne_none decl.name)
      rw [Stmt.expressions, h.name_eq] at hr
      exact .same (.function ho (h.code hs (hΓ.declare ho decl.name) hf.2 hl hr))
  | _, _, .cls t none h, Γ, around, hΓ, _, hf, hd, hl, hr => by
      have ho := hd.resolve_left (Option.some_ne_none t)
      exact .same (.base ho (h.code hs ((hΓ.declare ho t).shared .this) hf.2.2 hl hr))
  | _, _, .cls t (some r) h, Γ, around, hΓ, _, hf, hd, hl, hr => by
      have ho := hd.resolve_left (Option.some_ne_none t)
      exact .same (.derived ho (hl.fits hΓ hr (.read, r) List.mem_cons_self)
        (h.code hs (((hΓ.declare ho t).shared .super).shared .this) hf.2.2 hl.tail hr.tail))

theorem Stmt.BracingAll.code (hs : S.Formed) : ∀ {body body' : List (Stmt NodeId)}, S.BracingAll body body' →
    ∀ {Γ : Layers} {around : Surroundings}, Γ.Spread around around → around.Open → Stmt.FormedAll body →
    Γ.Open → AllKnown U.left U.known (Stmt.expressionsAll around body) →
    AllKnown U.right U.known (Stmt.expressionsAll around body') → BracedStmts U Γ body body'
  | _, _, .head rest h, _, around, hΓ, ha, hf, ho, hl, hr => by
      rw [Stmt.expressionsAll, Stmt.after, h.declared?] at hr
      exact .cons (h.code hs hΓ ha hf.1 (.inr ho) hl.left hr.left)
        (Stmt.codeAll rest (hΓ.after (.inr ho)) hf.2 ho hl.right hr.right)
  | _, _, .tail s h, _, around, hΓ, ha, hf, ho, hl, hr =>
      .cons (.same (s.code hΓ hf.1 (.inr ho) hl.left hr.left))
        (h.code hs (hΓ.after (.inr ho)) (ha.declare? _) hf.2 ho hl.right hr.right)

theorem FunDecl.Bracing.code (hs : S.Formed) : ∀ {d d' : FunDecl NodeId}, FunDecl.Bracing S d d' →
    ∀ {Γ : Layers} {around : Surroundings}, Γ.Spread around around → d.Formed →
    AllKnown U.left U.known (d.expressions around) → AllKnown U.right U.known (d'.expressions around) →
    BracedFun U Γ d d'
  | .mk _ _ body, _, .mk t params h, Γ, around, hΓ, hf, hl, hr => by
      rw [FunDecl.expressions, h.declarations] at hr
      exact .mk t params (h.code hs (hΓ.shared (.names (params ++ Stmt.declarations body) params)) trivial hf.2
        (Layers.open_shared Γ) hl hr)

theorem FunDecl.BracingEach.code (hs : S.Formed) : ∀ {ds ds' : List (FunDecl NodeId)},
    FunDecl.BracingEach S ds ds' →
    ∀ {Γ : Layers} {around : Surroundings}, Γ.Spread around around → FunDecl.FormedEach ds →
    AllKnown U.left U.known (FunDecl.expressionsEach around ds) →
    AllKnown U.right U.known (FunDecl.expressionsEach around ds') → BracedFuns U Γ ds ds'
  | _, _, .head rest h, _, _, hΓ, hf, hl, hr =>
      .cons (h.code hs hΓ hf.1 hl.left hr.left) (FunDecl.codeEach rest hΓ hf.2 hl.right hr.right)
  | _, _, .tail d h, _, _, hΓ, hf, hl, hr =>
      .cons (d.code hΓ hf.1 hl.left hr.left) (h.code hs hΓ hf.2 hl.right hr.right)

end

end code

end Lox
