import Lox.Proofs.Closing
import Lox.Proofs.Embracing
import Lox.Proofs.ForLoops
import Lox.Proofs.Ladder

/-! # Loops keep their meaning

In an accepted program the tree of a `for` statement does what the statement means (`ForLoop.equivalent`), wherever it
stands in the text (`Occurrence.loop_faithful`).

The distances of the loop are resolved in the scopes that it has by its meaning, those of the tree in the scopes that
the tree has.  What keeps the rules in the tree keeps them in the loop (`ForLoop.learnable`): of the scopes around a
place, the rules look only at those of classes.  So a copy of the loop can be put beside a copy of the tree, with the
layers of which `ForLoop.layers` tells.  Without a first clause each of the two has a scope that the other has not, and
both are compared with the turns alone. -/

namespace Lox

open Lox.Action

/-! ### What obeys the rules in other scopes -/

theorem AllAllowed.append {xs ys : List Placed} (h : AllAllowed xs) (h' : AllAllowed ys) : AllAllowed (xs ++ ys) := by
  rw [AllAllowed, List.flatMap_append]
  exact List.forall_mem_append.mpr ⟨h, h'⟩

theorem Placed.InBraces.allowed_iff {n : Nat} {x x' : Placed} (h : x.InBraces n x') :
    (∀ u ∈ x'.uses, u.Allowed) ↔ ∀ u ∈ x.uses, u.Allowed := by
  obtain ⟨around, i, e⟩ := x
  obtain ⟨around', i', e'⟩ := x'
  obtain ⟨he, hi, k, hp, -⟩ := h
  dsimp only at he hi hp
  subst he hi
  unfold Placed.uses usesAt
  rw [List.forall_mem_map, List.forall_mem_map]
  refine forall₂_congr fun r _ => ?_
  unfold Use.Allowed Use.isOwn
  dsimp only
  rw [hp.spread.inClass]

theorem allAllowed_inBraces {n : Nat} {xs xs' : List Placed} (h : List.Forall₂ (Placed.InBraces n) xs xs') :
    AllAllowed xs' ↔ AllAllowed xs := by
  induction h with
  | nil => rfl
  | cons hx _ ih =>
      unfold AllAllowed at ih ⊢
      rw [List.flatMap_cons, List.flatMap_cons, List.forall_mem_append, List.forall_mem_append]
      exact and_congr hx.allowed_iff ih

/-- Where statements may stand, there is room for none. -/
theorem Surroundings.Open.hasRoom_nil {around : Surroundings} (h : around.Open) : around.HasRoom [] := by
  cases around with
  | nil => exact fun _ ht => absurd ht List.not_mem_nil
  | cons level outer =>
      cases level with
      | names all before => exact fun _ ht => absurd ht List.not_mem_nil
      | _ => exact h.elim

/-- Whatever statement obeys the rules in some scopes obeys them in others. -/
def Surroundings.Suits (around around' : Surroundings) : Prop :=
  ∀ s : Stmt NodeId, s.Formed → s.declared? = none → AllAllowed (s.expressions around) →
    AllAllowed (s.expressions around')

namespace Surroundings.Suits

variable {around around' around'' : Surroundings}

theorem refl (around : Surroundings) : around.Suits around := fun _ _ _ => id

theorem trans (h : around.Suits around') (h' : around'.Suits around'') : around.Suits around'' :=
  fun s hf hd ha => h' s hf hd (h s hf hd ha)

theorem intoBraces (ho : around.Open) : around.Suits (.names [] [] :: around) := fun s hf hd =>
  (allAllowed_inBraces (s.expressions_inBraces (.here ho) hf (.inl hd))).mpr

theorem outOfBraces (ho : around.Open) : Surroundings.Suits (.names [] [] :: around) around := fun s hf hd =>
  (allAllowed_inBraces (s.expressions_inBraces (.here ho) hf (.inl hd))).mp

/-- The same for an expression. -/
theorem expr? (h : around.Suits around') {e : Option (Expr NodeId)} (he : ∀ x ∈ e, x.Spelled)
    (ha : AllAllowed (e.toList.map (⟨around, none, ·⟩))) : AllAllowed (e.toList.map (⟨around', none, ·⟩)) := by
  cases e with
  | none => exact ha
  | some x => exact h (.expression x) (he x rfl) rfl ha

end Surroundings.Suits

/-! ### Places inside a statement -/

theorem Surroundings.suffix_declare {around outer : Surroundings} {t : Lexeme}
    (h : some t = none ∨ outer <:+ around.tail) : outer <:+ around.declare t := by
  have htail : outer <:+ (around.declare? (some t)).tail := by
    rw [around.tail_declare?]
    exact h.resolve_left (Option.some_ne_none t)
  exact htail.trans (List.tail_suffix _)

mutual

/-- The expressions of a statement stand inside the scopes around it; a declaration changes the innermost of these. -/
theorem Stmt.expressions_suffix : ∀ (s : Stmt NodeId) {outer around : Surroundings}, s.Formed → outer <:+ around →
    (s.declared? = none ∨ outer <:+ around.tail) → ∀ x ∈ s.expressions around, outer <:+ x.around
  | .expression _, _, _, _, h, _ => List.forall_mem_singleton.mpr h
  | .print _, _, _, _, h, _ => List.forall_mem_singleton.mpr h
  | .var _ _, _, _, _, h, _ => List.forall_mem_map.mpr fun _ _ => h
  | .block body, _, _, hf, h, _ => Stmt.expressionsAll_suffix body hf h
  | .ite _ yes none, _, _, hf, h, _ =>
      List.forall_mem_cons.mpr ⟨h, yes.expressions_suffix hf.2.1 h (.inl hf.2.2)⟩
  | .ite _ yes (some no), _, _, hf, h, _ =>
      List.forall_mem_cons.mpr ⟨h, List.forall_mem_append.mpr ⟨yes.expressions_suffix hf.2.1.1 h (.inl hf.2.1.2),
        no.expressions_suffix hf.2.2.1 h (.inl hf.2.2.2)⟩⟩
  | .while _ body, _, _, hf, h, _ =>
      List.forall_mem_cons.mpr ⟨h, body.expressions_suffix hf.2.1 h (.inl hf.2.2)⟩
  | .function decl, _, _, hf, _, hd => decl.expressions_suffix hf.2 (Surroundings.suffix_declare hd)
  | .ret _ _, _, _, _, h, _ => List.forall_mem_map.mpr fun _ _ => h
  | .cls _ none methods, _, _, hf, _, hd =>
      FunDecl.expressionsEach_suffix methods hf.2.2 ((Surroundings.suffix_declare hd).trans (List.suffix_cons _ _))
  | .cls _ (some _) methods, _, _, hf, h, hd =>
      List.forall_mem_cons.mpr ⟨h, FunDecl.expressionsEach_suffix methods hf.2.2
        (((Surroundings.suffix_declare hd).trans (List.suffix_cons _ _)).trans (List.suffix_cons _ _))⟩

theorem Stmt.expressionsAll_suffix : ∀ (body : List (Stmt NodeId)) {outer around : Surroundings},
    Stmt.FormedAll body → outer <:+ around.tail → ∀ x ∈ Stmt.expressionsAll around body, outer <:+ x.around
  | [], _, _, _, _ => nofun
  | s :: body, _, around, hf, h =>
      List.forall_mem_append.mpr ⟨s.expressions_suffix hf.1 (h.trans (List.tail_suffix around)) (.inr h),
        Stmt.expressionsAll_suffix body hf.2 (around.tail_declare? s.declared? ▸ h)⟩

theorem FunDecl.expressions_suffix : ∀ (d : FunDecl NodeId) {outer around : Surroundings}, d.Formed →
    outer <:+ around → ∀ x ∈ d.expressions around, outer <:+ x.around
  | .mk _ _ body, _, _, hf, h => Stmt.expressionsAll_suffix body hf.2 h

theorem FunDecl.expressionsEach_suffix : ∀ (ds : List (FunDecl NodeId)) {outer around : Surroundings},
    FunDecl.FormedEach ds → outer <:+ around → ∀ x ∈ FunDecl.expressionsEach around ds, outer <:+ x.around
  | [], _, _, _, _ => nofun
  | d :: ds, _, _, hf, h =>
      List.forall_mem_append.mpr ⟨d.expressions_suffix hf.1 h, FunDecl.expressionsEach_suffix ds hf.2 h⟩

end

/-- A name that inner scopes do not declare is found as far beyond them as it is without them. -/
theorem Surroundings.distance?_append {inner : Surroundings} {n : String} (h : inner.distance? n = none)
    (outer : Surroundings) :
    Surroundings.distance? (inner ++ outer) n = (outer.distance? n).map (· + inner.length) := by
  unfold Surroundings.distance? at h ⊢
  rw [List.findIdx?_append, h, Option.none_or]

namespace ForLoop

variable {l : ForLoop NodeId} {outer : Surroundings}

/-! ### Scopes -/

section scopes

variable (l outer)

/-- After the first clause its scope has all its names. -/
theorem header_eq : l.header outer =
    .names (Stmt.declarations l.start.toList) (Stmt.declarations l.start.toList) :: outer := by
  unfold header scope
  cases l.start with
  | none => rfl
  | some s =>
      change Surroundings.declare? (.names _ []  :: outer) s.declared? = _
      rw [Option.toList_some, Stmt.declarations_cons]
      cases s.declared? <;> rfl

theorem header_open : (l.header outer).Open := by
  rw [header_eq]
  trivial

variable {outer}

theorem base_open (ho : outer.Open) : (l.base outer).Open := by
  unfold base
  split
  · exact l.header_open outer
  · exact ho

theorem base_suits (ho : outer.Open) : (l.base outer).Suits (l.header outer) := by
  unfold base header scope
  cases l.start with
  | none => exact .intoBraces ho
  | some s => exact .refl _

theorem inside_suits (ho : outer.Open) : (l.inside outer).Suits outer := by
  unfold inside
  cases l.step with
  | none => exact .refl _
  | some e => exact .outOfBraces ho

variable {l}

/-- Names that the first clause declares are found in the scope of the loop. -/
theorem distance?_base {t : Lexeme} (ht : t ∈ Stmt.declarations l.start.toList) (outer : Surroundings) :
    (l.base outer).distance? t.text = some 0 := by
  have hbase : l.base outer = l.header outer := by
    rw [base]
    cases hs : l.start with
    | some s => rfl
    | none =>
        rw [hs] at ht
        exact absurd ht List.not_mem_nil
  rw [hbase, header_eq, Surroundings.distance?, List.findIdx?_cons, if_pos]
  exact List.any_eq_true.mpr ⟨t, ht, beq_self_eq_true _⟩

/-- From the scope that there is because of a step, names are found one scope further out. -/
theorem distance?_inside (ho : outer.Open) {e : Expr NodeId} (he : l.step = some e) (n : String) :
    (l.inside outer).distance? n = (outer.distance? n).map (· + 1) := by
  have hinside : l.inside outer = .names [] [] :: outer := by rw [inside, he]
  have hspread : Layers.Spread [.extra] outer (l.inside outer) := hinside ▸ .extra (.nil _) ho
  exact hspread.distance? n

end scopes

/-! ### Well-formed loops -/

/-- The parts of a loop are formed, and its body declares nothing. -/
structure Formed (l : ForLoop NodeId) : Prop where
  start : Stmt.FormedAll l.start.toList
  condition : ∀ e ∈ l.condition, e.Spelled
  step : ∀ e ∈ l.step, e.Spelled
  body : l.body.Formed
  declared : l.body.declared? = none

theorem formed_lowered {i : NodeId} (h : (l.lowered i).Formed) :
    Stmt.FormedAll l.start.toList ∧ (l.rounds i).Formed := by
  unfold lowered at h
  cases hs : l.start with
  | none =>
      rw [hs] at h
      exact ⟨trivial, h⟩
  | some s =>
      rw [hs] at h
      exact ⟨⟨h.1, trivial⟩, h.2.1⟩

theorem Formed.of_lowered {i : NodeId} (h : (l.lowered i).Formed) (hd : l.body.declared? = none) : l.Formed := by
  obtain ⟨hstart, htest, hround, -⟩ := formed_lowered h
  obtain ⟨hbody, hstep⟩ : l.body.Formed ∧ ∀ e ∈ l.step, e.Spelled := by
    unfold round at hround
    cases hs : l.step with
    | none =>
        rw [hs] at hround
        exact ⟨hround, nofun⟩
    | some e =>
        rw [hs] at hround
        refine ⟨hround.1, ?_⟩
        rintro _ ⟨⟩
        exact hround.2.1
  refine ⟨hstart, fun e he => ?_, hstep, hbody, hd⟩
  rwa [test, Option.mem_def.mp he] at htest

namespace Formed

theorem repeated (h : l.Formed) : Stmt.FormedAll l.repeated := by
  have hone {e : Option (Expr NodeId)} (he : ∀ x ∈ e, x.Spelled) : Stmt.FormedAll (e.toList.map .expression) := by
    cases e with
    | none => trivial
    | some x => exact ⟨he x rfl, trivial⟩
  exact Stmt.formedAll_append (hone h.condition) (Stmt.formedAll_append (hone h.step) ⟨h.body, trivial⟩)

theorem parts (h : l.Formed) : Stmt.FormedAll l.parts := Stmt.formedAll_append h.start h.repeated

/-- What the rules allow in the clauses they allow in other scopes. -/
theorem allowed (h : l.Formed) {a a' b b' : Surroundings} (ha : a.Suits a') (hb : b.Suits b')
    (hx : AllAllowed (l.clauses a b)) : AllAllowed (l.clauses a' b') :=
  (ha.expr? h.condition hx.left).append
    ((hb.expr? h.step hx.right.left).append (hb l.body h.body h.declared hx.right.right))

end Formed

/-! ### Places in the tree and in the loop -/

section places

theorem clauses_ids (a b a' b' : Surroundings) : ((l.clauses a b).flatMap Placed.uses).map (·.ref.id) =
    ((l.clauses a' b').flatMap Placed.uses).map (·.ref.id) := by
  have hone (e : Option (Expr NodeId)) (a a' : Surroundings) :
      placedIds (e.toList.map (⟨a, none, ·⟩)) = placedIds (e.toList.map (⟨a', none, ·⟩)) := by
    cases e <;> rfl
  have hbody : placedIds (l.body.expressions b) = placedIds (l.body.expressions b') :=
    (l.body.siteIds_sites [] b).symm.trans (l.body.siteIds_sites [] b')
  have hall : placedIds (l.clauses a b) = placedIds (l.clauses a' b') := by
    simp only [clauses, placedIds_append, hbody, hone l.condition a a', hone l.step b b']
  rwa [placed_ids, placed_ids]

/-- The uses in the rounds of the tree are those in the clauses of the loop, the step in an extra scope. -/
theorem rounds_uses (hd : l.body.declared? = none) (i : NodeId) (around : Surroundings) :
    (((l.rounds i).expressions around).flatMap Placed.uses).Perm
      ((l.clauses around (l.inside around)).flatMap Placed.uses) := by
  have htest : (Placed.mk around none (l.test i)).uses =
      (l.condition.toList.map (⟨around, none, ·⟩)).flatMap Placed.uses := by
    unfold test
    cases l.condition with
    | none => rfl
    | some e => exact (List.append_nil _).symm
  rw [rounds, Stmt.expressions, List.flatMap_cons, htest, l.round_expressions hd, clauses]
  simp only [List.flatMap_append]
  exact List.perm_append_comm.append_left _

variable {first last i : NodeId}

/-- In the scopes around the rounds, the clauses keep the rules that the rounds keep. -/
theorem learnable_clauses (h : l.Formed) {around : Surroundings} (ho : around.Open)
    (hx : Learnable first last ((l.rounds i).expressions around)) : Learnable first last (l.clauses around around) where
  ids := by
    have hids := hx.ids.perm ((rounds_uses h.declared i around).map _)
    rwa [clauses_ids _ _ around around] at hids
  sound := by
    rw [← repeated_expressions]
    refine Stmt.expressionsAll_sound l.repeated h.repeated (hx.sound _ List.mem_cons_self).around ?_
    rw [l.declarations_repeated h.declared]
    exact ho.hasRoom_nil
  allowed := by
    refine h.allowed (.refl around) (l.inside_suits ho) fun u hu => ?_
    exact hx.allowed u ((rounds_uses h.declared i around).mem_iff.mpr hu)

/-- A loop keeps the rules, in the scopes around it, that its tree keeps. -/
theorem learnable (h : l.Formed) (ho : outer.Open) (hx : Learnable first last ((l.lowered i).expressions outer)) :
    Learnable first last (l.expressions outer) := by
  rw [lowered_expressions] at hx
  have hrounds := rounds_uses h.declared i (l.base outer)
  have hsound : (l.base outer).Sound := (hx.sound _ (List.mem_append_right _ List.mem_cons_self)).around
  have houter : outer.Sound := by
    unfold base at hsound
    split at hsound
    · rw [header_eq] at hsound
      exact fun e he => hsound e (List.mem_cons_of_mem _ he)
    · exact hsound
  refine ⟨?_, Stmt.expressions_sound (.block l.parts) h.parts houter ho.hasRoom_nil, ?_⟩
  · have hids := hx.ids
    rw [List.flatMap_append, List.map_append] at hids
    have hids := hids.perm ((hrounds.map _).append_left _)
    rwa [clauses_ids _ _ (l.header outer) (l.header outer), ← List.map_append, ← List.flatMap_append,
      ← l.expressions_eq h.declared] at hids
  · rw [l.expressions_eq h.declared]
    have hallowed : AllAllowed _ := hx.allowed
    refine hallowed.left.append (h.allowed (l.base_suits ho) ((l.inside_suits (l.base_open ho)).trans (l.base_suits ho))
      fun u hu => ?_)
    exact hallowed.right u (hrounds.mem_iff.mpr hu)

end places

/-! ### Copies of loops -/

section copies

variable (f : NodeId → NodeId)

theorem clauses_map (a b : Surroundings) : (l.map f id).clauses a b = (l.clauses a b).map (Placed.map f id) := by
  have hone (e : Option (Expr NodeId)) (a : Surroundings) : (e.map (·.map f id)).toList.map (⟨a, none, ·⟩) =
      (e.toList.map (⟨a, none, ·⟩)).map (Placed.map f id) := by
    cases e with
    | none => rfl
    | some x => simp [Placed.map, Surroundings.mapNames_id]
  simp only [clauses, map, List.map_append, hone, Stmt.expressions_renumber]

theorem expressions_map (outer : Surroundings) :
    (l.map f id).expressions outer = (l.expressions outer).map (Placed.map f id) := by
  have hparts : (l.map f id).parts = Stmt.mapAll f id l.parts := by
    obtain ⟨start, condition, step, body⟩ := l
    cases start <;> cases condition <;> cases step <;> rfl
  rw [expressions, expressions, hparts, ← Stmt.expressions_renumber]
  rfl

theorem distances_map (outer : Surroundings) : (l.map f id).distances outer = (l.distances outer).relabel f := by
  rw [distances, expressions_map, distancesOf_renumber]
  rfl

theorem Formed.map (h : l.Formed) {i : NodeId} (hf : (l.lowered i).Formed) : (l.map f id).Formed := by
  refine .of_lowered (i := f i) ?_ ?_
  · rw [← lowered_map]
    exact (Stmt.formed_map f keepsWords_id _).mpr hf
  · exact (Stmt.declared?_map f id l.body).trans (congrArg _ h.declared)

end copies

/-! ### The tree does what the loop means -/

section fits

variable {U : Tables} {Γ Γ' : Layers}

/-- Clauses whose uses are known in the loop and in the tree fit the layers around them. -/
theorem Formed.fits (h : l.Formed) {a a' b b' : Surroundings} (hl : AllKnown U.left U.known (l.clauses a b))
    (hr : AllKnown U.right U.known (l.clauses a' b')) (hΓ : Γ.Spread a a') (hΓ' : Γ'.Spread b b') :
    l.Fits U Γ Γ' where
  condition := AllKnown.fits? hΓ hl.left hr.left
  step := AllKnown.fits? hΓ' hl.right.left hr.right.left
  body := l.body.code hΓ' h.body (.inl h.declared) hl.right.right hr.right.right

theorem layers_spread {a a' : Surroundings} (h : Γ.Spread a a') (ho : a.Open) :
    (l.layers Γ).Spread a (l.inside a') := by
  unfold layers inside
  cases l.step with
  | none => exact h
  | some e => exact .extra h ho

/-- What is known of the rounds is known of the clauses. -/
theorem known_clauses {T : Std.HashMap NodeId Nat} {bound i : NodeId} {around : Surroundings}
    (hd : l.body.declared? = none) (h : AllKnown T bound ((l.rounds i).expressions around)) :
    AllKnown T bound (l.clauses around (l.inside around)) := by
  intro x hx u hu
  have hm := (rounds_uses hd i around).mem_iff.mpr (List.mem_flatMap.mpr ⟨x, hx, hu⟩)
  obtain ⟨y, hy, hu⟩ := List.mem_flatMap.mp hm
  exact h y hy u hu

variable {i : NodeId} (h : l.Formed)

include h

/-- A loop with a first clause and its tree fit the scope that both have. -/
theorem Formed.fits_lowered {s : Stmt NodeId} (hs : l.start = some s)
    (hl : AllKnown U.left U.known (l.expressions outer))
    (hr : AllKnown U.right U.known ((l.lowered i).expressions outer)) :
    BracedNode U [.shared] s s ∧ l.Fits U [.shared] (l.layers [.shared]) := by
  have hstart := h.start
  have hbase : l.base outer = l.header outer := by rw [base, hs]
  rw [l.expressions_eq h.declared] at hl
  rw [lowered_expressions, hbase] at hr
  have hheader : Layers.Spread [.shared] (l.header outer) (l.header outer) := l.header_eq outer ▸ .shared _ (.nil outer)
  have hlayers := l.layers_spread hheader (l.header_open outer)
  refine ⟨?_, h.fits hl.right (known_clauses h.declared hr.right) hheader hlayers⟩
  have hl := hl.left
  have hr := hr.left
  rw [hs] at hstart hl hr
  exact s.code (.shared _ (.nil outer)) hstart.1 (.inr (Layers.open_shared [])) hl.left hr.left

/-- The clauses of a loop without a first clause fit the rounds of its tree. -/
theorem Formed.fits_rounds (ho : outer.Open) (hl : AllKnown U.left U.known (l.clauses outer outer))
    (hr : AllKnown U.right U.known ((l.rounds i).expressions outer)) : l.Fits U [] (l.layers []) :=
  h.fits hl (known_clauses h.declared hr) (.nil outer) (l.layers_spread (.nil outer) ho)

/-- The clauses of a loop without a first clause fit the loop, which has a scope more. -/
theorem Formed.fits_run (hs : l.start = none) (ho : outer.Open) (hl : AllKnown U.left U.known (l.clauses outer outer))
    (hr : AllKnown U.right U.known (l.expressions outer)) : l.Fits U [.extra] [.extra] := by
  have hheader : l.header outer = .names [] [] :: outer := by rw [header_eq, hs]; rfl
  have hextra : Layers.Spread [.extra] outer (l.header outer) := hheader ▸ .extra (.nil outer) ho
  rw [l.expressions_eq h.declared] at hr
  exact h.fits hl hr.right hextra hextra

end fits

/-! ### Runs -/

section runs

variable {S : Settings} (hS : S.lookup = .byDistance) {m : Machine} {first last next i : NodeId} (hm : m.Closed next)
  (h : l.Formed) (hf : (l.lowered i).Formed) (ho : outer.Open)
  (hx : Learnable first last ((l.lowered i).expressions outer))
  (hT : AllKnown m.distances last ((l.lowered i).expressions outer))

include hS hm h hf ho hx hT

/-- The tree of a loop does what the loop means. -/
theorem equivalent : Equivalent (Mirrored S next m.heap.frames.size)
    (fun f => (l.map (· + next) id).run S f (Session.learn m ((l.map (· + next) id).distances outer)))
    fun g => exec S g (l.lowered i) m := by
  refine hm.original ?_
  rw [distances_map, lowered_map]
  have ha : Aligned (List.range m.heap.frames.size) [] m.env m.env := .itself hm.env
  -- what is known of the copies of the loop and of its tree
  have hk : (l.map (· + next) id).Formed := h.map _ hf
  have hl := hm.known_copy ((learnable h ho hx).known fun _ _ => Std.HashMap.getElem?_empty)
  have hr : AllKnown (m.withCopies next m.distances.toList).distances _ _ :=
    hm.known_copy (hT.congr (getElem?_insertMany_toList _))
  rw [← expressions_map] at hl
  rw [← Stmt.expressions_renumber, lowered_map] at hr
  cases hs : l.start with
  | some s =>
      have hs' : (l.map (· + next) id).start = some (s.map (· + next) id) := by rw [map, hs]; rfl
      obtain ⟨hstart, hfits⟩ := hk.fits_lowered (U := .copies m.distances next last _ _) hs' hl hr
      exact hm.equivalent hS fun hg : Spare _ _ 4 _ _ => lowered_together hS hg hs' hstart hfits ha (i + next)
  | none =>
      have hs' : (l.map (· + next) id).start = none := by rw [map, hs]; rfl
      have hrounds : (l.lowered i).expressions outer = (l.rounds i).expressions outer := by rw [lowered, hs]
      have hcopy : ((l.map (· + next) id).lowered (i + next)) = (l.map (· + next) id).rounds (i + next) := by
        rw [lowered, hs']
      rw [hrounds] at hx
      rw [hcopy] at hr ⊢
      -- the turns alone, which both the loop and its tree are compared with
      have hc := hm.known_copy ((learnable_clauses h ho hx).known fun _ _ => Std.HashMap.getElem?_empty)
      rw [← clauses_map] at hc
      have hfits := hk.fits_rounds (U := .copies m.distances next last _ _) ho hc hr
      have hfits' := hk.fits_run (U := .copies m.distances next last _ _) hs' ho hc hl
      have htree := hm.equivalent hS fun hg : Spare _ _ 3 _ _ => rounds_together hS hg hfits ha (i + next)
      have hloop := hm.equivalent hS fun hg : Spare _ _ 0 _ _ => run_together hS hg hs' hfits' ha
      exact (hloop.symm fun _ _ => Mirrored.symm).trans htree fun _ _ _ => Mirrored.trans

end runs

end ForLoop

/-! ### Loops in programs -/

/-- What resolution has found out about a program, as a table. -/
def Program.table (p : Program) : Std.HashMap NodeId Nat := (∅ : Std.HashMap NodeId Nat).insertMany p.distances

/-- A statement of a program, in the scopes around it: the program could have braces there. -/
structure Program.Has (p : Program) (s : Stmt NodeId) (outer : Surroundings) : Prop where
  occurs : ∃ body, s.BracingAll p.statements body
  expressions : ∃ before after, Stmt.expressionsAll [] p.statements = before ++ (s.expressions outer ++ after)
  isOpen : outer.Open

/-- A machine knows the distances of a program, whose nodes have the numbers from `first` up to `last`. -/
def Machine.Knows (m : Machine) (p : Program) (first last : NodeId) : Prop :=
  ∀ i, first ≤ i → i < last → m.distances[i]? = p.table[i]?

/-- What is true of a loop in an accepted program, as the program has it. -/
structure ForLoop.Faithful (S : Settings) (p : Program) (first last : NodeId) (outer : Surroundings) (i : NodeId)
    (l : ForLoop NodeId) : Prop where
  /-- The tree of the loop stands in the program. -/
  has : p.Has (l.lowered i) outer
  /-- Names that the first clause declares are found in the scope of the loop. -/
  own : ∀ t ∈ Stmt.declarations l.start.toList, (l.base outer).distance? t.text = some 0
  /-- All rounds stand inside this one scope, and so do the functions in them: a name that is not declared further in
  is found from there on. -/
  shared : ∀ x ∈ (l.rounds i).expressions (l.base outer), ∃ inner : Surroundings, x.around = inner ++ l.base outer ∧
    ∀ u ∈ x.uses, u.isOwn = false → inner.distance? u.ref.name.text = none →
      p.table[u.ref.id]? = ((l.base outer).distance? u.ref.name.text).map (· + inner.length)
  /-- A name in the condition is found there whatever the body declares. -/
  condition : ∀ e ∈ l.condition, ∀ u ∈ e.references, p.table[u.2.id]? = (l.base outer).distance? u.2.name.text
  /-- So is a name in the step, which stands in one scope more. -/
  step : ∀ e ∈ l.step, ∀ u ∈ e.references,
    p.table[u.2.id]? = ((l.base outer).distance? u.2.name.text).map (· + 1)
  /-- The scopes after the loop are those before it. -/
  after : (l.lowered i).after outer = outer
  /-- The scope chain after the loop is that before it, on every exit. -/
  env : ∀ (m : Machine) (fuel : Nat), ((exec S fuel (l.lowered i)).after m).env = m.env
  /-- In every machine the tree does what the loop means, with the distances that resolution finds for the loop.  These
  are not those of the tree, so the loop is run as a copy with numbers of its own.  What a run prints that never ends
  shows in machines whose sink takes only so much. -/
  runs : ∀ (m : Machine) (next : NodeId), m.Closed next → m.Knows p first last →
    let copy := l.map (· + next) id
    Equivalent (Mirrored S next m.heap.frames.size)
      (fun f => copy.run S f (Session.learn m (copy.distances outer)))
      fun g => exec S g (l.lowered i) m

section programs

variable {first last : NodeId} {xs ys zs : List Placed}

theorem Learnable.middle (h : Learnable first last (xs ++ (ys ++ zs))) : Learnable first last ys where
  ids := by
    have hids := h.ids
    simp only [List.flatMap_append, List.map_append] at hids
    refine ⟨⟨hids.le, fun i hi => ?_⟩, ?_⟩
    · exact hids.range i (List.mem_append_right _ (List.mem_append_left _ hi))
    · exact (List.nodup_append.mp (List.nodup_append.mp hids.nodup).2.1).1
  sound x hx := h.sound x (List.mem_append_right _ (List.mem_append_left _ hx))
  allowed := (AllAllowed.right h.allowed).left

/-- What is known of code is known in a table with the same distances of its nodes. -/
theorem AllKnown.agree {T T' : Std.HashMap NodeId Nat} (h : AllKnown T last xs) (hx : Learnable first last xs)
    (hT : ∀ i, first ≤ i → i < last → T'[i]? = T[i]?) : AllKnown T' last xs := by
  intro x hxs u hu
  obtain ⟨hfirst, hlast⟩ := hx.ids.range _ (List.mem_map_of_mem (List.mem_flatMap.mpr ⟨x, hxs, hu⟩))
  exact { h x hxs u hu with entry := (hT _ hfirst hlast).trans (h x hxs u hu).entry }

theorem Learnable.faithful {S : Settings} (hS : S.lookup = .byDistance) {p : Program} {l : ForLoop NodeId}
    {outer : Surroundings} {i : NodeId} (hp : p.Has (l.lowered i) outer) (hl : l.Formed) (hf : (l.lowered i).Formed)
    (hx : Learnable first last ((l.lowered i).expressions outer))
    (hT : AllKnown p.table last ((l.lowered i).expressions outer)) : l.Faithful S p first last outer i where
  has := hp
  own _ ht := ForLoop.distance?_base ht outer
  shared x hxs := by
    rw [ForLoop.lowered_expressions] at hT
    obtain ⟨-, hrounds⟩ := ForLoop.formed_lowered hf
    obtain ⟨inner, hinner⟩ := Stmt.expressions_suffix (l.rounds i) hrounds (List.suffix_refl _) (.inl rfl) x hxs
    refine ⟨inner, hinner.symm, fun u hu ho hn => (hT.right x hxs u hu).entry.trans ?_⟩
    obtain ⟨r, -, rfl⟩ := List.mem_map.mp hu
    rw [Use.distance?, ho, if_neg Bool.false_ne_true, ← hinner]
    exact Surroundings.distance?_append hn _
  condition := by
    rw [ForLoop.lowered_expressions] at hT
    have hc := (ForLoop.known_clauses hl.declared hT.right).left
    rintro e he u hu
    exact (hc _ (List.mem_map_of_mem (Option.mem_toList.mpr he)) _ (List.mem_map_of_mem hu)).entry
  step := by
    rw [ForLoop.lowered_expressions] at hT
    have hc := (ForLoop.known_clauses hl.declared hT.right).right.left
    rintro e he u hu
    refine (hc _ (List.mem_map_of_mem (Option.mem_toList.mpr he)) _ (List.mem_map_of_mem hu)).entry.trans ?_
    exact ForLoop.distance?_inside (l.base_open hp.isOpen) he u.2.name.text
  after := by rw [Stmt.after, ForLoop.declared?_lowered]; rfl
  env m fuel := ((restores S fuel).2 (l.lowered i) m).env
  runs m next hm hknows := ForLoop.equivalent hS hm hl hf hp.isOpen hx (hT.agree hx hknows)

end programs

/-- Loops keep their meaning.  Wherever a statement of an accepted text starts with `for`, with whichever clauses, the
program has its tree there.  In every machine that knows the distances of the program, the tree comes to the same end
as the loop itself, which has one scope for all its turns, and to a machine that nothing tells apart; the condition and
the step name nothing that the body declares, and nothing of the loop is in scope after it. -/
theorem Occurrence.loop_faithful {S : Settings} (hS : S.lookup = .byDistance) {source : String} {first last : NodeId}
    {p : Program} (ha : analyze first source = .ok (p, last)) (o : Occurrence source)
    (hfor : ∀ t ∈ (tokensFrom (endLine 1 o.before) o.own).head?, t.kind = .keyword .for_) :
    ∃ (l : ForLoop Unit) (d : ForLoop NodeId) (i : NodeId) (outer : Surroundings),
      ForText o.dangling (tokensFrom (endLine 1 o.before) o.own) l ∧ o.statement = l.lowered () ∧
        d.map unnumbered id = l ∧ d.Faithful S p first last outer i := by
  obtain ⟨l, htext, hl⟩ := o.text.forText hfor
  obtain ⟨body, hreads, hnum, hacc⟩ := analyze_ok ha
  obtain rfl := o.body_eq hreads
  obtain ⟨k, hb, -⟩ := (o.context.bracing o.text.declared?).number first
  rw [hnum, hl, ForLoop.lowered_number] at hb
  have hmap := l.map_number k
  generalize (l.number k).1 = d at hb hmap
  generalize (l.number k).2 = i at hb
  -- the loop is formed, as the statement in the text is
  have hf : (d.lowered i).Formed := by
    rw [← Stmt.formed_map unnumbered keepsWords_id, ForLoop.lowered_map, hmap]
    exact hl ▸ o.formed
  have hd : d.body.declared? = none := by
    have hbody := htext.body_declares
    rw [← hmap] at hbody
    exact Option.map_eq_none_iff.mp ((Stmt.declared?_map unnumbered id d.body).symm.trans hbody)
  -- what resolution knows of its expressions
  obtain ⟨outer, before, after, ho, hx, -⟩ := @Stmt.BracingAll.expressions _ _ _ hb [] trivial
  have hlearn := (Program.fits_of_analyze ha).learnable
  have hknown : AllKnown p.table last (Stmt.expressionsAll [] p.statements) := by
    rw [Program.table, hacc.distances]
    exact hlearn.known fun _ _ => Std.HashMap.getElem?_empty
  rw [hx] at hlearn hknown
  refine ⟨l, d, i, outer, htext, hl, hmap, ?_⟩
  exact hlearn.middle.faithful hS ⟨⟨_, hb⟩, ⟨before, after, hx⟩, ho⟩ (.of_lowered hf hd) hf hknown.right.left

/-- A loop of one turn. -/
def singleTurn : Occurrence "for (var i = nil; !i; i = true) print i;" where
  before := []
  own := [⟨['f', 'o', 'r'], .token (.keyword .for_)⟩, ⟨[' '], .trivia⟩, ⟨['('], .token .leftParen⟩,
    ⟨['v', 'a', 'r'], .token (.keyword .var)⟩, ⟨[' '], .trivia⟩, ⟨['i'], .token .identifier⟩, ⟨[' '], .trivia⟩,
    ⟨['='], .token .equal⟩, ⟨[' '], .trivia⟩, ⟨['n', 'i', 'l'], .token (.keyword .nil)⟩, ⟨[';'], .token .semicolon⟩,
    ⟨[' '], .trivia⟩, ⟨['!'], .token .bang⟩, ⟨['i'], .token .identifier⟩, ⟨[';'], .token .semicolon⟩,
    ⟨[' '], .trivia⟩, ⟨['i'], .token .identifier⟩, ⟨[' '], .trivia⟩, ⟨['='], .token .equal⟩, ⟨[' '], .trivia⟩,
    ⟨['t', 'r', 'u', 'e'], .token (.keyword .true)⟩, ⟨[')'], .token .rightParen⟩, ⟨[' '], .trivia⟩,
    ⟨['p', 'r', 'i', 'n', 't'], .token (.keyword .print)⟩, ⟨[' '], .trivia⟩, ⟨['i'], .token .identifier⟩,
    ⟨[';'], .token .semicolon⟩]
  after := []
  cut := by cbv
  starts := by simp
  ends := by simp
  dangling := false
  statement := .block [.var ⟨"i", 1⟩ (some (.literal () .nil)),
    .while (.unary () .not ⟨"!", 1⟩ (.name ⟨(), ⟨"i", 1⟩⟩))
      (.block [.print (.name ⟨(), ⟨"i", 1⟩⟩), .expression (.assign ⟨(), ⟨"i", 1⟩⟩ (.literal () (.bool true)))])]
  trees s := [s]
  text :=
    have hname (g : Grade) : ExprText g [⟨⟨"i", 1⟩, .identifier⟩] (.name ⟨(), ⟨"i", 1⟩⟩) :=
      .looser (.name rfl) (by cases g <;> decide)
    have hnil : ExprText .assignment [⟨⟨"nil", 1⟩, .keyword .nil⟩] (.literal () .nil) :=
      .looser (.literal rfl) (by decide)
    have htrue : ExprText .assignment [⟨⟨"true", 1⟩, .keyword .true⟩] (.literal () (.bool true)) :=
      .looser (.literal rfl) (by decide)
    have hstart : StartText _ _ := .var (.initialized (k := ⟨⟨"var", 1⟩, .keyword .var⟩)
      (n := ⟨⟨"i", 1⟩, .identifier⟩) (q := ⟨⟨"=", 1⟩, .equal⟩) (s := ⟨⟨";", 1⟩, .semicolon⟩) rfl rfl rfl hnil rfl)
    have hcondition : ExprText? _ _ := .some (.looser (.unary (t := ⟨⟨"!", 1⟩, .bang⟩) rfl (hname _)) (by decide))
    have hstep : ExprText? _ _ := .some (.assign (t := ⟨⟨"=", 1⟩, .equal⟩) (hname _) rfl htrue)
    have hbody : StmtText _ _ _ := .print (k := ⟨⟨"print", 1⟩, .keyword .print⟩) (s := ⟨⟨";", 1⟩, .semicolon⟩) rfl
      (hname _) rfl
    .for (k := ⟨⟨"for", 1⟩, .keyword .for_⟩) (l := ⟨⟨"(", 1⟩, .leftParen⟩) (s := ⟨⟨";", 1⟩, .semicolon⟩)
      (r := ⟨⟨")", 1⟩, .rightParen⟩) rfl rfl hstart hcondition rfl hstep rfl hbody
  context := .head (.statement .here) .nil

/-- A loop of one turn keeps its meaning, and so it does in the first machine of a session that has learnt of it. -/
theorem Occurrence.loop_faithful_single :
    ∃ p d i outer, analyze 0 "for (var i = nil; !i; i = true) print i;" = .ok (p, 6) ∧
      ForLoop.Faithful .standard p 0 6 outer i d ∧
      let m := Session.learn (Machine.start .unlimited) p.distances
      let copy := d.map (· + 6) id
      m.Closed 6 ∧ m.Knows p 0 6 ∧ Equivalent (Mirrored .standard 6 m.heap.frames.size)
        (fun f => copy.run .standard f (Session.learn m (copy.distances outer)))
        fun g => exec .standard g (d.lowered i) m := by
  obtain ⟨p, ha⟩ : ∃ p, analyze 0 "for (var i = nil; !i; i = true) print i;" = .ok (p, 6) :=
    ⟨⟨[.block [.var ⟨"i", 1⟩ (some (.literal 0 .nil)),
      .while (.unary 1 .not ⟨"!", 1⟩ (.name ⟨2, ⟨"i", 1⟩⟩))
        (.block [.print (.name ⟨3, ⟨"i", 1⟩⟩), .expression (.assign ⟨4, ⟨"i", 1⟩⟩ (.literal 5 (.bool true)))])]],
      [(4, 1), (3, 1), (2, 0)]⟩, by cbv⟩
  obtain ⟨l, d, i, outer, -, -, -, hd⟩ := Occurrence.loop_faithful (S := .standard) rfl ha singleTurn (by
    rintro t ⟨⟩
    rfl)
  have hclosed := (Session.start_closed .unlimited).learn_program (Program.fits_of_analyze ha)
  have hknows : (Session.learn (Machine.start .unlimited) p.distances).Knows p 0 6 := fun _ _ _ => rfl
  exact ⟨p, d, i, outer, ha, hd, hclosed, hknows, hd.runs _ _ hclosed hknows⟩

end Lox
