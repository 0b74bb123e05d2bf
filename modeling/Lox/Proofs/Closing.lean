import Lox.Proofs.Copies

/-! # Machines stay closed

Closed code that runs in a closed machine leaves it closed (`Machine.Closed.exec`), and the machines of sessions are
closed (`Session.reached_closed`).  Nothing is followed step by step for this.  That code keeps its numbers below a
bound is that the run is the same when the numbers from the bound on are moved up by one, and that scope chains lead to
frames that there are is that the run goes together with itself. -/

namespace Lox

open Lox.Action

/-! ### Numbers that stay -/

section labels

variable {f : NodeId → NodeId}

theorem Expr.label_map (e : Expr NodeId) : (e.map f id).label = f e.label := by cases e <;> rfl

mutual

theorem Expr.nodes_map : ∀ e : Expr NodeId, (e.map f id).nodes = e.nodes.map (Expr.map f id)
  | .literal _ _ => rfl
  | .group _ inner => congrArg (List.cons _) (Expr.nodes_map inner)
  | .unary _ _ _ operand => congrArg (List.cons _) (Expr.nodes_map operand)
  | .binary _ _ _ left right => by
      rw [Expr.map, Expr.nodes, Expr.nodes, Expr.nodes_map left, Expr.nodes_map right, List.map_cons, List.map_append,
        Expr.map]
  | .logical _ _ _ left right => by
      rw [Expr.map, Expr.nodes, Expr.nodes, Expr.nodes_map left, Expr.nodes_map right, List.map_cons, List.map_append,
        Expr.map]
  | .name _ => rfl
  | .assign _ value => congrArg (List.cons _) (Expr.nodes_map value)
  | .call _ callee _ arguments => by
      rw [Expr.map, Expr.nodes, Expr.nodes, Expr.nodes_map callee, Expr.nodesEach_map arguments, List.map_cons,
        List.map_append, Expr.map]
  | .get _ object _ => congrArg (List.cons _) (Expr.nodes_map object)
  | .set _ object _ value => by
      rw [Expr.map, Expr.nodes, Expr.nodes, Expr.nodes_map object, Expr.nodes_map value, List.map_cons,
        List.map_append, Expr.map]
  | .this _ => rfl
  | .super _ _ => rfl

theorem Expr.nodesEach_map : ∀ es : List (Expr NodeId),
    Expr.nodesEach (Expr.mapEach f id es) = (Expr.nodesEach es).map (Expr.map f id)
  | [] => rfl
  | e :: es => by
      rw [Expr.mapEach, Expr.nodesEach, Expr.nodesEach, Expr.nodes_map e, Expr.nodesEach_map es, List.map_append]

end

/-- The members of a list that stays stay. -/
theorem List.fixed_of_map {α : Type} {f : α → α} {l : List α} (h : l.map f = l) : ∀ a ∈ l, f a = a :=
  List.map_inj_left.mp (h.trans l.map_id.symm)

/-- The numbers of an expression that stays stay. -/
theorem Expr.labels_fixed {e : Expr NodeId} (h : e.map f id = e) : ∀ i ∈ labels e.nodes, f i = i := by
  refine List.fixed_of_map ?_
  have hnodes : labels (e.map f id).nodes = (labels e.nodes).map f := by
    rw [Expr.nodes_map, labels, List.map_map, List.map_map]
    exact List.map_congr_left fun e _ => e.label_map
  rw [← hnodes, h]

theorem FunDecl.labels_fixed {d : FunDecl NodeId} (h : d.map f id = d) (around : Surroundings) :
    AllLabels (fun i => f i = i) (d.expressions around) := by
  have hplaces := d.expressions_map f id around
  rw [Surroundings.mapNames_id, h] at hplaces
  exact fun x hx => Expr.labels_fixed (congrArg Placed.expr (List.fixed_of_map hplaces.symm x hx))

end labels

/-! ### What is the same with other numbers, beside itself -/

section fixed

variable {bound : NodeId} {σ : NodeId → NodeId} (hσ : ∀ i, σ i = i → i < bound) {U : Tables} {w : Partners}

/-- What follows from a relation holds of the members of the first of two related lists. -/
theorem List.Forall₂.left {α β : Type} {R : α → β → Prop} {P : α → Prop} {l : List α} {l' : List β}
    (h : List.Forall₂ R l l') (hP : ∀ a b, R a b → P a) : ∀ a ∈ l, P a :=
  ((List.forall₂_and_left l l').mp (h.imp fun a b hab => ⟨hP a b hab, hab⟩)).1

theorem Aligned.bounded {Γ : Layers} {env env' : Env} (h : Aligned w Γ env env') : ∀ f ∈ env, f < w.length := by
  have hone {f f' : FrameId} (hf : w[f]? = some f') : f < w.length := (List.getElem?_eq_some_iff.mp hf).1
  induction h with
  | shared_all h =>
      induction h with
      | nil => exact nofun
      | cons hf _ ih => exact List.forall_mem_cons.mpr ⟨hone hf, ih⟩
  | shared hf _ ih => exact List.forall_mem_cons.mpr ⟨hone hf, ih⟩
  | extra _ _ ih => exact ih

include hσ

theorem Closure.closed_of_fixed {c : Closure} (h : c.renumber σ = c) {Γ : Layers} {env : Env}
    (ha : Aligned w Γ c.env env) : c.Closed bound w.length where
  labels := (FunDecl.labels_fixed (congrArg Closure.decl h) []).imp hσ
  env := ha.bounded

theorem ClassBody.closed_of_fixed {b b' : ClassBody} (h : b.mapDecl (FunDecl.renumber σ) = b)
    (hb : BodyBeside U w b b') : ∀ p ∈ b.methods, p.2.Closed bound w.length := by
  have haligned := List.Forall₂.left (P := fun p => ∃ Γ env, Aligned w Γ p.2.env env) hb.methods
    fun _ _ ⟨_, _, Γ, ha, _⟩ => ⟨Γ, _, ha⟩
  intro p hp
  obtain ⟨Γ, env, ha⟩ := haligned p hp
  have hfixed := List.fixed_of_map (congrArg ClassBody.methods h) p hp
  exact Closure.closed_of_fixed hσ (congrArg Prod.snd hfixed) ha

theorem Class.closed_of_fixed {c c' : Class} (h : c.renumber σ = c) (hc : ClassBeside U w c c') :
    c.Closed bound w.length := by
  have hown : c.own.mapDecl (FunDecl.renumber σ) = c.own := congrArg Class.own h
  have hrelated := List.Forall₂.left (P := fun b => ∃ b', BodyBeside U w b b') hc.ancestors fun _ b' hb => ⟨b', hb⟩
  refine List.forall_mem_cons.mpr ⟨ClassBody.closed_of_fixed hσ hown hc.own, fun b hb => ?_⟩
  obtain ⟨b', hbb'⟩ := hrelated b hb
  exact ClassBody.closed_of_fixed hσ (List.fixed_of_map (congrArg Class.ancestors h) b hb) hbb'

theorem Value.closed_of_fixed {v v' : Value} (h : v.renumber σ = v) (hv : ValueBeside U w v v') :
    v.Closed bound w.length := by
  cases hv with
  | @function id c c' hc =>
      obtain ⟨-, Γ, ha, -⟩ := hc
      exact Closure.closed_of_fixed hσ (Value.function.inj h).2 ha
  | @cls c c' hc => exact Class.closed_of_fixed hσ (Value.cls.inj h) hc
  | @instance_ id c c' hc => exact Class.closed_of_fixed hσ (Value.instance_.inj h).2 hc
  | _ => trivial

theorem Slots.closed_of_fixed {s s' : Slots} (h : Slots.renumber σ s = s) (hs : SlotsBeside U w s s') :
    Slots.Closed bound w.length s := by
  have hrelated := List.Forall₂.left (P := fun p => ∃ v', ValueBeside U w p.2 v') hs fun _ _ hp => ⟨_, hp.2⟩
  intro p hp
  obtain ⟨v', hv⟩ := hrelated p hp
  exact Value.closed_of_fixed hσ (congrArg Prod.snd (List.fixed_of_map h p hp)) hv

/-- An array of slots, each of which stays and stands beside others, is closed. -/
theorem slots_closed_of_fixed {a : Array Slots} (h : a.map (Slots.renumber σ) = a)
    (ha : ∀ i, i < a.size → ∃ s', SlotsBeside U w (a.getD i []) s') : ∀ s ∈ a, Slots.Closed bound w.length s := by
  intro s hs
  obtain ⟨i, hi, rfl⟩ := Array.mem_iff_getElem.mp hs
  obtain ⟨s', hbeside⟩ := ha i hi
  rw [Array.getD, dif_pos hi] at hbeside
  have hfixed : Slots.renumber σ a[i] = a[i] := by
    have hget : (a.map (Slots.renumber σ))[i]? = a[i]? := by rw [h]
    rwa [Array.getElem?_map, Array.getElem?_eq_getElem hi, Option.map_some, Option.some.injEq] at hget
  exact Slots.closed_of_fixed hσ hfixed hbeside

/-- A machine is closed that stays when numbers from the bound on are changed, and that stands beside another. -/
theorem Machine.closed_of_fixed {m m' : Machine} {env : Env} (hfresh : ∀ i, bound ≤ i → m.distances[i]? = none)
    (h : m.heap.renumber σ = m.heap) (hm : HeapBeside U w m.heap m'.heap) (ha : Aligned w [] m.env env) :
    m.Closed bound where
  fresh := hfresh
  globals := hm.size ▸ (List.getElem?_eq_some_iff.mp hm.globals).1
  env := hm.size ▸ ha.bounded
  frames := hm.size ▸ slots_closed_of_fixed hσ (congrArg Heap.frames h) fun f hf =>
    ⟨_, hm.slots f _ (List.getElem?_eq_getElem (hm.size ▸ hf))⟩
  fields := hm.size ▸ slots_closed_of_fixed hσ (congrArg Heap.fields h) fun i _ => ⟨_, hm.fields i⟩

end fixed

/-! ### Runs -/

/-- Moves the numbers from a bound on up by one. -/
def bump (bound i : Nat) : Nat := if i < bound then i else i + 1

theorem bump_of_lt {bound i : Nat} (h : i < bound) : bump bound i = i := if_pos h

theorem lt_of_bump {bound i : Nat} (h : bump bound i = i) : i < bound := by
  unfold bump at h
  split at h
  · assumption
  · omega

/-- A table that knows nothing from a bound on knows the same of the numbers moved up. -/
theorem getElem?_bump {T : Std.HashMap NodeId Nat} {bound : NodeId} (h : ∀ i, bound ≤ i → T[i]? = none) (i : NodeId) :
    T[bump bound i]? = T[i]? := by
  unfold bump
  split
  · rfl
  · rename_i hi
    rw [h i (Nat.le_of_not_lt hi), h (i + 1) (Nat.le_succ_of_le (Nat.le_of_not_lt hi))]

section runs

variable {α : Type} {S : Settings} {m : Machine} {bound : NodeId}

/-- The machine after an action that is made with other numbers. -/
theorem Renumbers.after {β : Type} {σ : NodeId → NodeId} {T T' : Std.HashMap NodeId Nat} {F : α → β} {act : Action α}
    {act' : Action β} (h : Renumbers σ T T' F act act') (hm : m.distances = T') :
    act'.after (m.renumber σ T) = (act.after m).renumber σ T := by
  have hrun := h m hm
  unfold Action.after
  generalize act m = r at hrun
  generalize act' (m.renumber σ T) = r' at hrun
  cases hrun <;> rfl

/-- Numbers that may be moved up before an action may be moved up after it. -/
theorem Renumbers.fixed {F : α → α} {act : Action α}
    (h : Renumbers (bump bound) m.distances m.distances F act act) (hm : m.heap.renumber (bump bound) = m.heap) :
    (act.after m).heap.renumber (bump bound) = (act.after m).heap := by
  have hafter := h.after rfl
  have hsame : m.renumber (bump bound) m.distances = m := by rw [Machine.renumber, hm]
  rw [hsame] at hafter
  exact (congrArg Machine.heap hafter).symm

theorem Finish.machine_eq (act : Action Unit) (m : Machine) : Finish.machine (act m) = act.after m := by
  unfold Finish.machine Action.after
  cases act m <;> rfl

/-- The machines after actions that went together stand beside each other. -/
theorem EndsAbreast.machines {U : Tables} {p q : Prop} {w : Partners} {m m' : Machine}
    {Q : Partners → Unit → Unit → Prop} {r r' : Finish} (h : EndsAbreast U p q w m m' Q r r') (hr : r.Settled)
    (hr' : r'.Settled) : ∃ w₁, w <+: w₁ ∧ Abreast U w₁ r.machine r'.machine := by
  cases h with
  | ok hw hn => exact ⟨_, hw, hn⟩
  | error hw hn => exact ⟨_, hw, hn⟩
  | left => exact hr.elim
  | right => exact hr'.elim

/-- Closed code in a closed machine leaves it closed. -/
theorem Machine.Closed.exec (hS : S.lookup = .byDistance) (hm : m.Closed bound) {s : Stmt NodeId}
    (hs : AllLabels (· < bound) (s.expressions [])) {fuel : Nat} (h : Finish.Settled (Lox.exec S fuel s m)) :
    ((Lox.exec S fuel s).after m).Closed bound := by
  have hrun := (evaluation_renumbers S (getElem?_bump hm.fresh) fuel).2 s
  rw [s.map_fixed (hs.imp fun _ => bump_of_lt)] at hrun
  have hfixed := Renumbers.fixed hrun (hm.renumber_heap fun _ => bump_of_lt)
  have hrestored := (restores S fuel).2 s m
  -- the run goes together with itself
  have hself : Abreast (Tables.both m.distances bound) (List.range m.heap.frames.size) m m :=
    ⟨hm.beside, rfl, rfl, rfl, rfl, rfl⟩
  have hends : Together (Tables.both m.distances bound) True True (List.range m.heap.frames.size) m.env m.env
      (Lox.exec S fuel s) (Lox.exec S fuel s) fun _ _ _ => True :=
    (alongside (G := S.fuel) hS fuel).2 ⟨.inl trivial, .inl trivial⟩ (.same (s.code_itself hs 0)) (.itself hm.env)
  obtain ⟨w, hw, hn⟩ := (hends m m hself rfl rfl).machines h h
  rw [Finish.machine_eq] at hn
  have ha : Aligned w [] ((Lox.exec S fuel s).after m).env m.env := by
    rw [hrestored.env]
    exact (Aligned.itself hm.env).mono hw
  exact Machine.closed_of_fixed (fun _ => lt_of_bump) (hrestored.distances ▸ hm.fresh) hfixed hn.heap ha

end runs

/-! ### Sessions -/

section sessions

variable {S : Settings} {m : Machine} {first last : NodeId}

/-- A closed machine that learns the distances of new code is closed, and the new code is then. -/
theorem Machine.Closed.learn (hm : m.Closed first) {xs : List Placed} (hx : Learnable first last xs) :
    (Session.learn m (distancesOf (xs.flatMap Placed.uses))).Closed last := by
  have hfresh (i : NodeId) (hi : last ≤ i) :
      (m.distances.insertMany (distancesOf (xs.flatMap Placed.uses)))[i]? = none := by
    refine (getElem?_distancesOf_of_notMem fun u hu he => ?_).trans (hm.fresh i (hx.ids.le.trans hi))
    exact Nat.not_lt.mpr hi (he ▸ (hx.ids.range _ (List.mem_map_of_mem hu)).2)
  have hfixed := hm.renumber_heap fun i hi => bump_of_lt (Nat.lt_of_lt_of_le hi hx.ids.le)
  exact Machine.closed_of_fixed (fun _ => lt_of_bump) hfresh hfixed (hm.beside (T := m.distances)) (.itself hm.env)

theorem Machine.Closed.learn_program (hm : m.Closed first) {p : Program} (hp : p.Fits first last) :
    (Session.learn m p.distances).Closed last := by
  rw [hp.accepted.distances]
  exact hm.learn hp.learnable

/-- The numbers of a program are below the next one. -/
theorem Program.Fits.labels {p : Program} (h : p.Fits first last) :
    AllLabels (· < last) (Stmt.expressionsAll [] p.statements) := by
  obtain ⟨body, hnum⟩ := h.numbered
  have hcounts := nodesOf_number body first
  rw [hnum, labels_nodesOf] at hcounts
  exact fun x hx i hi => (hcounts.within.range i (List.mem_flatMap.mpr ⟨x, hx, hi⟩)).2

theorem Session.interpret_eq (body : List (Stmt NodeId)) (m : Machine) :
    (Session.interpret S body m).2 = (runAll (exec S S.fuel) body).after m := by
  unfold Session.interpret Action.after
  cases runAll (exec S S.fuel) body m with
  | ok _ n => rfl
  | error e n => cases e <;> rfl

theorem Session.evaluated_eq (e : Expr NodeId) (m : Machine) :
    (Session.evaluated S e m).2 = (eval S S.fuel e).after m := by
  unfold Session.evaluated Action.after
  cases eval S S.fuel e m <;> rfl

/-- A step leaves the machine of a session closed. -/
theorem Session.Sound.closed_step (hS : S.lookup = .byDistance) {s : Session} {us : List Use}
    (hs : s.Sound .byDistance us) (h : s.machine.Closed s.nextNode) (st : Step) :
    (s.step S st).2.machine.Closed (s.step S st).2.nextNode := by
  have hnext := (Session.step_sound hS hs st nofun).sound
  obtain ⟨w, hw, henv⟩ := hnext.beside.machines
  refine Machine.closed_of_fixed (fun _ => lt_of_bump) hnext.fresh ?_ hw.heap henv
  cases st with
  | run source =>
      cases ha : analyze s.nextNode source with
      | error faults =>
          unfold Session.step
          simp only [Session.run_rejected ha]
          exact h.renumber_heap fun _ => bump_of_lt
      | ok r =>
          obtain ⟨p, last⟩ := r
          have hp := Program.fits_of_analyze ha
          have hm := h.learn_program hp
          have hrun := runAll_renumbers (evaluation_renumbers S (getElem?_bump hm.fresh) S.fuel).2 p.statements
          rw [Stmt.mapAll_fixed p.statements (hp.labels.imp fun _ => bump_of_lt)] at hrun
          unfold Session.step
          simp only [Session.run_eq ha, Session.interpret_eq]
          exact Renumbers.fixed hrun (hm.renumber_heap fun _ => bump_of_lt)
  | evaluate source =>
      cases ha : analyzeExpression s.nextNode source with
      | error faults =>
          unfold Session.step
          simp only [Session.evaluate_rejected ha]
          exact h.renumber_heap fun _ => bump_of_lt
      | ok r =>
          obtain ⟨e, last⟩ := r
          obtain ⟨plain, -, hnum, -⟩ := analyzeExpression_ok ha
          have hcounts := Expr.nodes_number plain s.nextNode
          rw [hnum] at hcounts
          obtain ⟨hx, hds⟩ := learnable_of_analyze ha
          have hm := h.learn hx
          rw [List.flatMap_singleton, Placed.uses, ← hds] at hm
          have hrun := (evaluation_renumbers S (getElem?_bump hm.fresh) S.fuel).1 e.expr
          rw [e.expr.map_fixed fun i hi => bump_of_lt (hcounts.within.range i hi).2] at hrun
          unfold Session.step
          simp only [Session.evaluate_eq ha, Session.evaluated_eq]
          exact Renumbers.fixed hrun (hm.renumber_heap fun _ => bump_of_lt)

theorem Session.start_closed (sink : Sink) : (Session.start sink).machine.Closed 0 where
  fresh _ _ := Std.HashMap.getElem?_empty
  globals := Nat.one_pos
  env f hf := List.mem_singleton.mp hf ▸ Nat.one_pos
  frames s hs := by
    obtain rfl : s = [("clock", .clock)] := List.mem_singleton.mp (Array.mem_toList_iff.mpr hs)
    exact List.forall_mem_singleton.mpr trivial
  fields := nofun

/-- The machine of a session is closed, after whatever steps, however they end. -/
theorem Session.reached_closed (hS : S.lookup = .byDistance) (sink : Sink) (steps : List Step) :
    let s := Session.reached S sink steps
    s.machine.Closed s.nextNode := by
  have hall (steps : List Step) : ∀ {s : Session} {us : List Use}, s.Sound .byDistance us →
      s.machine.Closed s.nextNode → (s.perform S steps).2.machine.Closed (s.perform S steps).2.nextNode := by
    induction steps with
    | nil => exact fun _ h => h
    | cons st steps ih => exact fun hs h => ih (Session.step_sound hS hs st nofun).sound (hs.closed_step hS h st)
  exact hall steps (Session.start_sound .byDistance sink) (Session.start_closed sink)

end sessions

end Lox
