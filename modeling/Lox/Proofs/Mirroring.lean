import Lox.Proofs.Closed

/-! # Runs that nothing tells apart

Two runs come to the same end if the exits, the output and all that was in the machine before are the same, but for
what does not show: the numbers of nodes, redundant braces in code, and where functions keep the variables around them
(`SameFinish`).  That these variables do the same shows only in what runs afterwards, so the machines are also asked to
come to the same end whatever is run in them next (`Interchangeable`).

Runs are compared with any fuel (`Equivalent`): as often as it suffices on both sides, and where it suffices on one
side, enough of it suffices on the other.  The runs of two actions that go together are equivalent
(`Equivalent.of_together`), and so are those of code with other numbers (`Equivalent.of_renumbers`). -/

namespace Lox

open Lox.Action

/-! ### Relabelling and braces -/

section unbraced

variable {ι κ : Type} (f : ι → κ) (g : Lexeme → Lexeme)

theorem Stmt.ofBody_map (body : List (Stmt ι)) : Stmt.ofBody (Stmt.mapAll f g body) = (Stmt.ofBody body).map f g := by
  match body with
  | [] => rfl
  | [s] =>
      have hd : (s.map f g).declared? = none ↔ s.declared? = none := by
        rw [Stmt.declared?_map, Option.map_eq_none_iff]
      change (if (s.map f g).declared? = none then _ else _) = Stmt.map f g (if s.declared? = none then _ else _)
      by_cases h : s.declared? = none
      · rw [if_pos h, if_pos (hd.mpr h)]
      · rw [if_neg h, if_neg fun h' => h (hd.mp h')]
        rfl
  | s :: s' :: rest => rfl

mutual

/-- To leave out redundant braces and to change labels and lexemes can be done in either order. -/
theorem Stmt.unbraced_map : ∀ s : Stmt ι, (s.map f g).unbraced = s.unbraced.map f g
  | .expression _ => rfl
  | .print _ => rfl
  | .var _ _ => rfl
  | .block body => by
      rw [Stmt.map, Stmt.unbraced, Stmt.unbraced, Stmt.unbracedAll_map body, Stmt.ofBody_map]
  | .ite _ yes none => by rw [Stmt.map, Stmt.unbraced, Stmt.unbraced, Stmt.map, Stmt.unbraced_map yes]
  | .ite _ yes (some no) => by
      rw [Stmt.map, Stmt.unbraced, Stmt.unbraced, Stmt.map, Stmt.unbraced_map yes, Stmt.unbraced_map no]
  | .while _ body => by rw [Stmt.map, Stmt.unbraced, Stmt.unbraced, Stmt.map, Stmt.unbraced_map body]
  | .function decl => by rw [Stmt.map, Stmt.unbraced, Stmt.unbraced, Stmt.map, FunDecl.unbraced_map decl]
  | .ret _ _ => rfl
  | .cls _ _ methods => by rw [Stmt.map, Stmt.unbraced, Stmt.unbraced, Stmt.map, FunDecl.unbracedEach_map methods]

theorem Stmt.unbracedAll_map : ∀ body : List (Stmt ι),
    Stmt.unbracedAll (Stmt.mapAll f g body) = Stmt.mapAll f g (Stmt.unbracedAll body)
  | [] => rfl
  | s :: body => congrArg₂ List.cons (Stmt.unbraced_map s) (Stmt.unbracedAll_map body)

theorem FunDecl.unbraced_map : ∀ d : FunDecl ι, (d.map f g).unbraced = d.unbraced.map f g
  | .mk _ _ body => congrArg (FunDecl.mk _ _) (Stmt.unbracedAll_map body)

theorem FunDecl.unbracedEach_map : ∀ ds : List (FunDecl ι),
    FunDecl.unbracedEach (FunDecl.mapEach f g ds) = FunDecl.mapEach f g (FunDecl.unbracedEach ds)
  | [] => rfl
  | d :: ds => congrArg₂ List.cons (FunDecl.unbraced_map d) (FunDecl.unbracedEach_map ds)

end

end unbraced

/-! ### What shows of values -/

/-- A value as far as it shows: the code of its functions without redundant braces and without numbers. -/
def Value.plain (v : Value) : Value := v.bare.mapDecl FunDecl.unnumbered

/-- Slots with plain values. -/
def Slots.plain (s : Slots) : Slots := s.bare.mapDecl FunDecl.unnumbered

/-- An exit with a plain value, and without the distances that a breach tells. -/
def Exit.plain : Exit → Exit
  | returned v => .returned v.plain
  | inconsistent b => .inconsistent b.bare
  | e => e

section plain

variable {σ : NodeId → NodeId}

theorem Closure.plain_renumber (c : Closure) :
    (c.renumber σ).bare.mapDecl FunDecl.unnumbered = c.bare.mapDecl FunDecl.unnumbered := by
  have hd : (c.decl.renumber σ).unbraced.unnumbered = c.decl.unbraced.unnumbered := by
    rw [FunDecl.renumber, FunDecl.unbraced_map, FunDecl.unnumbered, FunDecl.map_map]
    rfl
  exact congrArg (Closure.mk · [] c.isInitializer) hd

theorem ClassBody.plain_renumber (b : ClassBody) :
    (b.mapDecl (FunDecl.renumber σ)).bare.mapDecl FunDecl.unnumbered = b.bare.mapDecl FunDecl.unnumbered := by
  simp only [ClassBody.mapDecl, ClassBody.bare, List.map_map]
  refine congrArg (ClassBody.mk b.id b.name) (List.map_congr_left fun p _ => ?_)
  exact congrArg (Prod.mk p.1) p.2.plain_renumber

theorem Class.plain_renumber (c : Class) :
    (c.renumber σ).bare.mapDecl FunDecl.unnumbered = c.bare.mapDecl FunDecl.unnumbered := by
  simp only [Class.mapDecl, Class.bare, List.map_map]
  exact congrArg₂ Class.mk c.own.plain_renumber (List.map_congr_left fun b _ => b.plain_renumber)

@[simp] theorem Value.plain_renumber (v : Value) : (v.renumber σ).plain = v.plain := by
  cases v with
  | function id c => exact congrArg (Value.function id) c.plain_renumber
  | cls c => exact congrArg Value.cls c.plain_renumber
  | instance_ id c => exact congrArg (Value.instance_ id) c.plain_renumber
  | _ => rfl

@[simp] theorem Slots.plain_renumber (s : Slots) : Slots.plain (Slots.renumber σ s) = s.plain := by
  simp only [Slots.plain, Slots.mapDecl, Slots.bare, List.map_map]
  exact List.map_congr_left fun p _ => congrArg (Prod.mk p.1) p.2.plain_renumber

@[simp] theorem Exit.plain_renumber (e : Exit) : (e.renumber σ).plain = e.plain := by
  cases e with
  | returned v => exact congrArg Exit.returned v.plain_renumber
  | _ => rfl

variable {U : Tables} {w : Partners}

theorem ExitBeside.plain_eq {e e' : Exit} (h : ExitBeside U w e e') : e'.plain = e.plain := by
  cases h with
  | returned h => exact congrArg (fun v => Exit.returned (v.mapDecl FunDecl.unnumbered)) h.bare_eq
  | inconsistent h => exact congrArg Exit.inconsistent h
  | _ => rfl

theorem SlotsBeside.plain_eq {s s' : Slots} (h : SlotsBeside U w s s') : s'.plain = s.plain :=
  congrArg (Slots.mapDecl FunDecl.unnumbered) h.bare_eq

end plain

/-! ### Ends of runs -/

/-- The end of a run. -/
abbrev Finish := EStateM.Result Exit Machine Unit

namespace Finish

/-- The exit by which a run was left, if it did not end normally. -/
def exit? : Finish → Option Exit
  | .ok _ _ => none
  | .error e _ => some e

/-- The machine after a run. -/
def machine : Finish → Machine
  | .ok _ m => m
  | .error _ m => m

/-- Did the fuel suffice? -/
def Settled : Finish → Prop
  | .error .exhausted _ => False
  | _ => True

end Finish

/-- Two runs come to the same end, as far as it shows: the exit, the scope chain, the output, all instances, and the
frames that there were before, of which there were `old`. -/
structure SameFinish (old : Nat) (r r' : Finish) : Prop where
  exit : r'.exit?.map Exit.plain = r.exit?.map Exit.plain
  env : r'.machine.env = r.machine.env
  depth : r'.machine.depth = r.machine.depth
  sink : r'.machine.sink = r.machine.sink
  readings : r'.machine.readings = r.machine.readings
  nextId : r'.machine.heap.nextId = r.machine.heap.nextId
  frames : ∀ f < old, (r'.machine.heap.slots f).plain = (r.machine.heap.slots f).plain
  instances : r'.machine.heap.fields.size = r.machine.heap.fields.size
  fields : ∀ i, Slots.plain (r'.machine.heap.fields.getD i []) = Slots.plain (r.machine.heap.fields.getD i [])

namespace SameFinish

variable {old : Nat} {r r' r'' : Finish}

theorem symm (h : SameFinish old r r') : SameFinish old r' r where
  exit := h.exit.symm
  env := h.env.symm
  depth := h.depth.symm
  sink := h.sink.symm
  readings := h.readings.symm
  nextId := h.nextId.symm
  frames f hf := (h.frames f hf).symm
  instances := h.instances.symm
  fields i := (h.fields i).symm

theorem trans (h : SameFinish old r r') (h' : SameFinish old r' r'') : SameFinish old r r'' where
  exit := h'.exit.trans h.exit
  env := h'.env.trans h.env
  depth := h'.depth.trans h.depth
  sink := h'.sink.trans h.sink
  readings := h'.readings.trans h.readings
  nextId := h'.nextId.trans h.nextId
  frames f hf := (h'.frames f hf).trans (h.frames f hf)
  instances := h'.instances.trans h.instances
  fields i := (h'.fields i).trans (h.fields i)

end SameFinish

/-! ### Runs with any fuel -/

/-- Two runs, each with any fuel, are equivalent: where the fuel suffices for both, the ends are related, and if some
suffices for one, enough suffices for the other. -/
structure Equivalent (R : Finish → Finish → Prop) (run run' : Nat → Finish) : Prop where
  alike : ∀ {f g}, (run f).Settled → (run' g).Settled → R (run f) (run' g)
  forth : ∀ {f}, (run f).Settled → ∃ g, ∀ n, g ≤ n → (run' n).Settled
  back : ∀ {g}, (run' g).Settled → ∃ f, ∀ n, f ≤ n → (run n).Settled

namespace Equivalent

variable {R R' R'' : Finish → Finish → Prop} {run run' run'' : Nat → Finish}

theorem symm (h : Equivalent R run run') (hR : ∀ r r', R r r' → R' r' r) : Equivalent R' run' run where
  alike hf hg := hR _ _ (h.alike hg hf)
  forth := h.back
  back := h.forth

/-- Through runs in the middle, for which there is always fuel enough. -/
theorem trans (h : Equivalent R run run') (h' : Equivalent R' run' run'')
    (hR : ∀ r r' r'', R r r' → R' r' r'' → R'' r r'') : Equivalent R'' run run'' where
  alike {f g} hf hg := by
    obtain ⟨k, hk⟩ := h.forth hf
    exact hR _ _ _ (h.alike hf (hk k le_rfl)) (h'.alike (hk k le_rfl) hg)
  forth hf := by
    obtain ⟨k, hk⟩ := h.forth hf
    exact h'.forth (hk k le_rfl)
  back hg := by
    obtain ⟨k, hk⟩ := h'.back hg
    exact h.back (hk k le_rfl)

end Equivalent

/-! ### What runs afterwards -/

/-- Machines that nothing tells apart: whatever code is run in them, whose numbers are below `bound`, in whatever scope
chain of the frames that both had before, of which there were `old`, comes to the same end. -/
def Interchangeable (S : Settings) (bound : NodeId) (old : Nat) (m m' : Machine) : Prop :=
  ∀ (rest : List (Stmt NodeId)) (env : Env), AllLabels (· < bound) (Stmt.expressionsAll [] rest) →
    (∀ f ∈ env, f < old) → Equivalent (SameFinish old) (fun f => runAll (exec S f) rest { m with env := env })
      fun g => runAll (exec S g) rest { m' with env := env }

/-- Two runs come to the same end, and to machines that nothing tells apart. -/
structure Mirrored (S : Settings) (bound : NodeId) (old : Nat) (r r' : Finish) : Prop where
  finish : SameFinish old r r'
  after : Interchangeable S bound old r.machine r'.machine

namespace Mirrored

variable {S : Settings} {bound : NodeId} {old : Nat} {r r' r'' : Finish}

theorem symm (h : Mirrored S bound old r r') : Mirrored S bound old r' r where
  finish := h.finish.symm
  after rest env hrest henv := (h.after rest env hrest henv).symm fun _ _ => SameFinish.symm

theorem trans (h : Mirrored S bound old r r') (h' : Mirrored S bound old r' r'') : Mirrored S bound old r r'' where
  finish := h.finish.trans h'.finish
  after rest env hrest henv :=
    (h.after rest env hrest henv).trans (h'.after rest env hrest henv) fun _ _ _ => SameFinish.trans

end Mirrored

/-! ### Code with other numbers -/

section renumbering

variable {σ : NodeId → NodeId} {T T' : Std.HashMap NodeId Nat} {S : Settings} {bound : NodeId} {old : Nat}
  {r r' r'' : Finish} {R R' : Finish → Finish → Prop} {run run' run'' : Nat → Finish}

theorem Renumbered.settled (h : Renumbered σ T T' id r r') : r'.Settled ↔ r.Settled := by
  cases h with
  | ok => rfl
  | error e => cases e <;> rfl

/-- The same end with other numbers. -/
theorem SameFinish.renumbered (h : SameFinish old r r') (h' : Renumbered σ T T' id r' r'') : SameFinish old r r'' := by
  refine h.trans ?_
  have hfields (n : Machine) (i : Nat) : Slots.plain ((n.renumber σ T).heap.fields.getD i []) =
      Slots.plain (n.heap.fields.getD i []) := by
    change Slots.plain ((n.heap.fields.map (Slots.renumber σ)).getD i []) = _
    rw [Array.getD_eq_getD_getElem?, Array.getD_eq_getD_getElem?, Array.getElem?_map]
    cases n.heap.fields[i]? with
    | none => rfl
    | some s => exact s.plain_renumber
  have hframes (n : Machine) (f : FrameId) : ((n.renumber σ T).heap.slots f).plain = (n.heap.slots f).plain := by
    change Slots.plain ((n.heap.renumber σ).slots f) = _
    rw [Heap.slots_renumber, Slots.plain_renumber]
  cases h' with
  | ok _ n => exact ⟨rfl, rfl, rfl, rfl, rfl, rfl, fun f _ => hframes n f, Array.size_map, hfields n⟩
  | error e n =>
      exact ⟨congrArg some e.plain_renumber, rfl, rfl, rfl, rfl, rfl, fun f _ => hframes n f, Array.size_map, hfields n⟩

/-- Equivalent runs, of which the second is made with other numbers. -/
theorem Equivalent.renumbered (h : Equivalent R run run') (hrun : ∀ g, Renumbered σ T T' id (run' g) (run'' g))
    (hR : ∀ {r r' r''}, R r r' → Renumbered σ T T' id r' r'' → R' r r'') : Equivalent R' run run'' where
  alike {_ g} hf hg := hR (h.alike hf ((hrun g).settled.mp hg)) (hrun g)
  forth hf := by
    obtain ⟨k, hk⟩ := h.forth hf
    exact ⟨k, fun n hn => (hrun n).settled.mpr (hk n hn)⟩
  back {g} hg := h.back ((hrun g).settled.mp hg)

variable (hσ : ∀ i, i < bound → σ i = i) (hT : ∀ i, T[σ i]? = T'[i]?)

include hσ hT

/-- To give other numbers to code from a bound on makes no difference to what has numbers below. -/
theorem Interchangeable.renumbered {k n : Machine} (h : Interchangeable S bound old k n) (hn : n.distances = T') :
    Interchangeable S bound old k (n.renumber σ T) := by
  intro rest env hrest henv
  have hsame : Stmt.mapAll σ id rest = rest := Stmt.mapAll_fixed rest (hrest.imp hσ)
  have hrun (g : Nat) : Renumbers σ T T' id (runAll (exec S g) rest) (runAll (exec S g) rest) := by
    have hrun := runAll_renumbers (evaluation_renumbers S hT g).2 rest
    rwa [hsame] at hrun
  exact (h rest env hrest henv).renumbered (fun g => hrun g { n with env := env } hn) SameFinish.renumbered

theorem Mirrored.renumbered (h : Mirrored S bound old r r') (h' : Renumbered σ T T' id r' r'') :
    Mirrored S bound old r r'' where
  finish := h.finish.renumbered h'
  after := by
    have hafter := h.after
    cases h' with
    | ok _ n hn => exact hafter.renumbered hσ hT hn
    | error _ n hn => exact hafter.renumbered hσ hT hn

end renumbering

/-! ### Actions that go together -/

section together

variable {U : Tables} {p q : Prop} {w : Partners} {m m' : Machine} {old : Nat} {Q : Partners → Unit → Unit → Prop}
  {r r' : Finish}

/-- Ends abreast are the same, in machines that nothing tells apart. -/
theorem EndsAbreast.sameFinish (h : EndsAbreast U p q w m m' Q r r') (hr : r.Settled) (hr' : r'.Settled)
    (hw : List.range old <+: w) (he : m'.env = m.env) : SameFinish old r r' := by
  have hsame {w₁ : Partners} {n n' : Machine} (hw₁ : w <+: w₁) (hn : Abreast U w₁ n n') :
      ∀ f < old, (n'.heap.slots f).plain = (n.heap.slots f).plain := fun f hf =>
    (hn.heap.slots f f (Partners.mono (hw.trans hw₁) (List.getElem?_range hf))).plain_eq
  cases h with
  | ok hw₁ hn hk hk' _ =>
      exact ⟨rfl, hk'.env.trans (he.trans hk.env.symm), hn.depth, hn.sink, hn.readings, hn.heap.nextId, hsame hw₁ hn,
        hn.heap.fields_size, fun i => (hn.heap.fields i).plain_eq⟩
  | error hw₁ hn hk hk' hx =>
      exact ⟨congrArg some hx.plain_eq, hk'.env.trans (he.trans hk.env.symm), hn.depth, hn.sink, hn.readings,
        hn.heap.nextId, hsame hw₁ hn, hn.heap.fields_size, fun i => (hn.heap.fields i).plain_eq⟩
  | left => exact hr.elim
  | right => exact hr'.elim

theorem EndsAbreast.settled (h : EndsAbreast U p q w m m' Q r r') (hq : ¬ q) (hr : r.Settled) : r'.Settled := by
  cases h with
  | ok => trivial
  | error _ _ _ _ hx =>
      cases hx with
      | exhausted => exact hr
      | _ => trivial
  | left => exact hr.elim
  | right h => exact absurd h hq

theorem EndsAbreast.settled_back (h : EndsAbreast U p q w m m' Q r r') (hp : ¬ p) (hr : r'.Settled) : r.Settled := by
  cases h with
  | ok => trivial
  | error _ _ _ _ hx =>
      cases hx with
      | exhausted => exact hr
      | _ => trivial
  | left h => exact absurd h hp
  | right => exact hr.elim

/-- Fuel for two runs, of which the second needs more by some units, besides twice as much as the first. -/
structure Spare (p q : Prop) (units f g : Nat) : Prop where
  left : p ∨ g ≤ f
  right : q ∨ 2 * f + units ≤ g

theorem Spare.supplied {units f g : Nat} (h : Spare p q units f g) : Supplied p q 0 f g where
  left := h.left
  right := h.right.imp_right fun _ => by omega

/-- What is inside a node that only the second run has. -/
theorem Spare.spend {units f g : Nat} (h : Spare p q (units + 1) f (g + 1)) : Spare p q units f g where
  left := h.left.imp_right Nat.le_of_succ_le
  right := h.right.imp_right fun _ => by omega

/-- The runs of actions that go together, with enough fuel for the second, are equivalent. -/
theorem Equivalent.of_together {R : Finish → Finish → Prop} {run run' : Nat → Action Unit} {units : Nat}
    (hm : Abreast U w m m')
    (h : ∀ {p q f g}, Spare p q units f g → Together U p q w m.env m'.env (run f) (run' g) Q)
    (hR : ∀ {r r' : Finish}, EndsAbreast U True True w m m' Q r r' → r.Settled → r'.Settled → R r r') :
    Equivalent R (fun f => run f m) fun g => run' g m' where
  alike hf hg := hR (h ⟨.inl trivial, .inl trivial⟩ m m' hm rfl rfl) hf hg
  forth {f} hf := by
    refine ⟨2 * f + units, fun g hg => ?_⟩
    exact (h (p := True) (q := False) ⟨.inl trivial, .inr hg⟩ m m' hm rfl rfl).settled id hf
  back {g} hg := by
    refine ⟨g, fun f hf => ?_⟩
    exact (h (p := False) (q := True) ⟨.inr hf, .inl trivial⟩ m m' hm rfl rfl).settled_back id hg

variable {S : Settings} {bound : NodeId} {T : Std.HashMap NodeId Nat} (hS : S.lookup = .byDistance)
  (hU : (Tables.both T bound).Le U) (hw : List.range old <+: w)

include hS hU hw

/-- Nothing tells machines apart that stand beside each other. -/
theorem Abreast.interchangeable (hm : Abreast U w m m') : Interchangeable S bound old m m' := by
  intro rest env hrest henv
  have ha : Aligned w [] env env := (Aligned.itself henv).mono hw
  have hcode : BracedStmts U [] rest rest := (Stmt.codeAll_itself rest hrest 0).mono hU
  have hbeside : Abreast U w { m with env := env } { m' with env := env } := { hm with }
  have hrun {p q : Prop} {f g : Nat} (hg : Spare p q 0 f g) :
      Together U p q w env env (runAll (exec S f) rest) (runAll (exec S g) rest) (fun _ _ _ => True) :=
    runAll_together (G := S.fuel) (alongside hS f).2 hg.supplied hcode ha
  exact .of_together hbeside hrun fun h hr hr' => h.sameFinish hr hr' hw rfl

theorem EndsAbreast.mirrored (h : EndsAbreast U p q w m m' Q r r') (hr : r.Settled) (hr' : r'.Settled)
    (he : m'.env = m.env) : Mirrored S bound old r r' where
  finish := h.sameFinish hr hr' hw he
  after := by
    cases h with
    | ok hw₁ hn => exact hn.interchangeable hS hU (hw.trans hw₁)
    | error hw₁ hn => exact hn.interchangeable hS hU (hw.trans hw₁)
    | left => exact hr.elim
    | right => exact hr'.elim

end together

end Lox
