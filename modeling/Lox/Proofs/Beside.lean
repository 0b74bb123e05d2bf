import Lox.Proofs.Alongside
import Lox.Proofs.Outward
import Lox.Proofs.Sessions

/-! # Sessions beside each other

What a session holds stands beside itself, whatever its programs were (`Session.Sound.beside`): its functions know
the distances of all their uses.  So a session that runs two programs that are the same but for braces ends the two
runs alike (`Session.interpret_beside`), as far as the fuel reaches: the run with more braces needs twice as
much at most. -/

namespace Lox

open World

/-! ### Code that is known -/

/-- The numbers of what may be linked are below a bound. -/
structure Links.Bounded (U : Links) (bound : NodeId) : Prop where
  read : ∀ {Γ p r r'}, U.read Γ p r r' → r.id < bound
  write : ∀ {Γ p r r'}, U.write Γ p r r' → r.id < bound
  site : ∀ {i l i' l'}, U.site i l i' l' → i < bound

/-- The same table on both sides. -/
def Tables.both (T : Std.HashMap NodeId Nat) (bound : NodeId) : Tables := ⟨T, T, bound⟩

section bounded

variable {U : Links} {bound : NodeId}

mutual

theorem MatchExpr.bounded (h : U.Bounded bound) {Γ : Levels} {p : Option String} : ∀ {e e' : Expr NodeId},
    MatchExpr U Γ p e e' → ∀ u ∈ e.references, u.2.id < bound
  | _, _, .literal _ _ _ => nofun
  | _, _, .group _ _ he => he.bounded h
  | _, _, .unary _ _ he => he.bounded h
  | _, _, .binary _ _ ha hb => fun u hu => (List.mem_append.mp hu).elim (ha.bounded h u) (hb.bounded h u)
  | _, _, .logical _ _ _ _ _ ha hb => fun u hu => (List.mem_append.mp hu).elim (ha.bounded h u) (hb.bounded h u)
  | _, _, .name hr => List.forall_mem_singleton.mpr (h.read hr)
  | _, _, .assign hr he => fun u hu =>
      (List.mem_append.mp hu).elim (he.bounded h u) fun hu => by
        rw [List.mem_singleton.mp hu]
        exact h.write hr
  | _, _, .call _ hf ha => fun u hu => (List.mem_append.mp hu).elim (hf.bounded h u) (ha.bounded h u)
  | _, _, .get _ _ he => he.bounded h
  | _, _, .set _ _ ha hb => fun u hu => (List.mem_append.mp hu).elim (hb.bounded h u) (ha.bounded h u)
  | _, _, .this hr => List.forall_mem_singleton.mpr (h.read hr)
  | _, _, .super _ ht _ => List.forall_mem_singleton.mpr (h.site ht)

theorem MatchEach.bounded (h : U.Bounded bound) {Γ : Levels} {p : Option String} : ∀ {es es' : List (Expr NodeId)},
    MatchEach U Γ p es es' → ∀ u ∈ Expr.referencesEach es, u.2.id < bound
  | _, _, .nil => nofun
  | _, _, .cons he hes => fun u hu => (List.mem_append.mp hu).elim (he.bounded h u) (hes.bounded h u)

end

variable {T : Std.HashMap NodeId Nat}

/-- Where all layers are shared, uses fit that have the same distance on both sides. -/
theorem Tables.both_fits {k : Nat} {us : List (UseKind × Reference NodeId)} (hu : ∀ u ∈ us, u.2.id < bound) :
    (Tables.both T bound).FitsAll (List.replicate k .shared) us := by
  intro u hm
  have hid : (fun d => Layers.outward (List.replicate k .shared) d) = id :=
    funext fun d => Layers.outward_replicate k d
  refine ⟨hu u hm, ?_, fun _ d _ => Layers.adjoins_replicate k d⟩
  change T[u.2.id]? = T[u.2.id]?.map fun d => Layers.outward (List.replicate k .shared) d
  rw [hid, Option.map_id, id]

theorem Layers.open_replicate (k : Nat) : Layers.Open (List.replicate k .shared) := by
  cases k with
  | zero => exact Layers.open_nil
  | succ k => exact Layers.open_shared _

theorem MatchExpr?.bounded (h : U.Bounded bound) {Γ : Levels} {p : Option String} {e e' : Option (Expr NodeId)}
    (he : MatchExpr? U Γ p e e') : ∀ x ∈ e, ∀ u ∈ x.references, u.2.id < bound := by
  cases he with
  | none => exact nofun
  | some he =>
      rintro x ⟨⟩
      exact he.bounded h

mutual

/-- A statement that is linked to another is code that is known. -/
theorem MatchStmt.code (h : U.Bounded bound) : ∀ {b : Bool} {Γ Γ' : Levels} {s s' : Stmt NodeId},
    MatchStmt U b Γ s s' Γ' → ∀ k, BracedNode (Tables.both T bound) (List.replicate k .shared) s s
  | _, _, _, _, _, .expression he, _ => .expression (Tables.both_fits (he.bounded h))
  | _, _, _, _, _, .print he, _ => .print (Tables.both_fits (he.bounded h))
  | _, _, _, _, _, .var _ he, k =>
      .var (Layers.open_replicate k) fun x hx => Tables.both_fits (he.bounded h x hx)
  | _, _, _, _, _, .block _ hs, k => .block (hs.code h (k + 1))
  | _, _, _, _, _, .ite hc hy, k => .ite (Tables.both_fits (hc.bounded h)) (.same (hy.code h k))
  | _, _, _, _, _, .iteElse hc hy hn, k =>
      .iteElse (Tables.both_fits (hc.bounded h)) (.same (hy.code h k)) (.same (hn.code h k))
  | _, _, _, _, _, .while hc hb, k => .while (Tables.both_fits (hc.bounded h)) (.same (hb.code h k))
  | _, _, _, _, _, .function _ hf, k => .function (Layers.open_replicate k) (hf.code h k)
  | _, _, _, _, _, .ret t _ he, _ => .ret t fun x hx => Tables.both_fits (he.bounded h x hx)
  | _, _, _, _, _, .base _ _ hm, k => .base (Layers.open_replicate k) (hm.code h (k + 1))
  | _, _, _, _, _, .derived (r := r) _ _ hr hm, k =>
      .derived (Layers.open_replicate k)
        (@Tables.both_fits _ _ _ [(.read, r)] (List.forall_mem_singleton.mpr (h.read hr)) _ List.mem_cons_self)
        (hm.code h (k + 2))

theorem MatchStmts.code (h : U.Bounded bound) : ∀ {b : Bool} {Γ Γ' : Levels} {ss ss' : List (Stmt NodeId)},
    MatchStmts U b Γ ss ss' Γ' → ∀ k, BracedStmts (Tables.both T bound) (List.replicate k .shared) ss ss
  | _, _, _, _, _, .nil _ _, _ => .nil _
  | _, _, _, _, _, .cons hs hss, k => .cons (.same (hs.code h k)) (hss.code h k)

theorem MatchFun.code (h : U.Bounded bound) : ∀ {Γ : Levels} {d d' : FunDecl NodeId},
    MatchFun U Γ d d' → ∀ k, BracedFun (Tables.both T bound) (List.replicate k .shared) d d
  | _, _, _, .mk _ _ _ _ _ hs, k => .mk _ _ (hs.code h (k + 1))

theorem MatchFuns.code (h : U.Bounded bound) : ∀ {Γ : Levels} {ds ds' : List (FunDecl NodeId)},
    MatchFuns U Γ ds ds' → ∀ k, BracedFuns (Tables.both T bound) (List.replicate k .shared) ds ds
  | _, _, _, .nil _, _ => .nil _
  | _, _, _, .cons hf hfs, k => .cons (hf.code h k) (hfs.code h k)

end

end bounded

/-! ### Values and heaps beside themselves -/

namespace World

section itself

variable {U : Links} {bound : NodeId} {T : Std.HashMap NodeId Nat} {w : World}

/-- Every frame is its own partner. -/
abbrev itself (w : World) : Partners := List.range w.roles.length

theorem itself_get {f : FrameId} (hf : f < w.roles.length) : w.itself[f]? = some f := by
  rw [itself, List.getElem?_range hf]

theorem Chain.aligned {Γ : Levels} {env : Env} (hc : w.Chain Γ env) : Aligned w.itself [] env env := by
  refine .shared_all (List.forall₂_same.mpr ?_)
  induction hc with
  | globals h => exact List.forall_mem_singleton.mpr (itself_get (List.getElem?_eq_some_iff.mp h).1)
  | level hr _ _ ih => exact List.forall_mem_cons.mpr ⟨itself_get (List.getElem?_eq_some_iff.mp hr).1, ih⟩

variable (h : U.Bounded bound)

include h

theorem ClosureMatch.beside {c c' : Closure} (hc : ClosureMatch U w c c') :
    ClosureBeside (Tables.both T bound) w.itself c c := by
  obtain ⟨-, -, Γ, hch, hd, -⟩ := hc
  exact ⟨rfl, [], hch.aligned, hd.code h 0, fun _ => Layers.open_nil⟩

theorem MethodMatch.beside {c c' : Closure} (hc : MethodMatch U w c c') :
    MethodBeside (Tables.both T bound) w.itself c c := by
  obtain ⟨-, -, Γ, hch, hd⟩ := hc
  exact ⟨rfl, [], hch.aligned, hd.code h 1⟩

theorem BodyMatch.beside {b b' : ClassBody} (hb : BodyMatch U w b b') :
    BodyBeside (Tables.both T bound) w.itself b b :=
  ⟨rfl, rfl, List.forall₂_self (fun _ _ hp => ⟨rfl, hp.2.beside h⟩) hb.methods⟩

theorem ClassMatch.beside {c c' : Class} (hc : ClassMatch U w c c') :
    ClassBeside (Tables.both T bound) w.itself c c :=
  ⟨hc.own.beside h, List.forall₂_self (fun _ _ hb => hb.beside h) hc.ancestors⟩

theorem ValueMatch.beside {v v' : Value} (hv : ValueMatch U w v v') :
    ValueBeside (Tables.both T bound) w.itself v v := by
  cases hv with
  | nil => exact .nil
  | bool b => exact .bool b
  | number x => exact .number x
  | string s => exact .string s
  | clock => exact .clock
  | function id hc => exact .function id (hc.beside h)
  | cls hc => exact .cls (hc.beside h)
  | instance_ id hc => exact .instance_ id (hc.beside h)

/-- A heap that matches another stands beside itself. -/
theorem Good.beside (hw : w.Good U) (hg : w.roles[globalFrame]? = some .globals) :
    HeapBeside (Tables.both T bound) w.itself w.left w.left where
  size := by rw [hw.frames_left, List.length_range]
  bound f hf := by
    rw [hw.frames_left]
    exact List.mem_range.mp hf
  nodup := List.nodup_range
  globals := itself_get (List.getElem?_eq_some_iff.mp hg).1
  slots f f' hf := by
    obtain ⟨hlt, he⟩ := List.getElem?_eq_some_iff.mp hf
    rw [List.length_range] at hlt
    obtain rfl : f = f' := by rwa [List.getElem_range] at he
    exact List.forall₂_self (fun _ _ hp => ⟨rfl, hp.value.beside h⟩)
      (hw.slots f _ (List.getElem?_eq_getElem hlt))
  fields_size := rfl
  fields i := List.forall₂_self (fun _ _ hp => ⟨rfl, hp.2.beside h⟩) (hw.fields i)
  nextId := rfl

end itself

end World

/-! ### Runs -/

/-- Outcomes that are the same but for the results and for the distances that a breach tells. -/
inductive OutcomeBeside {α : Type} (Q : α → α → Prop) : Outcome α → Outcome α → Prop
  | done {a a' : α} (h : Q a a') : OutcomeBeside Q (.done a) (.done a')
  | failed (fault : Diagnostic) : OutcomeBeside Q (.failed fault) (.failed fault)
  | inconsistent {b b' : Inconsistency} (h : b'.bare = b.bare) :
      OutcomeBeside Q (.inconsistent b) (.inconsistent b')
  | exhausted : OutcomeBeside Q .exhausted .exhausted

/-- Two runs end alike, in machines beside each other at the top level.  The first may run out of fuel alone if `p`
holds, the second if `q` does. -/
def RunsBeside (U : Tables) (p q : Prop) {α : Type} (Q : Partners → α → α → Prop)
    (r r' : Outcome α × Machine) : Prop :=
  (∃ w, Abreast U w r.2 r'.2 ∧ Aligned w [] r.2.env r'.2.env ∧ OutcomeBeside (Q w) r.1 r'.1) ∨
    p ∧ r.1 = .exhausted ∨ q ∧ r'.1 = .exhausted

section runs

variable {U : Tables} {S : Settings} {p q : Prop} {w : Partners} {m m' : Machine}

theorem ExitBeside.outcome {α : Type} {Q : α → α → Prop} {e e' : Exit} (h : ExitBeside U w e e') :
    OutcomeBeside Q (Session.outcomeOf e) (Session.outcomeOf e') := by
  cases h with
  | returned h => exact .exhausted
  | failed e => exact .failed _
  | refused fault => exact .failed _
  | inconsistent h => exact .inconsistent h
  | exhausted => exact .exhausted

theorem flushed_beside (h : m'.sink = m.sink) :
    OutcomeBeside (fun _ _ => True) (Session.flushed m) (Session.flushed m') := by
  unfold Session.flushed
  rw [h]
  cases m.sink.flush with
  | none => exact .done trivial
  | some fault => exact .failed _

/-- Machines that kept their scope chains are aligned as they were. -/
theorem Aligned.kept {w₁ : Partners} {n n' : Machine} (ha : Aligned w [] m.env m'.env) (hw : w <+: w₁)
    (hk : Kept m n) (hk' : Kept m' n') : Aligned w₁ [] n.env n'.env := by
  rw [hk.env, hk'.env]
  exact ha.mono hw

variable (hS : S.lookup = .byDistance) {f g : Nat} (hg : Supplied p q 0 f g) (hm : Abreast U w m m')
  (ha : Aligned w [] m.env m'.env)

include hS hg hm ha

/-- Programs that are the same but for braces end alike. -/
theorem Session.interpret_beside {body body' : List (Stmt NodeId)} (h : BracedStmts U [] body body') :
    RunsBeside U p q (fun _ _ _ => True) (Session.interpret { S with fuel := f } body m)
      (Session.interpret { S with fuel := g } body' m') := by
  have hrun := runAll_together (alongside (S := { S with fuel := f }) (G := g) hS f).2 hg h ha m m' hm rfl rfl
  unfold Session.interpret
  dsimp only at hrun ⊢
  revert hrun
  generalize runAll (exec { S with fuel := f } f) body m = r
  generalize runAll (exec { S with fuel := g } g) body' m' = r'
  rintro (⟨hw, hn, hk, hk', -⟩ | ⟨hw, hn, hk, hk', hx⟩ | ⟨hp, n, r⟩ | ⟨hq, r, n⟩)
  · exact .inl ⟨_, hn, ha.kept hw hk hk', flushed_beside hn.sink⟩
  · have ho := hx.outcome (Q := fun (_ _ : Unit) => True)
    cases hx with
    | returned h => exact .inl ⟨_, hn, ha.kept hw hk hk', flushed_beside hn.sink⟩
    | _ => exact .inl ⟨_, hn, ha.kept hw hk hk', ho⟩
  · exact .inr (.inl ⟨hp, rfl⟩)
  · exact .inr (.inr ⟨hq, rfl⟩)

/-- An expression ends alike in machines beside each other. -/
theorem Session.evaluated_beside {e : Expr NodeId} (he : U.FitsAll [] e.references) :
    RunsBeside U p q (ValueBeside U) (Session.evaluated { S with fuel := f } e m)
      (Session.evaluated { S with fuel := g } e m') := by
  have hrun := (alongside (S := { S with fuel := f }) (G := g) hS f).1 hg.lend he ha m m' hm rfl rfl
  unfold Session.evaluated
  dsimp only at hrun ⊢
  revert hrun
  generalize eval { S with fuel := f } f e m = r
  generalize eval { S with fuel := g } g e m' = r'
  rintro (⟨hw, hn, hk, hk', hv⟩ | ⟨hw, hn, hk, hk', hx⟩ | ⟨hp, n, r⟩ | ⟨hq, r, n⟩)
  · exact .inl ⟨_, hn, ha.kept hw hk hk', .done hv⟩
  · exact .inl ⟨_, hn, ha.kept hw hk hk', hx.outcome⟩
  · exact .inr (.inl ⟨hp, rfl⟩)
  · exact .inr (.inr ⟨hq, rfl⟩)

end runs

/-! ### What tables learn -/

/-- Expressions at their places that keep the rules, with numbers from `first` up to `last`. -/
structure Learnable (first last : NodeId) (xs : List Placed) : Prop where
  ids : Within first last ((xs.flatMap Placed.uses).map (·.ref.id))
  sound : ∀ x ∈ xs, x.Sound
  allowed : ∀ u ∈ xs.flatMap Placed.uses, u.Allowed

theorem Program.Fits.learnable {p : Program} {first last : NodeId} (h : p.Fits first last) :
    Learnable first last (Stmt.expressionsAll [] p.statements) where
  ids := h.uses
  sound := @Stmt.expressionsAll_sound p.statements [] h.accepted.formed nofun fun _ _ => rfl
  allowed := h.accepted.allowed

theorem learnable_of_analyze {source : String} {first last : NodeId} {e : LoneExpr}
    (h : analyzeExpression first source = .ok (e, last)) :
    Learnable first last [⟨[], none, e.expr⟩] ∧ e.distances = distancesOf (usesAt [] none e.expr.references) := by
  obtain ⟨plain, hreads, hnum, hfound⟩ := analyzeExpression_ok h
  have hids := Expr.number_within plain first
  have hspelled := Expr.spelled_number hreads.spelled first
  rw [hnum] at hids hspelled
  have huses : ([⟨[], none, e.expr⟩] : List Placed).flatMap Placed.uses = usesAt [] none e.expr.references :=
    List.append_nil _
  refine ⟨⟨?_, ?_, ?_⟩, hfound.distances⟩
  · rwa [huses, usesAt_ids]
  · intro x hx
    rw [List.mem_singleton.mp hx]
    exact ⟨nofun, hspelled, nofun⟩
  · rw [huses]
    exact hfound.allowed

namespace Learnable

variable {first last : NodeId} {xs : List Placed} {T : Std.HashMap NodeId Nat} (h : Learnable first last xs)

include h

/-- What a table knows of the expressions that it has learnt. -/
theorem known (hT : ∀ i, first ≤ i → T[i]? = none) :
    AllKnown (T.insertMany (distancesOf (xs.flatMap Placed.uses))) last xs := by
  intro x hx u hu
  have hmem : u ∈ xs.flatMap Placed.uses := List.mem_flatMap.mpr ⟨x, hx, hu⟩
  obtain ⟨hfirst, hlast⟩ := h.ids.range _ (List.mem_map_of_mem hmem)
  exact ⟨getElem?_distancesOf h.ids.nodup hmem (hT _ hfirst), hlast, (h.sound x hx).uses u hu, h.allowed u hmem⟩

/-- A table does not forget when it learns. -/
theorem unchanged {i : NodeId} (hi : i < first) :
    (T.insertMany (distancesOf (xs.flatMap Placed.uses)))[i]? = T[i]? :=
  getElem?_distancesOf_of_notMem fun _ hu he =>
    Nat.not_lt.mpr (h.ids.range _ (List.mem_map_of_mem hu)).1 (he ▸ hi)

end Learnable

/-- Tables that have learnt distances on both sides, of nodes with numbers up to `last`. -/
def Tables.learn (U : Tables) (ds ds' : Distances) (last : NodeId) : Tables :=
  ⟨U.left.insertMany ds, U.right.insertMany ds', last⟩

/-! ### Steps -/

/-- Two sessions beside each other: their machines are, at the top level, and the next number is the same. -/
structure Session.Beside (U : Tables) (s s' : Session) : Prop where
  machines : ∃ w, Abreast U w s.machine s'.machine ∧ Aligned w [] s.machine.env s'.machine.env
  known : U.known = s.nextNode
  nextNode : s'.nextNode = s.nextNode

theorem Comparison.links_bounded {look : Lookup} {us : List Use} {s : Session} :
    (s.comparison look us).links.Bounded s.nextNode where
  read h := h.1.1
  write h := h.1.1
  site h := h.1

/-- A session stands beside itself. -/
theorem Session.Sound.beside {look : Lookup} {us : List Use} {s : Session} (h : s.Sound look us) :
    s.Beside (Tables.both s.machine.distances s.nextNode) s where
  machines := by
    obtain ⟨w, hw, hc⟩ := h.world
    have hheap := hw.good.beside (T := s.machine.distances) Comparison.links_bounded hc.role_globals
    rw [← hw.left] at hheap
    exact ⟨w.itself, ⟨hheap, rfl, rfl, rfl, rfl, rfl⟩, hc.aligned⟩
  known := rfl
  nextNode := rfl

/-- An outcome with another result. -/
def Outcome.map {α β : Type} (f : α → β) : Outcome α → Outcome β
  | done a => done (f a)
  | rejected faults => rejected faults
  | failed fault => failed fault
  | inconsistent breach => inconsistent breach
  | exhausted => exhausted

/-- An ending with a bare value. -/
def Ending.bare : Ending → Ending
  | ran outcome => ran outcome
  | evaluated outcome => evaluated (outcome.map Value.bare)

/-- Did the fuel suffice? -/
def Ending.Settled : Ending → Prop
  | ran .exhausted | evaluated .exhausted => False
  | _ => True

/-- Two steps end alike, in sessions beside each other.  The first may run out of fuel alone if `p` holds, the second
if `q` does. -/
def StepsBeside (p q : Prop) (x x' : Ending × Session) : Prop :=
  (∃ U, x.2.Beside U x'.2 ∧ x'.1.bare = x.1.bare) ∨ p ∧ ¬ x.1.Settled ∨ q ∧ ¬ x'.1.Settled

theorem Outcome.map_id {α : Type} (o : Outcome α) : o.map id = o := by cases o <;> rfl

theorem EarlyOnly.bare_eq {S : Settings} {us : List Use} {n : Machine} {b : Inconsistency} (h : EarlyOnly S us n b) :
    b.bare = b := by
  obtain ⟨u, -, -, -, rfl, -⟩ := h
  rfl

/-- Outcomes beside each other are the same but for the results, if their breaches tell no distance. -/
theorem OutcomeBeside.map_eq {α β : Type} {Q : α → α → Prop} {F : α → β} (hF : ∀ a a', Q a a' → F a' = F a)
    {o o' : Outcome α} (h : OutcomeBeside Q o o') (ho : ∀ b, o = .inconsistent b → b.bare = b)
    (ho' : ∀ b, o' = .inconsistent b → b.bare = b) : o'.map F = o.map F := by
  cases h with
  | done h => exact congrArg Outcome.done (hF _ _ h)
  | failed fault => rfl
  | @inconsistent b b' h =>
      have hb : b' = b := (ho' b' rfl).symm.trans (h.trans (ho b rfl))
      exact congrArg Outcome.inconsistent hb
  | exhausted => rfl

section steps

variable {S : Settings} {U : Tables} {p q : Prop} {s s' : Session} {us us' : List Use}

/-- Sessions beside each other learn the distances of programs with the same numbers. -/
theorem Session.Beside.learnt (h : s.Beside U s') {last : NodeId} {xs xs' : List Placed}
    (hx : Learnable s.nextNode last xs) (hx' : Learnable s.nextNode last xs') {ds ds' : Distances}
    (hds : ds = distancesOf (xs.flatMap Placed.uses)) (hds' : ds' = distancesOf (xs'.flatMap Placed.uses)) :
    ∃ w, Abreast (U.learn ds ds' last) w (Session.learn s.machine ds) (Session.learn s'.machine ds') ∧
      Aligned w [] s.machine.env s'.machine.env := by
  obtain ⟨w, hm, ha⟩ := h.machines
  subst hds hds'
  have hle : U.Le (U.learn (distancesOf (xs.flatMap Placed.uses)) (distancesOf (xs'.flatMap Placed.uses)) last) :=
    ⟨h.known ▸ hx.ids.le, fun _ hi => hx.unchanged (h.known ▸ hi), fun _ hi => hx'.unchanged (h.known ▸ hi)⟩
  refine ⟨w, ⟨hm.heap.mono hle, hm.depth, hm.sink, hm.readings, ?_, ?_⟩, ha⟩
  · exact congrArg (Std.HashMap.insertMany · _) hm.left
  · exact congrArg (Std.HashMap.insertMany · _) hm.right

variable (h : s.Beside U s') (hs : s.Sound .byDistance us) (hs' : s'.Sound .byDistance us')

include h hs hs'

/-- What sessions beside each other know of expressions that they have learnt. -/
theorem Session.Beside.known_learnt {last : NodeId} {xs xs' : List Placed} (hx : Learnable s.nextNode last xs)
    (hx' : Learnable s.nextNode last xs') {ds ds' : Distances} (hds : ds = distancesOf (xs.flatMap Placed.uses))
    (hds' : ds' = distancesOf (xs'.flatMap Placed.uses)) :
    AllKnown (U.learn ds ds' last).left last xs ∧ AllKnown (U.learn ds ds' last).right last xs' := by
  obtain ⟨w, hm, -⟩ := h.machines
  subst hds hds'
  refine ⟨hx.known fun i hi => ?_, hx'.known fun i hi => ?_⟩
  · rw [← hm.left]
    exact hs.fresh i hi
  · rw [← hm.right]
    exact hs'.fresh i (h.nextNode ▸ hi)

/-- A program is the same code in sessions beside each other. -/
theorem Session.Beside.code {P : Program} {last : NodeId} (hP : P.Fits s.nextNode last) :
    BracedStmts (U.learn P.distances P.distances last) [] P.statements P.statements := by
  obtain ⟨hl, hr⟩ := h.known_learnt hs hs' hP.learnable hP.learnable hP.accepted.distances hP.accepted.distances
  exact Stmt.codeAll P.statements (.nil []) hP.accepted.formed Layers.open_nil hl hr

/-- A program and the same with a statement in braces are the same code but for the braces. -/
theorem Session.Beside.code_braced {P P' : Program} {last : NodeId} (hP : P.Fits s.nextNode last)
    (hP' : P'.Fits s.nextNode last) {B : Stmt NodeId} (hb : B.BracingAll P.statements P'.statements) (hB : B.Formed) :
    BracedStmts (U.learn P.distances P'.distances last) [] P.statements P'.statements := by
  obtain ⟨hl, hr⟩ := h.known_learnt hs hs' hP.learnable hP'.learnable hP.accepted.distances hP'.accepted.distances
  exact hb.code hB (.nil []) trivial hP.accepted.formed Layers.open_nil hl hr

variable (hS : S.lookup = .byDistance) {f g : Nat} (hg : Supplied p q 0 f g)

include hS hg

/-- Sessions beside each other run programs that are the same but for braces alike. -/
theorem Session.Beside.run {source source' : String} {P P' : Program} {last : NodeId}
    (ha : analyze s.nextNode source = .ok (P, last)) (ha' : analyze s.nextNode source' = .ok (P', last))
    (hcode : BracedStmts (U.learn P.distances P'.distances last) [] P.statements P'.statements) :
    StepsBeside p q (s.step { S with fuel := f } (.run source)) (s'.step { S with fuel := g } (.run source')) := by
  have hP := Program.fits_of_analyze ha
  have hP' := Program.fits_of_analyze ha'
  obtain ⟨w, hm, henv⟩ := h.learnt hP.learnable hP'.learnable hP.accepted.distances hP'.accepted.distances
  have hend := Session.interpret_beside hS hg hm henv hcode
  have hearly := (Session.step_sound (S := { S with fuel := f }) hS hs (.run source) nofun).early
  have hearly' := (Session.step_sound (S := { S with fuel := g }) hS hs' (.run source') nofun).early
  unfold Session.step at hearly hearly' ⊢
  simp only [Session.run_eq ha] at hearly ⊢
  simp only [Session.run_eq (h.nextNode ▸ ha')] at hearly' ⊢
  rcases hend with ⟨w, hm, henv, ho⟩ | ⟨hp, hx⟩ | ⟨hq, hx⟩
  · refine .inl ⟨_, ⟨⟨w, hm, henv⟩, rfl, rfl⟩, congrArg Ending.ran ?_⟩
    have hsame := ho.map_eq (F := id) (fun _ _ _ => rfl)
      (fun b hb => (hearly b (by rw [hb]; rfl)).bare_eq) fun b hb => (hearly' b (by rw [hb]; rfl)).bare_eq
    rwa [Outcome.map_id, Outcome.map_id] at hsame
  · exact .inr (.inl ⟨hp, by rw [hx]; exact id⟩)
  · exact .inr (.inr ⟨hq, by rw [hx]; exact id⟩)

/-- Sessions beside each other evaluate an expression alike. -/
theorem Session.Beside.evaluate {source : String} {e : LoneExpr} {last : NodeId}
    (ha : analyzeExpression s.nextNode source = .ok (e, last)) :
    StepsBeside p q (s.step { S with fuel := f } (.evaluate source))
      (s'.step { S with fuel := g } (.evaluate source)) := by
  obtain ⟨hx, hds⟩ := learnable_of_analyze ha
  have hds : e.distances = distancesOf (([⟨[], none, e.expr⟩] : List Placed).flatMap Placed.uses) :=
    hds.trans (congrArg distancesOf (List.append_nil _).symm)
  obtain ⟨w, hm, henv⟩ := h.learnt hx hx hds hds
  obtain ⟨hl, hr⟩ := h.known_learnt hs hs' hx hx hds hds
  have hend := Session.evaluated_beside hS hg hm henv (hl.fits (.nil []) hr)
  have hearly := (Session.step_sound (S := { S with fuel := f }) hS hs (.evaluate source) nofun).early
  have hearly' := (Session.step_sound (S := { S with fuel := g }) hS hs' (.evaluate source) nofun).early
  unfold Session.step at hearly hearly' ⊢
  simp only [Session.evaluate_eq ha] at hearly ⊢
  simp only [Session.evaluate_eq (h.nextNode ▸ ha)] at hearly' ⊢
  rcases hend with ⟨w, hm, henv, ho⟩ | ⟨hp, hx⟩ | ⟨hq, hx⟩
  · refine .inl ⟨_, ⟨⟨w, hm, henv⟩, rfl, rfl⟩, congrArg Ending.evaluated ?_⟩
    exact ho.map_eq (fun _ _ hv => hv.bare_eq)
      (fun b hb => (hearly b (by rw [hb]; rfl)).bare_eq) fun b hb => (hearly' b (by rw [hb]; rfl)).bare_eq
  · exact .inr (.inl ⟨hp, by rw [hx]; exact id⟩)
  · exact .inr (.inr ⟨hq, by rw [hx]; exact id⟩)

/-- Sessions beside each other take a step alike. -/
theorem Session.Beside.step (st : Step) :
    StepsBeside p q (s.step { S with fuel := f } st) (s'.step { S with fuel := g } st) := by
  cases st with
  | run source =>
      cases ha : analyze s.nextNode source with
      | error faults =>
          unfold Session.step
          simp only [Session.run_rejected ha, Session.run_rejected (h.nextNode ▸ ha)]
          exact .inl ⟨U, h, rfl⟩
      | ok r => exact h.run hs hs' hS hg ha ha (h.code hs hs' (Program.fits_of_analyze ha))
  | evaluate source =>
      cases ha : analyzeExpression s.nextNode source with
      | error faults =>
          unfold Session.step
          simp only [Session.evaluate_rejected ha, Session.evaluate_rejected (h.nextNode ▸ ha)]
          exact .inl ⟨U, h, rfl⟩
      | ok r => exact h.evaluate hs hs' hS hg ha

end steps

/-! ### Sessions -/

/-- Sessions end alike after steps.  The first may run out of fuel alone if `p` holds, the second if `q` does. -/
def EndingsBeside (p q : Prop) (x x' : List Ending × Session) : Prop :=
  (∃ U, x.2.Beside U x'.2 ∧ x'.1.map Ending.bare = x.1.map Ending.bare) ∨
    p ∧ (∃ e ∈ x.1, ¬ e.Settled) ∨ q ∧ ∃ e ∈ x'.1, ¬ e.Settled

section sessions

variable {S : Settings} {p q : Prop} {us us' : List Use}

/-- What follows a step that ends alike. -/
theorem StepsBeside.then {x x' : Ending × Session} (h : StepsBeside p q x x') {rest rest' : List Ending × Session}
    (hrest : ∀ U, x.2.Beside U x'.2 → EndingsBeside p q rest rest') :
    EndingsBeside p q (x.1 :: rest.1, rest.2) (x'.1 :: rest'.1, rest'.2) := by
  rcases h with ⟨U, hs, he⟩ | ⟨hp, hx⟩ | ⟨hq, hx⟩
  · rcases hrest U hs with ⟨V, ht, hes⟩ | ⟨hp, e, hm, hx⟩ | ⟨hq, e, hm, hx⟩
    · exact .inl ⟨V, ht, congrArg₂ List.cons he hes⟩
    · exact .inr (.inl ⟨hp, e, List.mem_cons_of_mem _ hm, hx⟩)
    · exact .inr (.inr ⟨hq, e, List.mem_cons_of_mem _ hm, hx⟩)
  · exact .inr (.inl ⟨hp, _, List.mem_cons_self, hx⟩)
  · exact .inr (.inr ⟨hq, _, List.mem_cons_self, hx⟩)

/-- Sessions beside each other take steps alike. -/
theorem Session.Beside.perform (hS : S.lookup = .byDistance) {f g : Nat} (hg : Supplied p q 0 f g) (steps : List Step)
    {U : Tables} {s s' : Session} (h : s.Beside U s') (hs : s.Sound .byDistance us) (hs' : s'.Sound .byDistance us') :
    EndingsBeside p q (s.perform { S with fuel := f } steps) (s'.perform { S with fuel := g } steps) := by
  induction steps generalizing U s s' us us' with
  | nil => exact .inl ⟨U, h, rfl⟩
  | cons st steps ih =>
      have hnext := (Session.step_sound (S := { S with fuel := f }) hS hs st nofun).sound
      have hnext' := (Session.step_sound (S := { S with fuel := g }) hS hs' st nofun).sound
      exact (h.step hs hs' hS hg st).then fun V hV => ih hV hnext hnext'

end sessions

end Lox
