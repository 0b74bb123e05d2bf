import Lox.Proofs.Enclosing

/-! # Where the values of a session come from

Every function in the heap was made by code of the session, in a scope chain that goes with this code
(`Value.Known`).  The frame in which a method was bound holds the object, and the frame in which a class was
made holds its superclass (`Happening.Fills`): no program assigns to `this` or `super`, so what is bound there
stays.  Both hold of all machines of a session (`Lexical`), and an action that keeps them can be put together
from actions that do (`Keeps`). -/

namespace Lox

/-! ### Known values -/

section known

variable (sites : List Site) (past : History)

/-- A method of a class that was made, whose code is among given sites. -/
inductive Closure.IsMethod : Closure → Prop
  | intro {path : Path} {outer : Option Activation} {c : Making} {f : Closure}
      (h : Enclosed past path c.moment.machine.env outer) (hc : c.Happened past) (hf : c.Has f)
      (hs : f.decl.sites (c.construct :: path) ⊆ sites) : IsMethod f

/-- A function whose code is among given sites and enclosed by its scope chain, or a method that was bound. -/
inductive Closure.Known : Closure → Prop
  | plain {path : Path} {x : Option Activation} {f : Closure} (h : Enclosed past path f.env x)
      (hs : f.decl.sites path ⊆ sites) : Known f
  | bound {f : Closure} {object : Value} {k : Moment} (h : f.IsMethod sites past) (hk : k ∈ past)
      (hwhat : k.what = .binds f object) : Known { f with env := k.frame :: f.env }

/-- A class with methods of classes that were made. -/
def Class.Known (c : Class) : Prop := ∀ body ∈ c.bodies, ∀ entry ∈ body.methods, entry.2.IsMethod sites past

/-- A value that holds known functions and methods only. -/
def Value.Known : Value → Prop
  | function _ f => f.Known sites past
  | cls c => c.Known sites past
  | instance_ _ c => c.Known sites past
  | _ => True

/-- A heap that holds known values only. -/
structure Heap.Known (h : Heap) : Prop where
  slots : ∀ f n v, (h.slots f).lookup n = some v → v.Known sites past
  fields : ∀ i n v, h.field? i n = some v → v.Known sites past

/-- The value of a `return` is known. -/
def Exit.Known : Exit → Prop
  | returned v => v.Known sites past
  | _ => True

end known

section mono

variable {sites sites' : List Site} {past past' : History}

theorem Closure.IsMethod.mono (hs : sites ⊆ sites') (hp : past ⊆ past') {f : Closure}
    (h : f.IsMethod sites past) : f.IsMethod sites' past' := by
  cases h with
  | intro h hc hf hsites => exact .intro (h.mono hp) (hc.mono hp) hf (List.Subset.trans hsites hs)

theorem Closure.Known.mono (hs : sites ⊆ sites') (hp : past ⊆ past') {f : Closure} (h : f.Known sites past) :
    f.Known sites' past' := by
  cases h with
  | plain h hsites => exact .plain (h.mono hp) (List.Subset.trans hsites hs)
  | bound h hk hwhat => exact .bound (h.mono hs hp) (hp hk) hwhat

theorem Class.Known.mono (hs : sites ⊆ sites') (hp : past ⊆ past') {c : Class} (h : c.Known sites past) :
    c.Known sites' past' := fun body hb entry he => (h body hb entry he).mono hs hp

theorem Value.Known.mono (hs : sites ⊆ sites') (hp : past ⊆ past') {v : Value} (h : v.Known sites past) :
    v.Known sites' past' := by
  cases v with
  | function id f => exact Closure.Known.mono hs hp h
  | cls c => exact Class.Known.mono hs hp h
  | instance_ id c => exact Class.Known.mono hs hp h
  | _ => trivial

/-- Values stay known in what follows. -/
theorem Value.Known.later (hp : past ⊆ past') {v : Value} (h : v.Known sites past) : v.Known sites past' :=
  h.mono (List.Subset.refl _) hp

theorem Value.Scalar.known {v : Value} (h : v.Scalar) : v.Known sites past := by
  cases h <;> trivial

theorem Heap.Known.mono (hs : sites ⊆ sites') (hp : past ⊆ past') {h : Heap} (hh : h.Known sites past) :
    h.Known sites' past' where
  slots f n v hv := (hh.slots f n v hv).mono hs hp
  fields i n v hv := (hh.fields i n v hv).mono hs hp

theorem Exit.Known.later (hp : past ⊆ past') {e : Exit} (h : e.Known sites past) : e.Known sites past' := by
  cases e with
  | returned v => exact Value.Known.later hp h
  | _ => trivial

/-- A method that a known class finds. -/
theorem Class.Known.find? {c : Class} (h : c.Known sites past) {n : String} {f : Closure}
    (hf : c.find? n = some f) : f.IsMethod sites past := by
  obtain ⟨body, hb, hl⟩ := List.exists_of_findSome?_eq_some hf
  obtain ⟨before, after, hm, -⟩ := List.lookup_eq_some_iff.mp hl
  exact h body hb (n, f) (by rw [hm]; simp)

/-- The code of a known function is enclosed when the function is entered. -/
theorem Closure.Known.entered {f : Closure} (h : f.Known sites past) {k : Moment} (hk : k ∈ past)
    (hwhat : k.what = .enters f) :
    ∃ path x, f.decl.sites path ⊆ sites ∧ Enclosed past (.function f.decl [] :: path) (k.frame :: f.env) x := by
  cases h with
  | plain h hs => exact ⟨_, _, hs, .function [] h hk hwhat⟩
  | @bound f object b hm hb hbinds =>
      cases hm with
      | @intro path outer c f h hc hf hs =>
          exact ⟨c.construct :: path, _, hs,
            @Enclosed.method past path outer ⟨c, f, object, b, k⟩ [] h ⟨hc, hf, hb, hbinds, hk, hwhat⟩⟩

end mono

/-! ### What stays in the frames -/

/-- What the frame that is made next must hold, after what happens. -/
def Happening.Fills (slots : Slots) : Happening → Prop
  | .binds _ object => (∃ id c, object = .instance_ id c) ∧ slots.lookup "this" = some object
  | .makes _ _ _ (some c) => slots.lookup "super" = some (.cls c)
  | _ => True

/-- What a frame binds `this` and `super` to, it still does. -/
def Heap.Retains (h h' : Heap) : Prop :=
  ∀ f n v, ¬ Ordinary n → (h.slots f).lookup n = some v → (h'.slots f).lookup n = some v

theorem not_ordinary_this : ¬ Ordinary "this" := fun h => h.1 rfl

theorem not_ordinary_super : ¬ Ordinary "super" := fun h => h.2 rfl

section heaps

variable {sites : List Site} {past : History} {h h' : Heap}

theorem Heap.Retains.refl (h : Heap) : h.Retains h := fun _ _ _ _ hv => hv

theorem Happening.Fills.retained {what : Happening} {f : FrameId} (hr : h.Retains h')
    (hw : what.Fills (h.slots f)) : what.Fills (h'.slots f) := by
  cases what with
  | binds method object => exact ⟨hw.1, hr _ _ _ not_ordinary_this hw.2⟩
  | makes name superclass methods parent =>
      cases parent with
      | none => trivial
      | some c => exact hr _ _ _ not_ordinary_super hw
  | _ => trivial

/-- There is nothing yet in the frame that will be made next. -/
theorem Heap.slots_size (h : Heap) : h.slots h.frames.size = [] := by
  simp [Heap.slots]

theorem Heap.Known.getAt (hh : h.Known sites past) {env : Env} {d : Nat} {n : String} {v : Value}
    (hv : h.getAt env d n = .ok v) : v.Known sites past := by
  cases hf : env[d]? with
  | none => simp [Heap.getAt, Heap.frameAt, hf, bind, Except.bind] at hv
  | some f =>
      rw [Heap.getAt_of_frame n h hf] at hv
      cases hl : (h.slots f).lookup n with
      | none =>
          rw [hl] at hv
          cases hv
      | some u =>
          rw [hl] at hv
          exact hh.slots f n v (Except.ok.inj hv ▸ hl)

theorem Heap.Known.define (hh : h.Known sites past) (f : FrameId) (n : String) {v : Value}
    (hv : v.Known sites past) : (h.define f n v).Known sites past where
  slots g m u hu := by
    rw [h.slots_define] at hu
    split at hu
    · by_cases hm : m = n
      · rw [hm, Slots.lookup_define_self] at hu
        exact Option.some.inj hu ▸ hv
      · rw [Slots.lookup_define_of_ne _ _ hm] at hu
        exact hh.slots f m u hu
    · exact hh.slots g m u hu
  fields := hh.fields

theorem Heap.Retains.define (h : Heap) (f : FrameId) {n : String} (hn : Ordinary n) (v : Value) :
    h.Retains (h.define f n v) := by
  intro g m u hm hu
  rw [h.slots_define]
  split
  next hg =>
    rw [Slots.lookup_define_of_ne _ _ (fun he : m = n => hm (he ▸ hn)), ← hg.1]
    exact hu
  next => exact hu

theorem Heap.Known.newFrame (hh : h.Known sites past) {slots : Slots}
    (hs : ∀ n v, slots.lookup n = some v → v.Known sites past) : (h.newFrame slots).2.Known sites past where
  slots f n v hv := by
    rw [h.slots_newFrame] at hv
    split at hv
    · exact hs n v hv
    · exact hh.slots f n v hv
  fields := hh.fields

theorem Heap.Retains.newFrame (h : Heap) (slots : Slots) : h.Retains (h.newFrame slots).2 := by
  intro f n v _ hv
  rw [h.slots_newFrame]
  split
  next hf =>
    rw [hf, h.slots_size] at hv
    exact nomatch hv
  next => exact hv

theorem Heap.Known.newInstance (hh : h.Known sites past) : h.newInstance.2.Known sites past where
  slots := hh.slots
  fields i n v hv := by
    refine hh.fields i n v ?_
    unfold Heap.newInstance Heap.field? at hv
    unfold Heap.field?
    simp only [Array.getD_eq_getD_getElem?, Array.getElem?_push] at hv ⊢
    split at hv
    · exact nomatch hv
    · exact hv

theorem Heap.Known.setField (hh : h.Known sites past) (i : Nat) (n : String) {v : Value}
    (hv : v.Known sites past) : (h.setField i n v).Known sites past where
  slots := hh.slots
  fields j m u hu := by
    have hold := hh.fields j m u
    unfold Heap.setField Heap.field? at hu
    unfold Heap.field? at hold
    simp only [Array.getD_eq_getD_getElem?, Array.getElem?_modify] at hu hold
    by_cases hj : i = j
    · subst hj
      cases hs : h.fields[i]? with
      | none => simp [hs] at hu
      | some slots =>
          rw [hs] at hold
          simp only [hs, if_true, Option.map_some, Option.getD_some] at hu hold
          by_cases hm : m = n
          · rw [hm, Slots.lookup_define_self] at hu
            exact Option.some.inj hu ▸ hv
          · rw [Slots.lookup_define_of_ne _ _ hm] at hu
            exact hold hu
    · rw [if_neg hj] at hu
      exact hold hu

/-- Parameters are bound to arguments. -/
theorem bindParams_known {params : List Lexeme} {values : List Value}
    (hv : ∀ v ∈ values, v.Known sites past) :
    ∀ n v, (bindParams params values).lookup n = some v → v.Known sites past := by
  unfold bindParams
  have hzip : ∀ p ∈ params.zip values, p.2.Known sites past := fun p hp => hv _ (List.of_mem_zip hp).2
  have hnil : ∀ n v, List.lookup n ([] : Slots) = some v → v.Known sites past := fun _ _ h => nomatch h
  generalize params.zip values = pairs at hzip
  generalize ([] : Slots) = slots at hnil
  induction pairs generalizing slots with
  | nil => exact hnil
  | cons p pairs ih =>
      obtain ⟨hp, hrest⟩ := List.forall_mem_cons.mp hzip
      refine ih hrest _ fun n v hn => ?_
      by_cases hm : n = p.1.text
      · rw [hm, Slots.lookup_define_self] at hn
        exact Option.some.inj hn ▸ hp
      · rw [Slots.lookup_define_of_ne _ _ hm] at hn
        exact hnil n v hn

end heaps

/-! ### Evaluations of `this` and `super` -/

/-- An evaluation of `this` in an activation: it yields the instance that the method was bound to. -/
def Activation.Yields (S : Settings) (x : Activation) (ref : Reference NodeId) (m : Machine) : Prop :=
  (∃ id c, x.object = .instance_ id c) ∧ ∀ fuel, eval S (fuel + 1) (.this ref) m = .ok x.object m

/-- An evaluation of `super` in an activation.  The method is looked for from the class on that the
superclass expression yielded when the class of the activation was made.  If it is found, it is bound to the
instance that the activation is bound to; if not, the program fails. -/
def Activation.Finds (S : Settings) (x : Activation) (ref : Reference NodeId) (method : Lexeme) (m : Machine) :
    Prop :=
  ∃ superclass parent, x.origin.superclass = some superclass ∧ x.origin.parent = some parent ∧
    Action.read .byDistance superclass x.origin.moment.machine = .ok (.cls parent) x.origin.moment.machine ∧
    (∃ id c, x.object = .instance_ id c) ∧
    ∀ fuel,
      match parent.find? method.text with
      | some found => ∃ id n, eval S (fuel + 1) (.super ref method) m =
          .ok (.function id { found with env := m.heap.frames.size :: found.env }) n ∧
          n.heap.slots m.heap.frames.size = [("this", x.object)]
      | none => ∃ e, eval S (fuel + 1) (.super ref method) m = .error (.failed e) m ∧
          e.fault.message = "Undefined property '" ++ method.text ++ "'." ∧ e.line = method.line

/-- At this moment, after those before it, a name is used at one of the sites, in a method.  Something holds
of every activation of the innermost method around the site in whose chain the machine is, and there is one. -/
def Moment.UsedIn (sites : List Site) (k : Moment) (early : History) (kind : UseKind) (ref : Reference NodeId)
    (P : Activation → Prop) : Prop :=
  ∃ site ∈ sites, (∃ own, site.mention = .uses kind ref own) ∧
    (∃ x, Enclosed early site.path k.machine.env (some x)) ∧
    ∀ x, Enclosed early site.path k.machine.env (some x) → P x

/-- What an evaluation of `this` or `super` comes to is settled by the activation around it. -/
def Moment.Lawful (S : Settings) (sites : List Site) (k : Moment) (early : History) : Prop :=
  match k.what with
  | .evaluates (.this ref) => k.UsedIn sites early .this ref fun x => x.Yields S ref k.machine
  | .evaluates (.super ref method) => k.UsedIn sites early .super ref fun x => x.Finds S ref method k.machine
  | _ => True

section lawful

variable {sites sites' : List Site} {k : Moment} {early : History}

theorem Moment.UsedIn.mono (hs : sites ⊆ sites') {kind : UseKind} {ref : Reference NodeId} {P : Activation → Prop}
    (h : k.UsedIn sites early kind ref P) : k.UsedIn sites' early kind ref P := by
  obtain ⟨site, hmem, hrest⟩ := h
  exact ⟨site, hs hmem, hrest⟩

theorem Moment.Lawful.mono {S : Settings} (hs : sites ⊆ sites') (h : k.Lawful S sites early) :
    k.Lawful S sites' early := by
  obtain ⟨m, what⟩ := k
  cases what with
  | evaluates e =>
      cases e with
      | this ref => exact Moment.UsedIn.mono hs h
      | super ref method => exact Moment.UsedIn.mono hs h
      | _ => trivial
  | _ => trivial

end lawful

/-! ### Machines of a session -/

/-- The sites of accepted programs, with the distances of their uses of names on record. -/
structure Settled (sites : List Site) (distances : Std.HashMap NodeId Nat) : Prop where
  formed : ∀ site ∈ sites, site.Formed
  allowed : ∀ site ∈ sites, site.violation? = none
  recorded : ∀ site ∈ sites, ∀ ref, site.reference? = some ref →
    distances[ref.id]? = site.path.distance? ref.name.text

/-- What holds of a machine after the moments of the past. -/
structure Lexical (S : Settings) (sites : List Site) (past : History) (m : Machine) : Prop where
  settled : Settled sites m.distances
  known : m.heap.Known sites past
  fills : ∀ k ∈ past, k.what.Fills (m.heap.slots k.frame)
  lawful : Throughout (Moment.Lawful S sites) past

section lexical

variable {S : Settings} {sites : List Site} {past : History} {m : Machine}

theorem Lexical.machine (h : Lexical S sites past m) {n : Machine} (hheap : n.heap = m.heap)
    (hdistances : n.distances = m.distances) : Lexical S sites past n where
  settled := hdistances ▸ h.settled
  known := hheap ▸ h.known
  fills := hheap ▸ h.fills
  lawful := h.lawful

/-- Something happens that makes no frame. -/
theorem Lexical.note (h : Lexical S sites past m) {what : Happening} (hfills : what.Fills [])
    (hlaw : Moment.Lawful S sites ⟨m, what⟩ past) : Lexical S sites (⟨m, what⟩ :: past) m where
  settled := h.settled
  known := h.known.mono (List.Subset.refl _) (List.subset_cons_self _ _)
  fills := by
    refine List.forall_mem_cons.mpr ⟨?_, h.fills⟩
    change what.Fills (m.heap.slots m.heap.frames.size)
    rwa [m.heap.slots_size]
  lawful := ⟨hlaw, h.lawful⟩

/-- Something happens that makes a frame, perhaps after other changes to the machine. -/
theorem Lexical.opens (h : Lexical S sites past m) {k : Moment} (hk : k.frame = m.heap.frames.size)
    {slots : Slots} (hslots : ∀ n v, slots.lookup n = some v → v.Known sites past)
    (hfills : k.what.Fills slots) (hlaw : Moment.Lawful S sites k past) :
    Lexical S sites (k :: past) { m with heap := (m.heap.newFrame slots).2 } where
  settled := h.settled
  known := (h.known.newFrame hslots).mono (List.Subset.refl _) (List.subset_cons_self _ _)
  fills := by
    refine List.forall_mem_cons.mpr ⟨?_, fun j hj => (h.fills j hj).retained (.newFrame _ _)⟩
    rw [hk, m.heap.slots_newFrame, if_pos rfl]
    exact hfills
  lawful := ⟨hlaw, h.lawful⟩

/-- A machine that differs from another one in what programs may change. -/
structure Machine.Follows (sites : List Site) (past : History) (m n : Machine) : Prop where
  env : n.env = m.env
  distances : n.distances = m.distances
  known : n.heap.Known sites past
  retains : m.heap.Retains n.heap

theorem Lexical.follows (h : Lexical S sites past m) {n : Machine} (hn : m.Follows sites past n) :
    Lexical S sites past n where
  settled := hn.distances ▸ h.settled
  known := hn.known
  fills k hk := (h.fills k hk).retained hn.retains
  lawful := h.lawful

theorem Lexical.same (h : Lexical S sites past m) : m.Follows sites past m := ⟨rfl, rfl, h.known, .refl _⟩

theorem Machine.Follows.heap {heap : Heap} (hk : heap.Known sites past) (hr : m.heap.Retains heap) :
    m.Follows sites past { m with heap := heap } := ⟨rfl, rfl, hk, hr⟩

end lexical

/-! ### Actions that keep all this -/

section keeping

variable (S : Settings) (sites : List Site)

/-- What holds of a recorder whose scope chain is `env`, and whose history has the moments of the past. -/
structure Recorder.Kept (past : History) (env : Env) (r : Recorder) : Prop where
  past : past ⊆ r.past
  env : r.machine.env = env
  lexical : Lexical S sites r.past r.machine

/-- An end of an action: with a value of which something holds, or by an exit that is known. -/
def Ends {α : Type} (past : History) (env : Env) (post : History → α → Prop) :
    EStateM.Result Exit Recorder α → Prop
  | .ok a r => r.Kept S sites past env ∧ post r.past a
  | .error e r => r.Kept S sites past env ∧ e.Known sites r.past

/-- An action that, begun in the chain `env` after the moments of the past, keeps what holds of recorders,
and yields a value of which something holds. -/
def Keeps {α : Type} (past : History) (env : Env) (t : Traced α) (post : History → α → Prop) : Prop :=
  ∀ r : Recorder, r.Kept S sites past env → Ends S sites past env post (t r)

end keeping

namespace Keeps

variable {S : Settings} {sites : List Site} {past : History} {env : Env} {α β : Type}
  {post : History → α → Prop} {post' : History → β → Prop}

theorem ends_mono {past' : History} (hp : past ⊆ past') {res : EStateM.Result Exit Recorder α}
    (h : Ends S sites past' env post res) : Ends S sites past env post res := by
  cases res with
  | ok a r => exact ⟨⟨List.Subset.trans hp h.1.past, h.1.env, h.1.lexical⟩, h.2⟩
  | error e r => exact ⟨⟨List.Subset.trans hp h.1.past, h.1.env, h.1.lexical⟩, h.2⟩

theorem imp {t : Traced α} {weaker : History → α → Prop} (h : Keeps S sites past env t post)
    (hp : ∀ past a, post past a → weaker past a) : Keeps S sites past env t weaker := by
  intro r hr
  have ht := h r hr
  cases hrun : t r with
  | ok a s =>
      rw [hrun] at ht
      exact ⟨ht.1, hp _ _ ht.2⟩
  | error e s =>
      rw [hrun] at ht
      exact ht

/-- A value of which something holds from now on. -/
theorem pure {a : α} (h : ∀ past', past ⊆ past' → post past' a) :
    Keeps S sites past env (Pure.pure a) post := fun r hr => ⟨hr, h r.past hr.past⟩

theorem bind {t : Traced α} {f : α → Traced β} (h : Keeps S sites past env t post)
    (hf : ∀ past' a, past ⊆ past' → post past' a → Keeps S sites past' env (f a) post') :
    Keeps S sites past env (t >>= f) post' := by
  intro r hr
  have ht := h r hr
  cases hrun : t r with
  | ok a s =>
      rw [hrun] at ht
      rw [bind_ok hrun]
      exact ends_mono ht.1.past (hf s.past a ht.1.past ht.2 s ⟨List.Subset.refl _, ht.1.env, ht.1.lexical⟩)
  | error e s =>
      rw [hrun] at ht
      rw [bind_error hrun]
      exact ht

/-- A single step, which is no part of the record. -/
theorem lift {act : Action α} (h : ∀ r : Recorder, r.Kept S sites past env →
      match act r.machine with
      | .ok a n => r.machine.Follows sites r.past n ∧ post r.past a
      | .error e n => r.machine.Follows sites r.past n ∧ e.Known sites r.past) :
    Keeps S sites past env (Traced.lift act) post := by
  intro r hr
  have hact := h r hr
  unfold Traced.lift
  cases hrun : act r.machine with
  | ok a n =>
      rw [hrun] at hact
      exact ⟨⟨hr.past, hact.1.env.trans hr.env, hr.lexical.follows hact.1⟩, hact.2⟩
  | error e n =>
      rw [hrun] at hact
      exact ⟨⟨hr.past, hact.1.env.trans hr.env, hr.lexical.follows hact.1⟩, hact.2⟩

theorem throw {e : Exit} (h : e.Known sites past) :
    Keeps S sites past env (Traced.lift (MonadExcept.throw e : Action α)) post :=
  lift fun _ hr => ⟨hr.lexical.same, h.later hr.past⟩

theorem fail (fault : RuntimeFault) (line : Nat) :
    Keeps S sites past env (Traced.lift (Action.fail fault line : Action α)) post := throw trivial

theorem lift_bind (act : Action α) (f : α → Action β) :
    Traced.lift (act >>= f) = Traced.lift act >>= fun a => Traced.lift (f a) := by
  funext r
  change mapState _ (EStateM.bind act f r.machine) = EStateM.bind _ _ r
  unfold EStateM.bind Traced.lift
  cases act r.machine <;> rfl

/-- An action that looks at the machine first. -/
theorem get {f : Machine → Action α}
    (h : ∀ m : Machine, m.env = env → Keeps S sites past env (Traced.lift (f m)) post) :
    Keeps S sites past env (Traced.lift (MonadState.get >>= f)) post :=
  fun r hr => h r.machine hr.env r hr

/-- Something happens that makes no frame. -/
theorem note {what : Happening} {t : Traced α} (hfills : what.Fills [])
    (hlaw : ∀ r : Recorder, r.Kept S sites past env → Moment.Lawful S sites ⟨r.machine, what⟩ r.past)
    (h : Keeps S sites past env t post) : Keeps S sites past env (Traced.note what >>= fun _ => t) post := by
  intro r hr
  rw [Traced.note_bind]
  exact h _ ⟨List.subset_cons_of_subset _ hr.past, hr.env, hr.lexical.note hfills (hlaw r hr)⟩

/-- Something happens that makes a frame. -/
theorem opens {what : Happening} {slots : Slots} {inside : Env} {t : Env → Traced α}
    (hslots : ∀ n v, slots.lookup n = some v → v.Known sites past) (hfills : what.Fills slots)
    (hlaw : ∀ r : Recorder, r.Kept S sites past env → Moment.Lawful S sites ⟨r.machine, what⟩ r.past)
    (h : ∀ past' k, past ⊆ past' → k ∈ past' → k.what = what → k.machine.env = env →
      Keeps S sites past' env (t (k.frame :: inside)) post) :
    Keeps S sites past env (Traced.note what >>= fun _ => Traced.lift (Action.nest slots inside) >>= t) post := by
  intro r hr
  have hrun : (Traced.note what >>= fun _ => Traced.lift (Action.nest slots inside) >>= t) r =
      t (r.machine.heap.frames.size :: inside)
        ⟨{ r.machine with heap := (r.machine.heap.newFrame slots).2 }, ⟨r.machine, what⟩ :: r.past⟩ := rfl
  have hsub : past ⊆ ⟨r.machine, what⟩ :: r.past := List.subset_cons_of_subset _ hr.past
  rw [hrun]
  refine ends_mono hsub
    (h _ ⟨r.machine, what⟩ hsub List.mem_cons_self rfl hr.env _ ⟨List.Subset.refl _, hr.env, ?_⟩)
  exact hr.lexical.opens rfl (fun n v hv => (hslots n v hv).later hr.past) hfills (hlaw r hr)

/-- An action in another scope chain. -/
theorem within {inside : Env} {t : Traced α} (h : Keeps S sites past inside t post) :
    Keeps S sites past env (Traced.within inside t) post := by
  intro r hr
  have hin : Recorder.Kept S sites past inside ⟨{ r.machine with env := inside }, r.past⟩ :=
    ⟨hr.past, rfl, hr.lexical.machine rfl rfl⟩
  have ht := h _ hin
  unfold Traced.within
  cases hrun : t ⟨{ r.machine with env := inside }, r.past⟩ <;> rw [hrun] at ht <;>
    exact ⟨⟨ht.1.past, hr.env, ht.1.lexical.machine rfl rfl⟩, ht.2⟩

/-- The body of a function yields a known value. -/
theorem returning {t : Traced Unit} {any : History → Unit → Prop} (h : Keeps S sites past env t any) :
    Keeps S sites past env (Traced.returning t) fun past' v => v.Known sites past' := by
  intro r hr
  have ht := h r hr
  unfold Traced.returning
  cases hrun : t r with
  | ok _ s =>
      rw [hrun] at ht
      exact ⟨ht.1, trivial⟩
  | error e s =>
      rw [hrun] at ht
      cases e with
      | returned v => exact ht
      | _ => exact ⟨ht.1, trivial⟩

/-- A call, if not too many are open. -/
theorem attempt {callee : Callable} {values : List Value} {closing : Lexeme} {t : Traced α}
    (hpost : ∀ {past past' : History} {a : α}, past ⊆ past' → post past a → post past' a)
    (h : Keeps S sites past env t post) : Keeps S sites past env (Traced.attempt S callee values closing t) post := by
  intro r hr
  cases hlimit : S.callLimit.any (· ≤ r.machine.depth) with
  | true =>
      rw [Traced.attempt_full hlimit]
      exact fail _ _ r hr
  | false =>
      rw [Traced.attempt_room hlimit]
      have hbegin : Lexical S sites (⟨r.machine, .calls callee values closing⟩ :: r.past) r.machine :=
        hr.lexical.note trivial trivial
      have ht := h
        ⟨{ r.machine with depth := r.machine.depth + 1 }, ⟨r.machine, .calls callee values closing⟩ :: r.past⟩
        ⟨List.subset_cons_of_subset _ hr.past, hr.env, hbegin.machine rfl rfl⟩
      have hend {s : Recorder} (hs : s.Kept S sites past env) : Recorder.Kept S sites past env
          ⟨{ s.machine with depth := s.machine.depth - 1 }, ⟨s.machine, .leaves⟩ :: s.past⟩ := by
        have hleaves : Lexical S sites (⟨s.machine, .leaves⟩ :: s.past) s.machine := hs.lexical.note trivial trivial
        exact ⟨List.subset_cons_of_subset _ hs.past, hs.env, hleaves.machine rfl rfl⟩
      unfold Traced.calling
      cases hrun : t ⟨{ r.machine with depth := r.machine.depth + 1 },
        ⟨r.machine, .calls callee values closing⟩ :: r.past⟩ with
      | ok a s =>
          rw [hrun] at ht
          exact ⟨hend ht.1, hpost (List.subset_cons_self _ _) ht.2⟩
      | error e s =>
          rw [hrun] at ht
          exact ⟨hend ht.1, ht.2.later (List.subset_cons_self _ _)⟩

/-! ### Single steps -/

theorem lift_pure {a : α} (h : ∀ past', past ⊆ past' → post past' a) :
    Keeps S sites past env (Traced.lift (Pure.pure a)) post := pure h

theorem bind_lift {act : Action α} {f : α → Action β} (h : Keeps S sites past env (Traced.lift act) post)
    (hf : ∀ past' a, past ⊆ past' → post past' a → Keeps S sites past' env (Traced.lift (f a)) post') :
    Keeps S sites past env (Traced.lift (act >>= f)) post' := by
  rw [lift_bind]
  exact h.bind hf

/-- What holds because programs are formed. -/
theorem of_formed {t : Traced α} (h : (∀ site ∈ sites, site.Formed) → Keeps S sites past env t post) :
    Keeps S sites past env t post := fun r hr => h hr.lexical.settled.formed r hr

theorem newId : Keeps S sites past env (Traced.lift (Action.updateHeap Heap.newId)) fun _ _ => True :=
  lift fun _ hr => ⟨.heap ⟨hr.lexical.known.slots, hr.lexical.known.fields⟩ (.refl _), trivial⟩

/-- A function that is made. -/
theorem newFunction {f : Closure} (h : f.Known sites past) :
    Keeps S sites past env (Traced.lift (Action.newFunction f)) fun past' v => v.Known sites past' :=
  bind_lift newId fun _ _ h₁ _ => lift_pure fun _ h₂ => h.mono (List.Subset.refl _) (List.Subset.trans h₁ h₂)

theorem newInstance : Keeps S sites past env (Traced.lift (Action.updateHeap Heap.newInstance)) fun _ _ => True :=
  lift fun _ hr => ⟨.heap hr.lexical.known.newInstance (.refl _), trivial⟩

theorem setField (i : Nat) (n : String) {v : Value} (h : v.Known sites past) :
    Keeps S sites past env (Traced.lift (Action.modifyHeap (·.setField i n v))) fun _ _ => True :=
  lift fun _ hr => ⟨.heap (hr.lexical.known.setField i n (h.later hr.past)) (.refl _), trivial⟩

theorem defineIn (f : FrameId) {n : String} (hn : Ordinary n) {v : Value} (h : v.Known sites past) :
    Keeps S sites past env (Traced.lift (Action.modifyHeap (·.define f n v))) fun _ _ => True :=
  lift fun _ hr => ⟨.heap (hr.lexical.known.define f n (h.later hr.past)) (.define _ f hn v), trivial⟩

theorem define {n : String} (hn : Ordinary n) {v : Value} (h : v.Known sites past) :
    Keeps S sites past env (Traced.lift (Action.define n v)) fun _ _ => True := by
  refine get fun m _ => ?_
  cases m.env with
  | nil => exact lift_pure fun _ _ => trivial
  | cons f _ => exact defineIn f hn h

/-- The value of a field that is set. -/
theorem fieldOf (i : Nat) (name : Lexeme) :
    Keeps S sites past env (Traced.lift (Traced.fieldOf i name)) fun past' v? => ∀ v ∈ v?, v.Known sites past' :=
  lift fun _ hr => ⟨hr.lexical.same, fun v hv => hr.lexical.known.fields i name.text v hv⟩

/-- A value that is looked up in a heap of known values. -/
theorem sound {f : Machine → Except Inconsistency Value}
    (h : ∀ (m : Machine) past' v, m.heap.Known sites past' → f m = .ok v → v.Known sites past') :
    Keeps S sites past env (Traced.lift (MonadState.get >>= fun m => Action.sound (f m))) fun past' v =>
      v.Known sites past' := by
  refine lift fun r hr => ?_
  have hrun : (MonadState.get >>= fun m => Action.sound (f m) : Action Value) r.machine =
    Action.sound (f r.machine) r.machine := rfl
  rw [hrun]
  cases hv : f r.machine with
  | ok v => exact ⟨hr.lexical.same, h r.machine r.past v hr.lexical.known hv⟩
  | error b => exact ⟨hr.lexical.same, trivial⟩

theorem valueAt (d : Nat) (n : String) :
    Keeps S sites past env (Traced.lift (Action.valueAt d n)) fun past' v => v.Known sites past' :=
  sound fun _ _ _ hm hv => hm.getAt hv

/-- The instance that an initializer is bound to. -/
theorem ownInstance (f : Closure) :
    Keeps S sites past env (Traced.lift (Traced.ownInstance f)) fun past' v => v.Known sites past' :=
  sound fun _ _ _ hm hv => hm.getAt hv

theorem read (ref : Reference NodeId) :
    Keeps S sites past env (Traced.lift (Action.read .byDistance ref)) fun past' v => v.Known sites past' := by
  intro r hr
  have hrun : Traced.lift (Action.read .byDistance ref) r =
      Traced.lift (Action.valueOf r.machine.distances[ref.id]? ref.name) r :=
    congrArg (mapState _) (read_byDistance r.machine ref)
  rw [hrun]
  cases r.machine.distances[ref.id]? with
  | some d => exact valueAt d ref.name.text r hr
  | none =>
      refine lift (fun r hr => ?_) r hr
      unfold Action.valueOf
      dsimp only
      rw [searchIn_apply, Heap.search_globals]
      cases hv : (r.machine.heap.slots globalFrame).lookup ref.name.text with
      | none => exact ⟨hr.lexical.same, trivial⟩
      | some v => exact ⟨hr.lexical.same, hr.lexical.known.slots _ _ v hv⟩

theorem instanceInside (d : Nat) :
    Keeps S sites past env (Traced.lift (Action.instanceInside d)) fun past' v => v.Known sites past' := by
  cases d with
  | zero => exact throw trivial
  | succ inner => exact valueAt _ _

/-- A use of `super` reads known values. -/
theorem readSuper (ref : Reference NodeId) (method : Lexeme) :
    Keeps S sites past env (Traced.lift (Action.readSuper .byDistance ref method)) fun past' p =>
      p.1.Known sites past' ∧ p.2.Known sites past' := by
  have hdistance : Keeps S sites past env (Traced.lift (Action.distance? ref.id)) fun _ _ => True :=
    lift fun _ hr => ⟨hr.lexical.same, trivial⟩
  refine bind_lift hdistance fun past' d _ _ => ?_
  cases d with
  | none => exact throw trivial
  | some d =>
      refine bind_lift (valueAt _ _) fun _ u _ hu => bind_lift (instanceInside d) fun _ o h ho => ?_
      exact lift_pure fun _ h' => ⟨hu.later (List.Subset.trans h h'), ho.later h'⟩

theorem write (ref : Reference NodeId) (hn : Ordinary ref.name.text) {v : Value} (h : v.Known sites past) :
    Keeps S sites past env (Traced.lift (Action.write .byDistance ref v)) fun _ _ => True := by
  intro r hr
  have hrun : Traced.lift (Action.write .byDistance ref v) r =
      Traced.lift (Action.assignTo r.machine.distances[ref.id]? ref.name v) r :=
    congrArg (mapState _) (write_byDistance r.machine ref v)
  rw [hrun]
  cases r.machine.distances[ref.id]? with
  | some d =>
      refine get (fun m _ => ?_) r hr
      cases m.heap.bindingFrameAt m.env d ref.name.text with
      | error b => exact throw trivial
      | ok f => exact defineIn f hn h
  | none =>
      refine get (fun m _ => ?_) r hr
      cases m.heap.findFrame? [globalFrame] ref.name.text with
      | none => exact fail _ _
      | some f => exact defineIn f hn h

theorem readClock (clock : Nat → Nat) :
    Keeps S sites past env (Traced.lift (Action.readClock clock)) fun past' v => v.Known sites past' :=
  lift fun _ hr => ⟨⟨rfl, rfl, hr.lexical.known, .refl _⟩, trivial⟩

theorem print (value : Value) : Keeps S sites past env (Traced.print value) fun _ _ => True := by
  refine note trivial (fun _ _ => trivial) (lift fun r hr => ?_)
  unfold Action.printLine
  dsimp only
  cases r.machine.sink.write (value.text ++ "\n").toUTF8 with
  | mk fault sink => cases fault <;> exact ⟨⟨rfl, rfl, hr.lexical.known, .refl _⟩, trivial⟩

/-- What an operator computes holds no code and no objects. -/
theorem computes {act : Action Value} {line : Nat} (h : act.Computes line) :
    Keeps S sites past env (Traced.lift act) fun past' v => v.Known sites past' := by
  cases h with
  | value hv => exact lift_pure fun _ _ => hv.known
  | fault fault => exact fail fault line

end Keeps

end Lox
