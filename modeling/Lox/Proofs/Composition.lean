import Lox.Proofs.Lines
import Lox.Proofs.Relexing
import Lox.Proofs.Sessions
import Lox.Proofs.Transport

/-! # One text below another

A session that runs one text and then another ends as a session that runs the second one below the first
does (`Session.run_below`).  The text below the other is read as the statements of both
(`analyze_below`), with the lexemes of the second further down.  A run of the statements of both does what the
two runs do, as nothing is left behind by a run but the machine (`Session.interpret_above`).  Moving a program
down changes nothing but the lines of its faults, and those that it leaves alone are the faults of programs
before it (`Session.faultsAt`). -/

namespace Lox

open World

/-! ### Programs in order -/

section append

variable {ι : Type} {body body' : List (Stmt ι)}

theorem Stmt.formedAll_append (h : Stmt.FormedAll body) (h' : Stmt.FormedAll body') :
    Stmt.FormedAll (body ++ body') := by
  induction body with
  | nil => exact h'
  | cons s body ih => exact ⟨h.1, ih h.2⟩

theorem Stmt.returnFreeAll_append (h : Stmt.ReturnFreeAll body) (h' : Stmt.ReturnFreeAll body') :
    Stmt.ReturnFreeAll (body ++ body') := by
  induction body with
  | nil => exact h'
  | cons s body ih => exact ⟨h.1, ih h.2⟩

theorem Stmt.scopesAll_append :
    Stmt.scopesAll (body ++ body') = Stmt.scopesAll body ++ Stmt.scopesAll body' := by
  induction body with
  | nil => rfl
  | cons s body ih => rw [List.cons_append, Stmt.scopesAll, ih, Stmt.scopesAll, List.append_assoc]

theorem Stmt.heirsAll_append :
    Stmt.heirsAll (body ++ body') = Stmt.heirsAll body ++ Stmt.heirsAll body' := by
  induction body with
  | nil => rfl
  | cons s body ih => rw [List.cons_append, Stmt.heirsAll, ih, Stmt.heirsAll, List.append_assoc]

end append

/-- No declaration at the top level opens a scope. -/
theorem Stmt.after_nil (s : Stmt NodeId) : s.after [] = [] := by
  unfold Stmt.after
  cases s.declared? <;> rfl

/-- At the top level nothing is left of the statements before. -/
theorem usesOf_append (body body' : List (Stmt NodeId)) :
    usesOf (body ++ body') = usesOf body ++ usesOf body' := by
  have h : Stmt.expressionsAll [] (body ++ body') =
      Stmt.expressionsAll [] body ++ Stmt.expressionsAll [] body' := by
    induction body with
    | nil => rfl
    | cons s body ih =>
      rw [List.cons_append, Stmt.expressionsAll, Stmt.expressionsAll, Stmt.after_nil, ih, List.append_assoc]
  rw [usesOf, h, List.flatMap_append]
  rfl

/-- Accepted programs are accepted in order. -/
theorem Accepted.append {body body' : List (Stmt NodeId)} {ds ds' : Distances} (h : Accepted body ds)
    (h' : Accepted body' ds') : Accepted (body ++ body') (ds' ++ ds) where
  formed := Stmt.formedAll_append h.formed h'.formed
  distances := by rw [usesOf_append, distancesOf_append, h.distances, h'.distances]
  allowed := by
    rw [usesOf_append]
    exact List.forall_mem_append.mpr ⟨h.allowed, h'.allowed⟩
  returns := Stmt.returnFreeAll_append h.returns h'.returns
  neat := {
    distinct := by
      rw [Stmt.scopesAll_append]
      exact List.forall_mem_append.mpr ⟨h.neat.distinct, h'.neat.distinct⟩
    acyclic := by
      rw [Stmt.heirsAll_append]
      exact h.neat.acyclic.append h'.neat.acyclic }

/-! ### Texts in order -/

/-- Statements some lines further down. -/
abbrev Stmt.lowerAll {ι : Type} (k : Nat) (body : List (Stmt ι)) : List (Stmt ι) :=
  Stmt.mapAll id (Lexeme.lower k) body

/-- A program some lines further down. -/
def Program.lower (k : Nat) (p : Program) : Program := ⟨Stmt.lowerAll k p.statements, p.distances⟩

/-- A program and another one after it. -/
def Program.above (p q : Program) : Program := ⟨p.statements ++ q.statements, q.distances ++ p.distances⟩

theorem ReadsAs.below {source source' : String} {body body' : List PlainStmt} (h : ReadsAs source body)
    (h' : ReadsAs source' body') :
    ReadsAs (below source source') (body ++ Stmt.lowerAll (lineCount source) body') where
  clean := faultless_below h.clean h'.clean
  parsed := by
    refine parseProgram_complete ?_
    rw [textOf_scan, textTokens_below h.clean]
    exact h.text.append (h'.text.map _)

theorem Program.lower_accepted {p : Program} (h : Accepted p.statements p.distances) (k : Nat) :
    Accepted (p.lower k).statements (p.lower k).distances := by
  have hd : p.distances.relabel id = p.distances := List.map_id _
  have := h.map (.of_text (Lexeme.lower_text k) h) id
  rwa [hd] at this

theorem Stmt.numberAll_lower (k : Nat) (body : List PlainStmt) (next : NodeId) :
    Stmt.numberAll next (Stmt.lowerAll k body) =
      (Stmt.lowerAll k (Stmt.numberAll next body).1, (Stmt.numberAll next body).2) :=
  Stmt.numberAll_map (Lexeme.lower k) 0 body next

/-- A text below another is accepted as the programs of both. -/
theorem analyze_below {source source' : String} {next mid last : NodeId} {p p' : Program}
    (h : analyze next source = .ok (p, mid)) (h' : analyze mid source' = .ok (p', last)) :
    analyze next (below source source') = .ok (p.above (p'.lower (lineCount source)), last) := by
  obtain ⟨body, hreads, hnum, hacc⟩ := analyze_ok h
  obtain ⟨body', hreads', hnum', hacc'⟩ := analyze_ok h'
  refine (hreads.below hreads').analyze ?_ (hacc.append (Program.lower_accepted hacc' _))
  rw [Stmt.numberAll_append, hnum]
  dsimp only
  rw [Stmt.numberAll_lower, hnum']
  rfl

/-! ### Programs and tables -/

/-- An accepted program whose nodes have the numbers from `first` up to `last`. -/
structure Program.Fits (p : Program) (first last : NodeId) : Prop where
  numbered : ∃ body, Stmt.numberAll first body = (p.statements, last)
  accepted : Accepted p.statements p.distances

theorem Program.fits_of_analyze {source : String} {first last : NodeId} {p : Program}
    (h : analyze first source = .ok (p, last)) : p.Fits first last := by
  obtain ⟨body, -, hnum, hacc⟩ := analyze_ok h
  exact ⟨⟨body, hnum⟩, hacc⟩

namespace Program.Fits

variable {p q : Program} {first mid last : NodeId} {T : Std.HashMap NodeId Nat}

theorem lower (h : p.Fits first last) (k : Nat) : (p.lower k).Fits first last where
  numbered := by
    obtain ⟨body, hnum⟩ := h.numbered
    refine ⟨Stmt.lowerAll k body, ?_⟩
    rw [Stmt.numberAll_lower, hnum]
    rfl
  accepted := Program.lower_accepted h.accepted k

theorem above (h : p.Fits first mid) (h' : q.Fits mid last) : (p.above q).Fits first last where
  numbered := by
    obtain ⟨body, hnum⟩ := h.numbered
    obtain ⟨body', hnum'⟩ := h'.numbered
    refine ⟨body ++ body', ?_⟩
    rw [Stmt.numberAll_append, hnum, hnum']
    rfl
  accepted := h.accepted.append h'.accepted

theorem uses (h : p.Fits first last) : Within first last ((usesOf p.statements).map (·.ref.id)) := by
  obtain ⟨body, hnum⟩ := h.numbered
  have := usesOf_within body first
  rwa [hnum] at this

theorem marks (h : p.Fits first last) : ∀ x ∈ Stmt.expressionsAll [] p.statements, ∀ m ∈ x.expr.marks,
    first ≤ m.id ∧ m.id < last := by
  obtain ⟨body, hnum⟩ := h.numbered
  have := marks_inside body first
  rwa [hnum] at this

/-- What a table says about the nodes of a program that it has learnt. -/
theorem recorded (h : p.Fits first last) (hT : ∀ i, first ≤ i → T[i]? = none) :
    ∀ u ∈ usesOf p.statements, (T.insertMany p.distances)[u.ref.id]? = u.distance? := by
  intro u hu
  rw [h.accepted.distances]
  exact getElem?_distancesOf h.uses.nodup hu (hT _ (h.uses.range _ (List.mem_map_of_mem hu)).1)

theorem unchanged (h : p.Fits first last) {i : NodeId} (hi : i < first ∨ last ≤ i) :
    (T.insertMany p.distances)[i]? = T[i]? := by
  rw [h.accepted.distances]
  refine getElem?_distancesOf_of_notMem fun u hu he => ?_
  obtain ⟨hfirst, hlast⟩ := h.uses.range _ (List.mem_map_of_mem hu)
  rw [he] at hfirst hlast
  exact hi.elim (Nat.not_lt.mpr hfirst) (Nat.not_le.mpr hlast)

end Program.Fits

/-! ### Runs in order -/

/-- Two runs of the same code, whose tables have the same entries for the nodes up to a number. -/
def Comparison.alike (T T' : Std.HashMap NodeId Nat) (known : NodeId) : Comparison where
  look := .byDistance
  left := T
  right := T'
  site i l i' l' := i < known ∧ i' = i ∧ l' = l
  early r r' := r'.name.text = r.name.text
  decl d d' := d' = d
  renames twin := twin = id

theorem Comparison.alike_extends {T T' V V' : Std.HashMap NodeId Nat} {known known' : NodeId}
    (hk : known ≤ known') (hV : ∀ i, i < known → V[i]? = T[i]?) (hV' : ∀ i, i < known → V'[i]? = T'[i]?) :
    (alike T T' known).Extends (alike V V' known') where
  look := rfl
  left hs := hV _ hs.1
  right := by
    rintro i l _ _ ⟨hi, rfl, -⟩
    exact hV' _ hi
  site := fun ⟨hi, he, hl⟩ => ⟨Nat.lt_of_lt_of_le hi hk, he, hl⟩
  early h := h
  decl h := h
  renames h := h

/-- Machines in step stay so when they learn what a wider comparison has on record. -/
theorem InStep.learn {C D : Comparison} {w : World} {m m' : Machine} (h : C.Extends D)
    (hm : InStep C.links C.left C.right w m m') :
    InStep D.links D.left D.right w { m with distances := D.left } { m' with distances := D.right } :=
  { hm with good := hm.good.grow h.le, distances_left := rfl, distances_right := rfl }

section distances

variable {S : Settings} (hS : S.lookup = .byDistance) {C : Comparison} (hC : C.look = .byDistance) {w : World}
  {m m' : Machine} {body body' : List (Stmt NodeId)} {Γ : Levels}

include hS hC

/-- Statements that match run in step when both runs look names up by distance. -/
theorem Comparison.runAll_agree (hm : InStep C.links C.left C.right w m m') (hc : w.Chain [] m.env)
    (h : MatchStmts C.links false [] body body' Γ) :
    Agree C.links S C.left C.right w false m (fun _ _ _ => True) (runAll (exec S S.fuel) body m)
      (runAll (exec S S.fuel) body' m') := by
  have := runAll_top_lockstep (C.links_sound hS) h hc m m' hm rfl
  rwa [hC, Settings.with_lookup hS] at this

theorem Comparison.interpret_inStep (hm : InStep C.links C.left C.right w m m') (hc : w.Chain [] m.env)
    (h : MatchStmts C.links false [] body body' Γ) :
    EndInStep C.links S C.left C.right w m (fun _ _ _ => True) (Session.interpret S body m)
      (Session.interpret S body' m') := by
  have := Lox.interpret_inStep (C.links_sound hS) hm hc h
  rwa [hC, Settings.with_lookup hS] at this

/-- A first run that is done comes to its end, and so does the other. -/
theorem Comparison.runAll_done (hm : InStep C.links C.left C.right w m m') (hc : w.Chain [] m.env)
    (h : MatchStmts C.links false [] body body' Γ) {n : Machine}
    (hdone : Session.interpret S body m = (.done (), n)) :
    ∃ n' w', w ≤ w' ∧ InStep C.links C.left C.right w' n n' ∧ n.env = m.env ∧
      runAll (exec S S.fuel) body' m' = .ok () n' := by
  have hrun := Comparison.runAll_agree hS hC hm hc h
  unfold Session.interpret at hdone
  revert hrun
  cases hl : runAll (exec S S.fuel) body m <;> cases runAll (exec S S.fuel) body' m' <;> intro hrun
  · rw [hl] at hdone
    obtain rfl := (Prod.mk.inj hdone).2
    obtain ⟨w', hw, hs, hk, -⟩ := hrun
    exact ⟨_, w', hw, hs, hk.env, rfl⟩
  · exact hrun.elim
  · exact hrun.elim
  · rw [hl] at hdone
    obtain ⟨w', hw, hs, hk, hx⟩ := hrun
    cases hx with
    | returned hb _ => exact nomatch hb
    | _ => cases (Prod.mk.inj hdone).1

end distances

section runs

variable {S : Settings} {us : List Use} {s : Session} {p q : Program} {mid last : NodeId}

/-- A session beside itself. -/
theorem Session.Sound.alike (h : s.Sound .byDistance us) :
    ∃ w, InStep (Comparison.alike s.machine.distances s.machine.distances s.nextNode).links
      s.machine.distances s.machine.distances w s.machine s.machine ∧ w.Chain [] s.machine.env := by
  have hext : (s.comparison .byDistance us).Extends
      (Comparison.alike s.machine.distances s.machine.distances s.nextNode) := {
    look := rfl
    left := fun _ => rfl
    right := fun _ => rfl
    site := fun hs => hs
    early := by
      rintro r _ ⟨rfl, -⟩
      rfl
    decl := fun hd => hd
    renames := fun hr => hr }
  obtain ⟨w, hw, hc⟩ := h.world
  exact ⟨w, InStep.learn hext hw, hc⟩

/-- An accepted program matches itself when both tables have learnt it. -/
theorem Program.Fits.alike (h : p.Fits mid last) {T T' : Std.HashMap NodeId Nat}
    (hT : ∀ u ∈ usesOf p.statements, T[u.ref.id]? = u.distance?)
    (hT' : ∀ u ∈ usesOf p.statements, T'[u.ref.id]? = u.distance?) :
    MatchStmts (Comparison.alike T T' last).links false [] p.statements p.statements
      (Surroundings.levels (fun _ => id) (Stmt.afterAll [] p.statements)) := by
  have hid : ∀ t : Lexeme, (id t).text = t.text := fun _ => rfl
  have hu : ∀ u ∈ usesOf p.statements, Recorded (Comparison.alike T T' last) (fun _ => id) id id u :=
    fun u hu => ⟨hT u hu, hT' u hu, fun _ => rfl, (Surroundings.twin_same _ _).symm,
      ⟨(h.uses.range _ (List.mem_map_of_mem hu)).2, rfl, rfl⟩, fun _ _ _ => rfl⟩
  have := h.accepted.matches hid (.of_text hid hid hu (fun x hx m hm => ⟨(h.marks x hx m hm).2, rfl, rfl⟩)
    (fun _ => rfl) rfl)
  rwa [Stmt.mapAll_id] at this

/-- A run that is done has run all its statements. -/
theorem Session.interpret_append {body body' : List (Stmt NodeId)} {m n : Machine}
    (h : runAll (exec S S.fuel) body m = .ok () n) :
    Session.interpret S (body ++ body') m = Session.interpret S body' n := by
  have hrun : runAll (exec S S.fuel) (body ++ body') m = runAll (exec S S.fuel) body' n := by
    induction body generalizing m with
    | nil =>
      cases h
      rfl
    | cons s body ih =>
      change EStateM.bind (exec S S.fuel s) (fun _ => runAll (exec S S.fuel) body) m = _ at h
      change EStateM.bind (exec S S.fuel s) (fun _ => runAll (exec S S.fuel) (body ++ body')) m = _
      unfold EStateM.bind at h ⊢
      cases hs : exec S S.fuel s m with
      | error e k =>
        rw [hs] at h
        cases h
      | ok _ k =>
        rw [hs] at h
        exact ih h
  unfold Session.interpret
  rw [hrun]

/-- Runs of the same code that end in step end in the same way, in the same machine but for the table. -/
theorem EndInStep.alike {T T' : Std.HashMap NodeId Nat} {known : NodeId} {w : World} {m : Machine}
    {r r' : Outcome Unit × Machine}
    (h : EndInStep (Comparison.alike T T' known).links S T T' w m (fun _ _ _ => True) r r') :
    r'.1 = r.1 ∧ r'.2 = { r.2 with distances := T' } := by
  obtain ⟨⟨w', -, hs, ho⟩, -⟩ := h
  refine ⟨?_, ?_⟩
  · obtain ⟨o, n⟩ := r
    obtain ⟨o', n'⟩ := r'
    dsimp only at ho ⊢
    cases ho with
    | done _ => rfl
    | runtime fault h => rw [h.2.2]
    | sink fault => rfl
    | early h _ =>
      have htext : _ = _ := h
      rw [htext]
    | exhausted => rfl
  · exact hs.eq_learnt (fun _ _ hd => hd) fun _ hr => hr

/-- The statements of two programs in order do what the programs do in two runs, if the first run comes to its
end. -/
theorem Session.interpret_above (hS : S.lookup = .byDistance) (h : s.Sound .byDistance us)
    (hp : p.Fits s.nextNode mid) (hq : q.Fits mid last)
    {n : Machine} (hdone : Session.interpret S p.statements (Session.learn s.machine p.distances) = (.done (), n)) :
    let r := Session.interpret S q.statements (Session.learn n q.distances)
    let r' := Session.interpret S (p.above q).statements (Session.learn s.machine (p.above q).distances)
    r'.1 = r.1 ∧ r'.2 = { r.2 with distances := r'.2.distances } := by
  intro r r'
  let T := s.machine.distances.insertMany p.distances
  let T' := s.machine.distances.insertMany (p.above q).distances
  have hfresh : ∀ i, mid ≤ i → T[i]? = none := fun i hi =>
    (hp.unchanged (.inr hi)).trans (h.fresh i (Nat.le_trans hp.uses.le hi))
  obtain ⟨hp', hq'⟩ := List.forall_mem_append.mp
    (usesOf_append p.statements q.statements ▸ (hp.above hq).recorded h.fresh)
  obtain ⟨w, hw, hc⟩ := h.alike
  have hw : InStep (Comparison.alike T T' mid).links T T' w (Session.learn s.machine p.distances)
      (Session.learn s.machine (p.above q).distances) :=
    InStep.learn (Comparison.alike_extends hp.uses.le (fun i hi => hp.unchanged (.inl hi))
      fun i hi => (hp.above hq).unchanged (.inl hi)) hw
  -- The first program comes to its end with both tables.
  obtain ⟨n', w', hle, hw', henv, hrun⟩ := Comparison.runAll_done hS rfl hw hc
    (hp.alike (hp.recorded h.fresh) hp') hdone
  have hn : Session.learn n q.distances = { n with distances := T.insertMany q.distances } := by
    rw [Session.learn, hw'.distances_left]
    rfl
  have hn' : n' = { n' with distances := T' } := by
    have hT' : n'.distances = T' := hw'.distances_right
    rw [← hT']
  -- The second one starts from machines that are in step again.
  have hw' : InStep (Comparison.alike (T.insertMany q.distances) T' last).links (T.insertMany q.distances) T' w'
      (Session.learn n q.distances) n' := by
    rw [hn, hn']
    exact InStep.learn (Comparison.alike_extends hq.uses.le (fun i hi => hq.unchanged (.inl hi))
      fun i _ => rfl) hw'
  have hc' : w'.Chain [] (Session.learn n q.distances).env := by
    change w'.Chain [] n.env
    rw [henv]
    exact hc.mono hle
  have hend := Comparison.interpret_inStep hS rfl hw' hc' (hq.alike (hq.recorded hfresh) hq')
  obtain ⟨ho, hm⟩ := hend.alike
  have hr' : r' = Session.interpret S q.statements n' := Session.interpret_append hrun
  rw [hr', hm]
  exact ⟨ho, rfl⟩

end runs

/-! ### Moving a program down -/

/-- A lexeme without its line. -/
def Lexeme.unlined (t : Lexeme) : Lexeme := ⟨t.text, 0⟩

/-- A heap without the lines of the code in it. -/
def Heap.unlined (h : Heap) : Heap := h.mapDecl (FunDecl.map id Lexeme.unlined)

theorem Lexeme.lower_zero : Lexeme.lower 0 = id := rfl

@[simp] theorem Program.lower_zero (p : Program) : p.lower 0 = p := by
  rw [Program.lower, Stmt.lowerAll, Lexeme.lower_zero, Stmt.mapAll_id]

theorem FunDecl.unlined_lower (k : Nat) (d : FunDecl NodeId) :
    (d.map id (Lexeme.lower k)).map id Lexeme.unlined = d.map id Lexeme.unlined := by
  rw [FunDecl.map_map]
  rfl

/-- Does a line have a lexeme of a program at which a fault may be reported? -/
def Program.OnLine (p : Program) (l : Nat) : Prop :=
  (∃ u ∈ usesOf p.statements, u.ref.name.line = l) ∨
    ∃ x ∈ Stmt.expressionsAll [] p.statements, ∃ m ∈ x.expr.marks, m.name.line = l

/-- Two runs of a program, once `j` and once `k` lines further down.  The lexemes of programs before it stay
where they are. -/
def Comparison.lowered (T : Std.HashMap NodeId Nat) (p : Program) (j k : Nat) : Comparison where
  look := .byDistance
  left := T
  right := T
  site i l i' l' := i' = i ∧ (l' = l ∨ ∃ l₀, p.OnLine l₀ ∧ l = l₀ + j ∧ l' = l₀ + k)
  early r r' := r'.name.text = r.name.text
  decl d d' := d' = d ∨ ∃ d₀ : FunDecl NodeId, d = d₀.map id (Lexeme.lower j) ∧ d' = d₀.map id (Lexeme.lower k)
  renames twin := twin = id

section lowered

variable {S : Settings} {us : List Use} {s : Session} {p : Program} {last : NodeId}

/-- What a session does with a program that is moved down. -/
def Session.lowered (S : Settings) (s : Session) (p : Program) (k : Nat) : Outcome Unit × Machine :=
  Session.interpret S (p.lower k).statements (Session.learn s.machine p.distances)

/-- Runs of a program at two places end in step. -/
theorem Session.Sound.lowered (hS : S.lookup = .byDistance) (h : s.Sound .byDistance us)
    (hp : p.Fits s.nextNode last) (j k : Nat) :
    let T := s.machine.distances.insertMany p.distances
    ∃ w m, EndInStep (Comparison.lowered T p j k).links S T T w m (fun _ _ _ => True)
      (s.lowered S p j) (s.lowered S p k) := by
  intro T
  have hext : (s.comparison .byDistance us).Extends (Comparison.lowered T p j k) := {
    look := rfl
    left := fun hs => hp.unchanged (.inl hs.1)
    right := by
      rintro i l _ _ ⟨hi, rfl, -⟩
      exact hp.unchanged (.inl hi)
    site := fun ⟨_, he, hl⟩ => ⟨he, .inl hl⟩
    early := by
      rintro r _ ⟨rfl, -⟩
      rfl
    decl := fun hd => .inl hd
    renames := fun hr => hr }
  obtain ⟨w, hw, hc⟩ := h.world
  have hrec : ∀ u ∈ usesOf p.statements, Recorded (Comparison.lowered T p j k) (fun _ => id)
      (Lexeme.lower j) (Lexeme.lower k) u := fun u hu =>
    have hd := hp.recorded h.fresh u hu
    ⟨hd, hd, fun _ => rfl, (Surroundings.twin_same _ _).symm,
      ⟨rfl, .inr ⟨u.ref.name.line, .inl ⟨u, hu, rfl⟩, rfl, rfl⟩⟩, fun _ _ _ => rfl⟩
  have hmatch := hp.accepted.matches (Lexeme.lower_text j) (.of_text (Lexeme.lower_text j)
    (Lexeme.lower_text k) hrec
    (fun x hx m hm => ⟨rfl, .inr ⟨m.name.line, .inr ⟨x, hx, m, hm, rfl⟩, rfl, rfl⟩⟩)
    (fun d => .inr ⟨d, rfl, rfl⟩) rfl)
  exact ⟨w, _, Comparison.interpret_inStep hS rfl (InStep.learn hext hw) hc hmatch⟩

/-- A program ends in the same way wherever it stands, but for the line of a fault. -/
theorem Session.lowered_outcome (hS : S.lookup = .byDistance) (h : s.Sound .byDistance us)
    (hp : p.Fits s.nextNode last) (j k : Nat) :
    (∃ fault l l', (s.lowered S p j).1 = .failed (.runtime ⟨fault, l⟩) ∧
        (s.lowered S p k).1 = .failed (.runtime ⟨fault, l'⟩) ∧
          (l' = l ∨ ∃ l₀, p.OnLine l₀ ∧ l = l₀ + j ∧ l' = l₀ + k)) ∨
      (∀ e, (s.lowered S p j).1 ≠ .failed (.runtime e)) ∧ (s.lowered S p k).1 = (s.lowered S p j).1 := by
  obtain ⟨w, m, ⟨w', -, -, ho⟩, -⟩ := h.lowered hS hp j k
  revert ho
  generalize (s.lowered S p j).1 = o
  generalize (s.lowered S p k).1 = o'
  intro ho
  cases ho with
  | @runtime fault _ _ l l' h =>
    exact .inl ⟨fault, l, l', rfl, rfl, h.2⟩
  | done _ => exact .inr ⟨nofun, rfl⟩
  | sink fault => exact .inr ⟨nofun, rfl⟩
  | early h _ =>
    have htext : _ = _ := h
    rw [htext]
    exact .inr ⟨nofun, rfl⟩
  | exhausted => exact .inr ⟨nofun, rfl⟩

/-- The machines that runs of a program at two places end in are the same but for lines. -/
theorem Session.lowered_machine (hS : S.lookup = .byDistance) (h : s.Sound .byDistance us)
    (hp : p.Fits s.nextNode last) (j k : Nat) :
    let m := (s.lowered S p j).2
    let m' := (s.lowered S p k).2
    m'.heap.unlined = m.heap.unlined ∧ m' = { m with heap := m'.heap } := by
  intro m m'
  obtain ⟨w, _, ⟨w', -, hs, -⟩, -⟩ := h.lowered hS hp j k
  refine ⟨?_, ?_⟩
  · rw [hs.left, hs.right]
    refine hs.good.mapDecl_eq (fun d d' hd => ?_) fun _ hr => hr
    rcases hd with rfl | ⟨d₀, rfl, rfl⟩
    · rfl
    · rw [FunDecl.unlined_lower, FunDecl.unlined_lower]
  · have hm := hs.eq_heap
    rwa [← hs.distances_left] at hm

/-- The run of a program stops at a fault on a line that depends in this way on how far down the program
stands. -/
def Session.FaultsAt (S : Settings) (s : Session) (p : Program) (fault : RuntimeFault) (line : Nat → Nat) : Prop :=
  ∀ k, (s.lowered S p k).1 = .failed (.runtime ⟨fault, line k⟩)

/-- The fault that a run stops at is located at a lexeme of the program, and its line moves with the program
however far it moves, or it is located in a program before it, and its line stays. -/
theorem Session.faultsAt (hS : S.lookup = .byDistance) (h : s.Sound .byDistance us)
    (hp : p.Fits s.nextNode last) {fault : RuntimeFault} {l : Nat}
    (hf : (s.lowered S p 0).1 = .failed (.runtime ⟨fault, l⟩)) :
    p.OnLine l ∧ s.FaultsAt S p fault (l + ·) ∨ s.FaultsAt S p fault fun _ => l := by
  -- Lines at two places are those of a lexeme of the program, or the same.
  have hplaces (j k : Nat) {a : Nat} (ha : (s.lowered S p j).1 = .failed (.runtime ⟨fault, a⟩)) :
      ∃ b, (s.lowered S p k).1 = .failed (.runtime ⟨fault, b⟩) ∧
        (b = a ∨ ∃ c, p.OnLine c ∧ a = c + j ∧ b = c + k) := by
    rcases Session.lowered_outcome hS h hp j k with ⟨fault', a', b, ha', hb, hab⟩ | ⟨hne, -⟩
    · rw [ha] at ha'
      cases ha'
      exact ⟨b, hb, hab⟩
    · exact absurd ha (hne _)
  obtain ⟨b, hb, hlb⟩ := hplaces 0 1 hf
  -- One line further down shows which of the two it is.
  have hline (k : Nat) : ∃ c, (s.lowered S p k).1 = .failed (.runtime ⟨fault, c⟩) ∧
      c = if b = l then l else l + k := by
    obtain ⟨c, hc, hlc⟩ := hplaces 0 k hf
    obtain ⟨c', hc', hbc⟩ := hplaces 1 k hb
    obtain rfl : c' = c := by
      rw [hc] at hc'
      cases hc'
      rfl
    refine ⟨c', hc, ?_⟩
    obtain rfl | ⟨l₀, -, hl, hb₀⟩ := hlb
    · rw [if_pos rfl]
      obtain rfl | ⟨l₁, -, h₁, h₁'⟩ := hlc
      · rfl
      · obtain rfl | ⟨l₂, -, h₂, h₂'⟩ := hbc <;> omega
    · have hne : b ≠ l := by omega
      rw [if_neg hne]
      obtain rfl | ⟨l₁, -, h₁, h₁'⟩ := hlc
      · obtain rfl | ⟨l₂, -, h₂, h₂'⟩ := hbc <;> omega
      · omega
  obtain rfl | ⟨l₀, hon, hl, hb₀⟩ := hlb
  · refine .inr fun k => ?_
    obtain ⟨c, hc, he⟩ := hline k
    rw [if_pos rfl] at he
    rwa [he] at hc
  · obtain rfl : l₀ = l := by omega
    refine .inl ⟨hon, fun k => ?_⟩
    obtain ⟨c, hc, he⟩ := hline k
    have hne : b ≠ l₀ := by omega
    rw [if_neg hne] at he
    rwa [he] at hc

end lowered

/-! ### Whole texts -/

/-- Does a text pass analysis?  From which number on its nodes are numbered makes no difference. -/
def Passes (source : String) : Prop := ∃ next r, analyze next source = .ok r

theorem Passes.analyze {source : String} (h : Passes source) (next : NodeId) :
    ∃ p last, analyze next source = .ok (p, last) := by
  obtain ⟨_, ⟨_, _⟩, ha⟩ := h
  obtain ⟨_, _, ha⟩ := Analyzable.of_analyze ha
  exact ⟨_, _, ha.analyze next⟩

section texts

variable {S : Settings} {us : List Use} {s : Session} {source source' : String} {p q : Program} {mid last : NodeId}

/-- A text runs as its program does where the text stands. -/
theorem Session.run_lowered (h : analyze s.nextNode source = .ok (p, last)) :
    s.run S source = ((s.lowered S p 0).1, ⟨(s.lowered S p 0).2, last⟩) := by
  rw [Session.run_eq h, Session.lowered, Program.lower_zero]

/-- If a text runs to its end, then another one below it does what its program does after that run, as many lines
further down. -/
theorem Session.Sound.below_lowered (hS : S.lookup = .byDistance) (h : s.Sound .byDistance us)
    (ha : analyze s.nextNode source = .ok (p, mid)) (ha' : analyze mid source' = .ok (q, last))
    (hdone : (s.run S source).1 = .done ()) :
    let r := (s.run S source).2.lowered S q (lineCount source)
    let r' := s.run S (below source source')
    r'.1 = r.1 ∧ r'.2.machine = { r.2 with distances := r'.2.machine.distances } := by
  intro r r'
  have hp := Program.fits_of_analyze ha
  have hq := (Program.fits_of_analyze ha').lower (lineCount source)
  have hrun : s.run S source = _ := Session.run_eq ha
  have hrun' : r' = _ := Session.run_eq (analyze_below ha ha')
  rw [hrun] at hdone
  have hfirst : Session.interpret S p.statements (Session.learn s.machine p.distances) =
      (.done (), (s.run S source).2.machine) := Prod.ext hdone (by rw [hrun])
  rw [hrun']
  exact Session.interpret_above hS h hp hq hfirst

end texts

/-- A text below another is accepted as the statements of the one and of the other, those some lines further
down, with the distances of both.  If the first one runs to its end, then to run the two in order is to run
the one below the other: the output and the outcome are the same, and so is the heap with the globals in it, but
for the lines of faults at tokens of the second text, and of its code. -/
theorem Session.run_below {S : Settings} (hS : S.lookup = .byDistance) (sink : Sink) (steps : List Step)
    {source source' : String} (h : Passes source) (h' : Passes source') :
    let s := Session.reached S sink steps
    let k := lineCount source
    ∃ p q mid last, analyze s.nextNode source = .ok (p, mid) ∧ analyze mid source' = .ok (q, last) ∧
      analyze s.nextNode (below source source') =
        .ok (⟨p.statements ++ Stmt.lowerAll k q.statements, q.distances ++ p.distances⟩, last) ∧
      ((s.run S source).1 = .done () →
        let s₁ := (s.run S source).2
        let o := (s₁.run S source').1
        let o' := (s.run S (below source source')).1
        let m := (s₁.run S source').2.machine
        let m' := (s.run S (below source source')).2.machine
        m'.sink = m.sink ∧ m'.heap.unlined = m.heap.unlined ∧ m'.env = m.env ∧ m'.depth = m.depth ∧
          m'.readings = m.readings ∧
          ((∀ e, o ≠ .failed (.runtime e)) → o' = o) ∧
          ∀ fault l, o = .failed (.runtime ⟨fault, l⟩) →
            q.OnLine l ∧ s₁.FaultsAt S q fault (l + ·) ∧ o' = .failed (.runtime ⟨fault, l + k⟩) ∨
            s₁.FaultsAt S q fault (fun _ => l) ∧ o' = .failed (.runtime ⟨fault, l⟩)) := by
  intro s k
  obtain ⟨p, mid, ha⟩ := h.analyze s.nextNode
  obtain ⟨q, last, ha'⟩ := h'.analyze mid
  have hbelow := analyze_below ha ha'
  refine ⟨p, q, mid, last, ha, ha', hbelow, fun hdone => ?_⟩
  have hs := Session.reached_sound hS sink steps
  have hs₁ := (hs.run hS source nofun).sound
  unfold Session.step at hs₁
  intro s₁ o o' m m'
  have hnext : s₁.nextNode = mid := congrArg (·.2.nextNode) (Session.run_eq (S := S) ha)
  have hq : q.Fits s₁.nextNode last := hnext ▸ Program.fits_of_analyze ha'
  -- The runs of the second text, where it stands and below the first.
  have hside : s₁.run S source' = _ := Session.run_lowered (hnext ▸ ha')
  have ho : o = (s₁.lowered S q 0).1 := congrArg Prod.fst hside
  have hm : m = (s₁.lowered S q 0).2 := congrArg (·.2.machine) hside
  obtain ⟨ho', hm'⟩ : o' = (s₁.lowered S q k).1 ∧
      m' = { (s₁.lowered S q k).2 with distances := m'.distances } := hs.below_lowered hS ha ha' hdone
  obtain ⟨hheap, hrest⟩ := Session.lowered_machine hS hs₁ hq 0 k
  rw [← hm] at hheap hrest
  refine ⟨?_, ?_, ?_, ?_, ?_, fun hne => ?_, fun fault l hf => ?_⟩
  · rw [hm', hrest]
  · rw [hm', hheap]
  · rw [hm', hrest]
  · rw [hm', hrest]
  · rw [hm', hrest]
  · rw [ho', ho]
    rw [ho] at hne
    rcases Session.lowered_outcome hS hs₁ hq 0 k with ⟨fault, l, -, hf, -⟩ | ⟨-, he⟩
    · exact absurd hf (hne _)
    · exact he
  · rw [ho] at hf
    rw [ho']
    exact (Session.faultsAt hS hs₁ hq hf).imp (fun ⟨hon, hfaults⟩ => ⟨hon, hfaults, hfaults k⟩)
      fun hfaults => ⟨hfaults, hfaults k⟩

/-- A text that ends in a comment, and one below it. -/
theorem Session.run_below_comment :
    let s := Session.reached .standard .unlimited []
    let source := "var a = true; // a"
    let source' := "print a;"
    Passes source ∧ Passes source' ∧ (s.run .standard source).1 = .done () ∧
      (s.run .standard (below source source')).2.machine.sink =
        ((s.run .standard source).2.run .standard source').2.machine.sink := by
  intro s source source'
  have h : Passes source := ⟨0, (⟨[.var ⟨"a", 1⟩ (some (.literal 0 (.bool true)))], []⟩, 1), by cbv⟩
  have h' : Passes source' := ⟨0, (⟨[.print (.name ⟨0, ⟨"a", 1⟩⟩)], []⟩, 1), by cbv⟩
  have hdone : (s.run .standard source).1 = .done () := by cbv
  obtain ⟨_, _, _, _, _, _, _, hrun⟩ := Session.run_below (S := .standard) rfl .unlimited [] h h'
  exact ⟨h, h', hdone, (hrun hdone).1⟩

end Lox
