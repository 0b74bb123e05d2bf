import Lox.Proofs.Carrying
import Lox.Proofs.Composition
import Lox.Proofs.Cutoffs

/-! # Sessions that number from elsewhere

Which number the first node gets makes no difference.  A text that is analysed from a later number on is
accepted with all numbers that much later, or rejected with the same faults (`Step.job_shift`).  Code that
matches goes on matching when the nodes on the right are numbered anew (`MatchStmts.through`), so two sessions
whose numbers are always the same distance apart stay in step: their steps end in the same way, and they hold the
same but for the numbers in code (`Session.Shifted.step`). -/

namespace Lox

open World

/-! ### Links through a change of numbers -/

/-- What the links `U` allow, the links `V` allow when the nodes on the right are numbered anew. -/
structure Links.Through (f : NodeId → NodeId) (U V : Links) : Prop where
  read : ∀ {Γ p r r'}, U.read Γ p r r' → V.read Γ p r (r'.map f id)
  write : ∀ {Γ p r r'}, U.write Γ p r r' → V.write Γ p r (r'.map f id)
  super : ∀ {Γ r r' l l'}, U.site r.id l r'.id l' → U.super Γ r r' → V.super Γ r (r'.map f id)
  site : ∀ {i l i' l'}, U.site i l i' l' → V.site i l (f i') l'
  decl : ∀ {d d'}, U.decl d d' → V.decl d (d'.map f id)
  renames : ∀ {twin}, U.renames twin → V.renames twin

section through

variable {f : NodeId → NodeId} {U V : Links}

theorem Links.Allows.through (h : U.Through f V) {declared : List String} {twin : String → String}
    (ha : U.Allows declared twin) : V.Allows declared twin := ⟨h.renames ha.renames, ha.injective⟩

mutual

theorem MatchExpr.through (h : U.Through f V) {Γ : Levels} {p : Option String} :
    ∀ {e e' : Expr NodeId}, MatchExpr U Γ p e e' → MatchExpr V Γ p e (e'.map f id)
  | _, _, .literal i i' v => .literal i (f i') v
  | _, _, .group i i' he => .group i (f i') (he.through h)
  | _, _, .unary op ht he => .unary op (h.site ht) (he.through h)
  | _, _, .binary op ht ha hb => .binary op (h.site ht) (ha.through h) (hb.through h)
  | _, _, .logical i i' op t t' ha hb => .logical i (f i') op t t' (ha.through h) (hb.through h)
  | _, _, .name hr => .name (h.read hr)
  | _, _, .assign hr he => .assign (h.write hr) (he.through h)
  | _, _, .call ht hf ha => .call (h.site ht) (hf.through h) (ha.through h)
  | _, _, .get hn ht he => .get hn (h.site ht) (he.through h)
  | _, _, .set hn ht ha hb => .set hn (h.site ht) (ha.through h) (hb.through h)
  | _, _, .this hr => .this (h.read hr)
  | _, _, .super hn ht hs => .super hn (h.site ht) (h.super ht hs)

theorem MatchEach.through (h : U.Through f V) {Γ : Levels} {p : Option String} :
    ∀ {es es' : List (Expr NodeId)}, MatchEach U Γ p es es' → MatchEach V Γ p es (Expr.mapEach f id es')
  | _, _, .nil => .nil
  | _, _, .cons he hes => .cons (he.through h) (hes.through h)

end

theorem MatchExpr?.through (h : U.Through f V) {Γ : Levels} {p : Option String} {e e' : Option (Expr NodeId)}
    (he : MatchExpr? U Γ p e e') : MatchExpr? V Γ p e (e'.map (·.map f id)) := by
  cases he with
  | none => exact .none
  | some he => exact .some (he.through h)

mutual

theorem MatchStmt.through (h : U.Through f V) : ∀ {b : Bool} {Γ Γ' : Levels} {s s' : Stmt NodeId},
    MatchStmt U b Γ s s' Γ' → MatchStmt V b Γ s (s'.map f id) Γ'
  | _, _, _, _, _, .expression he => .expression (he.through h)
  | _, _, _, _, _, .print he => .print (he.through h)
  | _, _, _, _, _, .var hd he => .var hd (he.through h)
  | _, _, _, _, _, .block hp hs => .block (hp.through h) (hs.through h)
  | _, _, _, _, _, .ite hc hy => .ite (hc.through h) (hy.through h)
  | _, _, _, _, _, .iteElse hc hy hn => .iteElse (hc.through h) (hy.through h) (hn.through h)
  | _, _, _, _, _, .while hc hb => .while (hc.through h) (hb.through h)
  | _, _, _, _, _, @MatchStmt.function _ _ _ _ _ d' hd hf => by
      refine .function ?_ (hf.through h)
      rwa [FunDecl.name_map]
  | _, _, _, _, _, .ret t t' he => .ret t t' (he.through h)
  | _, _, _, _, _, .base hn hd hm => .base hn hd (hm.through h)
  | _, _, _, _, _, .derived hn hd hr hm => .derived hn hd (h.read hr) (hm.through h)

theorem MatchStmts.through (h : U.Through f V) : ∀ {b : Bool} {Γ Γ' : Levels} {ss ss' : List (Stmt NodeId)},
    MatchStmts U b Γ ss ss' Γ' → MatchStmts V b Γ ss (Stmt.mapAll f id ss') Γ'
  | _, _, _, _, _, .nil b Γ => .nil b Γ
  | _, _, _, _, _, .cons hs hss => .cons (hs.through h) (hss.through h)

theorem MatchFun.through (h : U.Through f V) : ∀ {Γ : Levels} {d d' : FunDecl NodeId},
    MatchFun U Γ d d' → MatchFun V Γ d (d'.map f id)
  | _, _, _, @MatchFun.mk _ _ _ _ _ _ _ _ params' _ _ hn hu hp hd ht hb => by
      refine .mk hn (h.decl hu) (hp.through h) hd ?_ (hb.through h)
      rwa [List.map_id]

theorem MatchFuns.through (h : U.Through f V) : ∀ {Γ : Levels} {ds ds' : List (FunDecl NodeId)},
    MatchFuns U Γ ds ds' → MatchFuns V Γ ds (FunDecl.mapEach f id ds')
  | _, _, _, .nil Γ => .nil Γ
  | _, _, _, .cons hd hds => .cons (hd.through h) (hds.through h)

end

end through

/-! ### Analysis from a later number on -/

/-- What a step runs, numbered `k` later. -/
def Code.shift (k : Nat) : Code → Code
  | program body => .program (Stmt.mapAll (· + k) id body)
  | expression e => .expression (e.map (· + k) id)

/-- A job whose numbers are `k` later. -/
def Job.shift (k : Nat) (job : Job) : Job :=
  ⟨job.code.shift k, Distances.relabel (· + k) job.distances, job.next + k⟩

theorem analyze_shift (next k : NodeId) (source : String) :
    analyze (next + k) source = match analyze next source with
      | .ok (p, last) =>
        .ok (⟨Stmt.mapAll (· + k) id p.statements, Distances.relabel (· + k) p.distances⟩, last + k)
      | .error faults => .error faults := by
  cases hp : parseProgram (tokensOf (scan source)) with
  | error faults => rw [analyze_unparsed hp, analyze_unparsed hp]
  | ok body =>
      have hnum := Stmt.numberAll_map id k body next
      rw [Stmt.mapAll_id] at hnum
      rw [analyze_parsed hp, analyze_parsed hp, hnum]
      dsimp only
      rw [resolveProgram_map (g := id) fun _ => rfl]
      cases resolveProgram (Stmt.numberAll next body).1 with
      | error faults =>
          have hid : faults.map (ScopeError.map id) = faults := List.map_id _
          dsimp only
          rw [hid]
      | ok ds =>
          dsimp only [unlessFaulty]
          split <;> rfl

theorem analyzeExpression_shift (next k : NodeId) (source : String) :
    analyzeExpression (next + k) source = match analyzeExpression next source with
      | .ok (e, last) => .ok (⟨e.expr.map (· + k) id, Distances.relabel (· + k) e.distances⟩, last + k)
      | .error faults => .error faults := by
  unfold analyzeExpression
  cases readExpression source with
  | error faults => rfl
  | ok plain =>
      have hnum := Expr.number_map id k plain next
      rw [Expr.map_id] at hnum
      simp only [bind, Except.bind]
      rw [hnum]
      dsimp only
      rw [resolveExpression_map (g := id) fun _ => rfl]
      cases resolveExpression (plain.number next).1 with
      | error faults =>
          have hid : faults.map (ScopeError.map id) = faults := List.map_id _
          dsimp only
          rw [hid]
      | ok ds => rfl

/-- The job of a step that is numbered from a later number on. -/
theorem Step.job_shift (st : Step) (next k : NodeId) :
    st.job (next + k) = match st.job next with
      | .ok job => .ok (job.shift k)
      | .error faults => .error faults := by
  cases st with
  | run source =>
      unfold Step.job
      dsimp only
      rw [analyze_shift]
      cases analyze next source <;> rfl
  | evaluate source =>
      unfold Step.job
      dsimp only
      rw [analyzeExpression_shift]
      cases analyzeExpression next source <;> rfl

/-! ### Tables -/

theorem getElem?_insertMany_relabel {k : NodeId} {T T' : Std.HashMap NodeId Nat} (ds : Distances)
    (h : ∀ i, T'[i + k]? = T[i]?) (i : NodeId) :
    (T'.insertMany (Distances.relabel (· + k) ds))[i + k]? = (T.insertMany ds)[i]? := by
  induction ds generalizing T T' with
  | nil => exact h i
  | cons p ds ih =>
      rw [Distances.relabel, List.map_cons, Std.HashMap.insertMany_cons, Std.HashMap.insertMany_cons]
      refine ih fun j => ?_
      rw [Std.HashMap.getElem?_insert, Std.HashMap.getElem?_insert, h]
      simp

/-- Two runs of the same code, whose nodes have numbers `k` later on the right. -/
def Comparison.shifted (T T' : Std.HashMap NodeId Nat) (known k : NodeId) : Comparison where
  look := .byDistance
  left := T
  right := T'
  site i l i' l' := i < known ∧ i' = i + k ∧ l' = l
  early r r' := r'.name.text = r.name.text
  decl d d' := d' = d.map (· + k) id
  renames twin := twin = id

section shifted

variable {T T' V V' : Std.HashMap NodeId Nat} {known known' k : NodeId}

theorem Comparison.alike_through (h : ∀ i, T'[i + k]? = T[i]?) :
    (alike T T known).links.Through (· + k) (shifted T T' known k).links where
  read := fun ⟨⟨hi, he, hl⟩, hf, hr⟩ => ⟨⟨hi, congrArg (· + k) he, hl⟩, (h _).trans hf, hr⟩
  write := by
    rintro Γ p r r' ⟨⟨hi, he, hl⟩, ⟨hf, hr, ha⟩ | ⟨hn, hlook, hd, hd', hx⟩⟩
    · exact ⟨⟨hi, congrArg (· + k) he, hl⟩, .inl ⟨(h _).trans hf, hr, ha⟩⟩
    · exact ⟨⟨hi, congrArg (· + k) he, hl⟩, .inr ⟨hn, hlook, hd, (h _).trans hd', hx⟩⟩
  super := fun _ ⟨d, hm, hl, hr⟩ => ⟨d, hm, hl, (h _).trans hr⟩
  site := fun ⟨hi, he, hl⟩ => ⟨hi, congrArg (· + k) he, hl⟩
  decl := by
    rintro d _ rfl
    rfl
  renames hr := hr

theorem Comparison.shifted_extends (hk : known ≤ known') (hV : ∀ i, i < known → V[i]? = T[i]?)
    (hT' : ∀ i, T'[i + k]? = T[i]?) (hV' : ∀ i, V'[i + k]? = V[i]?) :
    (shifted T T' known k).Extends (shifted V V' known' k) where
  look := rfl
  left hs := hV _ hs.1
  right := by
    rintro i l _ _ ⟨hi, rfl, -⟩
    exact (hV' i).trans ((hV i hi).trans (hT' i).symm)
  site := fun ⟨hi, he, hl⟩ => ⟨Nat.lt_of_lt_of_le hi hk, he, hl⟩
  early h := h
  decl h := h
  renames h := h

end shifted

/-! ### Code without its numbers -/

/-- A declaration without the numbers of its nodes. -/
def FunDecl.unnumbered (d : FunDecl NodeId) : FunDecl NodeId := d.map (fun _ => 0) id

/-- A heap without the numbers of the nodes of the code in it. -/
def Heap.unnumbered (h : Heap) : Heap := h.mapDecl FunDecl.unnumbered

/-- An ending without the numbers of the nodes of the code in its value. -/
def Ending.unnumbered : Ending → Ending
  | evaluated (.done v) => .evaluated (.done (v.mapDecl FunDecl.unnumbered))
  | ending => ending

theorem FunDecl.unnumbered_shift (k : NodeId) (d : FunDecl NodeId) :
    (d.map (· + k) id).unnumbered = d.unnumbered := by
  unfold FunDecl.unnumbered
  rw [FunDecl.map_map]
  rfl

/-! ### Two sessions -/

/-- Two sessions that hold the same, with numbers `k` later in the second: their machines are in step, and
their tables have the same entries. -/
structure Session.Shifted (k : NodeId) (s s' : Session) : Prop where
  world : ∃ w, InStep (Comparison.shifted s.machine.distances s'.machine.distances s.nextNode k).links
    s.machine.distances s'.machine.distances w s.machine s'.machine ∧ w.Chain [] s.machine.env
  env : s.machine.env = [globalFrame]
  fresh : ∀ i, s.nextNode ≤ i → s.machine.distances[i]? = none
  same : ∀ i, s'.machine.distances[i + k]? = s.machine.distances[i]?
  next : s'.nextNode = s.nextNode + k

section sessions

variable {S : Settings} {k : NodeId} {s s' : Session} {α : Type}

/-- Sessions hold the same before and after both number on, whatever for. -/
theorem Session.Shifted.skip (h : s.Shifted k s') {last : NodeId} (hle : s.nextNode ≤ last) :
    Session.Shifted k ⟨s.machine, last⟩ ⟨s'.machine, last + k⟩ where
  world := by
    obtain ⟨w, hw, hc⟩ := h.world
    exact ⟨w, InStep.learn (Comparison.shifted_extends hle (fun _ _ => rfl) h.same h.same) hw, hc⟩
  env := h.env
  fresh i hi := h.fresh i (Nat.le_trans hle hi)
  same := h.same
  next := rfl

/-- They hold the same after both have learnt the distances of a program. -/
theorem Session.Shifted.learnt (h : s.Shifted k s') {ds : Distances} {last : NodeId} (hle : s.nextNode ≤ last)
    (hds : ∀ i, i < s.nextNode ∨ last ≤ i → (s.machine.distances.insertMany ds)[i]? = s.machine.distances[i]?) :
    Session.Shifted k ⟨learn s.machine ds, last⟩ ⟨learn s'.machine (Distances.relabel (· + k) ds), last + k⟩ where
  world := by
    obtain ⟨w, hw, hc⟩ := h.world
    exact ⟨w, InStep.learn (Comparison.shifted_extends hle (fun i hi => hds i (.inl hi)) h.same
      (getElem?_insertMany_relabel ds h.same)) hw, hc⟩
  env := h.env
  fresh i hi := (hds i (.inr hi)).trans (h.fresh i (Nat.le_trans hle hi))
  same := getElem?_insertMany_relabel ds h.same
  next := rfl

/-- They hold the same after runs that end in step. -/
theorem Session.Shifted.ended (h : s.Shifted k s') {Q : World → α → α → Prop} {w : World}
    (hc : w.Chain [] s.machine.env) {p p' : Outcome α × Machine}
    (he : EndInStep (Comparison.shifted s.machine.distances s'.machine.distances s.nextNode k).links S
      s.machine.distances s'.machine.distances w s.machine Q p p') :
    Session.Shifted k ⟨p.2, s.nextNode⟩ ⟨p'.2, s'.nextNode⟩ := by
  obtain ⟨⟨w₁, hw, hs, -⟩, henv⟩ := he
  have hl : p.2.distances = s.machine.distances := hs.distances_left
  have hr : p'.2.distances = s'.machine.distances := hs.distances_right
  refine ⟨⟨w₁, ?_, ?_⟩, henv.trans h.env, ?_, ?_, h.next⟩
  · dsimp only
    rw [hl, hr]
    exact hs
  · exact henv ▸ hc.mono hw
  · intro i hi
    dsimp only
    rw [hl]
    exact h.fresh i hi
  · intro i
    dsimp only
    rw [hl, hr]
    exact h.same i

/-- Outcomes that match are the same, but for the numbers in the code of a value. -/
theorem OutcomeMatch.shifted {T T' : Std.HashMap NodeId Nat} {known : NodeId} {n : Machine} {Q : α → α → Prop}
    {o o' : Outcome α} (h : OutcomeMatch (Comparison.shifted T T' known k).links S n Q o o') :
    (∃ a a', o = .done a ∧ o' = .done a' ∧ Q a a') ∨ (∀ a, o ≠ .done a) ∧ o' = o := by
  cases h with
  | done h => exact .inl ⟨_, _, rfl, rfl, h⟩
  | runtime fault h =>
      obtain ⟨-, -, rfl⟩ := h
      exact .inr ⟨nofun, rfl⟩
  | sink fault => exact .inr ⟨nofun, rfl⟩
  | early h _ =>
      have htext : _ = _ := h
      rw [htext]
      exact .inr ⟨nofun, rfl⟩
  | exhausted => exact .inr ⟨nofun, rfl⟩

/-- Runs of one text end in the same way. -/
theorem Session.Shifted.run (hS : S.lookup = .byDistance) (h : s.Shifted k s') (source : String) :
    (s'.run S source).1 = (s.run S source).1 ∧ (s.run S source).2.Shifted k (s'.run S source).2 := by
  have hshift := analyze_shift s.nextNode k source
  rw [← h.next] at hshift
  cases ha : analyze s.nextNode source with
  | error faults =>
      rw [ha] at hshift
      unfold Session.run
      rw [ha, hshift]
      exact ⟨rfl, h⟩
  | ok r =>
      obtain ⟨p, last⟩ := r
      rw [ha] at hshift
      have hp := Program.fits_of_analyze ha
      have hl := h.learnt hp.uses.le fun i hi => hp.unchanged hi
      obtain ⟨w, hw, hc⟩ := hl.world
      have hrec := hp.recorded h.fresh
      have hend := Comparison.interpret_inStep hS rfl hw hc
        ((hp.alike hrec hrec).through (Comparison.alike_through hl.same))
      rw [Session.run_eq ha, Session.run_eq hshift]
      refine ⟨?_, hl.ended hc hend⟩
      obtain ⟨⟨w₁, -, -, ho⟩, -⟩ := hend
      rcases ho.shifted with ⟨a, a', ho, ho', -⟩ | ⟨-, ho⟩
      · exact ho'.trans ho.symm
      · exact ho

/-- An accepted expression matches itself when the table has learnt it. -/
theorem LoneExpr.alike {source : String} {first last : NodeId} {e : LoneExpr}
    (h : analyzeExpression first source = .ok (e, last)) {T : Std.HashMap NodeId Nat}
    (hT : ∀ i, first ≤ i → T[i]? = none) :
    let T₁ := T.insertMany e.distances
    MatchExpr (Comparison.alike T₁ T₁ last).links [] none e.expr e.expr ∧ first ≤ last ∧
      ∀ i, i < first ∨ last ≤ i → T₁[i]? = T[i]? := by
  intro T₁
  obtain ⟨plain, hreads, hnum, hfound⟩ := analyzeExpression_ok h
  have hwithin : Within first last ((usesAt [] none e.expr.references).map (·.ref.id)) := by
    have hw := Expr.number_within plain first
    rw [hnum] at hw
    rwa [usesAt_ids]
  have hmarks := (Expr.number_marks plain first).range
  rw [hnum] at hmarks
  have hspelled : e.expr.Spelled := by
    have hs := Expr.spelled_number hreads.spelled first
    rwa [hnum] at hs
  have hrec : ∀ u ∈ usesAt [] none e.expr.references,
      Recorded (Comparison.alike T₁ T₁ last) (fun _ => id) id id u := by
    intro u hu
    have hid := hwithin.range u.ref.id (List.mem_map_of_mem hu)
    have hd : T₁[u.ref.id]? = u.distance? := by
      dsimp only [T₁]
      rw [hfound.distances]
      exact getElem?_distancesOf hwithin.nodup hu (hT _ hid.1)
    exact ⟨hd, hd, fun _ => rfl, (Surroundings.twin_same _ _).symm, ⟨hid.2, rfl, rfl⟩, fun _ _ _ => rfl⟩
  have hplace : Placed.Sound ⟨[], none, e.expr⟩ := ⟨nofun, hspelled, nofun⟩
  have hmatch := @Expr.map_matches (Comparison.alike T₁ T₁ last).links (fun _ => id) id id [] none e.expr
    ⟨fun u hu => (hrec u hu).useMatch (hplace.uses u hu) (hfound.allowed u hu) fun _ => rfl,
      fun m hm => ⟨rfl, (hmarks m.id (List.mem_map_of_mem hm)).2, rfl, rfl⟩⟩
  rw [Expr.map_id] at hmatch
  refine ⟨hmatch, hwithin.le, fun i hi => ?_⟩
  dsimp only [T₁]
  rw [hfound.distances]
  refine getElem?_distancesOf_of_notMem fun u hu he => ?_
  obtain ⟨hfirst, hlast⟩ := hwithin.range _ (List.mem_map_of_mem hu)
  rw [he] at hfirst hlast
  exact hi.elim (Nat.not_lt.mpr hfirst) (Nat.not_le.mpr hlast)

/-- Evaluations of one text end in the same way, but for the numbers in the code of a value. -/
theorem Session.Shifted.evaluate (hS : S.lookup = .byDistance) (h : s.Shifted k s') (source : String) :
    (Ending.evaluated (s'.evaluate S source).1).unnumbered = (Ending.evaluated (s.evaluate S source).1).unnumbered ∧
      (s.evaluate S source).2.Shifted k (s'.evaluate S source).2 := by
  have hshift := analyzeExpression_shift s.nextNode k source
  rw [← h.next] at hshift
  cases ha : analyzeExpression s.nextNode source with
  | error faults =>
      rw [ha] at hshift
      unfold Session.evaluate
      rw [ha, hshift]
      exact ⟨rfl, h⟩
  | ok r =>
      obtain ⟨e, last⟩ := r
      rw [ha] at hshift
      obtain ⟨hmatch, hle, hsame⟩ := LoneExpr.alike ha h.fresh
      have hl := h.learnt hle hsame
      obtain ⟨w, hw, hc⟩ := hl.world
      have hend := evaluated_inStep (Comparison.links_sound _ hS) hw hc
        (hmatch.through (Comparison.alike_through hl.same))
      rw [show (Comparison.shifted _ _ _ _).look = .byDistance from rfl, Settings.with_lookup hS] at hend
      rw [Session.evaluate_eq ha, Session.evaluate_eq hshift]
      refine ⟨?_, hl.ended hc hend⟩
      obtain ⟨⟨w₁, -, -, ho⟩, -⟩ := hend
      rcases ho.shifted with ⟨v, v', ho, ho', hv⟩ | ⟨-, ho⟩
      · have hcode : v'.mapDecl FunDecl.unnumbered = v.mapDecl FunDecl.unnumbered := by
          refine hv.mapDecl_eq fun d d' hd => ?_
          have hd : d' = d.map (· + k) id := hd
          rw [hd, FunDecl.unnumbered_shift]
        rw [ho, ho']
        unfold Ending.unnumbered
        dsimp only
        rw [hcode]
      · exact congrArg (fun o => (Ending.evaluated o).unnumbered) ho

/-- A step ends in the same way in both sessions, and leaves them holding the same. -/
theorem Session.Shifted.step (hS : S.lookup = .byDistance) (h : s.Shifted k s') (st : Step) :
    (s'.step S st).1.unnumbered = (s.step S st).1.unnumbered ∧
      (s.step S st).2.Shifted k (s'.step S st).2 := by
  cases st with
  | run source =>
      obtain ⟨ho, hs⟩ := h.run hS source
      exact ⟨congrArg (fun o => (Ending.ran o).unnumbered) ho, hs⟩
  | evaluate source => exact h.evaluate hS source

/-- What two such sessions hold is the same, but for the numbers in code. -/
theorem Session.Shifted.holds (h : s.Shifted k s') :
    s'.machine.heap.unnumbered = s.machine.heap.unnumbered ∧
      s'.machine = { s.machine with heap := s'.machine.heap, distances := s'.machine.distances } := by
  obtain ⟨w, hw, -⟩ := h.world
  refine ⟨?_, hw.eq_heap⟩
  rw [hw.left, hw.right]
  refine hw.good.mapDecl_eq (fun d d' hd => ?_) fun _ hr => hr
  have hd : d' = d.map (· + k) id := hd
  rw [hd, FunDecl.unnumbered_shift]

end sessions

end Lox
