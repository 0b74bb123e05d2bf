import Lox.Proofs.Beside
import Lox.Proofs.Embracing
import Lox.Proofs.Ladder

/-! # Redundant braces

Braces around a statement that declares nothing change nothing.  The text with the braces is accepted, and of the
distances only those grow, by one, that reach from the statement to a local scope around it
(`Occurrence.analyze_embraced`).  A session that runs it does what it does with the text as it was, and so do all
steps after that, which may call the functions and use the instances that were made in between the braces
(`Session.perform_embraced`). -/

namespace Lox

/-! ### Analysis -/

/-- Two programs of which the second has an occurrence of a statement in braces, with the distances of both. -/
structure Program.Braced (B : Stmt NodeId) (p p' : Program) : Prop where
  statements : B.BracingAll p.statements p'.statements
  distances : ∃ outer before after, outer.Open ∧
    Stmt.expressionsAll [] p.statements = before ++ (B.expressions outer ++ after) ∧
    p'.distances = p.distances.lengthened (B.beyond outer)

/-- A text with a statement in braces is accepted when it is without them. -/
theorem Occurrence.analyze_embraced {source : String} (o : Occurrence source) {next last : NodeId} {p : Program}
    (ha : analyze next source = .ok (p, last)) :
    ∃ p' B, analyze next o.embraced = .ok (p', last) ∧ B.map unnumbered id = o.statement ∧ B.Formed ∧
      p.Braced B p' := by
  obtain ⟨body, hreads, hnum, hacc⟩ := analyze_ok ha
  have hids := (usesOf_within body next).nodup
  obtain rfl := o.body_eq hreads
  have hreads' := o.readsAs_embraced hreads
  obtain ⟨k, hb, hlast⟩ := (o.context.bracing o.text.declared?).number next
  have hmap := o.statement.map_number k
  have hd := (o.statement.declared?_number k).trans o.text.declared?
  generalize (o.statement.number k).1 = B at hb hmap hd
  have hB : B.Formed := by
    rw [← Stmt.formed_map unnumbered keepsWords_id, hmap]
    exact o.formed
  have hf' := Stmt.formedAll_number hreads'.formed next
  rw [hnum] at hb hids hlast
  have hacc' := hacc.braced hb hB hd hf'
  refine ⟨⟨_, _⟩, B, hreads'.analyze (Prod.ext rfl hlast) hacc', hmap, hB, hb, ?_⟩
  rw [hacc.distances]
  exact hb.distances hB hd hids

/-! ### Runs -/

/-- The fuel suffices for all steps. -/
def AllSettled (endings : List Ending) : Prop := ∀ e ∈ endings, e.Settled

theorem Ending.settled_bare (e : Ending) : e.bare.Settled ↔ e.Settled := by
  cases e with
  | ran o => rfl
  | evaluated o => cases o <;> rfl

theorem allSettled_bare (endings : List Ending) : AllSettled (endings.map Ending.bare) ↔ AllSettled endings := by
  unfold AllSettled
  rw [List.forall_mem_map]
  exact forall₂_congr fun e _ => e.settled_bare

/-- Two sessions after steps: the endings, the output, the globals, and the fields of instances are the same, but for
redundant braces in the code of functions and for where functions keep the variables around them. -/
structure EndAlike (x x' : List Ending × Session) : Prop where
  endings : x'.1.map Ending.bare = x.1.map Ending.bare
  sink : x'.2.machine.sink = x.2.machine.sink
  globals : (x'.2.machine.heap.slots globalFrame).bare = (x.2.machine.heap.slots globalFrame).bare
  fields : ∀ i, (x'.2.machine.heap.fields.getD i []).bare = (x.2.machine.heap.fields.getD i []).bare
  readings : x'.2.machine.readings = x.2.machine.readings
  nextNode : x'.2.nextNode = x.2.nextNode

theorem Session.Beside.endAlike {U : Tables} {s s' : Session} (h : s.Beside U s') {endings endings' : List Ending}
    (he : endings'.map Ending.bare = endings.map Ending.bare) : EndAlike (endings, s) (endings', s') := by
  obtain ⟨w, hm, -⟩ := h.machines
  exact ⟨he, hm.sink, (hm.heap.slots _ _ hm.heap.globals).bare_eq, fun i => (hm.heap.fields i).bare_eq, hm.readings,
    h.nextNode⟩

namespace EndingsBeside

variable {p q : Prop} {x x' : List Ending × Session}

theorem endAlike (h : EndingsBeside p q x x') (hx : AllSettled x.1) (hx' : AllSettled x'.1) : EndAlike x x' := by
  rcases h with ⟨U, hs, he⟩ | ⟨-, e, hm, hn⟩ | ⟨-, e, hm, hn⟩
  · exact hs.endAlike he
  · exact absurd (hx e hm) hn
  · exact absurd (hx' e hm) hn

theorem settled (h : EndingsBeside True False x x') (hx : AllSettled x.1) : AllSettled x'.1 := by
  rcases h with ⟨U, -, he⟩ | ⟨-, e, hm, hn⟩ | ⟨hq, -⟩
  · rwa [← allSettled_bare, he, allSettled_bare]
  · exact absurd (hx e hm) hn
  · exact hq.elim

theorem settled_back (h : EndingsBeside False True x x') (hx' : AllSettled x'.1) : AllSettled x.1 := by
  rcases h with ⟨U, -, he⟩ | ⟨hp, -⟩ | ⟨-, e, hm, hn⟩
  · rwa [← allSettled_bare, ← he, allSettled_bare]
  · exact hp.elim
  · exact absurd (hx' e hm) hn

end EndingsBeside

/-- Redundant braces are harmless.  A text that is accepted is accepted with any statement in it in braces that
declares nothing.  The program is the same but for the braces; of the distances, those grow by one of the uses in the
statement that reach a local scope beyond it, and all others stay.  In every session that any steps lead to, to run
the one text is to run the other, whatever steps come after it: they end alike, as far as the fuel reaches.  Where it
suffices for the text as it was, twice as much suffices for the text with braces, which never needs less. -/
theorem Session.perform_embraced {S : Settings} (hS : S.lookup = .byDistance) (sink : Sink) (steps : List Step)
    {source : String} (h : Passes source) (o : Occurrence source) :
    let s := Session.reached S sink steps
    ∃ p p' last B, analyze s.nextNode source = .ok (p, last) ∧ analyze s.nextNode o.embraced = .ok (p', last) ∧
      B.map unnumbered id = o.statement ∧ p.Braced B p' ∧
      ∀ f g more,
        let x := s.perform { S with fuel := f } (.run source :: more)
        let x' := s.perform { S with fuel := g } (.run o.embraced :: more)
        (AllSettled x.1 → AllSettled x'.1 → EndAlike x x') ∧
          (2 * f ≤ g → AllSettled x.1 → AllSettled x'.1) ∧ (g ≤ f → AllSettled x'.1 → AllSettled x.1) := by
  intro s
  obtain ⟨p, last, ha⟩ := h.analyze s.nextNode
  obtain ⟨p', B, ha', hB, hformed, hbraced⟩ := o.analyze_embraced ha
  refine ⟨p, p', last, B, ha, ha', hB, hbraced, fun f g more => ?_⟩
  have hs := Session.reached_sound hS sink steps
  have hcode := hs.beside.code_braced hs hs (Program.fits_of_analyze ha) (Program.fits_of_analyze ha')
    hbraced.statements hformed
  have hnext := (Session.step_sound (S := { S with fuel := f }) hS hs (.run source) nofun).sound
  have hnext' := (Session.step_sound (S := { S with fuel := g }) hS hs (.run o.embraced) nofun).sound
  have hends {p q : Prop} (hg : Supplied p q 0 f g) :
      EndingsBeside p q (s.perform { S with fuel := f } (.run source :: more))
        (s.perform { S with fuel := g } (.run o.embraced :: more)) :=
    (hs.beside.run hs hs hS hg ha ha' hcode).then fun U hU => hU.perform hS hg more hnext hnext'
  exact ⟨(hends ⟨.inl trivial, .inl trivial⟩).endAlike,
    fun hle => (hends ⟨.inl trivial, .inr hle⟩).settled,
    fun hle => (hends ⟨.inr hle, .inl trivial⟩).settled_back⟩

/-- The branch of an `if`. -/
def printedBranch : Occurrence "if (true) print nil;" where
  before := [⟨['i', 'f'], .token (.keyword .if_)⟩, ⟨[' '], .trivia⟩, ⟨['('], .token .leftParen⟩,
    ⟨['t', 'r', 'u', 'e'], .token (.keyword .true)⟩, ⟨[')'], .token .rightParen⟩, ⟨[' '], .trivia⟩]
  own := [⟨['p', 'r', 'i', 'n', 't'], .token (.keyword .print)⟩, ⟨[' '], .trivia⟩,
    ⟨['n', 'i', 'l'], .token (.keyword .nil)⟩, ⟨[';'], .token .semicolon⟩]
  after := []
  cut := by cbv
  starts := by simp
  ends := by simp
  dangling := false
  statement := .print (.literal () .nil)
  trees s := [.ite (.literal () (.bool true)) s none]
  text :=
    have hv : ExprText .assignment [⟨⟨"nil", 1⟩, .keyword .nil⟩] (.literal () .nil) :=
      .looser (.literal rfl) (by decide)
    .print (k := ⟨⟨"print", 1⟩, .keyword .print⟩) (s := ⟨⟨";", 1⟩, .semicolon⟩) rfl hv rfl
  context :=
    have hc : ExprText .assignment [⟨⟨"true", 1⟩, .keyword .true⟩] (.literal () (.bool true)) :=
      .looser (.literal rfl) (by decide)
    .head (.statement (.ite (k := ⟨⟨"if", 1⟩, .keyword .if_⟩) (l := ⟨⟨"(", 1⟩, .leftParen⟩)
      (r := ⟨⟨")", 1⟩, .rightParen⟩) rfl rfl hc rfl .here)) .nil

/-- With its branch in braces, and enough fuel, a conditional text ends a session alike. -/
theorem Session.perform_embraced_branch :
    let s := Session.reached .standard .unlimited []
    let x := s.perform { Settings.standard with fuel := 10 } [.run "if (true) print nil;"]
    let x' := s.perform { Settings.standard with fuel := 20 } [.run "if (true) \x7b print nil; \x7d"]
    Passes "if (true) print nil;" ∧ AllSettled x.1 ∧ AllSettled x'.1 ∧ EndAlike x x' := by
  intro s x x'
  have h : Passes "if (true) print nil;" :=
    ⟨0, (⟨[.ite (.literal 0 (.bool true)) (.print (.literal 1 .nil)) none], []⟩, 2), by cbv⟩
  have hx : x.1 = [.ran (.done ())] := by cbv
  have hsettled : AllSettled x.1 := by
    rw [hx]
    exact List.forall_mem_singleton.mpr trivial
  obtain ⟨p, p', last, B, -, -, -, -, hruns⟩ :=
    Session.perform_embraced (S := .standard) rfl .unlimited [] h printedBranch
  obtain ⟨halike, hmore, -⟩ := hruns 10 20 []
  have hsettled' : AllSettled x'.1 := hmore (by decide) hsettled
  exact ⟨h, hsettled, hsettled', halike hsettled hsettled'⟩

end Lox
