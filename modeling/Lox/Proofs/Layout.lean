import Lox.Proofs.Carrying
import Lox.Proofs.Reading
import Lox.Proofs.Respelling
import Lox.Proofs.Shifting

/-! # Layout

Blanks, line ends and comments tell tokens apart and say which lines they are on, and nothing else.  Two texts
with the same tokens but for their lines (`Relaid`) are read from the same placed tokens, once on the lines of the
one text and once on those of the other, so both are rejected with the same faults, or both are accepted as one
program on two sets of lines (`Relaid.analyzed`).  Runs of such programs stay in step whatever the lines are, so
they do the same but for the lines of faults and of code (`Session.run_relaid`). -/

namespace Lox

open World

/-! ### Without lines -/

/-- A token without its line. -/
def Token.unlined (t : Token) : Token := t.map Lexeme.unlined

/-- A fault of the text without its line. -/
def LexError.unlined (e : LexError) : LexError := ⟨e.fault, 0⟩

/-- A diagnostic without its line. -/
def Diagnostic.unlined : Diagnostic → Diagnostic
  | lex e => lex e.unlined
  | parse e => parse (e.map Lexeme.unlined 0)
  | scope e => scope (e.map Lexeme.unlined)
  | runtime e => runtime ⟨e.fault, 0⟩
  | sink fault => sink fault

/-- An outcome without the lines of its faults.  A breach stays as it is. -/
def Outcome.unlined {α : Type} : Outcome α → Outcome α
  | rejected faults => rejected (faults.map Diagnostic.unlined)
  | failed fault => failed fault.unlined
  | outcome => outcome

/-- A program with other lexemes. -/
def Program.relex (g : Lexeme → Lexeme) (p : Program) : Program := ⟨Stmt.mapAll id g p.statements, p.distances⟩

/-- What analysis finds. -/
abbrev Analysis := Except (List Diagnostic) (Program × NodeId)

/-- What analysis finds, without lines, and with numbers `k` later. -/
def Analysis.unlined (k : NodeId) : Analysis → Analysis
  | .ok (p, last) =>
    .ok (⟨Stmt.mapAll (· + k) Lexeme.unlined p.statements, Distances.relabel (· + k) p.distances⟩, last + k)
  | .error faults => .error (faults.map Diagnostic.unlined)

/-! ### Texts with the same tokens -/

/-- Two texts that have the same tokens, and the same faults between them, but for the lines. -/
structure Relaid (source source' : String) : Prop where
  tokens : (tokensOf (scan source')).map Token.unlined = (tokensOf (scan source)).map Token.unlined
  faults : (faultsOf (scan source')).map LexError.unlined = (faultsOf (scan source)).map LexError.unlined

/-- Placed tokens do not show their lines. -/
theorem placed_unlined (ts : List Token) : placed (ts.map Token.unlined) = placed ts := by
  refine List.ext_getElem? fun i => ?_
  rw [placed, placed, List.getElem?_mapIdx, List.getElem?_mapIdx, List.getElem?_map, Option.map_map]
  rfl

/-- The lines of the tokens of a text. -/
abbrev linesOf (source : String) : Lexeme → Lexeme := Lexeme.onLines (tokensOf (scan source))

section relaid

variable {g : Lexeme → Lexeme} (hg : ∀ t, (g t).text = t.text)

include hg

theorem Lexeme.unlined_comp : Lexeme.unlined ∘ g = Lexeme.unlined :=
  funext fun t => congrArg (Lexeme.mk · 0) (hg t)

theorem ParseError.unlined_map (last : Nat) (e : ParseError) :
    Diagnostic.unlined (.parse (e.map g last)) = Diagnostic.unlined (.parse e) := by
  obtain ⟨fault, place⟩ := e
  cases place with
  | «at» t =>
      have ht : (g t).unlined = t.unlined := congrFun (Lexeme.unlined_comp hg) t
      exact congrArg (fun t => Diagnostic.parse ⟨fault, .at t⟩) ht
  | atEnd line => rfl

theorem ScopeError.unlined_map (e : ScopeError) :
    Diagnostic.unlined (.scope (e.map g)) = Diagnostic.unlined (.scope e) :=
  congrArg (fun text => Diagnostic.scope ⟨e.fault, ⟨text, 0⟩⟩) (hg e.lexeme)

/-- Faults of grammar on other lines. -/
theorem ParseError.unlined_mapEach (last : Nat) (es : List ParseError) :
    ((es.map (ParseError.map g last)).map Diagnostic.parse).map Diagnostic.unlined =
      (es.map Diagnostic.parse).map Diagnostic.unlined := by
  simp only [List.map_map]
  exact List.map_congr_left fun e _ => ParseError.unlined_map hg last e

/-- Faults of names on other lines. -/
theorem ScopeError.unlined_mapEach (es : List ScopeError) :
    ((es.map (ScopeError.map g)).map Diagnostic.scope).map Diagnostic.unlined =
      (es.map Diagnostic.scope).map Diagnostic.unlined := by
  simp only [List.map_map]
  exact List.map_congr_left fun e _ => ScopeError.unlined_map hg e

theorem Program.unlined_relex (p : Program) (f : NodeId → NodeId) :
    Stmt.mapAll f Lexeme.unlined (p.relex g).statements = Stmt.mapAll f Lexeme.unlined p.statements := by
  unfold Program.relex
  rw [Stmt.mapAll_mapAll, Lexeme.unlined_comp hg]
  rfl

theorem FunDecl.unlined_relex (d : FunDecl NodeId) :
    (d.map id g).map id Lexeme.unlined = d.map id Lexeme.unlined := by
  rw [FunDecl.map_map, Lexeme.unlined_comp hg]
  rfl

/-- A program that fits where it is numbered does so with other lines. -/
theorem Program.Fits.of_relex {body : List PlainStmt} {first last : NodeId} {p : Program}
    (hnum : Stmt.numberAll first body = (p.statements, last)) (h : Accepted (p.relex g).statements p.distances) :
    p.Fits first last where
  numbered := ⟨body, hnum⟩
  accepted := by
    have hdistances : p.distances = distancesOf (usesOf p.statements) := by
      have huses : usesOf (p.relex g).statements = (usesOf p.statements).map (Use.map id g) :=
        usesOf_map id g p.statements
      rw [h.distances, huses, distancesOf_map fun u _ => u.kept_of_text hg]
      exact List.map_id _
    rw [hdistances]
    exact h.of_map hg

/-- What analysis finds in a text of statements whose lexemes are other ones: what resolution finds in the
statements themselves, told of those lexemes. -/
theorem analyze_relexed {source : String} {body : List PlainStmt}
    (h : parseProgram (tokensOf (scan source)) = .ok (Stmt.mapAll id g body)) (next : NodeId) :
    analyze next source = match resolveProgram (Stmt.numberAll next body).1 with
      | .error faults =>
        .error ((faultsOf (scan source)).map .lex ++ (faults.map (ScopeError.map g)).map .scope)
      | .ok distances => unlessFaulty ((faultsOf (scan source)).map .lex)
          (Program.relex g ⟨(Stmt.numberAll next body).1, distances⟩, (Stmt.numberAll next body).2) := by
  have hnum : Stmt.numberAll next (Stmt.mapAll id g body) =
      (Stmt.mapAll id g (Stmt.numberAll next body).1, (Stmt.numberAll next body).2) :=
    Stmt.numberAll_map g 0 body next
  rw [analyze_parsed h, hnum]
  dsimp only
  rw [resolveProgram_map hg]
  cases resolveProgram (Stmt.numberAll next body).1 with
  | error faults => rfl
  | ok distances =>
      have hid : distances.relabel id = distances := List.map_id distances
      dsimp only
      rw [hid]
      rfl

end relaid

section analysis

variable {source source' : String}

theorem scan_linesOf (source : String) :
    tokensOf (scan source) = (placed (tokensOf (scan source))).map (Token.map (linesOf source)) :=
  (placed_onLines _).symm

namespace Relaid

variable (h : Relaid source source')

include h

theorem placed_eq : placed (tokensOf (scan source')) = placed (tokensOf (scan source)) := by
  rw [← placed_unlined, h.tokens, placed_unlined]

theorem lexical_eq : ((faultsOf (scan source')).map Diagnostic.lex).map Diagnostic.unlined =
    ((faultsOf (scan source)).map Diagnostic.lex).map Diagnostic.unlined := by
  have hlex (es : List LexError) :
      (es.map Diagnostic.lex).map Diagnostic.unlined = (es.map LexError.unlined).map Diagnostic.lex := by
    rw [List.map_map, List.map_map]
    rfl
  rw [hlex, hlex, h.faults]

/-- The tokens of both texts have faults, or those of neither. -/
theorem faulty_eq : ((faultsOf (scan source')).map Diagnostic.lex).isEmpty =
    ((faultsOf (scan source)).map Diagnostic.lex).isEmpty := by
  simpa only [List.isEmpty_map] using congrArg List.isEmpty h.lexical_eq

/-- Both texts are read as the same statements, each on its lines, or have the same faults of grammar. -/
theorem parsed :
    (∃ es es', parseProgram (tokensOf (scan source)) = .error es ∧
        parseProgram (tokensOf (scan source')) = .error es' ∧
        (es'.map Diagnostic.parse).map Diagnostic.unlined = (es.map Diagnostic.parse).map Diagnostic.unlined) ∨
      ∃ body, parseProgram (tokensOf (scan source)) = .ok (Stmt.mapAll id (linesOf source) body) ∧
        parseProgram (tokensOf (scan source')) = .ok (Stmt.mapAll id (linesOf source') body) := by
  have hread := parseProgram_map (linesOf source) (placed (tokensOf (scan source)))
  have hread' := parseProgram_map (linesOf source') (placed (tokensOf (scan source)))
  rw [← scan_linesOf] at hread
  rw [← h.placed_eq, ← scan_linesOf, h.placed_eq] at hread'
  cases hbase : parseProgram (placed (tokensOf (scan source))) with
  | ok body =>
      rw [hbase] at hread hread'
      exact .inr ⟨body, hread, hread'⟩
  | error es =>
      rw [hbase] at hread hread'
      refine .inl ⟨_, _, hread, hread', ?_⟩
      rw [ParseError.unlined_mapEach (Lexeme.onLines_text _), ParseError.unlined_mapEach (Lexeme.onLines_text _)]

/-- Both texts are rejected with the same faults, or accepted as the same program, each on its lines. -/
theorem analyzed (next : NodeId) :
    (∃ faults faults', analyze next source = .error faults ∧ analyze next source' = .error faults' ∧
        faults'.map Diagnostic.unlined = faults.map Diagnostic.unlined) ∨
      ∃ (p : Program) (last : NodeId), p.Fits next last ∧ analyze next source = .ok (p.relex (linesOf source), last) ∧
        analyze next source' = .ok (p.relex (linesOf source'), last) := by
  have hlex := h.lexical_eq
  rcases h.parsed with ⟨es, es', hp, hp', hes⟩ | ⟨body, hp, hp'⟩
  · refine .inl ⟨_, _, analyze_unparsed hp next, analyze_unparsed hp' next, ?_⟩
    rw [List.map_append, List.map_append, hlex, hes]
  have hg := Lexeme.onLines_text (tokensOf (scan source))
  have hg' := Lexeme.onLines_text (tokensOf (scan source'))
  have ha := analyze_relexed hg hp next
  have ha' := analyze_relexed hg' hp' next
  cases hr : resolveProgram (Stmt.numberAll next body).1 with
  | error faults =>
      rw [hr] at ha ha'
      refine .inl ⟨_, _, ha, ha', ?_⟩
      rw [List.map_append, List.map_append, hlex, ScopeError.unlined_mapEach hg, ScopeError.unlined_mapEach hg']
  | ok ds =>
      rw [hr] at ha ha'
      dsimp only [unlessFaulty] at ha ha'
      rw [h.faulty_eq] at ha'
      split at ha
      · rename_i hf
        rw [if_pos hf] at ha'
        obtain ⟨_, -, -, haccepted⟩ := analyze_ok ha
        exact .inr ⟨⟨_, ds⟩, _, .of_relex hg rfl haccepted, ha, ha'⟩
      · rename_i hf
        rw [if_neg hf] at ha'
        exact .inl ⟨_, _, ha, ha', hlex⟩

end Relaid

end analysis

/-! ### Runs on other lines -/

/-- Two runs of the same code, on whatever lines. -/
def Comparison.relaid (T : Std.HashMap NodeId Nat) : Comparison where
  look := .byDistance
  left := T
  right := T
  site i _ i' _ := i' = i
  early r r' := r'.name.text = r.name.text
  decl d d' := d'.map id Lexeme.unlined = d.map id Lexeme.unlined
  renames twin := twin = id

section runs

variable {S : Settings} {us : List Use} {s : Session} {p : Program} {last : NodeId} {g g' : Lexeme → Lexeme}

/-- Runs of a program on two sets of lines end in step. -/
theorem Session.Sound.relaid (hS : S.lookup = .byDistance) (h : s.Sound .byDistance us)
    (hp : p.Fits s.nextNode last) (hg : ∀ t, (g t).text = t.text) (hg' : ∀ t, (g' t).text = t.text) :
    let m := Session.learn s.machine p.distances
    ∃ w, EndInStep (Comparison.relaid m.distances).links S m.distances m.distances w m (fun _ _ _ => True)
      (Session.interpret S (p.relex g).statements m) (Session.interpret S (p.relex g').statements m) := by
  intro m
  have hext : (s.comparison .byDistance us).Extends (Comparison.relaid m.distances) := {
    look := rfl
    left := fun hs => hp.unchanged (.inl hs.1)
    right := by
      rintro i l _ _ ⟨hi, rfl, -⟩
      exact hp.unchanged (.inl hi)
    site := fun ⟨_, he, _⟩ => he
    early := by
      rintro r _ ⟨rfl, -⟩
      rfl
    decl := by
      rintro d _ rfl
      rfl
    renames := fun hr => hr }
  obtain ⟨w, hw, hc⟩ := h.world
  have hrec : ∀ u ∈ usesOf p.statements, Recorded (Comparison.relaid m.distances) (fun _ => id) g g' u :=
    fun u hu =>
      have hd := hp.recorded h.fresh u hu
      ⟨hd, hd, fun _ => rfl, (hg' _).trans (Surroundings.twin_same _ _).symm, rfl,
        fun _ _ _ => (hg' _).trans (hg _).symm⟩
  have hlines (d : FunDecl NodeId) : (d.map id g').map id Lexeme.unlined = (d.map id g).map id Lexeme.unlined :=
    (FunDecl.unlined_relex hg' d).trans (FunDecl.unlined_relex hg d).symm
  have hmatch := hp.accepted.matches hg (.of_text hg hg' hrec (fun _ _ _ _ => rfl) hlines rfl)
  exact ⟨w, Comparison.interpret_inStep hS rfl (InStep.learn hext hw) hc hmatch⟩

/-- Runs that end in step end in the same way, in the same machine, but for the lines of faults and of code. -/
theorem EndInStep.relaid {T : Std.HashMap NodeId Nat} {w : World} {m : Machine} {r r' : Outcome Unit × Machine}
    (h : EndInStep (Comparison.relaid T).links S T T w m (fun _ _ _ => True) r r') :
    r'.1.unlined = r.1.unlined ∧ r'.2.heap.unlined = r.2.heap.unlined ∧ r'.2 = { r.2 with heap := r'.2.heap } := by
  obtain ⟨⟨w', -, hs, ho⟩, -⟩ := h
  refine ⟨?_, ?_, ?_⟩
  · revert ho
    generalize r.1 = o
    generalize r'.1 = o'
    intro ho
    cases ho with
    | done _ => rfl
    | runtime fault h => rfl
    | sink fault => rfl
    | early h _ => exact congrArg (fun n => Outcome.inconsistent (.unbound n 0)) h
    | exhausted => rfl
  · rw [hs.left, hs.right]
    exact hs.good.mapDecl_eq (fun _ _ hd => hd) fun _ hr => hr
  · have hm := hs.eq_heap
    rwa [← hs.distances_left] at hm

/-- Layout never changes meaning.  Two texts with the same tokens and the same faults but for lines are both
accepted or both rejected: as the same program with the same distances, but for lines and for the number that
the first node gets, or for the same faults but for their lines.  In every session that any steps lead to, to run
the one text is to run the other: the machines afterwards are the same, with the output and the globals, and so is
the outcome, but for the lines of faults and of code. -/
theorem Session.run_relaid (hS : S.lookup = .byDistance) (sink : Sink) (steps : List Step) {source source' : String}
    (h : Relaid source source') :
    (∀ next k, Analysis.unlined 0 (analyze (next + k) source') = Analysis.unlined k (analyze next source)) ∧
      let s := Session.reached S sink steps
      let r := s.run S source
      let r' := s.run S source'
      r'.1.unlined = r.1.unlined ∧ r'.2.machine.heap.unlined = r.2.machine.heap.unlined ∧
        r'.2.machine = { r.2.machine with heap := r'.2.machine.heap } ∧ r'.2.nextNode = r.2.nextNode := by
  refine ⟨fun next k => ?_, ?_⟩
  · rw [analyze_shift]
    rcases h.analyzed next with ⟨faults, faults', ha, ha', he⟩ | ⟨p, last, -, ha, ha'⟩
    · rw [ha, ha']
      exact congrArg Except.error he
    · have hcode : Stmt.mapAll (· + 0) Lexeme.unlined (Stmt.mapAll (· + k) id (p.relex (linesOf source')).statements) =
          Stmt.mapAll (· + k) Lexeme.unlined (p.relex (linesOf source)).statements := by
        rw [Stmt.mapAll_mapAll]
        exact (p.unlined_relex (Lexeme.onLines_text _) _).trans (p.unlined_relex (Lexeme.onLines_text _) _).symm
      have hdistances : Distances.relabel (· + 0) (Distances.relabel (· + k) p.distances) =
          Distances.relabel (· + k) p.distances := List.map_id _
      rw [ha, ha']
      exact congrArg₂ (fun body ds => Except.ok ((⟨body, ds⟩ : Program), last + k)) hcode hdistances
  intro s r r'
  have hs := Session.reached_sound hS sink steps
  rcases h.analyzed s.nextNode with ⟨faults, faults', ha, ha', he⟩ | ⟨p, last, hp, ha, ha'⟩
  · have hr : r = (.rejected faults, s) := Session.run_rejected ha
    have hr' : r' = (.rejected faults', s) := Session.run_rejected ha'
    rw [hr, hr']
    exact ⟨congrArg Outcome.rejected he, rfl, rfl, rfl⟩
  · have hr : r = _ := Session.run_eq ha
    have hr' : r' = _ := Session.run_eq ha'
    have hspelling (source : String) (t : Lexeme) : (linesOf source t).text = t.text := Lexeme.onLines_text _ t
    obtain ⟨w, hend⟩ := hs.relaid hS hp (hspelling source) (hspelling source')
    obtain ⟨ho, hheap, hm⟩ := hend.relaid
    rw [hr, hr']
    exact ⟨ho, hheap, hm, rfl⟩

/-- A text, and the same tokens with a comment between them, on two lines. -/
theorem Session.run_relaid_comment :
    let s := Session.reached .standard .unlimited []
    let source := "print a;"
    let source' := "print // a\n  a ;"
    Relaid source source' ∧ (s.run .standard source').1.unlined = (s.run .standard source).1.unlined := by
  intro s source source'
  have h : Relaid source source' := ⟨by cbv, by cbv⟩
  exact ⟨h, (Session.run_relaid (S := .standard) rfl .unlimited [] h).2.1⟩

end runs

end Lox
