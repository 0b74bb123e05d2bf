import Lox.Proofs.Binding
import Lox.Proofs.Composition
import Lox.Proofs.Origins
import Lox.Proofs.Respelling

/-! # Renaming a local name

Local names are only names (`Session.run_renamed`): with the name of a local variable or parameter replaced by an
identifier that the text does not have, at its declaration and at the uses that are bound to it, a text is accepted
as the same program with the same distances (`analyze_renamed`), and its run does the same but for the name
(`EndInStep.renamed`).

A declaration is told from others of its name by its place among the tokens of the text, so the program is read
from tokens at their places first (`placedTree`). -/

namespace Lox

open World Lox.Parser

/-! ### The local names of a text -/

/-- The tree of a text with its lexemes at their places: each has its place among the tokens instead of its
line. -/
def placedTree (source : String) : List (Stmt NodeId) :=
  match parseProgram (placed (textTokens source)) with
  | .ok body => (Stmt.numberAll 0 body).1
  | .error _ => []

/-- A local variable or parameter of a text, given by the lexeme that declares it, at its place. -/
structure DeclaresLocal (source : String) (d : Lexeme) : Prop where
  declared : d ∈ (Stmt.scopesAll (placedTree source)).flatten
  not_title : d ∉ Stmt.titlesAll (placedTree source)

/-- A text with another name for a local variable or parameter: the declaration, and the uses of names that
are bound to it, are spelled otherwise. -/
def renamed (source : String) (d : Lexeme) (y : String) : String :=
  respell (renameAt (occurrences (placedTree source) d) y) source

section texts

variable {source : String} {body : List PlainStmt}

theorem textOf_placed (source : String) : textOf (placed (textTokens source)) = placed (textTokens source) := by
  refine List.takeWhile_eq_self_iff.mpr fun t ht => ?_
  obtain ⟨i, t₀, hget, rfl⟩ := mem_placed ht
  simpa using (textTokens_lexed source t₀ (List.mem_of_getElem? hget)).1

theorem placed_lexed (source : String) : AllLexed (placed (textTokens source)) := by
  intro t ht
  obtain ⟨i, t₀, hget, rfl⟩ := mem_placed ht
  exact (textTokens_lexed source t₀ (List.mem_of_getElem? hget)).2

theorem placed_isLexeme {t : Token} (ht : t ∈ placed (textTokens source)) : IsLexeme t.text.toList t.kind := by
  obtain ⟨i, t₀, hget, rfl⟩ := mem_placed ht
  have hlexeme := textTokens_isLexeme (List.mem_of_getElem? hget)
  exact hlexeme

/-- A text is read as its tree at places, with the lexemes on their lines. -/
theorem ReadsAs.placed (h : ReadsAs source body) :
    ∃ body₀, BodyText (placed (textTokens source)) body₀ ∧
      Stmt.mapAll id (Lexeme.onLines (textTokens source)) body₀ = body ∧
        placedTree source = (Stmt.numberAll 0 body₀).1 := by
  obtain ⟨body₀, htext, hbody⟩ := h.text.origin _ (placed_onLines _)
  have hparse : parseProgram (Lox.placed (textTokens source)) = .ok body₀ := by
    refine parseProgram_complete ?_
    rwa [textOf_placed]
  refine ⟨body₀, htext, hbody, ?_⟩
  rw [placedTree, hparse]

theorem Stmt.lexemesAll_number (body : List PlainStmt) (next : NodeId) :
    Stmt.lexemesAll (Stmt.numberAll next body).1 = Stmt.lexemesAll body := by
  rw [← Stmt.lexemesAll_map unnumbered, Stmt.mapAll_number]

/-- The names that the scopes of a text declare are no reserved words. -/
theorem BodyText.isName {us : List Token} (h : BodyText us body) (hl : AllLexed us) {d : Lexeme}
    (hd : d ∈ (Stmt.scopesAll (Stmt.numberAll 0 body).1).flatten) : d.IsName := by
  obtain ⟨names, hn, hd⟩ := List.mem_flatten.mp hd
  exact Stmt.FormedAll.allNames (Stmt.formedAll_number (h.formed hl) 0) names hn d hd

/-- A token that declares a local name is an identifier: a token of another category could as well be spelled
as a reserved word. -/
theorem BodyText.identifier {us : List Token} (h : BodyText us body) (hl : AllLexed us)
    (hinj : ∀ t ∈ us, ∀ t' ∈ us, t'.toLexeme = t.toLexeme → t' = t) {t : Token} (ht : t ∈ us)
    (hd : t.toLexeme ∈ (Stmt.scopesAll (Stmt.numberAll 0 body).1).flatten) : t.kind = .identifier := by
  by_contra hk
  let g (u : Lexeme) : Lexeme := if u = t.toLexeme then ⟨"this", 0⟩ else u
  have hlexed : AllLexed (us.map (Token.map g)) := by
    intro u' hu'
    obtain ⟨u, hu, rfl⟩ := List.mem_map.mp hu'
    by_cases he : u.toLexeme = t.toLexeme
    · obtain rfl := hinj t ht u hu he
      have hname := h.isName hl hd
      have hlex := hl u hu
      unfold Token.Lexed at hlex ⊢
      rw [Token.map_kind]
      cases hkind : u.kind with
      | identifier => exact absurd hkind hk
      | keyword word =>
        rw [hkind] at hlex
        have htext : u.text = word.text := hlex
        rw [Lexeme.IsName, htext, Keyword.ofText?_text] at hname
        cases hname
      | _ => trivial
    · have hmap : u.map g = u := by
        rw [Token.map, show g u.toLexeme = u.toLexeme from if_neg he]
      rw [hmap]
      exact hl u hu
  have hgd : g t.toLexeme ∈ (Stmt.scopesAll (Stmt.numberAll 0 (Stmt.mapAll id g body)).1).flatten := by
    have hnumber : (Stmt.numberAll 0 (Stmt.mapAll id g body)).1 =
        Stmt.mapAll id g (Stmt.numberAll 0 body).1 := congrArg Prod.fst (Stmt.numberAll_map g 0 body 0)
    rw [hnumber, Stmt.scopesAll_map, ← List.map_flatten]
    exact List.mem_map_of_mem hd
  have hname := BodyText.isName (h.map g) hlexed hgd
  rw [show g t.toLexeme = ⟨"this", 0⟩ from if_pos rfl] at hname
  exact hname.ne_this rfl

/-- The lexemes of the tree at places are those of different tokens. -/
theorem placedTree_covers (h : ReadsAs source body) :
    Covers (placed (textTokens source)) (Stmt.lexemesAll (placedTree source)) := by
  obtain ⟨body₀, htext, -, htree⟩ := h.placed
  rw [htree, Stmt.lexemesAll_number]
  exact htext.covers

theorem exists_token (h : ReadsAs source body) {t : Lexeme} (ht : t ∈ Stmt.lexemesAll (placedTree source)) :
    ∃ u ∈ placed (textTokens source), u.toLexeme = t :=
  List.mem_map.mp ((placedTree_covers h).subset ht)

/-- The occurrences of a local name are identifiers. -/
theorem occurrences_identifier (h : ReadsAs source body) {d : Lexeme} (hd : DeclaresLocal source d) {t : Token}
    (ht : t ∈ placed (textTokens source)) (hm : t.toLexeme ∈ occurrences (placedTree source) d) :
    t.kind = .identifier := by
  obtain ⟨body₀, htext, -, htree⟩ := h.placed
  have hdeclared := hd.declared
  obtain ⟨u, hu, rfl⟩ := exists_token h ((Stmt.declared_subperm _).subset
    (List.mem_append_right _ (List.mem_append_right _ hdeclared)))
  rw [htree] at hdeclared
  have hkind := htext.identifier (placed_lexed source) (fun _ ht _ ht' => placed_inj ht ht') hu hdeclared
  have hlexeme := placed_isLexeme hu
  rw [hkind] at hlexeme
  have hsame : t.text = u.text := occurrences_text hm
  refine hlexeme.kind_unique ?_
  rw [← hsame]
  exact placed_isLexeme ht

/-- Renaming a local name changes identifiers into identifiers. -/
theorem renameAt_respells (h : ReadsAs source body) {d : Lexeme} (hd : DeclaresLocal source d) {y : String}
    (hy : IsLexeme y.toList .identifier) :
    Respells (renameAt (occurrences (placedTree source) d) y) source := by
  intro t ht
  rw [renameAt_text]
  split
  · rename_i hm
    exact .inr ⟨occurrences_identifier h hd ht hm, hy⟩
  · exact .inl rfl

end texts

/-! ### The renamed text -/

section analysis

variable {source : String} {next last : NodeId} {p : Program}

/-- The tree of a text at places with the numbers from `next` on. -/
abbrev treeFrom (next : NodeId) (source : String) : List (Stmt NodeId) :=
  Stmt.mapAll (· + next) id (placedTree source)

/-- The program of an accepted text. -/
theorem statements_eq (h : analyze next source = .ok (p, last)) :
    p.statements = Stmt.mapAll id (Lexeme.onLines (textTokens source)) (treeFrom next source) := by
  obtain ⟨body, hreads, hnum, -⟩ := analyze_ok h
  obtain ⟨body₀, -, rfl, htree⟩ := hreads.placed
  have hnumber := Stmt.numberAll_map (Lexeme.onLines (textTokens source)) next body₀ 0
  rw [Nat.zero_add, hnum] at hnumber
  rw [treeFrom, Stmt.mapAll_mapAll, htree]
  exact congrArg Prod.fst hnumber

/-- A local name of an accepted text can be renamed to an identifier that the text does not have. -/
theorem DeclaresLocal.renames {d : Lexeme} (hd : DeclaresLocal source d)
    (h : analyze next source = .ok (p, last)) {y : String} (hy : IsLexeme y.toList .identifier)
    (hfresh : ∀ t ∈ textTokens source, t.text ≠ y) : Renames (treeFrom next source) p.distances d y := by
  have hstatements := statements_eq h
  obtain ⟨body, hreads, hnum, hacc⟩ := analyze_ok h
  rw [hstatements] at hacc
  have hacc₀ := hacc.of_map (Lexeme.onLines_text _)
  have hds : p.distances = distancesOf (usesOf (treeFrom next source)) := by
    rw [hacc.distances, usesOf_map, distancesOf_map fun u _ => u.kept_of_text (Lexeme.onLines_text _)]
    exact List.map_id _
  rw [hds]
  have hplaced : Renames (placedTree source) (distancesOf (usesOf (placedTree source))) d y := {
    accepted := hacc₀.of_map fun _ => rfl
    apart := nodup_of_subperm (placedTree_covers hreads) (placed_nodup _)
    declared := hd.declared
    not_title := hd.not_title
    fresh := by
      intro t ht
      obtain ⟨u, hu, rfl⟩ := exists_token hreads ht
      obtain ⟨i, t₀, hget, rfl⟩ := mem_placed hu
      exact hfresh t₀ (List.mem_of_getElem? hget)
    isName := by
      have := hy.isName
      rwa [String.ofList_toList] at this }
  have hrenamed := hplaced.renumbered (· + next)
  rwa [hrenamed.accepted.distances] at hrenamed

/-- The program of a text in which a local name is renamed. -/
def renamedProgram (next : NodeId) (source : String) (p : Program) (d : Lexeme) (y : String) : Program :=
  ⟨Stmt.mapAll id (Lexeme.onLines (textTokens source) ∘ renameAt (occurrences (placedTree source) d) y)
    (treeFrom next source), p.distances⟩

/-- A text in which a local name is renamed is accepted, as the program with the name renamed and with the same
distances. -/
theorem analyze_renamed (h : analyze next source = .ok (p, last)) {d : Lexeme} (hd : DeclaresLocal source d)
    {y : String} (hy : IsLexeme y.toList .identifier) (hfresh : ∀ t ∈ textTokens source, t.text ≠ y) :
    analyze next (renamed source d y) = .ok (renamedProgram next source p d y, last) := by
  have hrenames := hd.renames h hy hfresh
  obtain ⟨body, hreads, hnum, -⟩ := analyze_ok h
  obtain ⟨body₀, htext, rfl, htree⟩ := hreads.placed
  have hrespells := renameAt_respells hreads hd hy
  have hreads' : ReadsAs (renamed source d y) (Stmt.mapAll id (Lexeme.onLines (textTokens source) ∘
      renameAt (occurrences (placedTree source) d) y) body₀) := {
    clean := faultless_respell hrespells hreads.clean
    parsed := by
      refine parseProgram_complete ?_
      rw [textOf_scan, renamed, textTokens_respell hrespells (renameAt_line _ _)]
      exact htext.map _ }
  refine hreads'.analyze ?_ ?_
  · have hnumber := Stmt.numberAll_map (Lexeme.onLines (textTokens source)) next body₀ 0
    have hnumber' := Stmt.numberAll_map (Lexeme.onLines (textTokens source) ∘
      renameAt (occurrences (placedTree source) d) y) next body₀ 0
    rw [Nat.zero_add] at hnumber hnumber'
    rw [hnum] at hnumber
    obtain rfl : last = (Stmt.numberAll 0 body₀).2 + next := congrArg Prod.snd hnumber
    rw [hnumber', renamedProgram, treeFrom, Stmt.mapAll_mapAll, htree]
    rfl
  · have hrenamed := hrenames.accepted.map hrenames.respects id
    have haccepted := hrenamed.map (.of_text (Lexeme.onLines_text (textTokens source)) hrenamed) id
    rw [Stmt.mapAll_mapAll, occurrences_renumbered] at haccepted
    have hds : (p.distances.relabel id).relabel id = p.distances := by simp [Distances.relabel]
    rwa [hds] at haccepted

end analysis

/-! ### Both runs -/

/-- Two runs of a program whose lexemes are changed in two ways, in the second one the local name `d` to `y`. -/
def Comparison.renamed (T : Std.HashMap NodeId Nat) (d : Lexeme) (y : String) (g g' : Lexeme → Lexeme) :
    Comparison where
  look := .byDistance
  left := T
  right := T
  site i l i' l' := i' = i ∧ l' = l
  early r r' := r'.name.text = r.name.text ∨ r.name.text = d.text ∧ r'.name.text = y
  decl c c' := c' = c ∨ ∃ c₀ : FunDecl NodeId, c = c₀.map id g ∧ c' = c₀.map id g'
  renames twin := twin = id ∨ ∃ names, twin = twinOf d y names

/-- Two runs agree about a program and the same one with a local name renamed. -/
theorem Renames.agreed {body : List (Stmt NodeId)} {ds : Distances} {d : Lexeme} {y : String}
    (h : Renames body ds d y) {T : Std.HashMap NodeId Nat}
    (hT : ∀ u ∈ usesOf body, T[u.ref.id]? = u.distance?) (ts : List Token) :
    let g := Lexeme.onLines ts
    let g' := Lexeme.onLines ts ∘ renameAt (occurrences body d) y
    Agreed (Comparison.renamed T d y g g') (twinOf d y) g g' body := by
  intro g g'
  have hline (t : Lexeme) : (g' t).line = (g t).line := by simp [g, g', Lexeme.onLines]
  have hkept {t : Lexeme} (ht : t ∉ occurrences body d) : (g' t).text = t.text := by
    simp only [g', Function.comp_apply, Lexeme.onLines_text, renameAt_text, if_neg ht]
  constructor
  · intro u hu
    refine ⟨hT u hu, hT u hu, by rintro ⟨⟩, h.use_text hu, ⟨rfl, hline _⟩, fun _ _ _ => ?_⟩
    by_cases hm : u.ref.name ∈ occurrences body d
    · refine .inr ⟨?_, ?_⟩
      · exact (Lexeme.onLines_text ts _).trans (occurrences_text hm)
      · simp only [Reference.map, g', Function.comp_apply, Lexeme.onLines_text, renameAt_text, if_pos hm]
    · exact .inl (hkept hm)
  · intro x hx m hm
    have hmem : m.name ∈ markNames (Stmt.expressionsAll [] body) :=
      List.mem_flatMap.mpr ⟨x, hx, List.mem_map_of_mem hm⟩
    exact ⟨hkept (h.mark_not_mem hmem), rfl, hline _⟩
  · exact fun names hn =>
      ⟨fun t ht => h.local_text hn ht, .inr ⟨names, rfl⟩, h.twinOf_injective hn⟩
  · exact fun t ht => hkept (h.title_not_mem ht)
  · exact fun t ht => hkept (h.global_not_mem ht)
  · exact fun c => .inr ⟨c, rfl, rfl⟩

/-- A name, read as `n` if it is `y`. -/
def readAs (y n : String) (a : String) : String := if a = y then n else a

/-- A lexeme whose text is read as `n` if it is `y`. -/
def Lexeme.readAs (y n : String) (t : Lexeme) : Lexeme := ⟨Lox.readAs y n t.text, t.line⟩

/-- A heap in which the name `y` is read as `n`, in its local frames and in its code. -/
def Heap.readAs (y n : String) (h : Heap) : Heap :=
  h.recode (FunDecl.map id (Lexeme.readAs y n)) (Lox.readAs y n)

theorem readAs_twinOf (d : Lexeme) (y : String) (names : List Lexeme) (n : String) :
    readAs y d.text (twinOf d y names n) = readAs y d.text n := by
  unfold twinOf readAs
  split
  · rename_i h
    rw [if_pos rfl, h.2, ite_self]
  · rfl

theorem Lexeme.readAs_renameAt {places : List Lexeme} {d : Lexeme} (hp : ∀ t ∈ places, t.text = d.text)
    (y : String) (ts : List Token) : Lexeme.readAs y d.text ∘ Lexeme.onLines ts ∘ renameAt places y =
      Lexeme.readAs y d.text ∘ Lexeme.onLines ts := by
  refine funext fun t => ?_
  simp only [Function.comp_apply, Lexeme.readAs, Lexeme.onLines, renameAt_text, renameAt_line]
  split
  · rename_i ht
    rw [Lox.readAs, if_pos rfl, Lox.readAs, hp t ht, ite_self]
  · rfl

section endings

variable {S : Settings} {T : Std.HashMap NodeId Nat} {d : Lexeme} {y : String} {places : List Lexeme}
  {ts : List Token}

/-- Functions of the same declaration are the same when the name is read back. -/
theorem Comparison.renamed_decl (hp : ∀ t ∈ places, t.text = d.text) (c c' : FunDecl NodeId)
    (h : (Comparison.renamed T d y (Lexeme.onLines ts) (Lexeme.onLines ts ∘ renameAt places y)).decl c c') :
    c'.map id (Lexeme.readAs y d.text) = c.map id (Lexeme.readAs y d.text) := by
  rcases h with rfl | ⟨c₀, rfl, rfl⟩
  · rfl
  · rw [FunDecl.map_map, FunDecl.map_map, Lexeme.readAs_renameAt hp]

theorem Comparison.renamed_twin {g g' : Lexeme → Lexeme} (twin : String → String)
    (h : (Comparison.renamed T d y g g').renames twin) (n : String) :
    readAs y d.text (twin n) = readAs y d.text n := by
  rcases h with rfl | ⟨names, rfl⟩
  · rfl
  · exact readAs_twinOf d y names n

/-- Outcomes are the same but for a breach at the variable itself. -/
theorem OutcomeMatch.renamed {g g' : Lexeme → Lexeme} {n : Machine} {o o' : Outcome Unit}
    (h : OutcomeMatch (Comparison.renamed T d y g g').links S n (fun _ _ => True) o o') :
    o' = o ∨ o = .inconsistent (.unbound d.text 0) ∧ o' = .inconsistent (.unbound y 0) := by
  cases h with
  | done _ => exact .inl rfl
  | runtime fault h =>
    rw [h.2]
    exact .inl rfl
  | sink fault => exact .inl rfl
  | early h _ =>
    rcases h with htext | ⟨htext, htext'⟩
    · rw [htext]
      exact .inl rfl
    · rw [htext, htext']
      exact .inr ⟨rfl, rfl⟩
  | exhausted => exact .inl rfl

/-- Runs that end in step when a local name is renamed end alike but for the name. -/
theorem EndInStep.renamed (hp : ∀ t ∈ places, t.text = d.text) {w : World} {m : Machine}
    (hc : w.Chain [] m.env) {r r' : Outcome Unit × Machine}
    (h : EndInStep (Comparison.renamed T d y (Lexeme.onLines ts) (Lexeme.onLines ts ∘ renameAt places y)).links
      S T T w m (fun _ _ _ => True) r r') :
    let F := FunDecl.map id (Lexeme.readAs y d.text)
    r'.2 = { r.2 with heap := r'.2.heap } ∧
      (r'.2.heap.slots globalFrame).mapDecl F = (r.2.heap.slots globalFrame).mapDecl F ∧
      r'.2.heap.readAs y d.text = r.2.heap.readAs y d.text ∧
      (r'.1 = r.1 ∨ r.1 = .inconsistent (.unbound d.text 0) ∧ r'.1 = .inconsistent (.unbound y 0)) := by
  intro F
  let C := Comparison.renamed T d y (Lexeme.onLines ts) (Lexeme.onLines ts ∘ renameAt places y)
  have hdecl : ∀ c c', C.decl c c' → F c' = F c := Comparison.renamed_decl hp
  have htwin : ∀ twin, C.renames twin → ∀ n, readAs y d.text (twin n) = readAs y d.text n :=
    Comparison.renamed_twin
  obtain ⟨⟨w', hle, hw, ho⟩, -⟩ := h
  have hroles := (hc.mono hle).role_globals
  have hm := hw.eq_heap
  rw [← hw.distances_left] at hm
  refine ⟨hm, ?_, ?_, ho.renamed⟩
  · rw [hw.left, hw.right]
    exact hw.good.globals_mapDecl hdecl hroles
  · rw [hw.left, hw.right]
    exact hw.good.recode_eq hdecl htwin hroles

end endings

section runs

variable {S : Settings} {us : List Use} {s : Session} {source : String} {p : Program} {last : NodeId}
  {d : Lexeme} {y : String}

/-- Runs of an accepted text, and of the text with a local name renamed, end in step. -/
theorem Session.Sound.renamed (hS : S.lookup = .byDistance) (h : s.Sound .byDistance us)
    (ha : analyze s.nextNode source = .ok (p, last)) (hd : DeclaresLocal source d)
    (hy : IsLexeme y.toList .identifier) (hfresh : ∀ t ∈ textTokens source, t.text ≠ y) :
    let T := s.machine.distances.insertMany p.distances
    let g := Lexeme.onLines (textTokens source)
    let g' := g ∘ renameAt (occurrences (placedTree source) d) y
    let p' := renamedProgram s.nextNode source p d y
    let m := Session.learn s.machine p.distances
    ∃ w, w.Chain [] m.env ∧
      EndInStep (Comparison.renamed T d y g g').links S T T w m (fun _ _ _ => True)
        (Session.interpret S p.statements m) (Session.interpret S p'.statements m) := by
  intro T g g' p' m
  have hp := Program.fits_of_analyze ha
  have hext : (s.comparison .byDistance us).Extends (Comparison.renamed T d y g g') := {
    look := rfl
    left := fun hs => hp.unchanged (.inl hs.1)
    right := by
      rintro i l _ _ ⟨hi, rfl, -⟩
      exact hp.unchanged (.inl hi)
    site := fun ⟨_, he, hl⟩ => ⟨he, hl⟩
    early := by
      rintro r _ ⟨rfl, -⟩
      exact .inl rfl
    decl := .inl
    renames := .inl }
  obtain ⟨w, hw, hc⟩ := h.world
  have hrenames := hd.renames ha hy hfresh
  have hstatements := statements_eq ha
  have hT : ∀ u ∈ usesOf (treeFrom s.nextNode source), T[u.ref.id]? = u.distance? := by
    intro u hu
    have hrecorded := hp.recorded h.fresh
    rw [hstatements, usesOf_map, List.forall_mem_map] at hrecorded
    exact (hrecorded u hu).trans (u.kept_of_text (Lexeme.onLines_text _)).distance
  have hmatch := hrenames.accepted.matches (Lexeme.onLines_text _) (hrenames.agreed hT (textTokens source))
  rw [occurrences_renumbered, ← hstatements] at hmatch
  exact ⟨w, hc, Comparison.interpret_inStep hS rfl (InStep.learn hext hw) hc hmatch⟩

/-- Renaming a local name changes nothing but names.  The text with the name of a local variable or parameter
replaced, at its declaration and at the uses that are bound to it, by an identifier that does not occur in the text
is accepted, and as the same program with the name replaced, with the same distances.  In every session that any
steps lead to, to run the one text is to run the other: the output and the outcome are the same, and so is the heap
with the globals in it, but for the name in local frames and in code, and for a breach at the variable itself. -/
theorem Session.run_renamed (hS : S.lookup = .byDistance) (sink : Sink) (steps : List Step) (h : Passes source)
    (hd : DeclaresLocal source d) (hy : IsLexeme y.toList .identifier)
    (hfresh : ∀ t ∈ textTokens source, t.text ≠ y) :
    let s := Session.reached S sink steps
    let source' := renamed source d y
    let tree := placedTree source
    let lines := Lexeme.onLines (textTokens source)
    ∃ p p' last, analyze s.nextNode source = .ok (p, last) ∧ analyze s.nextNode source' = .ok (p', last) ∧
      p.statements = Stmt.mapAll (· + s.nextNode) lines tree ∧
      p'.statements = Stmt.mapAll (· + s.nextNode) (lines ∘ renameAt (occurrences tree d) y) tree ∧
      p'.distances = p.distances ∧
      let o := (s.run S source).1
      let o' := (s.run S source').1
      let m := (s.run S source).2.machine
      let m' := (s.run S source').2.machine
      let F := FunDecl.map id (Lexeme.readAs y d.text)
      m'.sink = m.sink ∧ (m'.heap.slots globalFrame).mapDecl F = (m.heap.slots globalFrame).mapDecl F ∧
        m'.heap.readAs y d.text = m.heap.readAs y d.text ∧ m' = { m with heap := m'.heap } ∧
        (o' = o ∨ o = .inconsistent (.unbound d.text 0) ∧ o' = .inconsistent (.unbound y 0)) := by
  intro s source' tree lines
  obtain ⟨p, last, ha⟩ := h.analyze s.nextNode
  have ha' := analyze_renamed ha hd hy hfresh
  have hstatements := statements_eq ha
  refine ⟨p, _, last, ha, ha', ?_, ?_, rfl, ?_⟩
  · rw [hstatements, Stmt.mapAll_mapAll]
    rfl
  · rw [renamedProgram, Stmt.mapAll_mapAll]
    rfl
  obtain ⟨w, hc, hend⟩ := (Session.reached_sound hS sink steps).renamed hS ha hd hy hfresh
  obtain ⟨hm, hglobals, hheap, ho⟩ := hend.renamed (fun t ht => occurrences_text ht) hc
  have hrun : s.run S source = _ := Session.run_eq ha
  have hrun' : s.run S source' = _ := Session.run_eq ha'
  rw [hrun, hrun']
  have hsink := congrArg Machine.sink hm
  exact ⟨hsink, hglobals, hheap, hm, ho⟩

end runs

/-- A name that is used before its declaration in the block is the global one, which keeps its name. -/
theorem Session.run_renamed_below :
    let s := Session.reached .standard .unlimited []
    let source := "{ print x; var x; print x; }"
    let source' := "{ print x; var y; print y; }"
    let d : Lexeme := ⟨"x", 5⟩
    Passes source ∧ DeclaresLocal source d ∧ IsLexeme "y".toList .identifier ∧
      (∀ t ∈ textTokens source, t.text ≠ "y") ∧ renamed source d "y" = source' ∧
        (s.run .standard source').2.machine.sink = (s.run .standard source).2.machine.sink := by
  intro s source source' d
  have hpasses : Passes source :=
    ⟨0, (⟨[.block [.print (.name ⟨0, ⟨"x", 1⟩⟩), .var ⟨"x", 1⟩ none, .print (.name ⟨1, ⟨"x", 1⟩⟩)]],
      [(1, 0)]⟩, 2), by cbv⟩
  have htree : placedTree source = [.block [.print (.name ⟨0, ⟨"x", 2⟩⟩), .var ⟨"x", 5⟩ none,
      .print (.name ⟨1, ⟨"x", 8⟩⟩)]] := by cbv
  have hd : DeclaresLocal source d := ⟨by rw [htree]; decide, by rw [htree]; decide⟩
  have hy : IsLexeme "y".toList .identifier :=
    .identifier (c := 'y') (by decide) (fun _ h => absurd h List.not_mem_nil) fun word => by cases word <;> decide
  have hfresh : ∀ t ∈ textTokens source, t.text ≠ "y" := by decide +kernel
  have hrenamed : renamed source d "y" = source' := by
    rw [renamed, htree]
    cbv
  obtain ⟨_, _, _, _, _, _, _, _, hsink, -⟩ :=
    Session.run_renamed (S := .standard) rfl .unlimited [] hpasses hd hy hfresh
  rw [hrenamed] at hsink
  exact ⟨hpasses, hd, hy, hfresh, hrenamed, hsink⟩

end Lox
