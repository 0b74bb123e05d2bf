import Lox.Proofs.Sites

/-! # Resolution is exact

What a walk finds is what its sites say: the faults are exactly the violations of the rules, one each, in
the order of the text, and where there is none, the entries are exactly the distances of the uses of names
that a local scope declares (`resolveProgram_eq`).  The scopes of the walk show the names of the path that it
has come to (`Mirrors`); a statement changes them by the names that it declares and by nothing else
(`Stmt.resolve_leaves`). -/

namespace Lox

open Resolve

/-! ### What a walk leaves of the scopes -/

namespace Resolve

/-- In any state, the walk takes the scopes `σ` to `f σ`. -/
def Leaves (r : Resolve Unit) (f : List Scope → List Scope) : Prop := ∀ w : Walk, (r w).2.scopes = f w.scopes

variable {r r' : Resolve Unit} {f g : List Scope → List Scope}

theorem Leaves.bind (h : Leaves r f) (h' : Leaves r' g) : Leaves (r >>= fun _ => r') (g ∘ f) :=
  fun w => (h' (r w).2).trans (congrArg g (h w))

theorem Leaves.same (h : Leaves r id) (h' : Leaves r' g) : Leaves (r >>= fun _ => r') g := h.bind h'

theorem Leaves.pure : Leaves (pure ()) id := fun _ => rfl

theorem Leaves.fault (f : ScopeFault) (t : Lexeme) : Leaves (fault f t) id := fun _ => rfl

theorem Leaves.modifyInnermost (f : Scope → Scope) : Leaves (modifyInnermost f) (List.modifyHead f) := by
  rintro ⟨σ, ds, fs⟩
  cases σ <;> rfl

theorem Leaves.locate (ref : Reference NodeId) : Leaves (locate ref) id := by
  rintro ⟨σ, ds, fs⟩
  rw [locate_mk]
  rfl

theorem Leaves.read (ref : Reference NodeId) : Leaves (read ref) id := by
  rintro ⟨σ, ds, fs⟩
  cases σ with
  | nil => exact Leaves.locate ref ⟨[], ds, fs⟩
  | cons s outer =>
      change ((if s.isPending ref.name.text then
        Resolve.fault .readInOwnInitializer ref.name >>= fun _ => Resolve.locate ref
        else Resolve.locate ref) ⟨s :: outer, ds, fs⟩).2.scopes = s :: outer
      split
      · exact Leaves.same (.fault _ _) (.locate ref) ⟨s :: outer, ds, fs⟩
      · exact Leaves.locate ref ⟨s :: outer, ds, fs⟩

/-- A walk in a scope of its own leaves the scopes around it alone, whatever it does to its own. -/
theorem Leaves.inScope {f : Scope → Scope} (h : Leaves r (List.modifyHead f)) : Leaves (inScope r) id := by
  intro w
  change (r { w with scopes := [] :: w.scopes }).2.scopes.tail = w.scopes
  rw [h]
  rfl

end Resolve

namespace Scope

/-- Declares names, and makes them ready. -/
def defineAll (s : Scope) (names : List Lexeme) : Scope := names.foldl (fun s t => s.define t.text) s

/-- A name that is new is made ready alone. -/
theorem define_new {s : Scope} {n : String} (h : s.declares n = false) :
    Scope.define ((n, false) :: s) n = s.define n := by
  have hs : s.map (fun p => (p.1, p.2 || p.1 == n)) = s := by
    refine (List.map_congr_left fun p hp => ?_).trans (List.map_id s)
    have hne : (p.1 == n) = false := by
      have := List.any_eq_false.mp h p hp
      simpa using this
    rw [hne, Bool.or_false]
    rfl
  unfold define
  rw [h, if_neg Bool.false_ne_true, if_pos (by simp [declares]), List.map_cons, hs]
  simp

end Scope

/-- The scopes after a declaration, whose name may not be read yet if it is new. -/
def declared (name : Lexeme) (σ : List Scope) : List Scope :=
  if σ.head?.any (·.declares name.text) then σ else σ.modifyHead ((name.text, false) :: ·)

theorem declare_leaves (name : Lexeme) : Leaves (declare name) (declared name) := by
  rintro ⟨_ | ⟨s, outer⟩, ds, fs⟩
  · rfl
  · change ((if s.declares name.text then fault .redeclared name
      else modifyInnermost ((name.text, false) :: ·)) ⟨s :: outer, ds, fs⟩).2.scopes =
        if s.declares name.text then s :: outer else ((name.text, false) :: s) :: outer
    split <;> rfl

theorem define_declared (name : Lexeme) (σ : List Scope) :
    (declared name σ).modifyHead (·.define name.text) = σ.modifyHead (·.define name.text) := by
  cases σ with
  | nil => rfl
  | cons s outer =>
      change List.modifyHead (·.define name.text)
        (if s.declares name.text then s :: outer else ((name.text, false) :: s) :: outer) = _
      cases hd : s.declares name.text with
      | true => rfl
      | false => exact congrArg (· :: outer) (Scope.define_new hd)

/-- A declaration, with anything in between that leaves the scopes alone. -/
theorem declare_define_leaves (name : Lexeme) {r : Resolve Unit} (h : Leaves r id) :
    Leaves (declare name >>= fun _ => r >>= fun _ => Resolve.define name.text)
      (List.modifyHead (·.define name.text)) :=
  fun w => ((declare_leaves name).bind (h.same (.modifyInnermost _)) w).trans (define_declared name w.scopes)

theorem introduce_leaves (name : Lexeme) : Leaves (introduce name) (List.modifyHead (·.define name.text)) :=
  declare_define_leaves name .pure

theorem inherit_leaves (name : Lexeme) (superclass : Reference NodeId) :
    Leaves (inherit name superclass) id := by
  unfold inherit
  split
  · exact .same (.fault _ _) (.read _)
  · exact .same .pure (.read _)

mutual

theorem Expr.resolve_leaves (ctx : Context) : ∀ e : Expr NodeId, Leaves (e.resolve ctx) id
  | .literal _ _ => .pure
  | .group _ inner => inner.resolve_leaves ctx
  | .unary _ _ _ operand => operand.resolve_leaves ctx
  | .binary _ _ _ left right => .same (left.resolve_leaves ctx) (right.resolve_leaves ctx)
  | .logical _ _ _ left right => .same (left.resolve_leaves ctx) (right.resolve_leaves ctx)
  | .name ref => .read ref
  | .assign target value => .same (value.resolve_leaves ctx) (.locate target)
  | .call _ callee _ arguments => .same (callee.resolve_leaves ctx) (Expr.resolveEach_leaves ctx arguments)
  | .get _ object _ => object.resolve_leaves ctx
  | .set _ object _ value => .same (value.resolve_leaves ctx) (object.resolve_leaves ctx)
  | .this ref => by
      rw [Expr.resolve]
      split
      · exact .fault _ _
      · exact .locate ref
      · exact .locate ref
  | .super ref method => by
      rw [Expr.resolve]
      split
      · exact .fault _ _
      · exact .fault _ _
      · exact .locate ref

theorem Expr.resolveEach_leaves (ctx : Context) : ∀ es : List (Expr NodeId), Leaves (Expr.resolveEach ctx es) id
  | [] => .pure
  | e :: es => .same (e.resolve_leaves ctx) (Expr.resolveEach_leaves ctx es)

end

theorem Expr.resolve?_leaves (ctx : Context) : ∀ e : Option (Expr NodeId), Leaves (Expr.resolve? ctx e) id
  | none => .pure
  | some e => e.resolve_leaves ctx

/-- Names declared one after the other. -/
theorem Resolve.Leaves.defineAll {r r' : Resolve Unit} {ts ts' : List Lexeme}
    (h : Leaves r (List.modifyHead (·.defineAll ts))) (h' : Leaves r' (List.modifyHead (·.defineAll ts'))) :
    Leaves (r >>= fun _ => r') (List.modifyHead (·.defineAll (ts ++ ts'))) := by
  intro w
  rw [h.bind h' w, Function.comp_apply, List.modifyHead_modifyHead]
  simp [Function.comp_def, Scope.defineAll]

theorem Resolve.Leaves.none {r : Resolve Unit} (h : Leaves r id) :
    Leaves r (List.modifyHead (·.defineAll [])) := by
  intro w
  rw [h w]
  cases w.scopes <;> rfl

theorem params_leaves : ∀ params : List Lexeme,
    Leaves (params.forM introduce) (List.modifyHead (·.defineAll params))
  | [] => .none .pure
  | t :: params => by
      have h : Leaves (introduce t) (List.modifyHead (·.defineAll [t])) := introduce_leaves t
      exact h.defineAll (params_leaves params)

/-- The names that statements declare in the scope they stand in. -/
def Stmt.introducedAll (body : List (Stmt NodeId)) : List Lexeme := body.flatMap Stmt.introduced

mutual

/-- In whatever state it is begun, the walk through a statement leaves all scopes as they are, but that the
innermost one has the names that the statement declares in it. -/
theorem Stmt.resolve_leaves : ∀ (ctx : Context) (s : Stmt NodeId),
    Leaves (s.resolve ctx) (List.modifyHead (·.defineAll s.introduced))
  | ctx, .expression value => .none (value.resolve_leaves ctx)
  | ctx, .print value => .none (value.resolve_leaves ctx)
  | ctx, .var name initializer => declare_define_leaves name (Expr.resolve?_leaves ctx initializer)
  | ctx, .block body => .none (.inScope (Stmt.resolveAll_leaves ctx body))
  | ctx, .ite condition yes none => .same (condition.resolve_leaves ctx) (Stmt.resolve_leaves ctx yes)
  | ctx, .ite condition yes (some no) =>
      .same (condition.resolve_leaves ctx) ((Stmt.resolve_leaves ctx yes).defineAll (Stmt.resolve_leaves ctx no))
  | ctx, .while condition body => .same (condition.resolve_leaves ctx) (Stmt.resolve_leaves ctx body)
  | ctx, .function decl => by
      have h : Leaves (introduce decl.name) (List.modifyHead (·.defineAll [decl.name])) := introduce_leaves _
      exact h.defineAll (.none (FunDecl.resolve_leaves ctx decl))
  | ctx, .ret keyword value => by
      have hv := Expr.resolve?_leaves ctx value
      rw [Stmt.resolve]
      refine .none ?_
      split
      · exact hv
      · exact .same (.fault _ _) hv
  | ctx, .cls name none methods => by
      have h : Leaves (introduce name) (List.modifyHead (·.defineAll [name])) := introduce_leaves _
      have hm := FunDecl.resolveEach_leaves { ctx with inClass := .base } methods
      exact h.defineAll (.none (.inScope (Leaves.bind (.modifyInnermost (·.define "this")) hm)))
  | ctx, .cls name (some superclass) methods => by
      have h : Leaves (introduce name) (List.modifyHead (·.defineAll [name])) := introduce_leaves _
      have hm := FunDecl.resolveEach_leaves { ctx with inClass := .derived } methods
      have hthis :
          Leaves (inScope (do define "this"; FunDecl.resolveEach { ctx with inClass := .derived } methods)) id :=
        .inScope (Leaves.bind (.modifyInnermost (·.define "this")) hm)
      exact h.defineAll (.none (.same (inherit_leaves name superclass)
        (.inScope (Leaves.bind (.modifyInnermost (·.define "super")) hthis))))

theorem Stmt.resolveAll_leaves : ∀ (ctx : Context) (body : List (Stmt NodeId)),
    Leaves (Stmt.resolveAll ctx body) (List.modifyHead (·.defineAll (Stmt.introducedAll body)))
  | _, [] => .none .pure
  | ctx, s :: body => (Stmt.resolve_leaves ctx s).defineAll (Stmt.resolveAll_leaves ctx body)

theorem FunDecl.resolve_leaves : ∀ (ctx : Context) (decl : FunDecl NodeId), Leaves (decl.resolve ctx) id
  | ctx, .mk _ params body =>
      .inScope ((params_leaves params).defineAll (Stmt.resolveAll_leaves { ctx with inFunction := true } body))

theorem FunDecl.resolveEach_leaves : ∀ (ctx : Context) (decls : List (FunDecl NodeId)),
    Leaves (FunDecl.resolveEach ctx decls) id
  | _, [] => .pure
  | ctx, decl :: decls => .same (FunDecl.resolve_leaves ctx decl) (FunDecl.resolveEach_leaves ctx decls)

end

/-! ### What a walk reports -/

namespace Resolve

/-- Begun in the scopes `σ`, the walk finds the violations of the rules at given sites and, where there is
none, records the distances of the uses among them. -/
def Reports (r : Resolve Unit) (σ : List Scope) (sites : List Site) : Prop :=
  ∀ w : Walk, w.scopes = σ → (r w).2.faults = (violations sites).reverse ++ w.faults ∧
    (violations sites = [] → (r w).2.distances = entries sites ++ w.distances)

variable {r r' : Resolve Unit} {f : List Scope → List Scope} {σ : List Scope} {sites sites' : List Site}

/-- One walk after the other: the second begins in the scopes that the first one leaves. -/
theorem Reports.bind (h : Reports r σ sites) (hf : Leaves r f) (h' : Reports r' (f σ) sites') :
    Reports (r >>= fun _ => r') σ (sites ++ sites') := by
  intro w hw
  obtain ⟨hfaults, hdistances⟩ := h w hw
  obtain ⟨hfaults', hdistances'⟩ := h' (r w).2 ((hf w).trans (congrArg f hw))
  refine ⟨?_, fun hv => ?_⟩
  · refine hfaults'.trans ?_
    rw [hfaults, violations_append, List.reverse_append, List.append_assoc]
  · rw [violations_append] at hv
    obtain ⟨hv₁, hv₂⟩ := List.append_eq_nil_iff.mp hv
    refine (hdistances' hv₂).trans ?_
    rw [hdistances hv₁, entries_append, List.append_assoc]

theorem Reports.same (h : Reports r σ sites) (hf : Leaves r id) (h' : Reports r' σ sites') :
    Reports (r >>= fun _ => r') σ (sites ++ sites') := h.bind hf h'

/-- A walk that looks at no site before another one. -/
theorem Reports.after (h : Reports r σ []) (hf : Leaves r f) (h' : Reports r' (f σ) sites) :
    Reports (r >>= fun _ => r') σ sites := h.bind hf h'

theorem Reports.before (h : Reports r σ sites) (hf : Leaves r f) (h' : Reports r' (f σ) []) :
    Reports (r >>= fun _ => r') σ sites := by
  rw [← List.append_nil sites]
  exact h.bind hf h'

theorem Reports.pure : Reports (pure ()) σ [] := fun _ _ => ⟨rfl, fun _ => rfl⟩

theorem Reports.modifyInnermost (f : Scope → Scope) : Reports (modifyInnermost f) σ [] := by
  rintro ⟨_ | ⟨s, outer⟩, ds, fs⟩ - <;> exact ⟨rfl, fun _ => rfl⟩

/-- A walk that reports a fault, at a site that violates the rule. -/
theorem Reports.fault {site : Site} {kind : ScopeFault} {t : Lexeme} (h : site.violation? = some ⟨kind, t⟩) :
    Reports (fault kind t) σ [site] := by
  intro w _
  rw [violations_single, h]
  exact ⟨rfl, fun h => nomatch h⟩

/-- A site that is no use of a name, and that violates nothing, leaves no trace. -/
theorem Reports.silent {site : Site} (hv : site.violation? = none) (hr : site.reference? = none)
    (h : Reports r σ []) : Reports r σ [site] := by
  intro w hw
  rw [violations_single, entries_single, hv, Site.entry?, hr]
  exact h w hw

theorem Reports.inScope (h : Reports r ([] :: σ) sites) : Reports (inScope r) σ sites :=
  fun w hw => h { w with scopes := [] :: w.scopes } (congrArg ([] :: ·) hw)

end Resolve

/-! ### Scopes that show the names of a path -/

namespace Scope

/-- The scope has given names, all of them ready to be read. -/
def Shows (s : Scope) (names : List String) : Prop :=
  ∀ n, s.lookup n = if names.contains n then some true else none

theorem Shows.declares {s : Scope} {names : List String} (h : s.Shows names) (n : String) :
    s.declares n = names.contains n := by
  rw [declares_eq, h n]
  cases names.contains n <;> rfl

theorem Shows.isPending {s : Scope} {names : List String} (h : s.Shows names) (n : String) :
    s.isPending n = false := by
  unfold Scope.isPending
  rw [h n]
  cases names.contains n <;> rfl

theorem Shows.nil : Shows [] [] := fun _ => rfl

theorem Shows.define {s : Scope} {names : List String} (h : s.Shows names) (n : String) :
    (s.define n).Shows (n :: names) := by
  intro m
  rw [lookup_define, h m]
  by_cases hm : m = n <;> simp [hm]

end Scope

namespace Path

/-- The surroundings of a place, as far as they decide what is forbidden there. -/
def context (path : Path) : Context where
  inFunction := path.inFunction
  inClass :=
    match path.hasSuperclass? with
    | none => .outside
    | some false => .base
    | some true => .derived

/-- Does a declaration at the place go into the innermost construct? -/
def Declares : Path → Prop
  | .cls _ _ _ :: _ => False
  | _ => True

theorem declare_declares {path : Path} (h : path.Declares) (n : String) : (path.declare n).Declares := by
  cases path with
  | nil => trivial
  | cons c outer => cases c <;> trivial

theorem scopes_declare {path : Path} (h : path.Declares) (n : String) :
    (path.declare n).scopes = path.scopes.modifyHead (n :: ·) := by
  cases path with
  | nil => rfl
  | cons c outer =>
      cases c with
      | block before => rfl
      | function decl before => rfl
      | cls name superclass methods => exact h.elim

theorem context_declare (path : Path) (n : String) : (path.declare n).context = path.context := by
  cases path with
  | nil => rfl
  | cons c outer => cases c <;> rfl

theorem context_declareAll (path : Path) (names : List Lexeme) :
    (path.declareAll names).context = path.context := by
  induction names generalizing path with
  | nil => rfl
  | cons t names ih => exact (ih _).trans (path.context_declare _)

theorem declareAll_declares {path : Path} (h : path.Declares) (names : List Lexeme) :
    (path.declareAll names).Declares := by
  induction names generalizing path with
  | nil => exact h
  | cons t names ih => exact ih (declare_declares h _)

end Path

theorem Path.context_base (path : Path) (name : Lexeme) (methods : List (FunDecl NodeId)) :
    Path.context (.cls name none methods :: path) = { path.context with inClass := .base } := rfl

theorem Path.context_derived (path : Path) (name : Lexeme) (superclass : Reference NodeId)
    (methods : List (FunDecl NodeId)) :
    Path.context (.cls name (some superclass) methods :: path) = { path.context with inClass := .derived } := rfl

/-- The scopes of a walk that has come to a place: they show the names of the scopes around it. -/
abbrev Mirrors (σ : List Scope) (path : Path) : Prop := List.Forall₂ Scope.Shows σ path.scopes

/-- What an expression at a place, in the initializer of `own`, sees of the scopes of a walk. -/
structure Seen (σ : List Scope) (path : Path) (own : Option String) : Prop where
  distance : ∀ n, σ.findIdx? (·.declares n) = path.distance? n
  pending : ∀ n, σ.head?.any (·.isPending n) = (own == some n)

section mirrors

variable {σ : List Scope} {path : Path}

theorem Mirrors.distance (h : Mirrors σ path) (n : String) : σ.findIdx? (·.declares n) = path.distance? n := by
  unfold Path.distance?
  unfold Mirrors at h
  generalize path.scopes = τ at h
  induction h with
  | nil => rfl
  | cons h _ ih => rw [List.findIdx?_cons, List.findIdx?_cons, h.declares, ih]

theorem Mirrors.head (h : Mirrors σ path) : σ = [] ∧ path.scopes = [] ∨
    ∃ s σ' names τ, σ = s :: σ' ∧ path.scopes = names :: τ ∧ s.Shows names := by
  cases hτ : path.scopes with
  | nil => rw [Mirrors, hτ, List.forall₂_nil_right_iff] at h; exact .inl ⟨h, rfl⟩
  | cons names τ =>
      rw [Mirrors, hτ] at h
      obtain ⟨s, σ', hs, -, rfl⟩ := List.forall₂_cons_right_iff.mp h
      exact .inr ⟨s, σ', names, τ, rfl, rfl, hs⟩

theorem Mirrors.has (h : Mirrors σ path) (n : String) : σ.head?.any (·.declares n) = path.has n := by
  unfold Path.has
  obtain ⟨rfl, hτ⟩ | ⟨s, σ', names, τ, rfl, hτ, hs⟩ := h.head
  · rw [hτ]; rfl
  · rw [hτ]; exact hs.declares n

theorem Mirrors.seen (h : Mirrors σ path) : Seen σ path none where
  distance := h.distance
  pending n := by
    obtain ⟨rfl, -⟩ | ⟨s, σ', names, τ, rfl, -, hs⟩ := h.head
    · rfl
    · exact hs.isPending n

theorem Mirrors.define (h : Mirrors σ path) (hd : path.Declares) (n : String) :
    Mirrors (σ.modifyHead (·.define n)) (path.declare n) := by
  unfold Mirrors at h ⊢
  rw [Path.scopes_declare hd]
  generalize path.scopes = τ at h
  cases h with
  | nil => exact .nil
  | cons h hrest => exact .cons (h.define n) hrest

theorem Mirrors.defineAll (h : Mirrors σ path) (hd : path.Declares) (names : List Lexeme) :
    Mirrors (σ.modifyHead (·.defineAll names)) (path.declareAll names) := by
  induction names generalizing σ path with
  | nil =>
      have hid : σ.modifyHead (·.defineAll []) = σ := by cases σ <;> rfl
      rw [hid]
      exact h
  | cons t names ih =>
      have := ih (h.define hd t.text) (Path.declare_declares hd _)
      rw [List.modifyHead_modifyHead] at this
      exact this

theorem Mirrors.block (h : Mirrors σ path) : Mirrors ([] :: σ) (.block [] :: path) := .cons .nil h

theorem Mirrors.function (h : Mirrors σ path) (decl : FunDecl NodeId) :
    Mirrors ([] :: σ) (.function decl [] :: path) := .cons .nil h

theorem Mirrors.base (h : Mirrors σ path) (name : Lexeme) (methods : List (FunDecl NodeId)) :
    Mirrors (Scope.define [] "this" :: σ) (.cls name none methods :: path) := .cons (Scope.Shows.nil.define _) h

theorem Mirrors.derived (h : Mirrors σ path) (name : Lexeme) (superclass : Reference NodeId)
    (methods : List (FunDecl NodeId)) :
    Mirrors (Scope.define [] "this" :: Scope.define [] "super" :: σ)
      (.cls name (some superclass) methods :: path) :=
  .cons (Scope.Shows.nil.define _) (.cons (Scope.Shows.nil.define _) h)

/-- The initializer of a variable sees it, but may not read it if it is new in its scope. -/
theorem Mirrors.seen_own (h : Mirrors σ path) (hd : path.Declares) (name : Lexeme) :
    Seen (declared name σ) (path.declare name.text) (path.initializing? name) := by
  have hlocated := h.distance
  have hpending := h.seen.pending
  have hhas := h.has name.text
  suffices (∀ n, (declared name σ).findIdx? (·.declares n) = (path.declare name.text).distance? n) ∧
      ∀ n, (declared name σ).head?.any (·.isPending n) = (path.initializing? name == some n) from
    ⟨this.1, this.2⟩
  unfold declared Path.initializing?
  unfold Path.distance? Path.isLocal Path.has at *
  rw [Path.scopes_declare hd]
  unfold Mirrors at h
  generalize path.scopes = τ at *
  cases h with
  | nil => exact ⟨fun _ => rfl, fun _ => rfl⟩
  | @cons s names σ τ hs _ =>
      simp only [List.head?_cons, Option.any_some] at hhas hpending ⊢
      simp only [hhas, List.isEmpty_cons, Bool.not_false, Bool.true_and, List.modifyHead_cons]
      cases hn : names.contains name.text with
      | true =>
          -- the scope has the name already: a redeclaration changes nothing
          refine ⟨fun n => ?_, fun n => by simpa using hpending n⟩
          rw [if_pos rfl, hlocated n, List.findIdx?_cons, List.findIdx?_cons, List.contains_cons]
          by_cases h : n = name.text
          · rw [h, hn, Bool.or_true]
          · rw [beq_false_of_ne h, Bool.false_or]
      | false =>
          rw [if_neg Bool.false_ne_true]
          refine ⟨fun n => ?_, fun n => ?_⟩
          · have := hlocated n
            rw [List.findIdx?_cons, List.findIdx?_cons] at this
            rw [List.findIdx?_cons, List.findIdx?_cons, List.contains_cons]
            by_cases h : n = name.text
            · simp [Scope.declares, h]
            · rw [beq_false_of_ne h, Bool.false_or, ← this]
              simp [Scope.declares, Ne.symm h]
          · have := hpending n
            unfold Scope.isPending at this ⊢
            by_cases h : n = name.text
            · simp [h]
            · simpa [List.lookup_cons, beq_false_of_ne h, Ne.symm h] using this

end mirrors

/-! ### The report on a program -/

section reports

variable {σ : List Scope} {path : Path} {own : Option String}

/-- What a lookup of a name in the scopes does. -/
theorem locate_run (ref : Reference NodeId) (w : Walk) :
    (locate ref w).2.faults = w.faults ∧ (locate ref w).2.distances =
      ((w.scopes.findIdx? (·.declares ref.name.text)).map fun d => (ref.id, d)).toList ++ w.distances := by
  obtain ⟨σ, ds, fs⟩ := w
  rw [locate_mk]
  exact ⟨rfl, rfl⟩

/-- A use that violates nothing and is located in the scopes of the walk. -/
theorem Seen.locate (h : Seen σ path own) {kind : UseKind} {ref : Reference NodeId}
    (hv : Site.violation? ⟨.uses kind ref own, path⟩ = none) :
    Reports (locate ref) σ (usesSites path own [(kind, ref)]) := by
  have hsite : usesSites path own [(kind, ref)] = [⟨.uses kind ref own, path⟩] := rfl
  have he : Site.entry? ⟨.uses kind ref own, path⟩ =
      (path.distance? ref.name.text).map fun d => (ref.id, d) := rfl
  rintro w rfl
  rw [hsite, violations_single, entries_single, hv, he, ← h.distance]
  exact ⟨(locate_run ref w).1, fun _ => (locate_run ref w).2⟩

theorem Seen.read (h : Seen σ path own) (ref : Reference NodeId) :
    Reports (Resolve.read ref) σ (usesSites path own [(.read, ref)]) := by
  have hp := h.pending ref.name.text
  have hrun : ∀ w : Walk, w.scopes = σ → Resolve.read ref w =
      (if σ.head?.any (·.isPending ref.name.text) then
        fault .readInOwnInitializer ref.name >>= fun _ => Resolve.locate ref
      else Resolve.locate ref) w := by
    rintro ⟨_ | ⟨s, outer⟩, ds, fs⟩ rfl <;> rfl
  intro w hw
  rw [hrun w hw, hp]
  by_cases ho : own = some ref.name.text
  · have hv : Site.violation? ⟨.uses .read ref own, path⟩ = some ⟨.readInOwnInitializer, ref.name⟩ := if_pos ho
    have hvs : violations (usesSites path own [(.read, ref)]) = [⟨.readInOwnInitializer, ref.name⟩] :=
      (violations_single _).trans (congrArg Option.toList hv)
    rw [ho, beq_self_eq_true, if_pos rfl, ← ho, hvs]
    exact ⟨(locate_run ref _).1, fun h => nomatch h⟩
  · have hv : Site.violation? ⟨.uses .read ref own, path⟩ = none := if_neg ho
    rw [beq_false_of_ne ho, if_neg Bool.false_ne_true]
    exact h.locate hv w hw

theorem Seen.append {r r' : Resolve Unit} {refs refs' : List (UseKind × Reference NodeId)}
    (h : Reports r σ (usesSites path own refs)) (hr : Leaves r id)
    (h' : Reports r' σ (usesSites path own refs')) :
    Reports (r >>= fun _ => r') σ (usesSites path own (refs ++ refs')) := by
  rw [usesSites_append]
  exact h.same hr h'

mutual

/-- The report on an expression: its uses of names are sites at its place. -/
theorem Expr.resolve_reports (h : Seen σ path own) : ∀ e : Expr NodeId,
    Reports (e.resolve path.context) σ (usesSites path own e.references)
  | .literal _ _ => .pure
  | .group _ inner => Expr.resolve_reports h inner
  | .unary _ _ _ operand => Expr.resolve_reports h operand
  | .binary _ _ _ left right => by
      rw [Expr.references]
      exact Seen.append (Expr.resolve_reports h left) (left.resolve_leaves _) (Expr.resolve_reports h right)
  | .logical _ _ _ left right => by
      rw [Expr.references]
      exact Seen.append (Expr.resolve_reports h left) (left.resolve_leaves _) (Expr.resolve_reports h right)
  | .name ref => h.read ref
  | .assign target value => by
      rw [Expr.references]
      exact Seen.append (Expr.resolve_reports h value) (value.resolve_leaves _) (h.locate rfl)
  | .call _ callee _ arguments => by
      rw [Expr.references]
      exact Seen.append (Expr.resolve_reports h callee) (callee.resolve_leaves _)
        (Expr.resolveEach_reports h arguments)
  | .get _ object _ => Expr.resolve_reports h object
  | .set _ object _ value => by
      rw [Expr.references]
      exact Seen.append (Expr.resolve_reports h value) (value.resolve_leaves _) (Expr.resolve_reports h object)
  | .this ref => by
      rw [Expr.resolve, Path.context]
      dsimp only
      cases hc : path.hasSuperclass? with
      | none => exact .fault (by simp only [Site.violation?, hc])
      | some b =>
          cases b <;> exact h.locate (by simp only [Site.violation?, hc])
  | .super ref method => by
      rw [Expr.resolve, Path.context]
      dsimp only
      cases hc : path.hasSuperclass? with
      | none => exact .fault (by simp only [Site.violation?, hc])
      | some b =>
          cases b with
          | false => exact .fault (by simp only [Site.violation?, hc])
          | true => exact h.locate (by simp only [Site.violation?, hc])

theorem Expr.resolveEach_reports (h : Seen σ path own) : ∀ es : List (Expr NodeId),
    Reports (Expr.resolveEach path.context es) σ (usesSites path own (Expr.referencesEach es))
  | [] => .pure
  | e :: es => by
      rw [Expr.referencesEach]
      exact Seen.append (Expr.resolve_reports h e) (e.resolve_leaves _) (Expr.resolveEach_reports h es)

end

theorem Expr.resolve?_reports (h : Seen σ path own) : ∀ e : Option (Expr NodeId),
    Reports (Expr.resolve? path.context e) σ (e.toList.flatMap fun e => usesSites path own e.references)
  | none => .pure
  | some e => by
      rw [Option.toList_some, List.flatMap_singleton]
      exact Expr.resolve_reports h e

/-- A declaration is a fault if the innermost scope has the name already. -/
theorem declare_reports (h : Mirrors σ path) (name : Lexeme) :
    Reports (declare name) σ [⟨.declares name, path⟩] := by
  have hh := h.has name.text
  have hrun : ∀ w : Walk, w.scopes = σ → declare name w =
      (if σ.head?.any (·.declares name.text) then fault .redeclared name
      else modifyInnermost ((name.text, false) :: ·)) w := by
    rintro ⟨_ | ⟨s, outer⟩, ds, fs⟩ rfl <;> rfl
  intro w hw
  rw [hrun w hw, hh]
  cases hhas : path.has name.text with
  | true =>
      have hv : Site.violation? ⟨.declares name, path⟩ = some ⟨.redeclared, name⟩ := if_pos hhas
      exact Reports.fault hv w hw
  | false =>
      have hv : Site.violation? ⟨.declares name, path⟩ = none := if_neg (Bool.eq_false_iff.mp hhas)
      exact Reports.silent hv rfl (.modifyInnermost _) w hw

/-- A declaration, with an initializer in between or without one. -/
theorem declare_define_reports (h : Mirrors σ path) (hd : path.Declares) (name : Lexeme) {r : Resolve Unit}
    (hr : Leaves r id) {sites : List Site}
    (hs : Seen (declared name σ) (path.declare name.text) (path.initializing? name) →
      Reports r (declared name σ) sites) :
    Reports (declare name >>= fun _ => r >>= fun _ => Resolve.define name.text) σ
      (⟨.declares name, path⟩ :: sites) :=
  (declare_reports h name).bind (declare_leaves name) ((hs (h.seen_own hd name)).before hr (.modifyInnermost _))

theorem introduce_reports (h : Mirrors σ path) (hd : path.Declares) (name : Lexeme) :
    Reports (introduce name) σ [⟨.declares name, path⟩] :=
  declare_define_reports h hd name .pure fun _ => .pure

theorem params_reports : ∀ (params : List Lexeme) {σ : List Scope} {path : Path}, Mirrors σ path →
    path.Declares → Reports (params.forM introduce) σ (declaresSites path params)
  | [], _, _, _, _ => .pure
  | t :: params, _, _, h, hd => (introduce_reports h hd t).bind (introduce_leaves t)
      (params_reports params (h.define hd t.text) (Path.declare_declares hd _))

theorem inherit_reports (h : Mirrors σ path) (name : Lexeme) (superclass : Reference NodeId) :
    Reports (inherit name superclass) σ
      (⟨.inherits name superclass.name, path⟩ :: (Expr.name superclass).sites path) := by
  have hr := h.seen.read superclass
  unfold inherit
  split
  next hn =>
    have hv : Site.violation? ⟨.inherits name superclass.name, path⟩ =
      some ⟨.inheritsFromItself, superclass.name⟩ := if_pos hn
    exact (Reports.fault hv).same (.fault _ _) hr
  next hn =>
    have hv : Site.violation? ⟨.inherits name superclass.name, path⟩ = none := if_neg hn
    exact Reports.same (.silent hv rfl .pure) .pure hr

/-- A `return`, with its value or without one. -/
theorem ret_reports (h : Mirrors σ path) (keyword : Lexeme) (value : Option (Expr NodeId)) :
    Reports (Stmt.resolve path.context (.ret keyword value)) σ (Stmt.sites path (.ret keyword value)) := by
  have hv := Expr.resolve?_reports h.seen value
  rw [Stmt.resolve, Stmt.sites]
  split
  next hi =>
    have hr : Site.violation? ⟨.returns keyword, path⟩ = none := if_pos hi
    exact Reports.same (.silent hr rfl .pure) .pure hv
  next hi =>
    have hr : Site.violation? ⟨.returns keyword, path⟩ = some ⟨.returnOutsideFunction, keyword⟩ := if_neg hi
    exact (Reports.fault hr).same (.fault _ _) hv

mutual

/-- The report on a statement. -/
theorem Stmt.resolve_reports : ∀ (s : Stmt NodeId) {σ : List Scope} {path : Path}, Mirrors σ path →
    path.Declares → Reports (s.resolve path.context) σ (s.sites path)
  | .expression value, _, _, h, _ => Expr.resolve_reports h.seen value
  | .print value, _, _, h, _ => Expr.resolve_reports h.seen value
  | .var name initializer, _, path, h, hd => by
      refine declare_define_reports h hd name (Expr.resolve?_leaves _ initializer) fun hs => ?_
      rw [← path.context_declare name.text]
      exact Expr.resolve?_reports hs initializer
  | .block body, _, _, h, _ => .inScope (Stmt.resolveAll_reports body h.block trivial)
  | .ite condition yes none, _, _, h, hd =>
      (Expr.resolve_reports h.seen condition).same (condition.resolve_leaves _) (Stmt.resolve_reports yes h hd)
  | .ite condition yes (some no), _, path, h, hd => by
      have hno := Stmt.resolve_reports no (h.defineAll hd yes.introduced) (Path.declareAll_declares hd _)
      rw [path.context_declareAll] at hno
      exact (Expr.resolve_reports h.seen condition).same (condition.resolve_leaves _)
        ((Stmt.resolve_reports yes h hd).bind (Stmt.resolve_leaves _ yes) hno)
  | .while condition body, _, _, h, hd =>
      (Expr.resolve_reports h.seen condition).same (condition.resolve_leaves _) (Stmt.resolve_reports body h hd)
  | .function decl, _, path, h, hd => by
      have hf := FunDecl.resolve_reports decl (h.define hd decl.name.text)
      rw [path.context_declare] at hf
      exact (introduce_reports h hd decl.name).bind (introduce_leaves _) hf
  | .ret keyword value, _, _, h, _ => ret_reports h keyword value
  | .cls name none methods, _, path, h, hd => by
      have hn := h.define hd name.text
      have hm := FunDecl.resolveEach_reports methods (hn.base name methods)
      rw [Path.context_base, path.context_declare] at hm
      exact (introduce_reports h hd name).bind (introduce_leaves _)
        (.inScope (.after (.modifyInnermost _) (.modifyInnermost _) hm))
  | .cls name (some superclass) methods, _, path, h, hd => by
      have hn := h.define hd name.text
      have hm := FunDecl.resolveEach_reports methods (hn.derived name superclass methods)
      rw [Path.context_derived, path.context_declare] at hm
      exact (introduce_reports h hd name).bind (introduce_leaves _)
        ((inherit_reports hn name superclass).bind (inherit_leaves _ _)
          (.inScope (.after (.modifyInnermost _) (.modifyInnermost _)
            (.inScope (.after (.modifyInnermost _) (.modifyInnermost _) hm)))))

theorem Stmt.resolveAll_reports : ∀ (body : List (Stmt NodeId)) {σ : List Scope} {path : Path},
    Mirrors σ path → path.Declares → Reports (Stmt.resolveAll path.context body) σ (Stmt.sitesAll path body)
  | [], _, _, _, _ => .pure
  | s :: body, _, path, h, hd => by
      have hrest := Stmt.resolveAll_reports body (h.defineAll hd s.introduced) (Path.declareAll_declares hd _)
      rw [path.context_declareAll] at hrest
      exact (Stmt.resolve_reports s h hd).bind (Stmt.resolve_leaves _ s) hrest

theorem FunDecl.resolve_reports : ∀ (decl : FunDecl NodeId) {σ : List Scope} {path : Path}, Mirrors σ path →
    Reports (decl.resolve path.context) σ (decl.sites path)
  | .mk name params body, _, path, h => by
      have hf := h.function (.mk name params body)
      have hd : Path.Declares (.function (.mk name params body) [] :: path) := trivial
      have hbody := Stmt.resolveAll_reports body (hf.defineAll hd params) (Path.declareAll_declares hd _)
      rw [Path.context_declareAll] at hbody
      exact .inScope ((params_reports params hf hd).bind (params_leaves params) hbody)

theorem FunDecl.resolveEach_reports : ∀ (decls : List (FunDecl NodeId)) {σ : List Scope} {path : Path},
    Mirrors σ path → Reports (FunDecl.resolveEach path.context decls) σ (FunDecl.sitesEach path decls)
  | [], _, _, _ => .pure
  | decl :: decls, _, _, h =>
      (FunDecl.resolve_reports decl h).same (FunDecl.resolve_leaves _ decl) (FunDecl.resolveEach_reports decls h)

end

end reports

/-- The outcome of a walk from outside all local scopes, as it can be read off its sites. -/
theorem Resolve.Reports.outcome {r : Resolve Unit} {sites : List Site} (h : Reports r [] sites) :
    r.outcome = if violations sites = [] then .ok (entries sites) else .error (violations sites) := by
  obtain ⟨hfaults, hdistances⟩ := h ⟨[], [], []⟩ rfl
  rw [List.append_nil] at hfaults hdistances
  have hrun : r.outcome = if (r ⟨[], [], []⟩).2.faults.isEmpty then .ok (r ⟨[], [], []⟩).2.distances
      else .error (r ⟨[], [], []⟩).2.faults.reverse := rfl
  rw [hrun, hfaults, List.reverse_reverse]
  by_cases hv : violations sites = []
  · rw [hdistances hv, hv]
    rfl
  · rw [if_neg hv, if_neg (by simpa using hv)]

/-- The outcome of resolution, as it can be read off the sites of the program. -/
theorem resolveProgram_eq (body : List (Stmt NodeId)) :
    resolveProgram body =
      if violations (sitesOf body) = [] then .ok (entries (sitesOf body))
      else .error (violations (sitesOf body)) := by
  have hpath : Mirrors [] [] := .nil
  exact (Stmt.resolveAll_reports body hpath trivial).outcome

/-- The outcome of resolution of an expression that stands alone. -/
theorem resolveExpression_eq (e : Expr NodeId) :
    resolveExpression e =
      if violations (e.sites []) = [] then .ok (entries (e.sites [])) else .error (violations (e.sites [])) := by
  have hpath : Mirrors [] [] := .nil
  exact (Expr.resolve_reports hpath.seen e).outcome

end Lox
