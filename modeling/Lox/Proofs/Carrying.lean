import Lox.Proofs.Transport

/-! # Resolution carries over

Resolution looks at the texts of lexemes, and at nothing else of them, and it only writes the labels of nodes
down.  So a program whose lexemes keep their texts, with whatever lines and whatever labels, resolves to the
same distances under its labels, or to the same faults at its lexemes (`resolveProgram_map`). -/

namespace Lox

/-! ### Changed walks -/

/-- A fault of scope at another lexeme. -/
def ScopeError.map (g : Lexeme → Lexeme) (e : ScopeError) : ScopeError := ⟨e.fault, g e.lexeme⟩

/-- What a walk keeps, under other labels and with other lexemes. -/
def Walk.map (f : NodeId → NodeId) (g : Lexeme → Lexeme) (w : Walk) : Walk :=
  ⟨w.scopes, w.distances.relabel f, w.faults.map (ScopeError.map g)⟩

namespace Resolve

section carries

variable (f : NodeId → NodeId) (g : Lexeme → Lexeme)

/-- The second walk does what the first one does, under other labels and with other lexemes. -/
def Carries (r r' : Resolve Unit) : Prop := ∀ w : Walk, (r' (w.map f g)).2 = (r w).2.map f g

variable {f g} {r r' q q' : Resolve Unit}

theorem Carries.pure : Carries f g (pure ()) (pure ()) := fun _ => rfl

theorem Carries.bind (h : Carries f g r r') (hq : Carries f g q q') :
    Carries f g (r >>= fun _ => q) (r' >>= fun _ => q') := by
  intro w
  change (q' (r' (w.map f g)).2).2 = (q (r w).2).2.map f g
  rw [h w, hq]

theorem Carries.fault (x : ScopeFault) (t : Lexeme) : Carries f g (fault x t) (fault x (g t)) :=
  fun _ => rfl

theorem Carries.modifyInnermost (change : Scope → Scope) :
    Carries f g (modifyInnermost change) (modifyInnermost change) := by
  rintro ⟨σ, ds, fs⟩
  cases σ <;> rfl

theorem Carries.inScope (h : Carries f g r r') : Carries f g (inScope r) (inScope r') := by
  intro w
  change { (r' (Walk.map f g { w with scopes := [] :: w.scopes })).2 with
      scopes := (r' (Walk.map f g { w with scopes := [] :: w.scopes })).2.scopes.tail } = _
  rw [h]
  rfl

section texts

variable (hg : ∀ t, (g t).text = t.text)

include hg

theorem Carries.locate (ref : Reference NodeId) : Carries f g (locate ref) (locate (ref.map f g)) := by
  rintro ⟨σ, ds, fs⟩
  change (Resolve.locate (ref.map f g) ⟨σ, ds.relabel f, fs.map (ScopeError.map g)⟩).2 = _
  rw [locate_mk, locate_mk, show (ref.map f g).name.text = ref.name.text from hg ref.name]
  cases σ.findIdx? (fun s : Scope => s.declares ref.name.text) <;> rfl

theorem Carries.read (ref : Reference NodeId) : Carries f g (read ref) (read (ref.map f g)) := by
  rintro ⟨σ, ds, fs⟩
  cases σ with
  | nil => exact Carries.locate hg ref ⟨[], ds, fs⟩
  | cons s outer =>
      change ((if s.isPending (g ref.name).text then
          Resolve.fault .readInOwnInitializer (g ref.name) >>= fun _ => Resolve.locate (ref.map f g)
          else Resolve.locate (ref.map f g)) (Walk.map f g ⟨s :: outer, ds, fs⟩)).2 =
        ((if s.isPending ref.name.text then
          Resolve.fault .readInOwnInitializer ref.name >>= fun _ => Resolve.locate ref
          else Resolve.locate ref) ⟨s :: outer, ds, fs⟩).2.map f g
      rw [hg]
      split
      · exact (Carries.fault _ _).bind (.locate hg ref) ⟨s :: outer, ds, fs⟩
      · exact Carries.locate hg ref ⟨s :: outer, ds, fs⟩

theorem Carries.declare (name : Lexeme) : Carries f g (declare name) (declare (g name)) := by
  rintro ⟨σ, ds, fs⟩
  cases σ with
  | nil => rfl
  | cons s outer =>
      change ((if s.declares (g name).text then Resolve.fault .redeclared (g name)
          else Resolve.modifyInnermost (((g name).text, false) :: ·)) (Walk.map f g ⟨s :: outer, ds, fs⟩)).2 =
        ((if s.declares name.text then Resolve.fault .redeclared name
          else Resolve.modifyInnermost ((name.text, false) :: ·)) ⟨s :: outer, ds, fs⟩).2.map f g
      rw [hg]
      split
      · rfl
      · rfl

theorem Carries.define (name : Lexeme) : Carries f g (define name.text) (define (g name).text) := by
  rw [hg]
  exact .modifyInnermost _

theorem Carries.introduce (name : Lexeme) : Carries f g (introduce name) (introduce (g name)) :=
  (Carries.declare hg name).bind (.define hg name)

theorem Carries.introduceAll (names : List Lexeme) :
    Carries f g (names.forM Resolve.introduce) ((names.map g).forM Resolve.introduce) := by
  induction names with
  | nil => exact .pure
  | cons t names ih => exact (Carries.introduce hg t).bind ih

theorem Carries.inherit (name : Lexeme) (superclass : Reference NodeId) :
    Carries f g (inherit name superclass) (inherit (g name) (superclass.map f g)) := by
  unfold Resolve.inherit
  change Carries f g _ (do
    if (g superclass.name).text = (g name).text then Resolve.fault .inheritsFromItself (g superclass.name)
    Resolve.read (superclass.map f g))
  rw [hg, hg]
  split
  · exact (Carries.fault _ _).bind (.read hg superclass)
  · exact Carries.pure.bind (.read hg superclass)

end texts

/-- What a walk yields from outside all local scopes, another one yields under other labels and with other
lexemes. -/
theorem Carries.outcome (h : Carries f g r r') :
    r'.outcome = match r.outcome with
      | .ok ds => .ok (ds.relabel f)
      | .error faults => .error (faults.map (ScopeError.map g)) := by
  have hw : (r' ⟨[], [], []⟩).2 = (r ⟨[], [], []⟩).2.map f g := h ⟨[], [], []⟩
  change (if (r' ⟨[], [], []⟩).2.faults.isEmpty then Except.ok (r' ⟨[], [], []⟩).2.distances
      else Except.error (r' ⟨[], [], []⟩).2.faults.reverse) =
    match if (r ⟨[], [], []⟩).2.faults.isEmpty then Except.ok (r ⟨[], [], []⟩).2.distances
      else Except.error (r ⟨[], [], []⟩).2.faults.reverse with
    | .ok ds => Except.ok (Distances.relabel f ds)
    | .error faults => Except.error (faults.map (ScopeError.map g))
  rw [hw]
  cases hf : (r ⟨[], [], []⟩).2.faults.isEmpty <;> simp [Walk.map, hf]

end carries

end Resolve

/-! ### Trees -/

section trees

open Resolve

variable {f : NodeId → NodeId} {g : Lexeme → Lexeme}

mutual

theorem Expr.resolve_carries (hg : ∀ t, (g t).text = t.text) (ctx : Context) : ∀ e : Expr NodeId,
    Carries f g (e.resolve ctx) ((e.map f g).resolve ctx)
  | .literal _ _ => .pure
  | .group _ inner => Expr.resolve_carries hg ctx inner
  | .unary _ _ _ operand => Expr.resolve_carries hg ctx operand
  | .binary _ _ _ left right => (Expr.resolve_carries hg ctx left).bind (Expr.resolve_carries hg ctx right)
  | .logical _ _ _ left right => (Expr.resolve_carries hg ctx left).bind (Expr.resolve_carries hg ctx right)
  | .name ref => .read hg ref
  | .assign target value => (Expr.resolve_carries hg ctx value).bind (.locate hg target)
  | .call _ callee _ arguments =>
      (Expr.resolve_carries hg ctx callee).bind (Expr.resolveEach_carries hg ctx arguments)
  | .get _ object _ => Expr.resolve_carries hg ctx object
  | .set _ object _ value => (Expr.resolve_carries hg ctx value).bind (Expr.resolve_carries hg ctx object)
  | .this ref => by
      unfold Expr.map Expr.resolve
      cases ctx.inClass with
      | outside => exact .fault _ _
      | base => exact .locate hg ref
      | derived => exact .locate hg ref
  | .super ref method => by
      unfold Expr.map Expr.resolve
      cases ctx.inClass with
      | outside => exact .fault _ _
      | base => exact .fault _ _
      | derived => exact .locate hg ref

theorem Expr.resolveEach_carries (hg : ∀ t, (g t).text = t.text) (ctx : Context) : ∀ es : List (Expr NodeId),
    Carries f g (Expr.resolveEach ctx es) (Expr.resolveEach ctx (Expr.mapEach f g es))
  | [] => .pure
  | e :: es => (Expr.resolve_carries hg ctx e).bind (Expr.resolveEach_carries hg ctx es)

end

theorem Expr.resolve?_carries (hg : ∀ t, (g t).text = t.text) (ctx : Context) (e : Option (Expr NodeId)) :
    Carries f g (Expr.resolve? ctx e) (Expr.resolve? ctx (e.map (·.map f g))) := by
  cases e with
  | none => exact .pure
  | some e => exact Expr.resolve_carries hg ctx e

mutual

theorem Stmt.resolve_carries (hg : ∀ t, (g t).text = t.text) (ctx : Context) : ∀ s : Stmt NodeId,
    Carries f g (s.resolve ctx) ((s.map f g).resolve ctx)
  | .expression value => Expr.resolve_carries hg ctx value
  | .print value => Expr.resolve_carries hg ctx value
  | .var name initializer =>
      (Carries.declare hg name).bind ((Expr.resolve?_carries hg ctx initializer).bind (.define hg name))
  | .block body => .inScope (Stmt.resolveAll_carries hg ctx body)
  | .ite condition yes none => (Expr.resolve_carries hg ctx condition).bind (Stmt.resolve_carries hg ctx yes)
  | .ite condition yes (some no) =>
      (Expr.resolve_carries hg ctx condition).bind
        ((Stmt.resolve_carries hg ctx yes).bind (Stmt.resolve_carries hg ctx no))
  | .while condition body => (Expr.resolve_carries hg ctx condition).bind (Stmt.resolve_carries hg ctx body)
  | .function decl => by
      have hname := Carries.introduce (f := f) hg decl.name
      rw [← FunDecl.name_map f g decl] at hname
      exact hname.bind (FunDecl.resolve_carries hg ctx decl)
  | .ret keyword value => by
      unfold Stmt.map Stmt.resolve
      cases ctx.inFunction with
      | true => exact Carries.pure.bind (Expr.resolve?_carries hg ctx value)
      | false => exact (Carries.fault _ _).bind (Expr.resolve?_carries hg ctx value)
  | .cls name none methods =>
      (Carries.introduce hg name).bind
        (.inScope ((Carries.modifyInnermost _).bind (FunDecl.resolveEach_carries hg _ methods)))
  | .cls name (some superclass) methods =>
      (Carries.introduce hg name).bind ((Carries.inherit hg name superclass).bind
        (.inScope ((Carries.modifyInnermost _).bind
          (.inScope ((Carries.modifyInnermost _).bind (FunDecl.resolveEach_carries hg _ methods))))))

theorem Stmt.resolveAll_carries (hg : ∀ t, (g t).text = t.text) (ctx : Context) : ∀ body : List (Stmt NodeId),
    Carries f g (Stmt.resolveAll ctx body) (Stmt.resolveAll ctx (Stmt.mapAll f g body))
  | [] => .pure
  | s :: body => (Stmt.resolve_carries hg ctx s).bind (Stmt.resolveAll_carries hg ctx body)

theorem FunDecl.resolve_carries (hg : ∀ t, (g t).text = t.text) (ctx : Context) : ∀ decl : FunDecl NodeId,
    Carries f g (decl.resolve ctx) ((decl.map f g).resolve ctx)
  | .mk _ params body =>
      .inScope ((Carries.introduceAll hg params).bind (Stmt.resolveAll_carries hg _ body))

theorem FunDecl.resolveEach_carries (hg : ∀ t, (g t).text = t.text) (ctx : Context) :
    ∀ decls : List (FunDecl NodeId),
      Carries f g (FunDecl.resolveEach ctx decls) (FunDecl.resolveEach ctx (FunDecl.mapEach f g decls))
  | [] => .pure
  | decl :: decls => (FunDecl.resolve_carries hg ctx decl).bind (FunDecl.resolveEach_carries hg ctx decls)

end

/-- A program with other labels, and with other lexemes of the same texts, resolves to the same distances, or
to the same faults. -/
theorem resolveProgram_map (hg : ∀ t, (g t).text = t.text) (body : List (Stmt NodeId)) :
    resolveProgram (Stmt.mapAll f g body) = match resolveProgram body with
      | .ok ds => .ok (ds.relabel f)
      | .error faults => .error (faults.map (ScopeError.map g)) :=
  (Stmt.resolveAll_carries hg .top body).outcome

/-- An expression that stands alone likewise. -/
theorem resolveExpression_map (hg : ∀ t, (g t).text = t.text) (e : Expr NodeId) :
    resolveExpression (e.map f g) = match resolveExpression e with
      | .ok ds => .ok (ds.relabel f)
      | .error faults => .error (faults.map (ScopeError.map g)) :=
  (Expr.resolve_carries hg .top e).outcome

end trees

end Lox
