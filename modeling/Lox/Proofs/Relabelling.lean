import Lox.Proofs.Shapes
import Lox.Proofs.Matching

/-! # Trees with other labels and lexemes

`Stmt.map f g` is a statement with its labels changed by `f` and its lexemes by `g`.  Two such changes of
one tree match, when the links allow what they do to each use of a name and to each lexeme at which a
fault may be reported (`Stmt.map_matches`). -/

namespace Lox

/-! ### Changing labels and lexemes -/

section map

variable {ι κ : Type} (f : ι → κ) (g : Lexeme → Lexeme)

/-- A reference with another label and lexeme. -/
def Reference.map (r : Reference ι) : Reference κ := ⟨f r.id, g r.name⟩

mutual

/-- An expression with other labels and lexemes. -/
def Expr.map : Expr ι → Expr κ
  | .literal i value => .literal (f i) value
  | .group i inner => .group (f i) inner.map
  | .unary i op sign operand => .unary (f i) op (g sign) operand.map
  | .binary i op sign left right => .binary (f i) op (g sign) left.map right.map
  | .logical i op sign left right => .logical (f i) op (g sign) left.map right.map
  | .name ref => .name (ref.map f g)
  | .assign target value => .assign (target.map f g) value.map
  | .call i callee closing arguments =>
    .call (f i) callee.map (g closing) (Expr.mapEach arguments)
  | .get i object property => .get (f i) object.map (g property)
  | .set i object property value => .set (f i) object.map (g property) value.map
  | .this ref => .this (ref.map f g)
  | .super ref method => .super (ref.map f g) (g method)

/-- Expressions with other labels and lexemes. -/
def Expr.mapEach : List (Expr ι) → List (Expr κ)
  | [] => []
  | e :: rest => e.map :: Expr.mapEach rest

end

mutual

/-- A statement with other labels and lexemes. -/
def Stmt.map : Stmt ι → Stmt κ
  | .expression value => .expression (value.map f g)
  | .print value => .print (value.map f g)
  | .var name initializer => .var (g name) (initializer.map (·.map f g))
  | .block body => .block (Stmt.mapAll body)
  | .ite condition yes none => .ite (condition.map f g) yes.map none
  | .ite condition yes (some no) => .ite (condition.map f g) yes.map (some no.map)
  | .while condition body => .while (condition.map f g) body.map
  | .function decl => .function decl.map
  | .ret keyword value => .ret (g keyword) (value.map (·.map f g))
  | .cls name superclass methods =>
    .cls (g name) (superclass.map (·.map f g)) (FunDecl.mapEach methods)

/-- Statements with other labels and lexemes. -/
def Stmt.mapAll : List (Stmt ι) → List (Stmt κ)
  | [] => []
  | s :: rest => s.map :: Stmt.mapAll rest

/-- A function with other labels and lexemes. -/
def FunDecl.map : FunDecl ι → FunDecl κ
  | .mk name params body => .mk (g name) (params.map g) (Stmt.mapAll body)

/-- Functions with other labels and lexemes. -/
def FunDecl.mapEach : List (FunDecl ι) → List (FunDecl κ)
  | [] => []
  | decl :: rest => decl.map :: FunDecl.mapEach rest

end

theorem Expr.length_mapEach (es : List (Expr ι)) : (Expr.mapEach f g es).length = es.length := by
  induction es with
  | nil => rfl
  | cons e es ih => rw [Expr.mapEach, List.length_cons, ih, List.length_cons]

theorem Stmt.mapAll_eq (body : List (Stmt ι)) : Stmt.mapAll f g body = body.map (Stmt.map f g) := by
  induction body with
  | nil => rfl
  | cons s body ih => rw [Stmt.mapAll, ih, List.map_cons]

theorem FunDecl.name_map (decl : FunDecl ι) : (decl.map f g).name = g decl.name := by
  cases decl
  rfl

end map

/-! ### Changing nothing -/

section unchanged

variable {ι : Type}

@[simp] theorem reference_map_id (r : Reference ι) : r.map id id = r := rfl

mutual

@[simp] theorem Expr.map_id : ∀ e : Expr ι, e.map id id = e
  | .literal _ _ => rfl
  | .group _ inner => by rw [Expr.map, Expr.map_id inner, id]
  | .unary _ _ _ operand => by rw [Expr.map, Expr.map_id operand, id, id]
  | .binary _ _ _ left right => by rw [Expr.map, Expr.map_id left, Expr.map_id right, id, id]
  | .logical _ _ _ left right => by rw [Expr.map, Expr.map_id left, Expr.map_id right, id, id]
  | .name _ => rfl
  | .assign _ value => by rw [Expr.map, Expr.map_id value, reference_map_id]
  | .call _ callee _ arguments => by
      rw [Expr.map, Expr.map_id callee, Expr.mapEach_id arguments, id, id]
  | .get _ object _ => by rw [Expr.map, Expr.map_id object, id, id]
  | .set _ object _ value => by rw [Expr.map, Expr.map_id object, Expr.map_id value, id, id]
  | .this _ => rfl
  | .super _ _ => rfl

@[simp] theorem Expr.mapEach_id : ∀ es : List (Expr ι), Expr.mapEach id id es = es
  | [] => rfl
  | e :: es => by rw [Expr.mapEach, Expr.map_id e, Expr.mapEach_id es]

end

@[simp] theorem Expr.map?_id (e : Option (Expr ι)) : e.map (·.map id id) = e := by
  cases e <;> simp

mutual

@[simp] theorem Stmt.map_id : ∀ s : Stmt ι, s.map id id = s
  | .expression value => by rw [Stmt.map, Expr.map_id]
  | .print value => by rw [Stmt.map, Expr.map_id]
  | .var _ initializer => by rw [Stmt.map, Expr.map?_id, id]
  | .block body => by rw [Stmt.map, Stmt.mapAll_id body]
  | .ite condition yes none => by rw [Stmt.map, Expr.map_id, Stmt.map_id yes]
  | .ite condition yes (some no) => by rw [Stmt.map, Expr.map_id, Stmt.map_id yes, Stmt.map_id no]
  | .while condition body => by rw [Stmt.map, Expr.map_id, Stmt.map_id body]
  | .function decl => by rw [Stmt.map, FunDecl.map_id decl]
  | .ret _ value => by rw [Stmt.map, Expr.map?_id, id]
  | .cls _ none methods => by rw [Stmt.map, FunDecl.mapEach_id methods, id, Option.map_none]
  | .cls _ (some superclass) methods => by
      rw [Stmt.map, FunDecl.mapEach_id methods, id, Option.map_some, reference_map_id]

@[simp] theorem Stmt.mapAll_id : ∀ body : List (Stmt ι), Stmt.mapAll id id body = body
  | [] => rfl
  | s :: body => by rw [Stmt.mapAll, Stmt.map_id s, Stmt.mapAll_id body]

@[simp] theorem FunDecl.map_id : ∀ decl : FunDecl ι, decl.map id id = decl
  | .mk _ params body => by rw [FunDecl.map, Stmt.mapAll_id body, List.map_id, id]

@[simp] theorem FunDecl.mapEach_id : ∀ decls : List (FunDecl ι), FunDecl.mapEach id id decls = decls
  | [] => rfl
  | decl :: decls => by rw [FunDecl.mapEach, FunDecl.map_id decl, FunDecl.mapEach_id decls]

end

end unchanged

/-! ### Two changes one after the other -/

section composed

variable {ι κ μ : Type} (f : ι → κ) (f' : κ → μ) (g g' : Lexeme → Lexeme)

mutual

theorem Expr.map_map : ∀ e : Expr ι, (e.map f g).map f' g' = e.map (f' ∘ f) (g' ∘ g)
  | .literal _ _ => rfl
  | .group _ inner => by
      simp only [Expr.map, Expr.map_map inner, Function.comp_apply]
  | .unary _ _ _ operand => by
      simp only [Expr.map, Expr.map_map operand, Function.comp_apply]
  | .binary _ _ _ left right => by
      simp only [Expr.map, Expr.map_map left, Expr.map_map right, Function.comp_apply]
  | .logical _ _ _ left right => by
      simp only [Expr.map, Expr.map_map left, Expr.map_map right, Function.comp_apply]
  | .name _ => rfl
  | .assign _ value => by
      simp only [Expr.map, Expr.map_map value, Reference.map, Function.comp_apply]
  | .call _ callee _ arguments => by
      simp only [Expr.map, Expr.map_map callee, Expr.mapEach_mapEach arguments, Function.comp_apply]
  | .get _ object _ => by
      simp only [Expr.map, Expr.map_map object, Function.comp_apply]
  | .set _ object _ value => by
      simp only [Expr.map, Expr.map_map object, Expr.map_map value, Function.comp_apply]
  | .this _ => rfl
  | .super _ _ => rfl

theorem Expr.mapEach_mapEach : ∀ es : List (Expr ι),
    Expr.mapEach f' g' (Expr.mapEach f g es) = Expr.mapEach (f' ∘ f) (g' ∘ g) es
  | [] => rfl
  | e :: es => by
      simp only [Expr.mapEach, Expr.map_map e, Expr.mapEach_mapEach es]

end

theorem Expr.map?_map? (e : Option (Expr ι)) :
    (e.map (·.map f g)).map (·.map f' g') = e.map (·.map (f' ∘ f) (g' ∘ g)) := by
  cases e with
  | none => rfl
  | some e => exact congrArg some (Expr.map_map f f' g g' e)

mutual

theorem Stmt.map_map : ∀ s : Stmt ι, (s.map f g).map f' g' = s.map (f' ∘ f) (g' ∘ g)
  | .expression value => by simp only [Stmt.map, Expr.map_map]
  | .print value => by simp only [Stmt.map, Expr.map_map]
  | .var _ initializer => by simp only [Stmt.map, Expr.map?_map?, Function.comp_apply]
  | .block body => by simp only [Stmt.map, Stmt.mapAll_mapAll body]
  | .ite condition yes none => by simp only [Stmt.map, Expr.map_map, Stmt.map_map yes]
  | .ite condition yes (some no) => by
      simp only [Stmt.map, Expr.map_map, Stmt.map_map yes, Stmt.map_map no]
  | .while condition body => by simp only [Stmt.map, Expr.map_map, Stmt.map_map body]
  | .function decl => by simp only [Stmt.map, FunDecl.map_map decl]
  | .ret _ value => by simp only [Stmt.map, Expr.map?_map?, Function.comp_apply]
  | .cls _ superclass methods => by
      simp only [Stmt.map, FunDecl.mapEach_mapEach methods, Option.map_map, Function.comp_apply]
      rfl

theorem Stmt.mapAll_mapAll : ∀ body : List (Stmt ι),
    Stmt.mapAll f' g' (Stmt.mapAll f g body) = Stmt.mapAll (f' ∘ f) (g' ∘ g) body
  | [] => rfl
  | s :: body => by simp only [Stmt.mapAll, Stmt.map_map s, Stmt.mapAll_mapAll body]

theorem FunDecl.map_map : ∀ decl : FunDecl ι, (decl.map f g).map f' g' = decl.map (f' ∘ f) (g' ∘ g)
  | .mk _ params body => by
      simp only [FunDecl.map, Stmt.mapAll_mapAll body, List.map_map, Function.comp_apply]

theorem FunDecl.mapEach_mapEach : ∀ decls : List (FunDecl ι),
    FunDecl.mapEach f' g' (FunDecl.mapEach f g decls) = FunDecl.mapEach (f' ∘ f) (g' ∘ g) decls
  | [] => rfl
  | decl :: decls => by
      simp only [FunDecl.mapEach, FunDecl.map_map decl, FunDecl.mapEach_mapEach decls]

end

end composed

/-! ### Names that are declared for good -/

mutual

/-- The names of the functions and classes that a statement declares, and of their methods. -/
def Stmt.titles {ι : Type} : Stmt ι → List Lexeme
  | .block body => Stmt.titlesAll body
  | .ite _ yes none => yes.titles
  | .ite _ yes (some no) => yes.titles ++ no.titles
  | .while _ body => body.titles
  | .function decl => decl.titles
  | .cls name _ methods => name :: FunDecl.titlesEach methods
  | _ => []

/-- The names of functions, classes and methods in statements. -/
def Stmt.titlesAll {ι : Type} : List (Stmt ι) → List Lexeme
  | [] => []
  | s :: rest => s.titles ++ Stmt.titlesAll rest

/-- The name of a function, and those of functions, classes and methods in its body. -/
def FunDecl.titles {ι : Type} : FunDecl ι → List Lexeme
  | .mk name _ body => name :: Stmt.titlesAll body

/-- The names of functions, and those in their bodies. -/
def FunDecl.titlesEach {ι : Type} : List (FunDecl ι) → List Lexeme
  | [] => []
  | decl :: rest => decl.titles ++ FunDecl.titlesEach rest

end

/-! ### Levels of a place -/

section levels

variable (τ : List Lexeme → String → String)

/-- The level of an enclosure, when `τ` says what the names of a scope are in the second program. -/
def Enclosure.level : Enclosure → Level
  | names all before => ⟨.names (all.map Lexeme.text) (τ all), before.map Lexeme.text⟩
  | this => .this
  | super => .super

/-- The levels of a place. -/
def Surroundings.levels (around : Surroundings) : Levels := around.map (Enclosure.level τ)

/-- The names that statements at a place may declare: those of the scope around, which change as `τ` says,
or globals, which do not change. -/
def Surroundings.Room (g' : Lexeme → Lexeme) : Surroundings → List Lexeme → Prop
  | [], ts => ∀ t ∈ ts, (g' t).text = t.text
  | .names all _ :: _, ts => ∀ t ∈ ts, t ∈ all ∧ (g' t).text = τ all t.text
  | _, _ => False

end levels

/-! ### Two changes of one tree -/

section matching

variable {U : Links} {τ : List Lexeme → String → String} {g g' : Lexeme → Lexeme}

/-- The links allow what two changes do to a use of a name. -/
def UseMatch (U : Links) (τ : List Lexeme → String → String) (g g' : Lexeme → Lexeme) (u : Use) : Prop :=
  let Γ := u.around.levels τ
  let r := u.ref.map id g
  let r' := u.ref.map id g'
  match u.kind with
  | .read | .this => U.read Γ (u.initializing.map Lexeme.text) r r'
  | .write => U.write Γ (u.initializing.map Lexeme.text) r r'
  | .super => U.super Γ r r'

/-- The links allow what two changes do to a lexeme at which a fault may be reported. -/
structure MarkMatch (U : Links) (g g' : Lexeme → Lexeme) (m : Reference NodeId) : Prop where
  text : (g' m.name).text = (g m.name).text
  site : U.site m.id (g m.name).line m.id (g' m.name).line

variable {around : Surroundings} {own : Option Lexeme}

/-- The links allow what two changes do to an expression at a place. -/
structure PlacedMatch (U : Links) (τ : List Lexeme → String → String) (g g' : Lexeme → Lexeme)
    (around : Surroundings) (own : Option Lexeme) (refs : List (UseKind × Reference NodeId))
    (marks : List (Reference NodeId)) : Prop where
  uses : ∀ u ∈ usesAt around own refs, UseMatch U τ g g' u
  marks : ∀ m ∈ marks, MarkMatch U g g' m

theorem PlacedMatch.left {refs refs' : List (UseKind × Reference NodeId)}
    {marks marks' : List (Reference NodeId)}
    (h : PlacedMatch U τ g g' around own (refs ++ refs') (marks ++ marks')) :
    PlacedMatch U τ g g' around own refs marks where
  uses u hu := h.uses u (by rw [usesAt, List.map_append]; exact List.mem_append_left _ hu)
  marks m hm := h.marks m (List.mem_append_left _ hm)

theorem PlacedMatch.right {refs refs' : List (UseKind × Reference NodeId)}
    {marks marks' : List (Reference NodeId)}
    (h : PlacedMatch U τ g g' around own (refs ++ refs') (marks ++ marks')) :
    PlacedMatch U τ g g' around own refs' marks' where
  uses u hu := h.uses u (by rw [usesAt, List.map_append]; exact List.mem_append_right _ hu)
  marks m hm := h.marks m (List.mem_append_right _ hm)

theorem PlacedMatch.tail {refs : List (UseKind × Reference NodeId)} {m : Reference NodeId}
    {marks : List (Reference NodeId)} (h : PlacedMatch U τ g g' around own refs (m :: marks)) :
    PlacedMatch U τ g g' around own refs marks :=
  ⟨h.uses, fun m hm => h.marks m (List.mem_cons_of_mem _ hm)⟩

mutual

theorem Expr.map_matches : ∀ e : Expr NodeId, PlacedMatch U τ g g' around own e.references e.marks →
    MatchExpr U (around.levels τ) (own.map Lexeme.text) (e.map id g) (e.map id g')
  | .literal i v, _ => .literal i i v
  | .group i inner, h => .group i i (Expr.map_matches inner h)
  | .unary i op sign operand, h =>
      .unary op (h.marks _ List.mem_cons_self).site (Expr.map_matches operand h.tail)
  | .binary i op sign left right, h =>
      .binary op (h.marks _ List.mem_cons_self).site (Expr.map_matches left h.tail.left)
        (Expr.map_matches right h.tail.right)
  | .logical i op sign left right, h =>
      .logical i i op (g sign) (g' sign) (Expr.map_matches left h.left)
        (Expr.map_matches right h.right)
  | .name ref, h => .name (h.uses _ List.mem_cons_self)
  | .assign target value, h => by
      rw [Expr.references, Expr.marks, ← List.append_nil value.marks] at h
      exact .assign (h.right.uses _ List.mem_cons_self) (Expr.map_matches value h.left)
  | .call i callee closing arguments, h =>
      .call (h.marks _ List.mem_cons_self).site (Expr.map_matches callee h.tail.left)
        (Expr.mapEach_matches arguments h.tail.right)
  | .get i object property, h =>
      have hm := h.marks ⟨i, property⟩ List.mem_cons_self
      .get hm.text hm.site (Expr.map_matches object h.tail)
  | .set i object property value, h =>
      have hm := h.marks ⟨i, property⟩ List.mem_cons_self
      .set hm.text hm.site (Expr.map_matches object h.tail.right) (Expr.map_matches value h.tail.left)
  | .this ref, h => .this (h.uses _ List.mem_cons_self)
  | .super ref method, h =>
      have hm := h.marks ⟨ref.id, method⟩ List.mem_cons_self
      .super hm.text hm.site (h.uses _ List.mem_cons_self)

theorem Expr.mapEach_matches : ∀ es : List (Expr NodeId),
    PlacedMatch U τ g g' around own (Expr.referencesEach es) (Expr.marksEach es) →
    MatchEach U (around.levels τ) (own.map Lexeme.text) (Expr.mapEach id g es) (Expr.mapEach id g' es)
  | [], _ => .nil
  | e :: es, h => .cons (Expr.map_matches e h.left) (Expr.mapEach_matches es h.right)

end

/-- The names that a scope declares change as `τ` says, and stay different. -/
structure Twins (U : Links) (τ : List Lexeme → String → String) (g' : Lexeme → Lexeme)
    (names : List Lexeme) : Prop where
  twin : ∀ t ∈ names, (g' t).text = τ names t.text
  allows : U.Allows (names.map Lexeme.text) (τ names)

/-- The links allow what two changes do to statements: to their expressions, to the scopes they open, and
to the names of functions and classes. -/
structure TreeMatch (U : Links) (τ : List Lexeme → String → String) (g g' : Lexeme → Lexeme)
    (xs : List Placed) (scopes : List (List Lexeme)) (titles : List Lexeme) : Prop where
  exprs : ∀ x ∈ xs,
    PlacedMatch U τ g g' x.around x.initializing x.expr.references x.expr.marks
  scopes : ∀ names ∈ scopes, Twins U τ g' names
  titles : ∀ t ∈ titles, (g' t).text = t.text

namespace TreeMatch

variable {xs xs' : List Placed} {scopes scopes' : List (List Lexeme)} {titles titles' : List Lexeme}

theorem left (h : TreeMatch U τ g g' (xs ++ xs') (scopes ++ scopes') (titles ++ titles')) :
    TreeMatch U τ g g' xs scopes titles where
  exprs x hx := h.exprs x (List.mem_append_left _ hx)
  scopes names hn := h.scopes names (List.mem_append_left _ hn)
  titles t ht := h.titles t (List.mem_append_left _ ht)

theorem right (h : TreeMatch U τ g g' (xs ++ xs') (scopes ++ scopes') (titles ++ titles')) :
    TreeMatch U τ g g' xs' scopes' titles' where
  exprs x hx := h.exprs x (List.mem_append_right _ hx)
  scopes names hn := h.scopes names (List.mem_append_right _ hn)
  titles t ht := h.titles t (List.mem_append_right _ ht)

/-- The first expression. -/
theorem head {x : Placed} (h : TreeMatch U τ g g' (x :: xs) scopes titles) :
    MatchExpr U (x.around.levels τ) (x.initializing.map Lexeme.text) (x.expr.map id g)
      (x.expr.map id g') :=
  Expr.map_matches x.expr (h.exprs x List.mem_cons_self)

theorem tail {x : Placed} (h : TreeMatch U τ g g' (x :: xs) scopes titles) :
    TreeMatch U τ g g' xs scopes titles :=
  ⟨fun x hx => h.exprs x (List.mem_cons_of_mem _ hx), h.scopes, h.titles⟩

/-- An expression that may be absent. -/
theorem option {e : Option (Expr NodeId)}
    (h : TreeMatch U τ g g' (e.toList.map fun e => ⟨around, own, e⟩) scopes titles) :
    MatchExpr? U (around.levels τ) (own.map Lexeme.text) (e.map (·.map id g)) (e.map (·.map id g')) := by
  cases e with
  | none => exact .none
  | some e => exact .some h.head

end TreeMatch

namespace Surroundings

variable {ts : List Lexeme}

/-- Declaring a name at a place. -/
theorem Room.declare (hg : ∀ t, (g t).text = t.text) {t : Lexeme} (h : around.Room τ g' [t]) :
    (around.levels τ).Declare (g t).text (g' t).text ((around.declare t).levels τ) := by
  match around, h with
  | [], h =>
      rw [h t List.mem_cons_self, hg]
      exact .globals t.text
  | .names all before :: outer, h =>
      obtain ⟨hm, ht⟩ := h t List.mem_cons_self
      rw [ht, hg]
      exact .level (List.mem_map_of_mem hm)

theorem Room.sub (h : around.Room τ g' ts) {ts' : List Lexeme} (hs : ∀ t ∈ ts', t ∈ ts) :
    around.Room τ g' ts' := by
  match around, h with
  | [], h => exact fun t ht => h t (hs t ht)
  | .names _ _ :: _, h => exact fun t ht => h t (hs t ht)

theorem Room.declare? (h : around.Room τ g' ts) (t : Option Lexeme) :
    (around.declare? t).Room τ g' ts := by
  cases t with
  | none => exact h
  | some t =>
      match around, h with
      | [], h => exact h
      | .names _ _ :: _, h => exact h

end Surroundings

theorem Surroundings.pending_levels (hg : ∀ t, (g t).text = t.text) (around : Surroundings)
    (t : Lexeme) :
    (around.initializing t).map Lexeme.text = (around.levels τ).pending (g t).text := by
  cases around with
  | nil => rfl
  | cons e around => exact congrArg some (hg t).symm

/-- The scope of a block: its names have room in it. -/
theorem TreeMatch.scope {names : List Lexeme} {xs : List Placed} {scopes : List (List Lexeme)}
    {titles : List Lexeme} (h : TreeMatch U τ g g' xs (names :: scopes) titles) :
    Twins U τ g' names ∧ TreeMatch U τ g g' xs scopes titles :=
  ⟨h.scopes _ List.mem_cons_self, h.exprs, fun n hn => h.scopes n (List.mem_cons_of_mem _ hn), h.titles⟩

theorem TreeMatch.title {t : Lexeme} {xs : List Placed} {scopes : List (List Lexeme)}
    {titles : List Lexeme} (h : TreeMatch U τ g g' xs scopes (t :: titles)) :
    (g' t).text = t.text ∧ TreeMatch U τ g g' xs scopes titles :=
  ⟨h.titles _ List.mem_cons_self, h.exprs, h.scopes, fun t ht => h.titles t (List.mem_cons_of_mem _ ht)⟩

theorem Twins.room {names before ts : List Lexeme} (h : Twins U τ g' names) (hs : ∀ t ∈ ts, t ∈ names) :
    Surroundings.Room τ g' (.names names before :: around) ts :=
  fun t ht => ⟨hs t ht, h.twin t (hs t ht)⟩

variable (hg : ∀ t, (g t).text = t.text) (hd : ∀ d : FunDecl NodeId, U.decl (d.map id g) (d.map id g'))

include hg hd

set_option linter.unusedSectionVars false

mutual

/-- Two changes of a statement at a place match, when the links allow them. -/
theorem Stmt.map_matches : ∀ (s : Stmt NodeId) {b : Bool} {around : Surroundings}, s.Formed →
    (b = true ∨ s.ReturnFree) → around.Room τ g' s.declared?.toList →
    TreeMatch U τ g g' (s.expressions around) s.scopes s.titles →
    MatchStmt U b (around.levels τ) (s.map id g) (s.map id g') ((s.after around).levels τ)
  | .expression value, _, _, _, _, _, h => .expression h.head
  | .print value, _, _, _, _, _, h => .print h.head
  | .var name initializer, _, around, _, _, hr, h => by
      refine .var (hr.declare hg) ?_
      rw [← around.pending_levels hg name]
      exact h.option
  | .block body, _, around, hf, hb, _, h =>
      have hs := h.scope
      .block hs.1.allows (Stmt.mapAll_matches body hf hb (hs.1.room fun _ ht => ht) hs.2)
  | .ite condition yes none, _, around, ⟨_, hy, hn⟩, hb, hr, h => by
      have hm := Stmt.map_matches yes hy hb (hr.sub (by simp [hn])) h.tail
      rw [Stmt.after, hn] at hm
      exact .ite h.head hm
  | .ite condition yes (some no), b, around, ⟨_, ⟨hy, hny⟩, hn, hnn⟩, hb, hr, h => by
      have hy := Stmt.map_matches yes hy (hb.imp_right And.left) (hr.sub (by simp [hny])) h.tail.left
      have hn := Stmt.map_matches no hn (hb.imp_right And.right) (hr.sub (by simp [hnn])) h.tail.right
      rw [Stmt.after, hny] at hy
      rw [Stmt.after, hnn] at hn
      exact .iteElse h.head hy hn
  | .while condition body, _, around, ⟨_, hs, hn⟩, hb, hr, h => by
      have hm := Stmt.map_matches body hs hb (hr.sub (by simp [hn])) h.tail
      rw [Stmt.after, hn] at hm
      exact .while h.head hm
  | .function decl, _, around, hf, _, hr, h => by
      have hm := FunDecl.map_matches decl hf.2 h
      have hdecl := hr.declare hg
      rw [← FunDecl.name_map id g, ← FunDecl.name_map id g'] at hdecl
      exact .function hdecl hm
  | .ret keyword value, _, _, _, hb, _, h => by
      obtain rfl := hb.resolve_right id
      exact .ret (g keyword) (g' keyword) h.option
  | .cls name none methods, _, around, hf, _, hr, h => by
      obtain ⟨ht, h⟩ := h.title
      exact .base (ht.trans (hg name).symm) (hr.declare hg) (FunDecl.mapEach_matches methods hf.2.2 h)
  | .cls name (some superclass) methods, _, around, hf, _, hr, h => by
      obtain ⟨ht, h⟩ := h.title
      have hu := h.exprs _ List.mem_cons_self
      exact .derived (ht.trans (hg name).symm) (hr.declare hg) (hu.uses _ List.mem_cons_self)
        (FunDecl.mapEach_matches methods hf.2.2 h.tail)

/-- Two changes of statements in order match. -/
theorem Stmt.mapAll_matches : ∀ (body : List (Stmt NodeId)) {b : Bool} {around : Surroundings},
    Stmt.FormedAll body → (b = true ∨ Stmt.ReturnFreeAll body) →
    around.Room τ g' (Stmt.declarations body) →
    TreeMatch U τ g g' (Stmt.expressionsAll around body) (Stmt.scopesAll body) (Stmt.titlesAll body) →
    MatchStmts U b (around.levels τ) (Stmt.mapAll id g body) (Stmt.mapAll id g' body)
      ((Stmt.afterAll around body).levels τ)
  | [], _, _, _, _, _, _ => .nil _ _
  | s :: body, _, around, hf, hb, hr, h => by
      rw [Stmt.declarations_cons] at hr
      have hs := hr.sub fun t ht => List.mem_append_left _ ht
      have hrest := hr.sub fun t ht => List.mem_append_right _ ht
      exact .cons (Stmt.map_matches s hf.1 (hb.imp_right And.left) hs h.left)
        (Stmt.mapAll_matches body hf.2 (hb.imp_right And.right) (hrest.declare? _) h.right)

/-- Two changes of a function match. -/
theorem FunDecl.map_matches : ∀ (decl : FunDecl NodeId) {around : Surroundings}, decl.Formed →
    TreeMatch U τ g g' (decl.expressions around) decl.scopes decl.titles →
    MatchFun U (around.levels τ) (decl.map id g) (decl.map id g')
  | .mk name params body, around, hf, h => by
      obtain ⟨ht, h⟩ := h.title
      obtain ⟨hs, h⟩ := h.scope
      have hbody := Stmt.mapAll_matches body hf.2 (.inl rfl)
        (hs.room fun t ht => List.mem_append_right _ ht) h
      have hparams : params.map Lexeme.text = (params.map g).map Lexeme.text := by
        simp [Function.comp_def, hg]
      rw [Surroundings.levels, List.map_cons, Enclosure.level, hparams] at hbody
      refine .mk (ht.trans (hg name).symm) (hd (.mk name params body)) hs.allows ?_ ?_ hbody
      · intro p hp
        obtain ⟨q, hq, rfl⟩ := List.mem_map.mp hp
        rw [hg]
        exact List.mem_map_of_mem (List.mem_append_left _ hq)
      · rw [List.map_map, List.map_map]
        refine List.map_congr_left fun p hp => ?_
        simp only [Function.comp_apply, hg]
        exact hs.twin p (List.mem_append_left _ hp)

/-- Two changes of functions match one by one. -/
theorem FunDecl.mapEach_matches : ∀ (decls : List (FunDecl NodeId)) {around : Surroundings},
    FunDecl.FormedEach decls →
    TreeMatch U τ g g' (FunDecl.expressionsEach around decls) (FunDecl.scopesEach decls)
      (FunDecl.titlesEach decls) →
    MatchFuns U (around.levels τ) (FunDecl.mapEach id g decls) (FunDecl.mapEach id g' decls)
  | [], _, _, _ => .nil _
  | decl :: decls, _, hf, h =>
      .cons (FunDecl.map_matches decl hf.1 h.left) (FunDecl.mapEach_matches decls hf.2 h.right)

end

end matching

end Lox
