import Lox.Proofs.Analysis
import Lox.Proofs.ParserComplete
import Lox.Proofs.ResolverComplete

/-! # Carrying acceptance over

When the lexemes of a program change, or its nodes are numbered from somewhere else, the uses of names
stay at corresponding places (`usesOf_map`).  A change of lexemes that keeps every use of a name at its
distance leaves the program accepted, with the same distances (`Accepted.map`). -/

namespace Lox

/-! ### Numbering -/

section numbering

variable (g : Lexeme → Lexeme) (k : Nat)

mutual

/-- Numbering commutes with a change of lexemes, and from a later number on it gives later numbers. -/
theorem Expr.number_map : ∀ (e : PlainExpr) (next : NodeId),
    (e.map id g).number (next + k) = ((e.number next).1.map (· + k) g, (e.number next).2 + k)
  | .literal _ _, next => by
      simp only [Expr.map, Expr.number, Nat.add_right_comm]
  | .group _ inner, next => by
      have h := Expr.number_map inner (next + 1)
      simp only [Expr.map, Expr.number, Nat.add_right_comm next k 1, h]
  | .unary _ op sign operand, next => by
      have h := Expr.number_map operand (next + 1)
      simp only [Expr.map, Expr.number, Nat.add_right_comm next k 1, h]
  | .binary _ op sign left right, next => by
      have hl := Expr.number_map left (next + 1)
      have hr := Expr.number_map right (left.number (next + 1)).2
      simp only [Expr.map, Expr.number, Nat.add_right_comm next k 1, hl, hr]
  | .logical _ op sign left right, next => by
      have hl := Expr.number_map left (next + 1)
      have hr := Expr.number_map right (left.number (next + 1)).2
      simp only [Expr.map, Expr.number, Nat.add_right_comm next k 1, hl, hr]
  | .name ref, next => by
      simp only [Expr.map, Expr.number, Reference.map, Nat.add_right_comm]
  | .assign target value, next => by
      have h := Expr.number_map value (next + 1)
      simp only [Expr.map, Expr.number, Reference.map, Nat.add_right_comm next k 1, h]
  | .call _ callee closing arguments, next => by
      have hc := Expr.number_map callee (next + 1)
      have ha := Expr.numberEach_map arguments (callee.number (next + 1)).2
      simp only [Expr.map, Expr.number, Nat.add_right_comm next k 1, hc, ha]
  | .get _ object property, next => by
      have h := Expr.number_map object (next + 1)
      simp only [Expr.map, Expr.number, Nat.add_right_comm next k 1, h]
  | .set _ object property value, next => by
      have ho := Expr.number_map object (next + 1)
      have hv := Expr.number_map value (object.number (next + 1)).2
      simp only [Expr.map, Expr.number, Nat.add_right_comm next k 1, ho, hv]
  | .this ref, next => by
      simp only [Expr.map, Expr.number, Reference.map, Nat.add_right_comm]
  | .super ref method, next => by
      simp only [Expr.map, Expr.number, Reference.map, Nat.add_right_comm]

theorem Expr.numberEach_map : ∀ (es : List PlainExpr) (next : NodeId),
    Expr.numberEach (next + k) (Expr.mapEach id g es) =
      (Expr.mapEach (· + k) g (Expr.numberEach next es).1, (Expr.numberEach next es).2 + k)
  | [], _ => rfl
  | e :: es, next => by
      have he := Expr.number_map e next
      have hes := Expr.numberEach_map es (e.number next).2
      simp only [Expr.mapEach, Expr.numberEach, he, hes]

end

theorem Expr.number?_map (e : Option PlainExpr) (next : NodeId) :
    Expr.number? (next + k) (e.map (·.map id g)) =
      ((Expr.number? next e).1.map (·.map (· + k) g), (Expr.number? next e).2 + k) := by
  cases e with
  | none => rfl
  | some e => simp only [Option.map_some, Expr.number?, Expr.number_map]

mutual

theorem Stmt.number_map : ∀ (s : PlainStmt) (next : NodeId),
    (s.map id g).number (next + k) = ((s.number next).1.map (· + k) g, (s.number next).2 + k)
  | .expression value, next => by
      simp only [Stmt.map, Stmt.number, Expr.number_map]
  | .print value, next => by
      simp only [Stmt.map, Stmt.number, Expr.number_map]
  | .var name initializer, next => by
      simp only [Stmt.map, Stmt.number, Expr.number?_map]
  | .block body, next => by
      simp only [Stmt.map, Stmt.number, Stmt.numberAll_map body next]
  | .ite condition yes none, next => by
      have hy := Stmt.number_map yes (condition.number next).2
      simp only [Stmt.map, Stmt.number, Expr.number_map, hy]
  | .ite condition yes (some no), next => by
      have hy := Stmt.number_map yes (condition.number next).2
      have hn := Stmt.number_map no (yes.number (condition.number next).2).2
      simp only [Stmt.map, Stmt.number, Expr.number_map, hy, hn]
  | .while condition body, next => by
      have hb := Stmt.number_map body (condition.number next).2
      simp only [Stmt.map, Stmt.number, Expr.number_map, hb]
  | .function decl, next => by
      simp only [Stmt.map, Stmt.number, FunDecl.number_map decl next]
  | .ret keyword value, next => by
      simp only [Stmt.map, Stmt.number, Expr.number?_map]
  | .cls name none methods, next => by
      simp only [Stmt.map, Stmt.number, Option.map_none, Reference.number?,
        FunDecl.numberEach_map methods next]
  | .cls name (some superclass) methods, next => by
      have hm := FunDecl.numberEach_map methods (next + 1)
      simp only [Stmt.map, Stmt.number, Option.map_some, Reference.number?, Reference.map,
        Nat.add_right_comm next k 1, hm]

theorem Stmt.numberAll_map : ∀ (body : List PlainStmt) (next : NodeId),
    Stmt.numberAll (next + k) (Stmt.mapAll id g body) =
      (Stmt.mapAll (· + k) g (Stmt.numberAll next body).1, (Stmt.numberAll next body).2 + k)
  | [], _ => rfl
  | s :: body, next => by
      have hs := Stmt.number_map s next
      have hb := Stmt.numberAll_map body (s.number next).2
      simp only [Stmt.mapAll, Stmt.numberAll, hs, hb]

theorem FunDecl.number_map : ∀ (decl : FunDecl Unit) (next : NodeId),
    (decl.map id g).number (next + k) = ((decl.number next).1.map (· + k) g, (decl.number next).2 + k)
  | .mk name params body, next => by
      simp only [FunDecl.map, FunDecl.number, Stmt.numberAll_map body next]

theorem FunDecl.numberEach_map : ∀ (decls : List (FunDecl Unit)) (next : NodeId),
    FunDecl.numberEach (next + k) (FunDecl.mapEach id g decls) =
      (FunDecl.mapEach (· + k) g (FunDecl.numberEach next decls).1, (FunDecl.numberEach next decls).2 + k)
  | [], _ => rfl
  | decl :: decls, next => by
      have hd := FunDecl.number_map decl next
      have hds := FunDecl.numberEach_map decls (decl.number next).2
      simp only [FunDecl.mapEach, FunDecl.numberEach, hd, hds]

end

end numbering

theorem Stmt.numberAll_append (body body' : List PlainStmt) (next : NodeId) :
    Stmt.numberAll next (body ++ body') =
      ((Stmt.numberAll next body).1 ++ (Stmt.numberAll (Stmt.numberAll next body).2 body').1,
        (Stmt.numberAll (Stmt.numberAll next body).2 body').2) := by
  induction body generalizing next with
  | nil => rfl
  | cons s body ih => simp only [List.cons_append, Stmt.numberAll, ih]

/-! ### Places -/

section places

variable (f : NodeId → NodeId) (g : Lexeme → Lexeme)

/-- A scope with other lexemes. -/
def Enclosure.map : Enclosure → Enclosure
  | names all before => names (all.map g) (before.map g)
  | this => this
  | super => super

/-- Surroundings with other lexemes. -/
def Surroundings.mapNames (around : Surroundings) : Surroundings := around.map (Enclosure.map g)

/-- A use of a name with another label and other lexemes. -/
def Use.map (u : Use) : Use :=
  ⟨u.kind, u.ref.map f g, u.around.mapNames g, u.initializing.map g⟩

/-- An expression at its place with other labels and lexemes. -/
def Placed.map (x : Placed) : Placed :=
  ⟨x.around.mapNames g, x.initializing.map g, x.expr.map f g⟩

namespace Surroundings

theorem mapNames_declare (around : Surroundings) (t : Lexeme) :
    (around.declare t).mapNames g = (around.mapNames g).declare (g t) := by
  match around with
  | [] => rfl
  | .names _ _ :: _ => rfl
  | .this :: _ => rfl
  | .super :: _ => rfl

theorem mapNames_declare? (around : Surroundings) (t : Option Lexeme) :
    (around.declare? t).mapNames g = (around.mapNames g).declare? (t.map g) := by
  cases t with
  | none => rfl
  | some t => exact around.mapNames_declare g t

theorem mapNames_initializing (around : Surroundings) (t : Lexeme) :
    (around.initializing t).map g = (around.mapNames g).initializing (g t) := by
  cases around <;> rfl

end Surroundings

theorem Placed.uses_map (x : Placed) : (x.map f g).uses = x.uses.map (Use.map f g) := by
  unfold Placed.uses usesAt Placed.map
  dsimp only
  rw [Expr.references_map, List.map_map, List.map_map]
  rfl

theorem Stmt.declarations_map (body : List (Stmt NodeId)) :
    Stmt.declarations (Stmt.mapAll f g body) = (Stmt.declarations body).map g := by
  induction body with
  | nil => rfl
  | cons s body ih =>
      rw [Stmt.mapAll, Stmt.declarations_cons, Stmt.declarations_cons, ih, Stmt.declared?_map,
        List.map_append]
      cases s.declared? <;> rfl

theorem Stmt.after_map (s : Stmt NodeId) (around : Surroundings) :
    (s.map f g).after (around.mapNames g) = (s.after around).mapNames g := by
  rw [Stmt.after, Stmt.after, Stmt.declared?_map, Surroundings.mapNames_declare?]

mutual

/-- The expressions of a statement with other labels and lexemes stand at the corresponding places. -/
theorem Stmt.expressions_map : ∀ (s : Stmt NodeId) (around : Surroundings),
    (s.map f g).expressions (around.mapNames g) = (s.expressions around).map (Placed.map f g)
  | .expression _, _ => rfl
  | .print _, _ => rfl
  | .var name initializer, around => by
      cases initializer with
      | none => rfl
      | some e =>
          simp only [Stmt.map, Stmt.expressions, Option.map_some, Option.toList_some, List.map_cons,
            List.map_nil, Placed.map, Surroundings.mapNames_initializing]
  | .block body, around => by
      rw [Stmt.map, Stmt.expressions, Stmt.expressions, Stmt.declarations_map]
      exact Stmt.expressionsAll_map body (.names (Stmt.declarations body) [] :: around)
  | .ite condition yes none, around => by
      rw [Stmt.map, Stmt.expressions, Stmt.expressions, List.map_cons, Stmt.expressions_map yes]
      rfl
  | .ite condition yes (some no), around => by
      rw [Stmt.map, Stmt.expressions, Stmt.expressions, List.map_cons, List.map_append,
        Stmt.expressions_map yes, Stmt.expressions_map no]
      rfl
  | .while condition body, around => by
      rw [Stmt.map, Stmt.expressions, Stmt.expressions, List.map_cons, Stmt.expressions_map body]
      rfl
  | .function decl, around => by
      rw [Stmt.map, Stmt.expressions, Stmt.expressions, FunDecl.name_map,
        ← Surroundings.mapNames_declare]
      exact FunDecl.expressions_map decl _
  | .ret _ value, around => by
      cases value <;> rfl
  | .cls name none methods, around => by
      rw [Stmt.map, Option.map_none, Stmt.expressions, Stmt.expressions,
        ← Surroundings.mapNames_declare]
      exact FunDecl.expressionsEach_map methods (.this :: around.declare name)
  | .cls name (some superclass) methods, around => by
      rw [Stmt.map, Option.map_some, Stmt.expressions, Stmt.expressions,
        ← Surroundings.mapNames_declare, List.map_cons]
      exact congrArg (_ :: ·)
        (FunDecl.expressionsEach_map methods (.this :: .super :: around.declare name))

theorem Stmt.expressionsAll_map : ∀ (body : List (Stmt NodeId)) (around : Surroundings),
    Stmt.expressionsAll (around.mapNames g) (Stmt.mapAll f g body) =
      (Stmt.expressionsAll around body).map (Placed.map f g)
  | [], _ => rfl
  | s :: body, around => by
      rw [Stmt.mapAll, Stmt.expressionsAll, Stmt.expressionsAll, List.map_append,
        Stmt.expressions_map s, Stmt.after_map, Stmt.expressionsAll_map body]

theorem FunDecl.expressions_map : ∀ (decl : FunDecl NodeId) (around : Surroundings),
    (decl.map f g).expressions (around.mapNames g) = (decl.expressions around).map (Placed.map f g)
  | .mk name params body, around => by
      rw [FunDecl.map, FunDecl.expressions, FunDecl.expressions, Stmt.declarations_map,
        ← List.map_append]
      exact Stmt.expressionsAll_map body
        (.names (params ++ Stmt.declarations body) params :: around)

theorem FunDecl.expressionsEach_map : ∀ (decls : List (FunDecl NodeId)) (around : Surroundings),
    FunDecl.expressionsEach (around.mapNames g) (FunDecl.mapEach f g decls) =
      (FunDecl.expressionsEach around decls).map (Placed.map f g)
  | [], _ => rfl
  | decl :: decls, around => by
      rw [FunDecl.mapEach, FunDecl.expressionsEach, FunDecl.expressionsEach, List.map_append,
        FunDecl.expressions_map decl, FunDecl.expressionsEach_map decls]

end

/-- The uses of names in a program with other labels and lexemes stand at the corresponding places. -/
theorem usesOf_map (body : List (Stmt NodeId)) :
    usesOf (Stmt.mapAll f g body) = (usesOf body).map (Use.map f g) := by
  rw [usesOf, usesOf, show ([] : Surroundings) = Surroundings.mapNames g [] from rfl,
    Stmt.expressionsAll_map, List.flatMap_map, List.map_flatMap]
  exact List.flatMap_congr fun x _ => Placed.uses_map f g x

end places

/-! ### Rules -/

section rules

variable (f : NodeId → NodeId) (g : Lexeme → Lexeme)

mutual

theorem Stmt.returnFree_map : ∀ s : Stmt NodeId, (s.map f g).ReturnFree ↔ s.ReturnFree
  | .expression _ => .rfl
  | .print _ => .rfl
  | .var _ _ => .rfl
  | .block body => Stmt.returnFreeAll_map body
  | .ite _ yes none => Stmt.returnFree_map yes
  | .ite _ yes (some no) => and_congr (Stmt.returnFree_map yes) (Stmt.returnFree_map no)
  | .while _ body => Stmt.returnFree_map body
  | .function _ => .rfl
  | .ret _ _ => .rfl
  | .cls _ _ _ => .rfl

theorem Stmt.returnFreeAll_map : ∀ body : List (Stmt NodeId),
    Stmt.ReturnFreeAll (Stmt.mapAll f g body) ↔ Stmt.ReturnFreeAll body
  | [] => .rfl
  | s :: body => and_congr (Stmt.returnFree_map s) (Stmt.returnFreeAll_map body)

end

mutual

theorem Stmt.scopes_map : ∀ s : Stmt NodeId, (s.map f g).scopes = s.scopes.map (List.map g)
  | .expression _ => rfl
  | .print _ => rfl
  | .var _ _ => rfl
  | .block body => by
      rw [Stmt.map, Stmt.scopes, Stmt.scopes, Stmt.declarations_map, Stmt.scopesAll_map body,
        List.map_cons]
  | .ite _ yes none => Stmt.scopes_map yes
  | .ite _ yes (some no) => by
      rw [Stmt.map, Stmt.scopes, Stmt.scopes, Stmt.scopes_map yes, Stmt.scopes_map no, List.map_append]
  | .while _ body => Stmt.scopes_map body
  | .function decl => FunDecl.scopes_map decl
  | .ret _ _ => rfl
  | .cls _ _ methods => FunDecl.scopesEach_map methods

theorem Stmt.scopesAll_map : ∀ body : List (Stmt NodeId),
    Stmt.scopesAll (Stmt.mapAll f g body) = (Stmt.scopesAll body).map (List.map g)
  | [] => rfl
  | s :: body => by
      rw [Stmt.mapAll, Stmt.scopesAll, Stmt.scopesAll, Stmt.scopes_map s, Stmt.scopesAll_map body,
        List.map_append]

theorem FunDecl.scopes_map : ∀ decl : FunDecl NodeId,
    (decl.map f g).scopes = decl.scopes.map (List.map g)
  | .mk _ params body => by
      rw [FunDecl.map, FunDecl.scopes, FunDecl.scopes, Stmt.declarations_map, Stmt.scopesAll_map body,
        List.map_cons, List.map_append]

theorem FunDecl.scopesEach_map : ∀ decls : List (FunDecl NodeId),
    FunDecl.scopesEach (FunDecl.mapEach f g decls) = (FunDecl.scopesEach decls).map (List.map g)
  | [] => rfl
  | decl :: decls => by
      rw [FunDecl.mapEach, FunDecl.scopesEach, FunDecl.scopesEach, FunDecl.scopes_map decl,
        FunDecl.scopesEach_map decls, List.map_append]

end

mutual

theorem Stmt.heirs_map : ∀ s : Stmt NodeId, (s.map f g).heirs = s.heirs.map (Prod.map g g)
  | .expression _ => rfl
  | .print _ => rfl
  | .var _ _ => rfl
  | .block body => Stmt.heirsAll_map body
  | .ite _ yes none => Stmt.heirs_map yes
  | .ite _ yes (some no) => by
      rw [Stmt.map, Stmt.heirs, Stmt.heirs, Stmt.heirs_map yes, Stmt.heirs_map no, List.map_append]
  | .while _ body => Stmt.heirs_map body
  | .function decl => FunDecl.heirs_map decl
  | .ret _ _ => rfl
  | .cls _ none methods => FunDecl.heirsEach_map methods
  | .cls _ (some superclass) methods => congrArg (_ :: ·) (FunDecl.heirsEach_map methods)

theorem Stmt.heirsAll_map : ∀ body : List (Stmt NodeId),
    Stmt.heirsAll (Stmt.mapAll f g body) = (Stmt.heirsAll body).map (Prod.map g g)
  | [] => rfl
  | s :: body => by
      rw [Stmt.mapAll, Stmt.heirsAll, Stmt.heirsAll, Stmt.heirs_map s, Stmt.heirsAll_map body,
        List.map_append]

theorem FunDecl.heirs_map : ∀ decl : FunDecl NodeId, (decl.map f g).heirs = decl.heirs.map (Prod.map g g)
  | .mk _ _ body => Stmt.heirsAll_map body

theorem FunDecl.heirsEach_map : ∀ decls : List (FunDecl NodeId),
    FunDecl.heirsEach (FunDecl.mapEach f g decls) = (FunDecl.heirsEach decls).map (Prod.map g g)
  | [] => rfl
  | decl :: decls => by
      rw [FunDecl.mapEach, FunDecl.heirsEach, FunDecl.heirsEach, FunDecl.heirs_map decl,
        FunDecl.heirsEach_map decls, List.map_append]

end

mutual

theorem Stmt.titles_map : ∀ s : Stmt NodeId, (s.map f g).titles = s.titles.map g
  | .expression _ => rfl
  | .print _ => rfl
  | .var _ _ => rfl
  | .block body => Stmt.titlesAll_map body
  | .ite _ yes none => Stmt.titles_map yes
  | .ite _ yes (some no) => by
      rw [Stmt.map, Stmt.titles, Stmt.titles, Stmt.titles_map yes, Stmt.titles_map no, List.map_append]
  | .while _ body => Stmt.titles_map body
  | .function decl => FunDecl.titles_map decl
  | .ret _ _ => rfl
  | .cls name _ methods => congrArg (g name :: ·) (FunDecl.titlesEach_map methods)

theorem Stmt.titlesAll_map : ∀ body : List (Stmt NodeId),
    Stmt.titlesAll (Stmt.mapAll f g body) = (Stmt.titlesAll body).map g
  | [] => rfl
  | s :: body => by
      rw [Stmt.mapAll, Stmt.titlesAll, Stmt.titlesAll, Stmt.titles_map s, Stmt.titlesAll_map body,
        List.map_append]

theorem FunDecl.titles_map : ∀ decl : FunDecl NodeId, (decl.map f g).titles = decl.titles.map g
  | .mk name _ body => congrArg (g name :: ·) (Stmt.titlesAll_map body)

theorem FunDecl.titlesEach_map : ∀ decls : List (FunDecl NodeId),
    FunDecl.titlesEach (FunDecl.mapEach f g decls) = (FunDecl.titlesEach decls).map g
  | [] => rfl
  | decl :: decls => by
      rw [FunDecl.mapEach, FunDecl.titlesEach, FunDecl.titlesEach, FunDecl.titles_map decl,
        FunDecl.titlesEach_map decls, List.map_append]

end

theorem Surroundings.inClass_mapNames (around : Surroundings) :
    (around.mapNames g).inClass = around.inClass := by
  induction around with
  | nil => rfl
  | cons e around ih =>
      match e, around, ih with
      | .names _ _, _, ih => exact ih
      | .this, [], _ => rfl
      | .this, .names _ _ :: _, _ => rfl
      | .this, .this :: _, _ => rfl
      | .this, .super :: _, _ => rfl
      | .super, _, _ => rfl

end rules

/-! ### Accepted programs -/

/-- Distances under other labels. -/
def Distances.relabel (f : NodeId → NodeId) (ds : Distances) : Distances := ds.map fun p => (f p.1, p.2)

/-- A change of lexemes keeps a use of a name at its distance. -/
structure Use.Kept (g : Lexeme → Lexeme) (u : Use) : Prop where
  own : (u.map id g).isOwn = u.isOwn
  distance : (u.map id g).distance? = u.distance?

/-- A change of lexemes that respects a program: reserved words stay what they are, uses of names keep their
distances, the names of a scope stay different, and no class comes to inherit from itself. -/
structure Respects (g : Lexeme → Lexeme) (body : List (Stmt NodeId)) : Prop where
  words : KeepsWords g
  kept : ∀ u ∈ usesOf body, u.Kept g
  distinct : ∀ names ∈ Stmt.scopesAll body, Distinct (names.map g)
  acyclic : ∀ p ∈ Stmt.heirsAll body, (g p.2).text ≠ (g p.1).text

theorem distancesOf_map {f : NodeId → NodeId} {g : Lexeme → Lexeme} {us : List Use}
    (h : ∀ u ∈ us, u.Kept g) : distancesOf (us.map (Use.map f g)) = (distancesOf us).relabel f := by
  unfold distancesOf
  rw [Distances.relabel, List.map_reverse, List.filterMap_map, List.map_filterMap]
  refine congrArg List.reverse (List.filterMap_congr fun u hu => ?_)
  have hd : (u.map f g).distance? = u.distance? := (h u hu).distance
  simp only [Function.comp_apply, Use.entry?, hd, Option.map_map]
  rfl

theorem Use.allowed_map {g : Lexeme → Lexeme} {u : Use} (hu : u.Kept g) (f : NodeId → NodeId) :
    (u.map f g).Allowed ↔ u.Allowed := by
  have hown : (u.map f g).isOwn = u.isOwn := hu.own
  have hclass : (u.map f g).around.inClass = u.around.inClass := Surroundings.inClass_mapNames g u.around
  unfold Use.Allowed
  rw [hown, hclass]
  rfl

/-- A change of lexemes that respects an accepted program leaves it accepted. -/
theorem Accepted.map {body : List (Stmt NodeId)} {ds : Distances} (h : Accepted body ds)
    {g : Lexeme → Lexeme} (hg : Respects g body) (f : NodeId → NodeId) :
    Accepted (Stmt.mapAll f g body) (ds.relabel f) where
  formed := (Stmt.formedAll_map f hg.words body).mpr h.formed
  distances := by rw [usesOf_map, distancesOf_map hg.kept, h.distances]
  allowed := by
    rw [usesOf_map, List.forall_mem_map]
    exact fun u hu => (Use.allowed_map (hg.kept u hu) f).mpr (h.allowed u hu)
  returns := (Stmt.returnFreeAll_map f g body).mpr h.returns
  neat := {
    distinct := by
      rw [Stmt.scopesAll_map, List.forall_mem_map]
      exact hg.distinct
    acyclic := by
      rw [Stmt.heirsAll_map, Acyclic, List.forall_mem_map]
      exact hg.acyclic }

/-! ### Changes that keep all texts -/

section texts

variable {g : Lexeme → Lexeme} (hg : ∀ t, (g t).text = t.text)

include hg

theorem Enclosure.binds_map (e : Enclosure) (n : String) : (e.map g).binds n = e.binds n := by
  cases e with
  | names all before =>
      simp only [Enclosure.map, Enclosure.binds, List.any_map, Function.comp_def, hg]
  | this => rfl
  | super => rfl

theorem Use.kept_of_text (u : Use) : u.Kept g := by
  have ho : (u.map id g).isOwn = u.isOwn := by
    simp only [Use.isOwn, Use.map, Reference.map, Option.any_map, hg]
  refine ⟨ho, ?_⟩
  have hd (n : String) : Surroundings.distance? (u.around.mapNames g) n = u.around.distance? n := by
    simp only [Surroundings.distance?, Surroundings.mapNames, List.findIdx?_map, Function.comp_def,
      Enclosure.binds_map hg]
  unfold Use.distance?
  rw [ho]
  simp only [Use.map, Reference.map, hg, hd]

theorem distinct_map (names : List Lexeme) : Distinct (names.map g) ↔ Distinct names := by
  have hc : Lexeme.text ∘ g = Lexeme.text := funext hg
  rw [Distinct, Distinct, List.map_map, hc]

/-- A change that keeps all texts respects every accepted program. -/
theorem Respects.of_text {body : List (Stmt NodeId)} {ds : Distances} (h : Accepted body ds) :
    Respects g body where
  words := .of_text hg
  kept u _ := u.kept_of_text hg
  distinct names hn := (distinct_map hg names).mpr (h.neat.distinct names hn)
  acyclic p hp := by
    rw [hg, hg]
    exact h.neat.acyclic p hp

/-- A program that is accepted after a change that keeps all texts was accepted before it. -/
theorem Accepted.of_map {body : List (Stmt NodeId)} {f : NodeId → NodeId} {ds : Distances}
    (h : Accepted (Stmt.mapAll f g body) ds) : Accepted body (distancesOf (usesOf body)) where
  formed := (Stmt.formedAll_map f (.of_text hg) body).mp h.formed
  distances := rfl
  allowed u hu := by
    have hallowed := h.allowed
    rw [usesOf_map, List.forall_mem_map] at hallowed
    exact (Use.allowed_map (u.kept_of_text hg) f).mp (hallowed u hu)
  returns := (Stmt.returnFreeAll_map f g body).mp h.returns
  neat := {
    distinct := by
      have hdistinct := h.neat.distinct
      rw [Stmt.scopesAll_map, List.forall_mem_map] at hdistinct
      exact fun names hn => (distinct_map hg names).mp (hdistinct names hn)
    acyclic := by
      have hacyclic := h.neat.acyclic
      rw [Stmt.heirsAll_map, Acyclic, List.forall_mem_map] at hacyclic
      intro p hp
      have hne := hacyclic p hp
      rwa [Prod.map_fst, Prod.map_snd, hg, hg] at hne }

end texts

/-! ### Accepted texts -/

/-- A text that is read as an accepted program is accepted. -/
theorem ReadsAs.analyze {source : String} {body : List PlainStmt} (h : ReadsAs source body)
    {next last : NodeId} {p : Program} (hn : Stmt.numberAll next body = (p.statements, last))
    (ha : Accepted p.statements p.distances) : analyze next source = .ok (p, last) := by
  unfold Lox.analyze
  dsimp only
  rw [h.parsed]
  dsimp only
  rw [hn]
  dsimp only
  rw [resolveProgram_complete ha, h.clean]
  rfl

/-- A text of a program that resolution accepts; the distances are those of the program numbered from
zero. -/
structure Analyzable (source : String) (body : List PlainStmt) (ds : Distances) : Prop where
  reads : ReadsAs source body
  accepted : Accepted (Stmt.numberAll 0 body).1 ds

theorem Stmt.numberAll_from (body : List PlainStmt) (next : NodeId) :
    Stmt.numberAll next body = (Stmt.mapAll (· + next) id (Stmt.numberAll 0 body).1,
      (Stmt.numberAll 0 body).2 + next) := by
  have h := Stmt.numberAll_map id next body 0
  rwa [Stmt.mapAll_id, Nat.zero_add] at h

/-- Such a text is accepted from every number on. -/
theorem Analyzable.analyze {source : String} {body : List PlainStmt} {ds : Distances}
    (h : Analyzable source body ds) (next : NodeId) :
    analyze next source = .ok (⟨(Stmt.numberAll next body).1, ds.relabel (· + next)⟩,
      (Stmt.numberAll next body).2) := by
  have hacc : Accepted (Stmt.numberAll next body).1 (ds.relabel (· + next)) := by
    have hid : ∀ t : Lexeme, (id t).text = t.text := fun _ => rfl
    rw [Stmt.numberAll_from]
    exact h.accepted.map (.of_text hid h.accepted) _
  exact h.reads.analyze rfl hacc

/-- Only such texts are accepted. -/
theorem Analyzable.of_analyze {source : String} {next last : NodeId} {p : Program}
    (h : Lox.analyze next source = .ok (p, last)) : ∃ body ds, Analyzable source body ds := by
  obtain ⟨body, hreads, hnum, hacc⟩ := analyze_ok h
  have hback : Stmt.mapAll (· - next) id p.statements = (Stmt.numberAll 0 body).1 := by
    have hp : p.statements = Stmt.mapAll (· + next) id (Stmt.numberAll 0 body).1 := by
      rw [Stmt.numberAll_from] at hnum
      exact (congrArg Prod.fst hnum).symm
    have hid : (· - next) ∘ (· + next) = (id : NodeId → NodeId) :=
      funext fun i => Nat.add_sub_cancel i next
    rw [hp, Stmt.mapAll_mapAll, hid]
    exact Stmt.mapAll_id _
  have hid : ∀ t : Lexeme, (id t).text = t.text := fun _ => rfl
  have ha := hacc.map (.of_text hid hacc) (· - next)
  rw [hback] at ha
  exact ⟨body, _, hreads, ha⟩

end Lox
