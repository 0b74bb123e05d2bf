import Mathlib.Data.List.Perm.Subperm
import Lox.Proofs.Identities
import Lox.Proofs.Relexing

/-! # Lexemes of trees

The lexemes of a tree are those of different tokens of its text (`BodyText.covers`).  Among them, those of uses of
names, of marks and of declarations are different occurrences (`Stmt.declared_subperm`), so where all lexemes of a
tree are different, each of them has one part in it (`Apart`). -/

namespace Lox

open Lox.Parser

/-! ### The lexemes of a tree -/

mutual

/-- The lexemes in an expression, in the order of its text. -/
def Expr.lexemes {ι : Type} : Expr ι → List Lexeme
  | .literal _ _ => []
  | .group _ inner => inner.lexemes
  | .unary _ _ sign operand => sign :: operand.lexemes
  | .binary _ _ sign left right => left.lexemes ++ sign :: right.lexemes
  | .logical _ _ sign left right => left.lexemes ++ sign :: right.lexemes
  | .name ref => [ref.name]
  | .assign target value => target.name :: value.lexemes
  | .call _ callee closing arguments => callee.lexemes ++ (Expr.lexemesEach arguments ++ [closing])
  | .get _ object property => object.lexemes ++ [property]
  | .set _ object property value => (object.lexemes ++ [property]) ++ value.lexemes
  | .this ref => [ref.name]
  | .super ref method => [ref.name, method]

/-- The lexemes in expressions. -/
def Expr.lexemesEach {ι : Type} : List (Expr ι) → List Lexeme
  | [] => []
  | e :: rest => e.lexemes ++ Expr.lexemesEach rest

end

/-- The lexemes in an expression that may be absent. -/
def Expr.lexemes? {ι : Type} : Option (Expr ι) → List Lexeme
  | none => []
  | some e => e.lexemes

mutual

/-- The lexemes in a statement. -/
def Stmt.lexemes {ι : Type} : Stmt ι → List Lexeme
  | .expression value => value.lexemes
  | .print value => value.lexemes
  | .var name initializer => name :: Expr.lexemes? initializer
  | .block body => Stmt.lexemesAll body
  | .ite condition yes none => condition.lexemes ++ yes.lexemes
  | .ite condition yes (some no) => condition.lexemes ++ (yes.lexemes ++ no.lexemes)
  | .while condition body => condition.lexemes ++ body.lexemes
  | .function decl => decl.lexemes
  | .ret keyword value => keyword :: Expr.lexemes? value
  | .cls name none methods => name :: FunDecl.lexemesEach methods
  | .cls name (some superclass) methods => name :: superclass.name :: FunDecl.lexemesEach methods

/-- The lexemes in statements. -/
def Stmt.lexemesAll {ι : Type} : List (Stmt ι) → List Lexeme
  | [] => []
  | s :: rest => s.lexemes ++ Stmt.lexemesAll rest

/-- The lexemes in a function. -/
def FunDecl.lexemes {ι : Type} : FunDecl ι → List Lexeme
  | .mk name params body => name :: (params ++ Stmt.lexemesAll body)

/-- The lexemes in functions. -/
def FunDecl.lexemesEach {ι : Type} : List (FunDecl ι) → List Lexeme
  | [] => []
  | decl :: rest => decl.lexemes ++ FunDecl.lexemesEach rest

end

/-! ### Lexemes of texts -/

/-- The lexemes are those of different tokens. -/
def Covers (ts : List Token) (xs : List Lexeme) : Prop := xs.Subperm (ts.map Token.toLexeme)

namespace Covers

variable {ts us : List Token} {xs ys : List Lexeme}

theorem nil : Covers ts [] := List.nil_subperm

theorem skip {t : Token} (h : Covers ts xs) : Covers (t :: ts) xs := List.Subperm.cons_right _ h

theorem keep {t : Token} (h : Covers ts xs) : Covers (t :: ts) (t.toLexeme :: xs) :=
  (List.subperm_cons _).mpr h

theorem append (h : Covers ts xs) (h' : Covers us ys) : Covers (ts ++ us) (xs ++ ys) := by
  unfold Covers
  rw [List.map_append]
  exact List.Subperm.append h h'

theorem before (h : Covers ts xs) : Covers (ts ++ us) xs := by
  have := h.append (nil : Covers us [])
  rwa [List.append_nil] at this

theorem perm (h : Covers ts xs) (hp : xs.Perm ys) : Covers ts ys := hp.subperm_right.mp h

end Covers

mutual

theorem ExprText.covers : ∀ {grade : Grade} {ts : List Token} {e : PlainExpr}, ExprText grade ts e →
    Covers ts e.lexemes
  | _, _, _, .literal _ => .nil
  | _, _, _, .name _ => .keep .nil
  | _, _, _, .this _ => .keep .nil
  | _, _, _, .super _ _ _ => .keep (.skip (.keep .nil))
  | _, _, _, .group _ h _ => .skip h.covers.before
  | _, _, _, .call h _ ha _ _ => h.covers.append (.skip (ha.covers.append (.keep .nil)))
  | _, _, _, .get h _ _ => h.covers.append (.skip (.keep .nil))
  | _, _, _, .unary _ h => .keep h.covers
  | _, _, _, .binary ha _ hb => ha.covers.append (.keep hb.covers)
  | _, _, _, .logical ha _ hb => ha.covers.append (.keep hb.covers)
  | _, _, _, .assign h _ hv => h.covers.append (.skip hv.covers)
  | _, _, _, .set h _ hv => h.covers.append (.skip hv.covers)
  | _, _, _, .tighter h => h.covers

theorem ArgsText.covers : ∀ {ts : List Token} {es : List PlainExpr}, ArgsText ts es →
    Covers ts (Expr.lexemesEach es)
  | _, _, .none => .nil
  | _, _, .one h => by
      rw [Expr.lexemesEach, Expr.lexemesEach, List.append_nil]
      exact h.covers
  | _, _, .more h _ hs => h.covers.append (.skip hs.covers)

end

theorem ExprText?.covers {ts : List Token} {e : Option PlainExpr} (h : ExprText? ts e) :
    Covers ts (Expr.lexemes? e) := by
  cases h with
  | none => exact .nil
  | some h => exact h.covers

theorem ParamsText.covers : ∀ {ts : List Token} {ps : List Lexeme}, ParamsText ts ps → Covers ts ps
  | _, _, .none => .nil
  | _, _, .one _ => .keep .nil
  | _, _, .more _ _ hs => .keep (.skip hs.covers)

theorem VarText.covers {ts : List Token} {s : PlainStmt} (h : VarText ts s) : Covers ts s.lexemes := by
  cases h with
  | plain _ _ _ => exact .skip (.keep .nil)
  | initialized _ _ _ h _ => exact .skip (.keep (.skip h.covers.before))

/-- The lexemes in the first clause of a `for`. -/
def Stmt.lexemes? {ι : Type} : Option (Stmt ι) → List Lexeme
  | none => []
  | some s => s.lexemes

theorem StartText.covers {ts : List Token} {s : Option PlainStmt} (h : StartText ts s) :
    Covers ts (Stmt.lexemes? s) := by
  cases h with
  | none _ => exact .nil
  | var h => exact h.covers
  | expression h _ => exact h.covers.before

/-- In a `for` loop written with `while`, the increment comes after the body. -/
theorem forLoop_lexemes (start : Option PlainStmt) (c step : Option PlainExpr) (body : PlainStmt) :
    (Stmt.lexemes? start ++ (Expr.lexemes? c ++ (Expr.lexemes? step ++ body.lexemes))).Perm
      (forLoop start c step body).lexemes := by
  have hloop : (Expr.lexemes? c ++ (Expr.lexemes? step ++ body.lexemes)).Perm
      (forLoop none c step body).lexemes := by
    cases c <;> cases step <;>
      simp only [forLoop, Stmt.lexemes, Stmt.lexemesAll, Expr.lexemes, Expr.lexemes?, Option.getD_none,
        Option.getD_some, List.nil_append, List.append_nil, List.Perm.refl, List.perm_append_comm,
        List.perm_append_left_iff]
  cases start with
  | none => exact hloop
  | some start =>
    have hblock : (forLoop (some start) c step body).lexemes =
        start.lexemes ++ (forLoop none c step body).lexemes := by
      simp only [forLoop, Stmt.lexemes, Stmt.lexemesAll, List.append_nil]
    rw [hblock]
    exact hloop.append_left _

mutual

theorem StmtText.covers : ∀ {dangling : Bool} {ts : List Token} {s : PlainStmt}, StmtText dangling ts s →
    Covers ts s.lexemes
  | _, _, _, .expression h _ => h.covers.before
  | _, _, _, .print _ h _ => .skip h.covers.before
  | _, _, _, .ret _ h _ => .keep h.covers.before
  | _, _, _, .block _ h _ => .skip h.covers.before
  | _, _, _, .ite _ _ hc _ hy => .skip (.skip (hc.covers.append (.skip hy.covers)))
  | _, _, _, .iteElse _ _ hc _ hy _ hn =>
      .skip (.skip (hc.covers.append (.skip (hy.covers.append (.skip hn.covers)))))
  | _, _, _, .while _ _ hc _ hb => .skip (.skip (hc.covers.append (.skip hb.covers)))
  | _, _, _, .for _ _ hi hc _ hu _ hb =>
      .perm (.skip (.skip (hi.covers.append (hc.covers.append (.skip (hu.covers.append (.skip hb.covers)))))))
        (forLoop_lexemes _ _ _ _)

theorem DeclText.covers : ∀ {dangling : Bool} {ts : List Token} {s : PlainStmt}, DeclText dangling ts s →
    Covers ts s.lexemes
  | _, _, _, .base _ _ _ h _ => .skip (.keep (.skip h.covers.before))
  | _, _, _, .derived _ _ _ _ _ h _ => .skip (.keep (.skip (.keep (.skip h.covers.before))))
  | _, _, _, .function _ h => .skip h.covers
  | _, _, _, .var h => h.covers
  | _, _, _, .statement h => h.covers

/-- The lexemes in a tree are those of different tokens of its text. -/
theorem BodyText.covers : ∀ {ts : List Token} {body : List PlainStmt}, BodyText ts body →
    Covers ts (Stmt.lexemesAll body)
  | _, _, .nil => .nil
  | _, _, .cons h hs => h.covers.append hs.covers

theorem RoutineText.covers : ∀ {ts : List Token} {decl : FunDecl Unit}, RoutineText ts decl →
    Covers ts decl.lexemes
  | _, _, .mk _ _ hp _ _ _ h _ => .keep (.skip (hp.covers.append (.skip (.skip h.covers.before))))

theorem MethodsText.covers : ∀ {ts : List Token} {decls : List (FunDecl Unit)}, MethodsText ts decls →
    Covers ts (FunDecl.lexemesEach decls)
  | _, _, .nil => .nil
  | _, _, .cons h hs => h.covers.append hs.covers

end

/-! ### Other labels -/

section labels

variable {ι κ : Type} (f : ι → κ)

mutual

theorem Expr.lexemes_map : ∀ e : Expr ι, (e.map f id).lexemes = e.lexemes
  | .literal _ _ => rfl
  | .group _ inner => Expr.lexemes_map inner
  | .unary _ _ sign operand => congrArg (sign :: ·) (Expr.lexemes_map operand)
  | .binary _ _ sign left right =>
      congrArg₂ (· ++ sign :: ·) (Expr.lexemes_map left) (Expr.lexemes_map right)
  | .logical _ _ sign left right =>
      congrArg₂ (· ++ sign :: ·) (Expr.lexemes_map left) (Expr.lexemes_map right)
  | .name _ => rfl
  | .assign target value => congrArg (target.name :: ·) (Expr.lexemes_map value)
  | .call _ callee closing arguments =>
      congrArg₂ (fun xs ys => xs ++ (ys ++ [closing])) (Expr.lexemes_map callee)
        (Expr.lexemesEach_map arguments)
  | .get _ object property => congrArg (· ++ [property]) (Expr.lexemes_map object)
  | .set _ object property value =>
      congrArg₂ (· ++ [property] ++ ·) (Expr.lexemes_map object) (Expr.lexemes_map value)
  | .this _ => rfl
  | .super _ _ => rfl

theorem Expr.lexemesEach_map : ∀ es : List (Expr ι),
    Expr.lexemesEach (Expr.mapEach f id es) = Expr.lexemesEach es
  | [] => rfl
  | e :: es => congrArg₂ (· ++ ·) (Expr.lexemes_map e) (Expr.lexemesEach_map es)

end

theorem Expr.lexemes?_map (e : Option (Expr ι)) :
    Expr.lexemes? (e.map (·.map f id)) = Expr.lexemes? e := by
  cases e with
  | none => rfl
  | some e => exact Expr.lexemes_map f e

mutual

theorem Stmt.lexemes_map : ∀ s : Stmt ι, (s.map f id).lexemes = s.lexemes
  | .expression value => Expr.lexemes_map f value
  | .print value => Expr.lexemes_map f value
  | .var name initializer => congrArg (name :: ·) (Expr.lexemes?_map f initializer)
  | .block body => Stmt.lexemesAll_map body
  | .ite condition yes none => congrArg₂ (· ++ ·) (Expr.lexemes_map f condition) (Stmt.lexemes_map yes)
  | .ite condition yes (some no) =>
      congrArg₂ (· ++ ·) (Expr.lexemes_map f condition)
        (congrArg₂ (· ++ ·) (Stmt.lexemes_map yes) (Stmt.lexemes_map no))
  | .while condition body => congrArg₂ (· ++ ·) (Expr.lexemes_map f condition) (Stmt.lexemes_map body)
  | .function decl => FunDecl.lexemes_map decl
  | .ret keyword value => congrArg (keyword :: ·) (Expr.lexemes?_map f value)
  | .cls name none methods => congrArg (name :: ·) (FunDecl.lexemesEach_map methods)
  | .cls name (some superclass) methods =>
      congrArg (name :: superclass.name :: ·) (FunDecl.lexemesEach_map methods)

theorem Stmt.lexemesAll_map : ∀ body : List (Stmt ι),
    Stmt.lexemesAll (Stmt.mapAll f id body) = Stmt.lexemesAll body
  | [] => rfl
  | s :: body => congrArg₂ (· ++ ·) (Stmt.lexemes_map s) (Stmt.lexemesAll_map body)

theorem FunDecl.lexemes_map : ∀ decl : FunDecl ι, (decl.map f id).lexemes = decl.lexemes
  | .mk name params body => by
      rw [FunDecl.map, FunDecl.lexemes, FunDecl.lexemes, List.map_id, Stmt.lexemesAll_map body]
      rfl

theorem FunDecl.lexemesEach_map : ∀ decls : List (FunDecl ι),
    FunDecl.lexemesEach (FunDecl.mapEach f id decls) = FunDecl.lexemesEach decls
  | [] => rfl
  | decl :: decls => congrArg₂ (· ++ ·) (FunDecl.lexemes_map decl) (FunDecl.lexemesEach_map decls)

end

end labels

/-! ### What the lexemes are -/

/-- The lexemes of names in uses of them. -/
def usedNames (xs : List Placed) : List Lexeme := xs.flatMap fun x => x.expr.references.map (·.2.name)

/-- The other lexemes at which a fault may be reported. -/
def markNames (xs : List Placed) : List Lexeme := xs.flatMap fun x => x.expr.marks.map (·.name)

section tally

theorem usedNames_append (xs xs' : List Placed) : usedNames (xs ++ xs') = usedNames xs ++ usedNames xs' :=
  List.flatMap_append

theorem markNames_append (xs xs' : List Placed) : markNames (xs ++ xs') = markNames xs ++ markNames xs' :=
  List.flatMap_append

/-- How often a lexeme occurs in a tree: uses of names, marks and declarations are different occurrences, and
so are uses of names, marks and titles. -/
structure Tally (t : Lexeme) (xs : List Placed) (declared titles lexemes : List Lexeme) : Prop where
  declared : (usedNames xs).count t + (markNames xs).count t + declared.count t ≤ lexemes.count t
  titles : (usedNames xs).count t + (markNames xs).count t + titles.count t ≤ lexemes.count t

namespace Tally

variable {t : Lexeme} {xs xs' : List Placed} {ds ds' ns ns' ls ls' : List Lexeme}

theorem nil : Tally t [] [] [] [] := ⟨Nat.zero_le _, Nat.zero_le _⟩

theorem append (h : Tally t xs ds ns ls) (h' : Tally t xs' ds' ns' ls') :
    Tally t (xs ++ xs') (ds ++ ds') (ns ++ ns') (ls ++ ls') := by
  obtain ⟨hd, hn⟩ := h
  obtain ⟨hd', hn'⟩ := h'
  constructor
  · rw [usedNames_append, markNames_append, List.count_append, List.count_append, List.count_append,
      List.count_append]
    omega
  · rw [usedNames_append, markNames_append, List.count_append, List.count_append, List.count_append,
      List.count_append]
    omega

theorem perm (h : Tally t xs ds ns ls) (hd : ds.Perm ds') : Tally t xs ds' ns ls :=
  ⟨hd.count_eq t ▸ h.declared, h.titles⟩

/-- Declarations that are not of interest. -/
theorem right (h : Tally t xs (ds ++ ds') ns ls) : Tally t xs ds' ns ls := by
  obtain ⟨hd, hn⟩ := h
  rw [List.count_append] at hd
  exact ⟨by omega, hn⟩

/-- Names of variables. -/
theorem names (h : Tally t xs ds ns ls) (ps : List Lexeme) : Tally t xs (ps ++ ds) ns (ps ++ ls) := by
  obtain ⟨hd, hn⟩ := h
  constructor
  · rw [List.count_append, List.count_append]
    omega
  · rw [List.count_append]
    omega

/-- The name of a function or class. -/
theorem title (h : Tally t xs ds ns ls) (name : Lexeme) : Tally t xs (name :: ds) (name :: ns) (name :: ls) := by
  obtain ⟨hd, hn⟩ := h
  constructor
  · rw [List.count_cons, List.count_cons]
    omega
  · rw [List.count_cons, List.count_cons]
    omega

end Tally

mutual

theorem Expr.tally (t : Lexeme) : ∀ e : Expr NodeId,
    (e.references.map (·.2.name)).count t + (e.marks.map (·.name)).count t ≤ e.lexemes.count t
  | .literal _ _ => Nat.zero_le _
  | .group _ inner => Expr.tally t inner
  | .unary _ _ sign operand => by
      have := Expr.tally t operand
      simp only [Expr.references, Expr.marks, Expr.lexemes, List.map_cons, List.count_cons]
      omega
  | .binary _ _ sign left right => by
      have := Expr.tally t left
      have := Expr.tally t right
      simp only [Expr.references, Expr.marks, Expr.lexemes, List.map_append, List.map_cons, List.count_append,
        List.count_cons]
      omega
  | .logical _ _ sign left right => by
      have := Expr.tally t left
      have := Expr.tally t right
      simp only [Expr.references, Expr.marks, Expr.lexemes, List.map_append, List.count_append,
        List.count_cons]
      omega
  | .name _ => Nat.le_refl _
  | .assign target value => by
      have := Expr.tally t value
      simp only [Expr.references, Expr.marks, Expr.lexemes, List.map_append, List.map_cons, List.map_nil,
        List.count_append, List.count_cons, List.count_nil]
      omega
  | .call _ callee closing arguments => by
      have := Expr.tally t callee
      have := Expr.tallyEach t arguments
      simp only [Expr.references, Expr.marks, Expr.lexemes, List.map_append, List.map_cons, List.count_append,
        List.count_cons, List.count_nil]
      omega
  | .get _ object property => by
      have := Expr.tally t object
      simp only [Expr.references, Expr.marks, Expr.lexemes, List.map_cons, List.count_append, List.count_cons,
        List.count_nil]
      omega
  | .set _ object property value => by
      have := Expr.tally t object
      have := Expr.tally t value
      simp only [Expr.references, Expr.marks, Expr.lexemes, List.map_append, List.map_cons, List.count_append,
        List.count_cons, List.count_nil]
      omega
  | .this _ => Nat.le_refl _
  | .super ref method => by
      simp only [Expr.references, Expr.marks, Expr.lexemes, List.map_cons, List.map_nil, List.count_cons,
        List.count_nil]
      omega

theorem Expr.tallyEach (t : Lexeme) : ∀ es : List (Expr NodeId),
    ((Expr.referencesEach es).map (·.2.name)).count t + ((Expr.marksEach es).map (·.name)).count t ≤
      (Expr.lexemesEach es).count t
  | [] => Nat.zero_le _
  | e :: es => by
      have := Expr.tally t e
      have := Expr.tallyEach t es
      simp only [Expr.referencesEach, Expr.marksEach, Expr.lexemesEach, List.map_append, List.count_append]
      omega

end

/-- An expression at its place. -/
theorem Placed.tally (t : Lexeme) (x : Placed) : Tally t [x] [] [] x.expr.lexemes := by
  have h := Expr.tally t x.expr
  have hused : usedNames [x] = x.expr.references.map (·.2.name) := List.flatMap_singleton _ _
  have hmarks : markNames [x] = x.expr.marks.map (·.name) := List.flatMap_singleton _ _
  exact ⟨by rwa [hused, hmarks], by rwa [hused, hmarks]⟩

theorem Expr.tally? (t : Lexeme) (e : Option (Expr NodeId)) (around : Surroundings) (own : Option Lexeme) :
    Tally t (e.toList.map fun e => ⟨around, own, e⟩) [] [] (Expr.lexemes? e) := by
  cases e with
  | none => exact .nil
  | some e => exact Placed.tally t ⟨around, own, e⟩

mutual

theorem Stmt.tally (t : Lexeme) : ∀ (s : Stmt NodeId) (around : Surroundings),
    Tally t (s.expressions around) (s.declared?.toList ++ s.scopes.flatten) s.titles s.lexemes
  | .expression value, around => Placed.tally t ⟨around, none, value⟩
  | .print value, around => Placed.tally t ⟨around, none, value⟩
  | .var name initializer, around => (Expr.tally? t initializer around _).names [name]
  | .block body, around => Stmt.tallyAll t body (.names (Stmt.declarations body) [] :: around)
  | .ite condition yes none, around =>
      (Placed.tally t ⟨around, none, condition⟩).append (Stmt.tally t yes around).right
  | .ite condition yes (some no), around => by
      have h := (Stmt.tally t yes around).right.append (Stmt.tally t no around).right
      rw [← List.flatten_append] at h
      exact (Placed.tally t ⟨around, none, condition⟩).append h
  | .while condition body, around =>
      (Placed.tally t ⟨around, none, condition⟩).append (Stmt.tally t body around).right
  | .function decl, around => FunDecl.tally t decl (around.declare decl.name)
  | .ret keyword value, around => ((Expr.tally? t value around none).names [keyword]).right
  | .cls name none methods, around =>
      (FunDecl.tallyEach t methods (.this :: around.declare name)).title name
  | .cls name (some superclass) methods, around =>
      ((Placed.tally t ⟨around, none, .name superclass⟩).append
        (FunDecl.tallyEach t methods (.this :: .super :: around.declare name))).title name

theorem Stmt.tallyAll (t : Lexeme) : ∀ (body : List (Stmt NodeId)) (around : Surroundings),
    Tally t (Stmt.expressionsAll around body) (Stmt.declarations body ++ (Stmt.scopesAll body).flatten)
      (Stmt.titlesAll body) (Stmt.lexemesAll body)
  | [], _ => .nil
  | s :: body, around => by
      have h := (Stmt.tally t s around).append (Stmt.tallyAll t body (s.after around))
      rw [Stmt.declarations_cons, Stmt.scopesAll, List.flatten_append]
      refine h.perm (List.perm_iff_count.mpr fun name => ?_)
      simp only [List.count_append]
      omega

theorem FunDecl.tally (t : Lexeme) : ∀ (decl : FunDecl NodeId) (around : Surroundings),
    Tally t (decl.expressions around) (decl.name :: decl.scopes.flatten) decl.titles decl.lexemes
  | .mk name params body, around => by
      have h := Stmt.tallyAll t body (.names (params ++ Stmt.declarations body) params :: around)
      rw [FunDecl.scopes, List.flatten_cons, List.append_assoc]
      exact (h.names params).title name

theorem FunDecl.tallyEach (t : Lexeme) : ∀ (decls : List (FunDecl NodeId)) (around : Surroundings),
    Tally t (FunDecl.expressionsEach around decls) (FunDecl.scopesEach decls).flatten
      (FunDecl.titlesEach decls) (FunDecl.lexemesEach decls)
  | [], _ => .nil
  | decl :: decls, around => by
      have h : Tally t _ ([decl.name] ++ decl.scopes.flatten) _ _ := FunDecl.tally t decl around
      rw [FunDecl.scopesEach, List.flatten_append]
      exact h.right.append (FunDecl.tallyEach t decls around)

end

end tally

theorem usedNames_eq (body : List (Stmt NodeId)) :
    usedNames (Stmt.expressionsAll [] body) = (usesOf body).map (·.ref.name) := by
  rw [usesOf, List.map_flatMap]
  refine List.flatMap_congr fun x _ => ?_
  rw [Placed.uses, usesAt, List.map_map]
  rfl

/-- Uses of names, marks and declarations have lexemes of their own. -/
theorem Stmt.declared_subperm (body : List (Stmt NodeId)) :
    (((usesOf body).map (·.ref.name) ++ markNames (Stmt.expressionsAll [] body)) ++
      (Stmt.declarations body ++ (Stmt.scopesAll body).flatten)).Subperm (Stmt.lexemesAll body) := by
  refine List.subperm_ext_iff.mpr fun t _ => ?_
  rw [List.count_append, List.count_append, ← usedNames_eq]
  exact (Stmt.tallyAll t body []).declared

/-- Uses of names, marks and titles have lexemes of their own. -/
theorem Stmt.titles_subperm (body : List (Stmt NodeId)) :
    (((usesOf body).map (·.ref.name) ++ markNames (Stmt.expressionsAll [] body)) ++
      Stmt.titlesAll body).Subperm (Stmt.lexemesAll body) := by
  refine List.subperm_ext_iff.mpr fun t _ => ?_
  rw [List.count_append, List.count_append, ← usedNames_eq]
  exact (Stmt.tallyAll t body []).titles

/-- All lexemes in a tree are different. -/
def Apart (body : List (Stmt NodeId)) : Prop := (Stmt.lexemesAll body).Nodup

theorem nodup_of_subperm {xs ys : List Lexeme} (h : xs.Subperm ys) (hys : ys.Nodup) : xs.Nodup := by
  obtain ⟨zs, hp, hs⟩ := h
  exact hp.nodup_iff.mp (hys.sublist hs)

namespace Apart

variable {body : List (Stmt NodeId)} (h : Apart body)

include h

theorem declared : (((usesOf body).map (·.ref.name) ++ markNames (Stmt.expressionsAll [] body)) ++
    (Stmt.declarations body ++ (Stmt.scopesAll body).flatten)).Nodup :=
  nodup_of_subperm (Stmt.declared_subperm body) h

theorem titles : (((usesOf body).map (·.ref.name) ++ markNames (Stmt.expressionsAll [] body)) ++
    Stmt.titlesAll body).Nodup :=
  nodup_of_subperm (Stmt.titles_subperm body) h

/-- Different uses of names have different lexemes. -/
theorem uses_inj {u v : Use} (hu : u ∈ usesOf body) (hv : v ∈ usesOf body) (he : v.ref.name = u.ref.name) :
    v = u :=
  List.inj_on_of_nodup_map h.declared.of_append_left.of_append_left hv hu he

/-- The lexeme of a use of a name is not that of anything else. -/
theorem use_alone {u : Use} (hu : u ∈ usesOf body) : u.ref.name ∉ markNames (Stmt.expressionsAll [] body) ∧
    u.ref.name ∉ Stmt.declarations body ∧ u.ref.name ∉ (Stmt.scopesAll body).flatten ∧
      u.ref.name ∉ Stmt.titlesAll body := by
  have hm := List.mem_map_of_mem (f := fun u : Use => u.ref.name) hu
  have hdeclared := List.disjoint_of_nodup_append h.declared (List.mem_append_left _ hm)
  exact ⟨List.disjoint_of_nodup_append h.declared.of_append_left hm,
    fun hd => hdeclared (List.mem_append_left _ hd), fun hl => hdeclared (List.mem_append_right _ hl),
    List.disjoint_of_nodup_append h.titles (List.mem_append_left _ hm)⟩

/-- The lexeme of a local declaration is not that of a mark or of a global declaration. -/
theorem local_alone {t : Lexeme} (ht : t ∈ (Stmt.scopesAll body).flatten) :
    t ∉ markNames (Stmt.expressionsAll [] body) ∧ t ∉ Stmt.declarations body :=
  ⟨fun hm => List.disjoint_of_nodup_append h.declared (List.mem_append_right _ hm)
      (List.mem_append_right _ ht),
    fun hd => List.disjoint_of_nodup_append h.declared.of_append_right hd ht⟩

end Apart

end Lox
