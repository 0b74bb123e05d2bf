import Lox.Resolution
import Lox.Proofs.Places

/-! # Shapes of trees

What the grammar sees to in a tree (`Stmt.Formed`), and what the rules on names and returns do
(`Stmt.Accepted`). -/

namespace Lox

variable {ι : Type}

/-! ### Spelling -/

/-- A lexeme that is not a reserved word. -/
def Lexeme.IsName (t : Lexeme) : Prop := Keyword.ofText? t.text = none

/-- How the name of a use is spelled. -/
def UseKind.Spells : UseKind → Lexeme → Prop
  | read, t | write, t => t.IsName
  | this, t => t.text = "this"
  | super, t => t.text = "super"

/-- The uses of an expression are spelled as they should be. -/
def Expr.Spelled (e : Expr ι) : Prop := ∀ u ∈ e.references, u.1.Spells u.2.name

theorem Lexeme.IsName.ne_this {t : Lexeme} (h : t.IsName) : t.text ≠ "this" := by
  intro ht
  rw [IsName, ht] at h
  exact nomatch h.symm.trans (Keyword.ofText?_text .this)

theorem Lexeme.IsName.ne_super {t : Lexeme} (h : t.IsName) : t.text ≠ "super" := by
  intro ht
  rw [IsName, ht] at h
  exact nomatch h.symm.trans (Keyword.ofText?_text .super)

/-! ### What the grammar sees to -/

mutual

/-- Names are no reserved words, and a branch or a loop body declares nothing. -/
def Stmt.Formed : Stmt ι → Prop
  | .expression value => value.Spelled
  | .print value => value.Spelled
  | .var name initializer => name.IsName ∧ ∀ e ∈ initializer, e.Spelled
  | .block body => Stmt.FormedAll body
  | .ite condition yes none => condition.Spelled ∧ yes.Formed ∧ yes.declared? = none
  | .ite condition yes (some no) =>
    condition.Spelled ∧ (yes.Formed ∧ yes.declared? = none) ∧ no.Formed ∧ no.declared? = none
  | .while condition body => condition.Spelled ∧ body.Formed ∧ body.declared? = none
  | .function decl => decl.name.IsName ∧ decl.Formed
  | .ret _ value => ∀ e ∈ value, e.Spelled
  | .cls name superclass methods =>
    name.IsName ∧ (∀ r ∈ superclass, r.name.IsName) ∧ FunDecl.FormedEach methods

/-- All statements are formed. -/
def Stmt.FormedAll : List (Stmt ι) → Prop
  | [] => True
  | s :: rest => s.Formed ∧ Stmt.FormedAll rest

/-- The parameters are names, and the body is formed. -/
def FunDecl.Formed : FunDecl ι → Prop
  | .mk _ params body => (∀ p ∈ params, p.IsName) ∧ Stmt.FormedAll body

/-- All functions are formed. -/
def FunDecl.FormedEach : List (FunDecl ι) → Prop
  | [] => True
  | decl :: rest => decl.Formed ∧ FunDecl.FormedEach rest

end

/-- The names that formed statements declare are no reserved words. -/
theorem Stmt.FormedAll.isName {body : List (Stmt ι)} (h : Stmt.FormedAll body) :
    ∀ t ∈ Stmt.declarations body, t.IsName := by
  induction body with
  | nil => simp [Stmt.declarations]
  | cons s body ih =>
      obtain ⟨hs, hb⟩ := h
      intro t ht
      rw [Stmt.declarations, List.filterMap_cons] at ht
      cases hd : s.declared? with
      | none =>
          rw [hd] at ht
          exact ih hb t ht
      | some name =>
          rw [hd] at ht
          rcases List.mem_cons.mp ht with rfl | ht
          · cases s <;> simp only [Stmt.declared?, Option.some.injEq, reduceCtorEq] at hd
            all_goals
              subst hd
              exact hs.1
          · exact ih hb t ht

/-! ### What the rules on names and returns see to -/

mutual

/-- No `return` outside the functions that the statement declares. -/
def Stmt.ReturnFree : Stmt ι → Prop
  | .block body => Stmt.ReturnFreeAll body
  | .ite _ yes none => yes.ReturnFree
  | .ite _ yes (some no) => yes.ReturnFree ∧ no.ReturnFree
  | .while _ body => body.ReturnFree
  | .ret _ _ => False
  | _ => True

/-- No `return` outside the functions that the statements declare. -/
def Stmt.ReturnFreeAll : List (Stmt ι) → Prop
  | [] => True
  | s :: rest => s.ReturnFree ∧ Stmt.ReturnFreeAll rest

end

mutual

/-- The local scopes that a statement opens, each with the names that it declares. -/
def Stmt.scopes : Stmt ι → List (List Lexeme)
  | .block body => Stmt.declarations body :: Stmt.scopesAll body
  | .ite _ yes none => yes.scopes
  | .ite _ yes (some no) => yes.scopes ++ no.scopes
  | .while _ body => body.scopes
  | .function decl => decl.scopes
  | .cls _ _ methods => FunDecl.scopesEach methods
  | _ => []

/-- The local scopes that statements open. -/
def Stmt.scopesAll : List (Stmt ι) → List (List Lexeme)
  | [] => []
  | s :: rest => s.scopes ++ Stmt.scopesAll rest

/-- The scope of a function, and those in its body. -/
def FunDecl.scopes : FunDecl ι → List (List Lexeme)
  | .mk _ params body => (params ++ Stmt.declarations body) :: Stmt.scopesAll body

/-- The local scopes that functions open. -/
def FunDecl.scopesEach : List (FunDecl ι) → List (List Lexeme)
  | [] => []
  | decl :: rest => decl.scopes ++ FunDecl.scopesEach rest

end

mutual

/-- The classes with a superclass in a statement: the name of each, and that of its superclass. -/
def Stmt.heirs : Stmt ι → List (Lexeme × Lexeme)
  | .block body => Stmt.heirsAll body
  | .ite _ yes none => yes.heirs
  | .ite _ yes (some no) => yes.heirs ++ no.heirs
  | .while _ body => body.heirs
  | .function decl => decl.heirs
  | .cls _ none methods => FunDecl.heirsEach methods
  | .cls name (some superclass) methods => (name, superclass.name) :: FunDecl.heirsEach methods
  | _ => []

/-- The classes with a superclass in statements. -/
def Stmt.heirsAll : List (Stmt ι) → List (Lexeme × Lexeme)
  | [] => []
  | s :: rest => s.heirs ++ Stmt.heirsAll rest

/-- The classes with a superclass in the body of a function. -/
def FunDecl.heirs : FunDecl ι → List (Lexeme × Lexeme)
  | .mk _ _ body => Stmt.heirsAll body

/-- The classes with a superclass in the bodies of functions. -/
def FunDecl.heirsEach : List (FunDecl ι) → List (Lexeme × Lexeme)
  | [] => []
  | decl :: rest => decl.heirs ++ FunDecl.heirsEach rest

end

/-- No class inherits from one of its own name. -/
def Acyclic (heirs : List (Lexeme × Lexeme)) : Prop := ∀ p ∈ heirs, p.2.text ≠ p.1.text

theorem Acyclic.append {heirs heirs' : List (Lexeme × Lexeme)} (h : Acyclic heirs)
    (h' : Acyclic heirs') : Acyclic (heirs ++ heirs') := fun p hp =>
  (List.mem_append.mp hp).elim (h p) (h' p)

/-- The sort of class around a place.  No code stands directly in the scope that binds `super`. -/
def Surroundings.inClass : Surroundings → ClassContext
  | [] => .outside
  | .names _ _ :: outer => inClass outer
  | .this :: .super :: _ => .derived
  | .this :: _ => .base
  | .super :: _ => .outside

/-- A use of a name that the rules allow: no variable is read in its own initializer, `this` stands in a
class, and `super` in a class with a superclass. -/
def Use.Allowed (u : Use) : Prop :=
  match u.kind with
  | .read => u.isOwn = false
  | .write => True
  | .this => u.around.inClass ≠ .outside
  | .super => u.around.inClass = .derived

/-- No two names of a scope are the same. -/
def Distinct (names : List Lexeme) : Prop := (names.map Lexeme.text).Nodup

namespace Surroundings

/-- A place where a statement may stand: at the top level, or in a block or function. -/
def Open : Surroundings → Prop
  | [] => True
  | .names _ _ :: _ => True
  | _ => False

/-- Names that differ from each other and from those the innermost scope has already. -/
def Fresh : Surroundings → List Lexeme → Prop
  | .names _ before :: _, ts => Distinct ts ∧ ∀ t ∈ ts, ∀ b ∈ before, b.text ≠ t.text
  | _, _ => True

theorem Open.declare? {around : Surroundings} (h : around.Open) (t : Option Lexeme) :
    (around.declare? t).Open := by
  cases t with
  | none => exact h
  | some t =>
      match around, h with
      | [], _ => trivial
      | .names _ _ :: _, _ => trivial

theorem inClass_declare? (around : Surroundings) (t : Option Lexeme) :
    (around.declare? t).inClass = around.inClass := by
  cases t with
  | none => rfl
  | some t =>
      match around with
      | [] => rfl
      | .names _ _ :: _ => rfl
      | .this :: _ => rfl
      | .super :: _ => rfl

theorem tail_declare? (around : Surroundings) (t : Option Lexeme) :
    (around.declare? t).tail = around.tail := by
  cases t with
  | none => rfl
  | some t =>
      match around with
      | [] => rfl
      | .names _ _ :: _ => rfl
      | .this :: _ => rfl
      | .super :: _ => rfl

theorem Fresh.nil (around : Surroundings) : around.Fresh [] := by
  match around with
  | [] => trivial
  | .names _ _ :: _ => exact ⟨List.nodup_nil, nofun⟩
  | .this :: _ => trivial
  | .super :: _ => trivial

theorem Fresh.append {around : Surroundings} {t : Option Lexeme} {ts : List Lexeme}
    (h : around.Fresh t.toList) (h' : (around.declare? t).Fresh ts) : around.Fresh (t.toList ++ ts) := by
  cases t with
  | none => exact h'
  | some t =>
      match around with
      | [] => trivial
      | .names all before :: _ =>
          obtain ⟨-, hb⟩ := h
          obtain ⟨hd, hb'⟩ := h'
          refine ⟨List.nodup_cons.mpr ⟨fun ht => ?_, hd⟩, fun t' ht' b hbm => ?_⟩
          · obtain ⟨t', ht', he⟩ := List.mem_map.mp ht
            exact hb' t' ht' t List.mem_cons_self he.symm
          · rcases List.mem_cons.mp ht' with rfl | ht'
            · exact hb _ (List.mem_singleton_self _) b hbm
            · exact hb' t' ht' b (List.mem_cons_of_mem _ hbm)
      | .this :: _ => trivial
      | .super :: _ => trivial

/-- The methods of a class without superclass stand in a class of this sort. -/
theorem inClass_this {around : Surroundings} (h : around.Open) :
    Surroundings.inClass (.this :: around) = .base := by
  match around, h with
  | [], _ => rfl
  | .names _ _ :: _, _ => rfl

end Surroundings

end Lox
