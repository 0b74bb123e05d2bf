import Lox.Proofs.Forms
import Lox.Proofs.Shapes

/-! # Braces around a statement

`S.Bracing s s'` says that `s'` is `s` with one occurrence of the statement `S`, which declares nothing, in
braces.  The rules on returns, scopes and classes see no difference (`Stmt.BracingAll.rules`), nodes keep their
numbers (`Stmt.BracingAll.number`), and expressions stay where they are, but for one empty scope more around those
of `S` (`Stmt.BracingAll.expressions`). -/

namespace Lox

/-! ### One occurrence in braces -/

section bracing

variable {ι : Type} (S : Stmt ι)

mutual

/-- `S.Bracing s s'`: the statement `s'` is `s` with one occurrence of `S`, which declares nothing, in braces. -/
inductive Stmt.Bracing : Stmt ι → Stmt ι → Prop
  | here (hs : S.declared? = none) : Stmt.Bracing S (.block [S])
  | block {body body' : List (Stmt ι)} (h : Stmt.BracingAll body body') :
      Stmt.Bracing (.block body) (.block body')
  | yes (c : Expr ι) {yes yes' : Stmt ι} (no : Option (Stmt ι)) (h : Stmt.Bracing yes yes') :
      Stmt.Bracing (.ite c yes no) (.ite c yes' no)
  | no (c : Expr ι) (yes : Stmt ι) {no no' : Stmt ι} (h : Stmt.Bracing no no') :
      Stmt.Bracing (.ite c yes (some no)) (.ite c yes (some no'))
  | while (c : Expr ι) {body body' : Stmt ι} (h : Stmt.Bracing body body') :
      Stmt.Bracing (.while c body) (.while c body')
  | function {d d' : FunDecl ι} (h : FunDecl.Bracing d d') : Stmt.Bracing (.function d) (.function d')
  | cls (t : Lexeme) (r : Option (Reference ι)) {ms ms' : List (FunDecl ι)} (h : FunDecl.BracingEach ms ms') :
      Stmt.Bracing (.cls t r ms) (.cls t r ms')

/-- One of the statements in order has an occurrence of `S` in braces. -/
inductive Stmt.BracingAll : List (Stmt ι) → List (Stmt ι) → Prop
  | head {s s' : Stmt ι} (rest : List (Stmt ι)) (h : Stmt.Bracing s s') :
      Stmt.BracingAll (s :: rest) (s' :: rest)
  | tail (s : Stmt ι) {rest rest' : List (Stmt ι)} (h : Stmt.BracingAll rest rest') :
      Stmt.BracingAll (s :: rest) (s :: rest')

/-- One of the statements of a function has an occurrence of `S` in braces. -/
inductive FunDecl.Bracing : FunDecl ι → FunDecl ι → Prop
  | mk (t : Lexeme) (params : List Lexeme) {body body' : List (Stmt ι)} (h : Stmt.BracingAll body body') :
      FunDecl.Bracing (.mk t params body) (.mk t params body')

/-- One of the functions in order has an occurrence of `S` in braces. -/
inductive FunDecl.BracingEach : List (FunDecl ι) → List (FunDecl ι) → Prop
  | head {d d' : FunDecl ι} (rest : List (FunDecl ι)) (h : FunDecl.Bracing d d') :
      FunDecl.BracingEach (d :: rest) (d' :: rest)
  | tail (d : FunDecl ι) {rest rest' : List (FunDecl ι)} (h : FunDecl.BracingEach rest rest') :
      FunDecl.BracingEach (d :: rest) (d :: rest')

end

variable {S} {s s' : Stmt ι} {body body' : List (Stmt ι)} {d d' : FunDecl ι}

theorem FunDecl.Bracing.name_eq (h : FunDecl.Bracing S d d') : d'.name = d.name := by
  cases h
  rfl

/-- Braces hide no declaration. -/
theorem Stmt.Bracing.declared? (h : Stmt.Bracing S s s') : s'.declared? = s.declared? := by
  cases h with
  | here hs => exact hs.symm
  | function h => exact congrArg some h.name_eq
  | _ => rfl

theorem Stmt.BracingAll.declarations (h : Stmt.BracingAll S body body') :
    Stmt.declarations body' = Stmt.declarations body := by
  induction body generalizing body' with
  | nil => exact nomatch h
  | cons s body ih =>
      cases h with
      | head _ h => rw [Stmt.declarations_cons, Stmt.declarations_cons, h.declared?]
      | tail _ h => rw [Stmt.declarations_cons, Stmt.declarations_cons, ih h]

end bracing

/-! ### What the rules see -/

/-- Two pieces of code are the same to the rules on returns, scopes and classes, but for empty scopes. -/
structure RulesKept (free free' : Prop) (scopes scopes' : List (List Lexeme))
    (heirs heirs' : List (Lexeme × Lexeme)) : Prop where
  returns : free → free'
  scopes : ∀ names ∈ scopes', names = [] ∨ names ∈ scopes
  heirs : heirs' = heirs

namespace RulesKept

variable {free free' : Prop} {scopes scopes' more : List (List Lexeme)} {heirs heirs' below : List (Lexeme × Lexeme)}

theorem appendRight (h : RulesKept free free' scopes scopes' heirs heirs') (rest : Prop) :
    RulesKept (free ∧ rest) (free' ∧ rest) (scopes ++ more) (scopes' ++ more) (heirs ++ below)
      (heirs' ++ below) where
  returns hr := ⟨h.returns hr.1, hr.2⟩
  scopes names hn := (List.mem_append.mp hn).elim
    (fun hn => (h.scopes names hn).imp_right (List.mem_append_left _)) fun hn => .inr (List.mem_append_right _ hn)
  heirs := by rw [h.heirs]

theorem appendLeft (h : RulesKept free free' scopes scopes' heirs heirs') (rest : Prop) :
    RulesKept (rest ∧ free) (rest ∧ free') (more ++ scopes) (more ++ scopes') (below ++ heirs)
      (below ++ heirs') where
  returns hr := ⟨hr.1, h.returns hr.2⟩
  scopes names hn := (List.mem_append.mp hn).elim (fun hn => .inr (List.mem_append_left _ hn))
    fun hn => (h.scopes names hn).imp_right (List.mem_append_right _)
  heirs := by rw [h.heirs]

/-- Code in one more scope. -/
theorem inScope (h : RulesKept free free' scopes scopes' heirs heirs') {names names' : List Lexeme}
    (hn : names' = names) : RulesKept free free' (names :: scopes) (names' :: scopes') heirs heirs' where
  returns := h.returns
  scopes ns hns := by
    subst hn
    rcases List.mem_cons.mp hns with rfl | hn
    · exact .inr List.mem_cons_self
    · exact (h.scopes ns hn).imp_right (List.mem_cons_of_mem _)
  heirs := h.heirs

/-- Code in a function, in which returns may stand. -/
theorem inFunction (h : RulesKept free free' scopes scopes' heirs heirs') :
    RulesKept True True scopes scopes' heirs heirs' :=
  { h with returns := id }

end RulesKept

section rules

variable {ι : Type} {S : Stmt ι}

mutual

theorem Stmt.Bracing.rules : ∀ {s s' : Stmt ι}, Stmt.Bracing S s s' →
    RulesKept s.ReturnFree s'.ReturnFree s.scopes s'.scopes s.heirs s'.heirs
  | _, _, .here hs => by
      have hnone : Stmt.declarations [S] = [] := by rw [Stmt.declarations_cons, hs]; rfl
      refine ⟨fun h => ⟨h, trivial⟩, fun names hn => ?_, List.append_nil _⟩
      rw [Stmt.scopes, hnone, Stmt.scopesAll, Stmt.scopesAll, List.append_nil] at hn
      exact List.mem_cons.mp hn
  | _, _, .block h => h.rules.inScope h.declarations
  | _, _, .yes _ none h => h.rules
  | _, _, .yes _ (some no) h => h.rules.appendRight _
  | _, _, .no _ yes h => h.rules.appendLeft _
  | _, _, .while _ h => h.rules
  | _, _, .function h => h.rules
  | _, _, .cls _ none h => h.rules
  | _, _, .cls t (some r) h => { h.rules with heirs := congrArg ((t, r.name) :: ·) h.rules.heirs }

theorem Stmt.BracingAll.rules : ∀ {body body' : List (Stmt ι)}, Stmt.BracingAll S body body' →
    RulesKept (Stmt.ReturnFreeAll body) (Stmt.ReturnFreeAll body') (Stmt.scopesAll body) (Stmt.scopesAll body')
      (Stmt.heirsAll body) (Stmt.heirsAll body')
  | _, _, .head _ h => h.rules.appendRight _
  | _, _, .tail _ h => h.rules.appendLeft _

theorem FunDecl.Bracing.rules : ∀ {d d' : FunDecl ι}, FunDecl.Bracing S d d' →
    RulesKept True True d.scopes d'.scopes d.heirs d'.heirs
  | _, _, .mk t params h => h.rules.inFunction.inScope (congrArg (params ++ ·) h.declarations)

theorem FunDecl.BracingEach.rules : ∀ {ds ds' : List (FunDecl ι)}, FunDecl.BracingEach S ds ds' →
    RulesKept True True (FunDecl.scopesEach ds) (FunDecl.scopesEach ds') (FunDecl.heirsEach ds)
      (FunDecl.heirsEach ds')
  | _, _, .head _ h => (h.rules.appendRight True).inFunction
  | _, _, .tail _ h => (h.rules.appendLeft True).inFunction

end

end rules

/-! ### Numbers of nodes -/

theorem Stmt.declared?_number (s : PlainStmt) (next : NodeId) : (s.number next).1.declared? = s.declared? := by
  have h := Stmt.declared?_map unnumbered id (s.number next).1
  rwa [Stmt.map_number, Option.map_id, eq_comm] at h

section numbering

variable {S : PlainStmt}

mutual

/-- Numbering gives the nodes of a statement the same numbers with braces and without. -/
theorem Stmt.Bracing.number : ∀ {s s' : PlainStmt}, Stmt.Bracing S s s' → ∀ next : NodeId,
    ∃ k, Stmt.Bracing (S.number k).1 (s.number next).1 (s'.number next).1 ∧
      (s'.number next).2 = (s.number next).2
  | _, _, .here hs, next => ⟨next, .here ((S.declared?_number next).trans hs), rfl⟩
  | _, _, .block h, next => by
      obtain ⟨k, hb, hl⟩ := h.number next
      exact ⟨k, .block hb, hl⟩
  | _, _, .yes c none h, next => by
      obtain ⟨k, hb, hl⟩ := h.number (c.number next).2
      exact ⟨k, .yes _ none hb, hl⟩
  | .ite _ yes _, .ite _ yes' _, .yes c (some no) h, next => by
      obtain ⟨k, hb, hl⟩ := h.number (c.number next).2
      have hno : no.number (yes'.number (c.number next).2).2 = no.number (yes.number (c.number next).2).2 := by
        rw [hl]
      have hite := hb.yes (c.number next).1 (some (no.number (yes.number (c.number next).2).2).1)
      have hlast := congrArg Prod.snd hno
      refine ⟨k, ?_, hlast⟩
      change Stmt.Bracing _ _ (.ite _ _ (some (no.number (yes'.number (c.number next).2).2).1))
      rw [hno]
      exact hite
  | _, _, .no c yes h, next => by
      obtain ⟨k, hb, hl⟩ := h.number (yes.number (c.number next).2).2
      exact ⟨k, .no _ _ hb, hl⟩
  | _, _, .while c h, next => by
      obtain ⟨k, hb, hl⟩ := h.number (c.number next).2
      exact ⟨k, .while _ hb, hl⟩
  | _, _, .function h, next => by
      obtain ⟨k, hb, hl⟩ := h.number next
      exact ⟨k, .function hb, hl⟩
  | _, _, .cls t r h, next => by
      obtain ⟨k, hb, hl⟩ := h.number (Reference.number? next r).2
      exact ⟨k, .cls t _ hb, hl⟩

theorem Stmt.BracingAll.number : ∀ {body body' : List PlainStmt}, Stmt.BracingAll S body body' → ∀ next : NodeId,
    ∃ k, Stmt.BracingAll (S.number k).1 (Stmt.numberAll next body).1 (Stmt.numberAll next body').1 ∧
      (Stmt.numberAll next body').2 = (Stmt.numberAll next body).2
  | s :: _, s' :: _, .head rest h, next => by
      obtain ⟨k, hb, hl⟩ := h.number next
      have hrest : Stmt.numberAll (s'.number next).2 rest = Stmt.numberAll (s.number next).2 rest := by rw [hl]
      have hlast := congrArg Prod.snd hrest
      refine ⟨k, ?_, hlast⟩
      change Stmt.BracingAll _ _ (_ :: (Stmt.numberAll (s'.number next).2 rest).1)
      rw [hrest]
      exact .head _ hb
  | _, _, .tail s h, next => by
      obtain ⟨k, hb, hl⟩ := h.number (s.number next).2
      exact ⟨k, .tail _ hb, hl⟩

theorem FunDecl.Bracing.number : ∀ {d d' : FunDecl Unit}, FunDecl.Bracing S d d' → ∀ next : NodeId,
    ∃ k, FunDecl.Bracing (S.number k).1 (d.number next).1 (d'.number next).1 ∧
      (d'.number next).2 = (d.number next).2
  | _, _, .mk t params h, next => by
      obtain ⟨k, hb, hl⟩ := h.number next
      exact ⟨k, .mk t params hb, hl⟩

theorem FunDecl.BracingEach.number : ∀ {ds ds' : List (FunDecl Unit)}, FunDecl.BracingEach S ds ds' →
    ∀ next : NodeId,
    ∃ k, FunDecl.BracingEach (S.number k).1 (FunDecl.numberEach next ds).1 (FunDecl.numberEach next ds').1 ∧
      (FunDecl.numberEach next ds').2 = (FunDecl.numberEach next ds).2
  | d :: _, d' :: _, .head rest h, next => by
      obtain ⟨k, hb, hl⟩ := h.number next
      have hrest : FunDecl.numberEach (d'.number next).2 rest = FunDecl.numberEach (d.number next).2 rest := by
        rw [hl]
      have hlast := congrArg Prod.snd hrest
      refine ⟨k, ?_, hlast⟩
      change FunDecl.BracingEach _ _ (_ :: (FunDecl.numberEach (d'.number next).2 rest).1)
      rw [hrest]
      exact .head _ hb
  | _, _, .tail d h, next => by
      obtain ⟨k, hb, hl⟩ := h.number (d.number next).2
      exact ⟨k, .tail _ hb, hl⟩

end

end numbering

/-! ### Expressions -/

/-- Expressions before and after those of `S`, which stand in the scopes `outer` or, with braces, in an empty scope
more. -/
def AroundExpressions (S : Stmt NodeId) (xs xs' : List Placed) : Prop :=
  ∃ (outer : Surroundings) (before after : List Placed), outer.Open ∧
    xs = before ++ (S.expressions outer ++ after) ∧
    xs' = before ++ (S.expressions (.names [] [] :: outer) ++ after)

theorem AroundExpressions.append {S : Stmt NodeId} {xs xs' : List Placed} (h : AroundExpressions S xs xs')
    (before after : List Placed) : AroundExpressions S (before ++ (xs ++ after)) (before ++ (xs' ++ after)) := by
  obtain ⟨outer, pre, post, ho, rfl, rfl⟩ := h
  exact ⟨outer, before ++ pre, post ++ after, ho, by simp only [List.append_assoc],
    by simp only [List.append_assoc]⟩

theorem AroundExpressions.left {S : Stmt NodeId} {xs xs' : List Placed} (h : AroundExpressions S xs xs')
    (before : List Placed) : AroundExpressions S (before ++ xs) (before ++ xs') := by
  have h := h.append before []
  rwa [List.append_nil, List.append_nil] at h

theorem AroundExpressions.cons {S : Stmt NodeId} {xs xs' : List Placed} (h : AroundExpressions S xs xs')
    (x : Placed) : AroundExpressions S (x :: xs) (x :: xs') := h.left [x]

section expressions

variable {S : Stmt NodeId}

mutual

/-- The expressions of a statement with braces and without: the same, but for the scope of the braces. -/
theorem Stmt.Bracing.expressions : ∀ {s s' : Stmt NodeId}, Stmt.Bracing S s s' → ∀ {around : Surroundings},
    around.Open → AroundExpressions S (s.expressions around) (s'.expressions around)
  | _, _, .here hs, around, ho => by
      refine ⟨around, [], [], ho, by simp, ?_⟩
      have hnone : Stmt.declarations [S] = [] := by rw [Stmt.declarations_cons, hs]; rfl
      simp [Stmt.expressions, Stmt.expressionsAll, hnone]
  | _, _, .block h, around, ho => by
      rw [Stmt.expressions, Stmt.expressions, h.declarations]
      exact h.expressions trivial
  | _, _, .yes c none h, around, ho => (h.expressions ho).cons _
  | _, _, .yes c (some no) h, around, ho => (h.expressions ho).append [_] _
  | _, _, .no c yes h, around, ho => ((h.expressions ho).left _).cons _
  | _, _, .while c h, around, ho => (h.expressions ho).cons _
  | _, _, .function h, around, ho => by
      rw [Stmt.expressions, Stmt.expressions, h.name_eq]
      exact h.expressions
  | _, _, .cls t none h, around, ho => h.expressions
  | _, _, .cls t (some r) h, around, ho => h.expressions.cons _

theorem Stmt.BracingAll.expressions : ∀ {body body' : List (Stmt NodeId)}, Stmt.BracingAll S body body' →
    ∀ {around : Surroundings}, around.Open →
    AroundExpressions S (Stmt.expressionsAll around body) (Stmt.expressionsAll around body')
  | _, _, .head rest h, around, ho => by
      rw [Stmt.expressionsAll, Stmt.expressionsAll, Stmt.after, Stmt.after, h.declared?]
      exact (h.expressions ho).append [] _
  | _, _, .tail s h, around, ho => (h.expressions (ho.declare? _)).left _

theorem FunDecl.Bracing.expressions : ∀ {d d' : FunDecl NodeId}, FunDecl.Bracing S d d' →
    ∀ {around : Surroundings}, AroundExpressions S (d.expressions around) (d'.expressions around)
  | _, _, .mk t params h, around => by
      rw [FunDecl.expressions, FunDecl.expressions, h.declarations]
      exact h.expressions trivial

theorem FunDecl.BracingEach.expressions : ∀ {ds ds' : List (FunDecl NodeId)}, FunDecl.BracingEach S ds ds' →
    ∀ {around : Surroundings},
    AroundExpressions S (FunDecl.expressionsEach around ds) (FunDecl.expressionsEach around ds')
  | _, _, .head _ h, _ => h.expressions.append [] _
  | _, _, .tail _ h, _ => h.expressions.left _

end

end expressions

end Lox
