import Mathlib.Logic.Basic
import Lox.Proofs.Grammar
import Lox.Proofs.Relabelling
import Lox.Proofs.Scanning

/-! # Trees of texts are formed

The tree of a text whose tokens are spelled as their categories say is formed (`BodyText.formed`), and it
stays so when its nodes are numbered or its lexemes change without touching reserved words
(`Stmt.formed_map`, `Stmt.formedAll_number`). -/

namespace Lox

open Lox.Parser

/-! ### Texts -/

section texts

variable {ts us : List Token}

/-- Tokens that are spelled as their categories say. -/
abbrev AllLexed (ts : List Token) : Prop := ∀ t ∈ ts, t.Lexed

theorem AllLexed.left (h : AllLexed (ts ++ us)) : AllLexed ts := fun t ht =>
  h t (List.mem_append_left _ ht)

theorem AllLexed.right (h : AllLexed (ts ++ us)) : AllLexed us := fun t ht =>
  h t (List.mem_append_right _ ht)

theorem AllLexed.tail {t : Token} (h : AllLexed (t :: ts)) : AllLexed ts := fun t ht =>
  h t (List.mem_cons_of_mem _ ht)

theorem AllLexed.isName {t : Token} (h : AllLexed (t :: ts)) (hk : t.kind = .identifier) :
    t.toLexeme.IsName := (h t List.mem_cons_self).isName hk

theorem AllLexed.text_eq {t : Token} (h : AllLexed (t :: ts)) {word : Keyword}
    (hk : t.kind = .keyword word) : t.text = word.text := (h t List.mem_cons_self).text_eq hk

mutual

theorem ExprText.spelled : ∀ {grade : Grade} {ts : List Token} {e : PlainExpr},
    ExprText grade ts e → AllLexed ts → e.Spelled
  | _, _, _, .literal _, _ => nofun
  | _, _, _, .name ht, hl => fun u hu => by
      rw [List.mem_singleton.mp hu]
      exact hl.isName ht
  | _, _, _, .this ht, hl => fun u hu => by
      rw [List.mem_singleton.mp hu]
      exact hl.text_eq ht
  | _, _, _, .super ht _ _, hl => fun u hu => by
      rw [List.mem_singleton.mp hu]
      exact hl.text_eq ht
  | _, _, _, .group _ h _, hl => h.spelled hl.tail.left
  | _, _, _, .call h _ ha _ _, hl => fun u hu =>
      (List.mem_append.mp hu).elim (h.spelled hl.left u) (ha.spelled hl.right.tail.left u)
  | _, _, _, .get h _ _, hl => h.spelled hl.left
  | _, _, _, .unary _ h, hl => h.spelled hl.tail
  | _, _, _, .binary ha _ hb, hl => fun u hu =>
      (List.mem_append.mp hu).elim (ha.spelled hl.left u) (hb.spelled hl.right.tail u)
  | _, _, _, .logical ha _ hb, hl => fun u hu =>
      (List.mem_append.mp hu).elim (ha.spelled hl.left u) (hb.spelled hl.right.tail u)
  | _, _, _, .assign h _ hv, hl => fun u hu => by
      rcases List.mem_append.mp hu with hu | hu
      · exact hv.spelled hl.right.tail u hu
      · rw [List.mem_singleton.mp hu]
        exact h.spelled hl.left (.read, _) List.mem_cons_self
  | _, _, _, .set h _ hv, hl => fun u hu =>
      (List.mem_append.mp hu).elim (hv.spelled hl.right.tail u) (h.spelled hl.left u)
  | _, _, _, .tighter h, hl => h.spelled hl

theorem ArgsText.spelled : ∀ {ts : List Token} {es : List PlainExpr}, ArgsText ts es → AllLexed ts →
    ∀ u ∈ Expr.referencesEach es, u.1.Spells u.2.name
  | _, _, .none, _ => nofun
  | _, _, .one h, hl => fun u hu => (List.mem_append.mp hu).elim (h.spelled hl u) nofun
  | _, _, .more h _ hs, hl => fun u hu =>
      (List.mem_append.mp hu).elim (h.spelled hl.left u) (hs.spelled hl.right.tail u)

end

theorem ExprText?.spelled {e : Option PlainExpr} (h : ExprText? ts e) (hl : AllLexed ts) :
    ∀ x ∈ e, x.Spelled := by
  cases h with
  | none => exact nofun
  | some h =>
      rintro _ ⟨⟩
      exact h.spelled hl

theorem ParamsText.isName {params : List Lexeme} (h : ParamsText ts params) (hl : AllLexed ts) :
    ∀ p ∈ params, p.IsName := by
  induction h with
  | none => exact nofun
  | one ht =>
      intro p hp
      rw [List.mem_singleton.mp hp]
      exact hl.isName ht
  | more ht _ _ ih =>
      intro p hp
      rcases List.mem_cons.mp hp with rfl | hp
      · exact hl.isName ht
      · exact ih hl.tail.tail p hp

theorem VarText.formed {s : PlainStmt} (h : VarText ts s) (hl : AllLexed ts) : s.Formed := by
  cases h with
  | plain _ hn _ => exact ⟨hl.tail.isName hn, nofun⟩
  | initialized _ hn _ h _ =>
      refine ⟨hl.tail.isName hn, ?_⟩
      rintro _ ⟨⟩
      exact h.spelled hl.tail.tail.tail.left

theorem StartText.formed {s : Option PlainStmt} (h : StartText ts s) (hl : AllLexed ts) :
    ∀ x ∈ s, x.Formed := by
  cases h with
  | none _ => exact nofun
  | var h =>
      rintro _ ⟨⟩
      exact h.formed hl
  | expression h _ =>
      rintro _ ⟨⟩
      exact h.spelled hl.left

/-- A loop declares nothing in the scope around it. -/
theorem forLoop_declared? (start : Option PlainStmt) (c step : Option PlainExpr) (body : PlainStmt) :
    (forLoop start c step body).declared? = none := by
  cases start <;> rfl

theorem forLoop_formed {start : Option PlainStmt} {c step : Option PlainExpr} {body : PlainStmt}
    (hi : ∀ x ∈ start, x.Formed) (hc : ∀ x ∈ c, x.Spelled) (hu : ∀ x ∈ step, x.Spelled)
    (hb : body.Formed) (hd : body.declared? = none) : (forLoop start c step body).Formed := by
  have hcond : (c.getD (.literal () (.bool true))).Spelled := by
    cases c with
    | none => exact nofun
    | some c => exact hc c rfl
  have hloop : (forLoop none c step body).Formed := by
    cases step with
    | none => exact ⟨hcond, hb, hd⟩
    | some step => exact ⟨hcond, ⟨hb, hu step rfl, trivial⟩, rfl⟩
  cases start with
  | none => exact hloop
  | some start => exact ⟨hi start rfl, hloop, trivial⟩

theorem StmtText.declared? {dangling : Bool} {s : PlainStmt} (h : StmtText dangling ts s) :
    s.declared? = none := by
  cases h with
  | «for» => exact forLoop_declared? _ _ _ _
  | _ => rfl

mutual

theorem StmtText.formed : ∀ {dangling : Bool} {ts : List Token} {s : PlainStmt},
    StmtText dangling ts s → AllLexed ts → s.Formed
  | _, _, _, .expression h _, hl => h.spelled hl.left
  | _, _, _, .print _ h _, hl => h.spelled hl.tail.left
  | _, _, _, .ret _ h _, hl => h.spelled hl.tail.left
  | _, _, _, .block _ h _, hl => h.formed hl.tail.left
  | _, _, _, .ite _ _ hc _ hy, hl =>
      ⟨hc.spelled hl.tail.tail.left, hy.formed hl.tail.tail.right.tail, hy.declared?⟩
  | _, _, _, .iteElse _ _ hc _ hy _ hn, hl =>
      have hr := hl.tail.tail.right.tail
      ⟨hc.spelled hl.tail.tail.left, ⟨hy.formed hr.left, hy.declared?⟩, hn.formed hr.right.tail,
        hn.declared?⟩
  | _, _, _, .while _ _ hc _ hb, hl =>
      ⟨hc.spelled hl.tail.tail.left, hb.formed hl.tail.tail.right.tail, hb.declared?⟩
  | _, _, _, .for _ _ hi hc _ hu _ hb, hl =>
      have hr := hl.tail.tail.right
      have hr' := hr.right.tail
      forLoop_formed (hi.formed hl.tail.tail.left) (hc.spelled hr.left) (hu.spelled hr'.left)
        (hb.formed hr'.right.tail) hb.declared?

theorem DeclText.formed : ∀ {dangling : Bool} {ts : List Token} {s : PlainStmt},
    DeclText dangling ts s → AllLexed ts → s.Formed
  | _, _, _, .base _ hn _ h _, hl => ⟨hl.tail.isName hn, nofun, h.formed hl.tail.tail.tail.left⟩
  | _, _, _, .derived _ hn _ hp _ h _, hl => by
      have hr := hl.tail.tail.tail
      refine ⟨hl.tail.isName hn, ?_, h.formed hr.tail.tail.left⟩
      rintro _ ⟨⟩
      exact hr.isName hp
  | _, _, _, .function _ h, hl => by
      have hf := h.formed hl.tail
      exact ⟨hf.1, hf.2⟩
  | _, _, _, .var h, hl => h.formed hl
  | _, _, _, .statement h, hl => h.formed hl

theorem BodyText.formed : ∀ {ts : List Token} {body : List PlainStmt}, BodyText ts body →
    AllLexed ts → Stmt.FormedAll body
  | _, _, .nil, _ => trivial
  | _, _, .cons h hs, hl => ⟨h.formed hl.left, hs.formed hl.right⟩

theorem RoutineText.formed : ∀ {ts : List Token} {decl : FunDecl Unit}, RoutineText ts decl →
    AllLexed ts → decl.name.IsName ∧ decl.Formed
  | _, _, .mk hn _ hp _ _ _ h _, hl =>
      have hr := hl.tail.tail
      ⟨hl.isName hn, hp.isName hr.left, h.formed hr.right.tail.tail.left⟩

theorem MethodsText.formed : ∀ {ts : List Token} {decls : List (FunDecl Unit)}, MethodsText ts decls →
    AllLexed ts → FunDecl.FormedEach decls
  | _, _, .nil, _ => trivial
  | _, _, .cons h hs, hl => ⟨(h.formed hl.left).2, hs.formed hl.right⟩

end

end texts

/-! ### Other labels and lexemes -/

section map

variable {ι κ : Type} (f : ι → κ) {g : Lexeme → Lexeme}

/-- A change of lexemes that turns no reserved word into anything else, and nothing else into one. -/
def KeepsWords (g : Lexeme → Lexeme) : Prop :=
  ∀ t, Keyword.ofText? (g t).text = Keyword.ofText? t.text

theorem KeepsWords.of_text (hg : ∀ t, (g t).text = t.text) : KeepsWords g := fun t => by rw [hg]

theorem KeepsWords.isName (hg : KeepsWords g) (t : Lexeme) : (g t).IsName ↔ t.IsName := by
  rw [Lexeme.IsName, Lexeme.IsName, hg]

theorem Keyword.ofText?_eq_some {n : String} {word : Keyword} :
    Keyword.ofText? n = some word ↔ n = word.text :=
  ⟨fun h => (Keyword.text_of_ofText? h).symm, fun h => h ▸ Keyword.ofText?_text word⟩

theorem KeepsWords.spells (hg : KeepsWords g) (kind : UseKind) (t : Lexeme) :
    kind.Spells (g t) ↔ kind.Spells t := by
  cases kind with
  | read => exact hg.isName t
  | write => exact hg.isName t
  | this =>
      change (g t).text = Keyword.this.text ↔ t.text = Keyword.this.text
      rw [← Keyword.ofText?_eq_some, ← Keyword.ofText?_eq_some, hg]
  | super =>
      change (g t).text = Keyword.super.text ↔ t.text = Keyword.super.text
      rw [← Keyword.ofText?_eq_some, ← Keyword.ofText?_eq_some, hg]

variable (g)

mutual

theorem Expr.references_map : ∀ e : Expr ι,
    (e.map f g).references = e.references.map fun u => (u.1, u.2.map f g)
  | .literal _ _ => rfl
  | .group _ inner => Expr.references_map inner
  | .unary _ _ _ operand => Expr.references_map operand
  | .binary _ _ _ left right => by
      rw [Expr.map, Expr.references, Expr.references, Expr.references_map left,
        Expr.references_map right, List.map_append]
  | .logical _ _ _ left right => by
      rw [Expr.map, Expr.references, Expr.references, Expr.references_map left,
        Expr.references_map right, List.map_append]
  | .name _ => rfl
  | .assign target value => by
      rw [Expr.map, Expr.references, Expr.references, Expr.references_map value, List.map_append]
      rfl
  | .call _ callee _ arguments => by
      rw [Expr.map, Expr.references, Expr.references, Expr.references_map callee,
        Expr.referencesEach_map arguments, List.map_append]
  | .get _ object _ => Expr.references_map object
  | .set _ object _ value => by
      rw [Expr.map, Expr.references, Expr.references, Expr.references_map object,
        Expr.references_map value, List.map_append]
  | .this _ => rfl
  | .super _ _ => rfl

theorem Expr.referencesEach_map : ∀ es : List (Expr ι),
    Expr.referencesEach (Expr.mapEach f g es) =
      (Expr.referencesEach es).map fun u => (u.1, u.2.map f g)
  | [] => rfl
  | e :: es => by
      rw [Expr.mapEach, Expr.referencesEach, Expr.referencesEach, Expr.references_map e,
        Expr.referencesEach_map es, List.map_append]

end

theorem Stmt.declared?_map (s : Stmt ι) : (s.map f g).declared? = s.declared?.map g := by
  cases s with
  | ite c yes no => cases no <;> rfl
  | function decl => cases decl; rfl
  | _ => rfl

variable {g}

theorem Expr.spelled_map (hg : KeepsWords g) (e : Expr ι) : (e.map f g).Spelled ↔ e.Spelled := by
  unfold Expr.Spelled
  rw [Expr.references_map, List.forall_mem_map]
  exact forall₂_congr fun u _ => hg.spells u.1 u.2.name

theorem Expr.spelled_map? (hg : KeepsWords g) (e : Option (Expr ι)) :
    (∀ x ∈ e.map (·.map f g), x.Spelled) ↔ ∀ x ∈ e, x.Spelled := by
  cases e with
  | none => simp
  | some e => simpa using Expr.spelled_map f hg e

mutual

theorem Stmt.formed_map (hg : KeepsWords g) : ∀ s : Stmt ι, (s.map f g).Formed ↔ s.Formed
  | .expression value => Expr.spelled_map f hg value
  | .print value => Expr.spelled_map f hg value
  | .var name initializer => and_congr (hg.isName name) (Expr.spelled_map? f hg initializer)
  | .block body => Stmt.formedAll_map hg body
  | .ite condition yes none => by
      rw [Stmt.map, Stmt.Formed, Stmt.Formed, Expr.spelled_map f hg, Stmt.formed_map hg yes,
        Stmt.declared?_map, Option.map_eq_none_iff]
  | .ite condition yes (some no) => by
      rw [Stmt.map, Stmt.Formed, Stmt.Formed, Expr.spelled_map f hg, Stmt.formed_map hg yes,
        Stmt.formed_map hg no, Stmt.declared?_map, Stmt.declared?_map, Option.map_eq_none_iff,
        Option.map_eq_none_iff]
  | .while condition body => by
      rw [Stmt.map, Stmt.Formed, Stmt.Formed, Expr.spelled_map f hg, Stmt.formed_map hg body,
        Stmt.declared?_map, Option.map_eq_none_iff]
  | .function decl => by
      rw [Stmt.map, Stmt.Formed, Stmt.Formed, FunDecl.name_map, hg.isName, FunDecl.formed_map hg decl]
  | .ret _ value => Expr.spelled_map? f hg value
  | .cls name none methods => by
      rw [Stmt.map, Stmt.Formed, Stmt.Formed, hg.isName, FunDecl.formedEach_map hg methods]
      simp
  | .cls name (some superclass) methods => by
      rw [Stmt.map, Stmt.Formed, Stmt.Formed, hg.isName, FunDecl.formedEach_map hg methods]
      simp [Reference.map, hg.isName]

theorem Stmt.formedAll_map (hg : KeepsWords g) : ∀ body : List (Stmt ι),
    Stmt.FormedAll (Stmt.mapAll f g body) ↔ Stmt.FormedAll body
  | [] => .rfl
  | s :: body => and_congr (Stmt.formed_map hg s) (Stmt.formedAll_map hg body)

theorem FunDecl.formed_map (hg : KeepsWords g) : ∀ decl : FunDecl ι, (decl.map f g).Formed ↔ decl.Formed
  | .mk _ params body => by
      rw [FunDecl.map, FunDecl.Formed, FunDecl.Formed, List.forall_mem_map, Stmt.formedAll_map hg body]
      exact and_congr_left' (forall₂_congr fun p _ => hg.isName p)

theorem FunDecl.formedEach_map (hg : KeepsWords g) : ∀ decls : List (FunDecl ι),
    FunDecl.FormedEach (FunDecl.mapEach f g decls) ↔ FunDecl.FormedEach decls
  | [] => .rfl
  | decl :: decls => and_congr (FunDecl.formed_map hg decl) (FunDecl.formedEach_map hg decls)

end

end map

/-! ### Numbering -/

/-- The change of labels that takes all numbers away. -/
abbrev unnumbered : NodeId → Unit := fun _ => ()

mutual

/-- A numbered expression without its numbers is the one that was numbered. -/
theorem Expr.map_number : ∀ (e : PlainExpr) (next : NodeId), (e.number next).1.map unnumbered id = e
  | .literal _ _, _ => rfl
  | .group _ inner, _ => congrArg (Expr.group ()) (Expr.map_number inner _)
  | .unary _ op sign operand, _ => congrArg (Expr.unary () op sign) (Expr.map_number operand _)
  | .binary _ op sign left right, _ =>
      congrArg₂ (Expr.binary () op sign) (Expr.map_number left _) (Expr.map_number right _)
  | .logical _ op sign left right, _ =>
      congrArg₂ (Expr.logical () op sign) (Expr.map_number left _) (Expr.map_number right _)
  | .name _, _ => rfl
  | .assign target value, _ => congrArg (Expr.assign target) (Expr.map_number value _)
  | .call _ callee closing arguments, _ =>
      congrArg₂ (Expr.call () · closing ·) (Expr.map_number callee _)
        (Expr.mapEach_number arguments _)
  | .get _ object property, _ => congrArg (Expr.get () · property) (Expr.map_number object _)
  | .set _ object property value, _ =>
      congrArg₂ (Expr.set () · property ·) (Expr.map_number object _) (Expr.map_number value _)
  | .this _, _ => rfl
  | .super _ _, _ => rfl

theorem Expr.mapEach_number : ∀ (es : List PlainExpr) (next : NodeId),
    Expr.mapEach unnumbered id (Expr.numberEach next es).1 = es
  | [], _ => rfl
  | e :: es, _ => congrArg₂ List.cons (Expr.map_number e _) (Expr.mapEach_number es _)

end

theorem Expr.map?_number (e : Option PlainExpr) (next : NodeId) :
    (Expr.number? next e).1.map (·.map unnumbered id) = e := by
  cases e with
  | none => rfl
  | some e => exact congrArg some (Expr.map_number e next)

mutual

/-- A numbered statement without its numbers is the one that was numbered. -/
theorem Stmt.map_number : ∀ (s : PlainStmt) (next : NodeId), (s.number next).1.map unnumbered id = s
  | .expression value, _ => congrArg Stmt.expression (Expr.map_number value _)
  | .print value, _ => congrArg Stmt.print (Expr.map_number value _)
  | .var name initializer, _ => congrArg (Stmt.var name) (Expr.map?_number initializer _)
  | .block body, _ => congrArg Stmt.block (Stmt.mapAll_number body _)
  | .ite condition yes none, _ =>
      congrArg₂ (Stmt.ite · · none) (Expr.map_number condition _) (Stmt.map_number yes _)
  | .ite condition yes (some no), next => by
      rw [Stmt.number, Stmt.map, Expr.map_number condition, Stmt.map_number yes, Stmt.map_number no]
  | .while condition body, _ =>
      congrArg₂ Stmt.while (Expr.map_number condition _) (Stmt.map_number body _)
  | .function decl, _ => congrArg Stmt.function (FunDecl.map_number decl _)
  | .ret keyword value, _ => congrArg (Stmt.ret keyword) (Expr.map?_number value _)
  | .cls name none methods, _ =>
      congrArg (Stmt.cls name none) (FunDecl.mapEach_number methods _)
  | .cls name (some superclass) methods, _ =>
      congrArg (Stmt.cls name (some superclass)) (FunDecl.mapEach_number methods _)

theorem Stmt.mapAll_number : ∀ (body : List PlainStmt) (next : NodeId),
    Stmt.mapAll unnumbered id (Stmt.numberAll next body).1 = body
  | [], _ => rfl
  | s :: body, _ => congrArg₂ List.cons (Stmt.map_number s _) (Stmt.mapAll_number body _)

theorem FunDecl.map_number : ∀ (decl : FunDecl Unit) (next : NodeId),
    (decl.number next).1.map unnumbered id = decl
  | .mk name params body, next => by
      rw [FunDecl.number, FunDecl.map, Stmt.mapAll_number body, List.map_id, id]

theorem FunDecl.mapEach_number : ∀ (decls : List (FunDecl Unit)) (next : NodeId),
    FunDecl.mapEach unnumbered id (FunDecl.numberEach next decls).1 = decls
  | [], _ => rfl
  | decl :: decls, _ => congrArg₂ List.cons (FunDecl.map_number decl _) (FunDecl.mapEach_number decls _)

end

theorem keepsWords_id : KeepsWords id := .of_text fun _ => rfl

/-- A formed program stays so when it is numbered. -/
theorem Stmt.formedAll_number {body : List PlainStmt} (h : Stmt.FormedAll body) (next : NodeId) :
    Stmt.FormedAll (Stmt.numberAll next body).1 := by
  rw [← Stmt.formedAll_map unnumbered keepsWords_id, Stmt.mapAll_number]
  exact h

theorem Expr.spelled_number {e : PlainExpr} (h : e.Spelled) (next : NodeId) :
    (e.number next).1.Spelled := by
  rw [← Expr.spelled_map unnumbered keepsWords_id, Expr.map_number]
  exact h

end Lox
