import Lox.Proofs.Relexing

/-! # Texts whose lexemes were changed

The grammar looks only at the categories of tokens, so a text whose lexemes were changed is read as a tree whose
lexemes were changed: the text before the change is a text of the tree before it (`BodyText.origin`). -/

namespace Lox

open Lox.Parser

section origin

variable (g : Lexeme → Lexeme)

mutual

theorem ExprText.origin : ∀ {grade : Grade} {ts us : List Token} {e : PlainExpr}, ExprText grade ts e →
    us.map (Token.map g) = ts → ∃ e₀, ExprText grade us e₀ ∧ e₀.map id g = e
  | _, _, _, _, .literal h, hu => by
      obtain ⟨t, rfl, rfl⟩ := List.map_eq_singleton_iff.mp hu
      exact ⟨_, .literal h, rfl⟩
  | _, _, _, _, .name h, hu => by
      obtain ⟨t, rfl, rfl⟩ := List.map_eq_singleton_iff.mp hu
      exact ⟨_, .name h, rfl⟩
  | _, _, _, _, .this h, hu => by
      obtain ⟨t, rfl, rfl⟩ := List.map_eq_singleton_iff.mp hu
      exact ⟨_, .this h, rfl⟩
  | _, _, _, _, .super h hd hn, hu => by
      obtain ⟨t, _, rfl, rfl, h₁⟩ := List.map_eq_cons_iff.mp hu
      obtain ⟨d, _, rfl, rfl, h₂⟩ := List.map_eq_cons_iff.mp h₁
      obtain ⟨n, rfl, rfl⟩ := List.map_eq_singleton_iff.mp h₂
      exact ⟨_, .super h hd hn, rfl⟩
  | _, _, _, _, .group hl h hr, hu => by
      obtain ⟨l, _, rfl, rfl, h₁⟩ := List.map_eq_cons_iff.mp hu
      obtain ⟨us, _, rfl, hus, h₂⟩ := List.map_eq_append_iff.mp h₁
      obtain ⟨r, rfl, rfl⟩ := List.map_eq_singleton_iff.mp h₂
      obtain ⟨e, he, rfl⟩ := h.origin hus
      exact ⟨_, .group hl he hr, rfl⟩
  | _, _, _, _, .call h hl ha hr hn, hu => by
      obtain ⟨us, _, rfl, hus, h₁⟩ := List.map_eq_append_iff.mp hu
      obtain ⟨l, _, rfl, rfl, h₂⟩ := List.map_eq_cons_iff.mp h₁
      obtain ⟨vs, _, rfl, hvs, h₃⟩ := List.map_eq_append_iff.mp h₂
      obtain ⟨r, rfl, rfl⟩ := List.map_eq_singleton_iff.mp h₃
      obtain ⟨f, hf, rfl⟩ := h.origin hus
      obtain ⟨args, hargs, rfl⟩ := ha.origin hvs
      rw [Expr.length_mapEach] at hn
      exact ⟨_, .call hf hl hargs hr hn, rfl⟩
  | _, _, _, _, .get h hd hn, hu => by
      obtain ⟨us, _, rfl, hus, h₁⟩ := List.map_eq_append_iff.mp hu
      obtain ⟨d, _, rfl, rfl, h₂⟩ := List.map_eq_cons_iff.mp h₁
      obtain ⟨n, rfl, rfl⟩ := List.map_eq_singleton_iff.mp h₂
      obtain ⟨e, he, rfl⟩ := h.origin hus
      exact ⟨_, .get he hd hn, rfl⟩
  | _, _, _, _, .unary ht h, hu => by
      obtain ⟨t, us, rfl, rfl, hus⟩ := List.map_eq_cons_iff.mp hu
      obtain ⟨e, he, rfl⟩ := h.origin hus
      exact ⟨_, .unary ht he, rfl⟩
  | _, _, _, _, .binary hl ht hr, hu => by
      obtain ⟨us, _, rfl, hus, h₁⟩ := List.map_eq_append_iff.mp hu
      obtain ⟨t, vs, rfl, rfl, hvs⟩ := List.map_eq_cons_iff.mp h₁
      obtain ⟨a, ha, rfl⟩ := hl.origin hus
      obtain ⟨b, hb, rfl⟩ := hr.origin hvs
      exact ⟨_, .binary ha ht hb, rfl⟩
  | _, _, _, _, .logical hl ht hr, hu => by
      obtain ⟨us, _, rfl, hus, h₁⟩ := List.map_eq_append_iff.mp hu
      obtain ⟨t, vs, rfl, rfl, hvs⟩ := List.map_eq_cons_iff.mp h₁
      obtain ⟨a, ha, rfl⟩ := hl.origin hus
      obtain ⟨b, hb, rfl⟩ := hr.origin hvs
      exact ⟨_, .logical ha ht hb, rfl⟩
  | _, _, _, _, .assign h ht hr, hu => by
      obtain ⟨us, _, rfl, hus, h₁⟩ := List.map_eq_append_iff.mp hu
      obtain ⟨t, vs, rfl, rfl, hvs⟩ := List.map_eq_cons_iff.mp h₁
      obtain ⟨e, he, hname⟩ := h.origin hus
      obtain ⟨v, hv, rfl⟩ := hr.origin hvs
      cases e <;> simp only [Expr.map, Expr.name.injEq, reduceCtorEq] at hname
      subst hname
      exact ⟨_, .assign he ht hv, rfl⟩
  | _, _, _, _, .set h ht hr, hu => by
      obtain ⟨us, _, rfl, hus, h₁⟩ := List.map_eq_append_iff.mp hu
      obtain ⟨t, vs, rfl, rfl, hvs⟩ := List.map_eq_cons_iff.mp h₁
      obtain ⟨e, he, hget⟩ := h.origin hus
      obtain ⟨v, hv, rfl⟩ := hr.origin hvs
      cases e <;> simp only [Expr.map, Expr.get.injEq, reduceCtorEq] at hget
      obtain ⟨-, rfl, rfl⟩ := hget
      exact ⟨_, .set he ht hv, rfl⟩
  | _, _, _, _, .tighter h, hu => by
      obtain ⟨e, he, rfl⟩ := h.origin hu
      exact ⟨_, .tighter he, rfl⟩

theorem ArgsText.origin : ∀ {ts us : List Token} {es : List PlainExpr}, ArgsText ts es →
    us.map (Token.map g) = ts → ∃ es₀, ArgsText us es₀ ∧ Expr.mapEach id g es₀ = es
  | _, _, _, .none, hu => by
      obtain rfl := List.map_eq_nil_iff.mp hu
      exact ⟨_, .none, rfl⟩
  | _, _, _, .one h, hu => by
      obtain ⟨e, he, rfl⟩ := h.origin hu
      exact ⟨_, .one he, rfl⟩
  | _, _, _, .more h hc hs, hu => by
      obtain ⟨us, _, rfl, hus, h₁⟩ := List.map_eq_append_iff.mp hu
      obtain ⟨c, vs, rfl, rfl, hvs⟩ := List.map_eq_cons_iff.mp h₁
      obtain ⟨e, he, rfl⟩ := h.origin hus
      obtain ⟨es, hes, hmap⟩ := hs.origin hvs
      cases es with
      | nil => exact nomatch hmap
      | cons e' es =>
        rw [← hmap]
        exact ⟨_, .more he hc hes, rfl⟩

end

theorem ExprText?.origin {ts us : List Token} {e : Option PlainExpr} (h : ExprText? ts e)
    (hu : us.map (Token.map g) = ts) : ∃ e₀, ExprText? us e₀ ∧ e₀.map (·.map id g) = e := by
  cases h with
  | none =>
    obtain rfl := List.map_eq_nil_iff.mp hu
    exact ⟨_, .none, rfl⟩
  | some h =>
    obtain ⟨e, he, rfl⟩ := h.origin g hu
    exact ⟨_, .some he, rfl⟩

theorem ParamsText.origin : ∀ {ts us : List Token} {ps : List Lexeme}, ParamsText ts ps →
    us.map (Token.map g) = ts → ∃ ps₀, ParamsText us ps₀ ∧ ps₀.map g = ps
  | _, _, _, .none, hu => by
      obtain rfl := List.map_eq_nil_iff.mp hu
      exact ⟨_, .none, rfl⟩
  | _, _, _, .one h, hu => by
      obtain ⟨t, rfl, rfl⟩ := List.map_eq_singleton_iff.mp hu
      exact ⟨_, .one h, rfl⟩
  | _, _, _, .more h hc hs, hu => by
      obtain ⟨t, _, rfl, rfl, h₁⟩ := List.map_eq_cons_iff.mp hu
      obtain ⟨c, us, rfl, rfl, hus⟩ := List.map_eq_cons_iff.mp h₁
      obtain ⟨ps, hps, hmap⟩ := hs.origin hus
      cases ps with
      | nil => exact nomatch hmap
      | cons p ps =>
        rw [← hmap]
        exact ⟨_, .more h hc hps, rfl⟩

theorem VarText.origin : ∀ {ts us : List Token} {s : PlainStmt}, VarText ts s → us.map (Token.map g) = ts →
    ∃ s₀, VarText us s₀ ∧ s₀.map id g = s
  | _, _, _, .plain hk hn hs, hu => by
      obtain ⟨k, _, rfl, rfl, h₁⟩ := List.map_eq_cons_iff.mp hu
      obtain ⟨n, _, rfl, rfl, h₂⟩ := List.map_eq_cons_iff.mp h₁
      obtain ⟨s, rfl, rfl⟩ := List.map_eq_singleton_iff.mp h₂
      exact ⟨_, .plain hk hn hs, rfl⟩
  | _, _, _, .initialized hk hn hq h hs, hu => by
      obtain ⟨k, _, rfl, rfl, h₁⟩ := List.map_eq_cons_iff.mp hu
      obtain ⟨n, _, rfl, rfl, h₂⟩ := List.map_eq_cons_iff.mp h₁
      obtain ⟨q, _, rfl, rfl, h₃⟩ := List.map_eq_cons_iff.mp h₂
      obtain ⟨us, _, rfl, hus, h₄⟩ := List.map_eq_append_iff.mp h₃
      obtain ⟨s, rfl, rfl⟩ := List.map_eq_singleton_iff.mp h₄
      obtain ⟨e, he, rfl⟩ := h.origin g hus
      exact ⟨_, .initialized hk hn hq he hs, rfl⟩

theorem StartText.origin : ∀ {ts us : List Token} {s : Option PlainStmt}, StartText ts s →
    us.map (Token.map g) = ts → ∃ s₀, StartText us s₀ ∧ s₀.map (·.map id g) = s
  | _, _, _, .none hs, hu => by
      obtain ⟨s, rfl, rfl⟩ := List.map_eq_singleton_iff.mp hu
      exact ⟨_, .none hs, rfl⟩
  | _, _, _, .var h, hu => by
      obtain ⟨v, hv, rfl⟩ := h.origin g hu
      exact ⟨_, .var hv, rfl⟩
  | _, _, _, .expression h hs, hu => by
      obtain ⟨us, _, rfl, hus, h₁⟩ := List.map_eq_append_iff.mp hu
      obtain ⟨s, rfl, rfl⟩ := List.map_eq_singleton_iff.mp h₁
      obtain ⟨e, he, rfl⟩ := h.origin g hus
      exact ⟨_, .expression he hs, rfl⟩

mutual

theorem StmtText.origin : ∀ {dangling : Bool} {ts us : List Token} {s : PlainStmt}, StmtText dangling ts s →
    us.map (Token.map g) = ts → ∃ s₀, StmtText dangling us s₀ ∧ s₀.map id g = s
  | _, _, _, _, .expression h hs, hu => by
      obtain ⟨us, _, rfl, hus, h₁⟩ := List.map_eq_append_iff.mp hu
      obtain ⟨s, rfl, rfl⟩ := List.map_eq_singleton_iff.mp h₁
      obtain ⟨e, he, rfl⟩ := h.origin g hus
      exact ⟨_, .expression he hs, rfl⟩
  | _, _, _, _, .print hk h hs, hu => by
      obtain ⟨k, _, rfl, rfl, h₁⟩ := List.map_eq_cons_iff.mp hu
      obtain ⟨us, _, rfl, hus, h₂⟩ := List.map_eq_append_iff.mp h₁
      obtain ⟨s, rfl, rfl⟩ := List.map_eq_singleton_iff.mp h₂
      obtain ⟨e, he, rfl⟩ := h.origin g hus
      exact ⟨_, .print hk he hs, rfl⟩
  | _, _, _, _, .ret hk h hs, hu => by
      obtain ⟨k, _, rfl, rfl, h₁⟩ := List.map_eq_cons_iff.mp hu
      obtain ⟨us, _, rfl, hus, h₂⟩ := List.map_eq_append_iff.mp h₁
      obtain ⟨s, rfl, rfl⟩ := List.map_eq_singleton_iff.mp h₂
      obtain ⟨e, he, rfl⟩ := h.origin g hus
      exact ⟨_, .ret hk he hs, rfl⟩
  | _, _, _, _, .block hl h hr, hu => by
      obtain ⟨l, _, rfl, rfl, h₁⟩ := List.map_eq_cons_iff.mp hu
      obtain ⟨us, _, rfl, hus, h₂⟩ := List.map_eq_append_iff.mp h₁
      obtain ⟨r, rfl, rfl⟩ := List.map_eq_singleton_iff.mp h₂
      obtain ⟨body, hbody, rfl⟩ := h.origin hus
      exact ⟨_, .block hl hbody hr, rfl⟩
  | _, _, _, _, .ite hk hl hi hr hs, hu => by
      obtain ⟨k, _, rfl, rfl, h₁⟩ := List.map_eq_cons_iff.mp hu
      obtain ⟨l, _, rfl, rfl, h₂⟩ := List.map_eq_cons_iff.mp h₁
      obtain ⟨cs, _, rfl, hcs, h₃⟩ := List.map_eq_append_iff.mp h₂
      obtain ⟨r, ys, rfl, rfl, hys⟩ := List.map_eq_cons_iff.mp h₃
      obtain ⟨c, hc, rfl⟩ := hi.origin g hcs
      obtain ⟨yes, hyes, rfl⟩ := hs.origin hys
      exact ⟨_, .ite hk hl hc hr hyes, rfl⟩
  | _, _, _, _, .iteElse hk hl hi hr hs hn h, hu => by
      obtain ⟨k, _, rfl, rfl, h₁⟩ := List.map_eq_cons_iff.mp hu
      obtain ⟨l, _, rfl, rfl, h₂⟩ := List.map_eq_cons_iff.mp h₁
      obtain ⟨cs, _, rfl, hcs, h₃⟩ := List.map_eq_append_iff.mp h₂
      obtain ⟨r, _, rfl, rfl, h₄⟩ := List.map_eq_cons_iff.mp h₃
      obtain ⟨ys, _, rfl, hys, h₅⟩ := List.map_eq_append_iff.mp h₄
      obtain ⟨n, ns, rfl, rfl, hns⟩ := List.map_eq_cons_iff.mp h₅
      obtain ⟨c, hc, rfl⟩ := hi.origin g hcs
      obtain ⟨yes, hyes, rfl⟩ := hs.origin hys
      obtain ⟨no, hno, rfl⟩ := h.origin hns
      exact ⟨_, .iteElse hk hl hc hr hyes hn hno, rfl⟩
  | _, _, _, _, .while hk hl hi hr hs, hu => by
      obtain ⟨k, _, rfl, rfl, h₁⟩ := List.map_eq_cons_iff.mp hu
      obtain ⟨l, _, rfl, rfl, h₂⟩ := List.map_eq_cons_iff.mp h₁
      obtain ⟨cs, _, rfl, hcs, h₃⟩ := List.map_eq_append_iff.mp h₂
      obtain ⟨r, bs, rfl, rfl, hbs⟩ := List.map_eq_cons_iff.mp h₃
      obtain ⟨c, hc, rfl⟩ := hi.origin g hcs
      obtain ⟨body, hbody, rfl⟩ := hs.origin hbs
      exact ⟨_, .while hk hl hc hr hbody, rfl⟩
  | _, _, _, _, .for hk hl hi ht hs hu hr hb, hmap => by
      obtain ⟨k, _, rfl, rfl, h₁⟩ := List.map_eq_cons_iff.mp hmap
      obtain ⟨l, _, rfl, rfl, h₂⟩ := List.map_eq_cons_iff.mp h₁
      obtain ⟨is, _, rfl, his, h₃⟩ := List.map_eq_append_iff.mp h₂
      obtain ⟨cs, _, rfl, hcs, h₄⟩ := List.map_eq_append_iff.mp h₃
      obtain ⟨s, _, rfl, rfl, h₅⟩ := List.map_eq_cons_iff.mp h₄
      obtain ⟨vs, _, rfl, hvs, h₆⟩ := List.map_eq_append_iff.mp h₅
      obtain ⟨r, bs, rfl, rfl, hbs⟩ := List.map_eq_cons_iff.mp h₆
      obtain ⟨start, hstart, rfl⟩ := hi.origin g his
      obtain ⟨c, hc, rfl⟩ := ht.origin g hcs
      obtain ⟨step, hstep, rfl⟩ := hu.origin g hvs
      obtain ⟨body, hbody, rfl⟩ := hb.origin hbs
      exact ⟨_, .for hk hl hstart hc hs hstep hr hbody, forLoop_map g start c step body⟩

theorem DeclText.origin : ∀ {dangling : Bool} {ts us : List Token} {s : PlainStmt}, DeclText dangling ts s →
    us.map (Token.map g) = ts → ∃ s₀, DeclText dangling us s₀ ∧ s₀.map id g = s
  | _, _, _, _, .base hk hn hl h hr, hu => by
      obtain ⟨k, _, rfl, rfl, h₁⟩ := List.map_eq_cons_iff.mp hu
      obtain ⟨n, _, rfl, rfl, h₂⟩ := List.map_eq_cons_iff.mp h₁
      obtain ⟨l, _, rfl, rfl, h₃⟩ := List.map_eq_cons_iff.mp h₂
      obtain ⟨us, _, rfl, hus, h₄⟩ := List.map_eq_append_iff.mp h₃
      obtain ⟨r, rfl, rfl⟩ := List.map_eq_singleton_iff.mp h₄
      obtain ⟨methods, hmethods, rfl⟩ := h.origin hus
      exact ⟨_, .base hk hn hl hmethods hr, rfl⟩
  | _, _, _, _, .derived hk hn hq hp hl h hr, hu => by
      obtain ⟨k, _, rfl, rfl, h₁⟩ := List.map_eq_cons_iff.mp hu
      obtain ⟨n, _, rfl, rfl, h₂⟩ := List.map_eq_cons_iff.mp h₁
      obtain ⟨q, _, rfl, rfl, h₃⟩ := List.map_eq_cons_iff.mp h₂
      obtain ⟨p, _, rfl, rfl, h₄⟩ := List.map_eq_cons_iff.mp h₃
      obtain ⟨l, _, rfl, rfl, h₅⟩ := List.map_eq_cons_iff.mp h₄
      obtain ⟨us, _, rfl, hus, h₆⟩ := List.map_eq_append_iff.mp h₅
      obtain ⟨r, rfl, rfl⟩ := List.map_eq_singleton_iff.mp h₆
      obtain ⟨methods, hmethods, rfl⟩ := h.origin hus
      exact ⟨_, .derived hk hn hq hp hl hmethods hr, rfl⟩
  | _, _, _, _, .function hk h, hu => by
      obtain ⟨k, us, rfl, rfl, hus⟩ := List.map_eq_cons_iff.mp hu
      obtain ⟨decl, hdecl, rfl⟩ := h.origin hus
      exact ⟨_, .function hk hdecl, rfl⟩
  | _, _, _, _, .var h, hu => by
      obtain ⟨s, hs, rfl⟩ := h.origin g hu
      exact ⟨_, .var hs, rfl⟩
  | _, _, _, _, .statement h, hu => by
      obtain ⟨s, hs, rfl⟩ := h.origin hu
      exact ⟨_, .statement hs, rfl⟩

/-- A text whose lexemes were changed is a text of a tree whose lexemes were changed. -/
theorem BodyText.origin : ∀ {ts us : List Token} {body : List PlainStmt}, BodyText ts body →
    us.map (Token.map g) = ts → ∃ body₀, BodyText us body₀ ∧ Stmt.mapAll id g body₀ = body
  | _, _, _, .nil, hu => by
      obtain rfl := List.map_eq_nil_iff.mp hu
      exact ⟨_, .nil, rfl⟩
  | _, _, _, .cons h hb, hu => by
      obtain ⟨us, vs, rfl, hus, hvs⟩ := List.map_eq_append_iff.mp hu
      obtain ⟨s, hs, rfl⟩ := h.origin hus
      obtain ⟨body, hbody, rfl⟩ := hb.origin hvs
      exact ⟨_, .cons hs hbody, rfl⟩

theorem RoutineText.origin : ∀ {ts us : List Token} {decl : FunDecl Unit}, RoutineText ts decl →
    us.map (Token.map g) = ts → ∃ decl₀, RoutineText us decl₀ ∧ decl₀.map id g = decl
  | _, _, _, .mk hn hl hp hm hr hb h he, hu => by
      obtain ⟨n, _, rfl, rfl, h₁⟩ := List.map_eq_cons_iff.mp hu
      obtain ⟨l, _, rfl, rfl, h₂⟩ := List.map_eq_cons_iff.mp h₁
      obtain ⟨ps, _, rfl, hps, h₃⟩ := List.map_eq_append_iff.mp h₂
      obtain ⟨r, _, rfl, rfl, h₄⟩ := List.map_eq_cons_iff.mp h₃
      obtain ⟨b, _, rfl, rfl, h₅⟩ := List.map_eq_cons_iff.mp h₄
      obtain ⟨us, _, rfl, hus, h₆⟩ := List.map_eq_append_iff.mp h₅
      obtain ⟨e, rfl, rfl⟩ := List.map_eq_singleton_iff.mp h₆
      obtain ⟨params, hparams, rfl⟩ := hp.origin g hps
      obtain ⟨body, hbody, rfl⟩ := h.origin hus
      rw [List.length_map] at hm
      exact ⟨_, .mk hn hl hparams hm hr hb hbody he, rfl⟩

theorem MethodsText.origin : ∀ {ts us : List Token} {decls : List (FunDecl Unit)}, MethodsText ts decls →
    us.map (Token.map g) = ts → ∃ decls₀, MethodsText us decls₀ ∧ FunDecl.mapEach id g decls₀ = decls
  | _, _, _, .nil, hu => by
      obtain rfl := List.map_eq_nil_iff.mp hu
      exact ⟨_, .nil, rfl⟩
  | _, _, _, .cons h hs, hu => by
      obtain ⟨us, vs, rfl, hus, hvs⟩ := List.map_eq_append_iff.mp hu
      obtain ⟨decl, hdecl, rfl⟩ := h.origin hus
      obtain ⟨decls, hdecls, rfl⟩ := hs.origin hvs
      exact ⟨_, .cons hdecl hdecls, rfl⟩

end

end origin

end Lox
