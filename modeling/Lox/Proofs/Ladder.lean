import Mathlib.Data.List.Forall2
import Lox.Proofs.ParserComplete

/-! # Expressions as flattened trees

A tree keeps the lexemes of its names, operators and keywords and of the parentheses that close its calls;
of its other tokens it knows the categories alone.  `Expr.imprints` is what a tree knows of its tokens, in the
order of the text, and a tree is a ladder (`Expr.Ladder`) when every operand binds as tightly as its place
asks for.  The texts of an expression are the lists of tokens with these imprints
(`exprText_iff_flattens`), so a parse loses no token, and a ladder is read back from its tokens
(`parseExpression_iff_flattens`). -/

namespace Lox

open Lox.Parser

/-! ### Operators and their tokens -/

/-- The category of the token that a literal is written with. -/
def Literal.kind : Literal → Kind
  | .number value => .number value
  | .string value => .string value
  | .bool true => .keyword .true
  | .bool false => .keyword .false
  | .nil => .keyword .nil

/-- The category of an operator of one operand. -/
def UnaryOp.kind : UnaryOp → Kind
  | .not => .bang
  | .negate => .minus

/-- The category of an operator of two operands. -/
def BinaryOp.kind : BinaryOp → Kind
  | .add => .plus
  | .subtract => .minus
  | .multiply => .star
  | .divide => .slash
  | .greater => .greater
  | .greaterEqual => .greaterEqual
  | .less => .less
  | .lessEqual => .lessEqual
  | .equal => .equalEqual
  | .notEqual => .bangEqual

/-- The category of a word that joins two operands. -/
def LogicalOp.kind : LogicalOp → Kind
  | .and => .keyword .and
  | .or => .keyword .or

/-- How tightly an operator of two operands binds. -/
def BinaryOp.grade : BinaryOp → Grade
  | .add | .subtract => .sum
  | .multiply | .divide => .product
  | .greater | .greaterEqual | .less | .lessEqual => .comparison
  | .equal | .notEqual => .equality

/-- How tightly a word that joins two operands binds. -/
def LogicalOp.grade : LogicalOp → Grade
  | .and => .conjunction
  | .or => .disjunction

theorem literalValue_eq_some {k : Kind} {v : Literal} : literalValue k = some v ↔ v.kind = k := by
  constructor
  · intro h
    unfold literalValue at h
    split at h <;> cases h <;> rfl
  · rintro rfl
    cases v with
    | bool b => cases b <;> rfl
    | _ => rfl

theorem prefixOp_eq_some {k : Kind} {op : UnaryOp} : prefixOp k = some op ↔ op.kind = k := by
  constructor
  · intro h
    unfold prefixOp at h
    split at h <;> cases h <;> rfl
  · rintro rfl
    cases op <;> rfl

theorem binary?_eq_some {grade : Grade} {k : Kind} {op : BinaryOp} :
    grade.binary? k = some op ↔ op.grade = grade ∧ op.kind = k := by
  constructor
  · intro h
    unfold Grade.binary? at h
    split at h
    · unfold Parser.equality at h
      split at h <;> cases h <;> exact ⟨rfl, rfl⟩
    · unfold Parser.comparison at h
      split at h <;> cases h <;> exact ⟨rfl, rfl⟩
    · unfold Parser.sum at h
      split at h <;> cases h <;> exact ⟨rfl, rfl⟩
    · unfold Parser.product at h
      split at h <;> cases h <;> exact ⟨rfl, rfl⟩
    · cases h
  · rintro ⟨rfl, rfl⟩
    cases op <;> rfl

theorem logical?_eq_some {grade : Grade} {k : Kind} {op : LogicalOp} :
    grade.logical? k = some op ↔ op.grade = grade ∧ op.kind = k := by
  constructor
  · intro h
    unfold Grade.logical? at h
    split at h
    · unfold Parser.disjunctionOp at h
      split at h <;> cases h
      exact ⟨rfl, rfl⟩
    · unfold Parser.conjunctionOp at h
      split at h <;> cases h
      exact ⟨rfl, rfl⟩
    · cases h
  · rintro ⟨rfl, rfl⟩
    cases op <;> rfl

/-! ### What a tree keeps of its tokens -/

/-- What a tree knows of a token: all of it, or its category and the value with it. -/
inductive Imprint where
  | whole (t : Token)
  | kind (k : Kind)

/-- Can this token have left the imprint? -/
def Imprint.Fits : Imprint → Token → Prop
  | whole t, u => u = t
  | kind k, u => u.kind = k

theorem Imprint.fits_whole {t : Token} {k : Kind} (h : t.kind = k) :
    (Imprint.whole ⟨t.toLexeme, k⟩).Fits t := h ▸ rfl

section imprints

variable {ι : Type}

mutual

/-- What an expression knows of its tokens, in the order of the text. -/
def Expr.imprints : Expr ι → List Imprint
  | .literal _ value => [.kind value.kind]
  | .group _ inner => .kind .leftParen :: (inner.imprints ++ [.kind .rightParen])
  | .unary _ op sign operand => .whole ⟨sign, op.kind⟩ :: operand.imprints
  | .binary _ op sign left right => left.imprints ++ .whole ⟨sign, op.kind⟩ :: right.imprints
  | .logical _ op sign left right => left.imprints ++ .whole ⟨sign, op.kind⟩ :: right.imprints
  | .name ref => [.whole ⟨ref.name, .identifier⟩]
  | .assign target value => .whole ⟨target.name, .identifier⟩ :: .kind .equal :: value.imprints
  | .call _ callee closing arguments =>
    callee.imprints ++ .kind .leftParen ::
      (Expr.imprintsEach arguments ++ [.whole ⟨closing, .rightParen⟩])
  | .get _ object property => object.imprints ++ [.kind .dot, .whole ⟨property, .identifier⟩]
  | .set _ object property value =>
    object.imprints ++ .kind .dot :: .whole ⟨property, .identifier⟩ :: .kind .equal :: value.imprints
  | .this ref => [.whole ⟨ref.name, .keyword .this⟩]
  | .super ref method =>
    [.whole ⟨ref.name, .keyword .super⟩, .kind .dot, .whole ⟨method, .identifier⟩]

/-- What arguments know of their tokens and of the commas between them. -/
def Expr.imprintsEach : List (Expr ι) → List Imprint
  | [] => []
  | [e] => e.imprints
  | e :: e' :: rest => e.imprints ++ .kind .comma :: Expr.imprintsEach (e' :: rest)

end

/-- The tokens `ts` flatten the tree: each fits what the tree knows of it, and there are no others. -/
def Expr.Flattens (e : Expr ι) (ts : List Token) : Prop := List.Forall₂ Imprint.Fits e.imprints ts

/-- The tokens `ts` flatten the arguments with commas between them. -/
def Expr.FlattensEach (es : List (Expr ι)) (ts : List Token) : Prop :=
  List.Forall₂ Imprint.Fits (Expr.imprintsEach es) ts

end imprints

/-! ### Ladders -/

/-- The grades in order, the loosest first. -/
def Grade.rank : Grade → Nat
  | assignment => 0
  | disjunction => 1
  | conjunction => 2
  | equality => 3
  | comparison => 4
  | sum => 5
  | product => 6
  | unary => 7
  | call => 8
  | primary => 9

/-- A grade is at most another when it binds no tighter. -/
instance : LE Grade := ⟨fun a b => a.rank ≤ b.rank⟩

instance : LT Grade := ⟨fun a b => a.rank < b.rank⟩

instance (a b : Grade) : Decidable (a ≤ b) := inferInstanceAs (Decidable (a.rank ≤ b.rank))

section ladder

variable {ι : Type}

/-- How tightly an expression binds by its outermost operation. -/
def Expr.grade : Expr ι → Grade
  | .assign _ _ | .set _ _ _ _ => .assignment
  | .logical _ op _ _ _ => op.grade
  | .binary _ op _ _ _ => op.grade
  | .unary _ _ _ _ => .unary
  | .call _ _ _ _ | .get _ _ _ => .call
  | .literal _ _ | .group _ _ | .name _ | .this _ | .super _ _ => .primary

mutual

/-- A tree is a ladder: a left operand binds no looser than its operator and a right one tighter, the
operand of a prefix operator no looser than it, and what is called or has its properties used no looser than
a call; arguments, parenthesised and assigned expressions may bind loosely.  No call has too many
arguments. -/
def Expr.Ladder : Expr ι → Prop
  | .literal _ _ | .name _ | .this _ | .super _ _ => True
  | .group _ inner => inner.Ladder
  | .unary _ _ _ operand => operand.Ladder ∧ .unary ≤ operand.grade
  | .binary _ op _ left right =>
    left.Ladder ∧ op.grade ≤ left.grade ∧ right.Ladder ∧ op.grade < right.grade
  | .logical _ op _ left right =>
    left.Ladder ∧ op.grade ≤ left.grade ∧ right.Ladder ∧ op.grade < right.grade
  | .assign _ value => value.Ladder
  | .call _ callee _ arguments =>
    callee.Ladder ∧ .call ≤ callee.grade ∧ Expr.LadderEach arguments ∧ arguments.length ≤ maxArity
  | .get _ object _ => object.Ladder ∧ .call ≤ object.grade
  | .set _ object _ value => object.Ladder ∧ .call ≤ object.grade ∧ value.Ladder

/-- All arguments are ladders. -/
def Expr.LadderEach : List (Expr ι) → Prop
  | [] => True
  | e :: rest => e.Ladder ∧ Expr.LadderEach rest

end

end ladder

/-! ### Texts of any looser grade -/

theorem Grade.rank_tighter (grade : Grade) : grade.tighter.rank = min (grade.rank + 1) 9 := by
  cases grade <;> rfl

theorem Grade.rank_le (grade : Grade) : grade.rank ≤ 9 := by
  cases grade <;> decide

theorem Grade.rank_injective {a b : Grade} (h : a.rank = b.rank) : a = b := by
  revert h
  cases a <;> cases b <;> decide

/-- What passes from the next tighter grade to a grade passes to all looser grades. -/
theorem Grade.looser {P : Grade → Prop} (hP : ∀ g : Grade, P g.tighter → P g) {a b : Grade} (hab : a ≤ b)
    (h : P b) : P a := by
  obtain ⟨k, hk⟩ : ∃ k, b.rank = a.rank + k := ⟨b.rank - a.rank, (Nat.add_sub_cancel' hab).symm⟩
  clear hab
  induction k generalizing a with
  | zero => exact Grade.rank_injective hk ▸ h
  | succ k ih =>
      have := b.rank_le
      exact hP a (ih (by rw [Grade.rank_tighter]; omega))

/-- A text of an expression that binds tightly stands wherever a looser one may. -/
theorem ExprText.looser {a b : Grade} {ts : List Token} {e : PlainExpr} (h : ExprText b ts e)
    (hab : a ≤ b) : ExprText a ts e :=
  Grade.looser (P := fun g => ExprText g ts e) (fun _ => .tighter) hab h

theorem Grade.tighter_le {a b : Grade} (hb : a.rank < 9) : a.tighter ≤ b ↔ a < b := by
  change a.tighter.rank ≤ b.rank ↔ a.rank < b.rank
  rw [Grade.rank_tighter]
  omega

/-! ### Texts flatten their trees -/

open Imprint

section texts

variable {ts us : List Token} {e : PlainExpr}

theorem flattens_append {xs ys : List Imprint} (h : List.Forall₂ Imprint.Fits xs ts)
    (h' : List.Forall₂ Imprint.Fits ys us) : List.Forall₂ Imprint.Fits (xs ++ ys) (ts ++ us) :=
  List.rel_append h h'

theorem BinaryOp.rank_grade (op : BinaryOp) : op.grade.rank < 9 := by
  cases op <;> decide

theorem LogicalOp.rank_grade (op : LogicalOp) : op.grade.rank < 9 := by
  cases op <;> decide

mutual

/-- A text of an expression flattens it, and the expression is a ladder. -/
theorem ExprText.flattens : ∀ {grade : Grade} {ts : List Token} {e : PlainExpr}, ExprText grade ts e →
    e.Flattens ts ∧ e.Ladder ∧ grade ≤ e.grade
  | _, _, _, .literal h => ⟨.cons (literalValue_eq_some.mp h).symm .nil, trivial, Nat.le_refl _⟩
  | _, _, _, .name h => ⟨.cons (fits_whole h) .nil, trivial, Nat.le_refl _⟩
  | _, _, _, .this h => ⟨.cons (fits_whole h) .nil, trivial, Nat.le_refl _⟩
  | _, _, _, .super h hd hn =>
      ⟨.cons (fits_whole h) (.cons hd (.cons (fits_whole hn) .nil)), trivial, Nat.le_refl _⟩
  | _, _, _, .group hl h hr => by
      obtain ⟨hf, hs, -⟩ := h.flattens
      exact ⟨.cons hl (flattens_append hf (.cons hr .nil)), hs, Nat.le_refl _⟩
  | _, _, _, .call h hl ha hr hn => by
      obtain ⟨hf, hs, hg⟩ := h.flattens
      obtain ⟨hfa, hsa⟩ := ha.flattens
      exact ⟨flattens_append hf (.cons hl (flattens_append hfa (.cons (fits_whole hr) .nil))),
        ⟨hs, hg, hsa, hn⟩, Nat.le_refl _⟩
  | _, _, _, .get h hd hn => by
      obtain ⟨hf, hs, hg⟩ := h.flattens
      exact ⟨flattens_append hf (.cons hd (.cons (fits_whole hn) .nil)), ⟨hs, hg⟩, Nat.le_refl _⟩
  | _, _, _, .unary ht h => by
      obtain ⟨hf, hs, hg⟩ := h.flattens
      exact ⟨.cons (fits_whole (prefixOp_eq_some.mp ht).symm) hf, ⟨hs, hg⟩, Nat.le_refl _⟩
  | _, _, _, .binary ha ht hb => by
      obtain ⟨hfa, hsa, hga⟩ := ha.flattens
      obtain ⟨hfb, hsb, hgb⟩ := hb.flattens
      obtain ⟨rfl, hk⟩ := binary?_eq_some.mp ht
      exact ⟨flattens_append hfa (.cons (fits_whole hk.symm) hfb),
        ⟨hsa, hga, hsb, (Grade.tighter_le (BinaryOp.rank_grade _)).mp hgb⟩, Nat.le_refl _⟩
  | _, _, _, .logical ha ht hb => by
      obtain ⟨hfa, hsa, hga⟩ := ha.flattens
      obtain ⟨hfb, hsb, hgb⟩ := hb.flattens
      obtain ⟨rfl, hk⟩ := logical?_eq_some.mp ht
      exact ⟨flattens_append hfa (.cons (fits_whole hk.symm) hfb),
        ⟨hsa, hga, hsb, (Grade.tighter_le (LogicalOp.rank_grade _)).mp hgb⟩, Nat.le_refl _⟩
  | _, _, _, .assign h ht hv => by
      obtain ⟨hf, -, -⟩ := h.flattens
      obtain ⟨hfv, hsv, -⟩ := hv.flattens
      exact ⟨flattens_append hf (.cons ht hfv), hsv, Nat.zero_le _⟩
  | _, _, _, .set h ht hv => by
      obtain ⟨hf, ⟨hs, hg⟩, -⟩ := h.flattens
      obtain ⟨hfv, hsv, -⟩ := hv.flattens
      refine ⟨?_, ⟨hs, hg, hsv⟩, Nat.zero_le _⟩
      have hft : List.Forall₂ Fits (.kind .equal :: _) _ := .cons ht hfv
      have := flattens_append hf hft
      rwa [Expr.imprints, List.append_assoc] at this
  | grade, _, e, .tighter h => by
      obtain ⟨hf, hs, hg⟩ := h.flattens
      refine ⟨hf, hs, ?_⟩
      have hg : grade.tighter.rank ≤ e.grade.rank := hg
      have := e.grade.rank_le
      have := grade.rank_le
      rw [Grade.rank_tighter] at hg
      change grade.rank ≤ e.grade.rank
      omega

theorem ArgsText.flattens : ∀ {ts : List Token} {es : List PlainExpr}, ArgsText ts es →
    Expr.FlattensEach es ts ∧ Expr.LadderEach es
  | _, _, .none => ⟨.nil, trivial⟩
  | _, _, .one h => by
      obtain ⟨hf, hs, -⟩ := h.flattens
      exact ⟨hf, hs, trivial⟩
  | _, _, .more h hc hs => by
      obtain ⟨hf, hl, -⟩ := h.flattens
      obtain ⟨hfs, hls⟩ := hs.flattens
      exact ⟨flattens_append hf (.cons hc hfs), hl, hls⟩

end

/-! ### What flattens a ladder is a text of it -/

theorem of_flattens_cons {x : Imprint} {xs : List Imprint}
    (h : List.Forall₂ Imprint.Fits (x :: xs) ts) :
    ∃ t us, x.Fits t ∧ List.Forall₂ Imprint.Fits xs us ∧ ts = t :: us :=
  List.forall₂_cons_left_iff.mp h

theorem of_flattens_append {xs ys : List Imprint} (h : List.Forall₂ Imprint.Fits (xs ++ ys) ts) :
    ∃ us vs, List.Forall₂ Imprint.Fits xs us ∧ List.Forall₂ Imprint.Fits ys vs ∧ ts = us ++ vs := by
  induction xs generalizing ts with
  | nil => exact ⟨[], ts, .nil, h, rfl⟩
  | cons x xs ih =>
      obtain ⟨t, _, hx, h', rfl⟩ := of_flattens_cons h
      obtain ⟨us, vs, hxs, hys, rfl⟩ := ih h'
      exact ⟨t :: us, vs, .cons hx hxs, hys, rfl⟩

theorem of_flattens_singleton {x : Imprint} (h : List.Forall₂ Imprint.Fits [x] ts) :
    ∃ t, x.Fits t ∧ ts = [t] := by
  obtain ⟨t, _, ht, ⟨⟩, rfl⟩ := of_flattens_cons h
  exact ⟨t, ht, rfl⟩

/-- Two operands with an operator between them. -/
theorem of_flattens_infix {xs ys : List Imprint} {o : Token}
    (h : List.Forall₂ Imprint.Fits (xs ++ .whole o :: ys) ts) :
    ∃ us vs, List.Forall₂ Imprint.Fits xs us ∧ List.Forall₂ Imprint.Fits ys vs ∧ ts = us ++ o :: vs := by
  obtain ⟨us, _, hx, h', rfl⟩ := of_flattens_append h
  obtain ⟨_, vs, rfl, hy, rfl⟩ := of_flattens_cons h'
  exact ⟨us, vs, hx, hy, rfl⟩

/-- A property of an object, which may be read or assigned to. -/
theorem of_flattens_property {xs ys : List Imprint} {n : Token}
    (h : List.Forall₂ Imprint.Fits (xs ++ .kind .dot :: .whole n :: ys) ts) :
    ∃ us d vs, List.Forall₂ Imprint.Fits xs us ∧ d.kind = .dot ∧ List.Forall₂ Imprint.Fits ys vs ∧
      ts = us ++ d :: n :: vs := by
  obtain ⟨us, _, hx, h', rfl⟩ := of_flattens_append h
  obtain ⟨d, _, hd, h'', rfl⟩ := of_flattens_cons h'
  obtain ⟨_, vs, rfl, hy, rfl⟩ := of_flattens_cons h''
  exact ⟨us, d, vs, hx, hd, hy, rfl⟩

mutual

/-- What flattens a ladder is a text of it. -/
theorem Expr.exprText : ∀ (e : PlainExpr) {ts : List Token}, e.Flattens ts → e.Ladder →
    ExprText e.grade ts e
  | .literal _ value, _, h, _ => by
      obtain ⟨t, ht, rfl⟩ := of_flattens_singleton h
      exact .literal (literalValue_eq_some.mpr (Eq.symm ht))
  | .group _ inner, _, h, hs => by
      obtain ⟨l, _, hl, h', rfl⟩ := of_flattens_cons h
      obtain ⟨ts, _, hi, h'', rfl⟩ := of_flattens_append h'
      obtain ⟨r, hr, rfl⟩ := of_flattens_singleton h''
      exact .group hl ((inner.exprText hi hs).looser (Nat.zero_le _)) hr
  | .unary _ op sign operand, _, h, ⟨hs, hg⟩ => by
      obtain ⟨_, ts, rfl, ho, rfl⟩ := of_flattens_cons h
      exact .unary (prefixOp_eq_some.mpr rfl) ((operand.exprText ho hs).looser hg)
  | .binary _ op sign left right, _, h, ⟨hsl, hgl, hsr, hgr⟩ => by
      obtain ⟨us, vs, hl, hr, rfl⟩ := of_flattens_infix h
      exact .binary ((left.exprText hl hsl).looser hgl) (binary?_eq_some.mpr ⟨rfl, rfl⟩)
        ((right.exprText hr hsr).looser ((Grade.tighter_le op.rank_grade).mpr hgr))
  | .logical _ op sign left right, _, h, ⟨hsl, hgl, hsr, hgr⟩ => by
      obtain ⟨us, vs, hl, hr, rfl⟩ := of_flattens_infix h
      exact .logical ((left.exprText hl hsl).looser hgl) (logical?_eq_some.mpr ⟨rfl, rfl⟩)
        ((right.exprText hr hsr).looser ((Grade.tighter_le op.rank_grade).mpr hgr))
  | .name ref, _, h, _ => by
      obtain ⟨_, rfl, rfl⟩ := of_flattens_singleton h
      exact .name rfl
  | .assign target value, _, h, hs => by
      obtain ⟨_, _, rfl, h', rfl⟩ := of_flattens_cons h
      obtain ⟨q, us, hq, hv, rfl⟩ := of_flattens_cons h'
      have ht : ExprText .disjunction [⟨target.name, .identifier⟩] (.name target) :=
        (ExprText.name rfl).looser (by decide)
      exact .assign ht hq ((value.exprText hv hs).looser (Nat.zero_le _))
  | .call _ callee closing arguments, _, h, ⟨hs, hg, hsa, hn⟩ => by
      obtain ⟨ts, _, hf, h', rfl⟩ := of_flattens_append h
      obtain ⟨l, _, hl, h'', rfl⟩ := of_flattens_cons h'
      obtain ⟨us, _, ha, hr, rfl⟩ := of_flattens_append h''
      obtain ⟨_, rfl, rfl⟩ := of_flattens_singleton hr
      exact .call ((callee.exprText hf hs).looser hg) hl (Expr.argsText arguments ha hsa) rfl hn
  | .get _ object property, _, h, ⟨hs, hg⟩ => by
      obtain ⟨us, d, _, ho, hd, ⟨⟩, rfl⟩ := of_flattens_property h
      exact .get ((object.exprText ho hs).looser hg) hd rfl
  | .set _ object property value, _, h, ⟨hs, hg, hsv⟩ => by
      obtain ⟨us, d, _, ho, hd, h', rfl⟩ := of_flattens_property h
      obtain ⟨q, vs, hq, hv, rfl⟩ := of_flattens_cons h'
      have ht : ExprText .disjunction (us ++ [d, ⟨property, .identifier⟩]) (.get () object property) :=
        (ExprText.get ((object.exprText ho hs).looser hg) hd rfl).looser (by decide)
      have hset := ExprText.set ht hq ((value.exprText hv hsv).looser (Nat.zero_le _))
      rwa [List.append_assoc] at hset
  | .this ref, _, h, _ => by
      obtain ⟨_, rfl, rfl⟩ := of_flattens_singleton h
      exact .this rfl
  | .super ref method, _, h, _ => by
      obtain ⟨_, _, rfl, h', rfl⟩ := of_flattens_cons h
      obtain ⟨d, _, hd, h'', rfl⟩ := of_flattens_cons h'
      obtain ⟨_, rfl, rfl⟩ := of_flattens_singleton h''
      exact .super rfl hd rfl

theorem Expr.argsText : ∀ (es : List PlainExpr) {ts : List Token}, Expr.FlattensEach es ts →
    Expr.LadderEach es → ArgsText ts es
  | [], _, h, _ => by
      cases h
      exact .none
  | [e], _, h, ⟨hs, _⟩ => .one ((e.exprText h hs).looser (Nat.zero_le _))
  | e :: e' :: es, _, h, ⟨hs, hss⟩ => by
      obtain ⟨ts, _, he, h', rfl⟩ := of_flattens_append h
      obtain ⟨c, us, hc, hes, rfl⟩ := of_flattens_cons h'
      exact .more ((e.exprText he hs).looser (Nat.zero_le _)) hc (Expr.argsText (e' :: es) hes hss)

end

end texts

/-- The texts of an expression are what flattens it, where it is a ladder. -/
theorem exprText_iff_flattens {ts : List Token} {e : PlainExpr} :
    ExprText .assignment ts e ↔ e.Flattens ts ∧ e.Ladder :=
  ⟨fun h => ⟨h.flattens.1, h.flattens.2.1⟩, fun h => (e.exprText h.1 h.2).looser (Nat.zero_le _)⟩

/-! ### Parsing -/

/-- The category of the tokens that can have left the imprint. -/
def Imprint.category : Imprint → Kind
  | whole t => t.kind
  | kind k => k

theorem Imprint.Fits.category {x : Imprint} {t : Token} (h : x.Fits t) : t.kind = x.category := by
  cases x with
  | whole u => exact congrArg Token.kind h
  | kind k => exact h

/-- A token that can have left the imprint. -/
def Imprint.token : Imprint → Token
  | whole t => t
  | kind k => ⟨⟨"", 0⟩, k⟩

theorem Imprint.fits_token (x : Imprint) : x.Fits x.token := by
  cases x <;> rfl

theorem Literal.kind_ne_eof (v : Literal) : v.kind ≠ .eof := by
  cases v with
  | bool b => cases b <;> nofun
  | _ => nofun

theorem UnaryOp.kind_ne_eof (op : UnaryOp) : op.kind ≠ .eof := by
  cases op <;> nofun

theorem BinaryOp.kind_ne_eof (op : BinaryOp) : op.kind ≠ .eof := by
  cases op <;> nofun

theorem LogicalOp.kind_ne_eof (op : LogicalOp) : op.kind ≠ .eof := by
  cases op <;> nofun

mutual

/-- A tree knows of no end-of-file token. -/
theorem Expr.category_ne_eof {ι : Type} : ∀ e : Expr ι, ∀ x ∈ e.imprints, x.category ≠ .eof
  | .literal _ v => by simpa [Expr.imprints, Imprint.category] using v.kind_ne_eof
  | .group _ inner => by
      simpa [Expr.imprints, Imprint.category, or_imp, forall_and] using inner.category_ne_eof
  | .unary _ op _ operand => by
      simpa [Expr.imprints, Imprint.category] using ⟨op.kind_ne_eof, operand.category_ne_eof⟩
  | .binary _ op _ left right => by
      simpa [Expr.imprints, Imprint.category, or_imp, forall_and] using
        ⟨left.category_ne_eof, op.kind_ne_eof, right.category_ne_eof⟩
  | .logical _ op _ left right => by
      simpa [Expr.imprints, Imprint.category, or_imp, forall_and] using
        ⟨left.category_ne_eof, op.kind_ne_eof, right.category_ne_eof⟩
  | .name _ => by simp [Expr.imprints, Imprint.category]
  | .assign _ value => by simpa [Expr.imprints, Imprint.category] using value.category_ne_eof
  | .call _ callee _ arguments => by
      simpa [Expr.imprints, Imprint.category, or_imp, forall_and] using
        ⟨callee.category_ne_eof, Expr.category_ne_eof_each arguments⟩
  | .get _ object _ => by
      simpa [Expr.imprints, Imprint.category, or_imp, forall_and] using object.category_ne_eof
  | .set _ object _ value => by
      simpa [Expr.imprints, Imprint.category, or_imp, forall_and] using
        ⟨object.category_ne_eof, value.category_ne_eof⟩
  | .this _ => by simp [Expr.imprints, Imprint.category]
  | .super _ _ => by simp [Expr.imprints, Imprint.category]

theorem Expr.category_ne_eof_each {ι : Type} : ∀ es : List (Expr ι),
    ∀ x ∈ Expr.imprintsEach es, x.category ≠ .eof
  | [] => nofun
  | [e] => e.category_ne_eof
  | e :: e' :: es => by
      simpa [Expr.imprintsEach, Imprint.category, or_imp, forall_and] using
        ⟨e.category_ne_eof, Expr.category_ne_eof_each (e' :: es)⟩

end

theorem Expr.Flattens.ne_eof {ts : List Token} {e : PlainExpr} (h : e.Flattens ts) :
    ∀ t ∈ ts, t.kind ≠ .eof := by
  have he := e.category_ne_eof
  unfold Expr.Flattens at h
  generalize e.imprints = xs at h he
  induction h with
  | nil => nofun
  | cons hx _ ih =>
      rw [List.forall_mem_cons] at he ⊢
      exact ⟨hx.category ▸ he.1, ih he.2⟩

/-- Every tree has tokens that flatten it. -/
theorem Expr.exists_flattens {ι : Type} (e : Expr ι) : ∃ ts, e.Flattens ts :=
  ⟨e.imprints.map Imprint.token,
    List.forall₂_map_right_iff.mpr (List.forall₂_same.mpr fun x _ => x.fits_token)⟩

theorem textOf_append {ts : List Token} {eof : Token} (hts : ∀ t ∈ ts, t.kind ≠ .eof)
    (he : eof.kind = .eof) : textOf (ts ++ [eof]) = ts := by
  unfold textOf
  rw [List.takeWhile_append_of_pos (by simpa using hts)]
  simp [he]

/-- A list of tokens is parsed as an expression exactly when it flattens the expression and this is a ladder.
So no two expressions are parsed from one list, and every ladder is parsed from each of the lists that
flatten it, of which there is one. -/
theorem parseExpression_iff_flattens {eof : Token} (he : eof.kind = .eof) :
    (∀ (ts : List Token) (e : PlainExpr), (∀ t ∈ ts, t.kind ≠ .eof) →
      (parseExpression (ts ++ [eof]) = .ok e ↔ e.Flattens ts ∧ e.Ladder)) ∧
    (∀ (ts : List Token) (e e' : PlainExpr), e.Flattens ts → e.Ladder → e'.Flattens ts → e'.Ladder →
      e = e') ∧
    ∀ e : PlainExpr, e.Ladder →
      (∃ ts, e.Flattens ts) ∧ ∀ ts, e.Flattens ts → parseExpression (ts ++ [eof]) = .ok e := by
  have hiff (ts : List Token) (e : PlainExpr) (hts : ∀ t ∈ ts, t.kind ≠ .eof) :
      parseExpression (ts ++ [eof]) = .ok e ↔ e.Flattens ts ∧ e.Ladder := by
    rw [parseExpression_eq_ok_iff, textOf_append hts he, exprText_iff_flattens]
  refine ⟨hiff, fun ts e e' hf hl hf' hl' => ?_, fun e hl => ⟨e.exists_flattens, fun ts hf => ?_⟩⟩
  · have h := (hiff ts e hf.ne_eof).mpr ⟨hf, hl⟩
    have h' := (hiff ts e' hf.ne_eof).mpr ⟨hf', hl'⟩
    exact Except.ok.inj (h.symm.trans h')
  · exact (hiff ts e hf.ne_eof).mpr ⟨hf, hl⟩

/-- The sign in `-a.b` applies to the property. -/
theorem parseExpression_negated_property :
    let ts : List Token := [⟨⟨"-", 1⟩, .minus⟩, ⟨⟨"a", 1⟩, .identifier⟩, ⟨⟨".", 1⟩, .dot⟩,
      ⟨⟨"b", 1⟩, .identifier⟩]
    parseExpression (ts ++ [.eof 1]) =
      .ok (.unary () .negate ⟨"-", 1⟩ (.get () (.name ⟨(), ⟨"a", 1⟩⟩) ⟨"b", 1⟩)) := by
  intro ts
  have heof : (Token.eof 1).kind = .eof := rfl
  refine ((parseExpression_iff_flattens heof).1 ts _ (by decide)).mpr ⟨?_, ?_⟩
  · exact .cons rfl (.cons rfl (.cons rfl (.cons rfl .nil)))
  · exact ⟨⟨trivial, by decide⟩, by decide⟩

end Lox
