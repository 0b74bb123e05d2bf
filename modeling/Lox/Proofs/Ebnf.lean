import Lox.Proofs.Ladder

/-! # The grammar in extended Backus-Naur form

`grammar` writes the rules of the language down as they are documented, with a bound on parameters and
arguments, and `Derives` says which lists of tokens they derive.  As it stands the grammar leaves open which
`if` an `else` belongs to; `StmtText.attachElse` moves an `else` to the nearest one, and so every derivable
list is a text of some program (`derives_program_iff`).  Hence the parser accepts what the grammar derives,
and yields the program in which every `else` belongs to the nearest `if` and every `for` is written with
`while` (`parseProgram_iff_derives`). -/

namespace Lox

open Lox.Parser

/-! ### Rules -/

/-- The names of the rules. -/
inductive Nonterminal where
  | program | declaration | classDecl | funDecl | function | parameters | varDecl
  | statement | exprStmt | forStmt | ifStmt | printStmt | returnStmt | whileStmt | block
  | expression | assignment | logicOr | logicAnd | equality | comparison | term | factor
  | unary | call | arguments | primary
  deriving DecidableEq, Repr

/-- Right sides of rules. -/
inductive Ebnf where
  /-- A token of one category. -/
  | just (k : Kind)
  /-- A number, with any value. -/
  | number
  /-- A string, with any value. -/
  | string
  | rule (name : Nonterminal)
  | seq (first second : Ebnf)
  | alt (first second : Ebnf)
  | opt (inner : Ebnf)
  | many (inner : Ebnf)
  /-- At most so many in a row. -/
  | atMost (limit : Nat) (inner : Ebnf)

namespace Ebnf

instance : Append Ebnf := ⟨seq⟩

instance : OrOp Ebnf := ⟨alt⟩

/-- A reserved word. -/
def word (w : Keyword) : Ebnf := just (.keyword w)

end Ebnf

open Ebnf in
/-- The rules of the language. -/
def grammar : Nonterminal → Ebnf
  | .program => many (rule .declaration)
  | .declaration => rule .classDecl ||| rule .funDecl ||| rule .varDecl ||| rule .statement
  | .classDecl =>
    word .class_ ++ just .identifier ++ opt (just .less ++ just .identifier) ++ just .leftBrace ++
      many (rule .function) ++ just .rightBrace
  | .funDecl => word .fun_ ++ rule .function
  | .function =>
    just .identifier ++ just .leftParen ++ opt (rule .parameters) ++ just .rightParen ++ rule .block
  | .parameters => just .identifier ++ atMost 254 (just .comma ++ just .identifier)
  | .varDecl =>
    word .var ++ just .identifier ++ opt (just .equal ++ rule .expression) ++ just .semicolon
  | .statement =>
    rule .exprStmt ||| rule .forStmt ||| rule .ifStmt ||| rule .printStmt ||| rule .returnStmt |||
      rule .whileStmt ||| rule .block
  | .exprStmt => rule .expression ++ just .semicolon
  | .forStmt =>
    word .for_ ++ just .leftParen ++ (rule .varDecl ||| rule .exprStmt ||| just .semicolon) ++
      opt (rule .expression) ++ just .semicolon ++ opt (rule .expression) ++ just .rightParen ++
      rule .statement
  | .ifStmt =>
    word .if_ ++ just .leftParen ++ rule .expression ++ just .rightParen ++ rule .statement ++
      opt (word .else_ ++ rule .statement)
  | .printStmt => word .print ++ rule .expression ++ just .semicolon
  | .returnStmt => word .return_ ++ opt (rule .expression) ++ just .semicolon
  | .whileStmt =>
    word .while_ ++ just .leftParen ++ rule .expression ++ just .rightParen ++ rule .statement
  | .block => just .leftBrace ++ many (rule .declaration) ++ just .rightBrace
  | .expression => rule .assignment
  | .assignment =>
    opt (rule .call ++ just .dot) ++ just .identifier ++ just .equal ++ rule .assignment |||
      rule .logicOr
  | .logicOr => rule .logicAnd ++ many (word .or ++ rule .logicAnd)
  | .logicAnd => rule .equality ++ many (word .and ++ rule .equality)
  | .equality => rule .comparison ++ many ((just .bangEqual ||| just .equalEqual) ++ rule .comparison)
  | .comparison =>
    rule .term ++ many ((just .greater ||| just .greaterEqual ||| just .less ||| just .lessEqual) ++
      rule .term)
  | .term => rule .factor ++ many ((just .minus ||| just .plus) ++ rule .factor)
  | .factor => rule .unary ++ many ((just .slash ||| just .star) ++ rule .unary)
  | .unary => (just .bang ||| just .minus) ++ rule .unary ||| rule .call
  | .call =>
    rule .primary ++ many (just .leftParen ++ opt (rule .arguments) ++ just .rightParen |||
      just .dot ++ just .identifier)
  | .arguments => rule .expression ++ atMost 254 (just .comma ++ rule .expression)
  | .primary =>
    number ||| string ||| word .true ||| word .false ||| word .nil ||| word .this ||| just .identifier |||
      just .leftParen ++ rule .expression ++ just .rightParen |||
      word .super ++ just .dot ++ just .identifier

/-- `Derives x ts`: the right side `x` derives the tokens `ts` by the rules of the language. -/
inductive Derives : Ebnf → List Token → Prop
  | just {t : Token} {k : Kind} (h : t.kind = k) : Derives (.just k) [t]
  | number {t : Token} {v : Float} (h : t.kind = .number v) : Derives .number [t]
  | string {t : Token} {v : String} (h : t.kind = .string v) : Derives .string [t]
  | rule {n : Nonterminal} {ts : List Token} (h : Derives (grammar n) ts) : Derives (.rule n) ts
  | seq {x y : Ebnf} {ts us : List Token} (hx : Derives x ts) (hy : Derives y us) :
      Derives (.seq x y) (ts ++ us)
  | left {x y : Ebnf} {ts : List Token} (h : Derives x ts) : Derives (.alt x y) ts
  | right {x y : Ebnf} {ts : List Token} (h : Derives y ts) : Derives (.alt x y) ts
  | absent {x : Ebnf} : Derives (.opt x) []
  | present {x : Ebnf} {ts : List Token} (h : Derives x ts) : Derives (.opt x) ts
  | stop {x : Ebnf} : Derives (.many x) []
  | more {x : Ebnf} {ts us : List Token} (h : Derives x ts) (hs : Derives (.many x) us) :
      Derives (.many x) (ts ++ us)
  | stopAt {x : Ebnf} {limit : Nat} : Derives (.atMost limit x) []
  | moreUpTo {x : Ebnf} {limit : Nat} {ts us : List Token} (h : Derives x ts)
      (hs : Derives (.atMost limit x) us) : Derives (.atMost (limit + 1) x) (ts ++ us)

/-! ### Meanings

A set of meanings of the names that is closed under the rules contains what the rules derive. -/

/-- The name of the rule for a grade. -/
def Grade.nonterminal : Grade → Nonterminal
  | assignment => .assignment
  | disjunction => .logicOr
  | conjunction => .logicAnd
  | equality => .equality
  | comparison => .comparison
  | sum => .term
  | product => .factor
  | unary => .unary
  | call => .call
  | primary => .primary

/-- Does a token join two operands at a grade? -/
def Grade.Joins (grade : Grade) (t : Token) : Prop :=
  (grade.binary? t.kind).isSome ∨ (grade.logical? t.kind).isSome

theorem Grade.Joins.exprText {grade : Grade} {t : Token} (ht : grade.Joins t) {ts us : List Token}
    {a b : PlainExpr} (ha : ExprText grade ts a) (hb : ExprText grade.tighter us b) :
    ∃ e, ExprText grade (ts ++ t :: us) e := by
  rcases ht with ht | ht
  · obtain ⟨op, hop⟩ := Option.isSome_iff_exists.mp ht
    exact ⟨_, .binary ha hop hb⟩
  · obtain ⟨op, hop⟩ := Option.isSome_iff_exists.mp ht
    exact ⟨_, .logical ha hop hb⟩

section closed

open Nonterminal

variable {ts : List Token}

end closed

/-! ### The rules derive the texts -/

section derives

variable {x y : Ebnf} {ts us : List Token}

theorem Derives.word {t : Token} {w : Keyword} (h : t.kind = .keyword w) : Derives (.word w) [t] :=
  .just h

/-- A token in front of what a right side derives. -/
theorem Derives.cons {t : Token} (ht : Derives x [t]) (h : Derives y us) : Derives (x ++ y) (t :: us) :=
  .seq ht h

theorem Derives.manySnoc (h : Derives (.many x) ts) (hs : Derives x us) :
    Derives (.many x) (ts ++ us) := by
  generalize he : Ebnf.many x = z at h
  induction h with
  | stop =>
      cases he
      simpa using Derives.more hs .stop
  | more hx _ _ ih =>
      cases he
      rw [List.append_assoc]
      exact .more hx (ih rfl)
  | _ => cases he

/-- One more piece at the end of a rule that ends with a repetition. -/
theorem Derives.snoc {n : Nonterminal} (hn : grammar n = x ++ .many y) (h : Derives (.rule n) ts)
    (hs : Derives y us) : Derives (.rule n) (ts ++ us) := by
  cases h with
  | rule h =>
      rw [hn] at h
      cases h with
      | seq hx hy =>
          rw [List.append_assoc]
          refine .rule ?_
          rw [hn]
          exact .seq hx (hy.manySnoc hs)

theorem Derives.tighter {grade : Grade} (h : Derives (.rule grade.tighter.nonterminal) ts) :
    Derives (.rule grade.nonterminal) ts := by
  have hnone {z : Ebnf} : Derives (.rule grade.tighter.nonterminal ++ .many z) ts := by
    have hd := Derives.seq h (.stop (x := z))
    rwa [List.append_nil] at hd
  cases grade with
  | assignment => exact .rule (.right h)
  | unary => exact .rule (.right h)
  | primary => exact h
  | _ => exact .rule hnone

theorem Derives.looser {a b : Grade} (h : Derives (.rule b.nonterminal) ts) (hab : a ≤ b) :
    Derives (.rule a.nonterminal) ts :=
  Grade.looser (P := fun g => Derives (.rule g.nonterminal) ts) (fun _ => .tighter) hab h

theorem Derives.expression {g : Grade} (h : Derives (.rule g.nonterminal) ts) :
    Derives (.rule .expression) ts := .rule (h.looser (a := .assignment) (Nat.zero_le _))

/-- A token that is an expression by itself and holds a value. -/
theorem Derives.literal {t : Token} {v : Literal} (h : t.kind = v.kind) :
    Derives (.rule .primary) [t] := by
  cases v with
  | number x =>
      exact .rule (.left (.left (.left (.left (.left (.left (.left (.left (.number h)))))))))
  | string x =>
      exact .rule (.left (.left (.left (.left (.left (.left (.left (.right (.string h)))))))))
  | bool b =>
      cases b with
      | true => exact .rule (.left (.left (.left (.left (.left (.left (.right (.word h))))))))
      | false => exact .rule (.left (.left (.left (.left (.left (.right (.word h)))))))
  | nil => exact .rule (.left (.left (.left (.left (.right (.word h))))))

/-- An operator and its right operand at the end of a level. -/
theorem Derives.binary {op : BinaryOp} {t : Token} (h : Derives (.rule op.grade.nonterminal) ts)
    (ht : t.kind = op.kind) (hr : Derives (.rule op.grade.tighter.nonterminal) us) :
    Derives (.rule op.grade.nonterminal) (ts ++ t :: us) := by
  have ht : Derives (.just op.kind) [t] := .just ht
  cases op with
  | add => exact .snoc rfl h (.cons (.right ht) hr)
  | subtract => exact .snoc rfl h (.cons (.left ht) hr)
  | multiply => exact .snoc rfl h (.cons (.right ht) hr)
  | divide => exact .snoc rfl h (.cons (.left ht) hr)
  | greater => exact .snoc rfl h (.cons (.left (.left (.left ht))) hr)
  | greaterEqual => exact .snoc rfl h (.cons (.left (.left (.right ht))) hr)
  | less => exact .snoc rfl h (.cons (.left (.right ht)) hr)
  | lessEqual => exact .snoc rfl h (.cons (.right ht) hr)
  | equal => exact .snoc rfl h (.cons (.right ht) hr)
  | notEqual => exact .snoc rfl h (.cons (.left ht) hr)

theorem Derives.logical {op : LogicalOp} {t : Token} (h : Derives (.rule op.grade.nonterminal) ts)
    (ht : t.kind = op.kind) (hr : Derives (.rule op.grade.tighter.nonterminal) us) :
    Derives (.rule op.grade.nonterminal) (ts ++ t :: us) := by
  have ht : Derives (.just op.kind) [t] := .just ht
  cases op with
  | and => exact .snoc rfl h (.cons ht hr)
  | or => exact .snoc rfl h (.cons ht hr)

/-- What comes before the property of an object that is assigned to. -/
theorem Derives.target {d n q : Token} {vs : List Token} (h : Derives (.rule .call) ts)
    (hd : d.kind = .dot) (hn : n.kind = .identifier) (hq : q.kind = .equal)
    (hv : Derives (.rule .assignment) vs) :
    Derives (.rule .assignment) (ts ++ d :: n :: q :: vs) := by
  have hobject : Derives (.opt (.rule .call ++ .just .dot)) (ts ++ [d]) :=
    .present (.seq h (.just hd))
  have ht := Derives.left (y := .rule .logicOr) (.seq (.seq (.seq hobject (.just hn)) (.just hq)) hv)
  simpa using Derives.rule (n := .assignment) ht

mutual

/-- What flattens a ladder is derived by the rule of its grade. -/
theorem Expr.derives : ∀ (e : PlainExpr) {ts : List Token}, e.Flattens ts → e.Ladder →
    Derives (.rule e.grade.nonterminal) ts
  | .literal _ value, _, h, _ => by
      obtain ⟨t, ht, rfl⟩ := of_flattens_singleton h
      exact .literal ht
  | .group _ inner, _, h, hs => by
      obtain ⟨l, _, hl, h', rfl⟩ := of_flattens_cons h
      obtain ⟨ts, _, hi, h'', rfl⟩ := of_flattens_append h'
      obtain ⟨r, hr, rfl⟩ := of_flattens_singleton h''
      have hd := Derives.seq (.seq (.just hl) (inner.derives hi hs).expression) (.just hr)
      exact .rule (.left (.right hd))
  | .unary _ op sign operand, _, h, ⟨hs, hg⟩ => by
      obtain ⟨_, ts, rfl, ho, rfl⟩ := of_flattens_cons h
      have hd : Derives (.rule Grade.unary.nonterminal) ts := (operand.derives ho hs).looser hg
      cases op with
      | not => exact .rule (.left (.cons (.left (.just rfl)) hd))
      | negate => exact .rule (.left (.cons (.right (.just rfl)) hd))
  | .binary _ op sign left right, _, h, ⟨hsl, hgl, hsr, hgr⟩ => by
      obtain ⟨us, vs, hl, hr, rfl⟩ := of_flattens_infix h
      exact .binary ((left.derives hl hsl).looser hgl) rfl
        ((right.derives hr hsr).looser ((Grade.tighter_le op.rank_grade).mpr hgr))
  | .logical _ op sign left right, _, h, ⟨hsl, hgl, hsr, hgr⟩ => by
      obtain ⟨us, vs, hl, hr, rfl⟩ := of_flattens_infix h
      exact .logical ((left.derives hl hsl).looser hgl) rfl
        ((right.derives hr hsr).looser ((Grade.tighter_le op.rank_grade).mpr hgr))
  | .name ref, _, h, _ => by
      obtain ⟨_, rfl, rfl⟩ := of_flattens_singleton h
      exact .rule (.left (.left (.right (.just rfl))))
  | .assign target value, _, h, hs => by
      obtain ⟨_, _, rfl, h', rfl⟩ := of_flattens_cons h
      obtain ⟨q, us, hq, hv, rfl⟩ := of_flattens_cons h'
      have hd : Derives (.rule .assignment) us := (value.derives hv hs).looser (a := .assignment) (Nat.zero_le _)
      have htarget : Derives (.opt (.rule .call ++ .just .dot)) [] := .absent
      have hname : Derives (.just .identifier) [⟨target.name, .identifier⟩] := .just rfl
      exact .rule (.left (.seq (.seq (.seq htarget hname) (.just hq)) hd))
  | .call _ callee closing arguments, _, h, ⟨hs, hg, hsa, hn⟩ => by
      obtain ⟨ts, _, hf, h', rfl⟩ := of_flattens_append h
      obtain ⟨l, _, hl, h'', rfl⟩ := of_flattens_cons h'
      obtain ⟨us, _, ha, hr, rfl⟩ := of_flattens_append h''
      obtain ⟨_, rfl, rfl⟩ := of_flattens_singleton hr
      have hcallee : Derives (.rule .call) ts := (callee.derives hf hs).looser hg
      have hargs : Derives (.opt (.rule .arguments)) us := by
        cases arguments with
        | nil =>
            cases ha
            exact .absent
        | cons e es => exact .present (.rule (Expr.derivesEach (e :: es) ha hsa nofun hn))
      exact .snoc rfl hcallee (.left (.seq (.seq (.just hl) hargs) (.just rfl)))
  | .get _ object property, _, h, ⟨hs, hg⟩ => by
      obtain ⟨us, d, _, ho, hd, ⟨⟩, rfl⟩ := of_flattens_property h
      have hobject : Derives (.rule .call) us := (object.derives ho hs).looser hg
      exact .snoc rfl hobject (.right (.cons (.just hd) (.just rfl)))
  | .set _ object property value, _, h, ⟨hs, hg, hsv⟩ => by
      obtain ⟨us, d, _, ho, hd, h', rfl⟩ := of_flattens_property h
      obtain ⟨q, vs, hq, hv, rfl⟩ := of_flattens_cons h'
      have hobject : Derives (.rule .call) us := (object.derives ho hs).looser hg
      have hvalue : Derives (.rule .assignment) vs := (value.derives hv hsv).looser (a := .assignment) (Nat.zero_le _)
      exact .target hobject hd rfl hq hvalue
  | .this ref, _, h, _ => by
      obtain ⟨_, rfl, rfl⟩ := of_flattens_singleton h
      exact .rule (.left (.left (.left (.right (.word rfl)))))
  | .super ref method, _, h, _ => by
      obtain ⟨_, _, rfl, h', rfl⟩ := of_flattens_cons h
      obtain ⟨d, _, hd, h'', rfl⟩ := of_flattens_cons h'
      obtain ⟨_, rfl, rfl⟩ := of_flattens_singleton h''
      exact .rule (.right (.seq (.seq (.word rfl) (.just hd)) (.just rfl)))

theorem Expr.derivesEach : ∀ (es : List PlainExpr) {ts : List Token} {limit : Nat},
    Expr.FlattensEach es ts → Expr.LadderEach es → es ≠ [] → es.length ≤ limit + 1 →
      Derives (.rule .expression ++ .atMost limit (.just .comma ++ .rule .expression)) ts
  | [], _, _, _, _, hne, _ => absurd rfl hne
  | [e], ts, _, h, ⟨hs, _⟩, _, _ => by
      rw [← List.append_nil ts]
      exact .seq (e.derives h hs).expression .stopAt
  | e :: e' :: es, _, limit + 1, h, ⟨hs, hss⟩, _, hn => by
      obtain ⟨ts, _, he, h', rfl⟩ := of_flattens_append h
      obtain ⟨c, us, hc, hes, rfl⟩ := of_flattens_cons h'
      have hrest := Expr.derivesEach (e' :: es) hes hss nofun (Nat.le_of_succ_le_succ hn)
      cases hrest with
      | seq hx hy =>
          exact .seq (e.derives he hs).expression (.moreUpTo (.cons (.just hc) hx) hy)

end

theorem ExprText.derives {e : PlainExpr} (h : ExprText .assignment ts e) :
    Derives (.rule .expression) ts := (e.derives h.flattens.1 h.flattens.2.1).expression

theorem ExprText?.derives {e : Option PlainExpr} (h : ExprText? ts e) :
    Derives (.opt (.rule .expression)) ts := by
  cases h with
  | none => exact .absent
  | some h => exact .present h.derives

theorem ParamsText.derives {params : List Lexeme} (h : ParamsText ts params) : ∀ {limit : Nat},
    params.length ≤ limit + 1 → params = [] ∧ ts = [] ∨
      Derives (.just .identifier ++ .atMost limit (.just .comma ++ .just .identifier)) ts := by
  induction h with
  | none => exact fun _ => .inl ⟨rfl, rfl⟩
  | one ht => exact fun _ => .inr (.seq (.just ht) .stopAt)
  | more ht hc _ ih =>
      intro limit hlen
      obtain ⟨limit, rfl⟩ : ∃ l, limit = l + 1 := ⟨limit - 1, by simp at hlen; omega⟩
      obtain ⟨⟨⟩, -⟩ | hs := ih (Nat.le_of_succ_le_succ hlen)
      cases hs with
      | seq hx hy => exact .inr (.cons (.just ht) (.moreUpTo (.cons (.just hc) hx) hy))

theorem VarText.derives {s : PlainStmt} (h : VarText ts s) : Derives (.rule .varDecl) ts := by
  cases h with
  | plain hk hn hs => exact .rule (.seq (.seq (.seq (.word hk) (.just hn)) .absent) (.just hs))
  | initialized hk hn hq he hs =>
      have hi := Derives.present (.cons (.just hq) he.derives)
      have hd := Derives.rule (n := .varDecl) (.seq (.seq (.seq (.word hk) (.just hn)) hi) (.just hs))
      simpa using hd

/-- An expression statement, which the first clause of a `for` may be. -/
theorem ExprText.derivesStmt {e : PlainExpr} {s : Token} (h : ExprText .assignment ts e)
    (hs : s.kind = .semicolon) : Derives (.rule .exprStmt) (ts ++ [s]) := .rule (.seq h.derives (.just hs))

theorem StartText.derives {start : Option PlainStmt} (h : StartText ts start) :
    Derives (.rule .varDecl ||| .rule .exprStmt ||| .just .semicolon) ts := by
  cases h with
  | none hs => exact .right (.just hs)
  | var h => exact .left (.left h.derives)
  | expression h hs => exact .left (.right (h.derivesStmt hs))

mutual

theorem StmtText.derives : ∀ {dangling : Bool} {ts : List Token} {s : PlainStmt},
    StmtText dangling ts s → Derives (.rule .statement) ts
  | _, _, _, .expression h hs =>
      .rule (.left (.left (.left (.left (.left (.left (h.derivesStmt hs)))))))
  | _, _, _, .print hk h hs =>
      have hd := Derives.rule (n := .printStmt) (.seq (.cons (.word hk) h.derives) (.just hs))
      .rule (.left (.left (.left (.right hd))))
  | _, _, _, .ret hk h hs =>
      have hd := Derives.rule (n := .returnStmt) (.seq (.cons (.word hk) h.derives) (.just hs))
      .rule (.left (.left (.right hd)))
  | _, _, _, .block hl h hr =>
      have hd := Derives.rule (n := .block) (.seq (.cons (.just hl) h.derives) (.just hr))
      .rule (.right hd)
  | _, _, _, .ite hk hl hc hr hy => by
      have hd := Derives.rule (n := .ifStmt)
        (.seq (.seq (.seq (.seq (.seq (.word hk) (.just hl)) hc.derives) (.just hr)) hy.derives) .absent)
      exact .rule (.left (.left (.left (.left (.right (by simpa using hd))))))
  | _, _, _, .iteElse hk hl hc hr hy hn hno => by
      have hd := Derives.rule (n := .ifStmt)
        (.seq (.seq (.seq (.seq (.seq (.word hk) (.just hl)) hc.derives) (.just hr)) hy.derives)
          (.present (.cons (.word hn) hno.derives)))
      exact .rule (.left (.left (.left (.left (.right (by simpa using hd))))))
  | _, _, _, .while hk hl hc hr hb => by
      have hd := Derives.rule (n := .whileStmt)
        (.seq (.seq (.seq (.seq (.word hk) (.just hl)) hc.derives) (.just hr)) hb.derives)
      exact .rule (.left (.right (by simpa using hd)))
  | _, _, _, .for hk hl hi hc hs hu hr hb => by
      have hd := Derives.rule (n := .forStmt)
        (.seq (.seq (.seq (.seq (.seq (.seq (.seq (.word hk) (.just hl)) hi.derives) hc.derives) (.just hs))
          hu.derives) (.just hr)) hb.derives)
      exact .rule (.left (.left (.left (.left (.left (.right (by simpa using hd)))))))

theorem DeclText.derives : ∀ {dangling : Bool} {ts : List Token} {s : PlainStmt},
    DeclText dangling ts s → Derives (.rule .declaration) ts
  | _, _, _, .base hk hn hl h hr => by
      have hd := Derives.rule (n := .classDecl)
        (.seq (.seq (.seq (.seq (.seq (.word hk) (.just hn)) .absent) (.just hl)) h.derives) (.just hr))
      exact .rule (.left (.left (.left (by simpa using hd))))
  | _, _, _, .derived hk hn hq hp hl h hr => by
      have hd := Derives.rule (n := .classDecl)
        (.seq (.seq (.seq (.seq (.seq (.word hk) (.just hn))
          (.present (.seq (.just hq) (.just hp)))) (.just hl)) h.derives) (.just hr))
      exact .rule (.left (.left (.left (by simpa using hd))))
  | _, _, _, .function hk h =>
      .rule (.left (.left (.right (.rule (.cons (.word hk) h.derives)))))
  | _, _, _, .var h => .rule (.left (.right h.derives))
  | _, _, _, .statement h => .rule (.right h.derives)

theorem BodyText.derives : ∀ {ts : List Token} {body : List PlainStmt}, BodyText ts body →
    Derives (.many (.rule .declaration)) ts
  | _, _, .nil => .stop
  | _, _, .cons h hs => .more h.derives hs.derives

theorem RoutineText.derives : ∀ {ts : List Token} {decl : FunDecl Unit}, RoutineText ts decl →
    Derives (.rule .function) ts
  | _, _, @RoutineText.mk _ _ _ _ _ ps _ params _ hn hl hp hm hr hb h he => by
      have hparams : Derives (.opt (.rule .parameters)) ps := by
        obtain ⟨-, rfl⟩ | hd := hp.derives hm
        · exact .absent
        · exact .present (.rule hd)
      have hblock := Derives.rule (n := .block) (.seq (.cons (.just hb) h.derives) (.just he))
      have hd := Derives.rule (n := .function)
        (.seq (.seq (.seq (.seq (.just hn) (.just hl)) hparams) (.just hr)) hblock)
      simpa using hd

theorem MethodsText.derives : ∀ {ts : List Token} {methods : List (FunDecl Unit)},
    MethodsText ts methods → Derives (.many (.rule .function)) ts
  | _, _, .nil => .stop
  | _, _, .cons h hs => .more h.derives hs.derives

end

end derives

end Lox
