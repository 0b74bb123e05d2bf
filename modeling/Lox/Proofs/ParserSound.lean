import Lox.Proofs.Grammar

/-! # What the parser accepts

Whatever a rule of the parser reads without reporting a fault is a text of the tree that it yields
(`parseProgram_sound`, `parseExpression_sound`).  `Yields p Q` says so of a parser: the faults it reports
are kept, and when there are none, `Q` holds of the tokens it takes, of its result and of the tokens that
are left.  The rules below follow the way parsers are built. -/

namespace Lox

namespace Parser

variable {α β : Type}

/-- A parser that keeps the faults found so far, and when it adds none, takes tokens that satisfy `Q`
together with its result and the tokens that are left. -/
def Yields (p : Parser α) (Q : List Token → α → List Token → Prop) : Prop :=
  ∀ c, match p c with
    | .ok a c' => ∃ more, c'.errors = c.errors ++ more ∧
        (more = [] → ∃ used, c.rest = used ++ c'.rest ∧ Q used a c'.rest)
    | .error _ c' => ∃ more, c'.errors = c.errors ++ more

variable {Q : List Token → α → List Token → Prop} {R : List Token → β → List Token → Prop}

theorem Yields.imp {p : Parser α} {Q' : List Token → α → List Token → Prop} (h : Yields p Q)
    (hq : ∀ used a rest, Q used a rest → Q' used a rest) : Yields p Q' := by
  intro c
  have h := h c
  cases hp : p c with
  | error e c' =>
      rw [hp] at h
      exact h
  | ok a c' =>
      rw [hp] at h
      obtain ⟨more, he, h⟩ := h
      refine ⟨more, he, fun hm => ?_⟩
      obtain ⟨used, hu, h⟩ := h hm
      exact ⟨used, hu, hq _ _ _ h⟩

theorem Yields.pure {a : α} (h : ∀ rest, Q [] a rest) : Yields (pure a) Q :=
  fun c => ⟨[], (List.append_nil _).symm, fun _ => ⟨[], rfl, h c.rest⟩⟩

theorem Yields.fail (fault : ParseFault) : Yields (fail fault) Q :=
  fun _ => ⟨[], (List.append_nil _).symm⟩

/-- What follows is told of the tokens taken so far by way of what it has to show. -/
theorem Yields.bind {p : Parser α} {f : α → Parser β} (h : Yields p Q)
    (hf : ∀ a, Yields (f a) fun used b rest => ∀ before, Q before a (used ++ rest) →
      R (before ++ used) b rest) : Yields (p >>= f) R := by
  intro c
  have h := h c
  change match EStateM.bind p f c with
    | .ok a c' => _
    | .error _ c' => _
  unfold EStateM.bind
  cases hp : p c with
  | error e c' =>
      rw [hp] at h
      exact h
  | ok a c₁ =>
      rw [hp] at h
      obtain ⟨more, he, h⟩ := h
      have hf := hf a c₁
      dsimp only
      cases hfa : f a c₁ with
      | error e c₂ =>
          rw [hfa] at hf
          obtain ⟨more', he'⟩ := hf
          exact ⟨more ++ more', by rw [he', he, List.append_assoc]⟩
      | ok b c₂ =>
          rw [hfa] at hf
          obtain ⟨more', he', hf⟩ := hf
          refine ⟨more ++ more', by rw [he', he, List.append_assoc], fun hm => ?_⟩
          obtain ⟨hm, hm'⟩ := List.append_eq_nil_iff.mp hm
          obtain ⟨used, hu, hq⟩ := h hm
          obtain ⟨used', hu', hr⟩ := hf hm'
          exact ⟨used ++ used', by rw [hu, hu', List.append_assoc], hr used (hu' ▸ hq)⟩

theorem Yields.map {p : Parser α} {f : α → β} (h : Yields p fun used a rest => R used (f a) rest) :
    Yields (f <$> p) R := by
  intro c
  have h := h c
  change match EStateM.map f p c with
    | .ok a c' => _
    | .error _ c' => _
  unfold EStateM.map
  cases hp : p c with
  | error e c' =>
      rw [hp] at h
      exact h
  | ok a c' =>
      rw [hp] at h
      exact h

/-- A report is a fault, so nothing is promised after it. -/
theorem Yields.reported {p : Parser α} (h : Yields p Q) {r : Parser Unit}
    (hr : ∀ c, ∃ e, r c = .ok () (c.report e)) {R : List Token → α → List Token → Prop} :
    Yields (r >>= fun _ => p) R := by
  intro c
  obtain ⟨e, he⟩ := hr c
  change match EStateM.bind r (fun _ => p) c with
    | .ok a c' => _
    | .error _ c' => _
  unfold EStateM.bind
  rw [he]
  dsimp only
  have h := h (c.report e)
  cases hp : p (c.report e) with
  | error e' c' =>
      rw [hp] at h
      obtain ⟨more, he⟩ := h
      exact ⟨e :: more, by rw [he, Cursor.report, List.append_assoc]; rfl⟩
  | ok a c' =>
      rw [hp] at h
      obtain ⟨more, he, -⟩ := h
      exact ⟨e :: more, by rw [he, Cursor.report, List.append_assoc]; rfl, fun hm => nomatch hm⟩

/-- A loop: what holds of each number of rounds that are left. -/
theorem Yields.loop {p : α → Parser (Option α)} {I : Nat → α → List Token → α → List Token → Prop}
    (hzero : ∀ a rest, I 0 a [] a rest)
    (hstep : ∀ n a, Yields (p a) fun used o rest =>
      match o with
      | none => I (n + 1) a used a rest
      | some b => ∀ more a' rest', rest = more ++ rest' → I n b more a' rest' →
          I (n + 1) a (used ++ more) a' rest') :
    ∀ n a, Yields (Parser.loop p n a) (I n a)
  | 0, a => .pure (hzero a)
  | n + 1, a => by
      refine .bind (hstep n a) fun o => ?_
      cases o with
      | none =>
          refine .pure fun rest before h => ?_
          rw [List.append_nil]
          exact h
      | some b =>
          refine (Yields.loop hzero hstep n b).imp fun used a' rest h before hb => ?_
          exact hb used a' rest rfl h

/-- A loop that collects items, the latest first. -/
theorem Yields.collect {p : List α → Parser (Option (List α))} {Body : List Token → List α → Prop}
    (hnil : Body [] []) (h : ∀ items, Yields (p items) fun used o _ =>
      match o with
      | none => used = []
      | some items' => ∃ new, items' = new.reverse ++ items ∧
          ∀ more as, Body more as → Body (used ++ more) (new ++ as)) (limit : Nat) :
    Yields (Parser.loop p limit []) fun used items _ => Body used items.reverse := by
  refine (Yields.loop (I := fun _ items used items' _ => ∃ new,
    items'.reverse = items.reverse ++ new ∧ Body used new) ?_ ?_ limit []).imp ?_
  · exact fun items rest => ⟨[], by simp, hnil⟩
  · refine fun n items => (h items).imp fun used o rest ho => ?_
    cases o with
    | none =>
        rw [show used = [] from ho]
        exact ⟨[], by simp, hnil⟩
    | some items' =>
        obtain ⟨new, rfl, hb⟩ := ho
        rintro more items'' rest' - ⟨new', hi, hb'⟩
        exact ⟨new ++ new', by simpa using hi, hb _ _ hb'⟩
  · rintro used items rest ⟨new, hi, hb⟩
    rw [hi]
    exact hb

/-! ### Single tokens -/

/-- A token of a category. -/
def Takes (kind : Kind) (used : List Token) (lexeme : Lexeme) : Prop :=
  ∃ t, used = [t] ∧ t.kind = kind ∧ lexeme = t.toLexeme

/-- The next token is not of a category. -/
def NotNext (kind : Kind) (rest : List Token) : Prop := ∀ t, rest.head? = some t → t.kind ≠ kind

theorem take?_yields (want : Kind → Option β) :
    Yields (take? want) fun used o _ =>
      match o with
      | none => used = []
      | some (b, sign) => ∃ t, used = [t] ∧ want t.kind = some b ∧ sign = t.toLexeme := by
  intro c
  obtain ⟨rest, line, errors⟩ := c
  cases rest with
  | nil => exact ⟨[], (List.append_nil _).symm, fun _ => ⟨[], rfl, rfl⟩⟩
  | cons t rest =>
      simp only [take?]
      cases hw : want t.kind with
      | none => exact ⟨[], (List.append_nil _).symm, fun _ => ⟨[], rfl, rfl⟩⟩
      | some b => exact ⟨[], (List.append_nil _).symm, fun _ => ⟨[t], rfl, t, rfl, hw, rfl⟩⟩

theorem accept?_yields (kind : Kind) :
    Yields (accept? kind) fun used o rest =>
      match o with
      | none => used = [] ∧ NotNext kind rest
      | some lexeme => Takes kind used lexeme := by
  intro c
  obtain ⟨rest, line, errors⟩ := c
  cases rest with
  | nil => exact ⟨[], (List.append_nil _).symm, fun _ => ⟨[], rfl, rfl, nofun⟩⟩
  | cons t rest =>
      simp only [accept?]
      by_cases hk : t.kind = kind
      · rw [if_pos hk]
        exact ⟨[], (List.append_nil _).symm, fun _ => ⟨[t], rfl, t, rfl, hk, rfl⟩⟩
      · rw [if_neg hk]
        refine ⟨[], (List.append_nil _).symm, fun _ => ⟨[], rfl, rfl, ?_⟩⟩
        rintro _ ⟨⟩
        exact hk

theorem accept_yields (kind : Kind) :
    Yields (accept kind) fun used b rest =>
      match b with
      | false => used = [] ∧ NotNext kind rest
      | true => ∃ t, used = [t] ∧ t.kind = kind := by
  refine .bind (accept?_yields kind) fun o => .pure fun rest before h => ?_
  rw [List.append_nil]
  cases o with
  | none => exact h
  | some lexeme =>
      obtain ⟨t, hu, hk, -⟩ := h
      exact ⟨t, hu, hk⟩

theorem expect_yields (kind : Kind) (fault : ParseFault) :
    Yields (expect kind fault) fun used lexeme _ => Takes kind used lexeme := by
  refine .bind (accept?_yields kind) fun o => ?_
  cases o with
  | none => exact .fail fault
  | some lexeme =>
      refine .pure fun rest before h => ?_
      rw [List.append_nil]
      exact h

theorem nextIs_yields (kind : Kind) : Yields (nextIs kind) fun used _ _ => used = [] := by
  intro c
  obtain ⟨rest, line, errors⟩ := c
  cases rest <;> exact ⟨[], (List.append_nil _).symm, fun _ => ⟨[], rfl, rfl⟩⟩

theorem atEnd_yields : Yields atEnd fun used b rest => used = [] ∧ (b = true → rest = []) := by
  intro c
  obtain ⟨rest, line, errors⟩ := c
  cases rest with
  | nil => exact ⟨[], (List.append_nil _).symm, fun _ => ⟨[], rfl, rfl, fun _ => rfl⟩⟩
  | cons t rest => exact ⟨[], (List.append_nil _).symm, fun _ => ⟨[], rfl, rfl, fun h => nomatch h⟩⟩

/-! ### Expressions -/

/-- A parser that takes texts of expressions of a grade. -/
abbrev YieldsExpr (grade : Grade) (p : Parser PlainExpr) : Prop :=
  Yields p fun used e _ => ExprText grade used e

section expressions

variable {limit : Nat} {nested : Parser PlainExpr}

theorem leftJoined_yields {op? : Kind → Option β} {join : β → Lexeme → PlainExpr → PlainExpr → PlainExpr}
    (grade : Grade) {operand : Parser PlainExpr} (h : YieldsExpr grade.tighter operand)
    (hj : ∀ {ts us t op a b}, ExprText grade ts a → op? t.kind = some op →
      ExprText grade.tighter us b → ExprText grade (ts ++ t :: us) (join op t.toLexeme a b)) :
    YieldsExpr grade (leftJoined op? join limit operand) := by
  refine .bind h fun first => ?_
  refine (Yields.loop (I := fun _ left used e _ => ∀ ts, ExprText grade ts left →
    ExprText grade (ts ++ used) e) ?_ ?_ limit first).imp fun used e rest hl before hb => hl _ hb.tighter
  · intro left rest ts hts
    rwa [List.append_nil]
  · intro n left
    refine .bind (take?_yields op?) fun o => ?_
    match o with
    | none =>
        refine .pure fun rest before hb ts hts => ?_
        rw [hb, List.append_nil, List.append_nil]
        exact hts
    | some (op, sign) =>
        refine .bind h fun right => .pure fun rest us hu before hb more e rest' _ hl ts hts => ?_
        obtain ⟨t, rfl, ht, rfl⟩ := hb
        have h := hl _ (hj hts ht hu)
        simpa using h

/-- Items of a list. -/
inductive Separated (Item : List Token → α → Prop) : List Token → List α → Prop
  | one {ts : List Token} {a : α} (h : Item ts a) : Separated Item ts [a]
  | more {c : Token} {ts us : List Token} {a b : α} {as : List α} (h : Item ts a)
      (hc : c.kind = .comma) (hs : Separated Item us (b :: as)) :
      Separated Item (ts ++ c :: us) (a :: b :: as)

theorem checked_yields {Item : List Token → α → Prop} {item : Parser α} (tooMany : ParseFault)
    (h : Yields item fun used a _ => Item used a) (count : Nat) :
    Yields (do
      if maxArity ≤ count then reportHere tooMany
      item) fun used a _ => Item used a ∧ count < maxArity := by
  by_cases hc : maxArity ≤ count
  · rw [if_pos hc]
    exact .reported h fun c => ⟨⟨tooMany, c.place⟩, rfl⟩
  · rw [if_neg hc]
    exact h.imp fun used a rest hi => ⟨hi, Nat.lt_of_not_le hc⟩

theorem commaSeparated_yields {Item : List Token → α → Prop} {item : Parser α} (tooMany : ParseFault)
    (h : Yields item fun used a _ => Item used a) :
    Yields (commaSeparated tooMany limit item) fun used as _ =>
      Separated Item used as ∧ as.length ≤ maxArity := by
  have hc := checked_yields tooMany h
  refine .bind (hc 0) fun first => .bind (Yields.loop (I := fun _ items used items' _ =>
    items'.length ≤ max items.length maxArity ∧ ∃ more, items'.reverse = items.reverse ++ more ∧
      ∀ ts a, Item ts a → Separated Item (ts ++ used) (a :: more)) ?_ ?_ limit [first]) fun items => ?_
  · intro items rest
    refine ⟨Nat.le_max_left _ _, [], by simp, fun ts a ha => ?_⟩
    rw [List.append_nil]
    exact .one ha
  · intro n items
    refine .bind (accept_yields .comma) fun b => ?_
    match b with
    | false =>
        refine .pure fun rest before hb => ⟨Nat.le_max_left _ _, [], by simp, fun ts a ha => ?_⟩
        rw [hb.1, List.append_nil, List.append_nil]
        exact .one ha
    | true =>
        refine .bind (hc items.length) fun b => .pure fun rest us hu before hb => ?_
        rintro used items' rest' - ⟨hlen, more, hi, hs⟩
        obtain ⟨c, rfl, hk⟩ := hb
        refine ⟨?_, b :: more, by simpa using hi, fun ts a ha => ?_⟩
        · have := hu.2
          simp only [List.length_cons] at hlen
          omega
        · simpa using Separated.more ha hk (hs us b hu.1)
  · refine .pure fun rest used hi before hf => ?_
    obtain ⟨hlen, more, hm, hs⟩ := hi
    rw [List.append_nil, hm]
    refine ⟨hs before first hf.1, ?_⟩
    have hr : items.reverse.length ≤ maxArity := by
      simpa [maxArity] using hlen
    rwa [hm] at hr

theorem argsText_of_separated {used : List Token} {args : List PlainExpr}
    (h : Separated (ExprText .assignment) used args) : ArgsText used args := by
  induction h with
  | one h => exact .one h
  | more h hc _ ih => exact .more h hc ih

variable (hn : YieldsExpr .assignment nested)

include hn

theorem arguments_yields : Yields (arguments limit nested) fun used p _ =>
    ∃ us r, used = us ++ [r] ∧ r.kind = .rightParen ∧ p.2 = r.toLexeme ∧ ArgsText us p.1 ∧
      p.1.length ≤ maxArity := by
  have hend (es : List PlainExpr) : Yields (do
      let r ← expect .rightParen .argumentsEnd
      Pure.pure (es, r)) fun used p _ => ∃ r, used = [r] ∧ r.kind = .rightParen ∧ p = (es, r.toLexeme) := by
    refine .bind (expect_yields _ _) fun r => .pure fun rest before hb => ?_
    obtain ⟨t, rfl, hk, rfl⟩ := hb
    exact ⟨t, rfl, hk, rfl⟩
  refine .bind (nextIs_yields .rightParen) fun b => ?_
  cases b with
  | true =>
      refine (hend []).imp fun used p rest h before hb => ?_
      obtain ⟨r, rfl, hk, rfl⟩ := h
      rw [hb]
      exact ⟨[], r, rfl, hk, rfl, .none, Nat.zero_le _⟩
  | false =>
      refine .bind (commaSeparated_yields .tooManyArguments hn) fun es => ?_
      refine (hend es).imp fun used p rest h us hu before hb => ?_
      obtain ⟨r, rfl, hk, rfl⟩ := h
      rw [hb]
      exact ⟨us, r, rfl, hk, rfl, argsText_of_separated hu.1, hu.2⟩

theorem primary_yields : YieldsExpr .primary (primary nested) := by
  refine .bind (take?_yields literalValue) fun o => ?_
  match o with
  | some (v, sign) =>
      refine .pure fun rest before hb => ?_
      obtain ⟨t, rfl, ht, -⟩ := hb
      exact .literal ht
  | none =>
      refine .bind (accept?_yields (.keyword .super)) fun o => ?_
      match o with
      | some keyword =>
          refine .bind (expect_yields _ _) fun d => .bind (expect_yields _ _) fun n => ?_
          refine .pure fun rest ns hns ds hds ks hks before hb => ?_
          obtain ⟨n, rfl, hn, rfl⟩ := hns
          obtain ⟨d, rfl, hd, rfl⟩ := hds
          obtain ⟨k, rfl, hk, rfl⟩ := hks
          rw [hb]
          exact .super hk hd hn
      | none =>
          refine .bind (accept?_yields (.keyword .this)) fun o => ?_
          match o with
          | some keyword =>
              refine .pure fun rest ks hks super hs before hb => ?_
              obtain ⟨k, rfl, hk, rfl⟩ := hks
              rw [hb, hs.1]
              exact .this hk
          | none =>
              refine .bind (accept?_yields .identifier) fun o => ?_
              match o with
              | some name =>
                  refine .pure fun rest ns hns this ht super hs before hb => ?_
                  obtain ⟨n, rfl, hn, rfl⟩ := hns
                  rw [hb, hs.1, ht.1]
                  exact .name hn
              | none =>
                  refine .bind (accept_yields .leftParen) fun b => ?_
                  match b with
                  | false => exact .fail _
                  | true =>
                      refine .bind hn fun inner => .bind (expect_yields _ _) fun r => ?_
                      refine .pure fun rest rs hrs us hus ls hls name hname this ht super hs before hb => ?_
                      obtain ⟨r, rfl, hr, -⟩ := hrs
                      obtain ⟨l, rfl, hl⟩ := hls
                      rw [hb, hs.1, ht.1, hname.1]
                      exact .group hl hus hr

theorem postfixed_yields : YieldsExpr .call (postfixed limit nested) := by
  refine .bind (primary_yields hn) fun first => ?_
  refine (Yields.loop (I := fun _ e used e' _ => ∀ ts, ExprText .call ts e →
    ExprText .call (ts ++ used) e') ?_ ?_ limit first).imp fun used e rest hl before hb => hl _ (.tighter hb)
  · intro e rest ts hts
    rwa [List.append_nil]
  · intro n e
    refine .bind (accept_yields .leftParen) fun b => ?_
    match b with
    | true =>
        refine .bind (arguments_yields hn) fun (values, closing) => ?_
        refine .pure fun rest us hus ls hls more e' rest' _ hl ts hts => ?_
        obtain ⟨as, r, rfl, hr, rfl, ha, hlen⟩ := hus
        obtain ⟨l, rfl, hk⟩ := hls
        have h := hl _ (.call hts hk ha hr hlen)
        simpa using h
    | false =>
        refine .bind (accept_yields .dot) fun b => ?_
        match b with
        | true =>
            refine .bind (expect_yields _ _) fun name => ?_
            refine .pure fun rest ns hns ds hds none hnone more e' rest' _ hl ts hts => ?_
            obtain ⟨n, rfl, hk, rfl⟩ := hns
            obtain ⟨d, rfl, hd⟩ := hds
            have h := hl _ (.get hts hd hk)
            rw [hnone.1]
            simpa using h
        | false =>
            refine .pure fun rest ds hds none hnone ts hts => ?_
            rw [hds.1, hnone.1]
            simpa using hts

theorem prefixed_yields : YieldsExpr .unary (prefixed limit nested) := by
  have hops := Yields.loop (p := fun ops => return (← take? prefixOp).map (· :: ops))
    (I := fun _ ops used ops' _ => ∃ new, ops' = new ++ ops ∧ ∀ us e, ExprText .unary us e →
      ExprText .unary (used ++ us) (new.foldl (fun e o => .unary () o.1 o.2 e) e))
    (fun ops rest => ⟨[], rfl, fun us e h => h⟩) (fun n ops => by
      refine .bind (take?_yields prefixOp) fun o => .pure fun rest before hb => ?_
      rcases o with _ | ⟨op, sign⟩
      case none =>
          rw [hb]
          exact ⟨[], rfl, fun us e h => h⟩
      case some =>
          obtain ⟨t, rfl, ht, rfl⟩ := hb
          rintro more ops' rest' - ⟨new, rfl, hnew⟩
          refine ⟨new ++ [(op, t.toLexeme)], by simp, fun us e h => ?_⟩
          rw [List.foldl_append]
          exact .unary ht (hnew us e h))
  refine .bind (hops limit []) fun ops => .bind (postfixed_yields hn) fun operand => ?_
  refine .pure fun rest us hus before hb => ?_
  obtain ⟨new, rfl, hnew⟩ := hb
  rw [List.append_nil, List.append_nil]
  exact hnew us operand (.tighter hus)

theorem operation_yields : YieldsExpr .equality (operation limit nested) := by
  refine leftJoined_yields .equality ?_ fun ha ht hb => .binary ha ht hb
  refine leftJoined_yields .comparison ?_ fun ha ht hb => .binary ha ht hb
  refine leftJoined_yields .sum ?_ fun ha ht hb => .binary ha ht hb
  refine leftJoined_yields .product ?_ fun ha ht hb => .binary ha ht hb
  exact prefixed_yields hn

theorem disjunction_yields : YieldsExpr .disjunction (disjunction limit nested) := by
  refine leftJoined_yields .disjunction ?_ fun ha ht hb => .logical ha ht hb
  refine leftJoined_yields .conjunction ?_ fun ha ht hb => .logical ha ht hb
  exact operation_yields hn

theorem assignment_yields : YieldsExpr .assignment (assignment limit nested) := by
  refine .bind (disjunction_yields hn) fun target => .bind (accept?_yields .equal) fun o => ?_
  match o with
  | none =>
      refine .pure fun rest none hnone before hb => ?_
      rw [hnone.1, List.append_nil, List.append_nil]
      exact .tighter hb
  | some sign =>
      refine .bind hn fun value => ?_
      have hr : Yields (report ⟨.assignmentTarget, .at sign⟩ >>= fun _ => Pure.pure target)
          fun used e _ => ∀ vs, ExprText .assignment vs value → ∀ qs, Takes .equal qs sign → ∀ ts,
            ExprText .disjunction ts target → ExprText .assignment (ts ++ (qs ++ (vs ++ used))) e :=
        .reported (.pure (Q := fun _ _ _ => True) fun _ => trivial) fun c => ⟨_, rfl⟩
      match target with
      | .name ref =>
          refine .pure fun rest vs hvs qs hqs ts hts => ?_
          obtain ⟨q, rfl, hq, -⟩ := hqs
          rw [List.append_nil]
          exact .assign hts hq hvs
      | .get _ object name =>
          refine .pure fun rest vs hvs qs hqs ts hts => ?_
          obtain ⟨q, rfl, hq, -⟩ := hqs
          rw [List.append_nil]
          exact .set hts hq hvs
      | .literal .. => exact hr
      | .group .. => exact hr
      | .unary .. => exact hr
      | .binary .. => exact hr
      | .logical .. => exact hr
      | .assign .. => exact hr
      | .call .. => exact hr
      | .set .. => exact hr
      | .this .. => exact hr
      | .super .. => exact hr

end expressions

/-- What an expression takes is a text of it. -/
theorem expression_yields : ∀ depth, YieldsExpr .assignment (expression depth)
  | 0 => .fail _
  | depth + 1 => by
      rw [expression_succ]
      exact assignment_yields (expression_yields depth)

/-! ### Statements -/

/-- A parser that takes texts of statements, and leaves no `else` that could have been taken. -/
abbrev YieldsStmt (p : Parser PlainStmt) : Prop :=
  Yields p fun used s rest => ∃ dangling, StmtText dangling used s ∧
    (dangling = true → NotNext (.keyword .else_) rest)

/-- A parser that takes texts of declarations, or nothing when `idle` holds. -/
abbrev YieldsDecl (idle : Prop) (p : Parser (Option PlainStmt)) : Prop :=
  Yields p fun used o _ =>
    match o with
    | none => used = [] ∧ idle
    | some s => ∃ dangling, DeclText dangling used s

section statements

variable {limit : Nat} {expr : Parser PlainExpr} {stmt : Parser PlainStmt}
  {decl : Parser (Option PlainStmt)} {idle : Prop}

section

variable (he : YieldsExpr .assignment expr)

include he

theorem expressionThen_yields (fault : ParseFault) :
    Yields (expressionThen fault expr) fun used e _ =>
      ∃ ts s, used = ts ++ [s] ∧ s.kind = .semicolon ∧ ExprText .assignment ts e := by
  refine .bind he fun e => .bind (expect_yields _ _) fun s => .pure fun rest ss hss ts hts => ?_
  obtain ⟨s, rfl, hs, -⟩ := hss
  exact ⟨ts, s, by simp, hs, hts⟩

theorem unlessNext_yields (kind : Kind) :
    Yields (unlessNext kind expr) fun used o _ => ExprText? used o := by
  refine .bind (nextIs_yields kind) fun b => ?_
  cases b with
  | true =>
      refine .pure fun rest before hb => ?_
      rw [hb]
      exact .none
  | false =>
      refine .bind he fun e => .pure fun rest ts hts before hb => ?_
      rw [hb, List.append_nil]
      exact .some hts

theorem variableDeclaration_yields :
    Yields (variableDeclaration expr) fun used s _ =>
      ∀ k : Token, k.kind = .keyword .var → VarText (k :: used) s := by
  have hend (name : Lexeme) (e : Option PlainExpr) : Yields (do
      let _ ← expect .semicolon .variableEnd
      return Stmt.var name e) fun used s _ =>
        ∃ t, used = [t] ∧ t.kind = .semicolon ∧ s = .var name e := by
    refine .bind (expect_yields _ _) fun _ => .pure fun rest ss hss => ?_
    obtain ⟨t, rfl, ht, -⟩ := hss
    exact ⟨t, rfl, ht, rfl⟩
  refine .bind (expect_yields _ _) fun name => .bind (accept_yields .equal) fun b => ?_
  cases b with
  | true =>
      refine .bind (.map (R := fun used o _ => ∃ e, o = some e ∧ ExprText .assignment used e)
        (he.imp fun used e rest h => ⟨e, rfl, h⟩)) fun o => ?_
      refine (hend name o).imp fun used s rest h ts hts qs hqs ns hns k hk => ?_
      obtain ⟨t, rfl, ht, rfl⟩ := h
      obtain ⟨e, rfl, hts⟩ := hts
      obtain ⟨q, rfl, hq⟩ := hqs
      obtain ⟨n, rfl, hn, rfl⟩ := hns
      exact .initialized hk hn hq hts ht
  | false =>
      refine (hend name none).imp fun used s rest h qs hqs ns hns k hk => ?_
      obtain ⟨t, rfl, ht, rfl⟩ := h
      obtain ⟨n, rfl, hn, rfl⟩ := hns
      rw [hqs.1]
      exact .plain hk hn ht

theorem forInitializer_yields : Yields (forInitializer expr) fun used o _ => StartText used o := by
  refine .bind (accept_yields _) fun b => ?_
  cases b with
  | true =>
      refine .pure fun rest ss hss => ?_
      obtain ⟨t, rfl, ht⟩ := hss
      exact .none ht
  | false =>
  refine .bind (accept_yields _) fun b => ?_
  cases b with
  | true =>
      refine .map ((variableDeclaration_yields he).imp fun used s rest h ks hks ss hss => ?_)
      obtain ⟨k, rfl, hk⟩ := hks
      rw [hss.1]
      exact .var (h k hk)
  | false =>
      refine .map ((expressionThen_yields he _).imp fun used e rest h ks hks ss hss => ?_)
      obtain ⟨ts, s, rfl, hs, hts⟩ := h
      rw [hss.1, hks.1]
      exact .expression hts hs

end

theorem paramsText_of_separated {used : List Token} {params : List Lexeme}
    (h : Separated (Takes .identifier) used params) : ParamsText used params := by
  induction h with
  | one h =>
      obtain ⟨t, rfl, ht, rfl⟩ := h
      exact .one ht
  | more h hc _ ih =>
      obtain ⟨t, rfl, ht, rfl⟩ := h
      exact .more ht hc ih

section

variable (hd : YieldsDecl idle decl)

include hd

theorem block_yields : Yields (block limit decl) fun used body _ =>
    ∃ ts r, used = ts ++ [r] ∧ r.kind = .rightBrace ∧ BodyText ts body := by
  refine .bind (Yields.collect BodyText.nil (fun body => ?_) limit) fun body => ?_
  · refine .bind (nextIs_yields _) fun a => .bind atEnd_yields fun b => ?_
    split
    · refine .pure fun rest bs hb as ha => ?_
      rw [ha, hb.1]
      rfl
    · refine .bind hd fun o => .pure fun rest us hus bs hb as ha => ?_
      rw [ha, hb.1]
      cases o with
      | none =>
          rw [hus.1]
          exact ⟨[], rfl, fun more as h => h⟩
      | some s =>
          obtain ⟨dangling, hs⟩ := hus
          refine ⟨[s], rfl, fun more as h => ?_⟩
          simpa using BodyText.cons hs h
  · refine .bind (expect_yields _ _) fun _ => .pure fun rest rs hrs ts hts => ?_
    obtain ⟨r, rfl, hr, -⟩ := hrs
    exact ⟨ts, r, by simp, hr, hts⟩

theorem routine_yields (sort : Routine) :
    Yields (routine sort limit decl) fun used d _ => RoutineText used d := by
  have hend (name : Lexeme) (params : List Lexeme) : Yields (do
      let _ ← expect .rightParen .parametersEnd
      let _ ← expect .leftBrace (.bodyStart sort)
      return FunDecl.mk name params (← block limit decl)) fun used d _ =>
        ∃ r b ts e body, used = r :: b :: (ts ++ [e]) ∧ r.kind = .rightParen ∧ b.kind = .leftBrace ∧
          BodyText ts body ∧ e.kind = .rightBrace ∧ d = .mk name params body := by
    refine .bind (expect_yields _ _) fun _ => .bind (expect_yields _ _) fun _ =>
      .bind (block_yields hd) fun body => .pure fun rest us hus bs hbs rs hrs => ?_
    obtain ⟨ts, e, rfl, he, hts⟩ := hus
    obtain ⟨b, rfl, hb, -⟩ := hbs
    obtain ⟨r, rfl, hr, -⟩ := hrs
    exact ⟨r, b, ts, e, body, by simp, hr, hb, hts, he, rfl⟩
  refine .bind (expect_yields _ _) fun name => .bind (expect_yields _ _) fun _ =>
    .bind (nextIs_yields .rightParen) fun b => ?_
  cases b with
  | true =>
      refine (hend name []).imp fun used d rest h as ha ls hls ns hns => ?_
      obtain ⟨r, b, ts, e, body, rfl, hr, hb, hts, he, rfl⟩ := h
      obtain ⟨l, rfl, hl, -⟩ := hls
      obtain ⟨n, rfl, hn, rfl⟩ := hns
      rw [ha]
      exact .mk hn hl .none (Nat.zero_le _) hr hb hts he
  | false =>
      refine .bind (commaSeparated_yields .tooManyParameters (expect_yields _ _)) fun params => ?_
      refine (hend name params).imp fun used d rest h ps hps as ha ls hls ns hns => ?_
      obtain ⟨r, b, ts, e, body, rfl, hr, hb, hts, he, rfl⟩ := h
      obtain ⟨l, rfl, hl, -⟩ := hls
      obtain ⟨n, rfl, hn, rfl⟩ := hns
      rw [ha]
      exact .mk hn hl (paramsText_of_separated hps.1) hps.2 hr hb hts he

theorem classDeclaration_yields : Yields (classDeclaration limit decl) fun used s _ =>
    ∀ k : Token, k.kind = .keyword .class_ → DeclText false (k :: used) s := by
  have hmethods := Yields.collect MethodsText.nil (p := fun methods => do
      if (← nextIs .rightBrace) || (← atEnd) then return none
      else return some ((← routine .method limit decl) :: methods)) (fun methods => by
    refine .bind (nextIs_yields _) fun a => .bind atEnd_yields fun b => ?_
    split
    · refine .pure fun rest bs hb as ha => ?_
      rw [ha, hb.1]
      rfl
    · refine .bind (routine_yields hd .method) fun d => .pure fun rest us hus bs hb as ha => ?_
      rw [ha, hb.1]
      refine ⟨[d], rfl, fun more as h => ?_⟩
      simpa using MethodsText.cons hus h)
  have hend (name : Lexeme) (superclass : Option (Reference Unit)) : Yields (do
      let _ ← expect .leftBrace .classBodyStart
      let methods ← loop (fun methods => do
        if (← nextIs .rightBrace) || (← atEnd) then return none
        else return some ((← routine .method limit decl) :: methods)) limit []
      let _ ← expect .rightBrace .classBodyEnd
      return Stmt.cls name superclass methods.reverse) fun used s _ =>
        ∃ l ts r methods, used = l :: (ts ++ [r]) ∧ l.kind = .leftBrace ∧ MethodsText ts methods ∧
          r.kind = .rightBrace ∧ s = .cls name superclass methods := by
    refine .bind (expect_yields _ _) fun _ => .bind (hmethods limit) fun methods =>
      .bind (expect_yields _ _) fun _ => .pure fun rest rs hrs ts hts ls hls => ?_
    obtain ⟨r, rfl, hr, -⟩ := hrs
    obtain ⟨l, rfl, hl, -⟩ := hls
    exact ⟨l, ts, r, _, by simp, hl, hts, hr, rfl⟩
  refine .bind (expect_yields _ _) fun name => .bind (accept_yields .less) fun b => ?_
  cases b with
  | true =>
      refine .bind (expect_yields _ _) fun lexeme => ?_
      refine (hend name (some ⟨(), lexeme⟩)).imp fun used s rest h ps hps qs hqs ns hns k hk => ?_
      obtain ⟨l, ts, r, methods, rfl, hl, hts, hr, rfl⟩ := h
      obtain ⟨p, rfl, hp, rfl⟩ := hps
      obtain ⟨q, rfl, hq⟩ := hqs
      obtain ⟨n, rfl, hn, rfl⟩ := hns
      exact .derived hk hn hq hp hl hts hr
  | false =>
      refine (hend name none).imp fun used s rest h qs hqs ns hns k hk => ?_
      obtain ⟨l, ts, r, methods, rfl, hl, hts, hr, rfl⟩ := h
      obtain ⟨n, rfl, hn, rfl⟩ := hns
      rw [hqs.1]
      exact .base hk hn hl hts hr

end

section

variable (he : YieldsExpr .assignment expr) (hs : YieldsStmt stmt)

include he hs

theorem whileStatement_yields : Yields (whileStatement expr stmt) fun used s rest =>
    ∀ k : Token, k.kind = .keyword .while_ → ∃ dangling, StmtText dangling (k :: used) s ∧
      (dangling = true → NotNext (.keyword .else_) rest) := by
  refine .bind (expect_yields _ _) fun _ => .bind he fun c => .bind (expect_yields _ _) fun _ =>
    .bind hs fun body => .pure fun rest bs hbs rs hrs ts hts ls hls k hk => ?_
  obtain ⟨dangling, hb, hn⟩ := hbs
  obtain ⟨r, rfl, hr, -⟩ := hrs
  obtain ⟨l, rfl, hl, -⟩ := hls
  refine ⟨dangling, ?_, hn⟩
  simpa using StmtText.while hk hl hts hr hb

theorem ifStatement_yields : Yields (ifStatement expr stmt) fun used s rest =>
    ∀ k : Token, k.kind = .keyword .if_ → ∃ dangling, StmtText dangling (k :: used) s ∧
      (dangling = true → NotNext (.keyword .else_) rest) := by
  refine .bind (expect_yields _ _) fun _ => .bind he fun c => .bind (expect_yields _ _) fun _ =>
    .bind hs fun yes => .bind (accept_yields _) fun b => ?_
  cases b with
  | true =>
      refine .bind (.map (R := fun used o rest => ∃ no, o = some no ∧ ∃ dangling,
        StmtText dangling used no ∧ (dangling = true → NotNext (.keyword .else_) rest))
          (hs.imp fun used s rest h => ⟨s, rfl, h⟩)) fun o => ?_
      refine .pure fun rest ns hns es hes ys hys rs hrs ts hts ls hls k hk => ?_
      obtain ⟨no, rfl, dangling, hn, hnext⟩ := hns
      obtain ⟨e, rfl, hek⟩ := hes
      obtain ⟨dangling', hy, hnext'⟩ := hys
      obtain ⟨r, rfl, hr, -⟩ := hrs
      obtain ⟨l, rfl, hl, -⟩ := hls
      -- An `if` at the end of the branch would have taken the `else`.
      obtain rfl : dangling' = false := by
        cases dangling' with
        | false => rfl
        | true => exact absurd hek (hnext' rfl e rfl)
      refine ⟨dangling, ?_, hnext⟩
      simpa using StmtText.iteElse hk hl hts hr hy hek hn
  | false =>
      refine .pure fun rest es hes ys hys rs hrs ts hts ls hls k hk => ?_
      obtain ⟨dangling', hy, -⟩ := hys
      obtain ⟨r, rfl, hr, -⟩ := hrs
      obtain ⟨l, rfl, hl, -⟩ := hls
      refine ⟨true, ?_, fun _ => hes.2⟩
      rw [hes.1]
      simpa using StmtText.ite hk hl hts hr hy

theorem forStatement_yields : Yields (forStatement expr stmt) fun used s rest =>
    ∀ k : Token, k.kind = .keyword .for_ → ∃ dangling, StmtText dangling (k :: used) s ∧
      (dangling = true → NotNext (.keyword .else_) rest) := by
  have hend (start : Option PlainStmt) : Yields (do
      let condition ← unlessNext .semicolon expr
      let _ ← expect .semicolon .forConditionEnd
      let increment ← unlessNext .rightParen expr
      let _ ← expect .rightParen .forClausesEnd
      return forLoop start condition increment (← stmt)) fun used s rest =>
        ∃ cs c t us step r bs dangling body, used = cs ++ t :: (us ++ r :: bs) ∧ ExprText? cs c ∧
          t.kind = .semicolon ∧ ExprText? us step ∧ r.kind = .rightParen ∧
          StmtText dangling bs body ∧ (dangling = true → NotNext (.keyword .else_) rest) ∧
          s = forLoop start c step body := by
    refine .bind (unlessNext_yields he _) fun c => .bind (expect_yields _ _) fun _ =>
      .bind (unlessNext_yields he _) fun step => .bind (expect_yields _ _) fun _ => .bind hs fun body =>
      .pure fun rest bs hbs rs hrs us hus ts hts cs hcs => ?_
    obtain ⟨dangling, hb, hn⟩ := hbs
    obtain ⟨r, rfl, hr, -⟩ := hrs
    obtain ⟨t, rfl, ht, -⟩ := hts
    exact ⟨cs, c, t, us, step, r, bs, dangling, body, by simp, hcs, ht, hus, hr, hb, hn, rfl⟩
  refine .bind (expect_yields _ _) fun _ => .bind (forInitializer_yields he) fun start => ?_
  refine (hend start).imp fun used s rest h is his ls hls k hk => ?_
  obtain ⟨cs, c, t, us, step, r, bs, dangling, body, rfl, hc, ht, hu, hr, hb, hn, rfl⟩ := h
  obtain ⟨l, rfl, hl, -⟩ := hls
  exact ⟨dangling, .for hk hl his hc ht hu hr hb, hn⟩

end

theorem statementWith_yields (hs : YieldsStmt stmt) (hd : YieldsDecl idle decl) :
    YieldsStmt (statementWith limit stmt decl) := by
  have he := expression_yields limit
  refine .bind (accept_yields _) fun b => ?_
  cases b with
  | true =>
      refine (forStatement_yields he hs).imp fun used s rest h ks hks => ?_
      obtain ⟨k, rfl, hk⟩ := hks
      exact h k hk
  | false =>
  refine .bind (accept_yields _) fun b => ?_
  cases b with
  | true =>
      refine (ifStatement_yields he hs).imp fun used s rest h ks hks fs hf => ?_
      obtain ⟨k, rfl, hk⟩ := hks
      rw [hf.1]
      exact h k hk
  | false =>
  refine .bind (accept_yields _) fun b => ?_
  cases b with
  | true =>
      refine .map ((expressionThen_yields he _).imp fun used e rest h ks hks is hi fs hf => ?_)
      obtain ⟨ts, s, rfl, hs, hts⟩ := h
      obtain ⟨k, rfl, hk⟩ := hks
      rw [hf.1, hi.1]
      exact ⟨false, .print hk hts hs, fun h => nomatch h⟩
  | false =>
  refine .bind (accept?_yields _) fun o => ?_
  cases o with
  | some keyword =>
      refine .bind (unlessNext_yields he _) fun value => .bind (expect_yields _ _) fun _ => ?_
      refine .pure fun rest ss hss ts hts ks hks ps hp is hi fs hf => ?_
      obtain ⟨s, rfl, hs, -⟩ := hss
      obtain ⟨k, rfl, hk, rfl⟩ := hks
      rw [hf.1, hi.1, hp.1]
      refine ⟨false, ?_, fun h => nomatch h⟩
      simpa using StmtText.ret hk hts hs
  | none =>
  refine .bind (accept_yields _) fun b => ?_
  cases b with
  | true =>
      refine (whileStatement_yields he hs).imp fun used s rest h ks hks rs hr ps hp is hi fs hf => ?_
      obtain ⟨k, rfl, hk⟩ := hks
      rw [hf.1, hi.1, hp.1, hr.1]
      exact h k hk
  | false =>
  refine .bind (accept_yields _) fun b => ?_
  cases b with
  | true =>
      refine .map ((block_yields hd).imp fun used body rest h ls hls ws hw rs hr ps hp is hi fs hf => ?_)
      obtain ⟨ts, r, rfl, hk, hts⟩ := h
      obtain ⟨l, rfl, hl⟩ := hls
      rw [hf.1, hi.1, hp.1, hr.1, hw.1]
      exact ⟨false, .block hl hts hk, fun h => nomatch h⟩
  | false =>
      refine .map ((expressionThen_yields he _).imp
        fun used e rest h ls hls ws hw rs hr ps hp is hi fs hf => ?_)
      obtain ⟨ts, s, rfl, hs, hts⟩ := h
      rw [hf.1, hi.1, hp.1, hr.1, hw.1, hls.1]
      exact ⟨false, .expression hts hs, fun h => nomatch h⟩

theorem declarationWith_yields (hs : YieldsStmt stmt) (hd : YieldsDecl idle decl) :
    Yields (declarationWith limit stmt decl) fun used s _ => ∃ dangling, DeclText dangling used s := by
  refine .bind (accept_yields _) fun b => ?_
  cases b with
  | true =>
      refine (classDeclaration_yields hd).imp fun used s rest h ks hks => ?_
      obtain ⟨k, rfl, hk⟩ := hks
      exact ⟨false, h k hk⟩
  | false =>
  refine .bind (accept_yields _) fun b => ?_
  cases b with
  | true =>
      refine .map ((routine_yields hd .function).imp fun used d rest h ks hks cs hc => ?_)
      obtain ⟨k, rfl, hk⟩ := hks
      rw [hc.1]
      exact ⟨false, .function hk h⟩
  | false =>
  refine .bind (accept_yields _) fun b => ?_
  cases b with
  | true =>
      refine (variableDeclaration_yields (expression_yields limit)).imp
        fun used s rest h ks hks fs hf cs hc => ?_
      obtain ⟨k, rfl, hk⟩ := hks
      rw [hc.1, hf.1]
      exact ⟨false, .var (h k hk)⟩
  | false =>
      refine hs.imp fun used s rest h vs hv fs hf cs hc => ?_
      obtain ⟨dangling, h, -⟩ := h
      rw [hc.1, hf.1, hv.1]
      exact ⟨dangling, .statement h⟩

/-- A fault that is recovered from is reported. -/
theorem recovering_yields {p : Parser α} {Q : List Token → α → List Token → Prop} (h : Yields p Q) :
    Yields (recovering p) fun used o rest =>
      match o with
      | none => False
      | some a => Q used a rest := by
  intro c
  have h := h c
  unfold recovering
  cases hp : p c with
  | ok a c' =>
      rw [hp] at h
      exact h
  | error e c' =>
      rw [hp] at h
      obtain ⟨more, he⟩ := h
      have hs : (synchronize (c'.report e)).errors = c.errors ++ (more ++ [e]) := by
        rw [← List.append_assoc, ← he]
        unfold synchronize
        split <;> rfl
      refine ⟨more ++ [e], hs, fun hm => ?_⟩
      simp at hm

end statements

/-- What statements and declarations take are texts of them. -/
theorem statement_declaration_yields :
    ∀ depth, YieldsStmt (statement depth) ∧ YieldsDecl (depth = 0) (declaration depth)
  | 0 => ⟨.fail _, .pure fun _ => ⟨rfl, rfl⟩⟩
  | depth + 1 => by
      obtain ⟨hs, hd⟩ := statement_declaration_yields depth
      rw [statement_succ, declaration_succ]
      refine ⟨statementWith_yields hs hd, (recovering_yields (declarationWith_yields hs hd)).imp ?_⟩
      intro used o rest h
      cases o with
      | none => exact h.elim
      | some s => exact h

/-! ### Whole inputs -/

/-- With enough depth, all tokens are taken. -/
theorem declarations_yields {depth : Nat} (hd : depth ≠ 0) :
    Yields (declarations depth) fun used body rest =>
      BodyText used body ∧ (rest = [] ∨ depth ≤ used.length) := by
  refine .bind (Yields.loop (I := fun n body used body' rest => (∃ items,
    body'.reverse = body.reverse ++ items ∧ BodyText used items) ∧ (rest = [] ∨ n ≤ used.length))
      ?_ ?_ depth []) fun body => ?_
  · exact fun body rest => ⟨⟨[], by simp, .nil⟩, .inr (Nat.le_refl _)⟩
  · intro n body
    refine .bind atEnd_yields fun b => ?_
    cases b with
    | true =>
        refine .pure fun rest before hb => ?_
        rw [hb.1]
        exact ⟨⟨[], by simp, .nil⟩, .inl (hb.2 rfl)⟩
    | false =>
        refine .bind (statement_declaration_yields depth).2 fun o => .pure fun rest us hus before hb => ?_
        rintro more body' rest' - ⟨⟨items, hi, ht⟩, hlen⟩
        rw [hb.1]
        cases o with
        | none => exact absurd hus.2 hd
        | some s =>
            obtain ⟨dangling, hs⟩ := hus
            refine ⟨⟨s :: items, by simpa using hi, by simpa using BodyText.cons hs ht⟩, ?_⟩
            have := List.length_pos_iff.mpr hs.ne_nil
            rcases hlen with hlen | hlen
            · exact .inl hlen
            · right
              simp only [List.nil_append, List.append_nil, List.length_append]
              omega
  · refine .pure fun rest used h => ?_
    obtain ⟨⟨items, hi, ht⟩, hlen⟩ := h
    rw [hi, List.append_nil]
    exact ⟨ht, hlen⟩

theorem soleExpression_yields (depth : Nat) :
    Yields (soleExpression depth) fun used e rest => ExprText .assignment used e ∧ rest = [] := by
  refine .bind (expression_yields depth) fun e => .bind atEnd_yields fun b => ?_
  cases b with
  | true =>
      refine .pure fun rest before hb ts hts => ?_
      rw [hb.1, List.append_nil, List.append_nil]
      exact ⟨hts, hb.2 rfl⟩
  | false => exact .fail _

end Parser

/-- The tokens of a list that are read: those before the first end-of-file token. -/
def textOf (tokens : List Token) : List Token := tokens.takeWhile (·.kind ≠ .eof)

theorem runParser_ok {α : Type} {p : Parser α} {Q : List Token → α → List Token → Prop}
    (hp : Parser.Yields p Q) {tokens : List Token} {a : α} (h : runParser p tokens = .ok a) :
    ∃ used rest, textOf tokens = used ++ rest ∧ Q used a rest := by
  have hc := hp (Cursor.ofTokens tokens)
  unfold runParser at h
  cases hr : p (Cursor.ofTokens tokens) with
  | error e c =>
      rw [hr] at h
      exact nomatch h
  | ok b c =>
      rw [hr] at h hc
      obtain ⟨more, he, hq⟩ := hc
      dsimp only at h
      split at h
      · rename_i hempty
        cases h
        obtain ⟨used, hu, hq⟩ := hq (by rw [List.isEmpty_iff.mp hempty] at he; exact he.symm)
        exact ⟨used, c.rest, hu, hq⟩
      · exact nomatch h

/-- What is parsed as a program is a text of it. -/
theorem parseProgram_sound {tokens : List Token} {body : List PlainStmt}
    (h : parseProgram tokens = .ok body) : BodyText (textOf tokens) body := by
  obtain ⟨used, rest, hu, hb, hr⟩ := runParser_ok (Parser.declarations_yields (by simp [Parser.depthFor])) h
  have hlen : (textOf tokens).length ≤ tokens.length := (List.takeWhile_prefix _).length_le
  rcases hr with rfl | hr
  · rw [hu, List.append_nil]
    exact hb
  · have := congrArg List.length hu
    simp only [List.length_append] at this
    simp only [Parser.depthFor] at hr
    omega

/-- What is parsed as an expression is a text of it. -/
theorem parseExpression_sound {tokens : List Token} {e : PlainExpr}
    (h : parseExpression tokens = .ok e) : ExprText .assignment (textOf tokens) e := by
  obtain ⟨used, rest, hu, he, rfl⟩ := runParser_ok (Parser.soleExpression_yields _) h
  rw [hu, List.append_nil]
  exact he

end Lox
