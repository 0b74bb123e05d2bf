import Lox.Proofs.Progress

/-! # Faults before a semicolon

A simple declaration ends at its first semicolon, whatever is wrong before it.  The rules for expressions never take a
semicolon, and what they make of the tokens before one does not depend on what follows it (`Stays`).  So the rule for a
declaration either takes all tokens up to the semicolon or gives up at one of them (`Completes`), and a parser that
recovers goes on right after the semicolon (`Parser.declaration_resumes`).  From there it reads what it would read from
the rest alone: statements and faults of the two parts come one after the other (`parseProgram_semicolon`). -/

namespace Lox

/-! ### Simple declarations -/

/-- Is a token of this kind at home inside an expression or a parameter list?  It is no semicolon, no brace, no end of
file, and no word that starts a statement. -/
def Kind.inner (k : Kind) : Bool :=
  k ≠ .semicolon && k ≠ .leftBrace && k ≠ .rightBrace && k ≠ .eof && !Parser.startsStatement k

/-- Tokens of a declaration that ends at the semicolon after them, as far as their kinds tell: no semicolon, no brace
and no end of file, words that start a statement at most at the start, and there neither `for` nor `if`. -/
structure SimpleTokens (c : List Token) : Prop where
  unbraced : ∀ t ∈ c, t.kind ≠ .semicolon ∧ t.kind ≠ .leftBrace ∧ t.kind ≠ .rightBrace ∧ t.kind ≠ .eof
  starts : ∀ t ∈ c.tail, Parser.startsStatement t.kind = false
  first : ∀ t, c.head? = some t → t.kind ≠ .keyword .for_ ∧ t.kind ≠ .keyword .if_

/-- Tokens that are all at home inside an expression. -/
def InnerTokens (us : List Token) : Prop := ∀ t ∈ us, t.kind.inner = true

/-- A word and tokens that are at home inside an expression. -/
def LedBy (k : Kind) (us : List Token) : Prop := ∃ t vs, us = t :: vs ∧ t.kind = k ∧ InnerTokens vs

/-- Is a token of this kind a word that starts a simple declaration or statement? -/
def Kind.leads (k : Kind) : Bool := Parser.startsStatement k && k ≠ .keyword .for_ && k ≠ .keyword .if_

theorem Kind.leads_cases {k : Kind} (h : k.leads = true) :
    k = .keyword .class_ ∨ k = .keyword .fun_ ∨ k = .keyword .var ∨
      k = .keyword .print ∨ k = .keyword .return_ ∨ k = .keyword .while_ := by
  cases k with
  | keyword w => cases w <;> simp_all [Kind.leads, Parser.startsStatement]
  | _ => exact nomatch h

theorem SimpleTokens.tail {t : Token} {us : List Token} (h : SimpleTokens (t :: us)) : InnerTokens us := by
  intro u hu
  obtain ⟨h1, h2, h3, h4⟩ := h.unbraced u (List.mem_cons_of_mem t hu)
  simp [Kind.inner, h1, h2, h3, h4, h.starts u hu]

theorem InnerTokens.starts {us : List Token} (h : InnerTokens us) :
    ∀ t ∈ us, Parser.startsStatement t.kind = false := by
  intro t ht
  have hi := h t ht
  simp only [Kind.inner, Bool.and_eq_true, Bool.not_eq_true'] at hi
  exact hi.2

theorem InnerTokens.simple {us : List Token} (h : InnerTokens us) : SimpleTokens us where
  unbraced t ht := by
    have hi := h t ht
    simp only [Kind.inner, Bool.and_eq_true, decide_eq_true_eq] at hi
    exact ⟨hi.1.1.1.1, hi.1.1.1.2, hi.1.1.2, hi.1.2⟩
  starts t ht := h.starts t (List.mem_of_mem_tail ht)
  first t ht := by
    have hi := h t (List.mem_of_mem_head? ht)
    constructor <;> intro hk <;> rw [hk] at hi <;> exact nomatch hi

/-- Between such tokens and the semicolon, the next token is of no other kind. -/
theorem InnerTokens.notNext {us : List Token} (h : InnerTokens us) {s : Token} (hs : s.kind = .semicolon) {k : Kind}
    (hk : k.inner = false) (hne : k ≠ .semicolon) : Parser.NotNext k (us ++ [s]) := by
  cases us with
  | nil => exact Parser.notNext_of_kind hs hne.symm
  | cons t us =>
      refine Parser.notNext_cons fun ht => ?_
      have hi := h t (List.mem_cons_self ..)
      rw [ht, hk] at hi
      exact nomatch hi

theorem LedBy.notNext {k k' : Kind} {us : List Token} (h : LedBy k us) (hne : k ≠ k') (s : Token) :
    Parser.NotNext k' (us ++ [s]) := by
  obtain ⟨t, vs, rfl, hk, -⟩ := h
  exact Parser.notNext_of_kind hk hne

theorem LedBy.simple {k : Kind} {us : List Token} (h : LedBy k us) (hk : k.leads = true) : SimpleTokens us := by
  obtain ⟨t, vs, rfl, rfl, hvs⟩ := h
  have hinner := hvs.simple
  refine ⟨List.forall_mem_cons.mpr ⟨?_, hinner.unbraced⟩, hvs.starts, ?_⟩
  · rcases Kind.leads_cases hk with hk | hk | hk | hk | hk | hk <;> rw [hk] <;> simp
  · rintro _ ⟨⟩
    rcases Kind.leads_cases hk with hk | hk | hk | hk | hk | hk <;> rw [hk] <;> simp

/-- A simple declaration starts with a word, or it is an expression. -/
theorem SimpleTokens.inner_or_led {us : List Token} (h : SimpleTokens us) :
    InnerTokens us ∨ ∃ k : Kind, k.leads = true ∧ LedBy k us := by
  cases us with
  | nil => exact .inl nofun
  | cons t us =>
      obtain ⟨h1, h2, h3, h4⟩ := h.unbraced t (List.mem_cons_self ..)
      obtain ⟨hfor, hif⟩ := h.first t rfl
      cases hstarts : Parser.startsStatement t.kind with
      | true => exact .inr ⟨t.kind, by simp [Kind.leads, hstarts, hfor, hif], t, us, rfl, rfl, h.tail⟩
      | false =>
          refine .inl (List.forall_mem_cons.mpr ⟨?_, h.tail⟩)
          simp [Kind.inner, h1, h2, h3, h4, hstarts]

/-! ### Surroundings -/

/-- What a part of a text stands in: the faults before it, the tokens after it, and the line of the end. -/
structure Framing where
  earlier : List ParseError
  more : List Token
  last : Nat

/-- What is left to read, in surroundings. -/
def Cursor.within (c : Cursor) (f : Framing) : Cursor := ⟨c.rest ++ f.more, f.last, f.earlier ++ c.errors⟩

/-- Tokens with a property, and a semicolon after them. -/
def UpTo (P : List Token → Prop) (s : Token) (ts : List Token) : Prop := ∃ us, ts = us ++ [s] ∧ P us

namespace Parser

variable {α β : Type}

/-- What is left satisfies `P`; then in all surroundings a parser does the same: either it comes to a result, of which
together with what is left `Q` holds, or it gives up before the semicolon. -/
def Confined (s : Token) (P : List Token → Prop) (p : Parser α) (Q : α → List Token → Prop) : Prop :=
  ∀ c : Cursor, P c.rest →
    (∃ (a : α) (c' : Cursor), Q a c'.rest ∧ ∀ f, p (c.within f) = .ok a (c'.within f)) ∨
    ∃ (e : ParseError) (c' : Cursor), UpTo SimpleTokens s c'.rest ∧ ∀ f, p (c.within f) = .error e (c'.within f)

/-- From inside an expression, a parser stays before the semicolon. -/
abbrev Stays (s : Token) (p : Parser α) : Prop :=
  Confined s (UpTo InnerTokens s) p fun _ => UpTo InnerTokens s

/-- From inside an expression, a parser comes to its result right after the semicolon. -/
abbrev Completes (s : Token) (p : Parser α) : Prop :=
  Confined s (UpTo InnerTokens s) p fun _ rest => rest = []

namespace Confined

variable {s : Token} {P : List Token → Prop} {p : Parser α} {Q : α → List Token → Prop} {R : β → List Token → Prop}

theorem pure {a : α} (h : ∀ ts, P ts → Q a ts) : Confined s P (Pure.pure a) Q := fun c hc =>
  .inl ⟨a, c, h _ hc, fun _ => rfl⟩

theorem bind {f : α → Parser β} (h : Confined s P p Q) (hf : ∀ a, Confined s (Q a) (f a) R) :
    Confined s P (p >>= f) R := by
  intro c hc
  rcases h c hc with ⟨a, c', hq, hp⟩ | ⟨e, c', hq, hp⟩
  · have hbind (w : Framing) : (p >>= f) (c.within w) = f a (c'.within w) := by
      change EStateM.bind p f _ = _
      rw [EStateM.bind, hp]
    rcases hf a c' hq with ⟨b, c'', hr, hrun⟩ | ⟨e, c'', hr, hrun⟩
    · exact .inl ⟨b, c'', hr, fun w => (hbind w).trans (hrun w)⟩
    · exact .inr ⟨e, c'', hr, fun w => (hbind w).trans (hrun w)⟩
  · refine .inr ⟨e, c', hq, fun w => ?_⟩
    change EStateM.bind p f _ = _
    rw [EStateM.bind, hp]

theorem map {g : α → β} (h : Confined s P p Q) (hg : ∀ a ts, Q a ts → R (g a) ts) : Confined s P (g <$> p) R := by
  have hbind : Confined s P (p >>= fun a => Pure.pure (g a)) R := h.bind fun a => .pure (hg a)
  rwa [bind_pure_comp] at hbind

/-! ### Tokens -/

/-- Before a semicolon, there is a next token. -/
theorem exists_next {ts : List Token} {T : List Token → Prop} (h : UpTo T s ts) : ∃ t rest, ts = t :: rest := by
  obtain ⟨us, rfl, -⟩ := h
  cases us with
  | nil => exact ⟨s, [], rfl⟩
  | cons t us => exact ⟨t, us ++ [s], rfl⟩

theorem fail {T : List Token → Prop} (fault : ParseFault) (hT : ∀ us, T us → SimpleTokens us) :
    Confined s (UpTo T s) (Parser.fail fault : Parser α) Q := by
  rintro ⟨ts, endLine, errors⟩ h
  obtain ⟨us, rfl, hus⟩ := h
  obtain ⟨t, rest, hts⟩ := exists_next ⟨us, rfl, hus⟩
  refine .inr ⟨⟨fault, .at t.toLexeme⟩, ⟨us ++ [s], endLine, errors⟩, ⟨us, rfl, hT us hus⟩, fun f => ?_⟩
  unfold Parser.fail Cursor.place Cursor.within
  dsimp only
  rw [hts]
  rfl

theorem report (e : ParseError) : Stays s (Parser.report e) := fun c hc =>
  .inl ⟨(), c.report e, hc, fun f => by
    change EStateM.Result.ok () ((c.within f).report e) = _
    unfold Cursor.report Cursor.within
    dsimp only
    rw [List.append_assoc]⟩

theorem reportHere (fault : ParseFault) : Stays s (Parser.reportHere fault) := by
  intro c hc
  obtain ⟨t, rest, hts⟩ := exists_next hc
  refine .inl ⟨(), c.report ⟨fault, .at t.toLexeme⟩, hc, fun f => ?_⟩
  change EStateM.Result.ok () ((c.within f).report ⟨fault, (c.within f).place⟩) = _
  unfold Cursor.report Cursor.place Cursor.within
  dsimp only
  rw [hts, List.append_assoc]
  rfl

theorem nextIs (kind : Kind) : Stays s (Parser.nextIs kind) := by
  rintro ⟨ts, endLine, errors⟩ hc
  have hts : UpTo InnerTokens s ts := hc
  obtain ⟨t, rest, rfl⟩ := exists_next hts
  exact .inl ⟨decide (t.kind = kind), _, hc, fun _ => rfl⟩

theorem take? {want : Kind → Option β} (hs : want s.kind = none) : Stays s (Parser.take? want) := by
  rintro ⟨ts, endLine, errors⟩ hc
  obtain ⟨us, rfl, hus⟩ := hc
  cases us with
  | nil =>
      have hdeclines (f : Framing) : Reads (Parser.take? want) [] none ([s] ++ f.more) :=
        take?_declines (by rintro _ ⟨⟩; exact hs)
      exact .inl ⟨none, ⟨[s], endLine, errors⟩, ⟨[], rfl, hus⟩, fun f => hdeclines f _ _⟩
  | cons t us =>
      have hus' : InnerTokens us := fun u hu => hus u (List.mem_cons_of_mem t hu)
      cases hw : want t.kind with
      | none =>
          have hdeclines (f : Framing) : Reads (Parser.take? want) [] none ((t :: us ++ [s]) ++ f.more) :=
            take?_declines (by rintro _ ⟨⟩; exact hw)
          exact .inl ⟨none, ⟨t :: us ++ [s], endLine, errors⟩, ⟨t :: us, rfl, hus⟩, fun f => hdeclines f _ _⟩
      | some b =>
          exact .inl ⟨some (b, t.toLexeme), ⟨us ++ [s], endLine, errors⟩, ⟨us, rfl, hus'⟩, fun _ =>
            take?_reads hw _ _ _⟩

theorem accept?_declines {T : List Token → Prop} {k : Kind} (h : ∀ us, T us → NotNext k (us ++ [s])) :
    Confined s (UpTo T s) (Parser.accept? k) fun o rest => o = none ∧ UpTo T s rest := by
  rintro ⟨ts, endLine, errors⟩ hc
  obtain ⟨t, rest, rfl⟩ := exists_next hc
  have hne : t.kind ≠ k := by
    obtain ⟨us, hts, hus⟩ := hc
    exact h us hus t (hts ▸ rfl)
  exact .inl ⟨none, ⟨t :: rest, endLine, errors⟩, ⟨rfl, hc⟩, fun f => if_neg hne⟩

theorem accept?_takes (k : Kind) :
    Confined s (UpTo (LedBy k) s) (Parser.accept? k) fun o rest => o.isSome ∧ UpTo InnerTokens s rest := by
  rintro ⟨ts, endLine, errors⟩ hc
  obtain ⟨us, rfl, t, vs, rfl, hk, hvs⟩ := hc
  exact .inl ⟨some t.toLexeme, ⟨vs ++ [s], endLine, errors⟩, ⟨rfl, vs, rfl, hvs⟩, fun f => if_pos hk⟩

theorem accept? {k : Kind} (hs : s.kind ≠ k) : Stays s (Parser.accept? k) := by
  rintro ⟨ts, endLine, errors⟩ hc
  obtain ⟨us, rfl, hus⟩ := hc
  cases us with
  | nil => exact .inl ⟨none, ⟨[s], endLine, errors⟩, ⟨[], rfl, hus⟩, fun f => if_neg hs⟩
  | cons t us =>
      have hus' : InnerTokens us := fun u hu => hus u (List.mem_cons_of_mem t hu)
      by_cases hk : t.kind = k
      · exact .inl ⟨some t.toLexeme, ⟨us ++ [s], endLine, errors⟩, ⟨us, rfl, hus'⟩, fun f => if_pos hk⟩
      · exact .inl ⟨none, ⟨t :: us ++ [s], endLine, errors⟩, ⟨t :: us, rfl, hus⟩, fun f => if_neg hk⟩

theorem accept {k : Kind} (hs : s.kind ≠ k) : Stays s (Parser.accept k) :=
  .bind (.accept? hs) fun _ => .pure fun _ h => h

theorem expect {k : Kind} (hs : s.kind ≠ k) (fault : ParseFault) : Stays s (Parser.expect k fault) :=
  .bind (.accept? hs) fun o => by
    match o with
    | some t => exact .pure fun _ h => h
    | none => exact .fail fault fun _ h => h.simple

/-- A token that is expected but cannot be next. -/
theorem expect_absent {T : List Token → Prop} {k : Kind} (h : ∀ us, T us → NotNext k (us ++ [s]))
    (hT : ∀ us, T us → SimpleTokens us) (fault : ParseFault) {Q : Lexeme → List Token → Prop} :
    Confined s (UpTo T s) (Parser.expect k fault) Q :=
  .bind (.accept?_declines h) fun o => by
    rintro c ⟨rfl, hc⟩
    exact fail fault hT c hc

/-- The semicolon, where it is expected. -/
theorem expect_semicolon (hs : s.kind = .semicolon) (fault : ParseFault) :
    Completes s (Parser.expect .semicolon fault) := by
  rintro ⟨ts, endLine, errors⟩ hc
  obtain ⟨us, rfl, hus⟩ := hc
  cases us with
  | nil => exact .inl ⟨s.toLexeme, ⟨[], endLine, errors⟩, rfl, fun f => expect_reads hs fault f.more _ _⟩
  | cons t us =>
      have ht : t.kind ≠ .semicolon := (hus.simple.unbraced t (List.mem_cons_self ..)).1
      have habsent : Confined s (UpTo (· = t :: us) s) (Parser.expect .semicolon fault) fun _ rest => rest = [] :=
        expect_absent (by rintro _ rfl; exact notNext_cons ht) (by rintro _ rfl; exact hus.simple) fault
      exact habsent ⟨_, endLine, errors⟩ ⟨_, rfl, rfl⟩

/-- A loop stays before the semicolon if each of its rounds does. -/
theorem loop {step : α → Parser (Option α)} (h : ∀ a, Stays s (step a)) :
    ∀ limit a, Stays s (Parser.loop step limit a)
  | 0, _ => .pure fun _ h => h
  | limit + 1, a => .bind (h a) fun o => by
      match o with
      | some b => exact loop h limit b
      | none => exact .pure fun _ h => h

end Confined

/-! ### Expressions -/

section expressions

variable {s : Token} {nested operand : Parser PlainExpr} {limit : Nat}

theorem leftJoined_stays {op? : Kind → Option β} {join : β → Lexeme → PlainExpr → PlainExpr → PlainExpr}
    (hop : op? s.kind = none) (h : Stays s operand) : Stays s (leftJoined op? join limit operand) :=
  .bind h fun first => .loop (fun left => .bind (.take? hop) fun o => by
    match o with
    | some (op, sign) => exact .bind h fun right => .pure fun _ h => h
    | none => exact .pure fun _ h => h) limit first

theorem commaSeparated_stays (hs : s.kind = .semicolon) {item : Parser α} (fault : ParseFault) (h : Stays s item) :
    Stays s (commaSeparated fault limit item) := by
  have hchecked (count : Nat) : Stays s
      (do
        if maxArity ≤ count then reportHere fault
        item) := by
    split
    · exact .bind (.reportHere fault) fun _ => h
    · exact h
  refine .bind (hchecked 0) fun first => .bind (.loop (fun items => ?_) limit [first]) fun items => .pure fun _ h => h
  refine .bind (.accept (hs ▸ nofun)) fun b => ?_
  match b with
  | true => exact .bind (hchecked items.length) fun item => .pure fun _ h => h
  | false => exact .pure fun _ h => h

theorem arguments_stays (hs : s.kind = .semicolon) (h : Stays s nested) : Stays s (arguments limit nested) := by
  have hend (es : List PlainExpr) : Stays s (do return (es, ← expect .rightParen .argumentsEnd)) :=
    .bind (.expect (hs ▸ nofun) _) fun _ => .pure fun _ h => h
  refine .bind (.nextIs .rightParen) fun b => ?_
  match b with
  | true => exact hend []
  | false => exact .bind (commaSeparated_stays hs .tooManyArguments h) hend

theorem primary_stays (hs : s.kind = .semicolon) (h : Stays s nested) : Stays s (primary nested) := by
  refine .bind (.take? (hs ▸ rfl)) fun o => ?_
  match o with
  | some (value, _) => exact .pure fun _ h => h
  | none =>
  refine .bind (.accept? (hs ▸ nofun)) fun o => ?_
  match o with
  | some keyword =>
      exact .bind (.expect (hs ▸ nofun) _) fun _ => .bind (.expect (hs ▸ nofun) _) fun _ => .pure fun _ h => h
  | none =>
  refine .bind (.accept? (hs ▸ nofun)) fun o => ?_
  match o with
  | some keyword => exact .pure fun _ h => h
  | none =>
  refine .bind (.accept? (hs ▸ nofun)) fun o => ?_
  match o with
  | some name => exact .pure fun _ h => h
  | none =>
  refine .bind (.accept (hs ▸ nofun)) fun b => ?_
  match b with
  | true => exact .bind h fun _ => .bind (.expect (hs ▸ nofun) _) fun _ => .pure fun _ h => h
  | false => exact .fail _ fun _ h => h.simple

theorem postfixed_stays (hs : s.kind = .semicolon) (h : Stays s nested) : Stays s (postfixed limit nested) := by
  refine .bind (primary_stays hs h) fun first => .loop (fun e => ?_) limit first
  refine .bind (.accept (hs ▸ nofun)) fun b => ?_
  match b with
  | true => exact .bind (arguments_stays hs h) fun _ => .pure fun _ h => h
  | false =>
  refine .bind (.accept (hs ▸ nofun)) fun b => ?_
  match b with
  | true => exact .bind (.expect (hs ▸ nofun) _) fun _ => .pure fun _ h => h
  | false => exact .pure fun _ h => h

theorem prefixed_stays (hs : s.kind = .semicolon) (h : Stays s nested) : Stays s (prefixed limit nested) :=
  .bind (.loop (fun _ => .bind (.take? (hs ▸ rfl)) fun _ => .pure fun _ h => h) limit []) fun _ =>
    .bind (postfixed_stays hs h) fun _ => .pure fun _ h => h

theorem operation_stays (hs : s.kind = .semicolon) (h : Stays s nested) : Stays s (operation limit nested) :=
  leftJoined_stays (hs ▸ rfl) <| leftJoined_stays (hs ▸ rfl) <| leftJoined_stays (hs ▸ rfl) <|
    leftJoined_stays (hs ▸ rfl) (prefixed_stays hs h)

theorem disjunction_stays (hs : s.kind = .semicolon) (h : Stays s nested) : Stays s (disjunction limit nested) :=
  leftJoined_stays (hs ▸ rfl) <| leftJoined_stays (hs ▸ rfl) (operation_stays hs h)

theorem assignment_stays (hs : s.kind = .semicolon) (h : Stays s nested) : Stays s (assignment limit nested) := by
  refine .bind (disjunction_stays hs h) fun target => .bind (.accept? (hs ▸ nofun)) fun o => ?_
  match o with
  | none => exact .pure fun _ h => h
  | some sign =>
      refine .bind h fun value => ?_
      have hother : Stays s (do report ⟨.assignmentTarget, .at sign⟩; return target) :=
        .bind (.report _) fun _ => .pure fun _ h => h
      cases target with
      | name ref => exact .pure fun _ h => h
      | get id object name => exact .pure fun _ h => h
      | _ => exact hother

theorem expression_stays (hs : s.kind = .semicolon) : ∀ depth, Stays s (expression depth)
  | 0 => .fail _ fun _ h => h.simple
  | depth + 1 => by
      rw [expression_succ]
      exact assignment_stays hs (expression_stays hs depth)

theorem expressionThen_completes (hs : s.kind = .semicolon) (fault : ParseFault) (h : Stays s nested) :
    Completes s (expressionThen fault nested) :=
  .bind h fun _ => .bind (.expect_semicolon hs fault) fun _ => .pure fun _ h => h

theorem unlessNext_stays (kind : Kind) (h : Stays s nested) : Stays s (unlessNext kind nested) :=
  .bind (.nextIs kind) fun b => by
    match b with
    | true => exact .pure fun _ h => h
    | false => exact .bind h fun _ => .pure fun _ h => h

end expressions

/-! ### Statements -/

section statements

variable {s : Token} {limit : Nat} {stmt : Parser PlainStmt} {decl : Parser (Option PlainStmt)}

/-- A rule that is not chosen, for its word is not next. -/
theorem Confined.declines? {T : List Token → Prop} {k : Kind} {f : Option Lexeme → Parser α} {Q : α → List Token → Prop}
    (h : ∀ us, T us → NotNext k (us ++ [s])) (hf : Confined s (UpTo T s) (f none) Q) :
    Confined s (UpTo T s) (Parser.accept? k >>= f) Q := by
  refine (accept?_declines h).bind fun o => ?_
  rintro c ⟨rfl, hc⟩
  exact hf c hc

/-- A rule that is chosen, for its word is next. -/
theorem Confined.takes? {k : Kind} {f : Option Lexeme → Parser α} {Q : α → List Token → Prop}
    (hf : ∀ t, Confined s (UpTo InnerTokens s) (f (some t)) Q) :
    Confined s (UpTo (LedBy k) s) (Parser.accept? k >>= f) Q := by
  refine (accept?_takes k).bind fun o => ?_
  rintro c ⟨ho, hc⟩
  obtain ⟨t, rfl⟩ := Option.isSome_iff_exists.mp ho
  exact hf t c hc

theorem accept_bind (k : Kind) (f : Bool → Parser α) : accept k >>= f = accept? k >>= fun o => f o.isSome := by
  unfold accept
  rw [bind_assoc]
  simp only [pure_bind]

theorem Confined.declines {T : List Token → Prop} {k : Kind} {f : Bool → Parser α} {Q : α → List Token → Prop}
    (h : ∀ us, T us → NotNext k (us ++ [s])) (hf : Confined s (UpTo T s) (f false) Q) :
    Confined s (UpTo T s) (Parser.accept k >>= f) Q := by
  rw [accept_bind]
  exact declines? h hf

theorem Confined.takes {k : Kind} {f : Bool → Parser α} {Q : α → List Token → Prop}
    (hf : Confined s (UpTo InnerTokens s) (f true) Q) :
    Confined s (UpTo (LedBy k) s) (Parser.accept k >>= f) Q := by
  rw [accept_bind]
  exact takes? fun _ => hf

/-- A rule that asks for a brace gives up. -/
theorem Confined.unbraced (hs : s.kind = .semicolon) {fault : ParseFault} {f : Lexeme → Parser α}
    {Q : α → List Token → Prop} : Confined s (UpTo InnerTokens s) (Parser.expect .leftBrace fault >>= f) Q :=
  .bind (Q := fun _ _ => False)
    (.expect_absent (fun _ h => h.notNext hs rfl nofun) (fun _ h => h.simple) fault) fun _ _ h => h.elim

theorem variableDeclaration_completes (hs : s.kind = .semicolon) {expr : Parser PlainExpr} (h : Stays s expr) :
    Completes s (variableDeclaration expr) := by
  refine .bind (.expect (hs ▸ nofun) _) fun name => .bind (.accept (hs ▸ nofun)) fun b => ?_
  have hend (e : Option PlainExpr) : Completes s (do
      let _ ← expect .semicolon .variableEnd
      return Stmt.var name e) :=
    .bind (.expect_semicolon hs _) fun _ => .pure fun _ h => h
  match b with
  | true => exact .bind (h.map (R := fun _ => UpTo InnerTokens s) fun _ _ h => h) hend
  | false => exact .bind (.pure (Q := fun _ => UpTo InnerTokens s) fun _ h => h) hend

theorem routine_completes (hs : s.kind = .semicolon) (sort : Routine) : Completes s (routine sort limit decl) := by
  refine .bind (.expect (hs ▸ nofun) _) fun name => .bind (.expect (hs ▸ nofun) _) fun _ =>
    .bind (.nextIs _) fun b => ?_
  have hrest (params : List Lexeme) : Completes s (do
      let _ ← expect .rightParen .parametersEnd
      let _ ← expect .leftBrace (.bodyStart sort)
      return FunDecl.mk name params (← block limit decl)) :=
    .bind (.expect (hs ▸ nofun) _) fun _ => .unbraced hs
  match b with
  | true => exact hrest []
  | false => exact .bind (commaSeparated_stays hs .tooManyParameters (.expect (hs ▸ nofun) _)) hrest

theorem classDeclaration_completes (hs : s.kind = .semicolon) : Completes s (classDeclaration limit decl) := by
  refine .bind (.expect (hs ▸ nofun) _) fun name => .bind (.accept (hs ▸ nofun)) fun b => ?_
  match b with
  | true => exact .bind (.expect (hs ▸ nofun) _) fun lexeme => .unbraced hs
  | false => exact .unbraced hs

theorem whileStatement_completes (hs : s.kind = .semicolon) {expr : Parser PlainExpr} (he : Stays s expr)
    (h : Completes s stmt) : Completes s (whileStatement expr stmt) :=
  .bind (.expect (hs ▸ nofun) _) fun _ => .bind he fun _ => .bind (.expect (hs ▸ nofun) _) fun _ =>
    .bind h fun _ => .pure fun _ h => h

/-- A rule that tries others first, none of which is chosen inside an expression. -/
theorem expressionStatement_completes (hs : s.kind = .semicolon) (depth : Nat) :
    Completes s (statementWith depth stmt decl) := by
  have hnot {k : Kind} (hk : k.inner = false) (hne : k ≠ .semicolon) (us : List Token) (h : InnerTokens us) :
      NotNext k (us ++ [s]) := h.notNext hs hk hne
  refine .declines (hnot rfl nofun) <| .declines (hnot rfl nofun) <| .declines (hnot rfl nofun) <|
    .declines? (hnot rfl nofun) <| .declines (hnot rfl nofun) <| .declines (hnot rfl nofun) ?_
  exact (expressionThen_completes hs _ (expression_stays hs depth)).map fun _ _ h => h

theorem statement_completes (hs : s.kind = .semicolon) : ∀ depth, Completes s (statement depth)
  | 0 => .fail _ fun _ h => h.simple
  | depth + 1 => by
      rw [statement_succ]
      exact expressionStatement_completes hs depth

/-- Tokens that a word leads, up to the semicolon. -/
theorem ledStatement_completes (hs : s.kind = .semicolon) {k : Kind}
    (hk : k = .keyword .print ∨ k = .keyword .return_ ∨ k = .keyword .while_) (depth : Nat) :
    Confined s (UpTo (LedBy k) s) (statement depth) fun _ rest => rest = [] := by
  cases depth with
  | zero => exact .fail _ fun _ h => h.simple (by rcases hk with rfl | rfl | rfl <;> rfl)
  | succ depth =>
      have hnot {k' : Kind} (hne : k ≠ k') (us : List Token) (h : LedBy k us) : NotNext k' (us ++ [s]) :=
        h.notNext hne s
      have hexpr : Stays s (expression depth) := expression_stays hs depth
      rw [statement_succ]
      rcases hk with rfl | rfl | rfl
      · refine .declines (hnot (by decide)) <| .declines (hnot (by decide)) <| .takes ?_
        exact (expressionThen_completes hs _ hexpr).map fun _ _ h => h
      · refine .declines (hnot (by decide)) <| .declines (hnot (by decide)) <| .declines (hnot (by decide)) <|
          .takes? fun keyword => ?_
        exact .bind (unlessNext_stays _ hexpr) fun _ => .bind (.expect_semicolon hs _) fun _ => .pure fun _ h => h
      · refine .declines (hnot (by decide)) <| .declines (hnot (by decide)) <| .declines (hnot (by decide)) <|
          .declines? (hnot (by decide)) <| .takes ?_
        exact whileStatement_completes hs hexpr (statement_completes hs depth)

/-- The rule for a declaration comes to its result right after the semicolon, or gives up before it. -/
theorem declarationWith_completes (hs : s.kind = .semicolon) (depth : Nat) :
    Confined s (UpTo SimpleTokens s) (declarationWith depth (statement depth) decl) fun _ rest => rest = [] := by
  rintro c ⟨us, hc, hus⟩
  rcases hus.inner_or_led with hinner | ⟨k, hk, hled⟩
  · have hnot {k : Kind} (hk : k.inner = false) (hne : k ≠ .semicolon) (us : List Token) (h : InnerTokens us) :
        NotNext k (us ++ [s]) := h.notNext hs hk hne
    have hcompletes : Completes s (declarationWith depth (statement depth) decl) :=
      .declines (hnot rfl (by decide)) <| .declines (hnot rfl (by decide)) <| .declines (hnot rfl (by decide)) <|
        statement_completes hs depth
    exact hcompletes c ⟨us, hc, hinner⟩
  · have hnot {k' : Kind} (hne : k ≠ k') (us : List Token) (h : LedBy k us) : NotNext k' (us ++ [s]) :=
      h.notNext hne s
    have hcompletes : Confined s (UpTo (LedBy k) s) (declarationWith depth (statement depth) decl)
        fun _ rest => rest = [] := by
      rcases Kind.leads_cases hk with rfl | rfl | rfl | hk
      · exact .takes (classDeclaration_completes hs)
      · exact .declines (hnot (by decide)) <| .takes <| (routine_completes hs _).map fun _ _ h => h
      · exact .declines (hnot (by decide)) <| .declines (hnot (by decide)) <| .takes <|
          variableDeclaration_completes hs (expression_stays hs depth)
      · refine .declines (hnot ?_) <| .declines (hnot ?_) <| .declines (hnot ?_) <| ledStatement_completes hs hk depth
        all_goals rcases hk with rfl | rfl | rfl <;> decide
    exact hcompletes c ⟨us, hc, hled⟩

end statements

/-! ### Recovery -/

section recovery

variable {s : Token} {c : List Token}

/-- From inside a simple declaration, the parser skips all up to the semicolon, and the semicolon. -/
theorem skipAfter_semicolon (hs : s.kind = .semicolon) {t : Token} (ht : t.kind ≠ .semicolon) {us : List Token}
    (hus : InnerTokens us) (more : List Token) : skipAfter t (us ++ s :: more) = more := by
  have hstop : skipAfter s more = more := by
    cases more with
    | nil => rfl
    | cons u more => exact if_pos (by rw [hs]; rfl)
  induction us generalizing t with
  | nil =>
      have hstarts : startsStatement s.kind = false := by rw [hs]; rfl
      rw [List.nil_append, skipAfter, if_neg (by simp [ht, hstarts]), hstop]
  | cons u us ih =>
      have hstarts : startsStatement u.kind = false := hus.starts u (List.mem_cons_self ..)
      rw [List.cons_append, skipAfter, if_neg (by simp [ht, hstarts])]
      exact ih (hus.simple.unbraced u (List.mem_cons_self ..)).1 fun v hv => hus v (List.mem_cons_of_mem u hv)

theorem synchronize_semicolon (hs : s.kind = .semicolon) {ts : List Token} (h : UpTo SimpleTokens s ts)
    (more : List Token) (endLine : Nat) (errors : List ParseError) :
    synchronize ⟨ts ++ more, endLine, errors⟩ = ⟨more, endLine, errors⟩ := by
  obtain ⟨us, rfl, hus⟩ := h
  rw [List.append_assoc, List.singleton_append]
  cases us with
  | nil =>
      cases more with
      | nil => rfl
      | cons t more => exact congrArg (Cursor.mk · _ _) (if_pos (by rw [hs]; rfl))
  | cons t us =>
      exact congrArg (Cursor.mk · _ _)
        (skipAfter_semicolon hs (hus.unbraced t (List.mem_cons_self ..)).1 hus.tail more)

/-- After a simple declaration, faulty or not, the parser stands right after its semicolon.  What comes of it does not
depend on what follows, nor on the faults before. -/
theorem declaration_resumes (hs : s.kind = .semicolon) (hc : SimpleTokens c) (depth : Nat) :
    ∃ o errors, ∀ f : Framing, declaration (depth + 1) ⟨c ++ s :: f.more, f.last, f.earlier⟩ =
      .ok o ⟨f.more, f.last, f.earlier ++ errors⟩ := by
  have hstart (f : Framing) : (⟨c ++ s :: f.more, f.last, f.earlier⟩ : Cursor) = Cursor.within ⟨c ++ [s], 0, []⟩ f := by
    unfold Cursor.within
    dsimp only
    rw [List.append_assoc, List.singleton_append, List.append_nil]
  have hcompletes : Confined s (UpTo SimpleTokens s) (declarationWith depth (statement depth) (declaration depth))
      fun _ rest => rest = [] := declarationWith_completes hs depth
  rw [declaration_succ]
  rcases hcompletes ⟨c ++ [s], 0, []⟩ ⟨c, rfl, hc⟩ with ⟨a, c', hrest, hrun⟩ | ⟨e, c', hrest, hrun⟩
  · refine ⟨some a, c'.errors, fun f => ?_⟩
    unfold recovering
    rw [hstart, hrun]
    dsimp only
    unfold Cursor.within
    rw [hrest, List.nil_append]
  · refine ⟨none, c'.errors ++ [e], fun f => ?_⟩
    unfold recovering
    rw [hstart, hrun]
    refine congrArg (EStateM.Result.ok none) ?_
    rw [← List.append_assoc]
    exact synchronize_semicolon hs hrest f.more f.last _

end recovery

/-! ### What comes after -/

section after

/-- One round of reading declarations up to the end. -/
def round (decl : Parser (Option PlainStmt)) (body : List PlainStmt) : Parser (Option (List PlainStmt)) := do
  if ← atEnd then return none
  else return some ((← decl).toList ++ body)

theorem declarations_eq (depth : Nat) :
    declarations depth = List.reverse <$> loop (round (declaration depth)) depth [] := rfl

variable {decl : Parser (Option PlainStmt)} {c c' : Cursor} {limit : Nat}

theorem loop_round_succ {o : Option PlainStmt} (hne : c.rest ≠ []) (h : decl c = .ok o c') (body : List PlainStmt) :
    loop (round decl) (limit + 1) body c = loop (round decl) limit (o.toList ++ body) c' := by
  have hround : round decl body c = .ok (some (o.toList ++ body)) c' := by
    change (if c.rest.isEmpty = true then _ else decl >>= _ : Parser _) c = _
    rw [if_neg (by simpa using hne)]
    change EStateM.bind decl _ c = _
    rw [EStateM.bind, h]
    rfl
  change EStateM.bind (round decl body) _ c = _
  rw [EStateM.bind, hround]

/-- Statements that were read before stay where they are. -/
theorem loop_round_append (body : List PlainStmt) :
    loop (round decl) limit body = (· ++ body) <$> loop (round decl) limit [] := by
  induction limit generalizing body with
  | zero => simp [loop]
  | succ limit ih =>
      have hround (body : List PlainStmt) : loop (round decl) (limit + 1) body = (do
          if ← atEnd then return body
          else loop (round decl) limit ((← decl).toList ++ body)) := by
        change atEnd >>= _ >>= _ = _
        rw [bind_assoc]
        refine bind_congr fun b => ?_
        cases b <;> simp
      rw [hround, hround, map_bind]
      refine bind_congr fun b => ?_
      cases b with
      | true => simp
      | false =>
          simp only [Bool.false_eq_true, if_false, map_bind]
          refine bind_congr fun o => ?_
          rw [ih, ih (o.toList ++ []), Functor.map_map]
          simp

/-- However deep the parser may nest and however many rounds it may make, it reads the same declarations, once both
are as many as the number of tokens asks for. -/
theorem rounds_depth {depth depth' limit' : Nat} (hc : ∀ t ∈ c.rest, t.kind ≠ .eof)
    (hd : 2 * c.rest.length + 2 ≤ depth) (hl : c.rest.length ≤ limit) (hd' : 2 * c.rest.length + 2 ≤ depth')
    (hl' : c.rest.length ≤ limit') :
    loop (round (declaration depth')) limit' [] c = loop (round (declaration depth)) limit [] c :=
  (Reader.rounds_follow (Nat.lt_succ_self _) hd hl).unique (Reader.rounds_follow (Nat.lt_succ_self _) hd' hl') hc rfl

/-- The declarations that are read do not depend on faults found before. -/
theorem rounds_after {depth : Nat} (hc : ∀ t ∈ c.rest, t.kind ≠ .eof) (hd : 2 * c.rest.length + 2 ≤ depth)
    (hl : c.rest.length ≤ limit) (earlier : List ParseError) :
    loop (round (declaration depth)) limit [] (c.after earlier) =
      resultAfter earlier (loop (round (declaration depth)) limit [] c) :=
  (Reader.rounds_follow (Nat.lt_succ_self _) hd hl).after hc rfl earlier

theorem map_run {α β : Type} (g : α → β) (p : Parser α) (c : Cursor) : (g <$> p) c = match p c with
    | .ok a c' => .ok (g a) c'
    | .error e c' => .error e c' := by
  change EStateM.map g p c = _
  unfold EStateM.map
  cases p c <;> rfl

/-- The declarations after a first one, faulty or not, are read as if nothing came before. -/
theorem declarations_cons {depth depth' : Nat} {o : Option PlainStmt} {errors : List ParseError} {rest : List Token}
    (hne : c.rest ≠ []) (h : declaration depth c = .ok o ⟨rest, c.endLine, errors⟩)
    (hrest : ∀ t ∈ rest, t.kind ≠ .eof) (hd : 2 * rest.length + 2 < depth) (hd' : 2 * rest.length + 2 ≤ depth') :
    declarations depth c =
      resultAfter errors (((o.toList ++ ·) <$> declarations depth') ⟨rest, c.endLine, []⟩) := by
  obtain ⟨limit, rfl⟩ : ∃ l, depth = l + 1 := ⟨depth - 1, by omega⟩
  have hsame : loop (round (declaration (limit + 1))) limit [] ⟨rest, c.endLine, []⟩ =
      loop (round (declaration depth')) depth' [] ⟨rest, c.endLine, []⟩ :=
    rounds_depth hrest hd' (show rest.length ≤ depth' by omega) (show 2 * rest.length + 2 ≤ limit + 1 by omega)
      (show rest.length ≤ limit by omega)
  have hafter : loop (round (declaration (limit + 1))) limit [] ⟨rest, c.endLine, errors⟩ =
      resultAfter errors (loop (round (declaration depth')) depth' [] ⟨rest, c.endLine, []⟩) := by
    have hrun := rounds_after (c := ⟨rest, c.endLine, []⟩) hrest (show 2 * rest.length + 2 ≤ limit + 1 by omega)
      (show rest.length ≤ limit by omega) errors
    rw [Cursor.after, List.append_nil] at hrun
    rw [hrun, hsame]
  rw [declarations_eq, declarations_eq, map_run, map_run, map_run, loop_round_succ hne h, loop_round_append, map_run,
    hafter]
  cases loop (round (declaration depth')) depth' [] ⟨rest, c.endLine, []⟩ with
  | ok body c' => cases o <;> simp [resultAfter]
  | error e c' => rfl

end after

end Parser

/-! ### Programs -/

section programs

variable {s : Token} {c r : List Token}

theorem SimpleTokens.noEnd (hs : s.kind = .semicolon) (hc : SimpleTokens c) : ∀ t ∈ c ++ [s], t.kind ≠ .eof := by
  intro t ht
  rcases List.mem_append.mp ht with ht | ht
  · exact (hc.unbraced t ht).2.2.2
  · obtain rfl := List.mem_singleton.mp ht
    rw [hs]
    exact nofun

/-- The first declaration of a text that starts with a simple one does not depend on how deep the parser may nest. -/
theorem Parser.declaration_settles (hs : s.kind = .semicolon) (hc : SimpleTokens c) :
    ∃ o errors, ∀ depth, 2 * (c.length + 1) + 2 ≤ depth → ∀ f : Framing,
      Parser.declaration depth ⟨c ++ s :: f.more, f.last, f.earlier⟩ = .ok o ⟨f.more, f.last, f.earlier ++ errors⟩ := by
  obtain ⟨o, errors, hrun⟩ := Parser.declaration_resumes hs hc (2 * (c.length + 1) + 1)
  refine ⟨o, errors, fun depth hd f => ?_⟩
  obtain ⟨depth, rfl⟩ : ∃ d, depth = d + 1 := ⟨depth - 1, by omega⟩
  obtain ⟨o', errors', hrun'⟩ := Parser.declaration_resumes hs hc depth
  have hlength : (c ++ [s]).length = c.length + 1 := List.length_append
  have hsame : Parser.declaration (depth + 1) ⟨c ++ [s], 0, []⟩ =
      Parser.declaration (2 * (c.length + 1) + 1 + 1) ⟨c ++ [s], 0, []⟩ :=
    Parser.declaration_depth (by simp) (hc.noEnd hs) (by simp only [hlength]; omega) (by simp only [hlength]; omega)
  rw [hrun ⟨[], [], 0⟩, hrun' ⟨[], [], 0⟩] at hsame
  cases hsame
  exact hrun' f

/-- What comes of two texts, one after the other: the faults of both, or else the statements of both. -/
def inOrder {ε α : Type} : Except (List ε) (List α) → Except (List ε) (List α) → Except (List ε) (List α)
  | .ok as, .ok bs => .ok (as ++ bs)
  | .ok _, .error es => .error es
  | .error es, .ok _ => .error es
  | .error es, .error es' => .error (es ++ es')

/-- What comes of the first declaration alone. -/
def firstOutcome (o : Option PlainStmt) (errors : List ParseError) : Except (List ParseError) (List PlainStmt) :=
  if errors.isEmpty then .ok o.toList else .error errors

theorem parseProgram_nil : parseProgram [] = .ok [] := rfl

theorem inOrder_nil {ε α : Type} (first : Except (List ε) (List α)) : inOrder first (.ok []) = first := by
  cases first with
  | ok as => exact congrArg Except.ok (List.append_nil as)
  | error es => rfl

/-- The end of a text is the end of what comes last in it. -/
theorem endLine_append {ts : List Token} (h : ∀ t ∈ ts, t.kind ≠ .eof) (hr : r ≠ []) :
    (Cursor.ofTokens (ts ++ r)).endLine = (Cursor.ofTokens r).endLine := by
  unfold Cursor.ofTokens
  dsimp only
  rw [List.dropWhile_append_of_pos fun t ht => by simpa using h t ht, List.getLast?_append,
    List.getLast?_eq_some_getLast hr, Option.some_or]

theorem textOf_noEnd_append {ts : List Token} (h : ∀ t ∈ ts, t.kind ≠ .eof) (r : List Token) :
    textOf (ts ++ r) = ts ++ textOf r := by
  unfold textOf
  rw [List.takeWhile_append_of_pos fun t ht => by simpa using h t ht]

/-- What comes of the end of a parser: a result, or all the faults. -/
def parseOutcome {α : Type} : EStateM.Result ParseError Cursor α → Except (List ParseError) α
  | .ok a c => if c.errors.isEmpty then .ok a else .error c.errors
  | .error e c => .error (c.errors ++ [e])

theorem parseProgram_eq (tokens : List Token) :
    parseProgram tokens = parseOutcome
      (Parser.declarations (Parser.depthFor tokens) ⟨textOf tokens, (Cursor.ofTokens tokens).endLine, []⟩) := by
  have hstart : (⟨textOf tokens, (Cursor.ofTokens tokens).endLine, []⟩ : Cursor) = Cursor.ofTokens tokens := rfl
  rw [hstart]
  unfold parseProgram runParser parseOutcome
  cases Parser.declarations (Parser.depthFor tokens) (Cursor.ofTokens tokens) <;> rfl

/-- Where the end stands after tokens before makes no difference, for where there is no token it is not asked for. -/
theorem parseProgram_endLine {ts : List Token} (hs : ∀ t ∈ ts, t.kind ≠ .eof) (r : List Token) :
    parseOutcome (Parser.declarations (Parser.depthFor r) ⟨textOf r, (Cursor.ofTokens (ts ++ r)).endLine, []⟩) =
      parseProgram r := by
  by_cases hr : r = []
  · subst hr
    rfl
  · rw [endLine_append hs hr, parseProgram_eq]

/-- Faults found before, and a statement read before. -/
theorem parseOutcome_after (o : Option PlainStmt) (errors : List ParseError) (p : Parser (List PlainStmt))
    (c : Cursor) :
    parseOutcome (Parser.resultAfter errors (((o.toList ++ ·) <$> p) c)) =
      inOrder (firstOutcome o errors) (parseOutcome (p c)) := by
  rw [Parser.map_run]
  unfold firstOutcome
  cases p c with
  | ok body c' =>
      cases errors <;> cases hc : c'.errors <;> simp [Parser.resultAfter, Cursor.after, parseOutcome, inOrder, hc]
  | error e c' => cases errors <;> simp [Parser.resultAfter, Cursor.after, parseOutcome, inOrder]

/-- What comes of a text is what comes of its first declaration and of the rest. -/
theorem parseProgram_cons (hs : s.kind = .semicolon) (hc : SimpleTokens c) :
    ∃ first, ∀ r, parseProgram (c ++ s :: r) = inOrder first (parseProgram r) := by
  obtain ⟨o, errors, hfirst⟩ := Parser.declaration_settles hs hc
  refine ⟨firstOutcome o errors, fun r => ?_⟩
  have hsplit : c ++ s :: r = (c ++ [s]) ++ r := (List.append_assoc c [s] r).symm
  have htext : textOf (c ++ s :: r) = c ++ s :: textOf r := by
    rw [hsplit, textOf_noEnd_append (hc.noEnd hs), List.append_assoc, List.singleton_append]
  have hlength := textOf_length r
  have hdepth : 2 * (textOf r).length + 2 < Parser.depthFor (c ++ s :: r) := by
    simp only [Parser.depthFor, List.length_append, List.length_cons]
    omega
  have hdepth' : 2 * (textOf r).length + 2 ≤ Parser.depthFor r := by
    unfold Parser.depthFor
    omega
  have hdecl (last : Nat) : Parser.declaration (Parser.depthFor (c ++ s :: r)) ⟨c ++ s :: textOf r, last, []⟩ =
      .ok o ⟨textOf r, last, errors⟩ :=
    hfirst _ (by simp only [Parser.depthFor, List.length_append, List.length_cons]; omega) ⟨[], textOf r, last⟩
  rw [parseProgram_eq, htext, Parser.declarations_cons (by simp) (hdecl _) (textOf_noEnd r) hdepth hdepth',
    parseOutcome_after, hsplit, parseProgram_endLine (hc.noEnd hs)]

/-- A simple declaration is isolated by its semicolon.  Whatever is wrong in it, a text that starts with it has its
faults and then those of the rest; and without faults, it has its statements and then those of the rest.  The parser
goes on right after the semicolon. -/
theorem parseProgram_semicolon (hs : s.kind = .semicolon) (hc : SimpleTokens c) (r : List Token) :
    parseProgram (c ++ s :: r) = inOrder (parseProgram (c ++ [s])) (parseProgram r) ∧
      ∀ depth last earlier, ∃ o errors, Parser.declaration (depth + 1) ⟨c ++ s :: r, last, earlier⟩ =
        .ok o ⟨r, last, earlier ++ errors⟩ := by
  constructor
  · obtain ⟨first, hfirst⟩ := parseProgram_cons hs hc
    rw [hfirst r, hfirst [], parseProgram_nil, inOrder_nil]
  · intro depth last earlier
    obtain ⟨o, errors, hrun⟩ := Parser.declaration_resumes hs hc depth
    exact ⟨o, errors, hrun ⟨earlier, r, last⟩⟩

/-- In `var = ; print ;` there is a fault before each semicolon. -/
theorem parseProgram_semicolon_twice :
    SimpleTokens [⟨⟨"var", 1⟩, .keyword .var⟩, ⟨⟨"=", 1⟩, .equal⟩] ∧
      parseProgram [⟨⟨"var", 1⟩, .keyword .var⟩, ⟨⟨"=", 1⟩, .equal⟩, ⟨⟨";", 1⟩, .semicolon⟩,
        ⟨⟨"print", 2⟩, .keyword .print⟩, ⟨⟨";", 2⟩, .semicolon⟩] =
      .error [⟨.variableName, .at ⟨"=", 1⟩⟩, ⟨.expression, .at ⟨";", 2⟩⟩] := by
  have hsimple : SimpleTokens [⟨⟨"var", 1⟩, .keyword .var⟩, ⟨⟨"=", 1⟩, .equal⟩] := by
    refine ⟨by decide, by decide, ?_⟩
    rintro _ ⟨⟩
    decide
  have hparts := parseProgram_semicolon (s := ⟨⟨";", 1⟩, .semicolon⟩) rfl hsimple
    [⟨⟨"print", 2⟩, .keyword .print⟩, ⟨⟨";", 2⟩, .semicolon⟩]
  exact ⟨hsimple, hparts.1⟩

end programs

end Lox
