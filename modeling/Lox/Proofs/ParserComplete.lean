import Lox.Proofs.ParserSound

/-! # The parser reads every text

A text of a tree, followed by a token that cannot continue it, is read as this tree, and no fault is
reported (`parseProgram_complete`).  `Reads p ts a rest` says so of a parser: where `ts` comes next and
then `rest`, it takes `ts` and yields `a`.  Chains of operators are read by loops; `Loops` describes what a
loop makes of an operand and the operators after it. -/

namespace Lox

namespace Parser

variable {α β : Type}

/-- Where the tokens `ts` come next and then `rest`, the parser takes `ts`, yields `a` and reports
nothing. -/
def Reads (p : Parser α) (ts : List Token) (a : α) (rest : List Token) : Prop :=
  ∀ endLine errors, p ⟨ts ++ rest, endLine, errors⟩ = .ok a ⟨rest, endLine, errors⟩

section reads

variable {ts us rest : List Token} {a : α} {b : β}

theorem Reads.pure (a : α) (rest : List Token) : Reads (pure a) [] a rest := fun _ _ => rfl

theorem Reads.bind {p : Parser α} {f : α → Parser β} (h : Reads p ts a (us ++ rest))
    (hf : Reads (f a) us b rest) : Reads (p >>= f) (ts ++ us) b rest := by
  intro endLine errors
  change EStateM.bind p f ⟨ts ++ us ++ rest, endLine, errors⟩ = _
  rw [EStateM.bind, List.append_assoc, h endLine errors]
  exact hf endLine errors

/-- A step that takes nothing. -/
theorem Reads.look {p : Parser α} {f : α → Parser β} (h : Reads p [] a (us ++ rest))
    (hf : Reads (f a) us b rest) : Reads (p >>= f) us b rest := h.bind hf

/-- A step that takes one token. -/
theorem Reads.next {t : Token} {p : Parser α} {f : α → Parser β} (h : Reads p [t] a (us ++ rest))
    (hf : Reads (f a) us b rest) : Reads (p >>= f) (t :: us) b rest := h.bind hf

theorem Reads.map {p : Parser α} {f : α → β} (h : Reads p ts a rest) :
    Reads (f <$> p) ts (f a) rest := by
  intro endLine errors
  change EStateM.map f p ⟨ts ++ rest, endLine, errors⟩ = _
  rw [EStateM.map, h endLine errors]

/-- The first step takes all. -/
theorem Reads.all {p : Parser α} {f : α → Parser β} (h : Reads p ts a rest)
    (hf : Reads (f a) [] b rest) : Reads (p >>= f) ts b rest := by
  have hb : Reads (p >>= f) (ts ++ []) b rest := .bind h hf
  rwa [List.append_nil] at hb

theorem Reads.bind_pure {p : Parser α} {f : α → β} (h : Reads p ts a rest) :
    Reads (p >>= fun a => Pure.pure (f a)) ts (f a) rest := h.all (.pure (f a) rest)

end reads

/-! ### Single tokens -/

section tokens

variable {kind : Kind} {t : Token} {rest : List Token}

theorem accept?_reads (hk : t.kind = kind) (rest : List Token) :
    Reads (accept? kind) [t] (some t.toLexeme) rest := by
  intro endLine errors
  simp only [accept?, List.singleton_append, if_pos hk]

theorem accept?_declines (h : NotNext kind rest) : Reads (accept? kind) [] none rest := by
  intro endLine errors
  cases rest with
  | nil => rfl
  | cons t rest =>
      have hk := h t rfl
      simp only [accept?, List.nil_append, if_neg hk]

theorem accept_reads (hk : t.kind = kind) (rest : List Token) : Reads (accept kind) [t] true rest :=
  (accept?_reads hk rest).bind_pure

theorem accept_declines (h : NotNext kind rest) : Reads (accept kind) [] false rest :=
  (accept?_declines h).bind_pure

theorem expect_reads (hk : t.kind = kind) (fault : ParseFault) (rest : List Token) :
    Reads (expect kind fault) [t] t.toLexeme rest :=
  .next (accept?_reads hk rest) (.pure _ _)

theorem take?_reads {want : Kind → Option β} {b : β} (hw : want t.kind = some b) (rest : List Token) :
    Reads (take? want) [t] (some (b, t.toLexeme)) rest := by
  intro endLine errors
  simp only [take?, List.singleton_append, hw]

theorem take?_declines {want : Kind → Option β} (h : ∀ t, rest.head? = some t → want t.kind = none) :
    Reads (take? want) [] none rest := by
  intro endLine errors
  cases rest with
  | nil => rfl
  | cons t rest =>
      have hw := h t rfl
      simp only [take?, List.nil_append, hw]

theorem nextIs_reads (hk : t.kind = kind) (rest : List Token) :
    Reads (nextIs kind) [] true (t :: rest) := by
  intro endLine errors
  change EStateM.Result.ok (decide (t.kind = kind)) _ = _
  rw [decide_eq_true hk]
  rfl

theorem nextIs_declines (h : NotNext kind rest) : Reads (nextIs kind) [] false rest := by
  intro endLine errors
  cases rest with
  | nil => rfl
  | cons t rest =>
      change EStateM.Result.ok (decide (t.kind = kind)) _ = _
      rw [decide_eq_false (h t rfl)]
      rfl

theorem atEnd_reads : Reads atEnd [] true [] := fun _ _ => rfl

theorem atEnd_declines (h : rest ≠ []) : Reads atEnd [] false rest := by
  intro endLine errors
  cases rest with
  | nil => exact absurd rfl h
  | cons t rest => rfl

theorem notNext_cons (hk : t.kind ≠ kind) : NotNext kind (t :: rest) := by
  rintro _ ⟨⟩
  exact hk

theorem notNext_of_kind {k : Kind} (hk : t.kind = k) (hne : k ≠ kind) : NotNext kind (t :: rest) :=
  notNext_cons (hk ▸ hne)

end tokens

/-! ### Loops -/

/-- With enough rounds, a loop that has come to `a` takes `ts` and ends with `b`. -/
def Loops (step : α → Parser (Option α)) (a : α) (ts : List Token) (b : α) (rest : List Token) : Prop :=
  ∀ limit, ts.length ≤ limit → Reads (loop step limit a) ts b rest

section loops

variable {step : α → Parser (Option α)} {ts us rest : List Token} {a b c : α}

theorem Loops.done (h : Reads (step a) [] none rest) : Loops step a [] a rest := by
  intro limit _
  cases limit with
  | zero => exact .pure a rest
  | succ limit => exact .look h (.pure a rest)

theorem Loops.more (h : Reads (step a) ts (some b) (us ++ rest)) (ht : ts ≠ [])
    (hl : Loops step b us c rest) : Loops step a (ts ++ us) c rest := by
  intro limit hlimit
  have := List.length_pos_iff.mpr ht
  rw [List.length_append] at hlimit
  cases limit with
  | zero => omega
  | succ limit => exact .bind h (hl limit (by omega))

end loops

/-! ### What may follow an expression -/

/-- Tokens that an expression can start with. -/
def opensExpr (k : Kind) : Bool :=
  (literalValue k).isSome || k = .identifier || k = .keyword .this || k = .keyword .super ||
    k = .leftParen || (prefixOp k).isSome

/-- The grade at which a token goes on with an expression. -/
def joint? : Kind → Option Grade
  | .equal => some .assignment
  | .keyword .or => some .disjunction
  | .keyword .and => some .conjunction
  | .bangEqual | .equalEqual => some .equality
  | .greater | .greaterEqual | .less | .lessEqual => some .comparison
  | .minus | .plus => some .sum
  | .slash | .star => some .product
  | .leftParen | .dot => some .call
  | _ => none

/-- A grade and those that bind tighter. -/
def fromGrade (grade : Grade) : List Grade :=
  [Grade.assignment, .disjunction, .conjunction, .equality, .comparison, .sum, .product, .unary, .call,
    .primary].dropWhile (· ≠ grade)

/-- The next token does not go on with an expression of a grade. -/
def Stops (grade : Grade) (rest : List Token) : Prop :=
  ∀ t, rest.head? = some t → ∀ g ∈ fromGrade grade, joint? t.kind ≠ some g

theorem fromGrade_tighter (grade : Grade) : ∀ g ∈ fromGrade grade.tighter, g ∈ fromGrade grade := by
  cases grade <;> decide

theorem mem_fromGrade (grade : Grade) : grade ∈ fromGrade grade := by
  cases grade <;> decide

theorem stops_nil (grade : Grade) : Stops grade [] := nofun

/-- A token that goes on with no expression. -/
theorem stops_of_none {grade : Grade} {t : Token} {rest : List Token} (h : joint? t.kind = none) :
    Stops grade (t :: rest) := by
  rintro _ ⟨⟩ g _
  rw [h]
  exact nofun

/-- A token that goes on with expressions of a looser grade only. -/
theorem stops_of_joint {grade g : Grade} {t : Token} {rest : List Token} (h : joint? t.kind = some g)
    (hg : g ∉ fromGrade grade) : Stops grade (t :: rest) := by
  rintro _ ⟨⟩ g' hg' he
  rw [h] at he
  cases he
  exact hg hg'

theorem Stops.tighter {grade : Grade} {rest : List Token} (h : Stops grade rest) :
    Stops grade.tighter rest := fun t ht g hg => h t ht g (fromGrade_tighter grade g hg)

theorem joint?_of_binary? {grade : Grade} {k : Kind} {op : BinaryOp} (h : grade.binary? k = some op) :
    joint? k = some grade := by
  cases grade with
  | equality =>
      change equality k = some op at h
      unfold equality at h
      split at h <;> first | rfl | exact nomatch h
  | comparison =>
      change comparison k = some op at h
      unfold comparison at h
      split at h <;> first | rfl | exact nomatch h
  | sum =>
      change sum k = some op at h
      unfold sum at h
      split at h <;> first | rfl | exact nomatch h
  | product =>
      change product k = some op at h
      unfold product at h
      split at h <;> first | rfl | exact nomatch h
  | _ => exact nomatch h

theorem joint?_of_logical? {grade : Grade} {k : Kind} {op : LogicalOp}
    (h : grade.logical? k = some op) : joint? k = some grade := by
  cases grade with
  | disjunction =>
      change disjunctionOp k = some op at h
      unfold disjunctionOp at h
      split at h <;> first | rfl | exact nomatch h
  | conjunction =>
      change conjunctionOp k = some op at h
      unfold conjunctionOp at h
      split at h <;> first | rfl | exact nomatch h
  | _ => exact nomatch h

/-! ### Grades that group to the left -/

/-- The parser for a grade, nested `depth` deep. -/
def atGrade (depth : Nat) : Grade → Parser PlainExpr
  | .assignment => assignment depth (expression depth)
  | .disjunction => disjunction depth (expression depth)
  | .conjunction => leftJoined conjunctionOp (.logical ()) depth (operation depth (expression depth))
  | .equality => operation depth (expression depth)
  | .comparison => leftJoined comparison (.binary ()) depth <| leftJoined sum (.binary ()) depth <|
      leftJoined product (.binary ()) depth <| prefixed depth (expression depth)
  | .sum => leftJoined sum (.binary ()) depth <| leftJoined product (.binary ()) depth <|
      prefixed depth (expression depth)
  | .product => leftJoined product (.binary ()) depth <| prefixed depth (expression depth)
  | .unary => prefixed depth (expression depth)
  | .call => postfixed depth (expression depth)
  | .primary => primary (expression depth)

/-- The round of a chain of operators: an operator and the operand after it. -/
def joinStep (op? : Kind → Option β) (join : β → Lexeme → PlainExpr → PlainExpr → PlainExpr)
    (operand : Parser PlainExpr) (left : PlainExpr) : Parser (Option PlainExpr) := do
  match ← take? op? with
  | some (op, sign) => return some (join op sign left (← operand))
  | none => return none

section leftJoined

variable {op? : Kind → Option β} {join : β → Lexeme → PlainExpr → PlainExpr → PlainExpr}
  {operand : Parser PlainExpr} {ts us rest : List Token} {a b : PlainExpr} {t : Token} {op : β}

theorem joinStep_reads (ht : op? t.kind = some op) (h : Reads operand us b rest) :
    Reads (joinStep op? join operand a) (t :: us) (some (join op t.toLexeme a b)) rest :=
  .next (take?_reads ht _) h.bind_pure

theorem joinStep_declines (h : ∀ t, rest.head? = some t → op? t.kind = none) :
    Reads (joinStep op? join operand a) [] none rest := .look (take?_declines h) (.pure _ _)

end leftJoined

/-! ### Lists with commas -/

section separated

variable {Item : List Token → α → Prop} {item : Parser α} {ts rest : List Token} {a : α}

theorem checked_reads (tooMany : ParseFault) {count : Nat} (hc : count < maxArity)
    (h : Reads item ts a rest) :
    Reads (do
      if maxArity ≤ count then reportHere tooMany
      item) ts a rest := by
  rw [if_neg (Nat.not_le.mpr hc)]
  exact h

/-- Items with commas between them are read when each of them is, before a comma and at the end. -/
theorem commaSeparated_reads (tooMany : ParseFault) {F : List Token → Prop}
    (hi : ∀ {ts a rest}, Item ts a → F rest → Reads item ts a rest)
    (hF : ∀ t us, t.kind = .comma → F (t :: us)) {limit : Nat} {as : List α}
    (h : Separated Item ts as) (hn : as.length ≤ maxArity) (hl : ts.length ≤ limit) (hr : F rest)
    (hend : NotNext .comma rest) : Reads (commaSeparated tooMany limit item) ts as rest := by
  let checked (count : Nat) : Parser α := do
    if maxArity ≤ count then reportHere tooMany
    item
  let step : List α → Parser (Option (List α)) := fun items => do
    if ← accept .comma then return some ((← checked items.length) :: items)
    else return none
  have hchain : ∀ {ts as}, Separated Item ts as → ∀ before : List α,
      before.length + as.length ≤ maxArity → ∃ first us a, ts = first ++ us ∧
        Reads (checked before.length) first a (us ++ rest) ∧ Loops step (a :: before) us (as.reverse ++ before) rest := by
    intro ts as h
    induction h with
    | @one ts a h =>
        intro before hb
        refine ⟨ts, [], a, (List.append_nil ts).symm, checked_reads tooMany hb (hi h hr), ?_⟩
        exact .done (.look (accept_declines hend) (.pure _ _))
    | @more c ts us a b as h hc hs ih =>
        intro before hb
        simp only [List.length_cons] at hb
        obtain ⟨first, vs, a', rfl, hfirst, hloop⟩ := ih (a :: before) (by
          simp only [List.length_cons]
          omega)
        refine ⟨ts, c :: (first ++ vs), a, rfl, checked_reads tooMany (by omega) (hi h (hF _ _ hc)), ?_⟩
        have hstep : Reads (step (a :: before)) (c :: first) (some (a' :: a :: before)) (vs ++ rest) :=
          .next (accept_reads hc _) hfirst.bind_pure
        have hmore := Loops.more hstep (List.cons_ne_nil _ _) hloop
        rw [List.reverse_cons, List.append_assoc]
        exact hmore
  obtain ⟨first, us, a, rfl, hfirst, hloop⟩ := hchain h [] (by simpa using hn)
  rw [List.length_append] at hl
  have hitems := (hloop limit (by omega)).bind_pure (f := List.reverse)
  rw [List.append_nil, List.reverse_reverse] at hitems
  exact hfirst.bind hitems

end separated

/-! ### How expressions start -/

/-- A text that starts like an expression, at the tightest grades without a prefix operator. -/
def Opens (grade : Grade) (ts : List Token) : Prop :=
  ∃ t us, ts = t :: us ∧ opensExpr t.kind = true ∧
    (grade ∈ [Grade.call, .primary] → prefixOp t.kind = none)

theorem Opens.append {grade : Grade} {ts : List Token} (h : Opens grade ts) (us : List Token) :
    Opens grade (ts ++ us) := by
  obtain ⟨t, vs, rfl, ht⟩ := h
  exact ⟨t, vs ++ us, rfl, ht⟩

theorem Opens.looser {grade g : Grade} {ts : List Token} (h : Opens grade ts)
    (hg : g ∈ [Grade.call, .primary] → grade ∈ [Grade.call, .primary]) : Opens g ts := by
  obtain ⟨t, us, rfl, ht, hp⟩ := h
  exact ⟨t, us, rfl, ht, fun h => hp (hg h)⟩

theorem opens_of_kind {t : Token} {k : Kind} (hk : t.kind = k) (ho : opensExpr k = true)
    (hp : prefixOp k = none) (grade : Grade) (us : List Token) : Opens grade (t :: us) :=
  ⟨t, us, rfl, hk ▸ ho, fun _ => hk ▸ hp⟩

theorem prefixOp_of_literalValue {k : Kind} {v : Literal} (h : literalValue k = some v) :
    prefixOp k = none := by
  unfold literalValue at h
  split at h <;> first | rfl | exact nomatch h

end Parser

open Lox.Parser

theorem ExprText.opens : ∀ {grade : Grade} {ts : List Token} {e : PlainExpr}, ExprText grade ts e →
    Opens grade ts
  | _, _, _, .literal h => ⟨_, _, rfl, by simp [opensExpr, h], fun _ => prefixOp_of_literalValue h⟩
  | _, _, _, .name h => opens_of_kind h rfl rfl _ _
  | _, _, _, .this h => opens_of_kind h rfl rfl _ _
  | _, _, _, .super h _ _ => opens_of_kind h rfl rfl _ _
  | _, _, _, .group h _ _ => opens_of_kind h rfl rfl _ _
  | _, _, _, .call h _ _ _ _ => (ExprText.opens h).append _
  | _, _, _, .get h _ _ => (ExprText.opens h).append _
  | _, _, _, .unary h _ => ⟨_, _, rfl, by simp [opensExpr, h], fun hg => nomatch (by decide : ¬ _) hg⟩
  | _, _, _, .binary h _ _ => (ExprText.opens h).append _
  | _, _, _, .logical h _ _ => (ExprText.opens h).append _
  | _, _, _, .assign h _ _ => ((ExprText.opens h).append _).looser (by decide)
  | _, _, _, .set h _ _ => ((ExprText.opens h).append _).looser (by decide)
  | grade, _, _, .tighter h => (ExprText.opens h).looser (by cases grade <;> decide)

theorem ExprText.notNext {grade : Grade} {ts : List Token} {e : PlainExpr} (h : ExprText grade ts e)
    {k : Kind} (hk : opensExpr k = false) (rest : List Token) : NotNext k (ts ++ rest) := by
  obtain ⟨t, us, rfl, ht, -⟩ := ExprText.opens h
  refine notNext_cons fun he => ?_
  rw [he, hk] at ht
  exact nomatch ht

namespace Parser

variable {α β : Type}

/-! ### Expressions -/

/-- The round of a chain of calls and property reads. -/
def callStep (depth : Nat) (e : PlainExpr) : Parser (Option PlainExpr) := do
  if ← accept .leftParen then
    let (values, closing) ← arguments depth (expression depth)
    return some (.call () e closing values)
  else if ← accept .dot then
    return some (.get () e (← expect .identifier .propertyName))
  else return none

/-- The round of the chain at a grade. -/
def stepAt (depth : Nat) : Grade → PlainExpr → Parser (Option PlainExpr)
  | .disjunction => joinStep disjunctionOp (.logical ()) (atGrade depth .conjunction)
  | .conjunction => joinStep conjunctionOp (.logical ()) (atGrade depth .equality)
  | .equality => joinStep equality (.binary ()) (atGrade depth .comparison)
  | .comparison => joinStep comparison (.binary ()) (atGrade depth .sum)
  | .sum => joinStep sum (.binary ()) (atGrade depth .product)
  | .product => joinStep product (.binary ()) (atGrade depth .unary)
  | .call => callStep depth
  | _ => fun _ => pure none

/-- The round of a chain of prefix operators. -/
def prefixStep (ops : List (UnaryOp × Lexeme)) : Parser (Option (List (UnaryOp × Lexeme))) :=
  return (← take? prefixOp).map (· :: ops)

/-- The rest of an expression with prefix operators, when some of them have been read. -/
def prefixedFrom (depth limit : Nat) (ops : List (UnaryOp × Lexeme)) : Parser PlainExpr := do
  let ops ← loop prefixStep limit ops
  let operand ← postfixed depth (expression depth)
  return ops.foldl (fun e (op, sign) => .unary () op sign e) operand

/-- A text of an expression is read at its grade: at once, or as the start of a chain, or after prefix
operators. -/
def Complete (depth : Nat) (grade : Grade) (ts : List Token) (e : PlainExpr) : Prop :=
  match grade with
  | .assignment => ∀ rest, Stops .assignment rest → Reads (atGrade depth .assignment) ts e rest
  | .unary => ∀ ops rest limit, ts.length ≤ limit → Stops .unary rest →
      Reads (prefixedFrom depth limit ops) ts
        (ops.foldl (fun e (op, sign) => .unary () op sign e) e) rest
  | .primary => ∀ rest, Reads (atGrade depth .primary) ts e rest
  | g => ∀ us out rest, Stops g.tighter (us ++ rest) → ts.length + us.length ≤ depth →
      Loops (stepAt depth g) e us out rest → Reads (atGrade depth g) (ts ++ us) out rest

section complete

variable {depth : Nat} {grade : Grade} {ts us rest : List Token} {e : PlainExpr}

/-- The grades that are read by a chain. -/
def Chained (grade : Grade) : Prop := grade ∉ [Grade.assignment, .unary, .primary]

instance : Decidable (Chained grade) := inferInstanceAs (Decidable (¬ _))

theorem complete_chained (hg : Chained grade) : Complete depth grade ts e ↔
    ∀ us out rest, Stops grade.tighter (us ++ rest) → ts.length + us.length ≤ depth →
      Loops (stepAt depth grade) e us out rest → Reads (atGrade depth grade) (ts ++ us) out rest := by
  cases grade <;> first | exact .rfl | exact absurd hg (by decide)

theorem atGrade_chained (hg : Chained grade) : atGrade depth grade =
    atGrade depth grade.tighter >>= loop (stepAt depth grade) depth := by
  cases grade <;> first | rfl | exact absurd hg (by decide)

/-- A chain ends where no token goes on with it. -/
theorem stepAt_declines (hg : Chained grade) (hs : Stops grade rest) (e : PlainExpr) :
    Reads (stepAt depth grade e) [] none rest := by
  have hd : ∀ t, rest.head? = some t → joint? t.kind ≠ some grade := fun t ht =>
    hs t ht grade (mem_fromGrade grade)
  have hbin : ∀ t, rest.head? = some t → grade.binary? t.kind = none := fun t ht =>
    Option.eq_none_iff_forall_ne_some.mpr fun op hop => hd t ht (joint?_of_binary? hop)
  have hlog : ∀ t, rest.head? = some t → grade.logical? t.kind = none := fun t ht =>
    Option.eq_none_iff_forall_ne_some.mpr fun op hop => hd t ht (joint?_of_logical? hop)
  cases grade with
  | assignment => exact absurd hg (by decide)
  | unary => exact absurd hg (by decide)
  | primary => exact absurd hg (by decide)
  | disjunction => exact joinStep_declines hlog
  | conjunction => exact joinStep_declines hlog
  | equality => exact joinStep_declines hbin
  | comparison => exact joinStep_declines hbin
  | sum => exact joinStep_declines hbin
  | product => exact joinStep_declines hbin
  | call =>
      have hp : NotNext .leftParen rest := fun t ht hk => hd t ht (by rw [hk]; rfl)
      have hdot : NotNext .dot rest := fun t ht hk => hd t ht (by rw [hk]; rfl)
      exact .look (accept_declines hp) (.look (accept_declines hdot) (.pure _ _))

/-- A text that is read at a grade is read there as a whole. -/
theorem Complete.reads (h : Complete depth grade ts e) (hl : ts.length ≤ depth) (hs : Stops grade rest) :
    Reads (atGrade depth grade) ts e rest := by
  by_cases hg : Chained grade
  · have hr := (complete_chained hg).mp h [] e rest hs.tighter hl (.done (stepAt_declines hg hs e))
    rwa [List.append_nil] at hr
  · cases grade with
    | assignment => exact h rest hs
    | unary => exact h [] rest depth hl hs
    | primary => exact h rest
    | _ => exact absurd (by decide) hg

/-- What is read at a tighter grade is read at a looser one. -/
theorem Complete.looser (h : Complete depth grade.tighter ts e) (ht : ExprText grade.tighter ts e)
    (hl : ts.length ≤ depth) : Complete depth grade ts e := by
  by_cases hg : Chained grade
  · refine (complete_chained hg).mpr fun us out rest hs hlen hloop => ?_
    rw [atGrade_chained hg]
    exact (h.reads hl hs).bind (hloop depth (by omega))
  · cases grade with
    | assignment =>
        intro rest hs
        have hnext : NotNext .equal rest := fun t ht hk =>
          hs t ht .assignment (mem_fromGrade _) (by rw [hk]; rfl)
        exact (h.reads hl hs.tighter).all (.look (accept?_declines hnext) (.pure _ _))
    | unary =>
        intro ops rest limit hlimit hs
        obtain ⟨t, us, rfl, -, hp⟩ := ExprText.opens ht
        have hdecl : Loops prefixStep ops [] ops (t :: us ++ rest) := by
          refine .done (take?_declines ?_).bind_pure
          rintro _ ⟨⟩
          exact hp (by decide)
        exact .look (hdecl limit (Nat.zero_le _)) (h.reads hl hs.tighter).bind_pure
    | primary => exact h
    | _ => exact absurd (by decide) hg

theorem prefixedFrom_reads {t : Token} {op : UnaryOp} {ops : List (UnaryOp × Lexeme)} {limit : Nat}
    (ht : prefixOp t.kind = some op)
    (h : Reads (prefixedFrom depth limit ((op, t.toLexeme) :: ops)) ts e rest) :
    Reads (prefixedFrom depth (limit + 1) ops) (t :: ts) e rest := by
  unfold prefixedFrom
  simp only [loop, prefixStep, bind_assoc, pure_bind]
  exact .next (take?_reads ht _) h

theorem stepAt_binary {t : Token} {op : BinaryOp} {a b : PlainExpr}
    (ht : grade.binary? t.kind = some op) (h : Reads (atGrade depth grade.tighter) us b rest) :
    Reads (stepAt depth grade a) (t :: us) (some (.binary () op t.toLexeme a b)) rest := by
  cases grade with
  | equality => exact joinStep_reads ht h
  | comparison => exact joinStep_reads ht h
  | sum => exact joinStep_reads ht h
  | product => exact joinStep_reads ht h
  | _ => exact nomatch ht

theorem stepAt_logical {t : Token} {op : LogicalOp} {a b : PlainExpr}
    (ht : grade.logical? t.kind = some op) (h : Reads (atGrade depth grade.tighter) us b rest) :
    Reads (stepAt depth grade a) (t :: us) (some (.logical () op t.toLexeme a b)) rest := by
  cases grade with
  | disjunction => exact joinStep_reads ht h
  | conjunction => exact joinStep_reads ht h
  | _ => exact nomatch ht

/-- A chain that goes on with an operator of its grade and an operand. -/
theorem Complete.chain (hg : Chained grade) {a b : PlainExpr} {t : Token} {vs : List Token}
    (ha : Complete depth grade ts a) (ht : joint? t.kind = some grade)
    (hstep : ∀ rest, Stops grade.tighter rest → Reads (stepAt depth grade a) (t :: vs) (some b) rest) :
    Complete depth grade (ts ++ t :: vs) b := by
  refine (complete_chained hg).mpr fun us out rest hs hlen hloop => ?_
  have hstops : Stops grade.tighter ((t :: vs) ++ us ++ rest) := by
    refine stops_of_joint ht ?_
    cases grade <;> first | decide | exact absurd hg (by decide)
  have hmore := Loops.more (hstep _ hs) (List.cons_ne_nil t vs) hloop
  have hr := (complete_chained hg).mp ha _ out rest hstops (by
    simp only [List.length_append, List.length_cons] at hlen ⊢
    omega) hmore
  rwa [List.append_assoc]

/-- What is read as an assignment, at every depth, is read as an expression. -/
theorem expression_reads (h : ∀ d, ts.length ≤ d → Complete d .assignment ts e)
    (hl : ts.length < depth) (hs : Stops .assignment rest) : Reads (expression depth) ts e rest := by
  cases depth with
  | zero => exact nomatch hl
  | succ d =>
      rw [expression_succ]
      exact (h d (Nat.le_of_lt_succ hl)).reads (Nat.le_of_lt_succ hl) hs

/-- A comma or a closing parenthesis comes next. -/
def EndsArgument (rest : List Token) : Prop :=
  ∃ t us, rest = t :: us ∧ (t.kind = .comma ∨ t.kind = .rightParen)

theorem EndsArgument.stops (h : EndsArgument rest) : Stops .assignment rest := by
  obtain ⟨t, us, rfl, hk | hk⟩ := h
  · exact stops_of_none (by rw [hk]; rfl)
  · exact stops_of_none (by rw [hk]; rfl)

theorem arguments_reads {r : Token} {args : List PlainExpr} (hr : r.kind = .rightParen)
    (hn : args.length ≤ maxArity) (hl : us.length < depth)
    (ha : us = [] ∧ args = [] ∨ (∀ rest, NotNext .rightParen (us ++ rest)) ∧
      Separated (fun ts e => ∀ rest, EndsArgument rest → Reads (expression depth) ts e rest) us args) :
    Reads (arguments depth (expression depth)) (us ++ [r]) (args, r.toLexeme) rest := by
  have hend : Reads (do return (args, ← expect .rightParen .argumentsEnd)) [r] (args, r.toLexeme) rest :=
    (expect_reads hr _ _).bind_pure
  rcases ha with ⟨rfl, rfl⟩ | ⟨hnext, hs⟩
  · exact .look (nextIs_reads hr _) hend
  · have hitems : Reads (commaSeparated .tooManyArguments depth (expression depth)) us args
        ([r] ++ rest) := by
      refine commaSeparated_reads .tooManyArguments (fun hi hf => hi _ hf) ?_ hs hn
        (Nat.le_of_lt hl) ⟨r, rest, rfl, .inr hr⟩ ?_
      · exact fun t us hk => ⟨t, us, rfl, .inl hk⟩
      · exact notNext_of_kind hr nofun
    have hd : Reads (nextIs .rightParen) [] false (us ++ [r] ++ rest) := by
      rw [List.append_assoc]
      exact nextIs_declines (hnext _)
    exact .look hd (hitems.bind hend)

theorem head_declines {want : Kind → Option β} {t : Token} (h : want t.kind = none) (ts : List Token) :
    ∀ t', (t :: ts).head? = some t' → want t'.kind = none := by
  rintro _ ⟨⟩
  exact h

theorem group_reads {l r : Token} (hl : l.kind = .leftParen) (hr : r.kind = .rightParen)
    (h : Reads (expression depth) ts e (r :: rest)) :
    Reads (primary (expression depth)) (l :: (ts ++ [r])) (.group () e) rest := by
  refine .look (take?_declines (head_declines (by rw [hl]; rfl) _)) ?_
  refine .look (accept?_declines (notNext_of_kind hl nofun)) ?_
  refine .look (accept?_declines (notNext_of_kind hl nofun)) ?_
  refine .look (accept?_declines (notNext_of_kind hl nofun)) ?_
  exact .next (accept_reads hl _) (.bind h (.next (expect_reads hr _ _) (.pure _ _)))

theorem super_reads {t d n : Token} (ht : t.kind = .keyword .super) (hd : d.kind = .dot)
    (hn : n.kind = .identifier) :
    Reads (primary (expression depth)) [t, d, n] (.super ⟨(), t.toLexeme⟩ n.toLexeme) rest := by
  refine .look (take?_declines (head_declines (by rw [ht]; rfl) _)) ?_
  exact .next (accept?_reads ht _) (.next (expect_reads hd _ _) (.next (expect_reads hn _ _) (.pure _ _)))

theorem this_reads {t : Token} (ht : t.kind = .keyword .this) :
    Reads (primary (expression depth)) [t] (.this ⟨(), t.toLexeme⟩) rest := by
  refine .look (take?_declines (head_declines (by rw [ht]; rfl) _)) ?_
  refine .look (accept?_declines (notNext_of_kind ht nofun)) ?_
  exact .next (accept?_reads ht _) (.pure _ _)

theorem name_reads {t : Token} (ht : t.kind = .identifier) :
    Reads (primary (expression depth)) [t] (.name ⟨(), t.toLexeme⟩) rest := by
  refine .look (take?_declines (head_declines (by rw [ht]; rfl) _)) ?_
  refine .look (accept?_declines (notNext_of_kind ht nofun)) ?_
  refine .look (accept?_declines (notNext_of_kind ht nofun)) ?_
  exact .next (accept?_reads ht _) (.pure _ _)

/-- An assignment sign after a target, and the value after it. -/
theorem assigned_reads {t : Token} {target value out : PlainExpr} (ht : t.kind = .equal)
    (h : Complete depth .disjunction ts target) (hl : ts.length ≤ depth)
    (hv : Reads (expression depth) us value rest)
    (hout : out ∈ (match target with
      | .name ref => some (Expr.assign ref value)
      | .get _ object name => some (Expr.set () object name value)
      | _ => none : Option PlainExpr)) :
    Reads (atGrade depth .assignment) (ts ++ t :: us) out rest := by
  refine .bind (h.reads hl (stops_of_joint (by rw [ht]; rfl) (by decide))) ?_
  refine .next (accept?_reads ht _) ?_
  cases target with
  | name ref =>
      cases hout
      exact hv.bind_pure
  | get _ object name =>
      cases hout
      exact hv.bind_pure
  | _ => exact nomatch hout

end complete

end Parser

mutual

/-- A text of an expression is read at its grade, nested as deep as it is long. -/
theorem ExprText.complete : ∀ {grade : Grade} {ts : List Token} {e : PlainExpr},
    ExprText grade ts e → ∀ depth, ts.length ≤ depth → Complete depth grade ts e
  | _, _, _, .literal h, _, _ => fun _ => .next (take?_reads h _) (.pure _ _)
  | _, _, _, .name h, _, _ => fun _ => name_reads h
  | _, _, _, .this h, _, _ => fun _ => this_reads h
  | _, _, _, .super h hd hn, _, _ => fun _ => super_reads h hd hn
  | _, _, _, .group hl h hr, depth, hlen => fun rest => by
      simp only [List.length_cons, List.length_append] at hlen
      refine group_reads hl hr (expression_reads (fun d hd => ExprText.complete h d hd) (by omega) ?_)
      exact stops_of_none (by rw [hr]; rfl)
  | _, _, _, .call h hl ha hr hn, depth, hlen => by
      simp only [List.length_cons, List.length_append] at hlen
      refine (ExprText.complete h depth (by omega)).chain (by decide) (by rw [hl]; rfl) fun rest _ => ?_
      refine .next (accept_reads hl _) (Reads.bind_pure (arguments_reads hr hn ?_ ?_))
      · omega
      · exact ArgsText.complete ha depth (by omega)
  | _, _, _, .get h hd hn, depth, hlen => by
      simp only [List.length_cons, List.length_append] at hlen
      refine (ExprText.complete h depth (by omega)).chain (by decide) (by rw [hd]; rfl) fun rest _ => ?_
      refine .look (accept_declines (notNext_of_kind hd nofun)) ?_
      exact .next (accept_reads hd _) (expect_reads hn _ _).bind_pure
  | _, _, _, @ExprText.unary t op _ _ ht h, depth, hlen => fun ops rest limit hlimit hs => by
      simp only [List.length_cons] at hlen hlimit
      cases limit with
      | zero => omega
      | succ limit =>
          have hr := ExprText.complete h depth (by omega) ((op, t.toLexeme) :: ops) rest limit (by omega) hs
          exact prefixedFrom_reads ht hr
  | grade, _, _, .binary ha ht hb, depth, hlen => by
      simp only [List.length_cons, List.length_append] at hlen
      refine (ExprText.complete ha depth (by omega)).chain ?_ (joint?_of_binary? ht) fun rest hs => ?_
      · cases grade <;> first | decide | exact nomatch ht
      · exact stepAt_binary ht ((ExprText.complete hb depth (by omega)).reads (by omega) hs)
  | grade, _, _, .logical ha ht hb, depth, hlen => by
      simp only [List.length_cons, List.length_append] at hlen
      refine (ExprText.complete ha depth (by omega)).chain ?_ (joint?_of_logical? ht) fun rest hs => ?_
      · cases grade <;> first | decide | exact nomatch ht
      · exact stepAt_logical ht ((ExprText.complete hb depth (by omega)).reads (by omega) hs)
  | _, _, _, .assign h ht hv, depth, hlen => fun rest hs => by
      simp only [List.length_cons, List.length_append] at hlen
      exact assigned_reads ht (ExprText.complete h depth (by omega)) (by omega)
        (expression_reads (fun d hd => ExprText.complete hv d hd) (by omega) hs) rfl
  | _, _, _, .set h ht hv, depth, hlen => fun rest hs => by
      simp only [List.length_cons, List.length_append] at hlen
      exact assigned_reads ht (ExprText.complete h depth (by omega)) (by omega)
        (expression_reads (fun d hd => ExprText.complete hv d hd) (by omega) hs) rfl
  | _, _, _, .tighter h, depth, hlen => (ExprText.complete h depth hlen).looser h hlen

/-- The arguments of a call are read one by one. -/
theorem ArgsText.complete : ∀ {us : List Token} {args : List PlainExpr}, ArgsText us args →
    ∀ depth, us.length < depth → us = [] ∧ args = [] ∨ (∀ rest, NotNext .rightParen (us ++ rest)) ∧
      Separated (fun ts e => ∀ rest, EndsArgument rest → Reads (expression depth) ts e rest) us args
  | _, _, .none, _, _ => .inl ⟨rfl, rfl⟩
  | _, _, .one h, depth, hlen => .inr ⟨h.notNext rfl, .one fun rest hr =>
      expression_reads (fun d hd => ExprText.complete h d hd) hlen hr.stops⟩
  | _, _, .more h hc hs, depth, hlen => by
      simp only [List.length_cons, List.length_append] at hlen
      refine .inr ⟨fun rest => ?_, ?_⟩
      · rw [List.append_assoc]
        exact h.notNext rfl _
      · rcases ArgsText.complete hs depth (by omega) with ⟨-, he⟩ | ⟨-, hs⟩
        · exact nomatch he
        · exact .more (fun rest hr => expression_reads (fun d hd => ExprText.complete h d hd)
            (by omega) hr.stops) hc hs

end

/-! ### How declarations start -/

/-- Tokens that a statement can start with. -/
def opensStmt (k : Kind) : Bool :=
  opensExpr k || k = .keyword .for_ || k = .keyword .if_ || k = .keyword .print ||
    k = .keyword .return_ || k = .keyword .while_ || k = .leftBrace

/-- Tokens that a declaration can start with. -/
def opensDecl (k : Kind) : Bool :=
  opensStmt k || k = .keyword .class_ || k = .keyword .fun_ || k = .keyword .var

theorem notNext_of_opens {opens : Kind → Bool} {t : Token} {k k' : Kind} (ht : t.kind = k')
    (ho : opens k' = true) (hk : opens k = false) (ts : List Token) : NotNext k (t :: ts) := by
  refine notNext_cons fun he => ?_
  rw [← ht, he, hk] at ho
  exact nomatch ho

theorem StmtText.notNext {dangling : Bool} {ts : List Token} {s : PlainStmt}
    (h : StmtText dangling ts s) {k : Kind} (hk : opensStmt k = false) (rest : List Token) :
    NotNext k (ts ++ rest) := by
  cases h with
  | expression h hs =>
      rw [List.append_assoc]
      refine h.notNext ?_ _
      simp only [opensStmt, Bool.or_eq_false_iff] at hk
      simp only [hk]
  | print ht _ _ => exact notNext_of_opens ht rfl hk _
  | ret ht _ _ => exact notNext_of_opens ht rfl hk _
  | block ht _ _ => exact notNext_of_opens ht rfl hk _
  | ite ht _ _ _ _ => exact notNext_of_opens ht rfl hk _
  | iteElse ht _ _ _ _ _ _ => exact notNext_of_opens ht rfl hk _
  | «while» ht _ _ _ _ => exact notNext_of_opens ht rfl hk _
  | «for» ht _ _ _ _ _ _ _ => exact notNext_of_opens ht rfl hk _

theorem VarText.notNext {ts : List Token} {s : PlainStmt} (h : VarText ts s) {k : Kind}
    (hk : opensDecl k = false) (rest : List Token) : NotNext k (ts ++ rest) := by
  cases h with
  | plain ht _ _ => exact notNext_of_opens ht rfl hk _
  | initialized ht _ _ _ _ => exact notNext_of_opens ht rfl hk _

theorem DeclText.notNext {dangling : Bool} {ts : List Token} {s : PlainStmt}
    (h : DeclText dangling ts s) {k : Kind} (hk : opensDecl k = false) (rest : List Token) :
    NotNext k (ts ++ rest) := by
  cases h with
  | base ht _ _ _ _ => exact notNext_of_opens ht rfl hk _
  | derived ht _ _ _ _ _ _ => exact notNext_of_opens ht rfl hk _
  | function ht _ => exact notNext_of_opens ht rfl hk _
  | var h => exact h.notNext hk rest
  | statement h =>
      refine h.notNext ?_ rest
      simp only [opensDecl, Bool.or_eq_false_iff] at hk
      simp only [hk]

theorem BodyText.notNext {ts rest : List Token} {body : List PlainStmt} (h : BodyText ts body)
    {k : Kind} (hk : opensDecl k = false) (hr : NotNext k rest) : NotNext k (ts ++ rest) := by
  cases h with
  | nil => exact hr
  | cons h _ =>
      rw [List.append_assoc]
      exact h.notNext hk _

/-! ### Clauses of statements -/

namespace Parser

section clauses

variable {depth : Nat} {ts rest : List Token}

/-- An expression is read before a token that goes on with no expression. -/
theorem clause_reads {e : PlainExpr} {t : Token} (h : ExprText .assignment ts e)
    (hl : ts.length < depth) {k : Kind} (hk : t.kind = k) (hj : joint? k = none) :
    Reads (expression depth) ts e (t :: rest) :=
  expression_reads (fun d hd => h.complete d hd) hl (stops_of_none (hk ▸ hj))

theorem expressionThen_reads {e : PlainExpr} {s : Token} (h : ExprText .assignment ts e)
    (hs : s.kind = .semicolon) (hl : ts.length < depth) (fault : ParseFault) :
    Reads (expressionThen fault (expression depth)) (ts ++ [s]) e rest :=
  .bind (clause_reads h hl hs rfl) (.next (expect_reads hs _ _) (.pure _ _))

theorem unlessNext_reads {e : Option PlainExpr} {s : Token} {kind : Kind} (h : ExprText? ts e)
    (hs : s.kind = kind) (hk : opensExpr kind = false) (hj : joint? kind = none) (hl : ts.length < depth) :
    Reads (unlessNext kind (expression depth)) ts e (s :: rest) := by
  cases h with
  | none => exact .look (nextIs_reads hs rest) (.pure _ _)
  | some h => exact .look (nextIs_declines (h.notNext hk _)) (clause_reads h hl hs hj).bind_pure

theorem variableDeclaration_reads {s : PlainStmt} (h : VarText ts s) : ∃ k us, ts = k :: us ∧
    k.kind = .keyword .var ∧ ∀ depth rest, us.length ≤ depth →
      Reads (variableDeclaration (expression depth)) us s rest := by
  cases h with
  | @plain k n t hk hn ht =>
      refine ⟨k, _, rfl, hk, fun depth rest _ => ?_⟩
      refine .next (expect_reads hn _ _) ?_
      refine .look (accept_declines (notNext_of_kind ht nofun)) (.look (.pure _ _) ?_)
      exact .next (expect_reads ht _ _) (.pure _ _)
  | @initialized k n q t us e hk hn hq h ht =>
      refine ⟨k, _, rfl, hk, fun depth rest hl => ?_⟩
      simp only [List.length_cons, List.length_append] at hl
      refine .next (expect_reads hn _ _) (.next (accept_reads hq _) ?_)
      exact .bind (clause_reads h (by omega) ht rfl).map (.next (expect_reads ht _ _) (.pure _ _))

theorem forInitializer_reads {start : Option PlainStmt} (h : StartText ts start)
    (hl : ts.length ≤ depth) : Reads (forInitializer (expression depth)) ts start rest := by
  cases h with
  | none hs => exact .next (accept_reads hs _) (.pure _ _)
  | var h =>
      obtain ⟨k, us, rfl, hk, h⟩ := variableDeclaration_reads h
      refine .look (accept_declines (notNext_of_kind hk nofun)) ?_
      exact .next (accept_reads hk _) (h depth rest (Nat.le_of_succ_le hl)).map
  | @expression us s e h hs =>
      simp only [List.length_append, List.length_cons] at hl
      have hd {k : Kind} (hk : opensExpr k = false) : NotNext k (us ++ [s] ++ rest) := by
        rw [List.append_assoc]
        exact h.notNext hk _
      refine .look (accept_declines (hd rfl)) (.look (accept_declines (hd rfl)) ?_)
      exact (expressionThen_reads h hs (by omega) _).map

theorem separated_of_paramsText {params : List Lexeme} (h : ParamsText ts params) :
    ts = [] ∧ params = [] ∨ (∀ rest, NotNext .rightParen (ts ++ rest)) ∧
      Separated (Takes .identifier) ts params := by
  induction h with
  | none => exact .inl ⟨rfl, rfl⟩
  | one h => exact .inr ⟨fun _ => notNext_of_kind h nofun, .one ⟨_, rfl, h, rfl⟩⟩
  | more h hc _ ih =>
      rcases ih with ⟨-, he⟩ | ⟨-, ih⟩
      · exact nomatch he
      · exact .inr ⟨fun _ => notNext_of_kind h nofun, .more ⟨_, rfl, h, rfl⟩ hc ih⟩

theorem params_reads {params : List Lexeme} (h : Separated (Takes .identifier) ts params)
    (hn : params.length ≤ maxArity) (hl : ts.length ≤ depth) (hr : NotNext .comma rest) :
    Reads (commaSeparated .tooManyParameters depth (expect .identifier .parameterName)) ts params rest := by
  refine commaSeparated_reads .tooManyParameters (F := fun _ => True) ?_ (fun _ _ _ => trivial) h hn
    hl trivial hr
  rintro _ _ rest ⟨t, rfl, ht, rfl⟩ -
  exact expect_reads ht _ _

theorem recovering_reads {α : Type} {p : Parser α} {a : α} (h : Reads p ts a rest) :
    Reads (recovering p) ts (some a) rest := by
  intro endLine errors
  rw [recovering, h endLine errors]

/-- The round of a block. -/
def blockStep (decl : Parser (Option PlainStmt)) (body : List PlainStmt) :
    Parser (Option (List PlainStmt)) := do
  if (← nextIs .rightBrace) || (← atEnd) then return none
  else return some ((← decl).toList ++ body)

/-- The round of a class body. -/
def methodsStep (depth : Nat) (methods : List (FunDecl Unit)) : Parser (Option (List (FunDecl Unit))) := do
  if (← nextIs .rightBrace) || (← atEnd) then return none
  else return some ((← routine .method depth (declaration depth)) :: methods)

/-- The round of a whole input. -/
def topStep (decl : Parser (Option PlainStmt)) (body : List PlainStmt) :
    Parser (Option (List PlainStmt)) := do
  if ← atEnd then return none
  else return some ((← decl).toList ++ body)

/-- A round that takes one more declaration, and one that takes none. -/
structure Rounds (depth : Nat) (step : List PlainStmt → Parser (Option (List PlainStmt)))
    (rest : List Token) : Prop where
  more : ∀ {ts us s} (body : List PlainStmt), ts ≠ [] → NotNext .rightBrace (ts ++ (us ++ rest)) →
    Reads (declaration depth) ts (some s) (us ++ rest) →
    Reads (step body) ts (some (s :: body)) (us ++ rest)
  done : ∀ body, Reads (step body) [] none rest

theorem rounds_block {r : Token} (hr : r.kind = .rightBrace) :
    Rounds depth (blockStep (declaration depth)) (r :: rest) where
  more body hne hn h := by
    refine .look (nextIs_declines hn) (.look (atEnd_declines ?_) h.bind_pure)
    simp [hne]
  done body :=
    .look (nextIs_reads hr rest) (.look (atEnd_declines (List.cons_ne_nil r rest)) (.pure _ _))

theorem rounds_top : Rounds depth (topStep (declaration depth)) [] where
  more body hne _ h := by
    refine .look (atEnd_declines ?_) h.bind_pure
    simp [hne]
  done body := .look atEnd_reads (.pure _ _)

theorem block_reads {body : List PlainStmt} {r : Token} (hr : r.kind = .rightBrace)
    (h : Loops (blockStep (declaration depth)) [] ts (body.reverse ++ []) (r :: rest))
    (hl : ts.length ≤ depth) : Reads (block depth (declaration depth)) (ts ++ [r]) body rest := by
  have hb : Reads (block depth (declaration depth)) (ts ++ [r]) (body.reverse ++ []).reverse rest :=
    .bind (h depth hl) (.next (expect_reads hr _ _) (.pure _ _))
  rwa [List.append_nil, List.reverse_reverse] at hb

theorem methodsStep_reads {us : List Token} {decl : FunDecl Unit} (h : RoutineText ts decl)
    (before : List (FunDecl Unit))
    (hd : Reads (routine .method depth (declaration depth)) ts decl (us ++ rest)) :
    Reads (methodsStep depth before) ts (some (decl :: before)) (us ++ rest) := by
  obtain ⟨hn, _, _, _, _, _, _, _⟩ := h
  refine .look (nextIs_declines (notNext_of_kind hn nofun)) (.look (atEnd_declines ?_) hd.bind_pure)
  exact List.cons_ne_nil _ _

theorem methodsStep_declines {r : Token} (hr : r.kind = .rightBrace) (methods : List (FunDecl Unit)) :
    Reads (methodsStep depth methods) [] none (r :: rest) :=
  .look (nextIs_reads hr rest) (.look (atEnd_declines (List.cons_ne_nil r rest)) (.pure _ _))

theorem methods_reads {methods : List (FunDecl Unit)} {r : Token} (hr : r.kind = .rightBrace)
    {name : Lexeme} {superclass : Option (Reference Unit)}
    (h : Loops (methodsStep depth) [] ts (methods.reverse ++ []) (r :: rest)) (hl : ts.length ≤ depth) :
    Reads (do
      let methods ← loop (methodsStep depth) depth []
      let _ ← expect .rightBrace .classBodyEnd
      return Stmt.cls name superclass methods.reverse) (ts ++ [r]) (.cls name superclass methods) rest := by
  have hb : Reads (do
      let methods ← loop (methodsStep depth) depth []
      let _ ← expect .rightBrace .classBodyEnd
      return Stmt.cls name superclass methods.reverse) (ts ++ [r])
        (.cls name superclass (methods.reverse ++ []).reverse) rest :=
    .bind (h depth hl) (.next (expect_reads hr _ _) (.pure _ _))
  rwa [List.append_nil, List.reverse_reverse] at hb

end clauses

end Parser

/-! ### Statements -/

mutual

/-- A text of a statement is read, nested twice as deep as it is long. -/
theorem StmtText.complete : ∀ {dangling : Bool} {ts : List Token} {s : PlainStmt},
    StmtText dangling ts s → ∀ depth rest, 2 * ts.length ≤ depth →
      (dangling = true → NotNext (.keyword .else_) rest) → Reads (statement depth) ts s rest := by
  intro dangling ts s h depth rest hlen helse
  have hpos := List.length_pos_iff.mpr h.ne_nil
  obtain ⟨depth, rfl⟩ : ∃ d, depth = d + 1 := ⟨depth - 1, by omega⟩
  rw [statement_succ]
  match dangling, ts, s, h with
  | _, _, _, @StmtText.expression us t _ h hs =>
      simp only [List.length_append, List.length_cons] at hlen
      have hd {k : Kind} (hk : opensExpr k = false) : NotNext k (us ++ [t] ++ rest) := by
        rw [List.append_assoc]
        exact h.notNext hk _
      refine .look (accept_declines (hd rfl)) (.look (accept_declines (hd rfl)) ?_)
      refine .look (accept_declines (hd rfl)) (.look (accept?_declines (hd rfl)) ?_)
      refine .look (accept_declines (hd rfl)) (.look (accept_declines (hd rfl)) ?_)
      exact (expressionThen_reads h hs (by omega) _).map
  | _, _, _, .print hk h hs =>
      simp only [List.length_append, List.length_cons] at hlen
      refine .look (accept_declines (notNext_of_kind hk nofun)) ?_
      refine .look (accept_declines (notNext_of_kind hk nofun)) ?_
      exact .next (accept_reads hk _) (expressionThen_reads h hs (by omega) _).map
  | _, _, _, .ret hk h hs =>
      simp only [List.length_append, List.length_cons] at hlen
      refine .look (accept_declines (notNext_of_kind hk nofun)) ?_
      refine .look (accept_declines (notNext_of_kind hk nofun)) ?_
      refine .look (accept_declines (notNext_of_kind hk nofun)) (.next (accept?_reads hk _) ?_)
      exact .bind (unlessNext_reads h hs rfl rfl (by omega)) (.next (expect_reads hs _ _) (.pure _ _))
  | _, _, _, .while hk hl hc hr hb =>
      simp only [List.length_append, List.length_cons] at hlen
      refine .look (accept_declines (notNext_of_kind hk nofun)) ?_
      refine .look (accept_declines (notNext_of_kind hk nofun)) ?_
      refine .look (accept_declines (notNext_of_kind hk nofun)) ?_
      refine .look (accept?_declines (notNext_of_kind hk nofun)) (.next (accept_reads hk _) ?_)
      refine .next (expect_reads hl _ _) (.bind (clause_reads hc (by omega) hr rfl) ?_)
      exact .next (expect_reads hr _ _) (StmtText.complete hb depth rest (by omega) helse).bind_pure
  | _, _, _, .block hl h hr =>
      simp only [List.length_append, List.length_cons] at hlen
      refine .look (accept_declines (notNext_of_kind hl nofun)) ?_
      refine .look (accept_declines (notNext_of_kind hl nofun)) ?_
      refine .look (accept_declines (notNext_of_kind hl nofun)) ?_
      refine .look (accept?_declines (notNext_of_kind hl nofun)) ?_
      refine .look (accept_declines (notNext_of_kind hl nofun)) (.next (accept_reads hl _) ?_)
      refine (block_reads hr ?_ (by omega)).map
      exact BodyText.complete h depth _ [] (by omega) (notNext_of_kind hr nofun) (rounds_block hr)
  | _, _, _, .ite hk hl hc hr hy =>
      simp only [List.length_append, List.length_cons] at hlen
      refine .look (accept_declines (notNext_of_kind hk nofun)) (.next (accept_reads hk _) ?_)
      refine .next (expect_reads hl _ _) (.bind (clause_reads hc (by omega) hr rfl) ?_)
      refine .next (expect_reads hr _ _) ?_
      refine (StmtText.complete hy depth rest (by omega) fun _ => helse rfl).all ?_
      exact .look (accept_declines (helse rfl)) (.look (.pure _ _) (.pure _ _))
  | _, _, _, .iteElse hk hl hc hr hy hn h =>
      simp only [List.length_append, List.length_cons] at hlen
      refine .look (accept_declines (notNext_of_kind hk nofun)) (.next (accept_reads hk _) ?_)
      refine .next (expect_reads hl _ _) (.bind (clause_reads hc (by omega) hr rfl) ?_)
      refine .next (expect_reads hr _ _) ?_
      refine .bind (@StmtText.complete false _ _ hy depth _ (by omega) nofun) ?_
      refine .next (accept_reads hn _) ?_
      exact (StmtText.complete h depth rest (by omega) helse).map.all (.pure _ _)
  | _, _, _, .for hk hl hi hc hs hu hr hb =>
      simp only [List.length_append, List.length_cons] at hlen
      refine .next (accept_reads hk _) (.next (expect_reads hl _ _) ?_)
      refine .bind (forInitializer_reads hi (by omega)) ?_
      refine .bind (unlessNext_reads hc hs rfl rfl (by omega)) (.next (expect_reads hs _ _) ?_)
      refine .bind (unlessNext_reads hu hr rfl rfl (by omega)) (.next (expect_reads hr _ _) ?_)
      exact (StmtText.complete hb depth rest (by omega) helse).bind_pure

/-- A text of a declaration is read, nested once more than a statement. -/
theorem DeclText.complete : ∀ {dangling : Bool} {ts : List Token} {s : PlainStmt},
    DeclText dangling ts s → ∀ depth rest, 2 * ts.length + 1 ≤ depth →
      (dangling = true → NotNext (.keyword .else_) rest) →
      Reads (declaration depth) ts (some s) rest := by
  intro dangling ts s h depth rest hlen helse
  obtain ⟨depth, rfl⟩ : ∃ d, depth = d + 1 := ⟨depth - 1, by omega⟩
  rw [declaration_succ]
  refine recovering_reads ?_
  match dangling, ts, s, h with
  | _, _, _, .base hk hn hl h hr =>
      simp only [List.length_append, List.length_cons] at hlen
      refine .next (accept_reads hk _) (.next (expect_reads hn _ _) ?_)
      refine .look (accept_declines (notNext_of_kind hl nofun)) (.look (.pure _ _) ?_)
      refine .next (expect_reads hl _ _) (methods_reads hr ?_ (by omega))
      exact MethodsText.complete h depth _ [] (by omega) hr
  | _, _, _, .derived hk hn hq hp hl h hr =>
      simp only [List.length_append, List.length_cons] at hlen
      refine .next (accept_reads hk _) (.next (expect_reads hn _ _) ?_)
      refine .next (accept_reads hq _) (.next (expect_reads hp _ _) (.look (.pure _ _) ?_))
      refine .next (expect_reads hl _ _) (methods_reads hr ?_ (by omega))
      exact MethodsText.complete h depth _ [] (by omega) hr
  | _, _, _, .function hk h =>
      simp only [List.length_cons] at hlen
      refine .look (accept_declines (notNext_of_kind hk nofun)) (.next (accept_reads hk _) ?_)
      exact (RoutineText.complete h depth rest .function (by omega)).map
  | _, _, _, .var h =>
      obtain ⟨k, us, rfl, hk, h⟩ := variableDeclaration_reads h
      simp only [List.length_cons] at hlen
      refine .look (accept_declines (notNext_of_kind hk nofun)) ?_
      refine .look (accept_declines (notNext_of_kind hk nofun)) (.next (accept_reads hk _) ?_)
      exact h depth rest (by omega)
  | _, _, _, .statement h =>
      refine .look (accept_declines (h.notNext rfl rest)) ?_
      refine .look (accept_declines (h.notNext rfl rest)) ?_
      refine .look (accept_declines (h.notNext rfl rest)) ?_
      exact StmtText.complete h depth rest (by omega) helse

/-- Texts of declarations are read by the rounds of a block or of a whole input. -/
theorem BodyText.complete : ∀ {ts : List Token} {body : List PlainStmt}, BodyText ts body →
    ∀ depth rest before, 2 * ts.length + 1 ≤ depth → NotNext (.keyword .else_) rest →
      ∀ {step}, Rounds depth step rest → Loops step before ts (body.reverse ++ before) rest
  | _, _, .nil, _, _, before, _, _, _, hstep => .done (hstep.done before)
  | _, _, @BodyText.cons _ _ _ s _ h hs, depth, rest, before, hlen, helse, _, hstep => by
      simp only [List.length_append] at hlen
      have hd := DeclText.complete h depth _ (by omega) fun _ => hs.notNext rfl helse
      have hloop := BodyText.complete hs depth rest (s :: before) (by omega) helse hstep
      rw [List.reverse_cons, List.append_assoc]
      exact .more (hstep.more before h.ne_nil (h.notNext rfl _) hd) h.ne_nil hloop

/-- A text of a function or method is read from its name on. -/
theorem RoutineText.complete : ∀ {ts : List Token} {decl : FunDecl Unit}, RoutineText ts decl →
    ∀ depth rest sort, 2 * ts.length ≤ depth →
      Reads (routine sort depth (declaration depth)) ts decl rest
  | _, _, @RoutineText.mk n _ r b e ps ts params body hn hl hp hm hr hb h he, depth, rest, sort, hlen => by
      simp only [List.length_append, List.length_cons] at hlen
      refine .next (expect_reads hn _ _) (.next (expect_reads hl _ _) ?_)
      have hbody : Reads (block depth (declaration depth)) (ts ++ [e]) body rest :=
        block_reads he (BodyText.complete h depth _ [] (by omega) (notNext_of_kind he nofun)
          (rounds_block he)) (by omega)
      have hend : Reads (do
          let _ ← expect .rightParen .parametersEnd
          let _ ← expect .leftBrace (.bodyStart sort)
          return FunDecl.mk n.toLexeme params (← block depth (declaration depth)))
          (r :: b :: (ts ++ [e])) (.mk n.toLexeme params body) rest :=
        .next (expect_reads hr _ _) (.next (expect_reads hb _ _) hbody.bind_pure)
      rcases separated_of_paramsText hp with ⟨rfl, rfl⟩ | ⟨hnext, hs⟩
      · exact .look (nextIs_reads hr _) (.look (.pure _ _) hend)
      · refine .look (nextIs_declines ?_) (.bind (params_reads hs hm ?_ ?_) hend)
        · rw [List.append_assoc]
          exact hnext _
        · omega
        · exact notNext_of_kind hr nofun

/-- Texts of methods are read by the rounds of a class body. -/
theorem MethodsText.complete : ∀ {ts : List Token} {methods : List (FunDecl Unit)},
    MethodsText ts methods → ∀ depth rest before {r : Token}, 2 * ts.length ≤ depth →
      r.kind = .rightBrace →
      Loops (methodsStep depth) before ts (methods.reverse ++ before) (r :: rest)
  | _, _, .nil, _, _, before, _, _, hr => .done (methodsStep_declines hr before)
  | _, _, @MethodsText.cons _ _ decl _ h hs, depth, rest, before, r, hlen, hr => by
      simp only [List.length_append] at hlen
      have hloop := MethodsText.complete hs depth rest (decl :: before) (by omega) hr
      rw [List.reverse_cons, List.append_assoc]
      refine .more (methodsStep_reads h before ?_) h.ne_nil hloop
      exact RoutineText.complete h depth _ .method (by omega)

end

/-! ### Whole inputs -/

theorem Parser.Reads.run {α : Type} {p : Parser α} {tokens : List Token} {a : α}
    (h : Reads p (textOf tokens) a []) : runParser p tokens = .ok a := by
  have hc := h (Cursor.ofTokens tokens).endLine []
  rw [List.append_nil] at hc
  unfold runParser
  rw [show Cursor.ofTokens tokens = ⟨textOf tokens, (Cursor.ofTokens tokens).endLine, []⟩ from rfl, hc]
  rfl

/-- Every text of a program is parsed as this program. -/
theorem parseProgram_complete {tokens : List Token} {body : List PlainStmt}
    (h : BodyText (textOf tokens) body) : parseProgram tokens = .ok body := by
  have hlen : (textOf tokens).length ≤ tokens.length := (List.takeWhile_prefix _).length_le
  have hloop := BodyText.complete h (depthFor tokens) [] [] (by rw [depthFor]; omega) nofun rounds_top
  have hb : Reads (declarations (depthFor tokens)) (textOf tokens) (body.reverse ++ []).reverse [] :=
    (hloop (depthFor tokens) (by rw [depthFor]; omega)).bind_pure
  rw [List.append_nil, List.reverse_reverse] at hb
  exact hb.run

/-- Every text of an expression is parsed as this expression. -/
theorem parseExpression_complete {tokens : List Token} {e : PlainExpr}
    (h : ExprText .assignment (textOf tokens) e) : parseExpression tokens = .ok e := by
  have hlen : (textOf tokens).length ≤ tokens.length := (List.takeWhile_prefix _).length_le
  have he : Reads (expression (depthFor tokens)) (textOf tokens) e [] :=
    expression_reads (fun d hd => h.complete d hd) (by rw [depthFor]; omega) (stops_nil _)
  have hend : Reads (soleExpression (depthFor tokens)) (textOf tokens) e [] :=
    he.all (.look atEnd_reads (.pure e []))
  exact hend.run

theorem parseExpression_eq_ok_iff {tokens : List Token} {e : PlainExpr} :
    parseExpression tokens = .ok e ↔ ExprText .assignment (textOf tokens) e :=
  ⟨parseExpression_sound, parseExpression_complete⟩

end Lox
