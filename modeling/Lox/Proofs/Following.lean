import Lox.Proofs.Indexing
import Lox.Proofs.ParserComplete

/-! # Reading by position and by what is left

The parser reads from what is left of the tokens; a reader stands at a position among them.  Each rule of the reader
follows the rule of the parser (`Follows`): it comes to the same result or the same fault, and where the parser has
some tokens left, the reader stands before these.  It has only looked at tokens that there are, has never moved back,
and does not run out of fuel.

The two have fuel of their own, so that a reader follows the parser at all depths that suffice for the number of
tokens left.  How many are needed is shown by induction on this number: every level of nesting takes a token, and
every round of a loop does. -/

namespace Lox

/-! ### Where a reader stands -/

/-- A list of tokens that a reader is in, the first end-of-file token in it, and faults that were found before. -/
structure Scene where
  tokens : List Token
  stop : Nat
  eof : Token
  earlier : List ParseError
  atStop : tokens[stop]? = some eof
  isEnd : eof.kind = .eof
  noEnd : ∀ t ∈ tokens.take stop, t.kind ≠ .eof

namespace Reader

/-- A reader that has looked at a token. -/
def State.looked (s : State) : State := { s with looks := s.position :: s.looks }

/-- A reader that has moved on. -/
def State.advanced (s : State) : State :=
  { s with position := s.position + 1, looks := (s.position + 1) :: s.position :: s.looks }

/-- A reader stands before the tokens that a parser has left, with the same faults; it has never moved back, and
has taken a token with every declaration. -/
structure Stands (w : Scene) (s : State) (c : Cursor) : Prop where
  rest : c.rest = (w.tokens.take w.stop).drop s.position
  le : s.position ≤ w.stop
  endLine : c.endLine = w.eof.line
  errors : c.errors = w.earlier ++ s.errors
  forward : (s.position :: s.looks).Pairwise (· ≥ ·)
  declared : ∀ d ∈ s.declared, d.1 < d.2

theorem Scene.stop_lt (w : Scene) : w.stop < w.tokens.length := (List.getElem?_eq_some_iff.mp w.atStop).1

/-- The next token: the first one left, or the one at the end. -/
def next (w : Scene) (c : Cursor) : Token := c.rest.headD w.eof

namespace Stands

variable {w : Scene} {s : State} {c : Cursor} {t : Token} {rest : List Token}

theorem length (h : Stands w s c) : c.rest.length = w.stop - s.position := by
  rw [h.rest, List.length_drop, List.length_take, Nat.min_eq_left (Nat.le_of_lt (Scene.stop_lt w))]

theorem cons (h : Stands w s c) (hc : c.rest = t :: rest) :
    s.position < w.stop ∧ w.tokens[s.position]? = some t ∧ t.kind ≠ .eof ∧
      rest = (w.tokens.take w.stop).drop (s.position + 1) := by
  have hlen := h.length
  rw [hc] at hlen
  have hlt : s.position < w.stop := by
    simp only [List.length_cons] at hlen
    omega
  have hdrop := h.rest
  rw [hc] at hdrop
  have hget : (w.tokens.take w.stop)[s.position]? = some t := by
    rw [← List.head?_drop, ← hdrop]
    rfl
  refine ⟨hlt, ?_, w.noEnd t (List.mem_of_getElem? hget), ?_⟩
  · rwa [List.getElem?_take_of_lt hlt] at hget
  · rw [← List.tail_drop, ← hdrop]
    rfl

theorem nil (h : Stands w s c) (hc : c.rest = []) : s.position = w.stop := by
  have hlen := h.length
  rw [hc] at hlen
  have hle := h.le
  simp only [List.length_nil] at hlen
  omega

/-- The token at the position. -/
theorem token (h : Stands w s c) : w.tokens[s.position]? = some (next w c) := by
  unfold next
  cases hc : c.rest with
  | nil =>
      rw [h.nil hc]
      exact w.atStop
  | cons t rest => exact (h.cons hc).2.1

theorem next_place (h : Stands w s c) : (next w c).place = c.place := by
  unfold next Token.place Cursor.place
  cases hc : c.rest with
  | nil =>
      rw [h.endLine]
      exact if_pos w.isEnd
  | cons t rest => exact if_neg (h.cons hc).2.2.1

theorem next_isEnd (h : Stands w s c) : decide ((next w c).kind = .eof) = c.rest.isEmpty := by
  unfold next
  cases hc : c.rest with
  | nil => exact decide_eq_true w.isEnd
  | cons t rest => exact decide_eq_false (h.cons hc).2.2.1

theorem looked (h : Stands w s c) : Stands w s.looked c where
  rest := h.rest
  le := h.le
  endLine := h.endLine
  errors := h.errors
  forward := by
    refine List.pairwise_cons.mpr ⟨fun i hi => ?_, h.forward⟩
    rcases List.mem_cons.mp hi with rfl | hi
    · exact Nat.le_refl _
    · exact (List.pairwise_cons.mp h.forward).1 i hi
  declared := h.declared

theorem advanced (h : Stands w s c) (hc : c.rest = t :: rest) : Stands w s.advanced { c with rest := rest } where
  rest := (h.cons hc).2.2.2
  le := (h.cons hc).1
  endLine := h.endLine
  errors := h.errors
  forward := by
    have hlooked := h.looked.forward
    refine List.pairwise_cons.mpr ⟨fun i hi => ?_, List.pairwise_cons.mpr ⟨fun i hi => ?_, hlooked.of_cons⟩⟩
    · rcases List.mem_cons.mp hi with rfl | hi
      · exact Nat.le_refl _
      · exact Nat.le_succ_of_le ((List.pairwise_cons.mp hlooked).1 i hi)
    · exact Nat.le_succ_of_le ((List.pairwise_cons.mp hlooked).1 i hi)
  declared := h.declared

theorem report (h : Stands w s c) (e : ParseError) :
    Stands w { s with errors := s.errors ++ [e] } (c.report e) where
  rest := h.rest
  le := h.le
  endLine := h.endLine
  errors := by
    change c.errors ++ [e] = w.earlier ++ (s.errors ++ [e])
    rw [h.errors, List.append_assoc]
  forward := h.forward
  declared := h.declared

end Stands

/-! ### Single tokens -/

section single

variable {α β : Type} {w : Scene} {s : State} {c : Cursor} {t : Token} {rest : List Token}

theorem bind_ok {r : Reader α} {f : α → Reader β} {tokens : List Token} {s s' : State} {a : α}
    (h : r tokens s = .ok a s') : (r >>= f) tokens s = f a tokens s' := by
  change EStateM.bind (r tokens) (fun a => f a tokens) s = _
  rw [EStateM.bind, h]

theorem bind_error {r : Reader α} {f : α → Reader β} {tokens : List Token} {s s' : State} {e : Exit}
    (h : r tokens s = .error e s') : (r >>= f) tokens s = .error e s' := by
  change EStateM.bind (r tokens) (fun a => f a tokens) s = _
  rw [EStateM.bind, h]

theorem look_eq {index : Nat} (h : w.tokens[index]? = some t) (s : State) :
    look index w.tokens s = .ok t s.looked := by
  unfold look
  rw [h]
  rfl

theorem peek_eq (h : Stands w s c) : peek w.tokens s = .ok (next w c) s.looked := look_eq h.token s

theorem previous_inRange (h : Stands w s c) : ∃ t, previous w.tokens s = .ok t s.looked := by
  have hlt : s.position - 1 < w.tokens.length :=
    Nat.lt_of_le_of_lt (Nat.le_trans (Nat.sub_le _ _) h.le) (Scene.stop_lt w)
  exact ⟨_, look_eq (List.getElem?_eq_getElem hlt) s⟩

theorem atEnd_eq (h : Stands w s c) : atEnd w.tokens s = .ok c.rest.isEmpty s.looked := by
  rw [← h.next_isEnd]
  exact bind_ok (peek_eq h)

theorem nextIs_nil (h : Stands w s c) (hc : c.rest = []) (kind : Kind) :
    nextIs kind w.tokens s = .ok false s.looked := by
  have hend := atEnd_eq h
  rw [hc] at hend
  exact bind_ok hend

theorem nextIs_cons (h : Stands w s c) (hc : c.rest = t :: rest) (kind : Kind) :
    nextIs kind w.tokens s = .ok (decide (t.kind = kind)) s.looked.looked := by
  have hend := atEnd_eq h
  have hpeek := peek_eq h.looked
  unfold next at hpeek
  rw [hc] at hend hpeek
  exact (bind_ok hend).trans (bind_ok hpeek)

theorem advance_cons (h : Stands w s c) (hc : c.rest = t :: rest) :
    advance w.tokens s = .ok t s.advanced := by
  have hend := atEnd_eq h
  rw [hc] at hend
  exact (bind_ok hend).trans (look_eq (h.cons hc).2.1 _)

theorem advance_nil (h : Stands w s c) (hc : c.rest = []) :
    ∃ t, advance w.tokens s = .ok t s.looked.looked := by
  have hend := atEnd_eq h
  rw [hc] at hend
  obtain ⟨t, ht⟩ := previous_inRange h.looked
  exact ⟨t, (bind_ok hend).trans ht⟩

end single

/-! ### Following -/

/-- Results that match: where the parser has tokens left, at most so many, the reader stands before these. -/
inductive Alike (w : Scene) (n : Nat) {α : Type} (Q : α → Nat → Prop) :
    EStateM.Result Exit State α → EStateM.Result ParseError Cursor α → Prop
  | ok {a : α} {s : State} {c : Cursor} (h : Stands w s c) (hle : c.rest.length ≤ n) (hq : Q a c.rest.length) :
      Alike w n Q (.ok a s) (.ok a c)
  | fault {e : ParseError} {s : State} {c : Cursor} (h : Stands w s c) (hle : c.rest.length ≤ n) :
      Alike w n Q (.error (.fault e) s) (.error e c)

theorem Alike.imp {w : Scene} {n n' : Nat} {α : Type} {Q Q' : α → Nat → Prop} {x : EStateM.Result Exit State α}
    {y : EStateM.Result ParseError Cursor α} (h : Alike w n Q x y) (hn : n ≤ n')
    (hq : ∀ a m, m ≤ n → Q a m → Q' a m) : Alike w n' Q' x y := by
  cases h with
  | ok h hle h' => exact .ok h (Nat.le_trans hle hn) (hq _ _ hle h')
  | fault h hle => exact .fault h (Nat.le_trans hle hn)

/-- A reader follows a parser that has `n` tokens left; of the result and the number of tokens that are left then,
`Q` holds. -/
def Follows (n : Nat) {α : Type} (r : Reader α) (p : Parser α) (Q : α → Nat → Prop) : Prop :=
  ∀ (w : Scene) (s : State) (c : Cursor), Stands w s c → c.rest.length = n → Alike w n Q (r w.tokens s) (p c)

namespace Follows

variable {n : Nat} {α β : Type} {r : Reader α} {p : Parser α} {Q : α → Nat → Prop}

theorem imp {Q' : α → Nat → Prop} (h : Follows n r p Q) (hq : ∀ a m, m ≤ n → Q a m → Q' a m) :
    Follows n r p Q' := fun w s c hs hn => (h w s c hs hn).imp (Nat.le_refl n) hq

theorem pure {a : α} (h : Q a n) : Follows n (Pure.pure a) (Pure.pure a) Q := by
  rintro w s c hs rfl
  exact .ok hs (Nat.le_refl _) h

theorem bind {f : α → Reader β} {g : α → Parser β} {R : β → Nat → Prop} (h : Follows n r p Q)
    (hf : ∀ a m, m ≤ n → Q a m → Follows m (f a) (g a) R) : Follows n (r >>= f) (p >>= g) R := by
  intro w s c hs hn
  have hrun := h w s c hs hn
  change Alike w n R ((r >>= f) w.tokens s) (EStateM.bind p g c)
  unfold EStateM.bind
  cases hr : r w.tokens s with
  | ok a s' =>
      rw [hr] at hrun
      rw [bind_ok hr]
      cases hp : p c with
      | ok a' c' =>
          rw [hp] at hrun
          cases hrun with
          | ok hs' hle hq => exact (hf a _ hle hq w s' c' hs' rfl).imp hle fun _ _ _ h => h
      | error e c' =>
          rw [hp] at hrun
          exact nomatch hrun
  | error e s' =>
      rw [hr] at hrun
      rw [bind_error hr]
      cases hp : p c with
      | ok a' c' =>
          rw [hp] at hrun
          exact nomatch hrun
      | error e' c' =>
          rw [hp] at hrun
          cases hrun with
          | fault hs' hle => exact .fault hs' hle

theorem map {R : β → Nat → Prop} (h : Follows n r p Q) (f : α → β) (hf : ∀ a m, m ≤ n → Q a m → R (f a) m) :
    Follows n (f <$> r) (f <$> p) R := by
  have hb : Follows n (r >>= fun a => Pure.pure (f a)) (p >>= fun a => Pure.pure (f a)) R :=
    h.bind fun a m hm hq => pure (hf a m hm hq)
  rwa [bind_pure_comp, bind_pure_comp] at hb

/-! ### Tokens -/

theorem atEnd : Follows n Reader.atEnd Parser.atEnd fun b m => m = n ∧ (b = true ↔ n = 0) := by
  rintro w s c hs rfl
  rw [atEnd_eq hs]
  refine .ok hs.looked (Nat.le_refl _) ⟨rfl, ?_⟩
  cases c.rest <;> simp

theorem nextIs (kind : Kind) : Follows n (Reader.nextIs kind) (Parser.nextIs kind) fun _ m => m = n := by
  rintro w s ⟨rest, endLine, errors⟩ hs rfl
  cases rest with
  | nil =>
      rw [nextIs_nil hs rfl]
      exact .ok hs.looked (Nat.le_refl _) rfl
  | cons t rest =>
      rw [nextIs_cons hs rfl]
      exact .ok hs.looked.looked (Nat.le_refl _) rfl

theorem fail (fault : ParseFault) : Follows n (Reader.fail fault : Reader α) (Parser.fail fault) Q := by
  rintro w s c hs rfl
  have hfail : (Reader.fail fault : Reader α) w.tokens s = .error (.fault ⟨fault, c.place⟩) s.looked := by
    rw [← hs.next_place]
    exact bind_ok (peek_eq hs)
  rw [hfail]
  exact .fault hs.looked (Nat.le_refl _)

theorem report (e : ParseError) : Follows n (Reader.report e) (Parser.report e) fun _ m => m = n := by
  rintro w s c hs rfl
  exact .ok (hs.report e) (Nat.le_refl _) rfl

theorem reportHere (fault : ParseFault) :
    Follows n (Reader.reportHere fault) (Parser.reportHere fault) fun _ m => m = n := by
  rintro w s c hs rfl
  have hreport : Reader.reportHere fault w.tokens s =
      Reader.report ⟨fault, c.place⟩ w.tokens s.looked := by
    rw [← hs.next_place]
    exact bind_ok (peek_eq hs)
  rw [hreport]
  exact .ok (hs.looked.report ⟨fault, c.place⟩) (Nat.le_refl _) rfl

/-- What is left after a token has been taken, or has not. -/
def Took (n : Nat) {α : Type} (o : Option α) (m : Nat) : Prop := m + (if o.isSome then 1 else 0) = n

theorem take? (want : Kind → Option β) : Follows n (Reader.take? want) (Parser.take? want) (Took n) := by
  rintro w s ⟨rest, endLine, errors⟩ hs rfl
  have hend := atEnd_eq hs
  unfold Reader.take?
  rw [bind_ok hend]
  cases rest with
  | nil => exact .ok hs.looked (Nat.le_refl _) rfl
  | cons t rest =>
      have hpeek : peek w.tokens s.looked = .ok t _ := peek_eq hs.looked
      rw [List.isEmpty_cons, if_neg Bool.false_ne_true, bind_ok hpeek]
      simp only [Parser.take?]
      cases want t.kind with
      | none => exact .ok hs.looked.looked (Nat.le_refl _) rfl
      | some b =>
          dsimp only
          rw [bind_ok (advance_cons hs.looked.looked rfl)]
          exact .ok (hs.looked.looked.advanced rfl) (Nat.le_succ _) rfl

/-- What is left after a token has been accepted, or has not. -/
def Accepted (n : Nat) (b : Bool) (m : Nat) : Prop := m + (if b then 1 else 0) = n

theorem accept (kind : Kind) : Follows n (Reader.accept kind) (Parser.accept kind) (Accepted n) := by
  rintro w s ⟨rest, endLine, errors⟩ hs rfl
  unfold Reader.accept
  cases rest with
  | nil =>
      rw [bind_ok (nextIs_nil hs rfl kind)]
      exact .ok hs.looked (Nat.le_refl _) rfl
  | cons t rest =>
      have hnext := nextIs_cons hs rfl kind
      rw [bind_ok hnext]
      by_cases hk : t.kind = kind
      · rw [decide_eq_true hk, if_pos rfl, bind_ok (advance_cons hs.looked.looked rfl)]
        rw [show Parser.accept kind ⟨t :: rest, endLine, errors⟩ = .ok true ⟨rest, endLine, errors⟩ from
          Parser.accept_reads hk rest endLine errors]
        exact .ok (hs.looked.looked.advanced rfl) (Nat.le_succ _) rfl
      · rw [decide_eq_false hk, if_neg Bool.false_ne_true]
        rw [show Parser.accept kind ⟨t :: rest, endLine, errors⟩ = .ok false ⟨t :: rest, endLine, errors⟩ from
          Parser.accept_declines (Parser.notNext_cons hk) endLine errors]
        exact .ok hs.looked.looked (Nat.le_refl _) rfl

theorem accept? (kind : Kind) : Follows n (Reader.accept? kind) (Parser.accept? kind) (Took n) := by
  rintro w s ⟨rest, endLine, errors⟩ hs rfl
  unfold Reader.accept? Reader.accept
  cases rest with
  | nil =>
      rw [bind_ok (bind_ok (nextIs_nil hs rfl kind))]
      exact .ok hs.looked (Nat.le_refl _) rfl
  | cons t rest =>
      have hnext := nextIs_cons hs rfl kind
      change Alike w _ _ _ (if t.kind = kind then _ else _)
      by_cases hk : t.kind = kind
      · rw [decide_eq_true hk] at hnext
        have hprevious : previous w.tokens s.looked.looked.advanced = .ok t _ :=
          look_eq (hs.looked.looked.cons rfl).2.1 _
        rw [bind_ok (a := true) ((bind_ok hnext).trans (bind_ok (advance_cons hs.looked.looked rfl))), if_pos hk,
          if_pos rfl, bind_ok hprevious]
        exact .ok (hs.looked.looked.advanced rfl).looked (Nat.le_succ _) rfl
      · rw [decide_eq_false hk] at hnext
        rw [bind_ok (bind_ok hnext), if_neg hk]
        exact .ok hs.looked.looked (Nat.le_refl _) rfl

theorem expect (kind : Kind) (fault : ParseFault) :
    Follows n (Reader.expect kind fault) (Parser.expect kind fault) fun _ m => m + 1 = n := by
  rintro w s ⟨rest, endLine, errors⟩ hs rfl
  unfold Reader.expect
  cases rest with
  | nil =>
      rw [bind_ok (nextIs_nil hs rfl kind)]
      exact fail fault w s.looked ⟨[], endLine, errors⟩ hs.looked rfl
  | cons t rest =>
      have hnext := nextIs_cons hs rfl kind
      rw [bind_ok hnext]
      by_cases hk : t.kind = kind
      · rw [decide_eq_true hk, if_pos rfl, bind_ok (advance_cons hs.looked.looked rfl)]
        rw [show Parser.expect kind fault ⟨t :: rest, endLine, errors⟩ = .ok t.toLexeme ⟨rest, endLine, errors⟩ from
          Parser.expect_reads hk fault rest endLine errors]
        exact .ok (hs.looked.looked.advanced rfl) (Nat.le_succ _) rfl
      · have hexpect : Parser.expect kind fault ⟨t :: rest, endLine, errors⟩ =
            Parser.fail fault ⟨t :: rest, endLine, errors⟩ := by
          have hdeclines : Parser.accept? kind ⟨t :: rest, endLine, errors⟩ = .ok none ⟨t :: rest, endLine, errors⟩ :=
            if_neg hk
          change EStateM.bind (Parser.accept? kind) _ _ = _
          rw [EStateM.bind, hdeclines]
        rw [decide_eq_false hk, if_neg Bool.false_ne_true, hexpect]
        exact fail fault w _ _ hs.looked.looked rfl

/-! ### Loops -/

/-- A step that goes on has taken a token. -/
def Goes (n : Nat) (o : Option α) (m : Nat) : Prop := o.isSome → m < n

/-- A loop whose rounds each take a token.  The parser stops when its limit is reached, which makes no difference at
the end, where its step declines. -/
theorem loop {step : α → Reader (Option α)} {step' : α → Parser (Option α)} {fuel limit : Nat} {a : α}
    (hfuel : n < fuel) (hlimit : n ≤ limit) (hs : ∀ m ≤ n, ∀ a, Follows m (step a) (step' a) (Goes m))
    (hend : ∀ a endLine errors, step' a ⟨[], endLine, errors⟩ = .ok none ⟨[], endLine, errors⟩) :
    Follows n (Reader.loop step fuel a) (Parser.loop step' limit a) fun _ _ => True := by
  induction fuel generalizing n limit a with
  | zero => exact absurd hfuel (Nat.not_lt_zero n)
  | succ fuel ih =>
    cases limit with
    | zero =>
      obtain rfl : n = 0 := Nat.le_zero.mp hlimit
      rintro w s ⟨rest, endLine, errors⟩ h hn
      obtain rfl : rest = [] := List.eq_nil_of_length_eq_zero hn
      have hrun := hs 0 (Nat.le_refl 0) a w s _ h rfl
      rw [hend] at hrun
      unfold Reader.loop
      cases hstep : step a w.tokens s with
      | ok o s' =>
          rw [hstep] at hrun
          cases hrun with
          | ok h' hle hq =>
              rw [bind_ok hstep]
              exact .ok h' hle trivial
      | error e s' =>
          rw [hstep] at hrun
          exact nomatch hrun
    | succ limit =>
      refine (hs n (Nat.le_refl n) a).bind fun o m hm hgoes => ?_
      cases o with
      | none => exact pure trivial
      | some b =>
          have hlt : m < n := hgoes rfl
          exact ih (by omega) (by omega) fun k hk => hs k (Nat.le_trans hk hm)

end Follows

/-- A reader follows a parser that has `n` tokens left or fewer. -/
def FollowsTo (n : Nat) {α : Type} (r : Reader α) (p : Parser α) : Prop :=
  ∀ m ≤ n, Follows m r p fun _ _ => True

/-- A reader follows a parser that has fewer than `n` tokens left. -/
def FollowsBelow (n : Nat) {α : Type} (r : Reader α) (p : Parser α) : Prop :=
  ∀ m < n, Follows m r p fun _ _ => True

namespace FollowsTo

variable {n k : Nat} {α : Type} {r : Reader α} {p : Parser α}

theorem mono (h : FollowsTo n r p) (hk : k ≤ n) : FollowsTo k r p := fun m hm => h m (Nat.le_trans hm hk)

end FollowsTo

theorem FollowsBelow.to {n k : Nat} {α : Type} {r : Reader α} {p : Parser α} (h : FollowsBelow n r p) (hk : k < n) :
    FollowsTo k r p := fun m hm => h m (Nat.lt_of_le_of_lt hm hk)

/-! ### Expressions -/

section expressions

variable {n fuel limit : Nat} {α β : Type} {nested operand : Reader PlainExpr} {nested' operand' : Parser PlainExpr}

theorem Follows.expectThen {kind : Kind} {fault : ParseFault} {R : α → Nat → Prop} {f : Lexeme → Reader α}
    {g : Lexeme → Parser α} (h : ∀ t m, m + 1 = n → Follows m (f t) (g t) R) :
    Follows n (Reader.expect kind fault >>= f) (Parser.expect kind fault >>= g) R :=
  (Follows.expect kind fault).bind fun t m _ hm => h t m hm

theorem leftJoined_follows {op? : Kind → Option β} {join : β → Lexeme → PlainExpr → PlainExpr → PlainExpr}
    (h : FollowsTo n operand operand') (hfuel : n < fuel) (hlimit : n ≤ limit) :
    FollowsTo n (leftJoined op? join fuel operand) (Parser.leftJoined op? join limit operand') := by
  intro m hm
  refine (h m hm).bind fun first k hk _ => ?_
  refine .loop (by omega) (by omega) (fun j hj left => ?_) fun _ _ _ => rfl
  refine (Follows.take? op?).bind fun o i hi htook => ?_
  match o with
  | none => exact .pure nofun
  | some (op, sign) =>
      have htook : i + 1 = j := htook
      exact (h i (by omega)).bind fun right l hl _ => .pure fun _ => by omega

theorem commaSeparated_follows {item : Reader α} {item' : Parser α} (tooMany : ParseFault)
    (h : FollowsTo n item item') (hfuel : n < fuel) (hlimit : n ≤ limit) :
    FollowsTo n (commaSeparated tooMany fuel item) (Parser.commaSeparated tooMany limit item') := by
  have hchecked (count m : Nat) (hm : m ≤ n) : Follows m
      (do
        if Parser.maxArity ≤ count then Reader.reportHere tooMany
        item)
      (do
        if Parser.maxArity ≤ count then Parser.reportHere tooMany
        item') fun _ _ => True := by
    split
    · exact (Follows.reportHere tooMany).bind fun _ k hk _ => h k (Nat.le_trans hk hm)
    · exact h m hm
  intro m hm
  refine (hchecked 0 m hm).bind fun first k hk _ => ?_
  refine Follows.bind (.loop (by omega) (by omega) (fun j hj items => ?_) fun _ _ _ => rfl) fun items _ _ _ =>
    .pure trivial
  refine (Follows.accept .comma).bind fun b i hi haccepted => ?_
  match b with
  | false => exact .pure nofun
  | true =>
      have haccepted : i + 1 = j := haccepted
      exact (hchecked items.length i (by omega)).bind fun _ l hl _ => .pure fun _ => by omega

theorem arguments_follows (h : FollowsTo n nested nested') (hfuel : n < fuel) (hlimit : n ≤ limit) :
    FollowsTo n (arguments fuel nested) (Parser.arguments limit nested') := by
  intro m hm
  refine (Follows.nextIs .rightParen).bind fun b k hk _ => ?_
  have hend (es : List PlainExpr) (j : Nat) : Follows j
      (do return (es, ← Reader.expect .rightParen .argumentsEnd))
      (do return (es, ← Parser.expect .rightParen .argumentsEnd)) fun _ _ => True :=
    .expectThen fun _ _ _ => .pure trivial
  match b with
  | true => exact hend [] k
  | false =>
      exact (commaSeparated_follows .tooManyArguments h hfuel hlimit k (by omega)).bind fun es j _ _ => hend es j

theorem primary_follows (h : FollowsBelow n nested nested') :
    FollowsTo n (primary nested) (Parser.primary nested') := by
  intro m hm
  refine (Follows.take? Parser.literalValue).bind fun o k hk htook => ?_
  match o with
  | some (value, _) => exact .pure trivial
  | none =>
  refine (Follows.accept? (.keyword .super)).bind fun o k _ _ => ?_
  match o with
  | some keyword => exact .expectThen fun _ _ _ => .expectThen fun _ _ _ => .pure trivial
  | none =>
  refine (Follows.accept? (.keyword .this)).bind fun o k _ _ => ?_
  match o with
  | some keyword => exact .pure trivial
  | none =>
  refine (Follows.accept? .identifier).bind fun o k _ _ => ?_
  match o with
  | some name => exact .pure trivial
  | none =>
  refine (Follows.accept .leftParen).bind fun b i _ haccepted => ?_
  match b with
  | true =>
      have haccepted : i + 1 = k := haccepted
      exact (h i (by omega)).bind fun _ _ _ _ => .expectThen fun _ _ _ => .pure trivial
  | false => exact .fail _

theorem postfixed_follows (h : FollowsBelow n nested nested') (hfuel : n < fuel) (hlimit : n ≤ limit) :
    FollowsTo n (postfixed fuel nested) (Parser.postfixed limit nested') := by
  intro m hm
  refine (primary_follows h m hm).bind fun first k hk _ => ?_
  refine .loop (by omega) (by omega) (fun j hj e => ?_) fun _ _ _ => rfl
  refine (Follows.accept .leftParen).bind fun b i hi haccepted => ?_
  match b with
  | true =>
      have haccepted : i + 1 = j := haccepted
      exact (arguments_follows (h.to (by omega : i < n)) (by omega) (by omega) i (Nat.le_refl i)).bind
        fun _ l hl _ => .pure fun _ => by omega
  | false =>
  have hdeclined : i = j := haccepted
  refine (Follows.accept .dot).bind fun b l hl haccepted => ?_
  match b with
  | true =>
      have haccepted : l + 1 = i := haccepted
      exact .expectThen fun _ _ _ => .pure fun _ => by omega
  | false => exact .pure nofun

theorem prefixed_follows (h : FollowsBelow n nested nested') (hfuel : n < fuel) (hlimit : n ≤ limit) :
    FollowsTo n (prefixed fuel nested) (Parser.prefixed limit nested') := by
  intro m hm
  refine Follows.bind (.loop (by omega) (by omega) (fun j hj ops => ?_) fun _ _ _ => rfl) fun ops k hk _ => ?_
  · refine (Follows.take? Parser.prefixOp).bind fun o i hi htook => .pure fun hsome => ?_
    cases o with
    | none => exact nomatch hsome
    | some op =>
        have htook : i + 1 = j := htook
        omega
  · exact (postfixed_follows h hfuel hlimit k (by omega)).bind fun _ _ _ _ => .pure trivial

theorem operation_follows (h : FollowsBelow n nested nested') (hfuel : n < fuel) (hlimit : n ≤ limit) :
    FollowsTo n (operation fuel nested) (Parser.operation limit nested') :=
  leftJoined_follows (leftJoined_follows (leftJoined_follows (leftJoined_follows (prefixed_follows h hfuel hlimit)
    hfuel hlimit) hfuel hlimit) hfuel hlimit) hfuel hlimit

theorem disjunction_follows (h : FollowsBelow n nested nested') (hfuel : n < fuel) (hlimit : n ≤ limit) :
    FollowsTo n (disjunction fuel nested) (Parser.disjunction limit nested') :=
  leftJoined_follows (leftJoined_follows (operation_follows h hfuel hlimit) hfuel hlimit) hfuel hlimit

theorem assignment_follows (h : FollowsBelow n nested nested') (hfuel : n < fuel) (hlimit : n ≤ limit) :
    FollowsTo n (assignment fuel nested) (Parser.assignment limit nested') := by
  intro m hm
  refine (disjunction_follows h hfuel hlimit m hm).bind fun target k hk _ =>
    (Follows.accept? .equal).bind fun o i hi htook => ?_
  match o with
  | none => exact .pure trivial
  | some sign =>
      have htook : i + 1 = k := htook
      refine (h i (by omega)).bind fun value j hj _ => ?_
      have hother : Follows j
          (do
            Reader.report ⟨.assignmentTarget, .at sign⟩
            return target)
          (do
            Parser.report ⟨.assignmentTarget, .at sign⟩
            return target) fun _ _ => True :=
        (Follows.report _).bind fun _ _ _ _ => .pure trivial
      cases target with
      | name ref => exact .pure trivial
      | get id object name => exact .pure trivial
      | _ => exact hother

/-- Fuel and depth that suffice for an expression of so many tokens. -/
theorem expression_follows {fuel depth : Nat} (hfuel : n + 1 < fuel) (hdepth : n < depth) :
    FollowsTo n (expression fuel) (Parser.expression depth) := by
  induction n using Nat.strongRecOn generalizing fuel depth with
  | ind n ih =>
    obtain ⟨fuel, rfl⟩ : ∃ f, fuel = f + 1 := ⟨fuel - 1, by omega⟩
    obtain ⟨depth, rfl⟩ : ∃ d, depth = d + 1 := ⟨depth - 1, by omega⟩
    rw [Parser.expression_succ]
    refine assignment_follows (fun m hm => ?_) (by omega) (by omega)
    exact ih m hm (by omega) (by omega) m (Nat.le_refl m)

theorem expressionThen_follows (fault : ParseFault) (h : FollowsTo n nested nested') :
    Follows n (expressionThen fault nested) (Parser.expressionThen fault nested') fun _ m => m < n :=
  (h n (Nat.le_refl n)).bind fun _ m hm _ => .expectThen fun _ k hk => .pure (by omega)

theorem unlessNext_follows (kind : Kind) (h : FollowsTo n nested nested') :
    FollowsTo n (unlessNext kind nested) (Parser.unlessNext kind nested') := by
  intro m hm
  refine (Follows.nextIs kind).bind fun b k hk _ => ?_
  match b with
  | true => exact .pure trivial
  | false => exact (h k (by omega)).bind fun _ _ _ _ => .pure trivial

end expressions

/-! ### Statements -/

section statements

variable {n fuel limit : Nat} {α β : Type} {expr : Reader PlainExpr} {expr' : Parser PlainExpr}
  {stmt : Reader PlainStmt} {stmt' : Parser PlainStmt} {decl : Reader (Option PlainStmt)}
  {decl' : Parser (Option PlainStmt)}

/-- A reader follows a parser that has `n` tokens left, and takes a token unless there is a fault. -/
abbrev FollowsTaking (n : Nat) (r : Reader α) (p : Parser α) : Prop := Follows n r p fun _ m => m < n

/-- Declarations with fewer tokens than `n`, but not at the end. -/
def DeclaresBelow (n : Nat) (decl : Reader (Option PlainStmt)) (decl' : Parser (Option PlainStmt)) : Prop :=
  ∀ m < n, m ≠ 0 → FollowsTaking m decl decl'

theorem variableDeclaration_follows (h : FollowsTo n expr expr') :
    FollowsTaking n (variableDeclaration expr) (Parser.variableDeclaration expr') := by
  refine .expectThen fun name m hm => (Follows.accept .equal).bind fun b k hk _ => ?_
  have hend (e : Option PlainExpr) (j : Nat) (hj : j < n) : Follows j
      (do
        let _ ← Reader.expect .semicolon .variableEnd
        return Stmt.var name e)
      (do
        let _ ← Parser.expect .semicolon .variableEnd
        return Stmt.var name e) fun _ i => i < n :=
    .expectThen fun _ i hi => .pure (by omega)
  match b with
  | true =>
      exact ((h k (by omega)).map some (R := fun _ _ => True) fun _ _ _ _ => trivial).bind
        fun e j hj _ => hend e j (by omega)
  | false => exact (Follows.pure (Q := fun _ _ => True) trivial).bind fun e j hj _ => hend e j (by omega)

/-- Items up to a closing brace or the end. -/
theorem upToBrace_follows {item : Reader α} {item' : Parser α} (add : α → List β → List β)
    (h : ∀ m ≤ n, m ≠ 0 → FollowsTaking m item item') (hfuel : n < fuel) (hlimit : n ≤ limit) :
    FollowsTo n
      (Reader.loop (fun items => do
        if (← Reader.nextIs .rightBrace) || (← Reader.atEnd) then return none
        else return some (add (← item) items)) fuel [])
      (Parser.loop (fun items => do
        if (← Parser.nextIs .rightBrace) || (← Parser.atEnd) then return none
        else return some (add (← item') items)) limit []) := by
  intro m hm
  refine .loop (by omega) (by omega) (fun k hk items => ?_) fun _ _ _ => rfl
  refine (Follows.nextIs _).bind fun b j _ hj => Follows.atEnd.bind fun b' i _ hi => ?_
  cases hb : b || b' with
  | true =>
      rw [if_pos rfl, if_pos rfl]
      exact .pure nofun
  | false =>
      have hb' : b' ≠ true := by
        rintro rfl
        cases (Bool.or_true b).symm.trans hb
      have hne : i ≠ 0 := fun h0 => hb' (hi.2.mpr (hi.1 ▸ h0))
      rw [if_neg Bool.false_ne_true, if_neg Bool.false_ne_true]
      exact (h i (by omega) hne).bind fun _ l hl hlt => .pure fun _ => by omega

theorem block_follows (h : DeclaresBelow n decl decl') (hfuel : n < fuel) (hlimit : n ≤ limit) :
    FollowsBelow n (block fuel decl) (Parser.block limit decl') := by
  intro m hm
  have hloop := upToBrace_follows (n := m) (fun o body => o.toList ++ body) (fun k hk => h k (by omega))
    (by omega : m < fuel) (by omega : m ≤ limit)
  exact (hloop m (Nat.le_refl m)).bind fun _ _ _ _ => .expectThen fun _ _ _ => .pure trivial

theorem routine_follows (sort : Routine) (h : DeclaresBelow n decl decl') (hfuel : n < fuel) (hlimit : n ≤ limit) :
    FollowsTaking n (routine sort fuel decl) (Parser.routine sort limit decl') := by
  refine .expectThen fun name m hm => .expectThen fun _ k hk => (Follows.nextIs _).bind fun b j _ hj => ?_
  have hrest (params : List Lexeme) (i : Nat) (hi : i < n) : Follows i
      (do
        let _ ← Reader.expect .rightParen .parametersEnd
        let _ ← Reader.expect .leftBrace (.bodyStart sort)
        return FunDecl.mk name params (← Reader.block fuel decl))
      (do
        let _ ← Parser.expect .rightParen .parametersEnd
        let _ ← Parser.expect .leftBrace (.bodyStart sort)
        return FunDecl.mk name params (← Parser.block limit decl')) fun _ l => l < n :=
    .expectThen fun _ _ _ => .expectThen fun _ l _ =>
      (block_follows h hfuel hlimit l (by omega)).bind fun _ _ _ _ => .pure (by omega)
  match b with
  | true => exact hrest [] j (by omega)
  | false =>
      have hname : FollowsTo n (Reader.expect .identifier .parameterName) (Parser.expect .identifier .parameterName) :=
        fun m _ => (Follows.expect _ _).imp fun _ _ _ _ => trivial
      exact (commaSeparated_follows .tooManyParameters hname hfuel hlimit j (by omega)).bind
        fun params i _ _ => hrest params i (by omega)

theorem classDeclaration_follows (h : DeclaresBelow n decl decl') (hfuel : n < fuel) (hlimit : n ≤ limit) :
    FollowsTaking n (classDeclaration fuel decl) (Parser.classDeclaration limit decl') := by
  refine .expectThen fun name m hm => (Follows.accept .less).bind fun b k hk _ => ?_
  have hrest (superclass : Option (Reference Unit)) (j : Nat) (hj : j < n) : Follows j
      (do
        let _ ← Reader.expect .leftBrace .classBodyStart
        let methods ← Reader.loop (fun methods => do
          if (← Reader.nextIs .rightBrace) || (← Reader.atEnd) then return none
          else return some ((← Reader.routine .method fuel decl) :: methods)) fuel []
        let _ ← Reader.expect .rightBrace .classBodyEnd
        return Stmt.cls name superclass methods.reverse)
      (do
        let _ ← Parser.expect .leftBrace .classBodyStart
        let methods ← Parser.loop (fun methods => do
          if (← Parser.nextIs .rightBrace) || (← Parser.atEnd) then return none
          else return some ((← Parser.routine .method limit decl') :: methods)) limit []
        let _ ← Parser.expect .rightBrace .classBodyEnd
        return Stmt.cls name superclass methods.reverse) fun _ l => l < n := by
    refine .expectThen fun _ i hi => ?_
    have hmethod (l : Nat) (hl : l ≤ i) (_ : l ≠ 0) :
        FollowsTaking l (Reader.routine .method fuel decl) (Parser.routine .method limit decl') :=
      routine_follows .method (fun m hm => h m (by omega)) (by omega) (by omega)
    exact (upToBrace_follows List.cons hmethod (by omega) (by omega) i (Nat.le_refl i)).bind
      fun _ _ _ _ => .expectThen fun _ _ _ => .pure (by omega)
  match b with
  | true => exact .expectThen fun lexeme j hj => hrest (some ⟨(), lexeme⟩) j (by omega)
  | false => exact hrest none k (by omega)

theorem forInitializer_follows (h : FollowsTo n expr expr') :
    FollowsTo n (forInitializer expr) (Parser.forInitializer expr') := by
  intro m hm
  refine (Follows.accept .semicolon).bind fun b k hk _ => ?_
  match b with
  | true => exact .pure trivial
  | false =>
  refine (Follows.accept (.keyword .var)).bind fun b j hj _ => ?_
  match b with
  | true => exact (variableDeclaration_follows (h.mono (by omega))).map _ fun _ _ _ _ => trivial
  | false => exact (expressionThen_follows _ (h.mono (by omega))).map _ fun _ _ _ _ => trivial

/-- Statements with fewer tokens than `n`. -/
def StatesBelow (n : Nat) (stmt : Reader PlainStmt) (stmt' : Parser PlainStmt) : Prop :=
  ∀ m < n, FollowsTaking m stmt stmt'

theorem forStatement_follows (he : FollowsTo n expr expr') (hs : StatesBelow n stmt stmt') :
    FollowsTaking n (forStatement expr stmt) (Parser.forStatement expr' stmt') := by
  refine .expectThen fun _ m hm => (forInitializer_follows he m (by omega)).bind fun start k hk _ => ?_
  refine (unlessNext_follows _ he k (by omega)).bind fun condition j hj _ => .expectThen fun _ i hi => ?_
  refine (unlessNext_follows _ he i (by omega)).bind fun step l hl _ => .expectThen fun _ o ho => ?_
  exact (hs o (by omega)).bind fun body p hp _ => .pure (by omega)

theorem ifStatement_follows (he : FollowsTo n expr expr') (hs : StatesBelow n stmt stmt') :
    FollowsTaking n (ifStatement expr stmt) (Parser.ifStatement expr' stmt') := by
  refine .expectThen fun _ m hm => (he m (by omega)).bind fun condition k hk _ => .expectThen fun _ j hj => ?_
  refine (hs j (by omega)).bind fun yes i hi _ => (Follows.accept (.keyword .else_)).bind fun b l hl _ => ?_
  match b with
  | true =>
      exact ((hs l (by omega)).map some (R := fun _ _ => True) fun _ _ _ _ => trivial).bind
        fun no o _ _ => .pure (by omega)
  | false => exact (Follows.pure (Q := fun _ _ => True) trivial).bind fun no o _ _ => .pure (by omega)

theorem whileStatement_follows (he : FollowsTo n expr expr') (hs : StatesBelow n stmt stmt') :
    FollowsTaking n (whileStatement expr stmt) (Parser.whileStatement expr' stmt') :=
  .expectThen fun _ m _ => (he m (by omega)).bind fun _ _ _ _ => .expectThen fun _ j _ =>
    (hs j (by omega)).bind fun _ _ _ _ => .pure (by omega)

theorem statementWith_follows (he : FollowsTo n (expression fuel) (Parser.expression limit))
    (hs : StatesBelow n stmt stmt') (hd : DeclaresBelow n decl decl') (hfuel : n < fuel) (hlimit : n ≤ limit) :
    FollowsTaking n (statementWith fuel stmt decl) (Parser.statementWith limit stmt' decl') := by
  refine (Follows.accept _).bind fun b k _ haccepted => ?_
  match b with
  | true =>
      have haccepted : k + 1 = n := haccepted
      exact (forStatement_follows (he.mono (by omega)) fun m hm => hs m (by omega)).imp fun _ _ _ _ => by omega
  | false =>
  obtain rfl : k = n := haccepted
  refine (Follows.accept _).bind fun b j _ haccepted => ?_
  match b with
  | true =>
      have haccepted : j + 1 = k := haccepted
      exact (ifStatement_follows (he.mono (by omega)) fun m hm => hs m (by omega)).imp fun _ _ _ _ => by omega
  | false =>
  obtain rfl : j = k := haccepted
  refine (Follows.accept _).bind fun b i _ haccepted => ?_
  match b with
  | true =>
      have haccepted : i + 1 = j := haccepted
      exact (expressionThen_follows _ (he.mono (by omega))).map _ fun _ _ _ _ => by omega
  | false =>
  obtain rfl : i = j := haccepted
  refine (Follows.accept? _).bind fun o l _ htook => ?_
  match o with
  | some keyword =>
      have htook : l + 1 = i := htook
      exact (unlessNext_follows _ he l (by omega)).bind fun _ _ _ _ => .expectThen fun _ _ _ => .pure (by omega)
  | none =>
  obtain rfl : l = i := htook
  refine (Follows.accept _).bind fun b k _ haccepted => ?_
  match b with
  | true =>
      have haccepted : k + 1 = l := haccepted
      exact (whileStatement_follows (he.mono (by omega)) fun m hm => hs m (by omega)).imp fun _ _ _ _ => by omega
  | false =>
  obtain rfl : k = l := haccepted
  refine (Follows.accept _).bind fun b j _ haccepted => ?_
  match b with
  | true =>
      have haccepted : j + 1 = k := haccepted
      exact (block_follows hd hfuel hlimit j (by omega)).map _ fun _ _ _ _ => by omega
  | false =>
      obtain rfl : j = k := haccepted
      exact (expressionThen_follows _ he).map _ fun _ _ _ _ => by omega

theorem declarationWith_follows (he : FollowsTo n (expression fuel) (Parser.expression limit))
    (hs : FollowsTaking n stmt stmt') (hd : DeclaresBelow n decl decl') (hfuel : n < fuel) (hlimit : n ≤ limit) :
    FollowsTaking n (declarationWith fuel stmt decl) (Parser.declarationWith limit stmt' decl') := by
  refine (Follows.accept _).bind fun b k _ haccepted => ?_
  match b with
  | true =>
      have haccepted : k + 1 = n := haccepted
      exact (classDeclaration_follows (fun m hm => hd m (by omega)) (by omega) (by omega)).imp fun _ _ _ _ => by omega
  | false =>
  obtain rfl : k = n := haccepted
  refine (Follows.accept _).bind fun b j _ haccepted => ?_
  match b with
  | true =>
      have haccepted : j + 1 = k := haccepted
      exact (routine_follows .function (fun m hm => hd m (by omega)) (by omega) (by omega)).map _
        fun _ _ _ _ => by omega
  | false =>
  obtain rfl : j = k := haccepted
  refine (Follows.accept _).bind fun b i _ haccepted => ?_
  match b with
  | true =>
      have haccepted : i + 1 = j := haccepted
      exact (variableDeclaration_follows (he.mono (by omega))).imp fun _ _ _ _ => by omega
  | false =>
      obtain rfl : i = j := haccepted
      exact hs

/-! ### Recovery -/

section recovery

variable {w : Scene} {s : State} {c : Cursor} {t : Token} {rest : List Token}

/-- After a token has been taken, the reader skips as the parser does. -/
theorem skip_follows {endLine : Nat} {errors : List ParseError} (h : Stands w s ⟨rest, endLine, errors⟩)
    (ht : w.tokens[s.position - 1]? = some t) {fuel : Nat} (hfuel : rest.length < fuel) :
    ∃ s', skip fuel w.tokens s = .ok () s' ∧ Stands w s' ⟨Parser.skipAfter t rest, endLine, errors⟩ := by
  induction rest generalizing s t fuel with
  | nil =>
      obtain ⟨fuel, rfl⟩ : ∃ f, fuel = f + 1 := ⟨fuel - 1, by omega⟩
      unfold skip
      rw [bind_ok (atEnd_eq h)]
      exact ⟨_, rfl, h.looked⟩
  | cons u rest ih =>
      obtain ⟨fuel, rfl⟩ : ∃ f, fuel = f + 1 := ⟨fuel - 1, by omega⟩
      have hprevious : previous w.tokens s.looked = .ok t s.looked.looked := look_eq ht s.looked
      have hpeek : peek w.tokens s.looked.looked = .ok u _ := peek_eq h.looked.looked
      have hadvance := advance_cons h.looked.looked.looked rfl
      have hu : w.tokens[s.looked.looked.looked.advanced.position - 1]? = some u := (h.cons rfl).2.1
      unfold skip Parser.skipAfter
      rw [bind_ok (atEnd_eq h), List.isEmpty_cons, if_neg Bool.false_ne_true, bind_ok hprevious]
      by_cases hsemi : t.kind = .semicolon
      · rw [if_pos hsemi, decide_eq_true hsemi, Bool.true_or, if_pos rfl]
        exact ⟨_, rfl, h.looked.looked⟩
      rw [if_neg hsemi, decide_eq_false hsemi, Bool.false_or, bind_ok hpeek]
      by_cases hstarts : Parser.startsStatement u.kind = true
      · rw [if_pos hstarts, if_pos hstarts]
        exact ⟨_, rfl, h.looked.looked.looked⟩
      · rw [if_neg hstarts, if_neg hstarts, bind_ok hadvance]
        exact ih (h.looked.looked.looked.advanced rfl) hu (Nat.lt_of_succ_lt_succ hfuel)

theorem skipAfter_length (t : Token) (rest : List Token) : (Parser.skipAfter t rest).length ≤ rest.length := by
  induction rest generalizing t with
  | nil => exact Nat.le_refl _
  | cons u rest ih =>
      rw [Parser.skipAfter]
      split
      · exact Nat.le_refl _
      · exact Nat.le_succ_of_le (ih u)

/-- Unless it is at the end, the parser drops a token when it recovers. -/
theorem synchronize_length (c : Cursor) :
    (Parser.synchronize c).rest.length ≤ c.rest.length ∧
      (c.rest ≠ [] → (Parser.synchronize c).rest.length < c.rest.length) := by
  obtain ⟨rest, endLine, errors⟩ := c
  cases rest with
  | nil => exact ⟨Nat.le_refl _, fun h => absurd rfl h⟩
  | cons t rest =>
      have hle := skipAfter_length t rest
      exact ⟨Nat.le_succ_of_le hle, fun _ => Nat.lt_succ_of_le hle⟩

theorem synchronize_follows (h : Stands w s c) {fuel : Nat} (hfuel : c.rest.length < fuel) :
    ∃ s', synchronize fuel w.tokens s = .ok () s' ∧ Stands w s' (Parser.synchronize c) := by
  obtain ⟨rest, endLine, errors⟩ := c
  unfold synchronize
  cases rest with
  | nil =>
      obtain ⟨fuel, rfl⟩ : ∃ f, fuel = f + 1 := ⟨fuel - 1, by omega⟩
      obtain ⟨t, ht⟩ := advance_nil h rfl
      rw [bind_ok ht]
      unfold skip
      rw [bind_ok (atEnd_eq h.looked.looked)]
      exact ⟨_, rfl, h.looked.looked.looked⟩
  | cons t rest =>
      rw [bind_ok (advance_cons h rfl)]
      exact skip_follows (h.advanced rfl) (h.cons rfl).2.1 (Nat.lt_of_succ_lt hfuel)

end recovery

/-- A declaration that is not at the end takes a token, faulty or not. -/
theorem recovering_follows {α : Type} {r : Reader α} {p : Parser α} (h : FollowsTaking n r p) (hn : n ≠ 0)
    (hfuel : n < fuel) : FollowsTaking n (recovering fuel r) (Parser.recovering p) := by
  intro w s c hs hc
  have hrun := h w s c hs hc
  unfold recovering Parser.recovering
  revert hrun
  generalize r w.tokens s = x
  generalize p c = y
  intro hrun
  cases hrun with
  | ok hs' hle hlt => exact .ok hs' hle hlt
  | @fault e s' c' hs' hle =>
      obtain ⟨s'', hrun, hs''⟩ := synchronize_follows (hs'.report e) (Nat.lt_of_le_of_lt hle hfuel)
      obtain ⟨hle', hlt⟩ := synchronize_length (c'.report e)
      dsimp only
      have hreport : Reader.report e w.tokens s' = .ok () { s' with errors := s'.errors ++ [e] } := rfl
      rw [bind_ok hreport, bind_ok hrun]
      refine .ok hs'' (Nat.le_trans hle' hle) ?_
      by_cases hempty : c'.rest = []
      · have hzero : (c'.report e).rest.length = 0 := congrArg List.length hempty
        omega
      · exact Nat.lt_of_lt_of_le (hlt hempty) hle

/-- The record of a declaration says that it took a token. -/
theorem recorded_follows {α : Type} {r : Reader α} {p : Parser α} (h : FollowsTaking n r p) :
    FollowsTaking n (recorded r) p := by
  intro w s c hs hc
  have hrun := h w s c hs hc
  have hrecorded : recorded r w.tokens s = (r >>= fun a => (do
      modify fun t => { t with declared := (s.position, t.position) :: t.declared }
      return a : Reader α)) w.tokens s := rfl
  rw [hrecorded]
  cases hr : r w.tokens s with
  | ok a s' =>
      rw [bind_ok hr]
      rw [hr] at hrun
      generalize p c = y at hrun ⊢
      cases hrun with
      | ok hs' hle hlt =>
          refine .ok (s := { s' with declared := (s.position, s'.position) :: s'.declared }) ?_ hle hlt
          refine { hs' with declared := List.forall_mem_cons.mpr ⟨?_, hs'.declared⟩ }
          have hlen := hs.length
          have hlen' := hs'.length
          change s.position < s'.position
          omega
  | error e s' =>
      rw [bind_error hr]
      rwa [hr] at hrun

/-! ### The knot -/

/-- Fuel and depth that suffice for statements and declarations of so many tokens. -/
theorem statement_declaration_follow (n : Nat) :
    (∀ fuel depth, 2 * n + 2 < fuel → 2 ≤ depth → 2 * n + 1 ≤ depth →
      FollowsTaking n (statement fuel) (Parser.statement depth)) ∧
    (n ≠ 0 → ∀ fuel depth, 2 * n + 3 < fuel → 2 * n + 2 ≤ depth →
      FollowsTaking n (declaration fuel) (Parser.declaration depth)) := by
  induction n using Nat.strongRecOn with
  | ind n ih =>
    have hstatement (fuel depth : Nat) (hfuel : 2 * n + 2 < fuel) (hdepth : 2 ≤ depth) (hdepth' : 2 * n + 1 ≤ depth) :
        FollowsTaking n (statement fuel) (Parser.statement depth) := by
      obtain ⟨fuel, rfl⟩ : ∃ f, fuel = f + 1 := ⟨fuel - 1, by omega⟩
      obtain ⟨depth, rfl⟩ : ∃ d, depth = d + 1 := ⟨depth - 1, by omega⟩
      rw [statement, Parser.statement_succ]
      refine statementWith_follows (expression_follows (by omega) (by omega)) (fun m hm => ?_) (fun m hm hne => ?_)
        (by omega) (by omega)
      · exact (ih m hm).1 fuel depth (by omega) (by omega) (by omega)
      · exact (ih m hm).2 hne fuel depth (by omega) (by omega)
    refine ⟨hstatement, fun hn fuel depth hfuel hdepth => ?_⟩
    obtain ⟨fuel, rfl⟩ : ∃ f, fuel = f + 1 := ⟨fuel - 1, by omega⟩
    obtain ⟨depth, rfl⟩ : ∃ d, depth = d + 1 := ⟨depth - 1, by omega⟩
    rw [declaration, Parser.declaration_succ]
    refine recorded_follows (recovering_follows (declarationWith_follows (expression_follows (by omega) (by omega))
      (hstatement fuel depth (by omega) (by omega) (by omega)) (fun m hm hne => ?_) (by omega) (by omega)) hn (by omega))
    exact (ih m hm).2 hne fuel depth (by omega) (by omega)

/-- The rounds in which declarations are read up to the end. -/
theorem rounds_follow {depth : Nat} (hfuel : 2 * n + 3 < fuel) (hdepth : 2 * n + 2 ≤ depth) (hlimit : n ≤ limit) :
    Follows n
      (Reader.loop (fun body => do
        if ← Reader.atEnd then return none
        else return some ((← declaration fuel).toList ++ body)) fuel [])
      (Parser.loop (fun body => do
        if ← Parser.atEnd then return none
        else return some ((← Parser.declaration depth).toList ++ body)) limit []) fun _ _ => True := by
  refine .loop (by omega) hlimit (fun m hm body => ?_) fun _ _ _ => rfl
  refine Follows.atEnd.bind fun b k _ hk => ?_
  match b with
  | true => exact .pure nofun
  | false =>
      have hne : k ≠ 0 := fun h0 => Bool.false_ne_true (hk.2.mpr (hk.1 ▸ h0))
      exact ((statement_declaration_follow k).2 hne fuel depth (by omega) (by omega)).bind
        fun _ j _ hj => .pure fun _ => by omega

/-- A reader with enough fuel follows the parser that reads declarations up to the end. -/
theorem declarations_follow {depth : Nat} (hfuel : 2 * n + 3 < fuel) (hdepth : 2 * n + 2 ≤ depth) :
    Follows n (declarations fuel) (Parser.declarations depth) fun _ _ => True :=
  (rounds_follow hfuel hdepth (by omega)).bind fun _ _ _ _ => .pure trivial

/-- A reader with enough fuel follows the parser that reads one expression. -/
theorem soleExpression_follows {depth : Nat} (hfuel : n + 1 < fuel) (hdepth : n < depth) :
    Follows n (soleExpression fuel) (Parser.soleExpression depth) fun _ _ => True := by
  refine (expression_follows hfuel hdepth n (Nat.le_refl n)).bind fun e m _ _ => Follows.atEnd.bind fun b k _ _ => ?_
  match b with
  | true => exact .pure trivial
  | false => exact .fail _

end statements

end Reader

end Lox
