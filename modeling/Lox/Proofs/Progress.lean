import Lox.Proofs.Following
import Mathlib.Data.List.TakeWhile

/-! # Parsing any list of tokens

Whatever list of tokens is parsed, a reader that stands at a position among them comes to an end, with the result of
the parser.  It never looks beyond the last token, never moves back, and takes a token with every declaration
(`parse_safe`).  How deep the parser may nest makes no difference, once it may nest as deep as the number of tokens asks
for (`Parser.declarations_depth`), and what comes after the first end-of-file token is never looked at. -/

namespace Lox

namespace Reader

variable {α : Type}

/-- What a reader yields from a list of tokens, and where it then stands: a result, or all the faults it found; or
nothing, when it has looked beyond the end of the list or its fuel has run out. -/
def read (r : Reader α) (tokens : List Token) : Option (Except (List ParseError) α × State) :=
  match r (closed tokens) start with
  | .ok a s => some (if s.errors.isEmpty then .ok a else .error s.errors, s)
  | .error (.fault e) s => some (.error (s.errors ++ [e]), s)
  | .error .outOfRange _ => none
  | .error .exhausted _ => none

/-- The record of a reader of a list of tokens: all its positions are within the list, each is where the one before it
was or further on, and with every declaration a token was taken. -/
structure State.Safe (tokens : List Token) (s : State) : Prop where
  inRange : ∀ i ∈ s.position :: s.looks, i < tokens.length
  forward : (s.position :: s.looks).Pairwise (· ≥ ·)
  declared : ∀ d ∈ s.declared, d.1 < d.2

/-! ### Scenes -/

/-- Tokens before an end-of-file token, whatever comes after it. -/
def sceneOf (tokens : List Token) (eof : Token) (more : List Token) (earlier : List ParseError)
    (h : ∀ t ∈ tokens, t.kind ≠ .eof) (he : eof.kind = .eof) : Scene where
  tokens := tokens ++ eof :: more
  stop := tokens.length
  eof := eof
  earlier := earlier
  atStop := by simp
  isEnd := he
  noEnd := by simpa using h

theorem stands_start {tokens : List Token} {eof : Token} (more : List Token) (earlier : List ParseError)
    (h : ∀ t ∈ tokens, t.kind ≠ .eof) (he : eof.kind = .eof) :
    Stands (sceneOf tokens eof more earlier h he) start ⟨tokens, eof.line, earlier⟩ where
  rest := by simp [sceneOf, start]
  le := Nat.zero_le _
  endLine := rfl
  errors := (List.append_nil _).symm
  forward := List.pairwise_singleton _ _
  declared := nofun

namespace Stands

variable {w : Scene} {s : State} {c c' : Cursor}

theorem unique (h : Stands w s c) (h' : Stands w s c') : c' = c := by
  obtain ⟨rest, endLine, errors⟩ := c
  obtain ⟨rest', endLine', errors'⟩ := c'
  obtain rfl : rest' = rest := h'.rest.trans h.rest.symm
  obtain rfl : endLine' = endLine := h'.endLine.trans h.endLine.symm
  obtain rfl : errors' = errors := h'.errors.trans h.errors.symm
  rfl

theorem safe (h : Stands w s c) : s.Safe w.tokens where
  inRange i hi := by
    refine Nat.lt_of_le_of_lt ?_ (Scene.stop_lt w)
    rcases List.mem_cons.mp hi with rfl | hi
    · exact h.le
    · exact Nat.le_trans ((List.pairwise_cons.mp h.forward).1 i hi) h.le
  forward := h.forward
  declared := h.declared

end Stands

theorem Alike.unique {w : Scene} {n : Nat} {Q Q' : α → Nat → Prop} {x : EStateM.Result Exit State α}
    {y y' : EStateM.Result ParseError Cursor α} (h : Alike w n Q x y) (h' : Alike w n Q' x y') : y' = y := by
  cases h with
  | ok hs => cases h' with
    | ok hs' => rw [hs.unique hs']
  | fault hs => cases h' with
    | fault hs' => rw [hs.unique hs']

/-- Parsers that a reader follows do the same. -/
theorem Follows.unique {n : Nat} {r : Reader α} {p p' : Parser α} {Q Q' : α → Nat → Prop} (h : Follows n r p Q)
    (h' : Follows n r p' Q') {c : Cursor} (hc : ∀ t ∈ c.rest, t.kind ≠ .eof) (hn : c.rest.length = n) :
    p' c = p c := by
  have hs : Stands (sceneOf c.rest (Token.eof c.endLine) [] c.errors hc rfl) start c := stands_start [] c.errors hc rfl
  exact (h _ _ _ hs hn).unique (h' _ _ _ hs hn)

end Reader

/-! ### Faults found before -/

/-- What is left to read, with faults found before. -/
def Cursor.after (earlier : List ParseError) (c : Cursor) : Cursor := { c with errors := earlier ++ c.errors }

/-- A result of a parser, with faults found before. -/
def Parser.resultAfter {α : Type} (earlier : List ParseError) :
    EStateM.Result ParseError Cursor α → EStateM.Result ParseError Cursor α
  | .ok a c => .ok a (c.after earlier)
  | .error e c => .error e (c.after earlier)

namespace Reader

variable {α : Type} {w : Scene}

/-- Tokens that are read after more faults. -/
def sceneAfter (earlier : List ParseError) (w : Scene) : Scene := { w with earlier := earlier ++ w.earlier }

theorem Stands.after {s : State} {c : Cursor} (h : Stands w s c) (earlier : List ParseError) :
    Stands (sceneAfter earlier w) s (c.after earlier) where
  rest := h.rest
  le := h.le
  endLine := h.endLine
  errors := (congrArg (earlier ++ ·) h.errors).trans (List.append_assoc _ _ _).symm
  forward := h.forward
  declared := h.declared

theorem Alike.after {n : Nat} {Q : α → Nat → Prop} {x : EStateM.Result Exit State α}
    {y : EStateM.Result ParseError Cursor α} (h : Alike w n Q x y) (earlier : List ParseError) :
    Alike (sceneAfter earlier w) n Q x (Parser.resultAfter earlier y) := by
  cases h with
  | ok hs hle hq => exact .ok (hs.after earlier) hle hq
  | fault hs hle => exact .fault (hs.after earlier) hle

/-- A parser that a reader follows does the same after other faults. -/
theorem Follows.after {n : Nat} {r : Reader α} {p : Parser α} {Q : α → Nat → Prop} (h : Follows n r p Q) {c : Cursor}
    (hc : ∀ t ∈ c.rest, t.kind ≠ .eof) (hn : c.rest.length = n) (earlier : List ParseError) :
    p (c.after earlier) = Parser.resultAfter earlier (p c) := by
  have hs : Stands (sceneOf c.rest (Token.eof c.endLine) [] c.errors hc rfl) start c := stands_start [] c.errors hc rfl
  have hrun := (h _ _ _ hs hn).after earlier
  exact hrun.unique (h _ _ _ (hs.after earlier) hn)

end Reader

/-! ### Depth -/

namespace Parser

variable {c : Cursor} {depth depth' : Nat}

/-- Two parsers that may nest as deep as the number of tokens asks for read the same declaration. -/
theorem declaration_depth (hne : c.rest ≠ []) (hc : ∀ t ∈ c.rest, t.kind ≠ .eof) (hd : 2 * c.rest.length + 2 ≤ depth)
    (hd' : 2 * c.rest.length + 2 ≤ depth') : declaration depth' c = declaration depth c := by
  have hfollow := (Reader.statement_declaration_follow c.rest.length).2 fun h => hne (List.eq_nil_of_length_eq_zero h)
  exact (hfollow _ depth (Nat.lt_succ_self _) hd).unique (hfollow _ depth' (Nat.lt_succ_self _) hd') hc rfl

/-- Two parsers that may nest as deep as the number of tokens asks for read the same declarations. -/
theorem declarations_depth (hc : ∀ t ∈ c.rest, t.kind ≠ .eof) (hd : 2 * c.rest.length + 2 ≤ depth)
    (hd' : 2 * c.rest.length + 2 ≤ depth') : declarations depth' c = declarations depth c :=
  (Reader.declarations_follow (Nat.lt_succ_self _) hd).unique (Reader.declarations_follow (Nat.lt_succ_self _) hd')
    hc rfl

/-- Two parsers that may nest as deep as the number of tokens asks for read the same expression. -/
theorem soleExpression_depth (hc : ∀ t ∈ c.rest, t.kind ≠ .eof) (hd : c.rest.length < depth)
    (hd' : c.rest.length < depth') : soleExpression depth' c = soleExpression depth c :=
  (Reader.soleExpression_follows (Nat.lt_succ_self _) hd).unique
    (Reader.soleExpression_follows (Nat.lt_succ_self _) hd') hc rfl

end Parser

/-! ### Lists of tokens -/

theorem textOf_noEnd (tokens : List Token) : ∀ t ∈ textOf tokens, t.kind ≠ .eof := fun t ht => by
  simpa using List.mem_takeWhile_imp ht

theorem textOf_closed {ts : List Token} (h : ∀ t ∈ ts, t.kind ≠ .eof) {eof : Token} (he : eof.kind = .eof)
    (more : List Token) : textOf (ts ++ eof :: more) = ts := by
  unfold textOf
  rw [List.takeWhile_append_of_pos fun t ht => by simpa using h t ht, List.takeWhile_cons_of_neg (by simp [he]),
    List.append_nil]

/-- In a closed list, the text is followed by an end-of-file token, on the line on which the parser ends. -/
theorem closed_eq (tokens : List Token) : ∃ eof more, closed tokens = textOf tokens ++ eof :: more ∧ eof.kind = .eof ∧
    eof.line = (Cursor.ofTokens tokens).endLine := by
  have hsplit : textOf tokens ++ tokens.dropWhile (·.kind ≠ .eof) = tokens := List.takeWhile_append_dropWhile
  unfold Cursor.ofTokens
  dsimp only
  cases hdrop : tokens.dropWhile (·.kind ≠ .eof) with
  | cons eof more =>
      have heof : eof.kind = .eof := by
        have hhead := List.head?_dropWhile_not (fun t : Token => decide (t.kind ≠ .eof)) tokens
        rw [hdrop] at hhead
        simpa using hhead
      rw [hdrop] at hsplit
      unfold closed
      cases hlast : tokens.getLast? with
      | none =>
          rw [List.getLast?_eq_none_iff.mp hlast] at hdrop
          cases hdrop
      | some last =>
          dsimp only
          split
          · exact ⟨eof, more, hsplit.symm, heof, rfl⟩
          · refine ⟨eof, more ++ [Token.eof last.line], ?_, heof, rfl⟩
            rw [← List.cons_append, ← List.append_assoc, hsplit]
  | nil =>
      rw [hdrop, List.append_nil] at hsplit
      unfold closed
      cases hlast : tokens.getLast? with
      | none =>
          rw [List.getLast?_eq_none_iff.mp hlast]
          exact ⟨Token.eof 1, [], rfl, rfl, rfl⟩
      | some last =>
          have hne : last.kind ≠ .eof := textOf_noEnd tokens last (by rw [hsplit]; exact List.mem_of_getLast? hlast)
          dsimp only
          rw [if_neg hne, hsplit]
          exact ⟨Token.eof last.line, [], rfl, rfl, rfl⟩

/-- The tokens up to and including the first end-of-file token, which is added where there is none. -/
def upToEnd (tokens : List Token) : List Token :=
  (closed tokens).takeWhile (·.kind ≠ .eof) ++ ((closed tokens).find? (·.kind = .eof)).toList

theorem textOf_length (tokens : List Token) : (textOf tokens).length ≤ tokens.length :=
  (List.takeWhile_sublist _).length_le

/-- The parser starts at the same place when what comes after the first end-of-file token is left out. -/
theorem ofTokens_upToEnd (tokens : List Token) : Cursor.ofTokens (upToEnd tokens) = Cursor.ofTokens tokens := by
  obtain ⟨eof, more, hclosed, heof, hline⟩ := closed_eq tokens
  have hne := textOf_noEnd tokens
  have hfind : (textOf tokens ++ eof :: more).find? (·.kind = .eof) = some eof := by
    rw [List.find?_append, List.find?_eq_none.mpr fun t ht => by simpa using hne t ht, Option.none_or,
      List.find?_cons_of_pos (by simpa using heof)]
  have hup : upToEnd tokens = textOf tokens ++ [eof] := by
    unfold upToEnd
    rw [hclosed, hfind]
    exact congrArg (· ++ [eof]) (textOf_closed hne heof more)
  have hdrop : (textOf tokens ++ [eof]).dropWhile (·.kind ≠ .eof) = [eof] := by
    rw [List.dropWhile_append_of_pos fun t ht => by simpa using hne t ht, List.dropWhile_cons_of_neg (by simp [heof])]
  have hrest : (Cursor.ofTokens (upToEnd tokens)).rest = (Cursor.ofTokens tokens).rest := by
    rw [hup]
    exact textOf_closed hne heof []
  have hend : (Cursor.ofTokens (upToEnd tokens)).endLine = (Cursor.ofTokens tokens).endLine := by
    rw [hup, ← hline]
    unfold Cursor.ofTokens
    dsimp only
    rw [hdrop]
  unfold Cursor.ofTokens at hrest hend ⊢
  exact Cursor.mk.injEq .. ▸ ⟨hrest, hend, rfl⟩

namespace Reader

variable {α : Type} {r : Reader α} {p : Parser α} {Q : α → Nat → Prop}

/-- A reader that follows a parser yields what the parser yields, safely. -/
theorem read_follows {tokens : List Token} (h : Follows (textOf tokens).length r p Q) :
    ∃ s, r.read tokens = some (runParser p tokens, s) ∧ s.Safe (closed tokens) := by
  obtain ⟨eof, more, hclosed, heof, hline⟩ := closed_eq tokens
  have hstands : Stands (sceneOf (textOf tokens) eof more [] (textOf_noEnd tokens) heof) start
      (Cursor.ofTokens tokens) := by
    have hstart := stands_start more [] (textOf_noEnd tokens) heof
    rwa [hline] at hstart
  have hrun : Alike _ _ Q (r (textOf tokens ++ eof :: more) start) _ := h _ _ _ hstands rfl
  unfold read runParser
  rw [hclosed]
  revert hrun
  generalize r (textOf tokens ++ eof :: more) start = x
  generalize p (Cursor.ofTokens tokens) = y
  intro hrun
  cases hrun with
  | @ok a s c hs =>
      have herrors : c.errors = s.errors := hs.errors
      dsimp only
      rw [herrors]
      exact ⟨s, rfl, hs.safe⟩
  | @fault e s c hs =>
      have herrors : c.errors = s.errors := hs.errors
      dsimp only
      rw [herrors]
      exact ⟨s, rfl, hs.safe⟩

end Reader

/-- Whatever the tokens, a reader with fuel enough for their number comes to the parser's result, for a program and for
an expression: it looks only at tokens of the list, never moves back, and takes a token with every declaration.  The
result depends only on the tokens up to and including the first end-of-file token. -/
theorem parse_safe (tokens : List Token) (extra : Nat) :
    (∃ s, (Reader.declarations (2 * (closed tokens).length + 2 + extra)).read tokens =
      some (parseProgram tokens, s) ∧ s.Safe (closed tokens)) ∧
    (∃ s, (Reader.soleExpression (2 * (closed tokens).length + 2 + extra)).read tokens =
      some (parseExpression tokens, s) ∧ s.Safe (closed tokens)) ∧
    parseProgram (upToEnd tokens) = parseProgram tokens ∧
    parseExpression (upToEnd tokens) = parseExpression tokens := by
  obtain ⟨eof, more, hclosed, -, -⟩ := closed_eq tokens
  have hlength : (textOf tokens).length < (closed tokens).length := by
    rw [hclosed, List.length_append, List.length_cons]
    omega
  have hdepth (ts : List Token) (h : Cursor.ofTokens ts = Cursor.ofTokens tokens) :
      2 * (textOf tokens).length + 2 ≤ Parser.depthFor ts := by
    have hle := textOf_length ts
    have htext : textOf ts = textOf tokens := congrArg Cursor.rest h
    rw [htext] at hle
    unfold Parser.depthFor
    omega
  have hsame := ofTokens_upToEnd tokens
  have hup := hdepth (upToEnd tokens) hsame
  have hall := hdepth tokens rfl
  refine ⟨?_, ?_, ?_, ?_⟩
  · exact Reader.read_follows (Reader.declarations_follow (by omega) hall)
  · exact Reader.read_follows (Reader.soleExpression_follows (by omega) (by omega))
  · unfold parseProgram runParser
    rw [hsame, Parser.declarations_depth (textOf_noEnd tokens) hall hup]
  · unfold parseExpression runParser
    have hnest {depth : Nat} (h : 2 * (textOf tokens).length + 2 ≤ depth) :
        (Cursor.ofTokens tokens).rest.length < depth := by
      change (textOf tokens).length < depth
      omega
    rw [hsame, Parser.soleExpression_depth (textOf_noEnd tokens) (hnest hall) (hnest hup)]

end Lox
