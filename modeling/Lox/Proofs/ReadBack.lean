import Lox.Proofs.Doubles
import Lox.Proofs.Ladder
import Lox.Proofs.Printing
import Lox.Proofs.Respelling
import Lox.Proofs.Rounding
import Lox.Proofs.Spacing
import Lox.Syntax.Printer

/-! # Values that are read back

What a program prints for nothing, a truth value or a finite number is an expression for the same value, and a
string between quotes is an expression for the string (`Session.values_read_back`).  The text of a finite number is
a number token, after a minus sign if the number has a sign: digits, and a point and digits if there is a fraction,
which are a decimal in the interval of the number (`exists_numeral`). -/

namespace Lox

namespace Decimal

/-! ### Digits -/

theorem digitsValue_eq (digits : List Char) : digitsValue digits = Nat.ofDigitChars 10 digits 0 :=
  Nat.ofDigitChars_eq_foldl.symm

theorem digitsValue_digitsOf (n : Nat) : digitsValue (digitsOf n) = n := by
  rw [digitsValue_eq]
  exact Nat.ofDigitChars_ten_toDigits

theorem digitsValue_append_zeros (digits : List Char) (zeros : Nat) :
    digitsValue (digits ++ List.replicate zeros '0') = digitsValue digits * Nat.pow 10 zeros := by
  rw [digitsValue_eq, digitsValue_eq, Nat.ofDigitChars_append, Nat.ofDigitChars_replicate_zero, Nat.mul_comm]
  rfl

theorem digitsValue_zeros_append (zeros : Nat) (digits : List Char) :
    digitsValue (List.replicate zeros '0' ++ digits) = digitsValue digits := by
  rw [digitsValue_eq, digitsValue_eq, Nat.ofDigitChars_append, Nat.ofDigitChars_replicate_zero, Nat.mul_zero]

theorem isDigit_digitsOf {n : Nat} : ∀ c ∈ digitsOf n, c.isDigit := fun _ hc =>
  Nat.isDigit_of_mem_toDigits (by decide) (by decide) hc

theorem isDigit_zeros (zeros : Nat) : ∀ c ∈ List.replicate zeros '0', c.isDigit := fun c hc => by
  rw [List.eq_of_mem_replicate hc]
  decide

theorem digitsOf_ne_nil (n : Nat) : digitsOf n ≠ [] := Nat.toDigits_ne_nil

theorem forall_isDigit_append {xs ys : List Char} (hx : ∀ c ∈ xs, c.isDigit) (hy : ∀ c ∈ ys, c.isDigit) :
    ∀ c ∈ xs ++ ys, c.isDigit := List.forall_mem_append.mpr ⟨hx, hy⟩

/-! ### Numerals of a double -/

section numerals

variable {bits : Nat}

theorem Interval.Holds.scale {i : Interval} {num den : Nat} (h : i.Holds num den) (k : Nat) :
    i.Holds (num * k) (den * k) := by
  obtain ⟨n, hn, heq⟩ := h
  exact ⟨n, hn, by rw [Nat.mul_right_comm, heq, Nat.mul_assoc]⟩

/-- A point of a grid in an interval, with zeros or with decimal places. -/
theorem Interval.holds_of_grid {i : Interval} {digits grid : Nat} (zeros k : Nat)
    (h : i.contains (digits * Nat.pow 10 grid) = true) (hk : zeros + 1076 = grid + k) :
    i.Holds (digits * Nat.pow 10 zeros) (Nat.pow 10 k) := by
  refine ⟨_, h, ?_⟩
  generalize 1076 = units at hk ⊢
  simp only [Nat.pow_eq]
  rw [Nat.mul_assoc, ← Nat.pow_add, hk, Nat.pow_add, Nat.mul_assoc]

/-- Digits are read as the double in whose interval they are. -/
theorem ofDigits_eq (hbits : bits < infinityBits) {whole fraction : List Char}
    (h : (Magnitude.ofBits bits).interval.Holds (digitsValue (whole ++ fraction)) (Nat.pow 10 fraction.length)) :
    ofDigits whole fraction = Float.ofBits (UInt64.ofNat bits) := by
  have hden : 0 < Nat.pow 10 fraction.length := Nat.pow_pos (by decide)
  unfold ofDigits nearest
  rw [nearestBits_of_holds hbits hden h]

/-- A whole number in the interval of a double, in digits, is a numeral of the double. -/
theorem isLexeme_digits (hbits : bits < infinityBits) {digits : List Char} (hne : digits ≠ [])
    (hdigits : ∀ c ∈ digits, c.isDigit) (h : (Magnitude.ofBits bits).interval.Holds (digitsValue digits) 1) :
    IsLexeme digits (.number (Float.ofBits (UInt64.ofNat bits))) := by
  have hread : ofDigits digits [] = Float.ofBits (UInt64.ofNat bits) := ofDigits_eq hbits (by simpa using h)
  exact hread ▸ .whole hne hdigits

/-- A number without fraction is a numeral in all its digits, also with one decimal place. -/
theorem isLexeme_whole (hbits : bits < infinityBits) {n : Nat} (h : (Magnitude.ofBits bits).whole? = some n) :
    IsLexeme (digitsOf n) (.number (Float.ofBits (UInt64.ofNat bits))) ∧
      IsLexeme (digitsOf n ++ ".0".toList) (.number (Float.ofBits (UInt64.ofNat bits))) := by
  have hholds := whole?_holds h
  have hread : ofDigits (digitsOf n) ['0'] = Float.ofBits (UInt64.ofNat bits) := by
    have hvalue : digitsValue (digitsOf n ++ ['0']) = digitsValue (digitsOf n) * 10 :=
      digitsValue_append_zeros (digitsOf n) 1
    rw [digitsValue_digitsOf] at hvalue
    exact ofDigits_eq hbits (hvalue ▸ hholds.scale 10)
  have hdecimal : IsLexeme (digitsOf n ++ ['.', '0']) (.number (ofDigits (digitsOf n) ['0'])) :=
    .decimal (digitsOf_ne_nil n) (List.cons_ne_nil _ _) isDigit_digitsOf (isDigit_zeros 1)
  rw [hread] at hdecimal
  exact ⟨isLexeme_digits hbits (digitsOf_ne_nil n) isDigit_digitsOf ((digitsValue_digitsOf n).symm ▸ hholds), hdecimal⟩

/-- Digits with a point among them are a numeral of the double in whose interval they are. -/
theorem isLexeme_withPoint (hbits : bits < infinityBits) {digits : List Char} (hdigits : ∀ c ∈ digits, c.isDigit)
    (places : Nat) (h : (Magnitude.ofBits bits).interval.Holds (digitsValue digits) (Nat.pow 10 (places + 1))) :
    IsLexeme (withPoint digits (places + 1)) (.number (Float.ofBits (UInt64.ofNat bits))) := by
  unfold withPoint
  dsimp only
  have hpadded : ∀ c ∈ List.replicate (places + 1 + 1 - digits.length) '0' ++ digits, c.isDigit :=
    forall_isDigit_append (isDigit_zeros _) hdigits
  have hvalue := digitsValue_zeros_append (places + 1 + 1 - digits.length) digits
  have hlength : places + 1 < (List.replicate (places + 1 + 1 - digits.length) '0' ++ digits).length := by
    rw [List.length_append, List.length_replicate]
    omega
  generalize List.replicate (places + 1 + 1 - digits.length) '0' ++ digits = padded at hpadded hvalue hlength ⊢
  have hfraction : (padded.drop (padded.length - (places + 1))).length = places + 1 := by
    rw [List.length_drop]
    omega
  have hread : ofDigits (padded.take (padded.length - (places + 1))) (padded.drop (padded.length - (places + 1))) =
      Float.ofBits (UInt64.ofNat bits) := by
    refine ofDigits_eq hbits ?_
    rwa [List.take_append_drop, hvalue, hfraction]
  rw [← hread]
  refine .decimal ?_ ?_ (fun c hc => hpadded c (List.mem_of_mem_take hc))
    fun c hc => hpadded c (List.mem_of_mem_drop hc)
  · rw [ne_eq, ← List.length_eq_zero_iff, List.length_take]
    omega
  · rw [ne_eq, ← List.length_eq_zero_iff, hfraction]
    omega

/-- A numeral in the interval of a double, without exponent, is a numeral of the double. -/
theorem isLexeme_positional (hbits : bits < infinityBits) {n : Numeral} (h : n.In (Magnitude.ofBits bits).interval) :
    IsLexeme n.positional (.number (Float.ofBits (UInt64.ofNat bits))) := by
  obtain ⟨digits, power⟩ := n
  obtain ⟨grid, hpower, hgrid⟩ := h
  dsimp only at hpower hgrid
  unfold Numeral.positional
  cases power with
  | ofNat zeros =>
    refine isLexeme_digits hbits (List.append_ne_nil_of_left_ne_nil (digitsOf_ne_nil _) _)
      (forall_isDigit_append isDigit_digitsOf (isDigit_zeros zeros)) ?_
    rw [digitsValue_append_zeros, digitsValue_digitsOf]
    have hpower : (zeros : Int) = grid - 1076 := hpower
    exact Interval.holds_of_grid zeros 0 hgrid (by omega)
  | negSucc places =>
    have hpower : -((places : Int) + 1) = grid - 1076 := hpower
    have hholds : (Magnitude.ofBits bits).interval.Holds digits (Nat.pow 10 (places + 1)) :=
      Nat.mul_one digits ▸ Interval.holds_of_grid 0 (places + 1) hgrid (by omega)
    exact isLexeme_withPoint hbits isDigit_digitsOf places
      ((digitsValue_digitsOf digits).symm ▸ hholds)

theorem signed_false (text : List Char) : signed false text = text := rfl

/-- The text of a double without sign in a token is a numeral of it. -/
theorem isLexeme_literalText (hbits : bits < infinityBits) :
    IsLexeme (Number.literalText (Float.ofBits (UInt64.ofNat bits))).toList
      (.number (Float.ofBits (UInt64.ofNat bits))) := by
  unfold Number.literalText
  rw [classify_ofBits hbits]
  dsimp only
  split
  · rename_i n hwhole
    split
    · rw [String.toList_ofList, Bool.false_and, signed_false]
      exact (isLexeme_whole hbits hwhole).2
    · rw [String.toList_ofList, signed_false]
      exact isLexeme_positional hbits (shortest_in .up _)
  · rw [String.toList_ofList, signed_false]
    exact isLexeme_positional hbits (shortest_in .up _)

end numerals

/-- What is printed for a finite number: a numeral of its magnitude, with its sign before it. -/
theorem exists_numeral {x : Float} (h : x.isFinite = true) :
    ∃ negative bits numeral, x = double negative bits ∧
      Number.valueText x = String.ofList (signed negative numeral) ∧
      IsLexeme numeral (.number (Float.ofBits (UInt64.ofNat bits))) := by
  obtain ⟨negative, bits, hbits, hclass, hx⟩ := exists_double h
  unfold Number.valueText
  rw [hclass]
  dsimp only
  split
  · rename_i n hwhole
    exact ⟨negative, bits, _, hx, rfl, (isLexeme_whole hbits hwhole).1⟩
  · exact ⟨negative, bits, _, hx, rfl, isLexeme_positional hbits (shortest_in .up _)⟩

/-- The number of a numeral has no sign, and is infinity at most. -/
theorem exists_bits_le {text : List Char} {x : Float} (h : IsLexeme text (.number x)) :
    ∃ bits, bits ≤ infinityBits ∧ x = Float.ofBits (UInt64.ofNat bits) := by
  cases h with
  | operator hmem => simp [operators] at hmem
  | whole => exact ⟨_, Nat.min_le_left _ _, rfl⟩
  | decimal => exact ⟨_, Nat.min_le_left _ _, rfl⟩

theorem exists_bits {text : List Char} {x : Float} (h : IsLexeme text (.number x)) (hx : x.isFinite = true) :
    ∃ bits, bits < infinityBits ∧ x = Float.ofBits (UInt64.ofNat bits) := by
  obtain ⟨bits, hle, rfl⟩ := exists_bits_le h
  have hlt : bits < Nat.pow 2 63 := Nat.lt_of_le_of_lt hle (by decide +kernel)
  have hrest := isFinite_iff.mp hx
  rw [toNat_toBits_ofBits hle, Nat.mod_eq_of_lt hlt] at hrest
  exact ⟨bits, hrest, rfl⟩

end Decimal

/-! ### Lexemes alone -/

theorem IsLexeme.count_newline_number {text : List Char} {x : Float} (h : IsLexeme text (.number x)) :
    text.count '\n' = 0 := by
  have hdigits {digits : List Char} (hd : ∀ c ∈ digits, c.isDigit) : '\n' ∉ digits := fun hmem =>
    absurd (hd _ hmem) (by decide)
  refine List.count_eq_zero.mpr ?_
  cases h with
  | operator hmem => simp [operators] at hmem
  | whole _ hd => exact hdigits hd
  | decimal _ _ hw hf =>
    rw [List.mem_append, List.mem_cons]
    exact not_or.mpr ⟨hdigits hw, not_or.mpr ⟨by decide, hdigits hf⟩⟩

/-- A lexeme alone is one token. -/
theorem scan_lexeme {text : List Char} {kind : Kind} (h : IsLexeme text kind) :
    scan (String.ofList text) = [.ok ⟨⟨String.ofList text, 1 + text.count '\n'⟩, kind⟩,
      .ok (Token.eof (1 + text.count '\n'))] := by
  have hspans : spans (text ++ []) = ⟨text, .token kind⟩ :: spans [] := spans_lexeme h (by rintro _ ⟨⟩)
  rw [scan_eq, String.toList_ofList, ← List.append_nil text, hspans, List.append_nil, spans]
  rfl

/-- A numeral behind a minus sign is two tokens. -/
theorem scan_negative {text : List Char} {kind : Kind} (h : IsLexeme text kind) :
    scan (String.ofList ('-' :: text)) = [.ok ⟨⟨"-", 1⟩, .minus⟩,
      .ok ⟨⟨String.ofList text, 1 + text.count '\n'⟩, kind⟩, .ok (Token.eof (1 + text.count '\n'))] := by
  have hspans : spans (text ++ []) = ⟨text, .token kind⟩ :: spans [] := spans_lexeme h (by rintro _ ⟨⟩)
  have hminus : spans ('-' :: (text ++ [])) = ⟨['-'], .token .minus⟩ :: spans (text ++ []) := by rw [spans]; rfl
  rw [scan_eq, String.toList_ofList, ← List.append_nil text, hminus, hspans, List.append_nil, spans]
  rfl

/-- A text is read as the expression that its tokens are a text of. -/
theorem readExpression_of_scan {source : String} (ts : List Token) {line : Nat} {e : PlainExpr}
    (hscan : scan source = ts.map .ok ++ [.ok (Token.eof line)]) (hts : ∀ t ∈ ts, t.kind ≠ .eof)
    (h : ExprText .assignment ts e) : readExpression source = .ok e := by
  have htokens : tokensOf (scan source) = ts ++ [Token.eof line] := by
    rw [hscan]
    simp [tokensOf, Except.toOption, Function.comp_def]
  have hfaults : faultsOf (scan source) = [] := by
    rw [hscan]
    simp [faultsOf]
  have hparsed : parseExpression (tokensOf (scan source)) = .ok e := by
    refine parseExpression_complete ?_
    rwa [htokens, textOf_append hts rfl]
  unfold readExpression
  dsimp only
  rw [hparsed, hfaults]
  rfl

theorem IsLexeme.kind_ne_eof {text : List Char} {kind : Kind} (h : IsLexeme text kind) : kind ≠ .eof := by
  rintro rfl
  cases h with
  | operator hmem => simp [operators] at hmem

/-- A lexeme alone that is an expression by itself. -/
theorem readExpression_lexeme {text : List Char} {kind : Kind} (h : IsLexeme text kind) {e : PlainExpr}
    (he : ExprText .primary [⟨⟨String.ofList text, 1 + text.count '\n'⟩, kind⟩] e) :
    readExpression (String.ofList text) = .ok e := by
  have hscan := scan_lexeme h
  exact readExpression_of_scan [_] hscan (by simpa using h.kind_ne_eof) (he.looser (by decide))

/-- A literal alone. -/
theorem readExpression_literal {text : List Char} {kind : Kind} (h : IsLexeme text kind) {v : Literal}
    (hv : Parser.literalValue kind = some v) : readExpression (String.ofList text) = .ok (.literal () v) :=
  readExpression_lexeme h (.literal hv)

/-- A literal behind a minus sign. -/
theorem readExpression_negated {text : List Char} {kind : Kind} (h : IsLexeme text kind) {v : Literal}
    (hv : Parser.literalValue kind = some v) :
    readExpression (String.ofList ('-' :: text)) = .ok (.unary () .negate ⟨"-", 1⟩ (.literal () v)) := by
  have hne := h.kind_ne_eof
  have hscan := scan_negative h
  refine readExpression_of_scan [⟨⟨"-", 1⟩, .minus⟩, _] hscan (by simpa using hne) ?_
  exact ExprText.looser (.unary rfl (.looser (.literal hv) (by decide))) (by decide)

/-! ### Sessions -/

section sessions

variable {settings : Settings} {s : Session} {source : String}

theorem Session.learn_nil (m : Machine) : Session.learn m [] = m := by
  unfold learn
  rw [Std.HashMap.insertMany_nil]

/-- A literal is evaluated to its value, and nothing else happens. -/
theorem Session.evaluate_literal {v : Literal} (h : readExpression source = .ok (.literal () v))
    (hfuel : 1 ≤ settings.fuel) :
    s.evaluate settings source = (.done (.ofLiteral v), { s with nextNode := s.nextNode + 1 }) := by
  have ha : analyzeExpression s.nextNode source = .ok (⟨.literal s.nextNode v, []⟩, s.nextNode + 1) :=
    analyzeExpression_eq h s.nextNode
  obtain ⟨fuel, hfuel⟩ := Nat.exists_eq_add_of_le' hfuel
  unfold evaluate
  rw [ha, hfuel]
  dsimp only
  rw [learn_nil, eval_succ]
  rfl

/-- A number behind a minus sign is evaluated to its negation, and nothing else happens. -/
theorem Session.evaluate_negated {sign : Lexeme} {x : Float}
    (h : readExpression source = .ok (.unary () .negate sign (.literal () (.number x)))) (hfuel : 2 ≤ settings.fuel) :
    s.evaluate settings source = (.done (.number (-x)), { s with nextNode := s.nextNode + 2 }) := by
  have ha : analyzeExpression s.nextNode source =
      .ok (⟨.unary s.nextNode .negate sign (.literal (s.nextNode + 1) (.number x)), []⟩, s.nextNode + 2) :=
    analyzeExpression_eq h s.nextNode
  obtain ⟨fuel, hfuel⟩ := Nat.exists_eq_add_of_le' hfuel
  have hoperand (i : NodeId) (m : Machine) :
      eval settings (fuel + 1) (.literal i (.number x)) m = .ok (.number x) m := by
    rw [eval_succ]
    rfl
  have hnegated (i j : NodeId) (m : Machine) :
      eval settings (fuel + 2) (.unary i .negate sign (.literal j (.number x))) m = .ok (.number (-x)) m := by
    rw [eval_succ]
    exact bind_ok (hoperand j m)
  unfold evaluate
  rw [ha, hfuel]
  dsimp only
  rw [learn_nil, hnegated]

end sessions

/-- The values that are written down as they are printed: nothing, the truth values, and the finite numbers. -/
def Value.Writable : Value → Prop
  | .nil => True
  | .bool _ => True
  | .number x => x.isFinite = true
  | _ => False

section written

variable {settings : Settings} (s : Session)

/-- A finite number is read back, with its sign. -/
theorem Session.evaluate_valueText (hfuel : 2 ≤ settings.fuel) {x : Float} (hx : x.isFinite = true) :
    ∃ last, s.evaluate settings (Number.valueText x) = (.done (.number x), { s with nextNode := last }) := by
  obtain ⟨negative, bits, numeral, hdouble, htext, hnumeral⟩ := Decimal.exists_numeral hx
  rw [htext]
  cases negative with
  | false =>
    obtain rfl : x = Float.ofBits (UInt64.ofNat bits) := hdouble
    exact ⟨_, evaluate_literal (readExpression_literal hnumeral rfl) (Nat.le_of_succ_le hfuel)⟩
  | true =>
    obtain rfl : x = -Float.ofBits (UInt64.ofNat bits) := hdouble
    exact ⟨_, evaluate_negated (readExpression_negated hnumeral rfl) hfuel⟩

/-- A reserved word that stands for a value is evaluated to it. -/
theorem Session.evaluate_word (hfuel : 2 ≤ settings.fuel) (word : Keyword) {v : Literal}
    (hv : Parser.literalValue (.keyword word) = some v) :
    ∃ last, s.evaluate settings word.text = (.done (.ofLiteral v), { s with nextNode := last }) := by
  have hread := readExpression_literal (.keyword word) hv
  rw [String.ofList_toList] at hread
  exact ⟨_, evaluate_literal hread (Nat.le_of_succ_le hfuel)⟩

theorem Session.evaluate_writable (hfuel : 2 ≤ settings.fuel) {v : Value} (hv : v.Writable) :
    ∃ last, s.evaluate settings v.text = (.done v, { s with nextNode := last }) := by
  cases v with
  | nil => exact s.evaluate_word hfuel .nil rfl
  | bool b =>
    cases b with
    | true => exact s.evaluate_word hfuel .true rfl
    | false => exact s.evaluate_word hfuel .false rfl
  | number x => exact s.evaluate_valueText hfuel hv
  | _ => exact absurd hv id

/-- A string without quotes is read back between quotes. -/
theorem Session.evaluate_quoted (hfuel : 2 ≤ settings.fuel) {text : String} (h : '"' ∉ text.toList) :
    ∃ last, s.evaluate settings ("\"" ++ text ++ "\"") = (.done (.string text), { s with nextNode := last }) := by
  have hquoted : "\"" ++ text ++ "\"" = String.ofList ('"' :: (text.toList ++ ['"'])) := by
    rw [← String.toList_inj]
    simp
  have hread := readExpression_literal (.string h) rfl
  rw [← hquoted, String.ofList_toList] at hread
  exact ⟨_, evaluate_literal hread (Nat.le_of_succ_le hfuel)⟩

end written

/-- The text of a number token is by itself a token of the same number. -/
theorem scan_literalText {source : String} {t : Token} {x : Float} (ht : .ok t ∈ scan source)
    (hkind : t.kind = .number x) (hx : x.isFinite = true) :
    scan (Number.literalText x) = [.ok ⟨⟨Number.literalText x, 1⟩, .number x⟩, .ok (Token.eof 1)] := by
  have hmem : t ∈ tokensOf (scan source) := List.mem_filterMap.mpr ⟨_, ht, rfl⟩
  rw [tokensOf_scan, List.mem_append, List.mem_singleton] at hmem
  have htext : t ∈ textTokens source := by
    refine hmem.resolve_right ?_
    rintro rfl
    cases hkind
  have hlexeme := textTokens_isLexeme htext
  rw [hkind] at hlexeme
  obtain ⟨bits, hbits, rfl⟩ := Decimal.exists_bits hlexeme hx
  have hliteral := Decimal.isLexeme_literalText hbits
  have hscan := scan_lexeme hliteral
  rwa [hliteral.count_newline_number, String.ofList_toList] at hscan

/-- Printed values are read back, in any session, with fuel for a sign and a number.
* The text that is printed for nothing, for a truth value or for a finite number is an expression for this value,
  with the sign of the number, also of zero.
* A string without quotes, between quotes, is an expression for the string.
* The text of a finite number in a token, which is the one in a tree, is by itself a token of the same number. -/
theorem Session.values_read_back (settings : Settings) (hfuel : 2 ≤ settings.fuel) (s : Session) :
    (∀ v : Value, v.Writable →
      ∃ last, s.evaluate settings v.text = (.done v, { s with nextNode := last })) ∧
    (∀ text : String, '"' ∉ text.toList →
      ∃ last, s.evaluate settings ("\"" ++ text ++ "\"") = (.done (.string text), { s with nextNode := last })) ∧
    ∀ (source : String) (t : Token) (x : Float), .ok t ∈ scan source → t.kind = .number x → x.isFinite = true →
      (Expr.literal () (.number x)).render = t.kind.literal ∧
      scan t.kind.literal = [.ok ⟨⟨t.kind.literal, 1⟩, .number x⟩, .ok (Token.eof 1)] := by
  refine ⟨fun v hv => s.evaluate_writable hfuel hv, fun text htext => s.evaluate_quoted hfuel htext,
    fun source t x ht hkind hx => ?_⟩
  have hliteral : t.kind.literal = Number.literalText x := congrArg Kind.literal hkind
  rw [hliteral]
  exact ⟨rfl, scan_literalText ht hkind hx⟩

/-- Negative zero is read back from its text, which is not that of zero. -/
theorem Session.values_read_back_negative_zero :
    2 ≤ Settings.standard.fuel ∧ (Value.number (-0.0)).text = "-0" ∧
      ∃ last, (Session.start .unlimited).evaluate .standard "-0" =
        (.done (.number (-0.0)), { Session.start .unlimited with nextNode := last }) := by
  have hfuel : 2 ≤ Settings.standard.fuel := by decide
  have htext : (Value.number (-0.0)).text = "-0" := by decide +kernel
  have hfinite : (-0.0 : Float).isFinite = true := by decide +kernel
  refine ⟨hfuel, htext, ?_⟩
  rw [← htext]
  exact (values_read_back .standard hfuel (.start .unlimited)).1 (.number (-0.0)) hfinite

end Lox
