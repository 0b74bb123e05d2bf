import Mathlib
import Lox.Decimal.Notation

/-! # Decimals that round to a magnitude

The interval of a magnitude holds the decimals that read back as it: whatever is in the interval has the bits of
the magnitude nearest to it (`nearestBits_of_holds`), half way between two magnitudes and next to a power of two as
well.  The shortest decimal is in the interval (`shortest_holds`), and so is a magnitude without fraction
(`whole?_holds`). -/

namespace Lox.Decimal

/-! ### Nearest whole numbers -/

/-- A whole number is nearest to a quotient: no further away than a half, and nearer if it is odd. -/
structure Rounds (num den n : Nat) : Prop where
  lower : 2 * (n * den) ≤ 2 * num + den
  upper : 2 * num ≤ 2 * (n * den) + den
  odd : n % 2 = 1 → 2 * (n * den) < 2 * num + den ∧ 2 * num < 2 * (n * den) + den

/-- Rounding finds the nearest whole number. -/
theorem Rounds.roundDiv {num den n : Nat} (hden : 0 < den) (h : Rounds num den n) : roundDiv num den = n := by
  obtain ⟨hlower, hupper, hodd⟩ := h
  have hnum := Nat.div_add_mod num den
  have hrest := Nat.mod_lt num hden
  unfold Decimal.roundDiv
  generalize num / den = q at hnum ⊢
  generalize num % den = r at hnum hrest ⊢
  -- the quotient is rounded to itself or to the next number
  have hn : n = q ∨ n = q + 1 := by
    rcases Nat.lt_trichotomy n q with hlt | rfl | hgt
    · have := Nat.mul_le_mul_right den hlt
      rw [Nat.succ_mul n, Nat.mul_comm q] at this
      omega
    · exact .inl rfl
    · rcases Nat.lt_or_ge (q + 1) n with hgt | hle
      · have := Nat.mul_le_mul_right den hgt
        rw [Nat.succ_mul (q + 1), Nat.succ_mul q, Nat.mul_comm q] at this
        omega
      · exact .inr (Nat.le_antisymm hle hgt)
  rcases hn with rfl | rfl
  · rw [Nat.mul_comm n] at hlower hupper hodd
    dsimp only
    split
    · rfl
    split <;> omega
  · rw [Nat.succ_mul q, Nat.mul_comm q] at hlower hupper hodd
    dsimp only
    split
    · omega
    split <;> omega

/-! ### Nearest magnitudes -/

/-- The scale on which a value has fifty-three digits, or the least scale if it has fewer. -/
theorem scale_eq {units den s : Nat} (hden : 0 < den)
    (hlower : s = 0 ∨ Nat.pow 2 52 * (den * Nat.pow 2 s) ≤ units)
    (hupper : units < 2 * Nat.pow 2 52 * (den * Nat.pow 2 s)) : (units / den).log2 - 52 = s := by
  have hlt : units / den < 2 ^ (53 + s) := by
    rw [Nat.div_lt_iff_lt_mul hden, Nat.pow_add]
    exact Nat.lt_of_lt_of_eq hupper (by simp only [Nat.pow_eq]; ring)
  by_cases h0 : units / den = 0
  · rcases hlower with rfl | hlower
    · rw [h0, Nat.log2_zero]
    · have hone : den ≤ Nat.pow 2 52 * (den * Nat.pow 2 s) := by
        have := Nat.le_mul_of_pos_right den (Nat.two_pow_pos (52 + s))
        exact Nat.le_trans this (Nat.le_of_eq (by simp only [Nat.pow_eq, Nat.pow_add]; ring))
      exact absurd ((Nat.div_eq_zero_iff_lt hden).mp h0) (Nat.not_lt.mpr (hone.trans hlower))
  have hlog := (Nat.log2_lt h0).mpr hlt
  rcases hlower with rfl | hlower
  · omega
  · have hle : 2 ^ (52 + s) ≤ units / den := by
      rw [Nat.le_div_iff_mul_le hden, Nat.pow_add]
      exact Nat.le_trans (Nat.le_of_eq (by simp only [Nat.pow_eq]; ring)) hlower
    have := (Nat.le_log2 h0).mpr hle
    omega

/-- A value is rounded on the scale on which it has fifty-three digits. -/
theorem nearestBits_of_rounds {num den units : Nat} (hunits : num * Nat.pow 2 1074 = units) (hden : 0 < den)
    (size : Magnitude) (hlower : size.scale = 0 ∨ Nat.pow 2 52 * (den * Nat.pow 2 size.scale) ≤ units)
    (hupper : units < 2 * Nat.pow 2 52 * (den * Nat.pow 2 size.scale))
    (h : Rounds units (den * Nat.pow 2 size.scale) size.mantissa) :
    nearestBits num den = min infinityBits size.toBits := by
  have hpos : 0 < den * Nat.pow 2 size.scale := Nat.mul_pos hden (Nat.two_pow_pos _)
  unfold nearestBits
  dsimp only
  rw [hunits, scale_eq hden hlower hupper, h.roundDiv hpos]

/-- A magnitude that bits stand for: the mantissa has fifty-three digits, or it has fewer and the scale is least. -/
theorem Magnitude.ofBits_range (bits : Nat) :
    (Magnitude.ofBits bits).mantissa < 2 * Nat.pow 2 52 ∧
      ((Magnitude.ofBits bits).scale = 0 ∨ Nat.pow 2 52 ≤ (Magnitude.ofBits bits).mantissa) := by
  have hpos : 0 < Nat.pow 2 52 := Nat.two_pow_pos 52
  have hmod := Nat.mod_lt bits hpos
  have hdiv := Nat.div_add_mod bits (Nat.pow 2 52)
  unfold Magnitude.ofBits
  split
  · rename_i h
    rw [h, Nat.mul_zero] at hdiv
    exact ⟨by dsimp only; omega, .inl rfl⟩
  · exact ⟨by dsimp only; omega, .inr (Nat.le_add_right _ _)⟩

/-- What is below a power of two, by a quarter of its unit at most, is rounded up to it on the finer scale below. -/
theorem nearestBits_of_below {num den units s : Nat} (hunits : num * Nat.pow 2 1074 = units) (hden : 0 < den)
    (hedge : 4 * (Nat.pow 2 52 * (den * Nat.pow 2 (s + 1))) ≤ 4 * units + den * Nat.pow 2 (s + 1))
    (hlt : units < Nat.pow 2 52 * (den * Nat.pow 2 (s + 1))) :
    nearestBits num den = min infinityBits (Magnitude.toBits ⟨Nat.pow 2 52, s + 1⟩) := by
  have hfiner : den * Nat.pow 2 (s + 1) = 2 * (den * Nat.pow 2 s) := by
    rw [Nat.pow_eq, Nat.pow_eq, Nat.pow_succ]
    ring
  rw [hfiner, Nat.mul_left_comm (Nat.pow 2 52) 2] at hedge hlt
  have hpos : 0 < den * Nat.pow 2 s := Nat.mul_pos hden (Nat.two_pow_pos s)
  have hone : den * Nat.pow 2 s ≤ Nat.pow 2 52 * (den * Nat.pow 2 s) :=
    Nat.le_mul_of_pos_left _ (Nat.two_pow_pos 52)
  have hcarried : Magnitude.toBits ⟨2 * Nat.pow 2 52, s⟩ = Magnitude.toBits ⟨Nat.pow 2 52, s + 1⟩ := by
    change s * Nat.pow 2 52 + 2 * Nat.pow 2 52 = (s + 1) * Nat.pow 2 52 + Nat.pow 2 52
    ring
  rw [← hcarried]
  refine nearestBits_of_rounds hunits hden ⟨2 * Nat.pow 2 52, s⟩ (.inr ?_) ?_ ⟨?_, ?_, ?_⟩
  · dsimp only
    omega
  all_goals dsimp only; rw [Nat.mul_assoc 2]; omega

/-- What is nearest to a magnitude on its own scale has its bits.  Below a power of two the scale is finer, so there
it must be half as near. -/
theorem nearestBits_of_near {num den units bits m s : Nat} (hunits : num * Nat.pow 2 1074 = units) (hden : 0 < den)
    (hbits : bits < infinityBits) (hsize : Magnitude.ofBits bits = ⟨m, s⟩) (h : Rounds units (den * Nat.pow 2 s) m)
    (hedge : m = Nat.pow 2 52 → s ≠ 0 → 4 * (m * (den * Nat.pow 2 s)) ≤ 4 * units + den * Nat.pow 2 s) :
    nearestBits num den = bits := by
  have hrange := Magnitude.ofBits_range bits
  have hread := Magnitude.toBits_ofBits bits
  rw [hsize] at hrange hread
  obtain ⟨hm, hs⟩ := hrange
  dsimp only at hm hs
  have hmin : min infinityBits (Magnitude.toBits ⟨m, s⟩) = bits := by rw [hread, Nat.min_eq_right hbits.le]
  have hpos : 0 < den * Nat.pow 2 s := Nat.mul_pos hden (Nat.two_pow_pos s)
  have hupper : units < 2 * Nat.pow 2 52 * (den * Nat.pow 2 s) := by
    have hmul := Nat.mul_le_mul_right (den * Nat.pow 2 s) hm
    have := h.upper
    rw [Nat.succ_mul m] at hmul
    omega
  by_cases hlower : s = 0 ∨ Nat.pow 2 52 * (den * Nat.pow 2 s) ≤ units
  · exact (nearestBits_of_rounds hunits hden ⟨m, s⟩ hlower hupper h).trans hmin
  · obtain ⟨hs0, hlt⟩ := not_or.mp hlower
    have hm : m = Nat.pow 2 52 := by
      refine Nat.le_antisymm (Nat.le_of_not_lt fun hgt => ?_) (hs.resolve_left hs0)
      have hmul := Nat.mul_le_mul_right (den * Nat.pow 2 s) hgt
      have := h.lower
      rw [Nat.succ_mul (Nat.pow 2 52)] at hmul
      omega
    subst hm
    obtain ⟨s, rfl⟩ := Nat.exists_eq_add_one_of_ne_zero hs0
    exact (nearestBits_of_below hunits hden (hedge rfl hs0) (Nat.lt_of_not_le hlt)).trans hmin

/-! ### The interval of a magnitude -/

/-- A fraction lies in an interval: it is a whole number of units of `10 ^ -1076` there. -/
def Interval.Holds (i : Interval) (num den : Nat) : Prop :=
  ∃ n, i.contains n = true ∧ num * Nat.pow 10 1076 = n * den

/-- The units of decimals in one, by way of the units of doubles. -/
theorem units_eq : Nat.pow 10 1076 = 4 * Nat.pow 2 1074 * unitsPerQuarter := by decide +kernel

theorem unitsPerQuarter_pos : 0 < unitsPerQuarter := by
  unfold unitsPerQuarter
  generalize 1076 = k
  exact Nat.pow_pos (by decide)

theorem Interval.contains_iff {i : Interval} {n : Nat} : i.contains n = true ↔
    if i.closed then i.lo ≤ n ∧ n ≤ i.hi else i.lo < n ∧ n < i.hi := by
  unfold Interval.contains
  split <;> simp

namespace Magnitude

/-- How many quarters of the last place the interval of a magnitude goes down. -/
def reach (size : Magnitude) : Nat := if size.mantissa = Nat.pow 2 52 ∧ size.scale ≠ 0 then 1 else 2

/-- The interval of a magnitude, in quarters of its last place. -/
theorem interval_eq (size : Magnitude) :
    let quarter := Nat.pow 2 size.scale * unitsPerQuarter
    size.interval = ⟨(4 * size.mantissa - size.reach) * quarter, 4 * size.mantissa * quarter,
      (4 * size.mantissa + 2) * quarter, size.mantissa % 2 = 0⟩ := by
  intro quarter
  have hreach : size.reach * quarter =
      if size.mantissa = Nat.pow 2 52 ∧ size.scale ≠ 0 then quarter else 2 * quarter := by
    unfold reach
    split
    · rw [Nat.one_mul]
    · rfl
  rw [Nat.sub_mul, Nat.add_mul, hreach]
  rfl

/-- A magnitude is in its own interval. -/
theorem interval_value (size : Magnitude) : size.interval.contains size.interval.value = true := by
  have hpos : 0 < Nat.pow 2 size.scale * unitsPerQuarter := Nat.mul_pos (Nat.two_pow_pos _) unitsPerQuarter_pos
  rw [Interval.contains_iff, size.interval_eq]
  dsimp only
  split
  · exact ⟨Nat.mul_le_mul_right _ (Nat.sub_le _ _), Nat.mul_le_mul_right _ (Nat.le_add_right _ _)⟩
  · rename_i hodd
    have hreach : 0 < size.reach := by
      unfold reach
      split <;> decide
    have hm : size.mantissa ≠ 0 := fun h0 => hodd (by simp [h0])
    exact ⟨Nat.mul_lt_mul_of_pos_right (by omega) hpos, Nat.mul_lt_mul_of_pos_right (by omega) hpos⟩

end Magnitude

section interval

variable {num den units n : Nat}

/-- Comparisons with quarters of the last place of a magnitude. -/
theorem quarters (hden : 0 < den) (hn : n * den = 4 * units * unitsPerQuarter) (a s : Nat) :
    (a * (Nat.pow 2 s * unitsPerQuarter) ≤ n ↔ a * (den * Nat.pow 2 s) ≤ 4 * units) ∧
      (n ≤ a * (Nat.pow 2 s * unitsPerQuarter) ↔ 4 * units ≤ a * (den * Nat.pow 2 s)) := by
  have hpos := unitsPerQuarter_pos
  generalize unitsPerQuarter = p at hpos hn
  have ha : a * (Nat.pow 2 s * p) * den = a * (den * Nat.pow 2 s) * p := by ring
  constructor
  · rw [← Nat.mul_le_mul_right_iff hden, hn, ha, Nat.mul_le_mul_right_iff hpos]
  · rw [← Nat.mul_le_mul_right_iff hden, hn, ha, Nat.mul_le_mul_right_iff hpos]

/-- What is in the interval of a magnitude is nearest to it. -/
theorem Magnitude.rounds (size : Magnitude) (hden : 0 < den) (hin : size.interval.contains n = true)
    (hn : n * den = 4 * units * unitsPerQuarter) :
    Rounds units (den * Nat.pow 2 size.scale) size.mantissa ∧
      (size.mantissa = Nat.pow 2 52 → size.scale ≠ 0 →
        4 * (size.mantissa * (den * Nat.pow 2 size.scale)) ≤ 4 * units + den * Nat.pow 2 size.scale) := by
  have hpos : 0 < den * Nat.pow 2 size.scale := Nat.mul_pos hden (Nat.two_pow_pos _)
  have hle (a : Nat) := (quarters hden hn a size.scale).1
  have hge (a : Nat) := (quarters hden hn a size.scale).2
  rw [Interval.contains_iff, size.interval_eq] at hin
  simp only [decide_eq_true_eq, ← not_le, hle, hge] at hin
  generalize den * Nat.pow 2 size.scale = d at hin hpos ⊢
  have hm : 4 * size.mantissa * d = 4 * (size.mantissa * d) := Nat.mul_assoc ..
  rw [Nat.sub_mul, Nat.add_mul, hm] at hin
  have hodd : size.mantissa % 2 = 1 → d ≤ size.mantissa * d := fun h =>
    Nat.le_mul_of_pos_left d (Nat.pos_of_ne_zero fun h0 => by rw [h0] at h; cases h)
  unfold reach at hin
  by_cases hpower : size.mantissa = Nat.pow 2 52 ∧ size.scale ≠ 0
  · have heven : size.mantissa % 2 = 0 := by rw [hpower.1]
    rw [if_pos heven, if_pos hpower] at hin
    exact ⟨⟨by omega, by omega, by omega⟩, fun _ _ => by omega⟩
  · rw [if_neg hpower] at hin
    refine ⟨?_, fun h h' => absurd ⟨h, h'⟩ hpower⟩
    split at hin
    · exact ⟨by omega, by omega, by omega⟩
    · exact ⟨by omega, by omega, by omega⟩

end interval

/-- What is in the interval of a magnitude has its bits nearest to it. -/
theorem nearestBits_of_holds {num den bits : Nat} (hbits : bits < infinityBits) (hden : 0 < den)
    (h : (Magnitude.ofBits bits).interval.Holds num den) : nearestBits num den = bits := by
  obtain ⟨n, hin, hn⟩ := h
  have hunits : n * den = 4 * (num * Nat.pow 2 1074) * unitsPerQuarter := by
    rw [← hn, units_eq]
    generalize Nat.pow 2 1074 = a
    generalize unitsPerQuarter = b
    ring
  obtain ⟨hrounds, hedge⟩ := (Magnitude.ofBits bits).rounds hden hin hunits
  exact nearestBits_of_near rfl hden hbits rfl hrounds hedge

/-! ### Decimals in the interval -/

theorem Interval.multiple?_contains {i : Interval} {tie : Tie} {step count : Nat}
    (h : i.multiple? tie step = some count) : i.contains (count * step) = true := by
  unfold multiple? at h
  dsimp only at h
  split at h
  · cases h
  · cases h
    assumption
  · cases h
    rw [Nat.succ_mul]
    assumption
  · rename_i hlow hhigh
    have hnext : i.contains ((i.value / step + 1) * step) = true := by rwa [Nat.succ_mul]
    split at h
    · cases h
      exact hlow
    split at h
    · cases h
      exact hnext
    cases tie with
    | up =>
      cases h
      exact hnext
    | toEven =>
      cases h
      rcases Nat.mod_two_eq_zero_or_one (i.value / step) with he | he
      · rwa [he]
      · rwa [he]

/-- Whatever grid is taken, the point on it is in the interval. -/
theorem Interval.coarsest_contains {i : Interval} (h : i.contains i.value = true) (tie : Tie) (n : Nat) :
    i.contains ((i.coarsest tie n).1 * Nat.pow 10 (i.coarsest tie n).2) = true := by
  induction n with
  | zero =>
    unfold coarsest
    dsimp only
    rwa [Nat.pow_eq, Nat.pow_zero, Nat.mul_one]
  | succ n ih =>
    unfold coarsest
    split
    · rename_i count hcount
      exact multiple?_contains hcount
    · exact ih

/-- A numeral is a point of a grid in an interval. -/
def Numeral.In (n : Numeral) (i : Interval) : Prop :=
  ∃ grid : Nat, n.power = grid - 1076 ∧ i.contains (n.digits * Nat.pow 10 grid) = true

/-- As an equation of functions, which is checked without a search for the grid. -/
theorem shortest_def : shortest = fun tie size =>
    match size.interval.coarsest tie (size.interval.hi.log2 * 30103 / 100000 + 1) with
    | (digits, grid) => ⟨digits, grid - 1076⟩ := rfl

/-- The shortest decimal of a magnitude is in its interval. -/
theorem shortest_in (tie : Tie) (size : Magnitude) : (shortest tie size).In size.interval := by
  rw [shortest_def]
  beta_reduce
  have h := Interval.coarsest_contains size.interval_value tie (size.interval.hi.log2 * 30103 / 100000 + 1)
  generalize size.interval.coarsest tie (size.interval.hi.log2 * 30103 / 100000 + 1) = r at h ⊢
  obtain ⟨digits, grid⟩ := r
  exact ⟨grid, rfl, h⟩

/-- A magnitude without fraction is a whole number in its interval. -/
theorem whole?_holds {size : Magnitude} {n : Nat} (h : size.whole? = some n) : size.interval.Holds n 1 := by
  unfold Magnitude.whole? at h
  dsimp only at h
  split at h
  · rename_i hmod
    obtain rfl := Option.some.inj h
    refine ⟨size.interval.value, size.interval_value, ?_⟩
    have hdiv := Nat.div_add_mod (size.mantissa * Nat.pow 2 size.scale) (Nat.pow 2 1074)
    rw [hmod, Nat.add_zero] at hdiv
    rw [size.interval_eq, units_eq]
    dsimp only
    generalize Nat.pow 2 1074 = a at hdiv ⊢
    generalize unitsPerQuarter = b
    calc _ = 4 * (a * (size.mantissa * Nat.pow 2 size.scale / a)) * b := by ring
      _ = _ := by rw [hdiv]; ring
  · cases h

end Lox.Decimal
