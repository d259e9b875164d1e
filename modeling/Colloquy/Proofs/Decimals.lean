import Mathlib.Data.List.DropRight
import Mathlib.Data.Rat.Floor
import Mathlib.Tactic.FieldSimp
import Mathlib.Tactic.Linarith
import Mathlib.Tactic.NormNum
import Mathlib.Tactic.Ring
import Colloquy.Number.Decimal

/-!
# Numbers to five places

The short text of a number is looked at from both ends.  From the side of the numbers it is a
rounding of the exact rational value: `Nearest` says what rounding to the nearest integer with ties
to even means, without a word on quotients and remainders, and `roundDivEven` does that
(`roundDivEven_nearest`).  From the side of the texts it is a numeral, a sign and two runs of
digits, and a reader finds these parts in the text again (`Numeral.read_text`).

In between stands the number of units of the fifth place: it determines the numeral
(`Numeral.ofUnits`), whose zeros at the end are dropped without a change of value.

Main statement: the short text of a finite number is read as a canonical numeral that denotes the
rounded value (`brief_is_rounded`).
-/

namespace Colloquy

/-! ## Rounding -/

/-- The integer `k` is the nearest to `q`, and the even one of two that are equally near. -/
structure Nearest (q : ℚ) (k : ℤ) : Prop where
  closest : ∀ m : ℤ, |q - k| ≤ |q - m|
  even : ∀ m : ℤ, m ≠ k → |q - m| = |q - k| → Even k

/-- The multiple `r` of `1 / 10 ^ 5` is the nearest to `q`, with ties to the even multiple. -/
def Rounded (q r : ℚ) : Prop := ∃ k : ℤ, Nearest (q * 10 ^ 5) k ∧ r = k / 10 ^ 5

/-- A magnitude with a sign. -/
def signed (negative : Bool) (magnitude : ℚ) : ℚ := if negative then -magnitude else magnitude

section Rounding

variable {q r r' : ℚ} {k k' : ℤ}

theorem one_le_abs_sub {m : ℤ} (other : m ≠ k) : (1 : ℚ) ≤ |(k : ℚ) - m| := by
  have apart : 1 ≤ |k - m| := Int.one_le_abs (sub_ne_zero.mpr other.symm)
  exact_mod_cast apart

/-- Half a unit decides: no other integer is nearer, and one is as near only on a tie. -/
theorem Nearest.of_half (near : |q - k| ≤ 1 / 2) (even : |q - k| = 1 / 2 → Even k) :
    Nearest q k := by
  have triangle : ∀ m : ℤ, m ≠ k → 1 ≤ |q - m| + |q - k| := by
    intro m other
    calc (1 : ℚ) ≤ |(k : ℚ) - m| := one_le_abs_sub other
      _ = |(q - m) - (q - k)| := by rw [sub_sub_sub_cancel_left]
      _ ≤ |q - m| + |q - k| := abs_sub _ _
  refine ⟨fun m => ?_, fun m other tie => even ?_⟩
  · by_cases other : m = k
    · rw [other]
    · linarith [triangle m other]
  · linarith [triangle m other]

theorem Nearest.neg (nearest : Nearest q k) : Nearest (-q) (-k) := by
  have mirror : ∀ m : ℤ, |-q - m| = |q - ((-m : ℤ) : ℚ)| := by
    intro m
    rw [← abs_neg]
    push_cast
    congr 1
    ring
  refine ⟨fun m => ?_, fun m other tie => ?_⟩
  · rw [mirror, mirror, neg_neg]
    exact nearest.closest _
  · rw [mirror, mirror, neg_neg] at tie
    exact (nearest.even (-m) (by omega) tie).neg

/-- Two different nearest integers would both be even and lie on either side of `q`, and the integer
behind the lower one would be nearer than that one. -/
theorem Nearest.unique (one : Nearest q k) (two : Nearest q k') : k = k' := by
  by_contra other
  wlog less : k < k'
  · exact this two one (Ne.symm other) (by omega)
  have tie : |q - k| = |q - k'| := le_antisymm (one.closest _) (two.closest _)
  have gap : k + 2 ≤ k' := by
    obtain ⟨half, rfl⟩ := one.even k' (Ne.symm other) tie.symm
    obtain ⟨half', rfl⟩ := two.even _ other tie
    omega
  have far : (k : ℚ) + 2 ≤ k' := by exact_mod_cast gap
  have middle : q - k = -(q - k') := by
    rcases abs_eq_abs.mp tie with same | opposite
    · linarith
    · exact opposite
  have between := one.closest (k + 1)
  rw [Int.cast_add, Int.cast_one, abs_of_nonneg (by linarith), abs_of_nonneg (by linarith)]
    at between
  linarith

theorem Rounded.unique (one : Rounded q r) (two : Rounded q r') : r = r' := by
  obtain ⟨k, nearest, rfl⟩ := one
  obtain ⟨k', nearest', rfl⟩ := two
  rw [nearest.unique nearest']

theorem Rounded.signed (rounded : Rounded q r) (negative : Bool) :
    Rounded (signed negative q) (signed negative r) := by
  cases negative with
  | false => exact rounded
  | true =>
    obtain ⟨k, nearest, rfl⟩ := rounded
    refine ⟨-k, ?_, ?_⟩
    · rw [Colloquy.signed, if_pos rfl, neg_mul]
      exact nearest.neg
    · rw [Colloquy.signed, if_pos rfl]
      push_cast
      ring

theorem abs_signed (negative : Bool) (nonneg : 0 ≤ q) : |signed negative q| = q := by
  cases negative with
  | false => exact abs_of_nonneg nonneg
  | true => rw [signed, if_pos rfl, abs_neg, abs_of_nonneg nonneg]

theorem signed_inj (negative : Bool) (same : signed negative q = signed negative r) : q = r := by
  cases negative with
  | false => exact same
  | true => exact neg_injective same

/-- The error of a rounded quotient, in units of half the divisor. -/
theorem roundDivEven_error (n : Nat) {d : Nat} (pos : 0 < d) :
    2 * |(n : ℤ) - d * roundDivEven n d| ≤ d ∧
      (2 * |(n : ℤ) - d * roundDivEven n d| = d → Even (roundDivEven n d : ℤ)) := by
  have parts : (n : ℤ) = d * (n / d : ℕ) + (n % d : ℕ) := by
    exact_mod_cast (Nat.div_add_mod n d).symm
  have less : n % d < d := Nat.mod_lt n pos
  unfold roundDivEven
  dsimp only
  split_ifs with small large
  · have error : |(n : ℤ) - d * (n / d : ℕ)| = (n % d : ℕ) := by
      rw [parts, add_sub_cancel_left, Nat.abs_cast]
    rw [error]
    exact ⟨by omega, by omega⟩
  · have error : |(n : ℤ) - d * (n / d + 1 : ℕ)| = d - (n % d : ℕ) := by
      rw [parts, Nat.cast_add, mul_add, add_sub_add_left_eq_sub, abs_sub_comm, Nat.cast_one,
        mul_one, abs_of_nonneg (by omega)]
    rw [error]
    exact ⟨by omega, by omega⟩
  · have even : Even ((n / d + n / d % 2 : ℕ) : ℤ) := by
      rw [Int.even_coe_nat, Nat.even_iff]
      omega
    refine ⟨?_, fun _ => even⟩
    rw [parts, Nat.cast_add, mul_add, add_sub_add_left_eq_sub]
    rcases Nat.mod_two_eq_zero_or_one (n / d) with bit | bit
    · rw [bit, Nat.cast_zero, mul_zero, sub_zero, Nat.abs_cast]
      omega
    · rw [bit, Nat.cast_one, mul_one, abs_sub_comm, abs_of_nonneg (by omega)]
      omega

/-- **The rounded quotient is the nearest integer, with ties to even.** -/
theorem roundDivEven_nearest (n : Nat) {d : Nat} (pos : 0 < d) :
    Nearest ((n : ℚ) / d) (roundDivEven n d) := by
  obtain ⟨near, even⟩ := roundDivEven_error n pos
  generalize (roundDivEven n d : ℤ) = k at *
  have posq : (0 : ℚ) < d := by exact_mod_cast pos
  have scaled : 2 * |(n : ℚ) / d - k| = ((2 * |(n : ℤ) - d * k| : ℤ) : ℚ) / d := by
    rw [div_sub' posq.ne', abs_div, abs_of_pos posq, mul_div_assoc']
    push_cast
    rfl
  refine .of_half ?_ fun tie => even ?_
  · have : 2 * |(n : ℚ) / d - k| ≤ 1 := by
      rw [scaled, div_le_one posq]
      exact_mod_cast near
    linarith
  · have : 2 * |(n : ℚ) / d - k| = 1 := by rw [tie]; norm_num
    rw [scaled, div_eq_one_iff_eq posq.ne'] at this
    exact_mod_cast this

end Rounding

/-! ## Numerals -/

/-- A decimal numeral: a sign, the digits before the point and the digits behind it. -/
structure Numeral where
  negative : Bool
  whole : List Char
  places : List Char
deriving DecidableEq

namespace Numeral

/-- A minus sign, where one is written. -/
def minus (negative : Bool) : List Char := if negative then ['-'] else []

/-- The places with their point, which is not written without any. -/
def pointed (places : List Char) : List Char := if places = [] then [] else '.' :: places

/-- The text of a numeral. -/
def text (n : Numeral) : String :=
  String.ofList (minus n.negative ++ (n.whole ++ pointed n.places))

/-- The parts of a text: a minus sign in front, what precedes the first point and what follows
it. -/
def read (s : String) : Numeral :=
  let rest := if s.toList.head? = some '-' then s.toList.tail else s.toList
  { negative := s.toList.head? = some '-'
    whole := rest.takeWhile (· ≠ '.')
    places := (rest.dropWhile (· ≠ '.')).tail }

/-- The number that a numeral denotes; without digits before the point that part is zero. -/
def value (n : Numeral) : ℚ :=
  signed n.negative
    (Nat.ofDigitChars 10 n.whole 0 + Nat.ofDigitChars 10 n.places 0 / 10 ^ n.places.length)

/-- Only digits, no more than five of them behind the point and nothing that could be left out. -/
structure Canonical (n : Numeral) : Prop where
  digits : ∀ c ∈ n.whole ++ n.places, c.isDigit
  some_digit : n.whole ++ n.places ≠ []
  short : n.places.length ≤ 5
  trimmed : n.places.getLast? ≠ some '0'
  bare : n.places ≠ [] → |n.value| < 1 → n.whole = []
  leading : n.whole.head? = some '0' → n.whole = ['0']

/-- The places of a number of units of `1 / 10 ^ 5`, without the zeros at the end. -/
def fractionDigits (units : Nat) : List Char :=
  (Text.zeroPadded (units % 10 ^ 5) 5).toList.rdropWhile (· = '0')

/-- The numeral of a number of units of `1 / 10 ^ 5`. -/
def ofUnits (negative : Bool) (units : Nat) : Numeral :=
  { negative
    whole :=
      if units / 10 ^ 5 = 0 ∧ fractionDigits units ≠ [] then []
      else Nat.toDigits 10 (units / 10 ^ 5)
    places := fractionDigits units }

/-! ### Reading a numeral -/

theorem tail_pointed (places : List Char) : (pointed places).tail = places := by
  unfold pointed
  split_ifs with none
  · exact none.symm
  · rfl

theorem takeWhile_pointed (places : List Char) : (pointed places).takeWhile (· ≠ '.') = [] := by
  unfold pointed
  split_ifs <;> rfl

theorem dropWhile_pointed (places : List Char) :
    (pointed places).dropWhile (· ≠ '.') = pointed places := by
  unfold pointed
  split_ifs <;> rfl

theorem head?_whole_pointed {whole : List Char} (digits : ∀ c ∈ whole, c.isDigit)
    (places : List Char) : (whole ++ pointed places).head? ≠ some '-' := by
  cases whole with
  | nil =>
    rw [List.nil_append, pointed]
    split_ifs
    · exact (Option.some_ne_none _).symm
    · rw [List.head?_cons]
      decide
  | cons c rest =>
    have digit := digits c List.mem_cons_self
    rintro minus
    obtain rfl : c = '-' := Option.some.inj minus
    exact absurd digit (by decide)

/-- **What is read in a numeral's text is the numeral.** -/
theorem read_text {n : Numeral} (digits : ∀ c ∈ n.whole ++ n.places, c.isDigit) :
    read n.text = n := by
  obtain ⟨negative, whole, places⟩ := n
  have wholeDigits : ∀ c ∈ whole, c.isDigit := fun c inside =>
    digits c (List.mem_append_left _ inside)
  have plain : ∀ c ∈ whole, decide (c ≠ '.') = true := by
    intro c inside
    rw [decide_eq_true_iff]
    rintro rfl
    exact absurd (wholeDigits _ inside) (by decide)
  have sign : ((minus negative ++ (whole ++ pointed places)).head? = some '-') = negative := by
    cases negative with
    | false => simpa [minus] using head?_whole_pointed wholeDigits places
    | true => simp [minus]
  have rest : (if negative then (minus negative ++ (whole ++ pointed places)).tail
      else minus negative ++ (whole ++ pointed places)) = whole ++ pointed places := by
    cases negative <;> rfl
  simp only [read, text, String.toList_ofList, sign, rest]
  rw [List.takeWhile_append_of_pos plain, List.dropWhile_append_of_pos plain, takeWhile_pointed,
    dropWhile_pointed, tail_pointed, List.append_nil]
  simp

theorem getLast?_pointed (whole places : List Char) :
    (whole ++ pointed places).getLast? = (whole ++ places).getLast? := by
  cases places with
  | nil => rfl
  | cons c rest =>
    rw [pointed, if_neg (List.cons_ne_nil c rest), List.getLast?_append, List.getLast?_append,
      List.getLast?_cons_cons]

/-- A canonical numeral ends with a digit, so no point stands at the end of its text. -/
theorem Canonical.getLast?_text {n : Numeral} (canonical : n.Canonical) :
    ∃ c, n.text.toList.getLast? = some c ∧ c.isDigit := by
  have last := List.getLast?_eq_some_getLast canonical.some_digit
  refine ⟨_, ?_, canonical.digits _ (List.getLast_mem canonical.some_digit)⟩
  rw [text, String.toList_ofList, List.getLast?_append, getLast?_pointed, last, Option.some_or]

/-! ### Zeros at the end -/

theorem toList_fill (c : Char) (n : Nat) : (Text.fill c n).toList = List.replicate n c := by
  induction n with
  | zero => rfl
  | succ n ih =>
    rw [Text.fill, String.pushn_eq_repeat_push] at ih ⊢
    rw [Nat.repeat, String.toList_push, ih, List.replicate_succ']

theorem toList_zeroPadded (n width : Nat) :
    (Text.zeroPadded n width).toList =
      List.replicate (width - (Nat.toDigits 10 n).length) '0' ++ Nat.toDigits 10 n := by
  rw [Text.zeroPadded, String.toList_append, toList_fill, ← String.length_toList, Nat.toList_repr]

/-- A number with zeros in front: as wide as asked for, of digits, and of the same value. -/
theorem zeroPadded_spec {n width : Nat} (pos : 0 < width) (small : n < 10 ^ width) :
    (Text.zeroPadded n width).toList.length = width ∧
      (∀ c ∈ (Text.zeroPadded n width).toList, c.isDigit) ∧
      Nat.ofDigitChars 10 (Text.zeroPadded n width).toList 0 = n := by
  have fits : (Nat.toDigits 10 n).length ≤ width :=
    (Nat.length_toDigits_le_iff (by decide) pos).mpr small
  rw [toList_zeroPadded]
  refine ⟨?_, ?_, ?_⟩
  · rw [List.length_append, List.length_replicate, Nat.sub_add_cancel fits]
  · intro c inside
    rcases List.mem_append.mp inside with zero | digit
    · rw [List.eq_of_mem_replicate zero]
      decide
    · exact Nat.isDigit_of_mem_toDigits (by decide) (by decide) digit
  · rw [Nat.ofDigitChars_append, Nat.ofDigitChars_replicate_zero, mul_zero,
      Nat.ofDigitChars_ten_toDigits]

theorem rdropWhile_append_zeros (cs : List Char) :
    ∃ zeros, cs.rdropWhile (· = '0') ++ List.replicate zeros '0' = cs := by
  have zeros : cs.rtakeWhile (· = '0') = List.replicate (cs.rtakeWhile (· = '0')).length '0' :=
    List.eq_replicate_of_mem fun c inside => by
      have zero := List.mem_rtakeWhile_imp inside
      exact of_decide_eq_true zero
  exact ⟨_, zeros ▸ List.rdropWhile_append_rtakeWhile⟩

theorem getLast?_rdropWhile_zeros (cs : List Char) :
    (cs.rdropWhile (· = '0')).getLast? ≠ some '0' := by
  intro zero
  have nonempty : cs.rdropWhile (· = '0') ≠ [] := by
    rintro empty
    rw [empty] at zero
    cases zero
  rw [List.getLast?_eq_some_getLast nonempty] at zero
  exact List.rdropWhile_last_not _ _ nonempty (decide_eq_true (Option.some.inj zero))

/-- **Zeros at the end of the places do not count**: the places are worth the units they stand
for. -/
theorem fractionDigits_spec (units : Nat) :
    (fractionDigits units).length ≤ 5 ∧
      (∀ c ∈ fractionDigits units, c.isDigit) ∧
      (Nat.ofDigitChars 10 (fractionDigits units) 0 : ℚ) /
        10 ^ (fractionDigits units).length = (units % 10 ^ 5 : ℕ) / 10 ^ 5 := by
  obtain ⟨length, digits, value⟩ :=
    zeroPadded_spec (by decide : 0 < 5) (Nat.mod_lt units (by decide))
  obtain ⟨zeros, padded⟩ :=
    rdropWhile_append_zeros (Text.zeroPadded (units % 10 ^ 5) 5).toList
  rw [← fractionDigits] at padded
  rw [← padded] at length digits value
  rw [List.length_append, List.length_replicate] at length
  rw [Nat.ofDigitChars_append, Nat.ofDigitChars_replicate_zero] at value
  refine ⟨by omega, fun c inside => digits c (List.mem_append_left _ inside), ?_⟩
  rw [← value, ← length, pow_add]
  push_cast
  rw [mul_comm (10 ^ zeros : ℚ), mul_div_mul_right _ _ (pow_ne_zero _ (by norm_num))]

/-! ### The numeral of a number of units -/

theorem head?_toDigits {n : Nat} (zero : (Nat.toDigits 10 n).head? = some '0') : n = 0 := by
  induction n using Nat.strongRecOn with
  | ind n ih =>
    rcases Nat.lt_or_ge n 10 with small | large
    · rw [Nat.toDigits_of_lt_base small, List.head?_cons] at zero
      exact Nat.digitChar_eq_zero.mp (Option.some.inj zero)
    · rw [Nat.toDigits_of_base_le (by decide) large,
        List.head?_append_of_ne_nil _ Nat.toDigits_ne_nil] at zero
      have := ih (n / 10) (by omega) zero
      omega

variable (negative : Bool) (units : Nat)

theorem places_ofUnits : (ofUnits negative units).places = fractionDigits units := by
  rw [ofUnits]

theorem ofUnits_whole :
    (∀ c ∈ (ofUnits negative units).whole, c.isDigit) ∧
      Nat.ofDigitChars 10 (ofUnits negative units).whole 0 = units / 10 ^ 5 := by
  dsimp only [ofUnits]
  split_ifs with bare
  · exact ⟨by simp, by rw [bare.1]; rfl⟩
  · exact ⟨fun c => Nat.isDigit_of_mem_toDigits (by decide) (by decide),
      Nat.ofDigitChars_ten_toDigits⟩

/-- **The numeral denotes its units.** -/
theorem value_ofUnits : (ofUnits negative units).value = signed negative (units / 10 ^ 5) := by
  have places := (fractionDigits_spec units).2.2
  have parts : (units : ℚ) = (units / 10 ^ 5 : ℕ) * 10 ^ 5 + (units % 10 ^ 5 : ℕ) := by
    exact_mod_cast (Nat.div_add_mod' units (10 ^ 5)).symm
  rw [value, (ofUnits_whole negative units).2]
  dsimp only [ofUnits]
  rw [places]
  congr 1
  conv_rhs => rw [parts, add_div, mul_div_cancel_right₀ _ (by norm_num)]

theorem digits_ofUnits (c : Char)
    (inside : c ∈ (ofUnits negative units).whole ++ (ofUnits negative units).places) :
    c.isDigit := by
  rcases List.mem_append.mp inside with inside | inside
  · exact (ofUnits_whole negative units).1 c inside
  · rw [places_ofUnits] at inside
    exact (fractionDigits_spec units).2.1 c inside

/-- **The numeral of a number of units is canonical.** -/
theorem canonical_ofUnits : (ofUnits negative units).Canonical where
  digits := digits_ofUnits negative units
  some_digit := by
    dsimp only [ofUnits]
    split_ifs with bare
    · rw [List.nil_append]
      exact bare.2
    · exact List.append_ne_nil_of_left_ne_nil Nat.toDigits_ne_nil _
  short := by
    rw [places_ofUnits]
    exact (fractionDigits_spec units).1
  trimmed := by
    rw [places_ofUnits, fractionDigits]
    exact getLast?_rdropWhile_zeros _
  bare := by
    intro places small
    rw [value_ofUnits, abs_signed negative (by positivity), div_lt_one (by norm_num)] at small
    have less : units < 10 ^ 5 := by exact_mod_cast small
    dsimp only [ofUnits] at places ⊢
    rw [if_pos ⟨Nat.div_eq_of_lt less, places⟩]
  leading := by
    dsimp only [ofUnits]
    split_ifs with bare
    · exact fun zero => absurd zero (by simp)
    · intro zero
      rw [head?_toDigits zero, Nat.toDigits_zero]

end Numeral

/-! ## The short text -/

namespace Single

/-- The exact value of a finite number. -/
def value (x : Single) : ℚ := signed x.negative (x.significand * 2 ^ x.exponent)

theorem ratio_pos (x : Single) : 0 < x.ratio.2 := Nat.pow_pos (by decide)

theorem ratio_eq (x : Single) :
    (x.ratio.1 : ℚ) / x.ratio.2 = x.significand * 2 ^ x.exponent := by
  have power : (2 : ℚ) ^ x.exponent = 2 ^ x.exponent.toNat / 2 ^ (-x.exponent).toNat := by
    conv_lhs => rw [← Int.toNat_sub_toNat_neg x.exponent]
    rw [zpow_sub₀ two_ne_zero, zpow_natCast, zpow_natCast]
  rw [power, mul_div_assoc']
  dsimp only [ratio, Nat.pow_eq]
  push_cast
  rfl

/-- **Rounding to five places is rounding.** -/
theorem rounded_fixed5 (x : Single) :
    Rounded x.value (signed x.negative (x.fixed5 / 10 ^ 5)) := by
  refine Rounded.signed ⟨x.fixed5, ?_, by rw [Int.cast_natCast]⟩ _
  have nearest := roundDivEven_nearest (x.ratio.1 * 10 ^ 5) x.ratio_pos
  rw [Nat.cast_mul, mul_div_right_comm, ratio_eq] at nearest
  exact_mod_cast nearest

theorem toList_sign (x : Single) : x.sign.toList = Numeral.minus x.negative := by
  unfold sign Numeral.minus
  split_ifs <;> rfl

theorem toList_fixedText (x : Single) : x.fixedText.toList = Numeral.minus x.negative
    ++ Nat.toDigits 10 (x.fixed5 / 10 ^ 5)
    ++ '.' :: (Text.zeroPadded (x.fixed5 % 10 ^ 5) 5).toList := by
  simp only [fixedText, String.toList_append, toList_sign, Nat.toList_repr, Nat.pow_eq,
    List.append_assoc]
  rfl

/-- Zeros behind the point are dropped, and the point if nothing else stands behind it. -/
theorem toList_dropZeros {s : String} {front places : List Char}
    (parts : s.toList = front ++ '.' :: places) (digits : ∀ c ∈ places, c.isDigit) :
    (dropZeros s).toList = front ++ Numeral.pointed (places.rdropWhile (· = '0')) := by
  have point : '.' ∈ s.toList := by simp [parts]
  have reversed : s.toList.reverse = places.reverse ++ '.' :: front.reverse := by simp [parts]
  have kept : ∀ c ∈ places.reverse.dropWhile (· = '0'), c.isDigit := fun c inside =>
    digits c (List.mem_reverse.mp ((List.dropWhile_sublist _).mem inside))
  rw [dropZeros, if_pos point, reversed, List.dropWhile_append, List.rdropWhile]
  cases rest : places.reverse.dropWhile (· = '0') with
  | nil => simp [Numeral.pointed]
  | cons c rest' =>
    have digit : c.isDigit := kept c (by simp [rest])
    have other : c ≠ '.' := by
      rintro rfl
      exact absurd digit (by decide)
    simp [Numeral.pointed, other]

/-- A zero before the point is dropped; other digits are not, and neither is a zero alone. -/
theorem toList_dropLeadingZero {s : String} {negative : Bool} {n : Nat} {places : List Char}
    (parts : s.toList = Numeral.minus negative ++ (Nat.toDigits 10 n ++ Numeral.pointed places)) :
    (dropLeadingZero s).toList = Numeral.minus negative
      ++ ((if n = 0 ∧ places ≠ [] then [] else Nat.toDigits 10 n) ++ Numeral.pointed places) := by
  rcases Nat.eq_zero_or_pos n with rfl | pos
  · rw [Nat.toDigits_zero] at parts ⊢
    cases places <;> cases negative <;>
      simp_all [dropLeadingZero, Numeral.minus, Numeral.pointed]
  · obtain ⟨c, rest, digits⟩ := List.exists_cons_of_ne_nil (Nat.toDigits_ne_nil (n := n) (b := 10))
    have zero : c ≠ '0' := by
      rintro rfl
      exact pos.ne' (Numeral.head?_toDigits (by rw [digits, List.head?_cons]))
    have sign : c ≠ '-' := by
      rintro rfl
      have digit : ('-').isDigit :=
        Nat.isDigit_of_mem_toDigits (by decide) (by decide) (digits ▸ List.mem_cons_self)
      exact absurd digit (by decide)
    rw [if_neg (fun h => pos.ne' h.1)]
    rw [digits] at parts ⊢
    cases negative <;> simp_all [dropLeadingZero, Numeral.minus]

/-- **The short text is a numeral's.** -/
theorem brief_eq {x : Single} (finite : x.isFinite) :
    x.brief = (Numeral.ofUnits x.negative x.fixed5).text := by
  have places : ∀ c ∈ (Text.zeroPadded (x.fixed5 % 10 ^ 5) 5).toList, c.isDigit :=
    (Numeral.zeroPadded_spec (by decide) (Nat.mod_lt _ (by decide))).2.1
  have short := toList_dropZeros x.toList_fixedText places
  rw [← Numeral.fractionDigits, List.append_assoc] at short
  apply String.toList_injective
  rw [brief, if_neg (by simp [finite]), toList_dropLeadingZero short, Numeral.text,
    Numeral.ofUnits, String.toList_ofList]

theorem read_brief {x : Single} (finite : x.isFinite) :
    Numeral.read x.brief = Numeral.ofUnits x.negative x.fixed5 := by
  rw [brief_eq finite, Numeral.read_text (Numeral.digits_ofUnits _ _)]

/-- **The short text of a finite number is the rounded value in canonical form.**  Read back, it is
a canonical numeral with the number's sign, which denotes the nearest multiple of `1 / 10 ^ 5`, with
ties to even; so two numbers of one sign are written alike exactly when they round to the same
multiple. -/
theorem brief_is_rounded :
    (∀ x : Single, x.isFinite →
      (Numeral.read x.brief).text = x.brief ∧
      (Numeral.read x.brief).Canonical ∧
      (∃ c, x.brief.toList.getLast? = some c ∧ c.isDigit) ∧
      (Numeral.read x.brief).negative = x.negative ∧
      Rounded x.value (Numeral.read x.brief).value) ∧
    ∀ x y : Single, x.isFinite → y.isFinite → x.negative = y.negative →
      (x.brief = y.brief ↔ ∃ r, Rounded x.value r ∧ Rounded y.value r) := by
  have denoted : ∀ x : Single, x.isFinite → Rounded x.value (Numeral.read x.brief).value := by
    intro x finite
    rw [read_brief finite, Numeral.value_ofUnits]
    exact x.rounded_fixed5
  refine ⟨fun x finite => ⟨?_, ?_, ?_, ?_, denoted x finite⟩,
    fun x y finite finite' sign => ⟨?_, ?_⟩⟩
  · rw [read_brief finite, brief_eq finite]
  · rw [read_brief finite]
    exact Numeral.canonical_ofUnits _ _
  · rw [brief_eq finite]
    exact (Numeral.canonical_ofUnits _ _).getLast?_text
  · rw [read_brief finite, Numeral.ofUnits]
  · intro alike
    exact ⟨_, denoted x finite, alike ▸ denoted y finite'⟩
  · rintro ⟨r, rounded, rounded'⟩
    have same : signed x.negative (x.fixed5 / 10 ^ 5 : ℚ) = signed x.negative (y.fixed5 / 10 ^ 5) :=
      (x.rounded_fixed5.unique rounded).trans
        ((sign ▸ y.rounded_fixed5).unique rounded').symm
    have units : (x.fixed5 : ℚ) = y.fixed5 :=
      (div_left_inj' (by norm_num)).mp (signed_inj _ same)
    rw [brief_eq finite, brief_eq finite', sign, Nat.cast_injective units]

/-- `1 / 64` lies halfway between `.01562` and `.01563`.  It goes down to the even one of them, to
which the number before it goes as the nearer one. -/
theorem brief_is_rounded_tie :
    Single.isFinite ⟨0x3C800000⟩ ∧ Single.isFinite ⟨0x3C7FFFFF⟩ ∧
      Single.negative ⟨0x3C800000⟩ = Single.negative ⟨0x3C7FFFFF⟩ ∧
      Rounded (Single.value ⟨0x3C800000⟩) (Numeral.read ".01562").value ∧
      ∃ r, Rounded (Single.value ⟨0x3C800000⟩) r ∧ Rounded (Single.value ⟨0x3C7FFFFF⟩) r := by
  have finite : Single.isFinite ⟨0x3C800000⟩ := by decide +kernel
  have finite' : Single.isFinite ⟨0x3C7FFFFF⟩ := by decide +kernel
  have sign : Single.negative ⟨0x3C800000⟩ = Single.negative ⟨0x3C7FFFFF⟩ := by decide +kernel
  have tie : Single.brief ⟨0x3C800000⟩ = ".01562" := by decide +kernel
  have near : Single.brief ⟨0x3C7FFFFF⟩ = ".01562" := by decide +kernel
  refine ⟨finite, finite', sign, ?_, ?_⟩
  · rw [← tie]
    exact (brief_is_rounded.1 _ finite).2.2.2.2
  · exact (brief_is_rounded.2 _ _ finite finite' sign).mp (tie.trans near.symm)

/-- Zeros are dropped behind the point only. -/
example : Single.brief ⟨0x42C80000⟩ = "100" := by decide +kernel

end Single

end Colloquy
