import Mathlib.Algebra.GroupWithZero.Nat
import Mathlib.Algebra.Ring.Int.Defs
import Colloquy.Proofs.Primitives

/-!
# Integer arithmetic

The integers of the machine are those from `-2 ^ 31` to `2 ^ 31 - 1`.  `Int.bmod` by `2 ^ 32` brings
a number among them.

Main statement: the primitives of integers compute as integers do, brought into range, and fail only
for a zero divisor or for an operand that is no integer (`Primitive.integers_are_exact`).
-/

namespace Colloquy

/-! ## Division

Both the quotient and the remainder of machine integers are those of the integers, but for one
quotient that is out of range. -/

/-- There is one quotient out of range, and it becomes the dividend. -/
theorem toInt_quotient (a b : Int32) :
    (a / b).toInt
      = if a.toInt = -2 ^ 31 ∧ b.toInt = -1 then -2 ^ 31 else a.toInt.tdiv b.toInt := by
  by_cases least : a = Int32.minValue
  · by_cases minus : b = -1
    · subst least minus
      decide
    · rw [Int32.toInt_div_of_ne_right a b minus, if_neg fun h => minus (Int32.toInt_inj.1 h.2)]
  · rw [Int32.toInt_div_of_ne_left a b least, if_neg fun h => least (Int32.toInt_inj.1 h.1)]

/-- **The law of division**: it holds in the arithmetic of the machine for every dividend. -/
theorem quotient_mul_add_remainder (a b : Int32) : a / b * b + a % b = a := by
  rw [← Int32.toInt_inj, Int32.toInt_add, Int32.toInt_mul, Int32.toInt_div, Int32.toInt_mod]
  calc ((((a.toInt.tdiv b.toInt).bmod (2 ^ 32) * b.toInt).bmod (2 ^ 32)
        + a.toInt.tmod b.toInt)).bmod (2 ^ 32)
      = (a.toInt.tdiv b.toInt * b.toInt + a.toInt.tmod b.toInt).bmod (2 ^ 32) := by
        rw [Int.bmod_add_bmod, ← Int.bmod_add_bmod, Int.bmod_mul_bmod, Int.bmod_add_bmod]
    _ = a.toInt.bmod (2 ^ 32) := by rw [Int.tdiv_mul_add_tmod]
    _ = a.toInt := Int32.toInt_bmod _

example : Int32.minValue / -1 * -1 + Int32.minValue % -1 = Int32.minValue := by decide

/-- A remainder is nearer to zero than the divisor, and on the side of the dividend. -/
theorem remainder_bounds (a : Int32) {b : Int32} (nonzero : b ≠ 0) :
    (a % b).toInt.natAbs < b.toInt.natAbs
      ∧ ((a % b).toInt = 0 ∨ (a % b).toInt.sign = a.toInt.sign) := by
  have different : b.toInt ≠ 0 := fun h => nonzero (Int32.toInt_inj.1 h)
  rw [Int32.toInt_mod, Int.natAbs_tmod, Int.sign_tmod]
  refine ⟨Nat.mod_lt _ (by omega), ?_⟩
  by_cases divides : b.toInt ∣ a.toInt
  · exact .inl (Int.tmod_eq_zero_of_dvd divides)
  · exact .inr (if_neg divides)

namespace Primitive

/-! ## The operations -/

/-- The operations that never fail on integers, with the numbers that they bring into range. -/
def wrapping : List (Primitive × (Int → Int → Int)) :=
  [(integerAdd, (· + ·)), (integerSub, (· - ·)), (integerMul, (· * ·))]

def divisions : List Primitive := [integerDiv, integerMod]

/-- The comparisons of integers, by what they decide. -/
def orders : List (Primitive × (Int → Int → Bool)) :=
  [(integerLt, fun a b => a < b), (integerLe, fun a b => a ≤ b), (integerGt, fun a b => a > b),
    (integerGe, fun a b => a ≥ b)]

/-- The operations that take nothing but integers. -/
def strict : List Primitive := wrapping.map (·.1) ++ divisions ++ orders.map (·.1)

variable (i : Image) (m : Memory) (a b : Int32)

theorem apply_wrapping {op : Primitive × (Int → Int → Int)} (h : op ∈ wrapping) :
    ∃ c : Int32, op.1.apply i m (.int a) [.int b] = .answer (.int c) m
      ∧ c.toInt = (op.2 a.toInt b.toInt).bmod (2 ^ 32) := by
  simp only [wrapping, List.mem_cons, List.not_mem_nil, or_false] at h
  obtain rfl | rfl | rfl := h
  · exact ⟨a + b, rfl, Int32.toInt_add a b⟩
  · exact ⟨a - b, rfl, Int32.toInt_sub a b⟩
  · exact ⟨a * b, rfl, Int32.toInt_mul a b⟩

theorem apply_order {op : Primitive × (Int → Int → Bool)} (h : op ∈ orders) :
    op.1.apply i m (.int a) [.int b] = .answer (.bool (op.2 a.toInt b.toInt)) m := by
  simp only [orders, List.mem_cons, List.not_mem_nil, or_false] at h
  obtain rfl | rfl | rfl | rfl := h
  all_goals
    refine congrArg (fun v => Reply.answer (.bool v) m) (decide_eq_decide.2 ?_)
    first | exact Int32.lt_iff_toInt_lt | exact Int32.le_iff_toInt_le

theorem divOperands_nonzero {b : Int32} (nonzero : b ≠ 0) :
    divOperands i (.int a) [.int b] = .ok (a, b) := by
  show (if b = 0 then _ else _) = _
  rw [if_neg nonzero]
  rfl

theorem apply_zero {p : Primitive} (h : p ∈ divisions) :
    p.apply i m (.int a) [.int 0] = .fault .divisionByZero m := by
  simp only [divisions, List.mem_cons, List.not_mem_nil, or_false] at h
  obtain rfl | rfl := h <;> rfl

/-- An operand that is no integer is refused before anything is computed. -/
theorem apply_strict {p : Primitive} (h : p ∈ strict) {v : Value} (other : ∀ n, v ≠ .int n) :
    p.apply i m (.int a) [v] = .fault (.wrongType "Integer" (i.className v)) m := by
  have operands : intOperands i (.int a) [v] = .error (.wrongType "Integer" (i.className v)) := by
    show expectInt i v >>= _ = _
    rw [expectInt_other other]
    rfl
  have division : divOperands i (.int a) [v] = .error (.wrongType "Integer" (i.className v)) := by
    rw [divOperands, operands]
    rfl
  simp only [strict, wrapping, divisions, orders, List.map_cons, List.map_nil, List.cons_append,
    List.nil_append, List.mem_cons, List.not_mem_nil, or_false] at h
  obtain rfl | rfl | rfl | rfl | rfl | rfl | rfl | rfl | rfl := h
  all_goals
    unfold apply
    first
    | rw [operands]
      rfl
    | rw [division]
      rfl

/-- **Integer primitives are exact.**  Sums, differences and products are brought into range.  A
division fails just if the divisor is zero; else the quotient and the remainder make up the dividend
again, in the arithmetic of the primitives themselves, the remainder is nearer to zero than the
divisor and has the sign of the dividend, and the quotient is rounded towards zero, but for the one
that is out of range.  The comparisons are those of the integers.  An operand that is no integer is
equal to none, and refused by all that do more than to tell whether they are equal. -/
theorem integers_are_exact :
    (∀ op ∈ wrapping, ∃ c : Int32, op.1.apply i m (.int a) [.int b] = .answer (.int c) m
      ∧ c.toInt = (op.2 a.toInt b.toInt).bmod (2 ^ 32))
    ∧ (b = 0 → ∀ p ∈ divisions, ∃ cause, p.apply i m (.int a) [.int b] = .fault cause m
      ∧ cause.kind = .internal ∧ cause.message = "division by zero")
    ∧ (b ≠ 0 → ∃ q r product : Int32,
      integerDiv.apply i m (.int a) [.int b] = .answer (.int q) m
      ∧ integerMod.apply i m (.int a) [.int b] = .answer (.int r) m
      ∧ integerMul.apply i m (.int q) [.int b] = .answer (.int product) m
      ∧ integerAdd.apply i m (.int product) [.int r] = .answer (.int a) m
      ∧ r.toInt.natAbs < b.toInt.natAbs
      ∧ (r.toInt = 0 ∨ r.toInt.sign = a.toInt.sign)
      ∧ q.toInt = if a.toInt = -2 ^ 31 ∧ b.toInt = -1 then -2 ^ 31 else a.toInt.tdiv b.toInt)
    ∧ (∀ op ∈ orders,
      op.1.apply i m (.int a) [.int b] = .answer (.bool (op.2 a.toInt b.toInt)) m)
    ∧ integerEq.apply i m (.int a) [.int b] = .answer (.bool (a.toInt = b.toInt)) m
    ∧ ∀ v : Value, (∀ n, v ≠ .int n) →
      (∀ p ∈ strict, ∃ cause, p.apply i m (.int a) [v] = .fault cause m
        ∧ cause.kind = .typeError ∧ cause.message = "expected Integer, got " ++ i.className v)
      ∧ integerEq.apply i m (.int a) [v] = .answer (.bool false) m := by
  refine ⟨fun op h => apply_wrapping i m a b h, fun zero p h => ?_, fun nonzero => ?_,
    fun op h => apply_order i m a b h, ?_, fun v other => ⟨fun p h => ?_, ?_⟩⟩
  · subst zero
    exact ⟨_, apply_zero i m a h, rfl, rfl⟩
  · have operands := divOperands_nonzero i a nonzero
    obtain ⟨near, side⟩ := remainder_bounds a nonzero
    refine ⟨a / b, a % b, a / b * b, ?_, ?_, rfl, ?_, near, side, toInt_quotient a b⟩
    · unfold apply
      rw [operands]
      rfl
    · unfold apply
      rw [operands]
      rfl
    · exact congrArg (fun c => Reply.answer (.int c) m) (quotient_mul_add_remainder a b)
  · exact congrArg (fun v => Reply.answer (.bool v) m) (decide_eq_decide.2 Int32.toInt_inj.symm)
  · exact ⟨_, apply_strict i m a h other, rfl, rfl⟩
  · cases v with
    | int n => exact absurd rfl (other n)
    | _ => rfl

end Primitive

end Colloquy
