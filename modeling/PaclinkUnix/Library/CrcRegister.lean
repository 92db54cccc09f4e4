import Mathlib

/-!
Cyclic redundancy checks of any width, most significant bit first. A register of `w` bits
stands for a polynomial over the field of two elements; feeding it the bits of a message
leaves the remainder of the message, with `w` zeros behind it, modulo the generator. A table
with one entry for each value of `n` bits feeds `n` bits at a time.
-/

namespace CrcRegister

open Polynomial

def coefficient (bit : Bool) : ZMod 2 := if bit then 1 else 0

/-- The highest bit of the register belongs to the highest power. -/
noncomputable def polynomial {w : Nat} (v : BitVec w) : (ZMod 2)[X] :=
  ∑ i ∈ Finset.range w, C (coefficient (v.getLsbD i)) * X ^ i

/-- The first bit belongs to the highest power. -/
noncomputable def message (bits : List Bool) : (ZMod 2)[X] :=
  bits.foldl (fun p bit => p * X + C (coefficient bit)) 0

/-- The generator whose terms below `X ^ w` are those of `low`. -/
noncomputable def generator {w : Nat} (low : BitVec w) : (ZMod 2)[X] := X ^ w + polynomial low

/-- One bit more: it is added to the highest bit, and what is then shifted out is subtracted
as a multiple of the generator. -/
def shiftIn {w : Nat} (low register : BitVec w) (bit : Bool) : BitVec w :=
  if register.msb ^^ bit then (register <<< 1) ^^^ low else register <<< 1

def feed {w : Nat} (low register : BitVec w) (bits : List Bool) : BitVec w :=
  bits.foldl (shiftIn low) register

/-- The bits of a value, the highest one first. -/
def bitsOf {n : Nat} (v : BitVec n) : List Bool := (List.range n).map v.getMsbD

section Registers

variable {w : Nat} {a b low : BitVec w}

@[simp] theorem coefficient_false : coefficient false = 0 := rfl

@[simp] theorem coefficient_true : coefficient true = 1 := rfl

theorem coefficient_xor (x y : Bool) : coefficient (x ^^ y) = coefficient x + coefficient y := by
  cases x <;> cases y <;> decide

theorem coefficient_inj {x y : Bool} (same : coefficient x = coefficient y) : x = y := by
  revert same
  cases x <;> cases y <;> decide

theorem polynomial_coeff (k : Nat) : (polynomial a).coeff k = coefficient (a.getLsbD k) := by
  simp only [polynomial, finsetSum_coeff, coeff_C_mul_X_pow]
  by_cases inside : k < w
  · rw [Finset.sum_ite_eq, if_pos (Finset.mem_range.mpr inside)]
  · rw [Finset.sum_ite_eq, if_neg (fun member => inside (Finset.mem_range.mp member)),
      BitVec.getLsbD_of_ge _ _ (Nat.le_of_not_lt inside), coefficient_false]

theorem polynomial_inj (same : polynomial a = polynomial b) : a = b := by
  apply BitVec.eq_of_getLsbD_eq
  intro k _
  apply coefficient_inj
  rw [← polynomial_coeff, ← polynomial_coeff, same]

theorem polynomial_zero : polynomial (0 : BitVec w) = 0 := by
  ext k
  rw [polynomial_coeff, coeff_zero, show (0 : BitVec w).getLsbD k = false from BitVec.getLsbD_zero]
  rfl

theorem polynomial_xor : polynomial (a ^^^ b) = polynomial a + polynomial b := by
  ext k
  rw [coeff_add, polynomial_coeff, polynomial_coeff, polynomial_coeff, BitVec.getLsbD_xor,
    coefficient_xor]

theorem polynomial_degree : (polynomial a).degree < w := by
  rw [degree_lt_iff_coeff_zero]
  intro k past
  rw [polynomial_coeff, BitVec.getLsbD_of_ge _ _ past, coefficient_false]

theorem generator_monic : (generator low).Monic := monic_X_pow_add polynomial_degree

theorem generator_degree : (generator low).degree = w := by
  have below : (polynomial low).degree < (X ^ w : (ZMod 2)[X]).degree := by
    rw [degree_X_pow]
    exact polynomial_degree
  rw [generator, degree_add_eq_left_of_degree_lt below, degree_X_pow]

theorem polynomial_reduced : polynomial a %ₘ generator low = polynomial a := by
  rw [modByMonic_eq_self_iff generator_monic, generator_degree]
  exact polynomial_degree

/-- Shifted to the left by `n`, a register loses the polynomial of its first `n` bits. -/
theorem polynomial_shiftLeft {n : Nat} (narrow : n ≤ w) :
    polynomial a * X ^ n =
      polynomial (a <<< n) + polynomial ((a >>> (w - n)).setWidth n) * X ^ w := by
  ext k
  rw [coeff_add, coeff_mul_X_pow', coeff_mul_X_pow', polynomial_coeff, polynomial_coeff,
    polynomial_coeff, BitVec.getLsbD_shiftLeft, BitVec.getLsbD_setWidth, BitVec.getLsbD_ushiftRight]
  by_cases early : k < n
  · rw [if_neg (by omega), if_neg (by omega), decide_eq_true early]
    simp
  · rw [if_pos (by omega), decide_eq_false early]
    by_cases inside : k < w
    · rw [if_neg (by omega), decide_eq_true inside]
      simp
    · rw [if_pos (by omega), decide_eq_false inside, show w - n + (k - w) = k - n by omega]
      by_cases last : k - w < n
      · rw [decide_eq_true last]
        simp
      · rw [BitVec.getLsbD_of_ge _ _ (show w ≤ k - n by omega)]
        simp

end Registers

section Messages

variable {w : Nat} {low register : BitVec w} {bits more : List Bool}

theorem message_append :
    message (bits ++ more) = message bits * X ^ more.length + message more := by
  induction more using List.reverseRecOn with
  | nil => simp [message]
  | append_singleton more bit ih =>
      have last : ∀ front, message (front ++ [bit]) = message front * X + C (coefficient bit) := by
        intro front
        simp only [message, List.foldl_append, List.foldl_cons, List.foldl_nil]
      rw [← List.append_assoc, last, last, ih, List.length_append, List.length_singleton]
      ring

theorem message_cons (bit : Bool) :
    message (bit :: bits) = C (coefficient bit) * X ^ bits.length + message bits := by
  have single : message [bit] = C (coefficient bit) := by simp [message]
  rw [← single, ← message_append, List.singleton_append]

theorem message_coeff (k : Nat) : (message bits).coeff k =
    coefficient (decide (k < bits.length) && bits.getD (bits.length - 1 - k) false) := by
  induction bits with
  | nil => simp [message]
  | cons bit rest ih =>
      rw [message_cons, coeff_add, coeff_C_mul_X_pow, ih, List.length_cons, Nat.add_sub_cancel]
      by_cases early : k < rest.length
      · rw [if_neg (by omega), zero_add, decide_eq_true early, decide_eq_true (by omega),
          show rest.length - k = rest.length - 1 - k + 1 by omega, List.getD_cons_succ]
      · by_cases first : k = rest.length
        · rw [if_pos first, decide_eq_false early, decide_eq_true (by omega), first, Nat.sub_self,
            List.getD_cons_zero]
          simp
        · rw [if_neg first, decide_eq_false early, decide_eq_false (by omega)]
          simp

@[simp] theorem bitsOf_length {n : Nat} {v : BitVec n} : (bitsOf v).length = n := by
  rw [bitsOf, List.length_map, List.length_range]

theorem message_bitsOf {n : Nat} (v : BitVec n) : message (bitsOf v) = polynomial v := by
  ext k
  rw [message_coeff, polynomial_coeff, bitsOf_length]
  by_cases inside : k < n
  · have place : (bitsOf v).getD (n - 1 - k) false = v.getMsbD (n - 1 - k) := by
      rw [List.getD_eq_getElem _ _ (by rw [bitsOf_length]; omega)]
      simp [bitsOf]
    rw [place, BitVec.getMsbD_eq_getLsbD, decide_eq_true inside,
      decide_eq_true (show n - 1 - k < n by omega), show n - 1 - (n - 1 - k) = k by omega,
      Bool.true_and, Bool.true_and]
  · rw [decide_eq_false inside, BitVec.getLsbD_of_ge _ _ (Nat.le_of_not_lt inside), Bool.false_and]

theorem polynomial_top : polynomial ((register >>> (w - 1)).setWidth 1) = C (coefficient register.msb) := by
  ext k
  rw [polynomial_coeff, coeff_C, BitVec.getLsbD_setWidth, BitVec.getLsbD_ushiftRight]
  by_cases first : k = 0
  · rw [if_pos first, decide_eq_true (by omega), first, Nat.add_zero, BitVec.msb_eq_getLsbD_last,
      Bool.true_and]
  · rw [if_neg first, decide_eq_false (by omega), Bool.false_and, coefficient_false]

theorem reduced_front (g p q r : (ZMod 2)[X]) (monic : g.Monic) :
    ((p %ₘ g) * q + r) %ₘ g = (p * q + r) %ₘ g := by
  have twice : (p %ₘ g) %ₘ g = p %ₘ g :=
    (modByMonic_eq_self_iff monic).mpr (degree_modByMonic_lt p monic)
  rw [add_modByMonic, add_modByMonic, mul_modByMonic, twice, ← mul_modByMonic]

/-- One bit is a multiplication by `X` and an addition, modulo the generator. -/
theorem shiftIn_remainder (wide : 1 ≤ w) (bit : Bool) : polynomial (shiftIn low register bit) =
    (polynomial register * X + C (coefficient bit) * X ^ w) %ₘ generator low := by
  have shifted := polynomial_shiftLeft (a := register) wide
  rw [polynomial_top, pow_one] at shifted
  refine ((div_modByMonic_unique (C (coefficient (register.msb ^^ bit))) _ generator_monic
    ⟨?_, ?_⟩).2).symm
  · have joined : polynomial (register <<< 1) + C (coefficient register.msb) * X ^ w +
        C (coefficient bit) * X ^ w =
        polynomial (register <<< 1) + C (coefficient (register.msb ^^ bit)) * X ^ w := by
      rw [coefficient_xor, C_add]
      ring
    rw [shifted, joined, shiftIn, generator]
    cases register.msb ^^ bit with
    | false => simp
    | true =>
        have twice : polynomial low + polynomial low = 0 := CharTwo.add_self_eq_zero _
        rw [if_pos rfl, polynomial_xor, coefficient_true, C_1, mul_one, one_mul, add_assoc,
          add_left_comm (polynomial low), twice, add_zero]
  · rw [generator_degree]
    exact polynomial_degree

theorem feed_remainder (wide : 1 ≤ w) : polynomial (feed low register bits) =
    (polynomial register * X ^ bits.length + message bits * X ^ w) %ₘ generator low := by
  induction bits generalizing register with
  | nil =>
      rw [feed, List.foldl_nil, List.length_nil, pow_zero, mul_one, message, List.foldl_nil, zero_mul,
        add_zero, polynomial_reduced]
  | cons bit rest ih =>
      have step : feed low register (bit :: rest) = feed low (shiftIn low register bit) rest := rfl
      rw [step, ih, shiftIn_remainder wide, reduced_front _ _ _ _ generator_monic, message_cons,
        List.length_cons]
      congr 1
      ring

/-- A table of the values of `n` bits takes `n` bits in one step. -/
theorem feed_bitsOf {n : Nat} (wide : 1 ≤ w) (narrow : n ≤ w) (v : BitVec n) :
    feed low register (bitsOf v) =
      (register <<< n) ^^^ feed low 0 (bitsOf (v ^^^ (register >>> (w - n)).setWidth n)) := by
  apply polynomial_inj
  rw [polynomial_xor, feed_remainder wide, feed_remainder wide, message_bitsOf, message_bitsOf,
    bitsOf_length, bitsOf_length, polynomial_zero, zero_mul, zero_add, polynomial_xor,
    polynomial_shiftLeft narrow, ← @polynomial_reduced w (register <<< n) low,
    ← add_modByMonic, polynomial_reduced]
  congr 1
  ring

end Messages

end CrcRegister
