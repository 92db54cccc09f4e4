import Mathlib.Algebra.Ring.Nat
import Mathlib.Data.List.GetD

/-!
Bits in the order in which they are sent: those of bytes, from the highest of the first byte
on, and those of the lower half of a 32-bit word, from bit 15 down. Both are functions of the
place, with zeros behind the end.
-/

namespace BitStream

def byteBit (c : UInt8) (i : Nat) : Bool := c.toBitVec.getMsbD i

def bitAt (bytes : List UInt8) (n : Nat) : Bool := byteBit (bytes.getD (n / 8) 0) (n % 8)

def window (v : BitVec 32) (j : Nat) : Bool := decide (j < 16) && v.getLsbD (15 - j)

def Small (v : BitVec 32) : Prop := ∀ k, 16 ≤ k → v.getLsbD k = false

def beyond (f : Nat → Bool) (k : Nat) : Nat → Bool := fun n => f (n + k)

def Starts (f : Nat → Bool) (code : List Bool) : Prop := ∀ j < code.length, f j = code.getD j false

/-- The first `l` bits of a word. -/
def word (l : Nat) (v : BitVec 32) : List Bool := (List.range l).map (window v)

/-- The value of the first `n` bits. -/
def number (f : Nat → Bool) : Nat → Nat
  | 0 => 0
  | n + 1 => 2 * number f n + (f n).toNat

section Bytes

variable {c : UInt8} {bytes more : List UInt8} {n : Nat}

theorem bitAt_past (past : 8 * bytes.length ≤ n) : bitAt bytes n = false := by
  rw [bitAt, List.getD_eq_default _ _ (by omega)]
  simp [byteBit]

theorem bitAt_cons : bitAt (c :: bytes) n = if n < 8 then byteBit c n else bitAt bytes (n - 8) := by
  by_cases first : n < 8
  · rw [if_pos first, bitAt, Nat.div_eq_of_lt first, Nat.mod_eq_of_lt first]
    rfl
  · rw [if_neg first, bitAt, bitAt, show n / 8 = (n - 8) / 8 + 1 by omega,
      show n % 8 = (n - 8) % 8 by omega]
    rfl

theorem bitAt_append : bitAt (bytes ++ more) n =
    if n < 8 * bytes.length then bitAt bytes n else bitAt more (n - 8 * bytes.length) := by
  by_cases first : n < 8 * bytes.length
  · rw [if_pos first, bitAt, bitAt, List.getD_append _ _ _ _ (by omega)]
  · rw [if_neg first, bitAt, bitAt, List.getD_append_right _ _ _ _ (by omega),
      show n / 8 - bytes.length = (n - 8 * bytes.length) / 8 by omega,
      show n % 8 = (n - 8 * bytes.length) % 8 by omega]

theorem bitAt_drop {k : Nat} : bitAt (bytes.drop k) n = bitAt bytes (8 * k + n) := by
  rw [bitAt, bitAt, List.getD_eq_getElem?_getD, List.getElem?_drop, ← List.getD_eq_getElem?_getD,
    show k + n / 8 = (8 * k + n) / 8 by omega, show n % 8 = (8 * k + n) % 8 by omega]

theorem bytes_ext (length : bytes.length = more.length)
    (same : ∀ n < 8 * bytes.length, bitAt bytes n = bitAt more n) : bytes = more := by
  refine List.ext_getElem length fun k inside inside' => ?_
  apply UInt8.toBitVec_inj.mp
  apply BitVec.eq_of_getMsbD_eq
  intro i low
  have bit := same (8 * k + i) (by omega)
  rw [bitAt, bitAt, show (8 * k + i) / 8 = k by omega, show (8 * k + i) % 8 = i by omega,
    List.getD_eq_getElem _ _ inside, List.getD_eq_getElem _ _ inside'] at bit
  exact bit

end Bytes

section Words

variable {a b c : BitVec 32} {k : Nat}

theorem window_past {j : Nat} (past : 16 ≤ j) : window a j = false := by
  rw [window, decide_eq_false (by omega), Bool.false_and]

theorem window_or (j : Nat) : window (a ||| b) j = (window a j || window b j) := by
  simp only [window, BitVec.getLsbD_or]
  cases decide (j < 16) <;> rfl

theorem window_shiftRight (small : Small c) (j : Nat) :
    window (c >>> k) j = if j < k then false else decide (j < 16) && window c (j - k) := by
  simp only [window, BitVec.getLsbD_ushiftRight]
  by_cases before : j < k
  · rw [if_pos before]
    by_cases inside : j < 16
    · rw [small (k + (15 - j)) (by omega), Bool.and_false]
    · rw [decide_eq_false inside, Bool.false_and]
  · rw [if_neg before]
    by_cases inside : j < 16
    · rw [decide_eq_true inside, decide_eq_true (show j - k < 16 by omega),
        show k + (15 - j) = 15 - (j - k) by omega]
      rfl
    · rw [decide_eq_false inside, Bool.false_and, Bool.false_and]

theorem window_shiftLeft (j : Nat) : window (c <<< k) j = window c (j + k) := by
  simp only [window, BitVec.getLsbD_shiftLeft]
  by_cases inside : j + k < 16
  · rw [decide_eq_true inside, decide_eq_true (show j < 16 by omega),
      decide_eq_true (show 15 - j < 32 by omega), decide_eq_false (show ¬ 15 - j < k by omega),
      show 15 - j - k = 15 - (j + k) by omega]
    rfl
  · rw [decide_eq_false inside, Bool.false_and]
    by_cases before : j < 16
    · rw [decide_eq_true (show 15 - j < k by omega)]
      simp
    · rw [decide_eq_false before, Bool.false_and]

theorem byteBit_high {i : Nat} (inside : i < 8) :
    byteBit (UInt8.ofBitVec ((a >>> 8).setWidth 8)) i = window a i := by
  simp only [byteBit, window, BitVec.getMsbD_eq_getLsbD, BitVec.getLsbD_setWidth,
    BitVec.getLsbD_ushiftRight, decide_eq_true inside, decide_eq_true (show i < 16 by omega),
    decide_eq_true (show 8 - 1 - i < 8 by omega), Bool.true_and]
  congr 1
  omega

theorem byteBit_low {i : Nat} (inside : i < 8) :
    byteBit (UInt8.ofBitVec (a.setWidth 8)) i = window a (i + 8) := by
  simp only [byteBit, window, BitVec.getMsbD_eq_getLsbD, BitVec.getLsbD_setWidth,
    decide_eq_true inside, decide_eq_true (show i + 8 < 16 by omega),
    decide_eq_true (show 8 - 1 - i < 8 by omega), Bool.true_and]
  congr 1
  omega

theorem window_byte {c : UInt8} (j : Nat) :
    window (c.toBitVec.setWidth 32) j = (decide (8 ≤ j) && (decide (j < 16) && byteBit c (j - 8))) := by
  simp only [window, byteBit, BitVec.getLsbD_setWidth, BitVec.getMsbD_eq_getLsbD]
  by_cases inside : j < 16
  · by_cases late : 8 ≤ j
    · rw [decide_eq_true inside, decide_eq_true late, decide_eq_true (show 15 - j < 32 by omega),
        decide_eq_true (show j - 8 < 8 by omega), show 8 - 1 - (j - 8) = 15 - j by omega]
      rfl
    · rw [BitVec.getLsbD_of_ge _ _ (show 8 ≤ 15 - j by omega), decide_eq_false late]
      simp
  · rw [decide_eq_false inside]
    simp

theorem top_set : a &&& 0x8000 ≠ 0 ↔ window a 0 = true := by
  rw [show (0x8000 : BitVec 32) = BitVec.twoPow 32 15 from rfl, BitVec.and_twoPow]
  change _ ↔ (true && a.getLsbD 15) = true
  cases a.getLsbD 15 with
  | false => simp
  | true => exact iff_of_true (by decide) rfl

theorem high_testBit : ((a >>> 8) &&& 0xff).toNat.testBit k = (decide (k < 8) && window a (7 - k)) := by
  have mask : (0xff : BitVec 32) = (BitVec.allOnes 8).setWidth 32 := by decide
  rw [BitVec.testBit_toNat, BitVec.getLsbD_and, BitVec.getLsbD_ushiftRight, mask,
    BitVec.getLsbD_setWidth, BitVec.getLsbD_allOnes]
  by_cases inside : k < 8
  · rw [window, decide_eq_true inside, decide_eq_true (show k < 32 by omega),
      decide_eq_true (show 7 - k < 16 by omega), show 15 - (7 - k) = 8 + k by omega]
    simp
  · rw [decide_eq_false inside]
    simp

end Words

section Numbers

variable {f g : Nat → Bool} {n k : Nat}

theorem number_testBit : (number f n).testBit k = (decide (k < n) && f (n - 1 - k)) := by
  induction n generalizing k with
  | zero => simp [number]
  | succ n ih =>
      cases k with
      | zero =>
          rw [number, Nat.testBit_zero, Nat.add_sub_cancel, Nat.sub_zero]
          cases f n <;> simp
      | succ k =>
          have half : (2 * number f n + (f n).toNat) / 2 = number f n := by
            have small := Bool.toNat_le (f n)
            omega
          rw [number, Nat.testBit_succ, half, ih, show n + 1 - 1 - (k + 1) = n - 1 - k by omega]
          by_cases inside : k < n
          · rw [decide_eq_true inside, decide_eq_true (show k + 1 < n + 1 by omega)]
          · rw [decide_eq_false inside, decide_eq_false (show ¬ k + 1 < n + 1 by omega)]

theorem number_lt : number f n < 2 ^ n := by
  induction n with
  | zero => exact Nat.one_pos
  | succ n ih =>
      have small := Bool.toNat_le (f n)
      rw [number, Nat.pow_succ]
      omega

end Numbers

section Codes

variable {f : Nat → Bool} {first second : List Bool}

theorem starts_append :
    Starts f (first ++ second) ↔ Starts f first ∧ Starts (beyond f first.length) second := by
  constructor
  · intro starts
    constructor
    · intro j inside
      rw [starts j (by rw [List.length_append]; omega), List.getD_append _ _ _ _ inside]
    · intro j inside
      rw [beyond, starts (j + first.length) (by rw [List.length_append]; omega),
        List.getD_append_right _ _ _ _ (by omega), Nat.add_sub_cancel]
  · rintro ⟨early, late⟩ j inside
    rw [List.length_append] at inside
    by_cases front : j < first.length
    · rw [early j front, List.getD_append _ _ _ _ front]
    · have value := late (j - first.length) (by omega)
      rw [beyond, Nat.sub_add_cancel (by omega)] at value
      rw [value, List.getD_append_right _ _ _ _ (by omega)]

@[simp] theorem word_length {l : Nat} {v : BitVec 32} : (word l v).length = l := by
  rw [word, List.length_map, List.length_range]

theorem word_bits {l : Nat} {v : BitVec 32} (j : Nat) :
    (word l v).getD j false = (decide (j < l) && window v j) := by
  by_cases inside : j < l
  · rw [List.getD_eq_getElem _ _ (by rw [word_length]; exact inside), decide_eq_true inside]
    simp [word]
  · rw [List.getD_eq_default _ _ (by rw [word_length]; omega), decide_eq_false inside,
      Bool.false_and]

theorem starts_word {l : Nat} {v : BitVec 32} :
    Starts f (word l v) ↔ ∀ j < l, f j = window v j := by
  constructor
  · intro starts j inside
    rw [starts j (by rw [word_length]; exact inside), word_bits, decide_eq_true inside,
      Bool.true_and]
  · intro same j inside
    rw [word_length] at inside
    rw [same j inside, word_bits, decide_eq_true inside, Bool.true_and]

theorem starts_nil : Starts f [] := fun j none => absurd none (Nat.not_lt_zero j)

@[simp] theorem beyond_zero : beyond f 0 = f := rfl

theorem beyond_beyond {j k : Nat} : beyond (beyond f j) k = beyond f (j + k) := by
  funext n
  rw [beyond, beyond, beyond, Nat.add_assoc, Nat.add_comm k j]

end Codes

end BitStream
