import PaclinkUnix.Library.BitStream
import PaclinkUnix.LzhufDecode

/-!
What the decoder reads, as one stream of bits: those of `getbuf`, and then those of the
bytes `crc_fgetc` has still to give, with zeros behind the end of the input.
-/

namespace PaclinkUnix

open Memory BitStream

namespace Buffer

/-- After `n` more calls of `iterchar`. -/
def skip : Nat → Buffer → Buffer
  | 0, b => b
  | n + 1, b => skip n b.iterchar.2

def upcoming (b : Buffer) (n : Nat) : UInt8 := (skip n b).iterchar.1.getD 0

end Buffer

namespace BitReader

/-- The bits still to come are those of `f`. -/
structure Ready (reader : BitReader) (f : Nat → Bool) : Prop where
  low : reader.getlen ≤ 16
  clean : ∀ j, reader.getlen ≤ j → window reader.getbuf j = false
  held : ∀ n < reader.getlen, f n = window reader.getbuf n
  coming : ∀ n, f (reader.getlen + n) = byteBit (reader.inbuf.upcoming (n / 8)) (n % 8)

/-- A count of the bits that have been taken, with what holds in between and what holds behind
a single bit. -/
structure Counts (between behind : Nat → BitReader → Prop) : Prop where
  bit : ∀ {used reader value next}, between used reader → getBit reader = some (value, next) →
    behind (used + 1) next
  byte : ∀ {used reader value next}, between used reader → getByte reader = some (value, next) →
    between (used + 8) next
  either : ∀ {used reader}, behind used reader → between used reader

variable {reader : BitReader} {f : Nat → Bool}

theorem crcFgetc_fst (reader : BitReader) : reader.crcFgetc.1 = reader.inbuf.iterchar.1 := by
  unfold crcFgetc
  split <;> rename_i b read <;> rw [read]

theorem crcFgetc_inbuf (reader : BitReader) :
    reader.crcFgetc.2.inbuf = reader.inbuf.iterchar.2 := by
  unfold crcFgetc
  split <;> rename_i b read <;> rw [read]

theorem refill_ready (ready : Ready reader f) (few : reader.getlen ≤ 8) :
    ∃ next, refill reader = some (.inl next) ∧ next.getlen = reader.getlen + 8 ∧ Ready next f := by
  obtain ⟨low, clean, held, coming⟩ := ready
  have kept : reader.crcFgetc.2.getbuf = reader.getbuf ∧
      reader.crcFgetc.2.getlen = reader.getlen := by
    unfold crcFgetc
    split <;> exact ⟨rfl, rfl⟩
  refine ⟨_, by rw [refill, if_pos few], congrArg (· + 8) kept.2, ?_⟩
  have filled : ∀ j, window (reader.crcFgetc.2.getbuf |||
      ((reader.crcFgetc.1.getD 0).toBitVec.setWidth 32 <<< (8 - reader.crcFgetc.2.getlen))) j =
      (window reader.getbuf j || (decide (reader.getlen ≤ j) && (decide (j < reader.getlen + 8) &&
        byteBit (reader.inbuf.upcoming 0) (j - reader.getlen)))) := by
    intro j
    rw [window_or, window_shiftLeft, window_byte, kept.1, kept.2, crcFgetc_fst]
    have first : decide (8 ≤ j + (8 - reader.getlen)) = decide (reader.getlen ≤ j) :=
      decide_eq_decide.mpr (by omega)
    have second : decide (j + (8 - reader.getlen) < 16) = decide (j < reader.getlen + 8) :=
      decide_eq_decide.mpr (by omega)
    rw [first, second]
    by_cases late : reader.getlen ≤ j
    · rw [show j + (8 - reader.getlen) - 8 = j - reader.getlen by omega]
      rfl
    · rw [decide_eq_false late, Bool.false_and, Bool.false_and]
  constructor
  · simp only [kept.2]
    omega
  · intro j past
    simp only [kept.2] at past
    rw [filled, clean j (by omega), decide_eq_false (show ¬ j < reader.getlen + 8 by omega)]
    simp
  · intro n inside
    simp only [kept.2] at inside
    rw [filled]
    by_cases old : n < reader.getlen
    · rw [held n old, decide_eq_false (show ¬ reader.getlen ≤ n by omega)]
      simp
    · have value := coming (n - reader.getlen)
      rw [Nat.add_sub_cancel' (by omega), Nat.div_eq_of_lt (by omega), Nat.mod_eq_of_lt (by omega)]
        at value
      rw [value, clean n (by omega), decide_eq_true (show reader.getlen ≤ n by omega),
        decide_eq_true inside]
      rfl
  · intro n
    have value := coming (n + 8)
    simp only [kept.2]
    rw [Nat.add_assoc, Nat.add_comm 8 n, value, crcFgetc_inbuf,
      show (n + 8) / 8 = n / 8 + 1 by omega, show (n + 8) % 8 = n % 8 by omega]
    rfl

theorem fill_ready (ready : Ready reader f) :
    ∃ full, iterate refill 3 reader = some full ∧ 8 < full.getlen ∧ Ready full f := by
  refine iterate_total (fun left reader => left = (16 - reader.getlen) / 8 ∧ Ready reader f)
    ?_ ((16 - reader.getlen) / 8) (by omega) ⟨rfl, ready⟩
  rintro left reader ⟨rfl, ready⟩
  by_cases more : reader.getlen ≤ 8
  · obtain ⟨next, again, longer, kept⟩ := refill_ready ready more
    exact .inl ⟨next, again, (16 - next.getlen) / 8, by omega, rfl, kept⟩
  · exact .inr ⟨reader, by rw [refill, if_neg more], by omega, ready⟩

theorem Ready.taken {full : BitReader} (ready : Ready full f) {k : Nat} (enough : k ≤ full.getlen) :
    Ready { full with getbuf := full.getbuf <<< k, getlen := full.getlen - k } (beyond f k) := by
  obtain ⟨low, clean, held, coming⟩ := ready
  refine ⟨by simp only; omega, ?_, ?_, ?_⟩
  · intro j past
    simp only at past
    rw [window_shiftLeft]
    exact clean _ (by omega)
  · intro n inside
    simp only at inside
    rw [window_shiftLeft]
    exact held _ (by omega)
  · intro n
    simp only
    rw [beyond, show full.getlen - k + n + k = full.getlen + n by omega]
    exact coming n

theorem getBit_ready (ready : Ready reader f) :
    ∃ next, reader.getBit = some ((f 0).toNat, next) ∧ Ready next (beyond f 1) := by
  obtain ⟨full, fills, enough, kept⟩ := fill_ready ready
  refine ⟨_, ?_, kept.taken (by omega)⟩
  have top : (full.getbuf &&& 0x8000 ≠ 0) ↔ f 0 = true := by
    rw [kept.held 0 (by omega)]
    exact top_set
  rw [getBit, fills]
  simp only [Option.bind_eq_bind, Option.bind_some]
  by_cases set : f 0 = true
  · rw [if_pos (top.mpr set), set]
    rfl
  · rw [if_neg (fun bit => set (top.mp bit)), (Bool.not_eq_true _).mp set]
    rfl

theorem getByte_ready (ready : Ready reader f) :
    ∃ next, reader.getByte = some (number f 8, next) ∧ Ready next (beyond f 8) := by
  obtain ⟨full, fills, enough, kept⟩ := fill_ready ready
  refine ⟨_, ?_, kept.taken (by omega)⟩
  have value : ((full.getbuf >>> 8) &&& 0xff).toNat = number f 8 := by
    apply Nat.eq_of_testBit_eq
    intro k
    rw [high_testBit, number_testBit]
    by_cases inside : k < 8
    · rw [kept.held _ (by omega)]
    · rw [decide_eq_false inside, Bool.false_and, Bool.false_and]
  rw [getByte, fills]
  simp only [Option.bind_eq_bind, Option.bind_some, value]

end BitReader

end PaclinkUnix
