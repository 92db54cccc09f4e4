import Mathlib.Data.Nat.Bitwise
import PaclinkUnix.Library.BlockHash
import PaclinkUnix.Md5

/-!
The digest as RFC 1321 defines it, and the proof that `md5.c` computes it, however the
message is cut into the buffers that `md5_process` is given.
-/

namespace PaclinkUnix

open BlockHash

namespace Rfc1321

def roundF (x y z : UInt32) : UInt32 := (x &&& y) ||| (~~~x &&& z)
def roundG (x y z : UInt32) : UInt32 := (x &&& z) ||| (y &&& ~~~z)
def roundH (x y z : UInt32) : UInt32 := x ^^^ y ^^^ z
def roundI (x y z : UInt32) : UInt32 := y ^^^ (x ||| ~~~z)

def func (step : Nat) : UInt32 → UInt32 → UInt32 → UInt32 :=
  if step < 16 then roundF else if step < 32 then roundG else if step < 48 then roundH else roundI

def index (step : Nat) : Nat :=
  if step < 16 then step else if step < 32 then (5 * step + 1) % 16
  else if step < 48 then (3 * step + 5) % 16 else 7 * step % 16

def shift (step : Nat) : Nat :=
  ([7, 12, 17, 22, 5, 9, 14, 20, 4, 11, 16, 23, 6, 10, 15, 21].getD
    (step / 16 * 4 + step % 4) 0)

/-- The table T of the definition, the integer part of `4294967296 * abs(sin(step + 1))`. -/
def sineTable : List UInt32 := [
  0xd76aa478, 0xe8c7b756, 0x242070db, 0xc1bdceee, 0xf57c0faf, 0x4787c62a, 0xa8304613, 0xfd469501,
  0x698098d8, 0x8b44f7af, 0xffff5bb1, 0x895cd7be, 0x6b901122, 0xfd987193, 0xa679438e, 0x49b40821,
  0xf61e2562, 0xc040b340, 0x265e5a51, 0xe9b6c7aa, 0xd62f105d, 0x02441453, 0xd8a1e681, 0xe7d3fbc8,
  0x21e1cde6, 0xc33707d6, 0xf4d50d87, 0x455a14ed, 0xa9e3e905, 0xfcefa3f8, 0x676f02d9, 0x8d2a4c8a,
  0xfffa3942, 0x8771f681, 0x6d9d6122, 0xfde5380c, 0xa4beea44, 0x4bdecfa9, 0xf6bb4b60, 0xbebfbc70,
  0x289b7ec6, 0xeaa127fa, 0xd4ef3085, 0x04881d05, 0xd9d4d039, 0xe6db99e5, 0x1fa27cf8, 0xc4ac5665,
  0xf4292244, 0x432aff97, 0xab9423a7, 0xfc93a039, 0x655b59c3, 0x8f0ccc92, 0xffeff47d, 0x85845dd1,
  0x6fa87e4f, 0xfe2ce6e0, 0xa3014314, 0x4e0811a1, 0xf7537e82, 0xbd3af235, 0x2ad7d2bb, 0xeb86d391]

def rotate (x : UInt32) (count : Nat) : UInt32 := ⟨x.toBitVec.rotateLeft count⟩

def turn (words : List UInt32) (sums : Sums) (step : Nat) : Sums where
  a := sums.d
  b := sums.b + rotate (sums.a + func step sums.b sums.c sums.d + correctWord words (index step) +
    sineTable.getD step 0) (shift step)
  c := sums.b
  d := sums.c

def compress (sums : Sums) (block : Bytes) : Sums :=
  ((List.range 64).foldl (turn (correctWords block)) sums).add sums

def initial : Sums := ⟨0x67452301, 0xefcdab89, 0x98badcfe, 0x10325476⟩

def littleBytes (count value : Nat) : Bytes :=
  (List.range count).map fun place => UInt8.ofNat (value / 256 ^ place)

/-- One bit 1, bits 0 up to eight bytes before the end of a block, and the length in bits. -/
def padding (length : Nat) : Bytes :=
  0x80 :: List.replicate ((119 - length % 64) % 64) 0 ++ littleBytes 8 (8 * length % 2 ^ 64)

def output (sums : Sums) : Bytes :=
  littleBytes 4 sums.a.toNat ++ littleBytes 4 sums.b.toNat ++ littleBytes 4 sums.c.toNat ++
    littleBytes 4 sums.d.toNat

def md5 (message : Bytes) : Bytes :=
  output (digest compress 64 initial (message ++ padding message.length))

end Rfc1321

open Rfc1321

theorem ff_choice : ff = roundF := by
  funext b c d
  apply UInt32.eq_of_toBitVec_eq
  ext place inside
  simp only [ff, roundF, UInt32.toBitVec_xor, UInt32.toBitVec_and, UInt32.toBitVec_or,
    UInt32.toBitVec_not, BitVec.getElem_xor, BitVec.getElem_and, BitVec.getElem_or,
    BitVec.getElem_not]
  cases b.toBitVec[place] <;> cases c.toBitVec[place] <;> cases d.toBitVec[place] <;> rfl

theorem fg_choice : fg = roundG := by
  funext b c d
  apply UInt32.eq_of_toBitVec_eq
  ext place inside
  simp only [fg, ff, roundG, UInt32.toBitVec_xor, UInt32.toBitVec_and, UInt32.toBitVec_or,
    UInt32.toBitVec_not, BitVec.getElem_xor, BitVec.getElem_and, BitVec.getElem_or,
    BitVec.getElem_not]
  cases b.toBitVec[place] <;> cases c.toBitVec[place] <;> cases d.toBitVec[place] <;> rfl

theorem fh_parity : fh = roundH := rfl

theorem fi_mix : fi = roundI := rfl

theorem cyclic_rotate (w s : UInt32) (positive : 0 < s.toNat) (inside : s.toNat < 32) :
    cyclic w s = rotate w s.toNat := by
  apply UInt32.eq_of_toBitVec_eq
  have left : (32 - s).toNat = 32 - s.toNat :=
    UInt32.toNat_sub_of_le _ _ (UInt32.le_iff_toNat_le.mpr (by simpa using inside.le))
  simp [cyclic, rotate, UInt32.toBitVec_shiftLeft, UInt32.toBitVec_shiftRight,
    BitVec.rotateLeft_def, Nat.mod_eq_of_lt inside]
  congr 2
  omega

/-- An operation of `md5_loc.h` in the place of the first register, then one turn. -/
def turned (sums : Sums) (func : UInt32 → UInt32 → UInt32 → UInt32) (k s t : UInt32) : Sums :=
  ⟨sums.d, Sums.op func sums.a sums.b sums.c sums.d k s t, sums.b, sums.c⟩

theorem four_turns (sums : Sums) (func : UInt32 → UInt32 → UInt32 → UInt32)
    (k s t k' s' t' k'' s'' t'' k''' s''' t''' : UInt32) :
    (((sums.opA func k s t).opD func k' s' t').opC func k'' s'' t'').opB func k''' s''' t''' =
      turned (turned (turned (turned sums func k s t) func k' s' t') func k'' s'' t'') func
        k''' s''' t''' := rfl

theorem turn_turned (words : List UInt32) (sums : Sums) (step : Nat)
    (positive : 0 < shift step) (inside : shift step < 32) :
    turn words sums step = turned sums (func step) (correctWord words (index step))
      (UInt32.ofNat (shift step)) (sineTable.getD step 0) := by
  have short : (UInt32.ofNat (shift step)).toNat = shift step :=
    UInt32.toNat_ofNat_of_lt' (by unfold UInt32.size; omega)
  rw [turn, turned, Sums.op, cyclic_rotate _ _ (by omega) (by omega), short, UInt32.add_comm,
    UInt32.add_assoc, UInt32.add_assoc, UInt32.add_assoc]

theorem shift_inside : ∀ step < 64, 0 < shift step ∧ shift step < 32 := by decide

theorem turns_turned (words : List UInt32) (steps : List Nat) (sums : Sums)
    (inside : ∀ step ∈ steps, step < 64) :
    steps.foldl (turn words) sums = steps.foldl (fun sums step => turned sums (func step)
      (correctWord words (index step)) (UInt32.ofNat (shift step)) (sineTable.getD step 0)) sums := by
  induction steps generalizing sums with
  | nil => rfl
  | cons step steps ih =>
      obtain ⟨positive, short⟩ := shift_inside step (inside step (by simp))
      rw [List.foldl_cons, List.foldl_cons, turn_turned words sums step positive short,
        ih _ fun later member => inside later (List.mem_cons_of_mem _ member)]

theorem round1_turns (words : List UInt32) (sums : Sums) :
    round1 words sums = (List.range' 0 16).foldl (turn words) sums := by
  rw [turns_turned words _ sums (by decide)]
  simp only [round1, four_turns, ff_choice, List.range', List.foldl_cons, List.foldl_nil]
  rfl

theorem round2_turns (words : List UInt32) (sums : Sums) :
    round2 words sums = (List.range' 16 16).foldl (turn words) sums := by
  rw [turns_turned words _ sums (by decide)]
  simp only [round2, four_turns, fg_choice, List.range', List.foldl_cons, List.foldl_nil]
  rfl

theorem round3_turns (words : List UInt32) (sums : Sums) :
    round3 words sums = (List.range' 32 16).foldl (turn words) sums := by
  rw [turns_turned words _ sums (by decide)]
  simp only [round3, four_turns, fh_parity, List.range', List.foldl_cons, List.foldl_nil]
  rfl

theorem round4_turns (words : List UInt32) (sums : Sums) :
    round4 words sums = (List.range' 48 16).foldl (turn words) sums := by
  rw [turns_turned words _ sums (by decide)]
  simp only [round4, four_turns, fi_mix, List.range', List.foldl_cons, List.foldl_nil]
  rfl

theorem oneBlock_compress (sums : Sums) (block : Bytes) :
    oneBlock sums block = compress sums block := by
  have steps : List.range 64 = List.range' 0 16 ++ List.range' 16 16 ++ List.range' 32 16 ++
      List.range' 48 16 := by decide
  rw [oneBlock, compress, steps, List.foldl_append, List.foldl_append, List.foldl_append,
    ← round1_turns, ← round2_turns, ← round3_turns, ← round4_turns]

def Md5.total (md5 : Md5) : Nat := md5.total1.toNat * 2 ^ 32 + md5.total0.toNat

theorem countBytes_total (md5 : Md5) (bufLen : UInt32) :
    (countBytes md5 bufLen).total = (md5.total + bufLen.toNat) % 2 ^ 64 := by
  have low := md5.total0.toNat_lt
  have high := md5.total1.toNat_lt
  have added := bufLen.toNat_lt
  have most : (0xffffffff - bufLen).toNat = 2 ^ 32 - 1 - bufLen.toNat :=
    UInt32.toNat_sub_of_le _ _ (UInt32.le_iff_toNat_le.mpr (by
      change bufLen.toNat ≤ 2 ^ 32 - 1
      omega))
  unfold countBytes Md5.total
  split
  · rename_i carry
    have carry := UInt32.lt_iff_toNat_lt.mp carry
    have wrapped : (0xffffffff + 1 - bufLen : UInt32) = 0 - bufLen := by
      rw [show (0xffffffff + 1 : UInt32) = 0 from rfl]
    simp only [wrapped, UInt32.toNat_add, UInt32.toNat_sub, UInt32.toNat_zero]
    rw [show UInt32.toNat 1 = 1 from rfl]
    omega
  · rename_i room
    have room := mt UInt32.lt_iff_toNat_lt.mpr room
    simp only [UInt32.toNat_add]
    omega

@[simp] theorem countBytes_kept (md5 : Md5) (bufLen : UInt32) :
    (countBytes md5 bufLen).sums = md5.sums ∧ (countBytes md5 bufLen).bufLen = md5.bufLen ∧
      (countBytes md5 bufLen).buffer = md5.buffer := by
  unfold countBytes
  split <;> exact ⟨rfl, rfl, rfl⟩

theorem blockLoop_absorb {count fuel : Nat} {sums : Sums} {buffer : Bytes}
    (whole : buffer.length = count * 64) (enough : count < fuel) :
    blockLoop fuel sums buffer = some (absorb compress 64 count sums buffer) := by
  induction count generalizing fuel sums buffer with
  | zero =>
      obtain ⟨fuel, rfl⟩ := Nat.exists_eq_succ_of_ne_zero (Nat.pos_iff_ne_zero.mp enough)
      rw [blockLoop, if_pos (by omega), absorb]
  | succ count ih =>
      obtain ⟨fuel, rfl⟩ := Nat.exists_eq_succ_of_ne_zero (Nat.ne_zero_of_lt enough)
      rw [blockLoop, if_neg (by omega), if_neg (by unfold md5BlockSize; omega),
        oneBlock_compress, ih (by rw [List.length_drop, whole, md5BlockSize]; omega) (by omega)]
      rfl

theorem counted_block {md5 : Md5} {n count : Nat} {buffer : Bytes} {sums : Sums}
    (same : md5.sums = sums)
    (whole : buffer.length = count * 64) (counted : md5.total = n) :
    ∃ after, (do
      let sums ← blockLoop (buffer.length + 1) md5.sums buffer
      some { md5 with sums := sums }) = some after ∧
      after.sums = absorb compress 64 count sums buffer ∧ after.total = n ∧
      after.bufLen = md5.bufLen ∧ after.buffer = md5.buffer := by
  subst same
  simp only [blockLoop_absorb whole (show count < buffer.length + 1 by omega)]
  exact ⟨_, rfl, rfl, counted, rfl, rfl⟩

theorem processBlock_whole {md5 : Md5} {count : Nat} {buffer : Bytes}
    (whole : buffer.length = count * 64) (short : buffer.length < 2 ^ 32) :
    ∃ after, processBlock md5 buffer = some after ∧
      after.sums = absorb compress 64 count md5.sums buffer ∧
      after.total = (md5.total + buffer.length) % 2 ^ 64 ∧
      after.bufLen = md5.bufLen ∧ after.buffer = md5.buffer := by
  obtain ⟨same, bufLen, held⟩ := countBytes_kept md5 (UInt32.ofNat buffer.length)
  have counted := countBytes_total md5 (UInt32.ofNat buffer.length)
  have fits : (UInt32.ofNat buffer.length).toNat = buffer.length := by
    rw [UInt32.toNat_ofNat']
    omega
  rw [fits] at counted
  obtain ⟨after, ran, sums, total, len, content⟩ := counted_block same whole counted
  exact ⟨after, ran, sums, total, len.trans bufLen, content.trans held⟩

theorem memcpy_inside {dest source : Bytes} {offset : Nat}
    (inside : offset + source.length ≤ dest.length) :
    ∃ after, memcpy dest offset source = some after ∧ after.length = dest.length ∧
      after.take (offset + source.length) = dest.take offset ++ source := by
  have before : (dest.take offset).length = offset := by
    rw [List.length_take]
    omega
  refine ⟨_, if_pos inside, ?_, ?_⟩
  · simp only [List.length_append, List.length_drop, before]
    omega
  · rw [List.take_append_of_le_length (by rw [List.length_append, before]),
      List.take_of_length_le (by rw [List.length_append, before])]

/-- What a context holds after the message so far. -/
structure Streamed (message : Bytes) (md5 : Md5) : Prop where
  room : md5.buffer.length = md5BufferSize
  short : md5.bufLen ≤ md5BlockSize
  absorbed : Absorbed compress 64 initial message md5.sums (md5.buffer.take md5.bufLen)
  counted : md5.total = (message.length - md5.bufLen) % 2 ^ 64

theorem Streamed.held_length {message : Bytes} {md5 : Md5} (streamed : Streamed message md5) :
    (md5.buffer.take md5.bufLen).length = md5.bufLen := by
  have room := streamed.room
  have short := streamed.short
  rw [List.length_take, room]
  unfold md5BufferSize at *
  omega

theorem Streamed.behind {message : Bytes} {md5 : Md5} (streamed : Streamed message md5) :
    md5.bufLen ≤ message.length := by
  obtain ⟨count, long⟩ := streamed.absorbed.length_eq
  rw [streamed.held_length] at long
  omega

theorem streamed_start (uninit : Bytes) (room : uninit.length = md5BufferSize) :
    Streamed [] (md5Init uninit) where
  room := room
  short := Nat.zero_le _
  absorbed := absorbed_start
  counted := by simp [Md5.total, md5Init]

theorem keepRest_nothing (md5 : Md5) : keepRest md5 [] = some md5 := rfl

/-- Whole blocks are taken from the caller's buffer while more than one block is left. -/
theorem keepRest_streamed {message chunk : Bytes} {md5 : Md5} (streamed : Streamed message md5)
    (empty : md5.bufLen = 0) (short : chunk.length < 2 ^ 32) :
    ∃ after, keepRest md5 chunk = some after ∧ Streamed (message ++ chunk) after := by
  have whole : (chunk.take (wholeLen chunk.length)).length = chunk.length / 64 * 64 := by
    rw [List.length_take, wholeLen, md5BlockSize]
    omega
  have absorbed : Absorbed compress 64 initial (message ++ chunk) md5.sums chunk := by
    have extended := streamed.absorbed.extend chunk
    rwa [empty, List.take_zero, List.nil_append] at extended
  have counted := streamed.counted
  rw [empty, Nat.sub_zero] at counted
  -- the rest is copied into the internal buffer, if there is one
  have keeps : ∀ (other : Md5) (rest : Bytes), other.buffer.length = md5BufferSize →
      other.bufLen = 0 → rest.length ≤ 64 →
      Absorbed compress 64 initial (message ++ chunk) other.sums rest →
      other.total = ((message ++ chunk).length - rest.length) % 2 ^ 64 →
      ∃ after, (if 0 < rest.length then do
          let held ← memcpy other.buffer 0 rest
          some { other with buffer := held, bufLen := rest.length }
        else some other) = some after ∧ Streamed (message ++ chunk) after := by
    intro other rest room unheld little absorbed counted
    by_cases positive : 0 < rest.length
    · obtain ⟨held, copied, same, front⟩ := @memcpy_inside other.buffer rest 0 (by
        rw [room, md5BufferSize, md5BlockSize]
        omega)
      rw [Nat.zero_add, List.take_zero, List.nil_append] at front
      rw [if_pos positive, copied]
      refine ⟨_, rfl, same.trans room, little, ?_, counted⟩
      rw [front]
      exact absorbed
    · obtain rfl := List.eq_nil_of_length_eq_zero (Nat.eq_zero_of_not_pos positive)
      rw [if_neg positive]
      refine ⟨_, rfl, room, unheld ▸ Nat.zero_le _, ?_, by rw [counted, unheld]; rfl⟩
      rw [unheld, List.take_zero]
      exact absorbed
  unfold keepRest
  by_cases blocks : md5BlockSize < chunk.length
  · obtain ⟨after, processed, sums, total, bufLen, held⟩ := @processBlock_whole md5 _ _ whole (by
      rw [whole]
      omega)
    have split := absorbed
    rw [← List.take_append_drop (wholeLen chunk.length) chunk] at split
    rw [if_pos blocks, processed]
    refine keeps after _ (held ▸ streamed.room) (bufLen.trans empty) ?_ ?_ ?_
    · rw [List.length_drop, wholeLen, md5BlockSize]
      omega
    · rw [sums]
      rw [List.take_append_drop] at split
      refine Absorbed.blocks ?_ whole
      rwa [List.take_append_drop]
    · rw [total, counted, whole, List.length_append, List.length_drop, wholeLen, md5BlockSize,
        Nat.mod_add_mod]
      congr 1
      omega
  · rw [if_neg blocks]
    refine keeps md5 chunk streamed.room empty ?_ absorbed ?_
    · unfold md5BlockSize at blocks
      omega
    · rw [counted, List.length_append, Nat.add_sub_cancel]

theorem fillBuffer_streamed {message chunk : Bytes} {md5 : Md5} (streamed : Streamed message md5)
    (fits : md5.bufLen + chunk.length < 2 ^ 32) :
    ∃ after taken rest, fillBuffer md5 chunk = some (after, rest) ∧ chunk = taken ++ rest ∧
      Streamed (message ++ taken) after ∧ (rest = [] ∨ after.bufLen = 0) := by
  have short := streamed.short
  have room := streamed.room
  have behind := streamed.behind
  unfold md5BlockSize at short
  rw [md5BufferSize, md5BlockSize] at room
  unfold fillBuffer
  simp only [Nat.mod_eq_of_lt fits]
  generalize addEq : (if md5BufferSize < md5.bufLen + chunk.length then md5BufferSize - md5.bufLen
    else chunk.length) = add
  have bounds : add ≤ chunk.length ∧ md5.bufLen + add ≤ 128 ∧
      (add = chunk.length ∨ md5.bufLen + add = 128) := by
    rw [← addEq, md5BufferSize, md5BlockSize]
    split <;> omega
  have takenLength : (chunk.take add).length = add := by
    rw [List.length_take]
    omega
  obtain ⟨held, copied, same, front⟩ := @memcpy_inside md5.buffer (chunk.take add) md5.bufLen (by
    rw [takenLength, room]
    exact bounds.2.1)
  rw [takenLength] at front
  have extended := streamed.absorbed.extend (chunk.take add)
  rw [← front] at extended
  have counted := streamed.counted
  simp only [copied, Option.bind_eq_bind, Option.bind_some]
  by_cases blocks : md5BlockSize < md5.bufLen + add
  · generalize nowEq : md5.bufLen + add = now at blocks front extended bounds
    have whole : (held.take (wholeLen now)).length = now / 64 * 64 := by
      rw [List.length_take, wholeLen, md5BlockSize, same, room]
      omega
    obtain ⟨after, processed, sums, total, bufLen, kept⟩ := @processBlock_whole
      { md5 with buffer := held, bufLen := now } _ _ whole (by
        rw [whole]
        omega)
    have split : held.take now = held.take (wholeLen now) ++
        (held.drop (wholeLen now)).take (now % 64) := by
      rw [← List.take_add]
      congr 1
      unfold wholeLen md5BlockSize
      omega
    have restLength : ((held.drop (wholeLen now)).take (now % md5BlockSize)).length =
        now % 64 := by
      rw [List.length_take, List.length_drop, same, room, wholeLen, md5BlockSize]
      omega
    obtain ⟨moved, copiedRest, sameRest, frontRest⟩ :=
      @memcpy_inside held ((held.drop (wholeLen now)).take (now % md5BlockSize)) 0 (by
        rw [restLength, same, room]
        omega)
    rw [Nat.zero_add, List.take_zero, List.nil_append, restLength] at frontRest
    rw [if_pos blocks, processed, Option.bind_some, copiedRest]
    rw [split] at extended
    refine ⟨_, chunk.take add, chunk.drop add, rfl, (List.take_append_drop _ _).symm,
      ⟨?_, ?_, ?_, ?_⟩, ?_⟩
    · exact sameRest.trans (same.trans streamed.room)
    · exact (Nat.mod_lt _ (by decide)).le
    · rw [sums]
      change Absorbed _ _ _ _ _ (moved.take (now % 64))
      rw [frontRest]
      exact extended.blocks whole
    · change after.total = _
      rw [total]
      change (md5.total + _) % _ = (_ - now % 64) % _
      rw [counted, whole, List.length_append, takenLength, Nat.mod_add_mod]
      congr 1
      omega
    · rcases bounds.2.2 with all | full
      · exact .inl (by rw [all, List.drop_length])
      · exact .inr (by rw [full, md5BlockSize])
  · have all : add = chunk.length := by
      unfold md5BlockSize at blocks
      omega
    rw [if_neg blocks]
    refine ⟨_, chunk.take add, chunk.drop add, rfl, (List.take_append_drop _ _).symm,
      ⟨?_, ?_, extended, ?_⟩, .inl (by rw [all, List.drop_length])⟩
    · exact same.trans streamed.room
    · exact Nat.not_lt.mp blocks
    · change md5.total = (_ - (md5.bufLen + add)) % _
      rw [counted, List.length_append, takenLength]
      congr 1
      omega

theorem md5Process_streamed {message chunk : Bytes} {md5 : Md5} (streamed : Streamed message md5)
    (fits : md5.bufLen + chunk.length < 2 ^ 32) :
    ∃ after, md5Process md5 chunk = some after ∧ Streamed (message ++ chunk) after := by
  unfold md5Process
  by_cases holds : 0 < md5.bufLen
  · obtain ⟨middle, taken, rest, filled, rfl, now, done⟩ := fillBuffer_streamed streamed fits
    rw [if_pos holds, filled]
    rcases done with rfl | empty
    · exact ⟨middle, keepRest_nothing middle, by rwa [List.append_nil]⟩
    · obtain ⟨after, kept, later⟩ := @keepRest_streamed _ rest _ now empty (by
        rw [List.length_append] at fits
        omega)
      exact ⟨after, kept, by rwa [List.append_assoc] at later⟩
  · rw [if_neg holds]
    exact keepRest_streamed streamed (by omega) (by omega)

theorem wordBytes_length (hold : UInt32) : (wordBytes hold).length = 4 := rfl

theorem wordBytes_little (hold : UInt32) : wordBytes hold = littleBytes 4 hold.toNat := by
  have byte : ∀ places : UInt32, ∀ power : Nat, (hold >>> places).toNat = hold.toNat / power →
      (hold >>> places).toUInt8 = UInt8.ofNat (hold.toNat / power) := by
    intro places power same
    apply UInt8.toNat_inj.mp
    rw [UInt32.toNat_toUInt8, UInt8.toNat_ofNat', same]
  have first := byte 0 1 (by simp)
  have second := byte 8 256 (by simp [Nat.shiftRight_eq_div_pow])
  have third := byte 16 65536 (by simp [Nat.shiftRight_eq_div_pow])
  have fourth := byte 24 16777216 (by simp [Nat.shiftRight_eq_div_pow])
  rw [UInt32.shiftRight_zero] at first
  simp only [wordBytes, littleBytes, List.range, List.range.loop, List.map, first, second, third,
    fourth]
  rfl

theorem md5GetResult_output (md5 : Md5) : md5GetResult md5 = output md5.sums := by
  simp only [md5GetResult, wordBytes_little, output]

theorem littleBytes_halves (value : Nat) :
    littleBytes 8 value = littleBytes 4 (value % 2 ^ 32) ++ littleBytes 4 (value / 2 ^ 32) := by
  have byte : ∀ first second : Nat, first % 256 = second % 256 →
      UInt8.ofNat first = UInt8.ofNat second := by
    intro first second same
    apply UInt8.toNat_inj.mp
    rw [UInt8.toNat_ofNat', UInt8.toNat_ofNat', same]
  simp only [littleBytes, List.range, List.range.loop, List.map, List.cons_append, List.nil_append,
    List.cons.injEq, and_true]
  refine ⟨byte _ _ ?_, byte _ _ ?_, byte _ _ ?_, byte _ _ ?_, byte _ _ ?_, byte _ _ ?_,
    byte _ _ ?_, byte _ _ ?_⟩ <;> omega

/-- The two words of the length in bits, from the two words of the length in bytes. -/
theorem length_words (md5 : Md5) :
    wordBytes ((md5.total0 &&& 0x1fffffff) <<< 3) ++
        wordBytes ((md5.total1 <<< 3) ||| ((md5.total0 &&& 0xe0000000) >>> 29)) =
      littleBytes 8 (8 * md5.total % 2 ^ 64) := by
  have low := md5.total0.toNat_lt
  have high := md5.total1.toNat_lt
  have lowWord : ((md5.total0 &&& 0x1fffffff) <<< 3).toNat = 8 * md5.total % 2 ^ 64 % 2 ^ 32 := by
    rw [UInt32.toNat_shiftLeft, UInt32.toNat_and]
    change (md5.total0.toNat &&& (2 ^ 29 - 1)) <<< 3 % 2 ^ 32 = _
    rw [Nat.and_two_pow_sub_one_eq_mod, Nat.shiftLeft_eq, Md5.total]
    omega
  have carried : ((md5.total0 &&& 0xe0000000) >>> 29).toNat = md5.total0.toNat / 2 ^ 29 := by
    rw [UInt32.toNat_shiftRight, UInt32.toNat_and]
    change (md5.total0.toNat &&& 0xe0000000) >>> 29 = _
    rw [Nat.shiftRight_and_distrib, Nat.shiftRight_eq_div_pow]
    change md5.total0.toNat / 2 ^ 29 &&& (2 ^ 3 - 1) = _
    rw [Nat.and_two_pow_sub_one_eq_mod]
    omega
  have shifted : (md5.total1 <<< 3).toNat = (md5.total1.toNat % 2 ^ 29) <<< 3 := by
    rw [UInt32.toNat_shiftLeft]
    change md5.total1.toNat <<< 3 % 2 ^ 32 = _
    rw [Nat.shiftLeft_eq, Nat.shiftLeft_eq]
    omega
  have highWord : ((md5.total1 <<< 3) ||| ((md5.total0 &&& 0xe0000000) >>> 29)).toNat =
      8 * md5.total % 2 ^ 64 / 2 ^ 32 := by
    rw [UInt32.toNat_or, shifted, carried, ← Nat.shiftLeft_add_eq_or_of_lt (by omega),
      Nat.shiftLeft_eq, Md5.total]
    omega
  rw [wordBytes_little, wordBytes_little, lowWord, highWord, ← littleBytes_halves]

theorem padLen_padding {bytes length count : Nat} (short : bytes ≤ 64)
    (split : length = count * 64 + bytes) :
    padLen bytes = (119 - length % 64) % 64 + 1 ∧
      (bytes + padLen bytes = 56 ∨ bytes + padLen bytes = 120) := by
  unfold padLen
  simp only
  split <;> omega

theorem padded_digest {message held tail : Bytes} {sums : Sums} {count : Nat}
    (absorbed : Absorbed compress 64 initial message sums held)
    (padded : tail = held ++ padding message.length) (whole : tail.length = count * 64) :
    output (absorb compress 64 count sums tail) = Rfc1321.md5 message := by
  have extended := absorbed.extend (padding message.length)
  rw [← padded, ← List.append_nil tail] at extended
  rw [(extended.blocks whole).result (by decide)]
  rfl

theorem padBuffer_padded {message : Bytes} {md5 : Md5} {bytes count : Nat}
    (room : md5.buffer.length = md5BufferSize) (short : bytes ≤ 64)
    (absorbed : Absorbed compress 64 initial message md5.sums (md5.buffer.take bytes))
    (split : message.length = count * 64 + bytes)
    (counted : md5.total = message.length % 2 ^ 64) :
    padBuffer md5 bytes = some (Rfc1321.md5 message) := by
  rw [md5BufferSize, md5BlockSize] at room
  obtain ⟨padEq, padEnds⟩ := padLen_padding short split
  have padLength : (0x80 :: List.replicate (padLen bytes - 1) 0 : Bytes).length = padLen bytes := by
    rw [List.length_cons, List.length_replicate, padEq, Nat.add_sub_cancel]
  have lengthBytes := length_words md5
  have bits : 8 * (message.length % 2 ^ 64) % 2 ^ 64 = 8 * message.length % 2 ^ 64 := by omega
  rw [counted, bits] at lengthBytes
  -- the three parts behind the message
  obtain ⟨first, padded, firstLength, firstFront⟩ :=
    @memcpy_inside md5.buffer (0x80 :: List.replicate (padLen bytes - 1) 0) bytes (by
      rw [padLength, room]
      omega)
  rw [padLength] at firstFront
  obtain ⟨second, lowCopied, secondLength, secondFront⟩ :=
    @memcpy_inside first (wordBytes ((md5.total0 &&& 0x1fffffff) <<< 3)) (bytes + padLen bytes) (by
      rw [firstLength, room, wordBytes_length]
      omega)
  obtain ⟨third, highCopied, thirdLength, thirdFront⟩ :=
    @memcpy_inside second
      (wordBytes ((md5.total1 <<< 3) ||| ((md5.total0 &&& 0xe0000000) >>> 29)))
      (bytes + padLen bytes + 4) (by
        rw [secondLength, firstLength, room, wordBytes_length]
        omega)
  rw [wordBytes_length] at secondFront
  rw [wordBytes_length, secondFront, firstFront, List.append_assoc, lengthBytes] at thirdFront
  have final : third.take (bytes + padLen bytes + 4 + 4) =
      md5.buffer.take bytes ++ padding message.length := by
    rw [thirdFront, padEq, Nat.add_sub_cancel, padding, List.append_assoc]
  have whole : (third.take (bytes + padLen bytes + 4 + 4)).length =
      (bytes + padLen bytes + 8) / 64 * 64 := by
    rw [List.length_take, thirdLength, secondLength, firstLength, room]
    omega
  obtain ⟨after, processed, sums, -⟩ := @processBlock_whole { md5 with buffer := third } _ _ whole
    (by
      rw [whole]
      omega)
  have result := padded_digest absorbed final whole
  rw [padBuffer]
  simp only [padded, lowCopied, highCopied, processed, Option.bind_eq_bind, Option.bind_some]
  rw [md5GetResult_output, sums, result]

theorem md5Finish_streamed {message : Bytes} {md5 : Md5} (streamed : Streamed message md5) :
    md5Finish md5 = some (Rfc1321.md5 message) := by
  have short := streamed.short
  have room := streamed.room
  have behind := streamed.behind
  have absorbed := streamed.absorbed
  obtain ⟨count, split⟩ := absorbed.length_eq
  rw [streamed.held_length] at split
  unfold md5BlockSize at short
  obtain ⟨sums, bufLen, kept⟩ := countBytes_kept md5 (UInt32.ofNat md5.bufLen)
  have counted := countBytes_total md5 (UInt32.ofNat md5.bufLen)
  have fits : (UInt32.ofNat md5.bufLen).toNat = md5.bufLen := by
    rw [UInt32.toNat_ofNat']
    omega
  rw [fits, streamed.counted, Nat.mod_add_mod, Nat.sub_add_cancel behind] at counted
  rw [← kept] at room
  rw [← sums, ← kept] at absorbed
  exact padBuffer_padded room short absorbed split counted

/-- `md5_init`, `md5_process` for each of the chunks, and `md5_finish`. -/
def md5Chunks (uninit : Bytes) (chunks : List Bytes) : Option Bytes := do
  let md5 ← chunks.foldlM md5Process (md5Init uninit)
  md5Finish md5

theorem foldlM_streamed {chunks : List Bytes} {message : Bytes} {md5 : Md5}
    (streamed : Streamed message md5) (fits : ∀ chunk ∈ chunks, chunk.length + 64 < 2 ^ 32) :
    ∃ after, chunks.foldlM md5Process md5 = some after ∧
      Streamed (message ++ chunks.flatten) after := by
  induction chunks generalizing message md5 with
  | nil => exact ⟨md5, rfl, by rwa [List.flatten_nil, List.append_nil]⟩
  | cons chunk chunks ih =>
      have short := streamed.short
      have fitsHere := fits chunk (by simp)
      unfold md5BlockSize at short
      obtain ⟨middle, ran, now⟩ := @md5Process_streamed _ chunk _ streamed (by omega)
      obtain ⟨after, later, all⟩ := ih now fun other member =>
        fits other (List.mem_cons_of_mem _ member)
      refine ⟨after, ?_, by rwa [List.flatten_cons, ← List.append_assoc]⟩
      rw [List.foldlM_cons, ran]
      exact later

/-- However a message is cut into chunks, no copy leaves the context's buffer and the
result is the digest of the whole message. -/
theorem md5_of_chunks (uninit : Bytes) (chunks : List Bytes)
    (room : uninit.length = md5BufferSize)
    (fits : ∀ chunk ∈ chunks, chunk.length + 64 < 2 ^ 32) :
    md5Chunks uninit chunks = some (Rfc1321.md5 chunks.flatten) := by
  obtain ⟨after, ran, streamed⟩ := foldlM_streamed (streamed_start uninit room) fits
  rw [List.nil_append] at streamed
  rw [md5Chunks, ran, Option.bind_eq_bind, Option.bind_some]
  exact md5Finish_streamed streamed

theorem md5_of_chunks_sample :
    md5Chunks (List.replicate 128 0) [ascii "ab", [], ascii "c"] =
      some (Rfc1321.md5 (ascii "abc")) :=
  md5_of_chunks _ [ascii "ab", [], ascii "c"] List.length_replicate (by decide +kernel)

theorem md5Buffer_digest {uninit buffer : Bytes} {bufLen : Nat}
    (room : uninit.length = md5BufferSize) (fits : bufLen < 2 ^ 32) :
    md5Buffer uninit buffer bufLen = some (Rfc1321.md5 (buffer.take bufLen)) := by
  have short : (buffer.take bufLen).length < 2 ^ 32 := by
    rw [List.length_take]
    omega
  obtain ⟨after, ran, streamed⟩ := @md5Process_streamed [] (buffer.take bufLen) (md5Init uninit)
    (streamed_start uninit room) (by
      change 0 + _ < _
      omega)
  rw [List.nil_append] at streamed
  rw [md5Buffer, ran, Option.bind_eq_bind, Option.bind_some]
  exact md5Finish_streamed streamed

end PaclinkUnix
