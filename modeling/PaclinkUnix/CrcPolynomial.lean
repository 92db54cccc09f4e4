import PaclinkUnix.Corruption
import PaclinkUnix.Library.CrcRegister

/-!
The table and the macro of `lzhuf_1.c` compute the CRC-16 with the generator
`X^16 + X^12 + X^5 + 1`, from a register of zeros and most significant bit first.
-/

namespace PaclinkUnix

open Polynomial CrcRegister

/-- `X^12 + X^5 + 1` -/
def crcTerms : BitVec 16 := 0x1021

noncomputable def crcGenerator : (ZMod 2)[X] := X ^ 16 + X ^ 12 + X ^ 5 + 1

/-- The bits of the bytes, each byte's highest bit first. -/
def messageBits (bytes : Bytes) : List Bool := bytes.flatMap fun c => bitsOf c.toBitVec

noncomputable def crcRemainder (bytes : Bytes) : (ZMod 2)[X] :=
  message (messageBits bytes) * X ^ 16 %ₘ crcGenerator

/-- The CRC of these bytes by its definition, as a remainder and as a register fed bit by bit. -/
structure IsCrc (crc : UInt16) (bytes : Bytes) : Prop where
  remainder : polynomial crc.toBitVec = crcRemainder bytes
  bitwise : crc.toBitVec = feed crcTerms 0 (messageBits bytes)

/-- `updcrc` as C computes it: in `int`, and then cut to an `unsigned short`. -/
def updcrcInt (c : BitVec 32) (crc : UInt16) : UInt16 :=
  let wide := crc.toBitVec.setWidth 32
  let entry := crctab.getD ((c &&& 0xff#32) ^^^ (wide >>> 8)).toNat 0
  UInt16.ofBitVec (((wide <<< 8) ^^^ entry.toBitVec.setWidth 32).setWidth 16)

def lowByte (c : BitVec 32) : UInt8 := UInt8.ofBitVec (c.setWidth 8)

theorem generator_terms : generator crcTerms = crcGenerator := by
  have terms : polynomial crcTerms = X ^ 12 + X ^ 5 + 1 := by
    simp only [polynomial, Finset.sum_range_succ, Finset.range_zero, Finset.sum_empty]
    simp [crcTerms, coefficient]
    ring
  rw [generator, terms, crcGenerator]
  ring

theorem crctab_entries : crctab.map UInt16.toBitVec =
    (List.range 256).map fun i => feed crcTerms 0 (bitsOf (BitVec.ofNat 8 i)) := by
  decide +kernel

theorem crctab_entry (v : UInt8) :
    (crctab.getD v.toNat 0).toBitVec = feed crcTerms 0 (bitsOf v.toBitVec) := by
  have entry := congrArg (fun entries => entries[v.toNat]?) crctab_entries
  simp only [List.getElem?_map, List.getElem?_range v.toNat_lt, Option.map_some] at entry
  rw [List.getD_eq_getElem?_getD]
  obtain ⟨value, found, same⟩ := Option.map_eq_some_iff.mp entry
  rw [found, Option.getD_some, same, ← UInt8.toNat_toBitVec, BitVec.ofNat_toNat, BitVec.setWidth_eq]

theorem updcrc_feed (cp : UInt8) (crc : UInt16) :
    (updcrc cp crc).toBitVec = feed crcTerms crc.toBitVec (bitsOf cp.toBitVec) := by
  rw [feed_bitsOf (by decide) (by decide), updcrc, UInt16.toBitVec_xor, crctab_entry]
  rfl

theorem crcOf_feed (crc : UInt16) (bytes : Bytes) :
    (crcOf crc bytes).toBitVec = feed crcTerms crc.toBitVec (messageBits bytes) := by
  induction bytes generalizing crc with
  | nil => rfl
  | cons c rest ih =>
      have step : crcOf crc (c :: rest) = crcOf (updcrc c crc) rest := rfl
      rw [step, ih, updcrc_feed]
      simp only [messageBits, List.flatMap_cons, feed, List.foldl_append]

theorem crcOf_isCrc (bytes : Bytes) : IsCrc (crcOf 0 bytes) bytes := by
  have bitwise := crcOf_feed 0 bytes
  refine ⟨?_, bitwise⟩
  rw [bitwise, feed_remainder (by decide), crcRemainder, generator_terms,
    show (UInt16.toBitVec 0) = 0 from rfl, polynomial_zero, zero_mul, zero_add]

theorem isCrc_unique {crc other : UInt16} {bytes : Bytes} (is : IsCrc crc bytes)
    (remainder : polynomial other.toBitVec = crcRemainder bytes) : other = crc :=
  UInt16.eq_of_toBitVec_eq (polynomial_inj (remainder.trans is.remainder.symm))

theorem updcrcInt_low (c : BitVec 32) (crc : UInt16) : updcrcInt c crc = updcrc (lowByte c) crc := by
  have index : ((c &&& 0xff#32) ^^^ (crc.toBitVec.setWidth 32 >>> 8)).toNat =
      (lowByte c ^^^ (crc >>> 8).toUInt8).toNat := by
    apply Nat.eq_of_testBit_eq
    intro k
    rw [BitVec.testBit_toNat, ← UInt8.toNat_toBitVec, BitVec.testBit_toNat]
    have mask : (0xff#32).getLsbD k = decide (k < 8) := by
      rw [show 0xff#32 = (BitVec.allOnes 8).setWidth 32 by decide, BitVec.getLsbD_setWidth,
        BitVec.getLsbD_allOnes]
      by_cases low : k < 8
      · rw [decide_eq_true low, decide_eq_true (by omega), Bool.true_and]
      · rw [decide_eq_false low, Bool.and_false]
    simp only [BitVec.getLsbD_xor, BitVec.getLsbD_and, mask, lowByte, UInt8.toBitVec_xor]
    by_cases low : k < 8
    · simp [low, show 8 + k < 32 by omega]
    · simp [low, BitVec.getLsbD_of_ge crc.toBitVec (8 + k) (by omega)]
  apply UInt16.eq_of_toBitVec_eq
  simp only [updcrcInt, updcrc, index]
  ext i inside
  simp

/-- `crc_fputc` of one value after the other. -/
def BitWriter.fputAll (values : List (BitVec 32)) (writer : BitWriter) : BitWriter :=
  values.foldl (fun writer c => writer.fputBits c) writer

/-- What `n` calls of `crc_fgetc` give. -/
def BitReader.fetch : Nat → BitReader → Bytes × BitReader
  | 0, reader => ([], reader)
  | n + 1, reader =>
      match reader.crcFgetc with
      | (none, reader) => fetch n reader
      | (some c, reader) =>
          let (rest, reader) := fetch n reader
          (c :: rest, reader)

theorem fputBits_crc (c : BitVec 32) (writer : BitWriter) :
    (writer.fputBits c).crc = updcrcInt c writer.crc := (updcrcInt_low c writer.crc).symm

theorem fputAll_crc (values : List (BitVec 32)) (writer : BitWriter) :
    (writer.fputAll values).crc = crcOf writer.crc (values.map lowByte) := by
  induction values generalizing writer with
  | nil => rfl
  | cons c rest ih => exact ih (writer.fputBits c)

theorem fputAll_data (values : List (BitVec 32)) (writer : BitWriter) :
    (writer.fputAll values).outbuf.data = writer.outbuf.data ++ values.map lowByte := by
  induction values generalizing writer with
  | nil => exact (List.append_nil _).symm
  | cons c rest ih =>
      refine (ih (writer.fputBits c)).trans ?_
      simp [BitWriter.fputBits, BitWriter.crcFputc, Buffer.addchar, lowByte]

theorem fetch_crc (n : Nat) (reader : BitReader) :
    (reader.fetch n).2.crc = crcOf reader.crc (reader.fetch n).1 := by
  induction n generalizing reader with
  | zero => rfl
  | succ n ih =>
      rw [BitReader.fetch, BitReader.crcFgetc]
      rcases reader.inbuf.iterchar with ⟨_ | c, inbuf⟩
      · exact ih _
      · exact ih _

theorem crc_polynomial :
    (∀ (c : BitVec 32) (writer : BitWriter), (writer.fputBits c).crc = updcrcInt c writer.crc) ∧
    (∀ (values : List (BitVec 32)) (writer : BitWriter), writer.crc = 0 →
      (writer.fputAll values).outbuf.data = writer.outbuf.data ++ values.map lowByte ∧
      IsCrc (writer.fputAll values).crc (values.map lowByte)) ∧
    (∀ (n : Nat) (reader : BitReader), reader.crc = 0 →
      IsCrc (reader.fetch n).2.crc (reader.fetch n).1) ∧
    ∀ (tree : HuffmanTree) (search : SearchTree) (inbuf outbuf : Buffer),
      version1Encode tree search inbuf = some (some outbuf) →
      ∃ writer crc, encode tree search inbuf = some (some writer) ∧ IsCrc crc writer.outbuf.data ∧
        (∀ other : UInt16, polynomial other.toBitVec = crcRemainder writer.outbuf.data →
          other = crc) ∧
        outbuf.data =
          (crc &&& 0xff).toUInt8 :: ((crc >>> 8) &&& 0xff).toUInt8 :: writer.outbuf.data := by
  refine ⟨fputBits_crc, ?_, ?_, ?_⟩
  · intro values writer zero
    refine ⟨fputAll_data values writer, ?_⟩
    rw [fputAll_crc, zero]
    exact crcOf_isCrc _
  · intro n reader zero
    rw [fetch_crc, zero]
    exact crcOf_isCrc _
  · intro tree search inbuf outbuf encodes
    obtain ⟨writer, encoded, data⟩ := version1Encode_data encodes
    have own : IsCrc writer.crc writer.outbuf.data := by
      rw [(encode_summed encoded).crc]
      exact crcOf_isCrc _
    exact ⟨writer, writer.crc, encoded, own, fun other same => isCrc_unique own same, data⟩

/-- The digits from 1 to 9 have the check value of this CRC; the last one is passed with bits
above its byte. The encoding of two characters has the CRC of its size and codes. -/
theorem crc_polynomial_sample :
    polynomial (0x31c3 : BitVec 16) = crcRemainder [49, 50, 51, 52, 53, 54, 55, 56, 57] ∧
    ∃ writer crc, encode ⟨id, id, id⟩ ⟨fun _ => 0, id, id, id, 0, 0⟩ ⟨[78, 20], 0⟩ =
        some (some writer) ∧
      IsCrc crc writer.outbuf.data ∧
      (∀ other : UInt16, polynomial other.toBitVec = crcRemainder writer.outbuf.data →
        other = crc) ∧
      ([0, 0, 2, 0, 0, 0, 237, 104, 0] : Bytes) =
        (crc &&& 0xff).toUInt8 :: ((crc >>> 8) &&& 0xff).toUInt8 :: writer.outbuf.data := by
  constructor
  · have run := (crc_polynomial.2.1 [49, 50, 51, 52, 53, 54, 55, 56, 0xabcd39] ⟨.new, 0, 0, 0⟩ rfl).2
    have value : (BitWriter.fputAll [49, 50, 51, 52, 53, 54, 55, 56, 0xabcd39]
        ⟨.new, 0, 0, 0⟩).crc = 0x31c3 := by decide +kernel
    rw [value] at run
    exact run.remainder
  · exact crc_polynomial.2.2.2 ⟨id, id, id⟩ ⟨fun _ => 0, id, id, id, 0, 0⟩ ⟨[78, 20], 0⟩
      ⟨[0, 0, 2, 0, 0, 0, 237, 104, 0], 0⟩ encode_two

end PaclinkUnix
