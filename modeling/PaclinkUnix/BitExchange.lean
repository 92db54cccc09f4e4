import PaclinkUnix.BitSource
import PaclinkUnix.CodeWriter

/-!
The bits that `Putcode` and `EncodeEnd` write are those that `GetBit` and `GetByte` read,
in whatever order the two are called, with zeros behind the last one.
-/

namespace PaclinkUnix

open Memory BitStream

/-- The arguments of a call of `Putcode`: only the first `l` of the word's 16 bits may be set. -/
structure Putcall where
  l : Nat
  c : BitVec 32
  positive : 1 ≤ l
  short : l ≤ 16
  top : ∀ k, c.getLsbD k = true → 16 - l ≤ k ∧ k < 16

def Putcall.bits (call : Putcall) : List Bool := word call.l call.c

def sentBits (calls : List Putcall) : List Bool := calls.flatMap Putcall.bits

def BitWriter.putcodes (calls : List Putcall) (writer : BitWriter) : Option BitWriter :=
  calls.foldlM (fun writer call => writer.putcode call.l call.c) writer

inductive Read where
  | bit
  | byte
  deriving DecidableEq, Repr

def Read.width : Read → Nat
  | .bit => 1
  | .byte => 8

namespace BitReader

def read : Read → BitReader → Option (Nat × BitReader)
  | .bit, reader => reader.getBit
  | .byte, reader => reader.getByte

def readAll : List Read → BitReader → Option (List Nat × BitReader)
  | [], reader => some ([], reader)
  | next :: reads, reader => do
      let (value, reader) ← reader.read next
      let (values, reader) ← readAll reads reader
      some (value :: values, reader)

end BitReader

def bitsRead (reads : List Read) : Nat := (reads.map Read.width).sum

/-- What a stream of bits has for these reads. -/
def streamValues : List Read → (Nat → Bool) → List Nat
  | [], _ => []
  | next :: reads, f => number f next.width :: streamValues reads (beyond f next.width)

/-- The bytes are these bits, with zeros up to the end of the last byte. -/
structure Packed (bits : List Bool) (out : Bytes) : Prop where
  length : out.length = (bits.length + 7) / 8
  same : ∀ n, bitAt out n = bits.getD n false

/-- Read from the start these bytes give the bits and then zeros, and once all bits are
consumed with a last `GetBit`, no byte is left and all of them are in the CRC. -/
def ReadBack (bits : List Bool) (out : Bytes) : Prop :=
  ∀ (reads : List Read) (reader : BitReader), reader.inbuf = ⟨out, 0⟩ → reader.getbuf = 0 →
    reader.getlen = 0 →
    ∃ next, reader.readAll reads = some (streamValues reads (fun n => bits.getD n false), next) ∧
      (reads.getLast? = some .bit → bits.length ≤ bitsRead reads →
        next.inbuf.iterchar.1 = none ∧ next.crc = crcOf reader.crc out)

def BitsAgree (calls : List Putcall) : Prop :=
  ∀ (tree : HuffmanTree) (writer : BitWriter), writer.putbuf = 0 → writer.putlen = 0 →
    (∀ front, front <+: calls → ∃ next, writer.putcodes front = some next ∧ next.putlen < 8) ∧
    ∃ last out, writer.putcodes calls = some last ∧
      (EntropyCoder.encodeEnd ⟨tree, last⟩).outbuf.data = writer.outbuf.data ++ out ∧
      Packed (sentBits calls) out ∧ ReadBack (sentBits calls) out

section Writing

variable {writer next : BitWriter} {sent : List Bool} {calls : List Putcall}

@[simp] theorem Putcall.bits_length (call : Putcall) : call.bits.length = call.l := word_length

theorem Putcall.carries (call : Putcall) : Carries call.c call.bits := by
  constructor
  · intro k high
    by_contra set
    have place := call.top k ((Bool.not_eq_false _).mp set)
    omega
  · intro j
    rw [Putcall.bits, word_bits]
    by_cases inside : j < call.l
    · rw [decide_eq_true inside, decide_eq_true (by have := call.short; omega)]
      rfl
    · rw [decide_eq_false inside, Bool.false_and, Bool.and_false, window]
      by_cases last : j < 16
      · have clear : call.c.getLsbD (15 - j) = false := by
          by_contra set
          have place := call.top (15 - j) ((Bool.not_eq_false _).mp set)
          omega
        rw [clear, Bool.and_false]
      · rw [decide_eq_false last, Bool.false_and]

/-- From one state of the writer to another these bytes have been put out. -/
def PutOut (first last : BitWriter) : Prop :=
  ∃ out, last.outbuf.data = first.outbuf.data ++ out

theorem PutOut.refl (writer : BitWriter) : PutOut writer writer := ⟨[], (List.append_nil _).symm⟩

theorem PutOut.trans {first middle last : BitWriter} (start : PutOut first middle)
    (rest : PutOut middle last) : PutOut first last := by
  obtain ⟨out, data⟩ := start
  obtain ⟨more, later⟩ := rest
  exact ⟨out ++ more, by rw [later, data, List.append_assoc]⟩

theorem fputBits_putOut (c : BitVec 32) (writer : BitWriter) :
    PutOut writer (writer.fputBits c) := ⟨_, rfl⟩

theorem putcode_putOut {l : Nat} {c : BitVec 32} (puts : writer.putcode l c = some next) :
    PutOut writer next := by
  simp only [BitWriter.putcode, Option.bind_eq_bind, Option.bind_eq_some_iff] at puts
  obtain ⟨shifted, -, puts⟩ := puts
  split at puts
  · split at puts
    · obtain ⟨rest, -, puts⟩ := Option.bind_eq_some_iff.mp puts
      obtain rfl := Option.some.inj puts
      exact (fputBits_putOut _ _).trans (fputBits_putOut _ _)
    · obtain rfl := Option.some.inj puts
      exact fputBits_putOut _ _
  · obtain rfl := Option.some.inj puts
    exact PutOut.refl _

theorem putcodes_written (calls : List Putcall) {writer : BitWriter} {sent : List Bool}
    (written : writer.Written sent) (low : writer.putlen < 8) :
    ∃ last, writer.putcodes calls = some last ∧ last.Written (sent ++ sentBits calls) ∧
      last.putlen < 8 ∧ PutOut writer last := by
  induction calls generalizing writer sent with
  | nil =>
      refine ⟨writer, rfl, ?_, low, PutOut.refl writer⟩
      rw [sentBits, List.flatMap_nil, List.append_nil]
      exact written
  | cons call rest ih =>
      have short := call.short
      obtain ⟨next, puts, kept, pending⟩ := putcode_written written call.carries (by omega)
        (by rw [Putcall.bits_length]; omega)
      rw [Putcall.bits_length] at puts pending
      rw [cut_short (by rw [Putcall.bits_length]; exact short)] at kept
      have few : next.putlen < 8 := by
        rw [pending, pendingAfter]
        split
        · assumption
        · split <;> omega
      obtain ⟨last, goes, all, below, out⟩ := ih kept few
      refine ⟨last, ?_, ?_, below, (putcode_putOut puts).trans out⟩
      · rw [BitWriter.putcodes, List.foldlM_cons, puts]
        exact goes
      · rw [sentBits, List.flatMap_cons, ← List.append_assoc]
        exact all

theorem encodeEnd_bits (tree : HuffmanTree) (written : writer.Written sent) :
    (EntropyCoder.encodeEnd ⟨tree, writer⟩).outbuf.data.length =
      writer.outbuf.data.length + (if writer.putlen = 0 then 0 else 1) ∧
    PutOut writer (EntropyCoder.encodeEnd ⟨tree, writer⟩) ∧
    ∀ n, bitAt (EntropyCoder.encodeEnd ⟨tree, writer⟩).outbuf.data n =
      if n < 8 * (EntropyCoder.encodeEnd ⟨tree, writer⟩).outbuf.data.length then sent.getD n false
      else false := by
  obtain ⟨total, same⟩ := written
  rw [EntropyCoder.encodeEnd]
  by_cases pending : writer.putlen = 0
  · simp only [pending, ne_eq, not_true_eq_false, if_false, if_true]
    refine ⟨rfl, PutOut.refl writer, fun n => ?_⟩
    by_cases inside : n < 8 * writer.outbuf.data.length
    · rw [if_pos inside, ← same n, BitWriter.bits, if_pos inside]
    · rw [if_neg inside, bitAt_past (by omega)]
  · simp only [pending, ne_eq, not_false_eq_true, if_true, if_false]
    have data : (writer.fputBits (writer.putbuf >>> 8)).outbuf.data =
        writer.outbuf.data ++ [UInt8.ofBitVec ((writer.putbuf >>> 8).setWidth 8)] := rfl
    refine ⟨by rw [data, List.length_append, List.length_singleton], fputBits_putOut _ _, fun n => ?_⟩
    rw [data, bitAt_append, List.length_append, List.length_singleton]
    by_cases inside : n < 8 * writer.outbuf.data.length
    · rw [if_pos inside, if_pos (by omega), ← same n, BitWriter.bits, if_pos inside]
    · rw [if_neg inside, bitAt_cons]
      by_cases first : n - 8 * writer.outbuf.data.length < 8
      · rw [if_pos first, if_pos (by omega), byteBit_high first, ← same n, BitWriter.bits,
          if_neg inside]
      · rw [if_neg first, if_neg (by omega), bitAt_past (by simp only [List.length_nil]; omega)]

theorem encodeEnd_written (tree : HuffmanTree) (written : writer.Written sent)
    (low : writer.putlen < 8) :
    Packed sent (EntropyCoder.encodeEnd ⟨tree, writer⟩).outbuf.data ∧
      PutOut writer (EntropyCoder.encodeEnd ⟨tree, writer⟩) := by
  obtain ⟨length, out, same⟩ := encodeEnd_bits tree written
  have total := written.total
  refine ⟨⟨?_, fun n => ?_⟩, out⟩
  · rw [length]
    split <;> omega
  · rw [same n]
    by_cases inside : n < 8 * (EntropyCoder.encodeEnd ⟨tree, writer⟩).outbuf.data.length
    · rw [if_pos inside]
    · rw [if_neg inside, List.getD_eq_default]
      rw [length] at inside
      split at inside <;> omega

end Writing

section Reading

open BitReader

variable {reader next : BitReader} {f : Nat → Bool} {out : Bytes} {crc : UInt16} {used : Nat}

theorem upcoming_reads {b : Buffer} {rest : Bytes} (reads : b.Reads rest) (n : Nat) :
    b.upcoming n = rest.getD n 0 := by
  induction n generalizing b rest with
  | zero =>
      cases rest with
      | nil => rw [Buffer.upcoming, Buffer.skip, Buffer.iterchar_nil reads]; rfl
      | cons c rest =>
          obtain ⟨after, read, -, -⟩ := Buffer.iterchar_cons reads
          rw [Buffer.upcoming, Buffer.skip, read]
          rfl
  | succ n ih =>
      cases rest with
      | nil =>
          have ended := ih reads
          rw [Buffer.upcoming, Buffer.skip, Buffer.iterchar_nil reads]
          exact ended
      | cons c rest =>
          obtain ⟨after, read, -, left⟩ := Buffer.iterchar_cons reads
          rw [Buffer.upcoming, Buffer.skip, read]
          exact ih left

theorem upcoming_endless {data : Bytes} (large : Buffer.indexRange ≤ data.length) (n : Nat) {i : Nat}
    (inside : i < Buffer.indexRange) :
    Buffer.upcoming ⟨data, i⟩ n = data.getD ((i + n) % Buffer.indexRange) 0 := by
  induction n generalizing i with
  | zero =>
      have bound : i < data.length := by omega
      rw [Nat.add_zero, Nat.mod_eq_of_lt inside, Buffer.upcoming, Buffer.skip, Buffer.iterchar,
        List.getElem?_eq_getElem bound, List.getD_eq_getElem _ _ bound]
      rfl
  | succ n ih =>
      have bound : i < data.length := by omega
      have later := ih (Nat.mod_lt (i + 1) (by decide : 0 < Buffer.indexRange))
      rw [Nat.mod_add_mod, Nat.add_assoc, Nat.add_comm 1 n] at later
      have read : Buffer.iterchar ⟨data, i⟩ =
          (some data[i], ⟨data, (i + 1) % Buffer.indexRange⟩) := by
        rw [Buffer.iterchar, List.getElem?_eq_getElem bound]
      rw [← later, Buffer.upcoming, Buffer.skip, read]
      rfl

/-- A reader at the start of a buffer has its bits before it. -/
theorem start_ready (reads : reader.inbuf.Reads out) (empty : reader.getbuf = 0)
    (zero : reader.getlen = 0) : Ready reader (bitAt out) := by
  constructor
  · omega
  · intro j _
    rw [empty]
    simp [window]
  · intro n inside
    omega
  · intro n
    rw [upcoming_reads reads, zero, Nat.zero_add, bitAt]

theorem read_ready (ready : Ready reader f) (how : Read) :
    ∃ next, reader.read how = some (number f how.width, next) ∧ Ready next (beyond f how.width) := by
  cases how with
  | bit =>
      obtain ⟨next, reads, kept⟩ := getBit_ready ready
      refine ⟨next, reads.trans ?_, kept⟩
      rw [Read.width, number, number, Nat.mul_zero, Nat.zero_add]
  | byte => exact getByte_ready ready

theorem readAll_ready (ready : Ready reader f) (reads : List Read) :
    ∃ next, reader.readAll reads = some (streamValues reads f, next) := by
  induction reads generalizing reader f with
  | nil => exact ⟨reader, rfl⟩
  | cons how rest ih =>
      obtain ⟨middle, read, kept⟩ := read_ready ready how
      obtain ⟨last, later⟩ := ih kept
      refine ⟨last, ?_⟩
      simp only [readAll, read, later, Option.bind_eq_bind, Option.bind_some, streamValues]

/-- So many bits have been used, and the rest of what was fetched is in `getbuf`. -/
def Fetched (out : Bytes) (crc : UInt16) (used : Nat) (reader : BitReader) : Prop :=
  ∃ m, reader.inbuf.Reads (out.drop m) ∧ reader.crc = crcOf crc (out.take m) ∧
    used + reader.getlen = 8 * m

theorem Fetched.refill (fetched : Fetched out crc used reader)
    (fills : BitReader.refill reader = some (.inl next)) : Fetched out crc used next := by
  obtain ⟨m, reads, sum, count⟩ := fetched
  rw [BitReader.refill] at fills
  split at fills
  · obtain rfl := Sum.inl.inj (Option.some.inj fills)
    by_cases more : m < out.length
    · rw [List.drop_eq_getElem_cons more] at reads
      obtain ⟨after, read, -, left⟩ := Buffer.iterchar_cons reads
      refine ⟨m + 1, ?_, ?_, ?_⟩
      · simp only [read]
        exact left
      · simp only [read]
        rw [List.take_add_one, List.getElem?_eq_getElem more, crcOf_append, sum]
        rfl
      · simp only [read]
        omega
    · have ended : out.drop m = [] := List.drop_eq_nil_of_le (by omega)
      rw [ended] at reads
      have read := Buffer.iterchar_nil reads
      refine ⟨m + 1, ?_, ?_, ?_⟩
      · simp only [read]
        rw [List.drop_eq_nil_of_le (by omega)]
        exact reads
      · simp only [read]
        rw [sum, List.take_of_length_le (by omega), List.take_of_length_le (by omega)]
      · simp only [read]
        omega
  · cases fills

theorem Fetched.fill (fetched : Fetched out crc used reader) {fuel : Nat} {full : BitReader}
    (fills : iterate BitReader.refill fuel reader = some full) :
    Fetched out crc used full ∧ 8 < full.getlen := by
  refine iterate_some (Fetched out crc used) (fun full => Fetched out crc used full ∧ 8 < full.getlen)
    (fun _ _ kept again => kept.refill again) ?_ fetched fills
  intro state result kept ends
  rw [BitReader.refill] at ends
  split at ends
  · cases ends
  · obtain rfl := Sum.inr.inj (Option.some.inj ends)
    exact ⟨kept, by omega⟩

theorem Fetched.taken {full : BitReader} (fetched : Fetched out crc used full) {k : Nat}
    (enough : k ≤ full.getlen) (getbuf : BitVec 32) :
    Fetched out crc (used + k) { full with getbuf := getbuf, getlen := full.getlen - k } := by
  obtain ⟨m, reads, sum, count⟩ := fetched
  exact ⟨m, reads, sum, by simp only; omega⟩

theorem Fetched.read (fetched : Fetched out crc used reader) {how : Read} {value : Nat}
    (reads : reader.read how = some (value, next)) :
    Fetched out crc (used + how.width) next ∧ (how = .bit → 8 ≤ next.getlen) := by
  cases how with
  | bit =>
      simp only [BitReader.read, getBit, Option.bind_eq_bind, Option.bind_eq_some_iff] at reads
      obtain ⟨full, fills, same⟩ := reads
      obtain ⟨kept, enough⟩ := fetched.fill fills
      obtain ⟨-, rfl⟩ := Prod.mk.inj (Option.some.inj same)
      exact ⟨kept.taken (show 1 ≤ full.getlen by omega) _, fun _ => by simp only; omega⟩
  | byte =>
      simp only [BitReader.read, getByte, Option.bind_eq_bind, Option.bind_eq_some_iff] at reads
      obtain ⟨full, fills, same⟩ := reads
      obtain ⟨kept, enough⟩ := fetched.fill fills
      obtain ⟨-, rfl⟩ := Prod.mk.inj (Option.some.inj same)
      exact ⟨kept.taken (show 8 ≤ full.getlen by omega) _, fun other => by cases other⟩

theorem Fetched.readAll (fetched : Fetched out crc used reader) {reads : List Read}
    {values : List Nat} (goes : reader.readAll reads = some (values, next)) :
    Fetched out crc (used + bitsRead reads) next ∧ (reads.getLast? = some .bit → 8 ≤ next.getlen) := by
  induction reads generalizing reader used values with
  | nil =>
      obtain ⟨-, rfl⟩ := Prod.mk.inj (Option.some.inj goes)
      exact ⟨fetched, fun last => by cases last⟩
  | cons how rest ih =>
      simp only [BitReader.readAll, Option.bind_eq_bind, Option.bind_eq_some_iff] at goes
      obtain ⟨⟨value, middle⟩, read, ⟨later, last⟩, goes, same⟩ := goes
      obtain ⟨-, rfl⟩ := Prod.mk.inj (Option.some.inj same)
      obtain ⟨kept, single⟩ := fetched.read read
      obtain ⟨all, ending⟩ := ih kept goes
      refine ⟨by rw [bitsRead, List.map_cons, List.sum_cons, ← Nat.add_assoc]; exact all, ?_⟩
      cases rest with
      | nil =>
          obtain ⟨-, rfl⟩ := Prod.mk.inj (Option.some.inj goes)
          intro last
          exact single (Option.some.inj last)
      | cons other rest =>
          rw [List.getLast?_cons_cons]
          exact ending

theorem readBack_small {bits : List Bool} (packed : Packed bits out)
    (small : out.length < Buffer.indexRange) : ReadBack bits out := by
  intro reads reader inbuf getbuf getlen
  have start : reader.inbuf.Reads out := by
    rw [inbuf]
    exact Buffer.reads_rewind (b := ⟨out, 0⟩) small
  have stream : bitAt out = fun n => bits.getD n false := funext packed.same
  obtain ⟨next, goes⟩ := readAll_ready (stream ▸ start_ready start getbuf getlen) reads
  refine ⟨next, goes, fun last all => ?_⟩
  have fetched : Fetched out reader.crc 0 reader := ⟨0, start, rfl, by omega⟩
  obtain ⟨⟨m, left, sum, count⟩, ending⟩ := fetched.readAll goes
  have enough := ending last
  have length := packed.length
  rw [List.drop_eq_nil_of_le (by omega)] at left
  rw [List.take_of_length_le (by omega)] at sum
  exact ⟨congrArg Prod.fst (Buffer.iterchar_nil left), sum⟩

theorem endless_read (endless : reader.inbuf.Endless) {how : Read} {value : Nat}
    (reads : reader.read how = some (value, next)) : next.inbuf.Endless := by
  have fills : ∀ {fuel full}, iterate BitReader.refill fuel reader = some full →
      full.inbuf.Endless := by
    intro fuel full goes
    refine iterate_some (fun state => state.inbuf.Endless) (fun full => full.inbuf.Endless) ?_ ?_
      endless goes
    · intro state after kept again
      rw [BitReader.refill] at again
      split at again
      · obtain rfl := Sum.inl.inj (Option.some.inj again)
        obtain ⟨c, later, read, left⟩ := Buffer.iterchar_endless kept
        simp only [read]
        exact left
      · cases again
    · intro state result kept ends
      rw [BitReader.refill] at ends
      split at ends
      · cases ends
      · obtain rfl := Sum.inr.inj (Option.some.inj ends)
        exact kept
  cases how with
  | bit =>
      simp only [BitReader.read, getBit, Option.bind_eq_bind, Option.bind_eq_some_iff] at reads
      obtain ⟨full, goes, same⟩ := reads
      obtain ⟨-, rfl⟩ := Prod.mk.inj (Option.some.inj same)
      have kept : full.inbuf.Endless := fills goes
      exact kept
  | byte =>
      simp only [BitReader.read, getByte, Option.bind_eq_bind, Option.bind_eq_some_iff] at reads
      obtain ⟨full, goes, same⟩ := reads
      obtain ⟨-, rfl⟩ := Prod.mk.inj (Option.some.inj same)
      have kept : full.inbuf.Endless := fills goes
      exact kept

theorem endless_readAll (endless : reader.inbuf.Endless) {reads : List Read} {values : List Nat}
    (goes : reader.readAll reads = some (values, next)) : next.inbuf.Endless := by
  induction reads generalizing reader values with
  | nil =>
      obtain ⟨-, rfl⟩ := Prod.mk.inj (Option.some.inj goes)
      exact endless
  | cons how rest ih =>
      simp only [BitReader.readAll, Option.bind_eq_bind, Option.bind_eq_some_iff] at goes
      obtain ⟨⟨value, middle⟩, read, ⟨later, last⟩, goes, same⟩ := goes
      obtain ⟨-, rfl⟩ := Prod.mk.inj (Option.some.inj same)
      exact ih (endless_read endless read) goes

theorem readBack_large {bits : List Bool} (packed : Packed bits out)
    (large : Buffer.indexRange ≤ out.length) : ¬ ReadBack bits out := by
  intro back
  have enough : bits.length ≤ bitsRead (List.replicate bits.length .bit) := by
    simp [bitsRead, Read.width]
  have positive : bits.length ≠ 0 := by
    have length := packed.length
    have range : Buffer.indexRange = 4294967296 := rfl
    omega
  obtain ⟨next, goes, ends⟩ := back (List.replicate bits.length .bit) ⟨⟨out, 0⟩, 0, 0, 0⟩ rfl rfl rfl
  obtain ⟨ended, -⟩ := ends (by rw [List.getLast?_replicate, if_neg positive]) enough
  have endless : next.inbuf.Endless :=
    endless_readAll (Buffer.endless_rewind (b := ⟨out, 0⟩) large) goes
  obtain ⟨c, after, read, -⟩ := Buffer.iterchar_endless endless
  rw [read] at ended
  cases ended

end Reading

def sentBytes (calls : List Putcall) : Nat := ((calls.map Putcall.l).sum + 7) / 8

theorem sentBits_length (calls : List Putcall) :
    (sentBits calls).length = (calls.map Putcall.l).sum := by
  induction calls with
  | nil => rfl
  | cons call rest ih =>
      rw [sentBits, List.flatMap_cons, List.length_append, Putcall.bits_length, List.map_cons,
        List.sum_cons, ← ih]
      rfl

theorem packed_behind {before out : Bytes} {sent : List Bool}
    (packed : Packed ((List.range (8 * before.length)).map (bitAt before) ++ sent) (before ++ out)) :
    Packed sent out := by
  obtain ⟨length, same⟩ := packed
  have front : ((List.range (8 * before.length)).map (bitAt before)).length = 8 * before.length := by
    rw [List.length_map, List.length_range]
  constructor
  · rw [List.length_append, List.length_append, front] at length
    omega
  · intro n
    have place := same (8 * before.length + n)
    rwa [bitAt_append, if_neg (by omega), Nat.add_sub_cancel_left,
      List.getD_append_right _ _ _ _ (by rw [front]; omega), front, Nat.add_sub_cancel_left] at place

theorem fresh_written {writer : BitWriter} (empty : writer.putbuf = 0) (zero : writer.putlen = 0) :
    writer.Written ((List.range (8 * writer.outbuf.data.length)).map (bitAt writer.outbuf.data)) := by
  have front : ((List.range (8 * writer.outbuf.data.length)).map (bitAt writer.outbuf.data)).length =
      8 * writer.outbuf.data.length := by
    rw [List.length_map, List.length_range]
  constructor
  · rw [front, zero, Nat.add_zero]
  · intro n
    rw [BitWriter.bits]
    by_cases inside : n < 8 * writer.outbuf.data.length
    · rw [if_pos inside, List.getD_eq_getElem _ _ (by rw [front]; exact inside)]
      simp
    · rw [if_neg inside, List.getD_eq_default _ _ (by rw [front]; omega), empty]
      simp [window]

theorem putcodes_packed (calls : List Putcall) (tree : HuffmanTree) {writer : BitWriter}
    (empty : writer.putbuf = 0) (zero : writer.putlen = 0) :
    ∃ last out, writer.putcodes calls = some last ∧ last.putlen < 8 ∧
      (EntropyCoder.encodeEnd ⟨tree, last⟩).outbuf.data = writer.outbuf.data ++ out ∧
      Packed (sentBits calls) out := by
  obtain ⟨last, goes, written, low, behind⟩ :=
    putcodes_written calls (fresh_written empty zero) (by omega)
  obtain ⟨packed, ending⟩ := encodeEnd_written tree written low
  obtain ⟨out, data⟩ := behind.trans ending
  rw [data] at packed
  exact ⟨last, out, goes, low, data, packed_behind packed⟩

theorem bits_disagree {calls : List Putcall} (large : Buffer.indexRange ≤ sentBytes calls) :
    ¬ BitsAgree calls := by
  intro agree
  obtain ⟨-, last, out, -, -, packed, back⟩ := agree ⟨id, id, id⟩ ⟨.new, 0, 0, 0⟩ rfl rfl
  have length := packed.length
  rw [sentBits_length] at length
  exact readBack_large packed (by rw [length]; exact large) back

/-- The read index of a buffer wraps at 2^32 and its length does not. -/
theorem bits_agree_iff (calls : List Putcall) :
    BitsAgree calls ↔ sentBytes calls < Buffer.indexRange := by
  constructor
  · intro agree
    by_contra large
    exact bits_disagree (Nat.le_of_not_lt large) agree
  · intro small tree writer empty zero
    constructor
    · intro front _
      obtain ⟨next, -, goes, low, -⟩ := putcodes_packed front tree empty zero
      exact ⟨next, goes, low⟩
    · obtain ⟨last, out, goes, -, data, packed⟩ := putcodes_packed calls tree empty zero
      have length := packed.length
      rw [sentBits_length] at length
      exact ⟨last, out, goes, data, packed, readBack_small packed (by rw [length]; exact small)⟩

def fullCode : Putcall where
  l := 16
  c := 0xffff
  positive := by decide
  short := by decide
  top := by
    intro k set
    by_contra high
    have small : (0xffff : BitVec 32).toNat < 2 ^ k :=
      (show (0xffff : BitVec 32).toNat < 2 ^ 16 by decide).trans_le
        (Nat.pow_le_pow_right Nat.two_pos (by omega))
    rw [BitVec.getLsbD, Nat.testBit_lt_two_pow small] at set
    cases set

theorem sentBytes_replicate (n : Nat) (call : Putcall) :
    sentBytes (List.replicate n call) = (n * call.l + 7) / 8 := by
  rw [sentBytes, List.map_replicate, List.sum_replicate_nat]

/-- 2^31 codes of 16 bits each fill 2^32 bytes, and the reader starts over. -/
theorem endless_output : ¬ BitsAgree (List.replicate (2 ^ 31) fullCode) := by
  apply bits_disagree
  rw [sentBytes_replicate]
  decide

end PaclinkUnix
