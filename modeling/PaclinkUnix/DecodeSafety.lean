import PaclinkUnix.LzhufDecode

/-!
The decoder on any input: no table is left, every loop ends, and the output is at most
one token longer than the header says.
-/

namespace PaclinkUnix

open Memory

namespace BitReader

variable {reader : BitReader}

theorem crcFgetc_bits (reader : BitReader) :
    reader.crcFgetc.2.getbuf = reader.getbuf ∧ reader.crcFgetc.2.getlen = reader.getlen := by
  unfold crcFgetc
  split <;> exact ⟨rfl, rfl⟩

theorem refill_total (low : reader.getlen ≤ 16) :
    ∃ full, iterate refill 3 reader = some full ∧ 8 < full.getlen ∧ full.getlen ≤ 16 := by
  refine iterate_total (fun left reader => left = (16 - reader.getlen) / 8 ∧ reader.getlen ≤ 16)
    ?_ ((16 - reader.getlen) / 8) (by omega) ⟨rfl, low⟩
  rintro left reader ⟨rfl, low⟩
  by_cases more : reader.getlen ≤ 8
  · have same := (crcFgetc_bits reader).2
    exact .inl ⟨_, by rw [refill, if_pos more], (16 - (reader.getlen + 8)) / 8, by omega,
      by simp only [same], by simp only [same]; omega⟩
  · exact .inr ⟨reader, by rw [refill, if_neg more], by omega, low⟩

theorem getBit_total (low : reader.getlen ≤ 16) :
    ∃ bit after, reader.getBit = some (bit, after) ∧ bit ≤ 1 ∧ after.getlen ≤ 16 := by
  obtain ⟨full, fills, -, high⟩ := refill_total low
  refine ⟨_, _, by rw [getBit, fills]; rfl, ?_, ?_⟩
  · split <;> decide
  · simp only
    omega

theorem getByte_total (low : reader.getlen ≤ 16) :
    ∃ byte after, reader.getByte = some (byte, after) ∧ byte < 256 ∧ after.getlen ≤ 16 := by
  obtain ⟨full, fills, -, high⟩ := refill_total low
  refine ⟨_, _, by rw [getByte, fills]; rfl, ?_, ?_⟩
  · have bound : ((full.getbuf >>> 8) &&& 0xff).toNat ≤ (0xff : BitVec 32).toNat := by
      rw [BitVec.toNat_and]
      exact Nat.and_le_right
    exact Nat.lt_succ_of_le bound
  · simp only
    omega

end BitReader

section Symbols

variable {tree : HuffmanTree} {reader : BitReader}

open HuffmanTree

theorem descend_total (linked : Linked tree) {c : Nat} (known : c < tableSize + nChar)
    (node : c < tableSize → c < rootPosition ∧ c % 2 = 0) (low : reader.getlen ≤ 16) :
    ∃ d after, iterate (descend tree) tableSize (c, reader) = some (d, after) ∧
      tableSize ≤ d ∧ d < tableSize + nChar ∧ after.getlen ≤ 16 := by
  have ends : ∃ result, iterate (descend tree) tableSize (c, reader) = some result ∧
      tableSize ≤ result.1 ∧ result.1 < tableSize + nChar ∧ result.2.getlen ≤ 16 := by
    refine iterate_total (fun left state => state.1 < tableSize + nChar ∧
      state.2.getlen ≤ 16 ∧ (state.1 < tableSize → state.1 < rootPosition ∧ state.1 % 2 = 0) ∧
      left = if state.1 < tableSize then state.1 + 1 else 0) ?_
      (if c < tableSize then c + 1 else 0) ?_ ⟨known, low, node, rfl⟩
    · rintro left ⟨c, reader⟩ ⟨known, low, node, rfl⟩
      simp only at known low node ⊢
      by_cases inner : c < tableSize
      · obtain ⟨bit, after, reads, small, low⟩ := BitReader.getBit_total low
        have inside := node inner
        have read : tree.getSon (c + bit) = some (tree.son (c + bit)) := getSon_some (by lia)
        refine .inl ⟨(tree.son (c + bit), after), ?_, ?_⟩
        · simp only [descend, if_pos inner, reads, read, Option.bind_eq_bind, Option.bind_some]
        · simp only
          rw [if_pos inner]
          rcases linked.kind (c + bit) (by lia) with leaf | son
          · exact ⟨0, by omega, by lia, low, by lia, by rw [if_neg (by lia)]⟩
          · exact ⟨tree.son (c + bit) + 1, by omega, by lia, low, by lia, by rw [if_pos (by lia)]⟩
      · exact .inr ⟨(c, reader), by simp only [descend, if_neg inner], by simp only; omega, known,
          low⟩
    · split
      · have := node ‹_›
        lia
      · decide
  obtain ⟨⟨d, after⟩, found, leaf, bound, low⟩ := ends
  exact ⟨d, after, found, leaf, bound, low⟩

theorem decodeChar_total (invariant : Invariant tree) (low : reader.getlen ≤ 16) :
    ∃ c next after, decodeChar tree reader = some (c, next, after) ∧ c < nChar ∧
      Invariant next ∧ after.getlen ≤ 16 := by
  have read : tree.getSon rootPosition = some (tree.son rootPosition) := getSon_some (by lia)
  have top := invariant.linked.kind rootPosition (by lia)
  obtain ⟨d, after, finds, leaf, bound, low⟩ := descend_total invariant.linked
    (invariant.linked.son_inside (show rootPosition < tableSize by lia)) (by lia) low
  obtain ⟨next, updates, kept⟩ := update_total invariant (show d - tableSize < nChar by lia)
  refine ⟨d - tableSize, next, after, ?_, by lia, kept, low⟩
  simp only [decodeChar, read, finds, updates, Option.bind_eq_bind, Option.bind_some]

theorem lowerBits_total (count i : Nat) (low : reader.getlen ≤ 16) :
    ∃ result, forRange count lowerBit (i, reader) = some result ∧ result.2.getlen ≤ 16 := by
  refine forRange_total (fun _ (state : Nat × BitReader) => state.2.getlen ≤ 16) ?_ low
  rintro k ⟨i, reader⟩ - low
  obtain ⟨bit, after, reads, -, low⟩ := BitReader.getBit_total low
  exact ⟨((i <<< 1) + bit, after), by simp [lowerBit, reads], low⟩

theorem dCode_length : dCode.length = 256 := by decide +kernel

theorem dLen_length : dLen.length = 256 := by decide +kernel

theorem decodePosition_total (low : reader.getlen ≤ 16) :
    ∃ position after, decodePosition reader = some (position, after) ∧ after.getlen ≤ 16 := by
  obtain ⟨i, middle, reads, bound, low⟩ := BitReader.getByte_total low
  have code : dCode[i]? = some (dCode.getD i 0) := by
    rw [List.getD_eq_getElem?_getD, List.getElem?_eq_getElem (dCode_length.symm ▸ bound)]
    rfl
  have len : dLen[i]? = some (dLen.getD i 0) := by
    rw [List.getD_eq_getElem?_getD, List.getElem?_eq_getElem (dLen_length.symm ▸ bound)]
    rfl
  obtain ⟨⟨j, after⟩, lower, low⟩ := lowerBits_total (dLen.getD i 0 - 2) i low
  refine ⟨dCode.getD i 0 <<< 6 ||| (j &&& 0x3f), after, ?_, low⟩
  simp only [decodePosition, reads, code, len, lower, Option.bind_eq_bind, Option.bind_some]

end Symbols

namespace DecodeState

open HuffmanTree

/-- What holds between two characters of the output. -/
structure Sane (state : DecodeState) : Prop where
  tree : Invariant state.tree
  bits : state.reader.getlen ≤ 16
  window : state.r < ringSize
  count : state.outbuf.data.length = state.count

/-- What the window and the output have no part in. -/
def SameInput (state next : DecodeState) : Prop :=
  next.tree = state.tree ∧ next.reader = state.reader

theorem emit_total {state : DecodeState} (sane : Sane state) (c : UInt8) :
    ∃ next, state.emit c = some next ∧ Sane next ∧ next.count = state.count + 1 ∧
      SameInput state next := by
  have inside : state.r < textBufSize := by
    have := sane.window
    lia
  let next : DecodeState :=
    { state with
      outbuf := state.outbuf.addchar c
      textBuf := put state.textBuf state.r c
      r := (state.r + 1) % ringSize
      count := state.count + 1 }
  refine ⟨next, by rw [emit, store_some inside]; rfl, ⟨sane.tree, sane.bits, ?_, ?_⟩, rfl, rfl, rfl⟩
  · exact Nat.mod_lt _ (by decide)
  · simp [next, Buffer.addchar, sane.count]

theorem copy_total {state : DecodeState} (sane : Sane state) (i count : Nat) :
    ∃ next, forRange count (copyChar i) state = some next ∧ Sane next ∧
      next.count = state.count + count ∧ SameInput state next := by
  refine forRange_total (fun k next => Sane next ∧ next.count = state.count + k ∧
    SameInput state next) ?_ ⟨sane, rfl, rfl, rfl⟩
  rintro k middle - ⟨kept, counted, sameTree, sameReader⟩
  have inside : (i + k) % ringSize < textBufSize := by
    have := Nat.mod_lt (i + k) (show 0 < ringSize by decide)
    lia
  obtain ⟨next, emits, kept, counts, tree, reader⟩ :=
    emit_total kept (middle.textBuf ((i + k) % ringSize))
  refine ⟨next, ?_, kept, by omega, tree.trans sameTree, reader.trans sameReader⟩
  simp only [copyChar, load_some inside, Option.bind_eq_bind, Option.bind_some]
  exact emits

/-- One symbol of the stream, and how many characters it stands for. -/
def readToken : HuffmanTree × BitReader → Option (Nat × HuffmanTree × BitReader)
  | (tree, reader) => do
      let (c, tree, reader) ← decodeChar tree reader
      if c < 256 then some (1, tree, reader)
      else do
        let (_, reader) ← decodePosition reader
        some (c - 255 + threshold, tree, reader)

theorem token_total {state : DecodeState} (sane : Sane state) :
    ∃ len next, state.token = some next ∧ Sane next ∧ next.count = state.count + len ∧
      0 < len ∧ len ≤ lookahead ∧
      readToken (state.tree, state.reader) = some (len, next.tree, next.reader) := by
  obtain ⟨c, tree, reader, decodes, symbol, kept, low⟩ := decodeChar_total sane.tree sane.bits
  have read : Sane { state with tree := tree, reader := reader } :=
    ⟨kept, low, sane.window, sane.count⟩
  by_cases literal : c < 256
  · obtain ⟨next, emits, kept, counts, sameTree, sameReader⟩ := emit_total read (UInt8.ofNat c)
    refine ⟨1, next, ?_, kept, counts, by decide, by decide, ?_⟩
    · simp only [token, decodes, if_pos literal, Option.bind_eq_bind, Option.bind_some]
      exact emits
    · rw [sameTree, sameReader]
      simp only [readToken, decodes, if_pos literal, Option.bind_eq_bind, Option.bind_some]
  · obtain ⟨position, after, locates, low⟩ := decodePosition_total low
    have placed : Sane { state with tree := tree, reader := after } :=
      ⟨kept, low, sane.window, sane.count⟩
    obtain ⟨next, copies, kept, counts, sameTree, sameReader⟩ := copy_total placed
      (((state.r : Int) - position - 1) % ringSize).toNat (c - 255 + threshold)
    refine ⟨c - 255 + threshold, next, ?_, kept, counts, by lia, by lia, ?_⟩
    · simp only [token, decodes, if_neg literal, locates, Option.bind_eq_bind, Option.bind_some]
      exact copies
    · rw [sameTree, sameReader]
      simp only [readToken, decodes, if_neg literal, locates, Option.bind_eq_bind, Option.bind_some]

theorem decodeLoop_total {state : DecodeState} (sane : Sane state) (textsize : Nat)
    (begun : state.count < textsize + lookahead) :
    ∃ last, iterate (decodeLoop textsize) (textsize + 1) state = some last ∧ Sane last ∧
      textsize ≤ last.count ∧ last.count < textsize + lookahead := by
  refine iterate_total (fun left state => left = textsize - state.count ∧ Sane state ∧
    state.count < textsize + lookahead) ?_ (textsize - state.count) (by omega) ⟨rfl, sane, begun⟩
  rintro left state ⟨rfl, sane, begun⟩
  by_cases more : state.count < textsize
  · obtain ⟨len, next, decodes, kept, counts, some, short, -⟩ := token_total sane
    refine .inl ⟨next, ?_, textsize - next.count, by omega, rfl, kept, by omega⟩
    simp only [decodeLoop, if_pos more, decodes, Option.bind_eq_bind, Option.bind_some]
  · exact .inr ⟨state, by simp only [decodeLoop, if_neg more], sane, by omega, begun⟩

end DecodeState

theorem fillBlank_total (textBuf : Nat → UInt8) {count : Nat} (inside : count ≤ textBufSize) :
    ∃ filled, forRange count fillBlank textBuf = some filled ∧ (∀ i < count, filled i = 32) ∧
      ∀ i, count ≤ i → filled i = textBuf i := by
  refine forRange_total (fun k (filled : Nat → UInt8) => (∀ i < k, filled i = 32) ∧
    ∀ i, k ≤ i → filled i = textBuf i) ?_ ⟨fun i none => absurd none (Nat.not_lt_zero i),
      fun _ _ => rfl⟩
  rintro k middle bound ⟨blanks, others⟩
  refine ⟨put middle k 32, store_some (by omega), ?_, ?_⟩
  · intro i early
    by_cases last : i = k
    · rw [last]
      exact put_same
    · exact (put_other last).trans (blanks i (by omega))
  · intro i late
    exact (put_other (by omega)).trans (others i (by omega))

theorem readHeader_keeps (invariant : BitReader → Prop)
    (char : ∀ reader : BitReader, invariant reader → invariant reader.crcFgetc.2)
    {reader : BitReader} (start : invariant reader) : invariant (readHeader reader).2 := by
  have first := char reader start
  rcases read : reader.crcFgetc with ⟨_ | a, second⟩
  · rw [read] at first
    simp only [readHeader, read]
    exact first
  · rw [read] at first
    have next := char second first
    rcases readNext : second.crcFgetc with ⟨_ | b, third⟩
    · rw [readNext] at next
      simp only [readHeader, read, readNext]
      exact next
    · rw [readNext] at next
      have later := char third next
      rcases readLater : third.crcFgetc with ⟨_ | c, fourth⟩
      · rw [readLater] at later
        simp only [readHeader, read, readNext, readLater]
        exact later
      · rw [readLater] at later
        have last := char fourth later
        rcases readLast : fourth.crcFgetc with ⟨_ | d, fifth⟩
        · rw [readLast] at last
          simp only [readHeader, read, readNext, readLater, readLast]
          exact last
        · rw [readLast] at last
          simp only [readHeader, read, readNext, readLater, readLast]
          exact last

theorem readHeader_bits (reader : BitReader) :
    (readHeader reader).2.getlen = reader.getlen :=
  readHeader_keeps (fun next => next.getlen = reader.getlen)
    (fun next same => (BitReader.crcFgetc_bits next).2.trans same) rfl

def headerSize (inbuf : Buffer) : Option Nat :=
  (readHeader { inbuf := inbuf, crc := 0, getbuf := 0, getlen := 0 }).1

theorem decode_total (tree : HuffmanTree) (textBuf : Nat → UInt8) (inbuf : Buffer) :
    ∃ result reader, decode tree textBuf inbuf = some (result, reader) ∧
      (headerSize inbuf = none → result = none) ∧
      ∀ textsize, headerSize inbuf = some textsize → ∃ outbuf, result = some outbuf ∧
        textsize ≤ outbuf.data.length ∧ outbuf.data.length < textsize + lookahead := by
  have bits := readHeader_bits { inbuf := inbuf, crc := 0, getbuf := 0, getlen := 0 }
  unfold headerSize decode
  rcases read : readHeader { inbuf := inbuf, crc := 0, getbuf := 0, getlen := 0 } with
    ⟨_ | textsize, reader⟩
  · exact ⟨none, reader, rfl, fun _ => rfl, by simp⟩
  · by_cases empty : textsize = 0
    · refine ⟨some .new, reader, by simp [empty], by simp, ?_⟩
      intro other same
      obtain rfl := Option.some.inj same
      exact ⟨.new, rfl, by simp [empty, Buffer.new], by simp [empty, Buffer.new]⟩
    · obtain ⟨started, starts, kept, -⟩ := HuffmanTree.startHuff_total tree
      obtain ⟨blank, fills, -⟩ :=
        fillBlank_total textBuf (show ringSize - lookahead ≤ textBufSize by lia)
      have sane : DecodeState.Sane (.start started reader blank) := by
        refine ⟨kept, ?_, ?_, rfl⟩
        · rw [read] at bits
          simp only at bits
          simp only [DecodeState.start]
          omega
        · simp only [DecodeState.start]
          lia
      obtain ⟨last, decodes, done, enough, bounded⟩ :=
        DecodeState.decodeLoop_total sane textsize (by simp only [DecodeState.start]; lia)
      refine ⟨some last.outbuf, last.reader, ?_, by simp, ?_⟩
      · simp only [if_neg empty, starts, fills, decodes, Option.bind_eq_bind, Option.bind_some]
      · intro other same
        obtain rfl := Option.some.inj same
        exact ⟨last.outbuf, rfl, by rw [done.count]; exact enough,
          by rw [done.count]; exact bounded⟩

/-- Whatever bytes the decoder is given, it stays inside its tables and ends, every symbol
it finds is one, and it gives no more than a token beyond the announced length. -/
theorem decode_robust (tree : HuffmanTree) (textBuf : Nat → UInt8) (bytes : Bytes) :
    (∃ result reader, decode tree textBuf ⟨bytes, 0⟩ = some (result, reader) ∧
      ∀ outbuf, result = some outbuf → ∃ textsize, headerSize ⟨bytes, 0⟩ = some textsize ∧
        outbuf.data.length ≤ textsize + lookahead - 1) ∧
      ∀ (state : DecodeState), DecodeState.Sane state →
        ∃ c next after, decodeChar state.tree state.reader = some (c, next, after) ∧ c < nChar := by
  constructor
  · obtain ⟨result, reader, decodes, missing, header⟩ := decode_total tree textBuf ⟨bytes, 0⟩
    refine ⟨result, reader, decodes, ?_⟩
    rintro outbuf rfl
    cases size : headerSize ⟨bytes, 0⟩ with
    | none =>
        have absent := missing size
        cases absent
    | some textsize =>
        obtain ⟨other, same, -, bounded⟩ := header textsize size
        obtain rfl := Option.some.inj same
        exact ⟨textsize, rfl, by omega⟩
  · intro state sane
    obtain ⟨c, next, after, decodes, symbol, -⟩ := decodeChar_total sane.tree sane.bits
    exact ⟨c, next, after, decodes, symbol⟩

end PaclinkUnix
