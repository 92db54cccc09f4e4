import PaclinkUnix.DecodeSafety

/-!
What `version_1_Decode` returns: NULL or a buffer, for which inputs, and of which length.
-/

namespace PaclinkUnix

open Memory

def storedCrc (bytes : Bytes) : UInt16 :=
  (bytes.getD 0 0).toUInt16 ||| (bytes.getD 1 0).toUInt16 <<< 8

/-- The CRC of all the decoder reads behind it. -/
def computedCrc (tree : HuffmanTree) (textBuf : Nat → UInt8) (bytes : Bytes) : Option UInt16 :=
  (decode tree textBuf ⟨bytes, 2⟩).map fun result => result.2.crc

section Header

variable {tree : HuffmanTree} {textBuf : Nat → UInt8} {crc : UInt16}

theorem version1Decode_none (tree : HuffmanTree) (textBuf : Nat → UInt8) (crc : UInt16)
    {bytes : Bytes} (short : bytes.length < 2) :
    version1Decode tree textBuf crc ⟨bytes, 0⟩ = some none := by
  rcases bytes with _ | ⟨a, _ | ⟨b, rest⟩⟩
  · rfl
  · rfl
  · simp at short

theorem version1Decode_crc (tree : HuffmanTree) (textBuf : Nat → UInt8) (crc : UInt16)
    {bytes : Bytes} (long : 2 ≤ bytes.length) :
    version1Decode tree textBuf crc ⟨bytes, 0⟩ =
      (decode tree textBuf ⟨bytes, 2⟩).bind fun result =>
        if result.2.crc ≠ storedCrc bytes then (bufferFree result.1).bind fun _ => some none
        else some result.1 := by
  rcases bytes with _ | ⟨a, _ | ⟨b, rest⟩⟩
  · simp at long
  · simp at long
  · rfl

theorem decode_short {bytes : Bytes} (long : 2 ≤ bytes.length) (short : bytes.length < 6) :
    ∃ reader, decode tree textBuf ⟨bytes, 2⟩ = some (none, reader) ∧
      reader.crc = crcOf 0 (bytes.drop 2) := by
  rcases bytes with _ | ⟨a, _ | ⟨b, _ | ⟨c, _ | ⟨d, _ | ⟨e, _ | ⟨f, rest⟩⟩⟩⟩⟩⟩
  · simp at long
  · simp at long
  · exact ⟨_, rfl, rfl⟩
  · exact ⟨_, rfl, rfl⟩
  · exact ⟨_, rfl, rfl⟩
  · exact ⟨_, rfl, rfl⟩
  · simp at short
    omega

theorem headerSize_some {bytes : Bytes} (long : 6 ≤ bytes.length) :
    headerSize ⟨bytes, 2⟩ = some ((bytes.getD 2 0).toNat ||| (bytes.getD 3 0).toNat <<< 8 |||
      (bytes.getD 4 0).toNat <<< 16 ||| (bytes.getD 5 0).toNat <<< 24) := by
  rcases bytes with _ | ⟨a, _ | ⟨b, _ | ⟨c, _ | ⟨d, _ | ⟨e, _ | ⟨f, rest⟩⟩⟩⟩⟩⟩ <;>
    first | (simp at long; done) | rfl

theorem decode_long (tree : HuffmanTree) (textBuf : Nat → UInt8) {bytes : Bytes}
    (long : 6 ≤ bytes.length) :
    ∃ outbuf reader, decode tree textBuf ⟨bytes, 2⟩ = some (some outbuf, reader) := by
  obtain ⟨result, reader, decodes, -, header⟩ := decode_total tree textBuf ⟨bytes, 2⟩
  obtain ⟨outbuf, rfl, -⟩ := header _ (headerSize_some long)
  exact ⟨outbuf, reader, decodes⟩

end Header

/-- NULL is returned for an input without a header or with a wrong CRC, and only then, and
NULL is not dereferenced. -/
def FailsRight (tree : HuffmanTree) (textBuf : Nat → UInt8) (crc : UInt16) (bytes : Bytes) : Prop :=
  ∃ result, version1Decode tree textBuf crc ⟨bytes, 0⟩ = some result ∧
    (result = none ↔ bytes.length < 6 ∨ computedCrc tree textBuf bytes ≠ some (storedCrc bytes))

/-- It does so unless the input ends in the size and has not the CRC of what is there. -/
theorem fails_right_iff (tree : HuffmanTree) (textBuf : Nat → UInt8) (crc : UInt16)
    (bytes : Bytes) :
    FailsRight tree textBuf crc bytes ↔
      bytes.length < 2 ∨ 6 ≤ bytes.length ∨ crcOf 0 (bytes.drop 2) = storedCrc bytes := by
  unfold FailsRight
  by_cases tiny : bytes.length < 2
  · exact ⟨fun _ => .inl tiny, fun _ => ⟨none, version1Decode_none tree textBuf crc tiny,
      fun _ => .inl (by omega), fun _ => rfl⟩⟩
  · rw [version1Decode_crc tree textBuf crc (by omega)]
    by_cases long : 6 ≤ bytes.length
    · obtain ⟨outbuf, reader, decodes⟩ := decode_long tree textBuf long
      have computed : computedCrc tree textBuf bytes = some reader.crc := by
        rw [computedCrc, decodes]
        rfl
      refine ⟨fun _ => .inr (.inl long), fun _ => ?_⟩
      rw [decodes, computed]
      by_cases right : reader.crc = storedCrc bytes
      · refine ⟨some outbuf, by simp [right], by simp, ?_⟩
        rintro (short | wrong)
        · omega
        · exact absurd (congrArg some right) wrong
      · refine ⟨none, by simp [right, bufferFree], fun _ => .inr ?_, fun _ => rfl⟩
        exact fun same => right (Option.some.inj same)
    · obtain ⟨reader, decodes, crcs⟩ := @decode_short tree textBuf bytes (by omega) (by omega)
      rw [decodes, ← crcs]
      constructor
      · rintro ⟨result, returns, -⟩
        by_cases right : reader.crc = storedCrc bytes
        · exact .inr (.inr right)
        · simp [right, bufferFree] at returns
      · rintro (short | enough | right)
        · omega
        · omega
        · exact ⟨none, by simp [right], fun _ => .inl (by omega), fun _ => rfl⟩

/-- Two bytes that are not the CRC of nothing. -/
theorem null_freed : ¬ FailsRight ⟨id, id, id⟩ (fun _ => 0) 0 [1, 0] := by
  rintro ⟨result, returns, -⟩
  have faults : version1Decode ⟨id, id, id⟩ (fun _ => 0) 0 ⟨[1, 0], 0⟩ = none := by
    rw [version1Decode_crc _ _ _ (by decide)]
    rfl
  rw [faults] at returns
  cases returns

/-- How many characters the next `n` symbols stand for. -/
def tokensLength : Nat → HuffmanTree × BitReader → Option Nat
  | 0, _ => some 0
  | n + 1, input => do
      let (len, input) ← DecodeState.readToken input
      some (len + (← tokensLength n input))

/-- Some number of whole symbols stands for as many characters as the header announces. -/
def TokensMeet (tree : HuffmanTree) (inbuf : Buffer) : Prop :=
  ∃ textsize reader started n,
    readHeader { inbuf := inbuf, crc := 0, getbuf := 0, getlen := 0 } = (some textsize, reader) ∧
    tree.startHuff = some started ∧ tokensLength n (started, reader) = some textsize

theorem decodeLoop_meets (textsize fuel : Nat) {state last : DecodeState}
    (sane : DecodeState.Sane state)
    (decodes : iterate (DecodeState.decodeLoop textsize) fuel state = some last) :
    last.count = textsize ↔
      ∃ n len, tokensLength n (state.tree, state.reader) = some len ∧
        state.count + len = textsize := by
  induction fuel generalizing state with
  | zero => cases decodes
  | succ fuel ih =>
      by_cases more : state.count < textsize
      · obtain ⟨len, next, token, kept, counts, some, short, reads⟩ := DecodeState.token_total sane
        have again : DecodeState.decodeLoop textsize state = .some (.inl next) := by
          simp only [DecodeState.decodeLoop, if_pos more, token, Option.bind_eq_bind,
            Option.bind_some]
        simp only [iterate, again, Option.bind_eq_bind, Option.bind_some] at decodes
        rw [ih kept decodes]
        constructor
        · rintro ⟨n, rest, found, meets⟩
          refine ⟨n + 1, len + rest, ?_, by omega⟩
          simp only [tokensLength, reads, found, Option.bind_eq_bind, Option.bind_some]
        · rintro ⟨n, all, found, meets⟩
          cases n with
          | zero =>
              obtain rfl := Option.some.inj found
              omega
          | succ n =>
              simp only [tokensLength, reads, Option.bind_eq_bind, Option.bind_some,
                Option.bind_eq_some_iff, Option.some.injEq] at found
              obtain ⟨rest, found, rfl⟩ := found
              exact ⟨n, rest, found, by omega⟩
      · have done : DecodeState.decodeLoop textsize state = some (.inr state) := by
          simp only [DecodeState.decodeLoop, if_neg more]
        simp only [iterate, done, Option.bind_eq_bind, Option.bind_some, Option.some.injEq]
          at decodes
        subst decodes
        constructor
        · intro same
          exact ⟨0, 0, rfl, by omega⟩
        · rintro ⟨n, len, -, meets⟩
          omega

theorem decode_meets (tree : HuffmanTree) (textBuf : Nat → UInt8) {inbuf outbuf : Buffer}
    {reader : BitReader} (decodes : decode tree textBuf inbuf = some (some outbuf, reader)) :
    headerSize inbuf = some outbuf.data.length ↔ TokensMeet tree inbuf := by
  have bits := readHeader_bits { inbuf := inbuf, crc := 0, getbuf := 0, getlen := 0 }
  obtain ⟨started, starts, kept, -⟩ := HuffmanTree.startHuff_total tree
  unfold headerSize TokensMeet
  unfold decode at decodes
  rcases read : readHeader { inbuf := inbuf, crc := 0, getbuf := 0, getlen := 0 } with
    ⟨_ | textsize, header⟩
  · rw [read] at decodes
    simp at decodes
  · rw [read] at decodes bits
    simp only at decodes bits
    by_cases empty : textsize = 0
    · simp only [if_pos empty, Option.some.injEq, Prod.mk.injEq] at decodes
      obtain ⟨rfl, -⟩ := decodes
      exact ⟨fun _ => ⟨textsize, header, started, 0, rfl, starts, by rw [empty]; rfl⟩,
        fun _ => by rw [empty]; rfl⟩
    · obtain ⟨blank, fills, -⟩ :=
        fillBlank_total textBuf (show ringSize - lookahead ≤ textBufSize by lia)
      simp only [if_neg empty, starts, fills, Option.bind_eq_bind, Option.bind_some,
        Option.bind_eq_some_iff, Option.some.injEq, Prod.mk.injEq] at decodes
      obtain ⟨last, loops, rfl, rfl⟩ := decodes
      have sane : DecodeState.Sane (.start started header blank) := by
        refine ⟨kept, ?_, ?_, rfl⟩
        · simp only [DecodeState.start]
          omega
        · simp only [DecodeState.start]
          lia
      have counted : last.outbuf.data.length = last.count := by
        obtain ⟨other, same, done, -⟩ := DecodeState.decodeLoop_total sane textsize
          (by simp only [DecodeState.start]; lia)
        obtain rfl := Option.some.inj (same.symm.trans loops)
        exact done.count
      have meets := decodeLoop_meets textsize _ sane loops
      simp only [DecodeState.start, Nat.zero_add] at meets
      rw [counted]
      constructor
      · intro same
        obtain ⟨n, len, found, rfl⟩ := meets.mp (Option.some.inj same).symm
        exact ⟨len, header, started, n, rfl, starts, found⟩
      · rintro ⟨other, reader, again, n, headerSame, startSame, found⟩
        obtain rfl := Option.some.inj (starts.symm.trans startSame)
        simp only [Prod.mk.injEq, Option.some.injEq] at headerSame
        obtain ⟨rfl, rfl⟩ := headerSame
        rw [meets.mpr ⟨n, textsize, found, rfl⟩]

/-- For an accepted input. -/
theorem size_matches_iff (tree : HuffmanTree) (textBuf : Nat → UInt8) (crc : UInt16)
    (bytes : Bytes) (outbuf : Buffer)
    (accepted : version1Decode tree textBuf crc ⟨bytes, 0⟩ = some (some outbuf)) :
    headerSize ⟨bytes, 2⟩ = some outbuf.data.length ↔ TokensMeet tree ⟨bytes, 2⟩ := by
  by_cases tiny : bytes.length < 2
  · rw [version1Decode_none tree textBuf crc tiny] at accepted
    cases accepted
  · rw [version1Decode_crc tree textBuf crc (by omega), Option.bind_eq_some_iff] at accepted
    obtain ⟨⟨result, reader⟩, decodes, returns⟩ := accepted
    split at returns
    · rw [Option.bind_eq_some_iff] at returns
      obtain ⟨-, -, absent⟩ := returns
      cases absent
    · obtain rfl := Option.some.inj returns
      exact decode_meets tree textBuf decodes

/-- Three characters are announced, and the first symbol is a match of three. -/
theorem size_matches_sample : TokensMeet ⟨id, id, id⟩ ⟨[185, 150, 3, 0, 0, 0, 140, 0, 0], 2⟩ :=
  (size_matches_iff ⟨id, id, id⟩ (fun _ => 0) 0 [185, 150, 3, 0, 0, 0, 140, 0, 0]
    ⟨[32, 32, 32], 0⟩ (by decide +kernel)).mp (by decide +kernel)

/-- One character is announced, and the first symbol is a match of three. -/
theorem size_exceeded :
    ∃ outbuf, version1Decode ⟨id, id, id⟩ (fun _ => 0) 0 ⟨[90, 246, 1, 0, 0, 0, 140, 0, 0], 0⟩ =
      some (some outbuf) ∧
      headerSize ⟨[90, 246, 1, 0, 0, 0, 140, 0, 0], 2⟩ ≠ some outbuf.data.length := by
  have accepted : version1Decode ⟨id, id, id⟩ (fun _ => 0) 0
      ⟨[90, 246, 1, 0, 0, 0, 140, 0, 0], 0⟩ = some (some ⟨[32, 32, 32], 0⟩) := by
    decide +kernel
  exact ⟨_, accepted, by decide +kernel⟩

end PaclinkUnix
