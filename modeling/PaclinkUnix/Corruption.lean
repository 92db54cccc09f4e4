import PaclinkUnix.EncodeHistory

/-!
An encoded buffer with one byte changed. The CRC in front of it is that of all the encoder has
written, and the decoder compares it with that of the bytes its symbols take up: the change is
found when they end in the last two bytes or behind them.
-/

namespace PaclinkUnix

open Memory BitStream HuffmanTree

def OneByteOff (e other : Bytes) : Prop :=
  ∃ k v, ∃ inside : k < e.length, v ≠ e[k] ∧ other = e.set k v

theorem storedCrc_set {bytes : Bytes} (long : 2 ≤ bytes.length) {k : Nat}
    (inside : k < bytes.length) {v : UInt8} (changed : v ≠ bytes[k]) :
    storedCrc (bytes.set k v) = storedCrc bytes ↔ 2 ≤ k := by
  rcases bytes with _ | ⟨a, _ | ⟨b, rest⟩⟩
  · simp at long
  · simp at long
  · rcases k with _ | _ | k
    · exact ⟨fun same => absurd (bytes_inj same).1 changed, fun wrong => by omega⟩
    · exact ⟨fun same => absurd (bytes_inj same).2 changed, fun wrong => by omega⟩
    · exact ⟨fun _ => by omega, fun _ => rfl⟩

theorem changed_crc {e other : Bytes} (long : 6 ≤ e.length)
    (summed : storedCrc e = crcOf 0 (e.drop 2)) (changed : OneByteOff e other) :
    other.length = e.length ∧ crcOf 0 (other.drop 2) ≠ storedCrc other := by
  obtain ⟨k, v, inside, differs, rfl⟩ := changed
  refine ⟨List.length_set, ?_⟩
  have stored := storedCrc_set (by omega) inside differs
  by_cases early : k < 2
  · rw [List.drop_set_of_lt early, ← summed]
    intro same
    exact absurd (stored.mp same.symm) (by omega)
  · rw [stored.mpr (by omega), summed, List.drop_set, if_neg early]
    refine crcOf_set (by rw [List.length_drop]; omega) ?_
    rw [List.getElem_drop]
    simpa only [show 2 + (k - 2) = k by omega] using differs

/-- The tokens announced end in the last two bytes or later. With the size 0 there are none, and
nothing may follow it. -/
def ReadThrough (tree : HuffmanTree) (bytes : Bytes) : Prop :=
  ∃ textsize fresh tokens, headerSize ⟨bytes, 2⟩ = some textsize ∧
    (textsize = 0 → bytes.length ≤ 6) ∧ tree.startHuff = some fresh ∧
    Announced textsize fresh (bitsFrom ⟨bytes, 6⟩) 0 tokens ∧
    8 * bytes.length < 64 + (streamCodes fresh tokens).flatten.length ∧ bytes.length < 2 ^ 32

section Detection

variable {tree fresh : HuffmanTree} {textsize : Nat} {tokens : List Token} {e : Bytes} {k : Nat}
  {v : UInt8}

theorem reads_drop {bytes : Bytes} (short : bytes.length < 2 ^ 32) (inside : k ≤ bytes.length) :
    Buffer.Reads ⟨bytes, k⟩ (bytes.drop k) :=
  ⟨short, inside, rfl⟩

theorem ReadThrough.reads {bytes : Bytes} (through : ReadThrough tree bytes) (long : 6 ≤ bytes.length)
    (textBuf : Nat → UInt8) : ∃ outbuf reader,
      decode tree textBuf ⟨bytes, 2⟩ = some (some outbuf, reader) ∧
      reader.crc = crcOf 0 (bytes.drop 2) := by
  obtain ⟨textsize, fresh, tokens, size, bare, starts, announced, ends, short⟩ := through
  obtain ⟨_, again, invariant, -⟩ := startHuff_total tree
  obtain rfl := Option.some.inj (starts.symm.trans again)
  by_cases positive : textsize = 0
  · obtain ⟨header, reads, ⟨-, m, -, crc, count⟩, -⟩ := readHeader_drawn long size
    rw [consumed_all (reads_drop short (by omega)) (by rw [List.length_drop]; omega)] at crc
    exact ⟨.new, header, by rw [decode, reads]; simp only [if_pos positive], crc⟩
  · obtain ⟨others, outbuf, reader, also, -, decodes, took⟩ :=
      decode_announced textBuf long size positive starts
    obtain rfl := announced.unique invariant also
    rw [consumed_all (reads_drop short (by omega)) (by rw [List.length_drop]; omega)] at took
    exact ⟨outbuf, reader, decodes, took⟩

theorem ReadThrough.detected {bytes : Bytes} (through : ReadThrough tree bytes)
    (long : 6 ≤ bytes.length) (wrong : crcOf 0 (bytes.drop 2) ≠ storedCrc bytes)
    (textBuf : Nat → UInt8) (crc : UInt16) :
    version1Decode tree textBuf crc ⟨bytes, 0⟩ = some none := by
  obtain ⟨outbuf, reader, decodes, took⟩ := through.reads long textBuf
  rw [version1Decode_crc tree textBuf crc (by omega), decodes, Option.bind_some, took, if_pos wrong]
  rfl

theorem bitsFrom_set (short : e.length < 2 ^ 32) (long : 6 ≤ e.length) {n : Nat}
    (before : k < 6 ∨ n < 8 * (k - 6)) :
    bitsFrom ⟨e.set k v, 6⟩ n = bitsFrom ⟨e, 6⟩ n := by
  have same : (e.set k v).length = e.length := List.length_set
  rw [bitsFrom, bitsFrom, upcoming_reads (reads_drop short long),
    upcoming_reads (reads_drop (same ▸ short) (same ▸ long))]
  congr 1
  rw [List.getD_eq_getElem?_getD, List.getD_eq_getElem?_getD, List.getElem?_drop, List.getElem?_drop,
    List.getElem?_set_ne (by omega)]

theorem headerSize_set (long : 6 ≤ e.length) (outside : k < 2 ∨ 6 ≤ k) :
    headerSize ⟨e.set k v, 2⟩ = headerSize ⟨e, 2⟩ := by
  have same : ∀ n, 2 ≤ n → n < 6 → (e.set k v).getD n 0 = e.getD n 0 := by
    intro n low high
    rw [List.getD_eq_getElem?_getD, List.getD_eq_getElem?_getD, List.getElem?_set_ne (by omega)]
  rw [headerSize_some long, headerSize_some (List.length_set.symm ▸ long), same 2 (by omega) (by omega),
    same 3 (by omega) (by omega), same 4 (by omega) (by omega), same 5 (by omega) (by omega)]

theorem size_sum {a b c d : Nat} (first : a < 256) (second : b < 256) (third : c < 256) :
    a ||| b <<< 8 ||| c <<< 16 ||| d <<< 24 = a + 256 * b + 65536 * c + 16777216 * d := by
  have join : ∀ {low high : Nat} (n : Nat), low < 2 ^ n → low ||| high <<< n = low + high * 2 ^ n := by
    intro low high n small
    rw [Nat.or_comm, ← Nat.shiftLeft_add_eq_or_of_lt small, Nat.shiftLeft_eq, Nat.add_comm]
  rw [join 8 (by omega), join 16 (by omega), join 24 (by omega)]
  omega

theorem headerSize_grows (long : 6 ≤ e.length) (low : 2 ≤ k) (high : k < 6)
    (larger : e[k] < v) {size : Nat} (was : headerSize ⟨e, 2⟩ = some size) :
    ∃ more, headerSize ⟨e.set k v, 2⟩ = some more ∧ size < more := by
  have bound := fun n => (e.getD n 0).toNat_lt
  have value := v.toNat_lt
  have here : (e.getD k 0).toNat < v.toNat := by
    rw [List.getD_eq_getElem _ _ (by omega)]
    exact UInt8.lt_iff_toNat_lt.mp larger
  have cell : ∀ n < 6, (e.set k v).getD n 0 = if n = k then v else e.getD n 0 := by
    intro n inside
    rw [List.getD_eq_getElem?_getD, List.getElem?_set]
    by_cases same : k = n
    · rw [if_pos same, if_pos (by omega), if_pos same.symm]
      rfl
    · rw [if_neg same, if_neg (Ne.symm same), List.getD_eq_getElem?_getD]
  rw [headerSize_some long, size_sum (bound 2) (bound 3) (bound 4)] at was
  have was := Option.some.inj was
  refine ⟨_, headerSize_some (List.length_set.symm ▸ long), ?_⟩
  rw [size_sum (UInt8.toNat_lt _) (UInt8.toNat_lt _) (UInt8.toNat_lt _), cell 2 (by omega),
    cell 3 (by omega), cell 4 (by omega), cell 5 (by omega)]
  obtain rfl | rfl | rfl | rfl : k = 2 ∨ k = 3 ∨ k = 4 ∨ k = 5 := by omega
  all_goals
    simp only [reduceIte, Nat.reduceEqDiff]
    omega

theorem streamCodes_initial {others : List Token} (initial : tokens <+: others) :
    (streamCodes tree tokens).flatten.length ≤ (streamCodes tree others).flatten.length := by
  obtain ⟨rest, rfl⟩ := initial
  induction tokens generalizing tree with
  | nil => exact Nat.zero_le _
  | cons token tokens ih =>
      rw [List.cons_append, streamCodes, streamCodes, List.flatten_append, List.flatten_append,
        List.length_append, List.length_append]
      exact Nat.add_le_add_left ih _

/-- Codes that end in the last byte, and then a change of the CRC, a larger size or a change in the
last two bytes. -/
theorem readThrough_changed (long : 6 ≤ e.length) (short : e.length < 2 ^ 32)
    (size : headerSize ⟨e, 2⟩ = some textsize) (bare : textsize = 0 → e.length ≤ 6)
    (starts : tree.startHuff = some fresh)
    (announced : Announced textsize fresh (bitsFrom ⟨e, 6⟩) 0 tokens)
    (ends : 8 * e.length < 56 + (streamCodes fresh tokens).flatten.length) (inside : k < e.length)
    (place : k < 2 ∨ (k < 6 ∧ e[k] < v) ∨ (6 ≤ k ∧ e.length ≤ k + 2)) :
    ReadThrough tree (e.set k v) := by
  obtain ⟨_, again, invariant, -⟩ := startHuff_total tree
  obtain rfl := Option.some.inj (starts.symm.trans again)
  have same : (e.set k v).length = e.length := List.length_set
  have reads : ∀ size, headerSize ⟨e.set k v, 2⟩ = some size → size ≠ 0 →
      ∃ others, Announced size fresh (bitsFrom ⟨e.set k v, 6⟩) 0 others := by
    intro size header positive
    obtain ⟨others, -, -, also, -⟩ :=
      decode_announced (fun _ => 0) (same.symm ▸ long) header positive starts
    exact ⟨others, also⟩
  have along : k < 6 → bitsFrom ⟨e.set k v, 6⟩ = bitsFrom ⟨e, 6⟩ :=
    fun early => funext fun n => bitsFrom_set short long (.inl early)
  rcases place with stored | ⟨high, larger⟩ | ⟨body, late⟩
  · refine ⟨textsize, fresh, tokens, (headerSize_set long (.inl stored)).trans size, by omega,
      starts, ?_, by omega, by omega⟩
    rw [along (by omega)]
    exact announced
  · by_cases stored : k < 2
    · refine ⟨textsize, fresh, tokens, (headerSize_set long (.inl stored)).trans size, by omega,
        starts, ?_, by omega, by omega⟩
      rw [along high]
      exact announced
    · obtain ⟨more, header, grows⟩ := headerSize_grows long (by omega) high larger size
      obtain ⟨others, also⟩ := reads more header (by omega)
      have initial : tokens <+: others :=
        announced.initial invariant (by omega) (along high ▸ also)
      have longer : (streamCodes fresh tokens).flatten.length ≤
          (streamCodes fresh others).flatten.length := streamCodes_initial initial
      exact ⟨more, fresh, others, header, by omega, starts, also, by omega, by omega⟩
  · have header := (headerSize_set (v := v) long (.inr body)).trans size
    obtain ⟨others, also⟩ := reads textsize header (by omega)
    refine ⟨textsize, fresh, others, header, by omega, starts, also, ?_, by omega⟩
    -- tokens that ended before the change would be those of the unchanged buffer
    by_contra early
    have before : Announced textsize fresh (bitsFrom ⟨e, 6⟩) 0 others := by
      refine ⟨also.readable, also.reaches, fun n front => ?_⟩
      rw [← bitsFrom_set (k := k) (v := v) short long (.inr (by omega))]
      exact also.starts n front
    obtain rfl := announced.unique invariant before
    omega

end Detection

/-- One byte changed is found if the tokens announced then end in the last two bytes or later. They
do when no code was cut, and the byte is one of the CRC, makes the size larger, or is one of the
last two. -/
theorem corruption_detected (tree start : HuffmanTree) (search : SearchTree)
    (textBuf : Nat → UInt8) (crc : UInt16) (bytes e : Bytes) (k : Nat) (v : UInt8)
    (encodes : version1Encode tree search ⟨bytes, 0⟩ = some (some ⟨e, 0⟩))
    (inside : k < e.length) (changed : v ≠ e[k])
    (through : ReadThrough start (e.set k v) ∨
      bytes.length < 2 ^ 32 ∧ (bytes.length ≤ 3867 ∨ CodesLegible tree search ⟨bytes, 0⟩) ∧
        (k < 2 ∨ (k < 6 ∧ e[k] < v) ∨ (6 ≤ k ∧ e.length ≤ k + 2))) :
    version1Decode start textBuf crc ⟨e.set k v, 0⟩ = some none := by
  have summed : 6 ≤ e.length ∧ storedCrc e = crcOf 0 (e.drop 2) := version1Encode_crc encodes
  have long := summed.1
  obtain ⟨same, wrong⟩ := changed_crc long summed.2 ⟨k, v, inside, changed, rfl⟩
  refine ReadThrough.detected ?_ (same.symm ▸ long) wrong textBuf crc
  rcases through with through | ⟨small, plain, place⟩
  · exact through
  · obtain ⟨fresh, freshly, -, -⟩ := startHuff_total start
    by_cases empty : bytes = []
    · have coded := Option.some.inj (Option.some.inj
        (encodes.symm.trans (version1Encode_empty tree search empty)))
      obtain rfl : e = [0, 0, 0, 0, 0, 0] := (Buffer.mk.inj coded).1
      have silent : Announced 0 fresh (bitsFrom ⟨[0, 0, 0, 0, 0, 0], 6⟩) 0 [] :=
        ⟨fun token listed => absurd listed List.not_mem_nil, Nat.le_refl 0, starts_nil⟩
      exact readThrough_changed long (by decide) rfl (by decide) freshly silent
        (show 48 < 56 by decide) inside place
    · have legible : CodesLegible tree search ⟨bytes, 0⟩ :=
        plain.elim (@short_legible tree search ⟨bytes, 0⟩ empty) id
      obtain ⟨tokens, body, -, codes, short, announced, -, ends⟩ :=
        legible.message empty small freshly
      have coded := Option.some.inj (Option.some.inj (encodes.symm.trans codes))
      obtain rfl : e = codedMessage bytes.length body := (Buffer.mk.inj coded).1
      have length : (codedMessage bytes.length body).length = 6 + body.length := codedMessage_length
      exact readThrough_changed long (by omega) (headerSize_message small)
        (fun blank => absurd (List.length_eq_zero_iff.mp blank) empty) freshly announced (by omega)
        inside place

theorem encode_two :
    version1Encode ⟨id, id, id⟩ ⟨fun _ => 0, id, id, id, 0, 0⟩ ⟨[78, 20], 0⟩ =
      some (some ⟨[0, 0, 2, 0, 0, 0, 237, 104, 0], 0⟩) := by
  have nonempty : (⟨[78, 20], 0⟩ : Buffer).data ≠ [] := List.cons_ne_nil _ _
  have small : (⟨[78, 20], 0⟩ : Buffer).data.length < 2 ^ 32 := (by decide : 2 < 2 ^ 32)
  obtain ⟨tokens, chosen, -⟩ :=
    encode_feeds ⟨fun _ => 0, id, id, id, 0, 0⟩ ⟨[78, 20], 0⟩ nonempty small
  have anyTree := encode_chosen nonempty small chosen chosen ⟨id, id, id⟩ HuffmanTree.startTable
  have coded : (Window.feed EntropyCoder.encodeToken [.literal 78, .literal 20]
      { tree := HuffmanTree.startTable, writer := putSize 2 }).map
        (Option.map EntropyCoder.encodeEnd) =
      some (some ⟨⟨[2, 0, 0, 0, 237, 104, 0], 0⟩, 0, 3983015936, 2⟩) := by
    decide +kernel
  rw [version1Encode, anyTree, encode_pair, HuffmanTree.startHuff_table, Option.bind_some, coded]
  rfl

/-- With the size changed from 2 to 0 nothing else is read, and the CRC of nothing but
zeros is 0, as it happens to be for the whole. -/
theorem corruption_accepted : ∃ e other,
    version1Encode ⟨id, id, id⟩ ⟨fun _ => 0, id, id, id, 0, 0⟩ ⟨[78, 20], 0⟩ =
      some (some ⟨e, 0⟩) ∧ OneByteOff e other ∧
    version1Decode ⟨id, id, id⟩ (fun _ => 0) 0 ⟨other, 0⟩ = some (some .new) :=
  ⟨[0, 0, 2, 0, 0, 0, 237, 104, 0], [0, 0, 0, 0, 0, 0, 237, 104, 0], encode_two,
    ⟨2, 0, by decide, by decide, rfl⟩, rfl⟩

/-- The last byte changed. -/
theorem corruption_detected_sample :
    version1Decode ⟨id, id, id⟩ (fun _ => 0) 0 ⟨[0, 0, 2, 0, 0, 0, 237, 104, 1], 0⟩ = some none :=
  corruption_detected ⟨id, id, id⟩ ⟨id, id, id⟩ ⟨fun _ => 0, id, id, id, 0, 0⟩ (fun _ => 0) 0
    [78, 20] [0, 0, 2, 0, 0, 0, 237, 104, 0] 8 1 encode_two (by decide) (by decide)
    (.inr ⟨by decide, .inl (by decide), .inr (.inr ⟨by decide, by decide⟩)⟩)

end PaclinkUnix
