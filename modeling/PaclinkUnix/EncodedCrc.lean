import PaclinkUnix.DecodeResult
import PaclinkUnix.SlidingWindow

/-!
The CRC in front of an encoded buffer covers all the encoder has written.
-/

namespace PaclinkUnix

open Memory

structure Summed (writer : BitWriter) : Prop where
  crc : writer.crc = crcOf 0 writer.outbuf.data
  header : 4 ≤ writer.outbuf.data.length

section Writing

variable {writer next : BitWriter} {coder after : EntropyCoder}

theorem Summed.fputBits (summed : Summed writer) (c : BitVec 32) : Summed (writer.fputBits c) := by
  refine ⟨?_, ?_⟩
  · simp only [BitWriter.fputBits, BitWriter.crcFputc, Buffer.addchar, crcOf_append, summed.crc]
    rfl
  · simp only [BitWriter.fputBits, BitWriter.crcFputc, Buffer.addchar, List.length_append]
    exact summed.header.trans (Nat.le_add_right _ _)

theorem Summed.of_same (summed : Summed writer) (same : next.crc = writer.crc)
    (data : next.outbuf = writer.outbuf) : Summed next :=
  ⟨by rw [same, data]; exact summed.crc, by rw [data]; exact summed.header⟩

theorem Summed.putcode (summed : Summed writer) {l : Nat} {c : BitVec 32}
    (puts : writer.putcode l c = some next) : Summed next := by
  simp only [BitWriter.putcode, Option.bind_eq_bind, Option.bind_eq_some_iff] at puts
  obtain ⟨shifted, -, puts⟩ := puts
  have ready : Summed { writer with putbuf := writer.putbuf ||| shifted } := summed.of_same rfl rfl
  split at puts
  · split at puts
    · rw [Option.bind_eq_some_iff] at puts
      obtain ⟨rest, -, puts⟩ := puts
      obtain rfl := Option.some.inj puts
      exact ((ready.fputBits _).fputBits _).of_same rfl rfl
    · obtain rfl := Option.some.inj puts
      exact (ready.fputBits _).of_same rfl rfl
  · obtain rfl := Option.some.inj puts
    exact ready.of_same rfl rfl

theorem Summed.encodeChar (summed : Summed coder.writer) {c : Nat}
    (puts : coder.encodeChar c = some (some after)) : Summed after.writer := by
  simp only [EntropyCoder.encodeChar, Option.bind_eq_bind, Option.bind_eq_some_iff] at puts
  obtain ⟨k, -, code, -, puts⟩ := puts
  rcases code with _ | ⟨i, j⟩
  · cases puts
  · simp only [Option.bind_eq_some_iff] at puts
    obtain ⟨writer, puts, tree, -, same⟩ := puts
    obtain rfl := Option.some.inj (Option.some.inj same)
    exact summed.putcode puts

theorem Summed.encodePosition (summed : Summed coder.writer) {c : Nat}
    (puts : coder.encodePosition c = some after) : Summed after.writer := by
  simp only [EntropyCoder.encodePosition, Option.bind_eq_bind, Option.bind_eq_some_iff] at puts
  obtain ⟨len, -, code, -, upper, first, lower, second, same⟩ := puts
  obtain rfl := Option.some.inj same
  exact (summed.putcode first).putcode second

theorem Summed.encodeToken (summed : Summed coder.writer) {token : Token}
    (puts : EntropyCoder.encodeToken token coder = some (some after)) : Summed after.writer := by
  cases token with
  | literal c => exact summed.encodeChar puts
  | copy length position =>
      simp only [EntropyCoder.encodeToken, Option.bind_eq_bind, Option.bind_eq_some_iff] at puts
      obtain ⟨_ | middle, char, puts⟩ := puts
      · cases puts
      · simp only [Option.bind_eq_some_iff] at puts
        obtain ⟨last, position, same⟩ := puts
        obtain rfl := Option.some.inj (Option.some.inj same)
        exact (summed.encodeChar char).encodePosition position

theorem Summed.encodeEnd (summed : Summed coder.writer) : Summed coder.encodeEnd := by
  rw [EntropyCoder.encodeEnd]
  split
  · exact summed.fputBits _
  · exact summed

theorem putSize_summed (textsize : Nat) : Summed (putSize textsize) :=
  ⟨rfl, Nat.le_refl 4⟩

theorem encode_summed {tree : HuffmanTree} {search : SearchTree} {inbuf : Buffer}
    (encodes : encode tree search inbuf = some (some writer)) : Summed writer := by
  rw [encode] at encodes
  split at encodes
  · obtain rfl := Option.some.inj (Option.some.inj encodes)
    exact putSize_summed _
  · simp only [Option.bind_eq_bind, Option.bind_eq_some_iff] at encodes
    obtain ⟨started, -, window, -, result, loops, ends⟩ := encodes
    have kept : ∀ coder, result = some coder → Summed coder.writer := by
      refine iterate_some (fun (state : Window × EntropyCoder) => Summed state.2.writer)
        (fun result => ∀ coder, result = some coder → Summed coder.writer) ?_ ?_
        (putSize_summed _) loops
      · rintro ⟨window, coder⟩ ⟨next, after⟩ summed steps
        simp only [Window.encodeLoop, Option.bind_eq_bind, Option.bind_eq_some_iff] at steps
        obtain ⟨⟨token, chosen⟩, -, _ | middle, sinks, steps⟩ := steps
        · cases steps
        · simp only [Option.bind_eq_some_iff] at steps
          obtain ⟨moved, -, steps⟩ := steps
          split at steps
          · cases steps
            exact Summed.encodeToken summed sinks
          · cases steps
      · rintro ⟨window, coder⟩ result summed steps last rfl
        simp only [Window.encodeLoop, Option.bind_eq_bind, Option.bind_eq_some_iff] at steps
        obtain ⟨⟨token, chosen⟩, -, _ | middle, sinks, steps⟩ := steps
        · cases steps
        · simp only [Option.bind_eq_some_iff] at steps
          obtain ⟨moved, -, steps⟩ := steps
          split at steps
          · cases steps
          · cases steps
            exact Summed.encodeToken summed sinks
    rcases result with _ | coder
    · cases ends
    · obtain rfl := Option.some.inj (Option.some.inj ends)
      exact (kept coder rfl).encodeEnd

end Writing

theorem version1Encode_data {tree : HuffmanTree} {search : SearchTree} {inbuf outbuf : Buffer}
    (encodes : version1Encode tree search inbuf = some (some outbuf)) :
    ∃ writer, encode tree search inbuf = some (some writer) ∧
      outbuf.data = (writer.crc &&& 0xff).toUInt8 :: ((writer.crc >>> 8) &&& 0xff).toUInt8 ::
        writer.outbuf.data := by
  simp only [version1Encode, Option.bind_eq_bind, Option.bind_eq_some_iff] at encodes
  obtain ⟨_ | writer, encodes, adds⟩ := encodes
  · cases adds
  · simp only [Buffer.addbuf, Option.bind_eq_bind, Option.bind_eq_some_iff] at adds
    obtain ⟨out, ⟨data, drains, same⟩, last⟩ := adds
    obtain rfl := Option.some.inj same
    obtain rfl := Option.some.inj (Option.some.inj last)
    obtain ⟨rfl, -⟩ := Buffer.drain_rewind drains
    exact ⟨writer, encodes, rfl⟩

theorem version1Encode_crc {tree : HuffmanTree} {search : SearchTree} {inbuf outbuf : Buffer}
    (encodes : version1Encode tree search inbuf = some (some outbuf)) :
    6 ≤ outbuf.data.length ∧ storedCrc outbuf.data = crcOf 0 (outbuf.data.drop 2) := by
  obtain ⟨writer, encodes, data⟩ := version1Encode_data encodes
  obtain ⟨crc, header⟩ := encode_summed encodes
  constructor
  · rw [data, List.length_cons, List.length_cons]
    omega
  · rw [data]
    exact (bytes_join writer.crc).trans crc

/-- The next `n` bytes, or what is left. -/
def consumed : Nat → Buffer → Bytes × Buffer
  | 0, b => ([], b)
  | n + 1, b =>
      match b.iterchar with
      | (none, b) => ([], b)
      | (some c, b) =>
          let (rest, b) := consumed n b
          (c :: rest, b)

end PaclinkUnix
