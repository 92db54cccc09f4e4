import PaclinkUnix.DecodeResult
import PaclinkUnix.LzhufEncode

/-!
The variables of `lzhuf_1.c` outlive a message. Here the codec goes from one call to the
next with what they hold; its results are those of `version1Encode` and `version1Decode`.
-/

namespace PaclinkUnix

open Memory

/-- What a call finds of the calls before it. -/
structure Codec where
  tree : HuffmanTree
  search : SearchTree
  crc : UInt16

namespace Codec

def initial : Codec where
  tree := { freq := fun _ => 0, prnt := fun _ => 0, son := fun _ => 0 }
  search :=
    { textBuf := fun _ => 0, lson := fun _ => 0, rson := fun _ => 0, dad := fun _ => 0
      matchPosition := 0, matchLength := 0 }
  crc := 0

def decode (codec : Codec) (inbuf : Buffer) : Option (Option Buffer × Codec) :=
  match readHeader { inbuf := inbuf, crc := 0, getbuf := 0, getlen := 0 } with
  | (none, reader) => some (none, { codec with crc := reader.crc })
  | (some textsize, reader) =>
      if textsize = 0 then some (some .new, { codec with crc := reader.crc })
      else do
        let tree ← codec.tree.startHuff
        let textBuf ← forRange (ringSize - lookahead) fillBlank codec.search.textBuf
        let state ← iterate (DecodeState.decodeLoop textsize) (textsize + 1)
          (.start tree reader textBuf)
        some (some state.outbuf,
          { tree := state.tree
            search := { codec.search with textBuf := state.textBuf }
            crc := state.reader.crc })

def version1Decode (codec : Codec) (inbuf : Buffer) : Option (Option Buffer × Codec) :=
  match ({ inbuf := inbuf, crc := codec.crc, getbuf := 0, getlen := 0 } : BitReader).crcFgetc with
  | (none, reader) => some (none, { codec with crc := reader.crc })
  | (some low, reader) =>
    match reader.crcFgetc with
    | (none, reader) => some (none, { codec with crc := reader.crc })
    | (some high, reader) => do
        let crcRead := low.toUInt16 ||| high.toUInt16 <<< 8
        let (outbuf, codec) ← codec.decode reader.inbuf
        if codec.crc ≠ crcRead then do
          bufferFree outbuf
          some (none, codec)
        else some (outbuf, codec)

theorem decode_result (codec : Codec) (inbuf : Buffer) :
    (codec.decode inbuf).map (fun result => (result.1, result.2.crc)) =
      (PaclinkUnix.decode codec.tree codec.search.textBuf inbuf).map fun result =>
        (result.1, result.2.crc) := by
  unfold decode PaclinkUnix.decode
  rcases readHeader { inbuf := inbuf, crc := 0, getbuf := 0, getlen := 0 } with
    ⟨_ | textsize, reader⟩
  · rfl
  · by_cases empty : textsize = 0
    · simp only [if_pos empty, Option.map_some]
    · simp only [if_neg empty, Option.bind_eq_bind, Option.map_bind, Function.comp_def,
        Option.map_some]

theorem version1Decode_result (codec : Codec) (inbuf : Buffer) :
    (codec.version1Decode inbuf).map Prod.fst =
      PaclinkUnix.version1Decode codec.tree codec.search.textBuf codec.crc inbuf := by
  unfold version1Decode PaclinkUnix.version1Decode
  rcases ({ inbuf := inbuf, crc := codec.crc, getbuf := 0, getlen := 0 } : BitReader).crcFgetc with
    ⟨_ | low, first⟩
  · rfl
  · rcases second : first.crcFgetc with ⟨_ | high, reader⟩
    · simp only [second, Option.map_some]
    · simp only [second, Option.bind_eq_bind]
      have same := codec.decode_result reader.inbuf
      rcases left : codec.decode reader.inbuf with _ | ⟨outbuf, next⟩
      · rw [left] at same
        rw [Option.map_none, eq_comm, Option.map_eq_none_iff] at same
        rw [same]
        rfl
      · rw [left, Option.map_some, eq_comm, Option.map_eq_some_iff] at same
        obtain ⟨⟨other, after⟩, right, pair⟩ := same
        simp only [Prod.mk.injEq] at pair
        obtain ⟨rfl, crcs⟩ := pair
        rw [right]
        simp only [Option.bind_some, crcs]
        split
        · cases other <;> rfl
        · rfl

section Loop

variable {σ : Type}

/-- The main loop, which ends with the window and the entropy coder. -/
def encodeLoop (sink : Token → σ → Option (Option σ)) :
    Window × σ → Option ((Window × σ) ⊕ (Option σ × Window × σ))
  | (window, coder) => do
      let (token, window) ← window.nextToken
      match ← sink token coder with
      | none => some (.inr (none, window, coder))
      | some coder => do
          let window ← window.advance window.search.matchLength
          if 0 < window.len then some (.inl (window, coder))
          else some (.inr (some coder, window, coder))

theorem encodeLoop_result (sink : Token → σ → Option (Option σ)) (fuel : Nat)
    (state : Window × σ) :
    (iterate (encodeLoop sink) fuel state).map Prod.fst =
      iterate (Window.encodeLoop sink) fuel state := by
  induction fuel generalizing state with
  | zero => rfl
  | succ fuel ih =>
      obtain ⟨window, coder⟩ := state
      simp only [iterate, encodeLoop, Window.encodeLoop, Option.bind_eq_bind]
      rcases window.nextToken with _ | ⟨token, chosen⟩
      · rfl
      · simp only [Option.bind_some]
        rcases sink token coder with _ | _ | after
        · rfl
        · rfl
        · simp only [Option.bind_some]
          rcases chosen.advance chosen.search.matchLength with _ | next
          · rfl
          · simp only [Option.bind_some]
            by_cases more : 0 < next.len
            · simp only [if_pos more, Option.bind_some]
              exact ih (next, after)
            · simp only [if_neg more, Option.bind_some, Option.map_some]

end Loop

def encode (codec : Codec) (inbuf : Buffer) : Option (Option BitWriter × Codec) := do
  let textsize := inbuf.data.length % 2 ^ 32
  let writer := putSize textsize
  if textsize = 0 then some (some writer, { codec with crc := writer.crc })
  else do
    let tree ← codec.tree.startHuff
    let window ← Window.start codec.search inbuf
    let (result, window, coder) ←
      iterate (encodeLoop EntropyCoder.encodeToken) (inbuf.data.length + 1)
        (window, { tree := tree, writer := writer })
    match result with
    | none =>
        some (none, { tree := coder.tree, search := window.search, crc := coder.writer.crc })
    | some coder => do
        let writer := coder.encodeEnd
        some (some writer, { tree := coder.tree, search := window.search, crc := writer.crc })

def version1Encode (codec : Codec) (inbuf : Buffer) : Option (Option Buffer × Codec) := do
  match ← codec.encode inbuf with
  | (none, codec) => some (none, codec)
  | (some writer, codec) => do
      let outbuf := Buffer.new
      let outbuf := outbuf.addchar (codec.crc &&& 0xff).toUInt8
      let outbuf := outbuf.addchar ((codec.crc >>> 8) &&& 0xff).toUInt8
      let outbuf ← outbuf.addbuf (writer.outbuf.data.length + 1) writer.outbuf
      some (some outbuf, codec)

theorem encode_result (codec : Codec) (inbuf : Buffer) :
    (codec.encode inbuf).map Prod.fst = PaclinkUnix.encode codec.tree codec.search inbuf ∧
      ∀ writer after, codec.encode inbuf = some (some writer, after) → after.crc = writer.crc := by
  unfold encode PaclinkUnix.encode
  by_cases empty : inbuf.data.length % 2 ^ 32 = 0
  · simp only [if_pos empty]
    refine ⟨rfl, ?_⟩
    rintro writer after same
    cases same
    rfl
  · simp only [if_neg empty, Option.bind_eq_bind]
    rcases codec.tree.startHuff with _ | tree
    · exact ⟨rfl, by simp⟩
    · simp only [Option.bind_some]
      rcases Window.start codec.search inbuf with _ | window
      · exact ⟨rfl, by simp⟩
      · simp only [Option.bind_some, ← encodeLoop_result]
        rcases iterate (encodeLoop EntropyCoder.encodeToken) (inbuf.data.length + 1)
          (window, { tree := tree, writer := putSize (inbuf.data.length % 2 ^ 32) }) with
          _ | ⟨_ | last, window, coder⟩
        · exact ⟨rfl, by simp⟩
        · exact ⟨rfl, by simp⟩
        · refine ⟨rfl, ?_⟩
          rintro writer after same
          cases same
          rfl

theorem version1Encode_result (codec : Codec) (inbuf : Buffer) :
    (codec.version1Encode inbuf).map Prod.fst =
      PaclinkUnix.version1Encode codec.tree codec.search inbuf := by
  obtain ⟨same, crcs⟩ := codec.encode_result inbuf
  unfold version1Encode PaclinkUnix.version1Encode
  rw [← same]
  rcases left : codec.encode inbuf with _ | ⟨_ | writer, after⟩
  · rfl
  · rfl
  · simp only [Option.bind_eq_bind, Option.map_some, Option.bind_some, crcs writer after left,
      Option.map_bind, Function.comp_def]

inductive Call where
  | encode (bytes : Bytes)
  | decode (bytes : Bytes)

def call (codec : Codec) : Call → Option Codec
  | .encode bytes => (codec.version1Encode ⟨bytes, 0⟩).map Prod.snd
  | .decode bytes => (codec.version1Decode ⟨bytes, 0⟩).map Prod.snd

/-- The process survives these calls, and leaves this codec. -/
def Left (history : List Call) (codec : Codec) : Prop :=
  history.foldlM call initial = some codec

theorem left_one {only : Call} {codec : Codec} (called : initial.call only = some codec) :
    Left [only] codec := by
  simp only [Left, List.foldlM_cons, called, Option.bind_eq_bind, Option.bind_some,
    List.foldlM_nil]
  rfl

end Codec

end PaclinkUnix
