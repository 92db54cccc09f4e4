import PaclinkUnix.EncodedCrc
import PaclinkUnix.EntropyRoundTrip
import PaclinkUnix.Library.Compression
import PaclinkUnix.SlidingWindow

/-!
The whole codec: what `version_1_Decode` makes of the output of `version_1_Encode`. The match
finder's tokens always stand for the input, so that everything depends on their codes.
-/

namespace PaclinkUnix

open Memory BitStream HuffmanTree BitReader

section Drawing

variable {first reader next : BitReader} {used value : Nat}

theorem consumed_succ (n : Nat) (b : Buffer) :
    consumed (n + 1) b =
      ((consumed n b).1 ++ (consumed n b).2.iterchar.1.toList, (consumed n b).2.iterchar.2) := by
  induction n generalizing b with
  | zero =>
      rcases read : b.iterchar with ⟨_ | c, after⟩
      · simp only [consumed, read, Option.toList_none, List.append_nil]
      · simp only [consumed, read, Option.toList_some, List.nil_append]
  | succ n ih =>
      rw [consumed, consumed]
      rcases read : b.iterchar with ⟨_ | c, after⟩
      · have ended : after = b := by
          rw [Buffer.iterchar] at read
          split at read
          · exact (Prod.mk.inj read).2.symm
          · cases read
        simp only [ended, read, Option.toList_none, List.append_nil]
      · simp only [ih after, List.cons_append]

/-- So many bits have been used, and the rest of what was fetched is in `getbuf`. -/
def Drawn (first : BitReader) (used : Nat) (reader : BitReader) : Prop :=
  reader.getlen ≤ 16 ∧ ∃ m, reader.inbuf = (consumed m first.inbuf).2 ∧
    reader.crc = crcOf first.crc (consumed m first.inbuf).1 ∧ used + reader.getlen = 8 * m

/-- As behind a single bit, which is taken when more than a byte is there. -/
def Left (first : BitReader) (used : Nat) (reader : BitReader) : Prop :=
  Drawn first used reader ∧ 8 ≤ reader.getlen ∧ reader.getlen < 16

theorem Drawn.refill (drawn : Drawn first used reader)
    (fills : BitReader.refill reader = some (.inl next)) : Drawn first used next := by
  obtain ⟨low, m, inbuf, crc, count⟩ := drawn
  rw [BitReader.refill] at fills
  split at fills
  · obtain rfl := Sum.inl.inj (Option.some.inj fills)
    have step := consumed_succ m first.inbuf
    rw [← inbuf] at step
    rcases read : reader.inbuf.iterchar with ⟨_ | c, after⟩
    · rw [read] at step
      simp only
      refine ⟨by simp only; omega, m + 1, by rw [step], ?_, by simp only; omega⟩
      rw [step]
      simp only [Option.toList_none, List.append_nil]
      exact crc
    · rw [read] at step
      simp only
      refine ⟨by simp only; omega, m + 1, by rw [step], ?_, by simp only; omega⟩
      rw [step, crcOf_append, ← crc]
      rfl
  · cases fills

theorem Drawn.fill (drawn : Drawn first used reader) {fuel : Nat} {full : BitReader}
    (fills : iterate BitReader.refill fuel reader = some full) :
    Drawn first used full ∧ 8 < full.getlen := by
  refine iterate_some (Drawn first used) (fun full => Drawn first used full ∧ 8 < full.getlen)
    (fun _ _ kept again => kept.refill again) ?_ drawn fills
  intro state result kept ends
  rw [BitReader.refill] at ends
  split at ends
  · cases ends
  · obtain rfl := Sum.inr.inj (Option.some.inj ends)
    exact ⟨kept, by omega⟩

theorem Drawn.taken {full : BitReader} (drawn : Drawn first used full) {k : Nat}
    (enough : k ≤ full.getlen) (getbuf : BitVec 32) :
    Drawn first (used + k) { full with getbuf := getbuf, getlen := full.getlen - k } := by
  obtain ⟨low, m, inbuf, crc, count⟩ := drawn
  exact ⟨by simp only; omega, m, inbuf, crc, by simp only; omega⟩

theorem counts_drawn (first : BitReader) : Counts (Drawn first) (Left first) := by
  constructor
  · intro used reader value next drawn reads
    simp only [getBit, Option.bind_eq_bind, Option.bind_eq_some_iff] at reads
    obtain ⟨full, fills, same⟩ := reads
    obtain ⟨kept, enough⟩ := drawn.fill fills
    obtain ⟨-, rfl⟩ := Prod.mk.inj (Option.some.inj same)
    have low := kept.1
    exact ⟨kept.taken (show 1 ≤ full.getlen by omega) _, by simp only; omega, by simp only; omega⟩
  · intro used reader value next drawn reads
    simp only [getByte, Option.bind_eq_bind, Option.bind_eq_some_iff] at reads
    obtain ⟨full, fills, same⟩ := reads
    obtain ⟨kept, enough⟩ := drawn.fill fills
    obtain ⟨-, rfl⟩ := Prod.mk.inj (Option.some.inj same)
    exact kept.taken (show 8 ≤ full.getlen by omega) _
  · exact fun left => left.1

/-- The bytes that are fetched for so many bits, the last of them a single one. -/
theorem Left.crc (left : Left first used reader) :
    reader.crc = crcOf first.crc (consumed ((used + 15) / 8) first.inbuf).1 := by
  obtain ⟨⟨-, m, -, crc, count⟩, least, most⟩ := left
  rw [show (used + 15) / 8 = m by omega]
  exact crc

end Drawing

/-- Each token begins in front of the size, and the last one comes up to it. -/
def Reaches (textsize : Nat) : Nat → List Token → Prop
  | count, [] => textsize ≤ count
  | count, token :: rest => count < textsize ∧ Reaches textsize (count + token.length) rest

/-- The tokens whose codes come first, as many as are needed for the size. -/
structure Announced (textsize : Nat) (tree : HuffmanTree) (f : Nat → Bool) (count : Nat)
    (tokens : List Token) : Prop where
  readable : ∀ token ∈ tokens, token.Readable
  reaches : Reaches textsize count tokens
  starts : Starts f (streamCodes tree tokens).flatten

/-- A smaller size is reached by the first of the tokens for a larger one. -/
theorem Announced.initial {textsize more count : Nat} {tree : HuffmanTree} {f : Nat → Bool}
    {tokens others : List Token} (invariant : Invariant tree) (larger : textsize ≤ more)
    (one : Announced textsize tree f count tokens) (two : Announced more tree f count others) :
    tokens <+: others := by
  induction tokens generalizing tree f count others with
  | nil => exact List.nil_prefix
  | cons token rest ih =>
      obtain ⟨readable, ⟨less, reaches⟩, starts⟩ := one
      obtain ⟨readable', reaches', starts'⟩ := two
      cases others with
      | nil =>
          have reached : more ≤ count := reaches'
          omega
      | cons other others =>
          have here := readable token List.mem_cons_self
          rw [streamCodes, List.flatten_append, starts_append] at starts starts'
          obtain rfl := codes_unique invariant.linked here (readable' other List.mem_cons_self) starts.1
            starts'.1
          obtain ⟨next, updates, kept⟩ := update_total invariant here.symbol
          rw [updates, Option.getD_some] at starts starts'
          rw [List.prefix_cons_inj]
          exact ih kept ⟨fun other listed => readable other (List.mem_cons_of_mem _ listed), reaches,
              starts.2⟩
            ⟨fun other listed => readable' other (List.mem_cons_of_mem _ listed), reaches'.2,
              starts'.2⟩

theorem Announced.unique {textsize count : Nat} {tree : HuffmanTree} {f : Nat → Bool}
    {tokens others : List Token} (invariant : Invariant tree)
    (one : Announced textsize tree f count tokens) (two : Announced textsize tree f count others) :
    tokens = others :=
  (one.initial invariant (Nat.le_refl _) two).eq_of_length_le
    (two.initial invariant (Nat.le_refl _) one).length_le

namespace DecodeState

section Spelling

variable {tree : HuffmanTree} {reader : BitReader} {state : DecodeState}

def reading (tree : HuffmanTree) (reader : BitReader) (state : DecodeState) : DecodeState :=
  { state with tree := tree, reader := reader }

theorem emit_reading (c : UInt8) :
    (state.reading tree reader).emit c = (state.emit c).map (reading tree reader) := by
  simp only [emit, reading, Option.bind_eq_bind]
  rcases store textBufSize state.textBuf state.r c with _ | textBuf <;> rfl

theorem copyChar_reading (i k : Nat) :
    copyChar i k (state.reading tree reader) = (copyChar i k state).map (reading tree reader) := by
  simp only [copyChar, Option.bind_eq_bind]
  change (load textBufSize state.textBuf ((i + k) % ringSize)).bind _ = _
  rcases load textBufSize state.textBuf ((i + k) % ringSize) with _ | c
  · rfl
  · exact emit_reading c

/-- What a token stands for has nothing to do with where it was read. -/
theorem expand_reading (token : Token) :
    (state.reading tree reader).expand token = (state.expand token).map (reading tree reader) := by
  cases token with
  | literal c => exact emit_reading c
  | copy length position =>
      simp only [expand]
      change forRange length (copyChar (((state.r : Int) - position - 1) % ringSize).toNat) _ = _
      generalize (((state.r : Int) - position - 1) % ringSize).toNat = i
      induction length with
      | zero => rfl
      | succ length ih =>
          rw [forRange_succ, forRange_succ, ih]
          rcases forRange length (copyChar i) state with _ | middle
          · rfl
          · exact copyChar_reading i length

theorem expandAll_reading (tokens : List Token) :
    (state.reading tree reader).expandAll tokens =
      (state.expandAll tokens).map (reading tree reader) := by
  induction tokens generalizing state with
  | nil => rfl
  | cons token rest ih =>
      rw [expandAll, expandAll, List.foldlM_cons, List.foldlM_cons, expand_reading]
      rcases state.expand token with _ | middle
      · rfl
      · exact ih

theorem expand_length {token : Token} {next : DecodeState} (expands : state.expand token = some next) :
    next.outbuf.data.length = state.outbuf.data.length + token.length := by
  rcases expand_data expands with ⟨c, rfl, data⟩ | ⟨length, position, rfl, data⟩
  · rw [data, List.length_append, List.length_singleton]
    rfl
  · exact data

theorem expand_longer {token : Token} {next : DecodeState} (readable : token.Readable)
    (expands : state.expand token = some next) :
    state.outbuf.data.length < next.outbuf.data.length := by
  rw [expand_length expands]
  cases token with
  | literal c => exact Nat.lt_succ_self _
  | copy length position =>
      have least := readable.1
      change _ < _ + length
      lia

theorem expandAll_longer {tokens : List Token} {last : DecodeState}
    (readable : ∀ token ∈ tokens, token.Readable) (expands : state.expandAll tokens = some last) :
    state.outbuf.data.length + tokens.length ≤ last.outbuf.data.length := by
  induction tokens generalizing state with
  | nil =>
      obtain rfl := Option.some.inj expands
      exact Nat.le_refl _
  | cons token rest ih =>
      obtain ⟨next, first, others⟩ := expandAll_cons.mp expands
      have here := expand_longer (readable token List.mem_cons_self) first
      have later := ih (fun other listed => readable other (List.mem_cons_of_mem _ listed)) others
      rw [List.length_cons]
      omega

theorem reaches_exactly {textsize : Nat} {tokens : List Token} {last : DecodeState}
    (readable : ∀ token ∈ tokens, token.Readable) (expands : state.expandAll tokens = some last)
    (length : last.outbuf.data.length = textsize) :
    Reaches textsize state.outbuf.data.length tokens := by
  induction tokens generalizing state with
  | nil =>
      obtain rfl := Option.some.inj expands
      exact length.ge
  | cons token rest ih =>
      obtain ⟨next, first, others⟩ := expandAll_cons.mp expands
      have count := expandAll_longer readable expands
      rw [List.length_cons] at count
      refine ⟨by omega, ?_⟩
      rw [← expand_length first]
      exact ih (fun other listed => readable other (List.mem_cons_of_mem _ listed)) others

/-- The tokens that the decoder takes, what they stand for and how far they reach. -/
structure TokensRead (textsize : Nat) (first : BitReader) (used : Nat) (f : Nat → Bool)
    (state last : DecodeState) (tokens : List Token) : Prop where
  spelled : ∃ done, state.expandAll tokens = some done ∧ done.outbuf = last.outbuf
  announced : Announced textsize state.tree f state.outbuf.data.length tokens
  reach : (tokens = [] → Left first used state.reader) →
    Left first (used + (streamCodes state.tree tokens).flatten.length) last.reader

theorem decodeLoop_tokens {textsize fuel used : Nat} {first : BitReader} {f : Nat → Bool}
    {last : DecodeState} (sane : Sane state) (ready : Ready state.reader f)
    (drawn : Drawn first used state.reader)
    (decodes : iterate (decodeLoop textsize) fuel state = some last) :
    ∃ tokens, TokensRead textsize first used f state last tokens := by
  induction fuel generalizing state f used with
  | zero => cases decodes
  | succ fuel ih =>
      have count := sane.count
      by_cases more : state.count < textsize
      · obtain ⟨len, next, token, kept, -, -, -, -⟩ := token_total sane
        have again : decodeLoop textsize state = some (.inl next) := by
          simp only [decodeLoop, if_pos more, token, Option.bind_eq_bind, Option.bind_some]
        simp only [iterate, again, Option.bind_eq_bind, Option.bind_some] at decodes
        obtain ⟨found, tree, reader, reads, readable, updates, -, starts, left, counts⟩ :=
          readSymbol_ready sane.tree ready
        rw [token_expand, reads, Option.bind_some] at token
        change (state.reading tree reader).expand found = some next at token
        rw [expand_reading, Option.map_eq_some_iff] at token
        obtain ⟨middle, expands, rfl⟩ := token
        have taken := counts (Drawn first) (Left first) (counts_drawn first) used drawn
        obtain ⟨tokens, ⟨done, spells, same⟩, ⟨readables, reaches, behind⟩, reach⟩ :=
          ih kept left taken.1 decodes
        rw [expandAll_reading, Option.map_eq_some_iff] at spells
        obtain ⟨final, spells, rfl⟩ := spells
        have codes : streamCodes state.tree (found :: tokens) =
            found.codes state.tree ++ streamCodes tree tokens := by
          rw [streamCodes, updates, Option.getD_some]
        refine ⟨found :: tokens, ⟨final, expandAll_cons.mpr ⟨middle, expands, spells⟩, same⟩,
          ⟨?_, ⟨by omega, ?_⟩, ?_⟩, fun _ => ?_⟩
        · intro other listed
          rcases List.mem_cons.mp listed with rfl | later
          · exact readable
          · exact readables other later
        · rw [← expand_length expands]
          exact reaches
        · rw [codes, List.flatten_append, starts_append]
          exact ⟨starts, behind⟩
        · rw [codes, List.flatten_append, List.length_append, ← Nat.add_assoc]
          exact reach fun _ => taken
      · have stop : decodeLoop textsize state = some (.inr state) := by
          simp only [decodeLoop, if_neg more]
        simp only [iterate, stop, Option.bind_eq_bind, Option.bind_some, Option.some.injEq] at decodes
        subst decodes
        exact ⟨[], ⟨state, rfl, rfl⟩,
          ⟨fun _ none => absurd none List.not_mem_nil, show textsize ≤ _ by omega, starts_nil⟩,
          fun left => left rfl⟩

end Spelling

end DecodeState

def sizeBytes (textsize : Nat) : Bytes := (putSize textsize).outbuf.data

/-- The CRC, the size and what the tokens were coded to. -/
def codedMessage (textsize : Nat) (body : Bytes) : Bytes :=
  (crcOf 0 (sizeBytes textsize ++ body) &&& 0xff).toUInt8 ::
    ((crcOf 0 (sizeBytes textsize ++ body) >>> 8) &&& 0xff).toUInt8 ::
      (sizeBytes textsize ++ body)

section Encoding

variable {tree started : HuffmanTree} {search : SearchTree} {inbuf : Buffer} {tokens : List Token}
  {textsize : Nat}

theorem Token.Valid.codable {token : Token} (valid : token.Valid) : token.Codable := by
  cases token with
  | literal c => trivial
  | copy length position =>
      obtain ⟨least, most, inside⟩ := valid
      exact ⟨least, most, by lia⟩

@[simp] theorem sizeBytes_length : (sizeBytes textsize).length = 4 := rfl

def sizeBits (textsize : Nat) : List Bool := (List.range 32).map (bitAt (sizeBytes textsize))

theorem sizeBits_getD {n : Nat} (inside : n < 32) :
    (sizeBits textsize).getD n false = bitAt (sizeBytes textsize) n := by
  rw [sizeBits, List.getD_eq_getElem _ _ (by simpa using inside), List.getElem_map,
    List.getElem_range]

theorem putSize_written : BitWriter.Written (putSize textsize) (sizeBits textsize) := by
  refine ⟨by simp [sizeBits, putSize, BitWriter.crcFputc, Buffer.addchar, Buffer.new], fun n => ?_⟩
  by_cases inside : n < 32
  · rw [sizeBits_getD inside]
    exact if_pos inside
  · rw [List.getD_eq_default _ _ (by simpa [sizeBits] using inside)]
    refine (if_neg inside).trans ?_
    simp [window, putSize, BitWriter.crcFputc]

theorem pendingAll_le (p : Nat) (codes : List (List Bool)) :
    pendingAll p codes ≤ p + codes.flatten.length := by
  induction codes generalizing p with
  | nil => exact Nat.le_refl _
  | cons code rest ih =>
      have later := ih (pendingAfter p code.length)
      have here : pendingAfter p code.length ≤ p + code.length := by
        unfold pendingAfter
        split
        · omega
        · split <;> omega
      rw [List.flatten_cons, List.length_append]
      change pendingAll (pendingAfter p code.length) rest ≤ _
      omega

theorem encodeEnd_filled {codes : List (List Bool)} {writer : BitWriter} (tree : HuffmanTree)
    (written : BitWriter.Written writer (sizeBits textsize ++ (codes.map cut).flatten))
    (pending : writer.putlen = pendingAll 0 codes) :
    ∃ body, (EntropyCoder.encodeEnd ⟨tree, writer⟩).outbuf.data = sizeBytes textsize ++ body ∧
      Filled codes body := by
  obtain ⟨length, -, same⟩ := encodeEnd_bits tree written
  have total := written.total
  rw [List.length_append, cut_total] at total
  have front : (sizeBits textsize).length = 32 := by simp [sizeBits]
  have held := pendingAll_le 0 codes
  generalize (EntropyCoder.encodeEnd ⟨tree, writer⟩).outbuf.data = data at length same ⊢
  have count : data.length = 4 + filledBytes codes := by
    rw [length, filledBytes, ← pending]
    split <;> omega
  refine ⟨data.drop 4, ?_, by rw [List.length_drop]; omega, fun n => ?_⟩
  · conv_lhs => rw [← List.take_append_drop 4 data]
    congr 1
    refine bytes_ext (by rw [List.length_take, sizeBytes_length]; omega) fun n inside => ?_
    rw [List.length_take, Nat.min_eq_left (by omega)] at inside
    have bit := same n
    rw [if_pos (by omega), List.getD_append _ _ _ _ (by omega), sizeBits_getD (by omega),
      ← List.take_append_drop 4 data, bitAt_append, List.length_take,
      Nat.min_eq_left (by omega), if_pos inside] at bit
    exact bit
  · rw [bitAt_drop, same]
    by_cases inside : n < 8 * filledBytes codes
    · rw [if_pos (by omega), if_pos inside, List.getD_append_right _ _ _ _ (by omega), front,
        Nat.add_sub_cancel_left]
    · rw [if_neg (by omega), if_neg inside]

/-- The bytes that the codes of the chosen tokens give, if there is room for these codes. -/
theorem encode_written (nonempty : inbuf.data ≠ []) (small : inbuf.data.length < 2 ^ 32)
    (chosen : Window.Chosen search inbuf tokens) (starts : tree.startHuff = some started) :
    (∀ token ∈ tokens, token.Codable) ∧
    (Room 0 (streamCodes started tokens) → ∃ writer body,
      encode tree search inbuf = some (some writer) ∧
      writer.outbuf.data = sizeBytes inbuf.data.length ++ body ∧
      Filled (streamCodes started tokens) body) ∧
    (¬ Room 0 (streamCodes started tokens) → encode tree search inbuf = none) := by
  obtain ⟨others, also, tokenized, encodes⟩ := encode_feeds search inbuf nonempty small
  obtain rfl := chosen.unique also
  obtain ⟨_, again, invariant, -⟩ := startHuff_total tree
  obtain rfl := Option.some.inj (starts.symm.trans again)
  have codable : ∀ token ∈ tokens, token.Codable :=
    fun token listed => (tokenized.valid token listed).codable
  obtain ⟨fits, overflows⟩ := @feed_written ⟨started, putSize inbuf.data.length⟩ _ invariant tokens
    codable putSize_written (show 0 < 32 by decide)
  refine ⟨codable, fun room => ?_, fun full => ?_⟩
  · obtain ⟨last, goes, written, pending⟩ := fits room
    obtain ⟨body, data, filled⟩ := encodeEnd_filled last.tree written pending
    refine ⟨last.encodeEnd, body, ?_, data, filled⟩
    rw [encodes, starts, Option.bind_some, goes]
    rfl
  · rw [encodes, starts, Option.bind_some, overflows full]
    rfl

end Encoding

/-- The output, unless it is so long that it is copied for ever. -/
theorem version1Encode_iff {tree : HuffmanTree} {search : SearchTree} {inbuf out : Buffer}
    {writer : BitWriter} (encodes : encode tree search inbuf = some (some writer)) :
    version1Encode tree search inbuf = some (some out) ↔
      writer.outbuf.data.length < Buffer.indexRange ∧
        out = ⟨(writer.crc &&& 0xff).toUInt8 :: ((writer.crc >>> 8) &&& 0xff).toUInt8 ::
          writer.outbuf.data, 0⟩ := by
  simp only [version1Encode, encodes, Option.bind_eq_bind, Option.bind_some]
  by_cases short : writer.outbuf.data.length < Buffer.indexRange
  · rw [Buffer.addbuf_small short (Nat.lt_succ_self _)]
    simp only [Option.bind_some, Option.some.injEq]
    exact ⟨fun same => ⟨short, same.symm⟩, fun both => both.2.symm⟩
  · rw [Buffer.addbuf, Buffer.drain_endless _ _ (Buffer.endless_rewind (Nat.not_lt.mp short))]
    exact ⟨fun absent => (by cases absent), fun both => absurd both.1 short⟩

theorem version1Encode_message {tree started : HuffmanTree} {search : SearchTree} {inbuf out : Buffer}
    {tokens : List Token} (nonempty : inbuf.data ≠ []) (small : inbuf.data.length < 2 ^ 32)
    (chosen : Window.Chosen search inbuf tokens) (starts : tree.startHuff = some started) :
    version1Encode tree search inbuf = some (some out) ↔
      ∃ body, Room 0 (streamCodes started tokens) ∧ Filled (streamCodes started tokens) body ∧
        4 + body.length < 2 ^ 32 ∧ out = ⟨codedMessage inbuf.data.length body, 0⟩ := by
  obtain ⟨-, fits, overflows⟩ := encode_written nonempty small chosen starts
  by_cases room : Room 0 (streamCodes started tokens)
  · obtain ⟨writer, body, encodes, data, filled⟩ := fits room
    have sum := (encode_summed encodes).crc
    rw [version1Encode_iff encodes, sum, data, List.length_append, sizeBytes_length]
    constructor
    · rintro ⟨short, rfl⟩
      exact ⟨body, room, filled, short, rfl⟩
    · rintro ⟨other, -, also, short, rfl⟩
      have length : other.length = body.length := also.length.trans filled.length.symm
      obtain rfl : other = body :=
        bytes_ext length fun n _ => (also.same n).trans (filled.same n).symm
      exact ⟨short, rfl⟩
  · simp only [version1Encode, overflows room, Option.bind_eq_bind, Option.bind_none]
    refine ⟨fun absent => (by cases absent), ?_⟩
    rintro ⟨-, holds, -⟩
    exact absurd holds room

/-- The bits of what a buffer still gives. -/
def bitsFrom (b : Buffer) (n : Nat) : Bool := byteBit (b.upcoming (n / 8)) (n % 8)

theorem readHeader_drawn {bytes : Bytes} {textsize : Nat} (long : 6 ≤ bytes.length)
    (size : headerSize ⟨bytes, 2⟩ = some textsize) :
    ∃ header, readHeader ⟨⟨bytes, 2⟩, 0, 0, 0⟩ = (some textsize, header) ∧
      Drawn ⟨⟨bytes, 2⟩, 0, 0, 0⟩ 32 header ∧ Ready header (bitsFrom ⟨bytes, 6⟩) := by
  have clean : ∀ crc, Ready ⟨⟨bytes, 6⟩, crc, 0, 0⟩ (bitsFrom ⟨bytes, 6⟩) := by
    intro crc
    refine ⟨Nat.zero_le _, fun j _ => by simp [window],
      fun n none => absurd none (Nat.not_lt_zero n), fun n => ?_⟩
    rw [show 0 + n = n from Nat.zero_add n]
    rfl
  rcases bytes with _ | ⟨a, _ | ⟨b, _ | ⟨c, _ | ⟨d, _ | ⟨e, _ | ⟨f, rest⟩⟩⟩⟩⟩⟩
  · simp at long
  · simp at long
  · simp at long
  · simp at long
  · simp at long
  · simp at long
  · obtain rfl := Option.some.inj size
    exact ⟨_, rfl, ⟨Nat.zero_le _, 4, rfl, rfl, rfl⟩, clean _⟩

/-- Tokens that stand for these characters, behind a blanked window. -/
def Spells (textBuf : Nat → UInt8) (bytes : Bytes) (tokens : List Token) : Prop :=
  ∃ blank, forRange (ringSize - lookahead) fillBlank textBuf = some blank ∧
    ∀ tree reader, ∃ done, (DecodeState.start tree reader blank).expandAll tokens = some done ∧
      done.outbuf.data = bytes

/-- In the message stand the codes of tokens for these characters, and the CRC is that of the
bytes that are fetched with them. -/
def Recoverable (tree : HuffmanTree) (textBuf : Nat → UInt8) (bytes message : Bytes) : Prop :=
  ∃ tokens, (∀ token ∈ tokens, token.Readable) ∧ Spells textBuf bytes tokens ∧
    Starts (bitsFrom ⟨message, 6⟩) (streamCodes tree tokens).flatten ∧
    crcOf 0 (consumed ((32 + (streamCodes tree tokens).flatten.length + 15) / 8) ⟨message, 2⟩).1 =
      crcOf 0 (message.drop 2)

/-- Behind a size the decoder takes the tokens it announces, and the bytes with their codes and
the one behind. -/
theorem decode_announced {tree fresh : HuffmanTree} (textBuf : Nat → UInt8) {bytes : Bytes}
    {textsize : Nat} (long : 6 ≤ bytes.length) (size : headerSize ⟨bytes, 2⟩ = some textsize)
    (positive : textsize ≠ 0) (starts : tree.startHuff = some fresh) :
    ∃ tokens outbuf reader, Announced textsize fresh (bitsFrom ⟨bytes, 6⟩) 0 tokens ∧
      (∃ blank, forRange (ringSize - lookahead) fillBlank textBuf = some blank ∧
        ∀ other reader, ∃ done, (DecodeState.start other reader blank).expandAll tokens = some done ∧
          done.outbuf = outbuf) ∧
      decode tree textBuf ⟨bytes, 2⟩ = some (some outbuf, reader) ∧
      reader.crc = crcOf 0
        (consumed ((32 + (streamCodes fresh tokens).flatten.length + 15) / 8) ⟨bytes, 2⟩).1 := by
  obtain ⟨_, again, invariant, -⟩ := startHuff_total tree
  obtain rfl := Option.some.inj (starts.symm.trans again)
  obtain ⟨blank, fills, -⟩ :=
    fillBlank_total textBuf (show ringSize - lookahead ≤ textBufSize by lia)
  obtain ⟨header, reads, drawn, ready⟩ := readHeader_drawn long size
  have sane : DecodeState.Sane (.start fresh header blank) :=
    ⟨invariant, ready.low, show ringSize - lookahead < ringSize by decide, rfl⟩
  obtain ⟨last, loops, -⟩ := DecodeState.decodeLoop_total sane textsize
    (by simp only [DecodeState.start]; lia)
  obtain ⟨tokens, ⟨done, expands, same⟩, announced, reach⟩ :=
    DecodeState.decodeLoop_tokens sane ready drawn loops
  have more : tokens ≠ [] := by
    rintro rfl
    have zero : textsize ≤ 0 := announced.reaches
    omega
  refine ⟨tokens, last.outbuf, last.reader, announced, ⟨blank, fills, fun other reader =>
    ⟨done.reading other reader, ?_, same⟩⟩, ?_, (reach fun empty => absurd empty more).crc⟩
  · have elsewhere := @DecodeState.expandAll_reading other reader (.start fresh header blank) tokens
    rw [expands] at elsewhere
    exact elsewhere
  · rw [decode, reads]
    simp only [if_neg positive, starts, fills, Option.bind_eq_bind, Option.bind_some]
    rw [loops]
    rfl

section Decoding

variable {textsize : Nat} {body : Bytes}

theorem size_value (small : textsize < 2 ^ 32) :
    (UInt8.ofNat (textsize &&& 0xff)).toNat |||
      (UInt8.ofNat ((textsize >>> 8) &&& 0xff)).toNat <<< 8 |||
      (UInt8.ofNat ((textsize >>> 16) &&& 0xff)).toNat <<< 16 |||
      (UInt8.ofNat ((textsize >>> 24) &&& 0xff)).toNat <<< 24 = textsize := by
  have mask : ∀ n : Nat, (UInt8.ofNat (n &&& 0xff)).toNat = n &&& (2 ^ 8 - 1) := by
    intro n
    rw [show (0xff : Nat) = 2 ^ 8 - 1 from rfl, Nat.and_two_pow_sub_one_eq_mod]
    exact Nat.mod_mod_of_dvd n (Nat.dvd_refl _)
  have part : ∀ s k : Nat,
      (decide (k ≥ s) && (textsize.testBit (s + (k - s)) && decide (k - s < 8))) =
        (decide (s ≤ k ∧ k < s + 8) && textsize.testBit k) := by
    intro s k
    by_cases above : s ≤ k
    · rw [show s + (k - s) = k by omega,
        show decide (k - s < 8) = decide (s ≤ k ∧ k < s + 8) from decide_eq_decide.mpr (by omega),
        decide_eq_true (show k ≥ s from above), Bool.true_and, Bool.and_comm]
    · rw [decide_eq_false (show ¬ k ≥ s from above),
        decide_eq_false (show ¬ (s ≤ k ∧ k < s + 8) from fun both => above both.1)]
      rfl
  apply Nat.eq_of_testBit_eq
  intro k
  simp only [mask, Nat.testBit_or, Nat.testBit_shiftLeft, Nat.testBit_and, Nat.testBit_shiftRight,
    Nat.testBit_two_pow_sub_one, part]
  by_cases high : 32 ≤ k
  · rw [Nat.testBit_lt_two_pow (Nat.lt_of_lt_of_le small (Nat.pow_le_pow_right (by decide) high))]
    simp
  · cases textsize.testBit k with
    | false => simp
    | true =>
        simp only [Bool.true_and, Bool.and_true, ← Bool.decide_or, decide_eq_true_eq]
        omega

theorem headerSize_message (small : textsize < 2 ^ 32) :
    headerSize ⟨codedMessage textsize body, 2⟩ = some textsize :=
  congrArg some (size_value small)

theorem spells_of {textBuf blank : Nat → UInt8} {bytes : Bytes} {tokens : List Token}
    {tree : HuffmanTree} {reader : BitReader} {done : DecodeState}
    (fills : forRange (ringSize - lookahead) fillBlank textBuf = some blank)
    (expands : (DecodeState.start tree reader blank).expandAll tokens = some done)
    (data : done.outbuf.data = bytes) : Spells textBuf bytes tokens := by
  refine ⟨blank, fills, fun other reader' => ⟨done.reading other reader', ?_, data⟩⟩
  have elsewhere := @DecodeState.expandAll_reading other reader' (.start tree reader blank) tokens
  rw [expands] at elsewhere
  exact elsewhere

theorem version1Decode_message {tree fresh : HuffmanTree} (textBuf : Nat → UInt8) (crc : UInt16)
    {bytes : Bytes} (nonempty : bytes ≠ []) (small : bytes.length < 2 ^ 32)
    (starts : tree.startHuff = some fresh) :
    (∃ decoded, version1Decode tree textBuf crc ⟨codedMessage bytes.length body, 0⟩ =
        some (some decoded) ∧ decoded.data = bytes) ↔
      Recoverable fresh textBuf bytes (codedMessage bytes.length body) := by
  have long : 6 ≤ (codedMessage bytes.length body).length := by simp [codedMessage]
  have positive : bytes.length ≠ 0 := fun empty => nonempty (List.length_eq_zero_iff.mp empty)
  obtain ⟨_, again, invariant, -⟩ := startHuff_total tree
  obtain rfl := Option.some.inj (starts.symm.trans again)
  obtain ⟨tokens, outbuf, reader, announced, ⟨blank, fills, all⟩, decodes, took⟩ :=
    decode_announced textBuf long (headerSize_message small) positive starts
  have stored : storedCrc (codedMessage bytes.length body) =
      crcOf 0 ((codedMessage bytes.length body).drop 2) := bytes_join _
  rw [version1Decode_crc tree textBuf crc (by omega), decodes, Option.bind_some, stored]
  constructor
  · rintro ⟨decoded, returns, data⟩
    by_cases right : reader.crc = crcOf 0 ((codedMessage bytes.length body).drop 2)
    · rw [if_neg (fun wrong => wrong right)] at returns
      obtain rfl := Option.some.inj (Option.some.inj returns)
      refine ⟨tokens, announced.readable, ⟨blank, fills, fun other reader => ?_⟩, announced.starts,
        took.symm.trans right⟩
      obtain ⟨done, expands, same⟩ := all other reader
      exact ⟨done, expands, same ▸ data⟩
    · rw [if_pos right] at returns
      cases returns
  · rintro ⟨others, readables, ⟨_, refills, spells⟩, starting, right⟩
    obtain rfl := Option.some.inj (fills.symm.trans refills)
    obtain ⟨final, expandsAll, data⟩ := spells fresh ⟨.new, 0, 0, 0⟩
    obtain rfl := announced.unique invariant ⟨readables, DecodeState.reaches_exactly readables
      expandsAll (congrArg List.length data), starting⟩
    obtain ⟨done, expands, same⟩ := all fresh ⟨.new, 0, 0, 0⟩
    obtain rfl := Option.some.inj (expands.symm.trans expandsAll)
    rw [if_neg (fun wrong => wrong (took.trans right))]
    exact ⟨outbuf, rfl, same ▸ data⟩

end Decoding

/-- The input is encoded, and the output decoded to it, whatever either side starts from. -/
def CodecTrips (tree : HuffmanTree) (search : SearchTree) (other : HuffmanTree)
    (textBuf : Nat → UInt8) (crc : UInt16) (inbuf : Buffer) : Prop :=
  ∃ out decoded, version1Encode tree search inbuf = some (some out) ∧
    version1Decode other textBuf crc out = some (some decoded) ∧ decoded.data = inbuf.data

theorem version1Encode_empty (tree : HuffmanTree) (search : SearchTree) {inbuf : Buffer}
    (empty : inbuf.data = []) :
    version1Encode tree search inbuf = some (some ⟨[0, 0, 0, 0, 0, 0], 0⟩) := by
  have encodes : encode tree search inbuf = some (some (putSize 0)) := by
    rw [encode, empty]
    rfl
  exact (version1Encode_iff encodes).mpr ⟨by decide, rfl⟩

theorem empty_trips (tree : HuffmanTree) (search : SearchTree) (other : HuffmanTree)
    (textBuf : Nat → UInt8) (crc : UInt16) {inbuf : Buffer} (empty : inbuf.data = []) :
    CodecTrips tree search other textBuf crc inbuf := by
  have decodes : decode other textBuf ⟨[0, 0, 0, 0, 0, 0], 2⟩ =
      some (some .new, ⟨⟨[0, 0, 0, 0, 0, 0], 6⟩, 0, 0, 0⟩) := rfl
  refine ⟨_, .new, version1Encode_empty tree search empty, ?_, empty.symm⟩
  rw [version1Decode_crc other textBuf crc (by decide), decodes]
  rfl

instance fintypeByte : Fintype UInt8 :=
  .ofEquiv (Fin 256) ⟨UInt8.ofFin, UInt8.toFin, fun _ => rfl, fun _ => rfl⟩

theorem card_bytes : Fintype.card UInt8 = 256 :=
  (Fintype.ofEquiv_card _).trans (Fintype.card_fin 256)

/-- Some input of 2^32 - 1 bytes has an output of 2^32 bytes or more, or none: there are not
enough shorter outputs. -/
theorem incompressible : ∃ inbuf : Buffer, inbuf.data.length = 2 ^ 32 - 1 ∧
    ¬ CodecTrips Codec.initial.tree Codec.initial.search Codec.initial.tree (fun _ => 0) 0 inbuf := by
  by_contra all
  push Not at all
  obtain ⟨n, size⟩ : ∃ n, n = 2 ^ 32 - 1 := ⟨_, rfl⟩
  rw [← size] at all
  obtain ⟨started, starts, -, -⟩ := startHuff_total Codec.initial.tree
  have bodies : ∀ bytes : Bytes, bytes.length = n → ∃ body, body.length < n ∧ ∃ decoded,
      version1Decode Codec.initial.tree (fun _ => 0) 0 ⟨codedMessage n body, 0⟩ =
        some (some decoded) ∧ decoded.data = bytes := by
    intro bytes length
    obtain ⟨out, decoded, encodes, decodes, data⟩ := all ⟨bytes, 0⟩ length
    have nonempty : bytes ≠ [] := List.ne_nil_of_length_pos (by omega)
    have small : bytes.length < 2 ^ 32 := by omega
    obtain ⟨tokens, chosen, -, -⟩ := encode_feeds Codec.initial.search ⟨bytes, 0⟩ nonempty small
    obtain ⟨body, -, -, short, rfl⟩ :=
      (version1Encode_message nonempty small chosen starts).mp encodes
    rw [length] at decodes
    exact ⟨body, by omega, decoded, decodes, data⟩
  choose! rule short decodes using bodies
  obtain ⟨one, two, length, length', apart, same⟩ :=
    Compression.collide (show 2 ≤ Fintype.card UInt8 by rw [card_bytes]; decide) rule short
  obtain ⟨decoded, returns, data⟩ := decodes one length
  obtain ⟨decoded', returns', data'⟩ := decodes two length'
  rw [same, returns'] at returns
  obtain rfl := Option.some.inj (Option.some.inj returns)
  exact apart (data.symm.trans data')

section Legibility

variable {tree other : HuffmanTree} {tokens : List Token}

theorem path_alike (alike : Alike tree other) (linked : Linked tree) (fuel : Nat) {k : Nat}
    (inside : k ≤ rootPosition) (bits : List Bool) : tree.path fuel k bits = other.path fuel k bits := by
  induction fuel generalizing k bits with
  | zero => rfl
  | succ fuel ih =>
      rw [path, path]
      by_cases top : k = rootPosition
      · rw [if_pos top, if_pos top]
      · obtain ⟨-, below, -⟩ := linked.parent k (by omega)
        rw [if_neg top, if_neg top, ← alike.prnt k (by lia)]
        exact ih below _

theorem codeword_alike (alike : Alike tree other) (linked : Linked tree) {c : Nat} (symbol : c < nChar) :
    tree.codeword c = other.codeword c := by
  have same := alike.prnt (c + tableSize) (by omega)
  obtain ⟨below, -⟩ := linked.leaf c symbol
  rw [codeword, codeword, ← same]
  exact path_alike alike linked tableSize (by lia) []

theorem streamCodes_alike (alike : Alike tree other) (invariant : Invariant tree)
    (codable : ∀ token ∈ tokens, token.Codable) : streamCodes tree tokens = streamCodes other tokens := by
  induction tokens generalizing tree other with
  | nil => rfl
  | cons token rest ih =>
      have symbol := (codable token (List.mem_cons_self)).symbol
      obtain ⟨next, updates, kept⟩ := update_total invariant symbol
      obtain ⟨next', updates', alike'⟩ := rel_some (alike.update token.symbol) updates
      have same : token.codes tree = token.codes other := by
        cases token with
        | literal c => exact congrArg (fun code => [code]) (codeword_alike alike invariant.linked symbol)
        | copy length position =>
            exact congrArg (fun code => code :: positionCodes position)
              (codeword_alike alike invariant.linked symbol)
      rw [streamCodes, streamCodes, updates, updates', Option.getD_some, Option.getD_some, same,
        ih alike' kept fun other listed => codable other (List.mem_cons_of_mem _ listed)]

@[simp] theorem codedMessage_length {textsize : Nat} {body : Bytes} :
    (codedMessage textsize body).length = 6 + body.length := by
  simp only [codedMessage, List.length_cons, List.length_append, sizeBytes_length]
  omega

theorem message_reads {textsize k : Nat} {body : Bytes} (short : 6 + body.length < 2 ^ 32)
    (inside : k ≤ 6) : Buffer.Reads ⟨codedMessage textsize body, k⟩
      ((codedMessage textsize body).drop k) := by
  have front : (codedMessage textsize body).length = 6 + body.length := codedMessage_length
  exact ⟨show (codedMessage textsize body).length < 2 ^ 32 by omega,
    show k ≤ (codedMessage textsize body).length by omega, rfl⟩

theorem consumed_all {n : Nat} {b : Buffer} {rest : Bytes} (reads : b.Reads rest)
    (enough : rest.length ≤ n) : (consumed n b).1 = rest := by
  induction n generalizing b rest with
  | zero =>
      obtain rfl := List.length_eq_zero_iff.mp (Nat.le_zero.mp enough)
      rfl
  | succ n ih =>
      cases rest with
      | nil => rw [consumed, Buffer.iterchar_nil reads]
      | cons c rest =>
          obtain ⟨after, read, -, left⟩ := Buffer.iterchar_cons reads
          rw [consumed, read]
          exact congrArg (c :: ·) (ih left (Nat.le_of_succ_le_succ enough))

/-- The codes of the tokens that are chosen are legible, and the output has less than 2^32
bytes. -/
def CodesLegible (tree : HuffmanTree) (search : SearchTree) (inbuf : Buffer) : Prop :=
  ∃ tokens started, Window.Chosen search inbuf tokens ∧ tree.startHuff = some started ∧
    Legible (streamCodes started tokens) ∧ 6 + filledBytes (streamCodes started tokens) < 2 ^ 32

/-- What is sent then: the tokens of the input stand behind the size, and end in the last byte. -/
theorem CodesLegible.message {search : SearchTree} {inbuf : Buffer} {fresh : HuffmanTree}
    (legible : CodesLegible tree search inbuf) (nonempty : inbuf.data ≠ [])
    (small : inbuf.data.length < 2 ^ 32) (freshly : other.startHuff = some fresh) :
    ∃ tokens body, Window.Chosen search inbuf tokens ∧ version1Encode tree search inbuf =
        some (some ⟨codedMessage inbuf.data.length body, 0⟩) ∧ 6 + body.length < 2 ^ 32 ∧
      Announced inbuf.data.length fresh (bitsFrom ⟨codedMessage inbuf.data.length body, 6⟩) 0 tokens ∧
      (∀ textBuf, Spells textBuf inbuf.data tokens) ∧
      8 * body.length < (streamCodes fresh tokens).flatten.length + 8 := by
  obtain ⟨tokens, started, chosen, starts, ⟨room, readable⟩, short⟩ := legible
  obtain ⟨codable, fits, -⟩ := encode_written nonempty small chosen starts
  obtain ⟨-, body, -, -, filled⟩ := fits room
  obtain ⟨_, again, invariant, -⟩ := startHuff_total tree
  obtain rfl := Option.some.inj (starts.symm.trans again)
  obtain ⟨_, also, alike⟩ := rel_some (startHuff_alike tree other) starts
  obtain rfl := Option.some.inj (freshly.symm.trans also)
  have count := filled.length
  have spells : ∀ textBuf, Spells textBuf inbuf.data tokens := by
    intro textBuf
    obtain ⟨others, also, tokenized, -⟩ := encode_feeds search inbuf nonempty small
    obtain rfl := chosen.unique also
    obtain ⟨blank, fills, blanks, -⟩ :=
      fillBlank_total textBuf (show ringSize - lookahead ≤ textBufSize by lia)
    obtain ⟨done, expands, written⟩ :=
      tokenized.expands _ (start_written started ⟨.new, 0, 0, 0⟩ blank blanks)
    exact spells_of fills expands (written.data.trans List.take_length)
  have readables : ∀ token ∈ tokens, token.Readable :=
    fun token listed => (codable token listed).readable
  obtain ⟨blank, -, all⟩ := spells fun _ => 0
  obtain ⟨done, expands, data⟩ := all fresh ⟨.new, 0, 0, 0⟩
  refine ⟨tokens, body, chosen, (version1Encode_message nonempty small chosen starts).mpr
    ⟨body, room, filled, by omega, rfl⟩, by omega,
    ⟨readables, DecodeState.reaches_exactly readables expands (congrArg List.length data), ?_⟩, spells, ?_⟩
  · rw [← streamCodes_alike alike invariant codable]
    intro n inside
    have bits := readable n inside
    rw [readableBit] at bits
    simp only [if_pos (show filledBytes (streamCodes started tokens) < Buffer.indexRange by
      have range : Buffer.indexRange = 2 ^ 32 := rfl
      omega)] at bits
    rw [bits, ← filled.same, bitsFrom, upcoming_reads (message_reads (by omega) (Nat.le_refl 6))]
    rfl
  · rw [← streamCodes_alike alike invariant codable, count, filledBytes]
    have held := pendingAll_le 0 (streamCodes started tokens)
    split <;> omega

theorem short_legible (tree : HuffmanTree) (search : SearchTree) {inbuf : Buffer}
    (nonempty : inbuf.data ≠ []) (few : inbuf.data.length ≤ 3867) :
    CodesLegible tree search inbuf := by
  obtain ⟨started, starts, invariant, -⟩ := startHuff_total tree
  obtain ⟨tokens, chosen, tokenized, -⟩ := encode_feeds search inbuf nonempty (by omega)
  have codable : ∀ token ∈ tokens, token.Codable :=
    fun token listed => (tokenized.valid token listed).codable
  obtain ⟨blank, -, blanks, -⟩ :=
    fillBlank_total (fun _ => 0) (show ringSize - lookahead ≤ textBufSize by lia)
  obtain ⟨done, expands, written⟩ :=
    tokenized.expands _ (start_written started ⟨.new, 0, 0, 0⟩ blank blanks)
  have count := DecodeState.expandAll_longer (fun token listed => (codable token listed).readable)
    expands
  rw [written.data.trans List.take_length] at count
  have length := streamCodes_length invariant codable
  have bytes : filledBytes (streamCodes started tokens) ≤
      (streamCodes started tokens).flatten.length + 1 := by
    rw [filledBytes]
    split <;> omega
  exact ⟨tokens, started, chosen, starts, legible_early starts codable (by omega), by omega⟩

/-- The output has the size, the CRC and the codes, and is decoded from any state. -/
theorem CodesLegible.trips {search : SearchTree} {inbuf : Buffer}
    (legible : CodesLegible tree search inbuf) (nonempty : inbuf.data ≠ [])
    (small : inbuf.data.length < 2 ^ 32) : ∃ coded,
      version1Encode tree search inbuf = some (some ⟨coded, 0⟩) ∧ 6 ≤ coded.length ∧
      coded.length < 2 ^ 32 ∧ ∀ other textBuf crc, ∃ decoded,
        version1Decode other textBuf crc ⟨coded, 0⟩ = some (some decoded) ∧
        decoded.data = inbuf.data := by
  obtain ⟨started, starts, -, -⟩ := startHuff_total tree
  obtain ⟨_, body, -, encodes, short, -⟩ := legible.message nonempty small starts
  refine ⟨_, encodes, by simp, by simpa using short, fun other textBuf crc => ?_⟩
  obtain ⟨fresh, freshly, -, -⟩ := startHuff_total other
  obtain ⟨tokens, same, -, again, -, announced, spells, ends⟩ :=
    legible.message nonempty small freshly
  rw [encodes] at again
  injection again with again
  injection again with again
  injection again with again
  rw [again]
  have front : (codedMessage inbuf.data.length same).length = 6 + same.length :=
    codedMessage_length
  have fits : 6 + same.length < 2 ^ 32 := by
    have lengths := congrArg List.length again
    simp only [codedMessage_length] at lengths
    omega
  refine (version1Decode_message textBuf crc nonempty small freshly).mpr
    ⟨tokens, announced.readable, spells textBuf, announced.starts, ?_⟩
  rw [consumed_all (message_reads fits (by decide)) (by rw [List.length_drop]; omega)]

/-- An input comes back if it is short or its codes are legible. -/
theorem codec_roundtrip (tree : HuffmanTree) (search : SearchTree) (other : HuffmanTree)
    (textBuf : Nat → UInt8) (crc : UInt16) (inbuf : Buffer) (small : inbuf.data.length < 2 ^ 32)
    (plain : inbuf.data.length ≤ 3867 ∨ CodesLegible tree search inbuf) :
    CodecTrips tree search other textBuf crc inbuf := by
  by_cases empty : inbuf.data = []
  · exact empty_trips tree search other textBuf crc empty
  · have legible : CodesLegible tree search inbuf := plain.elim (short_legible tree search empty) id
    obtain ⟨coded, encodes, -, -, decodes⟩ := legible.trips empty small
    obtain ⟨decoded, returns, data⟩ := decodes other textBuf crc
    exact ⟨_, decoded, encodes, returns, data⟩

theorem codec_roundtrip_sample :
    CodecTrips ⟨id, id, id⟩ ⟨fun _ => 7, id, id, id, 0, 0⟩ ⟨id, id, id⟩ (fun _ => 7) 9
      ⟨[97, 98, 97, 98, 97], 0⟩ :=
  codec_roundtrip ⟨id, id, id⟩ ⟨fun _ => 7, id, id, id, 0, 0⟩ ⟨id, id, id⟩ (fun _ => 7) 9
    ⟨[97, 98, 97, 98, 97], 0⟩ (by decide) (.inl (by decide))

end Legibility

end PaclinkUnix
