import PaclinkUnix.BitExchange
import PaclinkUnix.DeepCode
import PaclinkUnix.TokenCodes

/-!
The entropy coder and its decoder on any stream of tokens. They agree as long as no code
loses a bit: `EncodeChar` collects a code in 16 bits, and `Putcode` cannot take one while more
than 16 bits are pending.
-/

namespace PaclinkUnix

open Memory BitStream HuffmanTree BitWriter

/-- No code is put while more than 16 bits are pending. -/
def Room : Nat → List (List Bool) → Prop
  | _, [] => True
  | p, code :: rest => p ≤ 16 ∧ Room (pendingAfter p code.length) rest

def pendingAll (p : Nat) (codes : List (List Bool)) : Nat :=
  codes.foldl (fun p code => pendingAfter p code.length) p

section Rooms

variable {p : Nat} {codes more : List (List Bool)}

theorem room_append : Room p (codes ++ more) ↔ Room p codes ∧ Room (pendingAll p codes) more := by
  induction codes generalizing p with
  | nil => exact ⟨fun holds => ⟨trivial, holds⟩, fun both => both.2⟩
  | cons code rest ih =>
      rw [List.cons_append, Room, Room, ih, and_assoc]
      rfl

end Rooms

/-- Calls of `Putcode`, each with the code that its word is to carry. -/
def putcodeAll (calls : List (BitVec 32 × List Bool)) (writer : BitWriter) : Option BitWriter :=
  calls.foldlM (fun writer call => writer.putcode call.2.length call.1) writer

structure Carried (call : BitVec 32 × List Bool) : Prop where
  carries : Carries call.1 call.2
  positive : 0 < call.2.length
  short : call.2.length ≤ 21

section Writing

variable {writer : BitWriter} {sent : List Bool} {calls : List (BitVec 32 × List Bool)}

theorem pendingAfter_low {p l : Nat} (low : p ≤ 16) (short : l ≤ 21) : pendingAfter p l < 32 := by
  unfold pendingAfter
  split
  · omega
  · split <;> omega

/-- With room for them the codes are written, cut to 16 bits; without, the run is undefined. -/
theorem putcodeAll_written (carried : ∀ call ∈ calls, Carried call) (written : Written writer sent)
    (low : writer.putlen < 32) :
    (Room writer.putlen (calls.map Prod.snd) → ∃ last, putcodeAll calls writer = some last ∧
      Written last (sent ++ ((calls.map Prod.snd).map cut).flatten) ∧
      last.putlen = pendingAll writer.putlen (calls.map Prod.snd) ∧ last.putlen < 32) ∧
    (¬ Room writer.putlen (calls.map Prod.snd) → putcodeAll calls writer = none) := by
  induction calls generalizing writer sent with
  | nil =>
      refine ⟨fun _ => ⟨writer, rfl, ?_, rfl, low⟩, fun full => absurd trivial full⟩
      rw [List.map_nil, List.map_nil, List.flatten_nil, List.append_nil]
      exact written
  | cons call rest ih =>
      obtain ⟨carries, positive, short⟩ := carried call (List.mem_cons_self)
      rw [List.map_cons, Room]
      by_cases room : writer.putlen ≤ 16
      · obtain ⟨next, puts, kept, pending⟩ := putcode_written written carries room (by omega)
        have below := pendingAfter_low room short
        rw [← pending] at below
        have later := ih (fun other listed => carried other (List.mem_cons_of_mem _ listed)) kept below
        rw [pending] at later
        have step : putcodeAll (call :: rest) writer = putcodeAll rest next := by
          rw [putcodeAll, List.foldlM_cons, puts]
          rfl
        rw [step]
        refine ⟨fun holds => ?_, fun full => later.2 fun holds => full ⟨room, holds⟩⟩
        obtain ⟨last, goes, all, count, bound⟩ := later.1 holds.2
        refine ⟨last, goes, ?_, count, bound⟩
        rw [List.map_cons, List.flatten_cons, ← List.append_assoc]
        exact all
      · refine ⟨fun holds => absurd holds.1 room, fun _ => ?_⟩
        rw [putcodeAll, List.foldlM_cons, putcode_none (by omega) low positive (by omega)]
        rfl

end Writing

section Encoding

variable {coder : EntropyCoder} {token : Token} {sent : List Bool}

theorem pCode_some {i : Nat} (inside : i < 64) :
    pCode[i]? = some (pCode.getD i 0) ∧ pLen[i]? = some (pLen.getD i 0) := by
  have codes : pCode.length = 64 := by decide
  have lengths : pLen.length = 64 := by decide
  rw [List.getD_eq_getElem?_getD, List.getD_eq_getElem?_getD,
    List.getElem?_eq_getElem (codes.symm ▸ inside), List.getElem?_eq_getElem (lengths.symm ▸ inside)]
  exact ⟨rfl, rfl⟩

theorem encodePosition_calls {position : Nat} (inside : position < ringSize) :
    coder.encodePosition position =
      (putcodeAll [(upperWord position, word (upperLength position) (upperWord position)),
        (lowerWord position, word 6 (lowerWord position))] coder.writer).map
          fun writer => { coder with writer := writer } := by
  have upper : position >>> 6 < 64 := by
    rw [Nat.shiftRight_eq_div_pow]
    lia
  obtain ⟨code, len⟩ := pCode_some upper
  simp only [EntropyCoder.encodePosition, code, len, Option.bind_eq_bind, Option.bind_some, putcodeAll,
    List.foldlM_cons, List.foldlM_nil, word_length]
  change (coder.writer.putcode (upperLength position) (upperWord position)).bind _ = _
  rcases coder.writer.putcode (upperLength position) (upperWord position) with _ | middle
  · rfl
  · change (middle.putcode 6 (lowerWord position)).bind _ =
      Option.map _ ((middle.putcode 6 (lowerWord position)).bind _)
    rcases middle.putcode 6 (lowerWord position) with _ | last <;> rfl

theorem encodeToken_calls (invariant : Invariant coder.tree) (codable : token.Codable) :
    ∃ calls next, calls.map Prod.snd = token.codes coder.tree ∧ (∀ call ∈ calls, Carried call) ∧
      coder.tree.update token.symbol = some next ∧ Invariant next ∧
      EntropyCoder.encodeToken token coder =
        (putcodeAll calls coder.writer).map fun writer => some ⟨next, writer⟩ := by
  have symbol := codable.symbol
  obtain ⟨i, next, carries, updates, kept, encodes⟩ := encodeChar_some invariant symbol
  have char : Carried (i, coder.tree.codeword token.symbol) :=
    ⟨carries, codeword_pos invariant.linked symbol, codeword_length invariant symbol⟩
  cases token with
  | literal c =>
      refine ⟨[(i, coder.tree.codeword c.toNat)], next, rfl, ?_, updates, kept, ?_⟩
      · intro call listed
        obtain rfl := List.mem_singleton.mp listed
        exact char
      · refine encodes.trans ?_
        rw [putcodeAll, List.foldlM_cons]
        change _ = Option.map _ ((coder.writer.putcode _ i).bind _)
        rw [show (Token.literal c).symbol = c.toNat from rfl]
        rcases coder.writer.putcode (coder.tree.codeword c.toNat).length i with _ | writer <;> rfl
  | copy length position =>
      obtain ⟨least, most, inside⟩ := codable
      have upper : position >>> 6 < 64 := by
        rw [Nat.shiftRight_eq_div_pow]
        lia
      obtain ⟨small, large, -⟩ := upper_facts upper
      refine ⟨[(i, coder.tree.codeword (255 - threshold + length)),
        (upperWord position, word (upperLength position) (upperWord position)),
        (lowerWord position, word 6 (lowerWord position))], next, rfl, ?_, updates, kept, ?_⟩
      · intro call listed
        simp only [List.mem_cons, List.not_mem_nil, or_false] at listed
        rcases listed with rfl | rfl | rfl
        · exact char
        · exact ⟨upper_carries upper, by simp only [word_length, upperLength]; omega,
            by simp only [word_length, upperLength]; omega⟩
        · exact ⟨lower_carries, by simp, by simp⟩
      · change coder.encodeChar (255 - threshold + length) = _ at encodes
        simp only [EntropyCoder.encodeToken, encodes, Option.bind_eq_bind]
        rw [putcodeAll, List.foldlM_cons]
        change _ = Option.map _ ((coder.writer.putcode _ i).bind _)
        rw [show (Token.copy length position).symbol = 255 - threshold + length from rfl]
        rcases coder.writer.putcode (coder.tree.codeword (255 - threshold + length)).length i with
          _ | writer
        · rfl
        · simp only [Option.map_some, Option.bind_some]
          rw [encodePosition_calls inside]
          simp only [Option.bind_map]
          change _ = Option.map _ (putcodeAll [_, _] writer)
          rcases putcodeAll [(upperWord position, word (upperLength position) (upperWord position)),
            (lowerWord position, word 6 (lowerWord position))] writer with _ | last <;> rfl

theorem feed_written (invariant : Invariant coder.tree) {tokens : List Token}
    (codable : ∀ token ∈ tokens, token.Codable) (written : Written coder.writer sent)
    (low : coder.writer.putlen < 32) :
    (Room coder.writer.putlen (streamCodes coder.tree tokens) →
      ∃ last, Window.feed EntropyCoder.encodeToken tokens coder = some (some last) ∧
        Written last.writer (sent ++ ((streamCodes coder.tree tokens).map cut).flatten) ∧
        last.writer.putlen = pendingAll coder.writer.putlen (streamCodes coder.tree tokens)) ∧
    (¬ Room coder.writer.putlen (streamCodes coder.tree tokens) →
      Window.feed EntropyCoder.encodeToken tokens coder = none) := by
  induction tokens generalizing coder sent with
  | nil =>
      refine ⟨fun _ => ⟨coder, rfl, ?_, rfl⟩, fun full => absurd trivial full⟩
      rw [streamCodes, List.map_nil, List.flatten_nil, List.append_nil]
      exact written
  | cons token rest ih =>
      obtain ⟨calls, next, codes, carried, updates, kept, encodes⟩ :=
        encodeToken_calls invariant (codable token (List.mem_cons_self))
      obtain ⟨fits, overflows⟩ := putcodeAll_written carried written low
      rw [codes] at fits overflows
      rw [streamCodes, updates, Option.getD_some, room_append, Window.feed, encodes]
      by_cases room : Room coder.writer.putlen (token.codes coder.tree)
      · obtain ⟨writer, puts, all, pending, below⟩ := fits room
        have later := @ih ⟨next, writer⟩ _ kept
          (fun other listed => codable other (List.mem_cons_of_mem _ listed)) all below
        rw [pending] at later
        simp only [puts, Option.map_some, Option.bind_eq_bind, Option.bind_some]
        refine ⟨fun both => ?_, fun full => later.2 fun holds => full ⟨room, holds⟩⟩
        obtain ⟨last, goes, put, count⟩ := later.1 both.2
        refine ⟨last, goes, ?_, ?_⟩
        · rw [List.map_append, List.flatten_append, ← List.append_assoc]
          exact put
        · rw [count, pendingAll, pendingAll, pendingAll, List.foldl_append]
      · refine ⟨fun both => absurd both.1 room, fun _ => ?_⟩
        rw [overflows room]
        rfl

end Encoding

/-- How many bytes these codes fill, from an empty bit buffer to `EncodeEnd`. -/
def filledBytes (codes : List (List Bool)) : Nat :=
  (codes.flatten.length - pendingAll 0 codes) / 8 + if pendingAll 0 codes = 0 then 0 else 1

/-- The bit that is read at place `n`: of each code the first sixteen, up to the last byte.
The read index of a buffer wraps, so that a larger one is read over and over. -/
def readableBit (codes : List (List Bool)) (n : Nat) : Bool :=
  let n := if filledBytes codes < Buffer.indexRange then n else n % (8 * Buffer.indexRange)
  if n < 8 * filledBytes codes then (codes.map cut).flatten.getD n false else false

def RoundTrips (tree other : HuffmanTree) (tokens : List Token) : Prop :=
  ∃ started coder fresh, tree.startHuff = some started ∧
    Window.feed EntropyCoder.encodeToken tokens ⟨started, ⟨.new, 0, 0, 0⟩⟩ = some (some coder) ∧
    other.startHuff = some fresh ∧
    readSymbols tokens.length (fresh, ⟨⟨coder.encodeEnd.outbuf.data, 0⟩, 0, 0, 0⟩) = some tokens

/-- There is room for every code, and all codes can be read. -/
def Legible (codes : List (List Bool)) : Prop :=
  Room 0 codes ∧ ∀ n < codes.flatten.length, codes.flatten.getD n false = readableBit codes n

section Trips

variable {codes : List (List Bool)} {out : Bytes}

/-- The bytes put out for some codes. -/
structure Filled (codes : List (List Bool)) (out : Bytes) : Prop where
  length : out.length = filledBytes codes
  same : ∀ n, bitAt out n =
    if n < 8 * filledBytes codes then (codes.map cut).flatten.getD n false else false

theorem filled_ready (filled : Filled codes out) :
    BitReader.Ready ⟨⟨out, 0⟩, 0, 0, 0⟩ (readableBit codes) := by
  obtain ⟨length, same⟩ := filled
  constructor
  · exact Nat.zero_le _
  · intro j _
    simp [window]
  · intro n before
    exact absurd before (Nat.not_lt_zero n)
  · intro n
    change readableBit codes (0 + n) = byteBit (Buffer.upcoming ⟨out, 0⟩ (n / 8)) (n % 8)
    rw [Nat.zero_add, readableBit]
    by_cases small : filledBytes codes < Buffer.indexRange
    · have start : Buffer.Reads ⟨out, 0⟩ out :=
        Buffer.reads_rewind (b := ⟨out, 0⟩) (show out.length < _ by omega)
      rw [upcoming_reads start]
      simp only [if_pos small]
      rw [← same n, bitAt]
    · have large : Buffer.indexRange ≤ out.length := by omega
      rw [upcoming_endless large (n / 8) (by decide)]
      simp only [if_neg small]
      rw [← same, bitAt, Nat.zero_add, Nat.mod_mul_right_div_self,
        Nat.mod_mul_right_mod]

theorem encoded_filled (tree : HuffmanTree) {writer : BitWriter}
    (written : Written writer (codes.map cut).flatten) (pending : writer.putlen = pendingAll 0 codes) :
    Filled codes (EntropyCoder.encodeEnd ⟨tree, writer⟩).outbuf.data := by
  obtain ⟨length, -, same⟩ := encodeEnd_bits tree written
  have total := written.total
  rw [cut_total] at total
  have count : (EntropyCoder.encodeEnd ⟨tree, writer⟩).outbuf.data.length = filledBytes codes := by
    rw [length, filledBytes, ← pending]
    split <;> omega
  exact ⟨count, fun n => by rw [same n, count]⟩

end Trips

/-- A run that puts all codes has room for them, and what it wrote is read as what is legible. -/
theorem trip_reads {tree other started fresh : HuffmanTree} {tokens : List Token}
    (starts : tree.startHuff = some started) (freshly : other.startHuff = some fresh)
    (codable : ∀ token ∈ tokens, token.Codable) :
    (Room 0 (streamCodes started tokens) → ∃ coder,
      Window.feed EntropyCoder.encodeToken tokens ⟨started, ⟨.new, 0, 0, 0⟩⟩ = some (some coder)) ∧
    ∀ coder, Window.feed EntropyCoder.encodeToken tokens ⟨started, ⟨.new, 0, 0, 0⟩⟩ =
        some (some coder) → Room 0 (streamCodes started tokens) ∧
      (readSymbols tokens.length (fresh, ⟨⟨coder.encodeEnd.outbuf.data, 0⟩, 0, 0, 0⟩) = some tokens ↔
        Starts (readableBit (streamCodes started tokens)) (streamCodes started tokens).flatten) := by
  obtain ⟨_, again, invariant, -⟩ := startHuff_total tree
  obtain rfl := Option.some.inj (starts.symm.trans again)
  have alike : Alike started fresh := by
    have same := startHuff_alike tree other
    rw [starts, freshly] at same
    cases same with
    | some alike => exact alike
  have begun : Written ⟨.new, 0, 0, 0⟩ [] :=
    ⟨rfl, fun n => by simp [BitWriter.bits, window, Buffer.new]⟩
  obtain ⟨fits, overflows⟩ := @feed_written ⟨started, ⟨.new, 0, 0, 0⟩⟩ [] invariant tokens codable
    begun (show 0 < 32 by decide)
  constructor
  · intro room
    obtain ⟨last, goes, -, -⟩ := fits room
    exact ⟨last, goes⟩
  · intro coder feeds
    have room : Room 0 (streamCodes started tokens) := by
      by_contra full
      rw [overflows full] at feeds
      cases feeds
    obtain ⟨last, goes, written, pending⟩ := fits room
    obtain rfl := Option.some.inj (Option.some.inj (goes.symm.trans feeds))
    have ready := filled_ready (encoded_filled last.tree written pending)
    refine ⟨room, ?_⟩
    rw [← readSymbols_alike alike]
    exact readSymbols_iff invariant ready codable

theorem RoundTrips.legible {tree other started : HuffmanTree} {tokens : List Token}
    (trips : RoundTrips tree other tokens) (starts : tree.startHuff = some started)
    (codable : ∀ token ∈ tokens, token.Codable) : Legible (streamCodes started tokens) := by
  obtain ⟨_, coder, fresh, again, feeds, freshly, reads⟩ := trips
  obtain rfl := Option.some.inj (starts.symm.trans again)
  obtain ⟨room, iff⟩ := (trip_reads starts freshly codable).2 coder feeds
  exact ⟨room, fun n inside => (iff.mp reads n inside).symm⟩

theorem Legible.roundTrips {tree other started fresh : HuffmanTree} {tokens : List Token}
    (legible : Legible (streamCodes started tokens)) (starts : tree.startHuff = some started)
    (freshly : other.startHuff = some fresh) (codable : ∀ token ∈ tokens, token.Codable) :
    RoundTrips tree other tokens := by
  obtain ⟨room, readable⟩ := legible
  obtain ⟨feeds, reads⟩ := trip_reads starts freshly codable
  obtain ⟨coder, goes⟩ := feeds room
  exact ⟨started, coder, fresh, starts, goes, freshly,
    (reads coder goes).2.mpr fun n inside => (readable n inside).symm⟩

section Short

variable {tree : HuffmanTree} {tokens : List Token} {codes : List (List Bool)} {p : Nat}

theorem streamCodes_length (invariant : Invariant tree) (codable : ∀ token ∈ tokens, token.Codable) :
    (streamCodes tree tokens).flatten.length ≤ 35 * tokens.length := by
  induction tokens generalizing tree with
  | nil => exact Nat.zero_le _
  | cons token rest ih =>
      have here := codable token (List.mem_cons_self)
      obtain ⟨next, updates, kept⟩ := update_total invariant here.symbol
      have code := codeword_length invariant here.symbol
      have later := ih kept fun other listed => codable other (List.mem_cons_of_mem _ listed)
      have own : (token.codes tree).flatten.length ≤ 35 := by
        cases token with
        | literal c =>
            rw [Token.codes, List.flatten_cons, List.flatten_nil, List.append_nil]
            exact code.trans (by decide)
        | copy length position =>
            have upper : position >>> 6 < 64 := by
              have inside := here.2.2
              rw [Nat.shiftRight_eq_div_pow]
              lia
            obtain ⟨-, most, -⟩ := upper_facts upper
            have short : upperLength position ≤ 8 := most
            simp only [Token.codes, positionCodes, List.flatten_cons, List.flatten_nil,
              List.length_append, List.length_nil, word_length]
            change (tree.codeword (255 - threshold + length)).length ≤ 21 at code
            omega
      rw [streamCodes, updates, Option.getD_some, List.flatten_append, List.length_append,
        List.length_cons]
      omega

theorem streamCodes_short (invariant : Invariant tree) (codable : ∀ token ∈ tokens, token.Codable)
    (light : tree.freq rootPosition + tokens.length ≤ Nat.fib 19) :
    ∀ code ∈ streamCodes tree tokens, code.length ≤ 16 := by
  induction tokens generalizing tree with
  | nil => exact fun code listed => absurd listed List.not_mem_nil
  | cons token rest ih =>
      have here := codable token (List.mem_cons_self)
      obtain ⟨next, updates, kept⟩ := update_total invariant here.symbol
      have top : Nat.fib 19 < maxFreq := by decide
      rw [List.length_cons] at light
      have root := update_root invariant here.symbol (by omega) updates
      have symbol : (tree.codeword token.symbol).length ≤ 16 :=
        codeword_short (n := 16) invariant here.symbol
          (show tree.freq rootPosition < Nat.fib 19 by omega)
      have later := ih kept (fun other listed => codable other (List.mem_cons_of_mem _ listed))
        (by omega)
      have own : ∀ code ∈ token.codes tree, code.length ≤ 16 := by
        cases token with
        | literal c =>
            intro code listed
            obtain rfl := List.mem_singleton.mp listed
            exact symbol
        | copy length position =>
            have upper : position >>> 6 < 64 := by
              have inside := here.2.2
              rw [Nat.shiftRight_eq_div_pow]
              lia
            obtain ⟨-, most, -⟩ := upper_facts upper
            have few : upperLength position ≤ 8 := most
            intro code listed
            simp only [Token.codes, positionCodes, List.mem_cons, List.not_mem_nil, or_false] at listed
            rcases listed with rfl | rfl | rfl
            · exact symbol
            · rw [word_length]
              omega
            · rw [word_length]
              omega
      rw [streamCodes, updates, Option.getD_some]
      intro code listed
      rcases List.mem_append.mp listed with first | other
      · exact own code first
      · exact later code other

theorem pendingAfter_short {l : Nat} (low : p < 8) (short : l ≤ 16) : pendingAfter p l < 8 := by
  unfold pendingAfter
  split
  · omega
  · split <;> omega

theorem room_short (low : p < 8) (short : ∀ code ∈ codes, code.length ≤ 16) :
    Room p codes ∧ pendingAll p codes < 8 := by
  induction codes generalizing p with
  | nil => exact ⟨trivial, low⟩
  | cons code rest ih =>
      have next := pendingAfter_short low (short code List.mem_cons_self)
      obtain ⟨room, left⟩ := ih next fun other listed => short other (List.mem_cons_of_mem _ listed)
      exact ⟨⟨by omega, room⟩, left⟩

theorem pendingAll_mod : pendingAll p codes % 8 = (p + codes.flatten.length) % 8 := by
  induction codes generalizing p with
  | nil => rfl
  | cons code rest ih =>
      have step : pendingAfter p code.length % 8 = (p + code.length) % 8 := by
        unfold pendingAfter
        split
        · rfl
        · split <;> omega
      have later := @ih (pendingAfter p code.length)
      rw [List.flatten_cons, List.length_append]
      change pendingAll (pendingAfter p code.length) rest % 8 = _
      omega

/-- Codes of no more than sixteen bits are legible, if their bytes can be indexed. -/
theorem legible_short (short : ∀ code ∈ codes, code.length ≤ 16)
    (small : codes.flatten.length + 7 < 8 * Buffer.indexRange) : Legible codes := by
  obtain ⟨room, pending⟩ := room_short (show 0 < 8 by decide) short
  have left := @pendingAll_mod codes 0
  have same : codes.map cut = codes :=
    (List.map_congr_left fun code listed => cut_short (short code listed)).trans (List.map_id _)
  have count : codes.flatten.length ≤ 8 * filledBytes codes ∧
      filledBytes codes < Buffer.indexRange := by
    rw [filledBytes]
    split <;> omega
  refine ⟨room, fun n inside => ?_⟩
  simp only [readableBit, same, if_pos count.2, if_pos (show n < 8 * filledBytes codes by omega)]

theorem legible_early {started : HuffmanTree} (starts : tree.startHuff = some started)
    (codable : ∀ token ∈ tokens, token.Codable) (few : tokens.length ≤ 3867) :
    Legible (streamCodes started tokens) := by
  obtain ⟨_, again, invariant, once⟩ := startHuff_total tree
  obtain rfl := Option.some.inj (starts.symm.trans again)
  have root := root_once invariant once
  have limit : Nat.fib 19 = 4181 := by decide
  have length := streamCodes_length invariant codable
  have range : Buffer.indexRange = 2 ^ 32 := rfl
  exact legible_short (streamCodes_short invariant codable (by lia)) (by omega)

end Short

/-- A stream of tokens comes back exactly if its codes are legible. -/
theorem entropy_roundtrip_iff (tree other : HuffmanTree) (tokens : List Token)
    (codable : ∀ token ∈ tokens, token.Codable) :
    RoundTrips tree other tokens ↔
      ∃ started, tree.startHuff = some started ∧ Legible (streamCodes started tokens) := by
  obtain ⟨started, starts, -, -⟩ := startHuff_total tree
  obtain ⟨fresh, freshly, -, -⟩ := startHuff_total other
  constructor
  · intro trips
    exact ⟨started, starts, trips.legible starts codable⟩
  · rintro ⟨_, again, legible⟩
    obtain rfl := Option.some.inj (starts.symm.trans again)
    exact legible.roundTrips starts freshly codable

theorem entropy_roundtrip_sample :
    RoundTrips ⟨id, id, id⟩ ⟨id, id, id⟩ [.literal 65, .copy 3 0] := by
  have codable : ∀ token ∈ [Token.literal 65, .copy 3 0], token.Codable := by
    intro token listed
    simp only [List.mem_cons, List.not_mem_nil, or_false] at listed
    rcases listed with rfl | rfl
    · trivial
    · exact ⟨by decide, by decide, by decide⟩
  obtain ⟨started, starts, -, -⟩ := startHuff_total ⟨id, id, id⟩
  exact (entropy_roundtrip_iff ⟨id, id, id⟩ ⟨id, id, id⟩ _ codable).mpr
    ⟨started, starts, legible_early starts codable (by decide)⟩

section Lost

variable {tree after : HuffmanTree} {tokens more : List Token}

theorem streamCodes_append (counted : (tokens.map Token.symbol).foldlM update tree = some after) :
    streamCodes tree (tokens ++ more) = streamCodes tree tokens ++ streamCodes after more := by
  induction tokens generalizing tree with
  | nil =>
      obtain rfl := Option.some.inj counted
      rfl
  | cons token rest ih =>
      rw [List.map_cons, List.foldlM_cons] at counted
      obtain ⟨next, updates, counted⟩ := Option.bind_eq_some_iff.mp counted
      rw [List.cons_append, streamCodes, streamCodes, updates, Option.getD_some, ih counted,
        List.append_assoc]

theorem not_legible {front : List (List Bool)} {code bits : List Bool} {rest : List (List Bool)}
    (last : code = bits ++ [true]) (long : 16 ≤ bits.length)
    (small : (front ++ code :: rest).flatten.length < 2 ^ 32) : ¬ Legible (front ++ code :: rest) := by
  rintro ⟨-, legible⟩
  have place : front.flatten.length + bits.length < (front ++ code :: rest).flatten.length := by
    rw [List.flatten_append, List.flatten_cons, List.length_append, List.length_append, last,
      List.length_append, List.length_singleton]
    omega
  have wrong := legible _ place
  have bytes : filledBytes (front ++ code :: rest) < Buffer.indexRange := by
    have range : Buffer.indexRange = 2 ^ 32 := rfl
    rw [filledBytes]
    split <;> omega
  have sent : (front ++ code :: rest).flatten.getD (front.flatten.length + bits.length) false =
      true := by
    rw [List.flatten_append, List.flatten_cons, List.getD_append_right _ _ _ _ (by omega),
      Nat.add_sub_cancel_left, last, List.getD_append _ _ _ _ (by simp),
      List.getD_append_right _ _ _ _ (Nat.le_refl _), Nat.sub_self]
    rfl
  have lost : ((front ++ code :: rest).map cut).flatten.getD (front.flatten.length + bits.length)
      false = false := by
    rw [List.map_append, List.map_cons, List.flatten_append, List.flatten_cons,
      List.getD_append_right _ _ _ _ (by rw [cut_total]; omega), cut_total, Nat.add_sub_cancel_left,
      List.getD_append _ _ _ _ (by rw [cut_length, last]; simp), cut_bits,
      decide_eq_false (by omega), Bool.false_and]
  rw [sent, readableBit] at wrong
  simp only [if_pos bytes, lost, ite_self] at wrong
  cases wrong

end Lost

/-- 27900 literals after which a symbol that has not occurred has a code of 17 bits or more,
the last one set, and then that symbol. -/
theorem deep_code_lost : ∃ tokens : List Token, (∀ token ∈ tokens, token.Codable) ∧
    ¬ RoundTrips ⟨id, id, id⟩ ⟨id, id, id⟩ tokens := by
  obtain ⟨started, starts, invariant, once⟩ := startHuff_total ⟨id, id, id⟩
  obtain ⟨after, counted, kept, steep⟩ := steep_history invariant once
  obtain ⟨c, bits, symbol, last, long⟩ := steep.codeword kept
  let history : List Token := steepSymbols.map fun c => .literal (UInt8.ofNat c)
  let rare : Token := if c < 256 then .literal (UInt8.ofNat c) else .copy (c - 253) 0
  have symbols : history.map Token.symbol = steepSymbols := by
    rw [List.map_map]
    refine (List.map_congr_left fun c member => ?_).trans (List.map_id _)
    exact Nat.mod_eq_of_lt (steepSymbols_known c member)
  have rareSymbol : rare.symbol = c ∧ rare.Codable := by
    by_cases literal : c < 256
    · simp only [rare, if_pos literal]
      exact ⟨Nat.mod_eq_of_lt literal, trivial⟩
    · simp only [rare, if_neg literal]
      exact ⟨by change 255 - threshold + (c - 253) = c; lia, by lia, by lia, by decide⟩
  have rareCodes : ∃ rest, rare.codes after = after.codeword c :: rest := by
    rw [← rareSymbol.1]
    cases rare with
    | literal c => exact ⟨[], rfl⟩
    | copy length position => exact ⟨_, rfl⟩
  have codable : ∀ token ∈ history ++ [rare], token.Codable := by
    intro token listed
    rcases List.mem_append.mp listed with early | final
    · obtain ⟨c, -, rfl⟩ := List.mem_map.mp early
      trivial
    · obtain rfl := List.mem_singleton.mp final
      exact rareSymbol.2
  have codes : ∃ rest, streamCodes started (history ++ [rare]) =
      streamCodes started history ++ after.codeword c :: rest := by
    obtain ⟨rest, same⟩ := rareCodes
    refine ⟨rest, ?_⟩
    rw [streamCodes_append (symbols ▸ counted), streamCodes, streamCodes, same, List.append_nil]
  have bound := streamCodes_length invariant codable
  have length : (history ++ [rare]).length = 27901 := by
    rw [List.length_append, List.length_map, steepSymbols_length]
    rfl
  refine ⟨history ++ [rare], codable, fun trip => ?_⟩
  have legible := trip.legible starts codable
  obtain ⟨rest, same⟩ := codes
  rw [same] at legible bound
  exact not_legible last long (by omega) legible

end PaclinkUnix
