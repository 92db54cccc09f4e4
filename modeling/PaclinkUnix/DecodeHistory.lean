import PaclinkUnix.Codec
import PaclinkUnix.HuffmanAlike
import PaclinkUnix.SlidingWindow

/-!
What a decoded message can tell of earlier messages. The decoder blanks the ring except for
the 60 cells in front of it; a match that reaches into them, before the message has
written them, copies what another message left there.
-/

namespace PaclinkUnix

open Memory

namespace DecodeState

open HuffmanTree

/-- One symbol of the stream, with its position if it is a length. -/
def readSymbol : HuffmanTree × BitReader → Option (Token × HuffmanTree × BitReader)
  | (tree, reader) => do
      let (c, tree, reader) ← decodeChar tree reader
      if c < 256 then some (.literal (UInt8.ofNat c), tree, reader)
      else do
        let (position, reader) ← decodePosition reader
        some (.copy (c - 255 + threshold) position, tree, reader)

theorem token_expand (state : DecodeState) :
    state.token = (readSymbol (state.tree, state.reader)).bind fun (token, tree, reader) =>
      ({ state with tree := tree, reader := reader } : DecodeState).expand token := by
  simp only [token, readSymbol, Option.bind_eq_bind]
  rcases decodeChar state.tree state.reader with _ | ⟨c, tree, reader⟩
  · rfl
  · simp only [Option.bind_some]
    split
    · rfl
    · rcases decodePosition reader with _ | ⟨position, after⟩ <;> rfl

theorem readSymbol_alike {tree other : HuffmanTree} (alike : Alike tree other)
    (reader : BitReader) :
    Option.Rel (fun found found' => found.1 = found'.1 ∧ Alike found.2.1 found'.2.1 ∧
        found.2.2 = found'.2.2)
      (readSymbol (tree, reader)) (readSymbol (other, reader)) := by
  simp only [readSymbol, Option.bind_eq_bind]
  refine rel_bind _ (decodeChar_alike alike reader) ?_
  rintro ⟨c, tree, after⟩ ⟨_, other, _⟩ ⟨rfl, alike, rfl⟩
  simp only
  split
  · exact .some ⟨rfl, alike, rfl⟩
  · exact rel_read rfl fun located => .some ⟨rfl, alike, rfl⟩

end DecodeState

def Token.length : Token → Nat
  | .literal _ => 1
  | .copy length _ => length

def charCount (tokens : List Token) : Nat := (tokens.map Token.length).sum

/-- After `count` characters, a match with cells that they have not reached. -/
def Token.Peeks (count : Nat) : Token → Prop
  | .literal _ => False
  | .copy length position => 0 < length ∧ ringSize - lookahead + count ≤ position % ringSize

/-- The first `n` tokens of the stream. -/
def readSymbols : Nat → HuffmanTree × BitReader → Option (List Token)
  | 0, _ => some []
  | n + 1, input => do
      let (token, input) ← DecodeState.readSymbol input
      let tokens ← readSymbols n input
      some (token :: tokens)

/-- Before the announced length is reached. -/
def PeeksFrom (textsize count : Nat) (input : HuffmanTree × BitReader) : Prop :=
  ∃ tokens token, readSymbols (tokens.length + 1) input = some (tokens ++ [token]) ∧
    count + charCount tokens < textsize ∧ token.Peeks (count + charCount tokens)

section Peeking

variable {textsize count : Nat} {input next : HuffmanTree × BitReader} {token : Token}

theorem charCount_cons (token : Token) (tokens : List Token) :
    charCount (token :: tokens) = token.length + charCount tokens := by
  simp [charCount]

theorem PeeksFrom.now (reads : DecodeState.readSymbol input = some (token, next))
    (more : count < textsize) (peeks : token.Peeks count) : PeeksFrom textsize count input := by
  refine ⟨[], token, ?_, more, peeks⟩
  simp [readSymbols, reads]

theorem PeeksFrom.later (reads : DecodeState.readSymbol input = some (token, next))
    (peeks : PeeksFrom textsize (count + token.length) next) :
    PeeksFrom textsize count input := by
  obtain ⟨tokens, last, found, more, peeks⟩ := peeks
  rw [Nat.add_assoc, ← charCount_cons] at more peeks
  refine ⟨token :: tokens, last, ?_, more, peeks⟩
  rw [List.length_cons, readSymbols, reads]
  simp only [Option.bind_eq_bind, Option.bind_some, found, List.cons_append]

theorem PeeksFrom.split (peeks : PeeksFrom textsize count input) :
    count < textsize ∧ ∃ token next, DecodeState.readSymbol input = some (token, next) ∧
      (token.Peeks count ∨ PeeksFrom textsize (count + token.length) next) := by
  obtain ⟨tokens, last, found, more, peeks⟩ := peeks
  rw [readSymbols, Option.bind_eq_bind, Option.bind_eq_some_iff] at found
  obtain ⟨⟨token, next⟩, reads, found⟩ := found
  simp only [Option.bind_eq_bind, Option.bind_eq_some_iff, Option.some.injEq] at found
  obtain ⟨rest, found, same⟩ := found
  refine ⟨by omega, token, next, reads, ?_⟩
  cases tokens with
  | nil =>
      obtain ⟨rfl, -⟩ := List.cons.inj same
      exact .inl peeks
  | cons first others =>
      obtain ⟨rfl, rfl⟩ := List.cons.inj same
      rw [charCount_cons, ← Nat.add_assoc] at more peeks
      exact .inr ⟨others, last, found, more, peeks⟩

end Peeking

namespace DecodeState

open HuffmanTree

/-- They differ at most in the cells that the message has not reached yet. -/
structure Twin (leftover : UInt8 → UInt8 → Prop) (state other : DecodeState) : Prop where
  tree : Alike state.tree other.tree
  reader : state.reader = other.reader
  count : state.count = other.count
  r : state.r = (ringSize - lookahead + state.count) % ringSize
  place : state.r = other.r
  outbuf : state.outbuf = other.outbuf
  written : ∀ i < ringSize, i < ringSize - lookahead + state.count →
    state.textBuf i = other.textBuf i
  unwritten : ∀ i < ringSize, ringSize - lookahead + state.count ≤ i →
    leftover (state.textBuf i) (other.textBuf i)

def Advanced (len : Nat) (state next : DecodeState) : Prop :=
  next.tree = state.tree ∧ next.reader = state.reader ∧ next.count = state.count + len

section Twins

variable {leftover : UInt8 → UInt8 → Prop} {state other : DecodeState}

theorem emit_twin (twin : Twin leftover state other) (c : UInt8) :
    Option.Rel (fun next next' => Twin leftover next next' ∧ Advanced 1 state next)
      (state.emit c) (other.emit c) := by
  have here := twin.r
  have inside : state.r < textBufSize := by lia
  simp only [emit, ← twin.place, store_some inside, Option.bind_eq_bind, Option.bind_some]
  refine .some ⟨⟨twin.tree, twin.reader, by rw [twin.count], ?_, rfl, by rw [twin.outbuf],
    ?_, ?_⟩, rfl, rfl, rfl⟩
  · simp only
    lia
  · intro i ring early
    simp only [put_apply] at early ⊢
    split
    · rfl
    · exact twin.written i ring (by lia)
  · intro i ring late
    simp only at late ⊢
    rw [put_other (show i ≠ state.r by lia), put_other (show i ≠ state.r by lia)]
    exact twin.unwritten i ring (by lia)

theorem copyChar_twin (twin : Twin leftover state other) {i k : Nat}
    (reached : (i + k) % ringSize < ringSize - lookahead + state.count) :
    Option.Rel (fun next next' => Twin leftover next next' ∧ Advanced 1 state next)
      (copyChar i k state) (copyChar i k other) := by
  have ring : (i + k) % ringSize < ringSize := Nat.mod_lt _ (by decide)
  have inside : (i + k) % ringSize < textBufSize := by lia
  simp only [copyChar, load_some inside, Option.bind_eq_bind, Option.bind_some,
    ← twin.written _ ring reached]
  exact emit_twin twin _

theorem copy_place {r count position i : Nat} (here : r = (ringSize - lookahead + count) % ringSize)
    (place : i = (((r : Int) - position - 1) % ringSize).toNat) :
    (position % ringSize < ringSize - lookahead + count →
        ∀ k, (i + k) % ringSize < ringSize - lookahead + (count + k)) ∧
      (ringSize - lookahead + count ≤ position % ringSize →
        i < ringSize ∧ ringSize - lookahead + count ≤ i) := by
  constructor
  · intro near k
    lia
  · intro far
    lia

theorem expand_twin (twin : Twin leftover state other) {token : Token}
    (sees : ¬ token.Peeks state.count) :
    Option.Rel (fun next next' => Twin leftover next next' ∧ Advanced token.length state next)
      (state.expand token) (other.expand token) := by
  cases token with
  | literal c => exact emit_twin twin c
  | copy length position =>
      simp only [expand, ← twin.place]
      refine forRange_rel (fun k next next' => Twin leftover next next' ∧ Advanced k state next)
        ?_ ⟨twin, rfl, rfl, rfl⟩
      rintro k middle middle' more ⟨twin', sameTree, sameReader, counted⟩
      have near : position % ringSize < ringSize - lookahead + state.count :=
        Nat.lt_of_not_le fun far => sees ⟨Nat.lt_of_le_of_lt (Nat.zero_le k) more, far⟩
      have reached := (copy_place twin.r rfl).1 near k
      refine rel_mono (copyChar_twin twin' (by rw [counted]; exact reached)) ?_
      rintro next next' ⟨kept, tree, reader, counts⟩
      exact ⟨kept, tree.trans sameTree, reader.trans sameReader, by omega⟩

end Twins

section Growing

variable {state next : DecodeState}

theorem emit_grows {c : UInt8} (emits : state.emit c = some next) :
    next.outbuf.data = state.outbuf.data ++ [c] := by
  simp only [emit, Option.bind_eq_bind, Option.bind_eq_some_iff, Option.some.injEq] at emits
  obtain ⟨textBuf, -, rfl⟩ := emits
  rfl

theorem copyChar_grows {i k : Nat} (copies : copyChar i k state = some next) :
    state.outbuf.data <+: next.outbuf.data := by
  simp only [copyChar, Option.bind_eq_bind, Option.bind_eq_some_iff] at copies
  obtain ⟨c, -, emits⟩ := copies
  rw [emit_grows emits]
  exact List.prefix_append _ _

theorem expand_grows {token : Token} (expands : state.expand token = some next) :
    state.outbuf.data <+: next.outbuf.data := by
  cases token with
  | literal c =>
      rw [emit_grows expands]
      exact List.prefix_append _ _
  | copy length position =>
      exact forRange_some (fun middle => state.outbuf.data <+: middle.outbuf.data)
        (fun k middle last kept copies => kept.trans (copyChar_grows copies))
        (List.prefix_refl _) expands

theorem token_grows (reads : state.token = some next) :
    state.outbuf.data <+: next.outbuf.data := by
  rw [token_expand, Option.bind_eq_some_iff] at reads
  obtain ⟨⟨token, tree, reader⟩, -, expands⟩ := reads
  have grows := @expand_grows { state with tree := tree, reader := reader } next token expands
  exact grows

theorem decodeLoop_grows {textsize fuel : Nat} {last : DecodeState}
    (decodes : iterate (decodeLoop textsize) fuel state = some last) :
    state.outbuf.data <+: last.outbuf.data := by
  refine iterate_some (fun middle => state.outbuf.data <+: middle.outbuf.data)
    (fun last => state.outbuf.data <+: last.outbuf.data) ?_ ?_ (List.prefix_refl _) decodes
  · intro middle next kept steps
    simp only [decodeLoop] at steps
    split at steps
    · simp only [Option.bind_eq_bind, Option.bind_eq_some_iff, Option.some.injEq,
        Sum.inl.injEq] at steps
      obtain ⟨_, reads, rfl⟩ := steps
      exact kept.trans (token_grows reads)
    · cases steps
  · intro middle last kept steps
    simp only [decodeLoop] at steps
    split at steps
    · simp only [Option.bind_eq_bind, Option.bind_eq_some_iff, Option.some.injEq,
        reduceCtorEq, and_false, exists_false] at steps
    · obtain rfl := Sum.inr.inj (Option.some.inj steps)
      exact kept

end Growing

section Loop

variable {leftover : UInt8 → UInt8 → Prop} {state other : DecodeState} {textsize : Nat}

theorem token_twin (twin : Twin leftover state other) {token : Token} {tree : HuffmanTree}
    {reader : BitReader}
    (reads : readSymbol (state.tree, state.reader) = some (token, tree, reader)) :
    ∃ start start', Twin leftover start start' ∧ state.token = start.expand token ∧
      other.token = start'.expand token ∧ start.tree = tree ∧ start.reader = reader ∧
      start.count = state.count := by
  obtain ⟨⟨_, tree', _⟩, reads', rfl, alike, rfl⟩ :=
    rel_some (readSymbol_alike twin.tree state.reader) reads
  refine ⟨{ state with tree := tree, reader := reader },
    { other with tree := tree', reader := reader },
    ⟨alike, rfl, twin.count, twin.r, twin.place, twin.outbuf, twin.written, twin.unwritten⟩,
    ?_, ?_, rfl, rfl, rfl⟩
  · rw [token_expand, reads]
    rfl
  · rw [token_expand, ← twin.reader, reads']
    rfl

theorem decodeLoop_twin (twin : Twin leftover state other)
    (sees : ¬ PeeksFrom textsize state.count (state.tree, state.reader)) (fuel : Nat) :
    Option.Rel (Twin leftover) (iterate (decodeLoop textsize) fuel state)
      (iterate (decodeLoop textsize) fuel other) := by
  refine iterate_rel (fun state other => Twin leftover state other ∧
    ¬ PeeksFrom textsize state.count (state.tree, state.reader)) ?_ fuel ⟨twin, sees⟩
  rintro state other ⟨twin, sees⟩
  simp only [decodeLoop, ← twin.count]
  by_cases more : state.count < textsize
  · simp only [if_pos more, Option.bind_eq_bind]
    rcases reads : readSymbol (state.tree, state.reader) with _ | ⟨token, tree, reader⟩
    · have reads' := readSymbol_alike twin.tree state.reader
      rw [reads] at reads'
      rw [token_expand, token_expand, reads, ← twin.reader]
      cases none : readSymbol (other.tree, state.reader) with
      | none => exact .none
      | some found =>
          rw [none] at reads'
          cases reads'
    · obtain ⟨start, start', twin', first, second, rfl, rfl, counted⟩ := token_twin twin reads
      have near : ¬ token.Peeks start.count := by
        rw [counted]
        exact fun peeks => sees (.now reads more peeks)
      rw [first, second]
      refine rel_bind _ (expand_twin twin' near) ?_
      rintro next next' ⟨kept, sameTree, sameReader, counts⟩
      refine .some (.inl ⟨kept, fun peeks => sees (.later reads ?_)⟩)
      rwa [sameTree, sameReader, counts, counted] at peeks
  · simp only [if_neg more]
    exact .some (.inr twin)

def Differ (data other : Bytes) : Prop :=
  ∃ common c d rest rest', data = common ++ c :: rest ∧ other = common ++ d :: rest' ∧ c ≠ d

theorem Differ.grow {data other longer longer' : Bytes} (differ : Differ data other)
    (first : data <+: longer) (second : other <+: longer') : Differ longer longer' := by
  obtain ⟨common, c, d, rest, rest', rfl, rfl, apart⟩ := differ
  obtain ⟨more, rfl⟩ := first
  obtain ⟨more', rfl⟩ := second
  exact ⟨common, c, d, rest ++ more, rest' ++ more', by simp, by simp, apart⟩

theorem Differ.ne {data other : Bytes} (differ : Differ data other) : data ≠ other := by
  obtain ⟨common, c, d, rest, rest', rfl, rfl, apart⟩ := differ
  intro same
  exact apart (List.cons.inj (List.append_cancel_left same)).1

theorem expand_differ (twin : Twin (· ≠ ·) state other) {token : Token}
    (peeks : token.Peeks state.count) {next next' : DecodeState}
    (expands : state.expand token = some next) (expands' : other.expand token = some next') :
    Differ next.outbuf.data next'.outbuf.data := by
  cases token with
  | literal c => exact absurd peeks id
  | copy length position =>
      obtain ⟨further, far⟩ := peeks
      obtain ⟨count, rfl⟩ := Nat.exists_eq_add_of_lt further
      rw [Nat.zero_add] at expands expands'
      simp only [expand, ← twin.place] at expands expands'
      obtain ⟨ring, late⟩ := (copy_place twin.r rfl).2 far
      generalize (((state.r : Int) - position - 1) % ringSize).toNat = i at expands expands' ring late
      have cell : (i + 0) % ringSize = i := Nat.mod_eq_of_lt ring
      have inside : i < textBufSize := by lia
      rw [forRange_front, Option.bind_eq_some_iff] at expands expands'
      obtain ⟨first, copies, rest⟩ := expands
      obtain ⟨first', copies', rest'⟩ := expands'
      have grows := forRange_some (fun middle => first.outbuf.data <+: middle.outbuf.data)
        (fun k middle last kept copies => kept.trans (copyChar_grows copies))
        (List.prefix_refl _) rest
      have grows' := forRange_some (fun middle => first'.outbuf.data <+: middle.outbuf.data)
        (fun k middle last kept copies => kept.trans (copyChar_grows copies))
        (List.prefix_refl _) rest'
      simp only [copyChar, cell, load_some inside, Option.bind_eq_bind, Option.bind_some]
        at copies copies'
      refine Differ.grow ?_ grows grows'
      exact ⟨state.outbuf.data, _, _, [], [], emit_grows copies,
        by rw [twin.outbuf]; exact emit_grows copies', twin.unwritten i ring late⟩

theorem decodeLoop_differ {fuel : Nat} {last last' : DecodeState}
    (twin : Twin (· ≠ ·) state other)
    (peeks : PeeksFrom textsize state.count (state.tree, state.reader))
    (decodes : iterate (decodeLoop textsize) fuel state = some last)
    (decodes' : iterate (decodeLoop textsize) fuel other = some last') :
    Differ last.outbuf.data last'.outbuf.data := by
  induction fuel generalizing state other with
  | zero => cases decodes
  | succ fuel ih =>
      obtain ⟨more, token, ⟨tree, reader⟩, reads, later⟩ := peeks.split
      obtain ⟨start, start', twin', first, second, rfl, rfl, counted⟩ := token_twin twin reads
      have more' : other.count < textsize := twin.count ▸ more
      simp only [iterate, decodeLoop, if_pos more, if_pos more', first, second,
        Option.bind_eq_bind, Option.bind_assoc, Option.bind_some, Option.bind_eq_some_iff]
        at decodes decodes'
      obtain ⟨next, expands, decodes⟩ := decodes
      obtain ⟨next', expands', decodes'⟩ := decodes'
      by_cases far : token.Peeks state.count
      · rw [← counted] at far
        exact (expand_differ twin' far expands expands').grow (decodeLoop_grows decodes)
          (decodeLoop_grows decodes')
      · have runs := expand_twin twin' (counted ▸ far)
        rw [expands, expands'] at runs
        cases runs with
        | some both =>
            obtain ⟨kept, sameTree, sameReader, counts⟩ := both
            have peeks := later.resolve_left far
            rw [← counted, ← counts, ← sameTree, ← sameReader] at peeks
            exact ih kept peeks decodes decodes'

end Loop

end DecodeState

/-- A match of the message reaches cells that the message has not written. -/
def Unwritten (inbuf : Buffer) : Prop :=
  ∃ textsize reader started,
    readHeader { inbuf := inbuf, crc := 0, getbuf := 0, getlen := 0 } = (some textsize, reader) ∧
    Codec.initial.tree.startHuff = some started ∧ PeeksFrom textsize 0 (started, reader)

section Results

open HuffmanTree DecodeState

theorem readSymbols_alike {tree other : HuffmanTree} (alike : Alike tree other)
    (reader : BitReader) (n : Nat) :
    readSymbols n (tree, reader) = readSymbols n (other, reader) := by
  induction n generalizing tree other reader with
  | zero => rfl
  | succ n ih =>
      refine rel_eq (rel_bind _ (readSymbol_alike alike reader) ?_)
      rintro ⟨token, tree, after⟩ ⟨_, other, _⟩ ⟨rfl, alike, rfl⟩
      simp only [ih alike after]
      exact rel_read rfl fun tokens => .some rfl

theorem peeks_alike {tree other : HuffmanTree} (alike : Alike tree other) (reader : BitReader)
    (textsize count : Nat) :
    PeeksFrom textsize count (tree, reader) ↔ PeeksFrom textsize count (other, reader) := by
  simp only [PeeksFrom, readSymbols_alike alike]

theorem unwritten_iff {inbuf : Buffer} {textsize : Nat} {reader : BitReader}
    (header : readHeader { inbuf := inbuf, crc := 0, getbuf := 0, getlen := 0 } =
      (some textsize, reader))
    {tree started : HuffmanTree} (starts : tree.startHuff = some started) :
    Unwritten inbuf ↔ PeeksFrom textsize 0 (started, reader) := by
  obtain ⟨first, begins, alike⟩ := rel_some (startHuff_alike tree Codec.initial.tree) starts
  rw [peeks_alike alike]
  constructor
  · rintro ⟨textsize', reader', first', header', begins', peeks⟩
    rw [header] at header'
    rw [begins] at begins'
    cases header'
    cases begins'
    exact peeks
  · exact fun peeks => ⟨textsize, reader, first, header, begins, peeks⟩

/-- Before the first symbol the two runs differ in the cells that are not blanked. -/
theorem start_twin (leftover : UInt8 → UInt8 → Prop) {tree started : HuffmanTree}
    (other : HuffmanTree) {textBuf textBuf' blank : Nat → UInt8}
    (left : ∀ i < ringSize, ringSize - lookahead ≤ i → leftover (textBuf i) (textBuf' i))
    (starts : tree.startHuff = some started)
    (fills : forRange (ringSize - lookahead) fillBlank textBuf = some blank) (reader : BitReader) :
    ∃ started' blank', other.startHuff = some started' ∧
      forRange (ringSize - lookahead) fillBlank textBuf' = some blank' ∧
      Twin leftover (.start started reader blank) (.start started' reader blank') := by
  obtain ⟨started', starts', alike⟩ := rel_some (startHuff_alike tree other) starts
  have room : ringSize - lookahead ≤ textBufSize := by lia
  obtain ⟨first, fills', blanks, rest⟩ := fillBlank_total textBuf room
  obtain ⟨blank', fills'', blanks', rest'⟩ := fillBlank_total textBuf' room
  obtain rfl := Option.some.inj (fills'.symm.trans fills)
  refine ⟨started', blank', starts', fills'', alike, rfl, rfl, rfl, rfl, rfl, ?_, ?_⟩
  · intro i _ early
    simp only [DecodeState.start, Nat.add_zero] at early ⊢
    rw [blanks i early, blanks' i early]
  · intro i ring late
    simp only [DecodeState.start, Nat.add_zero] at late ⊢
    rw [rest i late, rest' i late]
    exact left i ring late

theorem decode_same (tree other : HuffmanTree) (textBuf textBuf' : Nat → UInt8) {inbuf : Buffer}
    (sees : ¬ Unwritten inbuf) : decode tree textBuf inbuf = decode other textBuf' inbuf := by
  unfold decode
  rcases header : readHeader { inbuf := inbuf, crc := 0, getbuf := 0, getlen := 0 } with
    ⟨_ | textsize, reader⟩
  · rfl
  · by_cases empty : textsize = 0
    · simp only [if_pos empty]
    · obtain ⟨started, starts, -⟩ := HuffmanTree.startHuff_total tree
      obtain ⟨blank, fills, -⟩ :=
        fillBlank_total textBuf (show ringSize - lookahead ≤ textBufSize by lia)
      obtain ⟨started', blank', starts', fills', twin⟩ :=
        @start_twin (fun _ _ => True) _ _ other _ textBuf' _ (fun _ _ _ => trivial) starts fills
          reader
      rw [unwritten_iff header starts] at sees
      simp only [if_neg empty, starts, starts', fills, fills', Option.bind_eq_bind,
        Option.bind_some]
      refine rel_eq (rel_bind _ (decodeLoop_twin twin sees _) ?_)
      exact fun last last' twin => .some (by rw [twin.outbuf, twin.reader])

theorem decode_differ {tree other : HuffmanTree} {textBuf textBuf' : Nat → UInt8}
    (left : ∀ i < ringSize, ringSize - lookahead ≤ i → textBuf i ≠ textBuf' i) {inbuf : Buffer}
    (sees : Unwritten inbuf) {outbuf outbuf' : Buffer} {reader reader' : BitReader}
    (decodes : decode tree textBuf inbuf = some (some outbuf, reader))
    (decodes' : decode other textBuf' inbuf = some (some outbuf', reader')) :
    Differ outbuf.data outbuf'.data := by
  obtain ⟨textsize, header, first, reads, begins, -⟩ := id sees
  obtain ⟨started, starts, -⟩ := HuffmanTree.startHuff_total tree
  obtain ⟨blank, fills, -⟩ :=
    fillBlank_total textBuf (show ringSize - lookahead ≤ textBufSize by lia)
  obtain ⟨started', blank', starts', fills', twin⟩ :=
    start_twin (· ≠ ·) other left starts fills header
  rw [unwritten_iff reads starts] at sees
  have positive : textsize ≠ 0 := by
    have := sees.split.1
    omega
  simp only [decode, reads, if_neg positive, starts, fills, Option.bind_eq_bind, Option.bind_some,
    Option.bind_eq_some_iff, Option.some.injEq, Prod.mk.injEq] at decodes
  simp only [decode, reads, if_neg positive, starts', fills', Option.bind_eq_bind, Option.bind_some,
    Option.bind_eq_some_iff, Option.some.injEq, Prod.mk.injEq] at decodes'
  obtain ⟨last, loops, rfl, -⟩ := decodes
  obtain ⟨last', loops', rfl, -⟩ := decodes'
  exact decodeLoop_differ twin sees loops loops'

structure InStep (state other : DecodeState) : Prop where
  sane : Sane state
  saneOther : Sane other
  tree : Alike state.tree other.tree
  reader : state.reader = other.reader
  count : state.count = other.count

theorem readToken_alike {tree other : HuffmanTree} (alike : Alike tree other)
    (reader : BitReader) :
    Option.Rel (fun found found' => found.1 = found'.1 ∧ Alike found.2.1 found'.2.1 ∧
        found.2.2 = found'.2.2)
      (readToken (tree, reader)) (readToken (other, reader)) := by
  simp only [readToken, Option.bind_eq_bind]
  refine rel_bind _ (decodeChar_alike alike reader) ?_
  rintro ⟨c, tree, after⟩ ⟨_, other, _⟩ ⟨rfl, alike, rfl⟩
  simp only
  split
  · exact .some ⟨rfl, alike, rfl⟩
  · exact rel_read rfl fun located => .some ⟨rfl, alike, rfl⟩

theorem decodeLoop_inStep {state other : DecodeState} (inStep : InStep state other)
    (textsize fuel : Nat) :
    Option.Rel InStep (iterate (decodeLoop textsize) fuel state)
      (iterate (decodeLoop textsize) fuel other) := by
  refine iterate_rel InStep ?_ fuel inStep
  intro state other inStep
  simp only [decodeLoop, ← inStep.count]
  by_cases more : state.count < textsize
  · obtain ⟨len, next, reads, sane, counts, -, -, token⟩ := token_total inStep.sane
    obtain ⟨len', next', reads', sane', counts', -, -, token'⟩ := token_total inStep.saneOther
    have both := readToken_alike inStep.tree state.reader
    rw [token, inStep.reader, token'] at both
    simp only [if_pos more, reads, reads', Option.bind_eq_bind, Option.bind_some]
    cases both with
    | some same =>
        obtain ⟨lens, alike, readers⟩ := same
        refine .some (.inl ⟨sane, sane', alike, readers, ?_⟩)
        simp only at lens
        rw [counts, counts', inStep.count, lens]
  · simp only [if_neg more]
    exact .some (.inr inStep)

theorem computedCrc_same (tree other : HuffmanTree) (textBuf textBuf' : Nat → UInt8)
    (bytes : Bytes) : computedCrc tree textBuf bytes = computedCrc other textBuf' bytes := by
  have bits := readHeader_bits { inbuf := ⟨bytes, 2⟩, crc := 0, getbuf := 0, getlen := 0 }
  unfold computedCrc decode
  rcases header : readHeader { inbuf := ⟨bytes, 2⟩, crc := 0, getbuf := 0, getlen := 0 } with
    ⟨_ | textsize, reader⟩
  · rfl
  · rw [header] at bits
    by_cases empty : textsize = 0
    · simp only [if_pos empty]
    · obtain ⟨started, starts, kept, -⟩ := HuffmanTree.startHuff_total tree
      obtain ⟨started', starts', kept', -⟩ := HuffmanTree.startHuff_total other
      have room : ringSize - lookahead ≤ textBufSize := by lia
      obtain ⟨blank, fills, -⟩ := fillBlank_total textBuf room
      obtain ⟨blank', fills', -⟩ := fillBlank_total textBuf' room
      obtain ⟨_, same, alike⟩ := rel_some (startHuff_alike tree other) starts
      obtain rfl := Option.some.inj (starts'.symm.trans same)
      have sane : ∀ {started : HuffmanTree} (blank : Nat → UInt8), HuffmanTree.Invariant started →
          Sane (.start started reader blank) := by
        refine fun blank kept => ⟨kept, ?_, show ringSize - lookahead < ringSize by decide, rfl⟩
        exact bits.trans_le (Nat.zero_le 16)
      simp only [if_neg empty, starts, starts', fills, fills', Option.bind_eq_bind,
        Option.bind_some]
      simp only [Option.map_bind, Function.comp_def, Option.map_some]
      refine rel_eq (rel_bind _ (decodeLoop_inStep
        ⟨sane blank kept, sane blank' kept', alike, rfl, rfl⟩ textsize (textsize + 1)) ?_)
      exact fun last last' inStep => .some (congrArg BitReader.crc inStep.reader)

end Results

def DecodesAlike (bytes : Bytes) : Prop :=
  ∀ history history' codec codec', Codec.Left history codec → Codec.Left history' codec' →
    version1Decode codec.tree codec.search.textBuf codec.crc ⟨bytes, 0⟩ =
      version1Decode codec'.tree codec'.search.textBuf codec'.crc ⟨bytes, 0⟩

/-- The message is accepted, and a match in it looks behind what it has written. -/
def PeeksBehind (bytes : Bytes) : Prop :=
  computedCrc Codec.initial.tree Codec.initial.search.textBuf bytes = some (storedCrc bytes) ∧
    Unwritten ⟨bytes, 2⟩

theorem unwritten_long {bytes : Bytes} (sees : Unwritten ⟨bytes, 2⟩) : 6 ≤ bytes.length := by
  obtain ⟨textsize, reader, -, header, -⟩ := sees
  refine Nat.le_of_not_lt fun short => ?_
  rcases bytes with _ | ⟨a, _ | ⟨b, _ | ⟨c, _ | ⟨d, _ | ⟨e, _ | ⟨f, rest⟩⟩⟩⟩⟩⟩ <;>
    first | (simp at short; omega) | cases header

theorem version1Decode_same (codec codec' : Codec) {bytes : Bytes} (hidden : ¬ PeeksBehind bytes) :
    version1Decode codec.tree codec.search.textBuf codec.crc ⟨bytes, 0⟩ =
      version1Decode codec'.tree codec'.search.textBuf codec'.crc ⟨bytes, 0⟩ := by
  by_cases tiny : bytes.length < 2
  · rw [version1Decode_none _ _ _ tiny, version1Decode_none _ _ _ tiny]
  · rw [version1Decode_crc _ _ _ (by omega), version1Decode_crc _ _ _ (by omega)]
    by_cases sees : Unwritten ⟨bytes, 2⟩
    · -- the CRC is wrong, whatever has been copied
      have rejected : ∀ codec : Codec,
          ((decode codec.tree codec.search.textBuf ⟨bytes, 2⟩).bind fun result =>
            if result.2.crc ≠ storedCrc bytes then (bufferFree result.1).bind fun _ => some none
            else some result.1) = some none := by
        intro codec
        obtain ⟨outbuf, reader, decodes⟩ :=
          decode_long codec.tree codec.search.textBuf (unwritten_long sees)
        have computed := computedCrc_same codec.tree Codec.initial.tree codec.search.textBuf
          Codec.initial.search.textBuf bytes
        have wrong : reader.crc ≠ storedCrc bytes := by
          intro right
          refine hidden ⟨?_, sees⟩
          rw [← computed, computedCrc, decodes, ← right]
          rfl
        rw [decodes]
        simp [wrong, bufferFree]
      rw [rejected codec, rejected codec']
    · rw [decode_same codec.tree codec'.tree codec.search.textBuf codec'.search.textBuf sees]

/-- One match of 60 blanks, in the cells that are not blanked. -/
def stuffing : Bytes := [159, 122, 60, 0, 0, 0, 197, 41, 0]

theorem stuffing_left : ∃ codec, Codec.Left [.decode stuffing] codec ∧
    (∀ i < ringSize, ringSize - lookahead ≤ i → codec.search.textBuf i = 32) ∧
      codec.search.textBuf ringSize = 0 := by
  have stuffed : (Codec.initial.call (.decode stuffing)).map (fun codec =>
      ((List.range lookahead).all fun i =>
        codec.search.textBuf (ringSize - lookahead + i) == 32) &&
          codec.search.textBuf ringSize == 0) = some true := by
    decide +kernel
  rw [Option.map_eq_some_iff] at stuffed
  obtain ⟨codec, called, cells⟩ := stuffed
  obtain ⟨blanks, behind⟩ := Bool.and_eq_true_iff.mp cells
  refine ⟨codec, Codec.left_one called, fun i ring late => ?_, eq_of_beq behind⟩
  have blank := List.all_eq_true.mp blanks (i - (ringSize - lookahead))
    (List.mem_range.mpr (by lia))
  rw [Nat.add_sub_cancel' late] at blank
  exact eq_of_beq blank

theorem peeks_depends {bytes : Bytes} (peeks : PeeksBehind bytes) : ¬ DecodesAlike bytes := by
  intro alike
  obtain ⟨right, sees⟩ := peeks
  obtain ⟨codec, left, blanks, -⟩ := stuffing_left
  have same := alike [] [.decode stuffing] Codec.initial codec rfl left
  have long := unwritten_long sees
  rw [version1Decode_crc _ _ _ (by omega), version1Decode_crc _ _ _ (by omega)] at same
  obtain ⟨outbuf, reader, decodes⟩ :=
    decode_long Codec.initial.tree Codec.initial.search.textBuf long
  obtain ⟨outbuf', reader', decodes'⟩ := decode_long codec.tree codec.search.textBuf long
  have differ : DecodeState.Differ outbuf.data outbuf'.data := by
    refine decode_differ (fun i ring late => ?_) sees decodes decodes'
    rw [blanks i ring late]
    exact show (0 : UInt8) ≠ 32 by decide
  have first : reader.crc = storedCrc bytes := by
    rw [computedCrc, decodes] at right
    exact Option.some.inj right
  have second : reader'.crc = storedCrc bytes := by
    rw [computedCrc_same _ codec.tree _ codec.search.textBuf, computedCrc, decodes'] at right
    exact Option.some.inj right
  simp only [decodes, decodes', Option.bind_some, first, second, ne_eq, not_true_eq_false,
    if_false, Option.some.injEq] at same
  exact differ.ne (congrArg Buffer.data same)

/-- Decoding is the same after any history, unless the message peeks. -/
theorem decodes_alike_iff (bytes : Bytes) : DecodesAlike bytes ↔ ¬ PeeksBehind bytes := by
  constructor
  · exact fun alike peeks => peeks_depends peeks alike
  · intro hidden history history' codec codec' _ _
    exact version1Decode_same codec codec' hidden

def peeking : Bytes := [128, 135, 3, 0, 0, 0, 140, 206, 32]

theorem peeking_symbol {started : HuffmanTree}
    (starts : Codec.initial.tree.startHuff = some started) :
    ∃ next, DecodeState.readSymbol
      (started, (readHeader { inbuf := ⟨peeking, 2⟩, crc := 0, getbuf := 0, getlen := 0 }).2) =
        some (.copy 3 1988, next) := by
  have finds : (Codec.initial.tree.startHuff.bind fun started =>
      (started.getSon rootPosition).bind fun top =>
        (iterate (descend started) tableSize (top,
          (readHeader { inbuf := ⟨peeking, 2⟩, crc := 0, getbuf := 0, getlen := 0 }).2)).bind
            fun (c, reader) => (decodePosition reader).map fun (position, _) => (c, position)) =
        some (tableSize + 256, 1988) := by
    decide +kernel
  obtain ⟨_, same, kept, -⟩ := HuffmanTree.startHuff_total Codec.initial.tree
  obtain rfl := Option.some.inj (same.symm.trans starts)
  simp only [starts, Option.bind_some, Option.bind_eq_some_iff, Option.map_eq_some_iff,
    Prod.mk.injEq] at finds
  obtain ⟨top, reads, ⟨_, middle⟩, walks, ⟨_, after⟩, locates, rfl, rfl⟩ := finds
  obtain ⟨next, updates, -⟩ :=
    HuffmanTree.update_total kept (show tableSize + 256 - tableSize < nChar by decide)
  refine ⟨(next, after), ?_⟩
  simp only [DecodeState.readSymbol, decodeChar, reads, walks, updates, Option.bind_eq_bind,
    Option.bind_some]
  rw [if_neg (by decide), locates]
  rfl

/-- What it shows has been left by a message before. -/
theorem earlier_byte : ¬ DecodesAlike peeking := by
  have right : computedCrc Codec.initial.tree Codec.initial.search.textBuf peeking =
      some (storedCrc peeking) := by
    decide +kernel
  obtain ⟨started, starts, -⟩ := HuffmanTree.startHuff_total Codec.initial.tree
  obtain ⟨next, reads⟩ := peeking_symbol starts
  refine peeks_depends ⟨right, 3, _, started, rfl, starts, .now reads (by decide) ?_⟩
  exact ⟨by decide, by decide⟩

end PaclinkUnix
