import PaclinkUnix.CodeReader
import PaclinkUnix.DecodeHistory

/-!
The codes of a token: that of its symbol, and behind a length the two codes of its position.
The reader takes from any stream the token whose codes come first there.
-/

namespace PaclinkUnix

open Memory BitStream HuffmanTree BitReader

def Token.symbol : Token → Nat
  | .literal c => c.toNat
  | .copy length _ => 255 - threshold + length

/-- A literal, or one of the other symbols with a position in the ring. -/
def Token.Codable : Token → Prop
  | .literal _ => True
  | .copy length position => threshold < length ∧ length ≤ lookahead ∧ position < ringSize

/-- What the decoder can read: twelve bits of a position. -/
def Token.Readable : Token → Prop
  | .literal _ => True
  | .copy length position => threshold < length ∧ length ≤ lookahead ∧ position < 4096

def upperWord (position : Nat) : BitVec 32 := BitVec.ofNat 32 (pCode.getD (position >>> 6) 0) <<< 8

def lowerWord (position : Nat) : BitVec 32 := BitVec.ofNat 32 ((position &&& 0x3f) <<< 10)

def upperLength (position : Nat) : Nat := pLen.getD (position >>> 6) 0

/-- The upper six bits by the table, the lower six as they are. -/
def positionCodes (position : Nat) : List (List Bool) :=
  [word (upperLength position) (upperWord position), word 6 (lowerWord position)]

def Token.codes (tree : HuffmanTree) : Token → List (List Bool)
  | .literal c => [tree.codeword c.toNat]
  | .copy length position => tree.codeword (255 - threshold + length) :: positionCodes position

/-- The codes of the tokens, each with the tree the tokens before it have left. -/
def streamCodes (tree : HuffmanTree) : List Token → List (List Bool)
  | [] => []
  | token :: rest => token.codes tree ++ streamCodes ((tree.update token.symbol).getD tree) rest

section Tables

/-- The upper part of a position begins this byte. -/
def Begins (i b : Nat) : Prop :=
  b >>> (8 - pLen.getD i 0) = pCode.getD i 0 >>> (8 - pLen.getD i 0)

instance (i b : Nat) : Decidable (Begins i b) := inferInstanceAs (Decidable (_ = _))

theorem tables_begin : (List.range 256).all (fun b => dCode.getD b 0 < 64 ∧
    pLen.getD (dCode.getD b 0) 0 = dLen.getD b 0 ∧ Begins (dCode.getD b 0) b) = true := by
  decide +kernel

theorem tables_unique : (List.range 64).all (fun i => (List.range 256).all fun b =>
    Begins i b → dCode.getD b 0 = i) = true := by
  decide +kernel

theorem tables_carry : (List.range 64).all (fun i => 3 ≤ pLen.getD i 0 ∧ pLen.getD i 0 ≤ 8 ∧
    pCode.getD i 0 < 256 ∧ (List.range 8).all fun k =>
      (pCode.getD i 0).testBit k → 8 ≤ k + pLen.getD i 0) = true := by
  decide +kernel

theorem begins_code {b : Nat} (byte : b < 256) : dCode.getD b 0 < 64 ∧
    pLen.getD (dCode.getD b 0) 0 = dLen.getD b 0 ∧ Begins (dCode.getD b 0) b := by
  have all := List.all_eq_true.mp tables_begin b (List.mem_range.mpr byte)
  exact of_decide_eq_true all

theorem begins_unique {i b : Nat} (upper : i < 64) (byte : b < 256) (begins : Begins i b) :
    dCode.getD b 0 = i := by
  have all := List.all_eq_true.mp (List.all_eq_true.mp tables_unique i (List.mem_range.mpr upper)) b
    (List.mem_range.mpr byte)
  exact of_decide_eq_true all begins

theorem upper_facts {i : Nat} (upper : i < 64) : 3 ≤ pLen.getD i 0 ∧ pLen.getD i 0 ≤ 8 ∧
    pCode.getD i 0 < 256 ∧ ∀ k < 8, (pCode.getD i 0).testBit k = true → 8 ≤ k + pLen.getD i 0 := by
  obtain ⟨least, most, small, all⟩ :=
    of_decide_eq_true (List.all_eq_true.mp tables_carry i (List.mem_range.mpr upper))
  exact ⟨least, most, small, fun k bound => of_decide_eq_true
    (List.all_eq_true.mp all k (List.mem_range.mpr bound))⟩

theorem begins_iff {i b : Nat} (upper : i < 64) (byte : b < 256) : Begins i b ↔
    ∀ j < pLen.getD i 0, b.testBit (7 - j) = (pCode.getD i 0).testBit (7 - j) := by
  obtain ⟨least, most, small, -⟩ := upper_facts upper
  constructor
  · intro same j inside
    have bit := congrArg (fun n => n.testBit (pLen.getD i 0 - 1 - j)) same
    simp only [Nat.testBit_shiftRight] at bit
    rwa [show 8 - pLen.getD i 0 + (pLen.getD i 0 - 1 - j) = 7 - j by omega] at bit
  · intro same
    apply Nat.eq_of_testBit_eq
    intro k
    rw [Nat.testBit_shiftRight, Nat.testBit_shiftRight]
    by_cases inside : k < pLen.getD i 0
    · have bit := same (pLen.getD i 0 - 1 - k) (by omega)
      rwa [show 7 - (pLen.getD i 0 - 1 - k) = 8 - pLen.getD i 0 + k by omega] at bit
    · have high : 2 ^ 8 ≤ 2 ^ (8 - pLen.getD i 0 + k) :=
        Nat.pow_le_pow_right Nat.two_pos (by omega)
      rw [Nat.testBit_lt_two_pow (show b < _ from byte.trans_le high),
        Nat.testBit_lt_two_pow (small.trans_le high)]

end Tables

section Positions

variable {position : Nat} {f : Nat → Bool}

theorem upperWord_bits (j : Nat) (inside : j < 8) :
    window (upperWord position) j = (pCode.getD (position >>> 6) 0).testBit (7 - j) := by
  rw [upperWord, window_shiftLeft, window, decide_eq_true (show j + 8 < 16 by omega),
    BitVec.getLsbD_ofNat, show 15 - (j + 8) = 7 - j by omega, decide_eq_true (by omega)]
  rfl

theorem lowerWord_bits (j : Nat) : window (lowerWord position) j =
    (decide (j < 6) && position.testBit (5 - j)) := by
  rw [window, lowerWord, BitVec.getLsbD_ofNat, Nat.testBit_shiftLeft,
    Nat.testBit_and, show (0x3f : Nat) = 2 ^ 6 - 1 from rfl, Nat.testBit_two_pow_sub_one]
  by_cases inside : j < 6
  · rw [decide_eq_true inside, decide_eq_true (show j < 16 by omega),
      decide_eq_true (show 15 - j < 32 by omega), decide_eq_true (show 10 ≤ 15 - j by omega),
      show 15 - j - 10 = 5 - j by omega, decide_eq_true (show 5 - j < 6 by omega)]
    simp
  · rw [decide_eq_false inside, decide_eq_false (show ¬ 10 ≤ 15 - j by omega)]
    simp

theorem upperWord_small (k : Nat) (high : 16 ≤ k) (inside : position >>> 6 < 64) :
    (upperWord position).getLsbD k = false := by
  obtain ⟨-, -, small, -⟩ := upper_facts inside
  rw [upperWord, BitVec.getLsbD_shiftLeft, BitVec.getLsbD_ofNat,
    Nat.testBit_lt_two_pow (small.trans_le (show 2 ^ 8 ≤ 2 ^ (k - 8) from
      Nat.pow_le_pow_right Nat.two_pos (by omega)))]
  simp

theorem upper_carries (inside : position >>> 6 < 64) :
    Carries (upperWord position) (word (upperLength position) (upperWord position)) := by
  obtain ⟨least, most, small, clear⟩ := upper_facts inside
  refine ⟨fun k high => upperWord_small k high inside, fun j => ?_⟩
  rw [word_bits]
  by_cases early : j < upperLength position
  · rw [decide_eq_true early, decide_eq_true (show j < 16 by
      have : upperLength position ≤ 8 := most
      omega)]
    rfl
  · rw [decide_eq_false early, Bool.false_and, Bool.and_false]
    by_cases byte : j < 8
    · rw [upperWord_bits j byte]
      by_contra set
      have far := clear (7 - j) (by omega) ((Bool.not_eq_false _).mp set)
      rw [upperLength] at early
      omega
    · rw [upperWord, window_shiftLeft, window_past (by omega)]

theorem lower_carries : Carries (lowerWord position) (word 6 (lowerWord position)) := by
  constructor
  · intro k high
    rw [lowerWord, BitVec.getLsbD_ofNat, Nat.testBit_shiftLeft, Nat.testBit_and,
      show (0x3f : Nat) = 2 ^ 6 - 1 from rfl, Nat.testBit_two_pow_sub_one,
      decide_eq_false (show ¬ k - 10 < 6 by omega)]
    simp
  · intro j
    rw [word_bits, lowerWord_bits]
    by_cases early : j < 6
    · rw [decide_eq_true early, decide_eq_true (show j < 16 by omega)]
      rfl
    · rw [decide_eq_false early]
      simp

/-- The bits of the stream that the byte `b` begins, up to six behind the upper part. -/
theorem lowerBits_ready {reader : BitReader} (n k : Nat) (ready : Ready reader (beyond f n)) :
    ∃ after, forRange k lowerBit (number f n, reader) = some (number f (n + k), after) ∧
      Ready after (beyond f (n + k)) ∧
      ∀ between behind, Counts between behind → ∀ used, between used reader →
        between (used + k) after ∧ (0 < k → behind (used + k) after) := by
  induction k with
  | zero =>
      exact ⟨reader, rfl, ready, fun _ _ _ used before =>
        ⟨before, fun empty => absurd empty (Nat.lt_irrefl 0)⟩⟩
  | succ k ih =>
      obtain ⟨middle, goes, kept, count⟩ := ih
      obtain ⟨after, reads, left⟩ := getBit_ready kept
      rw [beyond_beyond] at left
      refine ⟨after, ?_, left, fun between behind counts used before => ?_⟩
      · rw [forRange_succ, goes]
        simp only [Option.bind_some, lowerBit, reads, Option.bind_eq_bind]
        rw [← Nat.add_assoc, number, Nat.shiftLeft_eq, Nat.pow_one, Nat.mul_comm, beyond,
          Nat.zero_add]
      · have taken := counts.bit (count between behind counts used before).1 reads
        exact ⟨counts.either taken, fun _ => taken⟩

def positionOf (f : Nat → Bool) : Nat :=
  dCode.getD (number f 8) 0 <<< 6 ||| (number f (dLen.getD (number f 8) 0 + 6) &&& 0x3f)

theorem decodePosition_reads_on {reader : BitReader} (ready : Ready reader f) :
    ∃ after, decodePosition reader = some (positionOf f, after) ∧
      Ready after (beyond f (dLen.getD (number f 8) 0 + 6)) ∧
      ∀ between behind, Counts between behind → ∀ used, between used reader →
        behind (used + (dLen.getD (number f 8) 0 + 6)) after := by
  obtain ⟨middle, reads, kept⟩ := getByte_ready ready
  have byte : number f 8 < 256 := number_lt
  obtain ⟨upper, same, -⟩ := begins_code byte
  obtain ⟨least, -⟩ := upper_facts upper
  have code : dCode[number f 8]? = some (dCode.getD (number f 8) 0) := by
    rw [List.getD_eq_getElem?_getD, List.getElem?_eq_getElem (dCode_length.symm ▸ byte)]
    rfl
  have len : dLen[number f 8]? = some (dLen.getD (number f 8) 0) := by
    rw [List.getD_eq_getElem?_getD, List.getElem?_eq_getElem (dLen_length.symm ▸ byte)]
    rfl
  obtain ⟨after, lower, left, count⟩ := lowerBits_ready 8 (dLen.getD (number f 8) 0 - 2) kept
  have width : 8 + (dLen.getD (number f 8) 0 - 2) = dLen.getD (number f 8) 0 + 6 := by omega
  rw [width] at lower left
  refine ⟨after, ?_, left, fun between behind counts used before => ?_⟩
  · simp only [decodePosition, reads, code, len, lower, Option.bind_eq_bind, Option.bind_some]
    rfl
  · have all := (count between behind counts (used + 8) (counts.byte before reads)).2 (by omega)
    rw [Nat.add_assoc, width] at all
    exact all

theorem starts_position : Starts f (positionCodes position).flatten ↔
    (∀ j < upperLength position, f j = window (upperWord position) j) ∧
      ∀ j < 6, f (upperLength position + j) = position.testBit (5 - j) := by
  rw [positionCodes, List.flatten_cons, List.flatten_cons, List.flatten_nil, List.append_nil,
    starts_append, starts_word, starts_word, word_length]
  refine and_congr_right fun _ => forall₂_congr fun j inside => ?_
  rw [lowerWord_bits, decide_eq_true inside, Bool.true_and, beyond, Nat.add_comm j]

theorem join_testBit (upper lower k : Nat) : (upper <<< 6 ||| (lower &&& 0x3f)).testBit k =
    if k < 6 then lower.testBit k else upper.testBit (k - 6) := by
  rw [Nat.testBit_or, Nat.testBit_shiftLeft, Nat.testBit_and,
    show (0x3f : Nat) = 2 ^ 6 - 1 from rfl, Nat.testBit_two_pow_sub_one]
  by_cases inside : k < 6
  · rw [if_pos inside, decide_eq_true inside, decide_eq_false (show ¬ 6 ≤ k by omega)]
    simp
  · rw [if_neg inside, decide_eq_false inside, decide_eq_true (show 6 ≤ k by omega)]
    simp

theorem positionOf_upper : positionOf f >>> 6 = dCode.getD (number f 8) 0 := by
  apply Nat.eq_of_testBit_eq
  intro k
  rw [Nat.testBit_shiftRight, positionOf, join_testBit, if_neg (by omega), Nat.add_sub_cancel_left]

theorem positionOf_lt : positionOf f < 4096 := by
  have byte : number f 8 < 256 := number_lt
  obtain ⟨upper, -, -⟩ := begins_code byte
  have high := @positionOf_upper f
  rw [Nat.shiftRight_eq_div_pow] at high
  omega

theorem positionOf_starts : Starts f (positionCodes (positionOf f)).flatten := by
  have byte : number f 8 < 256 := number_lt
  obtain ⟨upper, same, begins⟩ := begins_code byte
  obtain ⟨least, most, -⟩ := upper_facts upper
  have bits := (begins_iff upper byte).mp begins
  rw [starts_position, upperLength, positionOf_upper]
  constructor
  · intro j inside
    rw [upperWord_bits j (by omega), positionOf_upper, ← bits j inside, number_testBit,
      decide_eq_true (show 7 - j < 8 by omega), Bool.true_and,
      show 8 - 1 - (7 - j) = j by omega]
  · intro j inside
    rw [positionOf, join_testBit, if_pos (by omega), number_testBit, decide_eq_true (by omega),
      Bool.true_and, same]
    congr 1
    omega

theorem position_unique (small : position < 4096) (starts : Starts f (positionCodes position).flatten) :
    position = positionOf f := by
  have byte : number f 8 < 256 := number_lt
  have upper : position >>> 6 < 64 := by
    rw [Nat.shiftRight_eq_div_pow]
    omega
  obtain ⟨early, late⟩ := starts_position.mp starts
  obtain ⟨least, most, -⟩ := upper_facts upper
  have code : dCode.getD (number f 8) 0 = position >>> 6 := by
    refine begins_unique upper byte ((begins_iff upper byte).mpr fun j inside => ?_)
    rw [← upperWord_bits j (by omega), ← early j inside, number_testBit,
      decide_eq_true (show 7 - j < 8 by omega), Bool.true_and, show 8 - 1 - (7 - j) = j by omega]
  obtain ⟨-, same, -⟩ := begins_code byte
  rw [code] at same
  apply Nat.eq_of_testBit_eq
  intro k
  rw [positionOf, join_testBit, code]
  by_cases inside : k < 6
  · have bit := late (5 - k) (by omega)
    rw [upperLength, same, show 5 - (5 - k) = k by omega] at bit
    rw [if_pos inside, number_testBit, decide_eq_true (by omega), Bool.true_and, ← bit]
    congr 1
    omega
  · rw [if_neg inside, Nat.testBit_shiftRight, Nat.add_sub_cancel' (by omega)]

end Positions

section Tokens

variable {tree : HuffmanTree} {reader : BitReader} {f : Nat → Bool} {token other : Token}

theorem Token.Codable.readable (codable : token.Codable) : token.Readable := by
  cases token with
  | literal c => trivial
  | copy length position =>
      obtain ⟨least, most, inside⟩ := codable
      exact ⟨least, most, inside.trans (by decide)⟩

theorem Token.Readable.symbol (readable : token.Readable) : token.symbol < nChar := by
  cases token with
  | literal c =>
      have small := c.toNat_lt
      change c.toNat < nChar
      lia
  | copy length position =>
      obtain ⟨-, most, -⟩ := readable
      change 255 - threshold + length < nChar
      lia

theorem Token.Codable.symbol (codable : token.Codable) : token.symbol < nChar :=
  codable.readable.symbol

theorem starts_codes : Starts f (token.codes tree).flatten ↔
    Starts f (tree.codeword token.symbol) ∧ ∀ length position, token = .copy length position →
      Starts (beyond f (tree.codeword token.symbol).length) (positionCodes position).flatten := by
  cases token with
  | literal c =>
      rw [Token.codes, List.flatten_cons, List.flatten_nil, List.append_nil]
      exact ⟨fun starts => ⟨starts, fun _ _ same => by cases same⟩, fun both => both.1⟩
  | copy length position =>
      rw [Token.codes, List.flatten_cons, starts_append]
      refine and_congr_right fun _ => ⟨fun starts _ _ same => ?_, fun all => all _ _ rfl⟩
      cases same
      exact starts

theorem codes_unique (linked : Linked tree) (one : token.Readable) (two : other.Readable)
    (first : Starts f (token.codes tree).flatten) (second : Starts f (other.codes tree).flatten) :
    token = other := by
  obtain ⟨start, behind⟩ := starts_codes.mp first
  obtain ⟨start', behind'⟩ := starts_codes.mp second
  have same := codeword_unique linked one.symbol two.symbol start start'
  cases token with
  | literal c =>
      have small := c.toNat_lt
      cases other with
      | literal d => exact congrArg _ (UInt8.toNat_inj.mp same)
      | copy length position =>
          change c.toNat = 255 - threshold + length at same
          have least := two.1
          lia
  | copy length position =>
      have least := one.1
      cases other with
      | literal d =>
          have small := d.toNat_lt
          change 255 - threshold + length = d.toNat at same
          lia
      | copy length' position' =>
          have place := position_unique one.2.2 (behind length position rfl)
          have place' := position_unique two.2.2 (behind' length' position' rfl)
          rw [← same] at place'
          change 255 - threshold + length = 255 - threshold + length' at same
          rw [place, place', show length = length' by omega]

theorem readSymbol_ready (invariant : Invariant tree) (ready : Ready reader f) :
    ∃ token next after, DecodeState.readSymbol (tree, reader) = some (token, next, after) ∧
      token.Readable ∧ tree.update token.symbol = some next ∧ Invariant next ∧
      Starts f (token.codes tree).flatten ∧
      Ready after (beyond f (token.codes tree).flatten.length) ∧
      ∀ between behind, Counts between behind → ∀ used, between used reader →
        behind (used + (token.codes tree).flatten.length) after := by
  obtain ⟨c, next, middle, reads, symbol, updates, kept, starts, left, count⟩ :=
    decodeChar_ready invariant ready
  by_cases literal : c < 256
  · have value : (UInt8.ofNat c).toNat = c := Nat.mod_eq_of_lt literal
    refine ⟨.literal (UInt8.ofNat c), next, middle, ?_, ?_, ?_, kept, ?_, ?_, ?_⟩
    · simp only [DecodeState.readSymbol, reads, if_pos literal, Option.bind_eq_bind,
        Option.bind_some]
    · trivial
    · rw [Token.symbol, value]
      exact updates
    · rw [starts_codes, Token.symbol, value]
      exact ⟨starts, fun _ _ same => by cases same⟩
    · rw [Token.codes, List.flatten_cons, List.flatten_nil, List.append_nil, value]
      exact left
    · rw [Token.codes, List.flatten_cons, List.flatten_nil, List.append_nil, value]
      exact count
  · obtain ⟨after, located, last, further⟩ := decodePosition_reads_on left
    have value : 255 - threshold + (c - 255 + threshold) = c := by lia
    have width : (positionCodes (positionOf (beyond f (tree.codeword c).length))).flatten.length =
        dLen.getD (number (beyond f (tree.codeword c).length) 8) 0 + 6 := by
      obtain ⟨-, same, -⟩ := begins_code (number_lt : number (beyond f (tree.codeword c).length) 8 < _)
      rw [positionCodes, List.flatten_cons, List.flatten_cons, List.flatten_nil, List.append_nil,
        List.length_append, word_length, word_length, upperLength, positionOf_upper, same]
    refine ⟨.copy (c - 255 + threshold) (positionOf (beyond f (tree.codeword c).length)), next, after,
      ?_, ?_, ?_, kept, ?_, ?_, ?_⟩
    · simp only [DecodeState.readSymbol, reads, if_neg literal, located, Option.bind_eq_bind,
        Option.bind_some]
    · exact ⟨by lia, by lia, positionOf_lt⟩
    · rw [Token.symbol, value]
      exact updates
    · rw [starts_codes, Token.symbol, value]
      refine ⟨starts, fun _ _ same => ?_⟩
      cases same
      exact positionOf_starts
    · rw [Token.codes, List.flatten_cons, List.length_append, value, width, ← beyond_beyond]
      exact last
    · intro between behind counts used before
      have taken := counts.either (count between behind counts used before)
      rw [Token.codes, List.flatten_cons, List.length_append, value, width, ← Nat.add_assoc]
      exact further between behind counts _ taken

/-- Reading so many tokens gives these tokens exactly if their codes come first. -/
theorem readSymbols_iff (invariant : Invariant tree) (ready : Ready reader f) {tokens : List Token}
    (codable : ∀ token ∈ tokens, token.Codable) :
    readSymbols tokens.length (tree, reader) = some tokens ↔
      Starts f (streamCodes tree tokens).flatten := by
  induction tokens generalizing tree reader f with
  | nil => exact iff_of_true rfl starts_nil
  | cons token rest ih =>
      obtain ⟨found, next, after, reads, readable, updates, kept, starts, left, -⟩ :=
        readSymbol_ready invariant ready
      rw [List.length_cons, readSymbols, reads, streamCodes, List.flatten_append, starts_append]
      simp only [Option.bind_eq_bind, Option.bind_some]
      by_cases same : token = found
      · subst same
        have later := ih kept left fun other listed => codable other (List.mem_cons_of_mem _ listed)
        rw [updates, Option.getD_some, ← later]
        constructor
        · intro all
          obtain ⟨others, goes, same⟩ := Option.bind_eq_some_iff.mp all
          obtain ⟨-, rfl⟩ := List.cons.inj (Option.some.inj same)
          exact ⟨starts, goes⟩
        · rintro ⟨-, goes⟩
          rw [goes]
          rfl
      · constructor
        · intro all
          obtain ⟨others, -, wrong⟩ := Option.bind_eq_some_iff.mp all
          exact absurd (List.cons.inj (Option.some.inj wrong)).1.symm same
        · rintro ⟨first, -⟩
          exact absurd (codes_unique invariant.linked (codable token (List.mem_cons_self)).readable
            readable first starts) same

end Tokens

end PaclinkUnix
