import PaclinkUnix.CodeWriter
import PaclinkUnix.HuffmanRebuild
import Mathlib.Data.Nat.Fib.Basic

/-!
The code of a symbol is the way from the root to its leaf. How long it can be, and that
`EncodeChar` writes it.
-/

namespace PaclinkUnix

open Memory BitStream

namespace HuffmanTree

/-- From a node up to the root, in front of the bits below that node. -/
def path (tree : HuffmanTree) : Nat → Nat → List Bool → List Bool
  | 0, _, bits => bits
  | fuel + 1, k, bits =>
      if k = rootPosition then bits
      else tree.path fuel (tree.prnt k) (decide (k % 2 = 1) :: bits)

def codeword (tree : HuffmanTree) (c : Nat) : List Bool :=
  tree.path tableSize (tree.prnt (c + tableSize)) []

/-- Down from a node, to the second son where the bit is set. -/
inductive Leads (tree : HuffmanTree) : Nat → List Bool → Nat → Prop where
  | here (k : Nat) : Leads tree k [] k
  | down {k l : Nat} {bits : List Bool} (bit : Bool) (node : tree.son k < tableSize)
      (rest : Leads tree (tree.son k + bit.toNat) bits l) : Leads tree k (bit :: bits) l

section Ways

variable {tree : HuffmanTree} {k l m : Nat} {bits more : List Bool}

theorem Leads.trans (first : Leads tree k bits l) (rest : Leads tree l more m) :
    Leads tree k (bits ++ more) m := by
  induction first with
  | here k => exact rest
  | down bit node _ ih => exact .down bit node (ih rest)

theorem Leads.nil (leads : Leads tree k [] l) : l = k := by
  cases leads
  rfl

theorem Linked.sons (linked : Linked tree) (inside : k < tableSize) (node : tree.son k < tableSize) :
    tree.son k + 1 < k ∧ tree.son k % 2 = 0 ∧ tree.prnt (tree.son k) = k ∧
      tree.prnt (tree.son k + 1) = k := by
  rcases linked.kind k inside with leaf | inner
  · lia
  · exact inner

theorem Linked.down (linked : Linked tree) (inside : k < rootPosition) :
    Leads tree (tree.prnt k) [decide (k % 2 = 1)] k := by
  obtain ⟨-, -, son⟩ := linked.parent k inside
  refine .down _ (by lia) ?_
  rw [son]
  by_cases odd : k % 2 = 1
  · rw [decide_eq_true odd, Bool.toNat_true, odd, Nat.sub_add_cancel (by omega)]
    exact .here k
  · rw [decide_eq_false odd, Bool.toNat_false, Nat.mod_two_ne_one.mp odd]
    exact .here k

theorem Linked.leaf_inside (linked : Linked tree) {c : Nat} (symbol : c < nChar) :
    tree.prnt (c + tableSize) < rootPosition := by
  obtain ⟨inside, son⟩ := linked.leaf c symbol
  have top := linked.parent (rootPosition - 1) (by lia)
  by_contra atRoot
  have root : tree.prnt (c + tableSize) = rootPosition := by lia
  have last : tree.prnt (rootPosition - 1) = rootPosition := by lia
  rw [root] at son
  rw [last, son] at top
  lia

theorem path_leads (linked : Linked tree) {fuel : Nat} (inside : k ≤ rootPosition)
    (enough : rootPosition ≤ k + fuel) (below : Leads tree k bits l) :
    Leads tree rootPosition (tree.path fuel k bits) l := by
  induction fuel generalizing k bits with
  | zero =>
      obtain rfl : k = rootPosition := by lia
      exact below
  | succ fuel ih =>
      rw [path]
      by_cases atRoot : k = rootPosition
      · rw [if_pos atRoot]
        exact atRoot ▸ below
      · rw [if_neg atRoot]
        have parent := linked.parent k (by lia)
        exact ih parent.2.1 (by lia) ((linked.down (by lia)).trans below)

theorem codeword_leads (linked : Linked tree) {c : Nat} (symbol : c < nChar) :
    Leads tree rootPosition (tree.codeword c) (tree.prnt (c + tableSize)) :=
  path_leads linked (Nat.le_of_lt (linked.leaf_inside symbol)) (by lia) (.here _)

@[simp] theorem path_top (fuel : Nat) : tree.path fuel rootPosition bits = bits := by
  cases fuel with
  | zero => rfl
  | succ fuel => exact if_pos rfl

/-- The way up from the end of a way down comes to its start. -/
theorem Leads.climb (linked : Linked tree) (leads : Leads tree k bits l) (inside : k ≤ rootPosition)
    {fuel : Nat} (enough : rootPosition ≤ l + fuel) (more : List Bool) :
    ∃ left, rootPosition ≤ k + left ∧ tree.path fuel l more = tree.path left k (bits ++ more) := by
  induction leads with
  | here k => exact ⟨fuel, enough, rfl⟩
  | @down k l bits bit node _ ih =>
      obtain ⟨below, even, first, second⟩ := linked.sons (by lia) node
      have small := Bool.toNat_le bit
      obtain ⟨left, room, same⟩ := ih (by lia) enough
      obtain ⟨left, rfl⟩ : ∃ fewer, left = fewer + 1 := ⟨left - 1, by lia⟩
      have parent : tree.prnt (tree.son k + bit.toNat) = k := by
        cases bit with
        | false => exact first
        | true => exact second
      have odd : decide ((tree.son k + bit.toNat) % 2 = 1) = bit := by
        cases bit with
        | false => exact decide_eq_false (by rw [Bool.toNat_false]; omega)
        | true => exact decide_eq_true (by rw [Bool.toNat_true]; omega)
      rw [path, if_neg (by lia), parent, odd] at same
      exact ⟨left, by lia, same⟩

/-- The code of a symbol is the only way from the root to its leaf. -/
theorem Leads.codeword (linked : Linked tree) {c : Nat}
    (leads : Leads tree rootPosition bits (tree.prnt (c + tableSize))) : tree.codeword c = bits := by
  obtain ⟨left, -, same⟩ := leads.climb linked (Nat.le_refl _)
    (show rootPosition ≤ tree.prnt (c + tableSize) + tableSize by lia) []
  rw [HuffmanTree.codeword, same, path_top, List.append_nil]

theorem Linked.follow (linked : Linked tree) (inside : k < tableSize) (f : Nat → Bool) :
    ∃ bits l, Leads tree k bits l ∧ Starts f bits ∧ l < tableSize ∧ tableSize ≤ tree.son l := by
  induction k using Nat.strong_induction_on generalizing f with
  | _ k ih =>
      by_cases node : tree.son k < tableSize
      · obtain ⟨below, -, -, -⟩ := linked.sons inside node
        have small := Bool.toNat_le (f 0)
        obtain ⟨bits, l, leads, starts, ends⟩ :=
          ih (tree.son k + (f 0).toNat) (by omega) (by lia) (beyond f 1)
        refine ⟨f 0 :: bits, l, .down _ node leads, ?_, ends⟩
        refine (starts_append : Starts f ([f 0] ++ bits) ↔ _).mpr ⟨?_, starts⟩
        intro j first
        obtain rfl : j = 0 := Nat.lt_one_iff.mp first
        rfl
      · exact ⟨[], k, .here k, starts_nil, inside, by omega⟩

theorem Leads.unique {f : Nat → Bool} (first : Leads tree k bits l) (second : Leads tree k more m)
    (starts : Starts f bits) (also : Starts f more) (one : tableSize ≤ tree.son l)
    (two : tableSize ≤ tree.son m) : bits = more ∧ l = m := by
  induction first generalizing more f with
  | here k =>
      cases second with
      | here => exact ⟨rfl, rfl⟩
      | down bit node _ => lia
  | @down k l bits bit node _ ih =>
      cases second with
      | here => lia
      | @down _ _ later other _ rest =>
          have here : bit = other := (starts 0 (by simp)).symm.trans (also 0 (by simp))
          subst here
          obtain ⟨same, ends⟩ := ih rest (starts_append.mp (show Starts f ([bit] ++ bits) from starts)).2
            (starts_append.mp (show Starts f ([bit] ++ later) from also)).2 one
          exact ⟨congrArg _ same, ends⟩

theorem codeword_unique (linked : Linked tree) {f : Nat → Bool} {c d : Nat} (first : c < nChar)
    (second : d < nChar) (starts : Starts f (tree.codeword c)) (also : Starts f (tree.codeword d)) :
    c = d := by
  have one := linked.leaf c first
  have two := linked.leaf d second
  obtain ⟨-, same⟩ := (codeword_leads linked first).unique (codeword_leads linked second) starts also
    (by lia) (by lia)
  rw [same, two.2] at one
  omega

end Ways

section Length

variable {tree : HuffmanTree} {k : Nat}

/-- At least as heavy as a node this far above a leaf must be, and so is its parent. -/
structure Ladder (tree : HuffmanTree) (k n : Nat) : Prop where
  here : Nat.fib (n + 2) ≤ tree.freq k
  above : k < rootPosition → Nat.fib (n + 3) ≤ tree.freq (tree.prnt k)

theorem Invariant.pair (invariant : Invariant tree) (inside : k < rootPosition) :
    tree.freq (tree.prnt k) = tree.freq (k - k % 2) + tree.freq (k - k % 2 + 1) := by
  obtain ⟨up, top, son⟩ := invariant.linked.parent k inside
  have sum := invariant.weighted.sums (tree.prnt k) (by lia) (by lia)
  rwa [if_neg (by lia), Nat.add_zero, son] at sum

/-- A node together with its parent is no heavier than the parent's parent. -/
theorem Invariant.uncle (invariant : Invariant tree) (inside : k < rootPosition)
    (more : tree.prnt k < rootPosition) :
    tree.freq (tree.prnt k) + tree.freq k ≤ tree.freq (tree.prnt (tree.prnt k)) := by
  obtain ⟨up, top, son⟩ := invariant.linked.parent k inside
  have later := invariant.linked.parent (tree.prnt k) more
  have sum := invariant.pair more
  -- the parent's brother stands behind the node
  have apart : k ≠ tree.prnt k - tree.prnt k % 2 := by
    intro same
    have brother := invariant.linked.child_parent (i := tree.prnt (tree.prnt k)) (x := k) (by lia)
      (.inl (by rw [later.2.2]; exact same))
    omega
  by_cases odd : tree.prnt k % 2 = 1
  · have order := invariant.weighted.monotone (show k ≤ tree.prnt k - tree.prnt k % 2 by omega) (by lia)
    rw [odd, Nat.sub_add_cancel (by omega)] at sum
    rw [odd] at order
    omega
  · rw [Nat.mod_two_ne_one.mp odd, Nat.sub_zero] at sum
    have order := invariant.weighted.monotone (show k ≤ tree.prnt k + 1 by omega) (by lia)
    omega

theorem Ladder.up (ladder : Ladder tree k n) (invariant : Invariant tree)
    (inside : k < rootPosition) : Ladder tree (tree.prnt k) (n + 1) := by
  refine ⟨ladder.above inside, fun more => ?_⟩
  have sum := invariant.uncle inside more
  have here := ladder.here
  have above := ladder.above inside
  have step : Nat.fib (n + 1 + 3) = Nat.fib (n + 2) + Nat.fib (n + 3) := Nat.fib_add_two
  omega

theorem path_length (invariant : Invariant tree) {fuel : Nat} (bits : List Bool)
    (inside : k ≤ rootPosition) (enough : rootPosition ≤ k + fuel)
    (ladder : Ladder tree k bits.length) :
    Nat.fib ((tree.path fuel k bits).length + 2) ≤ tree.freq rootPosition := by
  induction fuel generalizing k bits with
  | zero =>
      obtain rfl : k = rootPosition := by lia
      exact ladder.here
  | succ fuel ih =>
      rw [path]
      by_cases atRoot : k = rootPosition
      · rw [if_pos atRoot]
        exact atRoot ▸ ladder.here
      · rw [if_neg atRoot]
        have parent := invariant.linked.parent k (by lia)
        exact ih _ parent.2.1 (by lia) (ladder.up invariant (by lia))

/-- A code of `n + 1` bits takes a root that counts `fib (n + 3)` at least. -/
theorem codeword_short (invariant : Invariant tree) {c n : Nat} (symbol : c < nChar)
    (light : tree.freq rootPosition < Nat.fib (n + 3)) : (tree.codeword c).length ≤ n := by
  have inside := invariant.linked.leaf_inside symbol
  have positive := fun {i} => @Weighted.pos tree _ invariant.weighted i
  have ladder : Ladder tree (tree.prnt (c + tableSize)) 0 := by
    refine ⟨positive (by lia), fun node => ?_⟩
    have sum := invariant.pair node
    have first := positive (show tree.prnt (c + tableSize) - tree.prnt (c + tableSize) % 2 ≤
      rootPosition by lia)
    have second := positive (show tree.prnt (c + tableSize) - tree.prnt (c + tableSize) % 2 + 1 ≤
      rootPosition by lia)
    change 2 ≤ _
    omega
  have fits := path_length invariant [] (show tree.prnt (c + tableSize) ≤ rootPosition by lia)
    (show rootPosition ≤ tree.prnt (c + tableSize) + tableSize by lia) ladder
  by_contra long
  have grows : Nat.fib (n + 3) ≤ Nat.fib ((tree.codeword c).length + 2) := Nat.fib_mono (by omega)
  rw [codeword] at grows
  omega

/-- No code is longer than 21 bits, as the root counts no more than 0x8000. -/
theorem codeword_length (invariant : Invariant tree) {c : Nat} (symbol : c < nChar) :
    (tree.codeword c).length ≤ 21 := by
  have bounded := invariant.weighted.bounded
  rw [if_neg (Nat.lt_irrefl _), Nat.add_zero] at bounded
  have large : maxFreq < Nat.fib (21 + 3) := by decide
  exact codeword_short invariant symbol (by omega)

theorem codeword_pos (linked : Linked tree) {c : Nat} (symbol : c < nChar) :
    0 < (tree.codeword c).length := by
  have leads := codeword_leads linked symbol
  have inside := linked.leaf_inside symbol
  cases code : tree.codeword c with
  | nil =>
      rw [code] at leads
      have root : tree.prnt (c + tableSize) = rootPosition := leads.nil
      omega
  | cons bit bits => simp

end Length

end HuffmanTree

section Climb

variable {tree : HuffmanTree} {k : Nat} {i : BitVec 32} {code : List Bool}

theorem Carries.push (carries : Carries i code) (bit : Bool) :
    Carries (if bit then i >>> 1 + 0x8000 else i >>> 1) (bit :: code) := by
  have shifted : Carries (i >>> 1) (false :: code) := by
    constructor
    · intro k high
      rw [BitVec.getLsbD_ushiftRight]
      exact carries.small _ (by omega)
    · intro j
      rw [window_shiftRight carries.small, carries.same]
      cases j with
      | zero => rfl
      | succ j =>
          rw [if_neg (by omega), Nat.add_sub_cancel, List.getD_cons_succ]
          by_cases inside : j + 1 < 16
          · rw [decide_eq_true inside, decide_eq_true (show j < 16 by omega)]
            rfl
          · rw [decide_eq_false inside]
            rfl
  cases bit with
  | false => exact shifted
  | true =>
      have top : ∀ k, (0x8000 : BitVec 32).getLsbD k = decide (k = 15) := fun k => by
        rw [show (0x8000 : BitVec 32) = BitVec.twoPow 32 15 from rfl, BitVec.getLsbD_twoPow]
        by_cases last : k = 15
        · simp [last]
        · simp [last, Ne.symm last]
      have apart : i >>> 1 &&& 0x8000 = 0 := by
        apply BitVec.eq_of_getLsbD_eq
        intro k inside
        rw [BitVec.getLsbD_and, top, BitVec.getLsbD_ushiftRight]
        by_cases last : k = 15
        · rw [carries.small (1 + k) (by omega)]
          simp
        · simp [last]
      simp only [if_true]
      rw [BitVec.add_eq_or_of_and_eq_zero _ _ apart]
      constructor
      · intro k high
        rw [BitVec.getLsbD_or, shifted.small k high, top]
        simp
        omega
      · intro j
        rw [window_or, shifted.same]
        cases j with
        | zero => rfl
        | succ j =>
            have later : window 0x8000 (j + 1) = false := by
              rw [window, top]
              by_cases inside : j + 1 < 16
              · rw [decide_eq_false (show ¬ 15 - (j + 1) = 15 by omega), Bool.and_false]
              · rw [decide_eq_false inside, Bool.false_and]
            rw [later, Bool.or_false]
            rfl

theorem carries_nil : Carries 0 [] :=
  ⟨fun k high => BitVec.getLsbD_zero, fun j => by simp [window]⟩

open HuffmanTree

/-- One step up: the node is below the root, so it is not its own parent. -/
theorem climbStep_some (linked : Linked tree) (inside : k < rootPosition) (j : Nat) :
    climbStep tree (k, i, j) = some
      (let i := if decide (k % 2 = 1) then i >>> 1 + 0x8000 else i >>> 1
      if tree.prnt k ≠ rootPosition then .inl (tree.prnt k, i, j + 1)
      else .inr (some (i, j + 1))) := by
  have up := (linked.parent k inside).1
  have read : tree.getPrnt k = some (tree.prnt k) := getPrnt_some (by lia)
  simp only [climbStep, read, Option.bind_eq_bind, Option.bind_some,
    if_neg (show ¬ (k = tree.prnt k ∧ k ≠ rootPosition) by omega), decide_eq_true_eq]
  split <;> rfl

/-- On the way up the word holds the code of the way so far. -/
structure Climbing (tree : HuffmanTree) (c left : Nat) (state : Nat × BitVec 32 × Nat) : Prop where
  inside : state.1 < rootPosition
  enough : rootPosition ≤ state.1 + left
  code : ∃ code, state.2.2 = code.length ∧ Carries state.2.1 code ∧
    tree.path (left + 1) state.1 code = tree.codeword c

theorem climb_total (linked : Linked tree) {c : Nat} (symbol : c < nChar) :
    ∃ i, iterate (climbStep tree) tableSize (tree.prnt (c + tableSize), 0, 0) =
      some (some (i, (tree.codeword c).length)) ∧ Carries i (tree.codeword c) := by
  have loop : ∃ result, iterate (climbStep tree) tableSize (tree.prnt (c + tableSize), 0, 0) =
      some result ∧ ∃ i, result = some (i, (tree.codeword c).length) ∧ Carries i (tree.codeword c) := by
    refine iterate_total (Climbing tree c) ?_ rootPosition (by lia)
      ⟨linked.leaf_inside symbol, by lia, [], rfl, carries_nil, rfl⟩
    rintro left ⟨k, i, j⟩ ⟨inside, enough, code, count, carries, same⟩
    change k < rootPosition at inside
    change rootPosition ≤ k + left at enough
    change j = code.length at count
    change Carries i code at carries
    have longer := carries.push (decide (k % 2 = 1))
    rw [path, if_neg (show ¬ k = rootPosition by omega)] at same
    rw [climbStep_some linked inside]
    by_cases last : tree.prnt k = rootPosition
    · rw [last, path_top] at same
      simp only [last, ne_eq, not_true_eq_false, if_false]
      exact .inr ⟨_, rfl, _, by rw [count, ← same]; rfl, same ▸ longer⟩
    · have up := linked.parent k inside
      simp only [ne_eq, last, not_false_eq_true, if_true]
      refine .inl ⟨_, rfl, left - 1, by omega, by simp only; lia, by simp only; omega,
        decide (k % 2 = 1) :: code, by rw [count]; rfl, longer, ?_⟩
      rw [Nat.sub_add_cancel (by omega)]
      exact same
  obtain ⟨_, climbs, i, rfl, carries⟩ := loop
  exact ⟨i, climbs, carries⟩

variable {coder : EntropyCoder} {sent : List Bool} {c : Nat}

open BitWriter

theorem encodeChar_some (invariant : Invariant coder.tree) (symbol : c < nChar) :
    ∃ i tree, Carries i (coder.tree.codeword c) ∧ coder.tree.update c = some tree ∧
      Invariant tree ∧ coder.encodeChar c =
        (coder.writer.putcode (coder.tree.codeword c).length i).map
          fun writer => some ⟨tree, writer⟩ := by
  obtain ⟨i, climbs, carries⟩ := climb_total invariant.linked symbol
  obtain ⟨tree, updates, kept⟩ := update_total invariant symbol
  have read : coder.tree.getPrnt (c + tableSize) = some (coder.tree.prnt (c + tableSize)) :=
    getPrnt_some (by lia)
  refine ⟨i, tree, carries, updates, kept, ?_⟩
  simp only [EntropyCoder.encodeChar, read, climbs, updates, Option.bind_eq_bind, Option.bind_some]
  cases coder.writer.putcode (coder.tree.codeword c).length i <;> rfl

end Climb

end PaclinkUnix
