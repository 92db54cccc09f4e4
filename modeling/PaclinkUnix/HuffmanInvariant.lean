import PaclinkUnix.HuffmanTree
import Mathlib.Algebra.BigOperators.Group.Finset.Basic
import Mathlib.Algebra.Order.BigOperators.Group.Finset
import Mathlib.Data.Finset.Card

/-!
The invariant of the adaptive Huffman tree, and that `StartHuff`, `update` and `reconst`
establish and keep it: they never leave a table and always end.
-/

namespace PaclinkUnix

open Memory

namespace HuffmanTree

/-- `son` and `prnt` are inverse, and sons stand before their parents. -/
structure Linked (tree : HuffmanTree) : Prop where
  leaf : ∀ c < nChar, tree.prnt (c + tableSize) < tableSize ∧
    tree.son (tree.prnt (c + tableSize)) = c + tableSize
  kind : ∀ i < tableSize,
    (tableSize ≤ tree.son i ∧ tree.son i < tableSize + nChar ∧ tree.prnt (tree.son i) = i) ∨
    (tree.son i + 1 < i ∧ tree.son i % 2 = 0 ∧ tree.prnt (tree.son i) = i ∧
      tree.prnt (tree.son i + 1) = i)
  parent : ∀ i < rootPosition, i < tree.prnt i ∧ tree.prnt i ≤ rootPosition ∧
    tree.son (tree.prnt i) = i - i % 2
  top : tree.prnt rootPosition = 0

/-- The frequencies are in order and add up, but the node at `owing` misses one. -/
structure Weighted (tree : HuffmanTree) (owing : Nat) : Prop where
  positive : 0 < tree.freq 0
  sorted : ∀ i < rootPosition, tree.freq i ≤ tree.freq (i + 1)
  sums : ∀ i < tableSize, tree.son i < tableSize →
    tree.freq i + (if i = owing then 1 else 0) = tree.freq (tree.son i) + tree.freq (tree.son i + 1)
  bounded : tree.freq rootPosition + (if owing < tableSize then 1 else 0) ≤ maxFreq
  sentinel : tree.freq tableSize = sentinel

/-- The invariant between calls: nothing is missing. -/
structure Invariant (tree : HuffmanTree) : Prop where
  linked : Linked tree
  weighted : Weighted tree tableSize

/-- How often each symbol counts, with the count the node at `owing` misses. -/
def Counts (tree : HuffmanTree) (owing : Nat) (weight : Nat → Nat) : Prop :=
  ∀ d < nChar, tree.freq (tree.prnt (d + tableSize)) +
    (if tree.prnt (d + tableSize) = owing then 1 else 0) = weight d

section Facts

variable {tree : HuffmanTree} {owing : Nat}

theorem Weighted.monotone (weighted : Weighted tree owing) {i j : Nat} (order : i ≤ j)
    (inside : j ≤ rootPosition) : tree.freq i ≤ tree.freq j := by
  induction order with
  | refl => exact Nat.le_refl _
  | @step j order ih =>
      have last := weighted.sorted j (by lia)
      exact Nat.le_trans (ih (by lia)) last

theorem Weighted.pos (weighted : Weighted tree owing) {i : Nat} (inside : i ≤ rootPosition) :
    0 < tree.freq i :=
  Nat.lt_of_lt_of_le weighted.positive (weighted.monotone (Nat.zero_le i) inside)

theorem Weighted.earlier (weighted : Weighted tree owing) {i j : Nat} (inside : i ≤ rootPosition)
    (lighter : tree.freq i < tree.freq j) : i < j := by
  by_contra later
  exact absurd (weighted.monotone (Nat.le_of_not_lt later) inside) (Nat.not_le.mpr lighter)

theorem Weighted.sons_lighter (weighted : Weighted tree owing) (linked : Linked tree) {i : Nat}
    (inside : i < tableSize) (node : tree.son i < tableSize) (paid : i ≠ owing) :
    tree.freq (tree.son i) < tree.freq i ∧ tree.freq (tree.son i + 1) < tree.freq i := by
  have sum := weighted.sums i inside node
  rw [if_neg paid] at sum
  have below : tree.son i + 1 < i := by
    rcases linked.kind i inside with leaf | inner
    · lia
    · exact inner.1
  have first := weighted.pos (show tree.son i ≤ rootPosition by lia)
  have second := weighted.pos (show tree.son i + 1 ≤ rootPosition by lia)
  omega

end Facts

/-! `update`: a node that misses one is exchanged with the last of its weight, and then
paid, and its parent misses one. -/

section Update

variable {tree : HuffmanTree} {c l : Nat} {weight : Nat → Nat}

/-- The nodes whose parent is the owner of son `s`. -/
def Child (s x : Nat) : Prop := x = s ∨ (s < tableSize ∧ x = s + 1)

instance (s x : Nat) : Decidable (Child s x) := inferInstanceAs (Decidable (_ ∨ _))

/-- `adopt` on the table of parents. -/
def adopted (prnt : Nat → Nat) (s i : Nat) : Nat → Nat :=
  fun x => if Child s x then i else prnt x

theorem adopt_some {s : Nat} (inside : s < tableSize + nChar) (i : Nat) :
    tree.adopt s i = some { tree with prnt := adopted tree.prnt s i } := by
  unfold adopt setPrnt
  rw [store_some inside]
  by_cases node : s < tableSize
  · simp only [Option.bind_eq_bind, Option.bind_some, if_pos node]
    rw [store_some (by lia)]
    simp only [Option.bind_some, Option.some.injEq, HuffmanTree.mk.injEq, true_and, and_true]
    funext x
    simp only [put_apply, adopted, Child]
    by_cases second : x = s + 1
    · simp [second, node]
    · by_cases first : x = s
      · simp [first]
      · simp [first, second]
  · simp only [Option.bind_eq_bind, Option.bind_some, if_neg node, Option.some.injEq,
      HuffmanTree.mk.injEq, true_and, and_true]
    funext x
    simp [put_apply, adopted, Child, node]

/-- The tree with the nodes at `c` and `l` exchanged, their frequencies being equal. -/
def swapped (tree : HuffmanTree) (c l : Nat) : HuffmanTree where
  freq := tree.freq
  prnt := adopted (adopted tree.prnt (tree.son c) l) (tree.son l) c
  son := put (put tree.son l (tree.son c)) c (tree.son l)

theorem Linked.child_parent (linked : Linked tree) {i x : Nat} (inside : i < tableSize)
    (child : Child (tree.son i) x) : tree.prnt x = i := by
  rcases child with rfl | ⟨node, rfl⟩
  · rcases linked.kind i inside with leaf | inner
    · exact leaf.2.2
    · exact inner.2.2.1
  · rcases linked.kind i inside with leaf | inner
    · lia
    · exact inner.2.2.2

theorem Linked.child_of_parent (linked : Linked tree) {x : Nat} (inside : x < rootPosition) :
    Child (tree.son (tree.prnt x)) x := by
  obtain ⟨-, top, son⟩ := linked.parent x inside
  unfold Child
  lia

theorem Linked.son_inside (linked : Linked tree) {i : Nat} (inside : i < tableSize) :
    tree.son i < tableSize + nChar := by
  rcases linked.kind i inside with leaf | inner
  · exact leaf.2.1
  · lia

theorem swapped_prnt (x : Nat) :
    (swapped tree c l).prnt x =
      if Child (tree.son l) x then c else if Child (tree.son c) x then l else tree.prnt x := rfl

theorem swapped_son (i : Nat) :
    (swapped tree c l).son i =
      if i = c then tree.son l else if i = l then tree.son c else tree.son i := rfl

theorem Linked.child_iff (linked : Linked tree) {i x : Nat} (inside : i < tableSize)
    (known : x < rootPosition ∨ (tableSize ≤ x ∧ x < tableSize + nChar)) :
    Child (tree.son i) x ↔ tree.prnt x = i := by
  constructor
  · exact linked.child_parent inside
  · rintro rfl
    rcases known with node | ⟨low, high⟩
    · exact linked.child_of_parent node
    · have leaf := linked.leaf (x - tableSize) (by lia)
      rw [show x - tableSize + tableSize = x by omega] at leaf
      exact .inl leaf.2.symm

theorem Linked.swapped_parent (linked : Linked tree) (firstInside : c < tableSize)
    (lastInside : l < tableSize) {x : Nat}
    (known : x < rootPosition ∨ (tableSize ≤ x ∧ x < tableSize + nChar)) :
    (swapped tree c l).prnt x =
      if tree.prnt x = l then c else if tree.prnt x = c then l else tree.prnt x := by
  rw [swapped_prnt]
  simp only [linked.child_iff lastInside known, linked.child_iff firstInside known]

structure Exchangeable (tree : HuffmanTree) (c l : Nat) : Prop where
  linked : Linked tree
  weighted : Weighted tree c
  order : c < l
  inside : l < tableSize
  equal : tree.freq c = tree.freq l

theorem Exchangeable.sons_below (exchangeable : Exchangeable tree c l)
    (node : tree.son l < tableSize) : tree.son l + 1 < c := by
  obtain ⟨linked, weighted, order, inside, equal⟩ := exchangeable
  have lighter := (weighted.sons_lighter linked inside node (by omega)).2
  rw [← equal] at lighter
  have below : tree.son l + 1 < l := by
    rcases linked.kind l inside with leaf | inner
    · lia
    · exact inner.1
  exact weighted.earlier (by lia) lighter

theorem swapped_linked (exchangeable : Exchangeable tree c l) : Linked (swapped tree c l) := by
  have sons := exchangeable.sons_below
  obtain ⟨linked, weighted, order, inside, equal⟩ := exchangeable
  have first : c < tableSize := by omega
  have other : c ≠ l := by omega
  constructor
  · intro d bound
    have leaf := linked.leaf d bound
    rw [linked.swapped_parent first inside (.inr (by lia)), swapped_son]
    by_cases atLast : tree.prnt (d + tableSize) = l
    · rw [if_pos atLast, if_pos rfl]
      exact ⟨first, by rw [← atLast]; exact leaf.2⟩
    · rw [if_neg atLast]
      by_cases atFirst : tree.prnt (d + tableSize) = c
      · rw [if_pos atFirst, if_neg (Ne.symm other), if_pos rfl]
        exact ⟨inside, by rw [← atFirst]; exact leaf.2⟩
      · rw [if_neg atFirst, if_neg atFirst, if_neg atLast]
        exact leaf
  · intro i bound
    -- the node at `i` is the one that was at `from`
    have moved : ∃ source < tableSize, (swapped tree c l).son i = tree.son source ∧
        (∀ x, (x < rootPosition ∨ (tableSize ≤ x ∧ x < tableSize + nChar)) →
          tree.prnt x = source → (swapped tree c l).prnt x = i) ∧
        (tree.son source < tableSize → tree.son source + 1 < i) := by
      rw [swapped_son]
      by_cases atFirst : i = c
      · refine ⟨l, inside, by rw [if_pos atFirst], ?_, ?_⟩
        · intro x known parent
          rw [linked.swapped_parent first inside known, if_pos parent, atFirst]
        · rw [atFirst]
          exact sons
      · by_cases atLast : i = l
        · refine ⟨c, first, by rw [if_neg atFirst, if_pos atLast], ?_, ?_⟩
          · intro x known parent
            rw [linked.swapped_parent first inside known, if_neg (by omega), if_pos parent, atLast]
          · intro node
            rcases linked.kind c first with leaf | inner
            · lia
            · lia
        · refine ⟨i, bound, by rw [if_neg atFirst, if_neg atLast], ?_, ?_⟩
          · intro x known parent
            rw [linked.swapped_parent first inside known, if_neg (by omega), if_neg (by omega),
              parent]
          · intro node
            rcases linked.kind i bound with leaf | inner
            · lia
            · exact inner.1
    obtain ⟨source, sourceInside, same, parents, below⟩ := moved
    rw [same]
    rcases linked.kind source sourceInside with leaf | inner
    · exact .inl ⟨leaf.1, leaf.2.1, parents _ (.inr (by lia)) leaf.2.2⟩
    · refine .inr ⟨below (by lia), inner.2.1, parents _ (.inl (by lia)) inner.2.2.1,
        parents _ (.inl (by lia)) inner.2.2.2⟩
  · intro i bound
    obtain ⟨up, top, son⟩ := linked.parent i bound
    rw [linked.swapped_parent first inside (.inl bound), swapped_son]
    by_cases atLast : tree.prnt i = l
    · rw [if_pos atLast, if_pos rfl]
      rw [atLast] at son
      refine ⟨?_, by lia, son⟩
      have below := sons (by lia)
      omega
    · rw [if_neg atLast]
      by_cases atFirst : tree.prnt i = c
      · rw [if_pos atFirst, if_neg (Ne.symm other), if_pos rfl]
        rw [atFirst] at son up
        exact ⟨by omega, by lia, son⟩
      · rw [if_neg atFirst, if_neg atFirst, if_neg atLast]
        exact ⟨up, top, son⟩
  · -- the root is nobody's son
    have orphan : ∀ i < tableSize, ¬ Child (tree.son i) rootPosition := by
      intro i bound child
      unfold Child at child
      rcases linked.kind i bound with leaf | inner
      · lia
      · lia
    rw [swapped_prnt, if_neg (orphan l inside), if_neg (orphan c first)]
    exact linked.top

theorem swapped_weighted (exchangeable : Exchangeable tree c l) :
    Weighted (swapped tree c l) l := by
  obtain ⟨linked, weighted, order, inside, equal⟩ := exchangeable
  have other : c ≠ l := by omega
  refine ⟨weighted.positive, weighted.sorted, ?_, ?_, weighted.sentinel⟩
  · intro i bound node
    rw [swapped_son] at node ⊢
    change tree.freq i + _ = tree.freq _ + tree.freq _
    by_cases atFirst : i = c
    · rw [if_pos atFirst] at node ⊢
      have sum := weighted.sums l inside node
      rw [if_neg (Ne.symm other)] at sum
      rw [atFirst, if_neg other, equal]
      exact sum
    · rw [if_neg atFirst] at node ⊢
      by_cases atLast : i = l
      · rw [if_pos atLast] at node ⊢
        have sum := weighted.sums c (by omega) node
        rw [if_pos rfl, equal] at sum
        rw [if_pos atLast, atLast]
        exact sum
      · rw [if_neg atLast] at node ⊢
        have sum := weighted.sums i bound node
        rw [if_neg atFirst] at sum
        rw [if_neg atLast]
        exact sum
  · have bounded := weighted.bounded
    rw [if_pos (by omega)] at bounded
    rw [if_pos inside]
    exact bounded

theorem swapped_counts (exchangeable : Exchangeable tree c l) (counts : Counts tree c weight) :
    Counts (swapped tree c l) l weight := by
  obtain ⟨linked, weighted, order, inside, equal⟩ := exchangeable
  intro d bound
  have count := counts d bound
  rw [linked.swapped_parent (by omega) inside (.inr (by lia))]
  change tree.freq _ + _ = _
  by_cases atLast : tree.prnt (d + tableSize) = l
  · rw [if_pos atLast, if_neg (by omega), equal]
    rw [atLast, if_neg (by omega)] at count
    exact count
  · rw [if_neg atLast]
    by_cases atFirst : tree.prnt (d + tableSize) = c
    · rw [if_pos atFirst, if_pos rfl, ← equal]
      rw [atFirst, if_pos rfl] at count
      exact count
    · rw [if_neg atFirst, if_neg atLast]
      rw [if_neg atFirst] at count
      exact count

/-- The tree with one more at node `c`. -/
def paid (tree : HuffmanTree) (c : Nat) : HuffmanTree :=
  { tree with freq := put tree.freq c (tree.freq c + 1) }

/-- Whose turn it is after a node is paid: its parent, or nobody after the root. -/
def creditor (tree : HuffmanTree) (c : Nat) : Nat :=
  if c = rootPosition then tableSize else tree.prnt c

theorem paid_linked (linked : Linked tree) : Linked (paid tree c) :=
  ⟨linked.leaf, linked.kind, linked.parent, linked.top⟩

theorem paid_weighted (linked : Linked tree) (weighted : Weighted tree c) (inside : c < tableSize)
    (room : tree.freq c + 1 ≤ tree.freq (c + 1)) : Weighted (paid tree c) (creditor tree c) := by
  have up : c < rootPosition → c < tree.prnt c ∧ tree.prnt c ≤ rootPosition :=
    fun node => ⟨(linked.parent c node).1, (linked.parent c node).2.1⟩
  have bounded := weighted.bounded
  rw [if_pos inside] at bounded
  constructor
  · change 0 < put tree.freq c _ 0
    rw [put_apply]
    have := weighted.positive
    split <;> omega
  · intro i bound
    change put tree.freq c _ i ≤ put tree.freq c _ (i + 1)
    have sorted := weighted.sorted i bound
    rw [put_apply, put_apply]
    by_cases atNode : i = c
    · rw [if_pos atNode, if_neg (by omega)]
      subst atNode
      exact room
    · rw [if_neg atNode]
      by_cases next : i + 1 = c
      · rw [if_pos next, ← next]
        omega
      · rw [if_neg next]
        exact sorted
  · intro i bound node
    change put tree.freq c _ i + _ = put tree.freq c _ (tree.son i) + put tree.freq c _ (tree.son i + 1)
    change tree.son i < tableSize at node
    have sum := weighted.sums i bound node
    obtain ⟨below, even, firstSon, secondSon⟩ : tree.son i + 1 < i ∧ tree.son i % 2 = 0 ∧
        tree.prnt (tree.son i) = i ∧ tree.prnt (tree.son i + 1) = i := by
      rcases linked.kind i bound with leaf | inner
      · lia
      · exact inner
    unfold creditor
    by_cases atNode : i = c
    · subst atNode
      rw [if_pos rfl] at sum
      have notCreditor : ¬ i = (if i = rootPosition then tableSize else tree.prnt i) := by
        split
        · lia
        · have := up (by lia)
          omega
      rw [put_same, put_other (by omega), put_other (by omega), if_neg notCreditor]
      omega
    · rw [if_neg atNode] at sum
      rw [put_other atNode]
      by_cases owed : tree.son i = c ∨ tree.son i + 1 = c
      · have parent : tree.prnt c = i := by
          rcases owed with same | same
          · rw [← same]
            exact firstSon
          · rw [← same]
            exact secondSon
        rw [if_neg (show ¬ c = rootPosition by lia), if_pos parent.symm]
        rcases owed with same | same
        · rw [same, put_same, put_other (by omega)]
          rw [same] at sum
          omega
        · rw [same, put_same, put_other (by omega)]
          rw [same] at sum
          omega
      · have notCreditor : ¬ i = (if c = rootPosition then tableSize else tree.prnt c) := by
          split
          · lia
          · rename_i notRoot
            intro parent
            have child := linked.child_of_parent (show c < rootPosition by lia)
            rw [← parent] at child
            rcases child with same | ⟨-, same⟩
            · exact owed (.inl same.symm)
            · exact owed (.inr same.symm)
        rw [if_neg notCreditor, put_other (by omega), put_other (by omega)]
        exact sum
  · change put tree.freq c _ rootPosition + _ ≤ _
    unfold creditor
    rw [put_apply]
    by_cases atRoot : c = rootPosition
    · subst atRoot
      rw [if_pos rfl, if_pos rfl, if_neg (Nat.lt_irrefl _)]
      exact bounded
    · have := up (by lia)
      rw [if_neg (Ne.symm atRoot), if_neg atRoot, if_pos (by lia)]
      exact bounded
  · change put tree.freq c _ tableSize = _
    rw [put_other (by omega)]
    exact weighted.sentinel

theorem paid_counts (linked : Linked tree) (inside : c < tableSize) (counts : Counts tree c weight) :
    Counts (paid tree c) (creditor tree c) weight := by
  intro d bound
  have count := counts d bound
  have leaf := linked.leaf d bound
  -- no leaf misses one any more: the creditor is an inner node
  have notCreditor : tree.prnt (d + tableSize) ≠ creditor tree c := by
    intro same
    unfold creditor at same
    split at same
    · lia
    · have son := (linked.parent c (by lia)).2.2
      rw [← same, leaf.2] at son
      lia
  change put tree.freq c _ (tree.prnt (d + tableSize)) +
    (if tree.prnt (d + tableSize) = _ then 1 else 0) = _
  rw [if_neg notCreditor, put_apply]
  split
  · rename_i here
    rw [if_pos here, here] at count
    omega
  · rename_i elsewhere
    rw [if_neg elsewhere] at count
    exact count

/-- A walk to the root has come to node `c`. -/
structure Carry (tree : HuffmanTree) (c : Nat) (weight : Nat → Nat) : Prop where
  linked : Linked tree
  weighted : Weighted tree c
  counts : Counts tree c weight
  inside : c < tableSize

theorem findLast_total (weighted : Weighted tree c) (inside : c < tableSize) {k : Nat}
    (heavy : tree.freq (c + 1) < k) (light : k ≤ sentinel) (other : HuffmanTree)
    (same : ∀ m, c < m → other.freq m = tree.freq m) :
    ∃ l, iterate (other.findLast k) tableSize (c + 1) = some l ∧
      c + 1 < l ∧ l ≤ tableSize ∧ k ≤ tree.freq l ∧ tree.freq (l - 1) < k := by
  refine iterate_total (fun left l => c < l ∧ l < tableSize ∧ left + l = tableSize ∧
    tree.freq l < k) ?_ (tableSize - (c + 1)) (by lia) ?_
  · rintro left l ⟨after, below, count, lighter⟩
    have read : other.getFreq (l + 1) = some (tree.freq (l + 1)) := by
      rw [getFreq, load_some (by lia), same _ (by omega)]
    by_cases again : tree.freq (l + 1) < k
    · have notEnd : l + 1 ≠ tableSize := by
        intro atEnd
        rw [atEnd, weighted.sentinel] at again
        omega
      exact .inl ⟨l + 1, by simp [findLast, read, again], left - 1, by lia, by omega, by lia,
        by lia, again⟩
    · exact .inr ⟨l + 1, by simp [findLast, read, again], by omega, by lia, by omega,
        by simpa using lighter⟩
  · have next : c + 1 ≠ tableSize := by
      intro atEnd
      rw [atEnd, weighted.sentinel] at heavy
      omega
    exact ⟨by omega, by lia, by lia, heavy⟩

theorem exchange_some (exchangeable : Exchangeable tree c l) :
    (paid tree c).exchange c l (tree.freq c + 1) = some (paid (swapped tree c l) l) := by
  obtain ⟨linked, weighted, order, inside, equal⟩ := exchangeable
  have first : (paid tree c).son c < tableSize + nChar :=
    linked.son_inside (show c < tableSize by omega)
  have last : (paid tree c).son l < tableSize + nChar := linked.son_inside inside
  have read : (paid tree c).getFreq l = some (tree.freq l) := by
    rw [getFreq, load_some (by lia)]
    simp [paid, put_other (show l ≠ c by omega)]
  unfold exchange setFreq setSon getSon
  simp only [read, Option.bind_eq_bind, Option.bind_some]
  rw [store_some (by lia)]
  simp only [Option.bind_some]
  rw [store_some (by lia)]
  simp only [Option.bind_some]
  rw [load_some (by lia)]
  simp only [Option.bind_some]
  rw [adopt_some first]
  simp only [Option.bind_some]
  rw [load_some inside]
  simp only [Option.bind_some]
  rw [store_some inside]
  simp only [Option.bind_some]
  rw [adopt_some last]
  simp only [Option.bind_some]
  rw [store_some (by lia)]
  simp only [Option.bind_some, Option.some.injEq, paid, swapped, HuffmanTree.mk.injEq, and_self,
    and_true]
  funext i
  simp only [put_apply]
  by_cases atFirst : i = c
  · rw [if_neg (by omega), if_pos atFirst, if_neg (by omega), atFirst, equal]
  · by_cases atLast : i = l
    · rw [if_pos atLast, if_pos atLast, equal]
    · rw [if_neg atLast, if_neg atFirst, if_neg atFirst, if_neg atLast]

/-- Paying a node that need not be exchanged, and going on to its parent. -/
theorem climb (carry : Carry tree c weight) (room : tree.freq c + 1 ≤ tree.freq (c + 1)) :
    (tree.prnt c ≠ 0 ∧ c < tree.prnt c ∧ Carry (paid tree c) (tree.prnt c) weight) ∨
      (tree.prnt c = 0 ∧ Invariant (paid tree c) ∧ Counts (paid tree c) tableSize weight) := by
  obtain ⟨linked, weighted, counts, inside⟩ := carry
  have pays := paid_weighted linked weighted inside room
  have counted := paid_counts linked inside counts
  unfold creditor at pays counted
  by_cases atRoot : c = rootPosition
  · rw [if_pos atRoot] at pays counted
    exact .inr ⟨atRoot ▸ linked.top, ⟨paid_linked linked, pays⟩, counted⟩
  · rw [if_neg atRoot] at pays counted
    have up := linked.parent c (by lia)
    exact .inl ⟨by omega, up.1, paid_linked linked, pays, counted, by lia⟩

theorem raise_total (carry : Carry tree c weight) :
    (∃ next, raise (c, tree) = some (.inl next) ∧ c < next.1 ∧ Carry next.2 next.1 weight) ∨
      ∃ result, raise (c, tree) = some (.inr result) ∧ Invariant result ∧
        Counts result tableSize weight := by
  obtain ⟨linked, weighted, counts, inside⟩ := carry
  have bounded := weighted.bounded
  rw [if_pos inside] at bounded
  have light : tree.freq c + 1 ≤ maxFreq := by
    have := weighted.monotone (show c ≤ rootPosition by lia) (Nat.le_refl _)
    omega
  have readHere : tree.getFreq c = some (tree.freq c) := load_some (by lia)
  have writeHere : tree.setFreq c (tree.freq c + 1) = some (paid tree c) := by
    rw [setFreq, store_some (by lia)]
    rfl
  have readNext : (paid tree c).getFreq (c + 1) = some (tree.freq (c + 1)) := by
    rw [getFreq, load_some (by lia)]
    simp [paid]
  unfold raise
  simp only [readHere, writeHere, readNext, Option.bind_eq_bind, Option.bind_some]
  by_cases disturbed : tree.freq (c + 1) < tree.freq c + 1
  · -- the last node of the same weight
    obtain ⟨l, found, after, below, heavier, lighter⟩ := findLast_total weighted inside disturbed
      (by lia) (paid tree c) fun m later => by simp [paid, put_other (show m ≠ c by omega)]
    have equal : tree.freq c = tree.freq (l - 1) := by
      have order := weighted.monotone (show c ≤ l - 1 by omega) (by lia)
      omega
    have exchangeable : Exchangeable tree c (l - 1) :=
      ⟨linked, weighted, by omega, by lia, equal⟩
    have carried : Carry (swapped tree c (l - 1)) (l - 1) weight :=
      ⟨swapped_linked exchangeable, swapped_weighted exchangeable,
        swapped_counts exchangeable counts, by lia⟩
    have room : (swapped tree c (l - 1)).freq (l - 1) + 1 ≤
        (swapped tree c (l - 1)).freq (l - 1 + 1) := by
      change tree.freq (l - 1) + 1 ≤ tree.freq (l - 1 + 1)
      rw [← equal, show l - 1 + 1 = l by omega]
      exact heavier
    have readUp : (paid (swapped tree c (l - 1)) (l - 1)).getPrnt (l - 1) =
        some ((swapped tree c (l - 1)).prnt (l - 1)) := load_some (by lia)
    simp only [if_pos disturbed, found, exchange_some exchangeable, readUp, Option.bind_some]
    rcases climb carried room with ⟨goesOn, up, carried⟩ | ⟨ends, kept, counted⟩
    · rw [if_pos goesOn]
      exact .inl ⟨_, rfl, by simp only; omega, carried⟩
    · rw [if_neg (not_not_intro ends)]
      exact .inr ⟨_, rfl, kept, counted⟩
  · have readUp : (paid tree c).getPrnt c = some (tree.prnt c) := load_some (by lia)
    simp only [if_neg disturbed, readUp, Option.bind_some]
    rcases climb ⟨linked, weighted, counts, inside⟩ (by omega) with
      ⟨goesOn, up, carried⟩ | ⟨ends, kept, counted⟩
    · rw [if_pos goesOn]
      exact .inl ⟨_, rfl, up, carried⟩
    · rw [if_neg (not_not_intro ends)]
      exact .inr ⟨_, rfl, kept, counted⟩

theorem raises_total (carry : Carry tree c weight) :
    ∃ result, iterate raise tableSize (c, tree) = some result ∧ Invariant result ∧
      Counts result tableSize weight := by
  have inside := carry.inside
  refine iterate_total (fun left state =>
    left + state.1 = tableSize - 1 ∧ Carry state.2 state.1 weight) ?_
    (tableSize - 1 - c) (by lia) ⟨by simp only; lia, carry⟩
  rintro left ⟨c, tree⟩ ⟨count, carry⟩
  rcases raise_total carry with ⟨next, again, up, carried⟩ | ⟨result, ends, kept⟩
  · have inside := carried.inside
    exact .inl ⟨next, again, tableSize - 1 - next.1, by simp only at count; lia, by lia, carried⟩
  · exact .inr ⟨result, ends, kept⟩

def symbolFreq (tree : HuffmanTree) (d : Nat) : Nat := tree.freq (tree.prnt (d + tableSize))

theorem Invariant.carry (invariant : Invariant tree) {d : Nat} (symbol : d < nChar)
    (room : tree.freq rootPosition < maxFreq) :
    Carry tree (tree.prnt (d + tableSize))
      fun e => tree.symbolFreq e + if e = d then 1 else 0 := by
  obtain ⟨linked, weighted⟩ := invariant
  have leaf := linked.leaf d symbol
  refine ⟨linked, ⟨weighted.positive, weighted.sorted, ?_, ?_, weighted.sentinel⟩, ?_, leaf.1⟩
  · intro i bound node
    have sum := weighted.sums i bound node
    have notLeaf : i ≠ tree.prnt (d + tableSize) := by
      rintro rfl
      lia
    rw [if_neg (by omega)] at sum
    rw [if_neg notLeaf]
    exact sum
  · rw [if_pos leaf.1]
    omega
  · intro e bound
    have other := linked.leaf e bound
    change tree.symbolFreq e + _ = _
    congr 1
    by_cases same : e = d
    · rw [if_pos same, if_pos (by rw [same])]
    · rw [if_neg same, if_neg]
      intro together
      rw [together, leaf.2] at other
      omega

end Update

end HuffmanTree

end PaclinkUnix
