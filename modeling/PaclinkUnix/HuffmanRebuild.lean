import PaclinkUnix.HuffmanInvariant
import Mathlib.Algebra.BigOperators.Ring.Finset

/-!
Building the Huffman tree: the first one, and the one `reconst` makes of the leaves. Both
append the sums of the first two nodes without a parent, where they belong in the order.
-/

namespace PaclinkUnix

open Memory

namespace HuffmanTree

theorem sum_pairs (f : Nat → Nat) (count : Nat) :
    ∑ t ∈ Finset.range count, (f (2 * t) + f (2 * t + 1)) = ∑ i ∈ Finset.range (2 * count), f i := by
  induction count with
  | zero => rfl
  | succ count ih =>
      rw [Finset.sum_range_succ, ih, show 2 * (count + 1) = 2 * count + 1 + 1 by omega,
        Finset.sum_range_succ, Finset.sum_range_succ, Nat.add_assoc]

theorem root_total {tree : HuffmanTree} (linked : Linked tree)
    (sums : ∀ i < tableSize, tree.son i < tableSize →
      tree.freq i = tree.freq (tree.son i) + tree.freq (tree.son i + 1)) :
    tree.freq rootPosition = ∑ d ∈ Finset.range nChar, tree.symbolFreq d := by
  have leaves : ∑ i ∈ Finset.range tableSize with tableSize ≤ tree.son i, tree.freq i =
      ∑ d ∈ Finset.range nChar, tree.symbolFreq d := by
    refine Finset.sum_nbij' (fun i => tree.son i - tableSize) (fun d => tree.prnt (d + tableSize))
      ?_ ?_ ?_ ?_ ?_
    · intro i member
      simp only [Finset.mem_filter, Finset.mem_range] at member ⊢
      have inside := linked.son_inside member.1
      lia
    · intro d member
      simp only [Finset.mem_filter, Finset.mem_range] at member ⊢
      have leaf := linked.leaf d member
      exact ⟨leaf.1, by lia⟩
    · intro i member
      simp only [Finset.mem_filter, Finset.mem_range] at member ⊢
      rcases linked.kind i member.1 with leaf | inner
      · rw [Nat.sub_add_cancel leaf.1]
        exact leaf.2.2
      · lia
    · intro d member
      simp only [Finset.mem_range] at member
      rw [(linked.leaf d member).2]
      omega
    · intro i member
      simp only [Finset.mem_filter, Finset.mem_range] at member
      rcases linked.kind i member.1 with leaf | inner
      · rw [symbolFreq, Nat.sub_add_cancel leaf.1, leaf.2.2]
      · lia
  have inner : ∑ i ∈ Finset.range tableSize with ¬ tableSize ≤ tree.son i, tree.freq i =
      ∑ t ∈ Finset.range (nChar - 1), (tree.freq (2 * t) + tree.freq (2 * t + 1)) := by
    refine Finset.sum_nbij' (fun i => tree.son i / 2) (fun t => tree.prnt (2 * t)) ?_ ?_ ?_ ?_ ?_
    · intro i member
      simp only [Finset.mem_filter, Finset.mem_range] at member ⊢
      rcases linked.kind i member.1 with leaf | node
      · lia
      · lia
    · intro t member
      simp only [Finset.mem_filter, Finset.mem_range] at member ⊢
      have up := linked.parent (2 * t) (by lia)
      exact ⟨by lia, by lia⟩
    · intro i member
      simp only [Finset.mem_filter, Finset.mem_range] at member ⊢
      rcases linked.kind i member.1 with leaf | node
      · lia
      · rw [show 2 * (tree.son i / 2) = tree.son i by omega]
        exact node.2.2.1
    · intro t member
      simp only [Finset.mem_range] at member
      have up := linked.parent (2 * t) (by lia)
      omega
    · intro i member
      simp only [Finset.mem_filter, Finset.mem_range] at member
      rcases linked.kind i member.1 with leaf | node
      · lia
      · rw [show 2 * (tree.son i / 2) = tree.son i by omega]
        exact sums i member.1 (by omega)
  have split := Finset.sum_filter_add_sum_filter_not (Finset.range tableSize)
    (fun i => tableSize ≤ tree.son i) tree.freq
  have all := Finset.sum_range_succ tree.freq rootPosition
  rw [leaves, inner, sum_pairs, show 2 * (nChar - 1) = rootPosition by rfl] at split
  rw [show rootPosition + 1 = tableSize by rfl] at all
  omega

structure Forest (tree : HuffmanTree) (t : Nat) (weight : Nat → Nat) : Prop where
  positive : 0 < tree.freq 0
  sorted : ∀ p, p + 1 < nChar + t → tree.freq p ≤ tree.freq (p + 1)
  kind : ∀ p < nChar + t, (tableSize ≤ tree.son p ∧ tree.son p < tableSize + nChar) ∨
    (tree.son p + 1 < p ∧ tree.son p < 2 * t ∧ tree.son p % 2 = 0 ∧
      tree.freq p = tree.freq (tree.son p) + tree.freq (tree.son p + 1))
  leaf : ∀ d < nChar, ∃ p < nChar + t, tree.son p = d + tableSize ∧ tree.freq p = weight d
  pair : ∀ s < t, ∃ p < nChar + t, tree.son p = 2 * s
  distinct : ∀ p < nChar + t, ∀ q < nChar + t, tree.son p = tree.son q → p = q

section Forest

variable {tree : HuffmanTree} {t : Nat} {weight : Nat → Nat}

/-- The next pair gets its parent at place `k`, and what follows moves up. -/
theorem Forest.insert (forest : Forest tree t weight) {k : Nat} (after : 2 * t + 1 < k)
    (inside : k ≤ nChar + t) (small : nChar + t < tableSize) {grown : HuffmanTree}
    (below : ∀ p < k, grown.freq p = tree.freq p ∧ grown.son p = tree.son p)
    (here : grown.freq k = tree.freq (2 * t) + tree.freq (2 * t + 1) ∧ grown.son k = 2 * t)
    (above : ∀ p, k ≤ p → p < nChar + t →
      grown.freq (p + 1) = tree.freq p ∧ grown.son (p + 1) = tree.son p)
    (lower : tree.freq (k - 1) ≤ tree.freq (2 * t) + tree.freq (2 * t + 1))
    (upper : ∀ p, k ≤ p → p < nChar + t →
      tree.freq (2 * t) + tree.freq (2 * t + 1) ≤ tree.freq p) :
    Forest grown (t + 1) weight := by
  -- where a node comes from
  have source : ∀ p < nChar + (t + 1), p ≠ k → ∃ q < nChar + t, (q = p ∧ p < k ∨ q + 1 = p ∧ k ≤ q) ∧
      grown.freq p = tree.freq q ∧ grown.son p = tree.son q := by
    intro p bound other
    by_cases early : p < k
    · exact ⟨p, by omega, .inl ⟨rfl, early⟩, below p early⟩
    · have moved := above (p - 1) (by omega) (by omega)
      rw [show p - 1 + 1 = p by omega] at moved
      exact ⟨p - 1, by omega, .inr ⟨by omega, by omega⟩, moved⟩
  -- where a node goes
  have target : ∀ q < nChar + t, ∃ p < nChar + (t + 1),
      grown.freq p = tree.freq q ∧ grown.son p = tree.son q := by
    intro q bound
    by_cases early : q < k
    · exact ⟨q, by omega, below q early⟩
    · exact ⟨q + 1, by omega, above q (by omega) bound⟩
  refine ⟨?_, ?_, ?_, ?_, ?_, ?_⟩
  · rw [(below 0 (by omega)).1]
    exact forest.positive
  · intro p bound
    by_cases early : p + 1 < k
    · rw [(below p (by omega)).1, (below (p + 1) early).1]
      exact forest.sorted p (by omega)
    · by_cases before : p + 1 = k
      · rw [(below p (by omega)).1, before, here.1, show p = k - 1 by omega]
        exact lower
      · rw [(above p (by omega) (by omega)).1]
        by_cases at' : p = k
        · rw [at', here.1]
          exact upper k (Nat.le_refl _) (by omega)
        · have moved := (above (p - 1) (by omega) (by omega)).1
          rw [show p - 1 + 1 = p by omega] at moved
          rw [moved]
          have sorted := forest.sorted (p - 1) (by omega)
          rwa [show p - 1 + 1 = p by omega] at sorted
  · intro p bound
    by_cases at' : p = k
    · subst at'
      refine .inr ⟨by omega, by omega, by omega, ?_⟩
      rw [here.1, here.2, (below _ (by omega)).1, (below _ (by omega)).1]
    · obtain ⟨q, inside, place, freq, son⟩ := source p bound at'
      rw [freq, son]
      rcases forest.kind q inside with leaf | ⟨lower, node, even, sum⟩
      · exact .inl leaf
      · refine .inr ⟨by omega, by omega, even, ?_⟩
        rw [(below _ (by omega)).1, (below _ (by omega)).1]
        exact sum
  · intro d symbol
    obtain ⟨q, inside, son, freq⟩ := forest.leaf d symbol
    obtain ⟨p, bound, sameFreq, sameSon⟩ := target q inside
    exact ⟨p, bound, sameSon.trans son, sameFreq.trans freq⟩
  · intro s bound
    by_cases last : s = t
    · exact ⟨k, by omega, by rw [here.2, last]⟩
    · obtain ⟨q, inside, son⟩ := forest.pair s (by omega)
      obtain ⟨p, bound, -, sameSon⟩ := target q inside
      exact ⟨p, bound, sameSon.trans son⟩
  · have fresh : ∀ p < nChar + (t + 1), grown.son p = 2 * t → p = k := by
      intro p bound same
      by_contra other
      obtain ⟨q, inside, -, -, son⟩ := source p bound other
      rw [son] at same
      rcases forest.kind q inside with leaf | node
      · lia
      · omega
    intro p first q second same
    by_cases firstNew : p = k
    · rw [firstNew, here.2] at same
      rw [firstNew, fresh q second same.symm]
    · by_cases secondNew : q = k
      · rw [secondNew, here.2] at same
        exact absurd (fresh p first same) firstNew
      · obtain ⟨p', inside, place, -, son⟩ := source p first firstNew
        obtain ⟨q', inside', place', -, son'⟩ := source q second secondNew
        have together := forest.distinct p' inside q' inside' (by rw [← son, ← son', same])
        omega

theorem Forest.of_same (forest : Forest tree t weight) {other : HuffmanTree}
    (freq : other.freq = tree.freq) (son : other.son = tree.son) : Forest other t weight := by
  obtain ⟨freqs, prnts, sons⟩ := tree
  obtain ⟨freqs', prnts', sons'⟩ := other
  obtain rfl : freqs' = freqs := freq
  obtain rfl : sons' = sons := son
  exact ⟨forest.positive, forest.sorted, forest.kind, forest.leaf, forest.pair, forest.distinct⟩

/-- The children of the first `i` nodes know their parents. -/
def Connected (tree : HuffmanTree) (i : Nat) : Prop :=
  ∀ p < i, ∀ x, Child (tree.son p) x → tree.prnt x = p

theorem Forest.invariant (forest : Forest tree (nChar - 1) weight)
    (connected : Connected tree tableSize) (top : tree.prnt rootPosition = 0)
    (guard : tree.freq tableSize = sentinel)
    (bounded : ∑ d ∈ Finset.range nChar, weight d ≤ maxFreq) :
    Invariant tree ∧ ∀ d < nChar, tree.symbolFreq d = weight d := by
  have size : nChar + (nChar - 1) = tableSize := rfl
  have kind := forest.kind
  have leaf := forest.leaf
  have pair := forest.pair
  have sorted := forest.sorted
  rw [size] at kind leaf pair sorted
  have leaves : ∀ d < nChar, tree.prnt (d + tableSize) < tableSize ∧
      tree.son (tree.prnt (d + tableSize)) = d + tableSize ∧
      tree.freq (tree.prnt (d + tableSize)) = weight d := by
    intro d symbol
    obtain ⟨p, inside, son, freq⟩ := leaf d symbol
    rw [connected p inside (d + tableSize) (.inl son.symm)]
    exact ⟨inside, son, freq⟩
  have linked : Linked tree := by
    refine ⟨fun d symbol => ⟨(leaves d symbol).1, (leaves d symbol).2.1⟩, ?_, ?_, top⟩
    · intro i inside
      rcases kind i inside with leaf | node
      · exact .inl ⟨leaf.1, leaf.2, connected i inside _ (.inl rfl)⟩
      · exact .inr ⟨node.1, node.2.2.1, connected i inside _ (.inl rfl),
          connected i inside _ (.inr ⟨by lia, rfl⟩)⟩
    · intro i inside
      obtain ⟨p, bound, son⟩ := pair (i / 2) (by lia)
      have child : Child (tree.son p) i := by
        unfold Child
        lia
      have below : tree.son p + 1 < p := by
        rcases kind p bound with leaf | node
        · lia
        · exact node.1
      rw [connected p bound i child]
      exact ⟨by omega, by lia, by omega⟩
  have sums : ∀ i < tableSize, tree.son i < tableSize →
      tree.freq i = tree.freq (tree.son i) + tree.freq (tree.son i + 1) := by
    intro i inside node
    rcases kind i inside with leaf | inner
    · lia
    · exact inner.2.2.2
  have counts : ∀ d < nChar, tree.symbolFreq d = weight d := fun d symbol => (leaves d symbol).2.2
  refine ⟨⟨linked, forest.positive, fun i inside => sorted i (by lia), ?_, ?_, guard⟩, counts⟩
  · intro i inside node
    rw [if_neg (by omega), Nat.add_zero]
    exact sums i inside node
  · rw [if_neg (Nat.lt_irrefl _), Nat.add_zero, root_total linked sums,
      Finset.sum_congr rfl fun d member => counts d (Finset.mem_range.mp member)]
    exact bounded

end Forest

section Reconst

variable {tree : HuffmanTree} {t : Nat} {weight : Nat → Nat}

theorem findPlace_total {first lowest last : Nat} (order : lowest ≤ last) (small : last < tableSize)
    (floor : tree.freq lowest ≤ first) :
    ∃ k, iterate (tree.findPlace first) tableSize last = some k ∧
      lowest ≤ k ∧ k ≤ last ∧ tree.freq k ≤ first ∧
        ∀ p, k < p → p ≤ last → first < tree.freq p := by
  refine iterate_total (fun left k => left = k ∧ lowest ≤ k ∧ k ≤ last ∧
    ∀ p, k < p → p ≤ last → first < tree.freq p) ?_ last (by lia) ?_
  · rintro left k ⟨rfl, low, high, heavier⟩
    have read : tree.getFreq left = some (tree.freq left) := load_some (by lia)
    by_cases again : first < tree.freq left
    · have notLowest : left ≠ lowest := by
        rintro rfl
        omega
      refine .inl ⟨left - 1, ?_, left - 1, by omega, rfl, by omega, by omega, ?_⟩
      · simp [findPlace, read, again, show left ≠ 0 by omega]
      · intro p above inside
        by_cases here : p = left
        · rw [here]
          exact again
        · exact heavier p (by omega) inside
    · exact .inr ⟨left, by simp [findPlace, read, again], low, high, by omega, heavier⟩
  · exact ⟨rfl, order, Nat.le_refl _, fun p above inside => by omega⟩

/-- The loop of `reconst` that connects the pairs. -/
structure Rebuilding (origin : HuffmanTree) (weight : Nat → Nat) (t : Nat)
    (tree : HuffmanTree) : Prop where
  forest : Forest tree t weight
  guard : tree.freq tableSize = sentinel
  prnt : tree.prnt = origin.prnt

theorem connectSons_total {origin : HuffmanTree} (rebuilding : Rebuilding origin weight t tree)
    (small : nChar + t < tableSize) :
    ∃ next, connectSons (2 * t, nChar + t, tree) =
      some (.inl (2 * (t + 1), nChar + (t + 1), next)) ∧ Rebuilding origin weight (t + 1) next := by
  obtain ⟨forest, guard, prnt⟩ := rebuilding
  generalize sum : tree.freq (2 * t) + tree.freq (2 * t + 1) = first
  have sorted : ∀ p q, p ≤ q → q < nChar + t → tree.freq p ≤ tree.freq q := by
    intro p q order inside
    induction order with
    | refl => exact Nat.le_refl _
    | @step q order ih => exact Nat.le_trans (ih (by omega)) (forest.sorted q inside)
  -- the place is found in the table with the sum behind its last node
  let extended : HuffmanTree := { tree with freq := put tree.freq (nChar + t) first }
  have same : ∀ p, p ≠ nChar + t → extended.freq p = tree.freq p := fun p other => put_other other
  obtain ⟨k, found, low, high, lower, upper⟩ := @findPlace_total extended first (2 * t + 1)
    (nChar + t - 1) (by lia) (by lia) (by rw [same _ (by lia)]; omega)
  have readFirst : tree.getFreq (2 * t) = some (tree.freq (2 * t)) := load_some (by lia)
  have readSecond : tree.getFreq (2 * t + 1) = some (tree.freq (2 * t + 1)) := load_some (by lia)
  have extends' : tree.setFreq (nChar + t) first = some extended := setFreq_some (by lia)
  let next : HuffmanTree :=
    { freq := put (shift extended.freq (k + 1) (nChar + t - (k + 1))) (k + 1) first
      prnt := tree.prnt
      son := put (shift tree.son (k + 1) (nChar + t - (k + 1))) (k + 1) (2 * t) }
  refine ⟨next, ?_, ?_, ?_, prnt⟩
  · simp only [connectSons, if_pos small, readFirst, readSecond, sum, Option.bind_eq_bind,
      Option.bind_some]
    rw [extends', Option.bind_some, found, Option.bind_some, moveFreq_some (by lia),
      Option.bind_some, setFreq_some (by lia), Option.bind_some, moveSon_some (by lia),
      Option.bind_some, setSon_some (by lia)]
    rfl
  · refine forest.insert (show 2 * t + 1 < k + 1 by omega) (by lia) small ?_ ?_ ?_ ?_ ?_
    · intro p early
      exact ⟨(put_other (by omega)).trans ((shift_below (by omega)).trans (same p (by lia))),
        (put_other (by omega)).trans (shift_below (by omega))⟩
    · exact ⟨put_same.trans sum.symm, put_same⟩
    · intro p late inside
      exact ⟨(put_other (by omega)).trans ((shift_moved (by omega) (by omega)).trans
          (same p (by omega))),
        (put_other (by omega)).trans (shift_moved (by omega) (by omega))⟩
    · rw [Nat.add_sub_cancel, sum, ← same k (by lia)]
      exact lower
    · intro p late inside
      have heavier := upper p (by omega) (by omega)
      rw [same p (by omega)] at heavier
      omega
  · change put (shift extended.freq _ _) _ _ tableSize = _
    rw [put_other (by lia), shift, if_neg (by lia), same _ (by lia)]
    exact guard

theorem connectSons_loop {origin : HuffmanTree} (rebuilding : Rebuilding origin weight 0 tree) :
    ∃ result, iterate connectSons tableSize (0, nChar, tree) = some result ∧
      Rebuilding origin weight (nChar - 1) result := by
  refine iterate_total (fun left state => ∃ t tree, left + t = nChar - 1 ∧
    state = (2 * t, nChar + t, tree) ∧ Rebuilding origin weight t tree) ?_ (nChar - 1) (by lia)
    ⟨0, tree, rfl, rfl, rebuilding⟩
  rintro left _ ⟨t, tree, count, rfl, kept⟩
  by_cases small : nChar + t < tableSize
  · obtain ⟨next, again, kept⟩ := connectSons_total kept small
    exact .inl ⟨_, again, left - 1, by lia, t + 1, next, by lia, rfl, kept⟩
  · have last : t = nChar - 1 := by lia
    exact .inr ⟨tree, by simp only [connectSons, if_neg small], last ▸ kept⟩

theorem connectPrnt_loop (forest : Forest tree (nChar - 1) weight) :
    ∃ result, forRange tableSize connectPrnt tree = some result ∧ result.freq = tree.freq ∧
      result.son = tree.son ∧ Connected result tableSize ∧
      result.prnt rootPosition = tree.prnt rootPosition := by
  have size : nChar + (nChar - 1) = tableSize := rfl
  have kind := forest.kind
  have distinct := forest.distinct
  rw [size] at kind distinct
  refine forRange_total (fun i result => result.freq = tree.freq ∧ result.son = tree.son ∧
    Connected result i ∧ result.prnt rootPosition = tree.prnt rootPosition) ?_
    ⟨rfl, rfl, fun p inside => absurd inside (Nat.not_lt_zero p), rfl⟩
  rintro i result bound ⟨freq, son, connected, top⟩
  have inside : result.son i < tableSize + nChar := by
    rw [son]
    rcases kind i bound with leaf | node
    · exact leaf.2
    · lia
  refine ⟨{ result with prnt := adopted result.prnt (result.son i) i }, ?_, freq, son, ?_, ?_⟩
  · rw [connectPrnt, getSon, load_some bound]
    exact adopt_some inside i
  · intro p early x child
    change adopted result.prnt (result.son i) i x = p
    change Child (result.son p) x at child
    rw [adopted]
    by_cases last : p = i
    · rw [if_pos (last ▸ child), last]
    · rw [if_neg, connected p (by omega) x child]
      -- two nodes have no child in common
      intro other
      have apart : tree.son p ≠ tree.son i := fun same => last (distinct p (by omega) i bound same)
      rw [son] at child other
      unfold Child at child other
      rcases kind p (by omega) with leaf | node <;> rcases kind i bound with leaf' | node' <;> lia
  · change adopted result.prnt (result.son i) i rootPosition = _
    rw [adopted, if_neg, top]
    intro child
    rw [son] at child
    unfold Child at child
    rcases kind i bound with leaf | node <;> lia

/-- The leaves of the first `i` nodes are the first `j` of the table. -/
structure Collected (origin : HuffmanTree) (i j : Nat) (tree : HuffmanTree) : Prop where
  few : j ≤ i
  unread : ∀ p, i ≤ p → p ≤ tableSize → tree.freq p = origin.freq p ∧
    (p < tableSize → tree.son p = origin.son p)
  source : ∀ p < j, ∃ q < i, tableSize ≤ origin.son q ∧ tree.son p = origin.son q ∧
    tree.freq p = (origin.freq q + 1) / 2
  every : ∀ q < i, tableSize ≤ origin.son q → ∃ p < j, tree.son p = origin.son q
  sorted : ∀ p, p + 1 < j → tree.freq p ≤ tree.freq (p + 1)
  distinct : ∀ p < j, ∀ q < j, tree.son p = tree.son q → p = q
  prnt : tree.prnt = origin.prnt

theorem leaf_distinct {origin : HuffmanTree} (linked : Linked origin) {p q : Nat}
    (first : p < tableSize) (second : q < tableSize) (leaf : tableSize ≤ origin.son p)
    (same : origin.son p = origin.son q) : p = q := by
  rcases linked.kind p first with one | inner
  · rcases linked.kind q second with two | inner
    · rw [← one.2.2, same, two.2.2]
    · lia
  · lia

theorem collectLeaf_total {origin : HuffmanTree} (invariant : Invariant origin) {i j : Nat}
    (collected : Collected origin i j tree) (inside : i < tableSize) :
    ∃ next, collectLeaf i (j, tree) = some next ∧ Collected origin (i + 1) next.1 next.2 := by
  obtain ⟨few, unread, source, every, sorted, distinct, prnt⟩ := collected
  obtain ⟨sameFreq, sameSon⟩ := unread i (Nat.le_refl i) (by lia)
  have readSon : tree.getSon i = some (origin.son i) := by
    rw [getSon, load_some inside, sameSon inside]
  by_cases leaf : tableSize ≤ origin.son i
  · have readFreq : tree.getFreq i = some (origin.freq i) := by
      rw [getFreq, load_some (by lia), sameFreq]
    have readAgain : (⟨put tree.freq j ((origin.freq i + 1) / 2), tree.prnt, tree.son⟩ :
        HuffmanTree).getSon i = some (origin.son i) := readSon
    refine ⟨(j + 1, ⟨put tree.freq j ((origin.freq i + 1) / 2), tree.prnt,
      put tree.son j (origin.son i)⟩), ?_, ?_⟩
    · simp only [collectLeaf, readSon, readFreq, if_pos leaf, Option.bind_eq_bind, Option.bind_some]
      rw [setFreq_some (by lia), Option.bind_some, readAgain, Option.bind_some,
        setSon_some (by lia), Option.bind_some]
    · refine ⟨by simp only; omega, ?_, ?_, ?_, ?_, ?_, prnt⟩
      · intro p late bound
        have kept := unread p (by omega) bound
        exact ⟨(put_other (by omega)).trans kept.1,
          fun node => (put_other (by omega)).trans (kept.2 node)⟩
      · intro p early
        by_cases last : p = j
        · rw [last]
          exact ⟨i, by omega, leaf, put_same, put_same⟩
        · obtain ⟨q, before, leaf, son, freq⟩ := source p (by simp only at early; omega)
          exact ⟨q, by omega, leaf, (put_other last).trans son, (put_other last).trans freq⟩
      · intro q early leaf'
        by_cases last : q = i
        · exact ⟨j, by simp only; omega, by rw [last]; exact put_same⟩
        · obtain ⟨p, before, son⟩ := every q (by omega) leaf'
          exact ⟨p, by simp only; omega, (put_other (by omega)).trans son⟩
      · intro p early
        simp only at early
        by_cases last : p + 1 = j
        · change put tree.freq j _ p ≤ put tree.freq j _ (p + 1)
          rw [last, put_same, put_other (by omega)]
          obtain ⟨q, before, -, -, freq⟩ := source p (by omega)
          have order := invariant.weighted.monotone (show q ≤ i by omega) (by lia)
          rw [freq]
          omega
        · change put tree.freq j _ p ≤ put tree.freq j _ (p + 1)
          rw [put_other (by omega), put_other (by omega)]
          exact sorted p (by omega)
      · -- the leaf is none of those collected before
        have fresh : ∀ p < j, tree.son p ≠ origin.son i := by
          intro p early same
          obtain ⟨q, before, leaf', son, -⟩ := source p early
          have together := leaf_distinct invariant.linked (show q < tableSize by omega) inside leaf'
            (son.symm.trans same)
          omega
        intro p first q second same
        change put tree.son j _ p = put tree.son j _ q at same
        simp only at first second
        by_cases firstLast : p = j
        · by_cases secondLast : q = j
          · rw [firstLast, secondLast]
          · rw [firstLast, put_same, put_other secondLast] at same
            exact absurd same.symm (fresh q (by omega))
        · by_cases secondLast : q = j
          · rw [secondLast, put_same, put_other firstLast] at same
            exact absurd same (fresh p (by omega))
          · rw [put_other firstLast, put_other secondLast] at same
            exact distinct p (by omega) q (by omega) same
  · refine ⟨(j, tree), ?_, by simp only; omega, ?_, ?_, ?_, sorted, distinct, prnt⟩
    · simp only [collectLeaf, readSon, if_neg leaf, Option.bind_eq_bind, Option.bind_some]
    · exact fun p late bound => unread p (by omega) bound
    · intro p early
      obtain ⟨q, before, rest⟩ := source p early
      exact ⟨q, by omega, rest⟩
    · intro q early leaf'
      by_cases last : q = i
      · exact absurd (last ▸ leaf') leaf
      · exact every q (by omega) leaf'

theorem Collected.count {origin : HuffmanTree} (linked : Linked origin) {j : Nat}
    (collected : Collected origin tableSize j tree) : j = nChar := by
  have symbols : ∀ p < j, tableSize ≤ tree.son p ∧ tree.son p < tableSize + nChar := by
    intro p early
    obtain ⟨q, inside, leaf, son, -⟩ := collected.source p early
    rw [son]
    exact ⟨leaf, linked.son_inside inside⟩
  have atMost : j ≤ nChar := by
    suffices card : (Finset.range j).card ≤ (Finset.range nChar).card by simpa using card
    refine Finset.card_le_card_of_injOn (fun p => tree.son p - tableSize) ?_ ?_
    · intro p member
      have range := symbols p (by simpa using member)
      simp only [Finset.coe_range, Set.mem_Iio]
      lia
    · intro p first q second same
      have one := symbols p (by simpa using first)
      have two := symbols q (by simpa using second)
      simp only at same
      exact collected.distinct p (by simpa using first) q (by simpa using second) (by lia)
  have atLeast : nChar ≤ j := by
    suffices card : (Finset.range nChar).card ≤ (Finset.range j).card by simpa using card
    refine Finset.card_le_card_of_surjOn (fun p => tree.son p - tableSize) ?_
    intro d member
    have symbol : d < nChar := by simpa using member
    have leaf := linked.leaf d symbol
    obtain ⟨p, early, son⟩ := collected.every _ leaf.1 (by rw [leaf.2]; lia)
    refine ⟨p, by simpa using early, ?_⟩
    simp only
    rw [son, leaf.2]
    lia
  omega

theorem Collected.forest {origin : HuffmanTree} (invariant : Invariant origin)
    (collected : Collected origin tableSize nChar tree) :
    Rebuilding origin (fun d => (origin.symbolFreq d + 1) / 2) 0 tree := by
  refine ⟨⟨?_, collected.sorted, ?_, ?_, ?_, collected.distinct⟩, ?_, collected.prnt⟩
  · obtain ⟨q, inside, -, -, freq⟩ := collected.source 0 (by lia)
    have positive := invariant.weighted.pos (show q ≤ rootPosition by lia)
    omega
  · intro p early
    obtain ⟨q, inside, leaf, son, -⟩ := collected.source p early
    rw [son]
    exact .inl ⟨leaf, invariant.linked.son_inside inside⟩
  · intro d symbol
    have leaf := invariant.linked.leaf d symbol
    obtain ⟨p, early, son⟩ := collected.every _ leaf.1 (by rw [leaf.2]; lia)
    obtain ⟨q, inside, leaf', son', freq⟩ := collected.source p early
    have same := leaf_distinct invariant.linked inside leaf.1 leaf' (son'.symm.trans son)
    refine ⟨p, early, son.trans leaf.2, ?_⟩
    rw [freq, same]
    rfl
  · exact fun s none => absurd none (Nat.not_lt_zero s)
  · rw [(collected.unread tableSize (Nat.le_refl _) (Nat.le_refl _)).1]
    exact invariant.weighted.sentinel

/-- `reconst` keeps the invariant and halves the counts, and the tree has room again. -/
theorem reconst_total (invariant : Invariant tree) :
    ∃ result, tree.reconst = some result ∧ Invariant result ∧
      (∀ d < nChar, result.symbolFreq d = (tree.symbolFreq d + 1) / 2) ∧
      result.freq rootPosition < maxFreq := by
  have gathering : ∃ result, forRange tableSize collectLeaf (0, tree) = some result ∧
      Collected tree tableSize result.1 result.2 := by
    refine forRange_total (fun i (state : Nat × HuffmanTree) => Collected tree i state.1 state.2)
      (fun i state inside collected => collectLeaf_total invariant collected inside) ?_
    exact ⟨Nat.le_refl 0, fun p _ _ => ⟨rfl, fun _ => rfl⟩,
      fun p none => absurd none (Nat.not_lt_zero p), fun q none => absurd none (Nat.not_lt_zero q),
      fun p none => absurd none (Nat.not_lt_zero _), fun p none => absurd none (Nat.not_lt_zero p),
      rfl⟩
  obtain ⟨⟨j, gathered⟩, gathers, collected⟩ := gathering
  obtain rfl : j = nChar := collected.count invariant.linked
  obtain ⟨rebuilt, rebuilds, forest, guard, prnt⟩ :=
    connectSons_loop (collected.forest invariant)
  obtain ⟨result, connects, freq, son, connected, top⟩ := connectPrnt_loop forest
  have half : ∑ d ∈ Finset.range nChar, (tree.symbolFreq d + 1) / 2 < maxFreq := by
    have total := root_total invariant.linked fun i inside node => by
      have sum := invariant.weighted.sums i inside node
      rwa [if_neg (by omega), Nat.add_zero] at sum
    have bounded := invariant.weighted.bounded
    rw [if_neg (Nat.lt_irrefl _), Nat.add_zero] at bounded
    have twice : 2 * ∑ d ∈ Finset.range nChar, (tree.symbolFreq d + 1) / 2 ≤
        ∑ d ∈ Finset.range nChar, (tree.symbolFreq d + 1) := by
      rw [Finset.mul_sum]
      exact Finset.sum_le_sum fun d _ => by omega
    rw [Finset.sum_add_distrib, Finset.sum_const, Finset.card_range] at twice
    simp only [Nat.nsmul_eq_mul, Nat.mul_one] at twice
    lia
  have kept := (forest.of_same freq son).invariant connected (by rw [top, prnt, invariant.linked.top])
    (by rw [freq, guard]) (Nat.le_of_lt half)
  refine ⟨result, ?_, kept.1, kept.2, ?_⟩
  · simp only [reconst, gathers, rebuilds, Option.bind_eq_bind, Option.bind_some]
    exact connects
  · rw [root_total kept.1.linked fun i inside node => by
      have sum := kept.1.weighted.sums i inside node
      rwa [if_neg (by omega), Nat.add_zero] at sum,
      Finset.sum_congr rfl fun d member => kept.2 d (Finset.mem_range.mp member)]
    exact half

end Reconst

section Start

variable {tree : HuffmanTree} {t : Nat}

/-- After `i` leaves. -/
structure Leaves (i : Nat) (tree : HuffmanTree) : Prop where
  freq : ∀ p < i, tree.freq p = 1
  son : ∀ p < i, tree.son p = p + tableSize
  prnt : ∀ p < i, tree.prnt (p + tableSize) = p

theorem startLeaf_total {i : Nat} (symbol : i < nChar) (leaves : Leaves i tree) :
    ∃ next, startLeaf i tree = some next ∧ Leaves (i + 1) next := by
  refine ⟨⟨put tree.freq i 1, put tree.prnt (i + tableSize) i, put tree.son i (i + tableSize)⟩,
    ?_, ?_, ?_, ?_⟩
  · simp only [startLeaf, Option.bind_eq_bind]
    rw [setFreq_some (by lia), Option.bind_some, setSon_some (by lia), Option.bind_some,
      setPrnt_some (by lia)]
  · intro p early
    by_cases last : p = i
    · rw [last]
      exact put_same
    · exact (put_other last).trans (leaves.freq p (by omega))
  · intro p early
    by_cases last : p = i
    · rw [last]
      exact put_same
    · exact (put_other last).trans (leaves.son p (by omega))
  · intro p early
    simp only [put_apply]
    by_cases last : p = i
    · rw [if_pos (by rw [last]), last]
    · rw [if_neg (by omega)]
      exact leaves.prnt p (by omega)

/-- After `t` pairs. -/
structure Started (t : Nat) (tree : HuffmanTree) : Prop where
  forest : Forest tree t fun _ => 1
  leaves : Leaves nChar tree
  nodes : ∀ s < t, tree.son (nChar + s) = 2 * s
  connected : Connected tree (nChar + t)

theorem Leaves.started (leaves : Leaves nChar tree) : Started 0 tree := by
  refine ⟨⟨?_, ?_, ?_, ?_, ?_, ?_⟩, leaves, fun s none => absurd none (Nat.not_lt_zero s), ?_⟩
  · rw [leaves.freq 0 (by lia)]
    exact Nat.one_pos
  · intro p inside
    rw [leaves.freq p (by lia), leaves.freq (p + 1) (by lia)]
  · intro p inside
    rw [leaves.son p (by lia)]
    exact .inl ⟨by lia, by lia⟩
  · exact fun d symbol => ⟨d, by lia, leaves.son d symbol, leaves.freq d symbol⟩
  · exact fun s none => absurd none (Nat.not_lt_zero s)
  · intro p first q second same
    rw [leaves.son p (by lia), leaves.son q (by lia)] at same
    omega
  · intro p inside x child
    unfold Child at child
    rw [leaves.son p (by lia)] at child
    have same : x = p + tableSize := by lia
    rw [same]
    exact leaves.prnt p (by lia)

theorem startNode_total (started : Started t tree) (small : nChar + t < tableSize) :
    ∃ next, startNode (2 * t, nChar + t, tree) =
      some (.inl (2 * (t + 1), nChar + (t + 1), next)) ∧ Started (t + 1) next := by
  obtain ⟨forest, leaves, nodes, connected⟩ := started
  let next : HuffmanTree :=
    { freq := put tree.freq (nChar + t) (tree.freq (2 * t) + tree.freq (2 * t + 1))
      prnt := put (put tree.prnt (2 * t + 1) (nChar + t)) (2 * t) (nChar + t)
      son := put tree.son (nChar + t) (2 * t) }
  have below : ∀ p < nChar + t, next.freq p = tree.freq p ∧ next.son p = tree.son p :=
    fun p early => ⟨put_other (by omega), put_other (by omega)⟩
  refine ⟨next, ?_, ?_, ?_, ?_, ?_⟩
  · simp only [startNode, if_pos (show nChar + t ≤ rootPosition by lia), Option.bind_eq_bind]
    rw [getFreq_some (by lia), Option.bind_some, getFreq_some (by lia), Option.bind_some,
      setFreq_some (by lia), Option.bind_some, setSon_some (by lia), Option.bind_some,
      setPrnt_some (by lia), Option.bind_some, setPrnt_some (by lia)]
    rfl
  · -- the new node is not lighter than the one before
    refine forest.insert (show 2 * t + 1 < nChar + t by lia) (Nat.le_refl _) small below
      ⟨put_same, put_same⟩ (fun p late inside => by omega) ?_ (fun p late inside => by omega)
    cases t with
    | zero =>
        rw [leaves.freq _ (by lia), leaves.freq _ (by lia), leaves.freq _ (by lia)]
        decide
    | succ t =>
        have son := nodes t (by omega)
        rw [show nChar + (t + 1) - 1 = nChar + t by omega]
        rcases forest.kind (nChar + t) (by omega) with leaf | node
        · lia
        · rw [node.2.2.2, son]
          have one := forest.sorted (2 * t) (by lia)
          have two : tree.freq (2 * t + 1) ≤ tree.freq (2 * t + 2) :=
            forest.sorted (2 * t + 1) (by lia)
          have three := forest.sorted (2 * t + 2) (by lia)
          rw [show 2 * (t + 1) = 2 * t + 2 by omega]
          omega
  · refine ⟨fun p early => ?_, fun p early => ?_, fun p early => ?_⟩
    · rw [(below p (by omega)).1]
      exact leaves.freq p early
    · rw [(below p (by omega)).2]
      exact leaves.son p early
    · exact (put_other (by lia)).trans ((put_other (by lia)).trans (leaves.prnt p early))
  · intro s early
    by_cases last : s = t
    · rw [last]
      exact put_same
    · exact (put_other (by omega)).trans (nodes s (by omega))
  · intro p early x child
    change put (put tree.prnt (2 * t + 1) (nChar + t)) (2 * t) (nChar + t) x = p
    change Child (put tree.son (nChar + t) (2 * t) p) x at child
    unfold Child at child
    by_cases last : p = nChar + t
    · rw [last, put_same] at child
      rw [last]
      rcases child with first | ⟨-, second⟩
      · rw [first, put_same]
      · rw [second, put_other (by omega), put_same]
    · rw [put_other last] at child
      have old := connected p (by omega) x child
      rcases forest.kind p (by omega) with leaf | node
      · rw [put_other (by lia), put_other (by lia)]
        exact old
      · rw [put_other (by omega), put_other (by omega)]
        exact old

theorem startHuff_total (tree : HuffmanTree) :
    ∃ result, tree.startHuff = some result ∧ Invariant result ∧
      ∀ d < nChar, result.symbolFreq d = 1 := by
  have leafLoop : ∃ result, forRange nChar startLeaf tree = some result ∧ Leaves nChar result :=
    forRange_total (fun i tree => Leaves i tree)
      (fun i tree symbol leaves => startLeaf_total symbol leaves)
      ⟨fun p none => absurd none (Nat.not_lt_zero p), fun p none => absurd none (Nat.not_lt_zero p),
        fun p none => absurd none (Nat.not_lt_zero p)⟩
  obtain ⟨leafy, makes, leaves⟩ := leafLoop
  have nodeLoop : ∃ result, iterate startNode tableSize (0, nChar, leafy) = some result ∧
      Started (nChar - 1) result := by
    refine iterate_total (fun left state => ∃ t tree, left + t = nChar - 1 ∧
      state = (2 * t, nChar + t, tree) ∧ Started t tree) ?_ (nChar - 1) (by lia)
      ⟨0, leafy, rfl, rfl, leaves.started⟩
    rintro left _ ⟨t, tree, count, rfl, kept⟩
    by_cases small : nChar + t < tableSize
    · obtain ⟨next, again, kept⟩ := startNode_total kept small
      exact .inl ⟨_, again, left - 1, by lia, t + 1, next, by lia, rfl, kept⟩
    · have last : t = nChar - 1 := by lia
      refine .inr ⟨tree, ?_, last ▸ kept⟩
      simp only [startNode, if_neg (show ¬ nChar + t ≤ rootPosition by lia)]
  obtain ⟨grown, grows, forest, -, -, connected⟩ := nodeLoop
  let result : HuffmanTree :=
    { grown with
      freq := put grown.freq tableSize sentinel
      prnt := put grown.prnt rootPosition 0 }
  have guarded : Forest result (nChar - 1) fun _ => 1 := by
    have same : ∀ p < nChar + (nChar - 1), result.freq p = grown.freq p :=
      fun p inside => put_other (by lia)
    obtain ⟨positive, sorted, kind, leaf, pair, distinct⟩ := forest
    refine ⟨by rw [same 0 (by lia)]; exact positive, ?_, ?_, ?_, pair, distinct⟩
    · intro p inside
      rw [same p (by omega), same (p + 1) inside]
      exact sorted p inside
    · intro p inside
      rcases kind p inside with isLeaf | node
      · exact .inl isLeaf
      · refine .inr ⟨node.1, node.2.1, node.2.2.1, ?_⟩
        change result.freq p = result.freq (grown.son p) + result.freq (grown.son p + 1)
        rw [same p inside, same _ (by omega), same _ (by omega)]
        exact node.2.2.2
    · intro d symbol
      obtain ⟨p, inside, son, freq⟩ := leaf d symbol
      exact ⟨p, inside, son, (same p inside).trans freq⟩
  have parents : Connected result tableSize := by
    intro p inside x child
    change put grown.prnt rootPosition 0 x = p
    have notRoot : x ≠ rootPosition := by
      change Child (grown.son p) x at child
      unfold Child at child
      rcases forest.kind p (by lia) with leaf | node <;> lia
    rw [put_other notRoot]
    exact connected p (by lia) x child
  have guard : put grown.freq tableSize sentinel tableSize = sentinel := put_same
  have top : put grown.prnt rootPosition 0 rootPosition = 0 := put_same
  have kept := guarded.invariant parents top guard (by simp; decide)
  refine ⟨result, ?_, kept⟩
  simp only [startHuff, makes, grows, Option.bind_eq_bind, Option.bind_some]
  rw [setFreq_some (by lia), Option.bind_some, setPrnt_some (by lia)]

end Start

theorem update_total {tree : HuffmanTree} (invariant : Invariant tree) {c : Nat}
    (symbol : c < nChar) : ∃ result, tree.update c = some result ∧ Invariant result := by
  have readRoot : tree.getFreq rootPosition = some (tree.freq rootPosition) :=
    getFreq_some (by lia)
  have readLeaf : ∀ tree : HuffmanTree, tree.getPrnt (c + tableSize) =
      some (tree.prnt (c + tableSize)) := fun tree => getPrnt_some (by lia)
  have bounded := invariant.weighted.bounded
  rw [if_neg (Nat.lt_irrefl _), Nat.add_zero] at bounded
  by_cases full : tree.freq rootPosition = maxFreq
  · obtain ⟨rebuilt, rebuilds, kept, -, room⟩ := reconst_total invariant
    obtain ⟨result, raises, kept, -⟩ := raises_total (kept.carry symbol room)
    refine ⟨result, ?_, kept⟩
    simp only [update, readRoot, readLeaf, if_pos full, rebuilds, Option.bind_eq_bind,
      Option.bind_some]
    exact raises
  · obtain ⟨result, raises, kept, -⟩ := raises_total (invariant.carry symbol (by omega))
    refine ⟨result, ?_, kept⟩
    simp only [update, readRoot, readLeaf, if_neg full, Option.bind_eq_bind, Option.bind_some]
    exact raises

theorem update_counts {tree : HuffmanTree} (invariant : Invariant tree) {c : Nat}
    (symbol : c < nChar) (room : tree.freq rootPosition < maxFreq) :
    ∃ result, tree.update c = some result ∧ Invariant result ∧
      ∀ d < nChar, result.symbolFreq d = tree.symbolFreq d + if d = c then 1 else 0 := by
  have readRoot : tree.getFreq rootPosition = some (tree.freq rootPosition) :=
    getFreq_some (by lia)
  have readLeaf : tree.getPrnt (c + tableSize) = some (tree.prnt (c + tableSize)) :=
    getPrnt_some (by lia)
  obtain ⟨result, raises, kept, counts⟩ := raises_total (invariant.carry symbol room)
  refine ⟨result, ?_, kept, ?_⟩
  · simp only [update, readRoot, readLeaf, if_neg (show ¬ tree.freq rootPosition = maxFreq by omega),
      Option.bind_eq_bind, Option.bind_some]
    exact raises
  · intro d bound
    have count := counts d bound
    rwa [if_neg (by have := (kept.linked.leaf d bound).1; omega), Nat.add_zero] at count

theorem updates_total {tree : HuffmanTree} (invariant : Invariant tree) (symbols : List Nat)
    (known : ∀ c ∈ symbols, c < nChar) :
    ∃ result, symbols.foldlM update tree = some result ∧ Invariant result := by
  induction symbols generalizing tree with
  | nil => exact ⟨tree, rfl, invariant⟩
  | cons c rest ih =>
      obtain ⟨next, updates, kept⟩ := update_total invariant (known c (by simp))
      obtain ⟨result, more, kept⟩ := ih kept fun d member => known d (by simp [member])
      exact ⟨result, by rw [List.foldlM_cons, updates]; exact more, kept⟩

/-- Every sequence of updates after `StartHuff` runs to its end inside the tables and leaves
a tree with the invariant. -/
theorem huffman_invariant (tree : HuffmanTree) (symbols : List Nat)
    (known : ∀ c ∈ symbols, c < nChar) :
    ∃ result, (do symbols.foldlM update (← tree.startHuff)) = some result ∧ Invariant result := by
  obtain ⟨started, starts, kept, -⟩ := startHuff_total tree
  obtain ⟨result, updates, kept⟩ := updates_total kept symbols known
  exact ⟨result, by simp only [starts, Option.bind_eq_bind, Option.bind_some]; exact updates, kept⟩

theorem huffman_invariant_sample :
    ∃ result, (do [65, 65, 313, 0].foldlM update (← (⟨id, id, id⟩ : HuffmanTree).startHuff)) =
      some result ∧ Invariant result :=
  huffman_invariant ⟨id, id, id⟩ [65, 65, 313, 0] (by decide)

end HuffmanTree

end PaclinkUnix
