import PaclinkUnix.Codewords
import Mathlib.Data.Finset.Card

/-!
How long a code can become. The positions of the nodes up to some weight are counted: a
node is a leaf or the parent of a pair of neighbours, so the table is known layer by layer
when the weights of the symbols are. A history of 27900 symbols after which some of the
others have codes of 17 bits and more.
-/

namespace PaclinkUnix

open Memory

namespace HuffmanTree

/-- How many symbols count no more than this. -/
def lightSymbols (tree : HuffmanTree) (y : Nat) : Nat :=
  ((Finset.range nChar).filter fun c => tree.symbolFreq c ≤ y).card

section Counting

variable {tree : HuffmanTree} {m l y : Nat}

theorem Invariant.pair_light (invariant : Invariant tree) {j : Nat} (order : j < m)
    (inside : 2 * m ≤ rootPosition) (light : tree.freq (2 * m - 2) + tree.freq (2 * m - 1) ≤ y) :
    tree.freq (tree.prnt (2 * j)) ≤ y := by
  have sum := invariant.pair (show 2 * j < rootPosition by omega)
  rw [show 2 * j % 2 = 0 by omega, Nat.sub_zero] at sum
  have first := invariant.weighted.monotone (show 2 * j ≤ 2 * m - 2 by omega) (by omega)
  have second := invariant.weighted.monotone (show 2 * j + 1 ≤ 2 * m - 1 by omega) (by omega)
  omega

theorem Invariant.filled (invariant : Invariant tree) (inside : 2 * m ≤ rootPosition)
    (light : 0 < m → tree.freq (2 * m - 2) + tree.freq (2 * m - 1) ≤ y)
    (symbols : l ≤ tree.lightSymbols y) (positive : 0 < l + m) : tree.freq (l + m - 1) ≤ y := by
  by_contra heavy
  have linked := invariant.linked
  have early : ∀ i ≤ rootPosition, tree.freq i ≤ y → i < l + m - 1 := fun i bound small =>
    invariant.weighted.earlier bound (by omega)
  let leaves := ((Finset.range nChar).filter fun c => tree.symbolFreq c ≤ y).image
    fun c => tree.prnt (c + tableSize)
  let parents := (Finset.range m).image fun j => tree.prnt (2 * j)
  have leafCount : leaves.card = tree.lightSymbols y := by
    refine Finset.card_image_of_injOn fun c first d second same => ?_
    have one := linked.leaf c (Finset.mem_range.mp (Finset.mem_filter.mp first).1)
    have two := linked.leaf d (Finset.mem_range.mp (Finset.mem_filter.mp second).1)
    have sons := congrArg tree.son same
    simp only [one.2, two.2] at sons
    omega
  have sonOf : ∀ j < m, tree.son (tree.prnt (2 * j)) = 2 * j := by
    intro j order
    have son := (linked.parent (2 * j) (by omega)).2.2
    omega
  have parentCount : parents.card = m := by
    rw [Finset.card_image_of_injOn, Finset.card_range]
    intro i first j second same
    have sons := congrArg tree.son same
    simp only [sonOf i (Finset.mem_range.mp first), sonOf j (Finset.mem_range.mp second)] at sons
    omega
  have apart : Disjoint leaves parents := by
    rw [Finset.disjoint_left]
    intro i leaf parent
    obtain ⟨c, listed, rfl⟩ := Finset.mem_image.mp leaf
    obtain ⟨j, order, same⟩ := Finset.mem_image.mp parent
    have one := linked.leaf c (Finset.mem_range.mp (Finset.mem_filter.mp listed).1)
    have two := sonOf j (Finset.mem_range.mp order)
    have bound := Finset.mem_range.mp order
    rw [same, one.2] at two
    lia
  have placed : leaves ∪ parents ⊆ Finset.range (l + m - 1) := by
    intro i member
    rw [Finset.mem_range]
    rcases Finset.mem_union.mp member with leaf | parent
    · obtain ⟨c, listed, rfl⟩ := Finset.mem_image.mp leaf
      obtain ⟨symbol, small⟩ := Finset.mem_filter.mp listed
      have bound := (linked.leaf c (Finset.mem_range.mp symbol)).1
      exact early _ (by lia) small
    · obtain ⟨j, order, rfl⟩ := Finset.mem_image.mp parent
      have bound := Finset.mem_range.mp order
      have up := linked.parent (2 * j) (by omega)
      exact early _ up.2.1 (invariant.pair_light bound inside (light (by omega)))
  have count := Finset.card_le_card placed
  rw [Finset.card_union_of_disjoint apart, leafCount, parentCount, Finset.card_range] at count
  omega

/-- No more positions are filled than there are light symbols and light pairs. -/
theorem Invariant.unfilled (invariant : Invariant tree)
    (heavy : y < tree.freq (2 * m) + tree.freq (2 * m + 1)) (symbols : tree.lightSymbols y ≤ l)
    (below : l + m ≤ rootPosition) : y < tree.freq (l + m) := by
  by_contra full
  have linked := invariant.linked
  have small : ∀ i < l + m + 1, tree.freq i ≤ y := fun i bound =>
    (invariant.weighted.monotone (show i ≤ l + m by omega) below).trans (by omega)
  have leafCount : ((Finset.range (l + m + 1)).filter fun i => tableSize ≤ tree.son i).card ≤ l := by
    refine le_trans (Finset.card_le_card_of_injOn (fun i => tree.son i - tableSize) ?_ ?_) symbols
    · intro i member
      obtain ⟨bound, leaf⟩ := Finset.mem_filter.mp member
      have bound := Finset.mem_range.mp bound
      have known := linked.son_inside (show i < tableSize by lia)
      have place : tree.prnt (tree.son i - tableSize + tableSize) = i := by
        rw [Nat.sub_add_cancel leaf]
        exact linked.child_parent (by lia) (.inl rfl)
      refine Finset.mem_filter.mpr ⟨Finset.mem_range.mpr (by lia), ?_⟩
      rw [symbolFreq, place]
      exact small i bound
    · intro i first j second same
      obtain ⟨one, leaf⟩ := Finset.mem_filter.mp first
      obtain ⟨two, other⟩ := Finset.mem_filter.mp second
      have sons : tree.son i = tree.son j := by
        simp only at same
        omega
      have back := linked.child_parent (i := i) (x := tree.son i)
        (by have := Finset.mem_range.mp one; lia) (.inl rfl)
      have again := linked.child_parent (i := j) (x := tree.son j)
        (by have := Finset.mem_range.mp two; lia) (.inl rfl)
      rw [← back, ← again, sons]
  have parentCount :
      ((Finset.range (l + m + 1)).filter fun i => ¬ tableSize ≤ tree.son i).card ≤ m := by
    have pairs : ∀ i < l + m + 1, ¬ tableSize ≤ tree.son i →
        tree.son i % 2 = 0 ∧ tree.prnt (tree.son i) = i ∧ tree.son i < 2 * m := by
      intro i bound node
      obtain ⟨before, even, back, -⟩ := linked.sons (k := i) (by lia) (by lia)
      refine ⟨even, back, ?_⟩
      by_contra late
      have sum := invariant.weighted.sums i (by lia) (by lia)
      rw [if_neg (by lia), Nat.add_zero] at sum
      have first := invariant.weighted.monotone (show 2 * m ≤ tree.son i by omega) (by lia)
      have second := invariant.weighted.monotone (show 2 * m + 1 ≤ tree.son i + 1 by omega) (by lia)
      have light := small i bound
      omega
    refine le_trans (Finset.card_le_card_of_injOn (fun i => tree.son i / 2) ?_ ?_)
      (Finset.card_range m).le
    · intro i member
      obtain ⟨bound, node⟩ := Finset.mem_filter.mp member
      obtain ⟨even, -, order⟩ := pairs i (Finset.mem_range.mp bound) node
      exact Finset.mem_range.mpr (show tree.son i / 2 < m by omega)
    · intro i first j second same
      obtain ⟨one, node⟩ := Finset.mem_filter.mp first
      obtain ⟨two, other⟩ := Finset.mem_filter.mp second
      obtain ⟨even, back, -⟩ := pairs i (Finset.mem_range.mp one) node
      obtain ⟨also, again, -⟩ := pairs j (Finset.mem_range.mp two) other
      have sons : tree.son i = tree.son j := by
        simp only at same
        omega
      rw [← back, ← again, sons]
  have count := Finset.card_filter_add_card_filter_not (s := Finset.range (l + m + 1))
    (fun i => tableSize ≤ tree.son i)
  rw [Finset.card_range] at count
  omega

end Counting

section Layers

variable {tree : HuffmanTree} {m n d x h t u k : Nat}

/-- The positions in front of `n` are those that count no more than `x`. -/
structure Level (tree : HuffmanTree) (n x : Nat) : Prop where
  light : ∀ i < n, tree.freq i ≤ x
  heavy : x < tree.freq n

/-- This many steps up from here there is still a parent. -/
def Deep (tree : HuffmanTree) : Nat → Nat → Prop
  | 0, _ => True
  | d + 1, k => k < rootPosition ∧ Deep tree d (tree.prnt k)

theorem Level.first (invariant : Invariant tree) (symbols : tree.lightSymbols 1 = n)
    (positive : 0 < n) (bound : n ≤ rootPosition) : Level tree n 1 := by
  have one := invariant.weighted.pos (show 0 ≤ rootPosition by lia)
  have two := invariant.weighted.pos (show 1 ≤ rootPosition by lia)
  have last := invariant.filled (m := 0) (y := 1) (by lia) (by omega) symbols.ge (by omega)
  have next := invariant.unfilled (m := 0) (y := 1)
    (show 1 < tree.freq (2 * 0) + tree.freq (2 * 0 + 1) by
      change 1 < tree.freq 0 + tree.freq 1
      omega) symbols.le (by omega)
  exact ⟨fun i order => (invariant.weighted.monotone (show i ≤ n + 0 - 1 by omega) (by omega)).trans last,
    next⟩

/-- The pairs of a layer without an odd node are the nodes of the next one. -/
theorem Level.double (level : Level tree (2 * m) x) (invariant : Invariant tree) (positive : 0 < m)
    (inside : 2 * m + 1 ≤ rootPosition) (symbols : tree.lightSymbols (2 * x) = l)
    (bound : l + m ≤ rootPosition) : Level tree (l + m) (2 * x) := by
  have first := level.light (2 * m - 2) (by omega)
  have second := level.light (2 * m - 1) (by omega)
  have later := invariant.weighted.sorted (2 * m) (by omega)
  have heavy := level.heavy
  have last := invariant.filled (y := 2 * x) (show 2 * m ≤ rootPosition by omega)
    (fun _ => by omega) symbols.ge (by omega)
  have next := invariant.unfilled (show 2 * x < _ by omega) symbols.le bound
  exact ⟨fun i order => (invariant.weighted.monotone (show i ≤ l + m - 1 by omega) (by omega)).trans last,
    next⟩

theorem Level.parent (level : Level tree (2 * m) x) (invariant : Invariant tree)
    (inside : 2 * m ≤ rootPosition) (above : Level tree n (2 * x)) (order : k < 2 * m) :
    tree.prnt k < n := by
  have sum := invariant.pair (show k < rootPosition by omega)
  have up := invariant.linked.parent k (by omega)
  have first := level.light (k - k % 2) (by omega)
  have second := level.light (k - k % 2 + 1) (by omega)
  have heavy := above.heavy
  by_contra late
  have more := invariant.weighted.monotone (Nat.le_of_not_lt late) up.2.1
  omega

/-- In the upper part of the table: a pair of weight up to `u`, the pair before it of weight
up to `t`, and all behind it heavier than that. -/
structure Rung (tree : HuffmanTree) (m t u : Nat) : Prop where
  before : tree.freq (2 * m - 4) + tree.freq (2 * m - 3) ≤ t
  pair : tree.freq (2 * m - 2) + tree.freq (2 * m - 1) ≤ u
  above : t < tree.freq (2 * m)

/-- A leaf of the weight of the pair before and the pair together make the next pair. -/
theorem Rung.next (rung : Rung tree m t u) (invariant : Invariant tree) (several : 2 ≤ m)
    (inside : 2 * m + 2 ≤ rootPosition) (order : t ≤ h) (short : u < 2 * t + 2)
    (leaves : tree.lightSymbols h = m + 2) (pairs : tree.lightSymbols u = m + 2) :
    Rung tree (m + 1) u (u + h) := by
  have above := rung.above
  have later := invariant.weighted.sorted (2 * m) (by omega)
  have single := invariant.filled (m := m - 1) (y := h) (by omega) (fun _ => by
    rw [show 2 * (m - 1) - 2 = 2 * m - 4 by omega, show 2 * (m - 1) - 1 = 2 * m - 3 by omega]
    exact rung.before.trans order) leaves.ge (by omega)
  have double := invariant.filled (show 2 * m ≤ rootPosition by omega) (fun _ => rung.pair) pairs.ge
    (by omega)
  have next := invariant.unfilled (m := m) (show u < _ by omega) pairs.le (by omega)
  rw [show m + 2 + (m - 1) - 1 = 2 * m by omega] at single
  rw [show m + 2 + m - 1 = 2 * m + 1 by omega] at double
  rw [show m + 2 + m = 2 * (m + 1) by omega] at next
  refine ⟨?_, ?_, next⟩
  · rw [show 2 * (m + 1) - 4 = 2 * m - 2 by omega, show 2 * (m + 1) - 3 = 2 * m - 1 by omega]
    exact rung.pair
  · rw [show 2 * (m + 1) - 2 = 2 * m by omega, show 2 * (m + 1) - 1 = 2 * m + 1 by omega]
    omega

theorem Rung.parent (rung : Rung tree m t u) (invariant : Invariant tree) (positive : 1 ≤ m)
    (inside : 2 * m ≤ rootPosition) (above : u < tree.freq (2 * (m + 1))) (order : k < 2 * m) :
    tree.prnt k < 2 * (m + 1) := by
  have sum := invariant.pair (show k < rootPosition by omega)
  have up := invariant.linked.parent k (by omega)
  have first := invariant.weighted.monotone (show k - k % 2 ≤ 2 * m - 2 by omega) (by omega)
  have second := invariant.weighted.monotone (show k - k % 2 + 1 ≤ 2 * m - 1 by omega) (by omega)
  have pair := rung.pair
  by_contra late
  have more := invariant.weighted.monotone (Nat.le_of_not_lt late) up.2.1
  omega

theorem Deep.below {n' : Nat} (inside : n ≤ rootPosition) (step : ∀ k < n, tree.prnt k < n')
    (shelf : ∀ k < n', Deep tree d k) : ∀ k < n, Deep tree (d + 1) k :=
  fun k order => ⟨by omega, shelf _ (step k order)⟩

theorem path_append (fuel k : Nat) (bits : List Bool) :
    tree.path fuel k bits = tree.path fuel k [] ++ bits := by
  induction fuel generalizing k bits with
  | zero => rfl
  | succ fuel ih =>
      rw [path, path]
      by_cases atRoot : k = rootPosition
      · rw [if_pos atRoot, if_pos atRoot, List.nil_append]
      · rw [if_neg atRoot, if_neg atRoot, ih _ (_ :: bits), ih _ [_], List.append_assoc,
          List.singleton_append]

theorem Deep.path (deep : Deep tree d k) (invariant : Invariant tree) {fuel : Nat}
    (enough : rootPosition ≤ k + fuel) : d ≤ (tree.path fuel k []).length := by
  induction d generalizing k fuel with
  | zero => exact Nat.zero_le _
  | succ d ih =>
      obtain ⟨inside, rest⟩ := deep
      obtain ⟨fuel, rfl⟩ : ∃ fewer, fuel = fewer + 1 := ⟨fuel - 1, by omega⟩
      have up := invariant.linked.parent k inside
      have longer := ih rest (show rootPosition ≤ tree.prnt k + fuel by omega)
      rw [HuffmanTree.path, if_neg (by omega), path_append, List.length_append, List.length_singleton]
      omega

end Layers

/-- A hundred symbols count once and 206 twice, and the weights of the others grow as those
of the way to the root do. -/
def steepWeight (c : Nat) : Nat :=
  if c < 42 ∨ 256 ≤ c then 1 else if c < 248 then 2
  else [513, 513, 1026, 1539, 2565, 4104, 6669, 10773].getD (c - 248) 1

def Steep (tree : HuffmanTree) : Prop := ∀ c < nChar, tree.symbolFreq c = steepWeight c

section Steepness

variable {tree : HuffmanTree}

theorem Steep.symbols (steep : Steep tree) (y : Nat) :
    tree.lightSymbols y = ((List.range nChar).filter fun c => steepWeight c ≤ y).length := by
  have same : (Finset.range nChar).filter (fun c => tree.symbolFreq c ≤ y) =
      (Finset.range nChar).filter fun c => steepWeight c ≤ y :=
    Finset.filter_congr fun c member => by rw [steep c (Finset.mem_range.mp member)]
  rw [lightSymbols, same]
  rfl

theorem Steep.layers (steep : Steep tree) (invariant : Invariant tree) :
    Level tree 100 1 ∧ Level tree 356 2 ∧ Level tree 484 4 ∧ Level tree 548 8 ∧ Level tree 580 16 ∧
      Level tree 596 32 ∧ Level tree 604 64 ∧ Level tree 608 128 ∧ Level tree 610 256 ∧
      Level tree 611 512 := by
  have double : ∀ m x, Level tree (2 * m) x → 0 < m → m ≤ 305 → tree.lightSymbols (2 * x) = 306 →
      Level tree (306 + m) (2 * x) := fun m x level some bound symbols =>
    level.double invariant some (by lia) symbols (by lia)
  have count := steep.symbols
  have l1 : Level tree 100 1 :=
    Level.first invariant (by rw [count]; decide +kernel) (by lia) (by lia)
  have l2 := double 50 1 l1 (by lia) (by lia) (by rw [count]; decide +kernel)
  have l3 := double 178 2 l2 (by lia) (by lia) (by rw [count]; decide +kernel)
  have l4 := double 242 4 l3 (by lia) (by lia) (by rw [count]; decide +kernel)
  have l5 := double 274 8 l4 (by lia) (by lia) (by rw [count]; decide +kernel)
  have l6 := double 290 16 l5 (by lia) (by lia) (by rw [count]; decide +kernel)
  have l7 := double 298 32 l6 (by lia) (by lia) (by rw [count]; decide +kernel)
  have l8 := double 302 64 l7 (by lia) (by lia) (by rw [count]; decide +kernel)
  have l9 := double 304 128 l8 (by lia) (by lia) (by rw [count]; decide +kernel)
  have l10 := double 305 256 l9 (by lia) (by lia) (by rw [count]; decide +kernel)
  exact ⟨l1, l2, l3, l4, l5, l6, l7, l8, l9, l10⟩

/-- What is no heavier than all the hundred and 206 symbols is eight steps below the root. -/
theorem Steep.top (steep : Steep tree) (invariant : Invariant tree) : ∀ k < 612, Deep tree 8 k := by
  obtain ⟨-, -, -, -, -, -, -, -, l9, l10⟩ := steep.layers invariant
  have count := steep.symbols
  have first := l9.light 608 (by omega)
  have second := l9.light 609 (by omega)
  have third := l10.light 610 (by omega)
  have heavy := l10.heavy
  have fourth := invariant.filled (m := 305) (y := 513) (l := 308) (by lia) (fun _ => by
    change tree.freq 608 + tree.freq 609 ≤ 513
    omega) (by rw [count]; decide +kernel) (by lia)
  have later : tree.freq 611 ≤ tree.freq 612 := invariant.weighted.sorted 611 (by lia)
  have r0 : Rung tree 306 512 1025 := by
    refine ⟨?_, ?_, ?_⟩
    · change tree.freq 608 + tree.freq 609 ≤ 512
      omega
    · change tree.freq 610 + tree.freq 611 ≤ 1025
      change tree.freq 612 ≤ 513 at fourth
      omega
    · change 512 < tree.freq 612
      omega
  have next : ∀ m t u h, Rung tree m t u → 2 ≤ m → m ≤ 312 → t ≤ h → u < 2 * t + 2 →
      tree.lightSymbols h = m + 2 → tree.lightSymbols u = m + 2 → Rung tree (m + 1) u (u + h) :=
    fun m t u h rung some bound => rung.next invariant some (by lia)
  have r1 := next 306 512 1025 513 r0 (by lia) (by lia) (by lia) (by lia)
    (by rw [count]; decide +kernel) (by rw [count]; decide +kernel)
  have r2 := next 307 1025 1538 1026 r1 (by lia) (by lia) (by lia) (by lia)
    (by rw [count]; decide +kernel) (by rw [count]; decide +kernel)
  have r3 := next 308 1538 2564 1539 r2 (by lia) (by lia) (by lia) (by lia)
    (by rw [count]; decide +kernel) (by rw [count]; decide +kernel)
  have r4 := next 309 2564 4103 2565 r3 (by lia) (by lia) (by lia) (by lia)
    (by rw [count]; decide +kernel) (by rw [count]; decide +kernel)
  have r5 := next 310 4103 6668 4104 r4 (by lia) (by lia) (by lia) (by lia)
    (by rw [count]; decide +kernel) (by rw [count]; decide +kernel)
  have r6 := next 311 6668 10772 6669 r5 (by lia) (by lia) (by lia) (by lia)
    (by rw [count]; decide +kernel) (by rw [count]; decide +kernel)
  have r7 := next 312 10772 17441 10773 r6 (by lia) (by lia) (by lia) (by lia)
    (by rw [count]; decide +kernel) (by rw [count]; decide +kernel)
  have s1 : ∀ k < 626, Deep tree 1 k := fun k order => ⟨by lia, trivial⟩
  have s2 := Deep.below (by lia) (fun k => r6.parent invariant (by lia) (by lia) r7.above) s1
  have s3 := Deep.below (by lia) (fun k => r5.parent invariant (by lia) (by lia) r6.above) s2
  have s4 := Deep.below (by lia) (fun k => r4.parent invariant (by lia) (by lia) r5.above) s3
  have s5 := Deep.below (by lia) (fun k => r3.parent invariant (by lia) (by lia) r4.above) s4
  have s6 := Deep.below (by lia) (fun k => r2.parent invariant (by lia) (by lia) r3.above) s5
  have s7 := Deep.below (by lia) (fun k => r1.parent invariant (by lia) (by lia) r2.above) s6
  exact Deep.below (by lia) (fun k => r0.parent invariant (by lia) (by lia) r1.above) s7

theorem Steep.deep (steep : Steep tree) (invariant : Invariant tree) :
    ∀ k < 100, Deep tree 17 k := by
  obtain ⟨l1, l2, l3, l4, l5, l6, l7, l8, l9, l10⟩ := steep.layers invariant
  have step : ∀ m n x, Level tree (2 * m) x → m ≤ 305 → Level tree n (2 * x) →
      ∀ k < 2 * m, tree.prnt k < n := fun m n x level bound above k order =>
    level.parent invariant (by lia) above order
  have s9 : ∀ k < 610, Deep tree 9 k := Deep.below (by lia)
    (fun k order => (step 305 611 256 l9 (by lia) l10 k order).trans (by lia)) (steep.top invariant)
  have s10 := Deep.below (by lia) (step 304 610 128 l8 (by lia) l9) s9
  have s11 := Deep.below (by lia) (step 302 608 64 l7 (by lia) l8) s10
  have s12 := Deep.below (by lia) (step 298 604 32 l6 (by lia) l7) s11
  have s13 := Deep.below (by lia) (step 290 596 16 l5 (by lia) l6) s12
  have s14 := Deep.below (by lia) (step 274 580 8 l4 (by lia) l5) s13
  have s15 := Deep.below (by lia) (step 242 548 4 l3 (by lia) l4) s14
  have s16 := Deep.below (by lia) (step 178 484 2 l2 (by lia) l3) s15
  exact Deep.below (by lia) (step 50 356 1 l1 (by lia) l2) s16

/-- One of the symbols that count once has a code whose seventeenth or a later bit is set. -/
theorem Steep.codeword (steep : Steep tree) (invariant : Invariant tree) :
    ∃ c front, c < nChar ∧ tree.codeword c = front ++ [true] ∧ 16 ≤ front.length := by
  obtain ⟨l1, -⟩ := steep.layers invariant
  have light := l1.light 1 (by omega)
  obtain ⟨inside, rest⟩ := steep.deep invariant 1 (by omega)
  have linked := invariant.linked
  have leaf : tableSize ≤ tree.son 1 ∧ tree.son 1 < tableSize + nChar ∧ tree.prnt (tree.son 1) = 1 := by
    rcases linked.kind 1 (by lia) with leaf | node
    · exact leaf
    · omega
  have place : tree.prnt (tree.son 1 - tableSize + tableSize) = 1 := by
    rw [Nat.sub_add_cancel leaf.1]
    exact leaf.2.2
  have up := linked.parent 1 inside
  refine ⟨tree.son 1 - tableSize, tree.path (tableSize - 1) (tree.prnt 1) [], by lia, ?_,
    Deep.path rest invariant (by lia)⟩
  rw [HuffmanTree.codeword, place, show tableSize = tableSize - 1 + 1 by lia, path,
    if_neg (by lia), path_append]
  rfl

end Steepness

theorem Invariant.root {tree : HuffmanTree} (invariant : Invariant tree) :
    tree.freq rootPosition = ∑ d ∈ Finset.range nChar, tree.symbolFreq d :=
  root_total invariant.linked fun i inside node => by
    have sum := invariant.weighted.sums i inside node
    rwa [if_neg (by omega), Nat.add_zero] at sum

theorem update_root {tree next : HuffmanTree} (invariant : Invariant tree) {c : Nat}
    (symbol : c < nChar) (room : tree.freq rootPosition < maxFreq)
    (updates : tree.update c = some next) :
    next.freq rootPosition = tree.freq rootPosition + 1 := by
  obtain ⟨_, again, kept, counts⟩ := update_counts invariant symbol room
  obtain rfl := Option.some.inj (updates.symm.trans again)
  rw [kept.root, invariant.root,
    Finset.sum_congr rfl fun d member => counts d (Finset.mem_range.mp member),
    Finset.sum_add_distrib, Finset.sum_ite_eq', if_pos (Finset.mem_range.mpr symbol)]

theorem root_once {started : HuffmanTree} (invariant : Invariant started)
    (once : ∀ d < nChar, started.symbolFreq d = 1) : started.freq rootPosition = nChar := by
  rw [invariant.root, Finset.sum_congr rfl fun d member => once d (Finset.mem_range.mp member)]
  simp

theorem updates_counts {tree : HuffmanTree} (invariant : Invariant tree) (symbols : List Nat)
    (known : ∀ c ∈ symbols, c < nChar)
    (room : tree.freq rootPosition + symbols.length ≤ maxFreq) :
    ∃ result, symbols.foldlM update tree = some result ∧ Invariant result ∧
      ∀ d < nChar, result.symbolFreq d = tree.symbolFreq d + symbols.count d := by
  induction symbols generalizing tree with
  | nil => exact ⟨tree, rfl, invariant, fun d _ => rfl⟩
  | cons c rest ih =>
      rw [List.length_cons] at room
      obtain ⟨next, updates, kept, counts⟩ := update_counts invariant (known c (by simp)) (by omega)
      have one := update_root invariant (known c (by simp)) (by omega) updates
      obtain ⟨result, goes, last, all⟩ := ih kept (fun d member => known d (by simp [member])) (by omega)
      refine ⟨result, by rw [List.foldlM_cons, updates]; exact goes, last, fun d symbol => ?_⟩
      rw [all d symbol, counts d symbol, List.count_cons, beq_eq_decide]
      by_cases same : c = d
      · simp [same, Nat.add_assoc, Nat.add_comm 1]
      · simp [same, Ne.symm same]

/-- The symbols of one byte, each as often as its weight asks for. -/
def steepSymbols : List Nat := (List.range 256).flatMap fun c => List.replicate (steepWeight c - 1) c

theorem steepSymbols_known : ∀ c ∈ steepSymbols, c < 256 := by
  intro c member
  obtain ⟨d, listed, repeated⟩ := List.mem_flatMap.mp member
  rw [List.eq_of_mem_replicate repeated]
  exact List.mem_range.mp listed

theorem steepSymbols_length : steepSymbols.length = 27900 := by
  rw [steepSymbols, List.length_flatMap]
  simp only [List.length_replicate]
  decide +kernel

theorem steepSymbols_count {c : Nat} (symbol : c < nChar) :
    1 + steepSymbols.count c = steepWeight c := by
  have front : ∀ n, ((List.range n).flatMap fun c => List.replicate (steepWeight c - 1) c).count c =
      if c < n then steepWeight c - 1 else 0 := by
    intro n
    induction n with
    | zero => rfl
    | succ n ih =>
        rw [List.range_succ, List.flatMap_append, List.count_append, ih, List.flatMap_singleton,
          List.count_replicate]
        by_cases last : c = n
        · subst last
          simp
        · have other : (n == c) = false := beq_false_of_ne (Ne.symm last)
          have same : c < n + 1 ↔ c < n := by omega
          rw [other, if_neg Bool.false_ne_true, Nat.add_zero, if_congr same rfl rfl]
  have weights : (List.range nChar).all (fun c => 1 ≤ steepWeight c ∧
      (256 ≤ c → steepWeight c = 1)) = true := by
    decide +kernel
  obtain ⟨least, plain⟩ :=
    of_decide_eq_true (List.all_eq_true.mp weights c (List.mem_range.mpr symbol))
  rw [steepSymbols, front 256]
  by_cases byte : c < 256
  · rw [if_pos byte]
    omega
  · rw [if_neg byte, plain (by omega)]

theorem steep_history {started : HuffmanTree} (invariant : Invariant started)
    (once : ∀ d < nChar, started.symbolFreq d = 1) :
    ∃ result, steepSymbols.foldlM update started = some result ∧ Invariant result ∧
      Steep result := by
  have root := root_once invariant once
  obtain ⟨result, goes, kept, counts⟩ := updates_counts invariant steepSymbols
    (fun c member => (steepSymbols_known c member).trans (by lia))
    (by rw [root, steepSymbols_length]; decide)
  exact ⟨result, goes, kept, fun d symbol => by
    rw [counts d symbol, once d symbol, steepSymbols_count symbol]⟩

end HuffmanTree

end PaclinkUnix
