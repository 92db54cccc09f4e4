import PaclinkUnix.Library.LinkedForest

/-!
Forests whose trees are search trees: what lies under the left son of a node is less than
the node, and what lies under the right one is greater. The operations on the links keep it.
-/

namespace LinkedForest

variable {nil top : Nat} {links : Links} {side : Nat → Bool} {rank label : Nat → Nat}
  {less : Nat → Nat → Prop}

/-- `y` is `z` or lies further down. -/
inductive Under (nil : Nat) (links : Links) (z : Nat) : Nat → Prop
  | here : Under nil links z z
  | step {y : Nat} (node : y < nil) (above : Under nil links z (links.dad y)) :
      Under nil links z y

/-- The order of a node and one under its son. -/
def Beside (less : Nat → Nat → Prop) (right : Bool) (x y : Nat) : Prop :=
  if right then less x y else less y x

def Sorted (nil : Nat) (links : Links) (side : Nat → Bool) (less : Nat → Nat → Prop) : Prop :=
  ∀ z y, z < nil → links.dad z < nil → Under nil links z y →
    Beside less (side z) (links.dad z) y

section Under

variable {x y z w : Nat}

theorem Under.trans (upper : Under nil links z w) (lower : Under nil links w y) :
    Under nil links z y := by
  induction lower with
  | here => exact upper
  | step node _ ih => exact .step node ih

theorem Under.node (under : Under nil links z y) (inside : z < nil) : y < nil := by
  cases under with
  | here => exact inside
  | step node _ => exact node

theorem Under.son (under : Under nil links z y) :
    y = z ∨ ∃ w < nil, links.dad w = z ∧ Under nil links w y := by
  induction under with
  | here => exact .inl rfl
  | @step y node above ih =>
      rcases ih with same | ⟨w, inside, up, under⟩
      · exact .inr ⟨y, node, same, .here⟩
      · exact .inr ⟨w, inside, up, .step node under⟩

theorem Under.rank_le (under : Under nil links z y) (inside : z < nil)
    (grown : Grown nil top links side rank label) : rank z ≤ rank y := by
  induction under with
  | here => exact Nat.le_refl _
  | @step y node above ih =>
      exact ih.trans (grown.rises y node (above.node inside)).le

theorem Under.of_agree {other : Links} (dads : ∀ y < nil, other.dad y = links.dad y)
    (under : Under nil other z y) : Under nil links z y := by
  induction under with
  | here => exact .here
  | @step y node _ ih => exact .step node (dads y node ▸ ih)

theorem Sorted.of_agree (sorted : Sorted nil links side less) {other : Links}
    (dads : ∀ y < nil, other.dad y = links.dad y) : Sorted nil other side less := by
  intro z y inside inner under
  rw [dads z inside] at inner ⊢
  exact sorted z y inside inner (under.of_agree dads)

theorem Sorted.of_empty (free : ∀ y < nil, links.dad y = nil) : Sorted nil links side less := by
  intro z y inside inner _
  rw [free z inside] at inner
  exact absurd inner (Nat.lt_irrefl _)

/-- Everything in the tree of a root is under the son of the root. -/
theorem Grown.under_root (grown : Grown nil top links side rank label) {c : Nat}
    (inside : y < nil) (hung : links.dad y ≠ nil) (kin : label y = c) :
    Under nil links (links.son true c) y ∧ links.son true c < nil := by
  induction known : rank y using Nat.strong_induction_on generalizing y with
  | _ n ih =>
      rcases grown.kin y inside hung with ⟨inner, same⟩ | ⟨outer, root⟩
      · have place := grown.place y inside hung
        have hungAbove : links.dad (links.dad y) ≠ nil := by
          rcases place with ⟨above, -⟩ | ⟨-, hung⟩
          · omega
          · exact hung
        obtain ⟨under, node⟩ := ih (rank (links.dad y)) (known ▸ grown.rises y inside inner) inner
          hungAbove (same.trans kin) rfl
        exact ⟨.step inside under, node⟩
      · have place := grown.place y inside hung
        have right : side y = true := by
          rcases place with ⟨-, -, right⟩ | ⟨inner, -⟩
          · exact right
          · omega
        rw [right] at place
        have son := (grown.hangs true _ place y inside).mpr ⟨rfl, right⟩
        rw [root, kin] at son
        rw [son]
        exact ⟨.here, inside⟩

/-- Under a node there is the node itself, and what is under its two sons. -/
theorem Grown.under_sons (grown : Grown nil top links side rank label) (inside : x < nil)
    (hung : links.dad x ≠ nil) (under : Under nil links x y) :
    y = x ∨ ∃ b, links.son b x < nil ∧ Under nil links (links.son b x) y := by
  rcases under.son with same | ⟨w, node, up, under⟩
  · exact .inl same
  · refine .inr ⟨side w, ?_⟩
    have son := (grown.hangs (side w) x (.inr ⟨inside, hung⟩) w node).mpr ⟨up, rfl⟩
    rw [son]
    exact ⟨node, under⟩

/-- The son of a node is beside it, with all that is under the son. -/
theorem Sorted.son (sorted : Sorted nil links side less)
    (grown : Grown nil top links side rank label) (inside : x < nil)
    (hung : links.dad x ≠ nil) {b : Bool} (node : links.son b x < nil)
    (under : Under nil links (links.son b x) y) : Beside less b x y := by
  obtain ⟨up, right⟩ := (grown.hangs b x (.inr ⟨inside, hung⟩) _ node).mp rfl
  have beside := sorted _ y node (by rwa [up]) under
  rwa [up, right] at beside

end Under

section Operations

variable {b : Bool} {p q r x : Nat}

/-- `r` is on the right side of every node above `x`. -/
def Fits (nil : Nat) (links : Links) (side : Nat → Bool) (less : Nat → Nat → Prop) (x r : Nat) :
    Prop :=
  ∀ z, z < nil → links.dad z < nil → Under nil links z x → Beside less (side z) (links.dad z) r

theorem attach_sorted (sorted : Sorted nil links side less)
    (grown : Grown nil top links side rank label) (node : r < nil) (free : links.dad r = nil)
    (other : x ≠ r) (fits : Fits nil links side less x r) (beside : x < nil → Beside less b x r) :
    Sorted nil (attach nil links b x r) (fun y => if y = r then b else side y) less := by
  have childless := grown.childless node free
  have unders : ∀ {z y}, Under nil (attach nil links b x r) z y →
      Under nil links z y ∨ (y = r ∧ Under nil links z x) := by
    intro z y under
    induction under with
    | here => exact .inl .here
    | @step y inside _ ih =>
        simp only [attach] at ih
        by_cases new : y = r
        · rw [if_pos new] at ih
          exact .inr ⟨new, ih.resolve_right fun wrong => other wrong.1⟩
        · rw [if_neg new] at ih
          exact .inl (.step inside (ih.resolve_right fun wrong => childless y inside wrong.1))
  intro z y inside inner under
  by_cases new : z = r
  · subst new
    simp only [attach, if_true] at inner ⊢
    have last : y = z := by
      rcases unders under with old | ⟨same, -⟩
      · rcases old.son with same | ⟨w, below, up, -⟩
        · exact same
        · exact absurd up (childless w below)
      · exact same
    rw [last]
    exact beside inner
  · simp only [attach, if_neg new] at inner ⊢
    rcases unders under with old | ⟨rfl, above⟩
    · exact sorted z y inside inner old
    · exact fits z inside inner above

theorem Under.of_splice {z y : Nat} (start : z < nil) (old : p < nil)
    (under : Under nil (splice nil links b p q) z y) : Under nil links z y := by
  induction under with
  | here => exact .here
  | @step y inside above ih =>
      have lower := above.node start
      simp only [splice] at ih lower
      split at lower
      · exact absurd lower (Nat.lt_irrefl _)
      · rename_i other
        rw [if_neg other] at ih
        split at ih
        · rename_i child
          exact .step inside (child ▸ .step old ih)
        · exact .step inside ih

theorem splice_sorted (sorted : Sorted nil links side less) (old : p < nil) :
    Sorted nil (splice nil links b p q) (fun y => if links.dad y = p then side p else side y)
      less := by
  intro z y inside inner under
  have under := under.of_splice inside old
  simp only [splice] at inner ⊢
  split at inner
  · exact absurd inner (Nat.lt_irrefl _)
  · rename_i other
    rw [if_neg other]
    split at inner
    · rename_i child
      rw [if_pos child, if_pos child]
      exact sorted p y old inner (.trans (.step inside (child ▸ .here)) under)
    · rename_i apart
      rw [if_neg apart, if_neg apart]
      exact sorted z y inside inner under

theorem replace_sorted (sorted : Sorted nil links side less)
    (grown : Grown nil top links side rank label) (old : p < nil) (hung : links.dad p ≠ nil)
    (node : r < nil) (free : links.dad r = nil) (fits : Fits nil links side less p r)
    (below : ∀ z y, z < nil → links.dad z = p → Under nil links z y → Beside less (side z) r y) :
    Sorted nil (replace nil links b p r) (fun y => if y = r then side p else side y) less := by
  have childless := grown.childless node free
  have apart := grown.dad_ne old
  have other : p ≠ r := by
    rintro rfl
    exact hung free
  have unders : ∀ {z y}, z < nil → z ≠ p → Under nil (replace nil links b p r) z y → y ≠ p →
      Under nil links (if z = r then p else z) (if y = r then p else y) := by
    intro z y start kept under
    induction under with
    | here => exact fun _ => .here
    | @step y inside above ih =>
        intro stays
        have up := childless y inside
        simp only [replace, if_neg stays] at ih
        by_cases new : y = r
        · rw [if_pos new] at ih ⊢
          have upper := ih apart
          rw [if_neg (childless p old)] at upper
          exact .step old upper
        · rw [if_neg new] at ih ⊢
          by_cases child : links.dad y = p
          · rw [if_pos child] at ih
            have upper := ih other.symm
            rw [if_pos rfl] at upper
            exact .step inside (child ▸ upper)
          · rw [if_neg child] at ih
            have upper := ih child
            rw [if_neg up] at upper
            exact .step inside upper
  intro z y inside inner under
  have kept : z ≠ p := by
    rintro rfl
    simp only [replace, if_true] at inner
    exact absurd inner (Nat.lt_irrefl _)
  have stays : y ≠ p := by
    rintro rfl
    cases under with
    | here => exact kept rfl
    | step _ above =>
        have lower := above.node inside
        simp only [replace, if_true] at lower
        exact absurd lower (Nat.lt_irrefl _)
  have under := unders inside kept under stays
  simp only [replace, if_neg kept] at inner ⊢
  by_cases new : z = r
  · rw [if_pos new] at inner under ⊢
    rw [if_pos new]
    by_cases same : y = r
    · rw [same]
      exact fits p old inner .here
    · rw [if_neg same] at under
      exact sorted p y old inner under
  · rw [if_neg new] at inner under ⊢
    rw [if_neg new]
    by_cases child : links.dad z = p
    · rw [if_pos child]
      by_cases same : y = r
      · rw [if_pos same] at under
        have up := under.rank_le inside grown
        have down := grown.rises z inside (child ▸ old)
        rw [child] at down
        omega
      · rw [if_neg same] at under
        exact below z y inside child under
    · rw [if_neg child] at inner ⊢
      by_cases same : y = r
      · rw [if_pos same] at under
        rw [same]
        exact fits z inside inner under
      · rw [if_neg same] at under
        exact sorted z y inside inner under

inductive Rights (nil : Nat) (links : Links) : Nat → Nat → Prop
  | here (x : Nat) : Rights nil links x x
  | down {x y : Nat} (node : links.son true x < nil) (rest : Rights nil links (links.son true x) y) :
      Rights nil links x y

theorem Rights.next {y : Nat} (rights : Rights nil links x y) (node : links.son true y < nil) :
    Rights nil links x (links.son true y) := by
  induction rights with
  | here x => exact .down node (.here _)
  | down inside _ ih => exact .down inside (ih node)

theorem Grown.son_up (grown : Grown nil top links side rank label) (inside : x < nil)
    (hung : links.dad x ≠ nil) (node : links.son b x < nil) :
    links.dad (links.son b x) = x ∧ side (links.son b x) = b :=
  (grown.hangs b x (.inr ⟨inside, hung⟩) _ node).mp rfl

theorem Rights.under {y : Nat} (rights : Rights nil links x y)
    (grown : Grown nil top links side rank label) (inside : x < nil) (hung : links.dad x ≠ nil) :
    Under nil links x y := by
  induction rights with
  | here x => exact .here
  | @down x y node _ ih =>
      obtain ⟨up, -⟩ := grown.son_up inside hung node
      exact .trans (.step node (up.symm ▸ .here)) (ih node (by omega))

theorem Sorted.greatest (sorted : Sorted nil links side less)
    (grown : Grown nil top links side rank label)
    (trans : ∀ x y z, less x y → less y z → less x z) {y : Nat} (rights : Rights nil links x q)
    (last : links.son true q = nil) (inside : x < nil) (hung : links.dad x ≠ nil)
    (under : Under nil links x y) : y = q ∨ less y q := by
  induction rights with
  | here x =>
      rcases grown.under_sons inside hung under with same | ⟨b, node, under⟩
      · exact .inl same
      · cases b with
        | true => omega
        | false => exact .inr (sorted.son grown inside hung node under)
  | @down x q node rest ih =>
      obtain ⟨up, -⟩ := grown.son_up inside hung node
      have hungSon : links.dad (links.son true x) ≠ nil := by omega
      have above : less x q := sorted.son grown inside hung node (rest.under grown node hungSon)
      rcases grown.under_sons inside hung under with rfl | ⟨b, below, under⟩
      · exact .inr above
      · cases b with
        | true => exact ih last node hungSon under
        | false => exact .inr (trans _ _ _ (sorted.son grown inside hung below under) above)

theorem join_sorted (sorted : Sorted nil links side less)
    (grown : Grown nil top links side rank label)
    (trans : ∀ x y z, less x y → less y z → less x z) (old : p < nil) (hung : links.dad p ≠ nil)
    (left : links.son false p < nil) (rights : Rights nil links (links.son false p) q)
    (last : links.son true q = nil) (node : q < nil) (hungQ : links.dad q ≠ nil) :
    Sorted nil (replace nil (splice nil links (side q) q (links.son false q)) (side p) p q)
      (fun y => if y = q then (if links.dad p = q then side q else side p)
        else if links.dad y = q then side q else side y) less := by
  obtain ⟨up, leftSide⟩ := grown.son_up old hung left
  have lowQ : Under nil links (links.son false p) q := rights.under grown left (by omega)
  have underQ : Under nil links p q := .trans (.step left (up.symm ▸ .here)) lowQ
  have lessQ : less q p := sorted.son grown old hung left lowQ
  have deepQ : rank p < rank q :=
    (up ▸ grown.rises _ left (by omega)).trans_le (lowQ.rank_le left grown)
  have other : p ≠ q := by
    rintro rfl
    exact absurd deepQ (Nat.lt_irrefl _)
  have above : links.dad p ≠ q := by
    intro same
    have rises := grown.rises p old (by omega)
    rw [same] at rises
    omega
  have dadP : (splice nil links (side q) q (links.son false q)).dad p = links.dad p := by
    simp [splice, other, above]
  have freeQ : (splice nil links (side q) q (links.son false q)).dad q = nil := by
    simp [splice]
  refine replace_sorted (splice_sorted sorted node) (splice_grown grown node hungQ
    (b := false) last rfl) old (by rwa [dadP]) node freeQ ?_ ?_
  · intro z inside inner under
    have under := under.of_splice inside node
    have apart : z ≠ q := by
      rintro rfl
      rw [freeQ] at inner
      exact absurd inner (Nat.lt_irrefl _)
    by_cases child : links.dad z = q
    · have rises := grown.rises z inside (by omega)
      have low := under.rank_le inside grown
      rw [child] at rises
      omega
    · simp only [splice, if_neg apart, if_neg child] at inner ⊢
      exact sorted z q inside inner (under.trans underQ)
  · intro z y inside child under
    have apart : z ≠ q := by
      rintro rfl
      rw [freeQ] at child
      omega
    have notQ : y ≠ q := by
      rintro rfl
      cases under with
      | here => exact apart rfl
      | step _ further =>
          rw [freeQ] at further
          exact absurd (further.node inside) (Nat.lt_irrefl _)
    have under := under.of_splice inside node
    by_cases lower : links.dad z = q
    · simp only [splice, if_neg apart, if_pos lower] at child ⊢
      have place : side q = false := by
        cases lowQ with
        | here => exact leftSide
        | step _ further =>
            rw [child] at further
            have low := further.rank_le left grown
            have rises := grown.rises _ left (by omega)
            rw [up] at rises
            omega
      have right : side z = false := by
        by_contra wrong
        have son := (grown.hangs true q (.inr ⟨node, hungQ⟩) z inside).mpr
          ⟨lower, (Bool.not_eq_false _).mp wrong⟩
        omega
      have beside := sorted z y inside (by omega) under
      rw [lower, right] at beside
      rw [place]
      exact beside
    · simp only [splice, if_neg apart, if_neg lower] at child ⊢
      cases right : side z with
      | true =>
          have beside := sorted z y inside (by omega) under
          rw [child, right] at beside
          exact trans _ _ _ lessQ beside
      | false =>
          have root := (grown.hangs false p (.inr ⟨old, hung⟩) z inside).mpr ⟨child, right⟩
          rw [← root] at under
          exact (sorted.greatest grown trans rights last left (by omega) under).resolve_left notQ

end Operations

end LinkedForest
