import Mathlib.Data.Finset.Card
import Mathlib.Data.Finset.Range

/-!
A forest of binary trees kept in tables: each node has two sons and a father, each root
only a right son. Nodes are the numbers below `nil`, roots those from there up to `top`.
A node is put under a free place, put in the place of another, or taken out.
-/

namespace LinkedForest

structure Links where
  son : Bool → Nat → Nat
  dad : Nat → Nat

variable {nil top : Nat} {links : Links} {side : Nat → Bool} {rank label : Nat → Nat}

def Place (nil top : Nat) (links : Links) (b : Bool) (x : Nat) : Prop :=
  (nil < x ∧ x < top ∧ b = true) ∨ (x < nil ∧ links.dad x ≠ nil)

/-- `side` says which son of its father a node is, `rank` grows on the way down, and
`label` is the root a node belongs under. -/
structure Grown (nil top : Nat) (links : Links) (side : Nat → Bool) (rank label : Nat → Nat) :
    Prop where
  place : ∀ y < nil, links.dad y ≠ nil → Place nil top links (side y) (links.dad y)
  range : ∀ b x, Place nil top links b x → links.son b x ≤ nil
  hangs : ∀ b x, Place nil top links b x → ∀ y < nil,
    links.son b x = y ↔ links.dad y = x ∧ side y = b
  rises : ∀ y < nil, links.dad y < nil → rank (links.dad y) < rank y
  kin : ∀ y < nil, links.dad y ≠ nil →
    (links.dad y < nil ∧ label (links.dad y) = label y) ∨
      (nil < links.dad y ∧ links.dad y = label y)

theorem grown_empty (free : ∀ y < nil, links.dad y = nil)
    (bare : ∀ x, nil < x → x < top → links.son true x = nil) :
    Grown nil top links side rank label where
  place := fun y inside hung => absurd (free y inside) hung
  range := by
    rintro b x (⟨above, below, rfl⟩ | ⟨inside, hung⟩)
    · exact (bare x above below).le
    · exact absurd (free x inside) hung
  hangs := by
    rintro b x (⟨above, below, rfl⟩ | ⟨inside, hung⟩) y node
    · rw [bare x above below, free y node]
      omega
    · exact absurd (free x inside) hung
  rises := fun y inside low => absurd low (by rw [free y inside]; omega)
  kin := fun y inside hung => absurd (free y inside) hung

theorem Grown.of_agree (grown : Grown nil top links side rank label) {other : Links}
    (dads : ∀ y < nil, other.dad y = links.dad y)
    (sons : ∀ b x, Place nil top links b x → other.son b x = links.son b x) :
    Grown nil top other side rank label := by
  have places : ∀ b x, Place nil top other b x ↔ Place nil top links b x := by
    intro b x
    constructor
    · rintro (root | ⟨inside, hung⟩)
      · exact .inl root
      · exact .inr ⟨inside, by rwa [← dads x inside]⟩
    · rintro (root | ⟨inside, hung⟩)
      · exact .inl root
      · exact .inr ⟨inside, by rwa [dads x inside]⟩
  refine ⟨?_, ?_, ?_, ?_, ?_⟩
  · intro y inside hung
    rw [dads y inside] at hung ⊢
    exact (places _ _).mpr (grown.place y inside hung)
  · intro b x place
    rw [sons b x ((places b x).mp place)]
    exact grown.range b x ((places b x).mp place)
  · intro b x place y inside
    rw [sons b x ((places b x).mp place), dads y inside]
    exact grown.hangs b x ((places b x).mp place) y inside
  · intro y inside low
    rw [dads y inside] at low ⊢
    exact grown.rises y inside low
  · intro y inside hung
    rw [dads y inside] at hung ⊢
    exact grown.kin y inside hung

theorem Place.ne_nil {b : Bool} {x : Nat} (place : Place nil top links b x) : x ≠ nil := by
  rcases place with ⟨above, -⟩ | ⟨inside, -⟩ <;> omega

theorem Grown.childless (grown : Grown nil top links side rank label) {r : Nat} (node : r < nil)
    (free : links.dad r = nil) : ∀ y < nil, links.dad y ≠ r := by
  intro y inside child
  rcases grown.place y inside (by omega) with ⟨above, -⟩ | ⟨-, hung⟩
  · omega
  · exact hung (child ▸ free)

theorem Grown.free_son (grown : Grown nil top links side rank label) {r x : Nat} {b : Bool}
    (node : r < nil) (free : links.dad r = nil) (place : Place nil top links b x) :
    links.son b x ≠ r := by
  intro son
  have up := ((grown.hangs b x place r node).mp son).1
  exact place.ne_nil (up.symm.trans free)

theorem Grown.dad_ne (grown : Grown nil top links side rank label) {y : Nat} (inside : y < nil) :
    links.dad y ≠ y := by
  intro same
  have less := grown.rises y inside (by omega)
  rw [same] at less
  exact absurd less (Nat.lt_irrefl _)

@[irreducible] def deeper (nil : Nat) (rank : Nat → Nat) (x : Nat) : Nat :=
  ((Finset.range nil).filter fun y => rank x < rank y).card

theorem deeper_node {x : Nat} (inside : x < nil) : deeper nil rank x < nil := by
  rw [deeper]
  refine (Finset.card_lt_card ((Finset.ssubset_iff_of_subset (Finset.filter_subset _ _)).mpr
    ⟨x, Finset.mem_range.mpr inside, ?_⟩)).trans_eq (Finset.card_range nil)
  intro same
  exact absurd (Finset.mem_filter.mp same).2 (Nat.lt_irrefl _)

theorem deeper_lt {x y : Nat} (inside : y < nil) (rises : rank x < rank y) :
    deeper nil rank y < deeper nil rank x := by
  rw [deeper, deeper]
  refine Finset.card_lt_card ((Finset.ssubset_iff_of_subset ?_).mpr ⟨y, ?_, ?_⟩)
  · intro z further
    rw [Finset.mem_filter] at further ⊢
    exact ⟨further.1, rises.trans further.2⟩
  · exact Finset.mem_filter.mpr ⟨Finset.mem_range.mpr inside, rises⟩
  · intro again
    exact absurd (Finset.mem_filter.mp again).2 (Nat.lt_irrefl _)

def attach (nil : Nat) (links : Links) (b : Bool) (x r : Nat) : Links where
  son := fun c y => if c = b ∧ y = x then r else if y = r then nil else links.son c y
  dad := fun y => if y = r then x else links.dad y

section Attach

variable {b : Bool} {x r : Nat}

theorem attach_place (place : Place nil top links b x) (node : r < nil) (c : Bool) (y : Nat) :
    Place nil top (attach nil links b x r) c y ↔ Place nil top links c y ∨ y = r := by
  have := place.ne_nil
  by_cases new : y = r
  · simp [Place, attach, new, node, this]
  · simp [Place, attach, new]

theorem attach_grown (grown : Grown nil top links side rank label)
    (place : Place nil top links b x) (empty : links.son b x = nil) (node : r < nil)
    (free : links.dad r = nil) (kin : (x < nil ∧ label x = label r) ∨ (nil < x ∧ x = label r)) :
    Grown nil top (attach nil links b x r) (fun y => if y = r then b else side y)
      (fun y => if y = r then rank x + 1 else rank y) label := by
  have other : x ≠ r := by
    rintro rfl
    rcases place with ⟨above, -⟩ | ⟨-, hung⟩
    · omega
    · exact hung free
  have childless := grown.childless node free
  refine ⟨?_, ?_, ?_, ?_, ?_⟩
  · intro y inside hung
    rw [attach_place place node]
    by_cases new : y = r
    · simp only [attach, new, if_true]
      exact .inl place
    · simp only [attach, new, if_false] at hung ⊢
      exact .inl (grown.place y inside hung)
  · intro c y there
    rw [attach_place place node] at there
    by_cases here : c = b ∧ y = x
    · simp only [attach, if_pos here]
      exact node.le
    · simp only [attach, if_neg here]
      by_cases new : y = r
      · simp [new]
      · rw [if_neg new]
        exact grown.range c y (there.resolve_right new)
  · intro c y there z inside
    rw [attach_place place node] at there
    by_cases here : c = b ∧ y = x
    · obtain ⟨rfl, rfl⟩ := here
      have old := grown.hangs c y place z inside
      grind [attach]
    · by_cases new : y = r
      · have := childless z inside
        grind [attach]
      · have old := grown.hangs c y (there.resolve_right new) z inside
        have := grown.free_son node free (there.resolve_right new)
        grind [attach]
  · intro y inside low
    have := childless y inside
    have := grown.rises y inside
    grind [attach]
  · intro y inside hung
    have := grown.kin y inside
    grind [attach]

end Attach

def replace (nil : Nat) (links : Links) (b : Bool) (p r : Nat) : Links where
  son := fun c y =>
    if c = b ∧ y = links.dad p then r else if y = r then links.son c p else links.son c y
  dad := fun y =>
    if y = p then nil else if y = r then links.dad p else if links.dad y = p then r
    else links.dad y

section Replace

variable {p r : Nat}

theorem replace_place (old : p < nil) (hung : links.dad p ≠ nil) (node : r < nil) (other : p ≠ r)
    (b c : Bool) (y : Nat) : Place nil top (replace nil links b p r) c y ↔
      (Place nil top links c y ∧ y ≠ p) ∨ y = r := by
  grind [Place, replace]

theorem replace_grown (grown : Grown nil top links side rank label)
    (old : p < nil) (hung : links.dad p ≠ nil) (node : r < nil)
    (free : links.dad r = nil) (kin : label r = label p) :
    Grown nil top (replace nil links (side p) p r) (fun y => if y = r then side p else side y)
      (fun y => if y = r then rank p else rank y) label := by
  have other : p ≠ r := by
    rintro rfl
    exact hung free
  have childless := grown.childless node free
  have above := grown.place p old hung
  have mine : ∀ c, Place nil top links c p := fun c => .inr ⟨old, hung⟩
  have apart := grown.dad_ne old
  refine ⟨?_, ?_, ?_, ?_, ?_⟩
  · intro y inside up
    rw [replace_place old hung node other]
    have := grown.place y inside
    grind [replace]
  · intro c y there
    rw [replace_place old hung node other] at there
    have := grown.range c y
    have := grown.range c p (mine c)
    grind [replace]
  · intro c y there z inside
    rw [replace_place old hung node other] at there
    have := childless z inside
    by_cases here : c = side p ∧ y = links.dad p
    · have := grown.hangs c y (by grind) z inside
      have := grown.hangs c y (by grind) p old
      grind [replace]
    · by_cases new : y = r
      · have := grown.hangs c p (mine c) z inside
        grind [replace]
      · have := grown.hangs c y (by grind) z inside
        have real : Place nil top links c y := by grind
        have := real.ne_nil
        have := grown.free_son node free real
        grind [replace]
  · intro y inside low
    have := childless y inside
    have := grown.rises y inside
    have := grown.rises p old
    grind [replace]
  · intro y inside up
    have := grown.kin y inside
    have := grown.kin p old
    grind [replace]

end Replace

def splice (nil : Nat) (links : Links) (b : Bool) (p q : Nat) : Links where
  son := fun c y => if c = b ∧ y = links.dad p then q else links.son c y
  dad := fun y => if y = p then nil else if links.dad y = p then links.dad p else links.dad y

section Splice

variable {p q : Nat} {b : Bool}

theorem splice_place (old : p < nil) (hung : links.dad p ≠ nil) (b c : Bool) (y : Nat) :
    Place nil top (splice nil links b p q) c y ↔ Place nil top links c y ∧ y ≠ p := by
  grind [Place, splice]

theorem splice_grown (grown : Grown nil top links side rank label)
    (old : p < nil) (hung : links.dad p ≠ nil) (one : links.son (!b) p = nil)
    (other : links.son b p = q) :
    Grown nil top (splice nil links (side p) p q)
      (fun y => if links.dad y = p then side p else side y) rank label := by
  have above := grown.place p old hung
  have mine : ∀ c, Place nil top links c p := fun c => .inr ⟨old, hung⟩
  have apart := grown.dad_ne old
  refine ⟨?_, ?_, ?_, ?_, ?_⟩
  · intro y inside up
    rw [splice_place old hung]
    have := grown.place y inside
    grind [splice]
  · intro c y there
    rw [splice_place old hung] at there
    have := grown.range c y
    have := grown.range b p (mine b)
    grind [splice]
  · intro c y there z inside
    rw [splice_place old hung] at there
    have theirs := grown.hangs c y there.1 z inside
    have := grown.hangs b p (mine b) z inside
    have := grown.hangs (!b) p (mine (!b)) z inside
    have := grown.hangs c y there.1 p old
    have := there.1.ne_nil
    have : side z = b ∨ side z = !b := by cases side z <;> cases b <;> decide
    grind [splice]
  · intro y inside low
    have := grown.rises y inside
    have := grown.rises p old
    grind [splice]
  · intro y inside up
    have := grown.kin y inside
    have := grown.kin p old
    grind [splice]

end Splice

end LinkedForest
