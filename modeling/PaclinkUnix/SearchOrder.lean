import PaclinkUnix.SearchForest

/-!
The search trees are in the order of their strings, so that the way down to a new one meets
the string that has most in common with it.
-/

namespace PaclinkUnix

open Memory LinkedForest

namespace SearchTree

/-- How many cells the strings at `x` and `y` have in common, up to `F`. -/
def common (text : Nat → UInt8) (x y : Nat) : Nat :=
  Nat.findGreatest (fun k => ∀ i < k, text (x + i) = text (y + i)) lookahead

/-- The first cell in which they differ decides. -/
def Less (text : Nat → UInt8) (x y : Nat) : Prop :=
  ∃ i < lookahead, (∀ j < i, text (x + j) = text (y + j)) ∧ text (x + i) < text (y + i)

section Keys

variable {text : Nat → UInt8} {x y z : Nat}

theorem le_common {k : Nat} : k ≤ common text x y ↔
    k ≤ lookahead ∧ ∀ i < k, text (x + i) = text (y + i) := by
  constructor
  · intro short
    have spec : ∀ i < common text x y, text (x + i) = text (y + i) :=
      Nat.findGreatest_spec (P := fun k => ∀ i < k, text (x + i) = text (y + i))
        (Nat.zero_le lookahead) fun i none => absurd none (Nat.not_lt_zero i)
    exact ⟨short.trans (Nat.findGreatest_le _), fun i inside => spec i (inside.trans_le short)⟩
  · rintro ⟨inside, same⟩
    exact Nat.le_findGreatest inside same

theorem common_le : common text x y ≤ lookahead := (le_common.mp (Nat.le_refl _)).1

theorem common_same {i : Nat} (inside : i < common text x y) : text (x + i) = text (y + i) :=
  (le_common.mp (Nat.le_refl _)).2 i inside

theorem common_eq {k : Nat} (short : k ≤ lookahead) (same : ∀ i < k, text (x + i) = text (y + i))
    (differs : k < lookahead → text (x + k) ≠ text (y + k)) : common text x y = k := by
  refine Nat.le_antisymm ?_ (le_common.mpr ⟨short, same⟩)
  by_contra longer
  have more : k < common text x y := by omega
  exact differs (more.trans_le common_le) (common_same more)

theorem Less.trans (first : Less text x y) (second : Less text y z) : Less text x z := by
  obtain ⟨i, inside, same, less⟩ := first
  obtain ⟨j, inside', same', less'⟩ := second
  rcases Nat.lt_trichotomy i j with before | rfl | behind
  · exact ⟨i, inside, fun k low => (same k low).trans (same' k (by omega)), same' i before ▸ less⟩
  · exact ⟨i, inside, fun k low => (same k low).trans (same' k low), UInt8.lt_trans less less'⟩
  · exact ⟨j, inside', fun k low => (same k (by omega)).trans (same' k low),
      (same j behind).symm ▸ less'⟩

theorem Less.irrefl : ¬ Less text x x := by
  rintro ⟨i, -, -, less⟩
  exact UInt8.lt_irrefl _ less

theorem Less.asymm (first : Less text x y) (second : Less text y x) : False :=
  (first.trans second).irrefl

theorem Less.differs (less : Less text x y) : common text x y < lookahead := by
  obtain ⟨i, inside, same, below⟩ := less
  rw [common_eq inside.le same fun _ equal => UInt8.lt_irrefl _ (equal ▸ below)]
  exact inside

/-- What lies on the other side of `y` has no more in common with `z` than `y` has. -/
theorem common_beside {right : Bool} (first : Beside (Less text) right y z)
    (second : Beside (Less text) (!right) y x) : common text z x ≤ common text z y := by
  by_contra longer
  cases right with
  | true =>
      obtain ⟨i, inside, same, less⟩ : Less text y z := first
      have shared : common text z y = i := common_eq inside.le (fun j low => (same j low).symm)
        fun _ equal => UInt8.lt_irrefl _ (equal ▸ less)
      rw [shared] at longer
      obtain ⟨-, agree⟩ := le_common.mp (show i + 1 ≤ common text z x by omega)
      exact Less.asymm (show Less text x y from second) ⟨i, inside,
        fun j low => (same j low).trans (agree j (by omega)), agree i (Nat.lt_succ_self i) ▸ less⟩
  | false =>
      obtain ⟨i, inside, same, less⟩ : Less text z y := first
      have shared : common text z y = i := common_eq inside.le same
        fun _ equal => UInt8.lt_irrefl _ (equal ▸ less)
      rw [shared] at longer
      obtain ⟨-, agree⟩ := le_common.mp (show i + 1 ≤ common text z x by omega)
      exact Less.asymm (show Less text y x from second) ⟨i, inside,
        fun j low => (agree j (by omega)).symm.trans (same j low),
        agree i (Nat.lt_succ_self i) ▸ less⟩

end Keys

def Ordered (tree : SearchTree) : Prop :=
  ∃ side rank, Grown nil rootEnd tree.links side rank tree.label ∧
    Sorted nil tree.links side (Less tree.textBuf)

/-- What is noted when `best` is the most that `r` has in common with what was visited. -/
structure Best (before : SearchTree) (r best : Nat) (tree : SearchTree) : Prop where
  length : tree.matchLength = if threshold < best then best else 0
  reached : best = 0 ∨ ∃ q < nil, before.dad q ≠ nil ∧ common before.textBuf r q = best
  place : threshold < best → ∃ q < nil, before.dad q ≠ nil ∧ tree.matchPosition = distance r q ∧
    common before.textBuf r q = best

/-- On the way down everything else in the tree of `r` has no more in common with it. -/
structure Descending (before : SearchTree) (side : Nat → Bool) (r p : Nat) (right : Bool)
    (best : Nat) (tree : SearchTree) : Prop where
  searching : Searching before r p right tree
  noted : Best before r best tree
  least : best < lookahead
  fits : Fits nil before.links side (Less before.textBuf) p r
  beside : p < nil → Beside (Less before.textBuf) right p r
  covered : ∀ x < nil, before.dad x ≠ nil → before.label x = before.label r →
    common before.textBuf r x ≤ best ∨ (before.links.son right p < nil ∧
      Under nil before.links (before.links.son right p) x)

structure Searched (before : SearchTree) (r : Nat) (tree : SearchTree) : Prop where
  inserted : Inserted before r tree
  ordered : Ordered tree
  registered : ∀ x < nil, tree.dad x ≠ nil ↔
    x = r ∨ (before.dad x ≠ nil ∧ common before.textBuf r x < lookahead)
  best : ∃ best, Best before r best tree ∧
    ∀ x < nil, before.dad x ≠ nil → common before.textBuf r x ≤ best

section Order

variable {tree before : SearchTree} {side : Nat → Bool} {rank : Nat → Nat} {r p q best : Nat}
  {right : Bool}

theorem common_apart {x : Nat} (other : before.label x ≠ before.label r) :
    common before.textBuf r x = 0 := by
  refine common_eq (Nat.zero_le _) (fun i none => absurd none (Nat.not_lt_zero i)) fun _ same => ?_
  refine other ?_
  change before.textBuf r = before.textBuf x at same
  rw [label, label, same]

theorem less_congr {text : Nat → UInt8} {y : Nat} (same : ∀ i < lookahead, text (r + i) = text (q + i))
    (b : Bool) : Beside (Less text) b q y → Beside (Less text) b r y := by
  cases b with
  | true =>
      rintro ⟨i, inside, agree, less⟩
      exact ⟨i, inside, fun j low => (same j (by omega)).trans (agree j low), same i inside ▸ less⟩
  | false =>
      rintro ⟨i, inside, agree, less⟩
      exact ⟨i, inside, fun j low => (agree j low).trans (same j (by omega)).symm,
        (same i inside).symm ▸ less⟩

theorem beside_differs {text : Nat → UInt8} {x : Nat} (b : Bool) (apart : Beside (Less text) b r x) :
    common text r x < lookahead := by
  cases b with
  | true => exact Less.differs apart
  | false =>
      obtain ⟨i, inside, same, less⟩ : Less text x r := apart
      rw [common_eq inside.le (fun j low => (same j low).symm)
        fun _ equal => UInt8.lt_irrefl _ (equal ▸ less)]
      exact inside

theorem Best.note (noted : Best before r best tree) (node : q < nil) (hung : before.dad q ≠ nil) :
    Best before r (max best (common before.textBuf r q))
      (if threshold < common before.textBuf r q then tree.noteMatch r q (common before.textBuf r q)
        else tree) := by
  obtain ⟨length, reached, place⟩ := noted
  have either : max best (common before.textBuf r q) = best ∨
      max best (common before.textBuf r q) = common before.textBuf r q := max_choice _ _
  generalize shared : common before.textBuf r q = i at either ⊢
  obtain ⟨-, -, longest⟩ := noteMatch_same tree r q i
  refine ⟨?_, ?_, fun long => ?_⟩
  · by_cases enough : threshold < i
    · rw [if_pos enough, longest, length, if_pos (lt_max_of_lt_right enough)]
      by_cases more : threshold < best
      · rw [if_pos more]
      · rw [if_neg more]
        omega
    · rw [if_neg enough, length]
      by_cases more : threshold < best
      · rw [if_pos more, if_pos (lt_max_of_lt_left more)]
        omega
      · rw [if_neg more, if_neg (by omega)]
  · rcases either with same | same
    · rw [same]
      exact reached
    · rw [same]
      exact .inr ⟨q, node, hung, shared⟩
  · by_cases enough : threshold < i
    · rw [if_pos enough]
      by_cases longer : tree.matchLength < i
      · have most : best ≤ i := by
          rw [length] at longer
          split at longer <;> omega
        refine ⟨q, node, hung, ?_, by rw [shared, max_eq_right most]⟩
        simp only [noteMatch, if_pos longer, Nat.lt_irrefl, ite_self]
      · have more : threshold < best := by
          by_contra few
          rw [length, if_neg few] at longer
          omega
        rw [length, if_pos more] at longer
        obtain ⟨found, inside, there, position, most⟩ := place more
        simp only [noteMatch, length, if_pos more, if_neg longer, max_eq_left (Nat.not_lt.mp longer)]
        by_cases equal : i = best
        · rw [if_pos equal]
          by_cases nearer : distance r q < tree.matchPosition
          · rw [if_pos nearer]
            exact ⟨q, node, hung, rfl, shared.trans equal⟩
          · rw [if_neg nearer]
            exact ⟨found, inside, there, position, most⟩
        · rw [if_neg equal]
          exact ⟨found, inside, there, position, most⟩
    · rw [if_neg enough]
      have more : threshold < best := by omega
      rw [max_eq_left (by omega)]
      exact place more

theorem Descending.other (descending : Descending before side r p right best tree) {x : Nat}
    (inside : x < nil) (hung : before.dad x ≠ nil) (empty : before.links.son right p = nil) :
    common before.textBuf r x ≤ best := by
  by_cases kin : before.label x = before.label r
  · exact (descending.covered x inside hung kin).resolve_right fun both => by omega
  · rw [common_apart kin]
    exact Nat.zero_le _

theorem Descending.son_fits (grown : Grown nil rootEnd before.links side rank before.label)
    (descending : Descending before side r p right best tree)
    (inside : before.links.son right p < nil) :
    Fits nil before.links side (Less before.textBuf) (before.links.son right p) r := by
  obtain ⟨up, place⟩ := (grown.hangs right p descending.searching.place _ inside).mp rfl
  intro z low inner under
  cases under with
  | here =>
      rw [up] at inner ⊢
      rw [place]
      exact descending.beside inner
  | step _ above =>
      rw [up] at above
      exact descending.fits z low inner above

theorem Descending.attach (grown : Grown nil rootEnd before.links side rank before.label)
    (sorted : Sorted nil before.links side (Less before.textBuf)) (node : r < nil)
    (free : before.dad r = nil) (bare : ∀ b, before.links.son b r = nil)
    (descending : Descending before side r p right best tree)
    (empty : before.links.son right p = nil) : Searched before r (tree.hung right p r) := by
  obtain ⟨inserted, rebuilt⟩ := descending.searching.attach grown node free bare empty
  obtain ⟨-, samePosition, sameLength⟩ := @hung_same tree right p r
  have place := descending.searching.place
  have other : p ≠ r := by
    rintro rfl
    rcases place with ⟨above, -⟩ | ⟨-, hung⟩
    · omega
    · exact hung free
  have most : ∀ x < nil, before.dad x ≠ nil → common before.textBuf r x ≤ best :=
    fun x inside hung => descending.other inside hung empty
  obtain ⟨length, reached, found⟩ := descending.noted
  refine ⟨inserted, ⟨_, _, rebuilt.grown, ?_⟩, ?_, best, ⟨sameLength.trans length, reached, ?_⟩, most⟩
  · rw [inserted.text]
    exact (attach_sorted sorted grown node free other descending.fits descending.beside).of_agree
      rebuilt.dads
  · intro x inside
    rw [rebuilt.dads x inside]
    simp only [LinkedForest.attach]
    by_cases new : x = r
    · rw [if_pos new]
      exact iff_of_true place.ne_nil (.inl new)
    · rw [if_neg new]
      exact ⟨fun hung => .inr ⟨hung, (most x inside hung).trans_lt descending.least⟩,
        fun either => (either.resolve_left new).1⟩
  · rw [samePosition]
    exact found

theorem Descending.replace (grown : Grown nil rootEnd before.links side rank before.label)
    (sorted : Sorted nil before.links side (Less before.textBuf)) (node : r < nil)
    (free : before.dad r = nil) (descending : Descending before side r p right best tree)
    (inside : before.links.son right p < nil)
    (whole : common before.textBuf r (before.links.son right p) = lookahead) {next : SearchTree}
    (inserted : Inserted before r next)
    (noted : Best before r lookahead next)
    (rebuilt : Rebuilt (LinkedForest.replace nil before.links (side (before.links.son right p))
      (before.links.son right p) r)
      (fun y => if y = r then side (before.links.son right p) else side y)
      (fun y => if y = r then rank (before.links.son right p) else rank y) next) :
    Searched before r next := by
  have place := descending.searching.place
  obtain ⟨up, place'⟩ := (grown.hangs right p place _ inside).mp rfl
  have covered := descending.covered
  have fits := descending.son_fits grown inside
  have least := descending.least
  generalize before.links.son right p = q at *
  have hung : before.dad q ≠ nil := fun gone => place.ne_nil (up.symm.trans gone)
  have same : ∀ i < lookahead, before.textBuf (r + i) = before.textBuf (q + i) :=
    fun i low => common_same (whole.symm ▸ low)
  have other : q ≠ r := by
    rintro rfl
    exact hung free
  refine ⟨inserted, ⟨_, _, rebuilt.grown, ?_⟩, ?_, lookahead, noted, fun x _ _ => common_le⟩
  · rw [inserted.text]
    refine (replace_sorted sorted grown inside hung node free fits ?_).of_agree rebuilt.dads
    intro z y below child under
    have above := sorted z y below (by omega) under
    rw [child] at above
    exact less_congr same _ above
  · intro x low
    rw [rebuilt.dads x low]
    simp only [LinkedForest.replace]
    by_cases old : x = q
    · rw [if_pos old, old, whole]
      refine iff_of_false (fun gone => gone rfl) ?_
      rintro (same | ⟨-, short⟩)
      · exact other same
      · exact absurd short (Nat.lt_irrefl _)
    · rw [if_neg old]
      by_cases new : x = r
      · rw [if_pos new]
        exact iff_of_true hung (.inl new)
      · rw [if_neg new]
        have differs : before.dad x ≠ nil → common before.textBuf r x < lookahead := by
          intro there
          by_cases kin : before.label x = before.label r
          · rcases covered x low there kin with few | ⟨-, under⟩
            · exact few.trans_lt least
            · obtain ⟨b, son, under⟩ := (grown.under_sons inside hung under).resolve_left old
              exact beside_differs b (less_congr same b (sorted.son grown inside hung son under))
          · rw [common_apart kin]
            decide
        by_cases child : before.dad x = q
        · rw [show before.links.dad x = q from child, if_pos rfl]
          have there : before.dad x ≠ nil := by omega
          exact iff_of_true node.ne (.inr ⟨there, differs there⟩)
        · rw [if_neg (show ¬ before.links.dad x = q from child)]
          exact ⟨fun there => .inr ⟨there, differs there⟩, fun either => (either.resolve_left new).1⟩

theorem Descending.down (grown : Grown nil rootEnd before.links side rank before.label)
    (sorted : Sorted nil before.links side (Less before.textBuf))
    (descending : Descending before side r p right best tree)
    (filled : before.links.son right p ≠ nil) (further : Bool) {next : SearchTree}
    (searching : Searching before r (before.links.son right p) further next)
    (short : common before.textBuf r (before.links.son right p) < lookahead)
    (noted : Best before r (max best (common before.textBuf r (before.links.son right p))) next)
    (beside : Beside (Less before.textBuf) further (before.links.son right p) r) :
    Descending before side r (before.links.son right p) further
      (max best (common before.textBuf r (before.links.son right p))) next := by
  obtain ⟨inside, -⟩ := descending.searching.child grown filled
  obtain ⟨up, -⟩ := (grown.hangs right p descending.searching.place _ inside).mp rfl
  have hung : before.links.dad (before.links.son right p) ≠ nil := by
    rw [up]
    exact descending.searching.place.ne_nil
  refine ⟨searching, noted, max_lt descending.least short, descending.son_fits grown inside,
    fun _ => beside, ?_⟩
  intro x low there kin
  rcases descending.covered x low there kin with few | ⟨-, under⟩
  · exact .inl (le_max_of_le_left few)
  · rcases grown.under_sons inside hung under with rfl | ⟨b, son, under⟩
    · exact .inl (le_max_right _ _)
    · by_cases ahead : b = further
      · exact .inr (ahead ▸ ⟨son, under⟩)
      · have other : b = !further := by cases b <;> cases further <;> simp_all
        have behind := sorted.son grown inside hung son under
        rw [other] at behind
        exact .inl (le_max_of_le_right (common_beside beside behind))

theorem descend_step (grown : Grown nil rootEnd before.links side rank before.label)
    (sorted : Sorted nil before.links side (Less before.textBuf)) (node : r < nil)
    (free : before.dad r = nil) (bare : ∀ b, before.links.son b r = nil) {cmp : Int}
    (descending : Descending before side r p (decide (0 ≤ cmp)) best tree) :
    (∃ q last next best', insertStep r (p, cmp, tree) = some (.inl (q, last, next)) ∧ q < nil ∧
      (p < nil → rank p < rank q) ∧ Descending before side r q (decide (0 ≤ last)) best' next) ∨
        ∃ next, insertStep r (p, cmp, tree) = some (.inr next) ∧ Searched before r next := by
  have searching := descending.searching
  have son : tree.links.son (decide (0 ≤ cmp)) p = before.links.son (decide (0 ≤ cmp)) p := by
    rw [searching.links]
  rw [insertStep_eq (searching.links ▸ searching.place) node, son]
  by_cases more : before.links.son (decide (0 ≤ cmp)) p = nil
  · rw [if_neg (not_not_intro more)]
    exact .inr ⟨_, rfl, descending.attach grown sorted node free bare more⟩
  · obtain ⟨inside, rises, children⟩ := searching.child grown more
    have down := descending.down grown sorted more
    have replace := fun whole next =>
      @Descending.replace _ _ _ _ _ _ _ _ grown sorted node free descending inside whole next
    have noting := descending.noted.note inside
    rw [if_pos more]
    generalize before.links.son (decide (0 ≤ cmp)) p = q at *
    have hung : before.dad q ≠ nil := by
      rcases (children true).place with ⟨above, -⟩ | ⟨-, hung⟩
      · omega
      · exact hung
    have kin : before.label r = before.label q := by
      rcases (children true).kin with ⟨-, same⟩ | ⟨above, -⟩
      · exact same.symm
      · omega
    have text := searching.text
    have first : before.textBuf r = before.textBuf q := UInt8.toNat_inj.mp (Nat.add_left_cancel kin)
    obtain ⟨i, last, compares, low, high, same, differs⟩ := compare_total tree node inside cmp
    rw [text] at same differs
    have shared : common before.textBuf r q = i := by
      refine common_eq high (fun j below => ?_) fun less => (differs less).1
      cases j with
      | zero => exact first
      | succ j => exact same (j + 1) (by omega) below
    rw [shared] at down replace noting
    obtain ⟨notedLinks, notedText, notedLength⟩ := noteMatch_same tree r q i
    have agree : ∀ j < i, before.textBuf (r + j) = before.textBuf (q + j) :=
      fun j below => common_same (shared.symm ▸ below)
    have beside : i < lookahead → Beside (Less before.textBuf) (decide (0 ≤ last)) q r := by
      intro less
      obtain ⟨apart, value⟩ := differs less
      by_cases ahead : 0 ≤ last
      · rw [decide_eq_true ahead]
        refine ⟨i, less, fun j below => (agree j below).symm, UInt8.lt_iff_toNat_lt.mpr ?_⟩
        have other : (before.textBuf (r + i)).toNat ≠ (before.textBuf (q + i)).toNat :=
          fun equal => apart (UInt8.toNat_inj.mp equal)
        omega
      · rw [decide_eq_false ahead]
        refine ⟨i, less, agree, UInt8.lt_iff_toNat_lt.mpr ?_⟩
        omega
    simp only [visit, compares, Option.bind_eq_bind, Option.bind_some]
    by_cases long : threshold < i
    · rw [if_pos long] at noting ⊢
      have noted := noteMatch_matched inside hung high (by rw [text]; exact agree) searching.matched
      by_cases whole : tree.matchLength < i ∧ lookahead ≤ i
      · rw [if_pos whole]
        have full : i = lookahead := Nat.le_antisymm high whole.2
        have grownNoted : Grown nil rootEnd (tree.noteMatch r q i).links side rank
            (tree.noteMatch r q i).label := by
          rw [notedLinks, label_congr notedText]
          exact searching.grown grown
        have sameLinks := notedLinks.trans searching.links
        have dads : (tree.noteMatch r q i).dad = before.dad := congrArg Links.dad sameLinks
        obtain ⟨next, replaces, planted, sameText, position, length, registered, rebuilt⟩ :=
          replaceNode_total grownNoted inside (by rwa [dads]) node (by rwa [dads]) (by
            rw [label_congr (notedText.trans text)]
            exact kin)
        rw [sameLinks] at rebuilt
        rw [dads] at registered
        have top : max best i = lookahead := by
          rw [full]
          exact max_eq_right descending.least.le
        rw [top] at noting
        obtain ⟨most, reached, place⟩ := noting hung
        refine .inr ⟨next, by rw [replaces, Option.bind_some], replace full next ⟨planted,
          sameText.trans (notedText.trans text), registered, ?_⟩
          ⟨length.trans most, reached, position ▸ place⟩ rebuilt⟩
        unfold Matched at noted ⊢
        rwa [position, length, sameText]
      · rw [if_neg whole]
        have short : i < lookahead := by
          have := searching.short
          omega
        refine .inl ⟨q, last, _, _, rfl, inside, rises,
          down _ ⟨notedLinks.trans searching.links, notedText.trans text, (children _).place,
            (children true).kin, ?_, noted⟩ short (noting hung) (beside short)⟩
        rw [notedLength]
        exact max_lt searching.short short
    · rw [if_neg long] at noting ⊢
      have short : i < lookahead := by lia
      exact .inl ⟨q, last, tree, _, rfl, inside, rises,
        down _ (children _) short (noting hung) (beside short)⟩

/-- A new string is put in, and the search has met what has most in common with it. -/
theorem insertNode_searched (ordered : Ordered tree) (node : r < nil) (free : tree.dad r = nil) :
    ∃ next, tree.insertNode r = some next ∧ Searched tree r next := by
  obtain ⟨side, rank, grown, sorted⟩ := ordered
  let bared : SearchTree :=
    { tree with lson := put tree.lson r nil, rson := put tree.rson r nil, matchLength := 0 }
  have grown : Grown nil rootEnd bared.links side rank bared.label := by
    refine grown.of_agree (fun y inside => rfl) ?_
    intro b x place
    have other : x ≠ r := by
      rintro rfl
      rcases place with ⟨above, -⟩ | ⟨-, hung⟩
      · omega
      · exact hung free
    cases b <;> simp [links, bared, put_other other]
  have sorted : Sorted nil bared.links side (Less bared.textBuf) := sorted.of_agree fun y _ => rfl
  have bare : ∀ b, bared.links.son b r = nil := by
    intro b
    cases b <;> exact put_same
  have above : nil < bared.label r := by
    simp only [label]
    lia
  have root : Place nil rootEnd bared.links true (bared.label r) :=
    .inl ⟨above, label_lt bared r, rfl⟩
  have first : Descending bared side r (bared.label r) true 0 bared := by
    refine ⟨⟨rfl, rfl, root, .inr ⟨above, rfl⟩, by simp [bared], by simp [Matched, bared]⟩,
      ⟨rfl, .inl rfl, fun long => absurd long (by decide)⟩, by decide, ?_, ?_, ?_⟩
    · intro z inside _ under
      exact absurd (under.node inside) (Nat.lt_asymm above)
    · exact fun low => absurd low (Nat.lt_asymm above)
    · intro x inside hung kin
      obtain ⟨under, low⟩ := grown.under_root inside hung kin
      exact .inr ⟨low, under⟩
  have loops : ∃ next, iterate (insertStep r) (ringSize + 1) (tree.label r, 1, bared) = some next ∧
      Searched bared r next := by
    refine iterate_total (fun left (state : Nat × Int × SearchTree) =>
      left = (if state.1 < nil then deeper nil rank state.1 else nil) ∧
      ∃ best, Descending bared side r state.1 (decide (0 ≤ state.2.1)) best state.2.2) ?_ nil
      (Nat.lt_succ_self _) ⟨(if_neg (Nat.lt_asymm above)).symm, 0, first⟩
    rintro left ⟨p, cmp, tree⟩ ⟨rfl, best, descending⟩
    rcases descend_step grown sorted node free bare descending with
      ⟨q, last, next, best', steps, inside, rises, descending⟩ | ⟨next, steps, searched⟩
    · refine .inl ⟨(q, last, next), steps, _, ?_, rfl, best', descending⟩
      simp only [if_pos inside]
      split
      · exact deeper_lt inside (rises ‹_›)
      · exact deeper_node inside
    · exact .inr ⟨next, steps, searched⟩
  obtain ⟨next, runs, ⟨planted, text, registered, matched⟩, ordered, stays, best, ⟨length, reached,
    place⟩, most⟩ := loops
  refine ⟨next, ?_, ⟨planted, text, registered, matched⟩, ordered, stays, best, ⟨length, reached,
    place⟩, most⟩
  have read : tree.getText r = some (tree.textBuf r) := getText_some (by lia)
  rw [insertNode, read]
  simp (disch := lia) only [setLson_some, setRson_some, Option.bind_eq_bind, Option.bind_some]
  exact runs

theorem Ordered.write (ordered : Ordered tree) {text : Nat → UInt8}
    (same : ∀ x < nil, tree.dad x ≠ nil → ∀ i < lookahead, text (x + i) = tree.textBuf (x + i)) :
    Ordered { tree with textBuf := text } := by
  obtain ⟨side, rank, grown, sorted⟩ := ordered
  refine ⟨side, rank, grown_of_agree grown (fun _ _ => rfl) (fun _ _ _ => rfl)
    fun y inside hung => same y inside hung 0 (by decide), ?_⟩
  intro z y inside inner under
  have above : tree.dad (tree.dad z) ≠ nil := by
    rcases grown.place z inside (Nat.ne_of_lt inner) with ⟨root, -⟩ | ⟨-, hung⟩
    · exact absurd inner (Nat.lt_asymm root)
    · exact hung
  have below : y < nil ∧ tree.dad y ≠ nil := by
    cases under with
    | here => exact ⟨inside, Nat.ne_of_lt inner⟩
    | step node further => exact ⟨node, Nat.ne_of_lt (further.node inside)⟩
  have kept : ∀ a b, a < nil → tree.dad a ≠ nil → b < nil → tree.dad b ≠ nil →
      Less tree.textBuf a b → Less text a b := by
    rintro a b insideA hungA insideB hungB ⟨i, short, agree, less⟩
    refine ⟨i, short, fun j low => ?_, ?_⟩
    · rw [same a insideA hungA j (by omega), same b insideB hungB j (by omega)]
      exact agree j low
    · rw [same a insideA hungA i short, same b insideB hungB i short]
      exact less
  have beside := sorted z y inside inner under
  cases right : side z with
  | true =>
      rw [right] at beside
      exact kept _ _ inner above below.1 below.2 beside
  | false =>
      rw [right] at beside
      exact kept _ _ below.1 below.2 inner above beside

theorem deleteNode_ordered (ordered : Ordered tree) (old : p < nil) :
    ∃ next, tree.deleteNode p = some next ∧ Ordered next ∧ next.textBuf = tree.textBuf ∧
      ∀ x < nil, next.dad x ≠ nil ↔ tree.dad x ≠ nil ∧ x ≠ p := by
  obtain ⟨side, rank, grown, sorted⟩ := ordered
  obtain ⟨next, deletes, deleted, kept⟩ := deleteNode_grown grown old
  obtain ⟨side', rank', grown', sorted'⟩ := kept.ordered (Less tree.textBuf) (fun _ _ _ => Less.trans) sorted
  refine ⟨next, deletes, ⟨side', rank', grown', ?_⟩, deleted.text, fun x inside => ?_⟩
  · rw [deleted.text]
    exact sorted'
  · exact ⟨deleted.registered x inside, fun both => kept.stays x inside both.2 both.1⟩

end Order

end SearchTree

end PaclinkUnix
