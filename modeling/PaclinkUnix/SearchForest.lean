import PaclinkUnix.Library.OrderedForest
import PaclinkUnix.SearchTree

/-!
The search trees stay trees: every string is put in and taken out without leaving a table,
and a match that is noted is one.
-/

namespace PaclinkUnix

open Memory LinkedForest

namespace SearchTree

def links (tree : SearchTree) : Links where
  son := fun right => if right then tree.rson else tree.lson
  dad := tree.dad

/-- The root for the first character of a string. -/
def label (tree : SearchTree) (x : Nat) : Nat := ringSize + 1 + (tree.textBuf x).toNat

abbrev rootEnd : Nat := ringSize + 1 + 256

/-- Registered strings are in the tree of their first character. -/
def Planted (tree : SearchTree) : Prop :=
  ∃ side rank, Grown nil rootEnd tree.links side rank tree.label

theorem label_lt (tree : SearchTree) (x : Nat) : tree.label x < rootEnd := by
  have := (tree.textBuf x).toNat_lt
  unfold label
  lia

section Planting

variable {tree : SearchTree} {side : Nat → Bool} {rank : Nat → Nat}

theorem grown_of_agree (grown : Grown nil rootEnd tree.links side rank tree.label)
    {other : SearchTree} (dads : ∀ y < nil, other.dad y = tree.dad y)
    (sons : ∀ b x, Place nil rootEnd tree.links b x → other.links.son b x = tree.links.son b x)
    (text : ∀ y < nil, tree.dad y ≠ nil → other.textBuf y = tree.textBuf y) :
    Grown nil rootEnd other.links side rank other.label := by
  have agreed := grown.of_agree dads sons
  refine ⟨agreed.place, agreed.range, agreed.hangs, agreed.rises, ?_⟩
  intro y inside hung
  have same : other.label y = tree.label y := by
    rw [label, label, text y inside (by rwa [← dads y inside])]
  rcases agreed.kin y inside hung with ⟨node, kin⟩ | ⟨root, kin⟩
  · have up : other.label (other.dad y) = tree.label (other.dad y) := by
      rcases agreed.place y inside hung with ⟨above, -⟩ | ⟨node, there⟩
      · exact absurd above (by simp only [links]; lia)
      · have kept := text (other.dad y) node (fun gone => there ((dads _ node).trans gone))
        simp only [label, kept]
    exact .inl ⟨node, (up.trans kin).trans same.symm⟩
  · exact .inr ⟨root, kin.trans same.symm⟩

theorem Planted.of_agree (planted : Planted tree) {other : SearchTree}
    (dads : ∀ y < nil, other.dad y = tree.dad y)
    (sons : ∀ b x, Place nil rootEnd tree.links b x → other.links.son b x = tree.links.son b x)
    (text : ∀ y < nil, tree.dad y ≠ nil → other.textBuf y = tree.textBuf y) : Planted other := by
  obtain ⟨side, rank, grown⟩ := planted
  exact ⟨side, rank, grown_of_agree grown dads sons text⟩

theorem place_range {b : Bool} {x : Nat} (place : Place nil rootEnd tree.links b x) :
    x < rsonsze + 1 := by
  rcases place with ⟨-, below, -⟩ | ⟨inside, -⟩ <;> lia

theorem clearRoots_total (count : Nat) (few : count ≤ 257) (tree : SearchTree) :
    ∃ next, forRange count clearRoot tree = some next ∧
      (∀ k < count, next.rson (ringSize + 1 + k) = nil) ∧ next.textBuf = tree.textBuf := by
  refine forRange_total (fun count (next : SearchTree) =>
    (∀ k < count, next.rson (ringSize + 1 + k) = nil) ∧ next.textBuf = tree.textBuf) ?_
    ⟨fun k none => absurd none (Nat.not_lt_zero k), rfl⟩
  rintro count middle bound ⟨bare, same⟩
  refine ⟨_, setRson_some (by lia), ?_, same⟩
  intro k early
  by_cases last : k = count
  · rw [last]
    exact put_same
  · exact (put_other (by lia)).trans (bare k (by lia))

theorem clearNodes_total (count : Nat) (few : count ≤ ringSize) (tree : SearchTree) :
    ∃ next, forRange count clearNode tree = some next ∧ (∀ x < count, next.dad x = nil) ∧
      next.rson = tree.rson ∧ next.textBuf = tree.textBuf := by
  refine forRange_total (fun count (next : SearchTree) => (∀ x < count, next.dad x = nil) ∧
    next.rson = tree.rson ∧ next.textBuf = tree.textBuf) ?_
    ⟨fun x none => absurd none (Nat.not_lt_zero x), rfl, rfl⟩
  rintro count middle bound ⟨free, same⟩
  refine ⟨_, setDad_some (by lia), ?_, same⟩
  intro x early
  by_cases last : x = count
  · rw [last]
    exact put_same
  · exact (put_other (by lia)).trans (free x (by lia))

theorem initTree_total (tree : SearchTree) :
    ∃ next, tree.initTree = some next ∧ Planted next ∧ next.textBuf = tree.textBuf ∧
      ∀ x < nil, next.dad x = nil := by
  obtain ⟨roots, clears, bare, sameText⟩ := clearRoots_total (rsonsze - ringSize) (by decide) tree
  obtain ⟨next, frees, free, sameRoots, same⟩ := clearNodes_total ringSize (by decide) roots
  refine ⟨next, ?_, ⟨fun _ => true, id, grown_empty free ?_⟩, same.trans sameText, free⟩
  · rw [initTree, clears, Option.bind_eq_bind, Option.bind_some, frees]
  · intro x above below
    have cleared := bare (x - (ringSize + 1)) (by lia)
    rw [← sameRoots] at cleared
    rwa [show ringSize + 1 + (x - (ringSize + 1)) = x by lia] at cleared

theorem tells_side (grown : Grown nil rootEnd tree.links side rank tree.label) {p : Nat}
    (inside : p < nil) (hung : tree.dad p ≠ nil) :
    tree.rson (tree.dad p) = p ↔ side p = true := by
  have place := grown.place p inside hung
  have mine := grown.hangs (side p) (tree.dad p) place p inside
  have there : tree.links.son (side p) (tree.dad p) = p := mine.mpr ⟨rfl, rfl⟩
  cases right : side p with
  | true =>
      rw [right] at there
      simp only [iff_true]
      exact there
  | false =>
      rcases place with ⟨-, -, root⟩ | node
      · rw [right] at root
        cases root
      · have other := grown.hangs true (tree.dad p) (.inr node) p inside
        simp only [right, Bool.false_eq_true, and_false, iff_false] at other ⊢
        exact other

def setSon (tree : SearchTree) (right : Bool) (x value : Nat) : SearchTree :=
  if right then { tree with rson := put tree.rson x value }
  else { tree with lson := put tree.lson x value }

/-- `q` hangs where `p` hung. -/
def settled (tree : SearchTree) (b : Bool) (p q : Nat) : SearchTree :=
  { tree.setSon b (tree.dad p) q with dad := put tree.dad p nil }

theorem settled_son (b c : Bool) (p q y : Nat) : (tree.settled b p q).links.son c y =
    if c = b ∧ y = tree.dad p then q else tree.links.son c y := by
  cases b <;> cases c <;> simp [settled, setSon, links, put_apply]

theorem settled_same (b : Bool) (p q : Nat) : (tree.settled b p q).textBuf = tree.textBuf ∧
    (tree.settled b p q).matchPosition = tree.matchPosition ∧
      (tree.settled b p q).matchLength = tree.matchLength := by
  cases b <;> exact ⟨rfl, rfl, rfl⟩

theorem relink_settles (tree : SearchTree) {p : Nat} (inside : p < ringSize) (q : Nat) {b : Bool}
    (tells : tree.rson (tree.dad p) = p ↔ b = true)
    (place : tree.dad p < rsonsze + 1 ∧ (b = false → tree.dad p < ringSize)) :
    (tree.relink p q).bind (fun tree => tree.setDad p nil) = some (tree.settled b p q) := by
  have dad : tree.getDad p = some (tree.dad p) := getDad_some (by lia)
  have rson : tree.getRson (tree.dad p) = some (tree.rson (tree.dad p)) := getRson_some place.1
  simp only [relink, dad, rson, Option.bind_eq_bind, Option.bind_some, tells]
  cases b with
  | true =>
      rw [if_pos rfl, setRson_some place.1, Option.bind_some, setDad_some (by lia)]
      rfl
  | false =>
      rw [if_neg (by decide), setLson_some (Nat.lt_succ_of_lt (place.2 rfl)), Option.bind_some,
        setDad_some (by lia)]
      rfl

/-- The links have become these, as far as they count. -/
structure Rebuilt (links : Links) (side : Nat → Bool) (rank : Nat → Nat) (next : SearchTree) :
    Prop where
  grown : Grown nil rootEnd next.links side rank next.label
  dads : ∀ y < nil, next.dad y = links.dad y

theorem place_fits {p : Nat} (place : Place nil rootEnd tree.links (side p) (tree.dad p)) :
    tree.dad p < rsonsze + 1 ∧ (side p = false → tree.dad p < ringSize) := by
  rcases place with ⟨-, below, right⟩ | ⟨inside, -⟩
  · exact ⟨by lia, fun wrong => absurd (right.symm.trans wrong) (by decide)⟩
  · exact ⟨by lia, fun _ => inside⟩

theorem compare_total (tree : SearchTree) {r p : Nat} (first : r < ringSize) (second : p < ringSize) (cmp : Int) :
    ∃ i last, iterate (tree.compare r p) lookahead (1, cmp) = some (i, last) ∧ 1 ≤ i ∧
      i ≤ lookahead ∧ (∀ j, 1 ≤ j → j < i → tree.textBuf (r + j) = tree.textBuf (p + j)) ∧
      (i < lookahead → tree.textBuf (r + i) ≠ tree.textBuf (p + i) ∧
        last = ((tree.textBuf (r + i)).toNat : Int) - (tree.textBuf (p + i)).toNat) := by
  have ends : ∃ result, iterate (tree.compare r p) lookahead (1, cmp) = some result ∧
      1 ≤ result.1 ∧ result.1 ≤ lookahead ∧
      (∀ j, 1 ≤ j → j < result.1 → tree.textBuf (r + j) = tree.textBuf (p + j)) ∧
      (result.1 < lookahead → tree.textBuf (r + result.1) ≠ tree.textBuf (p + result.1) ∧
        result.2 = ((tree.textBuf (r + result.1)).toNat : Int) -
          (tree.textBuf (p + result.1)).toNat) := by
    refine iterate_total (fun left (state : Nat × Int) => left = lookahead - state.1 ∧
      1 ≤ state.1 ∧ state.1 ≤ lookahead ∧
      ∀ j, 1 ≤ j → j < state.1 → tree.textBuf (r + j) = tree.textBuf (p + j)) ?_
      (lookahead - 1) (by decide) ⟨rfl, Nat.le_refl 1, by simp, fun j low high => by omega⟩
    rintro left ⟨i, cmp⟩ ⟨rfl, low, high, same⟩
    simp only at low high same ⊢
    by_cases more : i < lookahead
    · have readFirst : tree.getText (r + i) = some (tree.textBuf (r + i)) := getText_some (by lia)
      have readSecond : tree.getText (p + i) = some (tree.textBuf (p + i)) := getText_some (by lia)
      simp only [compare, if_pos more, readFirst, readSecond, Option.bind_eq_bind, Option.bind_some]
      by_cases equal : tree.textBuf (r + i) = tree.textBuf (p + i)
      · refine .inl ⟨_, if_neg (by simp [equal]), lookahead - (i + 1), by omega, rfl, by omega, more,
          ?_⟩
        intro j from_ below
        by_cases last : j = i
        · rw [last]
          exact equal
        · exact same j from_ (by omega)
      · refine .inr ⟨_, if_pos ?_, low, high, same, fun _ => ⟨equal, rfl⟩⟩
        intro zero
        exact equal (UInt8.toNat_inj.mp (by omega))
    · exact .inr ⟨(i, cmp), by simp only [compare, if_neg more], low, high, same,
        fun less => absurd less more⟩
  obtain ⟨⟨i, last⟩, finds, rest⟩ := ends
  exact ⟨i, last, finds, rest⟩

/-- `r` with the sons of `p`. -/
def moved (tree : SearchTree) (r p : Nat) : SearchTree :=
  { tree with
    dad := put (put (put tree.dad r (tree.dad p)) (tree.lson p) r) (tree.rson p) r
    lson := put tree.lson r (tree.lson p)
    rson := put tree.rson r (tree.rson p) }

theorem replaceNode_total (grown : Grown nil rootEnd tree.links side rank tree.label) {r p : Nat}
    (old : p < nil) (hung : tree.dad p ≠ nil) (node : r < nil) (free : tree.dad r = nil)
    (kin : tree.label r = tree.label p) :
    ∃ next, tree.replaceNode r p = some next ∧ Planted next ∧ next.textBuf = tree.textBuf ∧
      next.matchPosition = tree.matchPosition ∧ next.matchLength = tree.matchLength ∧
      (∀ x < nil, next.dad x ≠ nil → x = r ∨ tree.dad x ≠ nil) ∧
      Rebuilt (replace nil tree.links (side p) p r) (fun y => if y = r then side p else side y)
        (fun y => if y = r then rank p else rank y) next := by
  have place : Place nil rootEnd tree.links (side p) (tree.dad p) := grown.place p old hung
  have mine : ∀ b, Place nil rootEnd tree.links b p := fun b => .inr ⟨old, hung⟩
  have left : tree.lson p ≤ nil := grown.range false p (mine false)
  have right : tree.rson p ≤ nil := grown.range true p (mine true)
  have other : p ≠ r := by
    rintro rfl
    exact hung free
  have apart : tree.dad p ≠ p := grown.dad_ne old
  have childless : tree.dad p ≠ r := grown.childless node free p old
  have notLeft : p ≠ tree.lson p := fun same =>
    apart ((grown.hangs false p (mine false) p old).mp same.symm).1
  have notRight : p ≠ tree.rson p := fun same =>
    apart ((grown.hangs true p (mine true) p old).mp same.symm).1
  have sameDad : (tree.moved r p).dad p = tree.dad p := by
    simp [moved, put_other, notLeft, notRight, other]
  have settles := relink_settles (tree.moved r p) old r (b := side p)
    (by
      rw [sameDad]
      simp only [moved, put_other childless]
      exact tells_side grown old hung)
    (by
      rw [sameDad]
      exact place_fits place)
  have agreed : ∀ y < nil, ((tree.moved r p).settled (side p) p r).dad y =
      (replace nil tree.links (side p) p r).dad y := by
    intro y inside
    have first := grown.hangs false p (mine false) y inside
    have second := grown.hangs true p (mine true) y inside
    have apartLeft := grown.free_son node free (mine false)
    have apartRight := grown.free_son node free (mine true)
    simp only [links, Bool.false_eq_true, if_false, if_true] at first second apartLeft apartRight
    have : side y = true ∨ side y = false := by cases side y <;> simp
    simp only [links, settled, moved, replace, put_apply]
    grind
  have rebuilt : Rebuilt (replace nil tree.links (side p) p r)
      (fun y => if y = r then side p else side y) (fun y => if y = r then rank p else rank y)
      ((tree.moved r p).settled (side p) p r) := by
    have replaced := replace_grown grown old hung node free kin
    have sameLabel : ((tree.moved r p).settled (side p) p r).label = tree.label := by
      funext x
      rw [label, (settled_same ..).1]
      rfl
    refine ⟨sameLabel ▸ replaced.of_agree agreed ?_, agreed⟩
    intro b x there
    rw [settled_son, sameDad]
    simp only [replace, links, moved]
    cases b <;> grind [put_apply]
  refine ⟨(tree.moved r p).settled (side p) p r, ?_, ⟨_, _, rebuilt.grown⟩, (settled_same ..).1,
    (settled_same ..).2.1, (settled_same ..).2.2, ?_, rebuilt⟩
  · rw [← settles]
    simp (disch := lia) only [replaceNode, getDad_some, getLson_some, getRson_some, setDad_some,
      setLson_some, setRson_some, put_other, Option.bind_eq_bind, Option.bind_some]
    rfl
  · intro x inside registered
    simp only [settled, moved, put_apply] at registered
    have first := grown.hangs false p (mine false) x inside
    have second := grown.hangs true p (mine true) x inside
    simp only [links, Bool.false_eq_true, if_false, if_true] at first second
    grind

/-- What the search for `r` has found, among the strings that were there before. -/
def Matched (origin : Nat → Nat) (tree : SearchTree) (r : Nat) : Prop :=
  tree.matchLength ≤ lookahead ∧ (threshold < tree.matchLength → ∃ q < nil, origin q ≠ nil ∧
    tree.matchPosition = distance r q ∧
    ∀ i < tree.matchLength, tree.textBuf (r + i) = tree.textBuf (q + i))

/-- The search at a node or a root `p`; `before` is the tree without `r`, and nothing but
the match has changed since. -/
structure Searching (before : SearchTree) (r p : Nat) (right : Bool) (tree : SearchTree) :
    Prop where
  links : tree.links = before.links
  text : tree.textBuf = before.textBuf
  place : Place nil rootEnd before.links right p
  kin : (p < nil ∧ before.label p = before.label r) ∨ (nil < p ∧ p = before.label r)
  short : tree.matchLength < lookahead
  matched : Matched before.dad tree r

structure Inserted (before : SearchTree) (r : Nat) (tree : SearchTree) : Prop where
  planted : Planted tree
  text : tree.textBuf = before.textBuf
  registered : ∀ x < nil, tree.dad x ≠ nil → x = r ∨ before.dad x ≠ nil
  matched : Matched before.dad tree r

theorem noteMatch_matched {origin : Nat → Nat} {r p i : Nat} (node : p < nil)
    (hung : origin p ≠ nil) (high : i ≤ lookahead)
    (same : ∀ j < i, tree.textBuf (r + j) = tree.textBuf (p + j))
    (matched : Matched origin tree r) : Matched origin (tree.noteMatch r p i) r := by
  unfold noteMatch
  by_cases longer : tree.matchLength < i
  · simp only [if_pos longer, Nat.lt_irrefl, ite_self]
    exact ⟨high, fun _ => ⟨p, node, hung, rfl, same⟩⟩
  · simp only [if_neg longer]
    by_cases equal : i = tree.matchLength
    · rw [if_pos equal]
      by_cases nearer : distance r p < tree.matchPosition
      · rw [if_pos nearer]
        exact ⟨matched.1, fun _ => ⟨p, node, hung, rfl, fun j inside => same j (by
          rw [equal]
          exact inside)⟩⟩
      · rw [if_neg nearer]
        exact matched
    · rw [if_neg equal]
      exact matched

theorem noteMatch_same (tree : SearchTree) (r p i : Nat) : (tree.noteMatch r p i).links = tree.links ∧
    (tree.noteMatch r p i).textBuf = tree.textBuf ∧
      (tree.noteMatch r p i).matchLength = max tree.matchLength i := by
  unfold noteMatch
  refine ⟨?_, ?_, ?_⟩
  · grind [links]
  · grind
  · grind

section Searching

variable {before : SearchTree} {r p : Nat} {right : Bool}

theorem label_congr {other : SearchTree} (same : other.textBuf = tree.textBuf) :
    other.label = tree.label := by
  funext x
  rw [label, label, same]

theorem Searching.grown (searching : Searching before r p right tree)
    (grown : Grown nil rootEnd before.links side rank before.label) :
    Grown nil rootEnd tree.links side rank tree.label := by
  rw [searching.links, label_congr searching.text]
  exact grown

theorem visit_total (grown : Grown nil rootEnd before.links side rank before.label)
    (node : r < nil) (free : before.dad r = nil) (inner : p < nil)
    (searching : ∀ right, Searching before r p right tree) (cmp : Int) :
    (∃ last next, visit r p cmp tree = some (.inl (p, last, next)) ∧
      ∀ right, Searching before r p right next) ∨
        ∃ next, visit r p cmp tree = some (.inr next) ∧ Inserted before r next := by
  obtain ⟨sameLinks, sameText, -, kin, short, matched⟩ := searching true
  have hung : before.dad p ≠ nil := by
    rcases (searching true).place with ⟨above, -⟩ | ⟨-, hung⟩
    · omega
    · exact hung
  have kin : before.label r = before.label p := by
    rcases kin with ⟨-, same⟩ | ⟨above, -⟩
    · exact same.symm
    · omega
  have first : tree.textBuf r = tree.textBuf p := by
    rw [sameText]
    exact UInt8.toNat_inj.mp (Nat.add_left_cancel kin)
  obtain ⟨i, last, compares, low, high, same, -⟩ := compare_total tree node inner cmp
  have same : ∀ j < i, tree.textBuf (r + j) = tree.textBuf (p + j) := by
    intro j below
    cases j with
    | zero => exact first
    | succ j => exact same (j + 1) (by omega) below
  have noted := noteMatch_matched inner hung high same matched
  obtain ⟨notedLinks, notedText, notedLength⟩ := noteMatch_same tree r p i
  simp only [visit, compares, Option.bind_eq_bind, Option.bind_some]
  by_cases long : threshold < i
  · rw [if_pos long]
    by_cases whole : tree.matchLength < i ∧ lookahead ≤ i
    · rw [if_pos whole]
      have grownNoted : Grown nil rootEnd (tree.noteMatch r p i).links side rank
          (tree.noteMatch r p i).label := by
        rw [notedLinks, label_congr notedText]
        exact (searching true).grown grown
      have dads : (tree.noteMatch r p i).dad = before.dad :=
        congrArg Links.dad (notedLinks.trans sameLinks)
      obtain ⟨next, replaces, planted, text, position, length, registered, -⟩ :=
        replaceNode_total grownNoted inner (by rwa [dads]) node (by rwa [dads]) (by
          rw [label_congr (notedText.trans sameText)]
          exact kin)
      refine .inr ⟨next, ?_, planted, text.trans (notedText.trans sameText), ?_, ?_⟩
      · rw [replaces, Option.bind_some]
      · rwa [dads] at registered
      · unfold Matched at noted ⊢
        rwa [position, length, text]
    · rw [if_neg whole]
      refine .inl ⟨last, _, rfl, fun right => ⟨notedLinks.trans sameLinks, notedText.trans sameText,
        (searching right).place, (searching right).kin, ?_, noted⟩⟩
      rw [notedLength]
      omega
  · rw [if_neg long]
    exact .inl ⟨last, tree, rfl, searching⟩

theorem Searching.child (grown : Grown nil rootEnd before.links side rank before.label)
    (searching : Searching before r p right tree) (filled : before.links.son right p ≠ nil) :
    before.links.son right p < nil ∧ (p < nil → rank p < rank (before.links.son right p)) ∧
      ∀ b, Searching before r (before.links.son right p) b tree := by
  obtain ⟨sameLinks, sameText, place, kin, short, matched⟩ := searching
  have inside : before.links.son right p < nil :=
    Nat.lt_of_le_of_ne (grown.range right p place) filled
  obtain ⟨up, -⟩ := (grown.hangs right p place _ inside).mp rfl
  generalize before.links.son right p = q at filled inside up ⊢
  have hung : before.links.dad q ≠ nil := up ▸ place.ne_nil
  have sameKin : before.label q = before.label r := by
    rcases grown.kin q inside hung with ⟨below, same⟩ | ⟨above, same⟩
    · rcases kin with ⟨-, root⟩ | ⟨above, -⟩
      · exact same.symm.trans (up ▸ root)
      · omega
    · rcases kin with ⟨below, -⟩ | ⟨-, root⟩
      · omega
      · exact same.symm.trans (up.trans root)
  refine ⟨inside, fun below => ?_, fun b => ⟨sameLinks, sameText, .inr ⟨inside, hung⟩,
    .inl ⟨inside, sameKin⟩, short, matched⟩⟩
  have rises := grown.rises q inside (up ▸ below)
  rwa [up] at rises

/-- `r` hangs under `p`. -/
def hung (tree : SearchTree) (b : Bool) (p r : Nat) : SearchTree :=
  { tree.setSon b p r with dad := put tree.dad r p }

theorem hung_son (b c : Bool) (p r x : Nat) : (tree.hung b p r).links.son c x =
    if c = b ∧ x = p then r else tree.links.son c x := by
  cases b <;> cases c <;> simp [hung, setSon, links, put_apply]

theorem hung_same (b : Bool) (p r : Nat) : (tree.hung b p r).textBuf = tree.textBuf ∧
    (tree.hung b p r).matchPosition = tree.matchPosition ∧
      (tree.hung b p r).matchLength = tree.matchLength := by
  cases b <;> exact ⟨rfl, rfl, rfl⟩

theorem insertStep_eq {cmp : Int} (place : Place nil rootEnd tree.links (decide (0 ≤ cmp)) p)
    (node : r < nil) : insertStep r (p, cmp, tree) =
      if tree.links.son (decide (0 ≤ cmp)) p ≠ nil then
        visit r (tree.links.son (decide (0 ≤ cmp)) p) cmp tree
      else some (.inr (tree.hung (decide (0 ≤ cmp)) p r)) := by
  by_cases ahead : 0 ≤ cmp
  · rw [decide_eq_true ahead] at place ⊢
    have read : tree.getRson p = some (tree.rson p) := getRson_some (place_range place)
    simp only [insertStep, if_pos ahead, read, Option.bind_eq_bind, Option.bind_some]
    rw [setRson_some (place_range place), Option.bind_some, setDad_some (by lia)]
    rfl
  · rw [decide_eq_false ahead] at place ⊢
    have inside : p < nil := by
      rcases place with ⟨-, -, wrong⟩ | ⟨inside, -⟩
      · cases wrong
      · exact inside
    have read : tree.getLson p = some (tree.lson p) := getLson_some (by lia)
    simp only [insertStep, if_neg ahead, read, Option.bind_eq_bind, Option.bind_some]
    rw [setLson_some (by lia), Option.bind_some, setDad_some (by lia)]
    rfl

theorem Searching.attach (grown : Grown nil rootEnd before.links side rank before.label)
    (node : r < nil) (free : before.dad r = nil)
    (bare : ∀ b, before.links.son b r = nil) (searching : Searching before r p right tree)
    (empty : before.links.son right p = nil) : Inserted before r (tree.hung right p r) ∧
      Rebuilt (LinkedForest.attach nil before.links right p r) (fun y => if y = r then right else side y)
        (fun y => if y = r then rank p + 1 else rank y) (tree.hung right p r) := by
  obtain ⟨sameLinks, sameText, place, kin, short, matched⟩ := searching
  have sameDad : tree.dad = before.dad := congrArg Links.dad sameLinks
  obtain ⟨keepsText, keepsPosition, keepsLength⟩ := @hung_same tree right p r
  have text := keepsText.trans sameText
  have dads : ∀ y, (tree.hung right p r).dad y = if y = r then p else before.dad y := by
    intro y
    simp only [hung, sameDad, put_apply]
  have attached := attach_grown grown place empty node free kin
  have rebuilt : Rebuilt (LinkedForest.attach nil before.links right p r)
      (fun y => if y = r then right else side y) (fun y => if y = r then rank p + 1 else rank y)
      (tree.hung right p r) := by
    refine ⟨label_congr text ▸ attached.of_agree (fun y _ => dads y) ?_, fun y _ => dads y⟩
    intro b x there
    rw [hung_son, sameLinks]
    simp only [LinkedForest.attach]
    have := bare b
    grind
  refine ⟨⟨⟨_, _, rebuilt.grown⟩, text, ?_, ?_⟩, rebuilt⟩
  · intro x inside registered
    rw [dads] at registered
    by_cases new : x = r
    · exact .inl new
    · rw [if_neg new] at registered
      exact .inr registered
  · unfold Matched at matched ⊢
    rwa [keepsText, keepsPosition, keepsLength]

theorem insertStep_total (grown : Grown nil rootEnd before.links side rank before.label)
    (node : r < nil) (free : before.dad r = nil) {cmp : Int}
    (searching : Searching before r p (decide (0 ≤ cmp)) tree)
    (bare : before.lson r = nil ∧ before.rson r = nil) :
    (∃ q last next, insertStep r (p, cmp, tree) = some (.inl (q, last, next)) ∧
      q < nil ∧ (p < nil → rank p < rank q) ∧ ∀ right, Searching before r q right next) ∨
        ∃ next, insertStep r (p, cmp, tree) = some (.inr next) ∧ Inserted before r next := by
  have sons : tree.links.son = before.links.son := congrArg Links.son searching.links
  have bare : ∀ b, before.links.son b r = nil := by
    intro b
    cases b
    · exact bare.1
    · exact bare.2
  have same : tree.links.son (decide (0 ≤ cmp)) p = before.links.son (decide (0 ≤ cmp)) p :=
    congrFun (congrFun sons _) p
  rw [insertStep_eq (searching.links ▸ searching.place) node, same]
  by_cases more : before.links.son (decide (0 ≤ cmp)) p = nil
  · rw [if_neg (not_not_intro more)]
    exact .inr ⟨_, rfl, (searching.attach grown node free bare more).1⟩
  · obtain ⟨inside, rises, children⟩ := searching.child grown more
    rw [if_pos more]
    rcases visit_total grown node free inside children cmp with
      ⟨last, next, visits, searching⟩ | ⟨next, visits, inserted⟩
    · exact .inl ⟨_, last, next, visits, inside, rises, searching⟩
    · exact .inr ⟨next, visits, inserted⟩

theorem insertNode_total (planted : Planted tree) (node : r < nil) (free : tree.dad r = nil) :
    ∃ next, tree.insertNode r = some next ∧ Inserted tree r next := by
  let bared : SearchTree :=
    { tree with lson := put tree.lson r nil, rson := put tree.rson r nil, matchLength := 0 }
  have agrees : Planted bared := by
    refine planted.of_agree (fun y inside => rfl) ?_ fun y inside hung => rfl
    intro b x place
    have other : x ≠ r := by
      rintro rfl
      rcases place with ⟨above, -⟩ | ⟨-, hung⟩
      · omega
      · exact hung free
    cases b <;> simp [links, bared, put_other other]
  obtain ⟨side, rank, grown⟩ := agrees
  have root : Place nil rootEnd bared.links true (bared.label r) :=
    .inl ⟨by simp only [label]; lia, label_lt bared r, rfl⟩
  have loops : ∃ next, iterate (insertStep r) (ringSize + 1) (tree.label r, 1, bared) = some next ∧
      Inserted bared r next := by
    refine iterate_total (fun left (state : Nat × Int × SearchTree) =>
      left = (if state.1 < nil then deeper nil rank state.1 else nil) ∧
      Searching bared r state.1 (decide (0 ≤ state.2.1)) state.2.2) ?_ nil (Nat.lt_succ_self _)
      ⟨(if_neg (by simp only [label]; lia)).symm, ⟨rfl, rfl, root, .inr ⟨?_, rfl⟩, by simp [bared], by
        simp [Matched, bared]⟩⟩
    · rintro left ⟨p, cmp, tree⟩ ⟨rfl, searching⟩
      rcases insertStep_total grown node free searching ⟨put_same, put_same⟩ with
        ⟨q, last, next, steps, inside, rises, searching⟩ | ⟨next, steps, inserted⟩
      · refine .inl ⟨(q, last, next), steps, _, ?_, rfl, searching _⟩
        simp only [if_pos inside]
        split
        · exact deeper_lt inside (rises ‹_›)
        · exact deeper_node inside
      · exact .inr ⟨next, steps, inserted⟩
    · simp only [label]
      lia
  obtain ⟨next, runs, inserted⟩ := loops
  refine ⟨next, ?_, inserted.planted, inserted.text, inserted.registered, inserted.matched⟩
  have read : tree.getText r = some (tree.textBuf r) := getText_some (by lia)
  rw [insertNode, read]
  simp (disch := lia) only [setLson_some, setRson_some, Option.bind_eq_bind, Option.bind_some]
  exact runs

end Searching

structure Deleted (before : SearchTree) (p : Nat) (tree : SearchTree) : Prop where
  planted : Planted tree
  text : tree.textBuf = before.textBuf
  registered : ∀ x < nil, tree.dad x ≠ nil → before.dad x ≠ nil ∧ x ≠ p

structure Kept (before : SearchTree) (side : Nat → Bool) (p : Nat) (tree : SearchTree) : Prop where
  stays : ∀ x < nil, x ≠ p → before.dad x ≠ nil → tree.dad x ≠ nil
  ordered : ∀ less : Nat → Nat → Prop, (∀ x y z, less x y → less y z → less x z) →
    Sorted nil before.links side less → ∃ side' rank',
      Grown nil rootEnd tree.links side' rank' tree.label ∧ Sorted nil tree.links side' less

theorem splice_total (grown : Grown nil rootEnd tree.links side rank tree.label) {p q : Nat}
    (old : p < nil) (hung : tree.dad p ≠ nil) {b : Bool} (one : tree.links.son (!b) p = nil)
    (son : tree.links.son b p = q) :
    ∃ next, (tree.setDad q (tree.dad p)).bind (fun tree =>
      (tree.relink p q).bind fun tree => tree.setDad p nil) = some next ∧
        Deleted tree p next ∧ Kept tree side p next := by
  have place : Place nil rootEnd tree.links (side p) (tree.dad p) := grown.place p old hung
  have mine : ∀ b, Place nil rootEnd tree.links b p := fun b => .inr ⟨old, hung⟩
  have low : q ≤ nil := son ▸ grown.range b p (mine b)
  have apart : tree.dad p ≠ p := grown.dad_ne old
  have other : p ≠ q := by
    rintro rfl
    exact apart ((grown.hangs b p (mine b) p old).mp son).1
  let moved : SearchTree := { tree with dad := put tree.dad q (tree.dad p) }
  have sameDad : moved.dad p = tree.dad p := put_other other
  have settles := relink_settles moved old q (b := side p)
    (by
      rw [sameDad]
      exact tells_side grown old hung)
    (by
      rw [sameDad]
      exact place_fits place)
  have spliced := splice_grown grown old hung one son
  have sameLabel : (moved.settled (side p) p q).label = tree.label :=
    label_congr (settled_same ..).1
  have agreed : ∀ y < nil, (moved.settled (side p) p q).dad y =
      (splice nil tree.links (side p) p q).dad y := by
    intro y inside
    have mineY := grown.hangs b p (mine b) y inside
    have otherY := grown.hangs (!b) p (mine (!b)) y inside
    have : side y = b ∨ side y = !b := by cases side y <;> cases b <;> simp
    simp only [settled, moved, splice, put_apply, links] at mineY otherY one son ⊢
    grind
  have grownNext : Grown nil rootEnd (moved.settled (side p) p q).links
      (fun y => if tree.links.dad y = p then side p else side y) rank
      (moved.settled (side p) p q).label := by
    refine sameLabel ▸ spliced.of_agree agreed ?_
    intro c x there
    rw [settled_son, sameDad]
    rfl
  refine ⟨moved.settled (side p) p q, ?_, ⟨⟨_, _, grownNext⟩, (settled_same ..).1, ?_⟩, ?_, ?_⟩
  · rw [setDad_some (by lia), Option.bind_some]
    exact settles
  · intro x inside registered
    have mineX := grown.hangs b p (mine b) x inside
    simp only [settled, moved, put_apply, links] at registered mineX son
    grind
  · intro x inside apart registered
    rw [agreed x inside]
    simp only [splice, links]
    grind
  · intro less _ sorted
    exact ⟨_, _, grownNext, (splice_sorted sorted old).of_agree agreed⟩

/-- The node that takes the place of `p`, the last one of its left subtree. -/
structure Successor (tree : SearchTree) (rank : Nat → Nat) (p q : Nat) : Prop where
  node : q < nil
  hung : tree.dad q ≠ nil
  last : tree.rson q = nil
  below : rank p < rank q
  kin : tree.label q = tree.label p

/-- `q` taken out and put in the place of `p`. -/
def joined (tree : SearchTree) (side : Nat → Bool) (p q : Nat) : Links :=
  replace nil (splice nil tree.links (side q) q (tree.lson q)) (side p) p q

section Joining

variable {p q : Nat}

theorem Successor.apart (successor : Successor tree rank p q)
    (grown : Grown nil rootEnd tree.links side rank tree.label) (old : p < nil) :
    p ≠ q ∧ tree.dad p ≠ q := by
  constructor
  · rintro rfl
    exact absurd successor.below (Nat.lt_irrefl _)
  · intro above
    have rises : rank (tree.dad p) < rank p := grown.rises p old (by
      change tree.dad p < nil
      rw [above]
      exact successor.node)
    rw [above] at rises
    exact absurd (rises.trans successor.below) (Nat.lt_irrefl _)

theorem join_grown (grown : Grown nil rootEnd tree.links side rank tree.label)
    (old : p < nil) (hung : tree.dad p ≠ nil) (successor : Successor tree rank p q) :
    ∃ rank', Grown nil rootEnd (tree.joined side p q)
      (fun y => if y = q then (if tree.links.dad p = q then side q else side p)
        else if tree.links.dad y = q then side q else side y) rank' tree.label := by
  obtain ⟨other, above⟩ := successor.apart grown old
  have spliced := splice_grown grown (b := false) (q := tree.lson q) successor.node successor.hung
    successor.last rfl
  have dadP : (splice nil tree.links (side q) q (tree.lson q)).dad p = tree.dad p := by
    simp [splice, links, other, above]
  have dadQ : (splice nil tree.links (side q) q (tree.lson q)).dad q = nil := by
    simp only [splice, if_true]
  have replaced := replace_grown spliced old (by rwa [dadP]) successor.node dadQ successor.kin
  have same : (if tree.links.dad p = q then side q else side p) = side p := if_neg above
  rw [same] at replaced ⊢
  exact ⟨_, replaced⟩

theorem join_settles (grown : Grown nil rootEnd tree.links side rank tree.label)
    (old : p < nil) (hung : tree.dad p ≠ nil) (successor : Successor tree rank p q)
    (left : tree.lson p < nil) (rights : Rights nil tree.links (tree.lson p) q)
    {middle : SearchTree} (text : middle.textBuf = tree.textBuf)
    (dadP : middle.dad p = tree.dad p)
    (tells : middle.rson (tree.dad p) = p ↔ side p = true)
    (dads : ∀ y < nil, y ≠ p → y ≠ q → middle.dad y = (tree.joined side p q).dad y)
    (sons : ∀ b x, x ≠ p → ¬(b = side p ∧ x = tree.dad p) →
      middle.links.son b x = (tree.joined side p q).son b x) :
    ∃ next, (middle.setDad q (middle.dad p)).bind (fun tree =>
      (tree.relink p q).bind fun tree => tree.setDad p nil) = some next ∧
        Deleted tree p next ∧ Kept tree side p next := by
  have place : Place nil rootEnd tree.links (side p) (tree.dad p) := grown.place p old hung
  obtain ⟨other, above⟩ := successor.apart grown old
  obtain ⟨rank', replaced⟩ := join_grown grown old hung successor
  let moved : SearchTree := { middle with dad := put middle.dad q (tree.dad p) }
  have sameDad : moved.dad p = tree.dad p := (put_other other).trans dadP
  have settles := relink_settles moved old q (b := side p)
    (by rwa [sameDad])
    (by
      rw [sameDad]
      exact place_fits place)
  have sameLabel : (moved.settled (side p) p q).label = tree.label :=
    label_congr ((settled_same ..).1.trans text)
  have agreed : ∀ y < nil, (moved.settled (side p) p q).dad y = (tree.joined side p q).dad y := by
    intro y inside
    by_cases first : y = p
    · simp [settled, joined, replace, first]
    · by_cases second : y = q
      · subst second
        simp [settled, moved, joined, replace, splice, first, links, other, above]
      · simp only [settled, moved, put_apply, if_neg first, if_neg second]
        exact dads y inside first second
  have grownNext : Grown nil rootEnd (moved.settled (side p) p q).links
      (fun y => if y = q then (if tree.links.dad p = q then side q else side p)
        else if tree.links.dad y = q then side q else side y) rank'
      (moved.settled (side p) p q).label := by
    refine sameLabel ▸ replaced.of_agree agreed ?_
    intro b x there
    rw [settled_son, sameDad]
    by_cases here : b = side p ∧ x = tree.dad p
    · rw [if_pos here]
      simp [joined, replace, splice, links, other, above, here]
    · rw [if_neg here]
      refine sons b x ?_ here
      rintro rfl
      rcases there with ⟨root, -⟩ | ⟨-, hung⟩
      · omega
      · exact hung (by simp [joined, replace])
  have hungQ := successor.hung
  have nodeQ := successor.node
  refine ⟨moved.settled (side p) p q, ?_, ⟨⟨_, _, grownNext⟩, (settled_same ..).1.trans text, ?_⟩,
    ?_, ?_⟩
  · rw [setDad_some (Nat.lt_succ_of_lt successor.node), Option.bind_some, dadP]
    exact settles
  · intro x inside registered
    rw [agreed x inside] at registered
    simp only [joined, replace, splice, links] at registered
    grind
  · intro x inside apart registered
    rw [agreed x inside]
    simp only [joined, replace, splice, links]
    grind
  · intro less trans sorted
    exact ⟨_, _, grownNext, (join_sorted sorted grown trans old hung left rights successor.last
      nodeQ hungQ).of_agree agreed⟩

theorem rightmost_total (grown : Grown nil rootEnd tree.links side rank tree.label) (node : q < nil)
    (hung : tree.dad q ≠ nil) (more : tree.rson q ≠ nil) :
    ∃ last, iterate tree.rightmost ringSize q = some last ∧ last < nil ∧ tree.dad last ≠ nil ∧
      tree.rson last = nil ∧ rank q < rank last ∧ tree.label last = tree.label q ∧
      tree.dad last < nil ∧ rank q ≤ rank (tree.dad last) ∧ side last = true ∧
      Rights nil tree.links q last := by
  refine iterate_total (fun left next => left = deeper nil rank next ∧ next < nil ∧
    tree.dad next ≠ nil ∧ tree.rson next ≠ nil ∧ rank q ≤ rank next ∧
    tree.label next = tree.label q ∧ Rights nil tree.links q next) ?_ (deeper nil rank q) ?_ ?_
  rotate_left 1
  · exact deeper_node node
  · exact ⟨rfl, node, hung, more, Nat.le_refl _, rfl, .here q⟩
  rintro left next ⟨measured, node, hung, more, high, kin, rights⟩
  have place : Place nil rootEnd tree.links true next := .inr ⟨node, hung⟩
  have inside : tree.rson next < nil := Nat.lt_of_le_of_ne (grown.range true next place) more
  obtain ⟨up, right⟩ := (grown.hangs true next place _ inside).mp rfl
  have read : tree.getRson next = some (tree.rson next) := getRson_some (by lia)
  have readNext : tree.getRson (tree.rson next) = some (tree.rson (tree.rson next)) :=
    getRson_some (by lia)
  have rights : Rights nil tree.links q (tree.rson next) := rights.next inside
  generalize tree.rson next = below at *
  have up : tree.dad below = next := up
  have rises : rank (tree.dad below) < rank below := grown.rises below inside (by
    change tree.dad below < nil
    rwa [up])
  have sameKin : tree.label (tree.dad below) = tree.label below := by
    rcases grown.kin below inside (by
      change tree.dad below ≠ nil
      omega) with ⟨-, same⟩ | ⟨wrong, -⟩
    · exact same
    · change nil < tree.dad below at wrong
      omega
  rw [up] at rises sameKin
  simp only [rightmost, read, readNext, Option.bind_eq_bind, Option.bind_some]
  by_cases again : tree.rson below ≠ nil
  · exact .inl ⟨below, if_pos again, _, measured ▸ deeper_lt inside rises, rfl, inside, by omega, again,
      high.trans rises.le, sameKin.symm.trans kin, rights⟩
  · exact .inr ⟨below, if_neg again, inside, by omega, not_not.mp again, by omega,
      sameKin.symm.trans kin, by rwa [up], by rwa [up], right, rights⟩

theorem joinSons_shallow (old : p < nil) (left : tree.lson p = q) (node : q < nil)
    (last : tree.rson q = nil) (right : tree.rson p ≤ nil) (other : p ≠ q) :
    tree.joinSons p = some (q, { tree with
      rson := put tree.rson q (tree.rson p)
      dad := put tree.dad (tree.rson p) q }) := by
  have readLeft : tree.getLson p = some q := left ▸ getLson_some (by lia)
  have readLast : tree.getRson q = some nil := last ▸ getRson_some (by lia)
  have readRight : tree.getRson p = some (tree.rson p) := getRson_some (by lia)
  have write : tree.setRson q (tree.rson p) = some { tree with rson := put tree.rson q (tree.rson p) } :=
    setRson_some (by lia)
  have readAgain : ({ tree with rson := put tree.rson q (tree.rson p) } : SearchTree).getRson p =
      some (tree.rson p) := (getRson_some (by lia)).trans (congrArg some (put_other other))
  rw [joinSons]
  simp only [readLeft, readLast, readRight, write, readAgain, ne_eq, not_true_eq_false, if_false,
    Option.bind_eq_bind, Option.bind_some]
  rw [setDad_some (by lia), Option.bind_some]

theorem joinSons_deep {first : Nat} (old : p < nil) (left : tree.lson p = first)
    (firstNode : first < nil) (more : tree.rson first ≠ nil)
    (walks : iterate tree.rightmost ringSize first = some q) (node : q < nil)
    (above : tree.dad q < nil) (below : tree.lson q ≤ nil) (right : tree.rson p ≤ nil)
    (other : p ≠ q) (apart : p ≠ tree.dad q) :
    tree.joinSons p = some (q, { tree with
      lson := put tree.lson q first
      rson := put (put tree.rson (tree.dad q) (tree.lson q)) q (tree.rson p)
      dad := put (put (put tree.dad (tree.lson q) (tree.dad q)) first q) (tree.rson p) q }) := by
  have readLeft : tree.getLson p = some first := left ▸ getLson_some (by lia)
  have readFirst : tree.getRson first = some (tree.rson first) := getRson_some (by lia)
  have readDad : tree.getDad q = some (tree.dad q) := getDad_some (by lia)
  have readBelow : tree.getLson q = some (tree.lson q) := getLson_some (by lia)
  rw [joinSons]
  simp only [readLeft, readFirst, more, walks, readDad, readBelow, ne_eq, not_false_eq_true,
    if_true, Option.bind_eq_bind, Option.bind_some]
  rw [setRson_some (by lia), Option.bind_some, getLson_some (by lia), Option.bind_some,
    getDad_some (by lia), Option.bind_some, setDad_some (by lia), Option.bind_some,
    getLson_some (by lia), Option.bind_some, setLson_some (by lia), Option.bind_some,
    getLson_some (by lia), Option.bind_some]
  simp only [put_other other, left]
  rw [setDad_some (by lia), Option.bind_some, getRson_some (by lia), Option.bind_some]
  simp only [put_other apart]
  rw [setRson_some (by lia), Option.bind_some, getRson_some (by lia), Option.bind_some]
  simp only [put_other other, put_other apart]
  rw [setDad_some (by lia), Option.bind_some]

theorem joinSons_total (grown : Grown nil rootEnd tree.links side rank tree.label)
    (old : p < nil) (hung : tree.dad p ≠ nil) (left : tree.lson p ≠ nil) :
    ∃ q middle, tree.joinSons p = some (q, middle) ∧
      ∃ next, (middle.setDad q (middle.dad p)).bind (fun tree =>
        (tree.relink p q).bind fun tree => tree.setDad p nil) = some next ∧
          Deleted tree p next ∧ Kept tree side p next := by
  have mine : ∀ b, Place nil rootEnd tree.links b p := fun b => .inr ⟨old, hung⟩
  have leftNode : tree.lson p < nil := Nat.lt_of_le_of_ne (grown.range false p (mine false)) left
  have rightLow : tree.rson p ≤ nil := grown.range true p (mine true)
  obtain ⟨up, leftSide⟩ := (grown.hangs false p (mine false) _ leftNode).mp rfl
  have up : tree.dad (tree.lson p) = p := up
  have rises : rank p < rank (tree.lson p) := by
    have := grown.rises (tree.lson p) leftNode (by
      change tree.dad (tree.lson p) < nil
      rwa [up])
    change rank (tree.dad (tree.lson p)) < _ at this
    rwa [up] at this
  have sameKin : tree.label (tree.lson p) = tree.label p := by
    rcases grown.kin (tree.lson p) leftNode (by
      change tree.dad (tree.lson p) ≠ nil
      omega) with ⟨-, same⟩ | ⟨wrong, -⟩
    · change tree.label (tree.dad (tree.lson p)) = _ at same
      rw [up] at same
      exact same.symm
    · change nil < tree.dad (tree.lson p) at wrong
      omega
  have tells := tells_side grown old hung
  have notRight : p ≠ tree.rson p := fun same =>
    grown.dad_ne old ((grown.hangs true p (mine true) p old).mp same.symm).1
  by_cases more : tree.rson (tree.lson p) = nil
  · have successor : Successor tree rank p (tree.lson p) :=
      ⟨leftNode, by omega, more, rises, sameKin⟩
    obtain ⟨other, above⟩ := successor.apart grown old
    refine ⟨_, _, joinSons_shallow old rfl leftNode more rightLow other, ?_⟩
    refine join_settles grown old hung successor leftNode (.here _) rfl ?_ ?_ ?_ ?_
    · exact put_other notRight
    · simpa only [put_other above] using tells
    · intro y inside first second
      have leftY := grown.hangs false p (mine false) y inside
      have rightY := grown.hangs true p (mine true) y inside
      simp only [links, Bool.false_eq_true, if_false, if_true] at leftY rightY
      simp only [links, joined, replace, splice, put_apply]
      have : side y = true ∨ side y = false := by cases side y <;> simp
      grind
    · intro b x there here
      simp only [links, joined, replace, splice]
      cases b <;> grind [put_apply]
  · obtain ⟨q, walks, node, hungQ, last, further, kin, aboveQ, high, rightSide,
      rights⟩ :=
      rightmost_total grown leftNode (by omega) more
    have successor : Successor tree rank p q :=
      ⟨node, hungQ, last, rises.trans further, kin.trans sameKin⟩
    obtain ⟨other, above⟩ := successor.apart grown old
    have mineQ : ∀ b, Place nil rootEnd tree.links b q := fun b => .inr ⟨node, hungQ⟩
    have below : tree.lson q ≤ nil := grown.range false q (mineQ false)
    have apart : p ≠ tree.dad q := by
      intro same
      rw [← same] at high
      exact absurd (rises.trans_le high) (Nat.lt_irrefl _)
    refine ⟨_, _, joinSons_deep old rfl leftNode more walks node aboveQ below rightLow other apart, ?_⟩
    refine join_settles grown old hung successor leftNode rights rfl ?_ ?_ ?_ ?_
    · have notBelow : p ≠ tree.lson q := fun same =>
        above ((grown.hangs false q (mineQ false) p old).mp same.symm).1
      have notLeft : p ≠ tree.lson p := by
        intro same
        rw [← same] at rises
        exact absurd rises (Nat.lt_irrefl _)
      simp only [put_other notRight, put_other notLeft, put_other notBelow]
    · have beside : tree.dad p ≠ tree.dad q := by
        intro same
        have lower : rank (tree.dad p) < rank p := grown.rises p old (same.trans_lt aboveQ)
        rw [← same] at high
        exact absurd ((lower.trans rises).trans_le high) (Nat.lt_irrefl _)
      simpa only [put_other above, put_other beside] using tells
    · intro y inside first second
      have leftY := grown.hangs false p (mine false) y inside
      have rightY := grown.hangs true p (mine true) y inside
      have belowY := grown.hangs false q (mineQ false) y inside
      have lastY := grown.hangs true q (mineQ true) y inside
      simp only [links, Bool.false_eq_true, if_false, if_true] at leftY rightY belowY lastY
      simp only [links, joined, replace, splice, put_apply]
      have : side y = true ∨ side y = false := by cases side y <;> simp
      grind
    · intro b x there here
      simp only [links, joined, replace, splice]
      cases b <;> grind [put_apply]

end Joining

theorem deleteNode_grown (grown : Grown nil rootEnd tree.links side rank tree.label) {p : Nat}
    (old : p < nil) : ∃ next, tree.deleteNode p = some next ∧ Deleted tree p next ∧
      Kept tree side p next := by
  have read : tree.getDad p = some (tree.dad p) := getDad_some (by lia)
  have readLeft : tree.getLson p = some (tree.lson p) := getLson_some (by lia)
  have readRight : tree.getRson p = some (tree.rson p) := getRson_some (by lia)
  by_cases hung : tree.dad p = nil
  · refine ⟨tree, ?_, ⟨⟨side, rank, grown⟩, rfl, fun x inside registered => ⟨registered, ?_⟩⟩,
      fun x _ _ registered => registered, fun less _ sorted => ⟨side, rank, grown, sorted⟩⟩
    · simp only [deleteNode, read, hung, if_true, Option.bind_eq_bind, Option.bind_some]
    · rintro rfl
      exact registered hung
  · simp only [deleteNode, read, if_neg hung, readLeft, readRight, Option.bind_eq_bind,
      Option.bind_some]
    by_cases right : tree.rson p = nil
    · simpa only [if_pos right, Option.bind_some, read] using
        splice_total grown old hung (b := false) (q := tree.lson p) right rfl
    · by_cases left : tree.lson p = nil
      · simpa only [if_neg right, if_pos left, Option.bind_some, read] using
          splice_total grown old hung (b := true) (q := tree.rson p) left rfl
      · obtain ⟨q, middle, joins, next, settles, deleted⟩ := joinSons_total grown old hung left
        have again : middle.getDad p = some (middle.dad p) := getDad_some (by lia)
        refine ⟨next, ?_, deleted⟩
        simpa only [if_neg right, if_neg left, joins, Option.bind_some, again] using settles

theorem deleteNode_total (planted : Planted tree) {p : Nat} (old : p < nil) :
    ∃ next, tree.deleteNode p = some next ∧ Deleted tree p next := by
  obtain ⟨side, rank, grown⟩ := planted
  obtain ⟨next, deletes, deleted, -⟩ := deleteNode_grown grown old
  exact ⟨next, deletes, deleted⟩

end Planting

end SearchTree

end PaclinkUnix
