import PaclinkUnix.Library.TwoRuns
import PaclinkUnix.LzhufDecode

/-!
The Huffman tree after a start does not tell what was in its tables before: two runs from
trees that agree where they are read go the same way.
-/

namespace PaclinkUnix

open Memory

namespace HuffmanTree

structure Alike (tree other : HuffmanTree) : Prop where
  freq : Agree (tableSize + 1) tree.freq other.freq
  prnt : Agree (tableSize + nChar) tree.prnt other.prnt
  son : Agree tableSize tree.son other.son

/-- With the same place in it. -/
def AlikeAt (state other : Nat × HuffmanTree) : Prop :=
  state.1 = other.1 ∧ Alike state.2 other.2

def AlikeBetween (state other : Nat × Nat × HuffmanTree) : Prop :=
  state.1 = other.1 ∧ AlikeAt state.2 other.2

namespace Alike

variable {tree other : HuffmanTree}

theorem refl (tree : HuffmanTree) : Alike tree tree :=
  ⟨.refl _, .refl _, .refl _⟩

theorem getFreq (alike : Alike tree other) (i : Nat) : tree.getFreq i = other.getFreq i :=
  alike.freq.load i

theorem getPrnt (alike : Alike tree other) (i : Nat) : tree.getPrnt i = other.getPrnt i :=
  alike.prnt.load i

theorem getSon (alike : Alike tree other) (i : Nat) : tree.getSon i = other.getSon i :=
  alike.son.load i

theorem setFreq (alike : Alike tree other) (i value : Nat) :
    Option.Rel Alike (tree.setFreq i value) (other.setFreq i value) :=
  rel_bind _ (alike.freq.store i value) fun _ _ same => .some ⟨same, alike.prnt, alike.son⟩

theorem setPrnt (alike : Alike tree other) (i value : Nat) :
    Option.Rel Alike (tree.setPrnt i value) (other.setPrnt i value) :=
  rel_bind _ (alike.prnt.store i value) fun _ _ same => .some ⟨alike.freq, same, alike.son⟩

theorem setSon (alike : Alike tree other) (i value : Nat) :
    Option.Rel Alike (tree.setSon i value) (other.setSon i value) :=
  rel_bind _ (alike.son.store i value) fun _ _ same => .some ⟨alike.freq, alike.prnt, same⟩

theorem moveFreq (alike : Alike tree other) (k count : Nat) :
    Option.Rel Alike (tree.moveFreq k count) (other.moveFreq k count) :=
  rel_bind _ (alike.freq.moveUp k count) fun _ _ same => .some ⟨same, alike.prnt, alike.son⟩

theorem moveSon (alike : Alike tree other) (k count : Nat) :
    Option.Rel Alike (tree.moveSon k count) (other.moveSon k count) :=
  rel_bind _ (alike.son.moveUp k count) fun _ _ same => .some ⟨alike.freq, alike.prnt, same⟩

theorem adopt (alike : Alike tree other) (s i : Nat) :
    Option.Rel Alike (tree.adopt s i) (other.adopt s i) := by
  refine rel_bind _ (alike.setPrnt s i) fun _ _ alike => ?_
  split
  · exact alike.setPrnt (s + 1) i
  · exact .some alike

theorem collectLeaf (i j : Nat) (alike : Alike tree other) :
    Option.Rel AlikeAt (HuffmanTree.collectLeaf i (j, tree))
      (HuffmanTree.collectLeaf i (j, other)) := by
  refine rel_read (alike.getSon i) fun s => ?_
  split
  · refine rel_read (alike.getFreq i) fun f => rel_bind _ (alike.setFreq j _) fun _ _ alike => ?_
    refine rel_read (alike.getSon i) fun s => rel_bind _ (alike.setSon j s) fun _ _ alike => ?_
    exact .some ⟨rfl, alike⟩
  · exact .some ⟨rfl, alike⟩

theorem findPlace (alike : Alike tree other) (first : Nat) :
    tree.findPlace first = other.findPlace first := by
  funext k
  simp only [HuffmanTree.findPlace, alike.getFreq]

theorem connectSons (i j : Nat) (alike : Alike tree other) :
    Option.Rel (Sum.LiftRel AlikeBetween Alike)
      (HuffmanTree.connectSons (i, j, tree)) (HuffmanTree.connectSons (i, j, other)) := by
  simp only [HuffmanTree.connectSons]
  split
  · refine rel_read (alike.getFreq i) fun f => rel_read (alike.getFreq (i + 1)) fun g => ?_
    refine rel_bind _ (alike.setFreq j _) fun _ _ alike => ?_
    refine rel_read (by rw [alike.findPlace]) fun k => ?_
    refine rel_bind _ (alike.moveFreq _ _) fun _ _ alike => ?_
    refine rel_bind _ (alike.setFreq _ _) fun _ _ alike => ?_
    refine rel_bind _ (alike.moveSon _ _) fun _ _ alike => ?_
    refine rel_bind _ (alike.setSon _ _) fun _ _ alike => ?_
    exact .some (.inl ⟨rfl, rfl, alike⟩)
  · exact .some (.inr alike)

theorem reconst (alike : Alike tree other) :
    Option.Rel Alike tree.reconst other.reconst := by
  have collects : Option.Rel AlikeAt (forRange tableSize HuffmanTree.collectLeaf (0, tree))
      (forRange tableSize HuffmanTree.collectLeaf (0, other)) := by
    refine forRange_rel (fun _ => AlikeAt) ?_ ⟨rfl, alike⟩
    rintro i ⟨j, tree⟩ ⟨_, other⟩ - ⟨rfl, alike⟩
    exact alike.collectLeaf i j
  simp only [HuffmanTree.reconst, Option.bind_eq_bind]
  refine rel_bind AlikeAt collects ?_
  rintro ⟨_, tree⟩ ⟨_, other⟩ ⟨rfl, alike⟩
  have connects : Option.Rel Alike (iterate HuffmanTree.connectSons tableSize (0, nChar, tree))
      (iterate HuffmanTree.connectSons tableSize (0, nChar, other)) := by
    refine iterate_rel AlikeBetween ?_ _ ⟨rfl, rfl, alike⟩
    rintro ⟨i, j, tree⟩ ⟨_, _, other⟩ ⟨rfl, rfl, alike⟩
    exact alike.connectSons i j
  refine rel_bind Alike connects fun tree other alike => ?_
  refine forRange_rel (fun _ => Alike) (fun i tree other _ alike => ?_) alike
  exact rel_read (alike.getSon i) fun s => alike.adopt s i

theorem findLast (alike : Alike tree other) (k : Nat) :
    tree.findLast k = other.findLast k := by
  funext l
  simp only [HuffmanTree.findLast, alike.getFreq]

theorem exchange (alike : Alike tree other) (c l k : Nat) :
    Option.Rel Alike (tree.exchange c l k) (other.exchange c l k) := by
  refine rel_read (alike.getFreq l) fun f => rel_bind _ (alike.setFreq c f) fun _ _ alike => ?_
  refine rel_bind _ (alike.setFreq l k) fun _ _ alike => ?_
  refine rel_read (alike.getSon c) fun i => rel_bind _ (alike.adopt i l) fun _ _ alike => ?_
  refine rel_read (alike.getSon l) fun j => rel_bind _ (alike.setSon l i) fun _ _ alike => ?_
  exact rel_bind _ (alike.adopt j c) fun _ _ alike => alike.setSon c j

theorem raise (c : Nat) (alike : Alike tree other) :
    Option.Rel (Sum.LiftRel AlikeAt Alike)
      (HuffmanTree.raise (c, tree)) (HuffmanTree.raise (c, other)) := by
  have goesUp : ∀ {tree other : HuffmanTree} (c : Nat), Alike tree other →
      Option.Rel (Sum.LiftRel AlikeAt Alike)
        ((tree.getPrnt c).bind fun c =>
          if c ≠ 0 then some (.inl (c, tree)) else some (.inr tree))
        ((other.getPrnt c).bind fun c =>
          if c ≠ 0 then some (.inl (c, other)) else some (.inr other)) := by
    intro tree other c alike
    refine rel_read (alike.getPrnt c) fun p => ?_
    split
    · exact .some (.inl ⟨rfl, alike⟩)
    · exact .some (.inr alike)
  refine rel_read (alike.getFreq c) fun f => rel_bind _ (alike.setFreq c _) fun _ _ alike => ?_
  refine rel_read (alike.getFreq (c + 1)) fun g => ?_
  simp only
  split
  · refine rel_read (by rw [alike.findLast]) fun l => ?_
    exact rel_bind _ (alike.exchange _ _ _) fun _ _ alike => goesUp _ alike
  · exact goesUp c alike

theorem update (alike : Alike tree other) (c : Nat) :
    Option.Rel Alike (tree.update c) (other.update c) := by
  have climbs : ∀ {tree other : HuffmanTree}, Alike tree other →
      Option.Rel Alike
        ((tree.getPrnt (c + tableSize)).bind fun k =>
          iterate HuffmanTree.raise tableSize (k, tree))
        ((other.getPrnt (c + tableSize)).bind fun k =>
          iterate HuffmanTree.raise tableSize (k, other)) := by
    intro tree other alike
    refine rel_read (alike.getPrnt _) fun k => ?_
    refine iterate_rel AlikeAt ?_ _ ⟨rfl, alike⟩
    rintro ⟨c, tree⟩ ⟨_, other⟩ ⟨rfl, alike⟩
    exact alike.raise c
  simp only [HuffmanTree.update, Option.bind_eq_bind, Option.bind_some]
  refine rel_read (alike.getFreq rootPosition) fun f => ?_
  split
  · exact rel_bind _ alike.reconst fun _ _ alike => climbs alike
  · exact climbs alike

end Alike

/-- As far as `StartHuff` has come: the leaves before `f`, or the nodes before `f`, whose
sons come before `i`. -/
structure AlikeBelow (f leaves i : Nat) (tree other : HuffmanTree) : Prop where
  freq : Agree f tree.freq other.freq
  son : Agree f tree.son other.son
  leaf : ∀ j < leaves, tree.prnt (j + tableSize) = other.prnt (j + tableSize)
  node : Agree i tree.prnt other.prnt

section Start

variable {tree other : HuffmanTree} {i j : Nat}

theorem startLeaf_alike (symbol : i < nChar) (below : AlikeBelow i i 0 tree other) :
    Option.Rel (AlikeBelow (i + 1) (i + 1) 0) (startLeaf i tree) (startLeaf i other) := by
  have here : i < tableSize := by lia
  have there : i + tableSize < tableSize + nChar := by lia
  simp only [startLeaf, setFreq_some (show i < tableSize + 1 by omega), setSon_some here,
    setPrnt_some there, Option.bind_eq_bind, Option.bind_some]
  refine .some ⟨below.freq.extend 1, below.son.extend _, ?_, fun k none => ?_⟩
  · intro k early
    simp only [put_apply]
    split
    · rfl
    · exact below.leaf k (by omega)
  · exact absurd none (Nat.not_lt_zero k)

theorem startNode_alike (inside : j ≤ rootPosition → i + 1 < j) (below : AlikeBelow j nChar i tree other) :
    Option.Rel (Sum.LiftRel (fun state state' => state.1 = i + 2 ∧ state'.1 = i + 2 ∧
        state.2.1 = j + 1 ∧ state'.2.1 = j + 1 ∧ j < tableSize ∧
        AlikeBelow (j + 1) nChar (i + 2) state.2.2 state'.2.2)
      fun state state' => tableSize ≤ j ∧ AlikeBelow j nChar i state state')
      (startNode (i, j, tree)) (startNode (i, j, other)) := by
  by_cases more : j ≤ rootPosition
  · have node : j < tableSize := by lia
    have inside := inside more
    have first := below.freq i (by omega)
    have second := below.freq (i + 1) inside
    simp only [startNode, if_pos more, getFreq_some (show i < tableSize + 1 by omega),
      getFreq_some (show i + 1 < tableSize + 1 by omega),
      setFreq_some (show j < tableSize + 1 by omega), setSon_some node,
      setPrnt_some (show i + 1 < tableSize + nChar by omega),
      setPrnt_some (show i < tableSize + nChar by omega), first, second,
      Option.bind_eq_bind, Option.bind_some]
    refine .some (.inl ⟨rfl, rfl, rfl, rfl, node, ?_⟩)
    refine ⟨below.freq.extend _, below.son.extend _, fun k symbol => ?_, ?_⟩
    · simp only [put_apply]
      split
      · rfl
      · split
        · rfl
        · exact below.leaf k symbol
    · intro k early
      simp only [put_apply]
      split
      · rfl
      · split
        · rfl
        · exact below.node k (by omega)
  · simp only [startNode, if_neg more]
    exact .some (.inr ⟨by lia, below⟩)

theorem startHuff_alike (tree other : HuffmanTree) :
    Option.Rel Alike tree.startHuff other.startHuff := by
  have leaves : Option.Rel (AlikeBelow nChar nChar 0) (forRange nChar startLeaf tree)
      (forRange nChar startLeaf other) := by
    refine forRange_rel (fun i => AlikeBelow i i 0)
      (fun i tree other symbol below => startLeaf_alike symbol below) ?_
    constructor <;> exact fun k none => absurd none (Nat.not_lt_zero k)
  have nodes : ∀ tree other : HuffmanTree, AlikeBelow nChar nChar 0 tree other →
      Option.Rel (AlikeBelow tableSize nChar rootPosition)
        (iterate startNode tableSize (0, nChar, tree))
        (iterate startNode tableSize (0, nChar, other)) := by
    intro tree other below
    refine iterate_rel (fun state state' => state.1 = state'.1 ∧ state.2.1 = state'.2.1 ∧
      state.1 = 2 * (state.2.1 - nChar) ∧ nChar ≤ state.2.1 ∧ state.2.1 ≤ tableSize ∧
      AlikeBelow state.2.1 nChar state.1 state.2.2 state'.2.2) ?_ _
      ⟨rfl, rfl, by simp only [Nat.sub_self, Nat.mul_zero], Nat.le_refl _,
        show nChar ≤ tableSize by decide, below⟩
    rintro ⟨i, j, tree⟩ ⟨_, _, other⟩ ⟨rfl, rfl, pairs, low, high, below⟩
    simp only at pairs low high below
    refine rel_mono (startNode_alike (fun more => by lia) below) ?_
    rintro _ _ (⟨same, same', next, next', node, below⟩ | ⟨all, below⟩)
    · refine .inl ⟨by rw [same, same'], by rw [next, next'], ?_, ?_, ?_, ?_⟩
      · rw [same, next]
        lia
      · rw [next]
        omega
      · rw [next]
        exact node
      · rw [same, next]
        exact below
    · have last : j = tableSize := by omega
      have top : i = rootPosition := by lia
      rw [last, top] at below
      exact .inr below
  simp only [startHuff, Option.bind_eq_bind]
  refine rel_bind _ leaves fun tree other below => rel_bind _ (nodes tree other below) ?_
  intro tree other below
  simp only [setFreq_some (show tableSize < tableSize + 1 by omega), Option.bind_some,
    setPrnt_some (show rootPosition < tableSize + nChar by lia)]
  refine .some ⟨below.freq.extend _, fun k inside => ?_, below.son⟩
  simp only [put_apply]
  split
  · rfl
  · by_cases node : k < rootPosition
    · exact below.node k node
    · have symbol := below.leaf (k - tableSize) (by lia)
      rwa [Nat.sub_add_cancel (by lia)] at symbol

end Start

/-- How many leaves hang below a node of `StartHuff`'s tree. -/
def startWeight : Nat → Nat → Nat
  | 0, _ => 1
  | fuel + 1, p =>
      if p < nChar then 1
      else startWeight fuel (2 * (p - nChar)) + startWeight fuel (2 * (p - nChar) + 1)

/-- What `StartHuff` makes of any tree. -/
def startTable : HuffmanTree where
  freq p := if p = tableSize then sentinel else startWeight 10 p
  prnt p := if p < rootPosition then nChar + p / 2 else p - tableSize
  son p := if p < nChar then p + tableSize else 2 * (p - nChar)

theorem startWeight_leaf {fuel p : Nat} (symbol : p < nChar) : startWeight fuel p = 1 := by
  cases fuel with
  | zero => rfl
  | succ fuel => exact if_pos symbol

theorem startWeight_sons : ∀ t < nChar - 1,
    startWeight 10 (2 * t) + startWeight 10 (2 * t + 1) = startWeight 10 (nChar + t) := by
  decide +kernel

theorem startTable_freq {p : Nat} (inside : p < tableSize) : startTable.freq p = startWeight 10 p :=
  if_neg (Nat.ne_of_lt inside)

theorem startTable_prnt {p : Nat} (inside : p < rootPosition) : startTable.prnt p = nChar + p / 2 :=
  if_pos inside

theorem startLeaf_table {i : Nat} (symbol : i < nChar) : startLeaf i startTable = some startTable := by
  have freq : startTable.freq i = 1 := by
    rw [startTable_freq (by lia), startWeight_leaf symbol]
  have son : startTable.son i = i + tableSize := if_pos symbol
  have prnt : startTable.prnt (i + tableSize) = i := by
    simp only [startTable, if_neg (show ¬ i + tableSize < rootPosition by lia),
      Nat.add_sub_cancel]
  simp only [startLeaf, setFreq_some (show i < tableSize + 1 by lia), put_here freq,
    setSon_some (show i < tableSize by lia), put_here son,
    setPrnt_some (show i + tableSize < tableSize + nChar by lia), put_here prnt,
    Option.bind_eq_bind, Option.bind_some]

theorem startNode_table {t : Nat} (small : t < nChar - 1) :
    startNode (2 * t, nChar + t, startTable) =
      some (.inl (2 * (t + 1), nChar + (t + 1), startTable)) := by
  have freq : startTable.freq (nChar + t) = startTable.freq (2 * t) + startTable.freq (2 * t + 1) := by
    rw [startTable_freq (by lia), startTable_freq (by lia), startTable_freq (by lia),
      startWeight_sons t small]
  have son : startTable.son (nChar + t) = 2 * t :=
    (if_neg (by omega)).trans (by rw [Nat.add_sub_cancel_left])
  have first : startTable.prnt (2 * t) = nChar + t := by
    rw [startTable_prnt (by lia)]
    omega
  have second : startTable.prnt (2 * t + 1) = nChar + t := by
    rw [startTable_prnt (by lia)]
    omega
  simp only [startNode, if_pos (show nChar + t ≤ rootPosition by lia),
    getFreq_some (show 2 * t < tableSize + 1 by lia),
    getFreq_some (show 2 * t + 1 < tableSize + 1 by lia),
    setFreq_some (show nChar + t < tableSize + 1 by lia), put_here freq,
    setSon_some (show nChar + t < tableSize by lia), put_here son,
    setPrnt_some (show 2 * t + 1 < tableSize + nChar by lia), put_here second,
    setPrnt_some (show 2 * t < tableSize + nChar by lia), put_here first,
    Option.bind_eq_bind, Option.bind_some]
  rfl

/-- `StartHuff` writes what is there already. -/
theorem startHuff_table : startTable.startHuff = some startTable := by
  have leaves : forRange nChar startLeaf startTable = some startTable := by
    have round : ∀ i tree, i < nChar → tree = startTable →
        ∃ next, startLeaf i tree = some next ∧ next = startTable := by
      rintro i _ symbol rfl
      exact ⟨startTable, startLeaf_table symbol, rfl⟩
    obtain ⟨_, runs, rfl⟩ := forRange_total (fun _ tree => tree = startTable) round rfl
    exact runs
  have nodes : iterate startNode tableSize (0, nChar, startTable) = some startTable := by
    have nodeLoop : ∃ result, iterate startNode tableSize (0, nChar, startTable) = some result ∧
        result = startTable := by
      refine iterate_total (fun left state => ∃ t, left + t = nChar - 1 ∧
        state = (2 * t, nChar + t, startTable)) ?_ (nChar - 1) (by lia) ⟨0, rfl, rfl⟩
      rintro left _ ⟨t, count, rfl⟩
      by_cases small : t < nChar - 1
      · exact .inl ⟨_, startNode_table small, left - 1, by omega, t + 1, by omega, rfl⟩
      · refine .inr ⟨startTable, ?_, rfl⟩
        simp only [startNode, if_neg (show ¬ nChar + t ≤ rootPosition by lia)]
    obtain ⟨_, runs, rfl⟩ := nodeLoop
    exact runs
  have freq : startTable.freq tableSize = sentinel := by simp [startTable]
  have prnt : startTable.prnt rootPosition = 0 := by decide
  simp only [startHuff, leaves, nodes, setFreq_some (show tableSize < tableSize + 1 by omega),
    put_here freq, setPrnt_some (show rootPosition < tableSize + nChar by lia), put_here prnt,
    Option.bind_eq_bind, Option.bind_some]

end HuffmanTree

section Symbols

open HuffmanTree

variable {tree other : HuffmanTree}

theorem descend_alike (alike : Alike tree other) : descend tree = descend other := by
  funext ⟨c, reader⟩
  simp only [descend, alike.getSon]

theorem decodeChar_alike (alike : Alike tree other) (reader : BitReader) :
    Option.Rel (fun found found' => found.1 = found'.1 ∧ Alike found.2.1 found'.2.1 ∧
        found.2.2 = found'.2.2)
      (decodeChar tree reader) (decodeChar other reader) := by
  simp only [decodeChar, alike.getSon, descend_alike alike, Option.bind_eq_bind]
  refine rel_read rfl fun top => rel_read rfl fun found => ?_
  exact rel_bind _ (alike.update _) fun _ _ alike => .some ⟨rfl, alike, rfl⟩

end Symbols

end PaclinkUnix
