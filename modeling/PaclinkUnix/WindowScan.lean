import PaclinkUnix.SearchOrder
import PaclinkUnix.SlidingWindow

/-!
The calls of `InsertNode` in a run of `Encode`: each finds what a scan of the window would
find. A log keeps what has been inserted and deleted, and what was in the text then.
-/

namespace PaclinkUnix

open Memory LinkedForest

inductive TreeCall where
  | insert (r : Nat) (text : Nat → UInt8)
  | delete (p : Nat)

abbrev TreeLog := List TreeCall

def Standing : TreeLog → Nat → Prop
  | [], _ => False
  | .insert r _ :: log, x => x = r ∨ Standing log x
  | .delete p :: log, x => x ≠ p ∧ Standing log x

/-- Inserted, and since then neither deleted nor replaced by an equal string. -/
def Held : TreeLog → Nat → Prop
  | [], _ => False
  | .insert r text :: log, x => x = r ∨ (Held log x ∧ SearchTree.common text r x < lookahead)
  | .delete p :: log, x => x ≠ p ∧ Held log x

namespace Window

/-- `k` strings of blanks have been inserted, in front of what has been read. -/
inductive Opening (search : SearchTree) (inbuf : Buffer) :
    TreeLog → Nat → Nat × Buffer × SearchTree → Prop
  | filled {empty blank : SearchTree} {ahead : Nat × Buffer × SearchTree} :
      search.initTree = some empty →
      forRange (ringSize - lookahead) setBlank empty = some blank →
      iterate (readAhead (ringSize - lookahead)) (lookahead + 1) (0, inbuf.rewind, blank) =
        some ahead →
      Opening search inbuf [] 0 ahead
  | blank {log : TreeLog} {k len : Nat} {after : Buffer} {tree next : SearchTree} :
      Opening search inbuf log k (len, after, tree) → k < lookahead →
      insertBlank (ringSize - lookahead) k tree = some next →
      Opening search inbuf (.insert (ringSize - lookahead - (k + 1)) tree.textBuf :: log) (k + 1)
        (len, after, next)

/-- At the head of the main loop, or in one of the two loops behind a token. -/
inductive Phase where
  | head
  | reading (last i : Nat)
  | running (last i : Nat)

/-- The windows of a run, with what has been called before. -/
inductive Passes (search : SearchTree) (inbuf : Buffer) : Phase → TreeLog → Window → Prop
  | start {log : TreeLog} {len : Nat} {after : Buffer} {tree next : SearchTree} :
      Opening search inbuf log lookahead (len, after, tree) →
      tree.insertNode (ringSize - lookahead) = some next →
      Passes search inbuf .head (.insert (ringSize - lookahead) tree.textBuf :: log)
        ⟨next, after, len, 0, ringSize - lookahead⟩
  | token {log : TreeLog} {window chosen : Window} {token : Token} :
      Passes search inbuf .head log window → window.nextToken = some (token, chosen) →
      Passes search inbuf (.reading chosen.search.matchLength 0) log chosen
  | read {last i j : Nat} {log : TreeLog} {window next : Window} :
      Passes search inbuf (.reading last i) log window →
      readOn last (i, window) = some (.inl (j, next)) →
      Passes search inbuf (.reading last j)
        (.insert next.r next.search.textBuf :: .delete window.s :: log) next
  | ended {last i j : Nat} {log : TreeLog} {window next : Window} :
      Passes search inbuf (.reading last i) log window →
      readOn last (i, window) = some (.inr (j, next)) →
      Passes search inbuf (.running last j) log next
  | out {last i j : Nat} {log : TreeLog} {window next : Window} :
      Passes search inbuf (.running last i) log window →
      runOut last (i, window) = some (.inl (j, next)) →
      Passes search inbuf (.running last j)
        (if next.len ≠ 0 then .insert next.r next.search.textBuf :: .delete window.s :: log
          else .delete window.s :: log) next
  | again {last i : Nat} {log : TreeLog} {window next : Window} :
      Passes search inbuf (.running last i) log window →
      runOut last (i, window) = some (.inr next) → 0 < next.len →
      Passes search inbuf .head log next

/-- The character in its cell, and in the copy behind the ring. -/
def writeChar (s : Nat) (c : UInt8) (search : SearchTree) : Option SearchTree := do
  let search ← search.setText s c
  if s < lookahead - 1 then search.setText (s + ringSize) c else some search

/-- The calls of `InsertNode`, with the tree before and after. -/
inductive Called (search : SearchTree) (inbuf : Buffer) :
    TreeLog → SearchTree → Nat → SearchTree → Prop
  | blank {log : TreeLog} {k len : Nat} {after : Buffer} {tree next : SearchTree} :
      Opening search inbuf log k (len, after, tree) → k < lookahead →
      tree.insertNode (ringSize - lookahead - (k + 1)) = some next →
      Called search inbuf log tree (ringSize - lookahead - (k + 1)) next
  | first {log : TreeLog} {len : Nat} {after : Buffer} {tree next : SearchTree} :
      Opening search inbuf log lookahead (len, after, tree) →
      tree.insertNode (ringSize - lookahead) = some next →
      Called search inbuf log tree (ringSize - lookahead) next
  | read {last i : Nat} {c : UInt8} {log : TreeLog} {window : Window} {after : Buffer}
      {left written next : SearchTree} :
      Passes search inbuf (.reading last i) log window → i < last →
      window.inbuf.iterchar = (some c, after) →
      window.search.deleteNode window.s = some left → writeChar window.s c left = some written →
      written.insertNode ((window.r + 1) % ringSize) = some next →
      Called search inbuf (.delete window.s :: log) written ((window.r + 1) % ringSize) next
  | out {last i : Nat} {log : TreeLog} {window : Window} {left next : SearchTree} :
      Passes search inbuf (.running last i) log window → i < last →
      window.search.deleteNode window.s = some left → window.len - 1 ≠ 0 →
      left.insertNode ((window.r + 1) % ringSize) = some next →
      Called search inbuf (.delete window.s :: log) left ((window.r + 1) % ringSize) next

/-- With `m` the most that the new string has in common with one of these, the match is as long
as that, and one of that length; or there is none. -/
def Scanned (present : Nat → Prop) (tree : SearchTree) (r : Nat) (next : SearchTree) : Prop :=
  ∃ m, (∀ x < nil, present x → SearchTree.common tree.textBuf r x ≤ m) ∧
    (m = 0 ∨ ∃ x < nil, present x ∧ SearchTree.common tree.textBuf r x = m) ∧
    (threshold < m → next.matchLength = m ∧
      SearchTree.common tree.textBuf r (((r : Int) - next.matchPosition - 1) % ringSize).toNat = m) ∧
    (m ≤ threshold → next.matchLength = 0)

section Calls

variable {tree next : SearchTree} {r : Nat} {log : TreeLog}

theorem place_of_distance {q : Nat} (node : r < nil) (inside : q < nil) (other : q ≠ r) :
    (((r : Int) - SearchTree.distance r q - 1) % ringSize).toNat = q := by
  have turns : 0 < ((r : Int) - q) % ringSize := by lia
  rw [SearchTree.distance]
  lia

structure Logged (log : TreeLog) (tree : SearchTree) : Prop where
  ordered : SearchTree.Ordered tree
  held : ∀ x < nil, tree.dad x ≠ nil ↔ Held log x

theorem Logged.insert (logged : Logged log tree) (node : r < nil) (free : tree.dad r = nil)
    (inserts : tree.insertNode r = some next) :
    Scanned (Held log) tree r next ∧ Logged (.insert r tree.textBuf :: log) next ∧
      next.textBuf = tree.textBuf ∧ ∀ x < nil, next.dad x ≠ nil → x = r ∨ tree.dad x ≠ nil := by
  obtain ⟨ordered, held⟩ := logged
  obtain ⟨_, again, searched⟩ := SearchTree.insertNode_searched ordered node free
  obtain rfl := Option.some.inj (inserts.symm.trans again)
  obtain ⟨inserted, ordered', registered, best, ⟨length, reached, place⟩, most⟩ := searched
  refine ⟨⟨best, fun x inside there => most x inside ((held x inside).mpr there), ?_, ?_, ?_⟩,
    ⟨ordered', fun x inside => ?_⟩, inserted.text, inserted.registered⟩
  · refine reached.imp_right ?_
    rintro ⟨q, inside, hung, shared⟩
    exact ⟨q, inside, (held q inside).mp hung, shared⟩
  · intro long
    obtain ⟨q, inside, hung, position, shared⟩ := place long
    have other : q ≠ r := by
      rintro rfl
      exact hung free
    refine ⟨length.trans (if_pos long), ?_⟩
    rw [position, place_of_distance node inside other]
    exact shared
  · intro short
    exact length.trans (if_neg (Nat.not_lt.mpr short))
  · rw [registered x inside, Held, held x inside]

theorem Logged.delete (logged : Logged log tree) {p : Nat} (inside : p < nil)
    (deletes : tree.deleteNode p = some next) :
    Logged (.delete p :: log) next ∧ next.textBuf = tree.textBuf ∧
      ∀ x < nil, next.dad x ≠ nil ↔ tree.dad x ≠ nil ∧ x ≠ p := by
  obtain ⟨ordered, held⟩ := logged
  obtain ⟨_, again, ordered', text, registered⟩ := SearchTree.deleteNode_ordered ordered inside
  obtain rfl := Option.some.inj (deletes.symm.trans again)
  refine ⟨⟨ordered', fun x low => ?_⟩, text, registered⟩
  rw [registered x low, Held, held x low, and_comm]

theorem setText_text {i : Nat} {c : UInt8} (sets : tree.setText i c = some next) :
    next = { tree with textBuf := put tree.textBuf i c } := by
  rw [SearchTree.setText, store] at sets
  split at sets
  · exact (Option.some.inj sets).symm
  · cases sets

end Calls

section Opening

variable {search tree next : SearchTree} {inbuf after : Buffer} {log : TreeLog} {k len : Nat}

theorem readAhead_text {r : Nat} {ahead : Nat × Buffer × SearchTree} {fuel : Nat}
    (reads : iterate (readAhead r) fuel (len, inbuf, tree) = some ahead) :
    ∃ text, ahead.2.2 = { tree with textBuf := text } := by
  refine iterate_some
    (fun (state : Nat × Buffer × SearchTree) => ∃ text, state.2.2 = { tree with textBuf := text })
    (fun (state : Nat × Buffer × SearchTree) => ∃ text, state.2.2 = { tree with textBuf := text })
    ?_ ?_ ⟨tree.textBuf, rfl⟩ reads
  · rintro ⟨len, inbuf, tree⟩ ⟨more, further, last⟩ ⟨text, rfl⟩ steps
    simp only [readAhead] at steps
    split at steps
    · split at steps
      · cases steps
      · simp only [Option.bind_eq_bind, Option.bind_eq_some_iff, Option.some.injEq, Sum.inl.injEq,
          Prod.mk.injEq] at steps
        obtain ⟨written, sets, -, -, rfl⟩ := steps
        rw [setText_text sets]
        exact ⟨_, rfl⟩
    · cases steps
  · rintro ⟨len, inbuf, tree⟩ ⟨more, further, last⟩ ⟨text, rfl⟩ steps
    simp only [readAhead] at steps
    split at steps
    · split at steps
      · cases steps
        exact ⟨text, rfl⟩
      · simp [Option.bind_eq_some_iff] at steps
    · cases steps
      exact ⟨text, rfl⟩

theorem Opening.logged {state : Nat × Buffer × SearchTree}
    (opening : Opening search inbuf log k state) : k ≤ lookahead ∧ Logged log state.2.2 ∧
      ∀ x < nil, state.2.2.dad x ≠ nil →
        ringSize - lookahead - k ≤ x ∧ x < ringSize - lookahead := by
  induction opening with
  | @filled empty blank ahead inits fills reads =>
      obtain ⟨_, again, ⟨side, rank, grown⟩, -, free⟩ := SearchTree.initTree_total search
      obtain rfl := Option.some.inj (inits.symm.trans again)
      obtain ⟨text, same, -⟩ := setBlank_total (ringSize - lookahead) (by decide) empty
      obtain rfl := Option.some.inj (fills.symm.trans same)
      obtain ⟨written, here⟩ := readAhead_text reads
      rw [here]
      refine ⟨Nat.zero_le _, ⟨⟨side, rank, SearchTree.grown_of_agree grown (fun _ _ => rfl)
        (fun _ _ _ => rfl) fun y inside hung => absurd (free y inside) hung, Sorted.of_empty free⟩,
        fun x inside => ?_⟩, fun x inside hung => absurd (free x inside) hung⟩
      exact iff_of_false (fun hung => hung (free x inside)) id
  | @blank log k len after tree next _ more inserts ih =>
      obtain ⟨-, logged, placed⟩ := ih
      have free : tree.dad (ringSize - lookahead - (k + 1)) = nil := by
        by_contra hung
        have := placed _ (by lia) hung
        lia
      obtain ⟨-, kept, -, registered⟩ := logged.insert (by lia) free inserts
      refine ⟨more, kept, fun x inside hung => ?_⟩
      rcases registered x inside hung with rfl | before
      · lia
      · have := placed x inside before
        lia

end Opening

section Moves

variable {search tree left written : SearchTree} {inbuf : Buffer} {log : TreeLog} {t last i j : Nat}
  {window next : Window}

/-- Where the window stands when `t` characters have left it. -/
structure Stands (t : Nat) (log : TreeLog) (window : Window) : Prop where
  logged : Logged log window.search
  r : window.r = (ringSize - lookahead + t) % ringSize
  s : window.s = t % ringSize
  registered : Registered window.search t (ringSize - lookahead + t + 1)

theorem Stands.leave (stands : Stands t log window)
    (deletes : window.search.deleteNode window.s = some left) :
    Logged (.delete window.s :: log) left ∧
      Registered left (t + 1) (ringSize - lookahead + (t + 1)) ∧
      left.dad ((window.r + 1) % ringSize) = nil := by
  have inside : window.s < nil := by
    rw [stands.s]
    exact Nat.mod_lt _ (by decide)
  obtain ⟨kept, -, stays⟩ := stands.logged.delete inside deletes
  exact ⟨kept, stands.registered.leave stands.r stands.s fun x node => (stays x node).mp⟩

theorem Logged.write (logged : Logged log tree)
    (registered : Registered tree (t + 1) (ringSize - lookahead + (t + 1))) {c : UInt8}
    (writes : writeChar (t % ringSize) c tree = some written) :
    Logged log written ∧ written.dad = tree.dad := by
  have apart : ∀ x < nil, tree.dad x ≠ nil → ∀ k < lookahead,
      (x + k) % ringSize ≠ t % ringSize := by
    intro x inside hung k short
    obtain ⟨b, low, high, rfl⟩ := registered x inside hung
    lia
  have same : ∃ text, written = { tree with textBuf := text } ∧
      ∀ y, y % ringSize ≠ t % ringSize → text y = tree.textBuf y := by
    simp only [writeChar, Option.bind_eq_bind, Option.bind_eq_some_iff] at writes
    obtain ⟨middle, sets, copies⟩ := writes
    obtain rfl := setText_text sets
    split at copies
    · obtain rfl := setText_text copies
      refine ⟨_, rfl, fun y other => ?_⟩
      have behind : y ≠ t % ringSize + ringSize := by
        rintro rfl
        exact other (by lia)
      have apart : y ≠ t % ringSize := by
        rintro rfl
        exact other (Nat.mod_mod t ringSize)
      exact (put_other behind).trans (put_other apart)
    · obtain rfl := Option.some.inj copies
      refine ⟨_, rfl, fun y other => ?_⟩
      have apart : y ≠ t % ringSize := by
        rintro rfl
        exact other (Nat.mod_mod t ringSize)
      exact put_other apart
  obtain ⟨text, rfl, unchanged⟩ := same
  refine ⟨⟨logged.ordered.write ?_, logged.held⟩, rfl⟩
  intro x inside hung k short
  exact unchanged _ (apart x inside hung k short)

theorem Stands.enter {r : Nat} (logged : Logged log tree)
    (registered : Registered tree (t + 1) (ringSize - lookahead + (t + 1)))
    (place : r = (ringSize - lookahead + (t + 1)) % ringSize) (free : tree.dad r = nil)
    (inserts : tree.insertNode r = some written) :
    Logged (.insert r written.textBuf :: log) written ∧
      Registered written (t + 1) (ringSize - lookahead + (t + 1) + 1) := by
  have inside : r < nil := by
    rw [place]
    exact Nat.mod_lt _ (by decide)
  obtain ⟨-, kept, text, placed⟩ := logged.insert inside free inserts
  exact ⟨text ▸ kept, registered.enter place placed⟩

theorem readOn_more (reads : readOn last (i, window) = some (.inl (j, next))) :
    ∃ c after left written entered, i < last ∧ window.inbuf.iterchar = (some c, after) ∧
      window.search.deleteNode window.s = some left ∧ writeChar window.s c left = some written ∧
      written.insertNode ((window.r + 1) % ringSize) = some entered ∧ j = i + 1 ∧
      next = ⟨entered, after, window.len, (window.s + 1) % ringSize,
        (window.r + 1) % ringSize⟩ := by
  simp only [readOn] at reads
  split at reads
  next more =>
    split at reads
    next after read => cases reads
    next c after read =>
      simp only [Option.bind_eq_bind, Option.bind_eq_some_iff] at reads
      obtain ⟨left, deletes, middle, sets, later⟩ := reads
      have copies : ∃ written entered, writeChar window.s c left = some written ∧
          written.insertNode ((window.r + 1) % ringSize) = some entered ∧
          (Sum.inl (i + 1, ⟨entered, after, window.len, (window.s + 1) % ringSize,
            (window.r + 1) % ringSize⟩) : (Nat × Window) ⊕ (Nat × Window)) = .inl (j, next) := by
        simp only [writeChar, sets, Option.bind_eq_bind, Option.bind_some]
        split at later
        next early =>
          obtain ⟨written, copied, entered, inserts, steps⟩ := by
            simpa only [Option.bind_eq_some_iff] using later
          exact ⟨written, entered, by rw [if_pos early, copied], inserts, Option.some.inj steps⟩
        next late =>
          obtain ⟨entered, inserts, steps⟩ := by
            simpa only [Option.bind_some, Option.bind_eq_some_iff] using later
          exact ⟨middle, entered, by rw [if_neg late], inserts, Option.some.inj steps⟩
      obtain ⟨written, entered, writes, inserts, steps⟩ := copies
      cases steps
      exact ⟨c, after, left, written, entered, more, read, deletes, writes, inserts, rfl, rfl⟩
  next => cases reads

theorem readOn_ended (reads : readOn last (i, window) = some (.inr (j, next))) :
    next.search = window.search ∧ next.r = window.r ∧ next.s = window.s := by
  simp only [readOn] at reads
  split at reads
  · split at reads
    · cases reads
      exact ⟨rfl, rfl, rfl⟩
    · simp only [Option.bind_eq_bind, Option.bind_eq_some_iff] at reads
      obtain ⟨_, -, _, -, wrong⟩ := reads
      split at wrong <;> simp [Option.bind_eq_some_iff] at wrong
  · cases reads
    exact ⟨rfl, rfl, rfl⟩

theorem runOut_more (runs : runOut last (i, window) = some (.inl (j, next))) :
    ∃ left entered, i < last ∧ window.search.deleteNode window.s = some left ∧
      (if window.len - 1 ≠ 0 then left.insertNode ((window.r + 1) % ringSize) else some left) =
        some entered ∧ j = i + 1 ∧
      next = ⟨entered, window.inbuf, window.len - 1, (window.s + 1) % ringSize,
        (window.r + 1) % ringSize⟩ := by
  simp only [runOut] at runs
  split at runs
  next more =>
    simp only [Option.bind_eq_bind, Option.bind_eq_some_iff] at runs
    obtain ⟨left, deletes, later⟩ := runs
    split at later
    next remains =>
      obtain ⟨entered, inserts, steps⟩ := Option.bind_eq_some_iff.mp later
      cases steps
      exact ⟨left, entered, more, deletes, by rw [if_pos remains, inserts], rfl, rfl⟩
    next emptied =>
      rw [Option.bind_some] at later
      cases later
      exact ⟨left, left, more, deletes, if_neg emptied, rfl, rfl⟩
  next => cases runs

theorem runOut_ended (runs : runOut last (i, window) = some (.inr next)) : next = window := by
  simp only [runOut] at runs
  split at runs
  · simp only [Option.bind_eq_bind, Option.bind_eq_some_iff] at runs
    obtain ⟨_, -, wrong⟩ := runs
    split at wrong <;> simp [Option.bind_eq_some_iff] at wrong
  · cases runs
    rfl

theorem nextToken_search {token : Token} (chooses : window.nextToken = some (token, next)) :
    ∃ length, next = { window with search := { window.search with matchLength := length } } := by
  simp only [nextToken] at chooses
  split at chooses
  · simp only [Option.bind_eq_bind, Option.bind_eq_some_iff, Option.some.injEq,
      Prod.mk.injEq] at chooses
    obtain ⟨c, -, -, rfl⟩ := chooses
    exact ⟨_, rfl⟩
  · simp only [Option.some.injEq, Prod.mk.injEq] at chooses
    obtain ⟨-, rfl⟩ := chooses
    exact ⟨_, rfl⟩

theorem Passes.stands {phase : Phase} (passes : Passes search inbuf phase log window) :
    ∃ t, Stands t log window := by
  induction passes with
  | start opening inserts =>
      obtain ⟨-, logged, placed⟩ := opening.logged
      have free := fun hung => Nat.lt_irrefl _ (placed (ringSize - lookahead) (by decide) hung).2
      obtain ⟨-, kept, -, registered⟩ :=
        logged.insert (by decide) (Classical.not_not.mp free) inserts
      refine ⟨0, kept, (Nat.mod_eq_of_lt (by lia)).symm, rfl, fun x inside hung => ?_⟩
      rcases registered x inside hung with rfl | before
      · exact ⟨ringSize - lookahead, by lia, by lia, Nat.mod_eq_of_lt (by lia)⟩
      · have := placed x inside before
        exact ⟨x, by lia, by lia, Nat.mod_eq_of_lt inside⟩
  | token _ chooses ih =>
      obtain ⟨t, logged, r, s, registered⟩ := ih
      obtain ⟨length, rfl⟩ := nextToken_search chooses
      exact ⟨t, ⟨logged.ordered, logged.held⟩, r, s, registered⟩
  | @read last i j log window next _ reads ih =>
      obtain ⟨t, stands⟩ := ih
      obtain ⟨c, after, left, written, entered, -, -, deletes, writes, inserts, -, rfl⟩ :=
        readOn_more reads
      obtain ⟨logged, registered, free⟩ := stands.leave deletes
      rw [stands.s] at writes
      obtain ⟨kept, dads⟩ := logged.write registered writes
      have place : (window.r + 1) % ringSize = (ringSize - lookahead + (t + 1)) % ringSize := by
        rw [stands.r]
        lia
      have still : Registered written (t + 1) (ringSize - lookahead + (t + 1)) := by
        unfold Registered
        rw [dads]
        exact registered
      obtain ⟨final, placed⟩ := Stands.enter kept still place (by rw [dads]; exact free) inserts
      refine ⟨t + 1, final, place, ?_, placed⟩
      simp only [stands.s]
      lia
  | @ended last i j log window next _ reads ih =>
      obtain ⟨t, logged, r, s, registered⟩ := ih
      obtain ⟨tree, sameR, sameS⟩ := readOn_ended reads
      exact ⟨t, tree ▸ logged, sameR.trans r, sameS.trans s, tree ▸ registered⟩
  | @out last i j log window next _ runs ih =>
      obtain ⟨t, stands⟩ := ih
      obtain ⟨left, entered, -, deletes, inserts, -, rfl⟩ := runOut_more runs
      obtain ⟨logged, registered, free⟩ := stands.leave deletes
      have place : (window.r + 1) % ringSize = (ringSize - lookahead + (t + 1)) % ringSize := by
        rw [stands.r]
        lia
      have behind : (window.s + 1) % ringSize = (t + 1) % ringSize := by
        rw [stands.s]
        lia
      split at inserts
      next remains =>
        obtain ⟨final, placed⟩ := Stands.enter logged registered place free inserts
        refine ⟨t + 1, ?_, place, behind, placed⟩
        rw [if_pos remains]
        exact final
      next emptied =>
        obtain rfl := Option.some.inj inserts
        refine ⟨t + 1, ?_, place, behind, fun x node hung => ?_⟩
        · rw [if_neg emptied]
          exact logged
        · obtain ⟨b, low, high, same⟩ := registered x node hung
          exact ⟨b, low, by omega, same⟩
  | again _ runs _ ih =>
      rw [runOut_ended runs]
      exact ih

theorem start_passes (starts : start search inbuf = some window) :
    ∃ log len after tree, Opening search inbuf log lookahead (len, after, tree) ∧
      tree.insertNode (ringSize - lookahead) = some window.search ∧
      window = ⟨window.search, after, len, 0, ringSize - lookahead⟩ := by
  simp only [start, Option.bind_eq_bind, Option.bind_eq_some_iff] at starts
  obtain ⟨empty, inits, blank, fills, ⟨len, after, filled⟩, reads, strings, inserts, entered,
    enters, same⟩ := starts
  have openings : ∀ count ≤ lookahead, ∀ tree,
      forRange count (insertBlank (ringSize - lookahead)) filled = some tree →
        ∃ log, Opening search inbuf log count (len, after, tree) := by
    intro count
    induction count with
    | zero =>
        intro _ tree runs
        obtain rfl := Option.some.inj runs
        exact ⟨[], .filled inits fills reads⟩
    | succ count ih =>
        intro more tree runs
        rw [forRange_succ, Option.bind_eq_some_iff] at runs
        obtain ⟨middle, before, last⟩ := runs
        obtain ⟨log, opening⟩ := ih (by omega) middle before
        exact ⟨_, opening.blank more last⟩
  obtain ⟨log, opening⟩ := openings lookahead (Nat.le_refl _) strings inserts
  obtain rfl := Option.some.inj same
  exact ⟨log, len, after, strings, opening, enters, rfl⟩

theorem Passes.advance {token : Token} {chosen : Window}
    (passes : Passes search inbuf .head log window)
    (chooses : window.nextToken = some (token, chosen))
    (advances : chosen.advance chosen.search.matchLength = some next) (more : 0 < next.len) :
    ∃ log, Passes search inbuf .head log next := by
  simp only [Window.advance, Option.bind_eq_bind, Option.bind_eq_some_iff] at advances
  obtain ⟨⟨i, middle⟩, reads, runs⟩ := advances
  generalize count : chosen.search.matchLength = last at reads runs
  have begun : ∃ log, Passes search inbuf (.reading last 0) log chosen := by
    rw [← count]
    exact ⟨log, passes.token chooses⟩
  have read : ∃ log, Passes search inbuf (.running last i) log middle := by
    refine iterate_some
      (fun (state : Nat × Window) => ∃ log, Passes search inbuf (.reading last state.1) log state.2)
      (fun (state : Nat × Window) => ∃ log, Passes search inbuf (.running last state.1) log state.2)
      ?_ ?_ begun reads
    · rintro ⟨i, window⟩ ⟨j, next⟩ ⟨log, passes⟩ steps
      exact ⟨_, passes.read steps⟩
    · rintro ⟨i, window⟩ ⟨j, next⟩ ⟨log, passes⟩ steps
      exact ⟨_, passes.ended steps⟩
  have ran : 0 < next.len → ∃ log, Passes search inbuf .head log next := by
    refine iterate_some
      (fun (state : Nat × Window) => ∃ log, Passes search inbuf (.running last state.1) log state.2)
      (fun (next : Window) => 0 < next.len → ∃ log, Passes search inbuf .head log next)
      ?_ ?_ read runs
    · rintro ⟨i, window⟩ ⟨j, next⟩ ⟨log, passes⟩ steps
      exact ⟨_, passes.out steps⟩
    · rintro ⟨i, window⟩ next ⟨log, passes⟩ steps more
      exact ⟨log, passes.again steps more⟩
  exact ran more

theorem Called.logged {r : Nat} {entered : SearchTree}
    (called : Called search inbuf log tree r entered) :
    SearchTree.Ordered tree ∧ Scanned (Held log) tree r entered ∧ SearchTree.Ordered entered := by
  cases called with
  | @blank _ k _ _ _ _ opening more inserts =>
      obtain ⟨-, logged, placed⟩ := opening.logged
      have free : tree.dad (ringSize - lookahead - (k + 1)) = nil := by
        by_contra hung
        have := placed _ (by lia) hung
        lia
      obtain ⟨scanned, kept, -⟩ := logged.insert (by lia) free inserts
      exact ⟨logged.ordered, scanned, kept.ordered⟩
  | first opening inserts =>
      obtain ⟨-, logged, placed⟩ := opening.logged
      have free := fun hung => Nat.lt_irrefl _ (placed (ringSize - lookahead) (by decide) hung).2
      obtain ⟨scanned, kept, -⟩ :=
        logged.insert (by decide) (Classical.not_not.mp free) inserts
      exact ⟨logged.ordered, scanned, kept.ordered⟩
  | read passes more read deletes writes inserts =>
      obtain ⟨t, stands⟩ := passes.stands
      obtain ⟨logged, registered, free⟩ := stands.leave deletes
      rw [stands.s] at writes
      obtain ⟨kept, dads⟩ := logged.write registered writes
      obtain ⟨scanned, final, -⟩ :=
        kept.insert (Nat.mod_lt _ (by decide)) (by rw [dads]; exact free) inserts
      exact ⟨kept.ordered, scanned, final.ordered⟩
  | out passes more deletes some inserts =>
      obtain ⟨t, stands⟩ := passes.stands
      obtain ⟨logged, registered, free⟩ := stands.leave deletes
      obtain ⟨scanned, final, -⟩ := logged.insert (Nat.mod_lt _ (by decide)) free inserts
      exact ⟨logged.ordered, scanned, final.ordered⟩

/-- Every call of `InsertNode` finds what a scan of the strings it still holds would find, and
the trees are search trees all the time. -/
theorem window_scan (search : SearchTree) (inbuf : Buffer) :
    (∀ log tree r next, Called search inbuf log tree r next →
      SearchTree.Ordered tree ∧ Scanned (Held log) tree r next ∧ SearchTree.Ordered next) ∧
    ∀ phase log window, Passes search inbuf phase log window →
      SearchTree.Ordered window.search ∧
        ∀ left, window.search.deleteNode window.s = some left → SearchTree.Ordered left := by
  constructor
  · intro log tree r next called
    exact called.logged
  · intro phase log window passes
    obtain ⟨t, stands⟩ := passes.stands
    exact ⟨stands.logged.ordered, fun left deletes => (stands.leave deletes).1.ordered⟩

end Moves

/-- The replaced string comes back when the one in its place has left the window. -/
def replacedBlanks : Bytes :=
  List.replicate (lookahead - 1) 32 ++ List.replicate 1870 120 ++ List.replicate lookahead 32

def emptySearch : SearchTree := ⟨fun _ => 0, id, id, id, 0, 0⟩

/-- The second of the blanks is in the log, but in no tree. -/
structure Replaced (log : TreeLog) : Prop where
  standing : Standing log 1929
  gone : ∀ x, 1929 ≤ x → x < ringSize - lookahead → ¬ Held log x

section Blanks

variable {search tree : SearchTree} {inbuf : Buffer} {log : TreeLog} {t i last : Nat}
  {window : Window}

theorem replacedBlanks_length : replacedBlanks.length = 1989 := by
  simp only [replacedBlanks, List.length_append, List.length_replicate]
  rfl

theorem stream_replacedBlanks {a : Nat} (inside : a < ringSize - lookahead + 1989) :
    stream replacedBlanks a = if 2047 ≤ a ∧ a < 3917 then 120 else 32 := by
  rw [stream]
  split
  · rw [if_neg (by lia)]
  · rw [List.getD_eq_getElem?_getD, List.getElem?_eq_getElem (by rw [replacedBlanks_length]; lia)]
    simp only [replacedBlanks, List.getElem_append, List.getElem_replicate, List.length_append,
      List.length_replicate, Option.getD_some]
    split
    · split
      · rw [if_neg (by lia)]
      · rw [if_pos (by lia)]
    · rw [if_neg (by lia)]

theorem Opening.standing {k : Nat} {state : Nat × Buffer × SearchTree}
    (opening : Opening search inbuf log k state) {x : Nat} (inside : x < ringSize - lookahead)
    (before : ringSize - lookahead ≤ x + k) : Standing log x := by
  induction opening with
  | filled => omega
  | @blank log k len after tree next _ more _ ih =>
      by_cases new : x = ringSize - lookahead - (k + 1)
      · exact .inl new
      · exact .inr (ih (by lia))

theorem Opening.held {k : Nat} {state : Nat × Buffer × SearchTree}
    (opening : Opening search inbuf log k state)
    (blank : ∀ y, ringSize - 2 * lookahead ≤ y → y < ringSize - 1 → state.2.2.textBuf y = 32)
    {x : Nat} (held : Held log x) : x + k = ringSize - lookahead := by
  induction opening with
  | filled => exact absurd held id
  | @blank log k len after tree next before more inserts ih =>
      obtain ⟨-, logged, placed⟩ := before.logged
      have free : tree.dad (ringSize - lookahead - (k + 1)) = nil := by
        by_contra hung
        have := placed _ (by lia) hung
        lia
      obtain ⟨-, -, text, -⟩ := logged.insert (by lia) free inserts
      rw [text] at blank
      rcases held with rfl | ⟨held, differs⟩
      · lia
      · have place := ih blank held
        have := placed x (by lia) ((logged.held x (by lia)).mpr held)
        have same : lookahead ≤ SearchTree.common tree.textBuf (ringSize - lookahead - (k + 1)) x :=
          SearchTree.le_common.mpr ⟨Nat.le_refl _, fun i short =>
            (blank _ (by lia) (by lia)).trans (blank (x + i) (by lia) (by lia)).symm⟩
        omega

theorem Replaced.move (replaced : Replaced log) {r p : Nat} {text : Nat → UInt8}
    (other : p ≠ 1929) (apart : r < 1929 ∨ ringSize - lookahead ≤ r) :
    Replaced (.insert r text :: .delete p :: log) := by
  obtain ⟨standing, gone⟩ := replaced
  refine ⟨.inr ⟨other.symm, standing⟩, fun x low high held => ?_⟩
  rcases held with rfl | ⟨⟨-, held⟩, -⟩
  · omega
  · exact gone x low high held

theorem replaced_reading (early : t ≤ 1928) :
    ∃ last i log window, Passes emptySearch ⟨replacedBlanks, 0⟩ (.reading last i) log window ∧
      i < last ∧ Aligned replacedBlanks t window ∧ Replaced log := by
  have length := replacedBlanks_length
  have head : ∀ {t log window}, Passes emptySearch ⟨replacedBlanks, 0⟩ .head log window →
      Aligned replacedBlanks t window → t ≤ 1928 → Replaced log →
      ∃ last i log window, Passes emptySearch ⟨replacedBlanks, 0⟩ (.reading last i) log window ∧
        i < last ∧ Aligned replacedBlanks t window ∧ Replaced log := by
    intro t log window passes aligned early replaced
    obtain ⟨token, chosen, chooses, -, kept, some, -⟩ := nextToken_total aligned (by omega)
    exact ⟨_, 0, log, chosen, passes.token chooses, some, kept, replaced⟩
  induction t with
  | zero =>
      obtain ⟨window, starts, aligned⟩ :=
        @start_aligned ⟨replacedBlanks, 0⟩ (by rw [length]; decide) emptySearch
      obtain ⟨log, len, after, tree, opening, enters, same⟩ := start_passes starts
      obtain ⟨-, logged, placed⟩ := opening.logged
      have free := fun hung => Nat.lt_irrefl _ (placed (ringSize - lookahead) (by decide) hung).2
      obtain ⟨-, -, text, -⟩ := logged.insert (by decide) (Classical.not_not.mp free) enters
      have blank : ∀ y, ringSize - 2 * lookahead ≤ y → y < ringSize - 1 → tree.textBuf y = 32 := by
        intro y low high
        have value := aligned.holds.ring y (Nat.zero_le y) (by have := aligned.len; lia)
        rw [Nat.mod_eq_of_lt (by lia), stream_replacedBlanks (by lia), if_neg (by lia),
          text] at value
        exact value
      have passes : Passes emptySearch ⟨replacedBlanks, 0⟩ .head
          (.insert (ringSize - lookahead) tree.textBuf :: log) window := by
        rw [same]
        exact .start opening enters
      refine head passes aligned early ⟨.inr (opening.standing (by lia) (by lia)), ?_⟩
      rintro x low high (rfl | ⟨held, -⟩)
      · omega
      · have := opening.held blank held
        lia
  | succ t ih =>
      obtain ⟨last, i, log, window, passes, more, aligned, replaced⟩ := ih (by omega)
      obtain ⟨next, reads, kept, len⟩ := readOn_step aligned more (by have := aligned.len; lia)
      have moved := passes.read reads
      have stays : Replaced (.insert next.r next.search.textBuf :: .delete window.s :: log) := by
        refine replaced.move ?_ ?_
        · rw [aligned.s]
          lia
        · rw [kept.r]
          lia
      by_cases further : i + 1 < last
      · exact ⟨last, i + 1, _, next, moved, further, kept, stays⟩
      · obtain rfl : i + 1 = last := by omega
        have stops : readOn (i + 1) (i + 1, next) = some (.inr (i + 1, next)) :=
          if_neg (Nat.lt_irrefl _)
        have runs : runOut (i + 1) (i + 1, next) = some (.inr next) := if_neg (Nat.lt_irrefl _)
        refine head ((moved.ended stops).again runs ?_) kept early stays
        have := aligned.len
        lia

/-- The blanks behind the text agree with the second blank in all characters, and with no string
that is held. -/
theorem replaced_call : ∃ log tree r next,
    Called emptySearch ⟨replacedBlanks, 0⟩ log tree r next ∧ Standing log 1929 ∧
      SearchTree.common tree.textBuf r 1929 = lookahead ∧
      ∀ x < nil, Held log x → SearchTree.common tree.textBuf r x < lookahead := by
  have length := replacedBlanks_length
  obtain ⟨last, i, log, window, passes, more, aligned, standing, gone⟩ :=
    replaced_reading (Nat.le_refl 1928)
  obtain ⟨next, reads, kept, -⟩ := readOn_step aligned more (by have := aligned.len; lia)
  obtain ⟨c, after, left, written, entered, -, read, deletes, writes, inserts, -, rfl⟩ :=
    readOn_more reads
  have called := Called.read passes more read deletes writes inserts
  have leaves : window.s = 1928 := aligned.s
  have place : (window.r + 1) % ringSize = 3917 % ringSize := by
    rw [aligned.r]
    rfl
  obtain ⟨t, stands⟩ := passes.stands
  have text : entered.textBuf = written.textBuf := by
    obtain ⟨logged, registered, free⟩ := stands.leave deletes
    rw [stands.s] at writes
    obtain ⟨calm, dads⟩ := logged.write registered writes
    obtain ⟨-, -, same, -⟩ :=
      calm.insert (Nat.mod_lt _ (by decide)) (by rw [dads]; exact free) inserts
    exact same
  have cell : ∀ b k, 1929 ≤ b + k → b + k < 3977 → k < lookahead →
      written.textBuf (b % ringSize + k) = stream replacedBlanks (b + k) := by
    intro b k low high short
    rw [← text]
    have := kept.len
    exact kept.holds.read short low (by lia)
  refine ⟨_, written, _, entered, called, ⟨by omega, standing⟩, ?_, ?_⟩
  · refine SearchTree.common_eq (Nat.le_refl _) (fun k short => ?_) fun less =>
      absurd less (Nat.lt_irrefl _)
    rw [place, cell 3917 k (by omega) (by lia) short,
      show 1929 + k = 1929 % ringSize + k from rfl, cell 1929 k (by omega) (by lia) short,
      stream_replacedBlanks (by lia), stream_replacedBlanks (by lia), if_neg (by omega),
      if_neg (by lia)]
  · rintro x inside ⟨other, held⟩
    have hung := (stands.logged.held x inside).mpr held
    obtain ⟨b, low, high, rfl⟩ := aligned.registered x inside hung
    have late : ringSize - lookahead ≤ b := by
      by_contra early
      have small : b % ringSize = b := Nat.mod_eq_of_lt (by lia)
      rw [small] at other held
      exact gone b (by omega) (by omega) held
    by_contra whole
    have same := (SearchTree.le_common.mp (Nat.not_lt.mp whole)).2 (2047 - b) (by lia)
    rw [place, cell 3917 _ (by omega) (by lia) (by lia), cell b _ (by omega) (by lia) (by lia),
      stream_replacedBlanks (by lia), stream_replacedBlanks (by lia), if_neg (by lia),
      if_pos (by lia)] at same
    exact absurd same (by decide)

theorem window_scan_sample : ∃ log tree r next,
    Called emptySearch ⟨replacedBlanks, 0⟩ log tree r next ∧ SearchTree.Ordered tree ∧
      Scanned (Held log) tree r next ∧ SearchTree.Ordered next := by
  obtain ⟨log, tree, r, next, called, -⟩ := replaced_call
  exact ⟨log, tree, r, next, called, (window_scan emptySearch ⟨replacedBlanks, 0⟩).1 _ _ _ _ called⟩

/-- What was inserted and not deleted may be in no tree. -/
theorem scan_of_standing_fails : ∃ log tree r next,
    Called emptySearch ⟨replacedBlanks, 0⟩ log tree r next ∧
      ¬ Scanned (Standing log) tree r next := by
  obtain ⟨log, tree, r, next, called, standing, whole, differs⟩ := replaced_call
  refine ⟨log, tree, r, next, called, ?_⟩
  rintro ⟨m, most, -, long, -⟩
  have least := most 1929 (by decide) standing
  rw [whole] at least
  obtain ⟨length, -⟩ := long (by lia)
  obtain ⟨-, ⟨held, -, reached, found, unfound⟩, -⟩ := called.logged
  have short : held < lookahead := by
    rcases reached with rfl | ⟨x, inside, there, same⟩
    · decide
    · rw [← same]
      exact differs x inside there
  by_cases enough : threshold < held
  · have := (found enough).1
    omega
  · have := unfound (Nat.not_lt.mp enough)
    lia

end Blanks

end Window

end PaclinkUnix
