import PaclinkUnix.CodecRoundTrip
import PaclinkUnix.DecodeHistory
import PaclinkUnix.SearchAlike
import PaclinkUnix.SearchOrder

/-!
What an encoded message can tell of earlier messages. The encoder blanks the ring except for
the 60 cells in front of it, and not the copy behind the ring; strings are compared over 60
cells, also where the message does not reach.
-/

namespace PaclinkUnix

open Memory LinkedForest

/-- The next `n` characters are there. -/
def Buffer.Plenty : Nat → Buffer → Prop
  | 0, _ => True
  | n + 1, b => ∃ c after, b.iterchar = (some c, after) ∧ Plenty n after

theorem plenty_next {n : Nat} {b : Buffer} (enough : b.i + n ≤ b.data.length)
    (fits : b.i + n < Buffer.indexRange) : b.Plenty n := by
  induction n generalizing b with
  | zero => trivial
  | succ n ih =>
      have here : b.i < b.data.length := by omega
      have next : (b.i + 1) % Buffer.indexRange = b.i + 1 := Nat.mod_eq_of_lt (by omega)
      refine ⟨b.data[b.i], _, ?_, ih (b := ⟨b.data, b.i + 1⟩) ?_ ?_⟩
      · rw [Buffer.iterchar, List.getElem?_eq_getElem here]
        simp only [next]
      · simp only
        omega
      · simp only
        omega

theorem Buffer.Plenty.read {n : Nat} {b after : Buffer} {next : Option UInt8} (plenty : b.Plenty n)
    (reads : b.iterchar = (next, after)) : (next = none → n = 0) ∧ after.Plenty (n - 1) := by
  cases n with
  | zero => exact ⟨fun _ => rfl, trivial⟩
  | succ n =>
      obtain ⟨c, _, found, rest⟩ := plenty
      rw [reads] at found
      cases found
      exact ⟨fun empty => absurd empty (Option.some_ne_none c), rest⟩

namespace Window

open SearchTree

def Lives (tree : SearchTree) (x : Nat) : Prop := x < nil ∧ tree.dad x ≠ nil

/-- Up to here the cells are those of the message when `t` characters have left the window. -/
def knownCells (t : Nat) : Nat := min textBufSize (ringSize + t)

/-- Two runs when `t` characters have left their windows. -/
structure Mirrored (t : Nat) (window other : Window) : Prop where
  planted : Planted window.search
  registered : Registered window.search t (ringSize - lookahead + t + 1)
  r : window.r = (ringSize - lookahead + t) % ringSize
  s : window.s = t % ringSize
  plenty : window.inbuf.Plenty (lookahead - 1 - t)
  twin : Twin (Lives window.search) (knownCells t) True window.search other.search
  inbuf : window.inbuf = other.inbuf
  len : window.len = other.len
  place : window.r = other.r
  origin : window.s = other.s

section Steps

variable {t known : Nat} {window other : Window} {tree tree' : SearchTree} {marked : Prop}

theorem twin_mono {live fewer : Nat → Prop} (twin : Twin live known marked tree tree')
    (less : ∀ x, fewer x → live x) : Twin fewer known marked tree tree' :=
  ⟨twin.text, twin.dad, fun x lives => twin.rson x (lives.imp_left (less x)),
    fun x lives => twin.lson x (less x lives), twin.noted⟩

theorem leave_twin (planted : Planted tree) (twin : Twin (Lives tree) known marked tree tree')
    {p : Nat} (inside : p < nil) : ∃ next next', tree.deleteNode p = some next ∧
      tree'.deleteNode p = some next' ∧ Deleted tree p next ∧
      Twin (Lives next) known marked next next' := by
  obtain ⟨next, deletes, deleted⟩ := deleteNode_total planted inside
  obtain ⟨next', deletes', kept⟩ :=
    rel_some (planted.closed.deleteNode twin inside fun hung => ⟨inside, hung⟩) deletes
  exact ⟨next, next', deletes, deletes', deleted,
    twin_mono kept fun x lives => ⟨lives.1, (deleted.registered x lives.1 lives.2).1⟩⟩

theorem enter_twin (planted : Planted tree) (twin : Twin (Lives tree) known marked tree tree')
    {r : Nat} (node : r < nil) (free : tree.dad r = nil) (own : r + lookahead ≤ known)
    (fits : ∀ x, Lives tree x → x + lookahead ≤ known) :
    ∃ next next', tree.insertNode r = some next ∧ tree'.insertNode r = some next' ∧
      Inserted tree r next ∧ Twin (Lives next) known True next next' := by
  obtain ⟨next, inserts, inserted⟩ := insertNode_total planted node free
  have room : ∀ x, (x < nil ∧ tree.dad x ≠ nil) ∨ x = r → x + lookahead ≤ known := by
    rintro x (lives | rfl)
    · exact fits x lives
    · exact own
  obtain ⟨next', inserts', kept⟩ := rel_some (planted.closed.insertNode twin node room) inserts
  refine ⟨next, next', inserts, inserts', inserted, twin_mono kept fun x lives => ?_⟩
  exact (inserted.registered x lives.1 lives.2).symm.imp_left fun hung => ⟨lives.1, hung⟩

theorem registered_known (registered : Registered tree t (ringSize - lookahead + t + 1)) (x : Nat)
    (lives : Lives tree x) : x + lookahead ≤ knownCells t := by
  obtain ⟨b, low, high, rfl⟩ := registered x lives.1 lives.2
  rw [knownCells]
  lia

/-- The character in its cell, and in the copy behind the ring. -/
def withChar (tree : SearchTree) (s : Nat) (c : UInt8) : SearchTree :=
  let text := put tree.textBuf s c
  { tree with textBuf := if s < lookahead - 1 then put text (s + ringSize) c else text }

theorem withChar_twin {live : Nat → Prop} (twin : Twin live (knownCells t) marked tree tree')
    (c : UInt8) : Twin live (knownCells (t + 1)) marked (withChar tree (t % ringSize) c)
      (withChar tree' (t % ringSize) c) := by
  refine ⟨fun i inside => ?_, twin.dad, twin.rson, twin.lson, twin.noted⟩
  have old : i < knownCells t ∨ (t % ringSize < lookahead - 1 ∧ i = t % ringSize + ringSize) := by
    rw [knownCells] at inside ⊢
    lia
  simp only [withChar]
  rcases old with before | ⟨early, rfl⟩
  · have same := twin.text i before
    split
    · simp only [put_apply, same]
    · simp only [put_apply, same]
  · rw [if_pos early, if_pos early, put_same, put_same]

theorem withChar_planted (planted : Planted tree) {s : Nat} (inside : s < nil)
    (free : tree.dad s = nil) (c : UInt8) : Planted (withChar tree s c) := by
  refine planted.of_agree (fun _ _ => rfl) (fun _ _ _ => rfl) fun y node hung => ?_
  have other : y ≠ s := by
    rintro rfl
    exact hung free
  simp only [withChar]
  split
  · rw [put_other (by lia), put_other other]
  · rw [put_other other]

variable {i last : Nat}

theorem Mirrored.leave (mirrored : Mirrored t window other) :
    ∃ left left', window.search.deleteNode window.s = some left ∧
      other.search.deleteNode window.s = some left' ∧ Planted left ∧
      Twin (Lives left) (knownCells t) True left left' ∧
      Registered left (t + 1) (ringSize - lookahead + (t + 1)) ∧
      left.dad ((window.r + 1) % ringSize) = nil ∧ left.dad window.s = nil := by
  have inside : window.s < nil := by
    rw [mirrored.s]
    exact Nat.mod_lt _ (by decide)
  obtain ⟨left, left', deletes, deletes', deleted, twin⟩ :=
    leave_twin mirrored.planted mirrored.twin inside
  obtain ⟨registered, free⟩ :=
    mirrored.registered.leave mirrored.r mirrored.s deleted.registered
  refine ⟨left, left', deletes, deletes', deleted.planted, twin, registered, free, ?_⟩
  by_contra hung
  exact (deleted.registered _ inside hung).2 rfl

theorem Mirrored.enter (mirrored : Mirrored t window other) (planted : Planted tree)
    (twin : Twin (Lives tree) (knownCells (t + 1)) marked tree tree')
    (registered : Registered tree (t + 1) (ringSize - lookahead + (t + 1)))
    (free : tree.dad ((window.r + 1) % ringSize) = nil) :
    ∃ next next', tree.insertNode ((window.r + 1) % ringSize) = some next ∧
      tree'.insertNode ((window.r + 1) % ringSize) = some next' ∧
      ∀ inbuf len, inbuf.Plenty (lookahead - 1 - (t + 1)) → Mirrored (t + 1)
        ⟨next, inbuf, len, (window.s + 1) % ringSize, (window.r + 1) % ringSize⟩
        ⟨next', inbuf, len, (window.s + 1) % ringSize, (window.r + 1) % ringSize⟩ := by
  have place : (window.r + 1) % ringSize = (ringSize - lookahead + (t + 1)) % ringSize := by
    rw [mirrored.r]
    lia
  have origin : (window.s + 1) % ringSize = (t + 1) % ringSize := by
    rw [mirrored.s]
    lia
  have own : (window.r + 1) % ringSize + lookahead ≤ knownCells (t + 1) := by
    rw [place, knownCells]
    lia
  have wider : Registered tree (t + 1) (ringSize - lookahead + (t + 1) + 1) := by
    intro x node hung
    obtain ⟨b, low, high, same⟩ := registered x node hung
    exact ⟨b, low, by omega, same⟩
  obtain ⟨next, next', inserts, inserts', inserted, kept⟩ :=
    enter_twin planted twin (Nat.mod_lt _ (by decide)) free own (registered_known wider)
  refine ⟨next, next', inserts, inserts', fun inbuf len plenty => ?_⟩
  exact ⟨inserted.planted, registered.enter place inserted.registered, place, origin, plenty, kept,
    rfl, rfl, rfl, rfl⟩

/-- As the loops see them; what is left to do when the input has ended is done behind the copy. -/
def MirroredAt (last : Nat) (state other : Nat × Window) : Prop :=
  state.1 = other.1 ∧ ∃ t, Mirrored t state.2 other.2 ∧ (state.1 < last → lookahead - 1 ≤ t)

theorem readOn_reads {c : UInt8} {after : Buffer} {left entered : SearchTree} (more : i < last)
    (read : window.inbuf.iterchar = (some c, after))
    (deletes : window.search.deleteNode window.s = some left) (inside : window.s < ringSize)
    (inserts : (withChar left window.s c).insertNode ((window.r + 1) % ringSize) = some entered) :
    readOn last (i, window) = some (.inl (i + 1,
      ⟨entered, after, window.len, (window.s + 1) % ringSize, (window.r + 1) % ringSize⟩)) := by
  simp only [readOn, if_pos more, read, deletes, Option.bind_eq_bind, Option.bind_some]
  rw [setText_some (show window.s < textBufSize by lia), Option.bind_some]
  by_cases early : window.s < lookahead - 1
  · simp only [withChar, if_pos early] at inserts
    rw [if_pos early, setText_some (show window.s + ringSize < textBufSize by lia),
      Option.bind_some, inserts, Option.bind_some]
  · simp only [withChar, if_neg early] at inserts
    rw [if_neg early, inserts, Option.bind_some]

theorem readOn_mirrored (mirrored : Mirrored t window other) :
    Option.Rel (Sum.LiftRel (fun state other => state.1 = other.1 ∧ ∃ t, Mirrored t state.2 other.2)
      (MirroredAt last)) (readOn last (i, window)) (readOn last (i, other)) := by
  obtain ⟨search, _, _, _, _⟩ := other
  obtain ⟨planted, strings, r, s, plenty, twin, rfl, rfl, rfl, rfl⟩ := id mirrored
  by_cases more : i < last
  · rcases read : window.inbuf.iterchar with ⟨_ | c, after⟩
    · obtain ⟨ended, rest⟩ := plenty.read read
      have behind := ended rfl
      simp only [readOn, if_pos more, read]
      refine .some (.inr ⟨rfl, t, ⟨planted, strings, r, s, ?_, twin, rfl, rfl, rfl, rfl⟩, ?_⟩)
      · rw [behind]
        trivial
      · intro _
        lia
    · obtain ⟨left, left', deletes, deletes', planted, twin, registered, free, gone⟩ :=
        mirrored.leave
      have inside : window.s < nil := by
        rw [s]
        exact Nat.mod_lt _ (by decide)
      have written := withChar_twin twin c
      rw [← s] at written
      obtain ⟨next, next', inserts, inserts', mirrors⟩ := mirrored.enter
        (withChar_planted planted inside gone c) written registered free
      have read' : (Window.mk search window.inbuf window.len window.s window.r).inbuf.iterchar =
          (some c, after) := read
      rw [readOn_reads more read deletes inside inserts,
        readOn_reads more read' deletes' inside inserts']
      exact .some (.inl ⟨rfl, t + 1, mirrors after window.len (plenty.read read).2⟩)
  · simp only [readOn, if_neg more]
    exact .some (.inr ⟨rfl, t, mirrored, fun less => absurd less more⟩)

theorem runOut_mirrored {state state' : Nat × Window} (mirrored : MirroredAt last state state') :
    Option.Rel (Sum.LiftRel (MirroredAt last) (fun next next' => ∃ t, Mirrored t next next'))
      (runOut last state) (runOut last state') := by
  obtain ⟨i, window⟩ := state
  obtain ⟨_, other⟩ := state'
  obtain ⟨rfl, t, mirrored, late⟩ := mirrored
  obtain ⟨search, _, _, _, _⟩ := other
  obtain ⟨-, -, -, s, plenty, -, rfl, rfl, rfl, rfl⟩ := id mirrored
  simp only at late
  by_cases more : i < last
  · have behind := late more
    have known : knownCells (t + 1) = knownCells t := by
      rw [knownCells, knownCells]
      lia
    have rest : Buffer.Plenty (lookahead - 1 - (t + 1)) window.inbuf := by
      rw [show lookahead - 1 - (t + 1) = 0 by omega]
      trivial
    obtain ⟨left, left', deletes, deletes', planted, twin, registered, free, gone⟩ := mirrored.leave
    rw [← known] at twin
    obtain ⟨next, next', inserts, inserts', mirrors⟩ := mirrored.enter planted twin registered free
    simp only [runOut, if_pos more, deletes, Option.bind_eq_bind, Option.bind_some]
    rw [deletes', Option.bind_some]
    split
    · rw [inserts, inserts', Option.bind_some, Option.bind_some]
      exact .some (.inl ⟨rfl, t + 1, mirrors window.inbuf (window.len - 1) rest,
        fun _ => Nat.le_succ_of_le behind⟩)
    · obtain ⟨-, -, place, origin, -⟩ := mirrors window.inbuf (window.len - 1) rest
      refine .some (.inl ⟨rfl, t + 1, ⟨planted, ?_, place, origin, rest, twin, rfl, rfl, rfl, rfl⟩,
        fun _ => Nat.le_succ_of_le behind⟩)
      intro x node hung
      obtain ⟨b, low, high, same⟩ := registered x node hung
      exact ⟨b, low, by omega, same⟩
  · simp only [runOut, if_neg more]
    exact .some (.inr ⟨t, mirrored⟩)

theorem advance_mirrored (mirrored : Mirrored t window other) (last : Nat) :
    Option.Rel (fun next next' => ∃ t, Mirrored t next next') (window.advance last)
      (other.advance last) := by
  refine rel_bind (MirroredAt last) ?_ fun state state' mirrored => ?_
  · refine iterate_rel (fun state other => state.1 = other.1 ∧ ∃ t, Mirrored t state.2 other.2)
      ?_ _ ⟨rfl, t, mirrored⟩
    rintro ⟨i, window⟩ ⟨_, other⟩ ⟨rfl, t, mirrored⟩
    exact readOn_mirrored mirrored
  · obtain ⟨i, window⟩ := state
    obtain ⟨_, other⟩ := state'
    obtain ⟨rfl, rest⟩ := mirrored
    exact iterate_rel (MirroredAt last) (fun _ _ => runOut_mirrored) _ ⟨rfl, rest⟩

theorem Mirrored.withLength (mirrored : Mirrored t window other) {n : Nat}
    (noted : threshold < n → window.search.matchPosition = other.search.matchPosition) :
    Mirrored t { window with search := { window.search with matchLength := n } }
      { other with search := { other.search with matchLength := n } } :=
  ⟨mirrored.planted, mirrored.registered, mirrored.r, mirrored.s, mirrored.plenty,
    ⟨mirrored.twin.text, mirrored.twin.dad, mirrored.twin.rson, mirrored.twin.lson,
      fun _ => ⟨rfl, noted⟩⟩,
    mirrored.inbuf, mirrored.len, mirrored.place, mirrored.origin⟩

theorem nextToken_mirrored (mirrored : Mirrored t window other) :
    Option.Rel (fun found found' => found.1 = found'.1 ∧
        found.2.search.matchLength = found'.2.search.matchLength ∧ Mirrored t found.2 found'.2)
      window.nextToken other.nextToken := by
  obtain ⟨search, _, _, _, _⟩ := other
  obtain ⟨-, -, r, -, -, twin, rfl, rfl, rfl, rfl⟩ := id mirrored
  obtain ⟨length, position⟩ := twin.noted trivial
  change window.search.matchLength = search.matchLength at length
  simp only [nextToken, ← length, Option.bind_eq_bind]
  split
  next short =>
    have inside : window.r < knownCells t := by
      rw [r, knownCells]
      lia
    refine rel_read (twin.getText inside) fun c => .some ⟨rfl, rfl, ?_⟩
    exact mirrored.withLength fun long => absurd long (by decide)
  next long =>
    have same := position (by omega)
    exact .some ⟨by rw [same], rfl, mirrored.withLength fun _ => same⟩

theorem encodeLoop_mirrored {σ : Type} (related : σ → σ → Prop)
    {sink : Token → σ → Option (Option σ)}
    (sinks : ∀ token coder coder', related coder coder' →
      Option.Rel (Option.Rel related) (sink token coder) (sink token coder'))
    {state state' : Window × σ} (mirrored : ∃ t, Mirrored t state.1 state'.1)
    (same : related state.2 state'.2) :
    Option.Rel (Sum.LiftRel (fun state state' => (∃ t, Mirrored t state.1 state'.1) ∧
        related state.2 state'.2) (Option.Rel related))
      (encodeLoop sink state) (encodeLoop sink state') := by
  obtain ⟨window, coder⟩ := state
  obtain ⟨other, coder'⟩ := state'
  obtain ⟨t, mirrored⟩ := mirrored
  refine rel_bind _ (nextToken_mirrored mirrored) ?_
  rintro ⟨token, chosen⟩ ⟨_, chosen'⟩ ⟨rfl, length, mirrored⟩
  refine rel_bind _ (sinks token coder coder' same) ?_
  rintro _ _ (same | _)
  · simp only at length ⊢
    rw [← length]
    refine rel_bind _ (advance_mirrored mirrored _) ?_
    rintro next next' ⟨t, mirrored⟩
    simp only [← mirrored.len]
    split
    · exact .some (.inl ⟨⟨t, mirrored⟩, same⟩)
    · exact .some (.inr (.some same))
  · exact .some (.inr .none)

end Steps

section Start

variable {tree tree' : SearchTree}

structure Bare (tree : SearchTree) : Prop where
  free : ∀ x < nil, tree.dad x = nil
  roots : ∀ x, IsRoot x → tree.rson x = nil

theorem Bare.planted (bare : Bare tree) : Planted tree :=
  ⟨fun _ => true, id, grown_empty bare.free fun x above below => bare.roots x ⟨above, below⟩⟩

theorem initTree_bare (tree : SearchTree) : ∃ next, tree.initTree = some next ∧ Bare next := by
  obtain ⟨next, inits, ⟨side, rank, grown⟩, -, free⟩ := initTree_total tree
  refine ⟨next, inits, free, fun x root => ?_⟩
  have place : Place nil rootEnd next.links true x := .inl ⟨root.1, root.2, rfl⟩
  by_contra more
  have inside := Nat.lt_of_le_of_ne (grown.range true x place) more
  obtain ⟨up, -⟩ := (grown.hangs true x place _ inside).mp rfl
  exact place.ne_nil (up.symm.trans (free _ inside))

theorem Bare.blank_twin (bare : Bare tree) (bare' : Bare tree') {known : Nat}
    {text text' : Nat → UInt8} (same : ∀ i < known, text i = text' i) :
    Twin (fun _ => False) known False { tree with textBuf := text }
      { tree' with textBuf := text' } := by
  refine ⟨same, fun x inside => ?_, fun x lives => ?_, fun x wrong => wrong.elim,
    fun wrong => wrong.elim⟩
  · exact (bare.free x inside).trans (bare'.free x inside).symm
  · have root := lives.resolve_left id
    exact (bare.roots x root).trans (bare'.roots x root).symm

structure ReadAlike (len : Nat) (inbuf : Buffer) (tree tree' : SearchTree) : Prop where
  short : len ≤ lookahead
  plenty : inbuf.Plenty (2 * lookahead - 1 - len)
  twin : Twin (fun _ => False) (ringSize - lookahead + len) False tree tree'
  bare : Bare tree

def ReadTogether (state other : Nat × Buffer × SearchTree) : Prop :=
  state.1 = other.1 ∧ state.2.1 = other.2.1 ∧ ReadAlike state.1 state.2.1 state.2.2 other.2.2

def ReadAll (state other : Nat × Buffer × SearchTree) : Prop :=
  state.1 = other.1 ∧ state.2.1 = other.2.1 ∧ ReadAlike lookahead state.2.1 state.2.2 other.2.2

theorem readAhead_alike {len : Nat} {inbuf : Buffer} (alike : ReadAlike len inbuf tree tree') :
    Option.Rel (Sum.LiftRel ReadTogether ReadAll)
      (readAhead (ringSize - lookahead) (len, inbuf, tree))
      (readAhead (ringSize - lookahead) (len, inbuf, tree')) := by
  obtain ⟨short, plenty, twin, bare⟩ := id alike
  by_cases more : len < lookahead
  · simp only [readAhead, if_pos more]
    rcases read : inbuf.iterchar with ⟨_ | c, after⟩
    · have ended := (plenty.read read).1 rfl
      lia
    · have later := (plenty.read read).2
      simp only [Option.bind_eq_bind]
      rw [setText_some (by lia), setText_some (by lia)]
      refine .some (.inl ⟨rfl, rfl, more, ?_, ⟨fun i inside => ?_, twin.dad, twin.rson,
        twin.lson, twin.noted⟩, bare.free, bare.roots⟩)
      · simp only
        rwa [show 2 * lookahead - 1 - (len + 1) = 2 * lookahead - 1 - len - 1 by omega]
      · change put tree.textBuf (ringSize - lookahead + len) c i =
          put tree'.textBuf (ringSize - lookahead + len) c i
        by_cases last : i = ringSize - lookahead + len
        · rw [last, put_same, put_same]
        · rw [put_other last, put_other last]
          exact twin.text i (by lia)
  · have whole : len = lookahead := by lia
    simp only [readAhead, if_neg more]
    exact .some (.inr ⟨rfl, rfl, whole ▸ alike⟩)

structure PutAlike (k : Nat) (tree tree' : SearchTree) : Prop where
  planted : Planted tree
  placed : ∀ x, Lives tree x → ringSize - lookahead - k ≤ x ∧ x < ringSize - lookahead
  twin : Twin (Lives tree) ringSize False tree tree'

theorem PutAlike.enter {k : Nat} (alike : PutAlike k tree tree') {r : Nat}
    (own : r + lookahead ≤ ringSize) (free : ¬ Lives tree r) :
    ∃ next next', tree.insertNode r = some next ∧ tree'.insertNode r = some next' ∧
      Planted next ∧ (∀ x, Lives next x → x = r ∨ Lives tree x) ∧
      Twin (Lives next) ringSize True next next' := by
  obtain ⟨planted, placed, twin⟩ := alike
  have node : r < nil := by lia
  have unhung : tree.dad r = nil := by
    by_contra hung
    exact free ⟨node, hung⟩
  obtain ⟨next, next', inserts, inserts', inserted, kept⟩ :=
    enter_twin planted twin node unhung own fun x lives => by
      have := placed x lives
      lia
  exact ⟨next, next', inserts, inserts', inserted.planted, fun x lives =>
    (inserted.registered x lives.1 lives.2).imp_right fun hung => ⟨lives.1, hung⟩, kept⟩

theorem insertBlank_alike {k : Nat} (more : k < lookahead) (alike : PutAlike k tree tree') :
    Option.Rel (PutAlike (k + 1)) (insertBlank (ringSize - lookahead) k tree)
      (insertBlank (ringSize - lookahead) k tree') := by
  have free : ¬ Lives tree (ringSize - lookahead - (k + 1)) := by
    intro lives
    have := alike.placed _ lives
    lia
  obtain ⟨next, next', inserts, inserts', planted, stays, twin⟩ := alike.enter (by lia) free
  rw [insertBlank, insertBlank, inserts, inserts']
  refine .some ⟨planted, fun x lives => ?_, ⟨twin.text, twin.dad, twin.rson, twin.lson,
    fun wrong => wrong.elim⟩⟩
  rcases stays x lives with rfl | before
  · lia
  · have := alike.placed x before
    lia

/-- With 119 characters to read, nothing of what was there before is left to be read. -/
theorem start_mirrored (tree tree' : SearchTree) {inbuf : Buffer}
    (plenty : inbuf.rewind.Plenty (2 * lookahead - 1)) :
    Option.Rel (Mirrored 0) (start tree inbuf) (start tree' inbuf) := by
  obtain ⟨empty, inits, bare⟩ := initTree_bare tree
  obtain ⟨empty', inits', bare'⟩ := initTree_bare tree'
  obtain ⟨text, fills, blank, -⟩ := setBlank_total (ringSize - lookahead) (by decide) empty
  obtain ⟨text', fills', blank', -⟩ := setBlank_total (ringSize - lookahead) (by decide) empty'
  simp only [start, inits, inits', Option.bind_eq_bind, Option.bind_some, fills, fills']
  have twin := bare.blank_twin bare' fun i inside => (blank i inside).trans (blank' i inside).symm
  refine rel_bind ReadAll (iterate_rel ReadTogether ?_ _
    ⟨rfl, rfl, Nat.zero_le _, plenty, twin, bare.free, bare.roots⟩) ?_
  · rintro ⟨len, inbuf, tree⟩ ⟨_, _, tree'⟩ ⟨rfl, rfl, alike⟩
    exact readAhead_alike alike
  · rintro ⟨len, after, ahead⟩ ⟨_, _, ahead'⟩ ⟨rfl, rfl, -, plenty, twin, bare⟩
    simp only at plenty twin bare ⊢
    have begun : PutAlike 0 ahead ahead' := ⟨bare.planted,
      fun x lives => absurd (bare.free x lives.1) lives.2,
      twin_mono twin fun x lives => lives.2 (bare.free x lives.1)⟩
    refine rel_bind _ (forRange_rel PutAlike (fun k tree tree' more alike =>
      insertBlank_alike more alike) begun) fun strings strings' alike => ?_
    have free : ¬ Lives strings (ringSize - lookahead) := by
      intro lives
      exact Nat.lt_irrefl _ (alike.placed _ lives).2
    obtain ⟨next, next', inserts, inserts', planted, stays, twin⟩ := alike.enter (by decide) free
    rw [inserts, inserts', Option.bind_some, Option.bind_some]
    refine .some ⟨planted, fun x inside hung => ?_, (Nat.mod_eq_of_lt (by lia)).symm, rfl, plenty,
      twin, rfl, rfl, rfl, rfl⟩
    rcases stays x ⟨inside, hung⟩ with rfl | before
    · exact ⟨ringSize - lookahead, by lia, by lia, Nat.mod_eq_of_lt (by lia)⟩
    · have := alike.placed x before
      exact ⟨x, by lia, by lia, Nat.mod_eq_of_lt inside⟩

end Start

end Window

namespace EntropyCoder

open HuffmanTree

def SameCoder (coder other : EntropyCoder) : Prop :=
  Alike coder.tree other.tree ∧ coder.writer = other.writer

variable {coder other : EntropyCoder}

theorem climbStep_alike {tree tree' : HuffmanTree} (alike : Alike tree tree') :
    climbStep tree = climbStep tree' := by
  funext ⟨k, i, j⟩
  simp only [climbStep, alike.getPrnt]

theorem encodeChar_alike (same : SameCoder coder other) (c : Nat) :
    Option.Rel (Option.Rel SameCoder) (coder.encodeChar c) (other.encodeChar c) := by
  obtain ⟨tree, writer⟩ := coder
  obtain ⟨tree', _⟩ := other
  obtain ⟨alike, rfl⟩ := same
  simp only [encodeChar, Option.bind_eq_bind]
  refine rel_read (alike.getPrnt _) fun k => ?_
  refine rel_read (by rw [climbStep_alike alike]) fun code => ?_
  rcases code with _ | ⟨i, j⟩
  · exact .some .none
  · refine rel_read rfl fun writer => ?_
    exact rel_bind _ (alike.update c) fun _ _ alike => .some (.some ⟨alike, rfl⟩)

theorem encodePosition_alike (same : SameCoder coder other) (position : Nat) :
    Option.Rel SameCoder (coder.encodePosition position) (other.encodePosition position) := by
  obtain ⟨tree, writer⟩ := coder
  obtain ⟨tree', _⟩ := other
  obtain ⟨alike, rfl⟩ := same
  simp only [encodePosition, Option.bind_eq_bind]
  refine rel_read rfl fun length => rel_read rfl fun code => rel_read rfl fun upper => ?_
  exact rel_read rfl fun lower => .some ⟨alike, rfl⟩

theorem encodeToken_alike (token : Token) (coder other : EntropyCoder)
    (same : SameCoder coder other) :
    Option.Rel (Option.Rel SameCoder) (encodeToken token coder) (encodeToken token other) := by
  cases token with
  | literal c => exact encodeChar_alike same _
  | copy length position =>
      simp only [encodeToken, Option.bind_eq_bind]
      refine rel_bind _ (encodeChar_alike same _) ?_
      rintro _ _ (same | _)
      · exact rel_bind _ (encodePosition_alike same position) fun _ _ same => .some (.some same)
      · exact .some .none

theorem feed_alike (tokens : List Token) (same : SameCoder coder other) :
    Option.Rel (Option.Rel SameCoder) (Window.feed encodeToken tokens coder)
      (Window.feed encodeToken tokens other) := by
  induction tokens generalizing coder other with
  | nil => exact .some (.some same)
  | cons token rest ih =>
      refine rel_bind _ (encodeToken_alike token coder other same) ?_
      rintro _ _ (same | _)
      · exact ih same
      · exact .some .none

theorem encodeEnd_alike (same : SameCoder coder other) : coder.encodeEnd = other.encodeEnd := by
  rw [encodeEnd, encodeEnd, same.2]

end EntropyCoder

section Messages

open HuffmanTree Window

variable {tree tree' : HuffmanTree} {search search' : SearchTree} {inbuf : Buffer}

def MirroredRun (state other : Window × EntropyCoder) : Prop :=
  (∃ t, Mirrored t state.1 other.1) ∧ EntropyCoder.SameCoder state.2 other.2

theorem encode_long (tree tree' : HuffmanTree) (search search' : SearchTree)
    (plenty : inbuf.rewind.Plenty (2 * lookahead - 1)) :
    encode tree search inbuf = encode tree' search' inbuf := by
  apply rel_eq
  simp only [encode, Option.bind_eq_bind]
  split
  · exact .some rfl
  · refine rel_bind _ (startHuff_alike tree tree') fun started started' alike => ?_
    refine rel_bind _ (start_mirrored search search' plenty) fun window window' mirrored => ?_
    have begins : MirroredRun (window, ⟨started, putSize (inbuf.data.length % 2 ^ 32)⟩)
        (window', ⟨started', putSize (inbuf.data.length % 2 ^ 32)⟩) :=
      ⟨⟨0, mirrored⟩, alike, rfl⟩
    refine rel_bind _ (iterate_rel MirroredRun (fun state state' both =>
      encodeLoop_mirrored EntropyCoder.SameCoder EntropyCoder.encodeToken_alike both.1 both.2)
      (inbuf.data.length + 1) begins) ?_
    rintro _ _ (same | _)
    · exact .some (congrArg some (EntropyCoder.encodeEnd_alike same))
    · exact .some rfl

theorem encode_chosen (nonempty : inbuf.data ≠ []) (small : inbuf.data.length < 2 ^ 32)
    {tokens : List Token} (chosen : Chosen search inbuf tokens)
    (chosen' : Chosen search' inbuf tokens) (tree tree' : HuffmanTree) :
    encode tree search inbuf = encode tree' search' inbuf := by
  obtain ⟨_, also, -, encodes⟩ := encode_feeds search inbuf nonempty small
  obtain rfl := chosen.unique also
  obtain ⟨_, also', -, encodes'⟩ := encode_feeds search' inbuf nonempty small
  obtain rfl := chosen'.unique also'
  rw [encodes, encodes']
  apply rel_eq
  refine rel_bind _ (startHuff_alike tree tree') fun started started' alike => ?_
  have fed := EntropyCoder.feed_alike tokens
    (show EntropyCoder.SameCoder ⟨started, putSize inbuf.data.length⟩
      ⟨started', putSize inbuf.data.length⟩ from ⟨alike, rfl⟩)
  generalize feed EntropyCoder.encodeToken tokens ⟨started, putSize inbuf.data.length⟩ = first,
    feed EntropyCoder.encodeToken tokens ⟨started', putSize inbuf.data.length⟩ = second at fed ⊢
  rcases fed with (same | _) | _
  · exact .some (congrArg some (EntropyCoder.encodeEnd_alike same))
  · exact .some rfl
  · exact .none

def EncodesAlike (bytes : Bytes) : Prop :=
  ∀ history history' codec codec', Codec.Left history codec → Codec.Left history' codec' →
    version1Encode codec.tree codec.search ⟨bytes, 0⟩ =
      version1Encode codec'.tree codec'.search ⟨bytes, 0⟩

/-- Three characters that occur before, in the message or in the blanks in front of it. -/
def Repeating (bytes : Bytes) : Prop :=
  ∃ t p, t + 3 ≤ bytes.length ∧ p + 1 ≤ ringSize - lookahead ∧
    ∀ i < 3, stream bytes (ringSize - lookahead + t + i) =
      stream bytes (ringSize - lookahead + t + i - (p + 1))

theorem nextToken_literal {bytes : Bytes} (fresh : ¬ Repeating bytes) {t : Nat} {window : Window}
    (aligned : Aligned bytes t window) (more : t < bytes.length) : ∃ chosen,
      window.nextToken = some (.literal bytes[t], chosen) ∧ Aligned bytes t chosen ∧
        chosen.search.matchLength = 1 := by
  obtain ⟨begun, planted, reads, len, r, s, holds, registered, short, repeats⟩ := aligned
  have brief : min window.search.matchLength window.len ≤ threshold := by
    by_contra long
    obtain ⟨near, same⟩ := repeats (by lia) (by omega)
    exact fresh ⟨t, _, by lia, near, fun i inside => same i (by lia)⟩
  have inside : window.r < textBufSize := by
    rw [r]
    lia
  have value : window.search.textBuf window.r = bytes[t] := by
    rw [r, holds.ring _ (by omega) (by lia), stream_input more]
  refine ⟨{ window with search := { window.search with matchLength := 1 } }, ?_,
    ⟨begun, planted, reads, len, r, s, holds, registered, fun _ => by simp, ?_⟩, rfl⟩
  · simp only [nextToken, if_pos brief, SearchTree.getText_some inside, Option.bind_eq_bind,
      Option.bind_some, value]
  · intro _ wrong
    exact absurd wrong (by simp)

theorem tokens_fresh {bytes : Bytes} (nonempty : bytes ≠ []) (small : bytes.length < 2 ^ 32)
    (fresh : ¬ Repeating bytes) (search : SearchTree) :
    Chosen search ⟨bytes, 0⟩ (bytes.map .literal) := by
  obtain ⟨window, starts, aligned⟩ := @start_aligned ⟨bytes, 0⟩ small search
  have loops : ∃ result, iterate (encodeLoop record) (bytes.length + 1) (window, []) =
      some result ∧ result = some (bytes.map .literal) := by
    refine iterate_total (fun left (state : Window × List Token) => ∃ t, left = bytes.length - t ∧
      t < bytes.length ∧ Aligned bytes t state.1 ∧ state.2 = (bytes.take t).map .literal) ?_
      bytes.length (Nat.lt_succ_self _)
      ⟨0, rfl, List.length_pos_of_ne_nil nonempty, aligned, rfl⟩
    rintro left ⟨window, tokens⟩ ⟨t, rfl, more, aligned, rfl⟩
    obtain ⟨chosen, chooses, kept, one⟩ := nextToken_literal fresh aligned more
    have enough : 1 ≤ chosen.len := by
      rw [kept.len]
      lia
    obtain ⟨next, advances, aligned⟩ := advance_total kept enough
    have grown : (bytes.take t).map Token.literal ++ [.literal bytes[t]] =
        (bytes.take (t + 1)).map .literal := by
      rw [List.take_add_one, List.getElem?_eq_getElem more, List.map_append]
      rfl
    have len := aligned.len
    simp only [encodeLoop, chooses, record, one, advances, Option.bind_eq_bind, Option.bind_some,
      grown]
    by_cases again : 0 < next.len
    · exact .inl ⟨_, if_pos again, _, by omega, t + 1, rfl, by lia, aligned, rfl⟩
    · refine .inr ⟨_, if_neg again, ?_⟩
      rw [show t + 1 = bytes.length by lia, List.take_length]
  obtain ⟨_, runs, rfl⟩ := loops
  exact ⟨window, starts, runs⟩

/-- At least as many bytes as fill the look-ahead and its copy, or no three of them repeated. -/
def Unaffected (bytes : Bytes) : Prop :=
  2 * lookahead - 1 ≤ bytes.length ∨ ¬ Repeating bytes

theorem encode_unaffected (tree tree' : HuffmanTree) (search search' : SearchTree) {bytes : Bytes}
    (unaffected : Unaffected bytes) :
    encode tree search ⟨bytes, 0⟩ = encode tree' search' ⟨bytes, 0⟩ := by
  by_cases long : 2 * lookahead - 1 ≤ bytes.length
  · refine encode_long tree tree' search search' (plenty_next ?_ ?_)
    · change 0 + (2 * lookahead - 1) ≤ bytes.length
      omega
    · exact show 0 + (2 * lookahead - 1) < Buffer.indexRange by decide
  · have fresh := unaffected.resolve_left long
    have small : bytes.length < 2 ^ 32 := by lia
    by_cases empty : bytes = []
    · have nothing : ∀ tree search, encode tree search ⟨[], 0⟩ = some (some (putSize 0)) := by
        intro tree search
        rw [encode]
        rfl
      rw [empty, nothing, nothing]
    · exact encode_chosen empty small (tokens_fresh empty small fresh search)
        (tokens_fresh empty small fresh search') tree tree'

/-- A message of at least 119 bytes, or one without repetitions, is encoded the same after any
history. -/
theorem encodes_alike {bytes : Bytes} (unaffected : Unaffected bytes) : EncodesAlike bytes := by
  intro history history' codec codec' _ _
  rw [version1Encode, version1Encode,
    encode_unaffected codec.tree codec'.tree codec.search codec'.search unaffected]

theorem encodes_alike_sample : EncodesAlike (List.replicate 119 97) :=
  encodes_alike (.inl (by decide))

end Messages

namespace Window

open SearchTree

def zeroBlanks : Bytes := [0, 32, 32, 32]

/-- The cells of its window, with those behind it as they were. -/
def zeroText (textBuf : Nat → UInt8) (i : Nat) : UInt8 :=
  if i = ringSize - lookahead then 0
  else if i < ringSize - lookahead + 4 then 32
  else textBuf i

section ZeroBlanks

variable {textBuf : Nat → UInt8} {tree : SearchTree} {k : Nat}

theorem zeroText_zero : zeroText textBuf (ringSize - lookahead) = 0 := if_pos rfl

theorem zeroText_blank {i : Nat} (other : i ≠ ringSize - lookahead)
    (inside : i < ringSize - lookahead + 4) : zeroText textBuf i = 32 := by
  rw [zeroText, if_neg other, if_pos inside]

theorem zeroText_behind {i : Nat} (late : ringSize - lookahead + 4 ≤ i) :
    zeroText textBuf i = textBuf i := by
  rw [zeroText, if_neg (by lia), if_neg (by omega)]

/-- While the strings of blanks are put in; each has the zero in another place. -/
structure Blanks (textBuf : Nat → UInt8) (k : Nat) (tree : SearchTree) : Prop where
  ordered : Ordered tree
  text : tree.textBuf = zeroText textBuf
  registered : ∀ x < nil, tree.dad x ≠ nil ↔
    ringSize - lookahead - k ≤ x ∧ x < ringSize - lookahead

theorem blanks_differ {r x : Nat} (before : r < x) (inside : x < ringSize - lookahead)
    (near : ringSize - lookahead ≤ r + lookahead) :
    common (zeroText textBuf) r x < lookahead := by
  by_contra whole
  have same := (le_common.mp (Nat.not_lt.mp whole)).2 (ringSize - lookahead - x) (by lia)
  rw [show x + (ringSize - lookahead - x) = ringSize - lookahead by lia, zeroText_zero,
    zeroText_blank (by lia) (by lia)] at same
  exact absurd same (by decide)

theorem Blanks.insert (blanks : Blanks textBuf k tree) (more : k < lookahead) :
    ∃ next, insertBlank (ringSize - lookahead) k tree = some next ∧ Blanks textBuf (k + 1) next := by
  obtain ⟨ordered, text, registered⟩ := blanks
  have free : tree.dad (ringSize - lookahead - (k + 1)) = nil := by
    by_contra hung
    have := (registered _ (by lia)).mp hung
    lia
  obtain ⟨next, inserts, inserted, ordered', stays, -⟩ :=
    insertNode_searched ordered (by lia) free
  refine ⟨next, inserts, ordered', inserted.text.trans text, fun x inside => ?_⟩
  rw [stays x inside, registered x inside, text]
  constructor
  · rintro (rfl | ⟨place, -⟩)
    · lia
    · lia
  · rintro ⟨low, high⟩
    by_cases new : x = ringSize - lookahead - (k + 1)
    · exact .inl new
    · exact .inr ⟨⟨by lia, high⟩, blanks_differ (by lia) high (by lia)⟩

theorem zero_start (search : SearchTree) : ∃ after last,
    start search ⟨zeroBlanks, 0⟩ = some ⟨last, after, 4, 0, ringSize - lookahead⟩ ∧
      Ordered last ∧ last.textBuf = zeroText search.textBuf ∧ last.matchLength = 0 ∧
      ∀ x < nil, last.dad x ≠ nil ↔
        ringSize - 2 * lookahead ≤ x ∧ x ≤ ringSize - lookahead := by
  obtain ⟨empty, inits, bare⟩ := initTree_bare search
  obtain ⟨_, again, -, kept, -⟩ := initTree_total search
  obtain rfl := Option.some.inj (inits.symm.trans again)
  obtain ⟨blank, fills, blanks, behind⟩ := setBlank_total (ringSize - lookahead) (by decide) empty
  obtain ⟨len, after, filled, reads, ahead, length⟩ :=
    readAhead_total { empty with textBuf := blank }
      (Buffer.reads_rewind (b := ⟨zeroBlanks, 0⟩) (by decide))
  obtain ⟨-, -, -, text, rfl, rest, begun⟩ := ahead
  obtain rfl : len = 4 := length
  have cells : text = zeroText search.textBuf := by
    funext i
    by_cases zero : i = ringSize - lookahead
    · rw [zero, zeroText_zero]
      exact begun 0 (by decide)
    · by_cases inside : i < ringSize - lookahead + 4
      · rw [zeroText_blank zero inside]
        by_cases early : i < ringSize - lookahead
        · exact (rest i (.inl early)).trans (blanks i early)
        · obtain ⟨j, rfl⟩ : ∃ j, i = ringSize - lookahead + j :=
            ⟨i - (ringSize - lookahead), by omega⟩
          rw [begun j (by omega)]
          have : j = 1 ∨ j = 2 ∨ j = 3 := by omega
          rcases this with rfl | rfl | rfl <;> rfl
      · rw [zeroText_behind (by omega)]
        exact (rest i (.inr (by omega))).trans ((behind i (by omega)).trans (congrFun kept i))
  have first : Blanks search.textBuf 0 { empty with textBuf := text } := by
    refine ⟨⟨fun _ => true, id, ?_, Sorted.of_empty bare.free⟩, cells, fun x inside => ?_⟩
    · exact grown_empty bare.free fun x above below => bare.roots x ⟨above, below⟩
    · exact iff_of_false (fun hung => hung (bare.free x inside)) (by omega)
  obtain ⟨strings, inserts, ordered, sameText, registered⟩ :=
    forRange_total (Blanks search.textBuf) (fun k tree more blanks => blanks.insert more) first
  have free : strings.dad (ringSize - lookahead) = nil := by
    by_contra hung
    exact Nat.lt_irrefl _ ((registered _ (by decide)).mp hung).2
  obtain ⟨last, enters, inserted, ordered', stays, best, ⟨longest, reached, -⟩, -⟩ :=
    insertNode_searched ordered (by decide) free
  have apart : ∀ x < nil, strings.dad x ≠ nil →
      common strings.textBuf (ringSize - lookahead) x = 0 := by
    intro x inside hung
    have place := (registered x inside).mp hung
    refine common_eq (Nat.zero_le _) (fun i none => absurd none (Nat.not_lt_zero i))
      fun _ same => ?_
    rw [sameText, Nat.add_zero, Nat.add_zero, zeroText_zero,
      zeroText_blank (by omega) (by omega)] at same
    exact absurd same (by decide)
  have zero : best = 0 := by
    rcases reached with zero | ⟨x, inside, hung, shared⟩
    · exact zero
    · exact shared.symm.trans (apart x inside hung)
  refine ⟨after, last, ?_, ordered', inserted.text.trans sameText, ?_, fun x inside => ?_⟩
  · simp only [start, inits, fills, reads, inserts, enters, Option.bind_eq_bind, Option.bind_some]
  · rw [longest, zero]
    rfl
  · rw [stays x inside, registered x inside]
    constructor
    · rintro (rfl | ⟨place, -⟩)
      · lia
      · lia
    · intro place
      by_cases new : x = ringSize - lookahead
      · exact .inl new
      · have here : ringSize - lookahead - lookahead ≤ x ∧ x < ringSize - lookahead := by lia
        refine .inr ⟨here, ?_⟩
        rw [apart x inside ((registered x inside).mpr here)]
        decide

/-- With one string that has most in common with the three blanks, they are copied from it. -/
theorem zero_tokens (search : SearchTree) {q : Nat} (low : ringSize - 2 * lookahead ≤ q)
    (high : q < ringSize - lookahead)
    (long : threshold < common (zeroText search.textBuf) (ringSize - lookahead + 1) q)
    (most : ∀ x, ringSize - 2 * lookahead ≤ x → x ≤ ringSize - lookahead → x ≠ q →
      common (zeroText search.textBuf) (ringSize - lookahead + 1) x <
        common (zeroText search.textBuf) (ringSize - lookahead + 1) q) :
    Chosen search ⟨zeroBlanks, 0⟩
      [.literal 0, .copy 3 (distance (ringSize - lookahead + 1) q)] := by
  obtain ⟨after, last, starts, ordered, text, length, registered⟩ := zero_start search
  obtain ⟨_, again, aligned⟩ := @start_aligned ⟨zeroBlanks, 0⟩ (by decide) search
  obtain rfl := Option.some.inj (starts.symm.trans again)
  have value : last.textBuf (ringSize - lookahead) = 0 := by
    rw [text, zeroText_zero]
  -- the zero
  have chooses : nextToken ⟨last, after, 4, 0, ringSize - lookahead⟩ =
      some (.literal 0, ⟨{ last with matchLength := 1 }, after, 4, 0, ringSize - lookahead⟩) := by
    simp only [nextToken, length]
    rw [if_pos (by decide), getText_some (by decide), value]
    rfl
  obtain ⟨_, _, also, -, kept, -, -, -⟩ := nextToken_total aligned (by decide)
  obtain ⟨rfl, rfl⟩ := Prod.mk.inj (Option.some.inj (chooses.symm.trans also))
  have ended : after.iterchar = (none, after) := Buffer.iterchar_nil kept.reads
  have unhung : last.dad 0 = nil := by
    by_contra hung
    have := (registered 0 (by decide)).mp hung
    lia
  have deletes : deleteNode { last with matchLength := 1 } 0 =
      some { last with matchLength := 1 } := by
    rw [deleteNode, getDad_some (by decide)]
    simp only [unhung, Option.bind_eq_bind, Option.bind_some, if_true]
  have free : last.dad (ringSize - lookahead + 1) = nil := by
    by_contra hung
    have := (registered _ (by decide)).mp hung
    omega
  have ordered' : Ordered { last with matchLength := 1 } := ordered
  obtain ⟨next, inserts, inserted, -, -, best, ⟨longest, reached, place⟩, least⟩ :=
    insertNode_searched (r := ringSize - lookahead + 1) ordered' (by decide) free
  simp only [text] at reached place least
  have enough := least q (by lia) ((registered q (by lia)).mpr ⟨low, by omega⟩)
  obtain ⟨x, inside, hung, position, shared⟩ := place (by omega)
  have found : x = q := by
    by_contra other
    obtain ⟨above, below⟩ := (registered x inside).mp hung
    have := most x above below other
    omega
  rw [found] at position
  have advances : advance 1 ⟨{ last with matchLength := 1 }, after, 4, 0, ringSize - lookahead⟩ =
      some ⟨next, after, 3, 1, ringSize - lookahead + 1⟩ := by
    have reads : iterate (readOn 1) 2 (0, ⟨{ last with matchLength := 1 }, after, 4, 0,
        ringSize - lookahead⟩) = some (0, ⟨{ last with matchLength := 1 }, after, 4, 0,
          ringSize - lookahead⟩) := by
      simp only [iterate, readOn, ended]
      rfl
    have around : (ringSize - lookahead + 1) % ringSize = ringSize - lookahead + 1 := rfl
    have runs : runOut 1 (0, ⟨{ last with matchLength := 1 }, after, 4, 0, ringSize - lookahead⟩) =
        some (.inl (1, ⟨next, after, 3, 1, ringSize - lookahead + 1⟩)) := by
      simp only [runOut, if_pos Nat.one_pos, deletes, Option.bind_eq_bind, Option.bind_some]
      rw [if_pos (by decide), around, inserts]
      rfl
    simp only [advance, reads, Option.bind_eq_bind, Option.bind_some]
    rw [iterate, runs]
    rfl
  obtain ⟨_, same, aligned⟩ := advance_total kept (show 1 ≤ 4 by decide)
  obtain rfl := Option.some.inj (advances.symm.trans same)
  -- the blanks
  have copies : nextToken ⟨next, after, 3, 1, ringSize - lookahead + 1⟩ =
      some (.copy 3 (distance (ringSize - lookahead + 1) q),
        ⟨{ next with matchLength := 3 }, after, 3, 1, ringSize - lookahead + 1⟩) := by
    have whole : min next.matchLength 3 = 3 := by
      rw [longest, if_pos (by omega)]
      lia
    simp only [nextToken, whole, position]
    rfl
  obtain ⟨_, _, also', -, kept', -, -, -⟩ := nextToken_total aligned (by decide)
  obtain ⟨rfl, rfl⟩ := Prod.mk.inj (Option.some.inj (copies.symm.trans also'))
  obtain ⟨final, finishes, aligned⟩ := advance_total kept' (show 3 ≤ 3 by decide)
  have done : final.len = 0 := aligned.len
  refine ⟨_, starts, ?_⟩
  have first : encodeLoop record (⟨last, after, 4, 0, ringSize - lookahead⟩, []) =
      some (.inl (⟨next, after, 3, 1, ringSize - lookahead + 1⟩, [.literal 0])) := by
    simp only [encodeLoop, chooses, record, Option.bind_eq_bind, Option.bind_some, advances]
    rfl
  have second : encodeLoop record (⟨next, after, 3, 1, ringSize - lookahead + 1⟩, [.literal 0]) =
      some (.inr (some [.literal 0, .copy 3 (distance (ringSize - lookahead + 1) q)])) := by
    simp only [encodeLoop, copies, record, Option.bind_eq_bind, Option.bind_some, finishes, done]
    rfl
  change iterate (encodeLoop record) 5 _ = _
  rw [iterate, first]
  change iterate (encodeLoop record) 4 _ = _
  rw [iterate, second]
  rfl

/-- Where the cells behind are zero, three blanks and a zero are there, in front of the zero. -/
theorem zero_tokens_zeros (search : SearchTree) (zeros : ∀ i, search.textBuf i = 0) :
    Chosen search ⟨zeroBlanks, 0⟩ [.literal 0, .copy 3 3] := by
  have shared : common (zeroText search.textBuf) (ringSize - lookahead + 1)
      (ringSize - lookahead - 3) = 4 := by
    refine common_eq (by decide) (fun i inside => ?_) fun _ same => ?_
    · by_cases zero : i = 3
      · rw [zero, zeroText_behind (by lia), zeros]
        exact zeroText_zero.symm
      · rw [zeroText_blank (by lia) (by lia), zeroText_blank (by lia) (by lia)]
    · rw [zeroText_behind (by lia), zeros, zeroText_blank (by lia) (by lia)] at same
      exact absurd same (by decide)
  refine zero_tokens search (q := ringSize - lookahead - 3) (by decide) (by decide)
    (by rw [shared]; decide) fun x low high other => ?_
  rw [shared]
  by_contra long
  have same := (le_common.mp (Nat.not_lt.mp long)).2
  by_cases near : ringSize - lookahead < x + 3
  · have zero := same (ringSize - lookahead - x) (by omega)
    rw [show x + (ringSize - lookahead - x) = ringSize - lookahead by omega, zeroText_zero,
      zeroText_blank (by lia) (by lia)] at zero
    exact absurd zero (by decide)
  · have zero := same 3 (by decide)
    rw [zeroText_behind (by lia), zeros, zeroText_blank (by lia) (by lia)] at zero
    exact absurd zero (by decide)

/-- Where the cells up to the end of the ring are blanks, 59 blanks and a zero are. -/
theorem zero_tokens_blanks (search : SearchTree)
    (blanks : ∀ i < ringSize, ringSize - lookahead ≤ i → search.textBuf i = 32)
    (behind : search.textBuf ringSize = 0) :
    Chosen search ⟨zeroBlanks, 0⟩ [.literal 0, .copy 3 59] := by
  have cell : ∀ i, i ≠ ringSize - lookahead → i < ringSize → zeroText search.textBuf i = 32 := by
    intro i other inside
    by_cases early : i < ringSize - lookahead + 4
    · exact zeroText_blank other early
    · rw [zeroText_behind (by omega)]
      exact blanks i inside (by omega)
  have last : zeroText search.textBuf ringSize = 0 := by
    rw [zeroText_behind (by decide), behind]
  have shared : common (zeroText search.textBuf) (ringSize - lookahead + 1)
      (ringSize - lookahead - 59) = lookahead := by
    refine common_eq (Nat.le_refl _) (fun i inside => ?_) fun less => absurd less (Nat.lt_irrefl _)
    by_cases zero : i = 59
    · rw [zero]
      exact last.trans zeroText_zero.symm
    · rw [cell _ (by lia) (by lia), cell _ (by lia) (by lia)]
  refine zero_tokens search (q := ringSize - lookahead - 59) (by decide) (by decide)
    (by rw [shared]; decide) fun x low high other => ?_
  rw [shared]
  by_contra long
  have same := (le_common.mp (Nat.not_lt.mp long)).2
  by_cases near : ringSize - lookahead < x + 59
  · have zero := same (ringSize - lookahead - x) (by lia)
    rw [show x + (ringSize - lookahead - x) = ringSize - lookahead by omega, zeroText_zero,
      cell _ (by lia) (by lia)] at zero
    exact absurd zero (by decide)
  · have zero := same 59 (by decide)
    rw [show ringSize - lookahead + 1 + 59 = ringSize from rfl, last,
      cell _ (by lia) (by lia)] at zero
    exact absurd zero (by decide)

end ZeroBlanks

end Window

/-- What is left of a message of blanks changes how a zero and three blanks are encoded. -/
theorem leftover_blanks : ¬ EncodesAlike Window.zeroBlanks := by
  intro alike
  obtain ⟨codec, left, blanks, behind⟩ := stuffing_left
  have same := alike [] [.decode stuffing] Codec.initial codec rfl left
  obtain ⟨fresh, freshly, invariant, -⟩ := HuffmanTree.startHuff_total Codec.initial.tree
  -- what is put out announces the tokens that were chosen
  have announces : ∀ (tree : HuffmanTree) (search : SearchTree) (position : Nat),
      Window.Chosen search ⟨Window.zeroBlanks, 0⟩ [.literal 0, .copy 3 position] → ∃ body,
        version1Encode tree search ⟨Window.zeroBlanks, 0⟩ = some (some ⟨codedMessage 4 body, 0⟩) ∧
        Announced 4 fresh (bitsFrom ⟨codedMessage 4 body, 6⟩) 0 [.literal 0, .copy 3 position] := by
    intro tree search position chosen
    have legible : CodesLegible tree search ⟨Window.zeroBlanks, 0⟩ :=
      short_legible tree search (by decide) (by decide)
    obtain ⟨tokens, body, also, encodes, -, announced, -⟩ :=
      legible.message (by decide) (by decide) freshly
    obtain rfl := chosen.unique also
    exact ⟨body, encodes, announced⟩
  obtain ⟨zeros, encodes, announced⟩ := announces Codec.initial.tree Codec.initial.search 3
    (Window.zero_tokens_zeros _ fun _ => rfl)
  obtain ⟨blank, encodes', announced'⟩ := announces codec.tree codec.search 59
    (Window.zero_tokens_blanks _ blanks behind)
  rw [encodes, encodes'] at same
  have bytes : codedMessage 4 zeros = codedMessage 4 blank := by simpa using same
  rw [bytes] at announced
  have tokens := announced.unique invariant announced'
  simp at tokens

end PaclinkUnix
