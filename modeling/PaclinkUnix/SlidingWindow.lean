import PaclinkUnix.DecodeSafety
import PaclinkUnix.LzhufEncode
import PaclinkUnix.SearchForest

/-!
The tokens the encoder finds, expanded by the decoder's rule, are the input. Both windows
are seen as a part of one stream, the blanks the ring starts with and the input behind them.
-/

namespace PaclinkUnix

open Memory

def stream (bytes : Bytes) (a : Nat) : UInt8 :=
  if a < ringSize - lookahead then 32 else bytes.getD (a - (ringSize - lookahead)) 0

namespace Window

/-- The text from `low` up to `high` is in the ring, and in the cells behind it. -/
structure Holds (bytes : Bytes) (low high : Nat) (textBuf : Nat → UInt8) : Prop where
  ring : ∀ a, low ≤ a → a < high → textBuf (a % ringSize) = stream bytes a
  mirror : ∀ a, low ≤ a → a < high → ringSize ≤ a → a % ringSize < lookahead - 1 →
    textBuf (a % ringSize + ringSize) = stream bytes a

/-- A match for the string at `a`, no further back than the ring is safe. -/
def Repeats (bytes : Bytes) (a length position : Nat) : Prop :=
  position + 1 ≤ ringSize - lookahead ∧ ∀ i < length,
    stream bytes (a + i) = stream bytes (a + i - (position + 1))

/-- Registered strings start at these places of the stream. -/
def Registered (tree : SearchTree) (low high : Nat) : Prop :=
  ∀ x < nil, tree.dad x ≠ nil → ∃ b, low ≤ b ∧ b < high ∧ b % ringSize = x

/-- The window when `t` characters of the input have been coded. -/
structure Aligned (bytes : Bytes) (t : Nat) (window : Window) : Prop where
  begun : t ≤ bytes.length
  planted : SearchTree.Planted window.search
  reads : Buffer.Reads window.inbuf (bytes.drop (t + window.len))
  len : window.len = min lookahead (bytes.length - t)
  r : window.r = (ringSize - lookahead + t) % ringSize
  s : window.s = t % ringSize
  holds : Holds bytes t (ringSize - lookahead + t + window.len) window.search.textBuf
  registered : Registered window.search t (ringSize - lookahead + t + 1)
  short : 0 < window.len → window.search.matchLength ≤ lookahead
  repeats : 0 < window.len → threshold < window.search.matchLength →
    Repeats bytes (ringSize - lookahead + t) (min window.search.matchLength window.len)
      window.search.matchPosition

section Strings

variable {bytes : Bytes} {low high : Nat} {textBuf : Nat → UInt8} {tree next : SearchTree}

/-- A string read from the ring, beyond its end if it lies there. -/
theorem Holds.read (holds : Holds bytes low high textBuf) {b i : Nat} (short : i < lookahead)
    (above : low ≤ b + i) (below : b + i < high) :
    textBuf (b % ringSize + i) = stream bytes (b + i) := by
  by_cases inside : b % ringSize + i < ringSize
  · have same : (b + i) % ringSize = b % ringSize + i := by lia
    rw [← same]
    exact holds.ring (b + i) above below
  · have same : (b + i) % ringSize + ringSize = b % ringSize + i := by lia
    rw [← same]
    exact holds.mirror (b + i) above below (by lia) (by lia)

theorem distance_eq {a b : Nat} (before : b < a) (near : a - b < ringSize) :
    SearchTree.distance (a % ringSize) (b % ringSize) = a - b - 1 := by
  have turns : (((a % ringSize : Nat) : Int) - ((b % ringSize : Nat) : Int)) % (ringSize : Nat) =
      ((a - b : Nat) : Int) := by lia
  rw [SearchTree.distance, turns]
  lia

theorem matched_repeats {t len : Nat} (fits : len ≤ lookahead)
    (holds : Holds bytes t (ringSize - lookahead + t + len) next.textBuf)
    (registered : Registered tree t (ringSize - lookahead + t))
    (matched : SearchTree.Matched tree.dad next ((ringSize - lookahead + t) % ringSize))
    (long : threshold < next.matchLength) :
    Repeats bytes (ringSize - lookahead + t) (min next.matchLength len) next.matchPosition := by
  obtain ⟨short, finds⟩ := matched
  obtain ⟨q, node, hung, position, same⟩ := finds long
  obtain ⟨b, above, below, rfl⟩ := registered q node hung
  have away := distance_eq below (by lia)
  rw [position, away]
  refine ⟨by lia, ?_⟩
  intro i inside
  have equal := same i (by omega)
  rw [holds.read (by omega) (by omega) (by omega), holds.read (by omega) (by omega) (by omega)] at equal
  rw [equal]
  congr 1
  omega

end Strings

section Start

variable {bytes : Bytes} {search : SearchTree}

theorem setBlank_total (count : Nat) (inside : count ≤ ringSize) (search : SearchTree) :
    ∃ text, forRange count setBlank search = some { search with textBuf := text } ∧
      (∀ i < count, text i = 32) ∧ ∀ i, count ≤ i → text i = search.textBuf i := by
  have loops : ∃ last, forRange count setBlank search = some last ∧
      ∃ text, last = { search with textBuf := text } ∧ (∀ i < count, text i = 32) ∧
        ∀ i, count ≤ i → text i = search.textBuf i := by
    refine forRange_total (fun count (last : SearchTree) =>
      ∃ text, last = { search with textBuf := text } ∧ (∀ i < count, text i = 32) ∧
        ∀ i, count ≤ i → text i = search.textBuf i) ?_
      ⟨search.textBuf, rfl, fun i none => absurd none (Nat.not_lt_zero i), fun _ _ => rfl⟩
    rintro k middle bound ⟨text, rfl, blank, rest⟩
    refine ⟨_, SearchTree.setText_some (by lia), put text k 32, rfl, ?_, ?_⟩
    · intro i early
      by_cases last : i = k
      · rw [last]
        exact put_same
      · exact (put_other last).trans (blank i (by omega))
    · intro i late
      exact (put_other (by omega)).trans (rest i (by omega))
  obtain ⟨last, runs, text, rfl, blank, rest⟩ := loops
  exact ⟨text, runs, blank, rest⟩

/-- What is in the ring when the first characters have been read. -/
structure Ahead (bytes : Bytes) (search : SearchTree) (len : Nat) (inbuf : Buffer)
    (last : SearchTree) : Prop where
  short : len ≤ lookahead
  reads : Buffer.Reads inbuf (bytes.drop len)
  inside : len ≤ bytes.length
  text : ∃ text, last = { search with textBuf := text } ∧
    (∀ i, i < ringSize - lookahead ∨ ringSize - lookahead + len ≤ i →
      text i = search.textBuf i) ∧
      ∀ k < len, text (ringSize - lookahead + k) = bytes.getD k 0

theorem readAhead_total (search : SearchTree) {inbuf : Buffer} (reads : Buffer.Reads inbuf bytes) :
    ∃ len after last, iterate (readAhead (ringSize - lookahead)) (lookahead + 1)
        (0, inbuf, search) = some (len, after, last) ∧ Ahead bytes search len after last ∧
      len = min lookahead bytes.length := by
  have loops : ∃ result, iterate (readAhead (ringSize - lookahead)) (lookahead + 1)
      (0, inbuf, search) = some result ∧ Ahead bytes search result.1 result.2.1 result.2.2 ∧
        result.1 = min lookahead bytes.length := by
    refine iterate_total (fun left (state : Nat × Buffer × SearchTree) =>
      left = lookahead - state.1 ∧ Ahead bytes search state.1 state.2.1 state.2.2) ?_ lookahead
      (by lia) ⟨rfl, Nat.zero_le _, reads, Nat.zero_le _, search.textBuf, rfl, fun _ _ => rfl,
        fun k none => absurd none (Nat.not_lt_zero k)⟩
    rintro left ⟨len, inbuf, middle⟩ ⟨rfl, short, reads, inside, text, rfl, blank, begun⟩
    simp only at short reads inside begun ⊢
    by_cases more : len < lookahead
    · rcases Nat.lt_or_ge len bytes.length with left | ended
      · have split := List.drop_eq_getElem_cons left
        rw [split] at reads
        obtain ⟨after, read, -, unread⟩ := Buffer.iterchar_cons reads
        refine .inl ⟨(len + 1, after, _), ?_, lookahead - (len + 1), by omega, rfl, more, unread,
          left, put text (ringSize - lookahead + len) bytes[len], rfl, ?_, ?_⟩
        · simp only [readAhead, if_pos more, read]
          rw [SearchTree.setText_some (by lia)]
          rfl
        · intro i apart
          exact (put_other (by omega)).trans (blank i (by omega))
        · intro k early
          by_cases last : k = len
          · subst last
            rw [put_same, List.getD_eq_getElem?_getD, List.getElem?_eq_getElem left]
            rfl
          · exact (put_other (by omega)).trans (begun k (by omega))
      · have absent := reads
        rw [List.drop_eq_nil_of_le ended] at absent
        refine .inr ⟨(len, inbuf, _), ?_, ⟨short, reads, inside, text, rfl, blank, begun⟩, ?_⟩
        · simp only [readAhead, if_pos more, Buffer.iterchar_nil absent]
        · simp only
          omega
    · refine .inr ⟨(len, inbuf, _), by simp only [readAhead, if_neg more],
        ⟨short, reads, inside, text, rfl, blank, begun⟩, ?_⟩
      simp only
      omega
  obtain ⟨⟨len, after, last⟩, runs, ahead, length⟩ := loops
  exact ⟨len, after, last, runs, ahead, length⟩

theorem insertBlank_total (planted : SearchTree.Planted search)
    (free : ∀ x < nil, search.dad x = nil) :
    ∃ last, forRange lookahead (insertBlank (ringSize - lookahead)) search = some last ∧
      SearchTree.Planted last ∧ last.textBuf = search.textBuf ∧
      ∀ x < nil, last.dad x ≠ nil → x < ringSize - lookahead := by
  have loops : ∃ last, forRange lookahead (insertBlank (ringSize - lookahead)) search = some last ∧
      SearchTree.Planted last ∧ last.textBuf = search.textBuf ∧ ∀ x < nil, last.dad x ≠ nil →
        ringSize - lookahead - lookahead ≤ x ∧ x < ringSize - lookahead := by
    refine forRange_total (fun k (last : SearchTree) => SearchTree.Planted last ∧
      last.textBuf = search.textBuf ∧ ∀ x < nil, last.dad x ≠ nil →
        ringSize - lookahead - k ≤ x ∧ x < ringSize - lookahead) ?_
      ⟨planted, rfl, fun x inside hung => absurd (free x inside) hung⟩
    rintro k middle bound ⟨kept, text, placed⟩
    have unplaced : middle.dad (ringSize - lookahead - (k + 1)) = nil := by
      by_contra hung
      have := placed _ (by lia) hung
      lia
    obtain ⟨next, inserts, inserted⟩ := SearchTree.insertNode_total kept (by lia) unplaced
    refine ⟨next, inserts, inserted.planted, inserted.text.trans text, ?_⟩
    intro x inside hung
    rcases inserted.registered x inside hung with rfl | before
    · lia
    · have := placed x inside before
      lia
  obtain ⟨last, runs, kept, text, placed⟩ := loops
  exact ⟨last, runs, kept, text, fun x inside hung => (placed x inside hung).2⟩

theorem start_aligned {inbuf : Buffer} (small : inbuf.data.length < Buffer.indexRange)
    (search : SearchTree) :
    ∃ window, start search inbuf = some window ∧ Aligned inbuf.data 0 window := by
  obtain ⟨empty, inits, planted, -, free⟩ := SearchTree.initTree_total search
  obtain ⟨blank, fills, blanks, -⟩ := setBlank_total (ringSize - lookahead) (by lia) empty
  obtain ⟨len, after, filled, reads, ahead, length⟩ :=
    readAhead_total { empty with textBuf := blank } (Buffer.reads_rewind small)
  obtain ⟨short, unread, inside, text, rfl, before, begun⟩ := ahead
  have planted : SearchTree.Planted { empty with textBuf := text } :=
    planted.of_agree (fun _ _ => rfl) (fun _ _ _ => rfl) fun y node hung => absurd (free y node) hung
  obtain ⟨strings, inserts, planted, sameText, placed⟩ := insertBlank_total planted free
  have unplaced : strings.dad (ringSize - lookahead) = nil := by
    by_contra hung
    exact absurd (placed _ (by lia) hung) (Nat.lt_irrefl _)
  obtain ⟨last, insertsLast, inserted⟩ := SearchTree.insertNode_total planted (by lia) unplaced
  have holds : Holds inbuf.data 0 (ringSize - lookahead + 0 + len) last.textBuf := by
    rw [inserted.text, sameText]
    constructor
    · rintro a - below
      rw [Nat.mod_eq_of_lt (by lia), stream]
      by_cases early : a < ringSize - lookahead
      · rw [if_pos early]
        exact (before a (.inl early)).trans (blanks a early)
      · rw [if_neg early]
        have place : ringSize - lookahead + (a - (ringSize - lookahead)) = a := by omega
        have value := begun (a - (ringSize - lookahead)) (by omega)
        rwa [place] at value
    · rintro a - below above
      lia
  have registered : Registered strings 0 (ringSize - lookahead + 0) := by
    intro x node hung
    exact ⟨x, Nat.zero_le x, placed x node hung, Nat.mod_eq_of_lt node⟩
  refine ⟨{ search := last, inbuf := after, len := len, s := 0, r := ringSize - lookahead }, ?_,
    Nat.zero_le _, inserted.planted, ?_, ?_, ?_, rfl, holds, ?_, fun _ => inserted.matched.1, ?_⟩
  · simp only [start, inits, fills, reads, inserts, insertsLast, Option.bind_eq_bind,
      Option.bind_some]
  · simpa only [Nat.zero_add] using unread
  · simpa only [Nat.sub_zero] using length
  · exact (Nat.mod_eq_of_lt (by lia)).symm
  · intro x node hung
    rcases inserted.registered x node hung with rfl | old
    · exact ⟨ringSize - lookahead, by lia, by lia, Nat.mod_eq_of_lt (by lia)⟩
    · obtain ⟨b, low, high, same⟩ := registered x node old
      exact ⟨b, low, by lia, same⟩
  · intro _ long
    exact matched_repeats short holds registered
      (by simpa only [Nat.add_zero, Nat.mod_eq_of_lt (show ringSize - lookahead < ringSize by decide)]
        using inserted.matched) long

end Start

section Slide

variable {bytes : Bytes} {t : Nat} {window : Window}

/-- The string that leaves the window was the oldest, and the place of the next is free. -/
theorem Registered.leave {tree left : SearchTree} {r s : Nat}
    (registered : Registered tree t (ringSize - lookahead + t + 1))
    (here : r = (ringSize - lookahead + t) % ringSize) (oldest : s = t % ringSize)
    (deleted : ∀ x < nil, left.dad x ≠ nil → tree.dad x ≠ nil ∧ x ≠ s) :
    Registered left (t + 1) (ringSize - lookahead + (t + 1)) ∧
      left.dad ((r + 1) % ringSize) = nil := by
  have stays : Registered left (t + 1) (ringSize - lookahead + (t + 1)) := by
    intro x node hung
    obtain ⟨before, other⟩ := deleted x node hung
    obtain ⟨b, low, high, same⟩ := registered x node before
    refine ⟨b, ?_, by lia, same⟩
    by_contra early
    have last : b = t := by omega
    rw [last] at same
    exact other (same.symm.trans oldest.symm)
  refine ⟨stays, ?_⟩
  by_contra hung
  obtain ⟨b, low, high, same⟩ := stays _ (Nat.mod_lt _ (by decide)) hung
  rw [here] at same
  lia

theorem Registered.enter {tree next : SearchTree} {r : Nat}
    (registered : Registered tree (t + 1) (ringSize - lookahead + (t + 1)))
    (place : r = (ringSize - lookahead + (t + 1)) % ringSize)
    (inserted : ∀ x < nil, next.dad x ≠ nil → x = r ∨ tree.dad x ≠ nil) :
    Registered next (t + 1) (ringSize - lookahead + (t + 1) + 1) := by
  intro x node hung
  rcases inserted x node hung with rfl | before
  · exact ⟨ringSize - lookahead + (t + 1), by lia, by omega, place.symm⟩
  · obtain ⟨b, low, high, same⟩ := registered x node before
    exact ⟨b, low, by omega, same⟩

theorem leave_total (aligned : Aligned bytes t window) :
    ∃ search, window.search.deleteNode window.s = some search ∧ SearchTree.Planted search ∧
      search.textBuf = window.search.textBuf ∧
      Registered search (t + 1) (ringSize - lookahead + (t + 1)) ∧
      search.dad ((window.r + 1) % ringSize) = nil ∧ search.dad window.s = nil := by
  have inside : window.s < nil := by
    rw [aligned.s]
    exact Nat.mod_lt _ (by decide)
  obtain ⟨search, deletes, deleted⟩ := SearchTree.deleteNode_total aligned.planted inside
  obtain ⟨registered, free⟩ :=
    aligned.registered.leave aligned.r aligned.s deleted.registered
  refine ⟨search, deletes, deleted.planted, deleted.text, registered, free, ?_⟩
  by_contra hung
  exact (deleted.registered _ inside hung).2 rfl

theorem enter_total {search : SearchTree} (planted : SearchTree.Planted search)
    (registered : Registered search (t + 1) (ringSize - lookahead + (t + 1))) {r : Nat}
    (place : r = (ringSize - lookahead + (t + 1)) % ringSize) (free : search.dad r = nil) {len : Nat}
    (fits : len ≤ lookahead)
    (holds : Holds bytes (t + 1) (ringSize - lookahead + (t + 1) + len) search.textBuf) :
    ∃ next, search.insertNode r = some next ∧ SearchTree.Planted next ∧
      next.textBuf = search.textBuf ∧
      Registered next (t + 1) (ringSize - lookahead + (t + 1) + 1) ∧
      next.matchLength ≤ lookahead ∧ (threshold < next.matchLength →
        Repeats bytes (ringSize - lookahead + (t + 1)) (min next.matchLength len)
          next.matchPosition) := by
  have inside : r < nil := by
    rw [place]
    exact Nat.mod_lt _ (by decide)
  obtain ⟨next, inserts, inserted⟩ := SearchTree.insertNode_total planted inside free
  refine ⟨next, inserts, inserted.planted, inserted.text,
    registered.enter place inserted.registered, inserted.matched.1, ?_⟩
  intro long
  exact matched_repeats fits (inserted.text ▸ holds) registered (place ▸ inserted.matched) long

theorem holds_next {low high : Nat} {textBuf : Nat → UInt8} (holds : Holds bytes low high textBuf)
    {later fewer : Nat} (after : low ≤ later) (before : fewer ≤ high) :
    Holds bytes later fewer textBuf :=
  ⟨fun a above below => holds.ring a (by omega) (by omega),
    fun a above below => holds.mirror a (by omega) (by omega)⟩

/-- The new character takes the place of the oldest one, and of its copy behind the ring. -/
theorem holds_write {textBuf : Nat → UInt8} (holds : Holds bytes t (ringSize + t) textBuf)
    {c : UInt8} (value : stream bytes (ringSize + t) = c) :
    Holds bytes (t + 1) (ringSize + t + 1)
      (if t % ringSize < lookahead - 1 then
        put (put textBuf (t % ringSize) c) (t % ringSize + ringSize) c
      else put textBuf (t % ringSize) c) := by
  constructor
  · intro a above below
    by_cases new : a = ringSize + t
    · subst new
      rw [Nat.add_mod_left, value]
      split
      · rw [put_other (by lia), put_same]
      · rw [put_same]
    · have apart : a % ringSize ≠ t % ringSize := by lia
      have bound := Nat.mod_lt a (show 0 < ringSize by decide)
      split
      · rw [put_other (by lia), put_other apart]
        exact holds.ring a (by omega) (by omega)
      · rw [put_other apart]
        exact holds.ring a (by omega) (by omega)
  · intro a above below wrapped early
    by_cases new : a = ringSize + t
    · subst new
      rw [Nat.add_mod_left] at early ⊢
      rw [if_pos early, put_same, value]
    · have apart : a % ringSize ≠ t % ringSize := by lia
      have bound := Nat.mod_lt t (show 0 < ringSize by decide)
      split
      · rw [put_other (by lia), put_other (by lia)]
        exact holds.mirror a (by omega) (by omega) wrapped early
      · rw [put_other (by lia)]
        exact holds.mirror a (by omega) (by omega) wrapped early

theorem stream_input {k : Nat} (inside : k < bytes.length) :
    stream bytes (ringSize - lookahead + k) = bytes[k] := by
  rw [stream, if_neg (by omega), Nat.add_sub_cancel_left, List.getD_eq_getElem?_getD,
    List.getElem?_eq_getElem inside]
  rfl

theorem readOn_step (aligned : Aligned bytes t window) {i last : Nat} (more : i < last)
    (left : t + window.len < bytes.length) :
    ∃ next, readOn last (i, window) = some (.inl (i + 1, next)) ∧ Aligned bytes (t + 1) next ∧
      next.len = window.len := by
  have full : window.len = lookahead := by
    have := aligned.len
    omega
  obtain ⟨search, deletes, planted, text, registered, unplaced, gone⟩ := leave_total aligned
  have reads := aligned.reads
  rw [List.drop_eq_getElem_cons left] at reads
  obtain ⟨after, read, -, unread⟩ := Buffer.iterchar_cons reads
  have place : window.s = t % ringSize := aligned.s
  have bound := Nat.mod_lt t (show 0 < ringSize by decide)
  have held : Holds bytes t (ringSize + t) search.textBuf := by
    rw [text]
    exact holds_next aligned.holds (Nat.le_refl t) (by lia)
  have value : stream bytes (ringSize + t) = bytes[t + window.len] := by
    rw [← stream_input left]
    congr 1
    lia
  let written : SearchTree := { search with textBuf := (if t % ringSize < lookahead - 1 then
      put (put search.textBuf (t % ringSize) bytes[t + window.len]) (t % ringSize + ringSize)
        bytes[t + window.len]
    else put search.textBuf (t % ringSize) bytes[t + window.len]) }
  have plantedWritten : SearchTree.Planted written := by
    refine planted.of_agree (fun _ _ => rfl) (fun _ _ _ => rfl) ?_
    intro y node hung
    have other : y ≠ t % ringSize := by
      rintro rfl
      rw [place] at gone
      exact hung gone
    simp only [written]
    split
    · rw [put_other (by lia), put_other other]
    · rw [put_other other]
  obtain ⟨next, inserts, kept, sameText, still, short, repeats⟩ :=
    enter_total plantedWritten registered (r := (window.r + 1) % ringSize)
      (by
        rw [aligned.r]
        lia) unplaced (show window.len ≤ lookahead by omega)
      (holds_next (holds_write held value) (Nat.le_refl _) (by lia))
  refine ⟨⟨next, after, window.len, (window.s + 1) % ringSize, (window.r + 1) % ringSize⟩, ?_, ?_,
    rfl⟩
  · simp only [readOn, if_pos more, read, deletes, Option.bind_eq_bind, Option.bind_some]
    rw [place, SearchTree.setText_some (by lia), Option.bind_some]
    by_cases early : t % ringSize < lookahead - 1
    · simp only [written, if_pos early] at inserts
      rw [if_pos early, SearchTree.setText_some (by lia), Option.bind_some, inserts,
        Option.bind_some]
    · simp only [written, if_neg early] at inserts
      rw [if_neg early, inserts, Option.bind_some]
  · refine ⟨by omega, kept, ?_, ?_, ?_, ?_, ?_, still, fun _ => short, fun _ => repeats⟩
    · rwa [show t + 1 + window.len = t + window.len + 1 by omega]
    · simp only
      omega
    · simp only [aligned.r]
      lia
    · simp only [aligned.s]
      lia
    · simp only [sameText]
      exact holds_next (holds_write held value) (Nat.le_refl _) (by lia)

theorem runOut_step (aligned : Aligned bytes t window) {i last : Nat} (more : i < last)
    (ended : t + window.len = bytes.length) (positive : 0 < window.len) :
    ∃ next, runOut last (i, window) = .some (.inl (i + 1, next)) ∧ Aligned bytes (t + 1) next ∧
      next.len = window.len - 1 := by
  obtain ⟨search, deletes, planted, text, registered, unplaced, -⟩ := leave_total aligned
  have held : Holds bytes (t + 1) (ringSize - lookahead + (t + 1) + (window.len - 1))
      search.textBuf := by
    rw [text]
    exact holds_next aligned.holds (Nat.le_succ t) (by omega)
  have reads : Buffer.Reads window.inbuf (bytes.drop (t + 1 + (window.len - 1))) := by
    rw [show t + 1 + (window.len - 1) = t + window.len by omega]
    exact aligned.reads
  have len : window.len - 1 = min lookahead (bytes.length - (t + 1)) := by
    have := aligned.len
    omega
  have r : (window.r + 1) % ringSize = (ringSize - lookahead + (t + 1)) % ringSize := by
    rw [aligned.r]
    lia
  have s : (window.s + 1) % ringSize = (t + 1) % ringSize := by
    rw [aligned.s]
    lia
  by_cases done : window.len - 1 = 0
  · refine ⟨⟨search, window.inbuf, window.len - 1, (window.s + 1) % ringSize,
      (window.r + 1) % ringSize⟩, ?_, ?_, rfl⟩
    · simp only [runOut, if_pos more, deletes, done, ne_eq, not_true_eq_false, if_false,
        Option.bind_eq_bind, Option.bind_some]
    · refine ⟨by omega, planted, reads, len, r, s, held, ?_, ?_, ?_⟩
      · intro x node hung
        obtain ⟨b, low, high, same⟩ := registered x node hung
        exact ⟨b, low, by omega, same⟩
      · exact fun positive => absurd done positive.ne'
      · exact fun positive => absurd done positive.ne'
  · obtain ⟨next, inserts, kept, sameText, still, short, repeats⟩ :=
      enter_total planted registered r unplaced (by omega) held
    refine ⟨⟨next, window.inbuf, window.len - 1, (window.s + 1) % ringSize,
      (window.r + 1) % ringSize⟩, ?_, ?_, rfl⟩
    · simp only [runOut, if_pos more, deletes, ne_eq, done, not_false_eq_true, if_true, inserts,
        Option.bind_eq_bind, Option.bind_some]
    · exact ⟨by omega, kept, reads, len, r, s, sameText ▸ held, still, fun _ => short, fun _ => repeats⟩

theorem readOn_total (aligned : Aligned bytes t window) (last : Nat) :
    ∃ i next, iterate (readOn last) (last + 1) (0, window) = some (i, next) ∧ i ≤ last ∧
      Aligned bytes (t + i) next ∧ next.len = window.len ∧
      (i < last → t + i + next.len = bytes.length) := by
  have loops : ∃ result, iterate (readOn last) (last + 1) (0, window) = some result ∧
      result.1 ≤ last ∧ Aligned bytes (t + result.1) result.2 ∧ result.2.len = window.len ∧
      (result.1 < last → t + result.1 + result.2.len = bytes.length) := by
    refine iterate_total (fun left (state : Nat × Window) => left = last - state.1 ∧
      state.1 ≤ last ∧ Aligned bytes (t + state.1) state.2 ∧ state.2.len = window.len) ?_ last
      (Nat.lt_succ_self last) ⟨rfl, Nat.zero_le _, aligned, rfl⟩
    rintro left ⟨i, middle⟩ ⟨rfl, below, aligned, same⟩
    simp only at below aligned same ⊢
    by_cases more : i < last
    · have inside : t + i + middle.len ≤ bytes.length := by
        have := aligned.len
        have := aligned.begun
        omega
      rcases Nat.lt_or_eq_of_le inside with unread | ended
      · obtain ⟨next, reads, kept, len⟩ := readOn_step aligned more unread
        exact .inl ⟨(i + 1, next), reads, last - (i + 1), by omega, rfl, more, kept,
          len.trans same⟩
      · have absent := aligned.reads
        rw [List.drop_eq_nil_of_le ended.ge] at absent
        refine .inr ⟨(i, middle), ?_, below, aligned, same, fun _ => ended⟩
        simp only [readOn, if_pos more, Buffer.iterchar_nil absent]
    · exact .inr ⟨(i, middle), by simp only [readOn, if_neg more], below, aligned, same,
        fun less => absurd less more⟩
  obtain ⟨⟨i, next⟩, reads, rest⟩ := loops
  exact ⟨i, next, reads, rest⟩

theorem advance_total (aligned : Aligned bytes t window) {last : Nat} (fits : last ≤ window.len) :
    ∃ next, advance last window = some next ∧ Aligned bytes (t + last) next := by
  obtain ⟨i, middle, reads, below, aligned, same, ended⟩ := readOn_total aligned last
  have loops : ∃ next, iterate (runOut last) (last + 1) (i, middle) = some next ∧
      Aligned bytes (t + last) next := by
    refine iterate_total (fun left (state : Nat × Window) => left = last - state.1 ∧
      state.1 ≤ last ∧ Aligned bytes (t + state.1) state.2 ∧
      (state.1 < last → t + state.1 + state.2.len = bytes.length ∧
        last - state.1 ≤ state.2.len)) ?_ (last - i) (by omega)
      ⟨rfl, below, aligned, fun less => ⟨ended less, by simp only; omega⟩⟩
    rintro left ⟨i, middle⟩ ⟨rfl, below, aligned, ended⟩
    simp only at below aligned ⊢
    change i < last → t + i + middle.len = bytes.length ∧ last - i ≤ middle.len at ended
    by_cases more : i < last
    · obtain ⟨whole, enough⟩ := ended more
      obtain ⟨next, runs, kept, len⟩ := runOut_step aligned more whole (by omega)
      refine .inl ⟨(i + 1, next), runs, last - (i + 1), by omega, rfl, more, kept, ?_⟩
      intro again
      simp only
      omega
    · obtain rfl : i = last := by omega
      exact .inr ⟨middle, by simp only [runOut, if_neg more], aligned⟩
  obtain ⟨next, runs, kept⟩ := loops
  refine ⟨next, ?_, kept⟩
  simp only [advance, reads, Option.bind_eq_bind, Option.bind_some]
  exact runs

end Slide

end Window

namespace Token

/-- What the entropy coder can express. -/
def Valid : Token → Prop
  | .literal _ => True
  | .copy length position => threshold < length ∧ length ≤ lookahead ∧ position ≤ ringSize - 2

end Token

namespace DecodeState

/-- The part of `token` behind the entropy decoder. -/
def expand (token : Token) (state : DecodeState) : Option DecodeState :=
  match token with
  | .literal c => state.emit c
  | .copy length position =>
      forRange length (copyChar (((state.r : Int) - position - 1) % ringSize).toNat) state

def expandAll (tokens : List Token) (state : DecodeState) : Option DecodeState :=
  tokens.foldlM (fun state token => state.expand token) state

/-- `t` characters have been written, and the last ones of the stream are in the ring. -/
structure Written (bytes : Bytes) (t : Nat) (state : DecodeState) : Prop where
  r : state.r = (ringSize - lookahead + t) % ringSize
  ring : ∀ a, t ≤ a → a < ringSize - lookahead + t → state.textBuf (a % ringSize) = stream bytes a
  data : state.outbuf.data = bytes.take t

section Expanding

variable {bytes : Bytes} {t : Nat} {state : DecodeState}

theorem emit_written (written : Written bytes t state) (more : t < bytes.length) :
    ∃ next, state.emit bytes[t] = some next ∧ Written bytes (t + 1) next := by
  have inside : state.r < textBufSize := by
    rw [written.r]
    lia
  refine ⟨_, by rw [emit, store_some inside]; rfl, ?_, ?_, ?_⟩
  · simp only [written.r]
    lia
  · intro a above below
    simp only [written.r]
    by_cases new : a = ringSize - lookahead + t
    · rw [new, put_same, Window.stream_input more]
    · rw [put_other (by lia)]
      exact written.ring a (by omega) (by omega)
  · simp only [Buffer.addchar, written.data]
    rw [List.take_add_one, List.getElem?_eq_getElem more]
    rfl

theorem expand_literal (written : Written bytes t state) (more : t < bytes.length) :
    ∃ next, state.expand (.literal (stream bytes (ringSize - lookahead + t))) = some next ∧
      Written bytes (t + 1) next := by
  rw [Window.stream_input more]
  exact emit_written written more

theorem expand_copy (written : Written bytes t state) {length position : Nat}
    (inside : t + length ≤ bytes.length)
    (repeats : Window.Repeats bytes (ringSize - lookahead + t) length position) :
    ∃ next, state.expand (.copy length position) = some next ∧ Written bytes (t + length) next := by
  obtain ⟨near, same⟩ := repeats
  refine forRange_total (fun k next => Written bytes (t + k) next) ?_ written
  intro k middle below written'
  have place : ((((state.r : Int) - position - 1) % ringSize).toNat + k) % ringSize =
      (ringSize - lookahead + t + k - (position + 1)) % ringSize := by
    rw [written.r]
    lia
  have cell : (ringSize - lookahead + t + k - (position + 1)) % ringSize < textBufSize := by lia
  have value : middle.textBuf ((ringSize - lookahead + t + k - (position + 1)) % ringSize) =
      bytes[t + k] := by
    rw [written'.ring _ (by omega) (by omega), ← same k below, Nat.add_assoc,
      Window.stream_input (by omega)]
  obtain ⟨next, emits, kept⟩ := emit_written written' (by omega)
  refine ⟨next, ?_, kept⟩
  rw [copyChar, place, load_some cell, value]
  exact emits

theorem copy_length {count i : Nat} {next : DecodeState}
    (copies : forRange count (copyChar i) state = some next) :
    next.outbuf.data.length = state.outbuf.data.length + count := by
  induction count generalizing next with
  | zero =>
      obtain rfl := Option.some.inj copies
      rfl
  | succ count ih =>
      simp only [forRange_succ, copyChar, emit, Option.bind_eq_bind, Option.bind_eq_some_iff,
        Option.some.injEq] at copies
      obtain ⟨middle, before, c, -, textBuf, -, rfl⟩ := copies
      simp only [Buffer.addchar, List.length_append, List.length_singleton, ih before]
      omega

theorem expand_data {token : Token} {next : DecodeState} (expands : state.expand token = some next) :
    (∃ c, token = .literal c ∧ next.outbuf.data = state.outbuf.data ++ [c]) ∨
      ∃ length position, token = .copy length position ∧
        next.outbuf.data.length = state.outbuf.data.length + length := by
  cases token with
  | literal c =>
      simp only [expand, emit, Option.bind_eq_bind, Option.bind_eq_some_iff, Option.some.injEq]
        at expands
      obtain ⟨textBuf, -, rfl⟩ := expands
      exact .inl ⟨c, rfl, rfl⟩
  | copy length position => exact .inr ⟨length, position, rfl, copy_length expands⟩

theorem expandAll_cons {token : Token} {tokens : List Token} {last : DecodeState} :
    state.expandAll (token :: tokens) = some last ↔
      ∃ next, state.expand token = some next ∧ next.expandAll tokens = some last := by
  simp only [expandAll, List.foldlM_cons, Option.bind_eq_bind, Option.bind_eq_some_iff]

theorem expandAll_length {tokens : List Token} {last : DecodeState}
    (expands : state.expandAll tokens = some last) :
    state.outbuf.data.length ≤ last.outbuf.data.length := by
  induction tokens generalizing state with
  | nil =>
      obtain rfl := Option.some.inj expands
      exact Nat.le_refl _
  | cons token rest ih =>
      obtain ⟨next, first, others⟩ := expandAll_cons.mp expands
      have later := ih others
      rcases expand_data first with ⟨c, -, data⟩ | ⟨length, position, -, data⟩
      · rw [data, List.length_append] at later
        omega
      · omega

theorem expandAll_short {tokens : List Token} {last : DecodeState}
    (valid : ∀ token ∈ tokens, token.Valid) (expands : state.expandAll tokens = some last)
    (short : last.outbuf.data.length ≤ state.outbuf.data.length + threshold) :
    ∃ chars : Bytes, tokens = chars.map .literal ∧
      last.outbuf.data = state.outbuf.data ++ chars := by
  induction tokens generalizing state with
  | nil =>
      obtain rfl := Option.some.inj expands
      exact ⟨[], rfl, (List.append_nil _).symm⟩
  | cons token rest ih =>
      obtain ⟨next, first, others⟩ := expandAll_cons.mp expands
      have later := expandAll_length others
      rcases expand_data first with ⟨c, rfl, data⟩ | ⟨length, position, rfl, data⟩
      · obtain ⟨chars, rfl, all⟩ := ih (fun other listed => valid other (List.mem_cons_of_mem _ listed))
          others (by rw [data, List.length_append]; omega)
        exact ⟨c :: chars, rfl, by rw [all, data, List.append_assoc]; rfl⟩
      · have long := (valid _ (List.mem_cons_self)).1
        omega

end Expanding

end DecodeState

namespace Window

/-- Where the tokens go when nothing is coded. -/
def record (token : Token) (tokens : List Token) : Option (Option (List Token)) :=
  some (some (tokens ++ [token]))

/-- What becomes of a coder that takes these tokens. -/
def feed {σ : Type} (sink : Token → σ → Option (Option σ)) : List Token → σ → Option (Option σ)
  | [], coder => some (some coder)
  | token :: rest, coder => do
      match ← sink token coder with
      | none => some none
      | some coder => feed sink rest coder

theorem feed_record (tokens before : List Token) :
    feed record tokens before = some (some (before ++ tokens)) := by
  induction tokens generalizing before with
  | nil => rw [feed, List.append_nil]
  | cons token rest ih =>
      simp only [feed, record, Option.bind_eq_bind, Option.bind_some, ih, List.append_assoc,
        List.cons_append, List.nil_append]

def Chosen (search : SearchTree) (inbuf : Buffer) (tokens : List Token) : Prop :=
  ∃ window, start search inbuf = some window ∧
    iterate (encodeLoop record) (inbuf.data.length + 1) (window, []) = some (some tokens)

theorem Chosen.unique {search : SearchTree} {inbuf : Buffer} {tokens others : List Token}
    (chosen : Chosen search inbuf tokens) (also : Chosen search inbuf others) : tokens = others := by
  obtain ⟨window, starts, runs⟩ := chosen
  obtain ⟨_, again, same⟩ := also
  obtain rfl := Option.some.inj (starts.symm.trans again)
  exact Option.some.inj (Option.some.inj (runs.symm.trans same))

theorem encodeLoop_feeds {fuel : Nat} {window : Window} {tokens all : List Token}
    (runs : iterate (encodeLoop record) fuel (window, tokens) = some (some all)) :
    ∃ rest, all = tokens ++ rest ∧
      ∀ {σ : Type} (sink : Token → σ → Option (Option σ)) (coder : σ),
        iterate (encodeLoop sink) fuel (window, coder) = feed sink rest coder := by
  induction fuel generalizing window tokens with
  | zero => cases runs
  | succ fuel ih =>
      simp only [iterate, encodeLoop, record, Option.bind_eq_bind, Option.bind_eq_some_iff] at runs
      obtain ⟨step, ⟨⟨token, chosen⟩, chooses, recorded, same, later⟩, goes⟩ := runs
      obtain rfl := Option.some.inj same
      obtain ⟨next, advances, steps⟩ := Option.bind_eq_some_iff.mp later
      by_cases again : 0 < next.len
      · simp only [if_pos again, Option.some.injEq] at steps
        subst steps
        obtain ⟨rest, rfl, feeds⟩ := ih goes
        refine ⟨token :: rest, by simp, ?_⟩
        intro σ sink coder
        simp only [iterate, encodeLoop, chooses, Option.bind_eq_bind, Option.bind_some, feed]
        rcases sink token coder with _ | _ | after
        · rfl
        · rfl
        · simp only [Option.bind_some, advances, if_pos again]
          exact feeds sink after
      · simp only [if_neg again, Option.some.injEq] at steps
        subst steps
        cases goes
        refine ⟨[token], rfl, ?_⟩
        intro σ sink coder
        simp only [iterate, encodeLoop, chooses, Option.bind_eq_bind, Option.bind_some, feed]
        rcases sink token coder with _ | _ | after
        · rfl
        · rfl
        · simp only [Option.bind_some, advances, if_neg again]

section Tokens

variable {bytes : Bytes} {t : Nat} {window : Window}

theorem nextToken_total (aligned : Aligned bytes t window) (more : t < bytes.length) :
    ∃ token chosen, window.nextToken = some (token, chosen) ∧ token.Valid ∧
      Aligned bytes t chosen ∧ 0 < chosen.search.matchLength ∧
      chosen.search.matchLength ≤ chosen.len ∧
      ∀ state, DecodeState.Written bytes t state → ∃ next, state.expand token = some next ∧
        DecodeState.Written bytes (t + chosen.search.matchLength) next := by
  obtain ⟨begun, planted, reads, len, r, s, holds, registered, short, repeats⟩ := aligned
  have positive : 0 < window.len := by lia
  by_cases brief : min window.search.matchLength window.len ≤ threshold
  · have inside : window.r < textBufSize := by
      rw [r]
      lia
    have value : window.search.textBuf window.r = stream bytes (ringSize - lookahead + t) := by
      rw [r]
      exact holds.ring _ (by omega) (by omega)
    refine ⟨.literal (window.search.textBuf window.r),
      { window with search := { window.search with matchLength := 1 } }, ?_, trivial,
      ⟨begun, planted, reads, len, r, s, holds, registered, fun _ => by simp, ?_⟩, Nat.one_pos,
      positive, ?_⟩
    · simp only [nextToken, if_pos brief, SearchTree.getText_some inside, Option.bind_eq_bind,
        Option.bind_some]
    · intro _ wrong
      exact absurd wrong (by simp)
    · intro state written
      rw [value]
      exact DecodeState.expand_literal written more
  · have long : threshold < window.search.matchLength := by omega
    have repeated := repeats positive long
    have bounded := short positive
    refine ⟨.copy (min window.search.matchLength window.len) window.search.matchPosition,
      { window with search := { window.search with
        matchLength := min window.search.matchLength window.len } }, ?_, ⟨by omega, by omega, ?_⟩,
      ⟨begun, planted, reads, len, r, s, holds, registered, fun _ => by simp only; omega, ?_⟩, ?_,
      Nat.min_le_right _ _, ?_⟩
    · simp only [nextToken, if_neg brief]
    · have := repeated.1
      lia
    · intro _ _
      simp only
      rwa [Nat.min_eq_left (Nat.min_le_right _ _)]
    · simp only
      omega
    · intro state written
      exact DecodeState.expand_copy written (by omega) repeated

/-- The tokens up to here, and what they expand to. -/
structure Tokenized (bytes : Bytes) (t : Nat) (tokens : List Token) : Prop where
  valid : ∀ token ∈ tokens, token.Valid
  expands : ∀ state, DecodeState.Written bytes 0 state → ∃ next,
    state.expandAll tokens = some next ∧ DecodeState.Written bytes t next

theorem tokens_total (aligned : Aligned bytes t window)
    (more : t < bytes.length) {tokens : List Token} (tokenized : Tokenized bytes t tokens) :
    ∃ all, iterate (encodeLoop record) (bytes.length + 1) (window, tokens) = some (some all) ∧
      Tokenized bytes bytes.length all := by
  have loops : ∃ result, iterate (encodeLoop record) (bytes.length + 1) (window, tokens) =
      some result ∧ ∃ all, result = some all ∧ Tokenized bytes bytes.length all := by
    refine iterate_total (fun left (state : Window × List Token) => ∃ t, left = bytes.length - t ∧
      t < bytes.length ∧ Aligned bytes t state.1 ∧ Tokenized bytes t state.2) ?_
      (bytes.length - t) (by omega) ⟨t, rfl, more, aligned, tokenized⟩
    rintro left ⟨window, tokens⟩ ⟨t, rfl, more, aligned, valid, expands⟩
    obtain ⟨token, chosen, chooses, fits, aligned, some, short, steps⟩ :=
      nextToken_total aligned more
    obtain ⟨next, advances, aligned⟩ := advance_total aligned short
    have tokenized : Tokenized bytes (t + chosen.search.matchLength) (tokens ++ [token]) := by
      constructor
      · intro other listed
        rcases List.mem_append.mp listed with before | last
        · exact valid other before
        · obtain rfl := List.mem_singleton.mp last
          exact fits
      · intro state written
        obtain ⟨middle, expanded, written⟩ := expands state written
        obtain ⟨next, stepped, written⟩ := steps middle written
        refine ⟨next, ?_, written⟩
        rw [DecodeState.expandAll] at expanded ⊢
        rw [List.foldlM_append, expanded]
        simp [stepped]
    have len := aligned.len
    have begun := aligned.begun
    simp only [encodeLoop, chooses, record, advances, Option.bind_eq_bind, Option.bind_some]
    by_cases again : 0 < next.len
    · have further : t + chosen.search.matchLength < bytes.length := by omega
      refine .inl ⟨_, if_pos again, _, ?_, t + chosen.search.matchLength, rfl, further, aligned,
        tokenized⟩
      omega
    · refine .inr ⟨_, if_neg again, _, rfl, ?_⟩
      rwa [show bytes.length = t + chosen.search.matchLength by lia]
  obtain ⟨result, runs, all, rfl, tokenized⟩ := loops
  exact ⟨all, runs, tokenized⟩

end Tokens

end Window

theorem start_written {bytes : Bytes} (tree : HuffmanTree) (reader : BitReader)
    (textBuf : Nat → UInt8) (blank : ∀ i < ringSize - lookahead, textBuf i = 32) :
    DecodeState.Written bytes 0 (.start tree reader textBuf) := by
  refine ⟨rfl, ?_, rfl⟩
  rintro a - below
  have inside : a % ringSize = a := Nat.mod_eq_of_lt (by lia)
  simp only [DecodeState.start, inside, stream]
  rw [if_pos (by omega)]
  exact blank a (by omega)

/-- Whatever was in the window before, the tokens of an input stand for it. -/
theorem tokens_of_input (search : SearchTree) (inbuf : Buffer) (nonempty : inbuf.data ≠ [])
    (small : inbuf.data.length < 2 ^ 32) :
    ∃ window tokens, Window.start search inbuf = .some window ∧
      (∀ {σ : Type} (sink : Token → σ → Option (Option σ)) (coder : σ),
        iterate (Window.encodeLoop sink) (inbuf.data.length + 1) (window, coder) =
          Window.feed sink tokens coder) ∧
      Window.Tokenized inbuf.data inbuf.data.length tokens := by
  obtain ⟨window, starts, aligned⟩ := Window.start_aligned small search
  obtain ⟨tokens, runs, tokenized⟩ := Window.tokens_total aligned
    (List.length_pos_of_ne_nil nonempty)
    ⟨fun token none => absurd none (List.not_mem_nil), fun state written => ⟨state, rfl, written⟩⟩
  obtain ⟨_, rfl, feeds⟩ := Window.encodeLoop_feeds runs
  exact ⟨window, tokens, starts, feeds, tokenized⟩

theorem tokens_short {bytes : Bytes} {tokens : List Token}
    (tokenized : Window.Tokenized bytes bytes.length tokens) (short : bytes.length ≤ threshold) :
    tokens = bytes.map .literal := by
  obtain ⟨last, expands, written⟩ := tokenized.expands _
    (start_written ⟨id, id, id⟩ ⟨.new, 0, 0, 0⟩ (fun _ => 32) fun _ _ => rfl)
  have data : last.outbuf.data = bytes := written.data.trans List.take_length
  obtain ⟨chars, rfl, all⟩ := DecodeState.expandAll_short tokenized.valid expands (by
    rw [data]
    exact short.trans (Nat.le_add_left _ _))
  rw [← data, all]
  rfl

theorem encode_feeds (search : SearchTree) (inbuf : Buffer) (nonempty : inbuf.data ≠ [])
    (small : inbuf.data.length < 2 ^ 32) :
    ∃ tokens, Window.Chosen search inbuf tokens ∧
      Window.Tokenized inbuf.data inbuf.data.length tokens ∧ ∀ tree : HuffmanTree,
      encode tree search inbuf = tree.startHuff.bind fun started =>
        (Window.feed EntropyCoder.encodeToken tokens
          { tree := started, writer := putSize inbuf.data.length }).map
            (Option.map EntropyCoder.encodeEnd) := by
  obtain ⟨window, tokens, starts, runs, tokenized⟩ := tokens_of_input search inbuf nonempty small
  have chosen : Window.Chosen search inbuf tokens :=
    ⟨window, starts, (runs Window.record []).trans (Window.feed_record tokens [])⟩
  refine ⟨tokens, chosen, tokenized, fun tree => ?_⟩
  have whole : inbuf.data.length % 2 ^ 32 = inbuf.data.length := Nat.mod_eq_of_lt small
  have more : inbuf.data.length ≠ 0 := fun empty => nonempty (List.length_eq_zero_iff.mp empty)
  simp only [encode, whole, if_neg more, starts, Option.bind_eq_bind, Option.bind_some, runs]
  refine congrArg (Option.bind tree.startHuff) (funext fun started => ?_)
  rcases Window.feed EntropyCoder.encodeToken tokens
    { tree := started, writer := putSize inbuf.data.length } with _ | _ | coder <;> rfl

/-- The main loop ends when what takes its tokens lets it, each token is a literal or a pair
in range, and the decoder's rule makes the input of them and no more. -/
theorem lzss_correct (search : SearchTree) (inbuf : Buffer) (nonempty : inbuf.data ≠ [])
    (small : inbuf.data.length < 2 ^ 32) (tree : HuffmanTree) (reader : BitReader)
    (textBuf : Nat → UInt8) :
    ∃ window tokens blank last, Window.start search inbuf = .some window ∧
      (∀ (σ : Type) (sink : Token → σ → Option (Option σ)) (coder : σ),
        iterate (Window.encodeLoop sink) (inbuf.data.length + 1) (window, coder) =
          Window.feed sink tokens coder) ∧
      (∀ token ∈ tokens, token.Valid) ∧
      forRange (ringSize - lookahead) fillBlank textBuf = .some blank ∧
      (DecodeState.start tree reader blank).expandAll tokens = .some last ∧
      last.outbuf.data = inbuf.data := by
  obtain ⟨window, tokens, starts, runs, valid, expands⟩ := tokens_of_input search inbuf nonempty small
  obtain ⟨blank, fills, blanks, -⟩ :=
    fillBlank_total textBuf (show ringSize - lookahead ≤ textBufSize by lia)
  obtain ⟨last, expanded, written⟩ := expands _ (start_written tree reader blank blanks)
  exact ⟨window, tokens, blank, last, starts, fun _ => runs, valid, fills, expanded,
    written.data.trans List.take_length⟩

theorem lzss_correct_sample : ∃ window tokens blank last,
    Window.start ⟨fun _ => 7, id, id, id, 0, 0⟩ ⟨[97, 98, 97, 98, 97], 0⟩ = some window ∧
      (∀ (σ : Type) (sink : Token → σ → Option (Option σ)) (coder : σ),
        iterate (Window.encodeLoop sink) 6 (window, coder) = Window.feed sink tokens coder) ∧
      (∀ token ∈ tokens, token.Valid) ∧
      forRange (ringSize - lookahead) fillBlank (fun _ => 7) = some blank ∧
      (DecodeState.start ⟨id, id, id⟩ ⟨.new, 0, 0, 0⟩ blank).expandAll tokens = some last ∧
      last.outbuf.data = [97, 98, 97, 98, 97] :=
  lzss_correct ⟨fun _ => 7, id, id, id, 0, 0⟩ ⟨[97, 98, 97, 98, 97], 0⟩ (by decide) (by decide)
    ⟨id, id, id⟩ ⟨.new, 0, 0, 0⟩ fun _ => 7

theorem encode_pair (tree : HuffmanTree) (search : SearchTree) (first second : UInt8) :
    encode tree search ⟨[first, second], 0⟩ = tree.startHuff.bind fun started =>
      (Window.feed EntropyCoder.encodeToken [.literal first, .literal second]
        { tree := started, writer := putSize 2 }).map (Option.map EntropyCoder.encodeEnd) := by
  obtain ⟨tokens, -, tokenized, encodes⟩ :=
    encode_feeds search ⟨[first, second], 0⟩ (List.cons_ne_nil _ _) (by decide : 2 < 2 ^ 32)
  have literals : tokens = [.literal first, .literal second] :=
    tokens_short tokenized (by decide : 2 ≤ threshold)
  rw [encodes, literals]
  rfl

end PaclinkUnix
