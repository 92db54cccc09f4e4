import PaclinkUnix.Text

/-!
The growing byte buffer, `buffer.c`. Its read index is an `unsigned int`, so it wraps
at 2^32 while the length does not: reading a buffer of that size never meets its end.
Loops that read a buffer take fuel, and `none` is a loop that has not ended yet.
-/

namespace PaclinkUnix

structure Buffer where
  data : Bytes
  i : Nat
  deriving DecidableEq, Repr

namespace Buffer

def new : Buffer := ⟨[], 0⟩

def addchar (b : Buffer) (c : UInt8) : Buffer := { b with data := b.data ++ [c] }

def addstring (b : Buffer) (s : Bytes) : Buffer := { b with data := b.data ++ s }

def rewind (b : Buffer) : Buffer := { b with i := 0 }

def indexRange : Nat := 2 ^ 32

/-- `none` is EOF. -/
def iterchar (b : Buffer) : Option UInt8 × Buffer :=
  match b.data[b.i]? with
  | none => (none, b)
  | some c => (some c, { b with i := (b.i + 1) % indexRange })

/-- The loop of `buffer_getline`, from a character already read. -/
def takeLine (terminator : UInt8) : Nat → UInt8 → Buffer → Option (Bytes × Buffer)
  | 0, _, _ => none
  | fuel + 1, c, b =>
      if c = terminator then some ([c], b)
      else
        match iterchar b with
        | (none, b) => some ([c], b)
        | (some next, b) => do
            let (line, b) ← takeLine terminator fuel next b
            some (c :: line, b)

def getline (terminator : UInt8) (fuel : Nat) (b : Buffer) : Option (Option Bytes × Buffer) :=
  match iterchar b with
  | (none, b) => some (none, b)
  | (some c, b) => do
      let (line, b) ← takeLine terminator fuel c b
      some (some (cstring line), b)

def drain : Nat → Buffer → Option Bytes
  | 0, _ => none
  | fuel + 1, b =>
      match iterchar b with
      | (none, _) => some []
      | (some c, b) => do
          let rest ← drain fuel b
          some (c :: rest)

def addbuf (fuel : Nat) (b s : Buffer) : Option Buffer := do
  let added ← drain fuel s.rewind
  some (b.addstring added)

/-- The line at the front, with its terminator if it has one, and what follows it. -/
def splitLine (terminator : UInt8) : Bytes → Bytes × Bytes
  | [] => ([], [])
  | c :: rest =>
      if c = terminator then ([c], rest)
      else
        let (line, rest) := splitLine terminator rest
        (c :: line, rest)

/-- A buffer below the index range, with this much of it still unread. -/
structure Reads (b : Buffer) (rest : Bytes) : Prop where
  small : b.data.length < indexRange
  inside : b.i ≤ b.data.length
  left : b.data.drop b.i = rest

/-- A buffer whose end is out of the index's reach. -/
structure Endless (b : Buffer) : Prop where
  large : indexRange ≤ b.data.length
  inside : b.i < indexRange

theorem reads_rewind {b : Buffer} (small : b.data.length < indexRange) :
    Reads b.rewind b.data :=
  ⟨small, Nat.zero_le _, rfl⟩

theorem endless_rewind {b : Buffer} (large : indexRange ≤ b.data.length) : Endless b.rewind :=
  ⟨large, (by decide : 0 < indexRange)⟩

theorem iterchar_nil {b : Buffer} (reads : Reads b []) : iterchar b = (none, b) := by
  have ended : b.data.length ≤ b.i := List.drop_eq_nil_iff.mp reads.left
  rw [iterchar, List.getElem?_eq_none ended]

theorem iterchar_cons {b : Buffer} {c : UInt8} {rest : Bytes} (reads : Reads b (c :: rest)) :
    ∃ after, iterchar b = (some c, after) ∧ after.data = b.data ∧ Reads after rest := by
  obtain ⟨small, inside, left⟩ := reads
  have here : b.data[b.i]? = some c := by
    have first := congrArg List.head? left
    rwa [List.head?_drop] at first
  have bound : b.i < b.data.length := (List.getElem?_eq_some_iff.mp here).1
  have unwrapped : (b.i + 1) % indexRange = b.i + 1 := Nat.mod_eq_of_lt (by omega)
  refine ⟨{ b with i := b.i + 1 }, ?_, rfl, small, bound, ?_⟩
  · rw [iterchar, here, unwrapped]
  · have later := congrArg List.tail left
    rwa [List.tail_drop] at later

theorem iterchar_endless {b : Buffer} (endless : Endless b) :
    ∃ c after, iterchar b = (some c, after) ∧ Endless after := by
  obtain ⟨large, inside⟩ := endless
  have bound : b.i < b.data.length := by omega
  refine ⟨b.data[b.i], { b with i := (b.i + 1) % indexRange }, ?_, large, ?_⟩
  · rw [iterchar, List.getElem?_eq_getElem bound]
  · exact Nat.mod_lt _ (by decide)

theorem splitLine_length (terminator : UInt8) (text : Bytes) :
    (splitLine terminator text).1 ++ (splitLine terminator text).2 = text := by
  induction text with
  | nil => rfl
  | cons c rest ih =>
      rw [splitLine]
      split
      · rfl
      · simpa using ih

theorem splitLine_pos (terminator : UInt8) {text : Bytes} (nonempty : text ≠ []) :
    0 < (splitLine terminator text).1.length := by
  cases text with
  | nil => exact absurd rfl nonempty
  | cons c rest =>
      rw [splitLine]
      split <;> simp

theorem takeLine_reads (terminator : UInt8) (fuel : Nat) (c : UInt8) (b : Buffer) (rest : Bytes)
    (reads : Reads b rest) (enough : rest.length < fuel) :
    ∃ after, takeLine terminator fuel c b =
        some ((splitLine terminator (c :: rest)).1, after) ∧ after.data = b.data ∧
      Reads after (splitLine terminator (c :: rest)).2 := by
  induction fuel generalizing c b rest with
  | zero => omega
  | succ fuel ih =>
      rw [takeLine, splitLine]
      by_cases ended : c = terminator
      · rw [if_pos ended, if_pos ended]
        exact ⟨b, rfl, rfl, reads⟩
      · rw [if_neg ended, if_neg ended]
        cases rest with
        | nil =>
            rw [iterchar_nil reads]
            exact ⟨b, rfl, rfl, reads⟩
        | cons next rest =>
            obtain ⟨middle, read, same, left⟩ := iterchar_cons reads
            obtain ⟨after, taken, data, unread⟩ := ih next middle rest left
              (by simpa using enough)
            rw [read]
            refine ⟨after, ?_, data.trans same, unread⟩
            simp only [taken, Option.bind_eq_bind, Option.bind_some]

theorem getline_reads (terminator : UInt8) (fuel : Nat) (b : Buffer) (text : Bytes)
    (reads : Reads b text) (nonempty : text ≠ []) (enough : text.length ≤ fuel) :
    ∃ after, getline terminator fuel b =
        .some (.some (cstring (splitLine terminator text).1), after) ∧ after.data = b.data ∧
      Reads after (splitLine terminator text).2 := by
  cases text with
  | nil => exact absurd rfl nonempty
  | cons c rest =>
      obtain ⟨middle, read, same, left⟩ := iterchar_cons reads
      obtain ⟨after, taken, data, unread⟩ := takeLine_reads terminator fuel c middle rest left
        (by simpa using enough)
      refine ⟨after, ?_, data.trans same, unread⟩
      rw [getline, read]
      simp only [taken, Option.bind_eq_bind, Option.bind_some]

theorem getline_nil (terminator : UInt8) (fuel : Nat) (b : Buffer) (reads : Reads b []) :
    getline terminator fuel b = some (none, b) := by
  rw [getline, iterchar_nil reads]

/-- With any fuel, a line that was read is the line at the front. -/
theorem takeLine_some {terminator : UInt8} {fuel : Nat} {c : UInt8} {b after : Buffer}
    {line rest : Bytes} (reads : Reads b rest)
    (taken : takeLine terminator fuel c b = some (line, after)) :
    line = (splitLine terminator (c :: rest)).1 ∧
      Reads after (splitLine terminator (c :: rest)).2 := by
  induction fuel generalizing c b line rest with
  | zero => cases taken
  | succ fuel ih =>
      rw [takeLine] at taken
      rw [splitLine]
      by_cases ended : c = terminator
      · rw [if_pos ended] at taken ⊢
        cases taken
        exact ⟨rfl, reads⟩
      · rw [if_neg ended] at taken ⊢
        cases rest with
        | nil =>
            rw [iterchar_nil reads] at taken
            cases taken
            exact ⟨rfl, reads⟩
        | cons next rest =>
            obtain ⟨middle, read, -, left⟩ := iterchar_cons reads
            simp only [read, Option.bind_eq_bind, Option.bind_eq_some_iff] at taken
            obtain ⟨⟨more, last⟩, found, same⟩ := taken
            cases same
            obtain ⟨rfl, unread⟩ := ih left found
            exact ⟨rfl, unread⟩

theorem getline_some {terminator : UInt8} {fuel : Nat} {b after : Buffer} {line : Option Bytes}
    {text : Bytes} (reads : Reads b text) (nonempty : text ≠ [])
    (read : getline terminator fuel b = .some (line, after)) :
    line = .some (cstring (splitLine terminator text).1) ∧
      Reads after (splitLine terminator text).2 := by
  cases text with
  | nil => exact absurd rfl nonempty
  | cons c rest =>
      obtain ⟨middle, first, -, left⟩ := iterchar_cons reads
      simp only [getline, first, Option.bind_eq_bind, Option.bind_eq_some_iff] at read
      obtain ⟨⟨taken, last⟩, found, same⟩ := read
      cases same
      obtain ⟨rfl, unread⟩ := takeLine_some left found
      exact ⟨rfl, unread⟩

theorem takeLine_endless {terminator : UInt8} {fuel : Nat} {c : UInt8} {b after : Buffer}
    {line : Bytes} (endless : Endless b)
    (taken : takeLine terminator fuel c b = some (line, after)) : Endless after := by
  induction fuel generalizing c b line with
  | zero => cases taken
  | succ fuel ih =>
      rw [takeLine] at taken
      by_cases ended : c = terminator
      · rw [if_pos ended] at taken
        cases taken
        exact endless
      · obtain ⟨next, middle, read, later⟩ := iterchar_endless endless
        simp only [if_neg ended, read, Option.bind_eq_bind, Option.bind_eq_some_iff] at taken
        obtain ⟨⟨rest, last⟩, found, same⟩ := taken
        cases same
        exact ih later found

/-- Past the index range a line may end, but the buffer does not. -/
theorem getline_endless {terminator : UInt8} {fuel : Nat} {b after : Buffer}
    {line : Option Bytes} (endless : Endless b)
    (read : getline terminator fuel b = some (line, after)) :
    line.isSome = true ∧ Endless after := by
  obtain ⟨c, middle, first, later⟩ := iterchar_endless endless
  simp only [getline, first, Option.bind_eq_bind, Option.bind_eq_some_iff] at read
  obtain ⟨⟨rest, last⟩, taken, same⟩ := read
  cases same
  exact ⟨rfl, takeLine_endless later taken⟩

theorem drain_reads (fuel : Nat) (b : Buffer) (rest : Bytes) (reads : Reads b rest)
    (enough : rest.length < fuel) : drain fuel b = some rest := by
  induction fuel generalizing b rest with
  | zero => omega
  | succ fuel ih =>
      rw [drain]
      cases rest with
      | nil => rw [iterchar_nil reads]
      | cons c rest =>
          obtain ⟨after, read, -, left⟩ := iterchar_cons reads
          rw [read]
          simp [ih after rest left (by simpa using enough)]

theorem drain_endless (fuel : Nat) (b : Buffer) (endless : Endless b) : drain fuel b = none := by
  induction fuel generalizing b with
  | zero => rfl
  | succ fuel ih =>
      obtain ⟨c, after, read, later⟩ := iterchar_endless endless
      rw [drain, read]
      simp [ih after later]

theorem drain_rewind {fuel : Nat} {s : Buffer} {data : Bytes}
    (drained : drain fuel s.rewind = some data) : data = s.data ∧ s.data.length < indexRange := by
  have left : ∀ fuel b rest data, Reads b rest → drain fuel b = some data → data = rest := by
    intro fuel
    induction fuel with
    | zero =>
        intro b rest data _ drained
        cases drained
    | succ fuel ih =>
        intro b rest data reads drained
        rw [drain] at drained
        cases rest with
        | nil =>
            rw [iterchar_nil reads] at drained
            cases drained
            rfl
        | cons c rest =>
            obtain ⟨after, read, -, unread⟩ := iterchar_cons reads
            simp only [read, Option.bind_eq_bind, Option.bind_eq_some_iff] at drained
            obtain ⟨tail, found, same⟩ := drained
            cases same
            rw [ih after rest tail unread found]
  by_cases small : s.data.length < indexRange
  · exact ⟨left fuel _ _ _ (reads_rewind small) drained, small⟩
  · rw [drain_endless fuel _ (endless_rewind (by omega))] at drained
    cases drained

theorem addbuf_small {fuel : Nat} {b s : Buffer} (small : s.data.length < indexRange)
    (enough : s.data.length < fuel) : addbuf fuel b s = some (b.addstring s.data) := by
  rw [addbuf, drain_reads fuel s.rewind s.data (reads_rewind small) enough]
  rfl

end Buffer

open Buffer

def linesOf : Bytes → List Bytes
  | [] => []
  | c :: rest =>
      if c = lineFeed then [c] :: linesOf rest
      else
        match linesOf rest with
        | [] => [[c]]
        | line :: lines => (c :: line) :: lines

theorem linesOf_splitLine {text : Bytes} (nonempty : text ≠ []) :
    linesOf text = (splitLine lineFeed text).1 :: linesOf (splitLine lineFeed text).2 := by
  induction text with
  | nil => exact absurd rfl nonempty
  | cons c rest ih =>
      rw [linesOf, splitLine]
      split
      · rfl
      · cases rest with
        | nil => rfl
        | cons next rest => rw [ih (by simp)]

theorem linesOf_flatten (text : Bytes) : (linesOf text).flatten = text := by
  induction text with
  | nil => rfl
  | cons char text ih =>
      rw [linesOf]
      split
      · rw [List.flatten_cons, ih]
        rfl
      · cases lines : linesOf text with
        | nil =>
            rw [lines] at ih
            rw [← ih]
            rfl
        | cons line rest =>
            rw [lines] at ih
            rw [← ih]
            rfl

theorem linesOf_feed {text : Bytes} (plain : ∀ char ∈ text, char ≠ lineFeed) (rest : Bytes) :
    linesOf (text ++ 10 :: rest) = (text ++ [10]) :: linesOf rest := by
  induction text with
  | nil => rfl
  | cons char text ih =>
      rw [List.cons_append, linesOf, if_neg (plain char (List.mem_cons_self ..)),
        ih fun other member => plain other (List.mem_cons_of_mem _ member)]
      rfl

end PaclinkUnix
