import PaclinkUnix.Framing

/-!
`getcompressed` with its two character arrays, and the grammar of what it accepts.
-/

namespace PaclinkUnix

inductive Stop where
  | lostConnection
  | outOfBounds
  | outOfFuel
  deriving DecidableEq, Repr

def orLost {α : Type} : Option α → Except Stop α
  | some value => .ok value
  | none => .error .lostConnection

def storeAt {size : Nat} (cells : Vector UInt8 size) (i : Nat) (char : UInt8) :
    Except Stop (Vector UInt8 size) :=
  if inside : i < size then .ok (cells.set i char) else .error .outOfBounds

/-- `left` more bytes from index `i` on. -/
def fillField {size : Nat} : Nat → Nat → Int → Vector UInt8 size → Bytes →
    Except Stop (Vector UInt8 size × Int × Bytes)
  | 0, _, len, cells, input => .ok (cells, len, input)
  | left + 1, i, len, cells, input => do
      let (char, rest) ← orLost (getrawchar input)
      let len := len - 1
      let cells ← storeAt cells i char
      if char = chrNul then .ok (cells, len + 1, input)
      else fillField left (i + 1) len cells rest

def fillBlocks : Nat → Bytes → Nat → Bytes → Except Stop (Option Bytes × Bytes)
  | 0, _, _, _ => .error .outOfFuel
  | fuel + 1, buffer, cksum, input => do
      let (char, input) ← orLost (getrawchar input)
      if char = chrStx then
        let (len, input) ← orLost (getrawchar input)
        let len := if len = 0 then 256 else len.toNat
        let (buffer, cksum, input) ← orLost (readData len buffer cksum input)
        fillBlocks fuel buffer cksum input
      else if char = chrEot then
        let (char, input) ← orLost (getrawchar input)
        if (cksum + char.toNat) % 256 ≠ 0 then .ok (none, input) else .ok (some buffer, input)
      else .ok (none, input)

/-- `getcompressed` from any contents of its arrays. -/
def receiveFrame (title : Vector UInt8 81) (offset : Vector UInt8 7) (input : Bytes) :
    Except Stop (Option Bytes × Bytes) := do
  let (char, input) ← orLost (getrawchar input)
  if char ≠ chrSoh then .ok (none, input) else
  let (len, input) ← orLost (getrawchar input)
  let title ← storeAt title 80 0
  let (_title, len, input) ← fillField 80 0 len.toNat title input
  let (char, input) ← orLost (getrawchar input)
  let len := len - 1
  if char ≠ chrNul then .ok (none, input) else
  let offset ← storeAt offset 6 0
  let (offset, len, input) ← fillField 6 0 len offset input
  let (char, input) ← orLost (getrawchar input)
  let len := len - 1
  if char ≠ chrNul then .ok (none, input)
  else if len ≠ 0 then .ok (none, input)
  else if cstring offset.toList ≠ ascii "0" then .ok (none, input)
  else fillBlocks (input.length + 1) [] 0 input

section Cells

variable {size : Nat}

theorem orLost_bind {α β : Type} {first : Option α} {next : α → Except Stop β}
    {also : α → Option β} (same : ∀ value, first = some value → next value = orLost (also value)) :
    (orLost first >>= next) = orLost (first >>= also) := by
  cases first with
  | none => rfl
  | some value => exact same value rfl

theorem storeAt_inside {i : Nat} (cells : Vector UInt8 size) (char : UInt8) (inside : i < size) :
    storeAt cells i char = .ok (cells.set i char) := dif_pos inside

theorem getrawchar_some {input rest : Bytes} {char : UInt8}
    (read : getrawchar input = some (char, rest)) : input = char :: rest := by
  cases input with
  | nil => cases read
  | cons first input =>
      cases read
      rfl

/-- The loop stores what the list reader returns, and a NUL behind it. -/
theorem fillField_reads (left i : Nat) (len : Int) (cells : Vector UInt8 size) (input : Bytes)
    (inside : i + left < size) (terminated : cells.toList[i + left]? = some 0) :
    match readField left len input with
    | none => fillField left i len cells input = .error .lostConnection
    | some (text, after, rest) => ∃ filled : Vector UInt8 size,
        fillField left i len cells input = .ok (filled, after, rest) ∧
        cstring (filled.toList.drop i) = text ∧
        ∀ j < i, filled.toList[j]? = cells.toList[j]? := by
  induction left generalizing i len cells input with
  | zero =>
      refine ⟨cells, rfl, ?_, fun _ _ => rfl⟩
      obtain ⟨bound, zero⟩ := List.getElem?_eq_some_iff.mp terminated
      rw [Nat.add_zero] at bound
      rw [List.drop_eq_getElem_cons bound, show cells.toList[i] = 0 from zero]
      rfl
  | succ left ih =>
      cases input with
      | nil => rfl
      | cons char input =>
          rw [readField]
          have store := storeAt_inside cells char (show i < size by omega)
          have step : fillField (left + 1) i len cells (char :: input) =
              if char = chrNul then .ok (cells.set i char, len - 1 + 1, char :: input)
              else fillField left (i + 1) (len - 1) (cells.set i char) input := by
            rw [fillField, getrawchar]
            change (storeAt cells i char >>= _) = _
            rw [store]
            rfl
          have length : (cells.set i char).toList.length = size := by simp
          by_cases nul : char = chrNul
          · rw [if_pos nul]
            refine ⟨cells.set i char, ?_, ?_, ?_⟩
            · rw [step, if_pos nul]
            · rw [List.drop_eq_getElem_cons (by simp; omega)]
              simp [nul, chrNul, cstring]
            · intro j before
              rw [Vector.toList_set, List.getElem?_set_ne (by omega)]
          · rw [if_neg nul, step, if_neg nul]
            have kept : (cells.set i char).toList[i + 1 + left]? = some 0 := by
              rw [Vector.toList_set, List.getElem?_set_ne (by omega), ← terminated]
              congr 1
              omega
            have later := ih (i + 1) (len - 1) (cells.set i char) input (by omega) kept
            rcases read : readField left (len - 1) input with _ | ⟨text, after, rest⟩
            · rw [read] at later
              exact later
            · rw [read] at later
              obtain ⟨filled, fills, text, start⟩ := later
              refine ⟨filled, fills, ?_, ?_⟩
              · have here : filled.toList[i]? = some char := by
                  rw [start i (by omega), Vector.toList_set, List.getElem?_set_self (by simp; omega)]
                obtain ⟨bound, same⟩ := List.getElem?_eq_some_iff.mp here
                rw [List.drop_eq_getElem_cons bound, same, cstring, List.takeWhile_cons_of_pos
                  (by simpa [chrNul] using nul)]
                exact congrArg _ text
              · intro j before
                rw [start j (by omega), Vector.toList_set, List.getElem?_set_ne (by omega)]

theorem fillField_bind {β : Type} {limit : Nat} {len : Int} {cells : Vector UInt8 size}
    {input : Bytes} {next : Vector UInt8 size × Int × Bytes → Except Stop β}
    {also : Bytes × Int × Bytes → Option β} (inside : limit < size)
    (same : ∀ (filled : Vector UInt8 size) after rest,
      next (filled, after, rest) = orLost (also (cstring filled.toList, after, rest))) :
    (storeAt cells limit 0 >>= fun cells => fillField limit 0 len cells input >>= next) =
      orLost (readField limit len input >>= also) := by
  have reads := fillField_reads limit 0 len (cells.set limit 0) input (by omega)
    (by rw [Nat.zero_add, Vector.toList_set, List.getElem?_set_self (by simpa using inside)])
  rw [storeAt_inside cells 0 inside]
  change (fillField limit 0 len (cells.set limit 0) input >>= next) = _
  rcases read : readField limit len input with _ | ⟨text, after, rest⟩
  · rw [read] at reads
    rw [reads]
    rfl
  · rw [read] at reads
    obtain ⟨filled, fills, text, -⟩ := reads
    rw [fills, ← text]
    exact same filled after rest

theorem fillBlocks_reads (fuel : Nat) (buffer : Bytes) (cksum : Nat) (input : Bytes)
    (enough : input.length < fuel) :
    fillBlocks fuel buffer cksum input = orLost (readBlocks fuel buffer cksum input) := by
  induction fuel generalizing buffer cksum input with
  | zero => omega
  | succ fuel ih =>
      rw [fillBlocks, readBlocks]
      refine orLost_bind ?_
      rintro ⟨char, input₁⟩ first
      have shorter := congrArg List.length (getrawchar_some first)
      simp only
      split
      · refine orLost_bind ?_
        rintro ⟨len, input₂⟩ second
        refine orLost_bind ?_
        rintro ⟨buffer, cksum, input₃⟩ data
        have behind := congrArg List.length (getrawchar_some second)
        have left : input₃.length ≤ input₂.length := (readData_suffix data).length_le
        refine ih _ _ _ ?_
        change input₃.length < fuel
        rw [List.length_cons] at shorter behind
        omega
      · split
        · refine orLost_bind ?_
          rintro ⟨last, input₂⟩ -
          simp only
          split <;> rfl
        · rfl

theorem receiveFrame_eq (title : Vector UInt8 81) (offset : Vector UInt8 7) (input : Bytes) :
    receiveFrame title offset input = orLost (getcompressed input) := by
  rw [receiveFrame, getcompressed]
  refine orLost_bind ?_
  rintro ⟨soh, input⟩ -
  simp only
  split
  · rfl
  refine orLost_bind ?_
  rintro ⟨len, input⟩ -
  refine fillField_bind (by decide) ?_
  intro title len input
  refine orLost_bind ?_
  rintro ⟨nul, input⟩ -
  simp only
  split
  · rfl
  refine fillField_bind (by decide) ?_
  intro offset len input
  refine orLost_bind ?_
  rintro ⟨nul, input⟩ -
  simp only
  split
  · rfl
  · split
    · rfl
    · split
      · rfl
      · exact fillBlocks_reads _ _ _ _ (Nat.lt_succ_self _)

end Cells

/-- A block as it is sent: the byte for its length and its data. -/
structure Block where
  size : UInt8
  data : Bytes
  fits : data.length = if size = 0 then 256 else size.toNat

def Block.bytes (block : Block) : Bytes := chrStx :: block.size :: block.data

def blocksBytes (blocks : List Block) : Bytes := (blocks.map Block.bytes).flatten
def blocksData (blocks : List Block) : Bytes := (blocks.map Block.data).flatten

def IsFrame (raw data : Bytes) : Prop :=
  ∃ (title : Bytes) (len : UInt8) (blocks : List Block) (last : UInt8),
    raw = chrSoh :: len :: (title ++ chrNul :: 48 :: chrNul ::
      (blocksBytes blocks ++ [chrEot, last])) ∧
    title.length ≤ 80 ∧ (∀ char ∈ title, char ≠ 0) ∧ len.toNat = title.length + 3 ∧
    blocksData blocks = data ∧ (byteSum data + last.toNat) % 256 = 0

section Grammar

variable {limit : Nat} {len after : Int} {input text rest : Bytes}

theorem readField_some (read : readField limit len input = some (text, after, rest)) :
    input = text ++ rest ∧ text.length ≤ limit ∧ (∀ char ∈ text, char ≠ 0) ∧
      after = len - text.length := by
  induction limit generalizing len input text with
  | zero =>
      cases read
      simp
  | succ limit ih =>
      cases input with
      | nil => cases read
      | cons char input =>
          rw [readField] at read
          split at read
          · cases read
            simp
          · rename_i notNul
            simp only [Option.bind_eq_bind, Option.bind_eq_some_iff, Prod.exists] at read
            obtain ⟨more, left, behind, inner, same⟩ := read
            cases same
            obtain ⟨rfl, short, plain, count⟩ := ih inner
            refine ⟨rfl, by simpa using short, ?_, ?_⟩
            · intro other member
              rcases List.mem_cons.mp member with rfl | later
              · exact notNul
              · exact plain other later
            · rw [List.length_cons, count]
              omega

theorem byteSum_append (first second : Bytes) :
    byteSum (first ++ second) = byteSum first + byteSum second := by
  simp [byteSum]

theorem readData_some {count sum cksum : Nat} {buffer filled : Bytes} (start : cksum = byteSum buffer % 256)
    (read : readData count buffer cksum input = some (filled, sum, rest)) :
    ∃ data, data.length = count ∧ input = data ++ rest ∧ filled = buffer ++ data ∧
      sum = byteSum filled % 256 := by
  induction count generalizing buffer cksum input with
  | zero =>
      cases read
      exact ⟨[], rfl, rfl, by simp, start⟩
  | succ count ih =>
      simp only [readData, Option.bind_eq_bind, Option.bind_eq_some_iff, Prod.exists] at read
      obtain ⟨char, behind, first, later⟩ := read
      obtain rfl := getrawchar_some first
      have next : (cksum + char.toNat) % 256 = byteSum (buffer ++ [char]) % 256 := by
        rw [start, byteSum_append]
        simp [byteSum]
      obtain ⟨data, length, rfl, rfl, sums⟩ := ih next later
      exact ⟨char :: data, by simp [length], rfl, by simp, sums⟩

theorem readBlocks_some {fuel cksum : Nat} {buffer data : Bytes}
    (start : cksum = byteSum buffer % 256)
    (read : readBlocks fuel buffer cksum input = some (some data, rest)) :
    ∃ blocks last, input = blocksBytes blocks ++ chrEot :: last :: rest ∧
      data = buffer ++ blocksData blocks ∧ (byteSum data + last.toNat) % 256 = 0 := by
  induction fuel generalizing buffer cksum input with
  | zero => cases read
  | succ fuel ih =>
      simp only [readBlocks, Option.bind_eq_bind, Option.bind_eq_some_iff, Prod.exists] at read
      obtain ⟨char, input, first, read⟩ := read
      obtain rfl := getrawchar_some first
      split at read
      · rename_i isStx
        simp only [Option.bind_eq_some_iff, Prod.exists] at read
        obtain ⟨size, input, second, filled, sum, input, block, later⟩ := read
        obtain rfl := getrawchar_some second
        obtain ⟨content, fits, rfl, rfl, sums⟩ := readData_some start block
        obtain ⟨blocks, last, rfl, rfl, right⟩ := ih sums later
        refine ⟨⟨size, content, fits⟩ :: blocks, last, ?_, ?_, right⟩
        · simp [blocksBytes, Block.bytes, isStx]
        · simp [blocksData]
      · split at read
        · rename_i isEot
          simp only [Option.bind_eq_some_iff, Prod.exists] at read
          obtain ⟨last, input, second, read⟩ := read
          obtain rfl := getrawchar_some second
          split at read
          · cases read
          · rename_i right
            cases read
            refine ⟨[], last, ?_, by simp [blocksData], ?_⟩
            · simp [blocksBytes, isEot]
            · rw [start] at right
              omega
        · cases read

theorem readBlocks_blocks (blocks : List Block) (last : UInt8) (rest buffer : Bytes) (fuel : Nat)
    (enough : blocks.length < fuel)
    (right : (byteSum (buffer ++ blocksData blocks) + last.toNat) % 256 = 0) :
    readBlocks fuel buffer (byteSum buffer % 256) (blocksBytes blocks ++ chrEot :: last :: rest) =
      some (some (buffer ++ blocksData blocks), rest) := by
  induction blocks generalizing buffer fuel with
  | nil =>
      obtain ⟨fuel, rfl⟩ : ∃ less, fuel = less + 1 := ⟨fuel - 1, by simp at enough; omega⟩
      have sum : (byteSum buffer + last.toNat) % 256 = 0 := by simpa [blocksData] using right
      have notStx : chrEot ≠ chrStx := by decide
      simp [blocksBytes, blocksData, readBlocks, getrawchar, notStx, sum]
  | cons block blocks ih =>
      obtain ⟨fuel, rfl⟩ : ∃ less, fuel = less + 1 := ⟨fuel - 1, by simp at enough; omega⟩
      have data := readData_chunk block.data buffer (byteSum buffer)
        (blocksBytes blocks ++ chrEot :: last :: rest)
      rw [block.fits, ← byteSum_append] at data
      have content : blocksData (block :: blocks) = block.data ++ blocksData blocks := rfl
      have later := ih (buffer ++ block.data) fuel (by simpa using enough)
        (by rwa [List.append_assoc, ← content])
      have bytes : blocksBytes (block :: blocks) ++ chrEot :: last :: rest =
          chrStx :: block.size :: (block.data ++ (blocksBytes blocks ++ chrEot :: last :: rest)) := by
        simp [blocksBytes, Block.bytes]
      rw [bytes, readBlocks]
      simp only [getrawchar, Option.bind_eq_bind, Option.bind_some, if_true]
      rw [data, Option.bind_some, later, content, List.append_assoc]

theorem blocksBytes_length (blocks : List Block) : blocks.length ≤ (blocksBytes blocks).length := by
  induction blocks with
  | nil => simp
  | cons block blocks ih =>
      simp only [blocksBytes, Block.bytes, List.map_cons, List.flatten_cons, List.length_append,
        List.length_cons] at ih ⊢
      omega

/-- A buffer is returned for a frame only, and what is taken is the frame. -/
theorem getcompressed_iff (input data rest : Bytes) :
    getcompressed input = some (some data, rest) ↔ ∃ raw, IsFrame raw data ∧ input = raw ++ rest := by
  constructor
  · intro read
    simp only [getcompressed, Option.bind_eq_bind, Option.bind_eq_some_iff, Prod.exists] at read
    obtain ⟨soh, input, first, read⟩ := read
    obtain rfl := getrawchar_some first
    split at read
    · cases read
    rename_i isSoh
    simp only [Option.bind_eq_some_iff, Prod.exists] at read
    obtain ⟨len, input, second, title, afterTitle, input, titleRead, nul, input, third, read⟩ := read
    obtain rfl := getrawchar_some second
    obtain ⟨rfl, short, plain, count⟩ := readField_some titleRead
    obtain rfl := getrawchar_some third
    split at read
    · cases read
    rename_i isNul
    simp only [Option.bind_eq_some_iff, Prod.exists] at read
    obtain ⟨offset, afterOffset, input, offsetRead, last, input, fourth, read⟩ := read
    obtain ⟨rfl, -, -, offsetCount⟩ := readField_some offsetRead
    obtain rfl := getrawchar_some fourth
    split at read
    · cases read
    rename_i isLast
    split at read
    · cases read
    rename_i lengthRight
    split at read
    · cases read
    rename_i isZero
    obtain rfl := not_not.mp isZero
    obtain ⟨blocks, sum, rfl, rfl, right⟩ := readBlocks_some rfl read
    have oneByte : (ascii "0").length = 1 := by decide
    rw [oneByte, count] at offsetCount
    refine ⟨_, ⟨title, len, blocks, sum, rfl, short, plain, by omega, rfl, right⟩, ?_⟩
    rw [not_not.mp isSoh, not_not.mp isNul, not_not.mp isLast]
    simp [ascii]
  · rintro ⟨raw, ⟨title, len, blocks, last, rfl, short, plain, length, rfl, right⟩, rfl⟩
    have fuel : blocks.length < (blocksBytes blocks ++ chrEot :: last :: rest).length + 1 := by
      have := blocksBytes_length blocks
      rw [List.length_append]
      omega
    have body := readBlocks_blocks blocks last rest [] _ fuel right
    have shape : chrSoh :: len :: (title ++ chrNul :: 48 :: chrNul ::
        (blocksBytes blocks ++ [chrEot, last])) ++ rest = chrSoh :: len :: (title ++ chrNul ::
          (ascii "0" ++ chrNul :: (blocksBytes blocks ++ chrEot :: last :: rest))) := by
      simp [ascii]
    have zero : (ascii "0").length ≤ 6 ∧ (ascii "0").length = 1 ∧ ∀ char ∈ ascii "0", char ≠ 0 := by
      decide +kernel
    rw [shape, getcompressed]
    simp only [getrawchar, Option.bind_eq_bind, Option.bind_some, ne_eq, not_true_eq_false,
      if_false, readField_text _ _ short plain, readField_text _ _ zero.1 zero.2.2, zero.2.1]
    rw [if_neg (by omega)]
    exact body

end Grammar

/-- A buffer for a frame, NULL or the end of the stream for everything else, and no store
outside the two arrays. -/
theorem frame_grammar (title : Vector UInt8 81) (offset : Vector UInt8 7) (input : Bytes) :
    (∀ data rest, receiveFrame title offset input = .ok (some data, rest) ↔
      ∃ raw, IsFrame raw data ∧ input = raw ++ rest) ∧
    ((∀ raw data, IsFrame raw data → ¬ raw <+: input) →
      (∃ rest, receiveFrame title offset input = .ok (none, rest)) ∨
        receiveFrame title offset input = .error .lostConnection) ∧
    receiveFrame title offset input ≠ .error .outOfBounds := by
  have frame := getcompressed_iff input
  rw [receiveFrame_eq]
  rcases read : getcompressed input with _ | ⟨result, left⟩
  · rw [read] at frame
    refine ⟨?_, fun _ => .inr rfl, ?_⟩
    · intro data rest
      rw [← frame]
      constructor
      · intro same
        cases same
      · intro same
        cases same
    · intro same
      cases same
  · rw [read] at frame
    refine ⟨?_, ?_, ?_⟩
    · intro data rest
      rw [← frame]
      constructor
      · intro same
        cases same
        rfl
      · intro same
        cases same
        rfl
    · intro broken
      cases result with
      | none => exact .inl ⟨left, rfl⟩
      | some data =>
          obtain ⟨raw, isFrame, whole⟩ := (frame data left).mp rfl
          exact absurd ⟨left, whole.symm⟩ (broken raw data isFrame)
    · intro same
      cases same

example : IsFrame ([1, 4, 65, 0, 48, 0] ++ [2, 1, 255] ++ [4, 1]) [255] :=
  ⟨[65], 4, [⟨1, [255], rfl⟩], 1, rfl, by decide, by decide +kernel, rfl, rfl, rfl⟩

end PaclinkUnix
