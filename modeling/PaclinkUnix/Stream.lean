import PaclinkUnix.Text

/-!
What the peer's byte stream is read with: `tgetline` for command lines and
`getcompressed` for message bodies. A reader returns its result and the rest of
the stream, or `none` where the stream ends before the reader is done.
-/

namespace PaclinkUnix

def chrNul : UInt8 := 0
def chrSoh : UInt8 := 1
def chrStx : UInt8 := 2
def chrEot : UInt8 := 4

def tgetline (terminator ignore : UInt8) : Bytes → Bytes → Option (Bytes × Bytes)
  | _, [] => none
  | buffer, char :: rest =>
      if char = 0x1e ∨ (isascii char = false ∧ char ≠ terminator ∧ char ≠ ignore) then
        tgetline terminator ignore buffer rest
      else if char = terminator then some (cstring buffer, rest)
      else if char ≠ ignore then tgetline terminator ignore (buffer ++ [char]) rest
      else tgetline terminator ignore buffer rest

/-- `%02x`, as `%02X` but for the case of the letters. -/
def lowerHexByte (value : Nat) : Bytes :=
  [value / 16, value % 16].map fun digit => UInt8.ofNat (if digit < 10 then 48 + digit else 87 + digit)

def dumpHex (bytes : Bytes) : Bytes :=
  bytes.flatMap (fun char => lowerHexByte char.toNat ++ ascii " ") ++ ascii "\n"

/-- What `tgetline` skips as debug output. -/
def notascii (char : UInt8) : Bool := char = 0x1e ∨ isascii char = false

/-- What it prints for a line with such bytes. They are stored as words of four bytes, the lowest
byte first, and as many bytes of that memory are printed as there are words. The stdout of the
daemon is the line to the peer; `printed` says what it adds there. -/
def tgetlineDump (raw : Bytes) : Bytes :=
  let found := raw.filter notascii
  let notasciiInd := min found.length 255
  if notasciiInd > 0 then
    dumpHex ((List.range notasciiInd).map fun i => if i % 4 = 0 then found.getD (i / 4) 0 else 0)
  else []

def wl2kgetline (input : Bytes) : Option (Bytes × Bytes) :=
  tgetline carriageReturn lineFeed [] input

def getrawchar : Bytes → Option (UInt8 × Bytes)
  | [] => none
  | char :: rest => some (char, rest)

/-- The two header loops: at most `limit` bytes, a NUL is put back and not counted. -/
def readField : Nat → Int → Bytes → Option (Bytes × Int × Bytes)
  | 0, len, input => some ([], len, input)
  | _ + 1, _, [] => none
  | limit + 1, len, char :: rest =>
      if char = chrNul then some ([], len - 1 + 1, char :: rest)
      else do
        let (text, len, rest) ← readField limit (len - 1) rest
        some (char :: text, len, rest)

/-- `while (len--)` over the data of one block. -/
def readData : Nat → Bytes → Nat → Bytes → Option (Bytes × Nat × Bytes)
  | 0, buffer, cksum, input => some (buffer, cksum, input)
  | len + 1, buffer, cksum, input => do
      let (char, input) ← getrawchar input
      readData len (buffer ++ [char]) ((cksum + char.toNat) % 256) input

def readBlocks : Nat → Bytes → Nat → Bytes → Option (Option Bytes × Bytes)
  | 0, _, _, _ => none
  | fuel + 1, buffer, cksum, input => do
      let (char, input) ← getrawchar input
      if char = chrStx then
        let (len, input) ← getrawchar input
        let len := if len = 0 then 256 else len.toNat
        let (buffer, cksum, input) ← readData len buffer cksum input
        readBlocks fuel buffer cksum input
      else if char = chrEot then
        let (char, input) ← getrawchar input
        if (cksum + char.toNat) % 256 ≠ 0 then some (none, input) else some (some buffer, input)
      else some (none, input)

/-- A buffer or NULL. Every block takes a byte, so the fuel never runs out. -/
def getcompressed (input : Bytes) : Option (Option Bytes × Bytes) := do
  let (char, input) ← getrawchar input
  if char ≠ chrSoh then some (none, input) else
  let (len, input) ← getrawchar input
  let (_title, len, input) ← readField 80 len.toNat input
  let (char, input) ← getrawchar input
  let len := len - 1
  if char ≠ chrNul then some (none, input) else
  let (offset, len, input) ← readField 6 len input
  let (char, input) ← getrawchar input
  let len := len - 1
  if char ≠ chrNul then some (none, input)
  else if len ≠ 0 then some (none, input)
  else if offset ≠ ascii "0" then some (none, input)
  else readBlocks (input.length + 1) [] 0 input

theorem tgetline_append {terminator ignore : UInt8} {buffer input line rest : Bytes}
    (read : tgetline terminator ignore buffer input = some (line, rest)) (more : Bytes) :
    tgetline terminator ignore buffer (input ++ more) = some (line, rest ++ more) := by
  induction input generalizing buffer with
  | nil => simp [tgetline] at read
  | cons char input ih =>
      simp only [tgetline, List.cons_append] at read ⊢
      split at read
      · rename_i skipped
        simpa [skipped] using ih read
      · rename_i kept
        simp only [kept, if_false]
        split at read
        · rename_i last
          obtain ⟨rfl, rfl⟩ := by simpa using read
          simp [last]
        · rename_i notLast
          simp only [notLast, if_false]
          split at read
          · rename_i stored
            simpa [stored] using ih read
          · rename_i ignored
            simpa [ignored] using ih read

theorem tgetlineDump_nil {raw : Bytes} :
    tgetlineDump raw = [] ↔ ∀ char ∈ raw, char ≠ 0x1e ∧ isascii char = true := by
  have skipped : raw.filter notascii = [] ↔ ∀ char ∈ raw, char ≠ 0x1e ∧ isascii char = true := by
    simp [notascii]
  rw [← skipped, tgetlineDump]
  constructor
  · intro silent
    by_contra found
    have positive : min (raw.filter notascii).length 255 > 0 := by
      have := List.length_pos_iff.mpr found
      omega
    simp only [if_pos positive] at silent
    simp [dumpHex, ascii] at silent
  · intro missing
    simp [missing]

theorem wl2kgetline_append {input line rest : Bytes}
    (read : wl2kgetline input = some (line, rest)) (more : Bytes) :
    wl2kgetline (input ++ more) = some (line, rest ++ more) :=
  tgetline_append read more

theorem tgetline_shorter {terminator ignore : UInt8} {buffer input line rest : Bytes}
    (read : tgetline terminator ignore buffer input = some (line, rest)) :
    ∃ raw, input = raw ++ rest ∧ raw ≠ [] := by
  induction input generalizing buffer with
  | nil => simp [tgetline] at read
  | cons char input ih =>
      have further : ∀ {buffer}, tgetline terminator ignore buffer input = some (line, rest) →
          ∃ raw, char :: input = raw ++ rest ∧ raw ≠ [] := by
        intro buffer read
        obtain ⟨raw, rfl, -⟩ := ih read
        exact ⟨char :: raw, rfl, by simp⟩
      simp only [tgetline] at read
      split at read
      · exact further read
      · split at read
        · obtain ⟨rfl, rfl⟩ := by simpa using read
          exact ⟨[char], rfl, by simp⟩
        · split at read
          · exact further read
          · exact further read

theorem getrawchar_append {input rest : Bytes} {char : UInt8}
    (read : getrawchar input = some (char, rest)) (more : Bytes) :
    getrawchar (input ++ more) = some (char, rest ++ more) := by
  cases input with
  | nil => simp [getrawchar] at read
  | cons first input =>
      obtain ⟨rfl, rfl⟩ := by simpa [getrawchar] using read
      rfl

theorem readField_append {limit : Nat} {len after : Int} {input text rest : Bytes}
    (read : readField limit len input = some (text, after, rest)) (more : Bytes) :
    readField limit len (input ++ more) = some (text, after, rest ++ more) := by
  induction limit generalizing len input text with
  | zero =>
      obtain ⟨rfl, rfl, rfl⟩ := by simpa [readField] using read
      simp [readField]
  | succ limit ih =>
      cases input with
      | nil => simp [readField] at read
      | cons char input =>
          simp only [readField, List.cons_append] at read ⊢
          split at read
          · rename_i nul
            obtain ⟨rfl, rfl, rfl⟩ := by simpa using read
            simp [nul]
          · rename_i notNul
            simp only [Option.bind_eq_bind, Option.bind_eq_some_iff, Prod.exists,
              Option.some.injEq, Prod.mk.injEq] at read
            obtain ⟨text', after', rest', inner, rfl, rfl, rfl⟩ := read
            simp [notNul, ih inner]

theorem readData_append {len cksum cksum' : Nat} {buffer buffer' input rest : Bytes}
    (read : readData len buffer cksum input = some (buffer', cksum', rest)) (more : Bytes) :
    readData len buffer cksum (input ++ more) = some (buffer', cksum', rest ++ more) := by
  induction len generalizing buffer cksum input with
  | zero =>
      obtain ⟨rfl, rfl, rfl⟩ := by simpa [readData] using read
      simp [readData]
  | succ len ih =>
      simp only [readData, Option.bind_eq_bind, Option.bind_eq_some_iff, Prod.exists] at read ⊢
      obtain ⟨char, input', first, later⟩ := read
      exact ⟨char, input' ++ more, getrawchar_append first more, ih later⟩

theorem readBlocks_append {fuel fuel' cksum : Nat} {buffer input rest : Bytes}
    {result : Option Bytes}
    (read : readBlocks fuel buffer cksum input = some (result, rest)) (enough : fuel ≤ fuel')
    (more : Bytes) :
    readBlocks fuel' buffer cksum (input ++ more) = some (result, rest ++ more) := by
  induction fuel generalizing fuel' buffer cksum input with
  | zero => simp [readBlocks] at read
  | succ fuel ih =>
      obtain ⟨fuel', rfl⟩ : ∃ smaller, fuel' = smaller + 1 := ⟨fuel' - 1, by omega⟩
      simp only [readBlocks, Option.bind_eq_bind, Option.bind_eq_some_iff, Prod.exists] at read ⊢
      obtain ⟨char, input', first, later⟩ := read
      refine ⟨char, input' ++ more, getrawchar_append first more, ?_⟩
      split at later
      · rename_i stx
        simp only [stx, if_true, Option.bind_eq_some_iff, Prod.exists] at later ⊢
        obtain ⟨len, input₁, lengthRead, buffer₁, cksum₁, input₂, dataRead, blocks⟩ := later
        exact ⟨len, input₁ ++ more, getrawchar_append lengthRead more, buffer₁, cksum₁,
          input₂ ++ more, readData_append dataRead more, ih blocks (by omega)⟩
      · rename_i notStx
        simp only [notStx, if_false]
        split at later
        · rename_i eot
          simp only [eot, if_true, Option.bind_eq_some_iff, Prod.exists] at later ⊢
          obtain ⟨last, input₁, sumRead, verdict⟩ := later
          refine ⟨last, input₁ ++ more, getrawchar_append sumRead more, ?_⟩
          split at verdict
          · rename_i wrong
            obtain ⟨rfl, rfl⟩ := by simpa using verdict
            simp [wrong]
          · rename_i right
            obtain ⟨rfl, rfl⟩ := by simpa using verdict
            simp [right]
        · rename_i notEot
          obtain ⟨rfl, rfl⟩ := by simpa using later
          simp [notEot]

theorem getcompressed_append {input rest : Bytes} {result : Option Bytes}
    (read : getcompressed input = some (result, rest)) (more : Bytes) :
    getcompressed (input ++ more) = some (result, rest ++ more) := by
  simp only [getcompressed, Option.bind_eq_bind, Option.bind_eq_some_iff, Prod.exists] at read ⊢
  obtain ⟨soh, input₁, sohRead, read⟩ := read
  refine ⟨soh, input₁ ++ more, getrawchar_append sohRead more, ?_⟩
  split at read
  · rename_i wrong
    obtain ⟨rfl, rfl⟩ := by simpa using read
    simp [wrong]
  rename_i isSoh
  simp only [isSoh, if_false, Option.bind_eq_some_iff, Prod.exists] at read ⊢
  obtain ⟨len, input₂, lenRead, title, len₁, input₃, titleRead, nul, input₄, nulRead, read⟩ := read
  refine ⟨len, input₂ ++ more, getrawchar_append lenRead more, title, len₁, input₃ ++ more,
    readField_append titleRead more, nul, input₄ ++ more, getrawchar_append nulRead more, ?_⟩
  split at read
  · rename_i wrong
    obtain ⟨rfl, rfl⟩ := by simpa using read
    simp [wrong]
  rename_i isNul
  simp only [isNul, if_false, Option.bind_eq_some_iff, Prod.exists] at read ⊢
  obtain ⟨offset, len₂, input₅, offsetRead, nul₂, input₆, nul₂Read, read⟩ := read
  refine ⟨offset, len₂, input₅ ++ more, readField_append offsetRead more, nul₂, input₆ ++ more,
    getrawchar_append nul₂Read more, ?_⟩
  split at read
  · rename_i wrong
    obtain ⟨rfl, rfl⟩ := by simpa using read
    simp [wrong]
  rename_i isNul₂
  simp only [isNul₂, if_false]
  split at read
  · rename_i wrong
    obtain ⟨rfl, rfl⟩ := by simpa using read
    simp [wrong]
  rename_i lengthRight
  simp only [lengthRight, if_false]
  split at read
  · rename_i wrong
    obtain ⟨rfl, rfl⟩ := by simpa using read
    simp [wrong]
  rename_i offsetRight
  simp only [offsetRight, if_false]
  exact readBlocks_append read (by simp) more

theorem tgetline_suffix {terminator ignore : UInt8} {buffer input line rest : Bytes}
    (read : tgetline terminator ignore buffer input = some (line, rest)) : rest <:+ input := by
  obtain ⟨raw, rfl, -⟩ := tgetline_shorter read
  exact List.suffix_append raw rest

theorem getrawchar_suffix {input rest : Bytes} {char : UInt8}
    (read : getrawchar input = some (char, rest)) : rest <:+ input := by
  cases input with
  | nil => simp [getrawchar] at read
  | cons first input =>
      obtain ⟨rfl, rfl⟩ := by simpa [getrawchar] using read
      exact List.suffix_cons _ _

theorem readField_suffix {limit : Nat} {len after : Int} {input text rest : Bytes}
    (read : readField limit len input = some (text, after, rest)) : rest <:+ input := by
  induction limit generalizing len input text with
  | zero =>
      obtain ⟨rfl, rfl, rfl⟩ := by simpa [readField] using read
      exact List.suffix_refl _
  | succ limit ih =>
      cases input with
      | nil => simp [readField] at read
      | cons char input =>
          simp only [readField] at read
          split at read
          · obtain ⟨rfl, rfl, rfl⟩ := by simpa using read
            exact List.suffix_refl _
          · simp only [Option.bind_eq_bind, Option.bind_eq_some_iff, Prod.exists,
              Option.some.injEq, Prod.mk.injEq] at read
            obtain ⟨_, _, _, inner, rfl, rfl, rfl⟩ := read
            exact (ih inner).trans (List.suffix_cons _ _)

theorem readData_suffix {len cksum cksum' : Nat} {buffer buffer' input rest : Bytes}
    (read : readData len buffer cksum input = some (buffer', cksum', rest)) :
    rest <:+ input := by
  induction len generalizing buffer cksum input with
  | zero =>
      obtain ⟨rfl, rfl, rfl⟩ := by simpa [readData] using read
      exact List.suffix_refl _
  | succ len ih =>
      simp only [readData, Option.bind_eq_bind, Option.bind_eq_some_iff, Prod.exists] at read
      obtain ⟨_, _, first, later⟩ := read
      exact (ih later).trans (getrawchar_suffix first)

theorem readBlocks_suffix {fuel cksum : Nat} {buffer input rest : Bytes} {result : Option Bytes}
    (read : readBlocks fuel buffer cksum input = some (result, rest)) : rest <:+ input := by
  induction fuel generalizing buffer cksum input with
  | zero => simp [readBlocks] at read
  | succ fuel ih =>
      simp only [readBlocks, Option.bind_eq_bind, Option.bind_eq_some_iff, Prod.exists] at read
      obtain ⟨char, input', first, later⟩ := read
      have left := getrawchar_suffix first
      split at later
      · simp only [Option.bind_eq_some_iff, Prod.exists] at later
        obtain ⟨_, _, lengthRead, _, _, _, dataRead, blocks⟩ := later
        exact (((ih blocks).trans (readData_suffix dataRead)).trans
          (getrawchar_suffix lengthRead)).trans left
      · split at later
        · simp only [Option.bind_eq_some_iff, Prod.exists] at later
          obtain ⟨_, _, sumRead, verdict⟩ := later
          have last := (getrawchar_suffix sumRead).trans left
          split at verdict <;>
            (obtain ⟨rfl, rfl⟩ := by simpa using verdict
             exact last)
        · obtain ⟨rfl, rfl⟩ := by simpa using later
          exact left

theorem getcompressed_suffix {input rest : Bytes} {result : Option Bytes}
    (read : getcompressed input = some (result, rest)) : rest <:+ input := by
  simp only [getcompressed, Option.bind_eq_bind, Option.bind_eq_some_iff, Prod.exists] at read
  obtain ⟨soh, input₁, sohRead, read⟩ := read
  have left₁ := getrawchar_suffix sohRead
  split at read
  · obtain ⟨rfl, rfl⟩ := by simpa using read
    exact left₁
  simp only [Option.bind_eq_some_iff, Prod.exists] at read
  obtain ⟨_, _, lenRead, _, _, _, titleRead, _, input₄, nulRead, read⟩ := read
  have left₄ : input₄ <:+ input := (((getrawchar_suffix nulRead).trans
    (readField_suffix titleRead)).trans (getrawchar_suffix lenRead)).trans left₁
  split at read
  · obtain ⟨rfl, rfl⟩ := by simpa using read
    exact left₄
  simp only [Option.bind_eq_some_iff, Prod.exists] at read
  obtain ⟨_, _, _, offsetRead, _, input₆, nul₂Read, read⟩ := read
  have left₆ : input₆ <:+ input :=
    ((getrawchar_suffix nul₂Read).trans (readField_suffix offsetRead)).trans left₄
  repeat' split at read
  · obtain ⟨rfl, rfl⟩ := by simpa using read
    exact left₆
  · obtain ⟨rfl, rfl⟩ := by simpa using read
    exact left₆
  · obtain ⟨rfl, rfl⟩ := by simpa using read
    exact left₆
  · exact (readBlocks_suffix read).trans left₆

end PaclinkUnix
