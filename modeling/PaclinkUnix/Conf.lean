import PaclinkUnix.Buffer

/-!
The configuration file, `conf.c`.
-/

namespace PaclinkUnix

open Buffer

/-- Up to the next delimiter, and what is behind it. -/
def scanToken (delimiters : Bytes) : Bytes → Bytes × Bytes
  | [] => ([], [])
  | char :: rest =>
      if char ∈ delimiters then ([], rest)
      else
        let (token, rest) := scanToken delimiters rest
        (char :: token, rest)

/-- `strtok_r`: the token, and what `last` points to. -/
def strtok (delimiters : Bytes) : Bytes → Option (Bytes × Bytes)
  | [] => none
  | char :: rest =>
      if char ∈ delimiters then strtok delimiters rest
      else some (scanToken delimiters (char :: rest))

/-- The variable and the value of a line, if it has them. -/
def confLine (line : Bytes) : Option (Bytes × Bytes) :=
  let cp := skipSpace line
  if cp.head? = some 35 then none
  else do
    let (cp, _) ← strtok (ascii "#") cp
    let (var, last) ← strtok (ascii "= \n") cp
    let (value, last) ← strtok (ascii "=\"\n") last
    if value.head?.any isspace then
      let (value, _) ← strtok (ascii "=\"\n") last
      some (var, value)
    else some (var, value)

def confRead : Nat → Buffer → Option (List (Bytes × Bytes))
  | 0, _ => none
  | fuel + 1, b => do
      match ← b.getline lineFeed fuel with
      | (none, _) => some []
      | (some line, b) => do
          let conflist ← confRead fuel b
          some ((confLine line).toList ++ conflist)

def confGet (var : Bytes) : List (Bytes × Bytes) → Option Bytes
  | [] => none
  | (name, value) :: conf => if name = var then some value else confGet var conf

inductive Form where
  | compact
  | quoted
  | spaced
  deriving DecidableEq, Repr

inductive ConfEntry where
  | blank (space : Bytes)
  | comment (space text : Bytes)
  | assignment (form : Form) (name value : Bytes)
  deriving DecidableEq, Repr

namespace ConfEntry

def text : ConfEntry → Bytes
  | .blank space => space
  | .comment space text => space ++ 35 :: text
  | .assignment .compact name value => name ++ 61 :: value
  | .assignment .quoted name value => name ++ 61 :: 34 :: value ++ [34]
  | .assignment .spaced name value => name ++ 32 :: 61 :: 32 :: value

end ConfEntry

structure ConfName (name : Bytes) : Prop where
  nonempty : name ≠ []
  plain : ∀ char ∈ name, isspace char = false ∧ char ≠ 61 ∧ char ≠ 35 ∧ char ≠ 34 ∧ char ≠ 0

structure ConfValue (value : Bytes) : Prop where
  nonempty : value ≠ []
  plain : ∀ char ∈ value, char ≠ 35 ∧ char ≠ 34 ∧ char ≠ 10 ∧ char ≠ 0
  first : ∀ char ∈ value.head?, isspace char = false
  last : ∀ char ∈ value.getLast?, isspace char = false

def ConfEntry.Plain : ConfEntry → Prop
  | .blank space => ∀ char ∈ space, isspace char = true ∧ char ≠ 10
  | .comment space text =>
      (∀ char ∈ space, isspace char = true ∧ char ≠ 10) ∧ ∀ char ∈ text, char ≠ 10
  | .assignment _ name value => ConfName name ∧ ConfValue value

/-- A file of these lines; the last one may lack its newline. -/
def confFile (entries : List ConfEntry) (ended : Bool) : Bytes :=
  match entries with
  | [] => []
  | [entry] => entry.text ++ if ended then [10] else []
  | entry :: entries => entry.text ++ 10 :: confFile entries ended

/-- What the parser keeps of a text: it is cut at each `=`, and a piece that begins with a blank
gives way to the next one. -/
def firstPiece (text : Bytes) : Option Bytes :=
  match strtok (ascii "=") text with
  | none => none
  | some (piece, rest) =>
      if piece.head?.any isspace then (strtok (ascii "=") rest).map Prod.fst else some piece

def keptValue (form : Form) (value : Bytes) : Option Bytes :=
  firstPiece (if form = .spaced then 32 :: value else value)

section Tokens

variable {delimiters token rest : Bytes}

theorem scanToken_delimited {char : UInt8} (plain : ∀ char ∈ token, char ∉ delimiters)
    (ends : char ∈ delimiters) (rest : Bytes) :
    scanToken delimiters (token ++ char :: rest) = (token, rest) := by
  induction token with
  | nil => simp [scanToken, ends]
  | cons first token ih =>
      rw [List.cons_append, scanToken, if_neg (plain first (List.mem_cons_self ..)),
        ih fun char member => plain char (List.mem_cons_of_mem _ member)]

theorem scanToken_whole (plain : ∀ char ∈ token, char ∉ delimiters) :
    scanToken delimiters token = (token, []) := by
  induction token with
  | nil => rfl
  | cons first token ih =>
      rw [scanToken, if_neg (plain first (List.mem_cons_self ..)),
        ih fun char member => plain char (List.mem_cons_of_mem _ member)]

theorem strtok_delimited {char : UInt8} (nonempty : token ≠ []) (plain : ∀ char ∈ token, char ∉ delimiters)
    (ends : char ∈ delimiters) (rest : Bytes) :
    strtok delimiters (token ++ char :: rest) = .some (token, rest) := by
  cases token with
  | nil => exact absurd rfl nonempty
  | cons first token =>
      rw [List.cons_append, strtok, if_neg (plain first (List.mem_cons_self ..)), ← List.cons_append,
        scanToken_delimited plain ends]

theorem strtok_whole (nonempty : token ≠ []) (plain : ∀ char ∈ token, char ∉ delimiters) :
    strtok delimiters token = .some (token, []) := by
  cases token with
  | nil => exact absurd rfl nonempty
  | cons first token =>
      rw [strtok, if_neg (plain first (List.mem_cons_self ..)), scanToken_whole plain]

theorem strtok_none (only : ∀ char ∈ rest, char ∈ delimiters) : strtok delimiters rest = none := by
  induction rest with
  | nil => rfl
  | cons char rest ih =>
      rw [strtok, if_pos (only char (List.mem_cons_self ..)),
        ih fun other member => only other (List.mem_cons_of_mem _ member)]

/-- More delimiters that stand only behind the text do not change the tokens of it. -/
theorem scanToken_more {more text ending : Bytes} (same : ∀ char ∈ text, char ∈ more ↔ char ∈ delimiters)
    (only : ∀ char ∈ ending, char ∈ more) :
    ∃ ending', scanToken more (text ++ ending) =
        ((scanToken delimiters text).1, (scanToken delimiters text).2 ++ ending') ∧
      (∀ char ∈ ending', char ∈ more) ∧
      ∀ char ∈ (scanToken delimiters text).2, char ∈ text := by
  induction text with
  | nil =>
      cases ending with
      | nil => exact ⟨[], rfl, by simp, by simp [scanToken]⟩
      | cons char ending =>
          refine ⟨ending, ?_, fun other member => only other (List.mem_cons_of_mem _ member),
            by simp [scanToken]⟩
          simp [scanToken, only char (List.mem_cons_self ..)]
  | cons char text ih =>
      have here := same char (List.mem_cons_self ..)
      obtain ⟨ending', scans, others, inside⟩ :=
        ih fun other member => same other (List.mem_cons_of_mem _ member)
      rw [List.cons_append, scanToken, scanToken]
      by_cases ends : char ∈ delimiters
      · rw [if_pos ends, if_pos (here.mpr ends)]
        exact ⟨ending, rfl, only, fun other member => List.mem_cons_of_mem _ member⟩
      · rw [if_neg ends, if_neg (fun member => ends (here.mp member)), scans]
        exact ⟨ending', rfl, others, fun other member => List.mem_cons_of_mem _ (inside other member)⟩

theorem strtok_more {more text ending : Bytes} (same : ∀ char ∈ text, char ∈ more ↔ char ∈ delimiters)
    (only : ∀ char ∈ ending, char ∈ more) :
    (strtok delimiters text = none ∧ strtok more (text ++ ending) = none) ∨
      ∃ token rest ending', strtok delimiters text = some (token, rest) ∧
        strtok more (text ++ ending) = some (token, rest ++ ending') ∧
        (∀ char ∈ ending', char ∈ more) ∧ ∀ char ∈ rest, char ∈ text := by
  induction text with
  | nil => exact .inl ⟨rfl, strtok_none only⟩
  | cons char text ih =>
      have here := same char (List.mem_cons_self ..)
      rw [List.cons_append, strtok, strtok]
      by_cases ends : char ∈ delimiters
      · rw [if_pos ends, if_pos (here.mpr ends)]
        rcases ih fun other member => same other (List.mem_cons_of_mem _ member) with
          none | ⟨token, rest, ending', one, two, others, inside⟩
        · exact .inl none
        · exact .inr ⟨token, rest, ending', one, two, others,
            fun other member => List.mem_cons_of_mem _ (inside other member)⟩
      · rw [if_neg ends, if_neg (fun member => ends (here.mp member))]
        obtain ⟨ending', scans, others, inside⟩ := scanToken_more same only
        exact .inr ⟨(scanToken delimiters (char :: text)).1, (scanToken delimiters (char :: text)).2,
          ending', rfl, congrArg some scans, others, inside⟩

end Tokens

section Lines

variable {form : Form} {name value ending : Bytes}

theorem space_delimits {char : UInt8} (notSpace : isspace char = false) : char ≠ 32 ∧ char ≠ 10 := by
  constructor <;> (rintro rfl; exact absurd notSpace (by decide))

theorem ConfName.free (plain : ConfName name) :
    (∀ char ∈ name, char ∉ ascii "#") ∧ ∀ char ∈ name, char ∉ ascii "= \n" := by
  have marks : ascii "#" = [35] ∧ ascii "= \n" = [61, 32, 10] := by decide
  rw [marks.1, marks.2]
  constructor
  · intro char member
    obtain ⟨-, -, notHash, -⟩ := plain.plain char member
    simpa using notHash
  · intro char member
    obtain ⟨notSpace, notEqual, -⟩ := plain.plain char member
    obtain ⟨notBlank, notLine⟩ := space_delimits notSpace
    simp [notEqual, notBlank, notLine]

/-- What follows the name of an assignment, and which of it `strtok_r` has passed. -/
theorem confLine_tokens (plain : ConfName name) {delimiter : UInt8} (ends : delimiter ∈ ascii "= \n")
    {text : Bytes} (noHash : ∀ char ∈ text, char ≠ 35) (notHash : delimiter ≠ 35) :
    confLine (name ++ delimiter :: text) =
      match strtok (ascii "=\"\n") text with
      | none => none
      | some (value, last) =>
          if value.head?.any isspace then
            (strtok (ascii "=\"\n") last).map fun token => (name, token.1)
          else some (name, value) := by
  have free := plain.free
  have start : ∃ first rest, name = first :: rest := List.exists_cons_of_ne_nil plain.nonempty
  obtain ⟨first, rest, same⟩ := start
  have head := plain.plain first (same ▸ List.mem_cons_self ..)
  have skipped : skipSpace (name ++ delimiter :: text) = name ++ delimiter :: text := by
    rw [same, List.cons_append]
    exact skipSpace_of_notSpace head.1
  have hash : (name ++ delimiter :: text).head? ≠ some 35 := by
    rw [same, List.cons_append, List.head?_cons]
    exact fun hash => head.2.2.1 (Option.some.inj hash)
  have whole : strtok (ascii "#") (name ++ delimiter :: text) =
      some (name ++ delimiter :: text, []) := by
    refine strtok_whole (by simp) fun char member => ?_
    have marks : ascii "#" = [35] := by decide
    rw [marks, List.mem_singleton]
    rcases List.mem_append.mp member with inName | later
    · exact (plain.plain char inName).2.2.1
    · rcases List.mem_cons.mp later with rfl | inText
      · exact notHash
      · exact noHash char inText
  rw [confLine, skipped]
  simp only [if_neg hash, whole, strtok_delimited plain.nonempty free.2 ends, Option.bind_eq_bind,
    Option.bind_some]
  cases strtok (ascii "=\"\n") text with
  | none => rfl
  | some token =>
      simp only [Option.bind_some]
      split
      · cases strtok (ascii "=\"\n") token.2 <;> rfl
      · rfl

theorem strtok_skip {delimiters before : Bytes} (skips : ∀ char ∈ before, char ∈ delimiters)
    (rest : Bytes) : strtok delimiters (before ++ rest) = strtok delimiters rest := by
  induction before with
  | nil => rfl
  | cons char before ih =>
      rw [List.cons_append, strtok, if_pos (skips char (List.mem_cons_self ..)),
        ih fun other member => skips other (List.mem_cons_of_mem _ member)]

theorem confLine_pieces (plain : ConfName name) (delimiter : UInt8) (ends : delimiter ∈ ascii "= \n")
    (before : Bytes) {text : Bytes} (skips : ∀ char ∈ before, char ∈ ascii "=\"\n")
    (free : ∀ char ∈ text, char ≠ 35 ∧ char ≠ 34 ∧ char ≠ 10)
    (only : ∀ char ∈ ending, char ∈ ascii "=\"\n") :
    confLine (name ++ delimiter :: (before ++ (text ++ ending))) =
      (firstPiece text).map fun value => (name, value) := by
  have marks : ascii "=\"\n" = [61, 34, 10] ∧ ascii "=" = [61] ∧ ascii "= \n" = [61, 32, 10] := by
    decide
  have notHash : delimiter ≠ 35 ∧ ∀ char ∈ ascii "=\"\n", char ≠ 35 := by
    rw [marks.1]
    rw [marks.2.2] at ends
    exact ⟨by rintro rfl; revert ends; decide, by decide +kernel⟩
  have same : ∀ char ∈ text, char ∈ ascii "=\"\n" ↔ char ∈ ascii "=" := by
    intro char member
    obtain ⟨-, notQuote, notLine⟩ := free char member
    rw [marks.1, marks.2.1]
    simp [notQuote, notLine]
  rw [confLine_tokens plain ends ?_ notHash.1, strtok_skip skips]
  · rcases strtok_more same only with ⟨ended, also⟩ | ⟨token, rest, ending', one, two, others, inside⟩
    · rw [also, firstPiece, ended]
      rfl
    · rw [two, firstPiece, one]
      simp only
      split
      · rcases strtok_more (fun char member => same char (inside char member)) others with
          ⟨ended, also⟩ | ⟨token, rest, _, one, two, -⟩
        · rw [also, ended]
          rfl
        · rw [two, one]
          rfl
      · rfl
  · intro char member
    rcases List.mem_append.mp member with inBefore | later
    · exact notHash.2 char (skips char inBefore)
    · rcases List.mem_append.mp later with inText | inEnding
      · exact (free char inText).1
      · exact notHash.2 char (only char inEnding)

/-- A line end, or none behind the last line. -/
def LineEnd (ending : Bytes) : Prop := ending = [10] ∨ ending = []

theorem confLine_assignment (plain : ConfName name) (valued : ConfValue value)
    (ends : LineEnd ending) : confLine ((ConfEntry.assignment form name value).text ++ ending) =
      (keptValue form value).map fun value => (name, value) := by
  have free : ∀ char ∈ value, char ≠ 35 ∧ char ≠ 34 ∧ char ≠ 10 := fun char member =>
    ⟨(valued.plain char member).1, (valued.plain char member).2.1, (valued.plain char member).2.2.1⟩
  have only : ∀ char ∈ ending, char ∈ ascii "=\"\n" := by
    rcases ends with rfl | rfl <;> decide +kernel
  rw [keptValue]
  cases form with
  | compact =>
      have line := confLine_pieces plain 61 (by decide) [] (by simp) free only
      simpa [ConfEntry.text] using line
  | quoted =>
      have marked : ∀ char ∈ 34 :: ending, char ∈ ascii "=\"\n" := fun char member => by
        rcases List.mem_cons.mp member with rfl | later
        · decide
        · exact only char later
      have line := confLine_pieces plain 61 (by decide) [34] (by decide +kernel) free marked
      simpa [ConfEntry.text] using line
  | spaced =>
      have spacedFree : ∀ char ∈ 32 :: value, char ≠ 35 ∧ char ≠ 34 ∧ char ≠ 10 :=
        fun char member => by
          rcases List.mem_cons.mp member with rfl | later
          · decide
          · exact free char later
      have line := confLine_pieces plain 32 (by decide) [61] (by decide +kernel) spacedFree only
      simpa [ConfEntry.text] using line

/-- The pair an entry of the file adds to the list. -/
def entryValue : ConfEntry → Option (Bytes × Bytes)
  | .assignment form name value => (keptValue form value).map fun value => (name, value)
  | _ => none

theorem lineEnd_space (ends : LineEnd ending) : ∀ char ∈ ending, isspace char = true := by
  rcases ends with rfl | rfl <;> decide +kernel

theorem entry_line {entry : ConfEntry} (plain : entry.Plain) (ends : LineEnd ending) :
    confLine (cstring (entry.text ++ ending)) = entryValue entry := by
  have space := lineEnd_space ends
  have notNul : ∀ char : UInt8, isspace char = true → char ≠ 0 := by
    rintro char isSpace rfl
    exact absurd isSpace (by decide)
  cases entry with
  | blank space =>
      have only : ∀ char ∈ space ++ ending, isspace char = true := fun char member => by
        rcases List.mem_append.mp member with inSpace | inEnding
        · exact (plain char inSpace).1
        · exact lineEnd_space ends char inEnding
      have skipped : skipSpace (space ++ ending) = [] := List.dropWhile_eq_nil_iff.mpr only
      change confLine (cstring (space ++ ending)) = none
      rw [cstring_of_notNul fun char member => notNul char (only char member), confLine, skipped]
      rfl
  | comment space text =>
      have only : ∀ char ∈ space, isspace char = true := fun char member => (plain.1 char member).1
      have cut : cstring (space ++ 35 :: text ++ ending) =
          space ++ 35 :: cstring (text ++ ending) := by
        rw [List.append_assoc, cstring, List.takeWhile_append_of_pos]
        · rfl
        · exact fun char member => by simpa using notNul char (only char member)
      have skipped : skipSpace (space ++ 35 :: cstring (text ++ ending)) =
          35 :: cstring (text ++ ending) := by
        rw [skipSpace, List.dropWhile_append_of_pos only]
        exact skipSpace_of_notSpace (by decide)
      change confLine (cstring (space ++ 35 :: text ++ ending)) = none
      rw [cut, confLine, skipped]
      rfl
  | assignment form name value =>
      obtain ⟨named, valued⟩ := plain
      rw [cstring_of_notNul, confLine_assignment named valued ends]
      · rfl
      · intro char member
        rcases List.mem_append.mp member with inText | inEnding
        · have known : char ∈ name ∨ char ∈ value ∨ char = 61 ∨ char = 34 ∨ char = 32 := by
            cases form <;> simp [ConfEntry.text] at inText <;> grind
          rcases known with inName | inValue | rfl | rfl | rfl
          · exact (named.plain char inName).2.2.2.2
          · exact (valued.plain char inValue).2.2.2
          all_goals decide
        · exact notNul char (space char inEnding)

theorem entry_feedless {entry : ConfEntry} (plain : entry.Plain) :
    ∀ char ∈ entry.text, char ≠ lineFeed := by
  intro char member
  cases entry with
  | blank space => exact (plain char member).2
  | comment space text =>
      rcases List.mem_append.mp member with inSpace | later
      · exact (plain.1 char inSpace).2
      · rcases List.mem_cons.mp later with rfl | inText
        · decide
        · exact plain.2 char inText
  | assignment form name value =>
      obtain ⟨named, valued⟩ := plain
      have known : char ∈ name ∨ char ∈ value ∨ char = 61 ∨ char = 34 ∨ char = 32 := by
        cases form <;> simp [ConfEntry.text] at member <;> tauto
      rcases known with inName | inValue | rfl | rfl | rfl
      · exact (space_delimits (named.plain char inName).1).2
      · exact (valued.plain char inValue).2.2.1
      all_goals decide

theorem linesOf_last {text : Bytes} (plain : ∀ char ∈ text, char ≠ lineFeed) (nonempty : text ≠ []) :
    linesOf text = [text] := by
  induction text with
  | nil => exact absurd rfl nonempty
  | cons char text ih =>
      rw [linesOf, if_neg (plain char (List.mem_cons_self ..))]
      cases text with
      | nil => rfl
      | cons next text =>
          rw [ih (fun other member => plain other (List.mem_cons_of_mem _ member)) (by simp)]

theorem confFile_lines {entries : List ConfEntry} (plain : ∀ entry ∈ entries, entry.Plain)
    (ended : Bool) : (linesOf (confFile entries ended)).filterMap (fun line => confLine (cstring line)) =
      entries.filterMap entryValue := by
  induction entries with
  | nil => rfl
  | cons entry entries ih =>
      have here := plain entry (List.mem_cons_self ..)
      have feedless := entry_feedless here
      cases entries with
      | nil =>
          cases ended with
          | true =>
              change (linesOf (entry.text ++ 10 :: [])).filterMap _ = _
              rw [linesOf_feed feedless, List.filterMap_cons, entry_line here (.inl rfl)]
              rfl
          | false =>
              have line := entry_line here (.inr rfl : LineEnd [])
              change (linesOf (entry.text ++ [])).filterMap _ = _
              rw [List.append_nil] at line ⊢
              by_cases empty : entry.text = []
              · rw [empty] at line ⊢
                have noValue : entryValue entry = none := line.symm
                simp [linesOf, noValue]
              · rw [linesOf_last feedless empty, List.filterMap_cons, line]
                rfl
      | cons next rest =>
          change (linesOf (entry.text ++ 10 :: confFile (next :: rest) ended)).filterMap _ = _
          rw [linesOf_feed feedless, List.filterMap_cons, entry_line here (.inl rfl),
            ih fun other member => plain other (List.mem_cons_of_mem _ member), List.filterMap_cons]
          rfl

end Lines

section Reading

/-- Below the index range the loop ends with the pairs of all lines. -/
theorem confRead_reads (fuel : Nat) (b : Buffer) (text : Bytes) (reads : Reads b text)
    (enough : text.length < fuel) :
    confRead fuel b = some ((linesOf text).filterMap fun line => confLine (cstring line)) := by
  induction fuel generalizing b text with
  | zero => omega
  | succ fuel ih =>
      rw [confRead]
      by_cases ended : text = []
      · subst ended
        rw [getline_nil lineFeed fuel b reads]
        rfl
      · obtain ⟨after, read, -, left⟩ := getline_reads lineFeed fuel b text reads ended (by omega)
        have lengths := congrArg List.length (splitLine_length lineFeed text)
        rw [List.length_append] at lengths
        have positive := splitLine_pos lineFeed ended
        rw [read, linesOf_splitLine ended]
        simp only [Option.bind_eq_bind, Option.bind_some, ih after _ left (by omega),
          List.filterMap_cons]
        cases confLine (cstring (splitLine lineFeed text).1) <;> rfl

theorem confRead_endless {fuel : Nat} {b : Buffer} (endless : Endless b) :
    confRead fuel b = none := by
  induction fuel generalizing b with
  | zero => rfl
  | succ fuel ih =>
      rw [confRead]
      rcases read : getline lineFeed fuel b with _ | ⟨line, after⟩
      · rfl
      · obtain ⟨present, later⟩ := getline_endless endless read
        cases line with
        | none => cases present
        | some line => simp [ih later]

theorem confRead_some {fuel : Nat} {b : Buffer} {text : Bytes} {conf : List (Bytes × Bytes)}
    (reads : Reads b text) (found : confRead fuel b = some conf) :
    conf = (linesOf text).filterMap fun line => confLine (cstring line) := by
  induction fuel generalizing b text conf with
  | zero => cases found
  | succ fuel ih =>
      simp only [confRead, Option.bind_eq_bind, Option.bind_eq_some_iff] at found
      obtain ⟨⟨line, after⟩, read, found⟩ := found
      by_cases ended : text = []
      · subst ended
        rw [getline_nil lineFeed fuel b reads] at read
        cases read
        cases found
        rfl
      · obtain ⟨rfl, left⟩ := getline_some reads ended read
        obtain ⟨rest, more, same⟩ := Option.bind_eq_some_iff.mp found
        cases same
        rw [linesOf_splitLine ended, List.filterMap_cons, ih left more]
        cases confLine (cstring (splitLine lineFeed text).1) <;> rfl

end Reading

/-- The first assignment to the name of which the parser keeps anything gives this value. -/
def Settles (name value : Bytes) : List ConfEntry → Prop
  | [] => False
  | .assignment form other text :: entries =>
      if other = name then
        match keptValue form text with
        | some kept => kept = value
        | none => Settles name value entries
      else Settles name value entries
  | .blank _ :: entries => Settles name value entries
  | .comment _ _ :: entries => Settles name value entries

section Found

variable {name value : Bytes} {entries : List ConfEntry}

theorem confGet_iff : confGet name (entries.filterMap entryValue) = some value ↔
    Settles name value entries := by
  induction entries with
  | nil => exact iff_of_false (by simp [confGet]) id
  | cons entry entries ih =>
      cases entry with
      | blank space => exact ih
      | comment space text => exact ih
      | assignment form other text =>
          rw [Settles, List.filterMap_cons, entryValue]
          cases kept : keptValue form text with
          | none => simpa using ih
          | some kept =>
              simp only [Option.map_some, confGet]
              by_cases same : other = name
              · simp [same]
              · simpa [same] using ih

theorem scanToken_free (delimiters text : Bytes) :
    ∀ char ∈ (scanToken delimiters text).1, char ∉ delimiters := by
  induction text with
  | nil => simp [scanToken]
  | cons char text ih =>
      rw [scanToken]
      split
      · simp
      · rename_i kept
        intro other member
        rcases List.mem_cons.mp member with rfl | later
        · exact kept
        · exact ih other later

theorem strtok_free {delimiters text token rest : Bytes}
    (found : strtok delimiters text = some (token, rest)) : ∀ char ∈ token, char ∉ delimiters := by
  induction text with
  | nil => cases found
  | cons char text ih =>
      rw [strtok] at found
      split at found
      · exact ih found
      · have free := scanToken_free delimiters (char :: text)
        rw [Option.some.inj found] at free
        exact free

theorem keptValue_free {form : Form} {text kept : Bytes} (found : keptValue form text = some kept) :
    61 ∉ kept := by
  have mark : (61 : UInt8) ∈ ascii "=" := by decide
  rw [keptValue, firstPiece] at found
  split at found
  · cases found
  · rename_i piece rest first
    split at found
    · obtain ⟨⟨token, more⟩, second, rfl⟩ := Option.map_eq_some_iff.mp found
      exact fun member => strtok_free second 61 member mark
    · cases found
      exact fun member => strtok_free first 61 member mark

theorem Settles.free (settles : Settles name value entries) : 61 ∉ value := by
  induction entries with
  | nil => exact settles.elim
  | cons entry entries ih =>
      cases entry with
      | blank space => exact ih settles
      | comment space text => exact ih settles
      | assignment form other text =>
          rw [Settles] at settles
          split at settles
          · split at settles
            · rename_i kept found
              exact settles ▸ keptValue_free found
            · exact ih settles
          · exact ih settles

/-- A value without `=` is kept whole, or, with blanks around the `=` in front of it, not
at all. -/
theorem keptValue_plain (valued : ConfValue value) (free : 61 ∉ value) (form : Form) :
    keptValue form value = if form = .spaced then none else some value := by
  have mark : ascii "=" = [61] := by decide
  have whole : ∀ text : Bytes, text ≠ [] → 61 ∉ text → strtok (ascii "=") text = some (text, []) :=
    fun text nonempty free => strtok_whole nonempty fun char member => by
      rw [mark, List.mem_singleton]
      rintro rfl
      exact free member
  rw [keptValue, firstPiece]
  by_cases spaced : form = .spaced
  · rw [if_pos spaced, if_pos spaced, whole (32 :: value) (by simp) (by simp [free])]
    rfl
  · rw [if_neg spaced, if_neg spaced, whole value valued.nonempty free]
    obtain ⟨first, rest, rfl⟩ := List.exists_cons_of_ne_nil valued.nonempty
    simp [valued.first first rfl]

theorem settles_skip {before : List ConfEntry} (absent : ∀ form text, .assignment form name text ∉ before) :
    Settles name value (before ++ entries) ↔ Settles name value entries := by
  induction before with
  | nil => exact Iff.rfl
  | cons entry before ih =>
      have rest := ih fun form text member => absent form text (List.mem_cons_of_mem _ member)
      cases entry with
      | blank space => exact rest
      | comment space text => exact rest
      | assignment form other text =>
          rw [List.cons_append, Settles, if_neg]
          · exact rest
          · rintro rfl
            exact absent form text (List.mem_cons_self ..)

end Found

/-- A value is read as written when it has no `=` in it and none of the blanks around the
first `=`; with the blanks the line is dropped, and the value must come from a later one. -/
theorem conf_value_iff {before later : List ConfEntry} {form : Form} {name value : Bytes}
    (ended : Bool)
    (plain : ∀ entry ∈ before ++ .assignment form name value :: later, entry.Plain)
    (first : ∀ form text, .assignment form name text ∉ before) :
    (∃ fuel conf, confRead fuel
        ⟨confFile (before ++ .assignment form name value :: later) ended, 0⟩ = some conf ∧
        confGet name conf = some value) ↔
      (confFile (before ++ .assignment form name value :: later) ended).length < indexRange ∧
        61 ∉ value ∧ (form = .spaced → Settles name value later) := by
  obtain ⟨-, valued⟩ : ConfName name ∧ ConfValue value :=
    plain (.assignment form name value) (by simp)
  have settled : Settles name value (before ++ .assignment form name value :: later) ↔
      61 ∉ value ∧ (form = .spaced → Settles name value later) := by
    rw [settles_skip first]
    constructor
    · intro settles
      have free := settles.free
      refine ⟨free, fun spaced => ?_⟩
      rw [Settles, if_pos rfl, keptValue_plain valued free, if_pos spaced] at settles
      exact settles
    · rintro ⟨free, rest⟩
      rw [Settles, if_pos rfl, keptValue_plain valued free]
      by_cases spaced : form = .spaced
      · rw [if_pos spaced]
        exact rest spaced
      · rw [if_neg spaced]
  generalize before ++ .assignment form name value :: later = entries at plain settled ⊢
  by_cases small : (confFile entries ended).length < indexRange
  · have reads : Reads ⟨confFile entries ended, 0⟩ (confFile entries ended) :=
      ⟨small, Nat.zero_le _, rfl⟩
    constructor
    · rintro ⟨fuel, conf, read, found⟩
      rw [confRead_some reads read, confFile_lines plain ended, confGet_iff] at found
      exact ⟨small, settled.mp found⟩
    · rintro ⟨-, holds⟩
      refine ⟨_, _, confRead_reads _ _ _ reads (Nat.lt_succ_self _), ?_⟩
      rw [confFile_lines plain ended, confGet_iff]
      exact settled.mpr holds
  · constructor
    · rintro ⟨fuel, conf, read, -⟩
      rw [confRead_endless ⟨by simpa using small, (by decide : 0 < indexRange)⟩] at read
      cases read
    · exact fun holds => absurd holds.1 small

/-- An assignment written as in the manual, with blanks around the `=`. -/
def manualEntries : List ConfEntry := [.assignment .spaced (ascii "mycall") (ascii "N0CALL")]

theorem spaced_lost : ¬ ∃ fuel conf, confRead fuel ⟨confFile manualEntries true, 0⟩ = some conf ∧
    confGet (ascii "mycall") conf = some (ascii "N0CALL") := by
  rintro ⟨fuel, conf, read, found⟩
  have reads : Reads ⟨confFile manualEntries true, 0⟩ (confFile manualEntries true) :=
    ⟨by decide +kernel, Nat.zero_le _, rfl⟩
  have nothing : ((linesOf (confFile manualEntries true)).filterMap
      fun line => confLine (cstring line)) = [] := by decide +kernel
  rw [confRead_some reads read, nothing] at found
  cases found

theorem conf_value_sample : ∃ fuel conf,
    confRead fuel ⟨confFile ([.comment [] (ascii " call sign")] ++
        .assignment .quoted (ascii "mycall") (ascii "N0CALL") :: []) true, 0⟩ = some conf ∧
      confGet (ascii "mycall") conf = some (ascii "N0CALL") := by
  refine (conf_value_iff true ?_ (by simp)).mpr
    ⟨by decide +kernel, by decide +kernel, fun spaced => by cases spaced⟩
  intro entry member
  rcases List.mem_append.mp member with comment | assignment
  · obtain rfl := List.mem_singleton.mp comment
    exact ⟨by simp, by decide +kernel⟩
  · obtain rfl := List.mem_singleton.mp assignment
    exact ⟨⟨by decide, by decide +kernel⟩, ⟨by decide, by decide +kernel, by decide +kernel,
      by decide +kernel⟩⟩

end PaclinkUnix
