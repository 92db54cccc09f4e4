import PaclinkUnix.MessageLines
import PaclinkUnix.OutboxLedger

/-!
Which messages of the outbox a session offers: `p2p_qualify` and
`prepare_outbound_proposals`.
-/

namespace PaclinkUnix

open Buffer

/-- The text behind a key of three characters, cut at 80. -/
def lineValue (line : Bytes) : Bytes := (skipSpace ((strzapcc line).drop 3)).take 80

/-- The test of a `To:` line. A value without a colon is taken for an error, one
without an `@` behind the colon is not looked at further. -/
def toLineQualifies (remotecall line : Bytes) : Bool :=
  match strchr 58 (lineValue line) with
  | some (_ :: callsign) =>
      match strchr 64 callsign with
      | some (_ :: domain) =>
          if (strchr 64 domain).isSome then false
          else strupper (callsign.takeWhile (· ≠ 64)) = remotecall
      | _ => true
  | _ => false

/-- One round of the loop: whether the line lets it go on. -/
def lineQualifies (remotecall line : Bytes) : Bool :=
  if strbegins line (ascii "To:") then toLineQualifies remotecall line
  else !strbegins line (ascii "Cc:")

def p2pQualify (remotecall : Bytes) : Nat → Buffer → Option Bool
  | 0, _ => none
  | fuel + 1, readfile => do
      match ← readfile.getline lineFeed fuel with
      | (none, _) => some true
      | (some line, readfile) =>
          if lineQualifies remotecall line then p2pQualify remotecall fuel readfile
          else some false

/-- The text of the last `Subject:` line of the whole file. -/
def readTitle : Nat → Option Bytes → Buffer → Option (Option Bytes)
  | 0, _, _ => none
  | fuel + 1, title, ubuf => do
      match ← ubuf.getline lineFeed fuel with
      | (none, _) => some title
      | (some line, ubuf) =>
          if strbegins line (ascii "Subject:") then
            readTitle fuel (some ((skipSpace ((strzapcc line).drop 8)).take 80)) ubuf
          else readTitle fuel title ubuf

/-- An entry of the outbox directory; `file` is what a regular file holds. -/
structure DirEntry where
  name : Bytes
  file : Option Bytes
  deriving DecidableEq, Repr

def prepareProposal (fuel : Nat) (encode : Bytes → Option Bytes) (name ubuf : Bytes) :
    Option Proposal := do
  let cbuf ← encode ubuf
  let title ← readTitle fuel none ⟨ubuf, 0⟩
  some
    { code := 67
      type := 69
      mid := name
      path := some name
      ubuf := ubuf
      usize := ubuf.length
      cbuf := cbuf
      csize := cbuf.length
      title := title.getD (ascii "No subject")
      offset := 0
      accepted := false
      delete := false }

def entryQualifies (fuel : Nat) (bp2p : Bool) (remotecall ubuf : Bytes) : Option Bool :=
  if bp2p then p2pQualify remotecall fuel ⟨ubuf, 0⟩ else some true

/-- The round for one entry: the proposal it adds, if any. `encode` is `version_1_Encode` with the
statics that it finds when the file of that name is its turn; its failure ends the program, so
there is no list then. For a file that does not qualify the source reads `prop->ubuf` once more
behind `free(prop)`, to free it too. -/
def prepareEntry (fuel : Nat) (encode : Bytes → Bytes → Option Bytes) (bp2p : Bool) (remotecall : Bytes)
    (dp : DirEntry) : Option (Option Proposal) :=
  if midMaxLen < dp.name.length then some none
  else
    match dp.file with
    | none => some none
    | some ubuf => do
        if ← entryQualifies fuel bp2p remotecall ubuf then
          let prop ← prepareProposal fuel (encode dp.name) dp.name ubuf
          some (some prop)
        else some none

def prepareOutboundProposals (fuel : Nat) (encode : Bytes → Bytes → Option Bytes) (bp2p : Bool)
    (remotecall : Bytes) : List DirEntry → Option (List Proposal)
  | [] => some []
  | dp :: dirp => do
      let prop ← prepareEntry fuel encode bp2p remotecall dp
      let props ← prepareOutboundProposals fuel encode bp2p remotecall dirp
      some (prop.toList ++ props)

theorem prepareEntry_some {fuel : Nat} {encode : Bytes → Bytes → Option Bytes} {bp2p : Bool}
    {remotecall : Bytes} {dp : DirEntry} {prop : Proposal}
    (prepared : prepareEntry fuel encode bp2p remotecall dp = some (some prop)) :
    prop.mid = dp.name ∧ prop.path = some dp.name ∧ prop.delete = false ∧ prop.offset = 0 ∧
      dp.file = some prop.ubuf ∧ encode dp.name prop.ubuf = some prop.cbuf ∧
      prop.csize = prop.cbuf.length := by
  rw [prepareEntry] at prepared
  split at prepared
  · cases prepared
  · split at prepared
    · cases prepared
    · rename_i ubuf file
      simp only [Option.bind_eq_bind, Option.bind_eq_some_iff] at prepared
      obtain ⟨qualified, -, prepared⟩ := prepared
      cases qualified with
      | false => cases prepared
      | true =>
          simp only [if_true, Option.bind_eq_some_iff] at prepared
          obtain ⟨made, found, same⟩ := prepared
          cases same
          simp only [prepareProposal, Option.bind_eq_bind, Option.bind_eq_some_iff] at found
          obtain ⟨cbuf, encoded, title, -, same⟩ := found
          cases same
          exact ⟨rfl, rfl, rfl, rfl, file, encoded, rfl⟩

theorem prepareOutboundProposals_mem {fuel : Nat} {encode : Bytes → Bytes → Option Bytes} {bp2p : Bool}
    {remotecall : Bytes} {dirp : List DirEntry} {props : List Proposal}
    (prepared : prepareOutboundProposals fuel encode bp2p remotecall dirp = some props)
    (prop : Proposal) :
    prop ∈ props ↔ ∃ dp ∈ dirp, prepareEntry fuel encode bp2p remotecall dp = some (some prop) := by
  induction dirp generalizing props with
  | nil =>
      cases prepared
      simp
  | cons dp dirp ih =>
      simp only [prepareOutboundProposals, Option.bind_eq_bind, Option.bind_eq_some_iff] at prepared
      obtain ⟨first, entry, rest, others, same⟩ := prepared
      cases same
      rw [List.mem_append, ih others]
      simp [entry]

theorem prepareOutboundProposals_names {fuel : Nat} {encode : Bytes → Bytes → Option Bytes} {bp2p : Bool}
    {remotecall : Bytes} {dirp : List DirEntry} {props : List Proposal}
    (prepared : prepareOutboundProposals fuel encode bp2p remotecall dirp = some props) :
    (props.map Proposal.mid).Sublist (dirp.map DirEntry.name) := by
  induction dirp generalizing props with
  | nil =>
      cases prepared
      exact List.Sublist.refl _
  | cons dp dirp ih =>
      simp only [prepareOutboundProposals, Option.bind_eq_bind, Option.bind_eq_some_iff] at prepared
      obtain ⟨first, entry, rest, others, same⟩ := prepared
      cases same
      cases first with
      | none => exact (ih others).cons _
      | some prop =>
          have name := (prepareEntry_some entry).1
          simp only [Option.toList_some, List.cons_append, List.nil_append, List.map_cons, name]
          exact (ih others).cons_cons _

/-- The proposals of a directory, whose names are all different, are as the sending side
needs them. -/
theorem prepareOutboundProposals_prepared {fuel : Nat} {encode : Bytes → Bytes → Option Bytes}
    {bp2p : Bool} {remotecall : Bytes} {dirp : List DirEntry} {props : List Proposal}
    (distinct : (dirp.map DirEntry.name).Nodup)
    (prepared : prepareOutboundProposals fuel encode bp2p remotecall dirp = some props) :
    Prepared props where
  distinct := (prepareOutboundProposals_names prepared).nodup distinct
  clear := by
    intro prop member
    obtain ⟨dp, -, entry⟩ := (prepareOutboundProposals_mem prepared prop).mp member
    obtain ⟨name, path, kept, offset, -, -, csize⟩ := prepareEntry_some entry
    exact ⟨kept, offset, name ▸ path, csize⟩

theorem linesOf_headerLine {line : Bytes} (isLine : HeaderLine line) (rest : Bytes) :
    linesOf (line ++ rest) = line :: linesOf rest := by
  obtain ⟨text, rfl, plain⟩ := isLine.ended
  have split := splitLine_ended text (fun char member => (plain char member).1) rest
  rw [linesOf_splitLine (by simp), split]

theorem linesOf_header {lines : List Bytes} (areLines : ∀ line ∈ lines, HeaderLine line)
    (rest : Bytes) : linesOf (lines.flatten ++ rest) = lines ++ linesOf rest := by
  induction lines with
  | nil => rfl
  | cons line lines ih =>
      rw [List.flatten_cons, List.append_assoc,
        linesOf_headerLine (areLines line (List.mem_cons_self ..)),
        ih fun other member => areLines other (List.mem_cons_of_mem _ member)]
      rfl

def linesQualify (remotecall text : Bytes) : Bool :=
  (linesOf text).all fun line => lineQualifies remotecall (cstring line)

/-- Below the index range the loop ends and has looked at every line. -/
theorem p2pQualify_reads (remotecall : Bytes) (fuel : Nat) (b : Buffer) (text : Bytes)
    (reads : Reads b text) (enough : text.length < fuel) :
    p2pQualify remotecall fuel b = some (linesQualify remotecall text) := by
  induction fuel generalizing b text with
  | zero => omega
  | succ fuel ih =>
      rw [p2pQualify]
      by_cases ended : text = []
      · subst ended
        rw [getline_nil lineFeed fuel b reads]
        rfl
      · obtain ⟨after, read, -, left⟩ := getline_reads lineFeed fuel b text reads ended (by omega)
        have lengths := congrArg List.length (splitLine_length lineFeed text)
        rw [List.length_append] at lengths
        have positive := splitLine_pos lineFeed ended
        rw [read, linesQualify, linesOf_splitLine ended]
        simp only [Option.bind_eq_bind, Option.bind_some, List.all_cons]
        split
        · rename_i qualifies
          rw [ih after _ left (by omega), qualifies]
          rfl
        · rename_i rejected
          rw [Bool.eq_false_of_not_eq_true rejected]
          rfl

theorem p2pQualify_endless {remotecall : Bytes} {fuel : Nat} {b : Buffer} (endless : Endless b) :
    p2pQualify remotecall fuel b ≠ some true := by
  induction fuel generalizing b with
  | zero => simp [p2pQualify]
  | succ fuel ih =>
      rw [p2pQualify]
      intro found
      simp only [Option.bind_eq_bind, Option.bind_eq_some_iff] at found
      obtain ⟨⟨line, after⟩, read, found⟩ := found
      obtain ⟨present, later⟩ := getline_endless endless read
      cases line with
      | none => cases present
      | some line =>
          simp only at found
          split at found
          · exact ih later found
          · cases found

theorem p2pQualify_some {remotecall : Bytes} {fuel : Nat} {b : Buffer} {text : Bytes}
    {qualified : Bool} (reads : Reads b text)
    (found : p2pQualify remotecall fuel b = some qualified) :
    qualified = linesQualify remotecall text := by
  induction fuel generalizing b text with
  | zero => cases found
  | succ fuel ih =>
      simp only [p2pQualify, Option.bind_eq_bind, Option.bind_eq_some_iff] at found
      obtain ⟨⟨line, after⟩, read, found⟩ := found
      by_cases ended : text = []
      · subst ended
        rw [getline_nil lineFeed fuel b reads] at read
        cases read
        cases found
        rfl
      · obtain ⟨rfl, left⟩ := getline_some reads ended read
        rw [linesQualify, linesOf_splitLine ended, List.all_cons]
        simp only at found
        split at found
        · rename_i qualifies
          rw [qualifies, ih left found]
          rfl
        · rename_i rejected
          cases found
          rw [Bool.eq_false_of_not_eq_true rejected]
          rfl

theorem p2pQualify_iff (remotecall file : Bytes) :
    (∃ fuel, p2pQualify remotecall fuel ⟨file, 0⟩ = some true) ↔
      file.length < indexRange ∧ linesQualify remotecall file = true := by
  by_cases small : file.length < indexRange
  · have reads : Reads ⟨file, 0⟩ file := ⟨small, Nat.zero_le _, rfl⟩
    constructor
    · rintro ⟨fuel, found⟩
      exact ⟨small, (p2pQualify_some reads found).symm⟩
    · rintro ⟨-, qualifies⟩
      refine ⟨file.length + 1, ?_⟩
      rw [p2pQualify_reads remotecall _ _ _ reads (Nat.lt_succ_self _), qualifies]
  · constructor
    · rintro ⟨fuel, found⟩
      have endless : Endless ⟨file, 0⟩ := ⟨Nat.le_of_not_lt small, (by decide : 0 < indexRange)⟩
      exact absurd found (p2pQualify_endless endless)
    · rintro ⟨within, -⟩
      exact absurd within small

end PaclinkUnix
