import PaclinkUnix.Pickup

/-!
The rule for the pickup of messages by a caller, against what `p2p_qualify` makes of a
header in the form `mime2wl` writes and of any bytes behind it.
-/

namespace PaclinkUnix

open Buffer

inductive HeaderEntry where
  | toLine (addr : Bytes)
  | ccLine (addr : Bytes)
  | otherLine (line : Bytes)
  deriving DecidableEq, Repr

def HeaderEntry.line : HeaderEntry → Bytes
  | .toLine addr => field (ascii "To") (marked addr)
  | .ccLine addr => field (ascii "Cc") (marked addr)
  | .otherLine line => line

def HeaderEntry.Plain : HeaderEntry → Prop
  | .toLine addr | .ccLine addr => SingleLine addr
  | .otherLine line => HeaderLine line ∧ strbegins line (ascii "To:") = false ∧
      strbegins line (ascii "Cc:") = false

def toAddresses (entries : List HeaderEntry) : List Bytes :=
  entries.filterMap fun
    | .toLine addr => some addr
    | _ => none

def hasCc (entries : List HeaderEntry) : Bool :=
  entries.any fun
    | .ccLine _ => true
    | _ => false

/-- Everything behind the header; without a blank line there is nothing. -/
def behindBlank : Option Bytes → Bytes
  | none => []
  | some body => crlf ++ body

def outboxFile (entries : List HeaderEntry) (body : Option Bytes) : Bytes :=
  (entries.map HeaderEntry.line).flatten ++ behindBlank body

/-- The callsign in an address as it stands in a field. -/
def callsignOf (value : Bytes) : Bytes :=
  (if strbegins value (ascii "SMTP:") then value.drop 5 else value).takeWhile (· ≠ 64)

def addressedTo (call addr : Bytes) : Bool := strupper (callsignOf (marked addr)) = strupper call

/-- The rule: a single address, the caller's, and no copies. -/
def ForCaller (call : Bytes) (entries : List HeaderEntry) : Prop :=
  ∃ addr, toAddresses entries = [addr] ∧ addressedTo call addr = true ∧ hasCc entries = false

def otherFields (fields : List (Bytes × Bytes)) : List HeaderEntry :=
  (fieldLines fields).map .otherLine

def messageEntries (mid : Bytes) (message : Message) : List HeaderEntry :=
  otherFields [(ascii "Mid", mid), (ascii "Date", message.date), (ascii "Type", ascii "Private"),
    (ascii "From", marked (addressCleanup (message.sender.getD [])))] ++
    message.toList.map (fun header => .toLine (addressCleanup header)) ++
    message.ccList.map (fun header => .ccLine (addressCleanup header)) ++
    otherFields (recipientFields (ascii "Bcc") message.bccList ++
      [(ascii "Subject", message.subject.getD [])] ++
      message.replyTo.toList.map (fun header => (ascii "Reply-To", header)) ++
      [(ascii "Mbo", mboHeader (addressCleanup (message.sender.getD [])))]) ++
    (bodyField (chosenBody message) :: (attachments message.parts).map partFile).map .otherLine

theorem messageEntries_lines (mid : Bytes) (message : Message) :
    (messageEntries mid message).map HeaderEntry.line = fieldLines (message.allFields mid) := by
  have others : ∀ lines : List Bytes, (lines.map HeaderEntry.otherLine).map HeaderEntry.line =
      lines := by
    intro lines
    simp [Function.comp_def, HeaderEntry.line]
  have listed : ∀ key (rendered : List Bytes), fieldLines (recipientFields key rendered) =
      rendered.map fun header => field key (marked (addressCleanup header)) := by
    intro key rendered
    simp [fieldLines, recipientFields, Function.comp_def]
  have joined : ∀ first second, fieldLines (first ++ second) =
      fieldLines first ++ fieldLines second := fun _ _ => List.map_append
  have files : fieldLines message.partFields =
      bodyField (chosenBody message) :: (attachments message.parts).map partFile := by
    simp [fieldLines, Message.partFields, bodyField, partFile, Function.comp_def]
  simp only [messageEntries, otherFields, List.map_append, others, Message.allFields,
    Message.fields, messageFields, joined, listed, files, List.map_map, Function.comp_def,
    HeaderEntry.line]
  simp only [List.append_assoc]

theorem messageEntries_addresses (mid : Bytes) (message : Message) :
    toAddresses (messageEntries mid message) = message.toList.map addressCleanup ∧
      hasCc (messageEntries mid message) = !message.ccList.isEmpty := by
  have bare : ∀ lines : List Bytes, toAddresses (lines.map .otherLine) = [] ∧
      hasCc (lines.map .otherLine) = false := by
    intro lines
    constructor
    · simp [toAddresses, List.filterMap_map]
    · simp [hasCc, Function.comp_def]
  have addresses : ∀ first second, toAddresses (first ++ second) =
      toAddresses first ++ toAddresses second := fun _ _ => List.filterMap_append
  have copies : ∀ first second, hasCc (first ++ second) = (hasCc first || hasCc second) :=
    fun _ _ => List.any_append
  constructor
  · simp only [messageEntries, otherFields, addresses, bare]
    simp [toAddresses, List.filterMap_map]
  · simp only [messageEntries, otherFields, copies, bare]
    cases message.ccList <;> simp [hasCc, Function.comp_def]

theorem marked_singleLine {clean : Bytes} : SingleLine (marked clean) ↔ SingleLine clean := by
  have smtp : SingleLine (ascii "SMTP:") := by
    unfold SingleLine
    decide +kernel
  constructor
  · exact fun single char member => single char (List.mem_append_right _ member)
  · exact fun single char member => (marked_mem member).elim (smtp char) (single char)

theorem messageEntries_plain {mid : Bytes} {message : Message} (delivered : Delivered mid message)
    (single : ∀ entry ∈ message.allFields mid, SingleLine entry.2) :
    ∀ entry ∈ messageEntries mid message, entry.Plain := by
  intro entry member
  have isLine : HeaderLine entry.line := by
    have inside : entry.line ∈ fieldLines (message.allFields mid) := by
      rw [← messageEntries_lines]
      exact List.mem_map_of_mem member
    obtain ⟨pair, given, line⟩ := List.mem_map.mp inside
    rw [← line]
    exact field_headerLine (fields_strings delivered pair given).1 (single pair given)
  have cleaned : ∀ key, ∀ rendered : List Bytes,
      (∀ entry ∈ recipientFields key rendered, entry ∈ message.allFields mid) →
        ∀ header ∈ rendered, SingleLine (addressCleanup header) :=
    fun key rendered inside header given =>
      marked_singleLine.mp (single _ (inside _ (List.mem_map_of_mem given)))
  have toLines := cleaned (ascii "To") message.toList
    fun entry inside => by simp [Message.allFields, Message.fields, messageFields, inside]
  have ccLines := cleaned (ascii "Cc") message.ccList
    fun entry inside => by simp [Message.allFields, Message.fields, messageFields, inside]
  have other : ∀ key value, strbegins (field key value) (ascii "To:") = false ∧
      strbegins (field key value) (ascii "Cc:") = false → entry = .otherLine (field key value) →
      entry.Plain := by
    rintro key value noKey rfl
    exact ⟨isLine, noKey⟩
  simp only [messageEntries, otherFields, fieldLines, recipientFields, List.map_append,
    List.map_map, List.map_cons, List.map_nil, List.mem_append, List.mem_cons, List.not_mem_nil,
    or_false, List.mem_map, Function.comp_apply] at member
  rcases member with
    ((((rfl | rfl | rfl | rfl) | ⟨header, inside, rfl⟩) | ⟨header, inside, rfl⟩) |
      ((⟨header, -, rfl⟩ | rfl) | ⟨header, -, rfl⟩) | rfl) | rfl | ⟨part, -, rfl⟩
  · exact other _ _ ⟨rfl, rfl⟩ rfl
  · exact other _ _ ⟨rfl, rfl⟩ rfl
  · exact other _ _ ⟨rfl, rfl⟩ rfl
  · exact other _ _ ⟨rfl, rfl⟩ rfl
  · exact toLines header inside
  · exact ccLines header inside
  · exact other _ _ ⟨rfl, rfl⟩ rfl
  · exact other _ _ ⟨rfl, rfl⟩ rfl
  · exact other _ _ ⟨rfl, rfl⟩ rfl
  · exact other _ _ ⟨rfl, rfl⟩ rfl
  · exact other _ _ ⟨rfl, rfl⟩ rfl
  · exact other _ _ ⟨rfl, rfl⟩ rfl

inductive Look where
  | compared
  | overlooked
  | turnedAway
  deriving DecidableEq, Repr

/-- With its mark an address has 75 bytes before the cut. -/
def look (addr : Bytes) : Look :=
  if 64 ∈ addr then
    match (addr.take 75).count 64 with
    | 0 => .overlooked
    | 1 => .compared
    | _ => .turnedAway
  else if 58 ∈ (skipSpace addr).take 80 then .overlooked
  else .turnedAway

theorem lineValue_field {value : Bytes} (single : SingleLine value) :
    lineValue (field (ascii "To") value) = (skipSpace value).take 80 := by
  rw [lineValue, strzapcc_field (by decide +kernel) single]
  have rest : (ascii "To" ++ ascii ": " ++ value).drop 3 = 32 :: value := rfl
  rw [rest, skipSpace_space]

theorem lineValue_at {addr : Bytes} (single : SingleLine addr) (isAt : 64 ∈ addr) :
    lineValue (field (ascii "To") (marked addr)) = ascii "SMTP:" ++ addr.take 75 := by
  have value : marked addr = ascii "SMTP:" ++ addr := by rw [marked, if_pos (strchr_mem isAt)]
  rw [lineValue_field (marked_singleLine.mpr single), value,
    skipSpace_smtp]
  rfl

theorem count_split {before domain : Bytes} (absent : 64 ∉ before) :
    (before ++ 64 :: domain).count 64 = domain.count 64 + 1 := by
  rw [List.count_append, List.count_eq_zero.mpr absent, List.count_cons_self, Nat.zero_add]

theorem toLineQualifies_look {call addr : Bytes} (single : SingleLine addr)
    (upper : strupper call = call) :
    toLineQualifies call (field (ascii "To") (marked addr)) =
      match look addr with
      | .compared => addressedTo call addr
      | .overlooked => true
      | .turnedAway => false := by
  by_cases isAt : 64 ∈ addr
  · have colon : strchr 58 (ascii "SMTP:" ++ addr.take 75) = some (58 :: addr.take 75) := rfl
    rw [toLineQualifies, lineValue_at single isAt, colon, look, if_pos isAt]
    simp only
    by_cases near : 64 ∈ addr.take 75
    · obtain ⟨callsign, domain, split, absent⟩ := List.eq_append_cons_of_mem near
      rw [split, strchr_append absent, count_split absent, takeWhile_before absent]
      simp only
      by_cases again : 64 ∈ domain
      · have positive := List.count_pos_iff.mpr again
        rw [if_pos (strchr_mem again)]
        obtain ⟨more, count⟩ : ∃ more, domain.count 64 = more + 1 :=
          ⟨domain.count 64 - 1, by omega⟩
        rw [count]
        rfl
      · have whole : callsignOf (marked addr) = callsign := by
          have text : addr = callsign ++ 64 :: (domain ++ addr.drop 75) := by
            rw [← List.cons_append, ← List.append_assoc, ← split, List.take_append_drop]
          have value : marked addr = ascii "SMTP:" ++ addr := by
            rw [marked, if_pos (strchr_mem isAt)]
          have dropped : (ascii "SMTP:" ++ addr).drop 5 = addr := rfl
          rw [callsignOf, value, if_pos (strbegins_append _ _), dropped, text,
            takeWhile_before absent]
        rw [List.count_eq_zero.mpr again, strchr_none again, addressedTo, whole, upper]
        rfl
    · rw [strchr_none near, List.count_eq_zero.mpr near]
      rfl
  · have value : marked addr = addr := by
      have unmarked := strchr_none isAt
      rw [marked, unmarked]
      rfl
    have inside : ∀ char ∈ (skipSpace addr).take 80, char ∈ addr := fun char member =>
      (List.dropWhile_suffix _).subset (List.take_subset _ _ member)
    rw [toLineQualifies, value, lineValue_field single, look, if_neg isAt]
    by_cases colon : 58 ∈ (skipSpace addr).take 80
    · obtain ⟨before, behind, split, absent⟩ := List.eq_append_cons_of_mem colon
      have noAt : 64 ∉ behind := fun member => isAt (inside 64 (by rw [split]; simp [member]))
      rw [if_pos colon, split, strchr_append absent]
      simp only [strchr_none noAt]
    · rw [if_neg colon, strchr_none colon]

/-- The value has a colon, and behind it no `@` or a single one, with the callsign in front. -/
def NamesCaller (call value : Bytes) : Prop :=
  ∃ before address, value = before ++ 58 :: address ∧ 58 ∉ before ∧
    (64 ∉ address ∨ ∃ callsign domain, address = callsign ++ 64 :: domain ∧ 64 ∉ callsign ∧
      64 ∉ domain ∧ strupper callsign = call)

/-- A line behind the header that does not turn the file away: it is no `Cc:` line, and a `To:` line
only if that names the caller. -/
structure PassedOver (call line : Bytes) : Prop where
  toCaller : strbegins line (ascii "To:") = true → NamesCaller call (lineValue line)
  noCopy : strbegins line (ascii "To:") = false → strbegins line (ascii "Cc:") = false

/-- The scan of the file behind the header comes to its end. -/
def ScannedToEnd (call : Bytes) (entries : List HeaderEntry) (body : Option Bytes) : Prop :=
  (outboxFile entries body).length < indexRange ∧
    ∀ line ∈ linesOf (behindBlank body), PassedOver call (cstring line)

theorem toLineQualifies_iff (call line : Bytes) :
    toLineQualifies call line = true ↔ NamesCaller call (lineValue line) := by
  rw [toLineQualifies]
  constructor
  · intro qualifies
    by_cases colon : 58 ∈ lineValue line
    · obtain ⟨before, address, value, first⟩ := List.eq_append_cons_of_mem colon
      refine ⟨before, address, value, first, ?_⟩
      by_cases isAt : 64 ∈ address
      · obtain ⟨callsign, domain, parts, absent⟩ := List.eq_append_cons_of_mem isAt
        simp only [value, strchr_append first, parts, strchr_append absent,
          takeWhile_before absent] at qualifies
        split at qualifies
        · cases qualifies
        · rename_i single
          exact .inr ⟨callsign, domain, parts, absent, fun again => single (strchr_mem again),
            of_decide_eq_true qualifies⟩
      · exact .inl isAt
    · rw [strchr_none colon] at qualifies
      cases qualifies
  · rintro ⟨before, address, value, first, noAt | ⟨callsign, domain, rfl, absent, single, same⟩⟩
    · simp only [value, strchr_append first, strchr_none noAt]
    · simp only [value, strchr_append first, strchr_append absent, strchr_none single,
        takeWhile_before absent, Option.isSome_none, Bool.false_eq_true, if_false]
      exact decide_eq_true same

theorem lineQualifies_iff (call line : Bytes) :
    lineQualifies call line = true ↔ PassedOver call line := by
  rw [lineQualifies]
  cases isTo : strbegins line (ascii "To:") with
  | true =>
      rw [if_pos rfl, toLineQualifies_iff]
      exact ⟨fun names => ⟨fun _ => names, fun other => absurd (isTo.symm.trans other) (by decide)⟩,
        fun passed => passed.toCaller isTo⟩
  | false =>
      rw [if_neg Bool.false_ne_true, Bool.not_eq_true']
      exact ⟨fun noCopy => ⟨fun other => absurd (isTo.symm.trans other) (by decide), fun _ => noCopy⟩,
        fun passed => passed.noCopy isTo⟩

theorem linesQualify_iff (call text : Bytes) :
    linesQualify call text = true ↔ ∀ line ∈ linesOf text, PassedOver call (cstring line) := by
  simp only [linesQualify, List.all_eq_true, lineQualifies_iff]

theorem entry_headerLine {entry : HeaderEntry} (plain : entry.Plain) : HeaderLine entry.line := by
  cases entry with
  | toLine addr => exact field_headerLine (by decide +kernel) (marked_singleLine.mpr plain)
  | ccLine addr => exact field_headerLine (by decide +kernel) (marked_singleLine.mpr plain)
  | otherLine line => exact plain.1

/-- What a line of the header needs for the scan to go on. -/
def entryPasses (call : Bytes) : HeaderEntry → Bool
  | .toLine addr =>
      match look addr with
      | .compared => addressedTo call addr
      | .overlooked => true
      | .turnedAway => false
  | .ccLine _ => false
  | .otherLine _ => true

theorem lineQualifies_entry {call : Bytes} {entry : HeaderEntry} (plain : entry.Plain)
    (upper : strupper call = call) :
    lineQualifies call (cstring entry.line) = entryPasses call entry := by
  obtain ⟨text, ended, notNul⟩ := (entry_headerLine plain).ended
  have whole : cstring entry.line = entry.line := by
    refine cstring_of_notNul fun char member => ?_
    rw [ended, List.mem_append, List.mem_singleton] at member
    rcases member with member | rfl
    · exact (notNul char member).2
    · decide
  rw [whole]
  cases entry with
  | toLine addr =>
      have begins : strbegins (HeaderEntry.toLine addr).line (ascii "To:") = true := rfl
      rw [lineQualifies, if_pos begins]
      exact toLineQualifies_look plain upper
  | ccLine addr =>
      have noTo : strbegins (HeaderEntry.ccLine addr).line (ascii "To:") = false := rfl
      have begins : strbegins (HeaderEntry.ccLine addr).line (ascii "Cc:") = true := rfl
      rw [lineQualifies, noTo, begins]
      rfl
  | otherLine line =>
      obtain ⟨-, noTo, noCc⟩ := plain
      rw [lineQualifies, HeaderEntry.line, noTo, noCc]
      rfl

theorem linesQualify_file {call : Bytes} {entries : List HeaderEntry} (body : Option Bytes)
    (plain : ∀ entry ∈ entries, entry.Plain) (upper : strupper call = call) :
    linesQualify call (outboxFile entries body) =
      (entries.all (entryPasses call) && linesQualify call (behindBlank body)) := by
  have areLines : ∀ line ∈ entries.map HeaderEntry.line, HeaderLine line := by
    intro line member
    obtain ⟨entry, inside, rfl⟩ := List.mem_map.mp member
    exact entry_headerLine (plain entry inside)
  rw [linesQualify, outboxFile, linesOf_header areLines, List.all_append, List.all_map]
  congr 1
  induction entries with
  | nil => rfl
  | cons entry entries ih =>
      have later := ih (fun other member => plain other (List.mem_cons_of_mem _ member))
        fun line member => areLines line (List.mem_cons_of_mem _ member)
      rw [List.all_cons, List.all_cons, Function.comp_apply,
        lineQualifies_entry (plain entry (List.mem_cons_self ..)) upper, later]

theorem entriesPass_iff (call : Bytes) (entries : List HeaderEntry) :
    entries.all (entryPasses call) = true ↔
      hasCc entries = false ∧
        ∀ addr ∈ toAddresses entries, entryPasses call (.toLine addr) = true := by
  induction entries with
  | nil => simp [hasCc, toAddresses]
  | cons entry entries ih =>
      rw [List.all_cons, Bool.and_eq_true, ih]
      cases entry with
      | toLine addr => simp [hasCc, toAddresses, and_left_comm]
      | ccLine addr => simp [hasCc, entryPasses]
      | otherLine line => simp [hasCc, toAddresses, entryPasses]

def RuleHolds (call : Bytes) (entries : List HeaderEntry) (body : Option Bytes) : Prop :=
  hasCc entries = true ∨
    match toAddresses entries with
    | [] => ¬ ScannedToEnd call entries body
    | [addr] =>
        match look addr with
        | .compared => addressedTo call addr = true → ScannedToEnd call entries body
        | .overlooked => addressedTo call addr = true ↔ ScannedToEnd call entries body
        | .turnedAway => addressedTo call addr = false
    | several =>
        ScannedToEnd call entries body →
          ∃ addr ∈ several, look addr = .turnedAway ∨
            (look addr = .compared ∧ addressedTo call addr = false)

theorem entryPasses_to (call addr : Bytes) :
    entryPasses call (.toLine addr) = false ↔
      look addr = .turnedAway ∨ (look addr = .compared ∧ addressedTo call addr = false) := by
  rw [entryPasses]
  cases look addr <;> simp

theorem scan_rule_iff (call : Bytes) (entries : List HeaderEntry) (body : Option Bytes) :
    ((entries.all (entryPasses call) = true ∧ ScannedToEnd call entries body) ↔
        ForCaller call entries) ↔ RuleHolds call entries body := by
  rw [entriesPass_iff, RuleHolds, ForCaller]
  cases copies : hasCc entries with
  | true => simp
  | false =>
      simp only [true_and, Bool.false_eq_true, false_or, and_true]
      match addrs : toAddresses entries with
      | [] => simp
      | [addr] =>
          simp only [List.mem_singleton, forall_eq, List.cons.injEq, and_true, exists_eq_left',
            entryPasses]
          cases look addr with
          | compared =>
              simp only
              tauto
          | overlooked => simp [iff_comm]
          | turnedAway => simp
      | first :: second :: more =>
          simp only [List.cons.injEq, reduceCtorEq, and_false, false_and, exists_false, iff_false]
          constructor
          · intro stopped scanned
            by_contra passed
            refine stopped ⟨fun addr member => ?_, scanned⟩
            by_contra rejected
            have kind := (entryPasses_to call addr).mp (Bool.eq_false_of_not_eq_true rejected)
            exact passed ⟨addr, member, kind⟩
          · rintro stopped ⟨pass, scanned⟩
            obtain ⟨addr, member, kind⟩ := stopped scanned
            have passes := pass addr member
            rw [(entryPasses_to call addr).mpr kind] at passes
            cases passes

theorem p2pQualify_file_iff {call : Bytes} {entries : List HeaderEntry} (body : Option Bytes)
    (plain : ∀ entry ∈ entries, entry.Plain) (upper : strupper call = call) :
    (∃ fuel, p2pQualify call fuel ⟨outboxFile entries body, 0⟩ = some true) ↔
      entries.all (entryPasses call) = true ∧ ScannedToEnd call entries body := by
  rw [p2pQualify_iff, linesQualify_file body plain upper, Bool.and_eq_true, ScannedToEnd,
    linesQualify_iff]
  tauto

theorem prepareOutboundProposals_entry {fuel : Nat} {encode : Bytes → Bytes → Option Bytes} {bp2p : Bool}
    {remotecall : Bytes} {dirp : List DirEntry} {props : List Proposal}
    (prepared : prepareOutboundProposals fuel encode bp2p remotecall dirp = some props)
    {dp : DirEntry} (member : dp ∈ dirp) :
    ∃ prop, prepareEntry fuel encode bp2p remotecall dp = some prop := by
  induction dirp generalizing props with
  | nil => cases member
  | cons first dirp ih =>
      simp only [prepareOutboundProposals, Option.bind_eq_bind, Option.bind_eq_some_iff] at prepared
      obtain ⟨prop, entry, rest, others, -⟩ := prepared
      rcases List.mem_cons.mp member with rfl | member
      · exact ⟨prop, entry⟩
      · exact ih others member

/-- Among the proposals of a session for a caller are those of the files that qualify. -/
theorem offered_iff {fuel : Nat} {encode : Bytes → Bytes → Option Bytes} {call : Bytes}
    {dirp : List DirEntry} {props : List Proposal} {name file : Bytes}
    (distinct : (dirp.map DirEntry.name).Nodup) (member : ⟨name, some file⟩ ∈ dirp)
    (short : name.length ≤ midMaxLen)
    (prepared : prepareOutboundProposals fuel encode true call dirp = some props) :
    (∃ prop ∈ props, prop.mid = name) ↔ ∃ fuel, p2pQualify call fuel ⟨file, 0⟩ = some true := by
  have notLong : ¬ midMaxLen < name.length := by omega
  have entryOf : ∀ dp ∈ dirp, dp.name = name → dp = ⟨name, some file⟩ := fun dp inside same =>
    List.inj_on_of_nodup_map distinct inside member same
  have round : prepareEntry fuel encode true call ⟨name, some file⟩ =
      (p2pQualify call fuel ⟨file, 0⟩).bind fun qualified =>
        if qualified then (prepareProposal fuel (encode name) name file).bind fun prop => some (some prop)
        else some none := by
    rw [prepareEntry, if_neg notLong]
    rfl
  constructor
  · rintro ⟨prop, inside, same⟩
    obtain ⟨dp, listed, entry⟩ := (prepareOutboundProposals_mem prepared prop).mp inside
    rw [entryOf dp listed ((prepareEntry_some entry).1 ▸ same), round,
      Option.bind_eq_some_iff] at entry
    obtain ⟨qualified, found, rest⟩ := entry
    cases qualified with
    | true => exact ⟨fuel, found⟩
    | false => cases rest
  · intro qualifies
    obtain ⟨small, all⟩ := (p2pQualify_iff call file).mp qualifies
    obtain ⟨prop, entry⟩ := prepareOutboundProposals_entry prepared member
    have made := entry
    rw [round, Option.bind_eq_some_iff] at entry
    obtain ⟨qualified, found, rest⟩ := entry
    have reads : Reads ⟨file, 0⟩ file := ⟨small, Nat.zero_le _, rfl⟩
    rw [p2pQualify_some reads found, all, if_pos rfl, Option.bind_eq_some_iff] at rest
    obtain ⟨proposal, -, same⟩ := rest
    cases same
    exact ⟨proposal, (prepareOutboundProposals_mem prepared proposal).mpr ⟨_, member, made⟩,
      (prepareEntry_some made).1⟩

/-- `p2p_qualify`, and with it a session for the caller, follows the rule. -/
structure OfferedRightly (encode : Bytes → Bytes → Option Bytes) (call : Bytes)
    (entries : List HeaderEntry) (body : Option Bytes) : Prop where
  qualified : (∃ fuel, p2pQualify call fuel ⟨outboxFile entries body, 0⟩ = some true) ↔
    ForCaller call entries
  offered : ∀ fuel dirp props name, (dirp.map DirEntry.name).Nodup →
    ⟨name, some (outboxFile entries body)⟩ ∈ dirp → name.length ≤ midMaxLen →
    prepareOutboundProposals fuel encode true call dirp = some props →
    ((∃ prop ∈ props, prop.mid = name) ↔ ForCaller call entries)

theorem pickup_rule_iff (encode : Bytes → Bytes → Option Bytes) (call : Bytes)
    (entries : List HeaderEntry) (body : Option Bytes)
    (plain : ∀ entry ∈ entries, entry.Plain) (upper : strupper call = call) :
    OfferedRightly encode call entries body ↔ RuleHolds call entries body := by
  rw [← scan_rule_iff, ← p2pQualify_file_iff body plain upper]
  constructor
  · exact fun rightly => rightly.qualified
  · intro qualified
    refine ⟨qualified, fun fuel dirp props name distinct member short prepared => ?_⟩
    rw [offered_iff distinct member short prepared, qualified]

def sampleEntries : List HeaderEntry :=
  [.otherLine (field (ascii "Mid") (ascii "ABCDE_N0CALL")), .toLine (ascii "w1aw@winlink.org")]

theorem sampleEntries_plain : ∀ entry ∈ sampleEntries, entry.Plain := by
  have mid : HeaderLine (field (ascii "Mid") (ascii "ABCDE_N0CALL")) :=
    field_headerLine (by decide +kernel) (by unfold SingleLine; decide +kernel)
  simp only [sampleEntries, List.mem_cons, List.not_mem_nil, or_false, forall_eq_or_imp, forall_eq]
  exact ⟨⟨mid, by decide +kernel, by decide +kernel⟩, by
    unfold HeaderEntry.Plain SingleLine; decide +kernel⟩

theorem pickup_rule_sample :
    OfferedRightly (fun _ => some) (ascii "W1AW") sampleEntries (some (ascii "Hi")) := by
  have single : toAddresses sampleEntries = [ascii "w1aw@winlink.org"] := rfl
  have compared : look (ascii "w1aw@winlink.org") = .compared := by decide +kernel
  have scanned : ScannedToEnd (ascii "W1AW") sampleEntries (some (ascii "Hi")) := by
    refine ⟨by decide +kernel, (linesQualify_iff _ _).mp ?_⟩
    decide +kernel
  refine (pickup_rule_iff (fun _ => some) (ascii "W1AW") sampleEntries (some (ascii "Hi"))
    sampleEntries_plain (by decide +kernel)).mpr (.inr ?_)
  rw [single]
  simp only [compared]
  exact fun _ => scanned

/-- A message to hidden recipients alone goes to every caller. -/
theorem blind_copy_offered :
    ¬ OfferedRightly (fun _ => some) (ascii "W1AW") [.otherLine (field (ascii "Bcc") (ascii "N0CALL"))]
      (some []) := by
  intro rightly
  obtain ⟨addr, single, -⟩ := rightly.qualified.mp ⟨40, by decide +kernel⟩
  cases single

end PaclinkUnix
