import PaclinkUnix.Pickup

/-!
The title of a proposal. It is the text of the last `Subject:` line of the file, wherever
that stands.
-/

namespace PaclinkUnix

open Buffer

def titleStep (title : Option Bytes) (line : Bytes) : Option Bytes :=
  if strbegins line (ascii "Subject:") then some ((skipSpace ((strzapcc line).drop 8)).take 80)
  else title

def linesTitle (title : Option Bytes) (text : Bytes) : Option Bytes :=
  ((linesOf text).map cstring).foldl titleStep title

/-- What the title should be: the subject without leading blanks, cut at 80. -/
def subjectTitle (fields : List (Bytes × Bytes)) : Bytes :=
  match fields.find? fun header => header.1 = ascii "Subject" with
  | some header => (skipSpace header.2).take 80
  | none => ascii "No subject"

/-- A text that goes on to the end of its line. -/
def LineText (text : Bytes) : Prop := ∀ char ∈ text, char ≠ 10 ∧ char ≠ 0

structure Header (fields : List (Bytes × Bytes)) : Prop where
  plain : ∀ header ∈ fields, FieldName header.1 ∧ LineText header.2
  once : (fields.filter fun header => header.1 = ascii "Subject").length ≤ 1

/-- No carriage return up to the end of what is to be sent. -/
def Unreturned (value : Bytes) : Prop :=
  skipSpace value = [] ∨ 13 ∉ value.takeWhile isspace ++ (skipSpace value).take 80

def titledFile (fields : List (Bytes × Bytes)) (rest : Bytes) : Bytes :=
  (fieldLines fields).flatten ++ (crlf ++ rest)

section Reading

variable {fuel : Nat} {b : Buffer} {title : Option Bytes}

theorem readTitle_reads (fuel : Nat) (title : Option Bytes) (b : Buffer) (text : Bytes)
    (reads : Reads b text) (enough : text.length < fuel) :
    readTitle fuel title b = some (linesTitle title text) := by
  induction fuel generalizing title b text with
  | zero => omega
  | succ fuel ih =>
      rw [readTitle]
      by_cases ended : text = []
      · subst ended
        rw [getline_nil lineFeed fuel b reads]
        rfl
      · obtain ⟨after, read, -, left⟩ := getline_reads lineFeed fuel b text reads ended (by omega)
        have lengths := congrArg List.length (splitLine_length lineFeed text)
        rw [List.length_append] at lengths
        have shorter := splitLine_pos lineFeed ended
        have next := fun title => ih title after _ left (by omega)
        rw [read, linesTitle, linesOf_splitLine ended]
        simp only [Option.bind_eq_bind, Option.bind_some, List.map_cons, List.foldl_cons, titleStep]
        split
        · exact next _
        · exact next _

theorem readTitle_endless (endless : Endless b) : readTitle fuel title b = none := by
  induction fuel generalizing title b with
  | zero => rfl
  | succ fuel ih =>
      rw [readTitle]
      rcases read : b.getline lineFeed fuel with _ | ⟨line, after⟩
      · rfl
      · obtain ⟨present, later⟩ := getline_endless endless read
        cases line with
        | none => cases present
        | some line =>
            simp only [Option.bind_eq_bind, Option.bind_some]
            split
            · exact ih later
            · exact ih later

theorem readTitle_some {text : Bytes} {found : Option Bytes} (reads : Reads b text)
    (read : readTitle fuel title b = some found) : found = linesTitle title text := by
  induction fuel generalizing title b text with
  | zero => cases read
  | succ fuel ih =>
      simp only [readTitle, Option.bind_eq_bind, Option.bind_eq_some_iff] at read
      obtain ⟨⟨line, after⟩, first, later⟩ := read
      by_cases ended : text = []
      · subst ended
        rw [getline_nil lineFeed fuel b reads] at first
        cases first
        cases later
        rfl
      · obtain ⟨rfl, left⟩ := getline_some reads ended first
        rw [linesTitle, linesOf_splitLine ended, List.map_cons, List.foldl_cons, titleStep]
        simp only at later
        split at later
        · rename_i subject
          rw [if_pos subject]
          exact ih left later
        · rename_i other
          rw [if_neg other]
          exact ih left later

end Reading

section Headers

variable {fields : List (Bytes × Bytes)} {title : Option Bytes}

theorem strbegins_field {key other : Bytes} (keyPlain : ∀ char ∈ key, char ≠ 58)
    (plain : ∀ char ∈ other, char ≠ 58) (rest : Bytes) :
    strbegins (key ++ 58 :: rest) (other ++ [58]) = decide (key = other) := by
  induction key generalizing other with
  | nil =>
      cases other with
      | nil => simp [strbegins]
      | cons first others =>
          have different := plain first (List.mem_cons_self ..)
          simp [strbegins, List.isPrefixOf, different]
  | cons char key ih =>
      have different := keyPlain char (List.mem_cons_self ..)
      cases other with
      | nil => simp [strbegins, List.isPrefixOf, Ne.symm different]
      | cons first others =>
          have later := ih (fun other member => keyPlain other (List.mem_cons_of_mem _ member))
            (fun other member => plain other (List.mem_cons_of_mem _ member))
          simp only [strbegins, List.cons_append, List.isPrefixOf_cons_cons] at later ⊢
          rw [later]
          by_cases same : first = char
          · simp [same]
          · simp [same, Ne.symm same]

theorem lineText_headerLine {key value : Bytes} (name : FieldName key) (text : LineText value) :
    HeaderLine (field key value) := by
  constructor
  · refine ⟨key ++ ascii ": " ++ value ++ [carriageReturn], by simp [field, crlf], ?_⟩
    have mark : LineText (ascii ": " ++ [carriageReturn]) := by unfold LineText; decide +kernel
    intro char member
    simp only [List.mem_append] at member mark
    rcases member with ((inKey | inMark) | inValue) | inReturn
    · exact ⟨(name.plain char inKey).2.1, (name.plain char inKey).2.2.1⟩
    · exact mark char (List.mem_append_left _ inMark)
    · exact text char inValue
    · exact mark char (List.mem_append_right _ inReturn)
  · obtain ⟨nonempty, plain⟩ := name
    cases key with
    | nil => exact absurd rfl nonempty
    | cons first rest =>
        obtain ⟨noReturn, noFeed, -⟩ := plain first (List.mem_cons_self ..)
        simp [field, carriageReturn, lineFeed, noReturn, noFeed]

theorem strzapcc_lineText {key value : Bytes} (name : FieldName key) (text : LineText value) :
    strzapcc (field key value) = key ++ ascii ": " ++ value.takeWhile (· ≠ 13) := by
  have start : ∀ char ∈ key ++ ascii ": ", char ≠ 13 ∧ char ≠ 10 := by
    have mark : ∀ char ∈ ascii ": ", char ≠ 13 ∧ char ≠ 10 := by decide +kernel
    intro char member
    rcases List.mem_append.mp member with inKey | inMark
    · exact ⟨(name.plain char inKey).1, (name.plain char inKey).2.1⟩
    · exact mark char inMark
  have inside : (value ++ crlf).takeWhile (· ≠ 13) = value.takeWhile (· ≠ 13) := by
    clear text
    induction value with
    | nil => rfl
    | cons char value ih =>
        rw [List.cons_append, List.takeWhile_cons, List.takeWhile_cons, ih]
  rw [strzapcc, field, List.append_assoc (key ++ ascii ": "), List.takeWhile_append_of_pos
    (fun char member => by simpa using (start char member).1), inside, List.takeWhile_eq_self_iff]
  intro char member
  rcases List.mem_append.mp member with inStart | inValue
  · simpa using (start char inStart).2
  · simpa using (text char ((List.takeWhile_prefix _).mem inValue)).1

theorem titleStep_field {key value : Bytes} (name : FieldName key) (text : LineText value) :
    titleStep title (cstring (field key value)) =
      if key = ascii "Subject" then some ((skipSpace (value.takeWhile (· ≠ 13))).take 80)
      else title := by
  obtain ⟨line, ends, plain⟩ := (lineText_headerLine name text).ended
  have whole : cstring (field key value) = field key value := by
    refine cstring_of_notNul fun char member => ?_
    rw [ends, List.mem_append, List.mem_singleton] at member
    rcases member with inLine | rfl
    · exact (plain char inLine).2
    · decide
  have subject : strbegins (field key value) (ascii "Subject:") = decide (key = ascii "Subject") := by
    have split : field key value = key ++ 58 :: (32 :: (value ++ crlf)) := by
      simp [field, ascii]
    have mark : ascii "Subject:" = ascii "Subject" ++ [58] := by decide +kernel
    rw [split, mark]
    exact strbegins_field (fun char member => (name.plain char member).2.2.2) (by decide +kernel) _
  rw [whole, titleStep, subject, strzapcc_lineText name text]
  by_cases same : key = ascii "Subject"
  · subst same
    have space : ∀ text : Bytes,
        skipSpace ((ascii "Subject" ++ ascii ": " ++ text).drop 8) = skipSpace text :=
      fun text => skipSpace_space text
    rw [space]
    simp
  · simp [same]

theorem takeWhile_take (value : Bytes) (limit : Nat) :
    (value.takeWhile (· ≠ 13)).take limit = value.take limit ↔ 13 ∉ value.take limit := by
  induction value generalizing limit with
  | nil => simp
  | cons char value ih =>
      cases limit with
      | zero => simp
      | succ limit =>
          by_cases isReturn : char = 13
          · simp [isReturn]
          · have later := ih limit
            simp only [List.takeWhile_cons, isReturn, ne_eq, not_false_eq_true, decide_true,
              if_true, List.take_succ_cons, List.cons.injEq, true_and, List.mem_cons,
              Ne.symm isReturn, false_or] at later ⊢
            exact later

theorem unreturned_iff (value : Bytes) :
    (skipSpace (value.takeWhile (· ≠ 13))).take 80 = (skipSpace value).take 80 ↔
      Unreturned value := by
  induction value with
  | nil => simp [Unreturned, skipSpace]
  | cons char value ih =>
      by_cases isReturn : char = 13
      · have space : isspace 13 = true := rfl
        have skipped : skipSpace (13 :: value) = skipSpace value := by simp [skipSpace, space]
        subst isReturn
        rw [Unreturned, skipped, List.takeWhile_cons_of_pos space]
        simp only [List.cons_append, List.mem_cons, true_or, not_true_eq_false, or_false]
        rw [List.takeWhile_cons_of_neg (by simp), eq_comm]
        simp [skipSpace]
      · have kept : (char :: value).takeWhile (· ≠ 13) = char :: value.takeWhile (· ≠ 13) := by
          simp [isReturn]
        rw [kept]
        cases space : isspace char with
        | true =>
            have skipped : ∀ text : Bytes, skipSpace (char :: text) = skipSpace text :=
              fun text => by simp [skipSpace, space]
            rw [skipped, skipped, ih, Unreturned, Unreturned, skipped, List.takeWhile_cons,
              if_pos space, List.cons_append, List.mem_cons]
            simp [Ne.symm isReturn]
        | false =>
            have whole : ∀ text : Bytes, skipSpace (char :: text) = char :: text :=
              fun text => by simp [skipSpace, space]
            rw [whole, whole, ← kept, takeWhile_take, Unreturned, whole, List.takeWhile_cons,
              if_neg (by simp [space])]
            simp

theorem fieldLines_header (plain : ∀ header ∈ fields, FieldName header.1 ∧ LineText header.2) :
    ∀ line ∈ fieldLines fields, HeaderLine line := by
  intro line member
  obtain ⟨⟨key, value⟩, inFields, rfl⟩ := List.mem_map.mp member
  exact lineText_headerLine (plain _ inFields).1 (plain _ inFields).2

theorem fields_other (plain : ∀ header ∈ fields, FieldName header.1 ∧ LineText header.2)
    (absent : ∀ header ∈ fields, header.1 ≠ ascii "Subject") :
    ((fieldLines fields).map cstring).foldl titleStep title = title := by
  induction fields generalizing title with
  | nil => rfl
  | cons header fields ih =>
      have here := plain header (List.mem_cons_self ..)
      change ((fieldLines fields).map cstring).foldl titleStep
        (titleStep title (cstring (field header.1 header.2))) = title
      rw [titleStep_field here.1 here.2, if_neg (absent header (List.mem_cons_self ..))]
      exact ih (fun other member => plain other (List.mem_cons_of_mem _ member))
        fun other member => absent other (List.mem_cons_of_mem _ member)

theorem header_title (header : Header fields) :
    ((((fieldLines fields).map cstring).foldl titleStep none).getD (ascii "No subject") =
      subjectTitle fields) ↔
      ∀ header ∈ fields, header.1 = ascii "Subject" → Unreturned header.2 := by
  obtain ⟨plain, once⟩ := header
  induction fields with
  | nil => simp [subjectTitle, fieldLines]
  | cons header fields ih =>
      have here := plain header (List.mem_cons_self ..)
      have later : ∀ other ∈ fields, FieldName other.1 ∧ LineText other.2 :=
        fun other member => plain other (List.mem_cons_of_mem _ member)
      change (((fieldLines fields).map cstring).foldl titleStep
        (titleStep none (cstring (field header.1 header.2)))).getD _ = _ ↔ _
      rw [titleStep_field here.1 here.2, subjectTitle, List.find?_cons, List.forall_mem_cons]
      by_cases subject : header.1 = ascii "Subject"
      · have absent : ∀ other ∈ fields, other.1 ≠ ascii "Subject" := by
          rw [List.filter_cons, if_pos (decide_eq_true subject), List.length_cons] at once
          have missing := List.length_eq_zero_iff.mp (show (fields.filter fun other =>
            other.1 = ascii "Subject").length = 0 by omega)
          exact fun other member same =>
            absurd (List.filter_eq_nil_iff.mp missing other member) (by simpa using same)
        rw [if_pos subject, fields_other later absent]
        simp only [subject, decide_true, Option.getD_some, forall_const, unreturned_iff]
        constructor
        · exact fun holds => ⟨holds, fun other member same => absurd same (absent other member)⟩
        · exact fun holds => holds.1
      · rw [List.filter_cons, if_neg (by simpa using subject)] at once
        have rest := ih later once
        rw [subjectTitle] at rest
        simp only [subject, if_false, decide_false, false_implies, true_and]
        exact rest

end Headers

/-- The title of a body, if a line of it looks like a subject. -/
def bodyTitle (rest : Bytes) : Option Bytes := linesTitle none rest

theorem titleStep_foldl (title : Option Bytes) (lines : List Bytes) :
    lines.foldl titleStep title = (lines.foldl titleStep none).or title := by
  induction lines generalizing title with
  | nil => simp
  | cons line lines ih =>
      rw [List.foldl_cons, List.foldl_cons, ih, ih (titleStep none line)]
      simp only [titleStep]
      split
      · cases lines.foldl titleStep none <;> rfl
      · simp

/-- A line behind the header that looks like a subject goes before the subject itself. -/
theorem outboxFile_title {fields : List (Bytes × Bytes)} (header : Header fields) (rest : Bytes) :
    linesTitle none (titledFile fields rest) =
      (bodyTitle rest).or (((fieldLines fields).map cstring).foldl titleStep none) := by
  have blank : linesOf (crlf ++ rest) = crlf :: linesOf rest := by
    change linesOf (13 :: 10 :: rest) = _
    rw [linesOf, if_neg (by decide), linesOf, if_pos (by decide)]
    rfl
  have skipped : ∀ title, titleStep title (cstring crlf) = title := fun title => by
    rw [titleStep, if_neg (by decide)]
  rw [linesTitle, titledFile, linesOf_header (fieldLines_header header.plain), List.map_append,
    List.foldl_append, blank, List.map_cons, List.foldl_cons, titleStep_foldl, skipped, bodyTitle,
    linesTitle]

theorem subjectTitle_short (fields : List (Bytes × Bytes)) : (subjectTitle fields).length ≤ 80 := by
  unfold subjectTitle
  split
  · rw [List.length_take]
    omega
  · decide

theorem prepareProposal_title {fuel : Nat} {encode : Bytes → Option Bytes} {name file : Bytes}
    {prop : Proposal} (small : file.length < indexRange)
    (prepared : prepareProposal fuel encode name file = some prop) :
    prop.title = (linesTitle none file).getD (ascii "No subject") := by
  have reads : Reads ⟨file, 0⟩ file := ⟨small, Nat.zero_le _, rfl⟩
  simp only [prepareProposal, Option.bind_eq_bind, Option.bind_eq_some_iff] at prepared
  obtain ⟨cbuf, -, found, read, same⟩ := prepared
  rw [readTitle_some reads read] at same
  cases same
  rfl

/-- The title that is computed and sent is the subject's when no line behind the header
looks like another one, and no carriage return cuts it. -/
theorem title_iff (encode : Bytes → Option Bytes) (name : Bytes) {fields : List (Bytes × Bytes)}
    (header : Header fields) {rest : Bytes}
    (encodes : (encode (titledFile fields rest)).isSome) :
    (∃ fuel prop, prepareProposal fuel encode name (titledFile fields rest) = some prop ∧
        prop.title = subjectTitle fields ∧ frameTitle prop = subjectTitle fields) ↔
      (titledFile fields rest).length < indexRange ∧
        ((bodyTitle rest = none ∧
            ∀ header ∈ fields, header.1 = ascii "Subject" → Unreturned header.2) ∨
          bodyTitle rest = some (subjectTitle fields)) := by
  obtain ⟨cbuf, encoded⟩ := Option.isSome_iff_exists.mp encodes
  have title : (linesTitle none (titledFile fields rest)).getD (ascii "No subject") =
      subjectTitle fields ↔
        ((bodyTitle rest = none ∧
            ∀ header ∈ fields, header.1 = ascii "Subject" → Unreturned header.2) ∨
          bodyTitle rest = some (subjectTitle fields)) := by
    rw [outboxFile_title header rest]
    cases body : bodyTitle rest with
    | none =>
        rw [Option.none_or, header_title header]
        simp
    | some title => simp
  have short := subjectTitle_short fields
  generalize titledFile fields rest = file at encoded title ⊢
  by_cases small : file.length < indexRange
  · have reads : Reads ⟨file, 0⟩ file := ⟨small, Nat.zero_le _, rfl⟩
    constructor
    · rintro ⟨fuel, prop, prepared, right, -⟩
      exact ⟨small, title.mp ((prepareProposal_title small prepared).symm.trans right)⟩
    · rintro ⟨-, holds⟩
      have prepared : ∃ prop, prepareProposal (file.length + 1) encode name file = some prop := by
        simp only [prepareProposal, encoded, Option.bind_eq_bind, Option.bind_some,
          readTitle_reads _ none _ file reads (Nat.lt_succ_self _)]
        exact ⟨_, rfl⟩
      obtain ⟨prop, prepared⟩ := prepared
      have right := (prepareProposal_title small prepared).trans (title.mpr holds)
      refine ⟨_, prop, prepared, right, ?_⟩
      rw [frameTitle, right]
      exact List.take_of_length_le short
  · constructor
    · rintro ⟨fuel, prop, prepared, -⟩
      simp only [prepareProposal, encoded, Option.bind_eq_bind, Option.bind_some] at prepared
      rw [readTitle_endless ⟨by simpa using small, (by decide : 0 < indexRange)⟩] at prepared
      cases prepared
    · exact fun holds => absurd holds.1 small

def sampleFields : List (Bytes × Bytes) := [(ascii "Mid", ascii "A1"), (ascii "Subject", ascii "Hello")]

theorem sampleFields_header : Header sampleFields := by
  refine ⟨?_, by decide +kernel⟩
  intro header member
  rcases List.mem_cons.mp member with rfl | later
  · exact ⟨by decide +kernel, by unfold LineText; decide +kernel⟩
  · obtain rfl := List.mem_singleton.mp later
    exact ⟨by decide +kernel, by unfold LineText; decide +kernel⟩

theorem title_sample : ∃ fuel prop,
    prepareProposal fuel some (ascii "A1") (titledFile sampleFields (ascii "Hi\r\n")) = some prop ∧
      prop.title = subjectTitle sampleFields ∧ frameTitle prop = subjectTitle sampleFields :=
  (title_iff some (ascii "A1") sampleFields_header rfl).mpr
    ⟨by decide +kernel, .inl ⟨by decide +kernel, by unfold Unreturned; decide +kernel⟩⟩

/-- A quoted mail in the body gives the title. -/
theorem quoted_title : ¬ ∃ fuel prop,
    prepareProposal fuel some (ascii "A1") (titledFile sampleFields (ascii "Subject: Re\r\n")) =
        some prop ∧ prop.title = subjectTitle sampleFields ∧
        frameTitle prop = subjectTitle sampleFields := by
  rintro ⟨fuel, prop, prepared, right, -⟩
  rw [prepareProposal_title (by decide +kernel) prepared] at right
  exact absurd right (by decide +kernel)

end PaclinkUnix
