import PaclinkUnix.MessageParts

/-!
Where the contents of the parts come from. The loops of `wl2mime` do not look for the end
of the message: a length that says more than is left is made up with bytes 255.
-/

namespace PaclinkUnix

open Buffer

/-- The lines up to the first blank one, each up to its first NUL. -/
def headerText (text : Bytes) : Bytes :=
  (((linesOf text).takeWhile fun line => !blankLine line).map cstring).flatten

def bodyText (text : Bytes) : Bytes :=
  ((linesOf text).dropWhile fun line => !blankLine line).tail.flatten

def headerTextLines (text : Bytes) : List Bytes := (linesOf (headerText text)).map cstring

theorem blankLine_cstring (line : Bytes) : blankLine (cstring line) = blankLine line := by
  cases line with
  | nil => rfl
  | cons char line =>
      by_cases nul : char = 0
      · subst nul
        rfl
      · simp [blankLine, cstring, nul]

theorem cstring_length (text : Bytes) : (cstring text).length ≤ text.length :=
  (List.takeWhile_prefix _).length_le

section Reading

variable {b : Buffer} {text : Bytes}

theorem headerBlock_reads (fuel : Nat) (hbuf : Bytes) (reads : Reads b text)
    (enough : text.length < fuel) : ∃ after,
      headerBlock fuel b hbuf = some (hbuf ++ headerText text, after) ∧
        Reads after (bodyText text) := by
  induction fuel generalizing b text hbuf with
  | zero => omega
  | succ fuel ih =>
      rw [headerBlock]
      by_cases ended : text = []
      · subst ended
        rw [getline_nil lineFeed fuel b reads]
        exact ⟨b, by simp [headerText, linesOf], reads⟩
      · obtain ⟨after, read, -, left⟩ := getline_reads lineFeed fuel b text reads ended (by omega)
        have lengths := congrArg List.length (splitLine_length lineFeed text)
        rw [List.length_append] at lengths
        have shorter := splitLine_pos lineFeed ended
        rw [read, headerText, bodyText, linesOf_splitLine ended]
        generalize (splitLine lineFeed text).1 = line at lengths shorter
        generalize (splitLine lineFeed text).2 = rest at lengths left
        have test : (cstring line).head? = some carriageReturn ∨
            (cstring line).head? = some lineFeed ↔ blankLine line = true := by
          rw [← blankLine_cstring, blankLine]
          simp
        simp only [Option.bind_eq_bind, Option.bind_some, test]
        cases blank : blankLine line with
        | true =>
            refine ⟨after, ?_, ?_⟩
            · simp [blank]
            · simpa [blank, linesOf_flatten] using left
        | false =>
            obtain ⟨final, block, behind⟩ := ih (hbuf ++ cstring line) left (by omega)
            refine ⟨final, ?_, ?_⟩
            · simp [blank, block, headerText]
            · simpa [blank, bodyText] using behind

theorem parseHeader_reads (fuel : Nat) (bbuf : Buffer) (reads : Reads b text)
    (enough : text.length < fuel) :
    parseHeader fuel b bbuf = some (headerLineCalls ((linesOf text).map cstring) bbuf) := by
  induction fuel generalizing b text bbuf with
  | zero => omega
  | succ fuel ih =>
      rw [parseHeader]
      by_cases ended : text = []
      · subst ended
        rw [getline_nil lineFeed fuel b reads]
        rfl
      · obtain ⟨after, read, -, left⟩ := getline_reads lineFeed fuel b text reads ended (by omega)
        have lengths := congrArg List.length (splitLine_length lineFeed text)
        rw [List.length_append] at lengths
        have shorter := splitLine_pos lineFeed ended
        rw [read, linesOf_splitLine ended]
        simp only [Option.bind_eq_bind, Option.bind_some]
        rw [ih _ left (by omega)]
        rfl

theorem header_lengths (text : Bytes) :
    (headerText text).length + (bodyText text).length ≤ text.length := by
  have whole := congrArg List.length (linesOf_flatten text)
  rw [← List.takeWhile_append_dropWhile (p := fun line => !blankLine line) (l := linesOf text),
    List.flatten_append, List.length_append] at whole
  have header : ∀ lines : List Bytes,
      (lines.map cstring).flatten.length ≤ lines.flatten.length := by
    intro lines
    induction lines with
    | nil => simp
    | cons line lines ih =>
        have shorter := cstring_length line
        simp only [List.map_cons, List.flatten_cons, List.length_append]
        omega
  have body : ∀ lines : List Bytes, lines.tail.flatten.length ≤ lines.flatten.length := by
    intro lines
    cases lines with
    | nil => simp
    | cons line lines => simp
  have first := header ((linesOf text).takeWhile fun line => !blankLine line)
  have second := body ((linesOf text).dropWhile fun line => !blankLine line)
  rw [headerText, bodyText]
  omega

theorem wl2mime_text (fuel : Nat) (text : Bytes) (small : text.length < indexRange)
    (enough : text.length < fuel) :
    wl2mime fuel ⟨text, 0⟩ = some (headerLineCalls (headerTextLines text) ⟨bodyText text, 0⟩) := by
  have lengths := header_lengths text
  have whole : Reads ⟨text, 0⟩ text := ⟨small, Nat.zero_le _, rfl⟩
  obtain ⟨after, block, behind⟩ := headerBlock_reads fuel [] whole enough
  have header : Reads ⟨headerText text, 0⟩ (headerText text) :=
    ⟨by simp only; omega, Nat.zero_le _, rfl⟩
  rw [wl2mime, block]
  simp only [Option.bind_eq_bind, Option.bind_some, List.nil_append]
  rw [drain_reads fuel after _ behind (by omega)]
  exact parseHeader_reads fuel _ header (by omega)

end Reading

def partContents (calls : List MimeCall) : List Bytes := calls.filterMap MimeCall.content

/-- Contiguous slices of a text, one behind the other. -/
def SlicedFrom : List Bytes → Bytes → Prop
  | [], _ => True
  | content :: contents, rest =>
      ∃ gap after, rest = gap ++ (content ++ after) ∧ SlicedFrom contents after

/-- Each content is what comes next in the text, an attachment behind its line end. -/
def CutFrom : List MimeCall → Bytes → Prop
  | [], _ => True
  | .text content :: calls, rest => ∃ after, rest = content ++ after ∧ CutFrom calls after
  | .file _ content :: calls, rest => ∃ after, rest.drop 2 = content ++ after ∧ CutFrom calls after
  | _ :: calls, rest => CutFrom calls rest

/-- No length is more than what is left of the body. -/
def PartsFit : List Bytes → Nat → Prop
  | [], _ => True
  | line :: lines, left =>
      match partLength line with
      | none => PartsFit lines left
      | some (skip, length) => length ≤ left - skip ∧ PartsFit lines (left - skip - length)

theorem CutFrom.skip {plain : List MimeCall} (silent : ∀ call ∈ plain, call.content = none)
    (calls : List MimeCall) (rest : Bytes) : CutFrom (plain ++ calls) rest ↔ CutFrom calls rest := by
  induction plain with
  | nil => rfl
  | cons call plain ih =>
      have here := silent call (List.mem_cons_self ..)
      have later := ih fun other member => silent other (List.mem_cons_of_mem _ member)
      cases call with
      | text content => cases here
      | file name content => cases here
      | _ => exact later

theorem partContents_skip {plain : List MimeCall} (silent : ∀ call ∈ plain, call.content = none)
    (calls : List MimeCall) : partContents (plain ++ calls) = partContents calls := by
  rw [partContents, List.filterMap_append, List.filterMap_eq_nil_iff.mpr silent]
  rfl

theorem padded_whole {length : Nat} {rest : Bytes} (fits : length ≤ rest.length) :
    padded length rest = rest.take length := by
  simp [padded, Nat.sub_eq_zero_of_le fits]

theorem padded_length (length : Nat) (rest : Bytes) : (padded length rest).length = length := by
  simp only [padded, List.length_append, List.length_take, List.length_replicate]
  omega

theorem padded_short {length : Nat} {rest : Bytes} (short : rest.length < length) :
    255 ∈ padded length rest := by
  rw [padded, List.mem_append, List.mem_replicate]
  exact .inr ⟨by omega, rfl⟩

/-- A content is what comes next exactly when there is so much left. -/
theorem padded_cut (length : Nat) (rest : Bytes) (also : Bytes → Prop) :
    (∃ after, rest = padded length rest ++ after ∧ also after) ↔
      length ≤ rest.length ∧ also (rest.drop length) := by
  constructor
  · rintro ⟨after, split, holds⟩
    have lengths := congrArg List.length split
    rw [List.length_append, padded_length] at lengths
    have fits : length ≤ rest.length := by omega
    have behind := congrArg (List.drop length) split
    rw [List.drop_left' (padded_length length rest)] at behind
    exact ⟨fits, behind ▸ holds⟩
  · rintro ⟨fits, holds⟩
    exact ⟨_, by rw [padded_whole fits, List.take_append_drop], holds⟩

theorem cutFrom_iff (lines : List Bytes) (bbuf : Buffer) (rest : Bytes) (reads : Reads bbuf rest) :
    CutFrom (headerLineCalls lines bbuf) rest ↔ PartsFit lines rest.length := by
  induction lines generalizing bbuf rest with
  | nil => simp [headerLineCalls, CutFrom, PartsFit]
  | cons line lines ih =>
      have part := headerCalls_part line reads
      rw [headerLineCalls, PartsFit]
      cases takes : partLength line with
      | none =>
          rw [takes] at part
          obtain ⟨plain, kept⟩ := part
          rw [CutFrom.skip plain, kept]
          exact ih bbuf rest reads
      | some lengths =>
          obtain ⟨skip, length⟩ := lengths
          rw [takes] at part
          obtain ⟨⟨call, calls, kind⟩, left⟩ := part
          have later := ih _ _ left
          rw [calls, List.singleton_append]
          simp only [List.length_drop] at later
          change _ ↔ length ≤ rest.length - skip ∧ PartsFit lines (rest.length - skip - length)
          rw [← later]
          rcases kind with ⟨rfl, rfl⟩ | ⟨rfl, name, rfl⟩
          · exact padded_cut length rest _
          · rw [← List.length_drop]
            exact padded_cut length (rest.drop 2) _

theorem CutFrom.sliced {calls : List MimeCall} {rest : Bytes} (cut : CutFrom calls rest) :
    SlicedFrom (partContents calls) rest := by
  induction calls generalizing rest with
  | nil => trivial
  | cons call calls ih =>
      cases call with
      | text content =>
          obtain ⟨after, split, later⟩ := cut
          exact ⟨[], after, split, ih later⟩
      | file name content =>
          obtain ⟨after, split, later⟩ := cut
          refine ⟨rest.take 2, after, ?_, ih later⟩
          rw [← split, List.take_append_drop]
      | _ => exact ih cut

theorem SlicedFrom.bytes {contents : List Bytes} {rest : Bytes} (sliced : SlicedFrom contents rest) :
    (∀ content ∈ contents, ∀ char ∈ content, char ∈ rest) ∧ contents.flatten.length ≤ rest.length := by
  induction contents generalizing rest with
  | nil => simp
  | cons content contents ih =>
      obtain ⟨gap, after, rfl, later⟩ := sliced
      obtain ⟨inside, total⟩ := ih later
      refine ⟨?_, ?_⟩
      · intro other member char inOther
        rcases List.mem_cons.mp member with rfl | more
        · simp [inOther]
        · simp [inside other more char inOther]
      · simp only [List.flatten_cons, List.length_append]
        omega

/-- Where the byte 255 does not occur, it gives away a length that is too large. -/
theorem partsFit_of_plain (lines : List Bytes) (bbuf : Buffer) (rest : Bytes)
    (reads : Reads bbuf rest)
    (plain : ∀ content ∈ partContents (headerLineCalls lines bbuf), 255 ∉ content) :
    PartsFit lines rest.length := by
  induction lines generalizing bbuf rest with
  | nil => trivial
  | cons line lines ih =>
      have part := headerCalls_part line reads
      rw [headerLineCalls] at plain
      rw [PartsFit]
      cases takes : partLength line with
      | none =>
          rw [takes] at part
          obtain ⟨others, kept⟩ := part
          rw [partContents_skip others, kept] at plain
          exact ih bbuf rest reads plain
      | some lengths =>
          obtain ⟨skip, length⟩ := lengths
          rw [takes] at part
          obtain ⟨⟨call, calls, kind⟩, left⟩ := part
          rw [calls, List.singleton_append] at plain
          have content : call.content = some (padded length (rest.drop skip)) := by
            rcases kind with ⟨rfl, rfl⟩ | ⟨rfl, name, rfl⟩ <;> rfl
          rw [partContents, List.filterMap_cons, content] at plain
          have fits : length ≤ rest.length - skip := by
            by_contra short
            refine plain _ (List.mem_cons_self ..) (padded_short ?_)
            rw [List.length_drop]
            omega
          have later := ih _ _ left fun other member => plain other (List.mem_cons_of_mem _ member)
          simp only [List.length_drop] at later
          exact ⟨fits, later⟩

section Contents

variable {text : Bytes}

/-- `wl2mime` ends, and this holds of its calls. -/
def Builds (text : Bytes) (wanted : List MimeCall → Prop) : Prop :=
  ∃ enough, ∀ fuel ≥ enough, ∃ calls, wl2mime fuel ⟨text, 0⟩ = some calls ∧ wanted calls

/-- The contents are slices of the body in the order of the header, their bytes are bytes
of the message, and there are no more of them. -/
def ContentsKept (text : Bytes) (calls : List MimeCall) : Prop :=
  SlicedFrom (partContents calls) (bodyText text) ∧
    (∀ content ∈ partContents calls, ∀ char ∈ content, char ∈ text) ∧
    (partContents calls).flatten.length ≤ text.length

/-- The message is within the index range, and each length within what is left of it. -/
def LengthsFit (text : Bytes) : Prop :=
  text.length < indexRange ∧ PartsFit (headerTextLines text) (bodyText text).length

theorem builds_iff (text : Bytes) (wanted : List MimeCall → Prop) :
    Builds text wanted ↔ text.length < indexRange ∧
      wanted (headerLineCalls (headerTextLines text) ⟨bodyText text, 0⟩) := by
  constructor
  · rintro ⟨enough, ends⟩
    obtain ⟨calls, read, holds⟩ := ends (enough + text.length + 1) (by omega)
    have small : text.length < indexRange := by
      by_contra large
      rw [wl2mime_endless _ ⟨by simpa using large, Nat.two_pow_pos 32⟩] at read
      cases read
    rw [wl2mime_text _ text small (by omega), Option.some.injEq] at read
    exact ⟨small, read ▸ holds⟩
  · rintro ⟨small, holds⟩
    exact ⟨text.length + 1, fun fuel enough => ⟨_, wl2mime_text fuel text small enough, holds⟩⟩

theorem bodyText_mem {char : UInt8} (member : char ∈ bodyText text) : char ∈ text := by
  rw [← linesOf_flatten text, List.mem_flatten]
  obtain ⟨line, inLines, inLine⟩ := List.mem_flatten.mp member
  exact ⟨line, (List.dropWhile_suffix _).mem (List.mem_of_mem_tail inLines), inLine⟩

theorem reads_body (small : text.length < indexRange) : Reads ⟨bodyText text, 0⟩ (bodyText text) := by
  have lengths := header_lengths text
  exact ⟨by simp only; omega, Nat.zero_le _, rfl⟩

theorem contentsKept_of_cut {calls : List MimeCall} (cut : CutFrom calls (bodyText text)) :
    ContentsKept text calls := by
  have sliced := cut.sliced
  obtain ⟨inside, total⟩ := sliced.bytes
  have lengths := header_lengths text
  refine ⟨sliced, ?_, by omega⟩
  intro content member char inContent
  exact bodyText_mem (inside content member char inContent)

/-- Every part is what comes next in the body exactly when the lengths fit; then nothing is
invented, and without a byte 255 in the body nothing is only then. -/
theorem contents_iff (text : Bytes) :
    (Builds text (fun calls => CutFrom calls (bodyText text)) ↔ LengthsFit text) ∧
    (LengthsFit text → Builds text (ContentsKept text)) ∧
    (255 ∉ bodyText text → (Builds text (ContentsKept text) ↔ LengthsFit text)) := by
  have cut : Builds text (fun calls => CutFrom calls (bodyText text)) ↔ LengthsFit text := by
    rw [builds_iff, LengthsFit]
    refine and_congr_right fun small => ?_
    exact cutFrom_iff _ _ _ (reads_body small)
  have kept : LengthsFit text → Builds text (ContentsKept text) := by
    intro fit
    obtain ⟨small, holds⟩ := (builds_iff text _).mp (cut.mpr fit)
    exact (builds_iff text _).mpr ⟨small, contentsKept_of_cut holds⟩
  refine ⟨cut, kept, fun plain => ⟨fun ends => ?_, kept⟩⟩
  obtain ⟨small, sliced, -, -⟩ := (builds_iff text _).mp ends
  refine ⟨small, partsFit_of_plain _ _ _ (reads_body small) ?_⟩
  intro content member inContent
  exact plain (sliced.bytes.1 content member 255 inContent)

/-- Two bytes promised and one sent. -/
theorem content_invented : ¬ Builds (ascii "Body: 2\r\n\r\nA") (ContentsKept (ascii "Body: 2\r\n\r\nA")) := by
  intro ends
  obtain ⟨-, -, inside, -⟩ := (builds_iff _ _).mp ends
  have contents : partContents (headerLineCalls (headerTextLines (ascii "Body: 2\r\n\r\nA"))
      ⟨bodyText (ascii "Body: 2\r\n\r\nA"), 0⟩) = [[65, 255]] := by decide +kernel
  rw [contents] at inside
  exact absurd (inside [65, 255] (by simp) 255 (by simp)) (by decide +kernel)

end Contents

end PaclinkUnix
