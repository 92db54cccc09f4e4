import PaclinkUnix.Mime2wl
import PaclinkUnix.Wl2mime

/-!
The message format between `mime2wl` and `wl2mime`: a header of `Key: value` lines, a
blank line, the body, and the attachments, each behind a line end.
-/

namespace PaclinkUnix

open Buffer

/-- A value that fits on one line. -/
def SingleLine (text : Bytes) : Prop := ∀ char ∈ text, char ≠ 13 ∧ char ≠ 10 ∧ char ≠ 0

def blankLine (line : Bytes) : Bool :=
  line.head? = some carriageReturn || line.head? = some lineFeed

/-- A line of a header: it ends at its only line feed and is not blank. -/
structure HeaderLine (line : Bytes) : Prop where
  ended : ∃ text, line = text ++ [lineFeed] ∧ ∀ char ∈ text, char ≠ 10 ∧ char ≠ 0
  notBlank : line.head? ≠ some carriageReturn ∧ line.head? ≠ some lineFeed

theorem splitLine_ended (text : Bytes) (plain : ∀ char ∈ text, char ≠ lineFeed) (rest : Bytes) :
    splitLine lineFeed (text ++ [lineFeed] ++ rest) = (text ++ [lineFeed], rest) := by
  induction text with
  | nil => simp [splitLine]
  | cons char text ih =>
      have here : char ≠ lineFeed := plain char (List.mem_cons_self ..)
      have later := ih fun other member => plain other (List.mem_cons_of_mem _ member)
      simp only [List.cons_append, splitLine, if_neg here]
      rw [later]

/-- The calls for the lines of a header, one line after the other. -/
def headerLineCalls : List Bytes → Buffer → List MimeCall
  | [], _ => []
  | line :: lines, bbuf =>
      (headerCalls line bbuf).1 ++ headerLineCalls lines (headerCalls line bbuf).2

theorem wl2mime_endless (fuel : Nat) {ibuf : Buffer} (endless : Endless ibuf) :
    wl2mime fuel ibuf = none := by
  have block : ∀ fuel b hbuf header after, Endless b →
      headerBlock fuel b hbuf = some (header, after) → Endless after := by
    intro fuel
    induction fuel with
    | zero =>
        intro b hbuf header after _ block
        cases block
    | succ fuel ih =>
        intro b hbuf header after endless block
        rw [headerBlock] at block
        simp only [Option.bind_eq_bind, Option.bind_eq_some_iff] at block
        obtain ⟨⟨line, middle⟩, read, rest⟩ := block
        obtain ⟨present, later⟩ := getline_endless endless read
        cases line with
        | none => cases present
        | some line =>
            simp only at rest
            split at rest
            · cases rest
              exact later
            · exact ih middle _ header after later rest
  rw [wl2mime]
  rcases found : headerBlock fuel ibuf [] with _ | ⟨header, after⟩
  · rfl
  · simp only [Option.bind_eq_bind, Option.bind_some]
    rw [drain_endless fuel after (block _ _ _ _ _ endless found)]
    rfl

def field (key value : Bytes) : Bytes := key ++ ascii ": " ++ value ++ crlf

structure FieldName (key : Bytes) : Prop where
  nonempty : key ≠ []
  plain : ∀ char ∈ key, char ≠ 13 ∧ char ≠ 10 ∧ char ≠ 0 ∧ char ≠ 58

instance (key : Bytes) : Decidable (FieldName key) :=
  letI := List.decidableBAll (fun char : UInt8 => char ≠ 13 ∧ char ≠ 10 ∧ char ≠ 0 ∧ char ≠ 58) key
  decidable_of_iff (key ≠ [] ∧ ∀ char ∈ key, char ≠ 13 ∧ char ≠ 10 ∧ char ≠ 0 ∧ char ≠ 58)
    ⟨fun holds => ⟨holds.1, holds.2⟩, fun name => ⟨name.nonempty, name.plain⟩⟩

theorem field_text {key value : Bytes} (name : FieldName key) (single : SingleLine value) :
    SingleLine (key ++ ascii ": " ++ value) := by
  intro char member
  simp only [List.mem_append] at member
  rcases member with (member | member) | member
  · obtain ⟨noReturn, noFeed, notNul, -⟩ := name.plain char member
    exact ⟨noReturn, noFeed, notNul⟩
  · have mark : ∀ char ∈ ascii ": ", char ≠ 13 ∧ char ≠ 10 ∧ char ≠ 0 := by decide +kernel
    exact mark char member
  · exact single char member

theorem field_headerLine {key value : Bytes} (name : FieldName key) (single : SingleLine value) :
    HeaderLine (field key value) := by
  have text := field_text name single
  constructor
  · refine ⟨key ++ ascii ": " ++ value ++ [carriageReturn], by simp [field, crlf], ?_⟩
    intro char member
    rw [List.mem_append, List.mem_singleton] at member
    rcases member with member | rfl
    · exact ⟨(text char member).2.1, (text char member).2.2⟩
    · decide
  · obtain ⟨nonempty, plain⟩ := name
    cases key with
    | nil => exact absurd rfl nonempty
    | cons first rest =>
        obtain ⟨noReturn, noFeed, -⟩ := plain first (List.mem_cons_self ..)
        simp [field, carriageReturn, lineFeed, noReturn, noFeed]

theorem strzapcc_field {key value : Bytes} (name : FieldName key) (single : SingleLine value) :
    strzapcc (field key value) = key ++ ascii ": " ++ value := by
  have text := field_text name single
  have returned : (field key value).takeWhile (· ≠ 13) = key ++ ascii ": " ++ value := by
    rw [field, List.takeWhile_append_of_pos]
    · simp [crlf, carriageReturn]
    · intro char member
      simpa using (text char member).1
  rw [strzapcc, returned, List.takeWhile_eq_self_iff]
  intro char member
  simpa using (text char member).2.1

end PaclinkUnix
