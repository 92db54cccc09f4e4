import PaclinkUnix.MessageLines

/-!
The content of a message through `mime2wl` and `wl2mime`: which part becomes the body,
where the attachments lie behind it, and what is read back.
-/

namespace PaclinkUnix

open Buffer

/-- What `len` reads give where this much is left: past the end comes the byte 255. -/
def padded (len : Nat) (rest : Bytes) : Bytes :=
  rest.take len ++ List.replicate (len - rest.length) 255

theorem readContent_reads (len : Nat) (b : Buffer) (rest : Bytes) (reads : Reads b rest) :
    ∃ after, readContent len b = (padded len rest, after) ∧ Reads after (rest.drop len) := by
  induction len generalizing b rest with
  | zero => exact ⟨b, by simp [readContent, padded], by simpa using reads⟩
  | succ len ih =>
      rw [readContent]
      cases rest with
      | nil =>
          obtain ⟨after, read, left⟩ := ih b [] reads
          rw [iterchar_nil reads]
          simp only [read]
          exact ⟨after, by simp [padded, List.replicate_succ], by simpa using left⟩
      | cons c rest =>
          obtain ⟨middle, first, -, unread⟩ := iterchar_cons reads
          obtain ⟨after, read, left⟩ := ih middle rest unread
          rw [first]
          simp only [read]
          exact ⟨after, by simp [padded], left⟩

theorem iterchar_reads {b : Buffer} {rest : Bytes} (reads : Reads b rest) :
    Reads b.iterchar.2 (rest.drop 1) := by
  cases rest with
  | nil =>
      rw [iterchar_nil reads]
      exact reads
  | cons c rest =>
      obtain ⟨after, read, -, left⟩ := iterchar_cons reads
      rw [read]
      exact left

def MimeCall.content : MimeCall → Option Bytes
  | .text content | .file _ content => some content
  | _ => none

/-- What a line of the header takes of the body: the bytes it skips and the length it names. -/
def partLength (line : Bytes) : Option (Nat × Nat) :=
  let line := strzapcc line
  let length := (strtoul (lineData line) 10).1
  if strcasebegins line (ascii "Body:") then some (0, length)
  else if strcasebegins line (ascii "File:") then some (2, length)
  else none

theorem strcasebegins_compare {text first second : Bytes} (one : strcasebegins text first = true)
    (other : strcasebegins text second = true) :
    strcasebegins first second = true ∨ strcasebegins second first = true := by
  simp only [strcasebegins, List.isPrefixOf_iff_prefix] at one other ⊢
  exact List.prefix_or_prefix_of_prefix other one

/-- What one line of the header does: nothing to the body, or it takes its part. -/
theorem headerCalls_part {bbuf : Buffer} {rest : Bytes} (line : Bytes) (reads : Reads bbuf rest) :
    match partLength line with
    | none => (∀ call ∈ (headerCalls line bbuf).1, call.content = none) ∧
        (headerCalls line bbuf).2 = bbuf
    | some (skip, length) =>
        (∃ call, (headerCalls line bbuf).1 = [call] ∧
          ((skip = 0 ∧ call = .text (padded length rest)) ∨
            (skip = 2 ∧ ∃ name, call = .file name (padded length (rest.drop 2))))) ∧
        Reads (headerCalls line bbuf).2 ((rest.drop skip).drop length) := by
  have address : ∀ kind linedata, (addressCall kind linedata).content = none := by
    intro kind linedata
    rw [addressCall]
    split <;> rfl
  rw [partLength, headerCalls]
  generalize strzapcc line = line
  have others : ∀ part ∈ [ascii "Body:", ascii "File:"], strcasebegins line part = true →
      ∀ start ∈ [ascii "Mid:", ascii "Date:", ascii "From:", ascii "To:", ascii "Cc:",
        ascii "Bcc:", ascii "Reply-To:", ascii "Subject:"], strcasebegins line start = false := by
    have apart : ∀ part ∈ [ascii "Body:", ascii "File:"], ∀ start ∈ [ascii "Mid:", ascii "Date:",
        ascii "From:", ascii "To:", ascii "Cc:", ascii "Bcc:", ascii "Reply-To:", ascii "Subject:"],
        strcasebegins start part = false ∧ strcasebegins part start = false := by decide +kernel
    intro part inParts isPart start member
    rw [← Bool.not_eq_true]
    intro begins
    obtain ⟨one, other⟩ := apart part inParts start member
    rcases strcasebegins_compare begins isPart with same | same
    · rw [same] at one
      cases one
    · rw [same] at other
      cases other
  cases body : strcasebegins line (ascii "Body:") with
  | true =>
      have plain := others _ (by simp) body
      simp only [List.mem_cons, List.not_mem_nil, or_false, forall_eq_or_imp, forall_eq] at plain
      obtain ⟨mid, date, sender, first, cc, bcc, reply, subject⟩ := plain
      obtain ⟨after, read, left⟩ := readContent_reads (strtoul (lineData line) 10).1 _ _ reads
      simp only [mid, date, sender, first, cc, bcc, reply, subject, Bool.false_eq_true, if_false,
        if_true, read]
      exact ⟨⟨_, rfl, .inl ⟨trivial, rfl⟩⟩, left⟩
  | false =>
      cases file : strcasebegins line (ascii "File:") with
      | true =>
          have plain := others _ (by simp) file
          simp only [List.mem_cons, List.not_mem_nil, or_false, forall_eq_or_imp, forall_eq] at plain
          obtain ⟨mid, date, sender, first, cc, bcc, reply, subject⟩ := plain
          have skipped : Reads bbuf.iterchar.2.iterchar.2 (rest.drop 2) := by
            have twice := iterchar_reads (iterchar_reads reads)
            rwa [List.drop_drop] at twice
          obtain ⟨after, read, left⟩ := readContent_reads (strtoul (lineData line) 10).1 _ _ skipped
          simp only [mid, date, sender, first, cc, bcc, reply, subject, Bool.false_eq_true, if_false,
            if_true, read]
          exact ⟨⟨_, rfl, .inr ⟨trivial, _, rfl⟩⟩, left⟩
      | false =>
          simp only [Bool.false_eq_true, if_false]
          have one : ∀ call : MimeCall, call.content = none →
              (∀ other ∈ [call], other.content = none) ∧ bbuf = bbuf :=
            fun call plain => ⟨by simpa using plain, rfl⟩
          split
          · exact one _ rfl
          · split
            · exact one _ rfl
            · split
              · exact one _ (address _ _)
              · split
                · exact one _ (address _ _)
                · split
                  · exact one _ (address _ _)
                  · split
                    · exact one _ (address _ _)
                    · split
                      · exact one _ rfl
                      · split
                        · exact one _ rfl
                        · exact ⟨by simp, rfl⟩

def sampleMessage (parts : List Part) : Message where
  date := ascii "2026/07/04 12:00"
  sender := some (ascii "N0CALL@winlink.org")
  toList := [ascii "N1CALL"]
  ccList := []
  bccList := []
  subject := some (ascii "Hello")
  replyTo := none
  parts := parts

def sampleText : Part := ⟨none, .textPlain, ascii "Hi" ++ crlf⟩

end PaclinkUnix
