import PaclinkUnix.MessageParts

/-!
The recipients of a message through `mime2wl` and `wl2mime`. How GMime writes a display
name is a parameter: what it puts in front of the `<`.
-/

namespace PaclinkUnix

open Buffer

/-- An address of the form `local@domain` with a display name or without. -/
structure Mailbox where
  name : Option Bytes
  addr : Bytes
  at_mem : 64 ∈ addr
  plain : ∀ char ∈ addr, isspace char = false ∧ char ≠ 0 ∧ char ≠ 60 ∧ char ≠ 62

def Mailbox.render (phrase : Bytes → Bytes) (mailbox : Mailbox) : Bytes :=
  match mailbox.name with
  | none => mailbox.addr
  | some name => phrase name ++ 60 :: mailbox.addr ++ [62]

/-- What stands between the first `<` and the next `>` is the address itself. -/
def Mailbox.Clear (phrase : Bytes → Bytes) (mailbox : Mailbox) : Prop :=
  ∀ name ∈ mailbox.name, 60 ∉ phrase name ∨
    ∃ before behind, phrase name = before ++ 60 :: mailbox.addr ++ 62 :: behind ∧ 60 ∉ before

theorem strchr_skipSpace {char : UInt8} (notSpace : isspace char = false) (text : Bytes) :
    strchr char (skipSpace text) = strchr char text := by
  induction text with
  | nil => rfl
  | cons first text ih =>
      cases space : isspace first with
      | true =>
          have different : first ≠ char := by
            rintro rfl
            rw [space] at notSpace
            cases notSpace
          have skipped : skipSpace (first :: text) = skipSpace text := by
            simp [skipSpace, space]
          rw [skipped, strchr, if_neg different, ih]
      | false => rw [skipSpace_of_notSpace space]

theorem addressCleanup_bare {addr : Bytes}
    (plain : ∀ char ∈ addr, isspace char = false ∧ char ≠ 0 ∧ char ≠ 60 ∧ char ≠ 62) :
    addressCleanup addr = addr := by
  have absent : 60 ∉ addr := fun member => (plain 60 member).2.2.1 rfl
  have unspaced : skipSpace addr = addr := by
    cases addr with
    | nil => rfl
    | cons first rest => exact skipSpace_of_notSpace (plain first (List.mem_cons_self ..)).1
  rw [addressCleanup]
  simp only [unspaced, strchr_none absent]
  rw [List.takeWhile_eq_self_iff]
  intro char member
  simp only [ne_eq, decide_eq_true_eq]
  rintro rfl
  exact absurd (plain 32 member).1 (by decide)

theorem addressCleanup_bracket {before : Bytes} (absent : 60 ∉ before) {inside : Bytes}
    (closed : 62 ∈ inside) :
    addressCleanup (before ++ 60 :: inside) = inside.takeWhile (· ≠ 62) := by
  rw [addressCleanup]
  simp only [strchr_skipSpace (show isspace 60 = false by decide), strchr_append absent,
    strchr_mem closed, if_true]

theorem addressCleanup_render_iff (phrase : Bytes → Bytes) (mailbox : Mailbox) :
    addressCleanup (mailbox.render phrase) = mailbox.addr ↔ mailbox.Clear phrase := by
  obtain ⟨name, addr, -, plain⟩ := mailbox
  have noClose : 62 ∉ addr := fun member => (plain 62 member).2.2.2 rfl
  cases name with
  | none => simp [Mailbox.render, Mailbox.Clear, addressCleanup_bare plain]
  | some name =>
      simp only [Mailbox.render, Mailbox.Clear, Option.mem_def, Option.some.injEq, forall_eq']
      by_cases opened : 60 ∈ phrase name
      · obtain ⟨before, tail, split, absent⟩ := List.eq_append_cons_of_mem opened
        have rendered : phrase name ++ 60 :: addr ++ [62] =
            before ++ 60 :: (tail ++ 60 :: addr ++ [62]) := by simp [split]
        rw [rendered, addressCleanup_bracket absent (by simp)]
        constructor
        · intro found
          refine .inr ?_
          by_cases closed : 62 ∈ tail
          · obtain ⟨text, behind, rfl, open_⟩ := List.eq_append_cons_of_mem closed
            simp only [List.append_assoc, List.cons_append, takeWhile_before open_] at found
            exact ⟨before, behind, by simp [split, found], absent⟩
          · -- then the text runs into the address itself and is longer
            have open_ : 62 ∉ tail ++ 60 :: addr := by simp [closed, noClose]
            rw [takeWhile_before open_] at found
            have lengths := congrArg List.length found
            simp at lengths
            omega
        · rintro (closed | ⟨other, behind, same, noOpen⟩)
          · exact absurd opened closed
          · have first := strchr_append absent tail
            rw [← split, same, List.append_assoc, List.cons_append, strchr_append noOpen] at first
            simp only [Option.some.injEq, List.cons.injEq, true_and] at first
            rw [← first]
            simp only [List.append_assoc, List.cons_append, takeWhile_before noClose]
      · rw [List.append_assoc, List.cons_append, addressCleanup_bracket opened (by simp),
          takeWhile_before noClose]
        simp [opened]

structure Recipients where
  toList : List Mailbox
  ccList : List Mailbox
  bccList : List Mailbox

def Recipients.all (recipients : Recipients) : List Mailbox :=
  recipients.toList ++ recipients.ccList ++ recipients.bccList

def Recipients.address (recipients : Recipients) (phrase : Bytes → Bytes) (message : Message) :
    Message :=
  { message with
    toList := recipients.toList.map (·.render phrase)
    ccList := recipients.ccList.map (·.render phrase)
    bccList := recipients.bccList.map (·.render phrase) }

def MimeCall.isRecipient : MimeCall → Bool
  | .mailbox .to _ | .mailbox .cc _ | .mailbox .bcc _ => true
  | _ => false

def recipientCalls (calls : List MimeCall) : List MimeCall := calls.filter MimeCall.isRecipient

def Recipients.calls (recipients : Recipients) : List MimeCall :=
  recipients.toList.map (fun mailbox => .mailbox .to mailbox.addr) ++
    recipients.ccList.map (fun mailbox => .mailbox .cc mailbox.addr) ++
    recipients.bccList.map fun mailbox => .mailbox .bcc mailbox.addr

theorem marked_addr (mailbox : Mailbox) :
    marked mailbox.addr = ascii "SMTP:" ++ mailbox.addr := by
  rw [marked, if_pos (strchr_mem mailbox.at_mem)]

/-- Every mailbox gets a header line of its kind with its address, and `wl2mime` adds the
same addresses, in the same order and kinds. -/
structure RecipientsSurvive (recipients : Recipients) (phrase : Bytes → Bytes) (mid : Bytes)
    (message : Message) : Prop where
  toWritten : ∀ mailbox ∈ recipients.toList,
    addressLine (ascii "To") (addressCleanup (mailbox.render phrase)) =
      field (ascii "To") (ascii "SMTP:" ++ mailbox.addr)
  ccWritten : ∀ mailbox ∈ recipients.ccList,
    addressLine (ascii "Cc") (addressCleanup (mailbox.render phrase)) =
      field (ascii "Cc") (ascii "SMTP:" ++ mailbox.addr)
  bccWritten : ∀ mailbox ∈ recipients.bccList,
    addressLine (ascii "Bcc") (addressCleanup (mailbox.render phrase)) =
      field (ascii "Bcc") (ascii "SMTP:" ++ mailbox.addr)
  readBack : ∃ enough, ∀ fuel ≥ enough, ∃ buf calls,
    mime2wl fuel mid (recipients.address phrase message) = some buf ∧
      wl2mime fuel buf = some calls ∧ recipientCalls calls = recipients.calls

theorem addressLine_iff (key : Bytes) (mailbox : Mailbox) (clean : Bytes) :
    addressLine key clean = field key (ascii "SMTP:" ++ mailbox.addr) ↔ clean = mailbox.addr := by
  rw [addressLine, field]
  constructor
  · intro same
    simp only [List.append_assoc, List.append_cancel_left_eq] at same
    simp only [← List.append_assoc, List.append_cancel_right_eq] at same
    have values := same
    split at values
    · exact List.append_cancel_left values
    · -- an address without the mark has no `@`
      rename_i unmarked
      rw [List.nil_append] at values
      exact absurd (strchr_mem (values ▸ List.mem_append_right _ mailbox.at_mem)) unmarked
  · rintro rfl
    have mark := marked_addr mailbox
    rw [marked] at mark
    simp only [List.append_assoc, mark]

theorem RecipientsSurvive.clear {recipients : Recipients} {phrase : Bytes → Bytes} {mid : Bytes}
    {message : Message} (survive : RecipientsSurvive recipients phrase mid message) :
    ∀ mailbox ∈ recipients.all, mailbox.Clear phrase := by
  obtain ⟨toWritten, ccWritten, bccWritten, -⟩ := survive
  intro mailbox member
  rw [← addressCleanup_render_iff]
  rcases List.mem_append.mp member with member | member
  · rcases List.mem_append.mp member with member | member
    · exact (addressLine_iff _ mailbox _).mp (toWritten mailbox member)
    · exact (addressLine_iff _ mailbox _).mp (ccWritten mailbox member)
  · exact (addressLine_iff _ mailbox _).mp (bccWritten mailbox member)

end PaclinkUnix
