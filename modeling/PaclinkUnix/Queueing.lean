import PaclinkUnix.MessageParts
import PaclinkUnix.Mid

/-!
Queueing mail: `mail.wl2k` writes the message that `mime2wl` builds to a file of the
outbox that has the name of its identifier. A file that is there already is cut off.
-/

namespace PaclinkUnix

open Buffer

/-- One run of the program: without `-m` it records the identifier. -/
structure MailRun where
  bRecordMid : Bool
  now : Int
  message : Message
  deriving DecidableEq, Repr

/-- The name of the file that is opened, what is written to it, and the database. -/
def mailWl2k (fuel : Nat) (random : Nat → Nat → Nat) (callsign : Bytes) (run : MailRun)
    (db : MidDb) : Option (Bytes × Bytes × MidDb) := do
  let (mid, db) ← generateMid fuel .succeed random callsign run.bRecordMid run.now db
  let buf ← mime2wl fuel mid run.message
  let (line, _) ← buf.rewind.getline lineFeed fuel
  let line ← line
  if strcasebegins line (ascii "Mid:") then
    let content ← drain fuel buf.rewind
    some (strzapcc (skipSpace (line.drop 4)), content, db)
  else none

/-- A file of the outbox, and when its identifier was recorded as it was queued. -/
structure QueuedFile where
  content : Bytes
  recordedAt : Option Int

structure Outbox where
  files : Bytes → Option QueuedFile
  db : MidDb

def Outbox.queue (outbox : Outbox) (run : MailRun) (name content : Bytes) (db : MidDb) : Outbox where
  files := Function.update outbox.files name
    (some ⟨content, if run.bRecordMid then some run.now else none⟩)
  db := db

def Outbox.unlink (outbox : Outbox) (name : Bytes) : Outbox :=
  { outbox with files := Function.update outbox.files name none }

inductive OutboxEvent where
  | queued (run : MailRun) (name content : Bytes)
  | sent (name : Bytes)

inductive OutboxStep (random : Nat → Nat → Nat) (callsign : Bytes) :
    Outbox → OutboxEvent → Outbox → Prop where
  | queued {outbox : Outbox} {run : MailRun} {fuel : Nat} {name content : Bytes} {db : MidDb}
      (completed : mailWl2k fuel random callsign run outbox.db = some (name, content, db)) :
      OutboxStep random callsign outbox (.queued run name content)
        (outbox.queue run name content db)
  | sent {outbox : Outbox} (name : Bytes) :
      OutboxStep random callsign outbox (.sent name) (outbox.unlink name)

/-- A sequence of runs and sent messages, each with the outbox before it. -/
inductive OutboxRuns (random : Nat → Nat → Nat) (callsign : Bytes) (start : Outbox) :
    List (Outbox × OutboxEvent) → Outbox → Prop where
  | start : OutboxRuns random callsign start [] start
  | next {steps : List (Outbox × OutboxEvent)} {before after : Outbox} {event : OutboxEvent}
      (runs : OutboxRuns random callsign start steps before)
      (step : OutboxStep random callsign before event after) :
      OutboxRuns random callsign start (steps ++ [(before, event)]) after

theorem messageBytes_mid (mid : Bytes) (message : Message) :
    ∃ rest, messageBytes mid message = field (ascii "Mid") mid ++ rest := by
  rw [messageBytes_eq, messageLines, linesOf_flatten, Message.allFields, Message.fields, messageFields]
  simp only [fieldLines, List.cons_append, List.map_cons, List.flatten_cons, List.append_assoc]
  exact ⟨_, rfl⟩

theorem splitLine_headerLine {line : Bytes} (isLine : HeaderLine line) (rest : Bytes) :
    cstring (splitLine lineFeed (line ++ rest)).1 = line := by
  obtain ⟨text, rfl, plain⟩ := isLine.ended
  rw [splitLine_ended text fun char member => (plain char member).1]
  refine cstring_of_notNul fun char member => ?_
  rcases List.mem_append.mp member with member | member
  · exact (plain char member).2
  · cases List.mem_singleton.mp member
    decide

theorem midLine_name {mid : Bytes} (single : SingleLine mid)
    (start : ∀ char ∈ mid.head?, isspace char = false) :
    strzapcc (skipSpace ((field (ascii "Mid") mid).drop 4)) = mid := by
  have behind : (field (ascii "Mid") mid).drop 4 = 32 :: (mid ++ crlf) := rfl
  have returned : (mid ++ crlf).takeWhile (· ≠ 13) = mid := by
    rw [List.takeWhile_append_of_pos]
    · simp [crlf, carriageReturn]
    · intro char member
      simpa using (single char member).1
  have plain : strzapcc (mid ++ crlf) = mid := by
    rw [strzapcc, returned, List.takeWhile_eq_self_iff]
    intro char member
    simpa using (single char member).2.1
  rw [behind, skipSpace_space]
  cases mid with
  | nil => rfl
  | cons char rest =>
      rw [List.cons_append, skipSpace_of_notSpace (start char rfl)]
      exact plain

theorem generateMid_plain {random : Nat → Nat} {callsign : Bytes} (single : SingleLine callsign)
    (short : callsign.length ≤ callsignMaxLen) (k : Nat) :
    SingleLine (midCandidate random callsign k) ∧
      ∀ char ∈ (midCandidate random callsign k).head?, isspace char = false := by
  have letters : ∀ char ∈ midchars,
      (char ≠ 13 ∧ char ≠ 10 ∧ char ≠ 0) ∧ isspace char = false := by decide +kernel
  constructor
  · intro char member
    rcases midCandidate_chars random k char member with letter | rfl | call
    · exact (letters char letter).1
    · decide
    · exact single char call
  · obtain ⟨first, rest, front, letter⟩ := midCandidate_cons short random k
    rw [front]
    rintro char ⟨⟩
    exact (letters first letter).2

theorem mailWl2k_some {fuel : Nat} {random : Nat → Nat → Nat} {callsign : Bytes} {run : MailRun}
    {db after : MidDb} {name content : Bytes} (single : SingleLine callsign)
    (short : callsign.length ≤ callsignMaxLen)
    (completed : mailWl2k fuel random callsign run db = some (name, content, after)) :
    ∃ last, Reached (random (run.now % 2 ^ 32).toNat) callsign run.now db last ∧
      name = midCandidate (random (run.now % 2 ^ 32).toNat) callsign last ∧
      ¬ holds run.now name db ∧
      after = Function.update db name (if run.bRecordMid then some (.time run.now) else none) := by
  simp only [mailWl2k, Option.bind_eq_bind, Option.bind_eq_some_iff] at completed
  obtain ⟨⟨mid, middle⟩, generated, buf, built, ⟨line, left⟩, read, text, isLine, rest⟩ := completed
  simp only at isLine
  subst isLine
  obtain ⟨last, reached, rfl, fresh, rfl⟩ := generateMid_some generated
  obtain ⟨midSingle, start⟩ := @generateMid_plain
    (random (run.now % 2 ^ 32).toNat) callsign single short last
  obtain ⟨-, -, data⟩ := mime2wl_some built
  obtain ⟨behind, front⟩ :=
    messageBytes_mid (midCandidate (random (run.now % 2 ^ 32).toNat) callsign last) run.message
  have isLine := field_headerLine (by decide +kernel : FieldName (ascii "Mid")) midSingle
  split at rest
  · simp only [Option.bind_eq_some_iff, Option.some.injEq, Prod.mk.injEq] at rest
    obtain ⟨whole, drained, rfl, rfl, rfl⟩ := rest
    have reads : Reads buf.rewind buf.data := reads_rewind (drain_rewind drained).2
    have nonempty : buf.data ≠ [] := by
      rw [data, front]
      exact List.cons_ne_nil _ _
    obtain ⟨same, -⟩ := getline_some reads nonempty read
    rw [data, front, splitLine_headerLine isLine, Option.some.injEq] at same
    rw [same, midLine_name midSingle start]
    exact ⟨last, reached, rfl, fresh, rfl⟩
  · cases rest

def OpensFresh : Outbox × OutboxEvent → Prop
  | (before, .queued _ name _) => before.files name = none
  | (_, .sent _) => True

/-- Whenever the run comes to the identifier of a file that is still in the outbox, that
one was queued without `-m` and not too long ago. -/
def MeetsRecorded (random : Nat → Nat → Nat) (callsign : Bytes) : Outbox × OutboxEvent → Prop
  | (before, .queued run _ _) =>
      ∀ k, Reached (random (run.now % 2 ^ 32).toNat) callsign run.now before.db k →
        ∀ file ∈ before.files (midCandidate (random (run.now % 2 ^ 32).toNat) callsign k),
          ∃ time, file.recordedAt = some time ∧ expired run.now time = false
  | (_, .sent _) => True

/-- Every run opens a new file, and what was queued is there until it is sent. -/
structure QueueSafe (steps : List (Outbox × OutboxEvent)) (last : Outbox) : Prop where
  fresh : ∀ step ∈ steps, OpensFresh step
  survives : ∀ before run name content earlier later,
    steps = earlier ++ (before, .queued run name content) :: later →
    (∀ other, (other, .sent name) ∉ later) →
    ∃ file ∈ last.files name, file.content = content

/-- The database knows of each queued file what was recorded as it was queued. -/
def Recorded (outbox : Outbox) : Prop :=
  ∀ name, ∀ file ∈ outbox.files name, outbox.db name = file.recordedAt.map .time

theorem recorded_step {random : Nat → Nat → Nat} {callsign : Bytes} {before after : Outbox}
    {event : OutboxEvent} (single : SingleLine callsign)
    (short : callsign.length ≤ callsignMaxLen)
    (step : OutboxStep random callsign before event after) (recorded : Recorded before) :
    Recorded after := by
  cases step with
  | sent name =>
      intro other file member
      by_cases same : other = name
      · subst same
        simp [Outbox.unlink] at member
      · simp only [Outbox.unlink, Function.update_of_ne same] at member ⊢
        exact recorded other file member
  | @queued run fuel name content db completed =>
      obtain ⟨last, -, -, -, rfl⟩ := mailWl2k_some single short completed
      intro other file member
      by_cases same : other = name
      · subst same
        simp only [Outbox.queue, Function.update_self, Option.mem_def, Option.some.injEq] at member ⊢
        subst member
        cases run.bRecordMid <;> rfl
      · simp only [Outbox.queue, Function.update_of_ne same] at member ⊢
        exact recorded other file member

theorem opensFresh_iff {random : Nat → Nat → Nat} {callsign : Bytes} {before after : Outbox}
    {event : OutboxEvent} (single : SingleLine callsign)
    (short : callsign.length ≤ callsignMaxLen)
    (step : OutboxStep random callsign before event after) (recorded : Recorded before) :
    OpensFresh (before, event) ↔ MeetsRecorded random callsign (before, event) := by
  cases step with
  | sent name => exact Iff.rfl
  | @queued run fuel name content db completed =>
      obtain ⟨last, reached, rfl, notHeld, -⟩ := mailWl2k_some single short completed
      have heldOf : ∀ mid, ∀ file ∈ before.files mid, holds run.now mid before.db ↔
          ∃ time, file.recordedAt = some time ∧ expired run.now time = false := by
        intro mid file member
        rw [holds, recorded mid file member]
        cases file.recordedAt <;> simp
      constructor
      · intro fresh k reachedToo file member
        rw [← heldOf _ file member]
        by_contra missed
        -- then the search ends here, at the name that was opened
        have same : k = last := by
          rcases Nat.lt_trichotomy k last with earlier | same | later
          · exact absurd (reached k earlier) missed
          · exact same
          · exact absurd (reachedToo last later) notHeld
        subst same
        rw [OpensFresh] at fresh
        rw [fresh] at member
        cases member
      · intro meets
        rw [OpensFresh]
        by_contra queued
        obtain ⟨file, member⟩ := Option.ne_none_iff_exists'.mp queued
        exact notHeld ((heldOf _ file member).mpr (meets last reached file member))

theorem recorded_runs {random : Nat → Nat → Nat} {callsign : Bytes} {start last : Outbox}
    {steps : List (Outbox × OutboxEvent)} (single : SingleLine callsign)
    (short : callsign.length ≤ callsignMaxLen) (empty : start.files = fun _ => none)
    (runs : OutboxRuns random callsign start steps last) : Recorded last := by
  induction runs with
  | start =>
      intro name file member
      rw [empty] at member
      cases member
  | next _ step recorded => exact recorded_step single short step recorded

theorem opensFresh_runs {random : Nat → Nat → Nat} {callsign : Bytes} {start last : Outbox}
    {steps : List (Outbox × OutboxEvent)} (single : SingleLine callsign)
    (short : callsign.length ≤ callsignMaxLen) (empty : start.files = fun _ => none)
    (runs : OutboxRuns random callsign start steps last) :
    ∀ step ∈ steps, OpensFresh step ↔ MeetsRecorded random callsign step := by
  induction runs with
  | start =>
      intro step member
      cases member
  | next runs step ih =>
      intro other member
      rcases List.mem_append.mp member with member | member
      · exact ih other member
      · cases List.mem_singleton.mp member
        exact opensFresh_iff single short step (recorded_runs single short empty runs)

theorem survives_step {random : Nat → Nat → Nat} {callsign : Bytes} {before after : Outbox}
    {event : OutboxEvent} (step : OutboxStep random callsign before event after)
    (fresh : OpensFresh (before, event)) {name : Bytes} {file : QueuedFile}
    (member : file ∈ before.files name) (kept : event ≠ .sent name) : file ∈ after.files name := by
  cases step with
  | sent other =>
      have different : name ≠ other := by
        rintro rfl
        exact kept rfl
      simpa only [Outbox.unlink, Function.update_of_ne different] using member
  | @queued run fuel other content db completed =>
      have different : name ≠ other := by
        rintro rfl
        rw [OpensFresh] at fresh
        rw [fresh] at member
        cases member
      simpa only [Outbox.queue, Function.update_of_ne different] using member

theorem survives_runs {random : Nat → Nat → Nat} {callsign : Bytes} {start last : Outbox}
    {steps : List (Outbox × OutboxEvent)} (runs : OutboxRuns random callsign start steps last)
    (fresh : ∀ step ∈ steps, OpensFresh step) {earlier later : List (Outbox × OutboxEvent)}
    {before : Outbox} {run : MailRun} {name content : Bytes}
    (split : steps = earlier ++ (before, .queued run name content) :: later)
    (unsent : ∀ other, (other, .sent name) ∉ later) :
    ∃ file ∈ last.files name, file.content = content := by
  induction runs generalizing later with
  | start => simp at split
  | @next steps middle after event runs step ih =>
      have earlierFresh : ∀ step ∈ steps, OpensFresh step := fun other member =>
        fresh other (List.mem_append_left _ member)
      rcases List.eq_nil_or_concat later with rfl | ⟨init, final, rfl⟩
      · -- the queueing step is the last one
        have ends := List.append_inj_right' split rfl
        rw [List.cons.injEq, Prod.mk.injEq] at ends
        obtain ⟨⟨-, rfl⟩, -⟩ := ends
        cases step with
        | queued completed => exact ⟨_, Function.update_self .., rfl⟩
      · have ends : steps ++ [(middle, event)] =
            (earlier ++ (before, .queued run name content) :: init) ++ [final] := by
          simpa using split
        obtain ⟨same, final⟩ := List.append_inj' ends rfl
        rw [List.cons.injEq] at final
        obtain ⟨rfl, -⟩ := final
        obtain ⟨file, member, content⟩ := ih earlierFresh same
          fun other sent => unsent other (by simp [sent])
        refine ⟨file, survives_step step (fresh _ (by simp)) member ?_, content⟩
        rintro rfl
        exact unsent middle (by simp)

theorem queue_safe_iff (random : Nat → Nat → Nat) (callsign : Bytes) (start last : Outbox)
    (steps : List (Outbox × OutboxEvent)) (single : SingleLine callsign)
    (short : callsign.length ≤ callsignMaxLen) (empty : start.files = fun _ => none)
    (runs : OutboxRuns random callsign start steps last) :
    QueueSafe steps last ↔ ∀ step ∈ steps, MeetsRecorded random callsign step := by
  have agree := opensFresh_runs single short empty runs
  constructor
  · exact fun safe step member => (agree step member).mp (safe.fresh step member)
  · intro meets
    have fresh : ∀ step ∈ steps, OpensFresh step := fun step member =>
      (agree step member).mpr (meets step member)
    exact ⟨fresh, fun before run name content earlier later split unsent =>
      survives_runs runs fresh split unsent⟩

def sampleRandom (seed call : Nat) : Nat := seed + call

def emptyOutbox : Outbox := ⟨fun _ => none, fun _ => none⟩

def sampleRun : MailRun := ⟨false, 0, sampleMessage [sampleText]⟩

theorem sampleRun_completes : ∃ name content,
    mailWl2k 400 sampleRandom (ascii "N0CALL") sampleRun emptyOutbox.db =
      some (name, content, emptyOutbox.db) := by
  have ends : (mailWl2k 400 sampleRandom (ascii "N0CALL") sampleRun emptyOutbox.db).isSome =
      true := by
    decide +kernel
  obtain ⟨⟨name, content, db⟩, completed⟩ := Option.isSome_iff_exists.mp ends
  obtain ⟨-, -, -, -, same⟩ := mailWl2k_some (by unfold SingleLine; decide +kernel)
    (by decide +kernel) completed
  have unchanged : db = emptyOutbox.db := by
    rw [same]
    exact Function.update_eq_self name emptyOutbox.db
  subst unchanged
  exact ⟨name, content, completed⟩

def recordedRun : MailRun := { sampleRun with bRecordMid := true }

/-- A run that records its identifier, and one with `-m` in the same second while the first
message is still in the outbox: the search goes on to the next identifier. -/
theorem queue_safe_sample : ∃ steps last, steps.length = 2 ∧
    OutboxRuns sampleRandom (ascii "N0CALL") emptyOutbox steps last ∧ QueueSafe steps last := by
  have single : SingleLine (ascii "N0CALL") := by
    unfold SingleLine
    decide +kernel
  have ends : ((mailWl2k 400 sampleRandom (ascii "N0CALL") recordedRun emptyOutbox.db).bind
      fun first => mailWl2k 400 sampleRandom (ascii "N0CALL") sampleRun first.2.2).isSome := by
    decide +kernel
  obtain ⟨⟨second, text, left⟩, both⟩ := Option.isSome_iff_exists.mp ends
  obtain ⟨⟨name, content, db⟩, completed, again⟩ := Option.bind_eq_some_iff.mp both
  obtain ⟨last, reached, named, -, recorded⟩ := mailWl2k_some single (by decide +kernel) completed
  have first : last = 0 := by
    by_contra later
    obtain ⟨time, stored, -⟩ := reached 0 (by omega)
    cases stored
  subst first
  have fresh := OutboxRuns.next (@OutboxRuns.start sampleRandom (ascii "N0CALL") emptyOutbox)
    (OutboxStep.queued completed)
  have runs := fresh.next (.queued again)
  refine ⟨_, _, rfl, runs, (queue_safe_iff sampleRandom (ascii "N0CALL") emptyOutbox _ _ single
    (by decide +kernel) rfl runs).mpr fun step member => ?_⟩
  rcases List.mem_cons.mp member with rfl | member
  · rintro k - file ⟨⟩
  · cases List.mem_singleton.mp member
    intro k _ file queued
    change file ∈ Function.update (fun _ => none) name
      (some (QueuedFile.mk content (some 0))) _ at queued
    by_cases same : midCandidate (sampleRandom (sampleRun.now % 2 ^ 32).toNat) (ascii "N0CALL") k =
        name
    · rw [same, Function.update_self] at queued
      cases queued
      exact ⟨0, rfl, by decide +kernel⟩
    · rw [Function.update_of_ne same] at queued
      cases queued

/-- Two runs with `-m` in the same second: the second one cuts off the first message. -/
theorem queued_message_overwritten : ∃ steps last,
    OutboxRuns sampleRandom (ascii "N0CALL") emptyOutbox steps last ∧ ¬ QueueSafe steps last := by
  obtain ⟨name, content, completed⟩ := sampleRun_completes
  have first := OutboxRuns.next (@OutboxRuns.start sampleRandom (ascii "N0CALL") emptyOutbox)
    (OutboxStep.queued completed)
  have again : mailWl2k 400 sampleRandom (ascii "N0CALL") sampleRun
      (emptyOutbox.queue sampleRun name content emptyOutbox.db).db =
        some (name, content, emptyOutbox.db) := completed
  refine ⟨_, _, first.next (.queued again), fun safe => ?_⟩
  have fresh := safe.fresh _ (List.mem_append_right _ (List.mem_singleton_self _))
  simp [OpensFresh, Outbox.queue] at fresh

end PaclinkUnix
