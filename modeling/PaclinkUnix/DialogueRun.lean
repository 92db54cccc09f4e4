import PaclinkUnix.Dialogue
import PaclinkUnix.Exchange

/-!
The program takes the turns of the dialogue: what `b2outboundproposal` and
`inbound_parser` do when the other end is the same program, as runs that read exactly what
the dialogue says.
-/

namespace PaclinkUnix

open Effects Effects.Program

structure Reliable (env : Env) : Prop where
  succeed : ∀ call, env.dbCalls call = .succeed
  delivers : ∀ call, env.sendmail call = .status 0

/-- The database holds an entry for exactly these messages, and none goes out of date. -/
structure Stores (env : Env) (held : Bytes → Bool) (db : MidDb) : Prop where
  young : NeverExpires env db
  entries : ∀ mid, held mid = true ↔ db mid ≠ none
  sound : ∀ mid, db mid ≠ some .malformed

def Goes {α : Type} (env : Env) (program : Session α) (held after : Bytes → Bool)
    (events : List Event) (value : α) : Prop :=
  ∀ (world : World) (rest : Bytes), Stores env held world.db →
    world.input = events.flatMap Event.reads ++ rest →
    ∃ later, run (handle env) program world = (some value, later) ∧ later.input = rest ∧
      Stores env after later.db ∧ later.trace = world.trace ++ events

section Rules

variable {env : Env} {α β : Type} {held middle after : Bytes → Bool} {events more : List Event}

theorem goes_pure (value : α) : Goes env (pure value : Session α) held held [] value := by
  intro world rest stores input
  exact ⟨world, rfl, input, stores, (List.append_nil _).symm⟩

theorem Goes.bind {program : Session α} {next : α → Session β} {value : α} {result : β}
    (first : Goes env program held middle events value)
    (second : Goes env (next value) middle after more result) :
    Goes env (program >>= next) held after (events ++ more) result := by
  intro world rest stores input
  rw [List.flatMap_append, List.append_assoc] at input
  obtain ⟨between, ran, left, kept, traced⟩ := first world _ stores input
  obtain ⟨later, goes, done, known, all⟩ := second between rest kept left
  refine ⟨later, ?_, done, known, ?_⟩
  · rw [run_bind_some ran, goes]
  · rw [all, traced, List.append_assoc]

theorem Goes.quiet {program : Session α} {next : α → Session β} {value : α} {result : β}
    (first : Goes env program held middle [] value)
    (second : Goes env (next value) middle after more result) :
    Goes env (program >>= next) held after more result :=
  first.bind second

theorem goes_write (what : Output) (bytes : Bytes) :
    Goes env (write what bytes) held held [.wrote what bytes] () := by
  intro world rest stores input
  exact ⟨_, rfl, input, stores, rfl⟩

theorem goes_unlink (path : Bytes) : Goes env (unlink path) held held [.unlinked path] () := by
  intro world rest stores input
  exact ⟨_, rfl, input, stores, rfl⟩

theorem goes_answer (mid : Bytes) (char : UInt8) :
    Goes env (answer mid char) held held [.answered mid char] () := by
  intro world rest stores input
  exact ⟨_, rfl, input, stores, rfl⟩

theorem taken_front (raw rest : Bytes) : taken (raw ++ rest) rest = raw := by
  simp [taken]

theorem goes_getline {text : Bytes} (plain : ∀ char ∈ text, lineChar char = true) :
    Goes env getline held held [lineRead text] (some text) := by
  intro world rest stores input
  rw [List.flatMap_singleton, lineRead_reads] at input
  have read : wl2kgetline world.input = some (text, rest) := by
    rw [input, List.append_assoc]
    exact wl2kgetline_line plain rest
  have raw : taken world.input rest = text ++ [carriageReturn] := by
    rw [input, taken_front]
  refine ⟨{ world with input := rest }.log (lineRead text), ?_, rfl, stores, rfl⟩
  simp [getline, perform, run_call, handle, read, raw, lineRead]

theorem goes_receive {prop : Proposal} (fit : Transmittable prop)
    (title : ∀ char ∈ prop.title, char ≠ 0) :
    Goes env receiveCompressed held held [.frame (frame prop) (some prop.cbuf)]
      (some prop.cbuf) := by
  intro world rest stores input
  rw [List.flatMap_singleton] at input
  change world.input = frame prop ++ rest at input
  have read := getcompressed_frame prop fit title rest
  rw [← input] at read
  have raw : taken world.input rest = frame prop := by
    rw [input, taken_front]
  refine ⟨{ world with input := rest }.log (.frame (frame prop) (some prop.cbuf)), ?_, rfl,
    stores, rfl⟩
  simp [receiveCompressed, perform, run_call, handle, read, raw]

theorem goes_checkMid (reliable : Reliable env) (mid : Bytes) :
    Goes env (callCheckMid mid) held held
      [.checked mid .succeed (some (if held mid then found else notFound)) (held mid)]
      (if held mid then found else notFound) := by
  intro world rest stores input
  rcases checkMid_young stores.young world.calls mid with
    ⟨malformed, -⟩ | ⟨absent, result⟩ | ⟨present, result⟩
  · exact absurd malformed (stores.sound mid)
  · have unknown : held mid = false := by
      rw [← Bool.not_eq_true]
      exact fun known => (stores.entries mid).mp known absent
    have missing : ¬ holds (env.clock world.calls) mid world.db := by
      rintro ⟨stored, same, -⟩
      rw [absent] at same
      cases same
    refine ⟨world.tick.log (.checked mid .succeed (some notFound) false), ?_, input, stores, ?_⟩
    · simp [callCheckMid, perform, run_call, handle, reliable.succeed, result, unknown, missing,
        World.tick, World.log]
    · simp [unknown, World.tick]
  · have known : held mid = true := by
      obtain ⟨stored, same, -⟩ := present
      exact (stores.entries mid).mpr (by rw [same]; exact Option.some_ne_none _)
    refine ⟨world.tick.log (.checked mid .succeed (some found) true), ?_, input, stores, ?_⟩
    · simp [callCheckMid, perform, run_call, handle, reliable.succeed, result, known, present,
        World.tick, World.log]
    · simp [known, World.tick]

theorem goes_sendmail (reliable : Reliable env) (mid message mimebuf : Bytes) :
    Goes env (sendmail mid message mimebuf) held held [.delivered mid message mimebuf]
      (.status 0) := by
  intro world rest stores input
  refine ⟨world.tick.log (.delivered mid message mimebuf), ?_, input, stores, rfl⟩
  simp [sendmail, perform, run_call, handle, reliable.delivers]

theorem Stores.record {db : MidDb} (stores : Stores env held db) (mid : Bytes) (call : Nat) :
    Stores env (fun other => held other || mid == other)
      (Function.update db mid (some (.time (env.clock call)))) := by
  refine ⟨⟨?_, stores.young.recorded⟩, ?_, ?_⟩
  · intro later other time entry
    by_cases same : other = mid
    · rw [same, Function.update_self] at entry
      cases entry
      exact stores.young.recorded later call
    · rw [Function.update_of_ne same] at entry
      exact stores.young.stored later other time entry
  · intro other
    by_cases same : other = mid
    · simp [same]
    · rw [Function.update_of_ne same, ← stores.entries other]
      simp [Ne.symm same]
  · intro other
    by_cases same : other = mid
    · simp [same]
    · rw [Function.update_of_ne same]
      exact stores.sound other

theorem goes_recordMid (reliable : Reliable env) (mid : Bytes) :
    Goes env (callRecordMid mid) held (fun other => held other || mid == other)
      [.recorded mid 0] 0 := by
  intro world rest stores input
  refine ⟨{ world.tick with
      db := Function.update world.db mid (some (.time (env.clock world.calls))) }.log
    (.recorded mid 0), ?_, input, stores.record mid world.calls, rfl⟩
  simp [callRecordMid, perform, run_call, handle, reliable.succeed, recordMid_succeed]

end Rules

section Asking

variable {env : Env} {held : Bytes → Bool}

theorem goes_of_writes {α : Type} {program : Session α} {events : List Event} {value : α}
    (deaf : events.flatMap Event.reads = [])
    (ran : ∀ world : World, run (handle env) program world =
      (some value, { world with trace := world.trace ++ events })) :
    Goes env program held held events value := by
  intro world rest stores input
  rw [deaf, List.nil_append] at input
  exact ⟨_, ran world, input, stores, rfl⟩

theorem goes_sendProposals {limit : Nat} {props : List Proposal} (nonempty : props ≠ [])
    (cksum : UInt32) :
    Goes env (sendProposals limit props cksum) held held
      ((props.take limit).map fun prop => .wrote (.proposal prop.mid) (proposalLine prop))
      (addBytes cksum (offerBytes (props.take limit))) := by
  refine goes_of_writes (flatMap_reads_nil fun event member => ?_) fun world =>
    run_sendProposals_sum env limit props cksum world (.inr nonempty)
  obtain ⟨prop, -, rfl⟩ := List.mem_map.mp member
  rfl

theorem goes_putcompressed {prop : Proposal} (fit : Transmittable prop) :
    Goes env (putcompressed prop) held held (frameEvents prop) () :=
  goes_of_writes (frameEvents_reads prop) fun world => run_putcompressed env prop fit world

theorem goes_skipLines {start line : Bytes} (other : strbegins line start = false) (fuel : Nat) :
    Goes env (skipLines start fuel line) held held [] line := by
  have same : skipLines start fuel line = pure line := by
    cases fuel <;> simp [skipLines, other]
  rw [same]
  exact goes_pure line

def Proposal.answered (held : Bytes → Bool) (prop : Proposal) : Proposal :=
  { prop with accepted := !held prop.mid, delete := held prop.mid, offset := 0 }

theorem readAnswer_char (theirs : Bytes → Bool) (prop : Proposal) (more : Bytes) :
    readAnswer prop (answerChar theirs prop :: more) (answerChar theirs prop) =
      some (prop.answered theirs, more) := by
  cases known : theirs prop.mid <;>
    simp [readAnswer, answerChar, Proposal.answered, known]

theorem readAnswers_batch (theirs : Bytes → Bool) (batch more : List Proposal) :
    readAnswers 0 (batch ++ more) (batch.map (answerChar theirs)) =
      pure (batch.map (Proposal.answered theirs) ++ more) := by
  induction batch with
  | nil => cases more <;> rfl
  | cons prop batch ih =>
      rw [List.cons_append, List.map_cons, readAnswers, if_neg (by decide), readAnswer_char]
      simp only [ih]
      rfl

theorem answered_transmittable {prop : Proposal} (fit : Transmittable prop)
    (theirs : Bytes → Bool) : Transmittable (prop.answered theirs) :=
  ⟨fit.size, fit.enough, rfl⟩

theorem answered_frame {prop : Proposal} (fit : Transmittable prop) (theirs : Bytes → Bool) :
    frameEvents (prop.answered theirs) = frameEvents prop := by
  have same : frameWrites (prop.answered theirs) = frameWrites prop := by
    simp [frameWrites, Proposal.answered, frameHeader, frameTitle, frameOffset, fit.offset]
  rw [frameEvents, same]
  rfl

theorem goes_transmitOne (theirs : Bytes → Bool) {prop : Proposal} (fit : Transmittable prop) :
    Goes env (transmitOne (prop.answered theirs)) held held
      ((wanted theirs [prop]).flatMap frameEvents) (prop.marked theirs) := by
  cases known : theirs prop.mid with
  | true =>
      have skipped : transmitOne (prop.answered theirs) = pure (prop.marked theirs) := by
        simp [transmitOne, Proposal.answered, Proposal.marked, known]
      have unwanted : wanted theirs [prop] = [] := by simp [wanted, known]
      rw [skipped, unwanted]
      exact goes_pure _
  | false =>
      have sent : transmitOne (prop.answered theirs) =
          (putcompressed (prop.answered theirs) >>= fun _ => pure (prop.marked theirs)) := by
        simp [transmitOne, Proposal.answered, Proposal.marked, known]
      have one : wanted theirs [prop] = [prop] := by simp [wanted, known]
      rw [sent, one, List.flatMap_singleton, ← answered_frame fit theirs,
        ← List.append_nil (frameEvents _)]
      exact (goes_putcompressed (answered_transmittable fit theirs)).bind (goes_pure _)

theorem wanted_cons (theirs : Bytes → Bool) (prop : Proposal) (batch : List Proposal) :
    wanted theirs (prop :: batch) = wanted theirs [prop] ++ wanted theirs batch := by
  rw [wanted, wanted, wanted, ← List.filter_append]
  rfl

theorem goes_transmit (theirs : Bytes → Bool) (limit : Nat) {props : List Proposal}
    (nonempty : props ≠ []) (fit : ∀ prop ∈ props, Transmittable prop) :
    Goes env (transmit limit ((props.take limit).map (Proposal.answered theirs) ++
        props.drop limit)) held held
      ((wanted theirs (props.take limit)).flatMap frameEvents)
      ((props.take limit).map (Proposal.marked theirs) ++ props.drop limit,
        (props.take limit).length) := by
  induction limit generalizing props with
  | zero => exact goes_pure _
  | succ limit ih =>
      cases props with
      | nil => exact absurd rfl nonempty
      | cons prop next =>
          rw [List.take_succ_cons, List.drop_succ_cons, List.map_cons, List.cons_append, transmit,
            wanted_cons, List.flatMap_append]
          refine (goes_transmitOne theirs (fit prop (by simp))).bind ?_
          cases next with
          | nil =>
              simp only [List.take_nil, List.drop_nil, List.map_nil, List.append_nil]
              exact goes_pure _
          | cons second next =>
              have rest := ih (List.cons_ne_nil second next)
                fun other member => fit other (List.mem_cons_of_mem _ member)
              have more : ((((second :: next).take limit).map (Proposal.answered theirs) ++
                  (second :: next).drop limit).isEmpty = true) = False := by
                cases limit <;> simp
              rw [if_neg (by rw [more]; exact id), ← List.append_nil (List.flatMap _ _)]
              exact rest.bind (goes_pure _)

theorem replyText_lineChar (theirs : Bytes → Bool) (batch : List Proposal) :
    ∀ char ∈ replyText theirs batch, lineChar char = true := by
  have front : ascii "FS " = [70, 83, 32] := by decide +kernel
  intro char member
  rw [replyText, front, List.mem_append] at member
  rcases member with member | member
  · simp only [List.mem_cons, List.not_mem_nil, or_false] at member
    rcases member with rfl | rfl | rfl <;> decide
  · obtain ⟨prop, -, rfl⟩ := List.mem_map.mp member
    unfold answerChar
    split <;> decide

theorem replyText_read (theirs : Bytes → Bool) (batch : List Proposal) :
    strbegins (replyText theirs batch) (ascii "FS ") = true ∧
      strbegins (replyText theirs batch) (ascii ";PM:") = false ∧
      strbegins (replyText theirs batch) (ascii ";FW:") = false ∧
      skipSpace ((replyText theirs batch).drop 3) = batch.map (answerChar theirs) := by
  have front : ascii "FS " = [70, 83, 32] := by decide +kernel
  have mail : ascii ";PM:" = [59, 80, 77, 58] := by decide +kernel
  have forward : ascii ";FW:" = [59, 70, 87, 58] := by decide +kernel
  have shown : replyText theirs batch = 70 :: 83 :: 32 :: batch.map (answerChar theirs) := by
    rw [replyText, front]
    rfl
  rw [shown]
  refine ⟨by simp [strbegins, front], by simp [strbegins, mail, List.isPrefixOf],
    by simp [strbegins, forward, List.isPrefixOf], ?_⟩
  rw [List.drop_succ_cons, List.drop_succ_cons, List.drop_succ_cons, List.drop_zero]
  cases batch with
  | nil => rfl
  | cons prop batch =>
      rw [List.map_cons]
      unfold answerChar
      split <;> simp [skipSpace, isspace]

theorem goes_b2outboundproposal (theirs : Bytes → Bool) (fuel : Nat) (lastcommand : Bytes)
    (before : List Proposal) {pending : List Proposal} (nonempty : pending ≠ [])
    (fit : ∀ prop ∈ pending, Transmittable prop) :
    Goes env (b2outboundproposal fuel lastcommand (before ++ pending) before.length) held held
      (askEvents theirs (pending.take propLimit))
      (0, before ++ (pending.take propLimit).map (Proposal.marked theirs) ++
        pending.drop propLimit, before.length + (pending.take propLimit).length) := by
  obtain ⟨answers, noMail, noForward, chars⟩ :=
    replyText_read theirs (pending.take propLimit)
  have begun : (pending.isEmpty = false) = True := by simpa using nonempty
  have line := @goes_getline env held _
    (replyText_lineChar theirs (pending.take propLimit))
  unfold b2outboundproposal
  simp only [List.drop_left, begun, if_true, askEvents, offerEvents, List.append_assoc]
  refine (goes_sendProposals nonempty 0).bind (Goes.bind (goes_write _ _) ?_)
  rw [← List.singleton_append]
  refine line.bind ?_
  refine (goes_skipLines noMail fuel).quiet ((goes_skipLines noForward fuel).quiet ?_)
  rw [if_neg (by simp [answers]), chars]
  have read := readAnswers_batch theirs (pending.take propLimit) (pending.drop propLimit)
  rw [List.take_append_drop] at read
  rw [read]
  refine Goes.quiet (goes_pure _) ?_
  rw [← List.append_nil (List.flatMap _ _)]
  refine (goes_transmit theirs propLimit nonempty fit).bind ?_
  simp only [List.take_left]
  exact goes_pure _

end Asking

end PaclinkUnix
