import PaclinkUnix.OutboxLedger

/-!
A session never transmits or unlinks a message against the peer's answer, as long as
the peer's `FS` lines settle every message of their batch.
-/

namespace PaclinkUnix

open Effects Effects.Program

/-- The flags after the answers, or `none` where an answer means nothing. -/
def markAnswers : List Proposal → Bytes → Option (List Proposal)
  | [], _ => some []
  | props, [] => some props
  | prop :: next, char :: more => do
      let (prop, cp) ← readAnswer prop (char :: more) char
      let next ← markAnswers next cp
      some (prop :: next)

theorem readAnswers_eq (props : List Proposal) (text : Bytes) :
    readAnswers 0 props text =
      match markAnswers props text with
      | some marked => pure marked
      | none => exit "B2 protocol error 3" := by
  induction props generalizing text with
  | nil => rfl
  | cons prop next ih =>
      cases text with
      | nil => rfl
      | cons char more =>
          rw [readAnswers, markAnswers, if_neg (by decide)]
          rcases readAnswer prop (char :: more) char with _ | ⟨marked, cp⟩
          · rfl
          · simp only [ih, Option.bind_eq_bind, Option.bind_some]
            rcases markAnswers next cp with _ | rest
            · simp
            · rfl

def Proposal.unmarked (prop : Proposal) : Proposal :=
  { prop with accepted := false, delete := false }

theorem Proposal.unmarked_fields {first second : Proposal}
    (same : first.unmarked = second.unmarked) :
    first.mid = second.mid ∧ first.offset = second.offset ∧ first.path = second.path ∧
      first.csize = second.csize ∧ first.cbuf = second.cbuf := by
  simp only [Proposal.unmarked, Proposal.mk.injEq] at same
  obtain ⟨-, -, mid, -, csize, path, -, cbuf, -, offset, -⟩ := same
  exact ⟨mid, offset, path, csize, cbuf⟩

theorem strtoul_offset {char : UInt8} (offset : hasOffset char = true) (more : Bytes) :
    strtoul (char :: more) 10 = (0, char :: more) := by
  simp only [hasOffset, Bool.or_eq_true, decide_eq_true_eq] at offset
  rcases offset with (rfl | rfl) | rfl <;> rfl

theorem readAnswer_offset {prop : Proposal} {char : UInt8} {more : Bytes}
    (offset : hasOffset char = true) :
    readAnswer prop (char :: more) char =
      some ({ prop with accepted := true, delete := false, offset := 0 }, char :: more) := by
  have number := strtoul_offset offset more
  simp only [hasOffset, Bool.or_eq_true, decide_eq_true_eq] at offset
  rcases offset with (rfl | rfl) | rfl <;> simp [readAnswer, number]

theorem readAnswer_plain {prop : Proposal} {char : UInt8} {more : Bytes}
    (plain : hasOffset char = false) :
    readAnswer prop (char :: more) char =
      (verdictOf char).map fun verdict =>
        ({ prop with
          accepted := decide (verdict = .accept), delete := decide (verdict = .reject),
          offset := 0 }, more) := by
  simp only [hasOffset, Bool.or_eq_false_iff, decide_eq_false_iff_not] at plain
  obtain ⟨⟨upper, lower⟩, bang⟩ := plain
  simp only [readAnswer, verdictOf, hasOffset, upper, lower, bang, Bool.or_eq_true,
    decide_eq_true_eq, decide_false, Bool.or_false, or_false, if_false, List.tail_cons, or_assoc]
  split
  · rfl
  · split
    · rfl
    · split <;> rfl

/-- After an answer with an offset the code reads that answer again for all the rest. -/
theorem markAnswers_stuck {char : UInt8} (offset : hasOffset char = true) (props : List Proposal)
    (more : Bytes) :
    markAnswers props (char :: more) = some (props.map fun prop =>
      { prop with accepted := true, delete := false, offset := 0 }) := by
  induction props with
  | nil => rfl
  | cons prop next ih => simp [markAnswers, readAnswer_offset offset, ih]

theorem markAnswers_plain {char : UInt8} {more : Bytes} {prop : Proposal} {next : List Proposal}
    (plain : hasOffset char = false) :
    markAnswers (prop :: next) (char :: more) =
      (verdictOf char).bind fun verdict =>
        (markAnswers next more).map fun rest =>
          { prop with
            accepted := decide (verdict = .accept), delete := decide (verdict = .reject),
            offset := 0 } :: rest := by
  rw [markAnswers, readAnswer_plain plain]
  cases verdictOf char with
  | none => rfl
  | some verdict => cases rest : markAnswers next more <;> simp [rest]

theorem markAnswers_unmarked (props : List Proposal) (text : Bytes) (marked : List Proposal)
    (whole : ∀ prop ∈ props, prop.offset = 0) (read : markAnswers props text = some marked) :
    marked.map Proposal.unmarked = props.map Proposal.unmarked := by
  induction props generalizing text marked with
  | nil =>
      cases read
      rfl
  | cons prop next ih =>
      have first := whole prop (List.mem_cons_self ..)
      have later : ∀ other ∈ next, other.offset = 0 :=
        fun other member => whole other (List.mem_cons_of_mem _ member)
      cases text with
      | nil =>
          cases read
          rfl
      | cons char more =>
          cases offset : hasOffset char with
          | true =>
              rw [markAnswers_stuck offset] at read
              cases read
              simp only [List.map_map, List.map_inj_left]
              intro other member
              simp [Proposal.unmarked, whole other member]
          | false =>
              rw [markAnswers_plain offset] at read
              simp only [Option.bind_eq_some_iff, Option.map_eq_some_iff] at read
              obtain ⟨verdict, -, rest, found, rfl⟩ := read
              simp [ih more rest later found, Proposal.unmarked, first]

theorem markAnswers_refused (props : List Proposal) (text : Bytes)
    (bad : refused props.length text = true) : markAnswers props text = none := by
  induction props generalizing text with
  | nil => cases bad
  | cons prop next ih =>
      cases text with
      | nil => cases bad
      | cons char more =>
          simp only [List.length_cons, refused] at bad
          cases offset : hasOffset char with
          | true => cases verdict : verdictOf char <;> simp_all [verdictOf]
          | false =>
              rw [markAnswers_plain offset]
              cases verdict : verdictOf char with
              | none => rfl
              | some verdict =>
                  simp only [verdict, offset] at bad
                  simp [ih more bad]

theorem verdicts_length (count : Nat) (text : Bytes) : (verdicts count text).length = count := by
  induction count generalizing text with
  | zero => rfl
  | succ count ih => cases text <;> simp [verdicts, ih]

def flagVerdict (prop : Proposal) : Option Verdict :=
  some (if prop.delete then .reject else .accept)

theorem markAnswers_settles (count : Nat) (props : List Proposal) (text : Bytes)
    (marked : List Proposal) (enough : count ≤ props.length) (settled : settles count text = true)
    (read : markAnswers props text = some marked) :
    verdicts count text = (marked.take count).map flagVerdict := by
  induction count generalizing props text marked with
  | zero => rfl
  | succ count ih =>
      cases text with
      | nil => cases settled
      | cons char more =>
          cases props with
          | nil => simp at enough
          | cons prop next =>
              simp only [settles] at settled
              cases offset : hasOffset char with
              | true =>
                  rw [markAnswers_stuck offset] at read
                  cases read
                  simp only [offset, if_true] at settled
                  have accepted : verdictOf char = some .accept := by simp [verdictOf, offset]
                  have same : verdicts count (afterAnswer char more) =
                      List.replicate count (some .accept) := by
                    rw [List.eq_replicate_iff]
                    exact ⟨verdicts_length _ _, by simpa using settled⟩
                  have fits : count ≤ next.length := by simpa using enough
                  rw [verdicts, accepted, same]
                  simp only [List.map_cons, List.take_succ_cons, flagVerdict]
                  congr 1
                  symm
                  rw [List.eq_replicate_iff]
                  refine ⟨by simp [fits], ?_⟩
                  intro flag member
                  simp only [← List.map_take, List.map_map, List.mem_map] at member
                  obtain ⟨other, -, rfl⟩ := member
                  rfl
              | false =>
                  rw [markAnswers_plain offset] at read
                  simp only [offset, Bool.false_eq_true, if_false] at settled
                  split at settled
                  · rename_i answered
                    simp only [Option.bind_eq_some_iff, Option.map_eq_some_iff] at read
                    obtain ⟨verdict, given, rest, found, rfl⟩ := read
                    have later := ih next more rest (by simpa using enough) settled found
                    have after : afterAnswer char more = more := by simp [afterAnswer, offset]
                    rw [verdicts, after, later, given]
                    rw [given] at answered
                    rcases answered with same | same <;> cases same <;> simp [flagVerdict]
                  · cases settled

theorem settled_iff (origin : List Proposal) (ledger : Ledger) (mid : Bytes) :
    ledger.settled origin mid = true ↔
      ledger.verdict mid = some .reject ∨
        (ledger.verdict mid = some .accept ∧ ledger.body mid = Ledger.bodyOf origin mid) := by
  simp [Ledger.settled]

section Ledger

variable {origin props : List Proposal} {cursor : Nat} {ledger : Ledger}

structure Resting (origin props : List Proposal) (cursor : Nat) (ledger : Ledger) : Prop where
  unmarked : props.map Proposal.unmarked = origin.map Proposal.unmarked
  inside : cursor ≤ props.length
  phase : ledger.phase = .answered ∨ (ledger.phase = .offering ∧ ledger.batch = [])
  counted : ledger.offered = cursor
  complete : ledger.Complete origin
  settled : ∀ prop ∈ props.take cursor, prop.delete = true →
    ledger.settled origin prop.mid = true
  fresh : ∀ prop ∈ props.drop cursor, ledger.verdict prop.mid = none ∧ ledger.body prop.mid = []

/-- What holds while the peer's answer to a batch is awaited. -/
structure Awaiting (origin props : List Proposal) (cursor : Nat) (ledger : Ledger) : Prop where
  unmarked : props.map Proposal.unmarked = origin.map Proposal.unmarked
  inside : cursor ≤ props.length
  phase : ledger.phase = .awaiting
  batch : ledger.batch = ((props.drop cursor).take propLimit).map Proposal.mid
  counted : ledger.offered = cursor + ledger.batch.length
  settled : ∀ prop ∈ props.take cursor, prop.delete = true →
    ledger.settled origin prop.mid = true
  fresh : ∀ prop ∈ props.drop cursor, ledger.verdict prop.mid = none ∧ ledger.body prop.mid = []

theorem Awaiting.complete (awaiting : Awaiting origin props cursor ledger) :
    ledger.Complete origin := by
  intro mid member accepted
  rw [awaiting.batch, List.mem_map] at member
  obtain ⟨prop, offered, rfl⟩ := member
  rw [(awaiting.fresh prop (List.mem_of_mem_take offered)).1] at accepted
  cases accepted

theorem unmarked_mids (same : props.map Proposal.unmarked = origin.map Proposal.unmarked) :
    props.map Proposal.mid = origin.map Proposal.mid := by
  have mids := congrArg (List.map Proposal.mid) same
  simpa [List.map_map, Function.comp_def, Proposal.unmarked] using mids

theorem find_mid {prop : Proposal} (distinct : (origin.map Proposal.mid).Nodup)
    (member : prop ∈ origin) :
    origin.find? (fun other => other.mid = prop.mid) = some prop := by
  induction origin with
  | nil => cases member
  | cons head rest ih =>
      rw [List.map_cons, List.nodup_cons] at distinct
      rw [List.mem_cons] at member
      rcases member with rfl | member
      · simp
      · have different : head.mid ≠ prop.mid := fun same =>
          distinct.1 (same ▸ List.mem_map_of_mem member)
        simp [different, ih distinct.2 member]

theorem bodyOf_member (prepared : Prepared origin)
    (same : props.map Proposal.unmarked = origin.map Proposal.unmarked) {prop : Proposal}
    (member : prop ∈ props) : Ledger.bodyOf origin prop.mid = frame prop := by
  have marked : prop.unmarked ∈ origin.map Proposal.unmarked :=
    same ▸ List.mem_map_of_mem member
  obtain ⟨source, inside, unmarked⟩ := List.mem_map.mp marked
  have body : frame source = frame prop := by
    change frame source.unmarked = frame prop.unmarked
    rw [unmarked]
  rw [Ledger.bodyOf, ← (Proposal.unmarked_fields unmarked).1,
    find_mid prepared.distinct inside]
  exact body

theorem prepared_member (prepared : Prepared origin)
    (same : props.map Proposal.unmarked = origin.map Proposal.unmarked) {prop : Proposal}
    (member : prop ∈ props) :
    prop.offset = 0 ∧ prop.path = some prop.mid ∧ prop.csize = prop.cbuf.length := by
  have marked : prop.unmarked ∈ origin.map Proposal.unmarked :=
    same ▸ List.mem_map_of_mem member
  obtain ⟨source, inside, unmarked⟩ := List.mem_map.mp marked
  obtain ⟨-, offset, path, size⟩ := prepared.clear source inside
  obtain ⟨sameMid, sameOffset, samePath, sameSize, sameBuf⟩ := Proposal.unmarked_fields unmarked
  rw [← sameOffset, ← samePath, ← sameMid, ← sameSize, ← sameBuf]
  exact ⟨offset, path, size⟩

theorem foldl_offer (origin batch : List Proposal) (ledger : Ledger)
    (offering : ledger.phase = .offering) :
    (batch.map fun prop => Event.wrote (.proposal prop.mid) (proposalLine prop)).foldl
        (Ledger.step origin) ledger =
      { ledger with
        offered := ledger.offered + batch.length
        batch := ledger.batch ++ batch.map Proposal.mid } := by
  induction batch generalizing ledger with
  | nil => simp
  | cons prop rest ih =>
      rw [List.map_cons, List.foldl_cons, ih _ rfl]
      simp only [Ledger.step, Ledger.offer, offering, if_true, List.append_assoc,
        List.singleton_append, List.length_cons, List.map_cons]
      congr 1
      omega

theorem foldl_offer_batch (origin : List Proposal) {batch : List Proposal} {ledger : Ledger}
    (nonempty : batch ≠ [])
    (phase : ledger.phase = .answered ∨ (ledger.phase = .offering ∧ ledger.batch = [])) :
    (batch.map fun prop => Event.wrote (.proposal prop.mid) (proposalLine prop)).foldl
        (Ledger.step origin) ledger =
      { ledger with
        phase := .offering
        offered := ledger.offered + batch.length
        batch := batch.map Proposal.mid } := by
  cases batch with
  | nil => exact absurd rfl nonempty
  | cons prop rest =>
      rw [List.map_cons, List.foldl_cons, foldl_offer _ _ _ rfl]
      have started : (if ledger.phase = .offering then ledger.batch ++ [prop.mid]
          else [prop.mid]) = [prop.mid] := by
        rcases phase with answered | ⟨-, empty⟩
        · simp [answered]
        · simp [empty]
      simp only [Ledger.step, Ledger.offer, started, List.singleton_append, List.length_cons,
        List.map_cons]
      congr 1
      omega

/-- Offering a batch: every line is written while all earlier bodies are complete. -/
theorem offer_accepted (batch : List Proposal) (ledger : Ledger)
    (fresh : ∀ prop ∈ batch, ledger.verdict prop.mid = none)
    (offering : ledger.phase = .offering → ∀ mid ∈ ledger.batch, ledger.verdict mid = none)
    (complete : ledger.Complete origin) :
    (outboxSafety origin).AcceptsFrom ledger
      (batch.map fun prop => Event.wrote (.proposal prop.mid) (proposalLine prop)) := by
  induction batch generalizing ledger with
  | nil => trivial
  | cons prop rest ih =>
      refine ⟨complete, ih _ ?_ ?_ ?_⟩
      · exact fun other member => fresh other (List.mem_cons_of_mem _ member)
      · intro _ mid member
        change mid ∈ (if ledger.phase = .offering then _ else _) at member
        change ledger.verdict mid = none
        have first := fresh prop (List.mem_cons_self ..)
        split at member
        · rename_i phase
          rw [List.mem_append, List.mem_singleton] at member
          rcases member with member | rfl
          · exact offering phase mid member
          · exact first
        · rw [List.mem_singleton] at member
          exact member ▸ first
      · intro mid member accepted
        change mid ∈ (if ledger.phase = .offering then _ else _) at member
        change ledger.verdict mid = _ at accepted
        have first := fresh prop (List.mem_cons_self ..)
        have unanswered : ledger.verdict mid = none := by
          split at member
          · rename_i phase
            rw [List.mem_append, List.mem_singleton] at member
            rcases member with member | rfl
            · exact offering phase mid member
            · exact first
          · rw [List.mem_singleton] at member
            exact member ▸ first
        rw [unanswered] at accepted
        cases accepted

end Ledger

section Sending

variable {origin : List Proposal} {env : Env}

def ledgerAt (origin : List Proposal) (world : World) : Ledger :=
  (outboxSafety origin).state world.trace

def Safe (origin : List Proposal) (world : World) : Prop :=
  (outboxSafety origin).Accepts world.trace

def Settling (origin : List Proposal) (world : World) : Prop :=
  (settlingAnswers origin).Accepts world.trace

/-- What holds wherever a run stops. -/
structure Sound (origin : List Proposal) (world : World) : Prop where
  safe : Safe origin world
  complete : gaveUp world.halted = false → (ledgerAt origin world).Complete origin

theorem run_sendProposals (env : Env) (limit : Nat) (props : List Proposal) (cksum : UInt32) (world : World)
    (sendable : limit = 0 ∨ props ≠ []) :
    ∃ sum, run (handle env) (sendProposals limit props cksum) world =
      (.some sum,
        { world with
          trace := world.trace ++ (props.take limit).map fun prop =>
            .wrote (.proposal prop.mid) (proposalLine prop) }) := by
  induction limit generalizing props cksum world with
  | zero => exact ⟨cksum, by simp [sendProposals]⟩
  | succ limit ih =>
      cases props with
      | nil => simp at sendable
      | cons prop next =>
          simp only [sendProposals, run_write]
          by_cases last : next.isEmpty = true
          · refine ⟨addBytes cksum (proposalLine prop), ?_⟩
            obtain rfl := List.isEmpty_iff.mp last
            simp [World.log]
          · have more : next ≠ [] := fun empty => last (by simp [empty])
            obtain ⟨sum, ran⟩ := ih next (addBytes cksum (proposalLine prop))
              (world.log (.wrote (.proposal prop.mid) (proposalLine prop))) (.inr more)
            refine ⟨sum, ?_⟩
            rw [if_neg last, ran]
            simp [World.log]

theorem ledgerAt_snoc (world : World) {after : World} (event : Event)
    (traced : after.trace = world.trace ++ [event]) :
    ledgerAt origin after = Ledger.step origin (ledgerAt origin world) event := by
  rw [ledgerAt, traced, Monitor.state_snoc]
  rfl

theorem safe_snoc (world : World) {after : World} (event : Event)
    (traced : after.trace = world.trace ++ [event]) :
    Safe origin after ↔
      Safe origin world ∧ (outboxSafety origin).allowed (ledgerAt origin world) event := by
  rw [Safe, traced, Monitor.accepts_snoc]
  rfl

/-- The line read last, while the answer to a batch is awaited: the `FS` line, or one
that leaves the ledger as it is. -/
def AnswerLine (origin props : List Proposal) (cursor : Nat) (line : Bytes) (world : World) :
    Prop :=
  if strbegins line (ascii "FS ") then
    ∃ before raw, world.trace = before ++ [.line raw line] ∧
      Awaiting origin props cursor ((outboxSafety origin).state before) ∧
      (outboxSafety origin).Accepts before
  else Awaiting origin props cursor (ledgerAt origin world) ∧ Safe origin world

variable {props : List Proposal} {cursor : Nat}

theorem Awaiting.sound {world : World}
    (awaiting : Awaiting origin props cursor (ledgerAt origin world)) (safe : Safe origin world)
    (reason : Halt) : Sound origin (world.stop reason) :=
  ⟨safe, fun _ => awaiting.complete⟩

theorem ends_awaitLine {α : Type} {next : Option Bytes → Session α} {returned : α → World → Prop}
    {halted : World → Prop} {world : World}
    (awaiting : Awaiting origin props cursor (ledgerAt origin world)) (safe : Safe origin world)
    (got : ∀ line after, AnswerLine origin props cursor line after →
      Ends (handle env) (next (some line)) returned halted after)
    (ended : ∀ after, Sound origin (after.stop (.exit "connection closed")) →
      Ends (handle env) (next none) returned halted after)
    (blocked : ∀ after, Sound origin after → halted after) :
    Ends (handle env) (getline >>= next) returned halted world := by
  refine ends_getline ?_ ?_ ?_
  · intro line rest read
    apply got
    rw [AnswerLine]
    split
    · exact ⟨world.trace, taken world.input rest, rfl, awaiting, safe⟩
    · rename_i other
      have unchanged : ledgerAt origin ({ world with input := rest }.log
          (.line (taken world.input rest) line)) = ledgerAt origin world := by
        rw [ledgerAt_snoc world _ rfl]
        simp [Ledger.step, awaiting.phase, other]
      exact ⟨unchanged ▸ awaiting, (safe_snoc world (.line (taken world.input rest) line) rfl).mpr
        ⟨safe, awaiting.complete⟩⟩
  · exact fun _ => ended _ ⟨safe, fun _ => awaiting.complete⟩
  · exact blocked _ (Awaiting.sound awaiting safe _)

theorem ends_skipLines (start : Bytes) (fuel : Nat) (line : Bytes) (world : World)
    (different : ∀ text, strbegins text start = true → strbegins text (ascii "FS ") = false)
    (read : AnswerLine origin props cursor line world) :
    Ends (handle env) (skipLines start fuel line)
      (fun line after => AnswerLine origin props cursor line after) (Sound origin) world := by
  induction fuel generalizing line world with
  | zero =>
      rw [skipLines]
      split
      · rename_i skipped
        rw [AnswerLine, different line skipped] at read
        exact Awaiting.sound read.1 read.2 _
      · exact read
  | succ fuel ih =>
      rw [skipLines]
      split
      · rename_i skipped
        rw [AnswerLine, different line skipped] at read
        refine ends_awaitLine read.1 read.2 ?_ ?_ ?_
        · exact fun next after answered => ih next after answered
        · exact fun after sound => sound
        · exact fun after sound => sound
      · exact read

theorem foldl_body (origin : List Proposal) (mid : Bytes) (writes : List Bytes)
    (ledger : Ledger) :
    (writes.map (Event.wrote (.body mid))).foldl (Ledger.step origin) ledger =
      { ledger with
        body := Function.update ledger.body mid (ledger.body mid ++ writes.flatten) } := by
  induction writes generalizing ledger with
  | nil => simp
  | cons bytes rest ih =>
      rw [List.map_cons, List.foldl_cons, ih]
      simp [Ledger.step]

theorem body_accepted (origin : List Proposal) (mid : Bytes) (writes : List Bytes)
    (ledger : Ledger) (accepted : ledger.verdict mid = some .accept) :
    (outboxSafety origin).AcceptsFrom ledger (writes.map (Event.wrote (.body mid))) := by
  induction writes generalizing ledger with
  | nil => trivial
  | cons bytes rest ih => exact ⟨accepted, ih _ accepted⟩

/-- Writing an accepted body that is not begun yet: it is written to its end, or the run
gives up. -/
theorem ends_putcompressed (prop : Proposal) (world : World)
    (size : prop.csize = prop.cbuf.length) (offset : prop.offset = 0)
    (accepted : (ledgerAt origin world).verdict prop.mid = some .accept)
    (unsent : (ledgerAt origin world).body prop.mid = []) (safe : Safe origin world) :
    Ends (handle env) (putcompressed prop)
      (fun _ after => Safe origin after ∧ ledgerAt origin after =
        { ledgerAt origin world with
          body := Function.update (ledgerAt origin world).body prop.mid (frame prop) })
      (Sound origin) world := by
  by_cases enough : 6 ≤ prop.csize
  · rw [Ends, run_putcompressed env prop ⟨size, enough, offset⟩]
    constructor
    · rw [Safe, World.logWrites, Monitor.Accepts, Monitor.acceptsFrom_append]
      exact ⟨safe, body_accepted origin prop.mid _ _ accepted⟩
    · rw [ledgerAt, World.logWrites, Monitor.state_append]
      change (List.map _ _).foldl (Ledger.step origin) (ledgerAt origin world) = _
      rw [foldl_body, unsent]
      rfl
  · rw [putcompressed, ends_write, if_pos (by omega)]
    refine ⟨(safe_snoc world (.wrote (.body prop.mid) (frameHeader prop)) rfl).mpr
      ⟨safe, accepted⟩, ?_⟩
    intro inside
    cases inside

structure Transmitted (origin batch : List Proposal) (before after : World) : Prop where
  safe : Safe origin after
  ledger : ∃ body, ledgerAt origin after = { ledgerAt origin before with body := body } ∧
    (∀ prop ∈ batch, prop.delete = false → body prop.mid = frame prop) ∧
    ∀ mid, mid ∉ batch.map Proposal.mid → body mid = (ledgerAt origin before).body mid

def Proposal.finished (prop : Proposal) : Proposal := { prop with delete := true }

theorem ends_transmitOne (prop : Proposal) (world : World)
    (size : prop.csize = prop.cbuf.length) (offset : prop.offset = 0)
    (accepted : prop.delete = false →
      (ledgerAt origin world).verdict prop.mid = some .accept ∧
      (ledgerAt origin world).body prop.mid = []) (safe : Safe origin world) :
    Ends (handle env) (transmitOne prop)
      (fun sent after => sent = prop.finished ∧ Transmitted origin [prop] world after)
      (Sound origin) world := by
  rw [transmitOne]
  split
  · rename_i kept
    obtain ⟨verdict, unsent⟩ := accepted kept
    refine Ends.bind (ends_putcompressed prop world size offset verdict unsent safe) ?_
    rintro _ after ⟨later, ledger⟩
    refine ⟨rfl, later, _, ledger, ?_, ?_⟩
    · intro other member _
      rw [List.mem_singleton] at member
      rw [member, Function.update_self]
    · intro mid outside
      have different : mid ≠ prop.mid := by simpa using outside
      rw [Function.update_of_ne different]
  · rename_i deleted
    have flag : prop.delete = true := by simpa using deleted
    refine ⟨?_, safe, _, rfl, ?_, fun _ _ => rfl⟩
    · rw [Proposal.finished, ← flag]
    · intro other member kept
      rw [List.mem_singleton] at member
      rw [member, flag] at kept
      cases kept

theorem Transmitted.cons {prop : Proposal} {batch : List Proposal} {before middle after : World}
    (first : Transmitted origin [prop] before middle)
    (rest : Transmitted origin batch middle after)
    (distinct : prop.mid ∉ batch.map Proposal.mid) :
    Transmitted origin (prop :: batch) before after := by
  obtain ⟨_, sent, ledger, written, kept⟩ := first
  obtain ⟨safe, body, later, writtenRest, keptRest⟩ := rest
  refine ⟨safe, body, by rw [later, ledger], ?_, ?_⟩
  · intro other member flag
    rw [List.mem_cons] at member
    rcases member with rfl | member
    · rw [keptRest _ distinct, ledger]
      exact written other (List.mem_singleton_self _) flag
    · exact writtenRest other member flag
  · intro mid outside
    rw [List.map_cons, List.mem_cons, not_or] at outside
    rw [keptRest mid outside.2, ledger]
    exact kept mid (by simpa using outside.1)

theorem ends_transmit (limit : Nat) (props : List Proposal) (world : World)
    (sendable : limit = 0 ∨ props ≠ []) (distinct : (props.map Proposal.mid).Nodup)
    (data : ∀ prop ∈ props, prop.csize = prop.cbuf.length ∧ prop.offset = 0)
    (accepted : ∀ prop ∈ props.take limit, prop.delete = false →
      (ledgerAt origin world).verdict prop.mid = .some .accept ∧
      (ledgerAt origin world).body prop.mid = []) (safe : Safe origin world) :
    Ends (handle env) (transmit limit props)
      (fun result after =>
        result = ((props.take limit).map Proposal.finished ++ props.drop limit,
          (props.take limit).length) ∧
        Transmitted origin (props.take limit) world after)
      (Sound origin) world := by
  induction limit generalizing props world with
  | zero => exact ⟨rfl, safe, _, rfl, by simp, fun _ _ => rfl⟩
  | succ limit ih =>
      cases props with
      | nil => simp at sendable
      | cons prop next =>
          rw [List.map_cons, List.nodup_cons] at distinct
          obtain ⟨size, offset⟩ := data prop (List.mem_cons_self ..)
          rw [transmit]
          refine Ends.bind (ends_transmitOne prop world size offset
            (accepted prop (by simp)) safe) ?_
          rintro _ middle ⟨rfl, first⟩
          split
          · rename_i last
            obtain rfl := List.isEmpty_iff.mp last
            exact ⟨by simp, by simpa using first⟩
          · rename_i more
            have nonempty : next ≠ [] := fun empty => more (by simp [empty])
            have ready : ∀ other ∈ next.take limit, other.delete = false →
                (ledgerAt origin middle).verdict other.mid = .some .accept ∧
                (ledgerAt origin middle).body other.mid = [] := by
              intro other member kept
              obtain ⟨_, body, ledger, -, unchanged⟩ := first
              have different : other.mid ∉ [prop].map Proposal.mid := by
                rw [List.map_singleton, List.mem_singleton]
                intro same
                exact distinct.1 (same ▸ List.mem_map_of_mem (List.mem_of_mem_take member))
              rw [ledger]
              obtain ⟨verdict, unsent⟩ := accepted other (by simp [member]) kept
              exact ⟨verdict, (unchanged _ different).trans unsent⟩
            refine Ends.bind (ih next middle (.inr nonempty) distinct.2
              (fun other member => data other (List.mem_cons_of_mem _ member)) ready first.safe) ?_
            rintro _ after ⟨rfl, rest⟩
            refine ⟨by simp, ?_⟩
            rw [List.take_succ_cons]
            refine first.cons rest ?_
            intro member
            refine distinct.1 ?_
            rw [List.mem_map] at member ⊢
            obtain ⟨other, inside, same⟩ := member
            exact ⟨other, List.mem_of_mem_take inside, same⟩

theorem lookup_map {batch : List Proposal} (flag : Proposal → Option Verdict)
    (distinct : (batch.map Proposal.mid).Nodup) {prop : Proposal} (member : prop ∈ batch) :
    (batch.map fun other => (other.mid, flag other)).lookup prop.mid = some (flag prop) := by
  induction batch with
  | nil => cases member
  | cons head rest ih =>
      rw [List.map_cons, List.nodup_cons] at distinct
      rw [List.mem_cons] at member
      rw [List.map_cons, List.lookup_cons]
      rcases member with rfl | member
      · simp
      · have different : (prop.mid == head.mid) = false := by
          rw [beq_eq_false_iff_ne]
          exact fun same => distinct.1 (same ▸ List.mem_map_of_mem member)
        rw [different]
        exact ih distinct.2 member

theorem lookup_map_none {batch : List Proposal} (flag : Proposal → Option Verdict) {mid : Bytes}
    (outside : mid ∉ batch.map Proposal.mid) :
    (batch.map fun other => (other.mid, flag other)).lookup mid = none := by
  induction batch with
  | nil => rfl
  | cons head rest ih =>
      rw [List.map_cons, List.mem_cons, not_or] at outside
      have different : (mid == head.mid) = false := by
        rw [beq_eq_false_iff_ne]
        exact outside.1
      rw [List.map_cons, List.lookup_cons, different]
      exact ih outside.2

/-- A settled `FS` line gives every message of the batch the verdict its flag says. -/
theorem judge_verdict {ledger : Ledger} {line : Bytes} {marked : List Proposal}
    (awaiting : Awaiting origin props cursor ledger)
    (distinct : (props.map Proposal.mid).Nodup)
    (mids : marked.map Proposal.mid = (props.drop cursor).map Proposal.mid)
    (read : markAnswers (props.drop cursor) (Ledger.answerText line) = some marked)
    (settled : settles ledger.batch.length (Ledger.answerText line) = true) :
    (∀ prop ∈ marked.take propLimit, (ledger.judge line).verdict prop.mid = flagVerdict prop) ∧
      ∀ mid, mid ∉ (marked.take propLimit).map Proposal.mid →
        (ledger.judge line).verdict mid = ledger.verdict mid := by
  have batch : ledger.batch = (marked.take propLimit).map Proposal.mid := by
    rw [awaiting.batch, List.map_take, List.map_take, mids]
  have count : ledger.batch.length = (marked.take propLimit).length := by simp [batch]
  have sameLength : marked.length = (props.drop cursor).length := by
    simpa using congrArg List.length mids
  have given : verdicts ledger.batch.length (Ledger.answerText line) =
      (marked.take propLimit).map flagVerdict := by
    rw [markAnswers_settles _ _ _ _ ?_ settled read, count]
    · congr 1
      rw [List.length_take, List.take_eq_take_iff]
      omega
    · rw [count, List.length_take, sameLength]
      exact Nat.min_le_right _ _
  have answers : ledger.batch.zip (verdicts ledger.batch.length (Ledger.answerText line)) =
      (marked.take propLimit).map fun prop => (prop.mid, flagVerdict prop) := by
    rw [given, batch, List.zip_map']
  have nodup : ((marked.take propLimit).map Proposal.mid).Nodup := by
    rw [List.map_take, mids, List.map_drop]
    exact (distinct.sublist (List.drop_sublist _ _)).sublist (List.take_sublist _ _)
  constructor
  · intro prop member
    simp only [Ledger.judge, answers]
    rw [lookup_map flagVerdict nodup member]
  · intro mid outside
    simp only [Ledger.judge, answers]
    rw [lookup_map_none flagVerdict outside]

theorem Awaiting.resting {ledger : Ledger} {line : Bytes} {marked : List Proposal}
    {body : Bytes → Bytes} (prepared : Prepared origin)
    (awaiting : Awaiting origin props cursor ledger)
    (read : markAnswers (props.drop cursor) (Ledger.answerText line) = some marked)
    (settled : settles ledger.batch.length (Ledger.answerText line) = true)
    (written : ∀ prop ∈ marked.take propLimit, prop.delete = false → body prop.mid = frame prop)
    (kept : ∀ mid, mid ∉ (marked.take propLimit).map Proposal.mid →
      body mid = ledger.body mid) :
    Resting origin
      (props.take cursor ++
        ((marked.take propLimit).map Proposal.finished ++ marked.drop propLimit))
      (cursor + (marked.take propLimit).length)
      { ledger.judge line with body := body } := by
  have distinct : (props.map Proposal.mid).Nodup := by
    rw [unmarked_mids awaiting.unmarked]
    exact prepared.distinct
  have marks : marked.map Proposal.unmarked = (props.drop cursor).map Proposal.unmarked :=
    markAnswers_unmarked _ _ _
      (fun prop member => (prepared_member prepared awaiting.unmarked
        (List.mem_of_mem_drop member)).1) read
  have mids : marked.map Proposal.mid = (props.drop cursor).map Proposal.mid :=
    unmarked_mids marks
  obtain ⟨verdict, unchanged⟩ := judge_verdict awaiting distinct mids read settled
  have whole : (props.take cursor ++ marked).map Proposal.unmarked =
      origin.map Proposal.unmarked := by
    rw [List.map_append, marks, ← List.map_append, List.take_append_drop, awaiting.unmarked]
  have nodup : ((props.take cursor ++ marked).map Proposal.mid).Nodup := by
    rw [unmarked_mids whole]
    exact prepared.distinct
  have bodies : ∀ prop ∈ marked, Ledger.bodyOf origin prop.mid = frame prop :=
    fun prop member => bodyOf_member prepared whole (List.mem_append_right _ member)
  rw [List.map_append, List.nodup_append] at nodup
  obtain ⟨-, markedNodup, apart⟩ := nodup
  have start : (props.take cursor).length = cursor := List.length_take_of_le awaiting.inside
  have taken : ((marked.take propLimit).map Proposal.finished).length =
      (marked.take propLimit).length := List.length_map _
  have accepted : ∀ prop ∈ marked.take propLimit, prop.delete = false →
      (ledger.judge line).verdict prop.mid = some .accept := by
    intro prop member flag
    rw [verdict prop member, flagVerdict, flag]
    rfl
  constructor
  · rw [← whole, List.map_append, List.map_append, List.map_append, List.map_map]
    congr 1
    conv => rhs; rw [← List.take_append_drop propLimit marked, List.map_append]
    rfl
  · simp only [List.length_append, start, taken]
    omega
  · exact .inl rfl
  · change ledger.offered = _
    have sameLength : marked.length = (props.drop cursor).length := by
      simpa using congrArg List.length mids
    rw [awaiting.counted, awaiting.batch, List.length_map, List.length_take, List.length_take,
      sameLength]
  · intro mid member answered
    change mid ∈ ledger.batch at member
    have inside : mid ∈ (marked.take propLimit).map Proposal.mid := by
      rwa [List.map_take, mids, ← List.map_take, ← awaiting.batch]
    obtain ⟨prop, offered, rfl⟩ := List.mem_map.mp inside
    change (ledger.judge line).verdict prop.mid = _ at answered
    rw [verdict prop offered, flagVerdict] at answered
    have flag : prop.delete = false := by
      cases flag : prop.delete with
      | false => rfl
      | true => simp [flag] at answered
    rw [bodies prop (List.mem_of_mem_take offered)]
    exact written prop offered flag
  · intro prop member flag
    have split : (props.take cursor ++
        ((marked.take propLimit).map Proposal.finished ++ marked.drop propLimit)).take
          (cursor + (marked.take propLimit).length) =
        props.take cursor ++ (marked.take propLimit).map Proposal.finished := by
      rw [← List.append_assoc, List.take_left' (by simp [start])]
    rw [split, List.mem_append] at member
    rcases member with earlier | recent
    · have outside : prop.mid ∉ (marked.take propLimit).map Proposal.mid := by
        intro inside
        rw [List.mem_map] at inside
        obtain ⟨other, offered, same⟩ := inside
        exact apart prop.mid (List.mem_map_of_mem earlier) other.mid
          (List.mem_map_of_mem (List.mem_of_mem_take offered)) same.symm
      have before := awaiting.settled prop earlier flag
      rw [settled_iff] at before ⊢
      rw [show (Ledger.verdict _ prop.mid : Option Verdict) = _ from unchanged _ outside]
      rw [show (Ledger.body _ prop.mid : Bytes) = _ from kept _ outside]
      exact before
    · obtain ⟨source, offered, rfl⟩ := List.mem_map.mp recent
      change Ledger.settled origin _ source.mid = true
      rw [settled_iff, bodies source (List.mem_of_mem_take offered)]
      rw [show (Ledger.verdict _ source.mid : Option Verdict) = _ from verdict source offered]
      cases kind : source.delete with
      | true => exact .inl (by simp [flagVerdict, kind])
      | false => exact .inr ⟨by simp [flagVerdict, kind], written source offered kind⟩
  · intro prop member
    have split : (props.take cursor ++
        ((marked.take propLimit).map Proposal.finished ++ marked.drop propLimit)).drop
          (cursor + (marked.take propLimit).length) = marked.drop propLimit := by
      rw [← List.append_assoc, List.drop_left' (by simp [start])]
    rw [split] at member
    have outside : prop.mid ∉ (marked.take propLimit).map Proposal.mid := by
      rw [← List.take_append_drop propLimit marked, List.map_append, List.nodup_append]
        at markedNodup
      exact fun inside => markedNodup.2.2 _ inside _ (List.mem_map_of_mem member) rfl
    have offered : prop.mid ∈ (props.drop cursor).map Proposal.mid := by
      rw [← mids]
      exact List.mem_map_of_mem (List.mem_of_mem_drop member)
    obtain ⟨source, inside, same⟩ := List.mem_map.mp offered
    obtain ⟨unanswered, unsent⟩ := awaiting.fresh source inside
    rw [same] at unanswered unsent
    exact ⟨(unchanged _ outside).trans unanswered, (kept _ outside).trans unsent⟩

theorem Resting.awaiting {ledger : Ledger} (resting : Resting origin props cursor ledger) :
    Awaiting origin props cursor
      { ledger with
        phase := .awaiting
        offered := ledger.offered + ((props.drop cursor).take propLimit).length
        batch := ((props.drop cursor).take propLimit).map Proposal.mid } where
  unmarked := resting.unmarked
  inside := resting.inside
  phase := rfl
  batch := rfl
  counted := by simp [resting.counted]
  settled := resting.settled
  fresh := resting.fresh

/-- What holds of a session between two batches. -/
structure Steady (origin props : List Proposal) (cursor : Nat) (world : World) : Prop where
  safe : Safe origin world
  resting : Resting origin props cursor (ledgerAt origin world)

theorem Steady.sound {world : World} (steady : Steady origin props cursor world) :
    Sound origin world :=
  ⟨steady.safe, fun _ => steady.resting.complete⟩

theorem ends_answeredBatch (prepared : Prepared origin) (line : Bytes) (world : World)
    (isAnswer : strbegins line (ascii "FS ") = true)
    (read : AnswerLine origin props cursor line world) (more : props.drop cursor ≠ [])
    (settling : Settling origin world) :
    Ends (handle env)
      (do
        let offered ← readAnswers 0 (props.drop cursor) (skipSpace (line.drop 3))
        let (offered, moved) ← transmit propLimit offered
        pure ((0 : Int), props.take cursor ++ offered, cursor + moved))
      (fun result after => Steady origin result.2.1 result.2.2 after) (Sound origin) world := by
  rw [AnswerLine, isAnswer] at read
  obtain ⟨before, raw, traced, awaiting, safe⟩ := read
  have state : ledgerAt origin world =
      ((outboxSafety origin).state before).judge line := by
    rw [ledgerAt, traced, Monitor.state_snoc]
    change Ledger.step origin ((outboxSafety origin).state before) (.line raw line) = _
    rw [Ledger.step, if_pos awaiting.phase, if_pos isAnswer]
  have accepted : Safe origin world := by
    rw [Safe, traced, Monitor.accepts_snoc]
    exact ⟨safe, awaiting.complete⟩
  have given : refused (props.drop cursor).length (Ledger.answerText line) = true ∨
      settles ((outboxSafety origin).state before).batch.length (Ledger.answerText line) = true := by
    rw [Settling, traced, Monitor.accepts_snoc] at settling
    have condition := settling.2 awaiting.phase isAnswer
    have outstanding : origin.length - (((outboxSafety origin).state before).offered -
        ((outboxSafety origin).state before).batch.length) = (props.drop cursor).length := by
      have sameLength : props.length = origin.length := by
        simpa using congrArg List.length awaiting.unmarked
      rw [awaiting.counted, List.length_drop, sameLength]
      omega
    rwa [show (settlingAnswers origin).state before = (outboxSafety origin).state before from rfl,
      outstanding] at condition
  rw [readAnswers_eq, show skipSpace (line.drop 3) = Ledger.answerText line from rfl]
  rcases found : markAnswers (props.drop cursor) (Ledger.answerText line) with _ | marked
  · simp only [exit_bind, ends_exit]
    refine ⟨accepted, ?_⟩
    intro inside
    cases inside
  · have settled : settles ((outboxSafety origin).state before).batch.length
        (Ledger.answerText line) = true := by
      rcases given with bad | settled
      · rw [markAnswers_refused _ _ bad] at found
        cases found
      · exact settled
    have distinct : (props.map Proposal.mid).Nodup := by
      rw [unmarked_mids awaiting.unmarked]
      exact prepared.distinct
    have marks : marked.map Proposal.unmarked = (props.drop cursor).map Proposal.unmarked :=
      markAnswers_unmarked _ _ _
        (fun prop member => (prepared_member prepared awaiting.unmarked
          (List.mem_of_mem_drop member)).1) found
    have mids := unmarked_mids marks
    obtain ⟨verdict, unchanged⟩ := judge_verdict awaiting distinct mids found settled
    have whole : (props.take cursor ++ marked).map Proposal.unmarked =
        origin.map Proposal.unmarked := by
      rw [List.map_append, marks, ← List.map_append, List.take_append_drop, awaiting.unmarked]
    have nonempty : marked ≠ [] := by
      rintro rfl
      exact more (List.map_eq_nil_iff.mp mids.symm)
    simp only [Program.pure_eq_ret, Program.ret_bind]
    refine Ends.bind (ends_transmit propLimit marked world (.inr nonempty) ?_ ?_ ?_ accepted) ?_
    · rw [mids, List.map_drop]
      exact distinct.sublist (List.drop_sublist _ _)
    · intro prop member
      obtain ⟨offset, -, size⟩ := prepared_member prepared whole
        (List.mem_append_right _ member)
      exact ⟨size, offset⟩
    · intro prop member flag
      have offered : prop.mid ∈ (props.drop cursor).map Proposal.mid := by
        rw [← mids]
        exact List.mem_map_of_mem (List.mem_of_mem_take member)
      obtain ⟨source, inside, same⟩ := List.mem_map.mp offered
      rw [state, verdict prop member, flagVerdict, flag]
      exact ⟨rfl, same ▸ (awaiting.fresh source inside).2⟩
    · rintro _ after ⟨rfl, transmitted, body, ledger, written, kept⟩
      refine ⟨transmitted, ?_⟩
      rw [ledger, state]
      refine Awaiting.resting prepared awaiting found settled written ?_
      intro mid outside
      rw [kept mid outside, state]
      rfl

theorem skipped_line {start text : Bytes} (skipped : strbegins text (59 :: start) = true) :
    strbegins text (ascii "FS ") = false := by
  cases text with
  | nil => rfl
  | cons char rest =>
      have first : char = 59 := by
        simp only [strbegins, List.isPrefixOf_cons_cons, Bool.and_eq_true, beq_iff_eq] at skipped
        exact skipped.1.symm
      rw [first]
      rfl

theorem offer_awaiting (world : World) (asked : World) (checksum : Bytes)
    (resting : Resting origin props cursor (ledgerAt origin world)) (safe : Safe origin world)
    (more : props.drop cursor ≠ [])
    (traced : asked.trace = world.trace ++
      ((props.drop cursor).take propLimit).map
        (fun prop => .wrote (.proposal prop.mid) (proposalLine prop)) ++
      [.wrote .batchEnd checksum]) :
    Awaiting origin props cursor (ledgerAt origin asked) ∧ Safe origin asked := by
  have batch : (props.drop cursor).take propLimit ≠ [] := by
    rw [Ne, List.take_eq_nil_iff]
    simpa [propLimit] using more
  have offered := foldl_offer_batch origin batch resting.phase
  have fresh : ∀ prop ∈ (props.drop cursor).take propLimit,
      (ledgerAt origin world).verdict prop.mid = none :=
    fun prop member => (resting.fresh prop (List.mem_of_mem_take member)).1
  have offering : (ledgerAt origin world).phase = .offering →
      ∀ mid ∈ (ledgerAt origin world).batch, (ledgerAt origin world).verdict mid = none := by
    intro phase mid member
    rcases resting.phase with answered | ⟨-, empty⟩
    · rw [answered] at phase
      cases phase
    · rw [empty] at member
      cases member
  have state : (outboxSafety origin).state (world.trace ++
      ((props.drop cursor).take propLimit).map
        (fun prop => Event.wrote (.proposal prop.mid) (proposalLine prop))) = _ :=
    (Monitor.state_append _ _ _).trans offered
  constructor
  · rw [ledgerAt, traced, Monitor.state_snoc, state]
    exact resting.awaiting
  · rw [Safe, traced, Monitor.accepts_snoc, state]
    refine ⟨?_, resting.awaiting.complete⟩
    rw [Monitor.Accepts, Monitor.acceptsFrom_append]
    exact ⟨safe, offer_accepted _ _ fresh offering resting.complete⟩

theorem ends_b2outboundproposal (prepared : Prepared origin) (fuel : Nat) (lastcommand : Bytes)
    (world : World) (steady : Steady origin props cursor world) :
    Ends (handle env) (b2outboundproposal fuel lastcommand props cursor)
      (fun result after => Settling origin after → Steady origin result.2.1 result.2.2 after)
      (fun after => Settling origin after → Sound origin after) world := by
  obtain ⟨safe, resting⟩ := steady
  have quiet : ∀ bytes, Steady origin props cursor (world.log (.wrote .command bytes)) := by
    intro bytes
    constructor
    · exact (safe_snoc world (.wrote .command bytes) rfl).mpr ⟨safe, resting.complete⟩
    · rw [ledgerAt_snoc world _ rfl]
      exact resting
  unfold b2outboundproposal
  simp only
  split
  · rename_i some
    have more : props.drop cursor ≠ [] := by simpa using some
    obtain ⟨sum, ran⟩ := run_sendProposals env propLimit (props.drop cursor) 0 world
      (.inr more)
    rw [ends_bind, Ends, ran]
    simp only [ends_write]
    generalize wrote : World.log _ _ = asked
    obtain ⟨checksum, traced⟩ : ∃ checksum, asked.trace = world.trace ++
        ((props.drop cursor).take propLimit).map
          (fun prop => Event.wrote (.proposal prop.mid) (proposalLine prop)) ++
        [.wrote .batchEnd checksum] := ⟨_, by rw [← wrote]; rfl⟩
    obtain ⟨awaits, accepted⟩ := offer_awaiting world asked checksum resting safe more traced
    refine ends_awaitLine awaits accepted ?_ ?_ ?_
    · intro line got answer
      refine Ends.bind ((ends_skipLines (ascii ";PM:") fuel line got
        (fun _ => skipped_line) answer).mono (fun _ _ holds => holds) fun _ sound _ => sound) ?_
      intro line got answer
      refine Ends.bind ((ends_skipLines (ascii ";FW:") fuel line got
        (fun _ => skipped_line) answer).mono (fun _ _ holds => holds) fun _ sound _ => sound) ?_
      intro line got answer
      split
      · rename_i other
        rw [AnswerLine, other] at answer
        exact fun _ => Awaiting.sound answer.1 answer.2 _
      · rename_i isAnswer
        by_cases settling : Settling origin got
        · exact (ends_answeredBatch prepared line got (by simpa using isAnswer) answer more
            settling).mono (fun _ _ steady _ => steady) fun _ sound _ => sound
        · exact (ends_rejected env (settlingAnswers origin) _ got settling).mono
            (fun _ _ never holds => absurd holds never) fun _ never holds => absurd holds never
    · exact fun after sound _ => sound
    · exact fun after sound _ => sound
  · split
    · exact fun _ => quiet _
    · exact fun _ => quiet _

end Sending

end PaclinkUnix
