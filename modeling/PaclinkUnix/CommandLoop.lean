import PaclinkUnix.Inbound
import PaclinkUnix.Library.Monitor

/-!
What the command loop does apart from receiving a batch: it reads lines, writes to
the peer and unlinks files. Whatever those operations and whole batches keep, every
run of the loop keeps.
-/

namespace PaclinkUnix

open Effects Effects.Program

/-- The operations of the sending side and of the command loop itself. -/
def Op.plain : Op → Bool
  | .getline | .write _ _ | .unlink _ | .strayBytes | .halt _ => true
  | _ => false

def Event.plain : Event → Bool
  | .line _ _ | .wrote _ _ | .unlinked _ => true
  | _ => false

def Plain {α : Type} (program : Session α) : Prop := Performs (fun op => op.plain = true) program

theorem plain_bind {α β : Type} {program : Session α} {rest : α → Session β}
    (first : Plain program) (second : ∀ value, Plain (rest value)) : Plain (program >>= rest) :=
  Performs.bind first second

theorem plain_pure {α : Type} (value : α) : Plain (pure value : Session α) := trivial

theorem plain_getline : Plain getline := ⟨rfl, fun _ => trivial⟩
theorem plain_write (what : Output) (bytes : Bytes) : Plain (write what bytes) :=
  ⟨rfl, fun _ => trivial⟩
theorem plain_strayBytes : Plain strayBytes := ⟨rfl, fun _ => trivial⟩
theorem plain_unlink (path : Bytes) : Plain (unlink path) := ⟨rfl, fun _ => trivial⟩
theorem plain_halt {α : Type} (reason : Halt) : Plain (halt reason : Session α) :=
  ⟨rfl, fun impossible => impossible.elim⟩
theorem plain_exit {α : Type} (message : String) : Plain (exit message : Session α) :=
  plain_halt _

theorem plain_putBlocks (mid : Bytes) (fuel : Nat) (rem : Bytes) (cksum : UInt32) :
    Plain (putBlocks mid fuel rem cksum) := by
  induction fuel generalizing rem cksum with
  | zero => exact plain_pure _
  | succ fuel ih =>
      rw [putBlocks]
      split
      · exact plain_pure _
      · refine plain_bind (plain_write _ _) fun _ => plain_bind (plain_write _ _) fun _ => ih _ _

theorem plain_putcompressed (prop : Proposal) : Plain (putcompressed prop) := by
  unfold putcompressed
  refine plain_bind (plain_write _ _) fun _ => ?_
  split
  · exact plain_exit _
  · split
    · exact plain_exit _
    · split
      · exact plain_halt _
      · exact plain_bind (plain_putBlocks _ _ _ _) fun _ => plain_write _ _

theorem plain_sendProposals (limit : Nat) (props : List Proposal) (cksum : UInt32) :
    Plain (sendProposals limit props cksum) := by
  induction limit generalizing props cksum with
  | zero => exact plain_pure _
  | succ limit ih =>
      cases props with
      | nil => exact plain_halt _
      | cons prop next =>
          rw [sendProposals]
          refine plain_bind (plain_write _ _) fun _ => ?_
          split
          · exact plain_pure _
          · exact ih _ _

theorem plain_skipLines (start : Bytes) (fuel : Nat) (line : Bytes) :
    Plain (skipLines start fuel line) := by
  induction fuel generalizing line with
  | zero =>
      rw [skipLines]
      split
      · exact plain_halt _
      · exact plain_pure _
  | succ fuel ih =>
      rw [skipLines]
      split
      · refine plain_bind plain_getline fun next => ?_
        cases next with
        | none => exact plain_exit _
        | some line => exact ih line
      · exact plain_pure _

theorem plain_readAnswers (props : List Proposal) (text : Bytes) :
    Plain (readAnswers 0 props text) := by
  induction props generalizing text with
  | nil => exact plain_pure _
  | cons prop next ih =>
      cases text with
      | nil => exact plain_pure _
      | cons char more =>
          rw [readAnswers]
          split
          · exact plain_exit _
          · split
            · exact plain_exit _
            · exact plain_bind (ih _) fun _ => plain_pure _

theorem plain_transmit (limit : Nat) (props : List Proposal) : Plain (transmit limit props) := by
  induction limit generalizing props with
  | zero => exact plain_pure _
  | succ limit ih =>
      cases props with
      | nil => exact plain_halt _
      | cons prop next =>
          rw [transmit]
          have sent : Plain (transmitOne prop) := by
            unfold transmitOne
            split
            · exact plain_bind (plain_putcompressed prop) fun _ => plain_pure _
            · exact plain_pure _
          refine plain_bind sent fun _ => ?_
          split
          · exact plain_pure _
          · exact plain_bind (ih _) fun _ => plain_pure _

theorem plain_b2outboundproposal (fuel : Nat) (lastcommand : Bytes) (props : List Proposal)
    (cursor : Nat) : Plain (b2outboundproposal fuel lastcommand props cursor) := by
  unfold b2outboundproposal
  simp only
  split
  · refine plain_bind (plain_sendProposals _ _ _) fun cksum =>
      plain_bind (plain_write _ _) fun _ => plain_bind plain_getline fun next => ?_
    cases next with
    | none => exact plain_exit _
    | some line =>
        refine plain_bind (plain_skipLines _ _ _) fun line =>
          plain_bind (plain_skipLines _ _ _) fun line => ?_
        split
        · exact plain_exit _
        · exact plain_bind (plain_readAnswers _ _) fun _ =>
            plain_bind (plain_transmit _ _) fun _ => plain_pure _
  · split
    · exact plain_bind (plain_write _ _) fun _ => plain_pure _
    · exact plain_bind (plain_write _ _) fun _ => plain_pure _

theorem plain_dodelete (props : List Proposal) (cursor : Nat) : Plain (dodelete props cursor) := by
  induction cursor generalizing props with
  | zero =>
      unfold dodelete
      exact plain_pure _
  | succ cursor ih =>
      cases props with
      | nil => exact plain_halt _
      | cons prop next =>
          rw [dodelete]
          refine plain_bind ?_ fun _ => plain_bind (ih _) fun _ => plain_pure _
          unfold deleteOne
          split
          · exact plain_bind (plain_unlink _) fun _ => plain_pure _
          · exact plain_pure _

def Op.logs : Op → Event → Bool
  | .getline, .line _ _ => true
  | .getcompressed, .frame _ _ => true
  | .write _ _, .wrote _ _ => true
  | .unlink _, .unlinked _ => true
  | .checkMid _, .checked _ _ _ _ => true
  | .answer _ _, .answered _ _ => true
  | .sendmail _ _ _, .delivered _ _ _ => true
  | .recordMid _, .recorded _ _ => true
  | _, _ => false

theorem handle_logs (env : Env) (op : Op) (world : World) :
    (handle env op world).2.trace = world.trace ∨
      ∃ event, op.logs event = true ∧ (handle env op world).2.trace = world.trace ++ [event] := by
  cases op with
  | getline =>
      simp only [handle]
      split
      · exact .inr ⟨_, rfl, rfl⟩
      · split <;> exact .inl rfl
  | getcompressed =>
      simp only [handle]
      split
      · exact .inr ⟨_, rfl, rfl⟩
      · split <;> exact .inl rfl
  | checkMid mid =>
      simp only [handle]
      rcases checkMid (env.dbCalls world.calls) (env.clock world.calls) mid world.db with
        ⟨_ | result, db⟩ <;> exact .inr ⟨_, rfl, rfl⟩
  | sendmail mid message mimebuf =>
      simp only [handle]
      split
      · exact .inl rfl
      · exact .inr ⟨_, rfl, rfl⟩
  | write what bytes => exact .inr ⟨_, rfl, rfl⟩
  | unlink path => exact .inr ⟨_, rfl, rfl⟩
  | answer mid char => exact .inr ⟨_, rfl, rfl⟩
  | recordMid mid => exact .inr ⟨_, rfl, rfl⟩
  | strayBytes => exact .inl rfl
  | halt reason => exact .inl rfl

theorem handle_db (env : Env) (op : Op) (world : World) (plain : op.plain = true) :
    (handle env op world).2.db = world.db := by
  cases op with
  | getline =>
      simp only [handle]
      split
      · rfl
      · split <;> rfl
  | write what bytes => rfl
  | unlink path => rfl
  | strayBytes => rfl
  | halt reason => rfl
  | _ => cases plain

theorem Op.plain_logs {op : Op} {event : Event} (plain : op.plain = true)
    (logged : op.logs event = true) : event.plain = true := by
  cases op <;> cases event <;> simp_all [Op.plain, Op.logs, Event.plain]

def KeptByPlain (kept : World → Prop) : Prop :=
  ∀ before after : World, kept before → after.db = before.db →
    (after.trace = before.trace ∨
      ∃ event : Event, event.plain = true ∧ after.trace = before.trace ++ [event]) → kept after

theorem Plain.ends {α : Type} {env : Env} {kept : World → Prop} {world : World}
    {program : Session α} (plain : Plain program) (keeps : KeptByPlain kept)
    (initially : kept world) :
    Ends (handle env) program (fun _ => kept) kept world :=
  Performs.ends plain (fun op before permitted holds =>
    keeps before _ holds (handle_db env op before permitted)
      ((handle_logs env op before).imp_right fun ⟨event, logged, traced⟩ =>
        ⟨event, Op.plain_logs permitted logged, traced⟩)) initially

theorem plain_deleteTurn (parser : Parser) : Plain (deleteTurn parser) :=
  plain_bind (plain_dodelete _ _) fun _ => plain_pure _

theorem plain_outboundTurn (fuel : Nat) (line : Bytes) (parser : Parser) :
    Plain (outboundTurn fuel line parser) :=
  plain_bind (plain_b2outboundproposal _ _ _ _) fun _ => plain_pure _

theorem ends_inboundCommand {env : Env} {config : Config} {kept stopped : World → Prop}
    (keeps : KeptByPlain kept) (weaker : ∀ after, kept after → stopped after) (fuel : Nat)
    (parser : Parser) (line : Bytes) (world : World) (initially : kept world)
    (batch : Ends (handle env) (receiveBatch config parser.proposals) (fun _ => kept) stopped
      world) :
    Ends (handle env) (inboundCommand config fuel parser line) (fun _ => kept) stopped world := by
  have plainly : ∀ {α : Type} {program : Session α} {before : World}, Plain program →
      kept before → Ends (handle env) program (fun _ => kept) stopped before :=
    fun plain holds => (plain.ends keeps holds).mono (fun _ _ kept => kept) weaker
  unfold inboundCommand
  split
  · exact plainly (plain_pure _) initially
  split
  · exact plainly (plain_pure _) initially
  split
  · refine plainly (plain_bind (plain_deleteTurn _) fun after => ?_) initially
    split
    · exact plain_exit _
    · split
      · exact plain_exit _
      · exact plain_pure _
  split
  · exact plainly (plain_bind (plain_deleteTurn _) fun _ => plain_outboundTurn _ _ _) initially
  split
  · exact plainly (plain_pure _) initially
  split
  · exact plainly (plain_bind (plain_deleteTurn _) fun _ => plain_pure _) initially
  split
  · split
    · exact plainly (plain_bind (plain_write _ _) fun _ => plain_pure _) initially
    · split
      · exact plainly (plain_exit _) initially
      · exact Ends.bind batch fun _ after holds => plainly (plain_outboundTurn _ _ _) holds
  · refine plainly (plain_bind plain_strayBytes fun stray => ?_) initially
    split
    · exact plain_bind (plain_deleteTurn _) fun _ => plain_outboundTurn _ _ _
    · exact plain_exit _

theorem ends_inboundParser {env : Env} {config : Config} {kept stopped : World → Prop}
    (keeps : KeptByPlain kept)
    (weaker : ∀ after, kept after → stopped after)
    (batch : ∀ proposals world raw text, kept world →
      world.trace.getLast? = some (.line raw text) →
      Ends (handle env) (receiveBatch config proposals) (fun _ => kept) stopped world)
    (fuel : Nat) (parser : Parser) (world : World) (initially : kept world) :
    Ends (handle env) (inboundParser config fuel parser) (fun _ => kept) stopped world := by
  have halts : ∀ {before : World} reason, kept before → stopped (before.stop reason) :=
    fun reason holds => weaker _ (keeps _ _ holds rfl (.inl rfl))
  induction fuel generalizing parser world with
  | zero => exact halts _ initially
  | succ fuel ih =>
      rw [inboundParser]
      refine ends_getline ?_ ?_ (halts _ initially)
      · intro line rest read
        have logged := keeps _ ({ world with input := rest }.log
          (.line (taken world.input rest) line)) initially rfl (.inr ⟨_, rfl, rfl⟩)
        refine Ends.bind (ends_inboundCommand keeps weaker fuel parser line _ logged
          (batch _ _ (taken world.input rest) line logged (by simp))) ?_
        intro round after holds
        cases round with
        | again parser => exact ih parser after holds
        | returns value parser => exact holds
      · intro _
        exact halts _ (keeps world _ initially rfl (.inl rfl))

def Op.delivering : Op → Bool
  | .halt .fault => false
  | .getcompressed | .sendmail _ _ _ | .recordMid _ | .halt _ => true
  | _ => false

theorem performs_deliver (config : Config) (prop : Incoming) :
    Performs (fun op => op.delivering = true) (deliver config prop) := by
  unfold deliver
  refine Performs.bind ⟨rfl, fun _ => trivial⟩ fun received => ?_
  have halts : ∀ {α : Type} message,
      Performs (fun op : Op => op.delivering = true) (exit message : Session α) :=
    fun message => ⟨rfl, fun impossible => impossible.elim⟩
  cases received with
  | none => exact halts _
  | some cbuf =>
      simp only
      split
      · exact halts _
      · split
        · exact halts _
        · refine Performs.bind ⟨rfl, fun _ => trivial⟩ fun status => ?_
          cases status with
          | popenFailed => exact halts _
          | putcFailed => exact halts _
          | pcloseFailed noChild =>
              simp only
              split
              · exact Performs.bind ⟨rfl, fun _ => trivial⟩ fun _ => trivial
              · exact halts _
          | status code =>
              simp only
              split
              · exact Performs.bind ⟨rfl, fun _ => trivial⟩ fun _ => trivial
              · exact halts _

theorem performs_deliverAll (config : Config) (answers : List (Incoming × UInt8 × Bool)) :
    Performs (fun op => op.delivering = true) (deliverAll config answers) := by
  induction answers with
  | nil => exact trivial
  | cons entry rest ih =>
      obtain ⟨prop, char, accepted⟩ := entry
      rw [deliverAll]
      split
      · exact Performs.bind (performs_deliver config prop) fun _ => ih
      · exact ih

theorem ends_rejected (env : Env) {σ α : Type} (monitor : Monitor σ Event) (program : Session α)
    (world : World) (rejected : ¬ monitor.Accepts world.trace) :
    Ends (handle env) program (fun _ after => ¬ monitor.Accepts after.trace)
      (fun after => ¬ monitor.Accepts after.trace) world := by
  refine ends_invariant ?_ program rejected
  exact fun op before never accepts => never (accepts.of_prefix (handle_trace env op before))

end PaclinkUnix
