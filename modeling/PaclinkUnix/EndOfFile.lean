import PaclinkUnix.InfoLines
import PaclinkUnix.Exchange

/-!
The end of the file: a program that is waiting for the peer when the connection is gone
exits, and has done exactly what it had done while it was waiting.
-/

namespace PaclinkUnix

open Effects Effects.Program

/-- A program that only exits when there is no further line. -/
def Quits {α : Type} : Session α → Prop
  | .ret _ => True
  | .call .getline next => (∃ message, next none = exit message) ∧ ∀ line, Quits (next line)
  | .call _ next => ∀ answer, Quits (next answer)

def Op.unread : Op → Bool
  | .getline => false
  | _ => true

section Quits

variable {α β : Type}

theorem Quits.bind {program : Session α} {rest : α → Session β} (first : Quits program)
    (second : ∀ value, Quits (rest value)) : Quits (program >>= rest) := by
  induction program with
  | ret value => exact second value
  | call op next ih =>
      cases op with
      | getline =>
          obtain ⟨⟨message, ends⟩, more⟩ := first
          refine ⟨⟨message, ?_⟩, fun line => ih line (more line)⟩
          change (next none >>= rest) = exit message
          rw [ends, exit_bind]
      | _ => exact fun answer => ih answer (first answer)

theorem quits_unread {program : Session α}
    (performs : Performs (fun op => op.unread = true) program) : Quits program := by
  induction program with
  | ret value => trivial
  | call op next ih =>
      cases op with
      | getline => cases performs.1
      | _ => exact fun answer => ih answer (performs.2 answer)

theorem quits_kind {program : Session α} {kind : Op → Bool} (never : kind .getline = false)
    (performs : Performs (fun op => kind op = true) program) : Quits program := by
  refine quits_unread (performs.mono fun op isKind => ?_)
  cases op with
  | getline =>
      rw [never] at isKind
      cases isKind
  | _ => rfl

theorem quits_deaf {program : Session α} (deaf : Performs (fun op => op.deaf = true) program) :
    Quits program :=
  quits_kind rfl deaf

theorem quits_getline {next : Option Bytes → Session α} {message : String}
    (ends : next none = exit message) (more : ∀ line, Quits (next (some line))) :
    Quits (getline >>= next) := by
  refine ⟨⟨message, ends⟩, fun line => ?_⟩
  cases line with
  | none =>
      change Quits (next none)
      rw [ends]
      exact quits_deaf (deaf_exit message)
  | some line => exact more line

theorem quits_skipLines (start : Bytes) (fuel : Nat) (line : Bytes) :
    Quits (skipLines start fuel line) := by
  induction fuel generalizing line with
  | zero =>
      rw [skipLines]
      split
      · exact fun impossible => impossible.elim
      · trivial
  | succ fuel ih =>
      rw [skipLines]
      split
      · exact quits_getline rfl ih
      · trivial

theorem quits_b2outboundproposal (fuel : Nat) (lastcommand : Bytes) (props : List Proposal)
    (cursor : Nat) : Quits (b2outboundproposal fuel lastcommand props cursor) := by
  by_cases finished : props.drop cursor = []
  · rw [b2outboundproposal]
    simp only [finished, List.isEmpty_nil, Bool.true_eq_false, if_false]
    split
    · exact quits_deaf (Performs.bind (deaf_write _ _) fun _ => trivial)
    · exact quits_deaf (Performs.bind (deaf_write _ _) fun _ => trivial)
  · rw [b2outboundproposal_turns finished]
    refine (quits_deaf (deaf_offerTurn _)).bind fun _ => Quits.bind ?_ fun line =>
      quits_deaf (deaf_answerTurn props cursor line)
    exact quits_getline rfl fun line =>
      (quits_skipLines _ fuel line).bind fun line => quits_skipLines _ fuel line

theorem quits_outboundTurn (fuel : Nat) (line : Bytes) (parser : Parser) :
    Quits (outboundTurn fuel line parser) :=
  (quits_b2outboundproposal _ _ _ _).bind fun _ => trivial

theorem quits_receiveBatch (config : Config) (proposals : List Incoming) :
    Quits (receiveBatch config proposals) := by
  have answers : ∀ proposals : List Incoming, Quits (answerProposals proposals) := by
    intro proposals
    induction proposals with
    | nil => trivial
    | cons prop rest ih =>
        rw [answerProposals]
        refine Quits.bind ?_ fun result => Quits.bind (fun _ => trivial) fun _ =>
          ih.bind fun _ => trivial
        rw [answerOne]
        split
        · refine Quits.bind (fun _ => trivial) fun result => ?_
          split <;> trivial
        · trivial
  rw [receiveBatch]
  split
  · trivial
  · exact (answers proposals).bind fun answered => Quits.bind (fun _ => trivial) fun _ =>
      quits_kind rfl (performs_deliverAll config answered)

theorem quits_deleteTurn (parser : Parser) : Quits (deleteTurn parser) :=
  (quits_kind rfl (performs_dodelete _ _)).bind fun _ => trivial

theorem quits_inboundCommand (config : Config) (fuel : Nat) (parser : Parser) (line : Bytes) :
    Quits (inboundCommand config fuel parser line) := by
  have exits : ∀ message, Quits (exit message : Session Round) :=
    fun message => quits_deaf (deaf_exit message)
  rw [inboundCommand]
  split
  · trivial
  split
  · trivial
  split
  · refine (quits_deleteTurn parser).bind fun parser => ?_
    split
    · exact exits _
    · split
      · exact exits _
      · trivial
  split
  · exact (quits_deleteTurn parser).bind fun parser => quits_outboundTurn fuel line parser
  split
  · trivial
  split
  · exact (quits_deleteTurn parser).bind fun _ => trivial
  split
  · split
    · exact Quits.bind (fun _ => trivial) fun _ => trivial
    · split
      · exact exits _
      · exact (quits_receiveBatch config _).bind fun _ => quits_outboundTurn fuel line _
  · refine Quits.bind (fun _ => trivial) fun stray => ?_
    split
    · exact (quits_deleteTurn parser).bind fun parser => quits_outboundTurn fuel line parser
    · exact exits _

theorem quits_inboundParser (config : Config) (fuel : Nat) (parser : Parser) :
    Quits (inboundParser config fuel parser) := by
  induction fuel generalizing parser with
  | zero => exact fun impossible => impossible.elim
  | succ fuel ih =>
      rw [inboundParser]
      refine quits_getline rfl fun line => (quits_inboundCommand config fuel parser line).bind ?_
      intro round
      cases round with
      | again parser => exact ih parser
      | returns value parser => trivial

theorem quits_clientSession (selects : List Selected) (config : Config) (fuel : Nat)
    (line : Bytes) (props : List Proposal) :
    Quits (clientSession selects config fuel line props) := by
  rw [clientSession]
  refine (quits_b2outboundproposal _ _ _ _).bind fun result => ?_
  simp only
  split
  · trivial
  · split
    · exact fun impossible => impossible.elim
    · trivial
    · exact (quits_inboundParser _ _ _).bind fun _ => trivial

theorem quits_daemonSession (config : Config) (fuel : Nat) (line : Bytes)
    (props : List Proposal) : Quits (daemonSession config fuel line props) := by
  rw [daemonSession]
  refine (quits_inboundParser _ _ _).bind fun result => ?_
  simp only
  split
  · exact (quits_b2outboundproposal _ _ _ _).bind fun _ => trivial
  · trivial

/-- An operation that answers does so whether or not the peer is still there. -/
theorem handle_closing {env : Env} {op : Op} {world after : World} {result : op.Answer}
    (opened : world.closed = false) (answered : handle env op world = (some result, after)) :
    handle env op { world with closed := true } = (some result, { after with closed := true }) := by
  cases op with
  | getline =>
      simp only [handle] at answered ⊢
      rcases read : wl2kgetline world.input with _ | ⟨text, rest⟩
      · simp [read, opened] at answered
      · rw [read] at answered
        obtain ⟨rfl, rfl⟩ := by simpa using answered
        rfl
  | getcompressed =>
      simp only [handle] at answered ⊢
      rcases read : getcompressed world.input with _ | ⟨buffer, rest⟩
      · simp [read, opened] at answered
      · rw [read] at answered
        obtain ⟨rfl, rfl⟩ := by simpa using answered
        rfl
  | checkMid mid =>
      simp only [handle] at answered ⊢
      rcases checked : checkMid (env.dbCalls world.calls) (env.clock world.calls) mid world.db
        with ⟨_ | found, db⟩
      · simp [checked] at answered
      · simp only [checked, Prod.mk.injEq, Option.some.injEq] at answered
        obtain ⟨rfl, rfl⟩ := answered
        rfl
  | sendmail mid message mimebuf =>
      simp only [handle] at answered ⊢
      rcases sent : env.sendmail world.calls <;>
        (simp only [sent, Prod.mk.injEq, Option.some.injEq] at answered
         obtain ⟨rfl, rfl⟩ := answered
         rfl)
  | halt reason => simp [handle] at answered
  | _ =>
      cases answered
      rfl

/-- What a run has done, and whether it has returned, is the same when the peer is gone
and when it is only silent. -/
theorem run_closing {env : Env} {program : Session α} (quits : Quits program) {world : World}
    (opened : world.closed = false) :
    (run (handle env) program { world with closed := true }).1 =
        (run (handle env) program world).1 ∧
      (run (handle env) program { world with closed := true }).2.trace =
        (run (handle env) program world).2.trace ∧
      (run (handle env) program { world with closed := true }).2.db =
        (run (handle env) program world).2.db := by
  induction program generalizing world with
  | ret value => exact ⟨rfl, rfl, rfl⟩
  | call op next ih =>
      rcases found : handle env op world with ⟨answer, after⟩
      cases answer with
      | some answer =>
          have still : after.closed = false := by
            rw [← opened, ← handle_closed env op world, found]
          rw [run_call_some found, run_call_some (handle_closing opened found)]
          refine ih answer ?_ still
          cases op with
          | getline => exact quits.2 answer
          | _ => exact quits answer
      | none =>
          rw [run_call_none found]
          cases op with
          | getline =>
              obtain ⟨⟨message, ends⟩, -⟩ := quits
              rcases read : wl2kgetline world.input with _ | ⟨text, rest⟩
              · simp only [handle, read, opened, Bool.false_eq_true, if_false] at found
                cases found
                rw [run_call]
                simp only [handle, read, if_true, ends]
                exact ⟨rfl, rfl, rfl⟩
              · simp [handle, read] at found
          | getcompressed =>
              rcases read : getcompressed world.input with _ | ⟨buffer, rest⟩
              · simp only [handle, read, opened, Bool.false_eq_true, if_false] at found
                cases found
                rw [run_call]
                simp only [handle, read, if_true]
                exact ⟨trivial, rfl, rfl⟩
              · simp [handle, read] at found
          | checkMid mid =>
              rcases checked : checkMid (env.dbCalls world.calls) (env.clock world.calls) mid
                world.db with ⟨_ | result, db⟩
              · simp only [handle, checked] at found
                cases found
                rw [run_call]
                simp only [handle, checked]
                exact ⟨trivial, rfl, rfl⟩
              · simp [handle, checked] at found
          | sendmail mid message mimebuf =>
              simp only [handle] at found
              split at found <;> cases found
          | halt reason =>
              cases found
              exact ⟨rfl, rfl, rfl⟩
          | _ => cases found

theorem run_start {env : Env} {program : Session α} (quits : Quits program) (input : Bytes)
    (closed : Bool) (db : MidDb) :
    (run (handle env) program (World.start input closed db)).1 =
        (run (handle env) program (World.start input false db)).1 ∧
      (run (handle env) program (World.start input closed db)).2.trace =
        (run (handle env) program (World.start input false db)).2.trace ∧
      (run (handle env) program (World.start input closed db)).2.db =
        (run (handle env) program (World.start input false db)).2.db := by
  cases closed with
  | false => exact ⟨rfl, rfl, rfl⟩
  | true => exact @run_closing α env program quits (World.start input false db) rfl

end Quits

end PaclinkUnix
