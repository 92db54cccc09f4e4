import PaclinkUnix.DialogueTurns

/-!
The two programs of a session as the two ends of two channels: what a run has done when no
more bytes come, and what its database then holds.
-/

namespace PaclinkUnix

open Effects Effects.Program Duplex

def Event.isRead : Event → Prop
  | .line _ _ | .frame _ _ => True
  | _ => False

section Runs

variable {env : Env} {α : Type}

theorem taken_wl2kgetline {input text rest : Bytes} (read : wl2kgetline input = some (text, rest)) :
    taken input rest ++ rest = input :=
  taken_prefix (tgetline_suffix read)

theorem taken_getcompressed {input rest : Bytes} {result : Option Bytes}
    (read : getcompressed input = some (result, rest)) : taken input rest ++ rest = input :=
  taken_prefix (getcompressed_suffix read)

/-- What has been read and what is left is the input. -/
def Consumes (input : Bytes) (world : World) : Prop :=
  world.closed = false ∧ world.trace.flatMap Event.reads ++ world.input = input

theorem handle_consumes {input : Bytes} (op : Op) {world : World}
    (consumes : Consumes input world) : Consumes input (handle env op world).2 := by
  obtain ⟨opened, same⟩ := consumes
  refine ⟨(handle_closed env op world).trans opened, ?_⟩
  cases op with
  | getline =>
      simp only [handle]
      rcases read : wl2kgetline world.input with _ | ⟨text, rest⟩
      · simpa [opened, World.stop] using same
      · simpa [World.log, Event.reads, taken_wl2kgetline read] using same
  | getcompressed =>
      simp only [handle]
      rcases read : getcompressed world.input with _ | ⟨result, rest⟩
      · simpa [opened, World.stop] using same
      · simpa [World.log, Event.reads, taken_getcompressed read] using same
  | checkMid mid =>
      simp only [handle]
      rcases checkMid (env.dbCalls world.calls) (env.clock world.calls) mid world.db with
        ⟨_ | found, db⟩ <;> simpa [World.log, World.stop, World.tick, Event.reads] using same
  | sendmail mid message mimebuf =>
      simp only [handle]
      split <;> simpa [World.log, World.tick, Event.reads] using same
  | _ => simpa [handle, World.log, World.stop, World.tick, Event.reads] using same

/-- An operation that stops for want of input reads when there is more. -/
theorem handle_waits (op : Op) {world after : World} (opened : world.closed = false)
    (stopped : handle env op world = (none, after)) (more : Bytes) :
    ((handle env op { world with input := world.input ++ more }).1 = none ∧
      (handle env op { world with input := world.input ++ more }).2.trace = after.trace) ∨
    ∃ event, event.isRead ∧
      (handle env op { world with input := world.input ++ more }).2.trace =
        after.trace ++ [event] := by
  cases op with
  | getline =>
      simp only [handle] at stopped ⊢
      rcases read : wl2kgetline world.input with _ | ⟨text, rest⟩
      · simp only [read, opened, Bool.false_eq_true, if_false] at stopped
        cases stopped
        rcases wl2kgetline (world.input ++ more) with _ | ⟨text, rest⟩
        · left
          simp [opened]
        · exact .inr ⟨.line (taken (world.input ++ more) rest) text, trivial, rfl⟩
      · simp [read] at stopped
  | getcompressed =>
      simp only [handle] at stopped ⊢
      rcases read : getcompressed world.input with _ | ⟨result, rest⟩
      · simp only [read, opened, Bool.false_eq_true, if_false] at stopped
        cases stopped
        rcases getcompressed (world.input ++ more) with _ | ⟨result, rest⟩
        · left
          simp [opened]
        · exact .inr ⟨.frame (taken (world.input ++ more) rest) result, trivial, rfl⟩
      · simp [read] at stopped
  | checkMid mid =>
      simp only [handle] at stopped ⊢
      rcases looked : checkMid (env.dbCalls world.calls) (env.clock world.calls) mid world.db with
        ⟨_ | found, db⟩
      · rw [looked] at stopped
        cases stopped
        exact .inl ⟨rfl, rfl⟩
      · rw [looked] at stopped
        cases stopped
  | sendmail mid message mimebuf =>
      simp only [handle] at stopped
      split at stopped <;> cases stopped
  | halt reason =>
      cases stopped
      exact .inl ⟨rfl, rfl⟩
  | _ => cases stopped

theorem run_waits (program : Session α) (world : World) (opened : world.closed = false)
    (more : Bytes) :
    Waiting Event.isRead
      (run (handle env) program { world with input := world.input ++ more }).2.trace
      (run (handle env) program world).2.trace := by
  induction program generalizing world with
  | ret value => exact .inl rfl
  | call op next ih =>
      rcases found : handle env op world with ⟨answer, after⟩
      cases answer with
      | some answer =>
          have still : after.closed = false := by
            rw [← opened, ← handle_closed env op world, found]
          rw [run_call_some found, run_call_some (handle_feed_open opened more found)]
          exact ih answer after still
      | none =>
          rw [run_call_none found]
          rcases fed : handle env op { world with input := world.input ++ more } with
            ⟨answer, later⟩
          have cases := handle_waits op opened found more
          rw [fed] at cases
          cases answer with
          | none =>
              rw [run_call_none fed]
              rcases cases with ⟨-, same⟩ | ⟨event, reads, same⟩
              · exact .inl same.symm
              · exact .inr ⟨event, [], same, reads⟩
          | some answer =>
              rw [run_call_some fed]
              rcases cases with ⟨halts, -⟩ | ⟨event, reads, same⟩
              · cases halts
              · obtain ⟨rest, grown⟩ := (handle_stable env).run_grows (next answer) later
                refine .inr ⟨event, rest, ?_, reads⟩
                rw [← grown, same, List.append_assoc]
                rfl

/-- A read that takes the same bytes whatever follows them. -/
def Event.exact : Event → Prop
  | .line raw text => ∀ rest, wl2kgetline (raw ++ rest) = some (text, rest)
  | .frame raw result => ∀ rest, getcompressed (raw ++ rest) = some (result, rest)
  | _ => True

theorem short_of_prefix {raw input more rest : Bytes} (same : raw ++ rest = input ++ more)
    (differs : ∀ left, input ≠ raw ++ left) : input.length < raw.length := by
  by_contra long
  have inside : raw <+: input :=
    List.prefix_of_prefix_length_le ⟨rest, same⟩ (List.prefix_append input more) (by omega)
  obtain ⟨left, whole⟩ := inside
  exact differs left whole.symm

theorem handle_short (op : Op) {world after : World} (opened : world.closed = false)
    (stopped : handle env op world = (none, after)) (more : Bytes) {event : Event}
    (exact : event.exact)
    (reads : (handle env op { world with input := world.input ++ more }).2.trace =
      after.trace ++ [event]) : after.input.length < event.reads.length := by
  have quiet : ∀ later : World, later.trace = after.trace →
      later.trace = after.trace ++ [event] → False := by
    intro later same other
    rw [same] at other
    have size := congrArg List.length other
    simp at size
  cases op with
  | getline =>
      simp only [handle] at stopped reads
      rcases read : wl2kgetline world.input with _ | ⟨text, rest⟩
      · simp only [read, opened, Bool.false_eq_true, if_false] at stopped
        cases stopped
        rcases again : wl2kgetline (world.input ++ more) with _ | ⟨text, rest⟩
        · rw [again] at reads
          simp only [opened, Bool.false_eq_true, if_false] at reads
          exact (quiet _ rfl reads).elim
        · rw [again] at reads
          obtain rfl := List.singleton_inj.mp (List.append_cancel_left reads)
          refine short_of_prefix (taken_wl2kgetline again) fun left same => ?_
          cases read.symm.trans ((congrArg wl2kgetline same).trans (exact left))
      · simp [read] at stopped
  | getcompressed =>
      simp only [handle] at stopped reads
      rcases read : getcompressed world.input with _ | ⟨result, rest⟩
      · simp only [read, opened, Bool.false_eq_true, if_false] at stopped
        cases stopped
        rcases again : getcompressed (world.input ++ more) with _ | ⟨result, rest⟩
        · rw [again] at reads
          simp only [opened, Bool.false_eq_true, if_false] at reads
          exact (quiet _ rfl reads).elim
        · rw [again] at reads
          obtain rfl := List.singleton_inj.mp (List.append_cancel_left reads)
          refine short_of_prefix (taken_getcompressed again) fun left same => ?_
          cases read.symm.trans ((congrArg getcompressed same).trans (exact left))
      · simp [read] at stopped
  | checkMid mid =>
      simp only [handle] at stopped reads
      rcases looked : checkMid (env.dbCalls world.calls) (env.clock world.calls) mid world.db with
        ⟨_ | found, db⟩
      · rw [looked] at stopped reads
        cases stopped
        exact (quiet _ rfl reads).elim
      · rw [looked] at stopped
        cases stopped
  | sendmail mid message mimebuf =>
      simp only [handle] at stopped
      split at stopped <;> cases stopped
  | halt reason =>
      cases stopped
      exact (quiet _ rfl reads).elim
  | _ => cases stopped

theorem run_short (program : Session α) (world : World) (opened : world.closed = false)
    (more : Bytes) {event : Event} {rest : List Event} (exact : event.exact)
    (onward : (run (handle env) program { world with input := world.input ++ more }).2.trace =
      (run (handle env) program world).2.trace ++ event :: rest) :
    (run (handle env) program world).2.input.length < event.reads.length := by
  have quiet : ∀ trace : List Event, trace = trace ++ event :: rest → False := by
    intro trace same
    have size := congrArg List.length same
    simp at size
  induction program generalizing world with
  | ret value => exact (quiet _ onward).elim
  | call op next ih =>
      rcases found : handle env op world with ⟨answer, after⟩
      cases answer with
      | some answer =>
          have still : after.closed = false := by
            rw [← opened, ← handle_closed env op world, found]
          rw [run_call_some found] at onward ⊢
          rw [run_call_some (handle_feed_open opened more found)] at onward
          exact ih answer after still onward
      | none =>
          rw [run_call_none found] at onward ⊢
          have cases := handle_waits op opened found more
          have short := @handle_short env op world after opened found more event exact
          rcases fed : handle env op { world with input := world.input ++ more } with
            ⟨answer, later⟩
          rw [fed] at cases short
          cases answer with
          | none =>
              rw [run_call_none fed] at onward
              rcases cases with ⟨-, same⟩ | ⟨other, -, same⟩
              · exact (quiet after.trace (same.symm.trans onward)).elim
              · rw [onward] at same
                obtain ⟨rfl, rfl⟩ := List.cons.inj (List.append_cancel_left same)
                exact short onward
          | some answer =>
              rw [run_call_some fed] at onward
              rcases cases with ⟨halts, -⟩ | ⟨other, -, same⟩
              · cases halts
              · obtain ⟨tail, grown⟩ := (handle_stable env).run_grows (next answer) later
                rw [← grown, same, List.append_assoc] at onward
                obtain ⟨rfl, -⟩ := List.cons.inj (List.append_cancel_left onward)
                exact short same

end Runs

/-- A program with a database, as one end of the channels. -/
def sessionEnd {α : Type} (env : Env) (program : Session α) (db : MidDb) :
    Party Event.reads Event.isRead where
  trace input := (run (handle env) program (World.start input false db)).2.trace
  waits input more := run_waits program (World.start input false db) rfl more
  within input := by
    have consumes : Consumes input (run (handle env) program (World.start input false db)).2 :=
      run_invariant (Consumes input) (fun op _ => handle_consumes op) program ⟨rfl, rfl⟩
    exact ⟨_, consumes.2⟩

def heldBy (held : Bytes → Bool) (events : List Event) (mid : Bytes) : Bool :=
  held mid || (events.filterMap Event.keeps).contains mid

def KeepsStored (env : Env) (held : Bytes → Bool) (world : World) : Prop :=
  Stores env (heldBy held world.trace) world.db

section Database

variable {env : Env} {held : Bytes → Bool} {world : World}

theorem heldBy_quiet {events more : List Event} (quiet : more.filterMap Event.keeps = []) :
    heldBy held (events ++ more) = heldBy held events := by
  funext mid
  rw [heldBy, List.filterMap_append, quiet, List.append_nil]
  rfl

theorem KeepsStored.quiet {later : World} (keeps : KeepsStored env held world)
    (sameDb : later.db = world.db) {more : List Event} (traced : later.trace = world.trace ++ more)
    (quiet : more.filterMap Event.keeps = []) : KeepsStored env held later := by
  rw [KeepsStored, traced, heldBy_quiet quiet, sameDb]
  exact keeps

theorem handle_keepsStored (reliable : Reliable env) (op : Op)
    (keeps : KeepsStored env held world) : KeepsStored env held (handle env op world).2 := by
  have same : ∀ later : World, later.db = world.db → later.trace = world.trace →
      KeepsStored env held later := by
    intro later sameDb sameTrace
    rw [KeepsStored, sameDb, sameTrace]
    exact keeps
  cases op with
  | getline =>
      simp only [handle]
      split
      · exact keeps.quiet rfl rfl rfl
      · split <;> exact same _ rfl rfl
  | getcompressed =>
      simp only [handle]
      split
      · exact keeps.quiet rfl rfl rfl
      · split <;> exact same _ rfl rfl
  | checkMid mid =>
      rcases checkMid_young keeps.young world.calls mid with
        ⟨malformed, -⟩ | ⟨-, result⟩ | ⟨-, result⟩
      · exact absurd malformed (keeps.sound mid)
      all_goals
        simp only [handle, reliable.succeed, result]
        exact keeps.quiet rfl rfl rfl
  | sendmail mid message mimebuf =>
      simp only [handle]
      split
      · exact same _ rfl rfl
      · exact keeps.quiet rfl rfl rfl
  | recordMid mid =>
      have stored := Stores.record keeps mid world.calls
      simp only [handle, reliable.succeed, recordMid_succeed, KeepsStored]
      have now : heldBy held (world.trace ++ [.recorded mid 0]) =
          fun other => heldBy held world.trace other || mid == other := by
        funext other
        have kept : [Event.recorded mid 0].filterMap Event.keeps = [mid] := rfl
        rw [heldBy, heldBy, List.filterMap_append, kept, List.contains_append, List.contains_cons,
          List.contains_nil, Bool.or_false, Bool.or_assoc, BEq.comm]
      change Stores env (heldBy held (world.trace ++ [.recorded mid 0])) _
      rw [now]
      exact stored
  | write what bytes => exact keeps.quiet rfl rfl rfl
  | unlink path => exact keeps.quiet rfl rfl rfl
  | answer mid char => exact keeps.quiet rfl rfl rfl
  | strayBytes => exact same _ rfl rfl
  | halt reason => exact same _ rfl rfl

theorem run_keepsStored {α : Type} (reliable : Reliable env) (program : Session α)
    (keeps : KeepsStored env held world) :
    KeepsStored env held (run (handle env) program world).2 :=
  run_invariant (KeepsStored env held) (fun op _ => handle_keepsStored reliable op) program keeps

end Database

def KeptPace (events : List Event) : Prop :=
  events.filterMap Event.keeps = (events.filterMap Event.handed).map Prod.fst

theorem KeptPace.append {first second : List Event} (before : KeptPace first)
    (after : KeptPace second) : KeptPace (first ++ second) := by
  rw [KeptPace, List.filterMap_append, List.filterMap_append, List.map_append, before, after]

abbrev Orderly (events : List Event) : Prop := Tidy Event.isRead KeptPace events

theorem Orderly.join {first second : List Event} (before : Orderly first)
    (after : Orderly second) : Orderly (first ++ second) :=
  Tidy.append (fun _ _ => KeptPace.append) before after

def Event.unkept (event : Event) : Prop := event.keeps = none ∧ event.handed = none

theorem orderly_unkept {events : List Event} (unkept : ∀ event ∈ events, event.unkept) :
    Orderly events := by
  intro part waiting
  have inside : ∀ event ∈ part, event.unkept :=
    fun event member => unkept event (waiting.earlier.subset member)
  rw [KeptPace, List.filterMap_eq_nil_iff.mpr fun event member => (inside event member).1,
    List.filterMap_eq_nil_iff.mpr fun event member => (inside event member).2]
  rfl

theorem orderly_ask (held : Bytes → Bool) (batch : List Proposal) :
    Orderly (askEvents held batch) := by
  refine orderly_unkept fun event member => ?_
  rcases mem_askEvents member with ⟨what, bytes, rfl⟩ | rfl <;> exact ⟨rfl, rfl⟩

theorem unlinks_unkept (side : Side) : ∀ event ∈ side.unlinks, event.unkept := by
  intro event member
  obtain ⟨mid, rfl⟩ := mem_unlinks member
  exact ⟨rfl, rfl⟩

theorem orderly_deliver (config : Config) (batch : List Proposal) :
    Orderly (batch.flatMap (deliverEvents config)) := by
  induction batch with
  | nil => exact orderly_unkept (by simp)
  | cons prop batch ih =>
      rw [List.flatMap_cons]
      refine Orderly.join ?_ ih
      intro part waiting
      -- what is read comes first, and the rest follows without waiting
      rcases waiting with rfl | ⟨stop, rest, split, stops⟩
      · rfl
      · rcases part with _ | ⟨first, _ | ⟨second, _ | ⟨third, part⟩⟩⟩
        · rfl
        · simp only [deliverEvents, List.cons_append, List.nil_append, List.cons.injEq] at split
          rw [← split.2.1] at stops
          exact stops.elim
        · simp only [deliverEvents, List.cons_append, List.nil_append, List.cons.injEq] at split
          rw [← split.2.2.1] at stops
          exact stops.elim
        · simp [deliverEvents] at split

theorem orderly_reply (side : Side) (batch : List Proposal) : Orderly (replyEvents side batch) := by
  have front : Orderly (offerRead side.unlinks batch ++ lineRead (batchEndLine batch) ::
      (batch.flatMap (answerEvents side.held) ++
        [.wrote .answers (replyText side.held batch ++ [carriageReturn])])) := by
    refine orderly_unkept fun event member => ?_
    rw [List.mem_append, List.mem_cons, List.mem_append, List.mem_singleton] at member
    rcases member with read | rfl | looked | rfl
    · rcases mem_offerRead read with ⟨prop, -, rfl⟩ | unlinked
      · exact ⟨rfl, rfl⟩
      · exact unlinks_unkept side event unlinked
    · exact ⟨rfl, rfl⟩
    · rcases mem_answers looked with ⟨mid, calls, result, known, rfl⟩ | ⟨mid, char, rfl⟩ <;>
        exact ⟨rfl, rfl⟩
    · exact ⟨rfl, rfl⟩
  have both := front.join (orderly_deliver side.config (wanted side.held batch))
  rw [replyEvents]
  simpa using both

theorem Talk.orderly {mine theirs mineEnd theirsEnd : Side} {passed : Bool}
    {said heard : List Event} (talk : Talk mine theirs passed said heard mineEnd theirsEnd) :
    Orderly said ∧ Orderly heard := by
  have commands : ∀ (side : Side) (text : Bytes), Orderly (lineRead text :: side.unlinks) := by
    intro side text
    refine orderly_unkept fun event member => ?_
    rcases List.mem_cons.mp member with rfl | unlinked
    · exact ⟨rfl, rfl⟩
    · exact unlinks_unkept side event unlinked
  have writes : ∀ bytes, Orderly [.wrote .command bytes] := by
    intro bytes
    refine orderly_unkept fun event member => ?_
    rw [List.mem_singleton.mp member]
    exact ⟨rfl, rfl⟩
  induction talk with
  | @quit mine theirs none => exact ⟨writes _, commands theirs quitText⟩
  | @pass mine theirs mineEnd theirsEnd said heard none rest ih =>
      exact ⟨(writes _).join ih.2, (commands theirs passText).join ih.1⟩
  | @batch mine theirs mineEnd theirsEnd passed said heard some rest ih =>
      exact ⟨(orderly_ask theirs.held mine.batch).join ih.2,
        (orderly_reply theirs mine.batch).join ih.1⟩

section Programs

variable {env : Env} {config : Config}

def Side.start (config : Config) (props : List Proposal) (held : Bytes → Bool) : Side where
  config := config
  confirmed := []
  settled := []
  pending := props
  held := held

theorem clientSession_floor {selects : List Selected}
    (hears : wl2kWaitForResponse selects = some true) (fuel : Nat) (line : Bytes)
    (props : List Proposal) (held : Bytes → Bool) :
    clientSession selects config fuel line props =
      (floor config fuel line (Side.start config props held).parser >>= fun result =>
        pure (result.2.props, result.2.cursor)) := by
  unfold clientSession floor outboundTurn
  simp only [bind_assoc]
  refine congrArg _ (funext fun result => ?_)
  obtain ⟨ret, props, cursor⟩ := result
  by_cases stays : ret = 0
  · simp [stays, hears, Side.parser, Side.start]
  · simp [stays]

theorem Goes.result {α β : Type} {program : Session α} {held after : Bytes → Bool}
    {events : List Event} {value : α} (goes : Goes env program held after events value)
    (result : α → β) :
    Goes env (program >>= fun value => pure (result value)) held after events (result value) := by
  rw [← List.append_nil events]
  exact goes.bind (goes_pure _)

theorem goes_client {held after : Bytes → Bool} {fuel : Nat} {line : Bytes}
    {props : List Proposal} {events : List Event} {value : Int} {last : Parser}
    {selects : List Selected} (hears : wl2kWaitForResponse selects = some true)
    (goes : Goes env (floor config fuel line (Side.start config props held).parser) held after
      events (value, last)) :
    Goes env (clientSession selects config fuel line props) held after events
      (last.props, last.cursor) := by
  rw [clientSession_floor hears fuel line props held]
  exact goes.result fun result => (result.2.props, result.2.cursor)

theorem goes_daemon {held after : Bytes → Bool} {fuel : Nat} {line : Bytes}
    {props : List Proposal} {events : List Event} {last : Parser}
    (goes : Goes env (inboundParser config fuel (Side.start config props held).parser) held after
      events (-1, last)) :
    Goes env (daemonSession config fuel line props) held after events
      (last.props, last.cursor) := by
  rw [daemonSession, ← List.append_nil events]
  refine goes.bind ?_
  simp only [Int.reduceNeg, neg_eq_zero, one_ne_zero, if_false]
  exact goes_pure _

end Programs

end PaclinkUnix
