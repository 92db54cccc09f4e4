import PaclinkUnix.DialogueSession
import PaclinkUnix.EndOfFile

/-!
Two instances that meet in any number of sessions, with outboxes and databases that stay.
A session may be cut at any byte of either channel, and a side then finds its channel silent
or closed.
-/

namespace PaclinkUnix

open Effects Effects.Program Duplex

/-- What an instance keeps between its sessions, and all it has handed to sendmail. -/
structure Station where
  config : Config
  outbox : List Proposal
  db : MidDb
  received : List (Bytes × Bytes × Bytes)

namespace Station

def knows (station : Station) (mid : Bytes) : Bool := (station.db mid).isSome

def remaining (outbox : List Proposal) (events : List Event) : List Proposal :=
  outbox.filter fun prop => !(events.filterMap Event.drops).any (prop.path == some ·)

/-- What a session leaves when `input` has arrived and no more comes. -/
def after {α : Type} (station : Station) (env : Env) (program : Session α) (input : Bytes)
    (closed : Bool) : Station :=
  let ended := (run (handle env) program (World.start input closed station.db)).2
  { station with
    outbox := remaining station.outbox ended.trace
    db := ended.db
    received := station.received ++ ended.trace.filterMap Event.handed }

theorem after_closed {α : Type} {program : Session α} (quits : Quits program) (station : Station)
    (env : Env) (input : Bytes) (closed : Bool) :
    station.after env program input closed = station.after env program input false := by
  obtain ⟨-, trace, db⟩ := @run_start α env program quits input closed station.db
  rw [after, after]
  simp only [trace, db]

/-- An instance before its first session with `other`. -/
structure Ready (station other : Station) : Prop where
  receives : station.config.sendMsgOnly = false
  distinct : (station.outbox.map Proposal.mid).Nodup
  outbox : ∀ prop ∈ station.outbox, Deliverable other.config prop
  sound : ∀ mid, station.db mid ≠ some .malformed
  received : station.received = []

end Station

/-- One session: what happens around the two programs, what the caller's wait for an answer
meets, the order in which the files are found, how much arrives at either end, and whether the
end of the file is seen behind it. -/
structure Meeting where
  env : Env
  envOther : Env
  selects : List Selected
  fuel : Nat
  fuelOther : Nat
  line : Bytes
  lineOther : Bytes
  offers : List Proposal
  offersOther : List Proposal
  input : Bytes
  inputOther : Bytes
  closed : Bool
  closedOther : Bool

namespace Meeting

variable (meeting : Meeting) (caller called : Station)

def callerProgram : Session (List Proposal × Nat) :=
  clientSession meeting.selects caller.config meeting.fuel meeting.line meeting.offers

/-- The same session with an input that the wait sees. -/
def heard : Meeting := { meeting with selects := [.readable] }

def calledProgram : Session (List Proposal × Nat) :=
  daemonSession called.config meeting.fuelOther meeting.lineOther meeting.offersOther

structure Between : Prop where
  reliable : Reliable meeting.env
  reliableOther : Reliable meeting.envOther
  young : NeverExpires meeting.env caller.db
  youngOther : NeverExpires meeting.envOther called.db
  order : meeting.offers.Perm caller.outbox
  orderOther : meeting.offersOther.Perm called.outbox
  greeting : strbegins meeting.line passText = false
  enough : 3 * (meeting.offers.length + meeting.offersOther.length) + 2 ≤ meeting.fuel
  enoughOther : 3 * (meeting.offers.length + meeting.offersOther.length) + 2 ≤ meeting.fuelOther
  arrived : Arrived Event.writes (sessionEnd meeting.env (meeting.callerProgram caller) caller.db)
    (sessionEnd meeting.envOther (meeting.calledProgram called) called.db)
    meeting.input meeting.inputOther

def callerAfter : Station :=
  caller.after meeting.env (meeting.callerProgram caller) meeting.input meeting.closed

def calledAfter : Station :=
  called.after meeting.envOther (meeting.calledProgram called) meeting.inputOther
    meeting.closedOther

theorem callerAfter_open : meeting.callerAfter caller =
    caller.after meeting.env (meeting.callerProgram caller) meeting.input false :=
  Station.after_closed (quits_clientSession _ _ _ _ _) _ _ _ _

theorem calledAfter_open : meeting.calledAfter called =
    called.after meeting.envOther (meeting.calledProgram called) meeting.inputOther false :=
  Station.after_closed (quits_daemonSession _ _ _ _) _ _ _ _

end Meeting

inductive Corresponded (first second : Station) : Station → Station → Prop
  | start : Corresponded first second first second
  | calls {here there : Station} (meeting : Meeting) : Corresponded first second here there →
      meeting.Between here there →
      Corresponded first second (meeting.callerAfter here) (meeting.calledAfter there)
  | called {here there : Station} (meeting : Meeting) : Corresponded first second here there →
      meeting.Between there here →
      Corresponded first second (meeting.calledAfter here) (meeting.callerAfter there)

/-- What holds of one direction; `origin` and `target` are the sender and the receiver before
their first session. -/
structure Delivers (origin target sender receiver : Station) : Prop where
  config : receiver.config = target.config
  left : sender.outbox.Sublist origin.outbox
  received : ∀ entry ∈ receiver.received, ∃ prop ∈ origin.outbox,
    entry = handedOver target.config prop
  once : (receiver.received.map Prod.fst).Nodup
  fresh : ∀ mid ∈ receiver.received.map Prod.fst, target.knows mid = false
  knows : ∀ mid, receiver.knows mid =
    (target.knows mid || (receiver.received.map Prod.fst).contains mid)
  gone : ∀ prop ∈ origin.outbox, prop ∉ sender.outbox → receiver.knows prop.mid = true
  sound : ∀ mid, receiver.db mid ≠ some .malformed

section Direction

variable {origin target sender receiver : Station} {offers : List Proposal}
  {part partOther : List Event}

theorem delivers_start {first second : Station} (ready : second.Ready first) :
    Delivers first second first second where
  config := rfl
  left := List.Sublist.refl _
  received := by simp [ready.received]
  once := by simp [ready.received]
  fresh := by simp [ready.received]
  knows := by simp [ready.received]
  gone := fun prop inside outside => absurd inside outside
  sound := ready.sound

theorem handedOver_mids (config : Config) (batch : List Proposal) :
    (batch.map (handedOver config)).map Prod.fst = batch.map Proposal.mid := by
  rw [List.map_map]
  rfl

theorem Delivers.session (delivers : Delivers origin target sender receiver)
    (distinct : (origin.outbox.map Proposal.mid).Nodup)
    (named : ∀ prop ∈ origin.outbox, prop.path = some prop.mid)
    (order : offers.Perm sender.outbox)
    (backed : ∀ mid ∈ part.filterMap Event.drops, heldBy receiver.knows partOther mid = true)
    (handed : partOther.filterMap Event.handed <+:
      (wanted receiver.knows offers).map (handedOver target.config))
    (keptPace : KeptPace partOther) {senderAfter receiverAfter : Station}
    (config : receiverAfter.config = receiver.config)
    (outbox : senderAfter.outbox = Station.remaining sender.outbox part)
    (received : receiverAfter.received =
      receiver.received ++ partOther.filterMap Event.handed)
    (knows : ∀ mid, receiverAfter.knows mid = heldBy receiver.knows partOther mid)
    (sound : ∀ mid, receiverAfter.db mid ≠ some .malformed) :
    Delivers origin target senderAfter receiverAfter := by
  have news : (partOther.filterMap Event.handed).map Prod.fst <+:
      (wanted receiver.knows offers).map Proposal.mid := by
    rw [← handedOver_mids target.config]
    exact handed.map _
  have unknown : ∀ mid ∈ (partOther.filterMap Event.handed).map Prod.fst,
      receiver.knows mid = false := by
    intro mid member
    obtain ⟨prop, wants, rfl⟩ := List.mem_map.mp (news.subset member)
    simpa using (List.mem_filter.mp wants).2
  have offersDistinct : (offers.map Proposal.mid).Nodup :=
    ((order.map _).nodup_iff).mpr (distinct.sublist (delivers.left.map _))
  have newsDistinct : ((partOther.filterMap Event.handed).map Prod.fst).Nodup :=
    (offersDistinct.sublist ((List.filter_sublist).map _)).sublist news.sublist
  have all : ∀ mid, receiverAfter.knows mid =
      (receiver.knows mid || ((partOther.filterMap Event.handed).map Prod.fst).contains mid) := by
    intro mid
    rw [knows, heldBy, keptPace]
  refine ⟨config.trans delivers.config, ?_, ?_, ?_, ?_, ?_, ?_, sound⟩
  · rw [outbox]
    exact List.filter_sublist.trans delivers.left
  · intro entry member
    rw [received, List.mem_append] at member
    rcases member with member | member
    · exact delivers.received entry member
    · obtain ⟨prop, wants, rfl⟩ := List.mem_map.mp (handed.subset member)
      exact ⟨prop, delivers.left.subset (order.subset (List.mem_filter.mp wants).1), rfl⟩
  · rw [received, List.map_append, List.nodup_append]
    refine ⟨delivers.once, newsDistinct, fun mid before other now same => ?_⟩
    have known : receiver.knows mid = true := by
      rw [delivers.knows, List.contains_iff_mem.mpr before, Bool.or_true]
    rw [same, unknown other now] at known
    cases known
  · intro mid member
    rw [received, List.map_append, List.mem_append] at member
    rcases member with member | member
    · exact delivers.fresh mid member
    · have absent := unknown mid member
      rw [delivers.knows, Bool.or_eq_false_iff] at absent
      exact absent.1
  · intro mid
    rw [all, delivers.knows, received, List.map_append, List.contains_append, Bool.or_assoc]
  · intro prop inside outside
    by_cases before : prop ∈ sender.outbox
    · have dropped : (part.filterMap Event.drops).any (prop.path == some ·) = true := by
        by_contra stays
        refine outside ?_
        rw [outbox]
        exact List.mem_filter.mpr ⟨before, by simpa using stays⟩
      obtain ⟨path, member, same⟩ := List.any_eq_true.mp dropped
      rw [named prop inside, beq_iff_eq] at same
      obtain rfl := Option.some.inj same
      rw [knows]
      exact backed _ member
    · rw [all, delivers.gone prop inside before, Bool.true_or]

end Direction

section Waits

variable {env : Env} {config : Config} {fuel : Nat} {line : Bytes} {props : List Proposal}
  {selects : List Selected}

/-- The command loop goes on with a line that it reads, or it does nothing. -/
theorem inboundParser_waits {α : Type} (env : Env) (config : Config) (fuel : Nat)
    (parser : Parser) (next : Int × Parser → Session α) (world : World) :
    Waiting Event.isRead
      (run (handle env) (inboundParser config fuel parser >>= next) world).2.trace
      world.trace := by
  cases fuel with
  | zero => exact .inl rfl
  | succ fuel =>
      rw [inboundParser, bind_assoc]
      rcases read : wl2kgetline world.input with _ | ⟨text, rest⟩
      · cases closed : world.closed with
        | false =>
            have blocks : run (handle env) getline world = (none, world.stop .blocked) := by
              rw [getline, perform]
              exact run_call_none (by simp [handle, read, closed])
            rw [run_bind_none blocks]
            exact .inl rfl
        | true =>
            have ends : run (handle env) getline world =
                (some none, { world with input := [] }) := by
              rw [getline, perform]
              exact run_call_some (by simp [handle, read, closed])
            rw [run_bind_some ends]
            exact .inl rfl
      · have reads : run (handle env) getline world =
            (some (some text),
              { world with input := rest }.log (.line (taken world.input rest) text)) := by
          rw [getline, perform]
          exact run_call_some (by simp [handle, read])
        rw [run_bind_some reads]
        obtain ⟨later, onward⟩ := run_invariant
          (fun after => ({ world with input := rest }.log
            (.line (taken world.input rest) text)).trace <+: after.trace)
          (fun op before earlier => earlier.trans (handle_trace env op before)) _
          (List.prefix_refl _)
        refine .inr ⟨.line (taken world.input rest) text, later, ?_, trivial⟩
        rw [← onward, World.trace_log, List.append_assoc]
        rfl

/-- A client whose wait gives up has done a part of what it does otherwise, and would have read
next. -/
theorem clientSession_waits (env : Env) (config : Config) (fuel : Nat) (line : Bytes)
    (props : List Proposal) (selects : List Selected) (world : World) :
    Waiting Event.isRead
      (run (handle env) (clientSession [.readable] config fuel line props) world).2.trace
      (run (handle env) (clientSession selects config fuel line props) world).2.trace := by
  rw [clientSession, clientSession, run_bind, run_bind]
  rcases run (handle env) (b2outboundproposal fuel line props 0) world with
    ⟨_ | ⟨ret, props, cursor⟩, after⟩
  · exact .inl rfl
  · simp only [show wl2kWaitForResponse [.readable] = some true from rfl]
    split
    · exact .inl rfl
    · split
      · exact inboundParser_waits env config fuel _ _ after
      · exact inboundParser_waits env config fuel _ _ after
      · exact .inl rfl

end Waits

/-- The caller has done a part of what it does if it hears an answer. -/
theorem Meeting.sooner (meeting : Meeting) (caller : Station) (input : Bytes) :
    Waiting Event.isRead
      ((sessionEnd meeting.env (meeting.heard.callerProgram caller) caller.db).trace input)
      ((sessionEnd meeting.env (meeting.callerProgram caller) caller.db).trace input) :=
  clientSession_waits meeting.env caller.config meeting.fuel meeting.line meeting.offers
    meeting.selects _

theorem Meeting.Between.heard {meeting : Meeting} {caller called : Station}
    (between : meeting.Between caller called) : meeting.heard.Between caller called :=
  { between with
    arrived := between.arrived.shortened fun input => (meeting.sooner caller input).earlier }

section OneSession

variable {caller0 called0 caller called : Station} {meeting : Meeting}

theorem stores_knows {env : Env} {station : Station} (young : NeverExpires env station.db)
    (sound : ∀ mid, station.db mid ≠ some .malformed) :
    Stores env station.knows station.db :=
  ⟨young, fun mid => by rw [Station.knows, Option.isSome_iff_ne_none], sound⟩

theorem fit_start {receiver : Config} {offers outbox : List Proposal} (order : offers.Perm outbox)
    (deliverable : ∀ prop ∈ outbox, Deliverable receiver prop) (config : Config)
    (held : Bytes → Bool) : (Side.start config offers held).Fit receiver :=
  ⟨fun _ member => absurd member List.not_mem_nil,
    fun _ member => absurd member List.not_mem_nil,
    fun prop member => deliverable prop (order.subset member)⟩

structure WholeSession (meeting : Meeting) (caller called : Station) (said heard : List Event) :
    Prop where
  talk : ∃ mineEnd theirsEnd,
    Talk (Side.start caller.config meeting.offers caller.knows)
      (Side.start called.config meeting.offersOther called.knows) false said heard mineEnd theirsEnd
  fit : (Side.start caller.config meeting.offers caller.knows).Fit called.config
  fitOther : (Side.start called.config meeting.offersOther called.knows).Fit caller.config
  returns : (run (handle meeting.env) (meeting.callerProgram caller)
    (World.start (said.flatMap Event.reads) false caller.db)).1 ≠ none
  returnsOther : (run (handle meeting.envOther) (meeting.calledProgram called)
    (World.start (heard.flatMap Event.reads) false called.db)).1 ≠ none
  trace : (sessionEnd meeting.env (meeting.callerProgram caller) caller.db).trace
    (said.flatMap Event.reads) = said
  traceOther : (sessionEnd meeting.envOther (meeting.calledProgram called) called.db).trace
    (heard.flatMap Event.reads) = heard

theorem WholeSession.exchanged {said heard : List Event}
    (whole : WholeSession meeting caller called said heard) :
    ((sessionEnd meeting.envOther (meeting.calledProgram called) called.db).trace
        (heard.flatMap Event.reads)).flatMap Event.writes = said.flatMap Event.reads ∧
      ((sessionEnd meeting.env (meeting.callerProgram caller) caller.db).trace
        (said.flatMap Event.reads)).flatMap Event.writes = heard.flatMap Event.reads := by
  obtain ⟨mineEnd, theirsEnd, talk⟩ := whole.talk
  rw [whole.trace, whole.traceOther]
  exact ⟨talk.balanced.1.symm, talk.balanced.2.symm⟩

theorem Goes.trace {α : Type} {env : Env} {program : Session α} {held after : Bytes → Bool}
    {events : List Event} {value : α} {db : MidDb} (goes : Goes env program held after events value)
    (stores : Stores env held db) :
    (sessionEnd env program db).trace (events.flatMap Event.reads) = events := by
  obtain ⟨later, ran, -, -, traced⟩ := goes (World.start (events.flatMap Event.reads) false db) []
    stores (List.append_nil _).symm
  change (run (handle env) program (World.start _ false db)).2.trace = events
  rw [ran, traced]
  rfl

theorem Goes.returns {α : Type} {env : Env} {program : Session α} {held after : Bytes → Bool}
    {events : List Event} {value : α} {db : MidDb} (goes : Goes env program held after events value)
    (stores : Stores env held db) :
    (run (handle env) program (World.start (events.flatMap Event.reads) false db)).1 ≠ none := by
  obtain ⟨later, ran, -⟩ := goes (World.start (events.flatMap Event.reads) false db) []
    stores (List.append_nil _).symm
  rw [ran]
  exact Option.some_ne_none _

theorem whole_session (ready : caller0.Ready called0) (readyOther : called0.Ready caller0)
    (forth : Delivers caller0 called0 caller called) (back : Delivers called0 caller0 called caller)
    (between : meeting.Between caller called)
    (hears : wl2kWaitForResponse meeting.selects = some true) :
    ∃ said heard, WholeSession meeting caller called said heard := by
  obtain ⟨said, heard, mineEnd, theirsEnd, talk⟩ :=
    talk_ends (Side.start caller.config meeting.offers caller.knows)
      (Side.start called.config meeting.offersOther called.knows) false
  have fit := @fit_start called.config meeting.offers caller.outbox between.order
    (fun prop member => forth.config ▸ ready.outbox prop (forth.left.subset member))
    caller.config caller.knows
  have fitOther := @fit_start caller.config meeting.offersOther called.outbox between.orderOther
    (fun prop member => back.config ▸ readyOther.outbox prop (back.left.subset member))
    called.config called.knows
  have runs := talk_runs talk between.reliable between.reliableOther
    (by rw [Side.start, back.config]; exact ready.receives)
    (by rw [Side.start, forth.config]; exact readyOther.receives) rfl fit fitOther
  have asks := goes_client hears
    ((runs meeting.fuel between.enough).1 meeting.line between.greeting)
  have answers := @goes_daemon meeting.envOther called.config called.knows _ meeting.fuelOther
    meeting.lineOther meeting.offersOther _ _ (runs meeting.fuelOther between.enoughOther).2
  have stores := stores_knows between.young back.sound
  have storesOther := stores_knows between.youngOther forth.sound
  exact ⟨said, heard, ⟨mineEnd, theirsEnd, talk⟩, fit, fitOther, asks.returns stores,
    answers.returns storesOther, asks.trace stores, answers.trace storesOther⟩

theorem after_knows {α : Type} {env : Env} {station : Station} (reliable : Reliable env)
    (young : NeverExpires env station.db) (sound : ∀ mid, station.db mid ≠ some .malformed)
    (program : Session α) (input : Bytes) :
    (∀ mid, (station.after env program input false).knows mid =
        heldBy station.knows ((sessionEnd env program station.db).trace input) mid) ∧
      ∀ mid, (station.after env program input false).db mid ≠ some .malformed := by
  have initially : KeepsStored env station.knows (World.start input false station.db) := by
    have same : heldBy station.knows [] = station.knows := by
      funext mid
      simp [heldBy]
    rw [KeepsStored, World.trace_start, same]
    exact stores_knows young sound
  have kept := run_keepsStored reliable program initially
  refine ⟨fun mid => ?_, kept.sound⟩
  rw [Bool.eq_iff_iff]
  exact Option.isSome_iff_ne_none.trans (kept.entries mid).symm

theorem Delivers.cut {origin target sender receiver senderAfter receiverAfter : Station}
    (ready : origin.Ready target) (delivers : Delivers origin target sender receiver)
    {offers : List Proposal} (order : offers.Perm sender.outbox)
    {trace other part partOther : List Event}
    (cut : Cut Event.reads Event.writes trace other part partOther)
    (waiting : Waiting Event.isRead other partOther) (orderly : Orderly other)
    (backed : Backed Event.reads Event.writes Event.drops Event.keeps trace other
      (receiver.knows · = true))
    (handed : other.filterMap Event.handed =
      (wanted receiver.knows offers).map (handedOver receiver.config))
    (config : receiverAfter.config = receiver.config)
    (outbox : senderAfter.outbox = Station.remaining sender.outbox part)
    (received : receiverAfter.received = receiver.received ++ partOther.filterMap Event.handed)
    (knows : ∀ mid, receiverAfter.knows mid = heldBy receiver.knows partOther mid)
    (sound : ∀ mid, receiverAfter.db mid ≠ some .malformed) :
    Delivers origin target senderAfter receiverAfter := by
  refine delivers.session ready.distinct (fun prop inside => (ready.outbox prop inside).path) order
    (fun mid member => ?_) ?_ (orderly partOther waiting) config outbox received knows sound
  · obtain ⟨event, inside, drops⟩ := List.mem_filterMap.mp member
    rw [heldBy, Bool.or_eq_true, List.contains_iff_mem]
    refine (backed part partOther cut event inside mid drops).imp id fun gave => ?_
    obtain ⟨given, recorded, keeps⟩ := gave
    exact List.mem_filterMap.mpr ⟨given, recorded, keeps⟩
  · rw [← delivers.config, ← handed]
    exact waiting.earlier.filterMap _

theorem meeting_delivers (ready : caller0.Ready called0) (readyOther : called0.Ready caller0)
    (forth : Delivers caller0 called0 caller called) (back : Delivers called0 caller0 called caller)
    (between : meeting.Between caller called) :
    Delivers caller0 called0 (meeting.callerAfter caller) (meeting.calledAfter called) ∧
      Delivers called0 caller0 (meeting.calledAfter called) (meeting.callerAfter caller) := by
  obtain ⟨said, heard, whole⟩ := whole_session ready readyOther forth back between.heard rfl
  obtain ⟨mineEnd, theirsEnd, talk⟩ := whole.talk
  obtain ⟨wholly, whollyOther⟩ := whole.exchanged
  have distinct : (meeting.offers.map Proposal.mid).Nodup :=
    ((between.order.map _).nodup_iff).mpr (ready.distinct.sublist (forth.left.map _))
  have distinctOther : (meeting.offersOther.map Proposal.mid).Nodup :=
    ((between.orderOther.map _).nodup_iff).mpr (readyOther.distinct.sublist (back.left.map _))
  obtain ⟨tidy, tidyOther⟩ := talk.orderly
  obtain ⟨backed, backedOther⟩ := talk.backed rfl (by simp [Side.start])
  obtain ⟨handed, handedOther, -, -⟩ := talk.handed (by simp) distinct distinctOther
  have cut := between.arrived.cut (fun input => (meeting.sooner caller input).earlier) wholly
    whollyOther
  obtain ⟨inside, insideOther⟩ := between.heard.arrived.inside wholly whollyOther
  have trace : (sessionEnd meeting.env (meeting.heard.callerProgram caller) caller.db).trace
      (said.flatMap Event.reads) = said := whole.trace
  have traceOther : (sessionEnd meeting.envOther (meeting.calledProgram called) called.db).trace
      (heard.flatMap Event.reads) = heard := whole.traceOther
  have waiting := ((sessionEnd meeting.env (meeting.heard.callerProgram caller)
    caller.db).trace_waits inside).trans (meeting.sooner caller meeting.input)
  have waitingOther := (sessionEnd meeting.envOther (meeting.calledProgram called)
    called.db).trace_waits insideOther
  rw [trace, traceOther] at cut
  rw [trace] at waiting
  rw [traceOther] at waitingOther
  obtain ⟨knows, sound⟩ := after_knows between.reliable between.young back.sound
    (meeting.callerProgram caller) meeting.input
  obtain ⟨knowsOther, soundOther⟩ := after_knows between.reliableOther between.youngOther
    forth.sound (meeting.calledProgram called) meeting.inputOther
  rw [meeting.callerAfter_open, meeting.calledAfter_open]
  exact ⟨forth.cut ready between.order cut waitingOther tidyOther backed handedOther rfl rfl rfl
      knowsOther soundOther,
    back.cut readyOther between.orderOther cut.swap waiting tidy backedOther handed rfl rfl rfl
      knows sound⟩

end OneSession

/-- After any number of sessions, each cut anywhere: both directions are in order. -/
theorem Corresponded.delivers {first second here there : Station}
    (corresponded : Corresponded first second here there) (ready : first.Ready second)
    (readyOther : second.Ready first) :
    Delivers first second here there ∧ Delivers second first there here := by
  induction corresponded with
  | start => exact ⟨delivers_start readyOther, delivers_start ready⟩
  | calls meeting _ between ih => exact meeting_delivers ready readyOther ih.1 ih.2 between
  | called meeting _ between ih =>
      exact (meeting_delivers readyOther ready ih.2 ih.1 between).symm

theorem remaining_none {outbox offers : List Proposal} {events : List Event}
    (named : ∀ prop ∈ outbox, prop.path = some prop.mid) (order : offers.Perm outbox)
    (all : events.filterMap Event.drops = offers.map Proposal.mid) :
    Station.remaining outbox events = [] := by
  refine List.filter_eq_nil_iff.mpr fun prop member => ?_
  rw [all, named prop member]
  have found : (offers.map Proposal.mid).any (some prop.mid == some ·) = true :=
    List.any_eq_true.mpr ⟨prop.mid, List.mem_map_of_mem (order.symm.subset member), by simp⟩
  rw [found]
  decide

section Ending

variable {first second here there : Station} {meeting : Meeting}

end Ending

end PaclinkUnix
