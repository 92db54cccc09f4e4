import PaclinkUnix.CommandLoop

/-!
What the receiving side does with the database of message identifiers: when it
refuses a proposal as already received, and how often it hands a message to sendmail.
-/

namespace PaclinkUnix

open Effects Effects.Program

/-- An `N` must directly follow a look at the database that really found the message. -/
def refusalBacked (last : Option Event) : Event → Bool
  | .answered mid char =>
      char ≠ 78 || match last with
        | some (.checked asked _ _ held) => asked = mid && held
        | _ => false
  | _ => true

def refusals : Monitor (Option Event) Event where
  start := none
  step := fun _ event => some event
  allowed := fun last event => refusalBacked last event = true

/-- The database could be opened for this look at it, or really held the message. -/
def consulted : Event → Bool
  | .checked _ calls _ held => (calls.create && calls.opens) || held
  | _ => true

def RefusalsMatch (world : World) : Prop :=
  refusals.Accepts world.trace ↔ ∀ event ∈ world.trace, consulted event = true

/-- Events that are neither a look at the database nor an answer. -/
def Event.unasked : Event → Bool
  | .checked _ _ _ _ | .answered _ _ => false
  | _ => true

def Op.unasked : Op → Bool
  | .checkMid _ | .answer _ _ => false
  | _ => true

theorem Op.delivering_unasked {op : Op} (delivering : op.delivering = true) :
    op.unasked = true := by
  cases op <;> first | rfl | cases delivering

theorem refusalsMatch_snoc {world after : World} {event : Event}
    (traced : after.trace = world.trace ++ [event])
    (alike : refusalBacked (refusals.state world.trace) event = true ↔ consulted event = true)
    (holds : RefusalsMatch world) : RefusalsMatch after := by
  have allowed : refusals.allowed (refusals.state world.trace) event ↔ consulted event = true :=
    alike
  rw [RefusalsMatch] at holds
  rw [RefusalsMatch, traced, Monitor.accepts_snoc, holds, allowed]
  simp only [List.mem_append, List.mem_singleton]
  constructor
  · rintro ⟨earlier, asked⟩ other (member | rfl)
    · exact earlier other member
    · exact asked
  · exact fun all => ⟨fun other member => all other (.inl member), all event (.inr rfl)⟩

theorem refusalsMatch_unasked {world after : World} {event : Event}
    (unasked : event.unasked = true) (traced : after.trace = world.trace ++ [event])
    (holds : RefusalsMatch world) : RefusalsMatch after := by
  refine refusalsMatch_snoc traced ?_ holds
  cases event <;> simp_all [Event.unasked, refusalBacked, consulted]

theorem refusalsMatch_kept : KeptByPlain RefusalsMatch := by
  rintro before after holds - (same | ⟨event, plain, traced⟩)
  · rwa [RefusalsMatch, same]
  · refine refusalsMatch_unasked ?_ traced holds
    cases event <;> simp_all [Event.plain, Event.unasked]

theorem Op.unasked_logs {op : Op} {event : Event} (unasked : op.unasked = true)
    (logged : op.logs event = true) : event.unasked = true := by
  cases op <;> cases event <;> simp_all [Op.unasked, Op.logs, Event.unasked]

theorem handle_unasked {env : Env} {op : Op} {world : World} (unasked : op.unasked = true)
    (holds : RefusalsMatch world) : RefusalsMatch (handle env op world).2 := by
  rcases handle_logs env op world with same | ⟨event, logged, traced⟩
  · rwa [RefusalsMatch, same]
  · exact refusalsMatch_unasked (Op.unasked_logs unasked logged) traced holds

theorem ends_callCheckMid {env : Env} {α : Type} {mid : Bytes} {next : Int → Session α}
    {returned : α → World → Prop} {halted : World → Prop} {world : World}
    (failed : (env.dbCalls world.calls).create = false ∨ (env.dbCalls world.calls).opens = false →
      ∀ after : World, after.db = world.db → after.trace = world.trace ++
        [.checked mid (env.dbCalls world.calls) (some (-1))
          (decide (holds (env.clock world.calls) mid world.db))] →
      Ends (handle env) (next (-1)) returned halted after)
    (held : (env.dbCalls world.calls).create = true → (env.dbCalls world.calls).opens = true →
      holds (env.clock world.calls) mid world.db →
      ∀ after : World, after.db = world.db → after.trace = world.trace ++
        [.checked mid (env.dbCalls world.calls) (some found) true] →
      Ends (handle env) (next found) returned halted after)
    (missed : (env.dbCalls world.calls).create = true → (env.dbCalls world.calls).opens = true →
      ((env.dbCalls world.calls).get = true → ¬ holds (env.clock world.calls) mid world.db) →
      ∀ after : World, (after.db = world.db ∨ after.db = Function.update world.db mid none) →
      after.trace = world.trace ++ [.checked mid (env.dbCalls world.calls) (some notFound)
          (decide (holds (env.clock world.calls) mid world.db))] →
      Ends (handle env) (next notFound) returned halted after)
    (corrupt : (env.dbCalls world.calls).create = true → (env.dbCalls world.calls).opens = true →
      world.db mid = some .malformed →
      ∀ after : World, after.db = world.db → after.trace = world.trace ++
        [.checked mid (env.dbCalls world.calls) none false] → halted after) :
    Ends (handle env) (callCheckMid mid >>= next) returned halted world := by
  change Ends (handle env) (Program.call (Op.checkMid mid) next) returned halted world
  rw [ends_call]
  simp only [handle]
  rcases checkMid_cases (env.dbCalls world.calls) (env.clock world.calls) mid world.db with
    ⟨unreached, result⟩ | ⟨create, opens, get, present, result⟩ |
    ⟨create, opens, absent, after, result, left⟩ | ⟨create, opens, get, entry, result⟩
  · rw [result]
    exact failed unreached _ rfl rfl
  · rw [result]
    refine held create opens present _ rfl ?_
    simp [World.log, World.tick, present]
  · rw [result]
    exact missed create opens absent _ left rfl
  · rw [result]
    refine corrupt create opens entry _ rfl ?_
    have absent : ¬ holds (env.clock world.calls) mid world.db := by
      rintro ⟨stored, same, -⟩
      rw [entry] at same
      cases same
    simp [World.log, World.tick, World.stop, absent]

theorem refusalsMatch_answered {world checked after : World} {mid : Bytes} {calls : DbCalls}
    {result : Option Int} {held : Bool} {char : UInt8}
    (asked : checked.trace = world.trace ++ [.checked mid calls result held])
    (answered : after.trace = checked.trace ++ [.answered mid char])
    (honest : (char ≠ 78 ∨ held = true) ↔ (calls.create && calls.opens || held) = true)
    (holds : RefusalsMatch world) : RefusalsMatch after := by
  have looked : refusals.allowed (refusals.state world.trace)
      (.checked mid calls result held) := rfl
  have stepped : refusals.state checked.trace = some (.checked mid calls result held) := by
    rw [asked, Monitor.state_snoc]
    rfl
  have backed : refusals.allowed (refusals.state checked.trace) (.answered mid char) ↔
      (calls.create && calls.opens || held) = true := by
    rw [stepped, ← honest]
    simp [refusals, refusalBacked]
  rw [RefusalsMatch] at holds
  rw [RefusalsMatch, answered, Monitor.accepts_snoc, backed, asked, Monitor.accepts_snoc, holds]
  simp only [looked, and_true, List.mem_append, List.mem_singleton]
  constructor
  · rintro ⟨earlier, consulted⟩ other ((member | rfl) | rfl)
    · exact earlier other member
    · exact consulted
    · rfl
  · intro all
    exact ⟨fun other member => all other (.inl (.inl member)), all _ (.inl (.inr rfl))⟩

theorem ends_answerProposals_refusals {env : Env} (proposals : List Incoming) (world : World)
    (holds : RefusalsMatch world) :
    Ends (handle env) (answerProposals proposals) (fun _ => RefusalsMatch) RefusalsMatch
      world := by
  induction proposals generalizing world with
  | nil => exact holds
  | cons prop rest ih =>
      have answered : ∀ (char : UInt8) (accepted : Bool) (after : World),
          RefusalsMatch (after.log (.answered prop.mid char)) →
          Ends (handle env) (do
            answer prop.mid char
            let rest ← answerProposals rest
            pure ((prop, char, accepted) :: rest)) (fun _ => RefusalsMatch) RefusalsMatch
            after := by
        intro char accepted after logged
        rw [ends_answer]
        exact Ends.bind (ih _ logged) fun _ _ kept => kept
      rw [answerProposals, answerOne]
      split
      · rw [ends_bind]
        refine ends_callCheckMid ?_ ?_ ?_ ?_
        · intro failed after _ traced
          refine answered 78 false after (refusalsMatch_answered traced rfl ?_ holds)
          rcases failed with create | opens <;> simp [*]
        · intro create opens _ after _ traced
          refine answered 78 false after (refusalsMatch_answered traced rfl ?_ holds)
          simp [create, opens]
        · intro create opens _ after _ traced
          refine answered 89 true after (refusalsMatch_answered traced rfl ?_ holds)
          simp [create, opens]
        · intro create opens _ after _ traced
          refine refusalsMatch_snoc traced ?_ holds
          simp [refusalBacked, consulted, create, opens]
      · refine answered 76 false world (refusalsMatch_snoc rfl ?_ holds)
        simp [refusalBacked, consulted]

theorem ends_receiveBatch_refusals (env : Env) (config : Config) (proposals : List Incoming)
    (world : World) (holds : RefusalsMatch world) :
    Ends (handle env) (receiveBatch config proposals) (fun _ => RefusalsMatch) RefusalsMatch
      world := by
  unfold receiveBatch
  split
  · exact holds
  · refine Ends.bind (ends_answerProposals_refusals proposals world holds) ?_
    intro answers after kept
    rw [ends_write]
    exact ((performs_deliverAll config answers).mono fun _ => Op.delivering_unasked).ends
      (fun op before => handle_unasked)
      (refusalsMatch_unasked rfl rfl kept)

/-- A run of the receiving side refuses no message falsely exactly when every look at
the database either could open it or was for a message it holds. -/
theorem refusals_backed_iff (env : Env) (config : Config) (fuel : Nat) (parser : Parser)
    (input : Bytes) (closed : Bool) (db : MidDb) :
    let trace := (run (handle env) (inboundParser config fuel parser)
      (World.start input closed db)).2.trace
    refusals.Accepts trace ↔ ∀ event ∈ trace, consulted event = true := by
  have initially : RefusalsMatch (World.start input closed db) := by
    simp [RefusalsMatch]
  have ends := ends_inboundParser refusalsMatch_kept (fun _ kept => kept)
    (fun proposals world _ _ kept _ =>
      ends_receiveBatch_refusals env config proposals world kept)
    fuel parser _ initially
  simp only [Ends] at ends
  rcases found : run (handle env) (inboundParser config fuel parser)
    (World.start input closed db) with ⟨value, after⟩
  rw [found] at ends
  cases value <;> exact ends

instance (last : Option Event) (event : Event) : Decidable (refusals.allowed last event) :=
  inferInstanceAs (Decidable (refusalBacked last event = true))

def offerLines (props : List Proposal) : Bytes :=
  let lines := (props.map proposalLine).flatten
  lines ++ ascii "F> " ++ hexByte (cksumByte (addBytes 0 lines)).toNat ++ ascii "\r"

def emptyParser : Parser := { props := [], cursor := 0, proposals := [], proposalcksum := 0 }

def failingEnv : Env := { quietEnv with dbCalls := fun _ => { DbCalls.succeed with create := false } }

theorem refusal_on_database_failure :
    ¬ refusals.Accepts (run (handle failingEnv) (inboundParser sampleConfig 10 emptyParser)
      (World.start (offerLines [sampleProposal]) true fun _ => none)).2.trace := by
  decide +kernel

def deliveries (trace : List Event) : List Bytes :=
  trace.filterMap fun event =>
    match event with
    | .delivered mid _ _ => some mid
    | _ => none

/-- No batch asks twice for a message that the database does not hold. -/
def distinctBatches : Monitor (List Bytes) Event where
  start := []
  step := fun missing event =>
    match event with
    | .line _ _ => []
    | .checked mid _ _ held => if held then missing else mid :: missing
    | _ => missing
  allowed := fun missing event =>
    match event with
    | .checked mid _ _ false => mid ∉ missing
    | _ => True

/-- No identifier in the database at the start, and none recorded later, goes out of date. -/
structure NeverExpires (env : Env) (db : MidDb) : Prop where
  stored : ∀ call mid time, db mid = some (.time time) → expired (env.clock call) time = false
  recorded : ∀ call earlier, expired (env.clock call) (env.clock earlier) = false

structure AtMostOnce (db : MidDb) (trace : List Event) : Prop where
  once : (deliveries trace).Nodup
  unrecorded : ∀ mid ∈ deliveries trace, db mid = none

structure Remembered (env : Env) (db : MidDb) (world : World) : Prop where
  delivers : AtMostOnce db world.trace
  known : ∀ mid ∈ deliveries world.trace, world.db mid ≠ none
  grows : ∀ mid, db mid ≠ none → world.db mid ≠ none
  young : NeverExpires env world.db

@[simp] theorem deliveries_append (first second : List Event) :
    deliveries (first ++ second) = deliveries first ++ deliveries second :=
  List.filterMap_append

theorem Remembered.congr {env : Env} {db : MidDb} {before after : World}
    (holds : Remembered env db before) (sameDb : after.db = before.db)
    (same : deliveries after.trace = deliveries before.trace) : Remembered env db after := by
  obtain ⟨⟨once, unrecorded⟩, known, grows, young⟩ := holds
  rw [← same] at once unrecorded known
  rw [← sameDb] at known grows young
  exact ⟨⟨once, unrecorded⟩, known, grows, young⟩

/-- Looking an identifier up changes nothing as long as none is out of date. -/
theorem checkMid_young {env : Env} {db : MidDb} (young : NeverExpires env db) (call : Nat)
    (mid : Bytes) :
    (db mid = some .malformed ∧ checkMid .succeed (env.clock call) mid db = (none, db)) ∨
    (db mid = none ∧ checkMid .succeed (env.clock call) mid db = (some notFound, db)) ∨
    (holds (env.clock call) mid db ∧
      checkMid .succeed (env.clock call) mid db = (some found, db)) := by
  rcases entry : db mid with _ | (stored | _)
  · exact .inr (.inl ⟨rfl, by simp [checkMid, DbCalls.succeed, entry]⟩)
  · have fresh := young.stored call mid stored entry
    exact .inr (.inr ⟨⟨stored, entry, fresh⟩, by simp [checkMid, DbCalls.succeed, entry, fresh]⟩)
  · exact .inl ⟨rfl, by simp [checkMid, DbCalls.succeed, entry]⟩

def acceptedMids (answers : List (Incoming × UInt8 × Bool)) : List Bytes :=
  answers.filterMap fun (prop, _, accepted) => if accepted then some prop.mid else none

/-- What answering a batch leaves: no delivery, the same database, and, if the batch asks
for no missing message twice, accepted messages that are all missing and distinct. -/
structure Answered (before after : World) (answers : List (Incoming × UInt8 × Bool)) :
    Prop where
  db : after.db = before.db
  delivered : deliveries after.trace = deliveries before.trace
  earlier : before.trace <+: after.trace
  missing : ∀ mid ∈ acceptedMids answers, before.db mid = none
  distinct : distinctBatches.Accepts after.trace →
    (acceptedMids answers).Nodup ∧
      ∀ mid ∈ acceptedMids answers, mid ∉ distinctBatches.state before.trace

theorem Answered.refused {before middle after : World} {prop : Incoming} {char : UInt8}
    {answers : List (Incoming × UInt8 × Bool)} (events : List Event)
    (rest : Answered middle after answers) (sameDb : middle.db = before.db)
    (traced : middle.trace = before.trace ++ events) (quiet : deliveries events = [])
    (kept : ∀ missing, events.foldl distinctBatches.step missing = missing) :
    Answered before after ((prop, char, false) :: answers) := by
  have accepted : acceptedMids ((prop, char, false) :: answers) = acceptedMids answers := rfl
  have state : distinctBatches.state middle.trace = distinctBatches.state before.trace := by
    rw [traced, Monitor.state_append, kept]
  refine ⟨rest.db.trans sameDb, ?_, ?_, ?_, ?_⟩
  · rw [rest.delivered, traced, deliveries_append, quiet, List.append_nil]
  · exact (traced ▸ List.prefix_append _ _ : before.trace <+: middle.trace).trans rest.earlier
  · rw [accepted, ← sameDb]
    exact rest.missing
  · rw [accepted, ← state]
    exact rest.distinct

theorem Answered.accepted {before middle after : World} {prop : Incoming} {char : UInt8}
    {answers : List (Incoming × UInt8 × Bool)} (calls : DbCalls) (result : Option Int)
    (rest : Answered middle after answers) (sameDb : middle.db = before.db)
    (traced : middle.trace =
      before.trace ++ [.checked prop.mid calls result false] ++ [.answered prop.mid char])
    (absent : before.db prop.mid = none) :
    Answered before after ((prop, char, true) :: answers) := by
  have looked : before.trace ++ [.checked prop.mid calls result false] <+: after.trace :=
    (traced ▸ List.prefix_append _ _ : _ <+: middle.trace).trans rest.earlier
  have state : distinctBatches.state middle.trace =
      prop.mid :: distinctBatches.state before.trace := by
    rw [traced, Monitor.state_snoc, Monitor.state_snoc]
    rfl
  have accepted : acceptedMids ((prop, char, true) :: answers) =
      prop.mid :: acceptedMids answers := rfl
  refine ⟨rest.db.trans sameDb, ?_, (List.prefix_append _ _).trans looked, ?_, ?_⟩
  · rw [rest.delivered, traced]
    simp [deliveries]
  · intro mid member
    rw [accepted, List.mem_cons] at member
    rcases member with rfl | member
    · exact absent
    · exact sameDb ▸ rest.missing mid member
  · intro accepts
    obtain ⟨nodup, outside⟩ := rest.distinct accepts
    have first : distinctBatches.allowed (distinctBatches.state before.trace)
        (.checked prop.mid calls result false) :=
      ((Monitor.accepts_snoc _ _ _).mp (accepts.of_prefix looked)).2
    rw [state] at outside
    rw [accepted]
    constructor
    · rw [List.nodup_cons]
      exact ⟨fun member => outside prop.mid member (List.mem_cons_self ..), nodup⟩
    · intro mid member
      rw [List.mem_cons] at member
      rcases member with rfl | member
      · exact first
      · exact fun earlier => outside mid member (List.mem_cons_of_mem _ earlier)

theorem ends_answerProposals {env : Env} (succeed : ∀ call, env.dbCalls call = .succeed)
    (proposals : List Incoming) (world : World) (young : NeverExpires env world.db) :
    Ends (handle env) (answerProposals proposals)
      (fun answers after => Answered world after answers)
      (fun after => deliveries after.trace = deliveries world.trace) world := by
  induction proposals generalizing world with
  | nil =>
      exact ⟨rfl, rfl, List.prefix_refl _, by simp [acceptedMids], by simp [acceptedMids]⟩
  | cons prop rest ih =>
      have answered : ∀ (char : UInt8) (accepted : Bool) (middle : World),
          middle.db = world.db → deliveries middle.trace = deliveries world.trace →
          (∀ answers after, Answered (middle.log (.answered prop.mid char)) after answers →
            Answered world after ((prop, char, accepted) :: answers)) →
          Ends (handle env) (do
            answer prop.mid char
            let rest ← answerProposals rest
            pure ((prop, char, accepted) :: rest))
            (fun answers after => Answered world after answers)
            (fun after => deliveries after.trace = deliveries world.trace) middle := by
        intro char accepted middle sameDb same extend
        have logged : deliveries (middle.log (.answered prop.mid char)).trace =
            deliveries world.trace := by simpa [deliveries] using same
        have recent : NeverExpires env (middle.log (.answered prop.mid char)).db := by
          rw [World.db_log, sameDb]
          exact young
        rw [ends_answer, ends_bind]
        refine (ih _ recent).mono ?_ ?_
        · exact fun answers after kept => extend answers after kept
        · exact fun after kept => kept.trans logged
      rw [answerProposals, answerOne]
      split
      · change Ends (handle env) (Program.call (Op.checkMid prop.mid) _) _ _ _
        rw [ends_call]
        simp only [handle, succeed]
        rcases checkMid_young young world.calls prop.mid with
          ⟨entry, result⟩ | ⟨absent, result⟩ | ⟨present, result⟩
        · rw [result]
          simp [World.stop, World.log, World.tick, deliveries]
        · have missing : ¬ holds (env.clock world.calls) prop.mid world.db := by
            rintro ⟨stored, same, -⟩
            rw [absent] at same
            cases same
          rw [result]
          refine answered 89 true _ rfl (by simp [World.tick, deliveries]) ?_
          intro answers after kept
          refine Answered.accepted .succeed (some notFound) kept rfl ?_ absent
          simp [World.log, World.tick, missing]
        · rw [result]
          refine answered 78 false _ rfl (by simp [World.tick, deliveries]) ?_
          intro answers after kept
          refine kept.refused
            [.checked prop.mid .succeed (some found) true, .answered prop.mid 78] rfl ?_ rfl ?_
          · simp [World.log, World.tick, present]
          · exact fun missing => rfl
      · refine answered 76 false world rfl rfl ?_
        intro answers after kept
        exact kept.refused [.answered prop.mid 76] rfl rfl rfl fun missing => rfl

theorem AtMostOnce.deliver {env : Env} {db : MidDb} {world : World} {mid : Bytes}
    {trace : List Event} (holds : Remembered env db world) (absent : world.db mid = none)
    (extended : deliveries trace = deliveries world.trace ++ [mid]) :
    AtMostOnce db trace := by
  have fresh : mid ∉ deliveries world.trace := fun member => holds.known mid member absent
  constructor
  · rw [extended, List.nodup_append]
    refine ⟨holds.delivers.once, List.nodup_singleton mid, ?_⟩
    rintro other member last lastMember rfl
    rw [List.mem_singleton] at lastMember
    exact fresh (lastMember ▸ member)
  · intro other member
    rw [extended, List.mem_append, List.mem_singleton] at member
    rcases member with member | rfl
    · exact holds.delivers.unrecorded other member
    · by_contra recorded
      exact holds.grows other recorded absent

theorem Remembered.deliver {env : Env} {db : MidDb} {world after : World} {mid : Bytes}
    (call : Nat) (holds : Remembered env db world) (absent : world.db mid = none)
    (extended : deliveries after.trace = deliveries world.trace ++ [mid])
    (recorded : after.db = Function.update world.db mid (some (.time (env.clock call)))) :
    Remembered env db after := by
  refine ⟨AtMostOnce.deliver holds absent extended, ?_, ?_, ?_, holds.young.recorded⟩
  · intro other member
    rw [recorded]
    by_cases same : other = mid
    · simp [same]
    · rw [Function.update_of_ne same]
      rw [extended, List.mem_append, List.mem_singleton] at member
      rcases member with member | rfl
      · exact holds.known other member
      · exact absurd rfl same
  · intro other initially
    rw [recorded]
    by_cases same : other = mid
    · simp [same]
    · rw [Function.update_of_ne same]
      exact holds.grows other initially
  · intro later other time entry
    rw [recorded] at entry
    by_cases same : other = mid
    · rw [same, Function.update_self] at entry
      cases entry
      exact holds.young.recorded later call
    · rw [Function.update_of_ne same] at entry
      exact holds.young.stored later other time entry

theorem ends_deliver {env : Env} {db : MidDb} {config : Config}
    (succeed : ∀ call, env.dbCalls call = .succeed) (prop : Incoming) (world : World)
    (holds : Remembered env db world) (absent : world.db prop.mid = none) :
    Ends (handle env) (deliver config prop)
      (fun _ after => Remembered env db after ∧
        ∀ mid, mid ≠ prop.mid → after.db mid = world.db mid)
      (fun after => AtMostOnce db after.trace) world := by
  rw [PaclinkUnix.deliver]
  refine ends_receiveCompressed ?_ fun reason => holds.delivers
  intro received rest read
  generalize framed : World.log _ _ = middle
  have sameDb : middle.db = world.db := by simp [← framed]
  have sameDeliveries : deliveries middle.trace = deliveries world.trace := by
    simp [← framed, deliveries]
  have kept : Remembered env db middle := holds.congr sameDb sameDeliveries
  have missing : middle.db prop.mid = none := by rw [sameDb, absent]
  cases received with
  | none => exact kept.delivers
  | some cbuf =>
      simp only
      split
      · exact kept.delivers
      · split
        · exact kept.delivers
        · rename_i ubuf _ _ mimebuf _
          have recorded : ∀ delivered : World, delivered.db = middle.db →
              deliveries delivered.trace = deliveries middle.trace ++ [prop.mid] →
              Ends (handle env) (do
                let _ ← callRecordMid prop.mid
                pure ()) (fun _ after => Remembered env db after ∧
                  ∀ mid, mid ≠ prop.mid → after.db mid = world.db mid)
                (fun after => AtMostOnce db after.trace) delivered := by
            intro delivered sameLater traced
            simp only [ends_callRecordMid, succeed, recordMid_succeed]
            constructor
            · refine Remembered.deliver delivered.calls kept missing ?_ ?_
              · rw [← traced]
                simp [World.log, World.tick, deliveries]
              · rw [World.db_log, sameLater]
            · intro mid different
              change Function.update delivered.db _ _ mid = _
              rw [Function.update_of_ne different, sameLater, sameDb]
          refine ends_sendmail (fun _ => kept.delivers) fun _ => ?_
          have handed : deliveries (middle.trace ++ [.delivered prop.mid ubuf mimebuf]) =
              deliveries middle.trace ++ [prop.mid] := by simp [deliveries]
          have stopped := AtMostOnce.deliver kept missing handed
          cases env.sendmail middle.calls with
          | popenFailed => exact stopped
          | putcFailed => exact stopped
          | pcloseFailed noChild =>
              cases noChild with
              | true => exact recorded _ rfl handed
              | false => exact stopped
          | status code =>
              simp only
              split
              · exact recorded _ rfl handed
              · exact stopped

theorem ends_deliverAll {env : Env} {db : MidDb} {config : Config}
    (succeed : ∀ call, env.dbCalls call = .succeed)
    (answers : List (Incoming × UInt8 × Bool)) (world : World) (holds : Remembered env db world)
    (nodup : (acceptedMids answers).Nodup)
    (missing : ∀ mid ∈ acceptedMids answers, world.db mid = none) :
    Ends (handle env) (deliverAll config answers) (fun _ => Remembered env db)
      (fun after => AtMostOnce db after.trace) world := by
  induction answers generalizing world with
  | nil => exact holds
  | cons entry rest ih =>
      obtain ⟨prop, char, accepted⟩ := entry
      rw [deliverAll]
      cases accepted with
      | false => exact ih world holds nodup missing
      | true =>
          have mids : acceptedMids ((prop, char, true) :: rest) =
              prop.mid :: acceptedMids rest := rfl
          rw [mids, List.nodup_cons] at nodup
          rw [mids] at missing
          refine Ends.bind (ends_deliver succeed prop world holds
            (missing _ (List.mem_cons_self ..))) ?_
          rintro _ after ⟨remembered, others⟩
          refine ih after remembered nodup.2 ?_
          intro mid member
          have different : mid ≠ prop.mid := fun same => nodup.1 (same ▸ member)
          rw [others mid different]
          exact missing mid (List.mem_cons_of_mem _ member)

theorem ends_receiveBatch {env : Env} {db : MidDb} (config : Config)
    (succeed : ∀ call, env.dbCalls call = .succeed) (proposals : List Incoming) (world : World)
    (raw text : Bytes) (last : world.trace.getLast? = some (.line raw text))
    (holds : distinctBatches.Accepts world.trace → Remembered env db world) :
    Ends (handle env) (receiveBatch config proposals)
      (fun _ after => distinctBatches.Accepts after.trace → Remembered env db after)
      (fun after => distinctBatches.Accepts after.trace → AtMostOnce db after.trace) world := by
  unfold receiveBatch
  split
  · exact holds
  by_cases accepts : distinctBatches.Accepts world.trace
  · have remembered := holds accepts
    have empty : distinctBatches.state world.trace = [] := by
      obtain ⟨earlier, same⟩ := List.getLast?_eq_some_iff.mp last
      rw [same, Monitor.state_snoc]
      rfl
    refine Ends.bind ((ends_answerProposals succeed proposals world remembered.young).mono
      (fun _ _ answered => answered) ?_) ?_
    · intro after same _
      exact ⟨same ▸ remembered.delivers.once, same ▸ remembered.delivers.unrecorded⟩
    · intro answers after answered
      rw [ends_write]
      generalize wrote : World.log _ _ = asked
      have sameDb : asked.db = world.db := by rw [← wrote, World.db_log, answered.db]
      have same : deliveries asked.trace = deliveries world.trace := by
        rw [← wrote, World.trace_log, deliveries_append, answered.delivered]
        simp [deliveries]
      have kept : Remembered env db asked := remembered.congr sameDb same
      by_cases distinct : distinctBatches.Accepts after.trace
      · refine (ends_deliverAll succeed answers asked kept (answered.distinct distinct).1 ?_).mono
          (fun _ _ holds _ => holds) (fun _ holds _ => holds)
        rw [sameDb]
        exact answered.missing
      · have repeated : ¬ distinctBatches.Accepts asked.trace := by
          rw [← wrote, World.trace_log, Monitor.accepts_snoc]
          exact fun both => distinct both.1
        exact (ends_rejected env _ (deliverAll config answers) asked repeated).mono
          (fun _ _ never holds => absurd holds never) (fun _ never holds => absurd holds never)
  · exact (ends_rejected env _ _ world accepts).mono
      (fun _ _ never holds => absurd holds never) (fun _ never holds => absurd holds never)

theorem remembered_kept (env : Env) (db : MidDb) :
    KeptByPlain fun world => distinctBatches.Accepts world.trace → Remembered env db world := by
  rintro before after holds sameDb (same | ⟨event, plain, traced⟩) accepts
  · rw [same] at accepts
    exact (holds accepts).congr sameDb (congrArg deliveries same)
  · rw [traced, Monitor.accepts_snoc] at accepts
    refine (holds accepts.1).congr sameDb ?_
    rw [traced]
    cases event <;> simp_all [Event.plain, deliveries]

/-- As long as no batch proposes twice a message that is missing from the database, a run
of the receiving side hands every message to sendmail at most once, and never one that
was recorded before. -/
theorem delivers_at_most_once (env : Env) (config : Config) (fuel : Nat) (parser : Parser)
    (input : Bytes) (closed : Bool) (db : MidDb)
    (succeed : ∀ call, env.dbCalls call = .succeed) (young : NeverExpires env db)
    (distinct : distinctBatches.Accepts (run (handle env) (inboundParser config fuel parser)
      (World.start input closed db)).2.trace) :
    AtMostOnce db (run (handle env) (inboundParser config fuel parser)
      (World.start input closed db)).2.trace := by
  have initially : Remembered env db (World.start input closed db) :=
    ⟨⟨List.nodup_nil, by simp [deliveries]⟩, by simp [deliveries], fun _ holds => holds, young⟩
  have ends := ends_inboundParser (remembered_kept env db)
    (fun _ holds accepts => (holds accepts).delivers)
    (fun proposals world raw text holds last =>
      ends_receiveBatch config succeed proposals world raw text last holds)
    fuel parser _ fun _ => initially
  simp only [Ends] at ends
  rcases found : run (handle env) (inboundParser config fuel parser)
    (World.start input closed db) with ⟨value, after⟩
  rw [found] at ends distinct
  cases value with
  | none => exact ends distinct
  | some value => exact (ends distinct).delivers

instance (missing : List Bytes) (event : Event) :
    Decidable (distinctBatches.allowed missing event) :=
  match event with
  | .checked mid _ _ false => inferInstanceAs (Decidable (mid ∉ missing))
  | .checked _ _ _ true => .isTrue trivial
  | .line _ _ | .frame _ _ | .wrote _ _ | .unlinked _ | .answered _ _ | .delivered _ _ _
  | .recorded _ _ => .isTrue trivial

/-- A message that is offered again, with another, in a later batch. -/
def offeredAgain : World :=
  World.start (offerLines [sampleProposal] ++ frame sampleProposal ++ ascii "; again\r" ++
    offerLines (sampleProposal :: sampleOutbox.take 1) ++
    ((sampleOutbox.take 1).map frame).flatten) true fun _ => none

def offeredTwice : World :=
  World.start (offerLines [sampleProposal, sampleProposal] ++ frame sampleProposal ++
    frame sampleProposal) true fun _ => none

theorem delivers_at_most_once_sample :
    AtMostOnce (fun _ => none)
      (run (handle quietEnv) (inboundParser sampleConfig 10 emptyParser) offeredAgain).2.trace :=
  delivers_at_most_once quietEnv sampleConfig 10 emptyParser _ true (fun _ => none)
    (fun _ => rfl)
    ⟨fun _ _ _ stored => (by cases stored), fun _ _ => rfl⟩ (by decide +kernel)

theorem delivered_twice_in_one_batch :
    (∀ call, quietEnv.dbCalls call = .succeed) ∧ NeverExpires quietEnv (fun _ => none) ∧
      ¬ AtMostOnce (fun _ => none)
        (run (handle quietEnv) (inboundParser sampleConfig 10 emptyParser) offeredTwice).2.trace := by
  refine ⟨fun _ => rfl, ⟨fun _ _ _ stored => (by cases stored), fun _ _ => rfl⟩, ?_⟩
  intro holds
  have repeated : ¬ (deliveries (run (handle quietEnv)
      (inboundParser sampleConfig 10 emptyParser) offeredTwice).2.trace).Nodup := by
    decide +kernel
  exact repeated holds.once

end PaclinkUnix
