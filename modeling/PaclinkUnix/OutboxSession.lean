import PaclinkUnix.OutboxSafety

/-!
Outbox safety of whole sessions: the deletion of confirmed messages, the command
loop, the handshakes, and the runs of `wl2k_exchange` and `wl2kd_exchange`.
-/

namespace PaclinkUnix

open Effects Effects.Program

variable {env : Env} {origin props : List Proposal} {cursor : Nat}

/-- The operations that offer, send and delete nothing and dereference no NULL. -/
def Op.calm : Op → Bool
  | .write .command _ | .write .answers _ => true
  | .write _ _ | .unlink _ | .halt .fault => false
  | _ => true

def Event.calm : Event → Bool
  | .wrote .command _ | .wrote .answers _ => true
  | .wrote _ _ | .unlinked _ => false
  | _ => true

theorem handle_calm {op : Op} {world : World} (calm : op.calm = true) :
    (handle env op world).2.trace = world.trace ∨
      ∃ event, event.calm = true ∧ (handle env op world).2.trace = world.trace ++ [event] := by
  have logs := handle_logs env op world
  cases op with
  | write what bytes =>
      cases what with
      | command => exact .inr ⟨.wrote .command bytes, rfl, rfl⟩
      | answers => exact .inr ⟨.wrote .answers bytes, rfl, rfl⟩
      | _ => cases calm
  | unlink path => cases calm
  | halt reason => exact .inl rfl
  | _ =>
      rcases logs with same | ⟨event, logged, traced⟩
      · exact .inl same
      · refine .inr ⟨event, ?_, traced⟩
        cases event <;> simp_all [Op.logs, Event.calm]

theorem Ledger.confirm_fields (origin : List Proposal) (ledger : Ledger) (text : Bytes) :
    ∃ acknowledged, ledger.confirm origin text = { ledger with acknowledged := acknowledged } := by
  rw [Ledger.confirm]
  split
  · exact ⟨ledger.acknowledged, rfl⟩
  · exact ⟨_, rfl⟩

theorem Resting.confirm {ledger : Ledger} (resting : Resting origin props cursor ledger)
    (text : Bytes) : Resting origin props cursor (ledger.confirm origin text) := by
  obtain ⟨acknowledged, same⟩ := ledger.confirm_fields origin text
  rw [same]
  exact ⟨resting.unmarked, resting.inside, resting.phase, resting.counted, resting.complete,
    resting.settled, resting.fresh⟩

theorem Resting.step_line {ledger : Ledger} (resting : Resting origin props cursor ledger)
    (raw text : Bytes) : Ledger.step origin ledger (.line raw text) = ledger.confirm origin text := by
  have phase : ledger.phase ≠ .awaiting := by
    rcases resting.phase with answered | ⟨offering, -⟩ <;> simp [*]
  rw [Ledger.step, if_neg phase]

theorem Steady.calm {world after : World} {event : Event}
    (steady : Steady origin props cursor world) (calm : event.calm = true)
    (traced : after.trace = world.trace ++ [event]) : Steady origin props cursor after := by
  have allowed : (outboxSafety origin).allowed (ledgerAt origin world) event := by
    cases event with
    | wrote what bytes => cases what <;> first | exact steady.resting.complete | cases calm
    | unlinked path => cases calm
    | _ => exact steady.resting.complete
  refine ⟨(safe_snoc world event traced).mpr ⟨steady.safe, allowed⟩, ?_⟩
  rw [ledgerAt_snoc world event traced]
  cases event with
  | line raw text =>
      rw [steady.resting.step_line]
      exact steady.resting.confirm text
  | wrote what bytes => cases what <;> first | exact steady.resting | cases calm
  | unlinked path => cases calm
  | _ => exact steady.resting

theorem Steady.of_trace {world after : World} (steady : Steady origin props cursor world)
    (same : after.trace = world.trace) : Steady origin props cursor after := by
  obtain ⟨safe, resting⟩ := steady
  rw [Safe, ← same] at safe
  rw [ledgerAt, ← same] at resting
  exact ⟨safe, resting⟩

theorem ends_calm {α : Type} {program : Session α} {world : World}
    (calm : Performs (fun op => op.calm = true) program)
    (steady : Steady origin props cursor world) :
    Ends (handle env) program (fun _ after => Steady origin props cursor after)
      (Steady origin props cursor) world := by
  refine calm.ends ?_ steady
  intro op before calm steady
  rcases handle_calm calm with same | ⟨event, calm, traced⟩
  · exact steady.of_trace same
  · exact steady.calm calm traced

def Proposal.cleared (prop : Proposal) : Proposal :=
  match prop.delete, prop.path with
  | true, some _ => { prop with delete := false }
  | _, _ => prop

theorem cleared_unmarked (prop : Proposal) : prop.cleared.unmarked = prop.unmarked := by
  rw [Proposal.cleared]
  split <;> rfl

theorem cleared_delete {prop : Proposal} (kept : prop.cleared.delete = true) :
    prop.delete = true := by
  rw [Proposal.cleared] at kept
  split at kept
  · cases kept
  · exact kept

theorem cleared_mid (prop : Proposal) : prop.cleared.mid = prop.mid :=
  (Proposal.unmarked_fields (cleared_unmarked prop)).1

theorem ends_dodelete (props : List Proposal) (cursor : Nat) (world : World)
    (inside : cursor ≤ props.length) (safe : Safe origin world)
    (confirmed : ∀ prop ∈ props.take cursor, prop.delete = true → ∀ path, prop.path = some path →
      (ledgerAt origin world).acknowledged path = true) :
    Ends (handle env) (dodelete props cursor)
      (fun result after => result = (props.take cursor).map Proposal.cleared ++ props.drop cursor ∧
        Safe origin after ∧ ledgerAt origin after = ledgerAt origin world)
      (fun _ => False) world := by
  induction cursor generalizing props world with
  | zero =>
      unfold dodelete
      exact ⟨rfl, safe, rfl⟩
  | succ cursor ih =>
      cases props with
      | nil => simp at inside
      | cons prop next =>
          rw [dodelete]
          have first : Ends (handle env) (deleteOne prop)
              (fun result after => result = prop.cleared ∧ Safe origin after ∧
                ledgerAt origin after = ledgerAt origin world) (fun _ => False) world := by
            have unlinks := confirmed prop (by simp)
            rw [deleteOne, Proposal.cleared]
            cases flag : prop.delete with
            | false => exact ⟨rfl, safe, rfl⟩
            | true =>
                cases found : prop.path with
                | none => exact ⟨rfl, safe, rfl⟩
                | some path =>
                    simp only [ends_unlink]
                    exact ⟨rfl, (safe_snoc world (.unlinked path) rfl).mpr
                      ⟨safe, unlinks flag path found⟩, ledgerAt_snoc world (.unlinked path) rfl⟩
          refine Ends.bind first ?_
          rintro _ middle ⟨rfl, kept, same⟩
          refine Ends.bind (ih next middle (by simpa using inside) kept ?_) ?_
          · intro other member flag path found
            rw [same]
            exact confirmed other (by simp [member]) flag path found
          · rintro _ after ⟨rfl, later, ledger⟩
            exact ⟨by simp, later, ledger.trans same⟩

theorem Resting.cleared {ledger : Ledger} (resting : Resting origin props cursor ledger) :
    Resting origin ((props.take cursor).map Proposal.cleared ++ props.drop cursor) cursor
      ledger := by
  have start : ((props.take cursor).map Proposal.cleared).length = cursor := by
    rw [List.length_map]
    exact List.length_take_of_le resting.inside
  refine ⟨?_, by simp [resting.inside], resting.phase, resting.counted, resting.complete, ?_, ?_⟩
  · rw [List.map_append, List.map_map]
    have same : Proposal.unmarked ∘ Proposal.cleared = Proposal.unmarked :=
      funext cleared_unmarked
    rw [same, ← List.map_append, List.take_append_drop]
    exact resting.unmarked
  · intro prop member flag
    rw [List.take_left' start] at member
    obtain ⟨source, inside, rfl⟩ := List.mem_map.mp member
    rw [cleared_mid]
    exact resting.settled source inside (cleared_delete flag)
  · rw [List.drop_left' start]
    exact resting.fresh

/-- A command line was read last, so everything settled is confirmed. -/
def Confirmed (origin : List Proposal) (world : World) : Prop :=
  ∀ mid, (ledgerAt origin world).settled origin mid = true →
    (ledgerAt origin world).acknowledged mid = true

theorem ends_deleteTurn (prepared : Prepared origin) (parser : Parser) (world : World)
    (steady : Steady origin parser.props parser.cursor world)
    (confirmed : Confirmed origin world) :
    Ends (handle env) (deleteTurn parser)
      (fun result after => ∃ props, result = { parser with props := props } ∧
        Steady origin props parser.cursor after)
      (fun _ => False) world := by
  rw [deleteTurn]
  refine Ends.bind (ends_dodelete parser.props parser.cursor world steady.resting.inside
    steady.safe ?_) ?_
  · intro prop member flag path found
    have fields := prepared_member prepared steady.resting.unmarked (List.mem_of_mem_take member)
    obtain rfl : prop.mid = path := by
      have same := fields.2.1.symm.trans found
      exact Option.some.inj same
    exact confirmed prop.mid (steady.resting.settled prop member flag)
  · rintro _ after ⟨rfl, safe, ledger⟩
    refine ⟨_, rfl, safe, ?_⟩
    rw [ledger]
    exact steady.resting.cleared

def Round.onward : Round → Prop
  | .again _ => True
  | .returns value _ => value ≠ 0

theorem outboundTurn_value (fuel : Nat) (line : Bytes) (parser : Parser) (world : World) :
    Ends (handle env) (outboundTurn fuel line parser) (fun round _ => round.onward)
      (fun _ => True) world := by
  refine Ends.bind ends_true fun result _ _ => ?_
  simp only
  split
  · assumption
  · trivial

theorem inboundCommand_value (config : Config) (fuel : Nat) (parser : Parser) (line : Bytes)
    (world : World) :
    Ends (handle env) (inboundCommand config fuel parser line) (fun round _ => round.onward)
      (fun _ => True) world := by
  have turns : ∀ (parser : Parser) (after : World),
      Ends (handle env) (outboundTurn fuel line parser) (fun round _ => round.onward)
        (fun _ => True) after := outboundTurn_value fuel line
  unfold inboundCommand
  split
  · trivial
  split
  · trivial
  split
  · refine Ends.bind ends_true fun _ _ _ => ?_
    split
    · trivial
    · split <;> trivial
  split
  · exact Ends.bind ends_true fun _ after _ => turns _ after
  split
  · exact (by decide : (-1 : Int) ≠ 0)
  split
  · exact Ends.bind ends_true fun _ _ _ => (by decide : (-1 : Int) ≠ 0)
  split
  · split
    · trivial
    · split
      · trivial
      · exact Ends.bind ends_true fun _ after _ => turns _ after
  · rw [ends_strayBytes]
    split
    · exact Ends.bind ends_true fun _ after _ => turns _ after
    · trivial

theorem inboundParser_value (config : Config) (fuel : Nat) (parser : Parser) (world : World) :
    Ends (handle env) (inboundParser config fuel parser) (fun result _ => result.1 ≠ 0)
      (fun _ => True) world := by
  induction fuel generalizing parser world with
  | zero => trivial
  | succ fuel ih =>
      rw [inboundParser]
      refine ends_getline (fun line rest _ => ?_) (fun _ => trivial) trivial
      refine Ends.bind (inboundCommand_value config fuel parser line _) ?_
      intro round after onward
      cases round with
      | again parser => exact ih parser after
      | returns value parser => exact onward

def Round.parser : Round → Parser
  | .again parser => parser
  | .returns _ parser => parser

def RoundKept (origin : List Proposal) (round : Round) (after : World) : Prop :=
  Settling origin after → Steady origin round.parser.props round.parser.cursor after

theorem ends_outboundTurn (prepared : Prepared origin) (fuel : Nat) (line : Bytes)
    (parser : Parser) (world : World)
    (steady : Steady origin parser.props parser.cursor world) :
    Ends (handle env) (outboundTurn fuel line parser) (RoundKept origin)
      (fun after => Settling origin after → Sound origin after) world := by
  rw [outboundTurn]
  refine Ends.bind (ends_b2outboundproposal prepared fuel line world steady) ?_
  intro result after kept
  simp only
  split <;> exact kept

theorem performs_receiveBatch (config : Config) (proposals : List Incoming) :
    Performs (fun op => op.calm = true) (receiveBatch config proposals) := by
  have answers : ∀ proposals : List Incoming,
      Performs (fun op => op.calm = true) (answerProposals proposals) := by
    intro proposals
    induction proposals with
    | nil => trivial
    | cons prop rest ih =>
        rw [answerProposals]
        refine Performs.bind ?_ fun _ => Performs.bind ⟨rfl, fun _ => trivial⟩ fun _ =>
          Performs.bind ih fun _ => trivial
        rw [answerOne]
        split
        · refine Performs.bind ⟨rfl, fun _ => trivial⟩ fun result => ?_
          split <;> trivial
        · trivial
  unfold receiveBatch
  split
  · trivial
  · refine Performs.bind (answers proposals) fun _ => Performs.bind ⟨rfl, fun _ => trivial⟩
      fun _ => (performs_deliverAll config _).mono ?_
    intro op delivering
    cases op with
    | halt reason => cases reason <;> first | rfl | cases delivering
    | _ => first | rfl | cases delivering

theorem ends_inboundCommand_outbox (prepared : Prepared origin) (config : Config) (fuel : Nat)
    (parser : Parser) (line : Bytes) (world : World)
    (steady : Steady origin parser.props parser.cursor world)
    (confirmed : strbegins line (ascii ";") = false → line.length ≠ 0 → Confirmed origin world) :
    Ends (handle env) (inboundCommand config fuel parser line) (RoundKept origin)
      (fun after => Settling origin after → Sound origin after) world := by
  have stopped : ∀ {after : World} {props : List Proposal} {cursor : Nat} (reason : Halt),
      Steady origin props cursor after →
      Settling origin (after.stop reason) → Sound origin (after.stop reason) := by
    intro after props cursor reason kept _
    exact ⟨kept.safe, fun _ => kept.resting.complete⟩
  unfold inboundCommand
  split
  · exact fun _ => steady
  rename_i notComment
  split
  · exact fun _ => steady
  rename_i notEmpty
  have settledAll : Confirmed origin world := confirmed (by simpa using notComment) notEmpty
  have deletes : ∀ {world : World}, Steady origin parser.props parser.cursor world →
      Confirmed origin world → ∀ {next : Parser → Session Round},
      (∀ props after, Steady origin props parser.cursor after →
        Ends (handle env) (next { parser with props := props }) (RoundKept origin)
          (fun after => Settling origin after → Sound origin after) after) →
      Ends (handle env) (deleteTurn parser >>= next) (RoundKept origin)
        (fun after => Settling origin after → Sound origin after) world := by
    intro world steady confirmed next rest
    refine Ends.bind ((ends_deleteTurn prepared parser world steady confirmed).mono
      (fun _ _ holds => holds) fun _ impossible => impossible.elim) ?_
    rintro _ after ⟨props, rfl, kept⟩
    exact rest props after kept
  split
  · refine deletes steady settledAll fun props after kept => ?_
    split
    · exact stopped _ kept
    · split
      · exact stopped _ kept
      · exact fun _ => kept
  split
  · exact deletes steady settledAll fun props after kept =>
      ends_outboundTurn prepared fuel line _ after kept
  split
  · exact fun _ => steady
  split
  · exact deletes steady settledAll fun props after kept _ => kept
  split
  · split
    · rw [ends_write]
      exact fun _ => steady.calm rfl rfl
    · split
      · exact stopped _ steady
      · refine Ends.bind ((ends_calm (performs_receiveBatch config parser.proposals)
          steady).mono (fun _ _ holds => holds) fun _ holds _ => holds.sound) ?_
        exact fun _ after kept => ends_outboundTurn prepared fuel line _ after kept
  · rw [ends_strayBytes]
    have ticked : Steady origin parser.props parser.cursor world.tick := steady.of_trace rfl
    split
    · exact deletes ticked settledAll fun props after kept =>
        ends_outboundTurn prepared fuel line _ after kept
    · exact stopped _ ticked

theorem confirmed_line {world after : World} {raw text : Bytes}
    (steady : Steady origin props cursor world)
    (traced : after.trace = world.trace ++ [.line raw text])
    (command : strbegins text (ascii ";") = false) (positive : text.length ≠ 0) :
    Confirmed origin after := by
  intro mid settled
  have nonempty : text.isEmpty = false := by
    cases text with
    | nil => exact absurd rfl positive
    | cons _ _ => rfl
  rw [ledgerAt_snoc world _ traced, steady.resting.step_line, Ledger.confirm] at settled ⊢
  simp only [command, nonempty, Bool.or_self, Bool.false_eq_true, if_false, Bool.or_eq_true]
    at settled ⊢
  exact .inr settled

theorem ends_inboundParser_outbox (prepared : Prepared origin) (config : Config) (fuel : Nat)
    (parser : Parser) (world : World)
    (steady : Steady origin parser.props parser.cursor world) :
    Ends (handle env) (inboundParser config fuel parser)
      (fun result after =>
        Settling origin after → Steady origin result.2.props result.2.cursor after)
      (fun after => Settling origin after → Sound origin after) world := by
  induction fuel generalizing parser world with
  | zero => exact fun _ => ⟨steady.safe, fun _ => steady.resting.complete⟩
  | succ fuel ih =>
      rw [inboundParser]
      refine ends_getline ?_ ?_ ?_
      · intro line rest read
        generalize logged : World.log _ _ = after
        have traced : after.trace = world.trace ++ [.line (taken world.input rest) line] := by
          rw [← logged]
          rfl
        have kept : Steady origin parser.props parser.cursor after := steady.calm rfl traced
        refine Ends.bind (ends_inboundCommand_outbox prepared config fuel parser line after kept
          fun command some => confirmed_line steady traced command some) ?_
        intro round later held
        cases round with
        | again parser =>
            by_cases settling : Settling origin later
            · exact ih parser later (held settling)
            · exact (ends_rejected env (settlingAnswers origin) _ later settling).mono
                (fun _ _ never holds => absurd holds never) fun _ never holds => absurd holds never
        | returns value parser => exact held
      · exact fun _ _ => ⟨steady.safe, fun _ => steady.resting.complete⟩
      · exact fun _ => ⟨steady.safe, fun _ => steady.resting.complete⟩

theorem performs_call {α : Type} {op : Op} {next : op.Answer → Session α}
    (calm : op.calm = true) (rest : ∀ answer, Performs (fun op => op.calm = true) (next answer)) :
    Performs (fun op => op.calm = true) (Program.perform op >>= next) :=
  ⟨calm, rest⟩

theorem performs_exit {α : Type} (message : String) :
    Performs (fun op => op.calm = true) (exit message : Session α) :=
  ⟨rfl, fun impossible => impossible.elim⟩

theorem performs_outOfFuel {α : Type} :
    Performs (fun op => op.calm = true) (halt .outOfFuel : Session α) :=
  ⟨rfl, fun impossible => impossible.elim⟩

theorem performs_command (bytes : Bytes) :
    Performs (fun op => op.calm = true) (write .command bytes) :=
  ⟨rfl, fun _ => trivial⟩

theorem performs_parseInboundsid (line : Bytes) :
    Performs (fun op => op.calm = true) (parseInboundsid line) := by
  unfold parseInboundsid
  split
  · exact performs_exit _
  · split
    · exact performs_exit _
    · simp only
      split
      · trivial
      · exact performs_exit _

theorem performs_secureLogin (config : Config) (challenge : Bytes) :
    Performs (fun op => op.calm = true) (sendSecureLoginResponse config challenge) := by
  unfold sendSecureLoginResponse
  split
  · split
    · exact Performs.bind (performs_command _) fun _ => Performs.bind (performs_command _)
        fun _ => trivial
    · trivial
  · trivial

theorem performs_identify (codes text : Bytes) :
    Performs (fun op => op.calm = true) (identify codes text) := by
  unfold identify
  split
  · exact performs_command _
  · trivial

theorem performs_endsInPrompt (line : Bytes) :
    Performs (fun op => op.calm = true) (endsInPrompt line) := by
  unfold endsInPrompt
  split
  · trivial
  · exact performs_call rfl fun _ => trivial

theorem performs_handshake (config : Config) (fuel : Nat) (codes : Option Bytes)
    (challenge : Bytes) :
    Performs (fun op => op.calm = true) (handshake config fuel codes challenge) := by
  induction fuel generalizing codes challenge with
  | zero => exact performs_outOfFuel
  | succ fuel ih =>
      rw [handshake]
      refine performs_call rfl fun next => ?_
      cases next with
      | none => exact performs_exit _
      | some line =>
          simp only
          split
          · exact Performs.bind (performs_parseInboundsid line) fun _ => ih _ _
          · split
            · split <;> exact ih _ _
            · refine Performs.bind (performs_endsInPrompt line) fun prompt => ?_
              split
              · split
                · exact performs_exit _
                · refine Performs.bind (performs_secureLogin config challenge) fun sent => ?_
                  refine Performs.bind (performs_identify _ _) fun _ => ?_
                  split
                  · trivial
                  · exact Performs.bind (performs_command _) fun _ => trivial
              · exact ih _ _

theorem performs_skipLines (start : Bytes) (fuel : Nat) (line : Bytes) :
    Performs (fun op => op.calm = true) (skipLines start fuel line) := by
  induction fuel generalizing line with
  | zero =>
      rw [skipLines]
      split
      · exact performs_outOfFuel
      · trivial
  | succ fuel ih =>
      rw [skipLines]
      split
      · refine performs_call rfl fun next => ?_
        cases next with
        | none => exact performs_exit _
        | some line => exact ih line
      · trivial

theorem performs_handshakeNoSecureLogin (config : Config) (opropcount fuel : Nat)
    (codes : Option Bytes) :
    Performs (fun op => op.calm = true)
      (handshakeNoSecureLogin config opropcount fuel codes) := by
  induction fuel generalizing codes with
  | zero => exact performs_outOfFuel
  | succ fuel ih =>
      rw [handshakeNoSecureLogin]
      refine performs_call rfl fun next => ?_
      cases next with
      | none => exact performs_exit _
      | some line =>
          refine Performs.bind (performs_skipLines _ fuel line) fun line => ?_
          split
          · exact Performs.bind (performs_parseInboundsid line) fun _ => trivial
          · split
            · split
              · exact ih codes
              · trivial
            · refine Performs.bind (performs_endsInPrompt line) fun prompt => ?_
              split
              · split
                · exact performs_exit _
                · exact Performs.bind (performs_identify _ _) fun _ =>
                    Performs.bind (performs_command _) fun _ => trivial
              · exact ih codes

theorem performs_p2pStartmsg (config : Config) (props : List Proposal) :
    Performs (fun op => op.calm = true) (p2pStartmsg config props) := by
  unfold p2pStartmsg
  split
  · exact performs_command _
  · exact Performs.bind (performs_command _) fun _ => performs_command _

theorem steady_start (origin : List Proposal) (input : Bytes) (closed : Bool) (db : MidDb) :
    Steady origin origin 0 (World.start input closed db) := by
  refine ⟨trivial, rfl, Nat.zero_le _, .inr ⟨rfl, rfl⟩, rfl, ?_, ?_, ?_⟩
  · intro mid member
    cases member
  · intro prop member
    simp at member
  · exact fun prop member => ⟨rfl, rfl⟩

theorem ends_unsettled {α : Type} {program : Session α} {returned : α → World → Prop}
    {halted : World → Prop} {world : World} (unsettled : ¬ Settling origin world) :
    Ends (handle env) program (fun value after => Settling origin after → returned value after)
      (fun after => Settling origin after → halted after) world :=
  (ends_rejected env (settlingAnswers origin) program world unsettled).mono
    (fun _ _ never holds => absurd holds never) fun _ never holds => absurd holds never

theorem ends_wl2kExchange (prepared : Prepared origin) (selects : List Selected)
    (config : Config) (fuel : Nat) (world : World) (steady : Steady origin origin 0 world) :
    Ends (handle env) (wl2kExchange selects config fuel origin)
      (fun _ after => Settling origin after → Sound origin after)
      (fun after => Settling origin after → Sound origin after) world := by
  rw [wl2kExchange]
  refine Ends.bind ((ends_calm (performs_handshake config fuel none []) steady).mono
    (fun _ _ holds => holds) fun _ holds _ => holds.sound) ?_
  intro line greeted kept
  rw [clientSession]
  refine Ends.bind (ends_b2outboundproposal prepared fuel line greeted kept) ?_
  rintro ⟨ret, props, cursor⟩ after turned
  by_cases settling : Settling origin after
  · have later := turned settling
    simp only
    split
    · exact fun _ => later.sound
    · split
      · exact fun _ => ⟨later.safe, fun _ => later.resting.complete⟩
      · exact fun _ => later.sound
      · refine Ends.bind (ends_inboundParser_outbox prepared config fuel _ after later) ?_
        exact fun _ _ ended settling => (ended settling).sound
  · exact ends_unsettled settling

theorem ends_wl2kdExchange (prepared : Prepared origin) (config : Config) (fuel : Nat)
    (world : World) (steady : Steady origin origin 0 world) :
    Ends (handle env) (wl2kdExchange config fuel origin)
      (fun _ after => Settling origin after → Sound origin after)
      (fun after => Settling origin after → Sound origin after) world := by
  rw [wl2kdExchange]
  refine Ends.bind ((ends_calm (performs_p2pStartmsg config origin) steady).mono
    (fun _ _ holds => holds) fun _ holds _ => holds.sound) ?_
  intro _ started kept
  refine Ends.bind ((ends_calm (performs_handshakeNoSecureLogin config origin.length fuel none)
    kept).mono (fun _ _ holds => holds) fun _ holds _ => holds.sound) ?_
  intro line greeted kept
  rw [daemonSession]
  refine Ends.bind (((inboundParser_value config fuel _ greeted).and
    (ends_inboundParser_outbox prepared config fuel
      { props := origin, cursor := 0, proposals := [], proposalcksum := 0 } greeted kept)).mono
      (fun _ _ holds => holds) fun _ holds => holds.2) ?_
  rintro ⟨value, parser⟩ after ⟨onward, ended⟩
  simp only [if_neg onward]
  exact fun settling => (ended settling).sound

/-- In every session whose peer settles each batch it is offered, whatever else it sends
and wherever the session stops, bodies are written only for accepted messages, every
accepted message of a batch is written to its end, and files are unlinked only when
their outcome is settled and confirmed. -/
theorem outbox_safety (env : Env) (config : Config) (fuel : Nat) (props : List Proposal)
    (prepared : Prepared props) (input : Bytes) (closed : Bool) (db : MidDb)
    (selects : List Selected)
    (exchange : Config → Nat → List Proposal → Session (List Proposal × Nat))
    (either : exchange = wl2kExchange selects ∨ exchange = wl2kdExchange)
    (settling : Settling props
      (run (handle env) (exchange config fuel props) (World.start input closed db)).2) :
    Sound props
      (run (handle env) (exchange config fuel props) (World.start input closed db)).2 := by
  have steady := steady_start props input closed db
  have ends : Ends (handle env) (exchange config fuel props)
      (fun _ after => Settling props after → Sound props after)
      (fun after => Settling props after → Sound props after) (World.start input closed db) := by
    rcases either with rfl | rfl
    · exact ends_wl2kExchange prepared selects config fuel _ steady
    · exact ends_wl2kdExchange prepared config fuel _ steady
  simp only [Ends] at ends
  rcases found : run (handle env) (exchange config fuel props) (World.start input closed db)
    with ⟨value, after⟩
  rw [found] at ends settling
  cases value <;> exact ends settling

instance (props : List Proposal) (ledger : Ledger) : Decidable (ledger.Complete props) :=
  inferInstanceAs (Decidable (∀ mid ∈ ledger.batch, _ → _))

instance (props : List Proposal) (ledger : Ledger) (event : Event) :
    Decidable ((outboxSafety props).allowed ledger event) :=
  match event with
  | .wrote (.body mid) _ => inferInstanceAs (Decidable (ledger.verdict mid = some .accept))
  | .unlinked path => inferInstanceAs (Decidable (ledger.acknowledged path = true))
  | .wrote .command _ | .wrote (.proposal _) _ | .wrote .batchEnd _ | .wrote .answers _
  | .line _ _ | .frame _ _ | .checked _ _ _ _ | .answered _ _ | .delivered _ _ _
  | .recorded _ _ => inferInstanceAs (Decidable (ledger.Complete props))

instance (props : List Proposal) (ledger : Ledger) (event : Event) :
    Decidable ((settlingAnswers props).allowed ledger event) :=
  match event with
  | .line _ text => inferInstanceAs (Decidable (ledger.phase = .awaiting →
      strbegins text (ascii "FS ") = true → _ ∨ _))
  | .wrote _ _ | .unlinked _ | .frame _ _ | .checked _ _ _ _ | .answered _ _
  | .delivered _ _ _ | .recorded _ _ => .isTrue trivial

instance (props : List Proposal) (world : World) : Decidable (Safe props world) :=
  inferInstanceAs (Decidable ((outboxSafety props).Accepts world.trace))

instance (props : List Proposal) (world : World) : Decidable (Settling props world) :=
  inferInstanceAs (Decidable ((settlingAnswers props).Accepts world.trace))

theorem samplePrepared : Prepared sampleOutbox := ⟨by decide +kernel, by decide +kernel⟩

/-- A peer that greets, gives one answer to the batch and then has nothing to send. -/
def answering (answer : Bytes) : World :=
  World.start (ascii "[WL2K-1-B2FHM$]\rCMS>\rFS " ++ answer ++ ascii "\rFF\rFQ\r") true
    fun _ => none

def answeringTwice : World :=
  World.start (ascii "[WL2K-1-B2FHM$]\rCMS>\rFS YNYRY\rFF\rFS N+\rFF\rFQ\r") true fun _ => none

theorem outbox_safety_accepted :
    Sound sampleOutbox (run (handle quietEnv)
      (wl2kExchange [.readable] sampleConfig 10 sampleOutbox) answeringTwice).2 :=
  outbox_safety quietEnv sampleConfig 10 sampleOutbox samplePrepared _ true (fun _ => none)
    [.readable] (wl2kExchange [.readable]) (.inl rfl) (by decide +kernel)

/-- Answered later, the message is transmitted and then unlinked. -/
theorem later_message_unlinked :
    ¬ Sound [sampleProposal] (run (handle quietEnv)
      (wl2kExchange [.readable] sampleConfig 10 [sampleProposal]) (answering (ascii "L"))).2 ∧
    Event.unlinked sampleProposal.mid ∈ (run (handle quietEnv)
      (wl2kExchange [.readable] sampleConfig 10 [sampleProposal]) (answering (ascii "L"))).2.trace := by
  constructor
  · intro sound
    have breaks : ¬ Safe [sampleProposal] (run (handle quietEnv)
        (wl2kExchange [.readable] sampleConfig 10 [sampleProposal]) (answering (ascii "L"))).2 := by
      decide +kernel
    exact breaks sound.safe
  · decide +kernel

end PaclinkUnix
