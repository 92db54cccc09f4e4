import PaclinkUnix.DialogueRun

/-!
The side that listens, and both sides turn by turn: the two programs do what the dialogue
says, to its end.
-/

namespace PaclinkUnix

open Effects Effects.Program

/-- The parser's variables when the side is at a command. -/
def Side.parser (side : Side) : Parser where
  props := side.confirmed ++ side.settled ++ side.pending
  cursor := (side.confirmed ++ side.settled).length
  proposals := []
  proposalcksum := 0

/-- A message that can be offered, and that the other side can take apart. -/
structure Deliverable (receiver : Config) (prop : Proposal) : Prop where
  offerable : Offerable prop
  fit : Transmittable prop
  title : ∀ char ∈ prop.title, char ≠ 0
  path : prop.path = some prop.mid
  fresh : prop.delete = false
  decodes : receiver.decode prop.cbuf = some prop.ubuf
  mails : receiver.wl2mime prop.ubuf ≠ none

structure Side.Fit (side : Side) (receiver : Config) : Prop where
  confirmed : ∀ prop ∈ side.confirmed, prop.delete = false
  settled : ∀ prop ∈ side.settled, prop.delete = true ∧ prop.path = some prop.mid
  pending : ∀ prop ∈ side.pending, Deliverable receiver prop

section Fit

variable {side : Side} {receiver : Config}

theorem Side.Fit.deleted (fit : side.Fit receiver) : side.deleted.Fit receiver := by
  refine ⟨fun prop member => ?_, fun prop member => ?_, fit.pending⟩
  · rcases List.mem_append.mp member with member | member
    · exact fit.confirmed prop member
    · obtain ⟨original, -, rfl⟩ := List.mem_map.mp member
      rfl
  · cases member

theorem Side.Fit.received (fit : side.Fit receiver) (batch : List Proposal) :
    (side.received batch).Fit receiver :=
  ⟨fit.deleted.confirmed, fit.deleted.settled, fit.deleted.pending⟩

theorem Side.Fit.batch (fit : side.Fit receiver) :
    ∀ prop ∈ side.batch, Deliverable receiver prop :=
  fun prop member => fit.pending prop (List.mem_of_mem_take member)

theorem Side.Fit.offered (fit : side.Fit receiver) (theirs : Bytes → Bool) :
    (side.offered theirs).Fit receiver := by
  refine ⟨fit.confirmed, fun prop member => ?_,
    fun prop member => fit.pending prop (List.mem_of_mem_drop member)⟩
  obtain ⟨original, inside, rfl⟩ := List.mem_map.mp member
  exact ⟨rfl, (fit.batch original inside).path⟩

end Fit

section Deleting

variable {env : Env} {held : Bytes → Bool}

theorem goes_dodelete_settled (settled pending : List Proposal)
    (marked : ∀ prop ∈ settled, prop.delete = true ∧ prop.path = some prop.mid) :
    Goes env (dodelete (settled ++ pending) settled.length) held held
      (settled.map fun prop => .unlinked prop.mid) (settled.map Proposal.kept ++ pending) := by
  induction settled with
  | nil =>
      rw [List.nil_append, List.length_nil, dodelete]
      exact goes_pure _
  | cons prop settled ih =>
      obtain ⟨delete, path⟩ := marked prop (by simp)
      have one : deleteOne prop = (unlink prop.mid >>= fun _ => pure prop.kept) := by
        simp [deleteOne, delete, path, Proposal.kept]
      rw [List.cons_append, List.length_cons, dodelete, one, List.map_cons, List.map_cons,
        ← List.singleton_append, List.cons_append]
      have first : Goes env (unlink prop.mid >>= fun _ => pure prop.kept) held held
          [.unlinked prop.mid] prop.kept := (goes_unlink prop.mid).bind (goes_pure _)
      refine first.bind ?_
      rw [← List.append_nil (List.map _ _)]
      exact (ih fun other member => marked other (List.mem_cons_of_mem _ member)).bind (goes_pure _)

theorem goes_dodelete (confirmed settled pending : List Proposal)
    (kept : ∀ prop ∈ confirmed, prop.delete = false)
    (marked : ∀ prop ∈ settled, prop.delete = true ∧ prop.path = some prop.mid) :
    Goes env (dodelete (confirmed ++ settled ++ pending) (confirmed ++ settled).length) held held
      (settled.map fun prop => .unlinked prop.mid)
      (confirmed ++ settled.map Proposal.kept ++ pending) := by
  induction confirmed with
  | nil => exact goes_dodelete_settled settled pending marked
  | cons prop confirmed ih =>
      have untouched : deleteOne prop = pure prop := by
        rw [deleteOne, kept prop (by simp)]
      rw [List.cons_append, List.cons_append, List.length_cons, dodelete, untouched]
      refine Goes.quiet (goes_pure _) ?_
      rw [← List.append_nil (List.map _ _)]
      exact (ih fun other member => kept other (List.mem_cons_of_mem _ member)).bind (goes_pure _)

theorem goes_deleteTurn {side : Side} {receiver : Config} (fit : side.Fit receiver)
    (proposals : List Incoming) (cksum : UInt32) :
    Goes env (deleteTurn { side.parser with proposals := proposals, proposalcksum := cksum })
      held held side.unlinks
      { side.deleted.parser with proposals := proposals, proposalcksum := cksum } := by
  have same : side.deleted.parser.cursor = side.parser.cursor := by
    simp [Side.parser, Side.deleted]
  rw [deleteTurn, Side.unlinks, ← List.append_nil (List.map _ _), Side.parser]
  refine (goes_dodelete side.confirmed side.settled side.pending fit.confirmed fit.settled).bind ?_
  have list : side.confirmed ++ side.settled.map Proposal.kept ++ side.pending =
      side.deleted.parser.props := by
    simp [Side.parser, Side.deleted]
  rw [list]
  change Goes env (pure (Parser.mk side.deleted.parser.props side.parser.cursor _ _)) _ _ _ _
  rw [← same]
  exact goes_pure _

end Deleting

section Receiving

variable {env : Env} {config : Config} {held after : Bytes → Bool} {events more : List Event}

theorem Goes.again {fuel : Nat} {parser next : Parser} {text : Bytes} {value : Int × Parser}
    {middle : Bytes → Bool} (plain : ∀ char ∈ text, lineChar char = true)
    (round : Goes env (inboundCommand config fuel parser text) held middle events (.again next))
    (rest : Goes env (inboundParser config fuel next) middle after more value) :
    Goes env (inboundParser config (fuel + 1) parser) held after
      (lineRead text :: (events ++ more)) value := by
  rw [inboundParser, ← List.singleton_append]
  exact (goes_getline plain).bind (round.bind rest)

theorem goes_proposal {side : Side} {receiver : Config} (fit : side.Fit receiver) (fuel : Nat)
    {prop : Proposal} (offerable : Offerable prop) (proposals : List Incoming) (cksum : UInt32)
    (room : proposals.length < propLimit) :
    Goes env (inboundCommand config fuel
        { side.parser with proposals := proposals, proposalcksum := cksum } (proposalText prop))
      held held side.unlinks
      (.again { side.deleted.parser with
        proposals := proposals ++ [prop.incoming]
        proposalcksum := addBytes cksum (proposalLine prop) }) := by
  obtain ⟨notComment, notEmpty, command⟩ := strbegins_proposal prop offerable
  unfold inboundCommand
  rw [if_neg (by simp [notComment]), if_neg notEmpty, if_pos command,
    ← List.append_nil (Side.unlinks _)]
  refine (goes_deleteTurn fit proposals cksum).bind ?_
  rw [if_neg (by simp only; omega), parseProposal_text offerable, proposalLine_text]
  exact goes_pure _

theorem deleted_deleted (side : Side) : side.deleted.deleted = side.deleted := by
  simp [Side.deleted]

theorem goes_proposals {side : Side} {receiver : Config} (fit : side.Fit receiver)
    (idle : side.deleted = side) (batch : List Proposal) {fuel : Nat}
    (offerable : ∀ prop ∈ batch, Offerable prop) {proposals : List Incoming} {cksum : UInt32}
    (room : proposals.length + batch.length ≤ propLimit) {value : Int × Parser}
    (rest : Goes env (inboundParser config fuel
        { side.parser with
          proposals := proposals ++ batch.map Proposal.incoming
          proposalcksum := addBytes cksum (offerBytes batch) }) held after more value) :
    Goes env (inboundParser config (fuel + batch.length)
        { side.parser with proposals := proposals, proposalcksum := cksum }) held after
      ((batch.map fun prop => lineRead (proposalText prop)) ++ more) value := by
  induction batch generalizing proposals cksum with
  | nil => simpa [offerBytes, addBytes] using rest
  | cons prop batch ih =>
      simp only [List.length_cons] at room
      have quiet : side.unlinks = [] := by
        rw [Side.unlinks, ← idle]
        rfl
      have round := @goes_proposal env config held side receiver fit (fuel + batch.length) prop
        (offerable prop (by simp)) proposals cksum (by omega)
      rw [quiet, idle] at round
      rw [List.map_cons, List.cons_append, ← List.nil_append (List.map _ _ ++ more)]
      refine Goes.again (offerable prop (by simp)).lineChars round ?_
      refine ih (fun other member => offerable other (List.mem_cons_of_mem _ member))
        (by simp; omega) ?_
      simpa [offerBytes, addBytes_append] using rest

/-- All lines of a batch; the files of the batch before go with the first. -/
theorem goes_batch {side : Side} {receiver : Config} (fit : side.Fit receiver)
    {batch : List Proposal} (nonempty : batch ≠ []) {fuel : Nat}
    (offerable : ∀ prop ∈ batch, Offerable prop) (room : batch.length ≤ propLimit)
    {value : Int × Parser}
    (rest : Goes env (inboundParser config fuel
        { side.deleted.parser with
          proposals := batch.map Proposal.incoming
          proposalcksum := addBytes 0 (offerBytes batch) }) held after more value) :
    Goes env (inboundParser config (fuel + batch.length) side.parser) held after
      (offerRead side.unlinks batch ++ more) value := by
  cases batch with
  | nil => exact absurd rfl nonempty
  | cons prop batch =>
      have round := @goes_proposal env config held side receiver fit (fuel + batch.length) prop
        (offerable prop (by simp)) [] 0 (by decide)
      simp only [List.length_cons] at room
      rw [offerRead, List.cons_append, List.cons_append, List.append_assoc]
      refine Goes.again (offerable prop (by simp)).lineChars round ?_
      refine goes_proposals fit.deleted (deleted_deleted side) batch
        (fun other member => offerable other (List.mem_cons_of_mem _ member)) (by simp; omega) ?_
      simpa [offerBytes, addBytes_append] using rest

theorem goes_answerOne (reliable : Reliable env) {prop : Proposal} (code : prop.code = 67) :
    Goes env (answerOne prop.incoming) held held
      [.checked prop.mid .succeed (some (if held prop.mid then found else notFound))
        (held prop.mid)]
      (answerChar held prop, !held prop.mid) := by
  have kind : prop.incoming.code = 67 := code
  rw [answerOne, if_pos kind, ← List.append_nil [Event.checked _ _ _ _]]
  refine (goes_checkMid reliable prop.mid).bind ?_
  cases known : held prop.mid with
  | true =>
      simp only [answerChar, known, if_true, found, Bool.not_true]
      exact goes_pure _
  | false =>
      simp only [answerChar, known, Bool.false_eq_true, if_false, notFound, Bool.not_false]
      exact goes_pure _

theorem goes_answerProposals (reliable : Reliable env) (batch : List Proposal)
    (offerable : ∀ prop ∈ batch, Offerable prop) :
    Goes env (answerProposals (batch.map Proposal.incoming)) held held
      (batch.flatMap (answerEvents held))
      (batch.map fun prop => (prop.incoming, answerChar held prop, !held prop.mid)) := by
  induction batch with
  | nil => exact goes_pure _
  | cons prop batch ih =>
      have rest := ih fun other member => offerable other (List.mem_cons_of_mem _ member)
      rw [List.map_cons, answerProposals, List.flatMap_cons, answerEvents,
        ← List.singleton_append, List.append_assoc]
      refine (goes_answerOne reliable (offerable prop (by simp)).code).bind
        ((goes_answer prop.mid _).bind ?_)
      rw [← List.append_nil (List.flatMap _ _)]
      exact rest.bind (goes_pure _)

theorem goes_deliver (reliable : Reliable env) {prop : Proposal}
    (deliverable : Deliverable config prop) :
    Goes env (deliver config prop.incoming) held (heldWith held [prop])
      (deliverEvents config prop) () := by
  obtain ⟨mimebuf, mails⟩ := Option.ne_none_iff_exists'.mp deliverable.mails
  have later : heldWith held [prop] = fun other => held other || prop.mid == other := by
    funext other
    simp [heldWith]
  rw [deliver, deliverEvents, later, ← List.singleton_append]
  refine (goes_receive deliverable.fit deliverable.title).bind ?_
  simp only [deliverable.decodes, mails, Option.getD_some]
  rw [← List.singleton_append]
  refine (goes_sendmail reliable prop.mid prop.ubuf mimebuf).bind ?_
  simp only [if_true]
  rw [← List.append_nil [Event.recorded _ _]]
  exact (goes_recordMid reliable prop.mid).bind (goes_pure _)

theorem goes_deliverAll (reliable : Reliable env) (answered : Bytes → Bool)
    (batch : List Proposal) (deliverable : ∀ prop ∈ batch, Deliverable config prop) :
    Goes env (deliverAll config
        (batch.map fun prop => (prop.incoming, answerChar answered prop, !answered prop.mid)))
      held (heldWith held (wanted answered batch))
      ((wanted answered batch).flatMap (deliverEvents config)) () := by
  induction batch generalizing held with
  | nil =>
      rw [wanted, List.filter_nil, heldWith_nil]
      exact goes_pure _
  | cons prop batch ih =>
      have others : ∀ other ∈ batch, Deliverable config other :=
        fun other member => deliverable other (List.mem_cons_of_mem _ member)
      rw [List.map_cons, deliverAll, wanted_cons, ← heldWith_heldWith, List.flatMap_append]
      cases known : answered prop.mid with
      | true =>
          have unwanted : wanted answered [prop] = [] := by simp [wanted, known]
          rw [unwanted, heldWith_nil]
          exact ih others
      | false =>
          have one : wanted answered [prop] = [prop] := by simp [wanted, known]
          rw [one, List.flatMap_singleton]
          exact (goes_deliver reliable (deliverable prop (by simp))).bind (ih others)

theorem heldWith_wanted (held : Bytes → Bool) (batch : List Proposal) :
    heldWith held (wanted held batch) = heldWith held batch := by
  funext mid
  cases known : held mid with
  | true => simp [heldWith, known]
  | false =>
      have same : (wanted held batch).any (·.mid == mid) = batch.any (·.mid == mid) := by
        rw [wanted, List.any_filter]
        refine congrArg (List.any batch) (funext fun prop => ?_)
        by_cases equal : prop.mid = mid
        · simp [equal, known]
        · simp [equal]
      rw [heldWith, heldWith, same]

theorem goes_receiveBatch (reliable : Reliable env) {batch : List Proposal} (nonempty : batch ≠ [])
    (deliverable : ∀ prop ∈ batch, Deliverable config prop) :
    Goes env (receiveBatch config (batch.map Proposal.incoming)) held (heldWith held batch)
      (batch.flatMap (answerEvents held) ++
        .wrote .answers (replyText held batch ++ [carriageReturn]) ::
          (wanted held batch).flatMap (deliverEvents config)) () := by
  have chars : (batch.map fun prop => (prop.incoming, answerChar held prop, !held prop.mid)).map
      (fun entry => entry.2.1) = batch.map (answerChar held) := by
    rw [List.map_map]
    rfl
  have ending : ascii "\r" = [carriageReturn] := by decide +kernel
  rw [receiveBatch, if_neg (by simpa using nonempty), ← heldWith_wanted]
  refine (goes_answerProposals reliable batch fun prop member =>
    (deliverable prop member).offerable).bind ?_
  rw [chars, ending, ← List.singleton_append]
  exact (goes_write _ _).bind (goes_deliverAll reliable held batch deliverable)

end Receiving

/-- An outbound turn and what follows it, as in `wl2k_exchange` and in the command loop. -/
def floor (config : Config) (fuel : Nat) (line : Bytes) (parser : Parser) :
    Session (Int × Parser) := do
  match ← outboundTurn fuel line parser with
  | .again parser => inboundParser config fuel parser
  | .returns value parser => pure (value, parser)

section Turns

variable {env : Env} {config : Config} {held after : Bytes → Bool} {more : List Event}
  {side : Side} {receiver : Config} {value : Int × Parser}

theorem floor_batch (fit : side.Fit receiver) (idle : side.settled = [])
    (nonempty : side.pending ≠ []) (theirs : Bytes → Bool) {fuel : Nat} (line : Bytes)
    (rest : Goes env (inboundParser config fuel (side.offered theirs).parser) held after more
      value) :
    Goes env (floor config fuel line side.parser) held after
      (askEvents theirs side.batch ++ more) value := by
  have turn := @goes_b2outboundproposal env held theirs fuel line
    (side.confirmed ++ side.settled) side.pending nonempty fun prop member =>
      (fit.pending prop member).fit
  have list : side.confirmed ++ side.settled ++ side.batch.map (Proposal.marked theirs) ++
      side.pending.drop propLimit = (side.offered theirs).parser.props := by
    simp [Side.parser, Side.offered, idle]
  have moved : (side.confirmed ++ side.settled).length + side.batch.length =
      (side.offered theirs).parser.cursor := by
    simp [Side.parser, Side.offered, idle]
  have again : Goes env (outboundTurn fuel line side.parser) held held
      (askEvents theirs side.batch) (.again (side.offered theirs).parser) := by
    rw [outboundTurn, ← List.append_nil (askEvents _ _)]
    refine turn.bind ?_
    rw [Side.batch] at list moved
    rw [list, moved]
    exact goes_pure _
  exact again.bind rest

theorem strbegins_self (text : Bytes) : strbegins text text = true := by
  rw [strbegins, List.isPrefixOf_iff_prefix]

theorem goes_outbound_none (fuel : Nat) (line : Bytes) (before : List Proposal) (cursor : Nat)
    (done : before.drop cursor = []) :
    Goes env (b2outboundproposal fuel line before cursor) held held
      [.wrote .command ((if strbegins line passText then quitText else passText) ++
        [carriageReturn])]
      (if strbegins line passText then -1 else 0, before, cursor) := by
  have quits : ascii "FQ\r" = quitText ++ [carriageReturn] := by decide +kernel
  have passes : ascii "FF\r" = passText ++ [carriageReturn] := by decide +kernel
  unfold b2outboundproposal
  simp only [done, List.isEmpty_nil, Bool.true_eq_false, if_false]
  rw [← List.append_nil [Event.wrote _ _]]
  by_cases begins : strbegins line passText = true
  · rw [if_pos begins, if_pos begins, if_pos (show strbegins line (ascii "FF") = true from begins),
      quits]
    exact (goes_write _ _).bind (goes_pure _)
  · rw [if_neg begins, if_neg begins,
      if_neg (show ¬ strbegins line (ascii "FF") = true from begins), passes]
    exact (goes_write _ _).bind (goes_pure _)

theorem drop_all (side : Side) (drained : side.pending = []) :
    side.parser.props.drop side.parser.cursor = [] := by
  simp [Side.parser, drained]

theorem floor_quit (drained : side.pending = []) {line : Bytes} (fuel : Nat)
    (passed : strbegins line passText = true) :
    Goes env (floor config fuel line side.parser) held held
      [.wrote .command (quitText ++ [carriageReturn])] (-1, side.parser) := by
  have turn := @goes_outbound_none env held fuel line _ _ (drop_all side drained)
  rw [if_pos passed, if_pos passed] at turn
  have returns : Goes env (outboundTurn fuel line side.parser) held held
      [.wrote .command (quitText ++ [carriageReturn])] (.returns (-1) side.parser) :=
    turn.bind (goes_pure _)
  exact returns.bind (goes_pure _)

theorem floor_pass (drained : side.pending = []) {line : Bytes} {fuel : Nat}
    (passed : strbegins line passText = false)
    (rest : Goes env (inboundParser config fuel side.parser) held after more value) :
    Goes env (floor config fuel line side.parser) held after
      (.wrote .command (passText ++ [carriageReturn]) :: more) value := by
  have turn := @goes_outbound_none env held fuel line _ _ (drop_all side drained)
  have other : ¬ strbegins line passText = true := by rw [passed]; decide
  rw [if_neg other, if_neg other] at turn
  have again : Goes env (outboundTurn fuel line side.parser) held held
      [.wrote .command (passText ++ [carriageReturn])] (.again side.parser) :=
    turn.bind (goes_pure _)
  exact again.bind rest

theorem Goes.turn {α : Type} {fuel : Nat} {parser : Parser} {text : Bytes} {middle : Bytes → Bool}
    {events : List Event} {first : Session α} {next : α → Parser} {got : α}
    (plain : ∀ char ∈ text, lineChar char = true)
    (command : inboundCommand config fuel parser text =
      (first >>= fun result => outboundTurn fuel text (next result)))
    (goes : Goes env first held middle events got)
    (rest : Goes env (floor config fuel text (next got)) middle after more value) :
    Goes env (inboundParser config (fuel + 1) parser) held after
      (lineRead text :: (events ++ more)) value := by
  rw [inboundParser, ← List.singleton_append]
  refine (goes_getline plain).bind ?_
  simp only [command, bind_assoc]
  exact goes.bind rest

theorem inboundCommand_pass (fuel : Nat) (parser : Parser) :
    inboundCommand config fuel parser passText =
      (deleteTurn parser >>= fun parser => outboundTurn fuel passText parser) := by
  unfold inboundCommand
  rw [if_neg (by decide +kernel), if_neg (by decide +kernel), if_neg (by decide +kernel),
    if_pos (by decide +kernel)]

theorem inboundCommand_quit (fuel : Nat) (parser : Parser) :
    inboundCommand config fuel parser quitText =
      (deleteTurn parser >>= fun parser => pure (.returns (-1) parser)) := by
  unfold inboundCommand
  rw [if_neg (by decide +kernel), if_neg (by decide +kernel), if_neg (by decide +kernel),
    if_neg (by decide +kernel), if_neg (by decide +kernel), if_pos (by decide +kernel)]

theorem goes_deleted (fit : side.Fit receiver) :
    Goes env (deleteTurn side.parser) held held side.unlinks side.deleted.parser :=
  goes_deleteTurn fit [] 0

theorem listens_pass (fit : side.Fit receiver) {fuel : Nat}
    (rest : Goes env (floor config fuel passText side.deleted.parser) held after more value) :
    Goes env (inboundParser config (fuel + 1) side.parser) held after
      (lineRead passText :: side.unlinks ++ more) value :=
  Goes.turn (by decide +kernel) (inboundCommand_pass fuel side.parser) (goes_deleted fit) rest

theorem listens_quit (fit : side.Fit receiver) (fuel : Nat) :
    Goes env (inboundParser config (fuel + 1) side.parser) held held
      (lineRead quitText :: side.unlinks) (-1, side.deleted.parser) := by
  rw [inboundParser, ← List.singleton_append]
  refine (goes_getline (by decide +kernel)).bind ?_
  simp only [inboundCommand_quit, bind_assoc]
  rw [← List.append_nil (Side.unlinks _)]
  exact (goes_deleted fit).bind (Goes.quiet (goes_pure _) (goes_pure _))

theorem batchEndLine_lineChar (batch : List Proposal) :
    ∀ char ∈ batchEndLine batch, lineChar char = true := by
  intro char member
  rw [batchEndLine_front] at member
  simp only [List.mem_cons] at member
  rcases member with rfl | rfl | rfl | member
  · decide
  · decide
  · decide
  · exact hexByte_lineChar _ (UInt8.toNat_lt _) char member

theorem strbegins_batchEnd (batch : List Proposal) :
    strbegins (batchEndLine batch) passText = false := by
  have finished : passText = [70, 70] := by decide +kernel
  rw [strbegins, batchEndLine_front, finished]
  simp [List.isPrefixOf]

theorem listens_batch (reliable : Reliable env) (receives : side.config.sendMsgOnly = false)
    (fit : side.Fit receiver) {batch : List Proposal} (nonempty : batch ≠ [])
    (room : batch.length ≤ propLimit)
    (deliverable : ∀ prop ∈ batch, Deliverable side.config prop) {fuel : Nat}
    (rest : Goes env (floor side.config fuel (batchEndLine batch) (side.received batch).parser)
      (heldWith side.held batch) after more value) :
    Goes env (inboundParser side.config (fuel + 1 + batch.length) side.parser) side.held after
      (replyEvents side batch ++ more) value := by
  have received := @goes_receiveBatch env side.config side.held reliable batch nonempty deliverable
  have command := inboundCommand_batchEnd side.config receives fuel batch
    { side.deleted.parser with
      proposals := batch.map Proposal.incoming
      proposalcksum := addBytes 0 (offerBytes batch) } rfl
  have last := Goes.turn (batchEndLine_lineChar batch) command received rest
  have whole := goes_batch fit nonempty (fun prop member => (deliverable prop member).offerable)
    room last
  rw [replyEvents, List.append_assoc, List.cons_append]
  exact whole

end Turns

def talkFuel (mine theirs : Side) (passed : Bool) : Nat :=
  3 * (mine.pending.length + theirs.pending.length) + if passed then 1 else 2

theorem talk_runs {mine theirs mineEnd theirsEnd : Side} {passed : Bool}
    {said heard : List Event} (talk : Talk mine theirs passed said heard mineEnd theirsEnd)
    {env envOther : Env} (reliable : Reliable env) (reliableOther : Reliable envOther)
    (receives : mine.config.sendMsgOnly = false) (receivesOther : theirs.config.sendMsgOnly = false)
    (idle : mine.settled = []) (fit : mine.Fit theirs.config) (fitOther : theirs.Fit mine.config)
    (fuel : Nat) (enough : talkFuel mine theirs passed ≤ fuel) :
    (∀ line, strbegins line passText = passed →
      Goes env (floor mine.config fuel line mine.parser) mine.held mineEnd.held said
        (-1, mineEnd.parser)) ∧
    Goes envOther (inboundParser theirs.config fuel theirs.parser) theirs.held theirsEnd.held
      heard (-1, theirsEnd.parser) := by
  induction talk generalizing env envOther fuel with
  | @quit mine theirs none =>
      refine ⟨fun line passed => floor_quit none fuel passed, ?_⟩
      obtain ⟨fuel, rfl⟩ : ∃ left, fuel = left + 1 := by
        rw [talkFuel, if_pos rfl] at enough
        exact ⟨fuel - 1, by omega⟩
      exact listens_quit fitOther fuel
  | @pass mine theirs mineEnd theirsEnd said heard none rest ih =>
      have later := ih reliableOther reliable receivesOther receives rfl fitOther.deleted fit
      have left : talkFuel theirs.deleted mine true + 1 ≤ fuel := by
        rw [talkFuel, if_neg Bool.false_ne_true] at enough
        rw [talkFuel, if_pos rfl, Side.deleted]
        simp only
        omega
      refine ⟨fun line passed => floor_pass none passed (later fuel (by omega)).2, ?_⟩
      obtain ⟨fuel, rfl⟩ := Nat.exists_eq_add_of_le' (Nat.le_of_add_left_le left)
      exact listens_pass fitOther ((later fuel (by omega)).1 passText (strbegins_self _))
  | @batch mine theirs mineEnd theirsEnd passed said heard some rest ih =>
      have later := ih reliableOther reliable receivesOther receives rfl
        (fitOther.received mine.batch) (fit.offered theirs.held)
      have room : mine.batch.length ≤ propLimit := List.length_take_le _ _
      have left : talkFuel (theirs.received mine.batch) (mine.offered theirs.held) false + 1 +
          mine.batch.length ≤ fuel := by
        have offers := List.length_pos_iff.mpr some
        have least : 1 ≤ if passed then 1 else 2 := by split <;> decide
        rw [talkFuel] at enough
        rw [talkFuel, if_neg Bool.false_ne_true]
        simp only [Side.received, Side.deleted, Side.offered, Side.batch, List.length_take,
          List.length_drop, propLimit]
        omega
      refine ⟨fun line passed => floor_batch fit idle some theirs.held line
        (later fuel (by omega)).2, ?_⟩
      obtain ⟨fuel, rfl⟩ : ∃ less, fuel = less + 1 + mine.batch.length :=
        ⟨fuel - 1 - mine.batch.length, by omega⟩
      exact listens_batch reliableOther receivesOther fitOther (batch_some some) room fit.batch
        ((later fuel (by omega)).1 _ (strbegins_batchEnd _))

end PaclinkUnix
