import PaclinkUnix.OutboxCursor

/-!
Proposal batches: the lines `b2outboundproposal` offers a batch with, and what
`inbound_parser` makes of them.
-/

namespace PaclinkUnix

open Effects Effects.Program

/-- A message as the program offers it. -/
structure Offerable (prop : Proposal) : Prop where
  code : prop.code = 67
  type : prop.type = 67 ∨ prop.type = 69
  nonempty : prop.mid ≠ []
  short : prop.mid.length ≤ midMaxLen
  printable : ∀ char ∈ prop.mid, 33 ≤ char ∧ char ≤ 126
  usize : prop.usize < 2 ^ 64
  csize : prop.csize < 2 ^ 32

def Proposal.incoming (prop : Proposal) : Incoming where
  code := prop.code
  type := prop.type
  mid := prop.mid
  usize := prop.usize
  csize := prop.csize

def offerBytes (batch : List Proposal) : Bytes := (batch.map proposalLine).flatten

def batchEndLine (batch : List Proposal) : Bytes :=
  ascii "F> " ++ hexByte (cksumByte (addBytes 0 (offerBytes batch))).toNat

def offerEvents (batch : List Proposal) : List Event :=
  (batch.map fun prop => .wrote (.proposal prop.mid) (proposalLine prop)) ++
    [.wrote .batchEnd (batchEndLine batch ++ [carriageReturn])]

theorem written_offerEvents (batch : List Proposal) :
    written (offerEvents batch) = offerBytes batch ++ batchEndLine batch ++ [carriageReturn] := by
  have lines : written (batch.map fun prop =>
      .wrote (.proposal prop.mid) (proposalLine prop)) = offerBytes batch := by
    induction batch with
    | nil => rfl
    | cons prop rest ih => simp [written, offerBytes, ih]
  rw [offerEvents, written_append, lines]
  simp [written]

theorem run_sendProposals_sum (env : Env) (limit : Nat) (props : List Proposal) (cksum : UInt32)
    (world : World) (sendable : limit = 0 ∨ props ≠ []) :
    run (handle env) (sendProposals limit props cksum) world =
      (.some (addBytes cksum (offerBytes (props.take limit))),
        { world with
          trace := world.trace ++ (props.take limit).map fun prop =>
            .wrote (.proposal prop.mid) (proposalLine prop) }) := by
  induction limit generalizing props cksum world with
  | zero => simp [sendProposals, offerBytes, addBytes]
  | succ limit ih =>
      cases props with
      | nil => simp at sendable
      | cons prop next =>
          simp only [sendProposals, run_write]
          by_cases last : next.isEmpty = true
          · obtain rfl := List.isEmpty_iff.mp last
            simp [World.log, offerBytes]
          · have more : next ≠ [] := fun empty => last (by simp [empty])
            rw [if_neg last, ih next _ _ (.inr more), ← addBytes_append]
            simp [World.log, offerBytes]

theorem offers_written (env : Env) (fuel : Nat) (lastcommand : Bytes) (props : List Proposal)
    (cursor : Nat) (world : World) (nonempty : (props.drop cursor).take propLimit ≠ []) :
    world.trace ++ offerEvents ((props.drop cursor).take propLimit) <+:
      (run (handle env) (b2outboundproposal fuel lastcommand props cursor) world).2.trace := by
  have offered : props.drop cursor ≠ [] := by
    intro empty
    simp [empty] at nonempty
  have begun : (props.drop cursor).isEmpty = false := by simpa using offered
  unfold b2outboundproposal
  simp only [begun, if_true]
  rw [run_bind_some (run_sendProposals_sum env propLimit _ 0 world (.inr offered)), run_write]
  refine List.IsPrefix.trans ?_ ((handle_stable env).run_grows _ _)
  simp [World.log, offerEvents, batchEndLine, carriageReturn, ascii]

/-- Bytes that `tgetline` stores. -/
def lineChar (char : UInt8) : Bool := 32 ≤ char && char ≤ 126

theorem lineChar_table : ∀ char : UInt8, lineChar char = true →
    char ≠ 0x1e ∧ isascii char = true ∧ char ≠ carriageReturn ∧ char ≠ lineFeed ∧ char ≠ 0 := by
  intro char plain
  simp only [lineChar, Bool.and_eq_true, decide_eq_true_eq] at plain
  refine ⟨?_, ?_, ?_, ?_, ?_⟩
  · rintro rfl
    exact absurd plain.1 (by decide)
  · rw [isascii, decide_eq_true_eq]
    exact UInt8.lt_of_le_of_lt plain.2 (by decide)
  · rintro rfl
    exact absurd plain.1 (by decide)
  · rintro rfl
    exact absurd plain.1 (by decide)
  · rintro rfl
    exact absurd plain.1 (by decide)

theorem tgetline_line (text : Bytes) (plain : ∀ char ∈ text, lineChar char = true)
    (buffer rest : Bytes) :
    tgetline carriageReturn lineFeed buffer (text ++ carriageReturn :: rest) =
      some (cstring (buffer ++ text), rest) := by
  induction text generalizing buffer with
  | nil =>
      rw [List.nil_append, tgetline, if_neg (by decide), if_pos rfl, List.append_nil]
  | cons char text ih =>
      obtain ⟨mark, seven, notReturn, notFeed, -⟩ := lineChar_table char (plain char (by simp))
      have skipped : ¬ (char = 0x1e ∨
          (isascii char = false ∧ char ≠ carriageReturn ∧ char ≠ lineFeed)) := by
        simp [mark, seven]
      rw [List.cons_append, tgetline, if_neg skipped, if_neg notReturn, if_pos notFeed,
        ih (fun other member => plain other (List.mem_cons_of_mem _ member))]
      simp

theorem wl2kgetline_line {text : Bytes} (plain : ∀ char ∈ text, lineChar char = true)
    (rest : Bytes) : wl2kgetline (text ++ carriageReturn :: rest) = some (text, rest) := by
  rw [wl2kgetline, tgetline_line text plain, List.nil_append,
    cstring_of_notNul fun char member => (lineChar_table char (plain char member)).2.2.2.2]

def proposalText (prop : Proposal) : Bytes :=
  [70, prop.code, 32, prop.type, 77, 32] ++ (prop.mid ++ 32 :: (decimal prop.usize ++
    32 :: (decimal prop.csize ++ [32, 48])))

theorem proposalLine_text (prop : Proposal) :
    proposalLine prop = proposalText prop ++ [carriageReturn] := by
  have tail : ascii " 0\r" = [32, 48, carriageReturn] := by decide +kernel
  simp [proposalLine, proposalText, tail]

theorem decimal_lineChar (value : Nat) : ∀ char ∈ decimal value, lineChar char = true := by
  intro char member
  obtain ⟨low, high⟩ := decimal_digits value char member
  simp only [lineChar, Bool.and_eq_true, decide_eq_true_eq]
  exact ⟨UInt8.le_trans (by decide) low, UInt8.le_trans high (by decide)⟩

theorem Offerable.lineChars {prop : Proposal} (offerable : Offerable prop) :
    ∀ char ∈ proposalText prop, lineChar char = true := by
  have mid : ∀ char ∈ prop.mid, lineChar char = true := by
    intro char member
    obtain ⟨low, high⟩ := offerable.printable char member
    simp only [lineChar, Bool.and_eq_true, decide_eq_true_eq]
    exact ⟨UInt8.le_trans (by decide) low, high⟩
  have usize := decimal_lineChar prop.usize
  have csize := decimal_lineChar prop.csize
  have type : lineChar prop.type = true := by
    rcases offerable.type with same | same <;> rw [same] <;> decide
  intro char member
  simp only [proposalText, offerable.code, List.mem_append, List.mem_cons, List.not_mem_nil,
    or_false] at member
  rcases member with (rfl | rfl | rfl | rfl | rfl | rfl) | member | rfl | member | rfl | member |
    rfl | rfl
  all_goals first | exact type | exact mid _ member | exact usize _ member | exact csize _ member | decide

theorem scanMid_text {mid : Bytes} {limit : Nat} (short : mid.length ≤ limit)
    (noBlank : 32 ∉ mid) (rest : Bytes) :
    scanMid limit (mid ++ 32 :: rest) = some (mid, 32 :: rest) := by
  induction mid generalizing limit with
  | nil => cases limit <;> simp [scanMid]
  | cons char mid ih =>
      simp only [List.mem_cons, not_or] at noBlank
      cases limit with
      | zero => simp at short
      | succ limit =>
          rw [List.cons_append, scanMid, if_neg (Ne.symm noBlank.1),
            ih (by simpa using short) noBlank.2]
          rfl

theorem parseProposal_text {prop : Proposal} (offerable : Offerable prop) :
    parseProposal (proposalText prop) = some prop.incoming := by
  have noBlank : 32 ∉ prop.mid := by
    intro member
    exact absurd (offerable.printable 32 member).1 (by decide)
  have mid := scanMid_text offerable.short noBlank
    (decimal prop.usize ++ 32 :: (decimal prop.csize ++ [32, 48]))
  have usize := @strtoul_decimal prop.usize (by have := offerable.usize; unfold ulongMax; omega)
    (32 :: (decimal prop.csize ++ [32, 48])) (by simp; decide)
  have csize := @strtoul_decimal prop.csize (by have := offerable.csize; unfold ulongMax; omega)
    [32, 48] (by simp; decide)
  have fits : prop.csize % 2 ^ 32 = prop.csize := Nat.mod_eq_of_lt offerable.csize
  have known : ¬ (prop.type ≠ 67 ∧ prop.type ≠ 69) := by
    rcases offerable.type with same | same <;> simp [same]
  simp only [parseProposal, proposalText, offerable.code, List.cons_append, List.nil_append,
    expectChar, if_true, Option.bind_eq_bind, Option.bind_some, if_neg known, mid, usize, csize,
    fits]
  simp [Proposal.incoming, offerable.code]

section Receive

variable {env : Env} {config : Config} {origin : List Proposal} {start world : World}
  {parser : Parser} {lines : List Bytes}

theorem run_getline_line {text rest : Bytes} (plain : ∀ char ∈ text, lineChar char = true)
    (input : world.input = text ++ carriageReturn :: rest) :
    ∃ got, run (handle env) getline world = (some (some text), got) ∧ got.input = rest ∧
      got.halted = world.halted := by
  have read : wl2kgetline world.input = some (text, rest) := by
    rw [input]
    exact wl2kgetline_line plain rest
  refine ⟨{ world with input := rest }.log (.line (taken world.input rest) text), ?_, rfl, rfl⟩
  simp [getline, perform, run_call, handle, read]

def Op.deleting : Op → Bool
  | .unlink _ | .halt _ => true
  | _ => false

theorem performs_dodelete (props : List Proposal) (cursor : Nat) :
    Performs (fun op => op.deleting = true) (dodelete props cursor) := by
  induction cursor generalizing props with
  | zero =>
      unfold dodelete
      trivial
  | succ cursor ih =>
      cases props with
      | nil => exact ⟨rfl, fun impossible => impossible.elim⟩
      | cons prop next =>
          rw [dodelete]
          refine Performs.bind ?_ fun _ => Performs.bind (ih _) fun _ => trivial
          unfold deleteOne
          split
          · exact Performs.bind ⟨rfl, fun _ => trivial⟩ fun _ => trivial
          · trivial

theorem ends_deleting {α : Type} {program : Session α}
    (deleting : Performs (fun op => op.deleting = true) program) (input : Bytes)
    (unread : world.input = input) :
    Ends (handle env) program (fun _ after => after.input = input)
      (fun after => after.input = input) world := by
  refine Performs.ends deleting ?_ unread
  intro op before deletes same
  cases op with
  | unlink path => exact same
  | halt reason => exact same
  | _ => cases deletes

theorem Ends.returns {α : Type} {program : Session α} {returned : α → World → Prop}
    (ends : Ends (handle env) program returned (fun _ => False) world) :
    ∃ value after, run (handle env) program world = (some value, after) ∧ returned value after := by
  rw [Ends] at ends
  rcases found : run (handle env) program world with ⟨_ | value, after⟩
  · rw [found] at ends
    exact ends.elim
  · rw [found] at ends
    exact ⟨value, after, rfl, ends⟩

theorem run_deleteTurn (prepared : Prepared origin)
    (placed : Placed origin parser.props parser.cursor parser.cursor world) :
    ∃ props after, run (handle env) (deleteTurn parser) world =
      (some { parser with props := props }, after) ∧ after.input = world.input := by
  have quiet : Performs (fun op => op.deleting = true) (deleteTurn parser) :=
    Performs.bind (performs_dodelete _ _) fun _ => trivial
  obtain ⟨result, after, ran, ⟨props, rfl, -⟩, unread⟩ := Ends.returns
    (((ends_deleteTurn_cursor prepared parser world placed).and
      (ends_deleting quiet world.input rfl)).mono (fun _ _ holds => holds) fun _ holds => holds.1)
  exact ⟨props, after, ran, unread⟩

theorem strbegins_proposal (prop : Proposal) (offerable : Offerable prop) :
    strbegins (proposalText prop) (ascii ";") = false ∧ (proposalText prop).length ≠ 0 ∧
      strbegins (proposalText prop) (ascii "FC") = true := by
  have comment : ascii ";" = [59] := by decide +kernel
  have command : ascii "FC" = [70, 67] := by decide +kernel
  simp [strbegins, proposalText, offerable.code, comment, command, List.isPrefixOf]

theorem atCommand_proposal (prepared : Prepared origin) (placed : Placed origin origin 0 0 start)
    {fuel : Nat} (reached : AtCommand env config origin start (fuel + 1) lines parser world)
    {prop : Proposal} (offerable : Offerable prop) {rest : Bytes}
    (input : world.input = proposalLine prop ++ rest)
    (room : parser.proposals.length < propLimit) :
    ∃ props after, AtCommand env config origin start fuel (lines ++ [proposalText prop])
      { parser with
        props := props
        proposals := parser.proposals ++ [prop.incoming]
        proposalcksum := addBytes parser.proposalcksum (proposalLine prop) } after ∧
      after.input = rest := by
  obtain ⟨notComment, notEmpty, command⟩ := strbegins_proposal prop offerable
  have front : world.input = proposalText prop ++ carriageReturn :: rest := by
    rw [input, proposalLine_text, List.append_assoc]
    rfl
  obtain ⟨got, read, left, -⟩ := @run_getline_line env world _ _ offerable.lineChars front
  have kept := Ends.of_run (ends_placed_calm performs_getline
    (placed_atCommand prepared config placed reached)) read
  obtain ⟨props, after, deleted, unread⟩ := @run_deleteTurn env origin got parser prepared kept
  refine ⟨props, after, reached.next read ?_, unread.trans left⟩
  unfold inboundCommand
  rw [if_neg (by simp [notComment]), if_neg notEmpty, if_pos command, run_bind_some deleted,
    if_neg (by simp; omega), parseProposal_text offerable, proposalLine_text]
  rfl

theorem atCommand_proposals (prepared : Prepared origin) (placed : Placed origin origin 0 0 start)
    {fuel : Nat} (batch : List Proposal)
    (reached : AtCommand env config origin start (fuel + batch.length) lines parser world)
    (offerable : ∀ prop ∈ batch, Offerable prop) {rest : Bytes}
    (input : world.input = offerBytes batch ++ rest)
    (room : parser.proposals.length + batch.length ≤ propLimit) :
    ∃ props after, AtCommand env config origin start fuel (lines ++ batch.map proposalText)
      { parser with
        props := props
        proposals := parser.proposals ++ batch.map Proposal.incoming
        proposalcksum := addBytes parser.proposalcksum (offerBytes batch) } after ∧
      after.input = rest := by
  induction batch generalizing lines parser world with
  | nil =>
      refine ⟨parser.props, world, ?_, by simpa [offerBytes] using input⟩
      simpa [offerBytes, addBytes] using reached
  | cons prop batch ih =>
      simp only [List.length_cons] at room
      have front : world.input = proposalLine prop ++ (offerBytes batch ++ rest) := by
        simpa [offerBytes] using input
      obtain ⟨props, after, first, unread⟩ := atCommand_proposal prepared placed reached
        (offerable prop (by simp)) front (by omega)
      obtain ⟨props, later, all, unread⟩ := ih first
        (fun other member => offerable other (List.mem_cons_of_mem _ member)) unread
        (by simp; omega)
      refine ⟨props, later, ?_, unread⟩
      simpa [offerBytes, addBytes_append] using all

/-- An `FC` line came after the last `F>` line. -/
def batchOpen (lines : List Bytes) : Bool :=
  lines.foldl (fun pending line =>
    if strbegins line (ascii "FC") then true
    else if strbegins line (ascii "F>") then false
    else pending) false

/-- What a round that goes on makes of the accumulators. -/
def Accumulates (parser : Parser) (line : Bytes) (round : Round) : Prop :=
  ∀ later, round = .again later → strbegins line (ascii "FC") = false →
    (later.proposals = [] ∧ later.proposalcksum = 0) ∨
      (strbegins line (ascii "F>") = false ∧ later.proposals = parser.proposals ∧
        later.proposalcksum = parser.proposalcksum)

theorem ends_outboundTurn_accumulators (fuel : Nat) (line : Bytes) (parser : Parser)
    (world : World) :
    Ends (handle env) (outboundTurn fuel line parser)
      (fun round _ => ∀ later, round = .again later → later.proposals = parser.proposals ∧
        later.proposalcksum = parser.proposalcksum) (fun _ => True) world := by
  refine Ends.bind ends_true fun result _ _ => ?_
  simp only
  split
  · intro later same
    cases same
  · intro later same
    cases same
    exact ⟨rfl, rfl⟩

theorem ends_inboundCommand_accumulators (fuel : Nat) (parser : Parser) (line : Bytes)
    (world : World) (receives : config.sendMsgOnly = false) :
    Ends (handle env) (inboundCommand config fuel parser line)
      (fun round _ => Accumulates parser line round) (fun _ => True) world := by
  have comment : ascii ";" = [59] := by decide +kernel
  have offers : ascii "FC" = [70, 67] := by decide +kernel
  have ends : ascii "F>" = [70, 62] := by decide +kernel
  have turns : ∀ (line : Bytes) (next : Parser) (after : World),
      strbegins line (ascii "F>") = false →
      next.proposals = parser.proposals → next.proposalcksum = parser.proposalcksum →
      Ends (handle env) (outboundTurn fuel line next) (fun round _ => Accumulates parser line round)
        (fun _ => True) after := by
    intro line next after notEnd proposals cksum
    refine (ends_outboundTurn_accumulators fuel line next after).mono ?_ fun _ holds => holds
    intro round _ kept later same _
    obtain ⟨first, second⟩ := kept later same
    exact .inr ⟨notEnd, first.trans proposals, second.trans cksum⟩
  have deletes : ∀ (next : Parser → Session Round) (before : World),
      (∀ props after, Ends (handle env) (next { parser with props := props })
        (fun round _ => Accumulates parser line round) (fun _ => True) after) →
      Ends (handle env) (deleteTurn parser >>= next)
        (fun round _ => Accumulates parser line round) (fun _ => True) before := by
    intro next before rest
    have turn : Ends (handle env) (deleteTurn parser)
        (fun result _ => ∃ props, result = { parser with props := props }) (fun _ => True)
        before :=
      Ends.bind ends_true fun props _ _ => ⟨props, rfl⟩
    refine Ends.bind turn ?_
    rintro _ after ⟨props, rfl⟩
    exact rest props after
  unfold inboundCommand
  split
  · rename_i comments
    rintro later same -
    cases same
    refine .inr ⟨?_, rfl, rfl⟩
    cases line with
    | nil => rfl
    | cons char more =>
        simp only [strbegins, comment, ends, List.isPrefixOf, Bool.and_eq_true, beq_iff_eq]
          at comments ⊢
        simp [← comments.1]
  split
  · rename_i empty
    rintro later same -
    cases same
    exact .inr ⟨by simp [List.eq_nil_of_length_eq_zero empty, strbegins, ends], rfl, rfl⟩
  split
  · rename_i offer
    refine Ends.bind ends_true fun _ _ _ => ?_
    split
    · trivial
    · split
      · trivial
      · intro later same notOffer
        rw [offer] at notOffer
        cases notOffer
  split
  · rename_i finished
    refine deletes _ _ fun props after => turns _ _ _ ?_ rfl rfl
    have done : ascii "FF" = [70, 70] := by decide +kernel
    rcases line with _ | ⟨first, _ | ⟨second, more⟩⟩
    · rfl
    · simp [strbegins, ends, List.isPrefixOf]
    · simp only [strbegins, done, ends, List.isPrefixOf, Bool.and_eq_true, beq_iff_eq,
        Bool.and_true] at finished ⊢
      simp [← finished.2]
  split
  · intro later same
    cases same
  split
  · refine deletes _ _ fun props after => ?_
    intro later same
    cases same
  split
  · rename_i batchEnds
    rw [if_neg (by simp [receives])]
    split
    · trivial
    · refine Ends.bind ends_true fun _ after _ => ?_
      refine (ends_outboundTurn_accumulators fuel line _ after).mono ?_ fun _ holds => holds
      intro round _ kept later same _
      exact .inl (kept later same)
  · rename_i notEnd
    rw [ends_strayBytes]
    split
    · exact deletes _ _ fun props after => turns _ _ _ (by simpa using notEnd) rfl rfl
    · trivial

theorem atCommand_accumulators (receives : config.sendMsgOnly = false) {fuel : Nat}
    (reached : AtCommand env config origin start fuel lines parser world)
    (ended : batchOpen lines = false) : parser.proposals = [] ∧ parser.proposalcksum = 0 := by
  induction reached with
  | client greets offers hears => exact ⟨rfl, rfl⟩
  | daemon starts greets => exact ⟨rfl, rfl⟩
  | @next fuel lines line parser later world got after before reads again ih =>
      have kept := Ends.of_run (ends_inboundCommand_accumulators fuel parser line got receives)
        again later rfl
      rw [batchOpen, List.foldl_append, List.foldl_cons, List.foldl_nil] at ended
      split at ended
      · cases ended
      · rename_i notOffer
        rcases kept (by simpa using notOffer) with reset | ⟨notEnd, proposals, cksum⟩
        · exact reset
        · rw [notEnd, if_neg (by decide)] at ended
          rw [proposals, cksum]
          exact ih ended

end Receive

theorem hexByte_lineChar (value : Nat) (bound : value < 256) :
    ∀ char ∈ hexByte value, lineChar char = true := by
  have table : ((List.range 256).all fun value => (hexByte value).all lineChar) = true := by
    decide +kernel
  exact List.all_eq_true.mp (List.all_eq_true.mp table value (List.mem_range.mpr bound))

theorem batchEndLine_front (batch : List Proposal) :
    batchEndLine batch =
      70 :: 62 :: 32 :: hexByte (cksumByte (addBytes 0 (offerBytes batch))).toNat := by
  have front : ascii "F> " = [70, 62, 32] := by decide +kernel
  rw [batchEndLine, front]
  rfl

theorem inboundCommand_batchEnd (config : Config) (receives : config.sendMsgOnly = false)
    (fuel : Nat) (batch : List Proposal) (parser : Parser)
    (sum : parser.proposalcksum = addBytes 0 (offerBytes batch)) :
    inboundCommand config fuel parser (batchEndLine batch) =
      (receiveBatch config parser.proposals >>= fun _ =>
        outboundTurn fuel (batchEndLine batch)
          { parser with proposals := [], proposalcksum := 0 }) := by
  have comment : ascii ";" = [59] := by decide +kernel
  have offers : ascii "FC" = [70, 67] := by decide +kernel
  have finished : ascii "FF" = [70, 70] := by decide +kernel
  have bye : ascii "B" = [66] := by decide +kernel
  have quits : ascii "FQ" = [70, 81] := by decide +kernel
  have ends : ascii "F>" = [70, 62] := by decide +kernel
  have same : (strtoul ((batchEndLine batch).drop 2) 16).1 =
      (cksumByte parser.proposalcksum).toNat := by
    rw [batchEndLine_front, sum]
    simp only [List.drop_succ_cons, List.drop_zero]
    rw [strtoul_hexByte _ (UInt8.toNat_lt _)]
  have starts : ∀ text : Bytes, strbegins (batchEndLine batch) text =
      text.isPrefixOf (70 :: 62 :: 32 ::
        hexByte (cksumByte (addBytes 0 (offerBytes batch))).toNat) := by
    intro text
    rw [strbegins, batchEndLine_front]
  have positive : (batchEndLine batch).length ≠ 0 := by simp [batchEndLine_front]
  unfold inboundCommand
  rw [if_neg (by simp [starts, comment, List.isPrefixOf]), if_neg positive,
    if_neg (by simp [starts, offers, List.isPrefixOf]),
    if_neg (by simp [starts, finished, List.isPrefixOf]),
    if_neg (by simp [starts, bye, List.isPrefixOf]),
    if_neg (by simp [starts, quits, List.isPrefixOf]),
    if_pos (by simp [starts, ends, List.isPrefixOf]), if_neg (by simp [receives]),
    if_neg (not_not_intro same)]

/-- The command loop reads a batch's lines, and then has exactly its proposals when the
checksum has been accepted. -/
def BatchReceived (env : Env) (config : Config) (origin : List Proposal) (start : World)
    (left : Nat) (lines : List Bytes) (batch : List Proposal) (rest : Bytes) : Prop :=
  ∃ later after got,
    AtCommand env config origin start (left + 1) (lines ++ batch.map proposalText) later after ∧
    later.proposals = batch.map Proposal.incoming ∧
    run (handle env) getline after = (some (some (batchEndLine batch)), got) ∧
    got.input = rest ∧
    inboundCommand config left later (batchEndLine batch) =
      (receiveBatch config (batch.map Proposal.incoming) >>= fun _ =>
        outboundTurn left (batchEndLine batch)
          { later with proposals := [], proposalcksum := 0 })

/-- What one instance writes to offer a batch, another instance that is at a command and
has ended the batch before takes for the same proposals in the same order. -/
theorem batches_agree (writer : Env) (fuel : Nat) (lastcommand : Bytes) (props : List Proposal)
    (cursor : Nat) (sender : World) (batch : List Proposal)
    (next : batch = (props.drop cursor).take propLimit) (nonempty : batch ≠ [])
    (offerable : ∀ prop ∈ batch, Offerable prop)
    (env : Env) (config : Config) (receives : config.sendMsgOnly = false)
    (origin : List Proposal) (prepared : Prepared origin) (input : Bytes) (closed : Bool)
    (db : MidDb) (left : Nat) (lines : List Bytes) (parser : Parser) (world : World)
    (reached : AtCommand env config origin (World.start input closed db) (left + 1 + batch.length)
      lines parser world)
    (ended : batchOpen lines = false) (rest : Bytes)
    (arrives : world.input = written (offerEvents batch) ++ rest) :
    sender.trace ++ offerEvents batch <+:
        (run (handle writer) (b2outboundproposal fuel lastcommand props cursor) sender).2.trace ∧
      BatchReceived env config origin (World.start input closed db) left lines batch rest := by
  obtain ⟨waiting, zero⟩ := atCommand_accumulators receives reached ended
  have front : world.input =
      offerBytes batch ++ (batchEndLine batch ++ carriageReturn :: rest) := by
    rw [arrives, written_offerEvents]
    simp
  have room : parser.proposals.length + batch.length ≤ propLimit := by
    rw [waiting, next, List.length_nil, List.length_take]
    omega
  obtain ⟨list, after, read, unread⟩ := atCommand_proposals prepared
    (placed_start origin input closed db) batch reached offerable front room
  have plain : ∀ char ∈ batchEndLine batch, lineChar char = true := by
    intro char member
    rw [batchEndLine_front] at member
    simp only [List.mem_cons] at member
    rcases member with rfl | rfl | rfl | member
    · decide
    · decide
    · decide
    · exact hexByte_lineChar _ (UInt8.toNat_lt _) char member
  obtain ⟨got, line, unread, -⟩ := @run_getline_line env after _ _ plain unread
  refine ⟨?_, _, after, got, read, by rw [waiting, List.nil_append], line, unread, ?_⟩
  · subst next
    exact offers_written writer fuel lastcommand props cursor sender nonempty
  · have accepted := inboundCommand_batchEnd config receives left batch
      { parser with
        props := list
        proposals := parser.proposals ++ batch.map Proposal.incoming
        proposalcksum := addBytes parser.proposalcksum (offerBytes batch) } (by rw [zero])
    rw [accepted, waiting, List.nil_append]

/-- A daemon that has read the greeting, with the first batch of seven messages on the line. -/
theorem batches_agree_sample : ∃ world,
    BatchReceived quietEnv sampleConfig [] world 0 [] (sampleOutbox.take propLimit)
      (ascii "FF\r") := by
  have offerable : ∀ prop ∈ sampleOutbox.take propLimit, Offerable prop := by
    intro prop member
    obtain ⟨char, inside, rfl⟩ := List.mem_map.mp (List.mem_of_mem_take member)
    have printable : ∀ char ∈ ascii "ABCDEFG", 33 ≤ char ∧ char ≤ 126 := by decide +kernel
    exact ⟨rfl, .inr rfl, List.cons_ne_nil _ _, (by decide : 1 ≤ midMaxLen), fun other same =>
      List.mem_singleton.mp same ▸ printable char inside, (by decide : 3 < 2 ^ 64),
      (by decide : 8 < 2 ^ 32)⟩
  have prepared : Prepared [] := ⟨List.nodup_nil, by simp⟩
  let start := World.start (ascii "[WL2K-1-B2FHM$]\r" ++ (written
    (offerEvents (sampleOutbox.take propLimit)) ++ ascii "FF\r")) true fun _ => none
  let started := (run (handle quietEnv) (p2pStartmsg sampleConfig []) start).2
  let greeted := (run (handle quietEnv) (handshakeNoSecureLogin sampleConfig 0 2 none) started).2
  have starts : run (handle quietEnv) (p2pStartmsg sampleConfig []) start = (some (), started) :=
    rfl
  have greets : run (handle quietEnv) (handshakeNoSecureLogin sampleConfig 0 2 none) started =
      (some (ascii "[WL2K-1-B2FHM$]"), greeted) :=
    Prod.ext (by decide +kernel) rfl
  have arrives : greeted.input =
      written (offerEvents (sampleOutbox.take propLimit)) ++ ascii "FF\r" := by
    decide +kernel
  exact ⟨start, (batches_agree quietEnv 0 [] sampleOutbox 0 start (sampleOutbox.take propLimit) rfl
    (by decide +kernel) offerable quietEnv sampleConfig rfl [] prepared _ true _ 0 [] _ greeted
    (.daemon starts greets) rfl (ascii "FF\r") arrives).2⟩

end PaclinkUnix
