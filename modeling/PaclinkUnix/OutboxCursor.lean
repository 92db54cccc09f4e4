import PaclinkUnix.OutboxSession

/-!
The cursor of the outbox list: in every session it stays inside the list, and messages
are offered in the list's order, each once, and unlinked at most once.
-/

namespace PaclinkUnix

open Effects Effects.Program

variable {env : Env} {origin props : List Proposal} {cursor sent : Nat}

/-- What was offered, how much of it in the batch that is not ended, and what was unlinked. -/
structure Offers where
  offered : List Bytes
  batch : Nat
  unlinked : List Bytes
  deriving DecidableEq, Repr

def Offers.step (offers : Offers) : Event → Offers
  | .wrote (.proposal mid) _ =>
      { offers with offered := offers.offered ++ [mid], batch := offers.batch + 1 }
  | .wrote .batchEnd _ => { offers with batch := 0 }
  | .unlinked path => { offers with unlinked := offers.unlinked ++ [path] }
  | _ => offers

/-- Messages are offered in the order of the list and in batches of at most the limit,
and a file is unlinked once, after it was offered. -/
def cursorSafety (props : List Proposal) : Monitor Offers Event where
  start := ⟨[], 0, []⟩
  step := Offers.step
  allowed := fun offers event =>
    match event with
    | .wrote (.proposal mid) _ =>
        offers.batch < propLimit ∧ offers.offered ++ [mid] <+: props.map Proposal.mid
    | .unlinked path => path ∈ offers.offered ∧ path ∉ offers.unlinked
    | _ => True

def offersAt (origin : List Proposal) (world : World) : Offers :=
  (cursorSafety origin).state world.trace

/-- The trace is right, and the run has not dereferenced NULL. -/
structure CursorSafe (origin : List Proposal) (world : World) : Prop where
  accepts : (cursorSafety origin).Accepts world.trace
  running : world.halted ≠ some .fault

/-- The list and its cursor between the steps of a session, when `sent` messages have
been offered. -/
structure Placed (origin props : List Proposal) (cursor sent : Nat) (world : World) : Prop where
  safe : CursorSafe origin world
  unmarked : props.map Proposal.unmarked = origin.map Proposal.unmarked
  behind : cursor ≤ sent
  inside : sent ≤ props.length
  offered : (offersAt origin world).offered = (origin.map Proposal.mid).take sent
  batch : (offersAt origin world).batch = 0
  unlinked : ∀ path ∈ (offersAt origin world).unlinked, path ∈ (origin.map Proposal.mid).take cursor
  kept : ∀ prop ∈ props.take cursor, prop.mid ∈ (offersAt origin world).unlinked →
    prop.delete = false

def Op.aside : Op → Bool
  | .write (.body _) _ => true
  | op => op.calm

def Event.aside : Event → Bool
  | .wrote (.proposal _) _ | .wrote .batchEnd _ | .unlinked _ => false
  | _ => true

theorem Op.aside_of_calm {op : Op} (calm : op.calm = true) : op.aside = true := by
  cases op with
  | write what bytes => cases what <;> first | rfl | cases calm
  | _ => exact calm

theorem handle_aside {op : Op} {world : World} (aside : op.aside = true) :
    ((handle env op world).2.trace = world.trace ∨
      ∃ event, event.aside = true ∧ (handle env op world).2.trace = world.trace ++ [event]) ∧
    (world.halted ≠ some .fault → (handle env op world).2.halted ≠ some .fault) := by
  constructor
  · have logs := handle_logs env op world
    cases op with
    | write what bytes => cases what <;> first | exact .inr ⟨_, rfl, rfl⟩ | cases aside
    | unlink path => cases aside
    | halt reason => exact .inl rfl
    | _ =>
        rcases logs with same | ⟨event, logged, traced⟩
        · exact .inl same
        · refine .inr ⟨event, ?_, traced⟩
          cases event <;> simp_all [Op.logs, Event.aside]
  · intro running
    cases op with
    | getline =>
        simp only [handle]
        split
        · exact running
        · split
          · exact running
          · simp [World.stop]
    | getcompressed =>
        simp only [handle]
        split
        · exact running
        · split <;> simp [World.stop]
    | checkMid mid =>
        simp only [handle]
        rcases checkMid (env.dbCalls world.calls) (env.clock world.calls) mid world.db with
          ⟨_ | result, db⟩
        · simp [World.stop]
        · exact running
    | sendmail mid message mimebuf =>
        simp only [handle]
        split <;> exact running
    | halt reason =>
        cases reason with
        | fault => cases aside
        | _ => simp [handle, World.stop]
    | write what bytes => exact running
    | unlink path => exact running
    | answer mid char => exact running
    | recordMid mid => exact running
    | strayBytes => exact running

theorem Offers.step_aside {offers : Offers} {event : Event} (aside : event.aside = true) :
    offers.step event = offers := by
  cases event with
  | wrote what bytes => cases what <;> first | rfl | cases aside
  | unlinked path => cases aside
  | _ => rfl

theorem allowed_aside {offers : Offers} {event : Event} (aside : event.aside = true) :
    (cursorSafety origin).allowed offers event := by
  cases event with
  | wrote what bytes => cases what <;> first | exact trivial | cases aside
  | unlinked path => cases aside
  | _ => exact trivial

/-- What the aside operations keep: the offers, the accepted trace, and no fault. -/
theorem ends_aside {α : Type} {program : Session α} {world : World}
    (aside : Performs (fun op => op.aside = true) program) (safe : CursorSafe origin world) :
    Ends (handle env) program
      (fun _ after => CursorSafe origin after ∧ offersAt origin after = offersAt origin world)
      (CursorSafe origin) world := by
  suffices keeps : ∀ op before, op.aside = true →
      CursorSafe origin before ∧ offersAt origin before = offersAt origin world →
        CursorSafe origin (handle env op before).2 ∧
          offersAt origin (handle env op before).2 = offersAt origin world from
    (aside.ends keeps ⟨safe, rfl⟩).mono (fun _ _ holds => holds) fun _ holds => holds.1
  rintro op before aside ⟨⟨accepts, running⟩, same⟩
  obtain ⟨traced, halted⟩ := @handle_aside env op before aside
  rcases traced with traced | ⟨event, quiet, traced⟩
  · refine ⟨⟨by rw [traced]; exact accepts, halted running⟩, ?_⟩
    rw [offersAt, traced]
    exact same
  · refine ⟨⟨?_, halted running⟩, ?_⟩
    · rw [traced, Monitor.accepts_snoc]
      exact ⟨accepts, allowed_aside quiet⟩
    · rw [offersAt, traced, Monitor.state_snoc]
      exact (Offers.step_aside quiet).trans same

theorem Placed.of_offers {world after : World} (placed : Placed origin props cursor sent world)
    (kept : CursorSafe origin after ∧ offersAt origin after = offersAt origin world) :
    Placed origin props cursor sent after := by
  obtain ⟨safe, same⟩ := kept
  obtain ⟨-, unmarked, behind, inside, offered, batch, unlinked, flags⟩ := placed
  exact ⟨safe, unmarked, behind, inside, same ▸ offered, same ▸ batch, same ▸ unlinked,
    same ▸ flags⟩

theorem ends_placed_aside {α : Type} {program : Session α} {world : World}
    (aside : Performs (fun op => op.aside = true) program)
    (placed : Placed origin props cursor sent world) :
    Ends (handle env) program (fun _ => Placed origin props cursor sent) (CursorSafe origin)
      world :=
  (ends_aside aside placed.safe).mono (fun _ _ kept => placed.of_offers kept) fun _ safe => safe

theorem ends_placed_calm {α : Type} {program : Session α} {world : World}
    (calm : Performs (fun op => op.calm = true) program)
    (placed : Placed origin props cursor sent world) :
    Ends (handle env) program (fun _ => Placed origin props cursor sent) (CursorSafe origin)
      world :=
  ends_placed_aside (calm.mono fun _ => Op.aside_of_calm) placed

theorem offers_batch (batch : List Proposal) (offers : Offers) :
    (batch.map fun prop => Event.wrote (.proposal prop.mid) (proposalLine prop)).foldl
        (cursorSafety origin).step offers =
      { offers with
        offered := offers.offered ++ batch.map Proposal.mid
        batch := offers.batch + batch.length } := by
  induction batch generalizing offers with
  | nil => simp
  | cons prop rest ih =>
      rw [List.map_cons, List.foldl_cons, ih]
      simp [cursorSafety, Offers.step, Nat.add_assoc, Nat.add_comm 1]

theorem accepts_batch (batch : List Proposal) (offers : Offers)
    (room : offers.batch + batch.length ≤ propLimit)
    (start : offers.offered ++ batch.map Proposal.mid <+: origin.map Proposal.mid) :
    (cursorSafety origin).AcceptsFrom offers
      (batch.map fun prop => Event.wrote (.proposal prop.mid) (proposalLine prop)) := by
  induction batch generalizing offers with
  | nil => exact trivial
  | cons prop rest ih =>
      simp only [List.length_cons] at room
      refine ⟨⟨by omega, ?_⟩, ih _ ?_ ?_⟩
      · refine List.IsPrefix.trans ?_ start
        simp
      · simp only [cursorSafety, Offers.step]
        omega
      · simpa [cursorSafety, Offers.step] using start

theorem unmarked_length (same : props.map Proposal.unmarked = origin.map Proposal.unmarked) :
    props.length = origin.length := by
  simpa using congrArg List.length same

theorem Placed.offer {world after : World} (placed : Placed origin props cursor cursor world)
    (checksum : Bytes) (halted : after.halted = world.halted)
    (traced : after.trace = world.trace ++
      ((props.drop cursor).take propLimit).map
        (fun prop => .wrote (.proposal prop.mid) (proposalLine prop)) ++
      [.wrote .batchEnd checksum]) :
    Placed origin props cursor (cursor + ((props.drop cursor).take propLimit).length) after := by
  obtain ⟨⟨accepts, running⟩, unmarked, behind, inside, offered, batch, unlinked, flags⟩ := placed
  have mids := unmarked_mids unmarked
  have shown : ((props.drop cursor).take propLimit).map Proposal.mid =
      ((origin.map Proposal.mid).drop cursor).take propLimit := by
    rw [List.map_take, List.map_drop, mids]
  have longer : (origin.map Proposal.mid).take cursor ++
      ((props.drop cursor).take propLimit).map Proposal.mid =
      (origin.map Proposal.mid).take
        (cursor + ((props.drop cursor).take propLimit).length) := by
    have lengths := unmarked_length unmarked
    rw [shown, List.take_add]
    congr 1
    rw [List.length_take, List.length_drop, List.take_eq_take_iff, List.length_drop,
      List.length_map, lengths]
    omega
  have sentOffers : (cursorSafety origin).state (world.trace ++
      ((props.drop cursor).take propLimit).map
        (fun prop => Event.wrote (.proposal prop.mid) (proposalLine prop))) = _ :=
    (Monitor.state_append _ _ _).trans (offers_batch _ _)
  have now : offersAt origin after =
      { offered := (origin.map Proposal.mid).take
          (cursor + ((props.drop cursor).take propLimit).length)
        batch := 0
        unlinked := (offersAt origin world).unlinked } := by
    rw [offersAt, traced, Monitor.state_snoc, sentOffers, ← longer, ← offered]
    rfl
  refine ⟨⟨?_, halted ▸ running⟩, unmarked, Nat.le_add_right _ _, ?_, by rw [now], by rw [now],
    ?_, ?_⟩
  · rw [traced, Monitor.accepts_snoc]
    refine ⟨?_, trivial⟩
    rw [Monitor.Accepts, Monitor.acceptsFrom_append]
    refine ⟨accepts, accepts_batch _ _ ?_ ?_⟩
    · change (offersAt origin world).batch + _ ≤ _
      rw [batch, List.length_take]
      omega
    · change (offersAt origin world).offered ++ _ <+: _
      rw [offered, longer]
      exact List.take_prefix _ _
  · rw [List.length_take, List.length_drop]
    omega
  · rw [now]
    exact unlinked
  · rw [now]
    exact flags

theorem ends_transmit_value (limit : Nat) (props : List Proposal) (world : World) :
    Ends (handle env) (transmit limit props)
      (fun result _ => result = ((props.take limit).map Proposal.finished ++ props.drop limit,
        (props.take limit).length)) (fun _ => True) world := by
  induction limit generalizing props world with
  | zero => exact rfl
  | succ limit ih =>
      cases props with
      | nil => exact trivial
      | cons prop next =>
          rw [transmit]
          have one : Ends (handle env) (transmitOne prop) (fun sent _ => sent = prop.finished)
              (fun _ => True) world := by
            rw [transmitOne]
            split
            · exact Ends.bind ends_true fun _ _ _ => rfl
            · rename_i deleted
              have flag : prop.delete = true := by simpa using deleted
              change prop = { prop with delete := true }
              rw [← flag]
          refine Ends.bind one ?_
          rintro _ middle rfl
          split
          · rename_i last
            obtain rfl := List.isEmpty_iff.mp last
            change _ = _
            simp
          · refine Ends.bind (ih next middle) ?_
            rintro _ after rfl
            change _ = _
            simp

theorem performs_putBlocks (mid : Bytes) (fuel : Nat) (rem : Bytes) (cksum : UInt32) :
    Performs (fun op => op.aside = true) (putBlocks mid fuel rem cksum) := by
  induction fuel generalizing rem cksum with
  | zero => exact trivial
  | succ fuel ih =>
      rw [putBlocks]
      split
      · exact trivial
      · exact Performs.bind ⟨rfl, fun _ => trivial⟩ fun _ =>
          Performs.bind ⟨rfl, fun _ => trivial⟩ fun _ => ih _ _

theorem performs_transmit (limit : Nat) (props : List Proposal) (sendable : limit = 0 ∨ props ≠ [])
    (data : ∀ prop ∈ props, prop.csize = prop.cbuf.length) :
    Performs (fun op => op.aside = true) (transmit limit props) := by
  induction limit generalizing props with
  | zero => exact trivial
  | succ limit ih =>
      cases props with
      | nil => simp at sendable
      | cons prop next =>
          have size := data prop (List.mem_cons_self ..)
          have halts : ∀ message, Performs (fun op : Op => op.aside = true)
              (exit message : Session Unit) := fun message => ⟨rfl, fun halted => halted.elim⟩
          have one : Performs (fun op => op.aside = true) (transmitOne prop) := by
            unfold transmitOne
            split
            · refine Performs.bind ?_ fun _ => trivial
              unfold putcompressed
              refine Performs.bind ⟨rfl, fun _ => trivial⟩ fun _ => ?_
              split
              · exact halts _
              · split
                · exact halts _
                · rw [if_neg (by omega)]
                  exact Performs.bind (performs_putBlocks _ _ _ _) fun _ =>
                    ⟨rfl, fun _ => trivial⟩
            · exact trivial
          rw [transmit]
          refine Performs.bind one fun _ => ?_
          split
          · exact trivial
          · rename_i more
            refine Performs.bind (ih next (.inr fun empty => more (by simp [empty])) ?_)
              fun _ => trivial
            exact fun other member => data other (List.mem_cons_of_mem _ member)

/-- The transmitted batch lies behind the cursor, and what stood before it is unchanged. -/
theorem Placed.transmitted {world : World} {marked : List Proposal} (distinct :
      (origin.map Proposal.mid).Nodup) (placed : Placed origin props cursor sent world)
    (marks : marked.map Proposal.unmarked = (props.drop cursor).map Proposal.unmarked) :
    Placed origin (props.take cursor ++ ((marked.take propLimit).map Proposal.finished ++
      marked.drop propLimit)) sent sent world := by
  obtain ⟨safe, unmarked, behind, inside, offered, batch, unlinked, flags⟩ := placed
  have finished : ∀ batch : List Proposal,
      (batch.map Proposal.finished).map Proposal.unmarked = batch.map Proposal.unmarked := by
    intro batch
    rw [List.map_map]
    exact List.map_congr_left fun _ _ => rfl
  have whole : (props.take cursor ++ ((marked.take propLimit).map Proposal.finished ++
      marked.drop propLimit)).map Proposal.unmarked = origin.map Proposal.unmarked := by
    rw [List.map_append, List.map_append, finished, ← List.map_append, List.take_append_drop,
      marks, ← List.map_append, List.take_append_drop, unmarked]
  refine ⟨safe, whole, Nat.le_refl _, ?_, offered, batch, ?_, ?_⟩
  · rw [unmarked_length whole, ← unmarked_length unmarked]
    exact inside
  · intro path member
    exact List.take_subset_take_left _ behind (unlinked path member)
  · intro prop member gone
    have short : (props.take cursor).length = cursor :=
      List.length_take_of_le (Nat.le_trans behind inside)
    rcases List.mem_append.mp (List.mem_of_mem_take member) with early | late
    · exact flags prop early gone
    · -- the message comes behind all that were unlinked
      have early := unlinked prop.mid gone
      rw [← unmarked_mids whole, List.map_append, List.take_left' (by rw [List.length_map, short])]
        at early
      rw [← unmarked_mids whole, List.map_append, List.nodup_append] at distinct
      exact absurd rfl (distinct.2.2 _ early _ (List.mem_map_of_mem late))

theorem ends_answers_cursor (prepared : Prepared origin) (line : Bytes) (world : World)
    (placed : Placed origin props cursor
      (cursor + ((props.drop cursor).take propLimit).length) world)
    (more : props.drop cursor ≠ []) :
    Ends (handle env)
      (do
        let offered ← readAnswers 0 (props.drop cursor) (skipSpace (line.drop 3))
        let (offered, moved) ← transmit propLimit offered
        pure ((0 : Int), props.take cursor ++ offered, cursor + moved))
      (fun result after => Placed origin result.2.1 result.2.2 result.2.2 after)
      (CursorSafe origin) world := by
  rw [readAnswers_eq]
  rcases found : markAnswers (props.drop cursor) (skipSpace (line.drop 3)) with _ | marked
  · simp only [exit_bind, ends_exit]
    exact ⟨placed.safe.accepts, by simp [World.stop]⟩
  · have marks : marked.map Proposal.unmarked = (props.drop cursor).map Proposal.unmarked :=
      markAnswers_unmarked _ _ _
        (fun prop member => (prepared_member prepared placed.unmarked
          (List.mem_of_mem_drop member)).1) found
    have nonempty : marked ≠ [] := by
      rintro rfl
      exact more (List.map_eq_nil_iff.mp marks.symm)
    have data : ∀ prop ∈ marked, prop.csize = prop.cbuf.length := by
      intro prop member
      have unmarked : (props.take cursor ++ marked).map Proposal.unmarked =
          origin.map Proposal.unmarked := by
        rw [List.map_append, marks, ← List.map_append, List.take_append_drop, placed.unmarked]
      exact (prepared_member prepared unmarked (List.mem_append_right _ member)).2.2
    have lengths : (marked.take propLimit).length =
        ((props.drop cursor).take propLimit).length := by
      have same := congrArg List.length marks
      simp only [List.length_map] at same
      rw [List.length_take, List.length_take, same]
    simp only [Program.pure_eq_ret, Program.ret_bind]
    refine Ends.bind (((ends_transmit_value propLimit marked world).and
      (ends_placed_aside (performs_transmit propLimit marked (.inr nonempty) data) placed)).mono
      (fun _ _ holds => holds) fun _ holds => holds.2) ?_
    rintro _ after ⟨rfl, kept⟩
    have settled := kept.transmitted prepared.distinct marks
    rw [← lengths] at settled
    exact settled

theorem ends_b2outboundproposal_cursor (prepared : Prepared origin) (fuel : Nat)
    (lastcommand : Bytes) (world : World) (placed : Placed origin props cursor cursor world) :
    Ends (handle env) (b2outboundproposal fuel lastcommand props cursor)
      (fun result after => Placed origin result.2.1 result.2.2 result.2.2 after)
      (CursorSafe origin) world := by
  unfold b2outboundproposal
  simp only
  split
  · rename_i some
    have more : props.drop cursor ≠ [] := by simpa using some
    obtain ⟨sum, ran⟩ := run_sendProposals env propLimit (props.drop cursor) 0 world
      (.inr more)
    rw [ends_bind, Ends, ran]
    simp only [ends_write]
    generalize wrote : World.log _ _ = asked
    have waiting : Placed origin props cursor
        (cursor + ((props.drop cursor).take propLimit).length) asked := by
      refine placed.offer (ascii "F> " ++ hexByte (cksumByte sum).toNat ++ ascii "\r") ?_ ?_
      · rw [← wrote]
        rfl
      · rw [← wrote]
        rfl
    refine Ends.bind (ends_placed_calm ⟨rfl, fun _ => trivial⟩ waiting) ?_
    intro answer got waiting
    cases answer with
    | none => exact ⟨waiting.safe.accepts, by simp [World.stop]⟩
    | some line =>
        refine Ends.bind (ends_placed_calm (performs_skipLines _ fuel line) waiting) ?_
        intro line got waiting
        refine Ends.bind (ends_placed_calm (performs_skipLines _ fuel line) waiting) ?_
        intro line got waiting
        split
        · exact ⟨waiting.safe.accepts, by simp [World.stop]⟩
        · exact ends_answers_cursor prepared line got waiting more
  · split
    · exact Ends.bind (ends_placed_calm (performs_command _) placed) fun _ _ kept => kept
    · exact Ends.bind (ends_placed_calm (performs_command _) placed) fun _ _ kept => kept

theorem ends_dodelete_cursor (props : List Proposal) (cursor : Nat) (world : World)
    (inside : cursor ≤ props.length) (safe : CursorSafe origin world)
    (paths : ∀ prop ∈ props.take cursor, prop.path = some prop.mid)
    (offered : ∀ prop ∈ props.take cursor, prop.mid ∈ (offersAt origin world).offered)
    (distinct : ((props.take cursor).map Proposal.mid).Nodup)
    (fresh : ∀ prop ∈ props.take cursor, prop.delete = true →
      prop.mid ∉ (offersAt origin world).unlinked) :
    Ends (handle env) (dodelete props cursor)
      (fun result after => result = (props.take cursor).map Proposal.cleared ++ props.drop cursor ∧
        CursorSafe origin after ∧
        offersAt origin after =
          { offersAt origin world with
            unlinked := (offersAt origin world).unlinked ++
              ((props.take cursor).filter Proposal.delete).map Proposal.mid })
      (fun _ => False) world := by
  induction cursor generalizing props world with
  | zero =>
      unfold dodelete
      exact ⟨rfl, safe, by simp⟩
  | succ cursor ih =>
      cases props with
      | nil => simp at inside
      | cons prop next =>
          simp only [List.take_succ_cons, List.mem_cons, List.map_cons, List.nodup_cons,
            forall_eq_or_imp] at paths offered distinct fresh
          rw [dodelete]
          have first : Ends (handle env) (deleteOne prop)
              (fun result after => result = prop.cleared ∧ CursorSafe origin after ∧
                offersAt origin after =
                  { offersAt origin world with
                    unlinked := (offersAt origin world).unlinked ++
                      if prop.delete then [prop.mid] else [] }) (fun _ => False) world := by
            rw [deleteOne, Proposal.cleared, paths.1]
            cases flag : prop.delete with
            | false => exact ⟨rfl, safe, by simp⟩
            | true =>
                simp only [ends_unlink]
                refine ⟨rfl, ⟨?_, safe.running⟩, ?_⟩
                · exact (Monitor.accepts_snoc _ _ _).mpr
                    ⟨safe.accepts, offered.1, fresh.1 flag⟩
                · exact Monitor.state_snoc _ _ _
          refine Ends.bind first ?_
          rintro _ middle ⟨rfl, kept, same⟩
          refine Ends.bind (ih next middle (by simpa using inside) kept paths.2 ?_ distinct.2 ?_) ?_
          · rw [same]
            exact offered.2
          · -- the file unlinked last is not one of those that follow
            intro other member flag gone
            rw [same, List.mem_append] at gone
            rcases gone with before | now
            · exact fresh.2 other member flag before
            · split at now
              · rw [List.mem_singleton] at now
                exact distinct.1 (now ▸ List.mem_map_of_mem member)
              · cases now
          · rintro _ after ⟨rfl, later, ledger⟩
            refine ⟨by simp, later, ?_⟩
            rw [ledger, same]
            cases flag : prop.delete <;> simp [flag]

theorem ends_deleteTurn_cursor (prepared : Prepared origin) (parser : Parser) (world : World)
    (placed : Placed origin parser.props parser.cursor parser.cursor world) :
    Ends (handle env) (deleteTurn parser)
      (fun result after => ∃ props, result = { parser with props := props } ∧
        Placed origin props parser.cursor parser.cursor after)
      (fun _ => False) world := by
  obtain ⟨safe, unmarked, behind, inside, offered, batch, unlinked, kept⟩ := placed
  have mids := unmarked_mids unmarked
  have start : ((parser.props.take parser.cursor).map Proposal.cleared).length =
      parser.cursor := by
    rw [List.length_map]
    exact List.length_take_of_le inside
  have paths : ∀ prop ∈ parser.props.take parser.cursor, prop.path = some prop.mid :=
    fun prop member => (prepared_member prepared unmarked (List.mem_of_mem_take member)).2.1
  have proposed : ∀ prop ∈ parser.props.take parser.cursor,
      prop.mid ∈ (origin.map Proposal.mid).take parser.cursor := by
    intro prop member
    rw [← mids, ← List.map_take]
    exact List.mem_map_of_mem member
  rw [deleteTurn]
  refine Ends.bind (ends_dodelete_cursor parser.props parser.cursor world inside safe paths
    (fun prop member => offered ▸ proposed prop member) ?_ ?_) ?_
  · rw [List.map_take, mids]
    exact prepared.distinct.sublist (List.take_sublist _ _)
  · intro prop member flag gone
    rw [kept prop member gone] at flag
    cases flag
  · rintro _ after ⟨rfl, later, offers⟩
    refine ⟨_, rfl, later, ?_, Nat.le_refl _, by simp [inside], by rw [offers, offered],
      by rw [offers, batch], ?_, ?_⟩
    · rw [List.map_append, List.map_map, funext (show ∀ prop, (Proposal.unmarked ∘
        Proposal.cleared) prop = prop.unmarked from cleared_unmarked), ← List.map_append,
        List.take_append_drop, unmarked]
    · intro path gone
      rw [offers, List.mem_append] at gone
      rcases gone with before | now
      · exact unlinked path before
      · obtain ⟨prop, member, rfl⟩ := List.mem_map.mp now
        exact proposed prop (List.mem_filter.mp member).1
    · intro prop member _
      rw [List.take_left' start] at member
      obtain ⟨source, inside, rfl⟩ := List.mem_map.mp member
      cases flag : source.delete with
      | false => simp [Proposal.cleared, flag]
      | true => simp [Proposal.cleared, flag, paths source inside]

theorem performs_getline : Performs (fun op => op.calm = true) getline :=
  ⟨rfl, fun _ => trivial⟩

def RoundPlaced (origin : List Proposal) (round : Round) (after : World) : Prop :=
  Placed origin round.parser.props round.parser.cursor round.parser.cursor after

theorem ends_outboundTurn_cursor (prepared : Prepared origin) (fuel : Nat) (line : Bytes)
    (parser : Parser) (world : World)
    (placed : Placed origin parser.props parser.cursor parser.cursor world) :
    Ends (handle env) (outboundTurn fuel line parser) (RoundPlaced origin) (CursorSafe origin)
      world := by
  rw [outboundTurn]
  refine Ends.bind (ends_b2outboundproposal_cursor prepared fuel line world placed) ?_
  intro result after kept
  simp only
  split <;> exact kept

theorem CursorSafe.exited {world : World} (safe : CursorSafe origin world) {reason : Halt}
    (running : reason ≠ .fault) : CursorSafe origin (world.stop reason) :=
  ⟨safe.accepts, by simpa [World.stop] using running⟩

theorem ends_inboundCommand_cursor (prepared : Prepared origin) (config : Config) (fuel : Nat)
    (parser : Parser) (line : Bytes) (world : World)
    (placed : Placed origin parser.props parser.cursor parser.cursor world) :
    Ends (handle env) (inboundCommand config fuel parser line) (RoundPlaced origin)
      (CursorSafe origin) world := by
  have deletes : ∀ {world : World},
      Placed origin parser.props parser.cursor parser.cursor world →
      ∀ {next : Parser → Session Round},
      (∀ props after, Placed origin props parser.cursor parser.cursor after →
        Ends (handle env) (next { parser with props := props }) (RoundPlaced origin)
          (CursorSafe origin) after) →
      Ends (handle env) (deleteTurn parser >>= next) (RoundPlaced origin) (CursorSafe origin)
        world := by
    intro world placed next rest
    refine Ends.bind ((ends_deleteTurn_cursor prepared parser world placed).mono
      (fun _ _ holds => holds) fun _ impossible => impossible.elim) ?_
    rintro _ after ⟨props, rfl, kept⟩
    exact rest props after kept
  unfold inboundCommand
  split
  · exact placed
  split
  · exact placed
  split
  · refine deletes placed fun props after kept => ?_
    split
    · exact kept.safe.exited (by simp)
    · split
      · exact kept.safe.exited (by simp)
      · exact kept
  split
  · exact deletes placed fun props after kept =>
      ends_outboundTurn_cursor prepared fuel line _ after kept
  split
  · exact placed
  split
  · exact deletes placed fun props after kept => kept
  split
  · split
    · exact Ends.bind (ends_placed_calm (performs_command _) placed) fun _ _ kept => kept
    · split
      · exact placed.safe.exited (by simp)
      · exact Ends.bind (ends_placed_calm (performs_receiveBatch config parser.proposals) placed)
          fun _ after kept => ends_outboundTurn_cursor prepared fuel line _ after kept
  · rw [ends_strayBytes]
    have ticked : Placed origin parser.props parser.cursor parser.cursor world.tick :=
      placed.of_offers ⟨⟨placed.safe.accepts, placed.safe.running⟩, rfl⟩
    split
    · exact deletes ticked fun props after kept =>
        ends_outboundTurn_cursor prepared fuel line _ after kept
    · exact ticked.safe.exited (by simp)

theorem ends_inboundParser_cursor (prepared : Prepared origin) (config : Config) (fuel : Nat)
    (parser : Parser) (world : World)
    (placed : Placed origin parser.props parser.cursor parser.cursor world) :
    Ends (handle env) (inboundParser config fuel parser)
      (fun result => Placed origin result.2.props result.2.cursor result.2.cursor)
      (CursorSafe origin) world := by
  induction fuel generalizing parser world with
  | zero => exact placed.safe.exited (by simp)
  | succ fuel ih =>
      rw [inboundParser]
      refine Ends.bind (ends_placed_calm performs_getline placed) ?_
      intro next after kept
      cases next with
      | none => exact kept.safe.exited (by simp)
      | some line =>
          refine Ends.bind (ends_inboundCommand_cursor prepared config fuel parser line after
            kept) ?_
          intro round later held
          cases round with
          | again parser => exact ih parser later held
          | returns value parser => exact held

theorem placed_start (origin : List Proposal) (input : Bytes) (closed : Bool) (db : MidDb) :
    Placed origin origin 0 0 (World.start input closed db) := by
  refine ⟨⟨trivial, by simp [World.start]⟩, rfl, Nat.le_refl _, Nat.zero_le _, rfl, rfl, ?_, ?_⟩
  · intro path member
    cases member
  · intro prop member
    cases member

/-- The states in which a session of either kind reads its next command, with the lines
its command loop has read. -/
inductive AtCommand (env : Env) (config : Config) (origin : List Proposal) (start : World) :
    Nat → List Bytes → Parser → World → Prop where
  | client {fuel : Nat} {line : Bytes} {props : List Proposal} {cursor : Nat}
      {greeted world : World}
      (greets : run (handle env) (handshake config fuel none []) start = (some line, greeted))
      (offers : run (handle env) (b2outboundproposal fuel line origin 0) greeted =
        (some (0, props, cursor), world))
      {selects : List Selected} (hears : wl2kWaitForResponse selects = some true) :
      AtCommand env config origin start fuel []
        { props := props, cursor := cursor, proposals := [], proposalcksum := 0 } world
  | daemon {fuel : Nat} {line : Bytes} {started world : World}
      (starts : run (handle env) (p2pStartmsg config origin) start = (some (), started))
      (greets : run (handle env) (handshakeNoSecureLogin config origin.length fuel none) started =
        (some line, world)) :
      AtCommand env config origin start fuel []
        { props := origin, cursor := 0, proposals := [], proposalcksum := 0 } world
  | next {fuel : Nat} {lines : List Bytes} {line : Bytes} {parser later : Parser}
      {world got after : World}
      (before : AtCommand env config origin start (fuel + 1) lines parser world)
      (reads : run (handle env) getline world = (some (some line), got))
      (again : run (handle env) (inboundCommand config fuel parser line) got =
        (some (.again later), after)) :
      AtCommand env config origin start fuel (lines ++ [line]) later after

theorem Ends.of_run {α : Type} {program : Session α} {returned : α → World → Prop}
    {halted : World → Prop} {world after : World} {value : α}
    (ends : Ends (handle env) program returned halted world)
    (ran : run (handle env) program world = (some value, after)) : returned value after := by
  rwa [Ends, ran] at ends

theorem placed_atCommand (prepared : Prepared origin) (config : Config) {start world : World}
    (placed : Placed origin origin 0 0 start) {fuel : Nat} {lines : List Bytes} {parser : Parser}
    (reached : AtCommand env config origin start fuel lines parser world) :
    Placed origin parser.props parser.cursor parser.cursor world := by
  induction reached with
  | client greets offers hears =>
      have greeted := Ends.of_run (ends_placed_calm (performs_handshake config _ none []) placed)
        greets
      have offered := Ends.of_run (ends_b2outboundproposal_cursor prepared _ _ _ greeted) offers
      exact offered
  | daemon starts greets =>
      have started := Ends.of_run (ends_placed_calm (performs_p2pStartmsg config origin) placed)
        starts
      have greeted := Ends.of_run (ends_placed_calm
        (performs_handshakeNoSecureLogin config origin.length _ none) started) greets
      exact greeted
  | next before reads again kept =>
      have got := Ends.of_run (ends_placed_calm performs_getline kept) reads
      have taken := Ends.of_run (ends_inboundCommand_cursor prepared config _ _ _ _ got) again
      exact taken

theorem ends_wl2kExchange_cursor (prepared : Prepared origin) (selects : List Selected)
    (config : Config) (fuel : Nat) (world : World) (placed : Placed origin origin 0 0 world) :
    Ends (handle env) (wl2kExchange selects config fuel origin)
      (fun result => Placed origin result.1 result.2 result.2) (CursorSafe origin) world := by
  rw [wl2kExchange]
  refine Ends.bind (ends_placed_calm (performs_handshake config fuel none []) placed) ?_
  intro line greeted kept
  rw [clientSession]
  refine Ends.bind (ends_b2outboundproposal_cursor prepared fuel line greeted kept) ?_
  rintro ⟨ret, props, cursor⟩ after later
  simp only
  split
  · exact later
  · split
    · exact later.safe.exited (by simp)
    · exact later
    · exact Ends.bind (ends_inboundParser_cursor prepared config fuel _ after later)
        fun _ _ ended => ended

theorem ends_wl2kdExchange_cursor (prepared : Prepared origin) (config : Config) (fuel : Nat)
    (world : World) (placed : Placed origin origin 0 0 world) :
    Ends (handle env) (wl2kdExchange config fuel origin)
      (fun result => Placed origin result.1 result.2 result.2) (CursorSafe origin) world := by
  rw [wl2kdExchange]
  refine Ends.bind (ends_placed_calm (performs_p2pStartmsg config origin) placed) ?_
  intro _ started kept
  refine Ends.bind (ends_placed_calm
    (performs_handshakeNoSecureLogin config origin.length fuel none) kept) ?_
  intro line greeted kept
  rw [daemonSession]
  refine Ends.bind (((inboundParser_value config fuel _ greeted).and
    (ends_inboundParser_cursor prepared config fuel
      { props := origin, cursor := 0, proposals := [], proposalcksum := 0 } greeted kept)).mono
      (fun _ _ holds => holds) fun _ holds => holds.2) ?_
  rintro ⟨value, parser⟩ after ⟨onward, ended⟩
  simp only [if_neg onward]
  exact ended

/-- The cursor is a position of the list the session started with, up to its flags. -/
structure CursorInside (origin props : List Proposal) (cursor : Nat) : Prop where
  inside : cursor ≤ props.length
  same : props.map Proposal.unmarked = origin.map Proposal.unmarked

theorem Placed.cursorInside {world : World} (placed : Placed origin props cursor cursor world) :
    CursorInside origin props cursor :=
  ⟨placed.inside, placed.unmarked⟩

/-- Whatever the peer sends, at every command and at the end of a session the cursor is a
position of the list, walking up to it never runs off the list, and the messages are
offered in order, each once, in batches of at most the limit, and unlinked at most once. -/
theorem cursor_safe (env : Env) (config : Config) (fuel : Nat) (props : List Proposal)
    (prepared : Prepared props) (input : Bytes) (closed : Bool) (db : MidDb)
    (selects : List Selected)
    (exchange : Config → Nat → List Proposal → Session (List Proposal × Nat))
    (either : exchange = wl2kExchange selects ∨ exchange = wl2kdExchange) :
    CursorSafe props
        (run (handle env) (exchange config fuel props) (World.start input closed db)).2 ∧
      (∀ result ∈ (run (handle env) (exchange config fuel props)
          (World.start input closed db)).1, CursorInside props result.1 result.2) ∧
      ∀ left lines parser world,
        AtCommand env config props (World.start input closed db) left lines parser world →
          CursorInside props parser.props parser.cursor ∧ CursorSafe props world := by
  have placed := placed_start props input closed db
  have ends : Ends (handle env) (exchange config fuel props)
      (fun result => Placed props result.1 result.2 result.2) (CursorSafe props)
      (World.start input closed db) := by
    rcases either with rfl | rfl
    · exact ends_wl2kExchange_cursor prepared selects config fuel _ placed
    · exact ends_wl2kdExchange_cursor prepared config fuel _ placed
  have heads : ∀ left lines parser world,
      AtCommand env config props (World.start input closed db) left lines parser world →
        CursorInside props parser.props parser.cursor ∧ CursorSafe props world := by
    intro left lines parser world reached
    have kept := placed_atCommand prepared config placed reached
    exact ⟨kept.cursorInside, kept.safe⟩
  simp only [Ends] at ends
  rcases found : run (handle env) (exchange config fuel props) (World.start input closed db)
    with ⟨value, after⟩
  rw [found] at ends
  cases value with
  | none => exact ⟨ends, by simp, heads⟩
  | some result =>
      refine ⟨ends.safe, ?_, heads⟩
      rintro other same
      obtain rfl := Option.some.inj same
      exact ends.cursorInside

theorem cursor_safe_sample :
    Prepared sampleOutbox ∧
    CursorSafe sampleOutbox (run (handle quietEnv)
      (wl2kExchange [.readable] sampleConfig 10 sampleOutbox) answeringTwice).2 :=
  ⟨samplePrepared, (cursor_safe quietEnv sampleConfig 10 sampleOutbox samplePrepared _ true
    (fun _ => none) [.readable] (wl2kExchange [.readable]) (.inl rfl)).1⟩

end PaclinkUnix
