import PaclinkUnix.Correspondence

/-!
A session that is not cut comes to its end: there is no moment at which both programs wait
for each other, and from every moment what is on its way can be delivered until both have
returned.
-/

namespace PaclinkUnix

open Effects Effects.Program Duplex

theorem woven_round (held : Bytes → Bool) (side : Side) (knows : side.held = held)
    (batch : List Proposal) :
    Woven Event.reads Event.writes (askEvents held batch) (replyEvents side batch) := by
  obtain ⟨offered, deaf⟩ := offerEvents_bytes batch
  obtain ⟨asked, asking⟩ := askEvents_bytes held batch
  obtain ⟨replied, replying⟩ := replyEvents_bytes side batch
  obtain ⟨frames, mute⟩ := deliverEvents_bytes side.config (wanted side.held batch)
  have split : ∃ front, replyEvents side batch =
      front ++ (wanted side.held batch).flatMap (deliverEvents side.config) :=
    ⟨offerRead side.unlinks batch ++ lineRead (batchEndLine batch) ::
      (batch.flatMap (answerEvents side.held) ++
        [.wrote .answers (replyText side.held batch ++ [carriageReturn])]),
      by simp [replyEvents]⟩
  obtain ⟨front, split⟩ := split
  rw [split, List.flatMap_append, frames] at replied
  rw [split, List.flatMap_append, mute, List.append_nil] at replying
  have lines := List.append_cancel_right replied
  rw [split]
  have offers : Woven Event.reads Event.writes (offerEvents batch) [] :=
    Woven.start.firsts (offerEvents batch) (by rw [List.nil_append, deaf]; exact Nat.zero_le _)
  have answers : Woven Event.reads Event.writes (offerEvents batch) front :=
    offers.seconds front (by rw [List.nil_append, lines, offered])
  have sends := answers.firsts (lineRead (replyText held batch) ::
    (wanted held batch).flatMap frameEvents) (by
      rw [← askEvents, asked, replying, knows])
  refine sends.seconds _ ?_
  rw [← askEvents, asking, List.flatMap_append, lines, frames, knows]

theorem Talk.woven {mine theirs mineEnd theirsEnd : Side} {passed : Bool}
    {said heard : List Event} (talk : Talk mine theirs passed said heard mineEnd theirsEnd) :
    Woven Event.reads Event.writes said heard := by
  have command : ∀ (text : Bytes) (side : Side),
      Woven Event.reads Event.writes [.wrote .command (text ++ [carriageReturn])]
        (lineRead text :: side.unlinks) := by
    intro text side
    obtain ⟨deaf, -⟩ := unlinks_silent side
    have writes : Woven Event.reads Event.writes
        [.wrote .command (text ++ [carriageReturn])] [] :=
      Woven.start.firsts _ (Nat.zero_le _)
    refine writes.seconds (lineRead text :: side.unlinks) ?_
    rw [List.nil_append, List.flatMap_cons, deaf, List.append_nil, List.flatMap_singleton]
    exact Nat.le_refl _
  induction talk with
  | @quit mine theirs none => exact command quitText theirs
  | @pass mine theirs mineEnd theirsEnd said heard none rest ih =>
      obtain ⟨deaf, mute⟩ := unlinks_silent theirs
      refine (command passText theirs).append ?_ ?_ ih.swap
      · exact Nat.zero_le _
      · rw [List.flatMap_cons, deaf, List.append_nil, List.flatMap_singleton]
        exact Nat.le_refl _
  | @batch mine theirs mineEnd theirsEnd passed said heard some rest ih =>
      obtain ⟨asked, asking⟩ := askEvents_bytes theirs.held mine.batch
      obtain ⟨replied, replying⟩ := replyEvents_bytes theirs mine.batch
      exact (woven_round theirs.held theirs rfl mine.batch).append (by rw [asked, replying])
        (by rw [replied, asking]) ih.swap

theorem lineRead_exact {text : Bytes} (plain : ∀ char ∈ text, lineChar char = true) :
    (lineRead text).exact := by
  intro rest
  rw [List.append_assoc]
  exact wl2kgetline_line plain rest

theorem ask_exact (held : Bytes → Bool) (batch : List Proposal) :
    ∀ event ∈ askEvents held batch, event.exact := by
  intro event member
  rcases mem_askEvents member with ⟨what, bytes, rfl⟩ | rfl
  · trivial
  · exact lineRead_exact (replyText_lineChar held batch)

theorem unlinks_exact (side : Side) : ∀ event ∈ side.unlinks, event.exact := by
  intro event member
  obtain ⟨mid, rfl⟩ := mem_unlinks member
  trivial

theorem reply_exact (side : Side) {batch : List Proposal} {receiver : Config}
    (deliverable : ∀ prop ∈ batch, Deliverable receiver prop) :
    ∀ event ∈ replyEvents side batch, event.exact := by
  intro event member
  rw [replyEvents, List.mem_append, List.mem_cons, List.mem_append, List.mem_cons] at member
  rcases member with read | rfl | looked | rfl | received
  · rcases mem_offerRead read with ⟨prop, inside, rfl⟩ | unlinked
    · exact lineRead_exact (deliverable prop inside).offerable.lineChars
    · exact unlinks_exact side event unlinked
  · exact lineRead_exact (batchEndLine_lineChar batch)
  · rcases mem_answers looked with ⟨mid, calls, result, known, rfl⟩ | ⟨mid, char, rfl⟩ <;> trivial
  · trivial
  · obtain ⟨prop, wants, member⟩ := List.mem_flatMap.mp received
    have fits := deliverable prop (List.mem_filter.mp wants).1
    simp only [deliverEvents, List.mem_cons, List.not_mem_nil, or_false] at member
    rcases member with rfl | rfl | rfl
    · exact fun rest => getcompressed_frame prop fits.fit fits.title rest
    · trivial
    · trivial

theorem Talk.exact {mine theirs mineEnd theirsEnd : Side} {passed : Bool}
    {said heard : List Event} (talk : Talk mine theirs passed said heard mineEnd theirsEnd)
    (fit : mine.Fit theirs.config) (fitOther : theirs.Fit mine.config) :
    (∀ event ∈ said, event.exact) ∧ ∀ event ∈ heard, event.exact := by
  have commands : ∀ {text : Bytes}, (∀ char ∈ text, lineChar char = true) → ∀ side : Side,
      ∀ event ∈ lineRead text :: side.unlinks, event.exact := by
    intro text plain side event member
    rcases List.mem_cons.mp member with rfl | unlinked
    · exact lineRead_exact plain
    · exact unlinks_exact side event unlinked
  have joined : ∀ first second : List Event, (∀ event ∈ first, event.exact) →
      (∀ event ∈ second, event.exact) → ∀ event ∈ first ++ second, event.exact := by
    intro first second before after event member
    exact (List.mem_append.mp member).elim (before event) (after event)
  have writes : ∀ bytes, ∀ event ∈ [Event.wrote .command bytes], event.exact := by
    intro bytes event member
    rw [List.mem_singleton.mp member]
    trivial
  induction talk with
  | @quit mine theirs none => exact ⟨writes _, commands (by decide +kernel) theirs⟩
  | @pass mine theirs mineEnd theirsEnd said heard none rest ih =>
      obtain ⟨later, laterOther⟩ := ih fitOther.deleted fit
      exact ⟨joined [_] said (writes _) laterOther,
        joined _ heard (commands (by decide +kernel) theirs) later⟩
  | @batch mine theirs mineEnd theirsEnd passed said heard some rest ih =>
      obtain ⟨later, laterOther⟩ := ih (fitOther.received mine.batch) (fit.offered theirs.held)
      exact ⟨joined _ said (ask_exact theirs.held mine.batch) laterOther,
        joined _ heard (reply_exact theirs fit.batch) later⟩

section Sessions

variable {first second here there : Station} {meeting : Meeting}

theorem sessionEnd_stuck {α : Type} {env : Env} {program : Session α} {db : MidDb}
    {input whole : Bytes} {events partOther : List Event}
    (all : (sessionEnd env program db).trace whole = events) (inside : input <+: whole)
    (exact : ∀ event ∈ events, event.exact) (arrived : input = partOther.flatMap Event.writes) :
    Stuck Event.reads Event.writes events ((sessionEnd env program db).trace input) partOther := by
  rcases (sessionEnd env program db).trace_waits inside with done | ⟨event, rest, onward, -⟩
  · exact .inl (done.trans all)
  · rw [all] at onward
    refine .inr ⟨event, rest, onward, ?_⟩
    obtain ⟨more, rfl⟩ := inside
    have fed : (run (handle env) program { World.start input false db with
        input := input ++ more }).2.trace =
        (run (handle env) program (World.start input false db)).2.trace ++ event :: rest :=
      all.trans onward
    have short := run_short program (World.start input false db) rfl more
      (exact event (by rw [onward]; simp)) fed
    have consumes : Consumes input (run (handle env) program (World.start input false db)).2 :=
      run_invariant (Consumes input) (fun op _ => handle_consumes op) program ⟨rfl, rfl⟩
    have sizes := congrArg List.length consumes.2
    rw [← arrived, List.flatMap_append, List.length_append, List.flatMap_singleton]
    rw [List.length_append] at sizes
    change input.length < ((run (handle env) program
      (World.start input false db)).2.trace.flatMap Event.reads).length + _
    omega

/-- Two ends that have been sent all that was written have done all that they do. -/
theorem ends_whole {α β : Type} {env envOther : Env} {program : Session α}
    {programOther : Session β} {db dbOther : MidDb} {said heard : List Event}
    {input inputOther : Bytes}
    (trace : (sessionEnd env program db).trace (said.flatMap Event.reads) = said)
    (traceOther : (sessionEnd envOther programOther dbOther).trace
      (heard.flatMap Event.reads) = heard)
    (balanced : said.flatMap Event.reads = heard.flatMap Event.writes ∧
      heard.flatMap Event.reads = said.flatMap Event.writes)
    (woven : Woven Event.reads Event.writes said heard)
    (exact : (∀ event ∈ said, event.exact) ∧ ∀ event ∈ heard, event.exact)
    (inside : input <+: said.flatMap Event.reads)
    (insideOther : inputOther <+: heard.flatMap Event.reads)
    (all : input =
      ((sessionEnd envOther programOther dbOther).trace inputOther).flatMap Event.writes)
    (allOther : inputOther = ((sessionEnd env program db).trace input).flatMap Event.writes) :
    ((sessionEnd env program db).trace input = said ∧
      (sessionEnd envOther programOther dbOther).trace inputOther = heard) ∧
    input = said.flatMap Event.reads ∧ inputOther = heard.flatMap Event.reads := by
  have stuck := sessionEnd_stuck trace inside exact.1 all
  have stuckOther := sessionEnd_stuck traceOther insideOther exact.2 allOther
  obtain ⟨reached, reachedOther⟩ := woven.complete (List.prefix_refl said)
    (List.prefix_refl heard) stuck stuckOther
  have done := (sessionEnd env program db).trace_mono inside
  have doneOther := (sessionEnd envOther programOther dbOther).trace_mono insideOther
  rw [trace] at done
  rw [traceOther] at doneOther
  have same := done.eq_of_length_le reached.length_le
  have sameOther := doneOther.eq_of_length_le reachedOther.length_le
  refine ⟨⟨same, sameOther⟩, ?_, ?_⟩
  · rw [all, sameOther, balanced.1]
  · rw [allOther, same, balanced.2]

/-- What both programs have written has arrived. -/
structure Meeting.Uncut (meeting : Meeting) (caller called : Station) : Prop where
  all : meeting.input = ((sessionEnd meeting.envOther (meeting.calledProgram called)
    called.db).trace meeting.inputOther).flatMap Event.writes
  allOther : meeting.inputOther = ((sessionEnd meeting.env (meeting.callerProgram caller)
    caller.db).trace meeting.input).flatMap Event.writes

/-- What is on its way can be delivered, at every moment of a session. -/
theorem Meeting.Between.settles (corresponded : Corresponded first second here there)
    (ready : first.Ready second) (readyOther : second.Ready first)
    (between : meeting.Between here there)
    (hears : wl2kWaitForResponse meeting.selects = some true) :
    ∃ input inputOther, meeting.input <+: input ∧ meeting.inputOther <+: inputOther ∧
      { meeting with input := input, inputOther := inputOther }.Between here there ∧
      { meeting with input := input, inputOther := inputOther }.Uncut here there := by
  obtain ⟨forth, back⟩ := corresponded.delivers ready readyOther
  obtain ⟨said, heard, whole⟩ := whole_session ready readyOther forth back between hears
  obtain ⟨wholly, whollyOther⟩ := whole.exchanged
  obtain ⟨input, inputOther, arrived, before, beforeOther, all, allOther⟩ :=
    between.arrived.settles wholly whollyOther
  exact ⟨input, inputOther, before, beforeOther,
    { between with arrived := arrived }, ⟨all, allOther⟩⟩

end Sessions

end PaclinkUnix
