import PaclinkUnix.Batches
import PaclinkUnix.InboundSafety
import PaclinkUnix.Library.Duplex

/-!
The dialogue of two instances of the program, as a protocol of its own: whose turn it is,
what either side has left to offer, and which messages it knows. The side whose turn it is
offers a batch, or says that it has none, or ends the dialogue; the other side takes what
it does not know and has the next turn.
-/

namespace PaclinkUnix

open Effects Duplex

def Event.reads : Event → Bytes
  | .line raw _ => raw
  | .frame raw _ => raw
  | _ => []

def Event.writes : Event → Bytes
  | .wrote _ bytes => bytes
  | _ => []

def Event.drops : Event → Option Bytes
  | .unlinked path => some path
  | _ => none

def Event.keeps : Event → Option Bytes
  | .recorded mid result => if result = 0 then some mid else none
  | _ => none

/-- One side: the messages before the cursor whose files are gone, those the peer has
answered last, those not offered yet, and the messages its database knows. -/
structure Side where
  config : Config
  confirmed : List Proposal
  settled : List Proposal
  pending : List Proposal
  held : Bytes → Bool

def Proposal.kept (prop : Proposal) : Proposal := { prop with delete := false }

def answerChar (held : Bytes → Bool) (prop : Proposal) : UInt8 := if held prop.mid then 78 else 89

def replyText (held : Bytes → Bool) (batch : List Proposal) : Bytes :=
  ascii "FS " ++ batch.map (answerChar held)

/-- A proposal that has been answered, and sent if it was wanted. -/
def Proposal.marked (held : Bytes → Bool) (prop : Proposal) : Proposal :=
  { prop with accepted := !held prop.mid, delete := true, offset := 0 }

def wanted (held : Bytes → Bool) (batch : List Proposal) : List Proposal :=
  batch.filter fun prop => !held prop.mid

def heldWith (held : Bytes → Bool) (batch : List Proposal) (mid : Bytes) : Bool :=
  held mid || batch.any (·.mid == mid)

namespace Side

def deleted (side : Side) : Side :=
  { side with
    confirmed := side.confirmed ++ side.settled.map Proposal.kept
    settled := [] }

def batch (side : Side) : List Proposal := side.pending.take propLimit

def offered (side : Side) (held : Bytes → Bool) : Side :=
  { side with
    settled := side.batch.map (Proposal.marked held)
    pending := side.pending.drop propLimit }

def received (side : Side) (batch : List Proposal) : Side :=
  { side.deleted with held := heldWith side.held batch }

def unlinks (side : Side) : List Event := side.settled.map fun prop => .unlinked prop.mid

end Side

def lineRead (text : Bytes) : Event := .line (text ++ [carriageReturn]) text

def frameEvents (prop : Proposal) : List Event :=
  (frameWrites prop).map (.wrote (.body prop.mid))

def askEvents (held : Bytes → Bool) (batch : List Proposal) : List Event :=
  offerEvents batch ++ lineRead (replyText held batch) ::
    (wanted held batch).flatMap frameEvents

def answerEvents (held : Bytes → Bool) (prop : Proposal) : List Event :=
  [.checked prop.mid .succeed (some (if held prop.mid then found else notFound)) (held prop.mid),
    .answered prop.mid (answerChar held prop)]

def deliverEvents (config : Config) (prop : Proposal) : List Event :=
  [.frame (frame prop) (some prop.cbuf),
    .delivered prop.mid prop.ubuf ((config.wl2mime prop.ubuf).getD []), .recorded prop.mid 0]

/-- The files of the batch before are unlinked when the first line has been read. -/
def offerRead (unlinks : List Event) : List Proposal → List Event
  | [] => []
  | prop :: batch =>
      lineRead (proposalText prop) :: unlinks ++ batch.map fun prop => lineRead (proposalText prop)

def replyEvents (side : Side) (batch : List Proposal) : List Event :=
  offerRead side.unlinks batch ++ lineRead (batchEndLine batch) ::
    (batch.flatMap (answerEvents side.held) ++
      .wrote .answers (replyText side.held batch ++ [carriageReturn]) ::
        (wanted side.held batch).flatMap (deliverEvents side.config))

def passText : Bytes := ascii "FF"
def quitText : Bytes := ascii "FQ"

/-- `Talk mine theirs passed said heard mineEnd theirsEnd`: it is the turn of `mine`, the
other side has just passed or has not, and from here on the two sides do `said` and
`heard` and end as given. -/
inductive Talk : Side → Side → Bool → List Event → List Event → Side → Side → Prop
  | quit {mine theirs : Side} (drained : mine.pending = []) :
      Talk mine theirs true [.wrote .command (quitText ++ [carriageReturn])]
        (lineRead quitText :: theirs.unlinks) mine theirs.deleted
  | pass {mine theirs mineEnd theirsEnd : Side} {said heard : List Event}
      (drained : mine.pending = [])
      (rest : Talk theirs.deleted mine true heard said theirsEnd mineEnd) :
      Talk mine theirs false (.wrote .command (passText ++ [carriageReturn]) :: said)
        (lineRead passText :: theirs.unlinks ++ heard) mineEnd theirsEnd
  | batch {mine theirs mineEnd theirsEnd : Side} {passed : Bool} {said heard : List Event}
      (nonempty : mine.pending ≠ [])
      (rest : Talk (theirs.received mine.batch) (mine.offered theirs.held) false heard said
        theirsEnd mineEnd) :
      Talk mine theirs passed (askEvents theirs.held mine.batch ++ said)
        (replyEvents theirs mine.batch ++ heard) mineEnd theirsEnd

theorem talk_ends (mine theirs : Side) (passed : Bool) :
    ∃ said heard mineEnd theirsEnd, Talk mine theirs passed said heard mineEnd theirsEnd := by
  generalize sizeEq : 2 * (mine.pending.length + theirs.pending.length) +
    (if passed then 0 else 1) = size
  induction size using Nat.strongRecOn generalizing mine theirs passed with
  | ind size ih =>
      by_cases drained : mine.pending = []
      · cases passed with
        | true => exact ⟨_, _, _, _, .quit drained⟩
        | false =>
            obtain ⟨heard, said, theirsEnd, mineEnd, rest⟩ :=
              ih _ (by
                rw [← sizeEq]
                change 2 * (theirs.pending.length + mine.pending.length) + 0 < _
                simp only [Bool.false_eq_true, if_false]
                omega) theirs.deleted mine true rfl
            exact ⟨_, _, _, _, .pass drained rest⟩
      · have positive : 0 < mine.pending.length := List.length_pos_iff.mpr drained
        obtain ⟨heard, said, theirsEnd, mineEnd, rest⟩ :=
          ih _ (by
            rw [← sizeEq]
            change 2 * (theirs.pending.length + (mine.pending.drop propLimit).length) + 1 < _
            rw [List.length_drop, propLimit]
            omega) (theirs.received mine.batch) (mine.offered theirs.held) false rfl
        exact ⟨_, _, _, _, .batch drained rest⟩

section Members

variable {held : Bytes → Bool} {batch : List Proposal} {event : Event} {side : Side}

theorem mem_askEvents (member : event ∈ askEvents held batch) :
    (∃ what bytes, event = .wrote what bytes) ∨ event = lineRead (replyText held batch) := by
  rw [askEvents, List.mem_append, List.mem_cons] at member
  rcases member with offered | answer | sent
  · rcases List.mem_append.mp offered with member | member
    · obtain ⟨prop, -, rfl⟩ := List.mem_map.mp member
      exact .inl ⟨_, _, rfl⟩
    · exact .inl ⟨_, _, List.mem_singleton.mp member⟩
  · exact .inr answer
  · obtain ⟨prop, -, member⟩ := List.mem_flatMap.mp sent
    obtain ⟨bytes, -, rfl⟩ := List.mem_map.mp member
    exact .inl ⟨_, _, rfl⟩

theorem mem_unlinks (member : event ∈ side.unlinks) : ∃ mid, event = .unlinked mid := by
  obtain ⟨prop, -, rfl⟩ := List.mem_map.mp member
  exact ⟨_, rfl⟩

theorem mem_offerRead (member : event ∈ offerRead side.unlinks batch) :
    (∃ prop ∈ batch, event = lineRead (proposalText prop)) ∨ event ∈ side.unlinks := by
  cases batch with
  | nil => cases member
  | cons prop batch =>
      rw [offerRead, List.cons_append, List.mem_cons, List.mem_append] at member
      rcases member with first | unlinked | read
      · exact .inl ⟨prop, List.mem_cons_self, first⟩
      · exact .inr unlinked
      · obtain ⟨other, inside, rfl⟩ := List.mem_map.mp read
        exact .inl ⟨other, List.mem_cons_of_mem _ inside, rfl⟩

theorem mem_answers (member : event ∈ batch.flatMap (answerEvents held)) :
    (∃ mid calls result known, event = .checked mid calls result known) ∨
      ∃ mid char, event = .answered mid char := by
  obtain ⟨prop, -, member⟩ := List.mem_flatMap.mp member
  simp only [answerEvents, List.mem_cons, List.not_mem_nil, or_false] at member
  exact member.imp (fun same => ⟨_, _, _, _, same⟩) fun same => ⟨_, _, same⟩

end Members

theorem lineRead_reads (text : Bytes) : (lineRead text).reads = text ++ [carriageReturn] := rfl

theorem flatMap_reads_nil {events : List Event} (quiet : ∀ event ∈ events, event.reads = []) :
    events.flatMap Event.reads = [] :=
  List.flatMap_eq_nil_iff.mpr quiet

theorem flatMap_writes_nil {events : List Event} (quiet : ∀ event ∈ events, event.writes = []) :
    events.flatMap Event.writes = [] :=
  List.flatMap_eq_nil_iff.mpr quiet

theorem frameEvents_writes (prop : Proposal) :
    (frameEvents prop).flatMap Event.writes = frame prop := by
  rw [frameEvents, List.flatMap_map, frame, List.flatten_eq_flatMap]
  rfl

theorem frameEvents_reads (prop : Proposal) : (frameEvents prop).flatMap Event.reads = [] := by
  refine flatMap_reads_nil fun event member => ?_
  obtain ⟨bytes, -, rfl⟩ := List.mem_map.mp member
  rfl

theorem unlinks_silent (side : Side) :
    side.unlinks.flatMap Event.reads = [] ∧ side.unlinks.flatMap Event.writes = [] := by
  constructor
  · refine flatMap_reads_nil fun event member => ?_
    obtain ⟨mid, rfl⟩ := mem_unlinks member
    rfl
  · refine flatMap_writes_nil fun event member => ?_
    obtain ⟨mid, rfl⟩ := mem_unlinks member
    rfl

theorem offerEvents_bytes (batch : List Proposal) :
    (offerEvents batch).flatMap Event.writes =
        offerBytes batch ++ (batchEndLine batch ++ [carriageReturn]) ∧
      (offerEvents batch).flatMap Event.reads = [] := by
  constructor
  · rw [offerEvents, List.flatMap_append, List.flatMap_map, List.flatMap_singleton, offerBytes]
    rw [List.flatMap_def]
    rfl
  · refine flatMap_reads_nil fun event member => ?_
    rcases List.mem_append.mp member with member | member
    · obtain ⟨prop, -, rfl⟩ := List.mem_map.mp member
      rfl
    · rw [List.mem_singleton.mp member]
      rfl

theorem flatMap_frames (batch : List Proposal) :
    (batch.flatMap frameEvents).flatMap Event.writes = batch.flatMap frame ∧
      (batch.flatMap frameEvents).flatMap Event.reads = [] := by
  rw [List.flatMap_assoc, List.flatMap_assoc]
  simp only [frameEvents_writes, frameEvents_reads]
  exact ⟨trivial, List.flatMap_eq_nil_iff.mpr fun _ _ => rfl⟩

theorem askEvents_bytes (held : Bytes → Bool) (batch : List Proposal) :
    (askEvents held batch).flatMap Event.reads = replyText held batch ++ [carriageReturn] ∧
      (askEvents held batch).flatMap Event.writes =
        offerBytes batch ++ (batchEndLine batch ++ [carriageReturn]) ++
          (wanted held batch).flatMap frame := by
  obtain ⟨offered, quiet⟩ := offerEvents_bytes batch
  obtain ⟨sent, deaf⟩ := flatMap_frames (wanted held batch)
  rw [askEvents, List.flatMap_append, List.flatMap_append, List.flatMap_cons, List.flatMap_cons,
    offered, quiet, sent, deaf, lineRead_reads, List.nil_append, List.append_nil]
  exact ⟨rfl, rfl⟩

theorem offerRead_bytes (side : Side) (batch : List Proposal) :
    (offerRead side.unlinks batch).flatMap Event.reads = offerBytes batch ∧
      (offerRead side.unlinks batch).flatMap Event.writes = [] := by
  obtain ⟨deaf, mute⟩ := unlinks_silent side
  have lines : ∀ rest : List Proposal,
      (rest.map fun prop => lineRead (proposalText prop)).flatMap Event.reads = offerBytes rest ∧
        (rest.map fun prop => lineRead (proposalText prop)).flatMap Event.writes = [] := by
    intro rest
    constructor
    · rw [List.flatMap_map, offerBytes, List.flatMap_def]
      simp only [lineRead_reads, ← proposalLine_text]
    · refine flatMap_writes_nil fun event member => ?_
      obtain ⟨prop, -, rfl⟩ := List.mem_map.mp member
      rfl
  cases batch with
  | nil => exact ⟨rfl, rfl⟩
  | cons prop batch =>
      obtain ⟨read, quiet⟩ := lines batch
      rw [offerRead, List.cons_append, List.flatMap_cons, List.flatMap_cons, List.flatMap_append,
        List.flatMap_append, deaf, mute, read, quiet, lineRead_reads, ← proposalLine_text]
      exact ⟨rfl, rfl⟩

theorem deliverEvents_bytes (config : Config) (batch : List Proposal) :
    (batch.flatMap (deliverEvents config)).flatMap Event.reads = batch.flatMap frame ∧
      (batch.flatMap (deliverEvents config)).flatMap Event.writes = [] := by
  rw [List.flatMap_assoc, List.flatMap_assoc]
  have one : ∀ prop, (deliverEvents config prop).flatMap Event.reads = frame prop := by
    intro prop
    simp [deliverEvents, Event.reads]
  simp only [one]
  exact ⟨trivial, List.flatMap_eq_nil_iff.mpr fun _ _ => rfl⟩

theorem replyEvents_bytes (side : Side) (batch : List Proposal) :
    (replyEvents side batch).flatMap Event.reads =
        offerBytes batch ++ (batchEndLine batch ++ [carriageReturn]) ++
          (wanted side.held batch).flatMap frame ∧
      (replyEvents side batch).flatMap Event.writes =
        replyText side.held batch ++ [carriageReturn] := by
  obtain ⟨lines, quiet⟩ := offerRead_bytes side batch
  obtain ⟨frames, mute⟩ := deliverEvents_bytes side.config (wanted side.held batch)
  have looks : (batch.flatMap (answerEvents side.held)).flatMap Event.reads = [] ∧
      (batch.flatMap (answerEvents side.held)).flatMap Event.writes = [] := by
    rw [List.flatMap_assoc, List.flatMap_assoc]
    exact ⟨List.flatMap_eq_nil_iff.mpr fun _ _ => rfl, List.flatMap_eq_nil_iff.mpr fun _ _ => rfl⟩
  rw [replyEvents, List.flatMap_append, List.flatMap_append, List.flatMap_cons, List.flatMap_cons,
    List.flatMap_append, List.flatMap_append, List.flatMap_cons, List.flatMap_cons, lines, quiet,
    looks.1, looks.2, frames, mute, lineRead_reads]
  constructor
  · simp [Event.reads]
  · simp [Event.writes, lineRead]

section Talk

variable {mine theirs mineEnd theirsEnd : Side} {passed : Bool} {said heard : List Event}

theorem Talk.balanced (talk : Talk mine theirs passed said heard mineEnd theirsEnd) :
    said.flatMap Event.reads = heard.flatMap Event.writes ∧
      heard.flatMap Event.reads = said.flatMap Event.writes := by
  induction talk with
  | @quit mine theirs none =>
      obtain ⟨deaf, mute⟩ := unlinks_silent theirs
      simp only [List.flatMap_cons, deaf, mute]
      exact ⟨rfl, rfl⟩
  | @pass mine theirs mineEnd theirsEnd said heard none rest ih =>
      obtain ⟨deaf, mute⟩ := unlinks_silent theirs
      simp only [List.cons_append, List.flatMap_cons, List.flatMap_append, deaf, mute, ih.1, ih.2]
      exact ⟨rfl, rfl⟩
  | @batch mine theirs mineEnd theirsEnd passed said heard some rest ih =>
      obtain ⟨asked, asking⟩ := askEvents_bytes theirs.held mine.batch
      obtain ⟨replied, replying⟩ := replyEvents_bytes theirs mine.batch
      rw [List.flatMap_append, List.flatMap_append, List.flatMap_append, List.flatMap_append,
        asked, asking, replied, replying, ih.1, ih.2]
      exact ⟨rfl, rfl⟩

theorem askEvents_drops (held : Bytes → Bool) (batch : List Proposal) :
    ∀ event ∈ askEvents held batch, event.drops = none := by
  intro event member
  rcases mem_askEvents member with ⟨what, bytes, rfl⟩ | rfl <;> rfl

theorem filterMap_drops_nil {events : List Event} (quiet : ∀ event ∈ events, event.drops = none) :
    events.filterMap Event.drops = [] :=
  List.filterMap_eq_nil_iff.mpr quiet

theorem unlinks_drops (side : Side) :
    side.unlinks.filterMap Event.drops = side.settled.map Proposal.mid := by
  rw [Side.unlinks, List.filterMap_map, ← List.filterMap_eq_map]
  rfl

theorem replyEvents_drops (side : Side) {batch : List Proposal} (nonempty : batch ≠ []) :
    (replyEvents side batch).filterMap Event.drops = side.settled.map Proposal.mid := by
  have lines : ∀ rest : List Proposal,
      (rest.map fun prop => lineRead (proposalText prop)).filterMap Event.drops = [] := by
    intro rest
    refine filterMap_drops_nil fun event member => ?_
    obtain ⟨prop, -, rfl⟩ := List.mem_map.mp member
    rfl
  have looks : (batch.flatMap (answerEvents side.held)).filterMap Event.drops = [] := by
    refine filterMap_drops_nil fun event member => ?_
    rcases mem_answers member with ⟨mid, calls, result, known, rfl⟩ | ⟨mid, char, rfl⟩ <;> rfl
  have deliver : ((wanted side.held batch).flatMap (deliverEvents side.config)).filterMap
      Event.drops = [] := by
    refine filterMap_drops_nil fun event member => ?_
    obtain ⟨prop, -, member⟩ := List.mem_flatMap.mp member
    simp only [deliverEvents, List.mem_cons, List.not_mem_nil, or_false] at member
    rcases member with rfl | rfl | rfl <;> rfl
  cases batch with
  | nil => exact absurd rfl nonempty
  | cons prop batch =>
      rw [replyEvents, offerRead, List.filterMap_append, List.cons_append,
        List.filterMap_cons_none rfl, List.filterMap_append, unlinks_drops, lines,
        List.filterMap_cons_none rfl, List.filterMap_append, looks, List.filterMap_cons_none rfl,
        deliver, List.append_nil, List.append_nil, List.append_nil]

theorem batch_some {side : Side} (nonempty : side.pending ≠ []) : side.batch ≠ [] := by
  intro idle
  rcases List.take_eq_nil_iff.mp idle with zero | empty
  · cases zero
  · exact nonempty empty

theorem prompted_line (text : Bytes) (events : List Event) :
    Prompted Event.reads Event.drops (lineRead text :: events) :=
  prompted_of_read (by rw [lineRead_reads, List.length_append]; exact Nat.succ_pos _) rfl

theorem prompted_reply (side : Side) {batch : List Proposal} (nonempty : batch ≠ []) :
    Prompted Event.reads Event.drops (replyEvents side batch) := by
  cases batch with
  | nil => exact absurd rfl nonempty
  | cons prop batch => exact prompted_line _ _

theorem Talk.prompted (talk : Talk mine theirs passed said heard mineEnd theirsEnd) :
    Prompted Event.reads Event.drops said ∧ Prompted Event.reads Event.drops heard := by
  induction talk with
  | quit none =>
      refine ⟨prompted_quiet fun event member => ?_, prompted_line _ _⟩
      rw [List.mem_singleton.mp member]
      rfl
  | @pass mine theirs mineEnd theirsEnd said heard none rest ih =>
      have passes : Prompted Event.reads Event.drops
          [.wrote .command (passText ++ [carriageReturn])] :=
        prompted_quiet fun event member => by
          rw [List.mem_singleton.mp member]
          rfl
      exact ⟨passes.append ih.2, (prompted_line passText theirs.unlinks).append ih.1⟩
  | @batch mine theirs mineEnd theirsEnd passed said heard some rest ih =>
      exact ⟨(prompted_quiet (askEvents_drops theirs.held mine.batch)).append ih.2,
        (prompted_reply theirs (batch_some some)).append ih.1⟩

theorem mem_drops {events : List Event} {event : Event} {mid : Bytes} (member : event ∈ events)
    (drops : event.drops = some mid) : mid ∈ events.filterMap Event.drops :=
  List.mem_filterMap.mpr ⟨event, member, drops⟩

/-- What a batch adds to the known messages is recorded when the batch is received. -/
theorem heldWith_recorded {side : Side} {batch : List Proposal} {mid : Bytes}
    (holds : heldWith side.held batch mid = true) :
    side.held mid = true ∨ ∃ given ∈ replyEvents side batch, given.keeps = some mid := by
  by_cases before : side.held mid = true
  · exact .inl before
  · simp only [heldWith, Bool.or_eq_true, before, false_or, List.any_eq_true, beq_iff_eq,
      Bool.false_eq_true] at holds
    obtain ⟨prop, member, rfl⟩ := holds
    have wants : prop ∈ wanted side.held batch :=
      List.mem_filter.mpr ⟨member, by simpa using before⟩
    refine .inr ⟨.recorded prop.mid 0, ?_, rfl⟩
    rw [replyEvents, List.mem_append, List.mem_cons, List.mem_append, List.mem_cons]
    exact .inr (.inr (.inr (.inr (List.mem_flatMap.mpr
      ⟨prop, wants, by simp [deliverEvents]⟩))))

/-- However the dialogue is scheduled and wherever it is cut, a file is gone only if the
other side knew its message before or has recorded it. -/
theorem Talk.backed (talk : Talk mine theirs passed said heard mineEnd theirsEnd)
    (idle : mine.settled = []) (known : ∀ prop ∈ theirs.settled, mine.held prop.mid = true) :
    Backed Event.reads Event.writes Event.drops Event.keeps said heard (theirs.held · = true) ∧
      Backed Event.reads Event.writes Event.drops Event.keeps heard said (mine.held · = true) := by
  have unlinked : ∀ (side other : Side), (∀ prop ∈ side.settled, other.held prop.mid = true) →
      ∀ (events : List Event), events.filterMap Event.drops = side.settled.map Proposal.mid →
      ∀ event ∈ events, ∀ need, event.drops = some need → other.held need = true := by
    intro side other known events same event member need drops
    have found := mem_drops member drops
    rw [same] at found
    obtain ⟨prop, settled, rfl⟩ := List.mem_map.mp found
    exact known prop settled
  have commands : ∀ (side : Side) (text : Bytes),
      (lineRead text :: side.unlinks).filterMap Event.drops = side.settled.map Proposal.mid := by
    intro side text
    rw [List.filterMap_cons_none rfl, unlinks_drops]
  induction talk with
  | @quit mine theirs none =>
      refine ⟨backed_of_known fun event member need drops => ?_,
        backed_of_known (unlinked theirs mine known _ (commands theirs quitText))⟩
      rw [List.mem_singleton.mp member] at drops
      cases drops
  | @pass mine theirs mineEnd theirsEnd said heard none rest ih =>
      obtain ⟨later, laterOther⟩ := ih rfl (by simp [idle])
      obtain ⟨prompted, promptedOther⟩ := rest.prompted
      obtain ⟨deaf, mute⟩ := unlinks_silent theirs
      have bytes : ((lineRead passText :: theirs.unlinks).flatMap Event.reads).length =
          ([Event.wrote .command (passText ++ [carriageReturn])].flatMap Event.writes).length := by
        rw [List.flatMap_cons, deaf]
        rfl
      have silent : ([Event.wrote .command (passText ++ [carriageReturn])].flatMap
          Event.reads).length = ((lineRead passText :: theirs.unlinks).flatMap
          Event.writes).length := by
        rw [List.flatMap_cons, List.flatMap_cons, mute]
        rfl
      constructor
      · refine Backed.append silent bytes
          (fun event member need drops => ?_) promptedOther (laterOther.mono fun _ => .inl)
        rw [List.mem_singleton.mp member] at drops
        cases drops
      · exact Backed.append bytes silent (unlinked theirs mine known _ (commands theirs passText))
          prompted (later.mono fun _ => .inl)
  | @batch mine theirs mineEnd theirsEnd passed said heard some rest ih =>
      obtain ⟨asked, asking⟩ := askEvents_bytes theirs.held mine.batch
      obtain ⟨replied, replying⟩ := replyEvents_bytes theirs mine.batch
      obtain ⟨prompted, promptedOther⟩ := rest.prompted
      have settles : ∀ prop ∈ (mine.offered theirs.held).settled,
          (theirs.received mine.batch).held prop.mid = true := by
        intro prop member
        obtain ⟨original, inside, rfl⟩ := List.mem_map.mp member
        simp only [Side.received, heldWith, Bool.or_eq_true, List.any_eq_true, beq_iff_eq]
        exact .inr ⟨original, inside, rfl⟩
      obtain ⟨later, laterOther⟩ := ih rfl settles
      constructor
      · refine Backed.append (by rw [asked, replying]) (by rw [replied, asking])
          (fun event member need drops => ?_) promptedOther
          (laterOther.mono fun _ => heldWith_recorded)
        rw [askEvents_drops _ _ event member] at drops
        cases drops
      · exact Backed.append (by rw [replied, asking]) (by rw [asked, replying])
          (unlinked theirs mine known _ (replyEvents_drops theirs (batch_some some))) prompted
          (later.mono fun _ => .inl)

/-- In a complete dialogue every file that is waiting is unlinked, once and in order. -/
theorem Talk.unlinked (talk : Talk mine theirs passed said heard mineEnd theirsEnd)
    (idle : mine.settled = []) (empty : passed = true → theirs.pending = []) :
    said.filterMap Event.drops = mine.pending.map Proposal.mid ∧
      heard.filterMap Event.drops = (theirs.settled ++ theirs.pending).map Proposal.mid := by
  induction talk with
  | @quit mine theirs none =>
      rw [none, empty rfl, List.append_nil, List.filterMap_cons_none rfl,
        List.filterMap_cons_none rfl, unlinks_drops]
      exact ⟨rfl, rfl⟩
  | @pass mine theirs mineEnd theirsEnd said heard none rest ih =>
      obtain ⟨later, laterOther⟩ := ih rfl fun _ => none
      rw [List.filterMap_cons_none rfl, laterOther, idle, List.cons_append,
        List.filterMap_cons_none rfl, List.filterMap_append, unlinks_drops, later]
      exact ⟨rfl, by rw [List.map_append]; rfl⟩
  | @batch mine theirs mineEnd theirsEnd passed said heard some rest ih =>
      obtain ⟨later, laterOther⟩ := ih rfl fun passed => by cases passed
      rw [List.filterMap_append, filterMap_drops_nil (askEvents_drops _ _), laterOther,
        List.filterMap_append, replyEvents_drops theirs (batch_some some), later]
      constructor
      · have marked : (mine.batch.map (Proposal.marked theirs.held)).map Proposal.mid =
            mine.batch.map Proposal.mid := by
          rw [List.map_map]
          rfl
        rw [List.nil_append, Side.offered, List.map_append, marked, ← List.map_append,
          Side.batch, List.take_append_drop]
      · rw [List.map_append]
        rfl

/-- What is handed to sendmail: the message's name, its bytes and the mail made of them. -/
def Event.handed : Event → Option (Bytes × Bytes × Bytes)
  | .delivered mid message mimebuf => some (mid, message, mimebuf)
  | _ => none

def handedOver (config : Config) (prop : Proposal) : Bytes × Bytes × Bytes :=
  (prop.mid, prop.ubuf, (config.wl2mime prop.ubuf).getD [])

theorem askEvents_handed (held : Bytes → Bool) (batch : List Proposal) :
    (askEvents held batch).filterMap Event.handed = [] := by
  refine List.filterMap_eq_nil_iff.mpr fun event member => ?_
  rcases mem_askEvents member with ⟨what, bytes, rfl⟩ | rfl <;> rfl

theorem unlinks_handed (side : Side) : side.unlinks.filterMap Event.handed = [] := by
  refine List.filterMap_eq_nil_iff.mpr fun event member => ?_
  obtain ⟨mid, rfl⟩ := mem_unlinks member
  rfl

theorem replyEvents_handed (side : Side) (batch : List Proposal) :
    (replyEvents side batch).filterMap Event.handed =
      (wanted side.held batch).map (handedOver side.config) := by
  have lines : (offerRead side.unlinks batch).filterMap Event.handed = [] := by
    refine List.filterMap_eq_nil_iff.mpr fun event member => ?_
    rcases mem_offerRead member with ⟨prop, -, rfl⟩ | unlinked
    · rfl
    · obtain ⟨mid, rfl⟩ := mem_unlinks unlinked
      rfl
  have looks : (batch.flatMap (answerEvents side.held)).filterMap Event.handed = [] := by
    refine List.filterMap_eq_nil_iff.mpr fun event member => ?_
    rcases mem_answers member with ⟨mid, calls, result, known, rfl⟩ | ⟨mid, char, rfl⟩ <;> rfl
  have deliver : ∀ rest : List Proposal,
      (rest.flatMap (deliverEvents side.config)).filterMap Event.handed =
        rest.map (handedOver side.config) := by
    intro rest
    induction rest with
    | nil => rfl
    | cons prop rest ih =>
        rw [List.flatMap_cons, List.filterMap_append, ih]
        rfl
  rw [replyEvents, List.filterMap_append, lines, List.filterMap_cons_none rfl,
    List.filterMap_append, looks, List.filterMap_cons_none rfl, deliver]
  rfl

theorem wanted_split (held : Bytes → Bool) (props : List Proposal) (count : Nat)
    (distinct : (props.map Proposal.mid).Nodup) :
    wanted held (props.take count) ++ wanted (heldWith held (props.take count)) (props.drop count) =
      wanted held props := by
  have other : wanted (heldWith held (props.take count)) (props.drop count) =
      wanted held (props.drop count) := by
    refine List.filter_congr fun prop member => ?_
    have absent : (props.take count).any (·.mid == prop.mid) = false := by
      rw [List.any_eq_false]
      intro earlier inside
      rw [beq_iff_eq]
      intro same
      rw [← List.take_append_drop count props, List.map_append, List.nodup_append] at distinct
      exact distinct.2.2 _ (List.mem_map_of_mem inside) _ (List.mem_map_of_mem member) same
    rw [heldWith, absent, Bool.or_false]
  rw [other, wanted, wanted, wanted, ← List.filter_append, List.take_append_drop]

theorem heldWith_heldWith (held : Bytes → Bool) (first second : List Proposal) :
    heldWith (heldWith held first) second = heldWith held (first ++ second) := by
  funext mid
  rw [heldWith, heldWith, heldWith, List.any_append, Bool.or_assoc]

theorem heldWith_nil (held : Bytes → Bool) : heldWith held [] = held := by
  funext mid
  rw [heldWith, List.any_nil, Bool.or_false]

/-- Exactly the messages that the other side does not know are handed over, once and in
order and with their own bytes, and in the end both sides know them all. -/
theorem Talk.handed (talk : Talk mine theirs passed said heard mineEnd theirsEnd)
    (empty : passed = true → theirs.pending = [])
    (distinct : (mine.pending.map Proposal.mid).Nodup)
    (distinctOther : (theirs.pending.map Proposal.mid).Nodup) :
    said.filterMap Event.handed =
        (wanted mine.held theirs.pending).map (handedOver mine.config) ∧
      heard.filterMap Event.handed =
        (wanted theirs.held mine.pending).map (handedOver theirs.config) ∧
      mineEnd.held = heldWith mine.held theirs.pending ∧
      theirsEnd.held = heldWith theirs.held mine.pending := by
  induction talk with
  | @quit mine theirs none =>
      rw [none, empty rfl, List.filterMap_cons_none rfl, List.filterMap_cons_none rfl,
        unlinks_handed, heldWith_nil, heldWith_nil]
      exact ⟨rfl, rfl, rfl, rfl⟩
  | @pass mine theirs mineEnd theirsEnd said heard none rest ih =>
      obtain ⟨later, laterOther, held, heldOther⟩ := ih (fun _ => none) distinctOther distinct
      rw [List.filterMap_cons_none rfl, laterOther, List.cons_append,
        List.filterMap_cons_none rfl, List.filterMap_append, unlinks_handed, later]
      exact ⟨rfl, rfl, heldOther, held⟩
  | @batch mine theirs mineEnd theirsEnd passed said heard some rest ih =>
      have split := wanted_split theirs.held mine.pending propLimit distinct
      obtain ⟨later, laterOther, held, heldOther⟩ := ih (fun passed => by cases passed)
        distinctOther (distinct.sublist ((List.drop_sublist _ _).map _))
      rw [List.filterMap_append, askEvents_handed, laterOther, List.filterMap_append,
        replyEvents_handed, later]
      refine ⟨rfl, ?_, heldOther, ?_⟩
      · rw [← split, List.map_append]
        rfl
      · rw [held]
        change heldWith (heldWith theirs.held mine.batch) (mine.pending.drop propLimit) = _
        rw [heldWith_heldWith, Side.batch, List.take_append_drop]

end Talk

end PaclinkUnix
