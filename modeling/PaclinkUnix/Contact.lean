import PaclinkUnix.Greeting

/-!
The whole of a call, from the first byte of the daemon's greeting to the last line of either
side.
-/

namespace PaclinkUnix

open Effects Effects.Program Duplex

/-- What surrounds one call of the daemon. -/
structure Contact where
  env : Env
  envOther : Env
  selects : List Selected
  fuel : Nat
  fuelOther : Nat
  gridsquare : Option Bytes
  welcomemsg : Option Bytes
  offers : List Proposal
  offersOther : List Proposal

namespace Contact

variable (contact : Contact) (caller called : Station)

def callerProgram : Session (List Proposal × Nat) :=
  wl2kExchange contact.selects caller.config contact.fuel contact.offers

def calledProgram : Session (List Proposal × Nat) :=
  wl2kax25d called.config contact.fuelOther contact.gridsquare contact.welcomemsg
    contact.offersOther

def callerEnd : Party Event.reads Event.isRead :=
  sessionEnd contact.env (contact.callerProgram caller) caller.db

def calledEnd : Party Event.reads Event.isRead :=
  sessionEnd contact.envOther (contact.calledProgram called) called.db

/-- The lines between the SID of the daemon and its prompt. -/
def lead (banner : List Bytes) : List Bytes :=
  stationLine contact.gridsquare :: (banner ++ leadLines contact.offersOther)

def asked (banner : List Bytes) : List Event :=
  lineRead (sidLine called.config.packageVersion) :: ((contact.lead banner).map lineRead ++
    [lineRead (promptLine called.config contact.offersOther), lineWritten (identity caller.config),
      lineWritten (sidLine caller.config.packageVersion)])

/-- What the daemon has said when it comes to read. -/
def told (banner : List Bytes) : List Event :=
  lineWritten (sidLine called.config.packageVersion) ::
    lineWritten (stationLine contact.gridsquare) ::
    (shownEvents (banner.map (· ++ [carriageReturn])).flatten ++
      ((leadLines contact.offersOther).map lineWritten ++
        [lineWritten (promptLine called.config contact.offersOther)]))

def identified : List Event :=
  [lineRead (identity caller.config), lineRead (sidLine caller.config.packageVersion)]

/-- `banner` is the welcome message line by line. -/
structure Between (banner : List Bytes) : Prop where
  hears : wl2kWaitForResponse contact.selects = some true
  reliable : Reliable contact.env
  reliableOther : Reliable contact.envOther
  young : NeverExpires contact.env caller.db
  youngOther : NeverExpires contact.envOther called.db
  order : contact.offers.Perm caller.outbox
  orderOther : contact.offersOther.Perm called.outbox
  inTouch : InTouch caller.config called.config
  grid : ∀ char ∈ contact.gridsquare.getD (ascii "XXyyzz"), lineChar char = true ∧ char ≠ 91
  welcome : unescaped (contact.welcomemsg.getD (ascii "Welcome\r")) =
    some (banner.map (· ++ [carriageReturn])).flatten
  banal : ∀ line ∈ banner, Banal line
  plainPrompt : strbegins (promptLine called.config contact.offersOther) passText = false
  enough : 3 * (contact.offers.length + contact.offersOther.length) + banner.length + 4 ≤
    contact.fuel
  enoughOther : 3 * (contact.offers.length + contact.offersOther.length) + 2 ≤ contact.fuelOther

end Contact

section Whole

variable {contact : Contact} {caller called : Station} {banner : List Bytes}

theorem stationLine_banal {gridsquare : Option Bytes}
    (grid : ∀ char ∈ gridsquare.getD (ascii "XXyyzz"), lineChar char = true ∧ char ≠ 91) :
    Banal (stationLine gridsquare) := by
  have front : ascii "(am|em:h1,g:" = 40 :: ascii "am|em:h1,g:" := by decide +kernel
  have comment : ascii ";" = [59] := by decide +kernel
  have close : ascii ")" = [41] := by decide +kernel
  have texts : ∀ text ∈ [ascii "(am|em:h1,g:", ascii ")"],
      ∀ char ∈ text, lineChar char = true ∧ char ≠ 91 := by decide +kernel
  have chars : ∀ char ∈ stationLine gridsquare, lineChar char = true ∧ char ≠ 91 := by
    intro char member
    rw [stationLine, List.mem_append, List.mem_append] at member
    rcases member with (text | inside) | text
    · exact texts _ (by simp) char text
    · exact grid char inside
    · exact texts _ (by simp) char text
  refine ⟨fun char member => (chars char member).1, fun member => (chars 91 member).2 rfl, ?_,
    41, ?_, by decide⟩
  · rw [stationLine, front, comment, strbegins]
    rfl
  · rw [stationLine, close, List.getLast?_append]
    rfl

theorem traffic_banal : Banal (ascii "No Traffic") :=
  ⟨by decide +kernel, by decide +kernel, by decide +kernel, 99, by decide +kernel, by decide⟩

theorem Contact.Between.lead_banal (between : contact.Between caller called banner) :
    ∀ line ∈ contact.lead banner, Banal line := by
  intro line member
  rw [Contact.lead, List.mem_cons, List.mem_append] at member
  rcases member with rfl | welcome | traffic
  · exact stationLine_banal between.grid
  · exact between.banal line welcome
  · rw [leadLines] at traffic
    split at traffic
    · cases traffic
    · rw [List.mem_singleton.mp traffic]
      exact traffic_banal

theorem Contact.Between.prompt (between : contact.Between caller called banner) :
    Prompt (promptLine called.config contact.offersOther) := by
  have inTouch := between.inTouch
  exact promptLine_prompt _ (inTouch.target ▸ inTouch.call) (inTouch.mine ▸ inTouch.callOther)

theorem Contact.Between.goes_asked (between : contact.Between caller called banner)
    (held : Bytes → Bool) :
    Goes contact.env (handshake caller.config contact.fuel none []) held held
      (contact.asked caller called banner) (promptLine called.config contact.offersOther) := by
  have few : (contact.lead banner).length ≤ banner.length + 2 := by
    have one : (leadLines contact.offersOther).length ≤ 1 := by
      rw [leadLines]
      split <;> decide
    rw [Contact.lead, List.length_cons, List.length_append]
    omega
  obtain ⟨left, same⟩ : ∃ left, contact.fuel = left + 1 + (contact.lead banner).length + 1 := by
    have enough := between.enough
    exact ⟨contact.fuel - ((contact.lead banner).length + 2), by omega⟩
  rw [same]
  exact Goes.sid between.inTouch.versionOther
    (Goes.banals between.lead_banal (goes_prompt between.prompt))

theorem Contact.Between.goes_told (between : contact.Between caller called banner)
    {after : Bytes → Bool} {events : List Event} {result : List Proposal × Nat}
    (rest : Goes contact.envOther (daemonSession called.config contact.fuelOther
      (sidLine caller.config.packageVersion) contact.offersOther) called.knows after events
      result) :
    Goes contact.envOther (contact.calledProgram called) called.knows after
      (contact.told called banner ++ (Contact.identified caller ++ events)) result := by
  obtain ⟨left, same⟩ : ∃ left, contact.fuelOther = left + 2 := by
    have enough := between.enoughOther
    exact ⟨contact.fuelOther - 2, by omega⟩
  have greets : Goes contact.envOther (greeting called.config contact.gridsquare contact.welcomemsg)
      called.knows called.knows (lineWritten (sidLine called.config.packageVersion) ::
        lineWritten (stationLine contact.gridsquare) ::
          shownEvents (banner.map (· ++ [carriageReturn])).flatten) () :=
    (goes_command rfl).bind ((goes_command rfl).bind (goes_printEscString between.welcome))
  have reads : Goes contact.envOther (handshakeNoSecureLogin called.config
      contact.offersOther.length contact.fuelOther none) called.knows called.knows
      (Contact.identified caller) (sidLine caller.config.packageVersion) := by
    rw [same]
    exact goes_identified between.inTouch contact.offersOther.length left
  have split : contact.told called banner ++ (Contact.identified caller ++ events) =
      (lineWritten (sidLine called.config.packageVersion) ::
        lineWritten (stationLine contact.gridsquare) ::
          shownEvents (banner.map (· ++ [carriageReturn])).flatten) ++
      (((leadLines contact.offersOther).map lineWritten ++
        [lineWritten (promptLine called.config contact.offersOther)]) ++
          (Contact.identified caller ++ events)) := by
    simp only [Contact.told, List.cons_append, List.append_assoc]
  rw [Contact.calledProgram, wl2kax25d, split]
  refine greets.bind ?_
  rw [wl2kdExchange]
  exact (goes_p2pStartmsg contact.offersOther).bind (reads.bind rest)

theorem lines_read (lines : List Bytes) :
    (lines.map lineRead).flatMap Event.reads = (lines.map (· ++ [carriageReturn])).flatten := by
  rw [List.flatMap_map, ← List.flatMap_def]
  rfl

theorem lines_written (lines : List Bytes) :
    (lines.map lineWritten).flatMap Event.writes = (lines.map (· ++ [carriageReturn])).flatten := by
  rw [List.flatMap_map, ← List.flatMap_def]
  rfl

theorem lines_mute (lines : List Bytes) : (lines.map lineRead).flatMap Event.writes = [] := by
  refine flatMap_writes_nil fun event member => ?_
  obtain ⟨line, -, rfl⟩ := List.mem_map.mp member
  rfl

theorem lines_deaf (lines : List Bytes) : (lines.map lineWritten).flatMap Event.reads = [] := by
  refine flatMap_reads_nil fun event member => ?_
  obtain ⟨line, -, rfl⟩ := List.mem_map.mp member
  rfl

theorem shown_bytes (text : Bytes) : (shownEvents text).flatMap Event.writes = text ∧
    (shownEvents text).flatMap Event.reads = [] := by
  constructor
  · rw [shownEvents, List.flatMap_map]
    exact List.flatMap_singleton' text
  · refine flatMap_reads_nil fun event member => ?_
    obtain ⟨char, -, rfl⟩ := List.mem_map.mp member
    rfl

theorem Contact.handshake_bytes (contact : Contact) (caller called : Station)
    (banner : List Bytes) :
    (contact.asked caller called banner).flatMap Event.reads =
        (contact.told called banner).flatMap Event.writes ∧
      (Contact.identified caller).flatMap Event.reads =
        (contact.asked caller called banner).flatMap Event.writes ∧
      (contact.told called banner).flatMap Event.reads = [] ∧
      (Contact.identified caller).flatMap Event.writes = [] := by
  obtain ⟨shown, silent⟩ := shown_bytes (banner.map (· ++ [carriageReturn])).flatten
  refine ⟨?_, ?_, ?_, rfl⟩
  · rw [Contact.asked, Contact.told, Contact.lead]
    simp only [List.flatMap_cons, List.flatMap_append, List.map_cons, List.map_append, lines_read,
      lines_written, shown, List.append_assoc, List.cons_append]
    rfl
  · rw [Contact.asked]
    simp only [List.flatMap_cons, List.flatMap_append, lines_mute]
    rfl
  · rw [Contact.told]
    simp only [List.flatMap_cons, List.flatMap_append, lines_deaf, silent]
    rfl

theorem handshake_idle : (∀ event ∈ contact.asked caller called banner,
      event.drops = none ∧ event.handed = none) ∧
    ∀ event ∈ contact.told called banner ++ Contact.identified caller,
      event.drops = none ∧ event.handed = none := by
  have read : ∀ line, (lineRead line).drops = none ∧ (lineRead line).handed = none :=
    fun _ => ⟨rfl, rfl⟩
  have written : ∀ line, (lineWritten line).drops = none ∧ (lineWritten line).handed = none :=
    fun _ => ⟨rfl, rfl⟩
  constructor
  · intro event member
    simp only [Contact.asked, List.mem_cons, List.mem_append, List.mem_map, List.not_mem_nil,
      or_false] at member
    rcases member with rfl | ⟨line, -, rfl⟩ | rfl | rfl | rfl
    · exact read _
    · exact read _
    · exact read _
    · exact written _
    · exact written _
  · intro event member
    simp only [Contact.told, Contact.identified, shownEvents, List.cons_append, List.mem_cons,
      List.mem_append, List.mem_map, List.not_mem_nil, or_false] at member
    rcases member with rfl | rfl | (⟨char, -, rfl⟩ | ⟨line, -, rfl⟩ | rfl) | rfl | rfl
    · exact written _
    · exact written _
    · exact ⟨rfl, rfl⟩
    · exact written _
    · exact written _
    · exact read _
    · exact read _

theorem Contact.Between.handshake_exact (between : contact.Between caller called banner) :
    (∀ event ∈ contact.asked caller called banner, event.exact) ∧
      ∀ event ∈ contact.told called banner ++ Contact.identified caller, event.exact := by
  have inTouch := between.inTouch
  constructor
  · intro event member
    simp only [Contact.asked, List.mem_cons, List.mem_append, List.mem_map, List.not_mem_nil,
      or_false] at member
    rcases member with rfl | ⟨line, inside, rfl⟩ | rfl | rfl | rfl
    · exact lineRead_exact (sidLine_plain inTouch.versionOther)
    · exact lineRead_exact (between.lead_banal line inside).plain
    · exact lineRead_exact between.prompt.plain
    · trivial
    · trivial
  · intro event member
    simp only [Contact.told, Contact.identified, shownEvents, List.cons_append, List.mem_cons,
      List.mem_append, List.mem_map, List.not_mem_nil, or_false] at member
    rcases member with rfl | rfl | (⟨char, -, rfl⟩ | ⟨line, -, rfl⟩ | rfl) | rfl | rfl
    · trivial
    · trivial
    · trivial
    · trivial
    · trivial
    · exact lineRead_exact fun char member => (identity_chars inTouch char member).1
    · exact lineRead_exact (sidLine_plain inTouch.version)

theorem handshake_woven (contact : Contact) (caller called : Station) (banner : List Bytes) :
    Woven Event.reads Event.writes (contact.asked caller called banner)
      (contact.told called banner ++ Contact.identified caller) := by
  obtain ⟨heard, answered, deaf, -⟩ := contact.handshake_bytes caller called banner
  have told : Woven Event.reads Event.writes [] (contact.told called banner) :=
    Woven.start.seconds (contact.told called banner) (by
      rw [List.nil_append, deaf]
      exact Nat.zero_le _)
  have asked := told.firsts (contact.asked caller called banner) (by rw [List.nil_append, heard])
  exact asked.seconds _ (by
    rw [List.flatMap_append, deaf, answered, List.nil_append, List.nil_append])

/-- All that the two programs do in one call, with nothing lost. -/
structure WholeContact (contact : Contact) (caller called : Station) (said heard : List Event) :
    Prop where
  returns : (run (handle contact.env) (contact.callerProgram caller)
    (World.start (said.flatMap Event.reads) false caller.db)).1 ≠ none
  returnsOther : (run (handle contact.envOther) (contact.calledProgram called)
    (World.start (heard.flatMap Event.reads) false called.db)).1 ≠ none
  trace : (contact.callerEnd caller).trace (said.flatMap Event.reads) = said
  traceOther : (contact.calledEnd called).trace (heard.flatMap Event.reads) = heard
  balanced : said.flatMap Event.reads = heard.flatMap Event.writes ∧
    heard.flatMap Event.reads = said.flatMap Event.writes
  woven : Woven Event.reads Event.writes said heard
  exact : (∀ event ∈ said, event.exact) ∧ ∀ event ∈ heard, event.exact
  unlinked : said.filterMap Event.drops = contact.offers.map Proposal.mid
  unlinkedOther : heard.filterMap Event.drops = contact.offersOther.map Proposal.mid
  handed : said.filterMap Event.handed =
    (wanted caller.knows contact.offersOther).map (handedOver caller.config)
  handedOther : heard.filterMap Event.handed =
    (wanted called.knows contact.offers).map (handedOver called.config)

theorem whole_contact (ready : caller.Ready called) (readyOther : called.Ready caller)
    (between : contact.Between caller called banner) :
    ∃ said heard, WholeContact contact caller called said heard := by
  obtain ⟨said, heard, mineEnd, theirsEnd, talk⟩ :=
    talk_ends (Side.start caller.config contact.offers caller.knows)
      (Side.start called.config contact.offersOther called.knows) false
  have fit := @fit_start called.config contact.offers caller.outbox between.order ready.outbox
    caller.config caller.knows
  have fitOther := @fit_start caller.config contact.offersOther called.outbox between.orderOther
    readyOther.outbox called.config called.knows
  have runs := talk_runs talk between.reliable between.reliableOther ready.receives
    readyOther.receives rfl fit fitOther
  have stores := stores_knows between.young ready.sound
  have storesOther := stores_knows between.youngOther readyOther.sound
  have asks : Goes contact.env (contact.callerProgram caller) caller.knows mineEnd.held
      (contact.asked caller called banner ++ said)
      (mineEnd.parser.props, mineEnd.parser.cursor) := by
    rw [Contact.callerProgram, wl2kExchange]
    have enough : talkFuel (Side.start caller.config contact.offers caller.knows)
        (Side.start called.config contact.offersOther called.knows) false ≤ contact.fuel := by
      have enough := between.enough
      rw [talkFuel, if_neg Bool.false_ne_true]
      change 3 * (contact.offers.length + contact.offersOther.length) + 2 ≤ contact.fuel
      omega
    exact (between.goes_asked caller.knows).bind
      (goes_client between.hears ((runs contact.fuel enough).1 _ between.plainPrompt))
  have answers := between.goes_told (@goes_daemon contact.envOther called.config called.knows _
    contact.fuelOther (sidLine caller.config.packageVersion) contact.offersOther _ _
    (runs contact.fuelOther between.enoughOther).2)
  rw [← List.append_assoc] at answers
  obtain ⟨asked, answered, deaf, mute⟩ := contact.handshake_bytes caller called banner
  obtain ⟨idle, idleOther⟩ := @handshake_idle contact caller called banner
  obtain ⟨exact, exactOther⟩ := between.handshake_exact
  obtain ⟨later, laterOther⟩ := talk.exact fit fitOther
  obtain ⟨read, readOther⟩ := talk.balanced
  obtain ⟨unlinked, unlinkedOther⟩ := talk.unlinked rfl (by simp)
  have distinct : (contact.offers.map Proposal.mid).Nodup :=
    ((between.order.map _).nodup_iff).mpr ready.distinct
  have distinctOther : (contact.offersOther.map Proposal.mid).Nodup :=
    ((between.orderOther.map _).nodup_iff).mpr readyOther.distinct
  obtain ⟨handed, handedOther, -, -⟩ := talk.handed (by simp) distinct distinctOther
  have front : ∀ (f : Event → Option Bytes) (events more : List Event),
      (∀ event ∈ events, f event = none) → (events ++ more).filterMap f = more.filterMap f := by
    intro f events more silent
    rw [List.filterMap_append, List.filterMap_eq_nil_iff.mpr silent, List.nil_append]
  refine ⟨_, _, asks.returns stores, answers.returns storesOther, asks.trace stores,
    answers.trace storesOther, ⟨?_, ?_⟩, ?_, ⟨?_, ?_⟩, ?_, ?_, ?_, ?_⟩
  · rw [List.flatMap_append, List.flatMap_append, List.flatMap_append, asked, mute, read,
      List.append_nil]
  · rw [List.flatMap_append, List.flatMap_append, List.flatMap_append, answered, deaf, readOther,
      List.nil_append]
  · exact (handshake_woven contact caller called banner).append
      (by rw [List.flatMap_append, mute, List.append_nil, asked])
      (by rw [List.flatMap_append, deaf, List.nil_append, answered]) talk.woven
  · exact fun event member => (List.mem_append.mp member).elim (exact event) (later event)
  · exact fun event member => (List.mem_append.mp member).elim (exactOther event) (laterOther event)
  · rw [front _ _ _ fun event member => (idle event member).1]
    exact unlinked
  · rw [front _ _ _ fun event member => (idleOther event member).1]
    exact unlinkedOther
  · rw [List.filterMap_append, List.filterMap_eq_nil_iff.mpr fun event member =>
      (idle event member).2]
    exact handed
  · rw [List.filterMap_append, List.filterMap_eq_nil_iff.mpr fun event member =>
      (idleOther event member).2]
    exact handedOther

/-- What both sides are left with when a call is over. -/
structure Contact.Finished (contact : Contact) (caller called : Station)
    (input inputOther : Bytes) : Prop where
  returns : (run (handle contact.env) (contact.callerProgram caller)
    (World.start input false caller.db)).1 ≠ none
  returnsOther : (run (handle contact.envOther) (contact.calledProgram called)
    (World.start inputOther false called.db)).1 ≠ none
  outbox : (caller.after contact.env (contact.callerProgram caller) input false).outbox = []
  outboxOther : (called.after contact.envOther (contact.calledProgram called) inputOther
    false).outbox = []
  received : (caller.after contact.env (contact.callerProgram caller) input false).received =
    (wanted caller.knows contact.offersOther).map (handedOver caller.config)
  receivedOther : (called.after contact.envOther (contact.calledProgram called) inputOther
    false).received = (wanted called.knows contact.offers).map (handedOver called.config)

structure Contact.Settled (contact : Contact) (caller called : Station)
    (input inputOther : Bytes) : Prop where
  all : input = ((contact.calledEnd called).trace inputOther).flatMap Event.writes
  allOther : inputOther = ((contact.callerEnd caller).trace input).flatMap Event.writes

theorem WholeContact.exchanged {said heard : List Event}
    (whole : WholeContact contact caller called said heard) :
    ((contact.calledEnd called).trace (heard.flatMap Event.reads)).flatMap Event.writes =
        said.flatMap Event.reads ∧
      ((contact.callerEnd caller).trace (said.flatMap Event.reads)).flatMap Event.writes =
        heard.flatMap Event.reads := by
  rw [whole.trace, whole.traceOther]
  exact ⟨whole.balanced.1.symm, whole.balanced.2.symm⟩

theorem Contact.Between.settles (ready : caller.Ready called) (readyOther : called.Ready caller)
    (between : contact.Between caller called banner) {input inputOther : Bytes}
    (arrived : Arrived Event.writes (contact.callerEnd caller) (contact.calledEnd called) input
      inputOther) :
    ∃ later laterOther, input <+: later ∧ inputOther <+: laterOther ∧
      Arrived Event.writes (contact.callerEnd caller) (contact.calledEnd called) later
        laterOther ∧ contact.Settled caller called later laterOther := by
  obtain ⟨said, heard, whole⟩ := whole_contact ready readyOther between
  obtain ⟨answers, asks⟩ := whole.exchanged
  obtain ⟨later, laterOther, reached, before, beforeOther, all, allOther⟩ :=
    arrived.settles answers asks
  exact ⟨later, laterOther, before, beforeOther, reached, all, allOther⟩

theorem Contact.Settled.finishes (ready : caller.Ready called) (readyOther : called.Ready caller)
    (between : contact.Between caller called banner) {input inputOther : Bytes}
    (arrived : Arrived Event.writes (contact.callerEnd caller) (contact.calledEnd called) input
      inputOther) (settled : contact.Settled caller called input inputOther) :
    contact.Finished caller called input inputOther := by
  obtain ⟨said, heard, whole⟩ := whole_contact ready readyOther between
  obtain ⟨answers, asks⟩ := whole.exchanged
  obtain ⟨inside, insideOther⟩ := arrived.inside answers asks
  obtain ⟨done, read, readOther⟩ := ends_whole whole.trace whole.traceOther whole.balanced
    whole.woven whole.exact inside insideOther settled.all settled.allOther
  have same : (contact.callerEnd caller).trace input = said := done.1
  have sameOther : (contact.calledEnd called).trace inputOther = heard := done.2
  refine ⟨read ▸ whole.returns, readOther ▸ whole.returnsOther, ?_, ?_, ?_, ?_⟩
  · change Station.remaining caller.outbox ((contact.callerEnd caller).trace input) = []
    rw [same]
    exact remaining_none (fun prop member => (ready.outbox prop member).path) between.order
      whole.unlinked
  · change Station.remaining called.outbox ((contact.calledEnd called).trace inputOther) = []
    rw [sameOther]
    exact remaining_none (fun prop member => (readyOther.outbox prop member).path)
      between.orderOther whole.unlinkedOther
  · change caller.received ++ ((contact.callerEnd caller).trace input).filterMap Event.handed = _
    rw [same, ready.received, whole.handed, List.nil_append]
  · change called.received ++
      ((contact.calledEnd called).trace inputOther).filterMap Event.handed = _
    rw [sameOther, readyOther.received, whole.handedOther, List.nil_append]

end Whole

end PaclinkUnix
