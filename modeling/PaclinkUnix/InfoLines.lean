import PaclinkUnix.Batches

/-!
The `;PM:` and `;FW:` lines before an answer. Two loops skip them, one for each kind, so
they go unnoticed only while no line about pending messages comes after one about
forwarding. In `wl2kax25d` the peer also gets what `tgetline` prints of a line's bytes that are
not ASCII.
-/

namespace PaclinkUnix

open Effects Effects.Program

def Op.deaf : Op → Bool
  | .write _ _ | .unlink _ | .halt _ => true
  | _ => false

def World.heard (input : Bytes) (events : List Event) (world : World) : World :=
  { world with input := input, trace := world.trace ++ events }

def World.acted (events : List Event) (halted : Option Halt) (world : World) : World :=
  { world with trace := world.trace ++ events, halted := halted.or world.halted }

def Event.acts : Event → Bool
  | .line _ _ => false
  | _ => true

section Deaf

variable {α : Type}

theorem handle_deaf (env : Env) {op : Op} (deaf : op.deaf = true) : ∃ answer events halted,
    (∀ world : World, handle env op world = (answer, world.acted events halted)) ∧
      ∀ event ∈ events, event.acts = true := by
  cases op with
  | write what bytes =>
      exact ⟨.some (), [.wrote what bytes], none, fun world => rfl, by simp [Event.acts]⟩
  | unlink path =>
      exact ⟨.some (), [.unlinked path], none, fun world => rfl, by simp [Event.acts]⟩
  | halt reason =>
      refine ⟨none, [], .some reason, fun world => ?_, by simp⟩
      simp [handle, World.acted, World.stop]
  | _ => cases deaf

theorem acted_acted (first second : List Event) (stopped halted : Option Halt) (world : World) :
    (world.acted first stopped).acted second halted =
      world.acted (first ++ second) (halted.or stopped) := by
  simp [World.acted, Option.or_assoc]

theorem run_deaf (env : Env) {program : Session α}
    (performs : Performs (fun op => op.deaf = true) program) : ∃ value events halted,
    (∀ world : World, run (handle env) program world = (value, world.acted events halted)) ∧
      ∀ event ∈ events, event.acts = true := by
  induction program with
  | ret value => exact ⟨.some value, [], none, fun world => by simp [World.acted], by simp⟩
  | call op next ih =>
      obtain ⟨answer, first, stopped, handled, firstActs⟩ := handle_deaf env performs.1
      cases answer with
      | none => exact ⟨none, first, stopped, fun world => run_call_none (handled world), firstActs⟩
      | some answer =>
          obtain ⟨value, second, halted, ran, secondActs⟩ := ih answer (performs.2 answer)
          refine ⟨value, first ++ second, halted.or stopped, fun world => ?_, ?_⟩
          · rw [run_call_some (handled world), ran, acted_acted]
          · intro event member
            rcases List.mem_append.mp member with inFirst | inSecond
            · exact firstActs event inFirst
            · exact secondActs event inSecond

theorem deaf_exit (message : String) :
    Performs (fun op => op.deaf = true) (exit message : Session α) :=
  ⟨rfl, fun halted => halted.elim⟩

theorem deaf_write (what : Output) (bytes : Bytes) :
    Performs (fun op => op.deaf = true) (write what bytes) :=
  ⟨rfl, fun _ => trivial⟩

theorem deaf_sendProposals (limit : Nat) (props : List Proposal) (cksum : UInt32) :
    Performs (fun op => op.deaf = true) (sendProposals limit props cksum) := by
  induction limit generalizing props cksum with
  | zero => exact trivial
  | succ limit ih =>
      cases props with
      | nil => exact ⟨rfl, fun halted => halted.elim⟩
      | cons prop next =>
          rw [sendProposals]
          refine Performs.bind (deaf_write _ _) fun _ => ?_
          split
          · exact trivial
          · exact ih next _

theorem deaf_putBlocks (mid : Bytes) (fuel : Nat) (rem : Bytes) (cksum : UInt32) :
    Performs (fun op => op.deaf = true) (putBlocks mid fuel rem cksum) := by
  induction fuel generalizing rem cksum with
  | zero => exact trivial
  | succ fuel ih =>
      rw [putBlocks]
      split
      · exact trivial
      · exact Performs.bind (deaf_write _ _) fun _ => Performs.bind (deaf_write _ _) fun _ => ih _ _

theorem deaf_transmitOne (prop : Proposal) :
    Performs (fun op => op.deaf = true) (transmitOne prop) := by
  unfold transmitOne
  split
  · refine Performs.bind ?_ fun _ => trivial
    unfold putcompressed
    refine Performs.bind (deaf_write _ _) fun _ => ?_
    split
    · exact deaf_exit _
    · split
      · exact deaf_exit _
      · split
        · exact ⟨rfl, fun halted => halted.elim⟩
        · exact Performs.bind (deaf_putBlocks _ _ _ _) fun _ => deaf_write _ _
  · exact trivial

theorem deaf_transmit (limit : Nat) (props : List Proposal) :
    Performs (fun op => op.deaf = true) (transmit limit props) := by
  induction limit generalizing props with
  | zero => exact trivial
  | succ limit ih =>
      cases props with
      | nil => exact ⟨rfl, fun halted => halted.elim⟩
      | cons prop next =>
          rw [transmit]
          refine Performs.bind (deaf_transmitOne prop) fun prop => ?_
          split
          · exact trivial
          · exact Performs.bind (ih next) fun _ => trivial

end Deaf

def lineText (raw : Bytes) : Bytes := ((wl2kgetline raw).map Prod.fst).getD []

def WholeLine (raw : Bytes) : Prop := wl2kgetline raw = some (lineText raw, [])

def isPending (raw : Bytes) : Bool := strbegins (lineText raw) (ascii ";PM:")
def isForward (raw : Bytes) : Bool := strbegins (lineText raw) (ascii ";FW:")

/-- No line about pending messages after one about forwarding. -/
def PendingFirst (infos : List Bytes) : Prop :=
  infos.Pairwise fun first second => isForward first = true → isPending second = false

def lineEvents (raws : List Bytes) : List Event := raws.map fun raw => .line raw (lineText raw)

instance (raw : Bytes) : Decidable (WholeLine raw) := inferInstanceAs (Decidable (_ = _))

theorem strbegins_exclusive {text first second : Bytes} (one : strbegins text first = true)
    (shorter : second.length ≤ first.length) (other : strbegins first second = false) :
    strbegins text second = false := by
  rw [strbegins, List.isPrefixOf_iff_prefix] at one
  rw [← Bool.not_eq_true, strbegins, List.isPrefixOf_iff_prefix] at other ⊢
  exact fun also => other (List.prefix_of_prefix_length_le also one shorter)

section Lines

variable {raw : Bytes} {infos : List Bytes}

theorem forward_notPending (forward : isForward raw = true) : isPending raw = false :=
  strbegins_exclusive forward (by decide +kernel) (by decide +kernel)

theorem pending_notForward (pending : isPending raw = true) : isForward raw = false :=
  strbegins_exclusive pending (by decide +kernel) (by decide +kernel)

theorem pendingFirst_iff (informational : ∀ raw ∈ infos, isPending raw = true ∨ isForward raw = true) :
    PendingFirst infos ↔ (infos.dropWhile isPending).dropWhile isForward = [] := by
  induction infos with
  | nil => simp [PendingFirst]
  | cons raw infos ih =>
      have later := ih fun other member => informational other (List.mem_cons_of_mem _ member)
      rw [PendingFirst, List.pairwise_cons]
      rcases informational raw (List.mem_cons_self ..) with pending | forward
      · simp only [pending_notForward pending, pending, List.dropWhile_cons_of_pos]
        rw [← later]
        simp [PendingFirst]
      · rw [List.dropWhile_cons_of_neg (by simp [forward_notPending forward]),
          List.dropWhile_cons_of_pos forward, List.dropWhile_eq_nil_iff]
        constructor
        · rintro ⟨plain, -⟩ other member
          rcases informational other (List.mem_cons_of_mem _ member) with pending | isForward
          · rw [plain other member forward] at pending
            cases pending
          · exact isForward
        · intro all
          refine ⟨fun other member _ => forward_notPending (all other member), ?_⟩
          refine List.Pairwise.imp_of_mem ?_ (List.pairwise_of_forall (R := fun _ _ => True) (by simp))
          exact fun _ member _ _ => forward_notPending (all _ member)

end Lines

section Loops

variable {env : Env} {α : Type} {start : Bytes}

theorem run_getline_whole {raw : Bytes} (whole : WholeLine raw) (rest : Bytes)
    (next : Option Bytes → Session α) (events : List Event) (world : World) :
    run (handle env) (getline >>= next) (world.heard (raw ++ rest) events) =
      run (handle env) (next (some (lineText raw)))
        (world.heard rest (events ++ lineEvents [raw])) := by
  have read := wl2kgetline_append whole rest
  rw [List.nil_append] at read
  refine run_call_some ?_
  simp [handle, World.heard, read, World.log, lineEvents, taken]

theorem lineEvents_append (first second : List Bytes) :
    lineEvents (first ++ second) = lineEvents first ++ lineEvents second :=
  List.map_append

/-- A loop stops at the first line that does not begin as its lines do. -/
theorem run_skipLines {skipped more : List Bytes} {raw stop : Bytes} {fuel : Nat}
    (lines : raw :: more = skipped ++ [stop]) (whole : ∀ line ∈ more, WholeLine line)
    (begins : ∀ line ∈ skipped, strbegins (lineText line) start = true)
    (other : strbegins (lineText stop) start = false) (enough : skipped.length ≤ fuel)
    (rest : Bytes) (events : List Event) (world : World) :
    run (handle env) (skipLines start fuel (lineText raw))
        (world.heard (more.flatten ++ rest) events) =
      (some (lineText stop), world.heard rest (events ++ lineEvents more)) := by
  induction skipped generalizing raw more fuel events with
  | nil =>
      obtain ⟨rfl, rfl⟩ := List.cons.inj lines
      have done : skipLines start fuel (lineText raw) = pure (lineText raw) := by
        cases fuel <;> simp [skipLines, other]
      rw [done]
      simp [lineEvents]
  | cons first skipped ih =>
      rw [List.cons_append] at lines
      obtain ⟨rfl, rfl⟩ := List.cons.inj lines
      obtain ⟨fuel, rfl⟩ : ∃ less, fuel = less + 1 := ⟨fuel - 1, by simp at enough; omega⟩
      have here := begins raw (List.mem_cons_self ..)
      have nonempty : skipped ++ [stop] ≠ [] := by simp
      obtain ⟨next, more, split⟩ := List.exists_cons_of_ne_nil nonempty
      rw [skipLines, if_pos here, split, List.flatten_cons, List.append_assoc]
      rw [split] at whole
      have both : lineEvents (next :: more) = lineEvents [next] ++ lineEvents more := rfl
      rw [run_getline_whole (whole next (List.mem_cons_self ..)), both, ← List.append_assoc events]
      exact ih split.symm (fun line member => whole line (List.mem_cons_of_mem _ member))
        (fun line member => begins line (List.mem_cons_of_mem _ member))
        (by simp at enough; omega) _

/-- What `b2outboundproposal` does up to the line it takes for the answer. -/
def listen (fuel : Nat) : Session Bytes := do
  match ← getline with
  | none => exit "connection closed"
  | some line => do
    let line ← skipLines (ascii ";PM:") fuel line
    skipLines (ascii ";FW:") fuel line

def answerTurn (props : List Proposal) (cursor : Nat) (line : Bytes) :
    Session (Int × List Proposal × Nat) :=
  if strbegins line (ascii "FS ") = false then exit "B2 protocol error 1"
  else do
    let offered ← readAnswers 0 (props.drop cursor) (skipSpace (line.drop 3))
    let (offered, moved) ← transmit propLimit offered
    pure (0, props.take cursor ++ offered, cursor + moved)

def offerTurn (offered : List Proposal) : Session Unit := do
  let cksum ← sendProposals propLimit offered 0
  write .batchEnd (ascii "F> " ++ hexByte (cksumByte cksum).toNat ++ ascii "\r")

theorem b2outboundproposal_turns {props : List Proposal} {cursor : Nat}
    (nonempty : props.drop cursor ≠ []) (fuel : Nat) (lastcommand : Bytes) :
    b2outboundproposal fuel lastcommand props cursor =
      offerTurn (props.drop cursor) >>= fun _ => listen fuel >>= answerTurn props cursor := by
  have offered : (props.drop cursor).isEmpty = false := by simpa using nonempty
  rw [b2outboundproposal]
  simp only [offered, if_true]
  rw [offerTurn, bind_assoc]
  congr 1
  funext cksum
  congr 1
  funext done
  rw [listen, bind_assoc]
  congr 1
  funext next
  cases next with
  | none =>
      exact congrArg (Program.call _) (funext fun halted => halted.elim)
  | some line =>
      rw [bind_assoc]
      rfl

theorem run_listen {pendings forwards : List Bytes} {stop : Bytes} {fuel : Nat}
    (whole : ∀ line ∈ pendings ++ (forwards ++ [stop]), WholeLine line)
    (arePending : ∀ line ∈ pendings, isPending line = true)
    (areForward : ∀ line ∈ forwards, isForward line = true)
    (notPending : forwards = [] → isPending stop = false) (notForward : isForward stop = false)
    (enough : pendings.length ≤ fuel ∧ forwards.length ≤ fuel) (rest : Bytes)
    (events : List Event) (world : World) :
    run (handle env) (listen fuel)
        (world.heard ((pendings ++ (forwards ++ [stop])).flatten ++ rest) events) =
      (some (lineText stop),
        world.heard rest (events ++ lineEvents (pendings ++ (forwards ++ [stop])))) := by
  obtain ⟨middle, last, split⟩ := List.exists_cons_of_ne_nil (show forwards ++ [stop] ≠ [] by simp)
  obtain ⟨raw, more, start⟩ := List.exists_cons_of_ne_nil (show pendings ++ [middle] ≠ [] by simp)
  have middleNotPending : isPending middle = false := by
    cases forwards with
    | nil =>
        obtain ⟨rfl, -⟩ := List.cons.inj split
        exact notPending rfl
    | cons first forwards =>
        obtain ⟨rfl, -⟩ := List.cons.inj split
        exact forward_notPending (areForward first (List.mem_cons_self ..))
  have all : pendings ++ (forwards ++ [stop]) = raw :: (more ++ last) := by
    rw [split, ← List.cons_append, ← start]
    simp
  rw [all] at whole ⊢
  have wholeMore : ∀ line ∈ more, WholeLine line := fun line member =>
    whole line (List.mem_cons_of_mem _ (List.mem_append_left _ member))
  have wholeLast : ∀ line ∈ last, WholeLine line := fun line member =>
    whole line (List.mem_cons_of_mem _ (List.mem_append_right _ member))
  rw [List.flatten_cons, List.flatten_append, List.append_assoc, List.append_assoc, listen,
    run_getline_whole (whole raw (List.mem_cons_self ..))]
  simp only
  rw [run_bind_some (run_skipLines start.symm wholeMore arePending middleNotPending enough.1 _ _ _),
    run_skipLines split.symm wholeLast areForward notForward enough.2]
  rw [List.append_assoc, List.append_assoc, ← lineEvents_append, ← lineEvents_append]
  rfl

end Loops

/-- What is printed when these lines are read, if the standard output is the peer. -/
def printed (daemon : Bool) (raws : List Bytes) : List Bytes :=
  if daemon then (raws.map tgetlineDump).filter fun dump => dump ≠ [] else []

/-- What comes of an event but for reading a line. -/
def Event.seen (daemon : Bool) : Event → List (Event ⊕ Bytes)
  | .line raw _ => (printed daemon [raw]).map .inr
  | event => [.inl event]

/-- The lines up to the one that is taken for the answer. -/
def untilAnswer (lines : List Bytes) : List Bytes :=
  let behind := lines.dropWhile isPending
  lines.takeWhile isPending ++ (behind.takeWhile isForward ++ (behind.dropWhile isForward).take 1)

section Behaviour

variable {env : Env} {props : List Proposal} {cursor : Nat} {daemon : Bool}

/-- What a run returns and what it does but for reading lines. -/
def behaviour {α : Type} (daemon : Bool) (result : Option α × World) :
    Option α × List (Event ⊕ Bytes) :=
  (result.1, result.2.trace.flatMap (Event.seen daemon))

theorem printed_append (daemon : Bool) (first second : List Bytes) :
    printed daemon (first ++ second) = printed daemon first ++ printed daemon second := by
  unfold printed
  split
  · rw [List.map_append, List.filter_append]
  · rfl

theorem printed_nil (raws : List Bytes) : printed daemon raws = [] ↔
    (daemon = true → ∀ raw ∈ raws, ∀ char ∈ raw, char ≠ 0x1e ∧ isascii char = true) := by
  cases daemon with
  | false => simp [printed]
  | true => simp [printed, tgetlineDump_nil]

theorem seen_lines (raws : List Bytes) :
    (lineEvents raws).flatMap (Event.seen daemon) = (printed daemon raws).map .inr := by
  induction raws with
  | nil => simp [lineEvents, printed]
  | cons raw raws ih =>
      rw [← List.singleton_append, lineEvents_append, List.flatMap_append, ih, printed_append,
        List.map_append]
      simp [lineEvents, Event.seen]

theorem seen_acts {events : List Event} (acts : ∀ event ∈ events, event.acts = true) :
    events.flatMap (Event.seen daemon) = events.map .inl := by
  induction events with
  | nil => rfl
  | cons event events ih =>
      have here : event.seen daemon = [.inl event] := by
        have act := acts event List.mem_cons_self
        cases event <;> first | rfl | cases act
      rw [List.flatMap_cons, here, ih fun other member => acts other (List.mem_cons_of_mem _ member)]
      rfl

/-- The line refuses the batch: it is no answer, or one of its answers means nothing. -/
def Refused (offered : List Proposal) (line : Bytes) : Prop :=
  strbegins line (ascii "FS ") = false ∨ markAnswers offered (skipSpace (line.drop 3)) = none

theorem deaf_answerTurn (props : List Proposal) (cursor : Nat) (line : Bytes) :
    Performs (fun op => op.deaf = true) (answerTurn props cursor line) := by
  unfold answerTurn
  split
  · exact deaf_exit _
  · rw [readAnswers_eq]
    refine Performs.bind ?_ fun marked => Performs.bind (deaf_transmit propLimit marked) fun _ => trivial
    split
    · exact trivial
    · exact deaf_exit _

theorem deaf_offerTurn (offered : List Proposal) :
    Performs (fun op => op.deaf = true) (offerTurn offered) :=
  Performs.bind (deaf_sendProposals _ _ _) fun _ => deaf_write _ _

theorem answerTurn_refused {line : Bytes} (refused : Refused (props.drop cursor) line) :
    ∃ message, answerTurn props cursor line = exit message := by
  unfold answerTurn
  split
  · exact ⟨_, rfl⟩
  · rename_i begins
    have meaningless := refused.resolve_left begins
    rw [readAnswers_eq, meaningless]
    exact ⟨_, congrArg (Program.call _) (funext fun halted => halted.elim)⟩

/-- The transmit loop stops early only in a body it has begun to send. -/
theorem transmit_heard (env : Env) (limit : Nat) {offered : List Proposal} (isSome : offered ≠ [])
    (world : World) (stopped : (run (handle env) (transmit limit offered) world).1 = none) :
    ∃ event more, (run (handle env) (transmit limit offered) world).2.trace =
      world.trace ++ event :: more := by
  induction limit generalizing offered with
  | zero => cases stopped
  | succ limit ih =>
      cases offered with
      | nil => exact absurd rfl isSome
      | cons prop next =>
          by_cases kept : prop.delete = false
          · obtain ⟨rest, begun⟩ : ∃ rest, transmit (limit + 1) (prop :: next) =
                .call (Op.write (.body prop.mid) (frameHeader prop)) rest := by
              rw [transmit, transmitOne, if_pos kept]
              exact ⟨_, rfl⟩
            have deaf := deaf_transmit (limit + 1) (prop :: next)
            rw [begun] at deaf ⊢
            obtain ⟨value, events, halted, ran, -⟩ := run_deaf env (deaf.2 ())
            refine ⟨.wrote (.body prop.mid) (frameHeader prop), events, ?_⟩
            rw [run_call_some (show handle env _ world = (.some (), world.log _) from rfl), ran]
            simp [World.acted, World.log]
          · have passed : transmitOne prop = pure prop := if_neg kept
            rw [transmit, passed] at stopped ⊢
            simp only [Program.pure_eq_ret, Program.ret_bind] at stopped ⊢
            split at stopped
            · cases stopped
            · rename_i isMore
              have nextSome : next ≠ [] := fun empty => isMore (by simp [empty])
              rw [if_neg isMore]
              rcases ran : run (handle env) (transmit limit next) world with ⟨value, after⟩
              have later := ih nextSome
              rw [ran] at later
              cases value with
              | none =>
                  rw [run_bind_none ran]
                  exact later rfl
              | some value =>
                  rw [run_bind_some ran] at stopped
                  cases stopped

theorem run_offerTurn {offered : List Proposal} (isSome : offered ≠ []) (world : World) :
    run (handle env) (offerTurn offered) world =
      (some (), { world with trace := world.trace ++ offerEvents (offered.take propLimit) }) := by
  rw [offerTurn, run_bind_some (run_sendProposals_sum env propLimit offered 0 world (.inr isSome))]
  rw [show ∀ what bytes, write what bytes = Program.perform (Op.write what bytes) from fun _ _ => rfl]
  simp [Program.perform, run_call, handle, World.log, offerEvents, batchEndLine, carriageReturn, ascii]

theorem answerTurn_heard {line : Bytes} (isSome : props.drop cursor ≠ [])
    (meant : ¬ Refused (props.drop cursor) line) (world : World)
    (stopped : (run (handle env) (answerTurn props cursor line) world).1 = none) :
    ∃ event more, (run (handle env) (answerTurn props cursor line) world).2.trace =
      world.trace ++ event :: more := by
  obtain ⟨begins, read⟩ := not_or.mp meant
  obtain ⟨marked, read⟩ := Option.ne_none_iff_exists'.mp read
  have markedSome : marked ≠ [] := by
    obtain ⟨prop, next, offered⟩ := List.exists_cons_of_ne_nil isSome
    rw [offered] at read
    rintro rfl
    cases text : skipSpace (line.drop 3) with
    | nil => simp [text, markAnswers] at read
    | cons char more =>
        simp only [text, markAnswers, Option.bind_eq_bind, Option.bind_eq_some_iff] at read
        obtain ⟨first, -, rest, -, same⟩ := read
        cases same
  have turn : answerTurn props cursor line = transmit propLimit marked >>= fun result =>
      pure (0, props.take cursor ++ result.1, cursor + result.2) := by
    rw [answerTurn, if_neg begins, readAnswers_eq, read]
    rfl
  rw [turn] at stopped ⊢
  have later := transmit_heard env propLimit markedSome world
  rcases ran : run (handle env) (transmit propLimit marked) world with ⟨value, after⟩
  rw [ran] at later
  cases value with
  | none =>
      rw [run_bind_none ran]
      exact later rfl
  | some value =>
      rw [run_bind_some ran] at stopped
      cases stopped

theorem behaviour_heard {α : Type} {program : Session α}
    (performs : Performs (fun op => op.deaf = true) program) : ∃ value acts,
    (∀ world : World, (run (handle env) program world).1 = value ∧
      (run (handle env) program world).2.trace = world.trace ++ acts) ∧
    ∀ (input : Bytes) (events : List Event) (raws : List Bytes) (world : World),
      behaviour daemon (run (handle env) program (world.heard input (events ++ lineEvents raws))) =
        (value, (world.trace ++ events).flatMap (Event.seen daemon) ++
          ((printed daemon raws).map .inr ++ acts.map .inl)) := by
  obtain ⟨value, acts, halted, ran, allAct⟩ := run_deaf env performs
  refine ⟨value, acts, fun world => ?_, fun input events raws world => ?_⟩
  · rw [ran]
    exact ⟨rfl, rfl⟩
  · rw [ran]
    simp only [behaviour, World.acted, World.heard, List.flatMap_append, seen_lines, seen_acts allAct,
      List.append_assoc]

theorem behaviour_exit {α : Type} (message : String) (left : Bytes) (events : List Event)
    (raws : List Bytes) (world : World) :
    behaviour daemon (run (handle env) (exit message : Session α)
        (world.heard left (events ++ lineEvents raws))) =
      (none, (world.trace ++ events).flatMap (Event.seen daemon) ++ (printed daemon raws).map .inr) := by
  change (Option.none, ((world.trace ++ (events ++ lineEvents raws)).flatMap _)) = _
  rw [← List.append_assoc, List.flatMap_append, seen_lines]

theorem untilAnswer_lines {pendings forwards tail : List Bytes} {stop : Bytes}
    (arePending : ∀ line ∈ pendings, isPending line = true)
    (areForward : ∀ line ∈ forwards, isForward line = true)
    (notPending : forwards = [] → isPending stop = false) (notForward : isForward stop = false) :
    untilAnswer (pendings ++ (forwards ++ [stop]) ++ tail) = pendings ++ (forwards ++ [stop]) := by
  have first : ∀ line, (forwards ++ stop :: tail).head? = .some line → isPending line = false := by
    intro line isFirst
    cases forwards with
    | nil =>
        obtain rfl := Option.some.inj isFirst
        exact notPending rfl
    | cons forward forwards =>
        obtain rfl := Option.some.inj isFirst
        exact forward_notPending (areForward forward List.mem_cons_self)
  have stays : (forwards ++ stop :: tail).takeWhile isPending = [] ∧
      (forwards ++ stop :: tail).dropWhile isPending = forwards ++ stop :: tail := by
    cases behind : forwards ++ stop :: tail with
    | nil => simp
    | cons line lines =>
        have other := first line (by rw [behind]; rfl)
        simp [other]
  have lines : pendings ++ (forwards ++ [stop]) ++ tail = pendings ++ (forwards ++ stop :: tail) := by
    simp
  rw [lines, untilAnswer]
  simp only [List.takeWhile_append_of_pos arePending, List.dropWhile_append_of_pos arePending, stays,
    List.takeWhile_append_of_pos areForward, List.dropWhile_append_of_pos areForward]
  simp [notForward]

/-- Where the two loops stop: at the `FS` line, or at a `;PM:` line that comes late. -/
theorem answer_line {infos : List Bytes} {fs : Bytes}
    (informational : ∀ raw ∈ infos, isPending raw = true ∨ isForward raw = true)
    (begins : strbegins (lineText fs) (ascii "FS") = true) :
    ∃ stop, (PendingFirst infos → stop = fs) ∧
      (¬ PendingFirst infos → strbegins (lineText stop) (ascii "FS ") = false) ∧
      ∃ pendings forwards tail,
        infos ++ [fs] = (pendings ++ (forwards ++ [stop])) ++ tail ∧
        (PendingFirst infos → tail = []) ∧
        (∀ line ∈ pendings, isPending line = true) ∧
        (∀ line ∈ forwards, isForward line = true) ∧
        (forwards = [] → isPending stop = false) ∧ isForward stop = false := by
  have parts : infos = infos.takeWhile isPending ++
      ((infos.dropWhile isPending).takeWhile isForward ++
        (infos.dropWhile isPending).dropWhile isForward) := by
    rw [List.takeWhile_append_dropWhile, List.takeWhile_append_dropWhile]
  have taken : ∀ (kind : Bytes → Bool) (lines : List Bytes), ∀ line ∈ lines.takeWhile kind,
      kind line = true := fun kind lines line member => List.mem_takeWhile_imp member
  have ordered := pendingFirst_iff informational
  generalize behind : infos.dropWhile isPending = rest at parts ordered
  cases left : rest.dropWhile isForward with
  | nil =>
      have noAnswer : ∀ kind : Bytes, ascii "FS" ≠ kind.take 2 → 2 ≤ kind.length →
          strbegins (lineText fs) kind = false := by
        intro kind different long
        rw [← Bool.not_eq_true]
        intro isKind
        rw [strbegins, List.isPrefixOf_iff_prefix] at begins isKind
        obtain ⟨more, answers⟩ := begins
        obtain ⟨other, informs⟩ := isKind
        have start := congrArg (List.take 2) (answers.trans informs.symm)
        rw [List.take_append_of_le_length (by decide +kernel), List.take_append_of_le_length long,
          List.take_of_length_le (by decide +kernel)] at start
        exact different start
      refine ⟨fs, fun _ => rfl, fun late => absurd (ordered.mpr left) late,
        infos.takeWhile isPending, rest.takeWhile isForward, [], ?_, fun _ => rfl, taken _ _,
        taken _ _, fun _ => noAnswer _ (by decide +kernel) (by decide +kernel),
        noAnswer _ (by decide +kernel) (by decide +kernel)⟩
      rw [left, List.append_nil] at parts
      rw [List.append_nil, ← List.append_assoc, ← parts]
  | cons stop later =>
      have notForward : isForward stop = false := by
        have head := List.head_dropWhile_not isForward (l := rest) (by simp [left])
        simpa [left] using head
      have inInfos : stop ∈ infos := by
        rw [parts, left]
        simp
      have pending : isPending stop = true :=
        (informational stop inInfos).resolve_right (by simp [notForward])
      have late : ¬ PendingFirst infos := fun early => by simp [ordered.mp early] at left
      refine ⟨stop, fun early => absurd early late, fun _ => strbegins_exclusive pending
        (by decide +kernel) (by decide +kernel), infos.takeWhile isPending,
        rest.takeWhile isForward, later ++ [fs], ?_, fun early => absurd early late, taken _ _,
        taken _ _, fun empty => ?_, notForward⟩
      · rw [left] at parts
        nth_rewrite 1 [parts]
        simp
      · have first : infos.dropWhile isPending = stop :: later := by
          rw [behind, ← List.takeWhile_append_dropWhile (p := isForward) (l := rest), empty, left,
            List.nil_append]
        have head := List.head_dropWhile_not isPending (l := infos) (by simp [first])
        simpa [first] using head

/-- The line that is taken for the answer: the first of the `;PM:` lines that come late,
or the `FS` line. -/
theorem run_offer (env : Env) (lastcommand : Bytes) (isSome : props.drop cursor ≠ []) {fuel : Nat}
    (infos : List Bytes) (whole : ∀ raw ∈ infos, WholeLine raw)
    (informational : ∀ raw ∈ infos, isPending raw = true ∨ isForward raw = true)
    (enough : infos.length ≤ fuel) {fs : Bytes} (wholeLine : WholeLine fs)
    (begins : strbegins (lineText fs) (ascii "FS") = true) (rest : Bytes) (world : World) :
    ∃ line, (PendingFirst infos → line = lineText fs ∧ untilAnswer (infos ++ [fs]) = infos ++ [fs]) ∧
      (¬ PendingFirst infos → strbegins line (ascii "FS ") = false) ∧ ∃ left,
      run (handle env) (b2outboundproposal fuel lastcommand props cursor)
          { world with input := infos.flatten ++ (fs ++ rest) } =
        run (handle env) (answerTurn props cursor line)
          (world.heard left (offerEvents ((props.drop cursor).take propLimit) ++
            lineEvents (untilAnswer (infos ++ [fs])))) := by
  obtain ⟨stop, line, late, pendings, forwards, tail, all, last, arePending, areForward, notPending,
    notForward⟩ := answer_line informational begins
  have heardLines : untilAnswer (infos ++ [fs]) = pendings ++ (forwards ++ [stop]) := by
    rw [all]
    exact untilAnswer_lines arePending areForward notPending notForward
  have lengths := congrArg List.length all
  simp only [List.length_append, List.length_singleton] at lengths
  have wholeAll : ∀ line ∈ pendings ++ (forwards ++ [stop]), WholeLine line := by
    intro line member
    have inAll : line ∈ infos ++ [fs] := all ▸ List.mem_append_left _ member
    rcases List.mem_append.mp inAll with inInfos | isFs
    · exact whole line inInfos
    · rwa [List.mem_singleton.mp isFs]
  have stream : infos.flatten ++ (fs ++ rest) =
      (pendings ++ (forwards ++ [stop])).flatten ++ (tail.flatten ++ rest) := by
    have flat := congrArg List.flatten all
    simp only [List.flatten_append, List.flatten_cons, List.flatten_nil, List.append_nil] at flat ⊢
    rw [← List.append_assoc, flat]
    simp
  have heard : ∀ input events, { world with input := input, trace := world.trace ++ events } =
      world.heard input events := fun _ _ => rfl
  refine ⟨lineText stop, fun ordered => ⟨by rw [line ordered], ?_⟩, late, tail.flatten ++ rest, ?_⟩
  · rw [heardLines, all, last ordered, List.append_nil]
  rw [b2outboundproposal_turns isSome, run_bind_some (run_offerTurn isSome _), heard, stream,
    run_bind_some (run_listen wholeAll arePending areForward notPending notForward (by omega) _ _ _),
    heardLines]

/-- Informational lines go unnoticed exactly when no `;PM:` line comes after a `;FW:` line and
nothing is printed of their bytes to the peer, unless there is no batch, or the answer stops the
session just as the line does, and as much is printed before. -/
theorem informational_iff (daemon : Bool) (env : Env) (fuel : Nat) (lastcommand : Bytes)
    (props : List Proposal) (cursor : Nat) (world : World) (infos : List Bytes) (fs rest : Bytes)
    (whole : ∀ raw ∈ infos, WholeLine raw)
    (informational : ∀ raw ∈ infos, isPending raw = true ∨ isForward raw = true)
    (enough : infos.length ≤ fuel) (wholeLine : WholeLine fs)
    (begins : strbegins (lineText fs) (ascii "FS") = true) :
    behaviour daemon (run (handle env) (b2outboundproposal fuel lastcommand props cursor)
        { world with input := infos.flatten ++ (fs ++ rest) }) =
      behaviour daemon (run (handle env) (b2outboundproposal fuel lastcommand props cursor)
        { world with input := fs ++ rest }) ↔
      props.drop cursor = [] ∨
      PendingFirst infos ∧
        (daemon = true → ∀ raw ∈ infos, ∀ char ∈ raw, char ≠ 0x1e ∧ isascii char = true) ∨
      Refused (props.drop cursor) (lineText fs) ∧
        printed daemon (untilAnswer (infos ++ [fs])) = printed daemon [fs] := by
  by_cases batch : props.drop cursor = []
  · have silent : Performs (fun op => op.deaf = true)
        (b2outboundproposal fuel lastcommand props cursor) := by
      rw [b2outboundproposal]
      simp only [batch, List.isEmpty_nil, Bool.true_eq_false, if_false]
      split
      · exact Performs.bind (deaf_write _ _) fun _ => trivial
      · exact Performs.bind (deaf_write _ _) fun _ => trivial
    obtain ⟨value, events, halted, ran, -⟩ := run_deaf env silent
    simp [behaviour, ran, World.acted, batch]
  · obtain ⟨line, inOrder, late, _, withLines⟩ := run_offer env lastcommand batch infos whole
      informational enough wholeLine begins rest world
    obtain ⟨answer, isAnswer, -, _, plain⟩ := run_offer env lastcommand batch
      [] (by simp) (by simp) (Nat.zero_le fuel) wholeLine begins rest world
    obtain ⟨rfl, alone⟩ := isAnswer List.Pairwise.nil
    rw [List.flatten_nil, List.nil_append] at plain
    rw [alone, List.nil_append] at plain
    obtain ⟨value, acts, ran, answered⟩ := @behaviour_heard env daemon _ _
      (deaf_answerTurn props cursor (lineText fs))
    rw [withLines, plain, answered, or_iff_right batch, ← printed_nil]
    by_cases ordered : PendingFirst infos
    · obtain ⟨rfl, all⟩ := inOrder ordered
      rw [all, answered, printed_append, List.map_append, List.append_assoc]
      simp only [Prod.mk.injEq, true_and, List.append_cancel_left_eq, List.append_left_eq_self,
        List.map_eq_nil_iff]
      tauto
    · obtain ⟨message, exits⟩ := answerTurn_refused (.inl (late ordered) :
        Refused (props.drop cursor) line)
      have refused : Refused (props.drop cursor) (lineText fs) → value = none ∧ acts = [] := by
        intro refused
        obtain ⟨other, refuses⟩ := answerTurn_refused refused
        obtain ⟨returned, did⟩ := ran world
        rw [refuses] at returned did
        exact ⟨returned.symm, List.self_eq_append_right.mp did⟩
      rw [exits, behaviour_exit, or_iff_right (fun early => ordered early.1)]
      simp only [Prod.mk.injEq, List.append_cancel_left_eq]
      constructor
      · rintro ⟨rfl, same⟩
        by_cases meant : Refused (props.drop cursor) (lineText fs)
        · rw [(refused meant).2, List.map_nil, List.append_nil] at same
          exact ⟨meant, List.map_injective_iff.mpr Sum.inr_injective same⟩
        · obtain ⟨returned, did⟩ := ran world
          obtain ⟨event, more, heard⟩ := answerTurn_heard batch meant world returned
          obtain rfl : acts = event :: more := List.append_cancel_left (did.symm.trans heard)
          have act : Sum.inl event ∈ (printed daemon (untilAnswer (infos ++ [fs]))).map Sum.inr := by
            rw [same]
            simp
          simp at act
      · rintro ⟨meant, same⟩
        obtain ⟨rfl, rfl⟩ := refused meant
        rw [same]
        simp

/-- In `wl2kax25d`, with the lines in order. -/
theorem informational_sample :
    behaviour true (run (handle quietEnv) (b2outboundproposal 2 [] [sampleProposal] 0)
        { World.start [] true (fun _ => none) with
          input := [ascii ";PM: W1AW\r", ascii ";FW: W1AW\r"].flatten ++ (ascii "FS Y\r" ++ []) }) =
      behaviour true (run (handle quietEnv) (b2outboundproposal 2 [] [sampleProposal] 0)
        { World.start [] true (fun _ => none) with input := ascii "FS Y\r" ++ [] }) :=
  (informational_iff true quietEnv 2 [] [sampleProposal] 0 (World.start [] true fun _ => none)
    [ascii ";PM: W1AW\r", ascii ";FW: W1AW\r"] (ascii "FS Y\r") []
    (by decide +kernel) (by decide +kernel) (by decide) (by decide +kernel) (by decide +kernel)).mpr
    (.inr (.inl ⟨by
      rw [PendingFirst, List.pairwise_pair]
      decide +kernel, fun _ => by decide +kernel⟩))

/-- A line about pending messages after one about forwarding stops the session. -/
theorem late_pending_stops :
    behaviour false (run (handle quietEnv) (b2outboundproposal 2 [] [sampleProposal] 0)
        { World.start [] true (fun _ => none) with
          input := [ascii ";FW: W1AW\r", ascii ";PM: W1AW\r"].flatten ++ ascii "FS Y\r" }) ≠
      behaviour false (run (handle quietEnv) (b2outboundproposal 2 [] [sampleProposal] 0)
        { World.start [] true (fun _ => none) with input := ascii "FS Y\r" }) := by
  intro same
  have returned := congrArg (fun result => result.1.isSome) same
  revert returned
  decide +kernel

end Behaviour

end PaclinkUnix
