import PaclinkUnix.Library.Program
import PaclinkUnix.Mid
import PaclinkUnix.Stream

/-!
The world of one mail session: the peer's byte stream, the database of message
identifiers, and a trace of everything the program has done. The peer
may fall silent or close its end at any byte. Of stdio two things are assumed: every write
to the peer succeeds, to its last byte (`putcompressed` only logs a short `fwrite`), and
reading and writing are independent, though the clients pass one stream for both.
-/

namespace PaclinkUnix

open Effects

/-- What a write to the peer is part of. -/
inductive Output where
  | command
  | proposal (mid : Bytes)
  | batchEnd
  | answers
  | body (mid : Bytes)
  deriving DecidableEq, Repr

inductive Event where
  | line (raw text : Bytes)
  | frame (raw : Bytes) (result : Option Bytes)
  | wrote (what : Output) (bytes : Bytes)
  | unlinked (path : Bytes)
  | checked (mid : Bytes) (calls : DbCalls) (result : Option Int) (held : Bool)
  | answered (mid : Bytes) (char : UInt8)
  | delivered (mid message mimebuf : Bytes)
  | recorded (mid : Bytes) (result : Int)
  deriving DecidableEq, Repr

inductive Halt where
  | exit (message : String)
  | blocked
  | fault
  | outOfFuel
  deriving DecidableEq, Repr

/-- How handing a message to sendmail can end. -/
inductive Sendmail where
  | popenFailed
  | putcFailed
  | pcloseFailed (noChild : Bool)
  | status (code : Nat)
  deriving DecidableEq, Repr

structure Env where
  dbCalls : Nat → DbCalls
  clock : Nat → Int
  sendmail : Nat → Sendmail
  stray : Nat → UInt8 × UInt8

/-- Every call succeeds, and no time passes. -/
def quietEnv : Env where
  dbCalls := fun _ => .succeed
  clock := fun _ => 0
  sendmail := fun _ => .status 0
  stray := fun _ => (0, 0)

structure World where
  input : Bytes
  closed : Bool
  trace : List Event
  db : MidDb
  calls : Nat
  halted : Option Halt

inductive Op where
  | getline
  | getcompressed
  | write (what : Output) (bytes : Bytes)
  | unlink (path : Bytes)
  | checkMid (mid : Bytes)
  | answer (mid : Bytes) (char : UInt8)
  | sendmail (mid message mimebuf : Bytes)
  | recordMid (mid : Bytes)
  | strayBytes
  | halt (reason : Halt)

@[reducible] def Op.Answer : Op → Type
  | .getline => Option Bytes
  | .getcompressed => Option Bytes
  | .write _ _ => Unit
  | .unlink _ => Unit
  | .checkMid _ => Int
  | .answer _ _ => Unit
  | .sendmail _ _ _ => Sendmail
  | .recordMid _ => Int
  | .strayBytes => UInt8 × UInt8
  | .halt _ => Empty

abbrev Session (α : Type) : Type := Program Op Op.Answer α

namespace World

def start (input : Bytes) (closed : Bool) (db : MidDb) : World :=
  { input := input, closed := closed, trace := [], db := db, calls := 0, halted := none }

def log (event : Event) (world : World) : World :=
  { world with trace := world.trace ++ [event] }

def stop (reason : Halt) (world : World) : World := { world with halted := some reason }

def tick (world : World) : World := { world with calls := world.calls + 1 }

def feed (more : Bytes) (world : World) : World :=
  if world.closed then world else { world with input := world.input ++ more }

@[simp] theorem trace_start (input : Bytes) (closed : Bool) (db : MidDb) :
    (start input closed db).trace = [] := rfl
@[simp] theorem trace_log (event : Event) (world : World) :
    (world.log event).trace = world.trace ++ [event] := rfl
@[simp] theorem input_log (event : Event) (world : World) :
    (world.log event).input = world.input := rfl
@[simp] theorem db_log (event : Event) (world : World) : (world.log event).db = world.db := rfl
@[simp] theorem trace_stop (reason : Halt) (world : World) :
    (world.stop reason).trace = world.trace := rfl
@[simp] theorem trace_feed (more : Bytes) (world : World) :
    (world.feed more).trace = world.trace := by
  unfold feed
  split <;> rfl

end World

/-- The bytes a reader took from the stream. -/
def taken (input rest : Bytes) : Bytes := input.take (input.length - rest.length)

/-- Carry out one operation. End of file is NULL for a line and an exit inside a body. -/
def handle (env : Env) : (op : Op) → World → Option op.Answer × World
  | .getline, world =>
      match wl2kgetline world.input with
      | some (text, rest) =>
          (some (some text),
            { world with input := rest }.log (.line (taken world.input rest) text))
      | none =>
          if world.closed then (some none, { world with input := [] })
          else (none, world.stop .blocked)
  | .getcompressed, world =>
      match getcompressed world.input with
      | some (result, rest) =>
          (some result,
            { world with input := rest }.log (.frame (taken world.input rest) result))
      | none =>
          if world.closed then (none, world.stop (.exit "lost connection in getrawchar()"))
          else (none, world.stop .blocked)
  | .write what bytes, world => (some (), world.log (.wrote what bytes))
  | .unlink path, world => (some (), world.log (.unlinked path))
  | .checkMid mid, world =>
      let now := env.clock world.calls
      let calls := env.dbCalls world.calls
      let held := decide (holds now mid world.db)
      let (result, db) := checkMid calls now mid world.db
      let after := { world.tick with db := db }.log (.checked mid calls result held)
      match result with
      | some result => (some result, after)
      | none => (none, after.stop (.exit "MID database is corrupt"))
  | .answer mid char, world => (some (), world.log (.answered mid char))
  | .sendmail mid message mimebuf, world =>
      match env.sendmail world.calls with
      | .popenFailed => (some .popenFailed, world.tick)
      | result => (some result, world.tick.log (.delivered mid message mimebuf))
  | .recordMid mid, world =>
      let (result, db) := recordMid (env.dbCalls world.calls) (env.clock world.calls) mid world.db
      (some result, { world.tick with db := db }.log (.recorded mid result))
  | .strayBytes, world => (some (env.stray world.calls), world.tick)
  | .halt reason, world => (none, world.stop reason)

section Operations

def getline : Session (Option Bytes) := Program.perform Op.getline
def receiveCompressed : Session (Option Bytes) := Program.perform Op.getcompressed
def write (what : Output) (bytes : Bytes) : Session Unit := Program.perform (Op.write what bytes)
def unlink (path : Bytes) : Session Unit := Program.perform (Op.unlink path)
def callCheckMid (mid : Bytes) : Session Int := Program.perform (Op.checkMid mid)
def answer (mid : Bytes) (char : UInt8) : Session Unit := Program.perform (Op.answer mid char)
def sendmail (mid message mimebuf : Bytes) : Session Sendmail :=
  Program.perform (Op.sendmail mid message mimebuf)
def callRecordMid (mid : Bytes) : Session Int := Program.perform (Op.recordMid mid)
def strayBytes : Session (UInt8 × UInt8) := Program.perform Op.strayBytes
def halt {α : Type} (reason : Halt) : Session α := .call (.halt reason) Empty.elim
def exit {α : Type} (message : String) : Session α := halt (.exit message)

end Operations

section Rules

variable {env : Env} {α : Type} {returned : α → World → Prop} {halted : World → Prop}
  {world : World}

open Program

theorem ends_getline {next : Option Bytes → Session α}
    (got : ∀ text rest, wl2kgetline world.input = some (text, rest) →
      Ends (handle env) (next (some text)) returned halted
        ({ world with input := rest }.log (.line (taken world.input rest) text)))
    (ended : world.closed = true →
      Ends (handle env) (next none) returned halted { world with input := [] })
    (blocked : halted (world.stop .blocked)) :
    Ends (handle env) (getline >>= next) returned halted world := by
  change Ends (handle env) (call Op.getline next) returned halted world
  simp only [ends_call, handle]
  rcases read : wl2kgetline world.input with _ | ⟨text, rest⟩
  · cases closed : world.closed with
    | false => simpa using blocked
    | true => simpa [closed] using ended closed
  · exact got text rest read

theorem ends_receiveCompressed {next : Option Bytes → Session α}
    (got : ∀ result rest, getcompressed world.input = some (result, rest) →
      Ends (handle env) (next result) returned halted
        ({ world with input := rest }.log (.frame (taken world.input rest) result)))
    (stopped : ∀ reason, halted (world.stop reason)) :
    Ends (handle env) (receiveCompressed >>= next) returned halted world := by
  change Ends (handle env) (call Op.getcompressed next) returned halted world
  simp only [ends_call, handle]
  rcases read : getcompressed world.input with _ | ⟨result, rest⟩
  · cases closed : world.closed with
    | false => simpa using stopped _
    | true => simpa using stopped _
  · exact got result rest read

@[simp] theorem ends_write {what : Output} {bytes : Bytes} {next : Unit → Session α} :
    Ends (handle env) (write what bytes >>= next) returned halted world ↔
      Ends (handle env) (next ()) returned halted (world.log (.wrote what bytes)) := Iff.rfl

@[simp] theorem ends_unlink {path : Bytes} {next : Unit → Session α} :
    Ends (handle env) (unlink path >>= next) returned halted world ↔
      Ends (handle env) (next ()) returned halted (world.log (.unlinked path)) := Iff.rfl

@[simp] theorem ends_answer {mid : Bytes} {char : UInt8} {next : Unit → Session α} :
    Ends (handle env) (answer mid char >>= next) returned halted world ↔
      Ends (handle env) (next ()) returned halted (world.log (.answered mid char)) := Iff.rfl

theorem ends_sendmail {mid message mimebuf : Bytes} {next : Sendmail → Session α}
    (refused : env.sendmail world.calls = .popenFailed →
      Ends (handle env) (next .popenFailed) returned halted world.tick)
    (handed : env.sendmail world.calls ≠ .popenFailed →
      Ends (handle env) (next (env.sendmail world.calls)) returned halted
        (world.tick.log (.delivered mid message mimebuf))) :
    Ends (handle env) (sendmail mid message mimebuf >>= next) returned halted world := by
  change Ends (handle env) (call (Op.sendmail mid message mimebuf) next) returned halted world
  simp only [ends_call, handle]
  cases ending : env.sendmail world.calls with
  | popenFailed => exact refused ending
  | _ =>
      rw [ending] at handed
      exact handed (by simp)

@[simp] theorem ends_callRecordMid {mid : Bytes} {next : Int → Session α} :
    Ends (handle env) (callRecordMid mid >>= next) returned halted world ↔
      let (result, db) :=
        recordMid (env.dbCalls world.calls) (env.clock world.calls) mid world.db
      Ends (handle env) (next result) returned halted
        ({ world.tick with db := db }.log (.recorded mid result)) := Iff.rfl

@[simp] theorem ends_strayBytes {next : UInt8 × UInt8 → Session α} :
    Ends (handle env) (strayBytes >>= next) returned halted world ↔
      Ends (handle env) (next (env.stray world.calls)) returned halted world.tick := Iff.rfl

@[simp] theorem ends_halt {reason : Halt} :
    Ends (handle env) (halt reason : Session α) returned halted world ↔
      halted (world.stop reason) := Iff.rfl

@[simp] theorem ends_exit {message : String} :
    Ends (handle env) (exit message : Session α) returned halted world ↔
      halted (world.stop (.exit message)) := Iff.rfl

@[simp] theorem halt_bind {β : Type} (reason : Halt) (next : α → Session β) :
    (halt reason >>= next) = halt reason := by
  change call (Op.halt reason) (fun halted => (halted.elim : Session α) >>= next) =
    call (Op.halt reason) Empty.elim
  congr
  funext impossible
  exact impossible.elim

@[simp] theorem exit_bind {β : Type} (message : String) (next : α → Session β) :
    (exit message >>= next) = exit message := halt_bind _ next

end Rules

theorem handle_trace (env : Env) (op : Op) (world : World) :
    world.trace <+: (handle env op world).2.trace := by
  cases op with
  | getline =>
      simp only [handle]
      split
      · exact List.prefix_append _ _
      · split <;> exact List.prefix_refl _
  | getcompressed =>
      simp only [handle]
      split
      · exact List.prefix_append _ _
      · split <;> exact List.prefix_refl _
  | checkMid mid =>
      simp only [handle]
      rcases checkMid (env.dbCalls world.calls) (env.clock world.calls) mid world.db with
        ⟨_ | result, db⟩ <;> exact List.prefix_append _ _
  | sendmail mid message mimebuf =>
      simp only [handle]
      split
      · exact List.prefix_refl _
      · exact List.prefix_append _ _
  | write _ _ => exact List.prefix_append _ _
  | unlink _ => exact List.prefix_append _ _
  | answer _ _ => exact List.prefix_append _ _
  | recordMid _ => exact List.prefix_append _ _
  | strayBytes => exact List.prefix_refl _
  | halt _ => exact List.prefix_refl _

theorem taken_append {input rest : Bytes} (more : Bytes) :
    taken (input ++ more) (rest ++ more) = taken input rest := by
  simp only [taken, List.length_append, Nat.add_sub_add_right]
  exact List.take_append_of_le_length (by omega)

theorem taken_prefix {input rest : Bytes} (left : rest <:+ input) :
    taken input rest ++ rest = input := by
  obtain ⟨raw, rfl⟩ := left
  simp [taken]

theorem handle_closed (env : Env) (op : Op) (world : World) :
    (handle env op world).2.closed = world.closed := by
  cases op with
  | getline =>
      simp only [handle]
      split
      · rfl
      · split <;> rfl
  | getcompressed =>
      simp only [handle]
      split
      · rfl
      · split <;> rfl
  | checkMid mid =>
      simp only [handle]
      rcases checkMid (env.dbCalls world.calls) (env.clock world.calls) mid world.db with
        ⟨_ | result, db⟩ <;> rfl
  | sendmail mid message mimebuf =>
      simp only [handle]
      split <;> rfl
  | _ => rfl

theorem World.feed_closed {world : World} (closed : world.closed = true) (more : Bytes) :
    world.feed more = world := by
  simp [World.feed, closed]

theorem World.feed_open {world : World} (opened : world.closed = false) (more : Bytes) :
    world.feed more = { world with input := world.input ++ more } := by
  simp [World.feed, opened]

theorem handle_feed_open {env : Env} {op : Op} {world after : World} {result : op.Answer}
    (opened : world.closed = false) (more : Bytes)
    (answered : handle env op world = (some result, after)) :
    handle env op { world with input := world.input ++ more } =
      (some result, { after with input := after.input ++ more }) := by
  cases op with
  | getline =>
      simp only [handle] at answered ⊢
      rcases read : wl2kgetline world.input with _ | ⟨text, rest⟩
      · simp [read, opened] at answered
      · rw [read] at answered
        obtain ⟨rfl, rfl⟩ := by simpa using answered
        simp [wl2kgetline_append read, taken_append, World.log]
  | getcompressed =>
      simp only [handle] at answered ⊢
      rcases read : getcompressed world.input with _ | ⟨buffer, rest⟩
      · simp [read, opened] at answered
      · rw [read] at answered
        obtain ⟨rfl, rfl⟩ := by simpa using answered
        simp [getcompressed_append read, taken_append, World.log]
  | checkMid mid =>
      simp only [handle] at answered ⊢
      rcases checked : checkMid (env.dbCalls world.calls) (env.clock world.calls) mid world.db
        with ⟨_ | found, db⟩
      · simp [checked] at answered
      · simp only [checked, Prod.mk.injEq, Option.some.injEq] at answered
        obtain ⟨rfl, rfl⟩ := answered
        simp [World.log, World.tick]
  | sendmail mid message mimebuf =>
      simp only [handle] at answered ⊢
      rcases sent : env.sendmail world.calls <;>
        (simp only [sent, Prod.mk.injEq, Option.some.injEq] at answered
         obtain ⟨rfl, rfl⟩ := answered
         simp [World.log, World.tick])
  | halt reason => simp [handle] at answered
  | recordMid mid =>
      simp only [handle, Prod.mk.injEq, Option.some.injEq] at answered
      obtain ⟨rfl, rfl⟩ := answered
      simp [handle, World.log, World.tick]
  | _ =>
      cases answered
      rfl

/-- Later bytes of the peer never change what was done on the earlier ones. -/
theorem handle_stable (env : Env) :
    Program.Stable (handle env) World.feed World.trace := by
  constructor
  · exact handle_trace env
  · exact fun more world => World.trace_feed more world
  · intro op world result after more answered
    have sameEnd : after.closed = world.closed := by
      rw [← handle_closed env op world, answered]
    cases closed : world.closed with
    | true =>
        rw [World.feed_closed closed, World.feed_closed (sameEnd.trans closed)]
        exact answered
    | false =>
        rw [World.feed_open closed, World.feed_open (sameEnd.trans closed)]
        exact handle_feed_open closed more answered
  · intro op world after more stopped
    have unread : world.trace = after.trace →
        after.trace <+: (handle env op (world.feed more)).2.trace := by
      intro same
      rw [← same, ← World.trace_feed more world]
      exact handle_trace env op _
    cases op with
    | getline =>
        apply unread
        simp only [handle] at stopped
        rcases read : wl2kgetline world.input with _ | ⟨text, rest⟩
        · cases closed : world.closed <;> simp only [read, closed] at stopped <;> cases stopped
          rfl
        · simp [read] at stopped
    | getcompressed =>
        apply unread
        simp only [handle] at stopped
        rcases read : getcompressed world.input with _ | ⟨buffer, rest⟩
        · cases closed : world.closed <;> simp only [read, closed] at stopped <;> cases stopped <;>
            rfl
        · simp [read] at stopped
    | checkMid mid =>
        have unfed : (handle env (.checkMid mid) (world.feed more)).2.trace =
            (handle env (.checkMid mid) world).2.trace := by
          cases closed : world.closed with
          | true => rw [World.feed_closed closed]
          | false =>
              rw [World.feed_open closed]
              simp only [handle]
              rcases checkMid (env.dbCalls world.calls) (env.clock world.calls) mid world.db
                with ⟨_ | found, db⟩ <;> rfl
        rw [unfed, stopped]
    | halt reason =>
        apply unread
        cases stopped
        rfl
    | sendmail mid message mimebuf =>
        simp only [handle] at stopped
        split at stopped <;> cases stopped
    | _ => cases stopped

end PaclinkUnix
