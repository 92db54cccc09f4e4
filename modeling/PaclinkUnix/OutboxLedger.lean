import PaclinkUnix.Exchange
import PaclinkUnix.CommandLoop

/-!
What an outbox owes its messages: a ledger of the session, kept from the trace
alone, of what was offered, how the peer answered, how much of each body was written
and which outcomes a later command line has confirmed.
-/

namespace PaclinkUnix

open Effects Effects.Program

inductive Verdict where
  | accept
  | reject
  | later
  deriving DecidableEq, Repr

def hasOffset (char : UInt8) : Bool := char = 65 || char = 97 || char = 33

def verdictOf (char : UInt8) : Option Verdict :=
  if char = 89 || char = 121 || char = 72 || char = 104 || char = 43 || hasOffset char then
    some .accept
  else if char = 78 || char = 110 || char = 82 || char = 114 || char = 45 then some .reject
  else if char = 76 || char = 108 || char = 61 then some .later
  else none

/-- The digits of an offset belong to its answer. -/
def afterAnswer (char : UInt8) (more : Bytes) : Bytes :=
  if hasOffset char then more.dropWhile (fun digit => 48 ≤ digit && digit ≤ 57) else more

/-- How an `FS` line answers a number of proposals; `none` for those it does not answer. -/
def verdicts : Nat → Bytes → List (Option Verdict)
  | 0, _ => []
  | count + 1, [] => none :: verdicts count []
  | count + 1, char :: more => verdictOf char :: verdicts count (afterAnswer char more)

inductive Phase where
  | offering
  | awaiting
  | answered
  deriving DecidableEq, Repr

structure Ledger where
  phase : Phase
  offered : Nat
  batch : List Bytes
  verdict : Bytes → Option Verdict
  body : Bytes → Bytes
  acknowledged : Bytes → Bool

namespace Ledger

def start : Ledger where
  phase := .offering
  offered := 0
  batch := []
  verdict := fun _ => none
  body := fun _ => []
  acknowledged := fun _ => false

def bodyOf (props : List Proposal) (mid : Bytes) : Bytes :=
  match props.find? (fun prop => prop.mid = mid) with
  | some prop => frame prop
  | none => []

def settled (props : List Proposal) (ledger : Ledger) (mid : Bytes) : Bool :=
  ledger.verdict mid = some .reject ||
    (ledger.verdict mid = some .accept && ledger.body mid = bodyOf props mid)

def offer (ledger : Ledger) (mid : Bytes) : Ledger :=
  { ledger with
    phase := .offering
    offered := ledger.offered + 1
    batch := if ledger.phase = .offering then ledger.batch ++ [mid] else [mid] }

def answerText (text : Bytes) : Bytes := skipSpace (text.drop 3)

def judge (ledger : Ledger) (text : Bytes) : Ledger :=
  { ledger with
    phase := .answered
    verdict := fun mid =>
      match (ledger.batch.zip (verdicts ledger.batch.length (answerText text))).lookup mid with
      | some verdict => verdict
      | none => ledger.verdict mid }

/-- A command line of the peer confirms what was settled before it. -/
def confirm (props : List Proposal) (ledger : Ledger) (text : Bytes) : Ledger :=
  if strbegins text (ascii ";") || text.isEmpty then ledger
  else
    { ledger with
      acknowledged := fun mid => ledger.acknowledged mid || ledger.settled props mid }

def step (props : List Proposal) (ledger : Ledger) : Event → Ledger
  | .wrote (.proposal mid) _ => ledger.offer mid
  | .wrote .batchEnd _ => { ledger with phase := .awaiting }
  | .wrote (.body mid) bytes =>
      { ledger with body := Function.update ledger.body mid (ledger.body mid ++ bytes) }
  | .line _ text =>
      if ledger.phase = .awaiting then
        if strbegins text (ascii "FS ") then ledger.judge text else ledger
      else ledger.confirm props text
  | _ => ledger

/-- Every message of the last batch that was accepted has been written to its end. -/
def Complete (props : List Proposal) (ledger : Ledger) : Prop :=
  ∀ mid ∈ ledger.batch, ledger.verdict mid = some .accept → ledger.body mid = bodyOf props mid

end Ledger

/-- A body is written only for an accepted message, a file unlinked only when its
outcome is settled and confirmed, and anything else happens only when every accepted
message of the batch is complete. -/
def outboxSafety (props : List Proposal) : Monitor Ledger Event where
  start := .start
  step := Ledger.step props
  allowed := fun ledger event =>
    match event with
    | .wrote (.body mid) _ => ledger.verdict mid = some .accept
    | .unlinked path => ledger.acknowledged path = true
    | _ => ledger.Complete props

/-- An answer that means nothing, before any answer with an offset. -/
def refused : Nat → Bytes → Bool
  | 0, _ => false
  | _ + 1, [] => false
  | count + 1, char :: more =>
      match verdictOf char with
      | none => true
      | some _ => if hasOffset char then false else refused count more

/-- Every one of so many proposals is accepted or rejected, and after an answer with an
offset all the others are accepted. -/
def settles : Nat → Bytes → Bool
  | 0, _ => true
  | _ + 1, [] => false
  | count + 1, char :: more =>
      if hasOffset char then
        (verdicts count (afterAnswer char more)).all (· = some .accept)
      else if verdictOf char = some .accept ∨ verdictOf char = some .reject then
        settles count more
      else false

/-- Every `FS` line settles its whole batch, or has an answer the program refuses. -/
def settlingAnswers (props : List Proposal) : Monitor Ledger Event where
  start := .start
  step := Ledger.step props
  allowed := fun ledger event =>
    match event with
    | .line _ text =>
        ledger.phase = .awaiting → strbegins text (ascii "FS ") = true →
          refused (props.length - (ledger.offered - ledger.batch.length))
              (Ledger.answerText text) = true ∨
            settles ledger.batch.length (Ledger.answerText text) = true
    | _ => True

/-- What `prepare_outbound_proposals` makes of the files of an outbox. -/
structure Prepared (props : List Proposal) : Prop where
  distinct : (props.map Proposal.mid).Nodup
  clear : ∀ prop ∈ props, prop.delete = false ∧ prop.offset = 0 ∧ prop.path = some prop.mid ∧
    prop.csize = prop.cbuf.length

/-- The exits of `b2outboundproposal` behind the `FS` line. -/
def gaveUp : Option Halt → Bool
  | some (.exit message) =>
      message = "B2 protocol error 3" || message = "invalid compressed data"
  | _ => false

end PaclinkUnix
