import PaclinkUnix.Framing

/-!
The sending side: `b2outboundproposal` and `dodelete`. The linked list of
proposals is a list, a pointer into it a position, and NULL the position at the
end; the flags of a proposal change in place.
-/

namespace PaclinkUnix

open Effects

/-- A session program's settings and the third-party functions it calls. -/
structure Config where
  sendMsgOnly : Bool
  decode : Bytes → Option Bytes
  wl2mime : Bytes → Option Bytes
  mycall : Bytes
  targetcall : Bytes
  gridsquare : Bytes
  password : Option Bytes
  packageVersion : Bytes
  secureLoginResponse : Bytes → Bytes → Bytes

def sampleConfig : Config where
  sendMsgOnly := false
  decode := some
  wl2mime := some
  mycall := ascii "N0CALL"
  targetcall := ascii "W1AW"
  gridsquare := ascii "AA00"
  password := none
  packageVersion := ascii "1"
  secureLoginResponse := fun challenge _ => challenge

def sendProposals : Nat → List Proposal → UInt32 → Session UInt32
  | 0, _, cksum => pure cksum
  | _ + 1, [], _ => halt .fault
  | limit + 1, prop :: next, cksum => do
      let sp := proposalLine prop
      write (.proposal prop.mid) sp
      let cksum := addBytes cksum sp
      if next.isEmpty then pure cksum else sendProposals limit next cksum

/-- `while (strbegins(line, start))` read the next line instead. -/
def skipLines (start : Bytes) : Nat → Bytes → Session Bytes
  | 0, line => if strbegins line start then halt .outOfFuel else pure line
  | fuel + 1, line =>
      if strbegins line start then do
        match ← getline with
        | none => exit "connection closed"
        | some line => skipLines start fuel line
      else pure line

/-- The answer at `cp`: the updated proposal and where the next answer is read.
For an offset answer `strtoul` is given `cp` itself, the answer character included. -/
def readAnswer (prop : Proposal) (cp : Bytes) (char : UInt8) : Option (Proposal × Bytes) :=
  let prop := { prop with accepted := false, delete := false, offset := 0 }
  if char = 89 ∨ char = 121 ∨ char = 72 ∨ char = 104 ∨ char = 43 then
    some ({ prop with accepted := true }, cp.tail)
  else if char = 78 ∨ char = 110 ∨ char = 82 ∨ char = 114 ∨ char = 45 then
    some ({ prop with delete := true }, cp.tail)
  else if char = 76 ∨ char = 108 ∨ char = 61 then some (prop, cp.tail)
  else if char = 65 ∨ char = 97 ∨ char = 33 then
    let (offset, endp) := strtoul cp 10
    some ({ prop with accepted := true, offset := offset }, endp)
  else none

/-- `while (*cp && prop)`; the count `i` is set to 0 before it and never changes. -/
def readAnswers (i : Nat) : List Proposal → Bytes → Session (List Proposal)
  | [], _ => pure []
  | props, [] => pure props
  | prop :: next, char :: more =>
      if i = propLimit then exit "B2 protocol error 2"
      else
        match readAnswer prop (char :: more) char with
        | none => exit "B2 protocol error 3"
        | some (prop, cp) => do
            let next ← readAnswers i next cp
            pure (prop :: next)

def transmitOne (prop : Proposal) : Session Proposal :=
  if prop.delete = false then do
    putcompressed prop
    pure { prop with delete := true }
  else pure prop

/-- The transmit loop: the list with its new flags and how far the pointer moved. -/
def transmit : Nat → List Proposal → Session (List Proposal × Nat)
  | 0, props => pure (props, 0)
  | _ + 1, [] => halt .fault
  | limit + 1, prop :: next => do
      let prop ← transmitOne prop
      if next.isEmpty then pure ([prop], 1)
      else do
        let (next, moved) ← transmit limit next
        pure (prop :: next, moved + 1)

/-- Returns 0 or -1, the list, and the pointer to the first message not yet offered. -/
def b2outboundproposal (fuel : Nat) (lastcommand : Bytes) (props : List Proposal)
    (cursor : Nat) : Session (Int × List Proposal × Nat) :=
  let offered := props.drop cursor
  if offered.isEmpty = false then do
    let cksum ← sendProposals propLimit offered 0
    write .batchEnd (ascii "F> " ++ hexByte (cksumByte cksum).toNat ++ ascii "\r")
    match ← getline with
    | none => exit "connection closed"
    | some line => do
      let line ← skipLines (ascii ";PM:") fuel line
      let line ← skipLines (ascii ";FW:") fuel line
      if strbegins line (ascii "FS ") = false then exit "B2 protocol error 1"
      else do
        let offered ← readAnswers 0 offered (skipSpace (line.drop 3))
        let (offered, moved) ← transmit propLimit offered
        pure (0, props.take cursor ++ offered, cursor + moved)
  else if strbegins lastcommand (ascii "FF") then do
    write .command (ascii "FQ\r")
    pure (-1, props, cursor)
  else do
    write .command (ascii "FF\r")
    pure (0, props, cursor)

def deleteOne (prop : Proposal) : Session Proposal :=
  match prop.delete, prop.path with
  | true, some path => do
      unlink path
      pure { prop with delete := false }
  | _, _ => pure prop

/-- Walk from the head to the cursor. Running off the list is a NULL dereference. -/
def dodelete : List Proposal → Nat → Session (List Proposal)
  | props, 0 => pure props
  | [], _ + 1 => halt .fault
  | prop :: next, cursor + 1 => do
      let prop ← deleteOne prop
      let next ← dodelete next cursor
      pure (prop :: next)

end PaclinkUnix
