import PaclinkUnix.Inbound

/-!
Whole sessions: the handshakes and `wl2k_exchange`, `wl2kd_exchange`, from the
prepared list of outbound proposals on.
-/

namespace PaclinkUnix

open Effects

def strrchr (char : UInt8) (text : Bytes) : Option Bytes :=
  match strchr char text.reverse with
  | none => none
  | some found => some (text.drop (found.length - 1))

def strstr (text wanted : Bytes) : Bool := text.tails.any (wanted.isPrefixOf ·)

def sendMySid (config : Config) : Session Unit :=
  write .command (ascii "[UnixLINK-" ++ config.packageVersion ++ ascii "-B2FIHM$]\r")

def parseInboundsid (line : Bytes) : Session Bytes :=
  match strrchr 45 line with
  | none => exit "bad sid"
  | some codes =>
    match strrchr 93 codes with
    | none => exit "bad sid"
    | some close =>
      let codes := strupper (codes.take (codes.length - close.length))
      if strstr codes (ascii "B2F") then pure codes
      else exit "sid does not support B2F protocol"

def sendSecureLoginResponse (config : Config) (challenge : Bytes) : Session Bool :=
  match config.password with
  | some password =>
      if 0 < challenge.length then do
        sendMySid config
        write .command
          (ascii ";PR: " ++ config.secureLoginResponse challenge password ++ ascii "\r")
        pure true
      else pure false
  | none => pure false

/-- `line[strlen(line) - 1] == '>'`, which looks before an empty line. -/
def endsInPrompt (line : Bytes) : Session Bool :=
  match line.getLast? with
  | some char => pure (char = 62)
  | none => do
      let stray ← strayBytes
      pure (stray.1 = 62)

/-- Identify, if the peer's codes have an `I`. -/
def identify (codes text : Bytes) : Session Unit :=
  if (strchr 73 codes).isSome then write .command (text ++ ascii "\r") else pure ()

def handshake (config : Config) : Nat → Option Bytes → Bytes → Session Bytes
  | 0, _, _ => halt .outOfFuel
  | fuel + 1, codes, challenge => do
      match ← getline with
      | none => exit "Lost connection. 1"
      | some line =>
        if (strchr 91 line).isSome then do
          let codes ← parseInboundsid line
          handshake config fuel (some codes) challenge
        else if strbegins line (ascii ";") then
          if strbegins line (ascii ";PQ: ") ∧ (line.drop 5).length = 8 then
            handshake config fuel codes (line.drop 5)
          else handshake config fuel codes challenge
        else do
          let prompt ← endsInPrompt line
          if prompt then
            match codes with
            | none => exit "inboundsidcodes not set"
            | some codes => do
              let sentPr ← sendSecureLoginResponse config challenge
              identify codes (ascii "; " ++ (ascii ">; " ++ config.targetcall ++ ascii " DE " ++
                config.mycall ++ ascii " (" ++ config.gridsquare ++ ascii ")").take 62)
              if sentPr then pure line
              else do
                sendMySid config
                pure line
          else handshake config fuel codes challenge

def handshakeNoSecureLogin (config : Config) (opropcount : Nat) :
    Nat → Option Bytes → Session Bytes
  | 0, _ => halt .outOfFuel
  | fuel + 1, codes => do
      match ← getline with
      | none => exit "Lost connection. 1"
      | some line => do
        let line ← skipLines (ascii ";FW:") fuel line
        if (strchr 91 line).isSome then do
          let _codes ← parseInboundsid line
          pure line
        else if strbegins line (ascii ";") then
          if strstr line ((config.mycall ++ ascii " DE " ++ config.targetcall ++ ascii " ").take 62)
          then handshakeNoSecureLogin config opropcount fuel codes
          else pure line
        else do
          let prompt ← endsInPrompt line
          if prompt then
            match codes with
            | none => exit "inboundsidcodes not set"
            | some codes => do
              identify codes (ascii "; " ++ config.targetcall ++ ascii " DE " ++ config.mycall ++
                ascii " QTC " ++ decimal opropcount)
              sendMySid config
              pure line
          else handshakeNoSecureLogin config opropcount fuel codes

def p2pStartmsg (config : Config) (props : List Proposal) : Session Unit := do
  if props.length ≠ 0 then
    write .command (config.targetcall ++ ascii " de " ++ config.mycall ++ ascii " QTC " ++
      decimal props.length ++ ascii " msg " ++ decimal ((props.map Proposal.usize).sum + 18) ++
      ascii " char>\r")
  else do
    write .command (ascii "No Traffic\r")
    write .command (config.targetcall ++ ascii " de " ++ config.mycall ++ ascii ">\r")

/-- How a call of `select` can end, and behind a timeout what `isax25connected` finds. -/
inductive Selected where
  | failed (badDescriptor : Bool)
  | readable
  | timedOut (connected : Bool)
  deriving DecidableEq, Repr

/-- The answer after these calls of `select`, or none if it waits on. -/
def wl2kWaitForResponse : List Selected → Option Bool
  | [] => none
  | .failed badDescriptor :: later =>
      if badDescriptor then some false else wl2kWaitForResponse later
  | .readable :: _ => some true
  | .timedOut connected :: later => if connected then wl2kWaitForResponse later else some false

def clientSession (selects : List Selected) (config : Config) (fuel : Nat) (line : Bytes)
    (oproplist : List Proposal) : Session (List Proposal × Nat) := do
  let (ret, props, cursor) ← b2outboundproposal fuel line oproplist 0
  if ret ≠ 0 then pure (props, cursor)
  else
    match wl2kWaitForResponse selects with
    | none => halt .blocked
    | some false => pure (props, cursor)
    | some true => do
        let (_, parser) ← inboundParser config fuel
          { props := props, cursor := cursor, proposals := [], proposalcksum := 0 }
        pure (parser.props, parser.cursor)

def wl2kExchange (selects : List Selected) (config : Config) (fuel : Nat)
    (oproplist : List Proposal) : Session (List Proposal × Nat) := do
  let line ← handshake config fuel none []
  clientSession selects config fuel line oproplist

/-- The part of `wl2kd_exchange` behind the handshake. `inbound_parser` has its own copy
of the cursor, so what follows it starts at the head of the list. -/
def daemonSession (config : Config) (fuel : Nat) (line : Bytes) (oproplist : List Proposal) :
    Session (List Proposal × Nat) := do
  let (inboundRet, parser) ← inboundParser config fuel
    { props := oproplist, cursor := 0, proposals := [], proposalcksum := 0 }
  if inboundRet = 0 then do
    let (_, props, cursor) ← b2outboundproposal fuel line parser.props 0
    pure (props, cursor)
  else pure (parser.props, parser.cursor)

def wl2kdExchange (config : Config) (fuel : Nat) (oproplist : List Proposal) :
    Session (List Proposal × Nat) := do
  p2pStartmsg config oproplist
  let line ← handshakeNoSecureLogin config oproplist.length fuel none
  daemonSession config fuel line oproplist

end PaclinkUnix
