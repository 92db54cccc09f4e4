import PaclinkUnix.Outbound

/-!
The receiving side: the command loop `inbound_parser`.
-/

namespace PaclinkUnix

open Effects

/-- The parser's variables: the outbox list and its cursor, and the batch of
proposals received so far with the checksum of its lines. -/
structure Parser where
  props : List Proposal
  cursor : Nat
  proposals : List Incoming
  proposalcksum : UInt32
  deriving DecidableEq, Repr

def answerOne (prop : Incoming) : Session (UInt8 × Bool) :=
  if prop.code = 67 then do
    let result ← callCheckMid prop.mid
    if result ≠ 0 then pure (78, false) else pure (89, true)
  else pure (76, false)

/-- The answer characters, one for each received proposal, with the accepted flag. -/
def answerProposals : List Incoming → Session (List (Incoming × UInt8 × Bool))
  | [] => pure []
  | prop :: rest => do
      let (responsechar, accepted) ← answerOne prop
      answer prop.mid responsechar
      let rest ← answerProposals rest
      pure ((prop, responsechar, accepted) :: rest)

def deliver (config : Config) (prop : Incoming) : Session Unit := do
  match ← receiveCompressed with
  | none => exit "error receiving compressed data"
  | some cbuf =>
    match config.decode cbuf with
    | none => exit "version_1_Decode()"
    | some ubuf =>
      match config.wl2mime ubuf with
      | none => exit "wm2mime() failed"
      | some mimebuf => do
        match ← sendmail prop.mid ubuf mimebuf with
        | .popenFailed => exit "popen()"
        | .putcFailed => exit "putc()"
        | .pcloseFailed noChild =>
            if noChild then do
              let _ ← callRecordMid prop.mid
              pure ()
            else exit "pclose exiting on error"
        | .status code =>
            if code = 0 then do
              let _ ← callRecordMid prop.mid
              pure ()
            else exit "sendmail failed"

def deliverAll (config : Config) : List (Incoming × UInt8 × Bool) → Session Unit
  | [] => pure ()
  | (prop, _, accepted) :: rest => do
      if accepted = true then do
        deliver config prop
        deliverAll config rest
      else deliverAll config rest

/-- The part of the `F>` branch under `if (proposals != 0)`. -/
def receiveBatch (config : Config) (proposals : List Incoming) : Session Unit :=
  if proposals.length = 0 then pure ()
  else do
    let answers ← answerProposals proposals
    write .answers (ascii "FS " ++ answers.map (fun entry => entry.2.1) ++ ascii "\r")
    deliverAll config answers

/-- `line[strlen(line - 1)] == '>'`, which counts from the byte before the line: that
byte is the end of the string if it is 0, and else the test sees the byte behind the
line's end. -/
def promptTest (line : Bytes) (before after : UInt8) : Bool :=
  if before = 0 then line.head? = some 62 else after = 62

inductive Round where
  | again (parser : Parser)
  | returns (value : Int) (parser : Parser)

def outboundTurn (fuel : Nat) (line : Bytes) (parser : Parser) : Session Round := do
  let (b2outret, props, cursor) ← b2outboundproposal fuel line parser.props parser.cursor
  let parser := { parser with props := props, cursor := cursor }
  pure (if b2outret ≠ 0 then .returns b2outret parser else .again parser)

def deleteTurn (parser : Parser) : Session Parser := do
  let props ← dodelete parser.props parser.cursor
  pure { parser with props := props }

def inboundCommand (config : Config) (fuel : Nat) (parser : Parser) (line : Bytes) :
    Session Round :=
  if strbegins line (ascii ";") then pure (.again parser)
  else if line.length = 0 then pure (.again parser)
  else if strbegins line (ascii "FC") then do
    let parser ← deleteTurn parser
    if parser.proposals.length = propLimit then exit "too many proposals"
    else
      match parseProposal line with
      | none => exit "wl2kexchange() failed to parse proposal"
      | some prop =>
        pure (.again
          { parser with
            proposals := parser.proposals ++ [prop]
            proposalcksum := addBytes parser.proposalcksum (line ++ [carriageReturn]) })
  else if strbegins line (ascii "FF") then do
    let parser ← deleteTurn parser
    outboundTurn fuel line parser
  else if strbegins line (ascii "B") then pure (.returns (-1) parser)
  else if strbegins line (ascii "FQ") then do
    let parser ← deleteTurn parser
    pure (.returns (-1) parser)
  else if strbegins line (ascii "F>") then
    if config.sendMsgOnly then do
      write .command (ascii "FF\r")
      pure (.again parser)
    else if (strtoul (line.drop 2) 16).1 ≠ (cksumByte parser.proposalcksum).toNat then
      exit "proposal cksum mismatch"
    else do
      receiveBatch config parser.proposals
      outboundTurn fuel line { parser with proposals := [], proposalcksum := 0 }
  else do
    let stray ← strayBytes
    if promptTest line stray.1 stray.2 then do
      let parser ← deleteTurn parser
      outboundTurn fuel line parser
    else exit "unrecognized command"

/-- Returns what `inbound_parser` returns, and its variables. -/
def inboundParser (config : Config) : Nat → Parser → Session (Int × Parser)
  | 0, _ => halt .outOfFuel
  | fuel + 1, parser => do
      match ← getline with
      | none => exit "Lost connection. 4"
      | some line => do
        match ← inboundCommand config fuel parser line with
        | .again parser => inboundParser config fuel parser
        | .returns value parser => pure (value, parser)

end PaclinkUnix
