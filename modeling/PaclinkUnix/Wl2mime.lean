import PaclinkUnix.Buffer

/-!
From the message format of the mail system to MIME, `wl2mime.c`: the calls it makes to
build the GMime message, in their order.
-/

namespace PaclinkUnix

open Buffer

inductive AddressKind where
  | sender
  | to
  | cc
  | bcc
  | replyTo
  deriving DecidableEq, Repr

inductive MimeCall where
  | messageId (value : Bytes)
  | date (value : Bytes)
  | mailbox (kind : AddressKind) (address : Bytes)
  | subject (value : Bytes)
  | text (content : Bytes)
  | file (name content : Bytes)
  deriving DecidableEq, Repr

/-- An address without the internet mark belongs to the mail system itself. -/
def addressCall (kind : AddressKind) (linedata : Bytes) : MimeCall :=
  if strcasebegins linedata (ascii "SMTP:") then .mailbox kind (linedata.drop 5)
  else .mailbox kind (linedata ++ ascii "@winlink.org")

/-- `while (len--)`; EOF is written as the byte 255. -/
def readContent : Nat → Buffer → Bytes × Buffer
  | 0, bbuf => ([], bbuf)
  | len + 1, bbuf =>
      let (c, bbuf) := bbuf.iterchar
      let (rest, bbuf) := readContent len bbuf
      (c.getD 255 :: rest, bbuf)

def lineData (line : Bytes) : Bytes :=
  match strchr 58 line with
  | some (_ :: linedata) => skipSpace linedata
  | _ => []

/-- The calls for one line of the header. A date stands here as the line has it; `set_date` is called
with it when `strptime` can read it, and otherwise not at all. -/
def headerCalls (line : Bytes) (bbuf : Buffer) : List MimeCall × Buffer :=
  let line := strzapcc line
  let linedata := lineData line
  if strcasebegins line (ascii "Mid:") then ([.messageId linedata], bbuf)
  else if strcasebegins line (ascii "Date:") then ([.date linedata], bbuf)
  else if strcasebegins line (ascii "From:") then ([addressCall .sender linedata], bbuf)
  else if strcasebegins line (ascii "To:") then ([addressCall .to linedata], bbuf)
  else if strcasebegins line (ascii "Cc:") then ([addressCall .cc linedata], bbuf)
  else if strcasebegins line (ascii "Bcc:") then ([addressCall .bcc linedata], bbuf)
  else if strcasebegins line (ascii "Reply-To:") then ([.mailbox .replyTo linedata], bbuf)
  else if strcasebegins line (ascii "Subject:") then ([.subject linedata], bbuf)
  else if strcasebegins line (ascii "Body:") then
    let (len, _) := strtoul linedata 10
    let (content, bbuf) := readContent len bbuf
    ([.text content], bbuf)
  else if strcasebegins line (ascii "File:") then
    let (len, endp) := strtoul linedata 10
    let (_, bbuf) := bbuf.iterchar
    let (_, bbuf) := bbuf.iterchar
    let (content, bbuf) := readContent len bbuf
    ([.file (skipSpace endp) content], bbuf)
  else ([], bbuf)

/-- The lines up to the first blank one, or up to the end. -/
def headerBlock : Nat → Buffer → Bytes → Option (Bytes × Buffer)
  | 0, _, _ => none
  | fuel + 1, ibuf, hbuf => do
      match ← ibuf.getline lineFeed fuel with
      | (none, ibuf) => some (hbuf, ibuf)
      | (some line, ibuf) =>
          if line.head? = some carriageReturn ∨ line.head? = some lineFeed then
            some (hbuf, ibuf)
          else headerBlock fuel ibuf (hbuf ++ line)

def parseHeader : Nat → Buffer → Buffer → Option (List MimeCall)
  | 0, _, _ => none
  | fuel + 1, hbuf, bbuf => do
      match ← hbuf.getline lineFeed fuel with
      | (none, _) => some []
      | (some line, hbuf) =>
          let (calls, bbuf) := headerCalls line bbuf
          let rest ← parseHeader fuel hbuf bbuf
          some (calls ++ rest)

def wl2mime (fuel : Nat) (ibuf : Buffer) : Option (List MimeCall) := do
  let (hbuf, ibuf) ← headerBlock fuel ibuf []
  let bbuf ← drain fuel ibuf
  parseHeader fuel ⟨hbuf, 0⟩ ⟨bbuf, 0⟩

end PaclinkUnix
