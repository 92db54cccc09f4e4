import PaclinkUnix.Buffer

/-!
From a MIME message to the message format of the mail system, `mime2wl.c`. What GMime
makes of the MIME text is an argument: header values, rendered addresses, leaf parts.
-/

namespace PaclinkUnix

open Buffer

/-- What `g_mime_content_type_is_type` tells of a part. -/
inductive ContentType where
  | textPlain
  | textHtml
  | otherText
  | other
  deriving DecidableEq, Repr

structure Part where
  filename : Option Bytes
  contentType : ContentType
  content : Bytes
  deriving DecidableEq, Repr

/-- A string that GMime does not have is `none`, a NULL pointer. -/
structure Message where
  date : Bytes
  sender : Option Bytes
  toList : List Bytes
  ccList : List Bytes
  bccList : List Bytes
  subject : Option Bytes
  replyTo : Option Bytes
  parts : List Part
  deriving DecidableEq, Repr

structure Wl2kMessage where
  hbuf : Buffer
  fbuf : Buffer
  bbuf : Buffer
  abuf : Buffer
  deriving DecidableEq, Repr

/-- The allocated size, a power of 2 above the length, never cuts the copies. -/
def mboHeader (mhFrom : Bytes) : Bytes :=
  match strchr 64 mhFrom with
  | some (_ :: char :: domain) =>
      if strcasebegins (char :: domain) (ascii "winlink") then mhFrom.takeWhile (· ≠ 64)
      else ascii "SMTP:" ++ mhFrom
  | _ => mhFrom.takeWhile (· ≠ 64)

def addressCleanup (addr : Bytes) : Bytes :=
  let p := skipSpace addr
  match strchr 60 p with
  | some (_ :: inside) =>
      if (strchr 62 inside).isSome then inside.takeWhile (· ≠ 62) else p.takeWhile (· ≠ 32)
  | _ => p.takeWhile (· ≠ 32)

def isTextBody (wl2k : Wl2kMessage) (part : Part) : Bool :=
  part.filename.isNone && wl2k.bbuf.data.length = 0 &&
    (part.contentType = .textPlain || part.contentType = .textHtml)

/-- The file name an attachment gets. -/
def attachmentName (part : Part) : Bytes :=
  match part.filename with
  | some name => name
  | none =>
      if part.contentType = .other then ascii "attachment.bin" else ascii "attachment.txt"

/-- The branch for a leaf part. -/
def mimeForeachCallback (wl2k : Wl2kMessage) (part : Part) : Wl2kMessage :=
  let slen := decimal part.content.length
  if isTextBody wl2k part then
    { wl2k with
      hbuf := wl2k.hbuf.addstring (ascii "Body: " ++ slen ++ crlf)
      bbuf := wl2k.bbuf.addstring (crlf ++ part.content) }
  else
    { wl2k with
      fbuf := wl2k.fbuf.addstring (ascii "File: " ++ slen ++ [32] ++ attachmentName part ++ crlf)
      abuf := wl2k.abuf.addstring (crlf ++ part.content) }

/-- A header line for an address, marked as an internet address if it has an `@`. -/
def addressLine (key clean : Bytes) : Bytes :=
  key ++ ascii ": " ++ (if (strchr 64 clean).isSome then ascii "SMTP:" else []) ++ clean ++ crlf

def recipientLines (key : Bytes) (rendered : List Bytes) : Bytes :=
  (rendered.map fun header => addressLine key (addressCleanup header)).flatten

def replyToLine : Option Bytes → Bytes
  | some header => ascii "Reply-To: " ++ header ++ crlf
  | none => []

def headerLines (mid : Bytes) (message : Message) (sender subject : Bytes) : Bytes :=
  let mheaderFrom := addressCleanup sender
  ascii "Mid: " ++ mid ++ crlf ++
    (ascii "Date: " ++ message.date ++ crlf) ++
    (ascii "Type: Private" ++ crlf) ++
    addressLine (ascii "From") mheaderFrom ++
    recipientLines (ascii "To") message.toList ++
    recipientLines (ascii "Cc") message.ccList ++
    recipientLines (ascii "Bcc") message.bccList ++
    (ascii "Subject: " ++ subject ++ crlf) ++
    replyToLine message.replyTo ++
    (ascii "Mbo: " ++ mboHeader mheaderFrom ++ crlf)

def nobody : Bytes := ascii "No message body\r\n"

def addNobody (wl2k : Wl2kMessage) : Wl2kMessage :=
  if wl2k.bbuf.data.length = 0 then
    { wl2k with
      hbuf := wl2k.hbuf.addstring (ascii "Body: " ++ decimal nobody.length ++ crlf)
      bbuf := wl2k.bbuf.addstring nobody }
  else wl2k

def wl2kBuffers (mid : Bytes) (message : Message) (sender subject : Bytes) : Wl2kMessage :=
  addNobody (message.parts.foldl mimeForeachCallback
    { hbuf := Buffer.new.addstring (headerLines mid message sender subject)
      fbuf := .new, bbuf := .new, abuf := .new })

/-- `mime2wl` behind `generate_mid`. A NULL sender or subject is read as a string, and
then there is no result. -/
def mime2wl (fuel : Nat) (mid : Bytes) (message : Message) : Option Buffer := do
  let sender ← message.sender
  let subject ← message.subject
  let wl2k := wl2kBuffers mid message sender subject
  let buf ← addbuf fuel .new wl2k.hbuf
  let buf ← addbuf fuel buf wl2k.fbuf
  let buf ← addbuf fuel buf wl2k.bbuf
  addbuf fuel buf wl2k.abuf

end PaclinkUnix
