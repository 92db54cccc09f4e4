import PaclinkUnix.MessageFormat

/-!
The message `mime2wl` builds as lines: the header fields, the fields of the parts, and
behind them the body and the attachments; and the calls `wl2mime` makes for the fields.
-/

namespace PaclinkUnix

open Buffer

def isBody (part : Part) : Bool :=
  part.filename.isNone && (part.contentType = .textPlain || part.contentType = .textHtml)

def attachments (parts : List Part) : List Part := parts.eraseP isBody

def partFile (part : Part) : Bytes :=
  field (ascii "File") (decimal part.content.length ++ [32] ++ attachmentName part)

def bodyField (content : Bytes) : Bytes := field (ascii "Body") (decimal content.length)

/-- The attachments' bytes, each part behind a line end. -/
def partStream (parts : List Part) : Bytes :=
  (parts.map fun part => crlf ++ part.content).flatten

def marked (clean : Bytes) : Bytes :=
  (if (strchr 64 clean).isSome then ascii "SMTP:" else []) ++ clean

def recipientFields (key : Bytes) (rendered : List Bytes) : List (Bytes × Bytes) :=
  rendered.map fun header => (key, marked (addressCleanup header))

def messageFields (mid : Bytes) (message : Message) (sender subject : Bytes) :
    List (Bytes × Bytes) :=
  [(ascii "Mid", mid), (ascii "Date", message.date), (ascii "Type", ascii "Private"),
    (ascii "From", marked (addressCleanup sender))] ++
    recipientFields (ascii "To") message.toList ++ recipientFields (ascii "Cc") message.ccList ++
    recipientFields (ascii "Bcc") message.bccList ++ [(ascii "Subject", subject)] ++
    message.replyTo.toList.map (fun header => (ascii "Reply-To", header)) ++
    [(ascii "Mbo", mboHeader (addressCleanup sender))]

def fieldLines (fields : List (Bytes × Bytes)) : List Bytes :=
  fields.map fun (key, value) => field key value

theorem headerLines_fields (mid : Bytes) (message : Message) (sender subject : Bytes) :
    headerLines mid message sender subject =
      (fieldLines (messageFields mid message sender subject)).flatten := by
  have recipients : ∀ key (rendered : List Bytes), recipientLines key rendered =
      (fieldLines (recipientFields key rendered)).flatten := by
    intro key rendered
    simp [recipientLines, recipientFields, marked, fieldLines, addressLine, field,
      Function.comp_def]
  have reply : replyToLine message.replyTo =
      (fieldLines (message.replyTo.toList.map fun header => (ascii "Reply-To", header))).flatten := by
    cases message.replyTo with
    | none => rfl
    | some header => simp [replyToLine, fieldLines, field, ascii]
  rw [headerLines, recipients, recipients, recipients, reply]
  simp [messageFields, marked, fieldLines, addressLine, field, ascii]

theorem callback_attachments (parts : List Part) (wl2k : Wl2kMessage)
    (begun : wl2k.bbuf.data.length ≠ 0) :
    parts.foldl mimeForeachCallback wl2k =
      { wl2k with
        fbuf := wl2k.fbuf.addstring (parts.map partFile).flatten
        abuf := wl2k.abuf.addstring (partStream parts) } := by
  induction parts generalizing wl2k with
  | nil => simp [partStream, addstring]
  | cons part parts ih =>
      have attached : isTextBody wl2k part = false := by simp [isTextBody, begun]
      rw [List.foldl_cons, mimeForeachCallback, attached]
      simp only [Bool.false_eq_true, if_false]
      rw [ih]
      · simp [partFile, partStream, field, addstring, ascii]
      · exact begun

theorem callback_parts (parts : List Part) (wl2k : Wl2kMessage)
    (empty : wl2k.bbuf.data = []) :
    parts.foldl mimeForeachCallback wl2k =
      match parts.find? isBody with
      | some body =>
          { hbuf := wl2k.hbuf.addstring (bodyField body.content)
            bbuf := wl2k.bbuf.addstring (crlf ++ body.content)
            fbuf := wl2k.fbuf.addstring ((attachments parts).map partFile).flatten
            abuf := wl2k.abuf.addstring (partStream (attachments parts)) }
      | none =>
          { wl2k with
            fbuf := wl2k.fbuf.addstring ((attachments parts).map partFile).flatten
            abuf := wl2k.abuf.addstring (partStream (attachments parts)) } := by
  induction parts generalizing wl2k with
  | nil => simp [attachments, partStream, addstring]
  | cons part parts ih =>
      have same : isTextBody wl2k part = isBody part := by simp [isTextBody, isBody, empty]
      rw [List.foldl_cons, mimeForeachCallback, same]
      cases body : isBody part with
      | true =>
          simp only [if_true, List.find?_cons, body, attachments, List.eraseP_cons_of_pos]
          rw [callback_attachments _ _ (by simp [addstring, crlf])]
          simp [bodyField, field, ascii]
      | false =>
          simp only [Bool.false_eq_true, if_false, List.find?_cons, body, attachments,
            not_false_eq_true, List.eraseP_cons_of_neg]
          rw [ih]
          · cases parts.find? isBody <;>
              simp [attachments, partFile, partStream, field, addstring, ascii]
          · exact empty

/-- What GMime and the caller promise: strings, so that there is no NUL in them. -/
structure Delivered (mid : Bytes) (message : Message) : Prop where
  mid : ∀ char ∈ mid, char ≠ 0
  date : ∀ char ∈ message.date, char ≠ 0
  sender : ∀ sender ∈ message.sender, ∀ char ∈ sender, char ≠ 0
  recipients : ∀ header ∈ message.toList ++ message.ccList ++ message.bccList, ∀ char ∈ header, char ≠ 0
  subject : ∀ subject ∈ message.subject, ∀ char ∈ subject, char ≠ 0
  replyTo : ∀ header ∈ message.replyTo, ∀ char ∈ header, char ≠ 0
  filenames : ∀ part ∈ message.parts, ∀ name ∈ part.filename, ∀ char ∈ name, char ≠ 0

def messageBuffers (mid : Bytes) (message : Message) : Wl2kMessage :=
  wl2kBuffers mid message (message.sender.getD []) (message.subject.getD [])

/-- All bytes of the message `mime2wl` builds. -/
def messageBytes (mid : Bytes) (message : Message) : Bytes :=
  let wl2k := messageBuffers mid message
  wl2k.hbuf.data ++ wl2k.fbuf.data ++ wl2k.bbuf.data ++ wl2k.abuf.data

theorem mime2wl_some {fuel : Nat} {mid : Bytes} {message : Message} {buf : Buffer}
    (built : mime2wl fuel mid message = some buf) :
    message.sender.isSome ∧ message.subject.isSome ∧ buf.data = messageBytes mid message := by
  simp only [mime2wl, addbuf, Option.bind_eq_bind, Option.bind_eq_some_iff,
    Option.some.injEq] at built
  obtain ⟨sender, hasSender, subject, hasSubject, first, ⟨hbuf, drained, rfl⟩, second,
    ⟨fbuf, drainedFiles, rfl⟩, third, ⟨bbuf, drainedBody, rfl⟩, abuf, drainedParts, rfl⟩ := built
  refine ⟨by simp [hasSender], by simp [hasSubject], ?_⟩
  simp [messageBytes, messageBuffers, hasSender, hasSubject, (drain_rewind drained).1,
    (drain_rewind drainedFiles).1, (drain_rewind drainedBody).1, (drain_rewind drainedParts).1,
    addstring, Buffer.new]

def chosenBody (message : Message) : Bytes :=
  ((message.parts.find? isBody).map Part.content).getD nobody

/-- The fields of a message that has a sender and a subject. -/
def Message.fields (mid : Bytes) (message : Message) : List (Bytes × Bytes) :=
  messageFields mid message (message.sender.getD []) (message.subject.getD [])

def Message.partFields (message : Message) : List (Bytes × Bytes) :=
  (ascii "Body", decimal (chosenBody message).length) ::
    (attachments message.parts).map fun part =>
      (ascii "File", decimal part.content.length ++ [32] ++ attachmentName part)

def Message.allFields (mid : Bytes) (message : Message) : List (Bytes × Bytes) :=
  message.fields mid ++ message.partFields

def messageLines (mid : Bytes) (message : Message) : List Bytes :=
  linesOf (fieldLines (message.allFields mid)).flatten

theorem messageBytes_eq (mid : Bytes) (message : Message) :
    messageBytes mid message =
      (messageLines mid message).flatten ++
        match message.parts.find? isBody with
        | some body => crlf ++ body.content ++ partStream (attachments message.parts)
        | none => nobody ++ partStream (attachments message.parts) := by
  have files : fieldLines message.partFields =
      bodyField (chosenBody message) :: (attachments message.parts).map partFile := by
    simp [fieldLines, Message.partFields, bodyField, partFile, Function.comp_def]
  have lines : (messageLines mid message).flatten = (fieldLines (message.fields mid)).flatten ++
      (bodyField (chosenBody message) :: (attachments message.parts).map partFile).flatten := by
    rw [messageLines, linesOf_flatten, Message.allFields, ← files, fieldLines, fieldLines, fieldLines,
      List.map_append, List.flatten_append]
  rw [messageBytes, messageBuffers, wl2kBuffers, callback_parts _ _ rfl, lines]
  cases found : message.parts.find? isBody with
  | some body =>
      simp [addNobody, chosenBody, found, Buffer.new, addstring, headerLines_fields, crlf, Message.fields]
  | none =>
      simp [addNobody, chosenBody, found, Buffer.new, addstring, headerLines_fields, bodyField, field,
        ascii, Message.fields]

theorem SingleLine.append {first second : Bytes} (one : SingleLine first)
    (two : SingleLine second) : SingleLine (first ++ second) := by
  intro char member
  rcases List.mem_append.mp member with member | member
  · exact one char member
  · exact two char member

theorem addressCleanup_subset (addr : Bytes) : ∀ char ∈ addressCleanup addr, char ∈ addr := by
  have skipped : ∀ char ∈ skipSpace addr, char ∈ addr :=
    fun char member => List.dropWhile_suffix _ |>.subset member
  intro char member
  rw [addressCleanup] at member
  simp only at member
  split at member
  · rename_i first inside found
    have within : ∀ char ∈ inside, char ∈ skipSpace addr := fun char member =>
      (strchr_subset found).subset (List.mem_cons_of_mem _ member)
    split at member
    · exact skipped char (within char (List.takeWhile_subset _ member))
    · exact skipped char (List.takeWhile_subset _ member)
  · exact skipped char (List.takeWhile_subset _ member)

theorem skipSpace_smtp (text : Bytes) : skipSpace (ascii "SMTP:" ++ text) = ascii "SMTP:" ++ text :=
  skipSpace_of_notSpace (by decide)

theorem marked_mem {clean : Bytes} {char : UInt8} (member : char ∈ marked clean) :
    char ∈ ascii "SMTP:" ∨ char ∈ clean := by
  rw [marked, List.mem_append] at member
  split at member
  · exact member
  · exact member.imp_left fun empty => absurd empty List.not_mem_nil

theorem mboHeader_mem {sender : Bytes} {char : UInt8} (member : char ∈ mboHeader sender) :
    char ∈ ascii "SMTP:" ∨ char ∈ sender := by
  rw [mboHeader] at member
  split at member
  · split at member
    · exact .inr (List.takeWhile_subset _ member)
    · exact List.mem_append.mp member
  · exact .inr (List.takeWhile_subset _ member)

theorem decimal_singleLine (value : Nat) : SingleLine (decimal value) := by
  intro char member
  obtain ⟨low, high⟩ := decimal_digits value char member
  refine ⟨?_, ?_, ?_⟩ <;>
    · rintro rfl
      exact absurd low (by decide)

theorem attachments_subset {parts : List Part} {part : Part} (member : part ∈ attachments parts) :
    part ∈ parts :=
  List.mem_of_mem_eraseP member

theorem attachmentName_string {part : Part}
    (string : ∀ name ∈ part.filename, ∀ char ∈ name, char ≠ 0) :
    ∀ char ∈ attachmentName part, char ≠ 0 := by
  rw [attachmentName]
  split
  · rename_i name found
    exact string name found
  · split <;> decide +kernel

theorem fields_strings {mid : Bytes} {message : Message} (delivered : Delivered mid message) :
    ∀ entry ∈ message.allFields mid, FieldName entry.1 ∧ ∀ char ∈ entry.2, char ≠ 0 := by
  obtain ⟨midString, date, sender, recipients, subject, replyTo, filenames⟩ := delivered
  have smtp : ∀ char ∈ ascii "SMTP:", char ≠ 0 := by decide +kernel
  have given : ∀ value : Option Bytes, (∀ text ∈ value, ∀ char ∈ text, char ≠ 0) →
      ∀ char ∈ value.getD [], char ≠ 0 := by
    intro value string char member
    cases value with
    | none => cases member
    | some text => exact string text rfl char member
  have cleaned : ∀ char ∈ addressCleanup (message.sender.getD []), char ≠ 0 := fun char member =>
    given _ sender char (addressCleanup_subset _ char member)
  have one : ∀ {key value : Bytes}, FieldName key → (∀ char ∈ value, char ≠ 0) →
      FieldName (key, value).1 ∧ ∀ char ∈ (key, value).2, char ≠ 0 := fun name string => ⟨name, string⟩
  have listed : ∀ key : Bytes, FieldName key → ∀ rendered : List Bytes,
      (∀ header ∈ rendered, ∀ char ∈ header, char ≠ 0) →
      ∀ entry ∈ recipientFields key rendered, FieldName entry.1 ∧ ∀ char ∈ entry.2, char ≠ 0 := by
    intro key name rendered string entry member
    obtain ⟨header, inside, rfl⟩ := List.mem_map.mp member
    refine ⟨name, fun char here => ?_⟩
    rcases marked_mem here with here | here
    · exact smtp char here
    · exact string header inside char (addressCleanup_subset _ char here)
  have number : ∀ value, ∀ char ∈ decimal value, char ≠ 0 := fun value char member =>
    (decimal_singleLine value char member).2.2
  intro entry member
  simp only [Message.allFields, Message.fields, Message.partFields, messageFields, List.mem_append,
    List.mem_cons, List.not_mem_nil, or_false] at member
  simp only [List.mem_append] at recipients
  rcases member with
    (((((((rfl | rfl | rfl | rfl) | member) | member) | member) | rfl) | member) | rfl) | rfl | member
  · exact one (by decide +kernel) midString
  · exact one (by decide +kernel) date
  · exact one (by decide +kernel) (by decide +kernel)
  · exact one (by decide +kernel) fun char here => (marked_mem here).elim (smtp char) (cleaned char)
  · exact listed _ (by decide +kernel) _ (fun header inside =>
      recipients header (.inl (.inl inside))) entry member
  · exact listed _ (by decide +kernel) _ (fun header inside =>
      recipients header (.inl (.inr inside))) entry member
  · exact listed _ (by decide +kernel) _ (fun header inside =>
      recipients header (.inr inside)) entry member
  · exact one (by decide +kernel) (given _ subject)
  · obtain ⟨header, inside, rfl⟩ := List.mem_map.mp member
    exact one (by decide +kernel) (replyTo header (by simpa using inside))
  · exact one (by decide +kernel) fun char here => (mboHeader_mem here).elim (smtp char) (cleaned char)
  · exact one (by decide +kernel) (number _)
  · obtain ⟨part, inside, rfl⟩ := List.mem_map.mp member
    refine one (by decide +kernel) fun char here => ?_
    simp only [List.mem_append, List.mem_singleton] at here
    rcases here with (here | rfl) | here
    · exact number _ char here
    · decide
    · exact attachmentName_string (filenames part (attachments_subset inside)) char here

end PaclinkUnix
