import PaclinkUnix.CodecRoundTrip
import PaclinkUnix.Contact
import PaclinkUnix.MessageTitle

/-!
From one outbox directory to the other side's sendmail: the directory is read and encoded by
`prepare_outbound_proposals`, and the other side decodes with `version_1_Decode`.
-/

namespace PaclinkUnix

open Buffer Duplex

/-- What `prepare_outbound_proposals` makes of `version_1_Encode`. -/
def lzhufEncode (tree : HuffmanTree) (search : SearchTree) (text : Bytes) : Option Bytes :=
  (version1Encode tree search ⟨text, 0⟩).join.map Buffer.data

/-- What `inbound_parser` makes of `version_1_Decode`. -/
def lzhufDecode (tree : HuffmanTree) (textBuf : Nat → UInt8) (crc : UInt16) (coded : Bytes) :
    Option Bytes :=
  (version1Decode tree textBuf crc ⟨coded, 0⟩).join.map Buffer.data

/-- How an instance fills its list of messages. `tree` and `search` are the codec's statics when
the file of a name is its turn, whatever the files before it have left in them. -/
structure Directory where
  fuel : Nat
  tree : Bytes → HuffmanTree
  search : Bytes → SearchTree
  bp2p : Bool
  remotecall : Bytes
  dirp : List DirEntry

namespace Directory

variable (directory : Directory)

def encode (name text : Bytes) : Option Bytes :=
  lzhufEncode (directory.tree name) (directory.search name) text

def offers : Option (List Proposal) :=
  prepareOutboundProposals directory.fuel directory.encode directory.bp2p directory.remotecall
    directory.dirp

/-- The identifier and the text of a file that is offered. -/
def picked (dp : DirEntry) : Option (Bytes × Bytes) :=
  if midMaxLen < dp.name.length then none else dp.file.map fun text => (dp.name, text)

/-- The files that reach a receiver, in order, as they reach its sendmail. -/
def delivered (receiver : Station) : List (Bytes × Bytes × Bytes) :=
  ((directory.dirp.filterMap picked).filter fun file => !receiver.knows file.1).map
    fun file => (file.1, file.2, (receiver.config.wl2mime file.2).getD [])

/-- The names and texts in the directory are such that both sides can deal with them. The
receiver's codec is left with anything before each message. -/
structure Sound (receiver : Config) : Prop where
  decodes : ∀ coded, ∃ other textBuf crc,
    receiver.decode coded = lzhufDecode other textBuf crc coded
  distinct : (directory.dirp.map DirEntry.name).Nodup
  named : ∀ dp ∈ directory.dirp, dp.name ≠ [] ∧ ∀ char ∈ dp.name, 33 ≤ char ∧ char ≤ 126
  small : ∀ dp ∈ directory.dirp, ∀ text, dp.file = some text → text.length < 2 ^ 32
  qualifies : ∀ dp ∈ directory.dirp, dp.name.length ≤ midMaxLen → ∀ text, dp.file = some text →
    entryQualifies directory.fuel directory.bp2p directory.remotecall text = some true
  legible : ∀ dp ∈ directory.dirp, ∀ text, dp.file = some text → text.length ≤ 3867 ∨
    CodesLegible (directory.tree dp.name) (directory.search dp.name) ⟨text, 0⟩
  mails : ∀ dp ∈ directory.dirp, ∀ text, dp.file = some text → receiver.wl2mime text ≠ none

end Directory

theorem codec_carries {tree : HuffmanTree} {search : SearchTree} {text : Bytes}
    (small : text.length < 2 ^ 32)
    (plain : text.length ≤ 3867 ∨ CodesLegible tree search ⟨text, 0⟩) : ∃ coded,
      lzhufEncode tree search text = some coded ∧ 6 ≤ coded.length ∧ coded.length < 2 ^ 32 ∧
      ∀ other textBuf crc, lzhufDecode other textBuf crc coded = some text := by
  by_cases empty : text = []
  · subst empty
    refine ⟨[0, 0, 0, 0, 0, 0], ?_, by decide, by decide, fun other textBuf crc => ?_⟩
    · rw [lzhufEncode, version1Encode_empty tree search rfl]
      rfl
    · obtain ⟨out, decoded, encodes, decodes, data⟩ :=
        @empty_trips tree search other textBuf crc ⟨[], 0⟩ rfl
      rw [version1Encode_empty tree search rfl] at encodes
      cases encodes
      rw [lzhufDecode, decodes]
      exact congrArg some data
  · have legible : CodesLegible tree search ⟨text, 0⟩ :=
      plain.elim (@short_legible tree search ⟨text, 0⟩ empty) id
    obtain ⟨coded, encodes, long, short, decodes⟩ := legible.trips empty small
    refine ⟨coded, ?_, long, short, fun other textBuf crc => ?_⟩
    · rw [lzhufEncode, encodes]
      rfl
    · obtain ⟨decoded, returns, data⟩ := decodes other textBuf crc
      rw [lzhufDecode, returns]
      exact congrArg some data

section Contents

variable {directory : Directory} {receiver : Config} {props : List Proposal}

theorem titleStep_clean {title : Option Bytes} {line : Bytes}
    (clean : ∀ found, title = some found → ∀ char ∈ found, char ≠ 0)
    (plain : ∀ char ∈ line, char ≠ 0) :
    ∀ found, titleStep title line = some found → ∀ char ∈ found, char ≠ 0 := by
  intro found same char member
  rw [titleStep] at same
  split at same
  · cases same
    have inside := List.mem_of_mem_drop ((List.dropWhile_sublist _).subset
      (List.mem_of_mem_take member))
    rw [strzapcc] at inside
    exact plain char ((List.takeWhile_sublist _).subset ((List.takeWhile_sublist _).subset inside))
  · exact clean found same char member

theorem cstring_clean (text : Bytes) : ∀ char ∈ cstring text, char ≠ 0 := by
  intro char member
  simpa using List.mem_takeWhile_imp member

theorem linesTitle_clean {title : Option Bytes} (text : Bytes)
    (clean : ∀ found, title = some found → ∀ char ∈ found, char ≠ 0) :
    ∀ found, linesTitle title text = some found → ∀ char ∈ found, char ≠ 0 := by
  rw [linesTitle]
  induction linesOf text generalizing title with
  | nil => exact clean
  | cons line lines ih => exact ih (titleStep_clean clean (cstring_clean line))

theorem offers_deliverable (sound : directory.Sound receiver)
    (prepared : directory.offers = some props) : ∀ prop ∈ props, Deliverable receiver prop := by
  intro prop member
  obtain ⟨dp, inside, entry⟩ := (prepareOutboundProposals_mem prepared prop).mp member
  obtain ⟨-, -, -, -, file, encodes, -⟩ := prepareEntry_some entry
  generalize prop.ubuf = text at file encodes
  have small := sound.small dp inside _ file
  obtain ⟨coded, also, long, codes, decodes⟩ := codec_carries small (sound.legible dp inside _ file)
  rw [Directory.encode, also] at encodes
  obtain ⟨nonempty, printable⟩ := sound.named dp inside
  rw [prepareEntry] at entry
  split at entry
  · cases entry
  rename_i short
  rw [file] at entry
  simp only [Option.bind_eq_bind, Option.bind_eq_some_iff] at entry
  obtain ⟨qualified, -, entry⟩ := entry
  cases qualified with
  | false => cases entry
  | true =>
      simp only [if_true, Option.bind_eq_some_iff] at entry
      obtain ⟨made, found, same⟩ := entry
      cases same
      simp only [prepareProposal, Option.bind_eq_bind, Option.bind_eq_some_iff] at found
      obtain ⟨cbuf, -, title, read, same⟩ := found
      cases same
      obtain rfl : coded = cbuf := Option.some.inj encodes
      refine ⟨⟨rfl, .inr rfl, nonempty, Nat.not_lt.mp short, printable, ?_, codes⟩,
        ⟨rfl, long, rfl⟩, ?_, rfl, rfl, ?_, sound.mails dp inside _ file⟩
      · exact Nat.lt_trans small (by decide)
      · have same : title = linesTitle none text :=
          readTitle_some ⟨small, Nat.zero_le _, rfl⟩ read
        cases title with
        | none => exact (by decide +kernel : ∀ char ∈ ascii "No subject", char ≠ 0)
        | some title =>
            exact linesTitle_clean _ (fun _ missing => by cases missing) title same.symm
      · obtain ⟨other, textBuf, crc, same⟩ := sound.decodes coded
        rw [same]
        exact decodes other textBuf crc

end Contents

section Arrival

variable {contact : Contact} {caller called : Station} {banner : List Bytes}
  {directory directoryOther : Directory}

/-- An instance that starts with what it finds in its directory. -/
structure Directory.Fills (directory : Directory) (station : Station) : Prop where
  offers : directory.offers = some station.outbox
  receives : station.config.sendMsgOnly = false
  sound : ∀ mid, station.db mid ≠ some .malformed
  received : station.received = []

theorem Directory.Fills.ready {station receiver : Station} (fills : directory.Fills station)
    (sound : directory.Sound receiver.config) : station.Ready receiver where
  receives := fills.receives
  distinct := (prepareOutboundProposals_names fills.offers).nodup sound.distinct
  outbox := offers_deliverable sound fills.offers
  sound := fills.sound
  received := fills.received

end Arrival

end PaclinkUnix
