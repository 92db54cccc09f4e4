import PaclinkUnix.Proposal

/-!
Sending a compressed message: `putcompressed` writes a header with the title and
the offset, the data in blocks of at most 250 bytes, and a checksum. The receiver
`getcompressed` gets exactly the data back and stops at the end of the frame.
-/

namespace PaclinkUnix

open Effects

def chunkSize : Nat := 250

/-- `cksum += *cp` on an `int`. Overflow, which C leaves undefined, is taken to wrap; only the
lowest byte of the sum is sent and compared. -/
def addBytes (cksum : UInt32) (bytes : Bytes) : UInt32 :=
  bytes.foldl (fun sum char => sum + char.toUInt32) cksum

/-- `-cksum & 0xff` -/
def cksumByte (cksum : UInt32) : UInt8 := (0 - cksum).toUInt8

/-- `while (rem > 0)`; every round sends at least one byte. -/
def putBlocks (mid : Bytes) : Nat → Bytes → UInt32 → Session UInt32
  | 0, _, cksum => pure cksum
  | fuel + 1, rem, cksum =>
      if rem.length = 0 then pure cksum
      else do
        let msglen := if rem.length > chunkSize then chunkSize else rem.length
        write (.body mid) [chrStx, UInt8.ofNat msglen]
        write (.body mid) (rem.take msglen)
        putBlocks mid fuel (rem.drop msglen) (addBytes cksum (rem.take msglen))

def frameTitle (prop : Proposal) : Bytes := prop.title.take 80
def frameOffset (prop : Proposal) : Bytes := (decimal prop.offset).take 6

def frameHeader (prop : Proposal) : Bytes :=
  let len := (frameTitle prop).length + (frameOffset prop).length + 2
  [chrSoh, UInt8.ofNat len] ++ frameTitle prop ++ [chrNul] ++ frameOffset prop ++ [chrNul]

def putcompressed (prop : Proposal) : Session Unit := do
  write (.body prop.mid) (frameHeader prop)
  if prop.csize < 6 then exit "invalid compressed data"
  else if prop.csize < prop.offset then exit "invalid offset"
  else if prop.cbuf.length < prop.csize then halt .fault
  else do
    let rem := (prop.cbuf.take prop.csize).drop prop.offset
    let cksum ← putBlocks prop.mid rem.length rem 0
    write (.body prop.mid) [chrEot, cksumByte cksum]

def blockWrites : Nat → Bytes → List Bytes
  | 0, _ => []
  | fuel + 1, rem =>
      if rem.length = 0 then []
      else
        let msglen := if rem.length > chunkSize then chunkSize else rem.length
        [chrStx, UInt8.ofNat msglen] :: rem.take msglen :: blockWrites fuel (rem.drop msglen)

def frameWrites (prop : Proposal) : List Bytes :=
  let rem := (prop.cbuf.take prop.csize).drop prop.offset
  frameHeader prop :: blockWrites rem.length rem ++ [[chrEot, cksumByte (addBytes 0 rem)]]

/-- All bytes `putcompressed` writes for a proposal. -/
def frame (prop : Proposal) : Bytes := (frameWrites prop).flatten

/-- What makes a proposal's data transmittable: its size is the size of its buffer. -/
structure Transmittable (prop : Proposal) : Prop where
  size : prop.csize = prop.cbuf.length
  enough : 6 ≤ prop.csize
  offset : prop.offset = 0

def World.logWrites (what : Output) (writes : List Bytes) (world : World) : World :=
  { world with trace := world.trace ++ writes.map (.wrote what) }

@[simp] theorem logWrites_nil (what : Output) (world : World) : world.logWrites what [] = world := by
  simp [World.logWrites]

theorem log_logWrites (what : Output) (bytes : Bytes) (writes : List Bytes) (world : World) :
    (world.log (.wrote what bytes)).logWrites what writes =
      world.logWrites what (bytes :: writes) := by
  simp [World.log, World.logWrites]

theorem logWrites_log (what : Output) (bytes : Bytes) (writes : List Bytes) (world : World) :
    (world.logWrites what writes).log (.wrote what bytes) =
      world.logWrites what (writes ++ [bytes]) := by
  simp [World.log, World.logWrites]

theorem addBytes_append (cksum : UInt32) (first second : Bytes) :
    addBytes cksum (first ++ second) = addBytes (addBytes cksum first) second := by
  simp [addBytes]

theorem run_write (env : Env) (what : Output) (bytes : Bytes) {α : Type}
    (next : Unit → Session α) (world : World) :
    Program.run (handle env) (write what bytes >>= next) world =
      Program.run (handle env) (next ()) (world.log (.wrote what bytes)) := rfl

theorem run_putBlocks (env : Env) (mid : Bytes) : ∀ fuel rem cksum world,
    rem.length ≤ fuel →
    Program.run (handle env) (putBlocks mid fuel rem cksum) world =
      (some (addBytes cksum rem), world.logWrites (.body mid) (blockWrites fuel rem)) := by
  intro fuel
  induction fuel with
  | zero =>
      intro rem cksum world enough
      obtain rfl : rem = [] := List.eq_nil_of_length_eq_zero (by omega)
      simp [putBlocks, blockWrites, addBytes]
  | succ fuel ih =>
      intro rem cksum world enough
      rw [putBlocks, blockWrites]
      by_cases done : rem.length = 0
      · obtain rfl : rem = [] := List.eq_nil_of_length_eq_zero done
        simp [addBytes]
      · simp only [done, if_false]
        generalize lengthEq : (if rem.length > chunkSize then chunkSize else rem.length) = msglen
        have positive : 0 < msglen := by
          rw [← lengthEq]
          split
          · decide
          · omega
        rw [run_write, run_write, ih _ _ _ (by simp; omega), log_logWrites, log_logWrites,
          ← addBytes_append, List.take_append_drop]

theorem run_putcompressed (env : Env) (prop : Proposal) (fit : Transmittable prop)
    (world : World) :
    Program.run (handle env) (putcompressed prop) world =
      (some (), world.logWrites (.body prop.mid) (frameWrites prop)) := by
  have enough : ¬ prop.csize < 6 := by have := fit.enough; omega
  have inside : ¬ prop.csize < prop.offset := by rw [fit.offset]; omega
  have whole : ¬ prop.cbuf.length < prop.csize := by rw [fit.size]; omega
  rw [putcompressed, run_write]
  simp only [enough, inside, whole, if_false]
  rw [Program.run_bind_some (run_putBlocks env prop.mid _ _ 0 _ le_rfl), log_logWrites]
  change (some (), _) = _
  rw [logWrites_log]
  rfl

def byteSum (bytes : Bytes) : Nat := (bytes.map UInt8.toNat).sum

theorem addBytes_toNat (cksum : UInt32) (bytes : Bytes) :
    (addBytes cksum bytes).toNat = (cksum.toNat + byteSum bytes) % 2 ^ 32 := by
  induction bytes generalizing cksum with
  | nil =>
      have := cksum.toNat_lt
      simp [addBytes, byteSum]
  | cons char rest ih =>
      have step := ih (cksum + char.toUInt32)
      simp only [addBytes, List.foldl_cons] at step ⊢
      rw [step]
      simp only [byteSum, List.map_cons, List.sum_cons, UInt32.toNat_add, UInt8.toNat_toUInt32]
      omega

theorem cksumByte_toNat (cksum : UInt32) :
    (cksumByte cksum).toNat = (256 - cksum.toNat % 256) % 256 := by
  have bound := cksum.toNat_lt
  simp only [cksumByte, UInt32.toNat_toUInt8, UInt32.toNat_sub, UInt32.toNat_zero]
  omega

theorem checksum_cancels (bytes : Bytes) :
    (byteSum bytes + (cksumByte (addBytes 0 bytes)).toNat) % 256 = 0 := by
  rw [cksumByte_toNat, addBytes_toNat]
  simp only [UInt32.toNat_zero, Nat.zero_add]
  omega

theorem readField_text {limit : Nat} {text : Bytes} (len : Int) (rest : Bytes)
    (short : text.length ≤ limit) (notNul : ∀ char ∈ text, char ≠ 0) :
    readField limit len (text ++ chrNul :: rest) =
      some (text, len - text.length, chrNul :: rest) := by
  induction text generalizing limit len with
  | nil =>
      cases limit with
      | zero => simp [readField]
      | succ limit => simp [readField]
  | cons char text ih =>
      obtain ⟨limit, rfl⟩ : ∃ smaller, limit = smaller + 1 := ⟨limit - 1, by simp at short; omega⟩
      have notNulHere : char ≠ chrNul := notNul char (by simp)
      have tail := @ih limit (len - 1) (by simpa using short)
        (fun other member => notNul other (by simp [member]))
      simp only [readField, List.cons_append, notNulHere, if_false, tail, Option.bind_eq_bind,
        Option.bind_some, List.length_cons, Option.some.injEq, Prod.mk.injEq, true_and, and_true]
      omega

theorem readData_chunk (chunk : Bytes) : ∀ (buffer : Bytes) (cksum : Nat) (rest : Bytes),
    readData chunk.length buffer (cksum % 256) (chunk ++ rest) =
      some (buffer ++ chunk, (cksum + byteSum chunk) % 256, rest) := by
  induction chunk with
  | nil =>
      intro buffer cksum rest
      simp [readData, byteSum]
  | cons char chunk ih =>
      intro buffer cksum rest
      simp only [List.length_cons, readData, List.cons_append, getrawchar, Option.bind_eq_bind,
        Option.bind_some]
      rw [show (cksum % 256 + char.toNat) % 256 = (cksum + char.toNat) % 256 by omega, ih]
      simp [byteSum, Nat.add_assoc]

theorem readBlocks_frame (fuel : Nat) : ∀ (rem buffer rest : Bytes) (more : Nat),
    rem.length ≤ fuel →
    readBlocks (fuel + more + 1) buffer (byteSum buffer % 256)
        ((blockWrites fuel rem).flatten ++
          [chrEot, cksumByte (addBytes 0 (buffer ++ rem))] ++ rest) =
      some (some (buffer ++ rem), rest) := by
  induction fuel with
  | zero =>
      intro rem buffer rest more enough
      obtain rfl : rem = [] := List.eq_nil_of_length_eq_zero (by omega)
      have cancels := checksum_cancels buffer
      have notStx : chrEot ≠ chrStx := by decide
      simp [blockWrites, readBlocks, getrawchar, notStx, cancels]
  | succ fuel ih =>
      intro rem buffer rest more enough
      by_cases done : rem.length = 0
      · obtain rfl : rem = [] := List.eq_nil_of_length_eq_zero done
        have cancels := checksum_cancels buffer
        have notStx : chrEot ≠ chrStx := by decide
        simp [blockWrites, readBlocks, getrawchar, notStx, cancels]
      · rw [blockWrites]
        simp only [done, if_false]
        generalize lengthEq : (if rem.length > chunkSize then chunkSize else rem.length) = msglen
        have bounds : 0 < msglen ∧ msglen ≤ 250 ∧ msglen ≤ rem.length := by
          rw [← lengthEq, chunkSize]
          split <;> omega
        have lengthByte : (UInt8.ofNat msglen).toNat = msglen := by
          rw [UInt8.toNat_ofNat']
          omega
        have notZero : UInt8.ofNat msglen ≠ 0 := by
          intro zero
          rw [zero] at lengthByte
          simp at lengthByte
          omega
        have chunkLength : (rem.take msglen).length = msglen := by simp; omega
        have chunk := readData_chunk (rem.take msglen) buffer (byteSum buffer)
          ((blockWrites fuel (rem.drop msglen)).flatten ++
            [chrEot, cksumByte (addBytes 0 (buffer ++ rem))] ++ rest)
        have sums : byteSum buffer + byteSum (rem.take msglen) =
            byteSum (buffer ++ rem.take msglen) := by simp [byteSum]
        have later := ih (rem.drop msglen) (buffer ++ rem.take msglen) rest more
          (by simp; omega)
        rw [List.append_assoc buffer, List.take_append_drop] at later
        rw [chunkLength, sums] at chunk
        rw [show fuel + 1 + more + 1 = fuel + more + 1 + 1 by omega]
        simp only [readBlocks, List.flatten_cons, List.cons_append, List.nil_append,
          List.append_assoc, getrawchar, Option.bind_eq_bind, Option.bind_some, if_true,
          notZero, if_false, lengthByte] at chunk later ⊢
        rw [chunk, Option.bind_some, later]

theorem blockWrites_length (fuel : Nat) : ∀ rem : Bytes, rem.length ≤ fuel →
    rem.length ≤ (blockWrites fuel rem).flatten.length := by
  induction fuel with
  | zero => simp
  | succ fuel ih =>
      intro rem enough
      rw [blockWrites]
      by_cases done : rem.length = 0
      · simp [done]
      · simp only [done, if_false]
        generalize lengthEq : (if rem.length > chunkSize then chunkSize else rem.length) = msglen
        have positive : 0 < msglen := by
          rw [← lengthEq]
          split
          · decide
          · omega
        have later := ih (rem.drop msglen) (by simp; omega)
        simp only [List.flatten_cons, List.length_append, List.length_take, List.length_drop,
          List.length_cons] at later ⊢
        omega

theorem frameOffset_zero {prop : Proposal} (zero : prop.offset = 0) : frameOffset prop = ascii "0" := by
  simp only [frameOffset, zero]
  decide

theorem readBlocks_body (data rest : Bytes) :
    let input := (blockWrites data.length data).flatten ++
      [chrEot, cksumByte (addBytes 0 data)] ++ rest
    readBlocks (input.length + 1) [] 0 input = some (some data, rest) := by
  intro input
  have long := blockWrites_length data.length data le_rfl
  obtain ⟨more, moreEq⟩ : ∃ more, input.length = data.length + more :=
    Nat.exists_eq_add_of_le (by simp only [input, List.length_append]; omega)
  have blocks := readBlocks_frame data.length data [] rest more le_rfl
  rw [← moreEq] at blocks
  exact blocks

/-- The receiver gets the data of one frame and stops where the next byte begins. -/
theorem getcompressed_frame (prop : Proposal) (fit : Transmittable prop)
    (title : ∀ char ∈ prop.title, char ≠ 0) (rest : Bytes) :
    getcompressed (frame prop ++ rest) = some (some prop.cbuf, rest) := by
  have data : (prop.cbuf.take prop.csize).drop prop.offset = prop.cbuf := by
    simp [fit.size, fit.offset]
  have short : (frameTitle prop).length ≤ 80 := by simp [frameTitle]
  have titleNotNul : ∀ char ∈ frameTitle prop, char ≠ 0 :=
    fun char member => title char (List.mem_of_mem_take member)
  have offsetNotNul : ∀ char ∈ ascii "0", char ≠ 0 := by decide +kernel
  have offsetLength : (ascii "0").length = 1 := by decide
  have lengthByte : ((UInt8.ofNat ((frameTitle prop).length + 1 + 2)).toNat : Int) =
      (frameTitle prop).length + 3 := by
    rw [UInt8.toNat_ofNat']
    omega
  have body := readBlocks_body prop.cbuf rest
  generalize bodyEq : (blockWrites prop.cbuf.length prop.cbuf).flatten ++
    [chrEot, cksumByte (addBytes 0 prop.cbuf)] ++ rest = input at body
  have shape : frame prop ++ rest = chrSoh :: UInt8.ofNat ((frameTitle prop).length + 1 + 2) ::
      (frameTitle prop ++ chrNul :: (ascii "0" ++ chrNul :: input)) := by
    rw [← bodyEq]
    simp only [frame, frameWrites, frameHeader, data, frameOffset_zero fit.offset, offsetLength,
      List.flatten_cons, List.flatten_append, List.flatten_nil, List.append_nil,
      List.append_assoc, List.cons_append, List.nil_append]
  rw [shape, getcompressed]
  simp only [getrawchar, Option.bind_eq_bind, Option.bind_some, ne_eq, not_true_eq_false,
    if_false, lengthByte, readField_text _ _ short titleNotNul,
    readField_text _ _ (show (ascii "0").length ≤ 6 by decide) offsetNotNul, offsetLength]
  rw [if_neg (by omega)]
  exact body

def putAll : List Proposal → Session Unit
  | [] => pure ()
  | prop :: rest => do
      putcompressed prop
      putAll rest

/-- Successive calls: the result of each and the bytes it consumed. -/
def receiveAll : Nat → Bytes → Option (List (Option Bytes × Bytes) × Bytes)
  | 0, input => some ([], input)
  | count + 1, input => do
      let (result, rest) ← getcompressed input
      let (results, left) ← receiveAll count rest
      some ((result, taken input rest) :: results, left)

/-- The bytes that went out to the peer. -/
def written : List Event → Bytes
  | [] => []
  | .wrote _ bytes :: rest => bytes ++ written rest
  | _ :: rest => written rest

theorem written_append (first second : List Event) :
    written (first ++ second) = written first ++ written second := by
  induction first with
  | nil => rfl
  | cons event first ih => cases event <;> simp [written, ih]

theorem written_writes (what : Output) (writes : List Bytes) :
    written (writes.map (.wrote what)) = writes.flatten := by
  induction writes with
  | nil => rfl
  | cons bytes writes ih => simp [written, ih]

theorem run_putAll (env : Env) (props : List Proposal)
    (fit : ∀ prop ∈ props, Transmittable prop) (world : World) :
    ∃ after sent, Program.run (handle env) (putAll props) world = (some (), after) ∧
      after.trace = world.trace ++ sent ∧ written sent = (props.map frame).flatten := by
  induction props generalizing world with
  | nil => exact ⟨world, [], rfl, by simp, rfl⟩
  | cons prop props ih =>
      have first := run_putcompressed env prop (fit prop (by simp)) world
      obtain ⟨after, sent, later, traced, bytes⟩ := ih (fun other member =>
        fit other (by simp [member])) (world.logWrites (.body prop.mid) (frameWrites prop))
      refine ⟨after, (frameWrites prop).map (.wrote (.body prop.mid)) ++ sent, ?_, ?_, ?_⟩
      · rw [putAll, Program.run_bind_some first]
        exact later
      · rw [traced]
        simp [World.logWrites]
      · rw [written_append, written_writes, bytes]
        simp [frame]

theorem receiveAll_frames (props : List Proposal) (fit : ∀ prop ∈ props, Transmittable prop)
    (titles : ∀ prop ∈ props, ∀ char ∈ prop.title, char ≠ 0) (rest : Bytes) :
    receiveAll props.length ((props.map frame).flatten ++ rest) =
      some (props.map fun prop => (some prop.cbuf, frame prop), rest) := by
  induction props with
  | nil => rfl
  | cons prop props ih =>
      have first := getcompressed_frame prop (fit prop (by simp)) (titles prop (by simp))
        ((props.map frame).flatten ++ rest)
      have later := ih (fun other member => fit other (by simp [member]))
        (fun other member => titles other (by simp [member]))
      simp only [List.map_cons, List.flatten_cons, List.append_assoc, List.length_cons, receiveAll,
        first, later, Option.bind_eq_bind, Option.bind_some]
      simp [taken]

/-- What `putcompressed` writes for a list of proposals, read by successive calls of
`getcompressed`, gives the data of each, and each call consumes one frame. -/
theorem transfer_roundtrip (env : Env) (world : World) (props : List Proposal)
    (fit : ∀ prop ∈ props, prop.offset = 0 ∧ prop.csize = prop.cbuf.length ∧
      6 ≤ prop.cbuf.length)
    (titles : ∀ prop ∈ props, ∀ char ∈ prop.title, char ≠ 0) (rest : Bytes) :
    ∃ after sent, Program.run (handle env) (putAll props) world = (some (), after) ∧
      after.trace = world.trace ++ sent ∧
      written sent = (props.map frame).flatten ∧
      receiveAll props.length (written sent ++ rest) =
        some (props.map fun prop => (some prop.cbuf, frame prop), rest) := by
  have transmittable : ∀ prop ∈ props, Transmittable prop := by
    intro prop member
    obtain ⟨offset, size, enough⟩ := fit prop member
    exact ⟨size, by omega, offset⟩
  obtain ⟨after, sent, ran, traced, bytes⟩ := run_putAll env props transmittable world
  refine ⟨after, sent, ran, traced, bytes, ?_⟩
  rw [bytes]
  exact receiveAll_frames props transmittable titles rest

def sampleProposal : Proposal where
  code := 67
  type := 69
  mid := ascii "ABCDE_N0CALL"
  usize := 3
  csize := 8
  path := some (ascii "ABCDE_N0CALL")
  ubuf := [1, 2, 3]
  cbuf := [1, 2, 4, 0, 250, 255, 2, 4]
  title := ascii "test"
  offset := 0
  accepted := false
  delete := false

/-- More messages than go into one batch. -/
def sampleOutbox : List Proposal :=
  (ascii "ABCDEFG").map fun char => { sampleProposal with mid := [char], path := some [char] }

theorem transfer_roundtrip_sample :
    ∃ after sent, Program.run (handle quietEnv) (putAll [sampleProposal, sampleProposal])
        (World.start [] true fun _ => none) = (some (), after) ∧
      after.trace = [] ++ sent ∧
      written sent = ([sampleProposal, sampleProposal].map frame).flatten ∧
      receiveAll 2 (written sent ++ [7]) =
        some ([sampleProposal, sampleProposal].map fun prop => (some prop.cbuf, frame prop), [7]) :=
  transfer_roundtrip quietEnv _ [sampleProposal, sampleProposal]
    (by decide) (by decide +kernel) [7]

end PaclinkUnix
