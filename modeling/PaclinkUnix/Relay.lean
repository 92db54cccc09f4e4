import PaclinkUnix.Text

/-!
The parent of `wl2kax25`: it reads chunks from one descriptor and writes each to the
other, in requests of at most `paclen` bytes. `none` is an access outside the read buffer.
-/

namespace PaclinkUnix

inductive Direction where
  | inbound
  | outbound
  deriving DecidableEq, Repr

/-- `sizeof(axread)` and `sizeof(axwrite)`. -/
def bufferSize : Direction → Nat
  | .inbound => 256
  | .outbound => 512

/-- What `write` meets: room for some bytes and one more, EAGAIN, or another error. -/
inductive WriteResult where
  | accepts (room : Nat)
  | again
  | fails
  deriving DecidableEq, Repr

def WriteResult.byteswritten (n : Nat) : WriteResult → Int
  | .accepts room => min (room + 1) n
  | _ => -1

/-- How the writes of a chunk end: with all of it written, with a `write` that has not
returned, or by the `break`. -/
inductive Ending where
  | done
  | waiting
  | broken
  deriving DecidableEq, Repr

/-- The bytes the destination accepted, the sizes of the requests and the results that are
left. -/
structure Relayed where
  accepted : Bytes
  requests : List Nat
  results : List WriteResult
  ending : Ending
  deriving DecidableEq, Repr

def bytesAt (buffer : Bytes) (pbuf : Int) (n : Nat) : Option Bytes :=
  if 0 ≤ pbuf ∧ pbuf + n ≤ buffer.length then some ((buffer.drop pbuf.toNat).take n) else none

def Relayed.prepend (bytes : Bytes) (requests : List Nat) (relayed : Relayed) : Relayed :=
  { relayed with accepted := bytes ++ relayed.accepted, requests := requests ++ relayed.requests }

/-- `while (len > 0)` -/
def writeChunk (paclen : Nat) (buffer : Bytes) : Int → Int → List WriteResult → Option Relayed
  | _, len, [] =>
      if 0 < len then some ⟨[], [], [], .waiting⟩ else some ⟨[], [], [], .done⟩
  | pbuf, len, result :: results =>
      if 0 < len then do
        let n := min paclen len.toNat
        let bytes ← bytesAt buffer pbuf n
        let byteswritten := result.byteswritten n
        if byteswritten = 0 ∨ (byteswritten < 0 ∧ result ≠ .again) then
          some ⟨[], [n], results, .broken⟩
        else do
          let relayed ← writeChunk paclen buffer (pbuf + byteswritten) (len - byteswritten) results
          some (relayed.prepend (bytes.take byteswritten.toNat) [n])
      else some ⟨[], [], result :: results, .done⟩

/-- One direction of the loop: a chunk lies over what the buffer held before. -/
def relay (paclen : Nat) : Bytes → List Bytes → List WriteResult → Option Relayed
  | _, [], results => some ⟨[], [], results, .done⟩
  | buffer, chunk :: chunks, results => do
      let buffer := chunk ++ buffer.drop chunk.length
      let relayed ← writeChunk paclen buffer 0 chunk.length results
      if relayed.ending = .waiting then some relayed
      else do
        let later ← relay paclen buffer chunks relayed.results
        some (later.prepend relayed.accepted relayed.requests)

section Writes

variable {paclen : Nat} {buffer chunk : Bytes} {results : List WriteResult}

theorem byteswritten_accepts (room n : Nat) :
    (WriteResult.accepts room).byteswritten n = (min (room + 1) n : Nat) := by
  simp [WriteResult.byteswritten]

theorem writeChunk_through (packet : 0 < paclen) (rest : Bytes) {written : Nat}
    (inside : written ≤ chunk.length) (again : .again ∉ results) (fails : .fails ∉ results) :
    ∃ relayed : Relayed, writeChunk paclen (chunk ++ rest) written (chunk.length - written : Nat)
        results = some relayed ∧
      relayed.accepted <+: chunk.drop written ∧
      (relayed.ending = .waiting ∨ relayed.ending = .done ∧ relayed.accepted = chunk.drop written) ∧
      (∀ n ∈ relayed.requests, n ≤ paclen) ∧ ∀ result ∈ relayed.results, result ∈ results := by
  induction results generalizing written with
  | nil =>
      rw [writeChunk]
      by_cases more : written < chunk.length
      · rw [if_pos (by omega)]
        exact ⟨_, rfl, List.nil_prefix, .inl rfl, by simp, by simp⟩
      · rw [if_neg (by omega)]
        have ended : chunk.drop written = [] := List.drop_eq_nil_iff.mpr (by omega)
        exact ⟨_, rfl, List.nil_prefix, .inr ⟨rfl, ended.symm⟩, by simp, by simp⟩
  | cons result results ih =>
      rw [List.mem_cons, not_or] at again fails
      rw [writeChunk]
      by_cases more : written < chunk.length
      · rw [if_pos (by omega)]
        cases result with
        | again => exact absurd rfl again.1
        | fails => exact absurd rfl fails.1
        | accepts room =>
            have request : bytesAt (chunk ++ rest) written (min paclen (chunk.length - written)) =
                some ((chunk.drop written).take (min paclen (chunk.length - written))) := by
              rw [bytesAt, if_pos ⟨by omega, by rw [List.length_append]; omega⟩, Int.toNat_natCast,
                List.drop_append_of_le_length inside,
                List.take_append_of_le_length (by rw [List.length_drop]; omega)]
            obtain ⟨count, countEq⟩ : ∃ count, count = min (room + 1)
              (min paclen (chunk.length - written)) := ⟨_, rfl⟩
            obtain ⟨relayed, goes, begins, ends, short, left⟩ :=
              ih (show written + count ≤ chunk.length by omega) again.2 fails.2
            have front : chunk.drop written =
                (chunk.drop written).take count ++ chunk.drop (written + count) := by
              rw [← List.drop_drop, List.take_append_drop]
            have taken : ((chunk.drop written).take (min paclen (chunk.length - written))).take count =
                (chunk.drop written).take count := by
              rw [List.take_take, Nat.min_eq_left (by omega)]
            simp only [Int.toNat_natCast, request, byteswritten_accepts, ← countEq,
              Option.bind_eq_bind, Option.bind_some]
            rw [if_neg (by omega), show (written : Int) + count = (written + count : Nat) by omega,
              show ((chunk.length - written : Nat) : Int) - count =
                (chunk.length - (written + count) : Nat) by omega, goes]
            refine ⟨_, rfl, ?_, ?_, ?_, ?_⟩
            · have longer := (List.prefix_append_right_inj ((chunk.drop written).take count)).mpr begins
              rw [← front] at longer
              change _ ++ relayed.accepted <+: _
              rwa [taken]
            · rcases ends with waiting | ⟨finished, whole⟩
              · exact .inl waiting
              · refine .inr ⟨finished, ?_⟩
                change _ ++ relayed.accepted = _
                rw [taken, whole, ← front]
            · intro n member
              rcases List.mem_append.mp member with first | later
              · rw [List.mem_singleton.mp first]
                omega
              · exact short n later
            · exact fun result member => List.mem_cons_of_mem _ (left result member)
      · rw [if_neg (by omega)]
        have ended : chunk.drop written = [] := List.drop_eq_nil_iff.mpr (by omega)
        exact ⟨_, rfl, List.nil_prefix, .inr ⟨rfl, ended.symm⟩, by simp, by simp⟩

theorem relay_through (packet : 0 < paclen) (chunks : List Bytes) (again : .again ∉ results)
    (fails : .fails ∉ results) :
    ∃ relayed, relay paclen buffer chunks results = some relayed ∧
      relayed.accepted <+: chunks.flatten ∧
      (relayed.ending ≠ .waiting → relayed.accepted = chunks.flatten) ∧
      ∀ n ∈ relayed.requests, n ≤ paclen := by
  induction chunks generalizing buffer results with
  | nil => exact ⟨_, rfl, List.nil_prefix, fun _ => rfl, by simp⟩
  | cons chunk chunks ih =>
      obtain ⟨relayed, writes, begins, ends, short, left⟩ := writeChunk_through packet
        (buffer.drop chunk.length) (show 0 ≤ chunk.length from Nat.zero_le _) again fails
      rw [List.drop_zero] at begins ends
      change writeChunk paclen _ 0 chunk.length results = some relayed at writes
      rw [relay]
      simp only [writes, Option.bind_eq_bind, Option.bind_some, List.flatten_cons]
      rcases ends with waiting | ⟨finished, whole⟩
      · rw [if_pos waiting]
        exact ⟨relayed, rfl, begins.trans (List.prefix_append _ _),
          fun ended => absurd waiting ended, short⟩
      · obtain ⟨later, goes, more, all, shorter⟩ :=
          @ih (chunk ++ buffer.drop chunk.length) _ (fun member => again (left _ member))
            fun member => fails (left _ member)
        rw [if_neg (by rw [finished]; decide), goes]
        refine ⟨_, rfl, ?_, ?_, ?_⟩
        · change relayed.accepted ++ later.accepted <+: _
          rw [whole]
          exact (List.prefix_append_right_inj chunk).mpr more
        · intro ended
          change relayed.accepted ++ later.accepted = _
          rw [whole, all ended]
        · intro n member
          rcases List.mem_append.mp member with first | second
          · exact short n first
          · exact shorter n second

/-- Each EAGAIN takes `pbuf` back by one, so it makes one byte more. -/
theorem writeChunk_counts (packet : 0 < paclen) {pbuf len : Int} (fails : .fails ∉ results)
    (positive : 0 ≤ len) {relayed : Relayed}
    (writes : writeChunk paclen buffer pbuf len results = some relayed) :
    ∃ used, results = used ++ relayed.results ∧ relayed.ending ≠ .broken ∧
      (relayed.ending = .done → (relayed.accepted.length : Int) = len + used.count .again) := by
  induction results generalizing pbuf len relayed with
  | nil =>
      rw [writeChunk] at writes
      split at writes <;> (obtain rfl := Option.some.inj writes)
      · exact ⟨[], rfl, by decide, fun ended => by cases ended⟩
      · exact ⟨[], rfl, by simp, fun _ => by simp; omega⟩
  | cons result results ih =>
      rw [List.mem_cons, not_or] at fails
      rw [writeChunk] at writes
      split at writes
      · rename_i more
        simp only [Option.bind_eq_bind, Option.bind_eq_some_iff] at writes
        obtain ⟨bytes, request, writes⟩ := writes
        have size : bytes.length = min paclen len.toNat := by
          rw [bytesAt] at request
          split at request
          · rename_i inside
            rw [← Option.some.inj request, List.length_take, List.length_drop]
            omega
          · cases request
        cases result with
        | fails => exact absurd rfl fails.1
        | accepts room =>
            rw [byteswritten_accepts, if_neg (by omega)] at writes
            obtain ⟨later, goes, same⟩ := Option.bind_eq_some_iff.mp writes
            obtain rfl := Option.some.inj same
            obtain ⟨used, rfl, unbroken, counts⟩ := ih fails.2 (by omega) goes
            refine ⟨.accepts room :: used, rfl, unbroken, fun ended => ?_⟩
            have sum := counts ended
            change ((_ ++ later.accepted).length : Int) = _
            rw [List.length_append, List.length_take, size, List.count_cons_of_ne (by simp)]
            omega
        | again =>
            have minus : WriteResult.again.byteswritten (min paclen len.toNat) = -1 := rfl
            rw [minus, if_neg (by simp)] at writes
            obtain ⟨later, goes, same⟩ := Option.bind_eq_some_iff.mp writes
            obtain rfl := Option.some.inj same
            obtain ⟨used, rfl, unbroken, counts⟩ := ih fails.2 (by omega) goes
            refine ⟨.again :: used, rfl, unbroken, fun ended => ?_⟩
            have sum := counts ended
            change ((_ ++ later.accepted).length : Int) = _
            rw [show (-1 : Int).toNat = 0 from rfl, List.take_zero, List.nil_append,
              List.count_cons_self]
            omega
      · obtain rfl := Option.some.inj writes
        exact ⟨[], rfl, by simp, fun _ => by simp; omega⟩

theorem relay_counts (packet : 0 < paclen) (chunks : List Bytes) (fails : .fails ∉ results)
    {relayed : Relayed} (runs : relay paclen buffer chunks results = some relayed)
    (done : relayed.ending = .done) : ∃ used, results = used ++ relayed.results ∧
      relayed.accepted.length = chunks.flatten.length + used.count .again := by
  induction chunks generalizing buffer results relayed with
  | nil =>
      obtain rfl := Option.some.inj runs
      exact ⟨[], rfl, rfl⟩
  | cons chunk chunks ih =>
      rw [relay] at runs
      obtain ⟨first, writes, others⟩ := Option.bind_eq_some_iff.mp runs
      obtain ⟨used, rfl, unbroken, counts⟩ := writeChunk_counts packet fails (by omega) writes
      split at others
      · rename_i waiting
        obtain rfl := Option.some.inj others
        rw [waiting] at done
        cases done
      · rename_i notWaiting
        obtain ⟨later, goes, same⟩ := Option.bind_eq_some_iff.mp others
        obtain rfl := Option.some.inj same
        have finished : first.ending = .done := by
          cases ending : first.ending with
          | done => rfl
          | waiting => exact absurd ending notWaiting
          | broken => exact absurd ending unbroken
        have sum := counts finished
        obtain ⟨more, left, rest⟩ := ih (fun member => fails (List.mem_append_right _ member)) goes done
        refine ⟨used ++ more, by rw [List.append_assoc, left]; rfl, ?_⟩
        change (first.accepted ++ later.accepted).length = _
        rw [List.length_append, rest, List.flatten_cons, List.length_append, List.count_append]
        omega

end Writes

/-- What one direction reads: chunks that fit its buffer, whatever that held before. -/
structure Source (direction : Direction) where
  buffer : Bytes
  size : buffer.length = bufferSize direction
  chunks : List Bytes
  fits : ∀ chunk ∈ chunks, 0 < chunk.length ∧ chunk.length ≤ bufferSize direction

namespace Source

variable {direction : Direction}

def relay (source : Source direction) (paclen : Nat) (results : List WriteResult) : Option Relayed :=
  PaclinkUnix.relay paclen source.buffer source.chunks results

/-- The bytes that are read come out, those so far and in the end all of them, and no
request is too long. -/
def Transparent (source : Source direction) (paclen : Nat) (results : List WriteResult) : Prop :=
  ∃ relayed, source.relay paclen results = some relayed ∧
    relayed.accepted <+: source.chunks.flatten ∧
    (relayed.ending ≠ .waiting → relayed.accepted = source.chunks.flatten) ∧
    ∀ n ∈ relayed.requests, n ≤ paclen

def Whole (source : Source direction) (paclen : Nat) (results : List WriteResult) : Prop :=
  ∀ relayed, source.relay paclen results = some relayed →
    relayed.ending = .done ∧ relayed.results = []

/-- As long as no `write` fails with EAGAIN the bytes come out, and in a whole run only
then. -/
theorem transparent_iff (source : Source direction) {paclen : Nat} (packet : 0 < paclen)
    {results : List WriteResult} (fails : .fails ∉ results) :
    (.again ∉ results → source.Transparent paclen results) ∧
      (source.Whole paclen results →
        (source.Transparent paclen results ↔ .again ∉ results)) := by
  refine ⟨fun clean => relay_through packet source.chunks clean fails, fun whole =>
    ⟨?_, fun clean => relay_through packet source.chunks clean fails⟩⟩
  rintro ⟨relayed, runs, -, all, -⟩
  obtain ⟨done, unread⟩ := whole relayed runs
  obtain ⟨used, left, counts⟩ := relay_counts packet source.chunks fails runs done
  rw [unread, List.append_nil] at left
  rw [all (by rw [done]; decide), ← left] at counts
  exact List.count_eq_zero.mp (by omega)

def sample : Source .inbound where
  buffer := List.replicate 256 0
  size := List.length_replicate
  chunks := [[65, 66]]
  fits := by decide

/-- The byte behind an EAGAIN is the one before it. -/
theorem again_repeats : ¬ sample.Transparent 255 [.accepts 0, .again, .accepts 9] := by
  rintro ⟨relayed, runs, -, all, -⟩
  have twice : sample.relay 255 [.accepts 0, .again, .accepts 9] =
      some ⟨[65, 65, 66], [2, 1, 2], [], .done⟩ := by decide +kernel
  rw [twice] at runs
  obtain rfl := Option.some.inj runs
  exact absurd (all (by decide)) (by decide)

theorem transparent_sample : sample.Transparent 255 [.accepts 0, .accepts 9] :=
  (transparent_iff sample (by decide) (by decide)).1 (by decide)

end Source

end PaclinkUnix
