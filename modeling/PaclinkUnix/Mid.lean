import PaclinkUnix.Text

/-!
The database of message identifiers, `mid.c`. The database library is reached
through calls that may each fail; their outcomes are an argument.
-/

namespace PaclinkUnix

def midMaxLen : Nat := 12
def midExpireDays : Int := 30

inductive Datum where
  | time (stored : Int)
  | malformed
  deriving DecidableEq, Repr

abbrev MidDb := Bytes → Option Datum

structure DbCalls where
  create : Bool
  opens : Bool
  get : Bool
  put : Bool
  del : Bool
  deriving DecidableEq, Repr

def DbCalls.succeed : DbCalls := ⟨true, true, true, true, true⟩

def expired (now stored : Int) : Bool := now - stored > midExpireDays * 24 * 60 * 60

def recordMid (calls : DbCalls) (now : Int) (mid : Bytes) (db : MidDb) : Int × MidDb :=
  if !calls.create then (-1, db)
  else if !calls.opens then (-1, db)
  else if calls.put then (0, Function.update db mid (some (.time now)))
  else (1, db)

def found : Int := 1
def notFound : Int := 0

/-- `none` where the source exits because the database is corrupt. -/
def checkMid (calls : DbCalls) (now : Int) (mid : Bytes) (db : MidDb) : Option Int × MidDb :=
  if !calls.create then (some (-1), db)
  else if !calls.opens then (some (-1), db)
  else
    match if calls.get then db mid else none with
    | some (.time stored) =>
        if expired now stored then
          (some notFound, if calls.del then Function.update db mid none else db)
        else (some found, db)
    | some .malformed => (none, db)
    | none => (some notFound, db)

/-- The database holds an entry for the identifier that is not out of date. -/
def holds (now : Int) (mid : Bytes) (db : MidDb) : Prop :=
  ∃ stored, db mid = some (.time stored) ∧ expired now stored = false

instance (now : Int) (mid : Bytes) (db : MidDb) : Decidable (holds now mid db) :=
  match entry : db mid with
  | some (.time stored) =>
      if fresh : expired now stored = false then .isTrue ⟨stored, entry, fresh⟩
      else .isFalse fun ⟨_, same, kept⟩ => by
        rw [entry] at same
        cases same
        exact fresh kept
  | some .malformed => .isFalse fun ⟨_, same, _⟩ => by
      rw [entry] at same
      cases same
  | none => .isFalse fun ⟨_, same, _⟩ => by
      rw [entry] at same
      cases same

/-- What one call of `check_mid` can report, and what it leaves in the database. -/
theorem checkMid_cases (calls : DbCalls) (now : Int) (mid : Bytes) (db : MidDb) :
    ((calls.create = false ∨ calls.opens = false) ∧
      checkMid calls now mid db = (some (-1), db)) ∨
    (calls.create = true ∧ calls.opens = true ∧ calls.get = true ∧ holds now mid db ∧
      checkMid calls now mid db = (some found, db)) ∨
    (calls.create = true ∧ calls.opens = true ∧ (calls.get = true → ¬ holds now mid db) ∧
      (∃ after, checkMid calls now mid db = (some notFound, after) ∧
        (after = db ∨ after = Function.update db mid none))) ∨
    (calls.create = true ∧ calls.opens = true ∧ calls.get = true ∧ db mid = some .malformed ∧
      checkMid calls now mid db = (none, db)) := by
  cases create : calls.create with
  | false => simp [checkMid, create]
  | true =>
    cases opens : calls.opens with
    | false => simp [checkMid, create, opens]
    | true =>
      cases get : calls.get with
      | false => simp [checkMid, create, opens, get]
      | true =>
        cases entry : db mid with
        | none => simp [checkMid, create, opens, get, entry, holds]
        | some datum =>
          cases datum with
          | malformed => simp [checkMid, create, opens, get, entry, holds]
          | time stored =>
            cases old : expired now stored with
            | false => simp [checkMid, create, opens, get, entry, holds, old]
            | true =>
              cases del : calls.del <;>
                simp [checkMid, create, opens, get, entry, holds, old, del]

theorem recordMid_succeed (now : Int) (mid : Bytes) (db : MidDb) :
    recordMid .succeed now mid db = (0, Function.update db mid (some (.time now))) := rfl

def callsignMaxLen : Nat := 6

def midchars : Bytes := ascii "ABCDEFGHIJKLMNOPQRSTUVWXYZ0123456789"

/-- The letters in front of the underscore. -/
def midLetters (callsign : Bytes) : Nat := midMaxLen - 1 - callsign.length

/-- What the loop makes of the next calls of `random`, in its round `k`. -/
def midCandidate (random : Nat → Nat) (callsign : Bytes) (k : Nat) : Bytes :=
  (List.range (midLetters callsign)).map (fun i =>
    midchars.getD (random (k * midLetters callsign + i) % 36) 0) ++ 95 :: callsign

/-- The loop from its round `k` on: the first candidate that `check_mid` does not find. -/
def tryMids (calls : DbCalls) (random : Nat → Nat) (callsign : Bytes) (now : Int) (db : MidDb) :
    Nat → Nat → Option (Bytes × MidDb)
  | 0, _ => none
  | fuel + 1, k =>
      let mid := midCandidate random callsign k
      match checkMid calls now mid db with
      | (none, _) => none
      | (some r, db) =>
          if 0 < r then tryMids calls random callsign now db fuel (k + 1)
          else if r < 0 then none
          else some (mid, db)

/-- `random` is given the seed, which is the clock cut to an `unsigned int`, and the
number of the call. -/
def generateMid (fuel : Nat) (calls : DbCalls) (random : Nat → Nat → Nat) (callsign : Bytes)
    (bRecordMid : Bool) (now : Int) (db : MidDb) : Option (Bytes × MidDb) :=
  if callsignMaxLen < callsign.length then none
  else do
    let (mid, db) ← tryMids calls (random (now % 2 ^ 32).toNat) callsign now db fuel 0
    if bRecordMid then some (mid, (recordMid calls now mid db).2) else some (mid, db)

/-- The loop comes to its round `k`. -/
def Reached (random : Nat → Nat) (callsign : Bytes) (now : Int) (db : MidDb) (k : Nat) : Prop :=
  ∀ earlier < k, holds now (midCandidate random callsign earlier) db

theorem checkMid_held {now : Int} {mid : Bytes} {db : MidDb} (held : holds now mid db) :
    checkMid .succeed now mid db = (some found, db) := by
  obtain ⟨stored, entry, fresh⟩ := held
  simp [checkMid, DbCalls.succeed, entry, fresh]

theorem tryMids_some {random : Nat → Nat} {callsign : Bytes} {now : Int} {db after : MidDb}
    {fuel k : Nat} {mid : Bytes} (reached : Reached random callsign now db k)
    (tried : tryMids .succeed random callsign now db fuel k = some (mid, after)) :
    ∃ last, Reached random callsign now db last ∧ mid = midCandidate random callsign last ∧
      ¬ holds now mid db ∧ after = Function.update db mid none := by
  induction fuel generalizing k with
  | zero => cases tried
  | succ fuel ih =>
      rw [tryMids] at tried
      by_cases held : holds now (midCandidate random callsign k) db
      · rw [checkMid_held held] at tried
        refine ih (fun earlier before => ?_) tried
        rcases Nat.lt_succ_iff_lt_or_eq.mp before with before | rfl
        · exact reached earlier before
        · exact held
      · rcases entry : db (midCandidate random callsign k) with _ | stored | _
        · have same : db = Function.update db (midCandidate random callsign k) none := by
            rw [← entry, Function.update_eq_self]
          simp [checkMid, DbCalls.succeed, entry, notFound] at tried
          obtain ⟨rfl, rfl⟩ := tried
          exact ⟨k, reached, rfl, held, same⟩
        · have old : expired now stored = true := by
            by_contra fresh
            exact held ⟨stored, entry, by simpa using fresh⟩
          simp [checkMid, DbCalls.succeed, entry, old, notFound] at tried
          obtain ⟨rfl, rfl⟩ := tried
          exact ⟨k, reached, rfl, held, rfl⟩
        · simp [checkMid, DbCalls.succeed, entry] at tried

theorem generateMid_some {random : Nat → Nat → Nat} {callsign : Bytes} {bRecordMid : Bool}
    {now : Int} {db after : MidDb} {fuel : Nat} {mid : Bytes}
    (generated : generateMid fuel .succeed random callsign bRecordMid now db = some (mid, after)) :
    ∃ last, Reached (random (now % 2 ^ 32).toNat) callsign now db last ∧
      mid = midCandidate (random (now % 2 ^ 32).toNat) callsign last ∧ ¬ holds now mid db ∧
      after = Function.update db mid (if bRecordMid then some (.time now) else none) := by
  rw [generateMid] at generated
  split at generated
  · cases generated
  · simp only [Option.bind_eq_bind, Option.bind_eq_some_iff] at generated
    obtain ⟨⟨tried, middle⟩, loop, rest⟩ := generated
    obtain ⟨last, reached, rfl, fresh, rfl⟩ :=
      tryMids_some (fun earlier before => absurd before (Nat.not_lt_zero _)) loop
    cases bRecordMid with
    | true =>
        simp only [if_true, recordMid_succeed, Option.some.injEq, Prod.mk.injEq,
          Function.update_idem] at rest
        obtain ⟨rfl, rfl⟩ := rest
        exact ⟨last, reached, rfl, fresh, rfl⟩
    | false =>
        simp only [Bool.false_eq_true, if_false, Option.some.injEq, Prod.mk.injEq] at rest
        obtain ⟨rfl, rfl⟩ := rest
        exact ⟨last, reached, rfl, fresh, rfl⟩

theorem midCandidate_cons {callsign : Bytes} (short : callsign.length ≤ callsignMaxLen)
    (random : Nat → Nat) (k : Nat) :
    ∃ char rest, midCandidate random callsign k = char :: rest ∧ char ∈ midchars := by
  have nonempty : ∃ more, midLetters callsign = more + 1 := by
    unfold midLetters midMaxLen
    unfold callsignMaxLen at short
    exact ⟨10 - callsign.length, by omega⟩
  obtain ⟨more, letters⟩ := nonempty
  have picked : ∀ index, index < 36 → midchars.getD index 0 ∈ midchars := by decide +kernel
  rw [midCandidate, letters, List.range_succ_eq_map, List.map_cons]
  exact ⟨_, _, rfl, picked _ (Nat.mod_lt _ (by decide))⟩

theorem midCandidate_chars {callsign : Bytes} (random : Nat → Nat) (k : Nat) :
    ∀ char ∈ midCandidate random callsign k, char ∈ midchars ∨ char = 95 ∨ char ∈ callsign := by
  intro char member
  have picked : ∀ index, index < 36 → midchars.getD index 0 ∈ midchars := by decide +kernel
  rw [midCandidate, List.mem_append, List.mem_cons, List.mem_map] at member
  rcases member with ⟨i, -, rfl⟩ | rest
  · exact .inl (picked _ (Nat.mod_lt _ (by decide)))
  · exact .inr rest

end PaclinkUnix
