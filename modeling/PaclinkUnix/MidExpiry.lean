import PaclinkUnix.Mid

/-!
`expire_mids`, and what the entries that it and `check_mid` delete mean to those who ask.
-/

namespace PaclinkUnix

/-- An entry that the cursor comes to, when it does, and whether it can be deleted. -/
structure Visit where
  mid : Bytes
  now : Int
  del : Bool

/-- How the database library answers `expire_mids`; `ends` where the cursor stops behind the
last entry. -/
structure Sweep where
  create : Bool
  opens : Bool
  visits : List Visit
  ends : Bool

/-- `none` where the source exits because the database is corrupt. -/
def expireEntries (ends : Bool) : List Visit → MidDb → Option Int × MidDb
  | [], db => (if ends then some 0 else none, db)
  | visit :: visits, db =>
      match db visit.mid with
      | some (.time stored) =>
          if expired visit.now stored ∧ visit.del then
            expireEntries ends visits (Function.update db visit.mid none)
          else expireEntries ends visits db
      | some .malformed => (none, db)
      | none => expireEntries ends visits db

def expireMids (sweep : Sweep) (db : MidDb) : Option Int × MidDb :=
  if !sweep.create then (some (-1), db)
  else if !sweep.opens then (some (-1), db)
  else expireEntries sweep.ends sweep.visits db

inductive MidOp where
  | record (calls : DbCalls) (mid : Bytes)
  | check (calls : DbCalls) (mid : Bytes)
  | expire (sweep : Sweep)

namespace MidOp

def perform (now : Int) : MidOp → MidDb → Option Int × MidDb
  | record calls mid, db => (some (recordMid calls now mid db).1, (recordMid calls now mid db).2)
  | check calls mid, db => checkMid calls now mid db
  | expire sweep, db => expireMids sweep db

/-- The same with a database that never deletes anything. -/
def remember (now : Int) : MidOp → MidDb → Option Int × MidDb
  | record calls mid, db => (some (recordMid calls now mid db).1, (recordMid calls now mid db).2)
  | check calls mid, db => ((checkMid calls now mid db).1, db)
  | expire _, db => (none, db)

def answered : MidOp → Bool
  | expire _ => false
  | _ => true

/-- Entries are visited before the operation is over. -/
def By (now : Int) : MidOp → Prop
  | expire sweep => ∀ visit ∈ sweep.visits, visit.now ≤ now
  | _ => True

end MidOp

/-- What those who record and check are told in a run. -/
def answersOf (step : Int → MidOp → MidDb → Option Int × MidDb) :
    List (Int × MidOp) → MidDb → List (Option Int)
  | [], _ => []
  | (now, op) :: ops, db =>
      let (result, after) := step now op db
      if op.answered then result :: answersOf step ops after else answersOf step ops after

/-- The clock does not go back. -/
def Timed : Int → List (Int × MidOp) → Prop
  | _, [] => True
  | clock, (now, op) :: ops => clock ≤ now ∧ op.By now ∧ Timed now ops

/-- Nothing is gone that is not out of date. -/
def Faded (now : Int) (db full : MidDb) : Prop :=
  ∀ mid, db mid = full mid ∨
    db mid = none ∧ ∃ stored, full mid = some (.time stored) ∧ expired now stored = true

section Fading

variable {now after : Int} {db full : MidDb} {mid : Bytes}

theorem expired_onward {stored : Int} (old : expired now stored = true)
    (onward : now ≤ after) : expired after stored = true := by
  simp only [expired, decide_eq_true_eq] at old ⊢
  omega

theorem Faded.later (faded : Faded now db full) (onward : now ≤ after) : Faded after db full :=
  fun mid => (faded mid).imp_right fun ⟨gone, stored, entry, old⟩ =>
    ⟨gone, stored, entry, expired_onward old onward⟩

theorem Faded.update (faded : Faded now db full) (entry : Option Datum) :
    Faded now (Function.update db mid entry) (Function.update full mid entry) := by
  intro other
  by_cases same : other = mid
  · rw [same, Function.update_self, Function.update_self]
    exact .inl rfl
  · rw [Function.update_of_ne same, Function.update_of_ne same]
    exact faded other

theorem Faded.delete (faded : Faded now db full) {stored : Int}
    (entry : db mid = some (.time stored)) (old : expired now stored = true) :
    Faded now (Function.update db mid none) full := by
  intro other
  by_cases same : other = mid
  · rw [same, Function.update_self]
    rcases faded mid with whole | ⟨gone, -⟩
    · exact .inr ⟨rfl, stored, whole ▸ entry, old⟩
    · rw [entry] at gone
      cases gone
  · rw [Function.update_of_ne same]
    exact faded other

theorem faded_record (faded : Faded now db full) (calls : DbCalls) :
    (recordMid calls now mid db).1 = (recordMid calls now mid full).1 ∧
      Faded now (recordMid calls now mid db).2 (recordMid calls now mid full).2 := by
  unfold recordMid
  split
  · exact ⟨rfl, faded⟩
  · split
    · exact ⟨rfl, faded⟩
    · split
      · exact ⟨rfl, faded.update _⟩
      · exact ⟨rfl, faded⟩

theorem faded_check (faded : Faded now db full) (calls : DbCalls) :
    (checkMid calls now mid db).1 = (checkMid calls now mid full).1 ∧
      Faded now (checkMid calls now mid db).2 full := by
  unfold checkMid
  split
  · exact ⟨rfl, faded⟩
  split
  · exact ⟨rfl, faded⟩
  by_cases got : calls.get = true
  · simp only [got, if_true]
    rcases faded mid with same | ⟨gone, stored, entry, old⟩
    · rw [← same]
      rcases entry : db mid with _ | stored | _
      · exact ⟨rfl, faded⟩
      · by_cases old : expired now stored = true
        · simp only [old, if_true]
          split
          · exact ⟨trivial, faded.delete entry old⟩
          · exact ⟨trivial, faded⟩
        · simp only [old]
          exact ⟨rfl, faded⟩
      · exact ⟨rfl, faded⟩
    · rw [gone, entry]
      simp only [old, if_true]
      exact ⟨trivial, faded⟩
  · simp only [got]
    exact ⟨rfl, faded⟩

theorem faded_expire (faded : Faded now db full) {visits : List Visit}
    (before : ∀ visit ∈ visits, visit.now ≤ now) (ends : Bool) :
    Faded now (expireEntries ends visits db).2 full := by
  induction visits generalizing db with
  | nil => exact faded
  | cons visit visits ih =>
      have rest := fun other member => before other (List.mem_cons_of_mem visit member)
      rw [expireEntries]
      split
      · rename_i stored entry
        split
        · rename_i deleted
          have old := expired_onward deleted.1 (before visit List.mem_cons_self)
          exact ih (faded.delete entry old) rest
        · exact ih faded rest
      · exact faded
      · exact ih faded rest

theorem faded_perform (faded : Faded now db full) {op : MidOp} (timed : op.By now) :
    (op.answered = true → (op.perform now db).1 = (op.remember now full).1) ∧
      Faded now (op.perform now db).2 (op.remember now full).2 := by
  cases op with
  | record calls mid =>
      obtain ⟨same, kept⟩ := @faded_record now db full mid faded calls
      exact ⟨fun _ => congrArg some same, kept⟩
  | check calls mid =>
      obtain ⟨same, kept⟩ := @faded_check now db full mid faded calls
      exact ⟨fun _ => same, kept⟩
  | expire sweep =>
      refine ⟨fun answered => absurd answered Bool.false_ne_true, ?_⟩
      rw [MidOp.perform, expireMids]
      split
      · exact faded
      · split
        · exact faded
        · exact faded_expire faded timed sweep.ends

end Fading

theorem answers_faded {clock : Int} {ops : List (Int × MidOp)} {db full : MidDb}
    (timed : Timed clock ops) (faded : Faded clock db full) :
    answersOf MidOp.perform ops db = answersOf MidOp.remember ops full := by
  induction ops generalizing clock db full with
  | nil => rfl
  | cons entry ops ih =>
      obtain ⟨now, op⟩ := entry
      obtain ⟨onward, visited, timed⟩ := timed
      obtain ⟨same, kept⟩ := faded_perform (faded.later onward) visited
      have rest := ih timed kept
      rw [answersOf, answersOf]
      simp only
      split
      · rename_i answered
        rw [same answered, rest]
      · exact rest

/-- Whatever `check_mid` and `expire_mids` delete, and whatever of it fails, in every run
every call is answered as by a database that never deletes anything. -/
theorem expiry_unobserved {clock : Int} {ops : List (Int × MidOp)} (timed : Timed clock ops)
    (db : MidDb) : answersOf MidOp.perform ops db = answersOf MidOp.remember ops db :=
  answers_faded timed fun _ => .inl rfl

def sampleSweep (now : Int) : Sweep :=
  ⟨true, true, [⟨ascii "ABCDE_N0CALL", now, true⟩], true⟩

def sampleOps : List (Int × MidOp) :=
  [(0, .record .succeed (ascii "ABCDE_N0CALL")), (9, .check .succeed (ascii "ABCDE_N0CALL")),
    (3000000, .expire (sampleSweep 2999999)), (3000001, .check .succeed (ascii "ABCDE_N0CALL"))]

theorem sampleOps_timed : Timed 0 sampleOps :=
  ⟨by decide, trivial, by decide, trivial, by decide,
    fun visit member => List.mem_singleton.mp member ▸ (by decide), by decide, trivial, trivial⟩

theorem expiry_unobserved_sample :
    answersOf MidOp.perform sampleOps (fun _ => none) = [some 0, some 1, some 0] :=
  (expiry_unobserved sampleOps_timed _).trans (by decide +kernel)

end PaclinkUnix
