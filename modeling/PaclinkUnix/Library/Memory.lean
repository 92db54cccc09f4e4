import Mathlib.Data.List.Basic

/-!
Tables of fixed size and loops: reading or writing outside a table fails, and so does
a loop that does not end within its fuel. The rules turn an invariant and a bound on the
number of rounds into the fact that a loop ends without failing.
-/

namespace Memory

variable {α σ ρ : Type}

def load (size : Nat) (cells : Nat → α) (i : Nat) : Option α :=
  if i < size then some (cells i) else none

def put (cells : Nat → α) (i : Nat) (value : α) : Nat → α :=
  fun j => if j = i then value else cells j

def store (size : Nat) (cells : Nat → α) (i : Nat) (value : α) : Option (Nat → α) :=
  if i < size then some (put cells i value) else none

/-- Move `count` cells from `start` on up by one. -/
def shift (cells : Nat → α) (start count : Nat) : Nat → α :=
  fun j => if start < j ∧ j ≤ start + count then cells (j - 1) else cells j

def moveUp (size : Nat) (cells : Nat → α) (start count : Nat) : Option (Nat → α) :=
  if start + count < size then some (shift cells start count) else none

variable {size i j start count : Nat} {cells : Nat → α} {value : α}

@[simp] theorem load_some (inside : i < size) : load size cells i = some (cells i) :=
  if_pos inside

@[simp] theorem store_some (inside : i < size) : store size cells i value = some (put cells i value) :=
  if_pos inside

@[simp] theorem moveUp_some (inside : start + count < size) :
    moveUp size cells start count = some (shift cells start count) :=
  if_pos inside

@[simp] theorem put_same : put cells i value i = value := if_pos rfl

@[simp] theorem put_other (other : j ≠ i) : put cells i value j = cells j := if_neg other

theorem put_apply : put cells i value j = if j = i then value else cells j := rfl

theorem put_here (same : cells i = value) : put cells i value = cells := by
  funext k
  rw [put_apply]
  split
  · rename_i here
    rw [here, same]
  · rfl

theorem load_value {found : α} (reads : load size cells i = some found) : found = cells i := by
  unfold load at reads
  split at reads
  · exact (Option.some.inj reads).symm
  · cases reads

theorem load_congr {others : Nat → α} (same : cells i = others i) :
    load size cells i = load size others i := by
  rw [load, load, same]

theorem store_value {stored : Nat → α} (stores : store size cells i value = some stored) :
    stored = put cells i value := by
  unfold store at stores
  split at stores
  · exact (Option.some.inj stores).symm
  · cases stores

theorem put_congr {others : Nat → α} (same : cells j = others j) :
    put cells i value j = put others i value j := by
  rw [put_apply, put_apply, same]

theorem shift_below (below : j ≤ start) : shift cells start count j = cells j :=
  if_neg fun inside => absurd inside.1 (Nat.not_lt.mpr below)

theorem shift_moved (above : start < j) (inside : j ≤ start + count) :
    shift cells start count j = cells (j - 1) :=
  if_pos ⟨above, inside⟩

/-- Repeat a body until it gives a result. -/
def iterate (body : σ → Option (σ ⊕ ρ)) : Nat → σ → Option ρ
  | 0, _ => none
  | fuel + 1, state => do
      match ← body state with
      | .inl next => iterate body fuel next
      | .inr result => some result

theorem iterate_total (invariant : Nat → σ → Prop) {body : σ → Option (σ ⊕ ρ)} {post : ρ → Prop}
    (round : ∀ left state, invariant left state →
      (∃ next, body state = some (.inl next) ∧ ∃ fewer, fewer < left ∧ invariant fewer next) ∨
        ∃ result, body state = some (.inr result) ∧ post result)
    {fuel : Nat} (left : Nat) (enough : left < fuel) {state : σ} (start : invariant left state) :
    ∃ result, iterate body fuel state = some result ∧ post result := by
  induction fuel generalizing left state with
  | zero => exact absurd enough (Nat.not_lt_zero _)
  | succ fuel ih =>
      rcases round left state start with ⟨next, again, fewer, less, kept⟩ | ⟨result, done, holds⟩
      · obtain ⟨result, found, holds⟩ :=
          ih fewer (Nat.lt_of_lt_of_le less (Nat.le_of_lt_succ enough)) kept
        exact ⟨result, by simp [iterate, again, found], holds⟩
      · exact ⟨result, by simp [iterate, done], holds⟩

theorem iterate_some (invariant : σ → Prop) (post : ρ → Prop) {body : σ → Option (σ ⊕ ρ)}
    (again : ∀ state next, invariant state → body state = some (.inl next) → invariant next)
    (done : ∀ state result, invariant state → body state = some (.inr result) → post result)
    {fuel : Nat} {state : σ} {result : ρ} (start : invariant state)
    (runs : iterate body fuel state = some result) : post result := by
  induction fuel generalizing state with
  | zero => cases runs
  | succ fuel ih =>
      simp only [iterate, Option.bind_eq_bind, Option.bind_eq_some_iff] at runs
      obtain ⟨next | last, steps, runs⟩ := runs
      · exact ih (again state next start steps) runs
      · obtain rfl := Option.some.inj runs
        exact done state last start steps

def forRange (count : Nat) (body : Nat → σ → Option σ) (state : σ) : Option σ :=
  (List.range count).foldlM (fun state i => body i state) state

theorem forRange_succ (count : Nat) (body : Nat → σ → Option σ) (state : σ) :
    forRange (count + 1) body state = (forRange count body state).bind (body count) := by
  rw [forRange, List.range_succ, List.foldlM_append]
  simp [forRange]

theorem forRange_front (count : Nat) (body : Nat → σ → Option σ) (state : σ) :
    forRange (count + 1) body state =
      (body 0 state).bind (forRange count fun i => body (i + 1)) := by
  rw [forRange, List.range_succ_eq_map, List.foldlM_cons]
  simp only [List.foldlM_map, Option.bind_eq_bind]
  rfl

theorem forRange_some (invariant : σ → Prop) {body : Nat → σ → Option σ} {count : Nat}
    (again : ∀ i state next, invariant state → body i state = some next → invariant next)
    {state last : σ} (start : invariant state) (runs : forRange count body state = some last) :
    invariant last := by
  induction count generalizing last with
  | zero =>
      obtain rfl := Option.some.inj runs
      exact start
  | succ count ih =>
      rw [forRange_succ, Option.bind_eq_some_iff] at runs
      obtain ⟨middle, ran, stepped⟩ := runs
      exact again count middle last (ih ran) stepped

theorem forRange_total (invariant : Nat → σ → Prop) {body : Nat → σ → Option σ} {count : Nat}
    (round : ∀ i state, i < count → invariant i state →
      ∃ next, body i state = some next ∧ invariant (i + 1) next)
    {state : σ} (start : invariant 0 state) :
    ∃ result, forRange count body state = some result ∧ invariant count result := by
  induction count with
  | zero => exact ⟨state, rfl, start⟩
  | succ count ih =>
      obtain ⟨middle, ran, kept⟩ := ih fun i state bound holds => round i state (by omega) holds
      obtain ⟨last, stepped, holds⟩ := round count middle (by omega) kept
      exact ⟨last, by rw [forRange_succ, ran]; exact stepped, holds⟩

end Memory
