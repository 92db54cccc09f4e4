import PaclinkUnix.Library.Memory
import Mathlib.Data.Option.Basic
import Mathlib.Data.Sum.Basic

/-!
Two runs of one program, or of two programs of one shape: either both fail or both end,
with related results. The rules follow the program; a loop needs a relation that its body
keeps.
-/

namespace Memory

variable {α σ σ' ρ ρ' : Type}

theorem rel_bind (related : σ → σ' → Prop) {result : ρ → ρ' → Prop} {first : Option σ}
    {other : Option σ'} {rest : σ → Option ρ} {otherRest : σ' → Option ρ'}
    (begins : Option.Rel related first other)
    (goesOn : ∀ state state', related state state' →
      Option.Rel result (rest state) (otherRest state')) :
    Option.Rel result (first.bind rest) (other.bind otherRest) := by
  cases begins with
  | none => exact .none
  | some same => exact goesOn _ _ same

theorem rel_mono {related weaker : σ → σ' → Prop} {first : Option σ} {other : Option σ'}
    (runs : Option.Rel related first other)
    (weaken : ∀ state state', related state state' → weaker state state') :
    Option.Rel weaker first other := by
  cases runs with
  | none => exact .none
  | some same => exact .some (weaken _ _ same)

theorem rel_eq {first other : Option σ} (runs : Option.Rel Eq first other) : first = other := by
  cases runs with
  | none => rfl
  | some same => exact congrArg some same

theorem rel_some {related : σ → σ' → Prop} {first : Option σ} {other : Option σ'} {state : σ}
    (runs : Option.Rel related first other) (ends : first = some state) :
    ∃ state', other = some state' ∧ related state state' := by
  subst ends
  cases runs with
  | some same => exact ⟨_, rfl, same⟩

theorem rel_read {result : ρ → ρ' → Prop} {value same : Option α}
    {rest : α → Option ρ} {otherRest : α → Option ρ'} (reads : value = same)
    (goesOn : ∀ x, Option.Rel result (rest x) (otherRest x)) :
    Option.Rel result (value.bind rest) (same.bind otherRest) := by
  subst reads
  cases value with
  | none => exact .none
  | some x => exact goesOn x

theorem rel_keep {related : σ → σ' → Prop} {first : Option σ} {other : Option σ'} {kept : σ → Prop}
    (runs : Option.Rel related first other) (keeps : ∀ state, first = some state → kept state) :
    Option.Rel (fun state state' => related state state' ∧ kept state) first other := by
  cases runs with
  | none => exact .none
  | some same => exact .some ⟨same, keeps _ rfl⟩

theorem rel_value {result : ρ → ρ' → Prop} {value same : Option α}
    {rest : α → Option ρ} {otherRest : α → Option ρ'} (reads : value = same)
    (goesOn : ∀ x, value = some x → Option.Rel result (rest x) (otherRest x)) :
    Option.Rel result (value.bind rest) (same.bind otherRest) := by
  subst reads
  cases value with
  | none => exact .none
  | some x => exact goesOn x rfl

theorem iterate_rel (related : σ → σ' → Prop) {result : ρ → ρ' → Prop}
    {body : σ → Option (σ ⊕ ρ)} {otherBody : σ' → Option (σ' ⊕ ρ')}
    (round : ∀ state state', related state state' →
      Option.Rel (Sum.LiftRel related result) (body state) (otherBody state'))
    (fuel : Nat) {state : σ} {state' : σ'} (start : related state state') :
    Option.Rel result (iterate body fuel state) (iterate otherBody fuel state') := by
  induction fuel generalizing state state' with
  | zero => exact .none
  | succ fuel ih =>
      refine rel_bind _ (round state state' start) ?_
      rintro _ _ (again | done)
      · exact ih again
      · exact .some done

theorem forRange_rel (related : Nat → σ → σ' → Prop) {body : Nat → σ → Option σ}
    {otherBody : Nat → σ' → Option σ'} {count : Nat}
    (round : ∀ i state state', i < count → related i state state' →
      Option.Rel (related (i + 1)) (body i state) (otherBody i state'))
    {state : σ} {state' : σ'} (start : related 0 state state') :
    Option.Rel (related count) (forRange count body state) (forRange count otherBody state') := by
  induction count with
  | zero => exact .some start
  | succ count ih =>
      rw [forRange_succ, forRange_succ]
      refine rel_bind _ (ih fun i state state' inside => round i state state' (by omega)) ?_
      exact fun state state' same => round count state state' (by omega) same

def Agree (size : Nat) (cells other : Nat → α) : Prop := ∀ i < size, cells i = other i

section Tables

variable {size i start count : Nat} {cells other : Nat → α}

theorem Agree.refl (cells : Nat → α) : Agree size cells cells := fun _ _ => rfl

theorem Agree.load (agree : Agree size cells other) (i : Nat) :
    load size cells i = load size other i := by
  unfold Memory.load
  split
  · exact congrArg some (agree i ‹_›)
  · rfl

theorem Agree.put (agree : Agree size cells other) (i : Nat) (value : α) :
    Agree size (put cells i value) (put other i value) := by
  intro j inside
  simp only [put_apply]
  split
  · rfl
  · exact agree j inside

theorem Agree.extend (agree : Agree size cells other) (value : α) :
    Agree (size + 1) (Memory.put cells size value) (Memory.put other size value) := by
  intro j inside
  simp only [put_apply]
  split
  · rfl
  · exact agree j (by omega)

theorem Agree.store (agree : Agree size cells other) (i : Nat) (value : α) :
    Option.Rel (Agree size) (store size cells i value) (store size other i value) := by
  unfold Memory.store
  split
  · exact .some (agree.put i value)
  · exact .none

theorem Agree.moveUp (agree : Agree size cells other) (start count : Nat) :
    Option.Rel (Agree size) (moveUp size cells start count) (moveUp size other start count) := by
  unfold Memory.moveUp
  split
  · refine .some fun i inside => ?_
    unfold shift
    split
    · exact agree (i - 1) (by omega)
    · exact agree i inside
  · exact .none

end Tables

end Memory
