import PaclinkUnix.Library.Program

/-!
Safety properties of a trace, checked event by event: a monitor keeps a state that
every event updates, and says which events are allowed in it.
-/

namespace Effects

variable {σ ε : Type}

structure Monitor (σ ε : Type) where
  start : σ
  step : σ → ε → σ
  allowed : σ → ε → Prop

namespace Monitor

def state (monitor : Monitor σ ε) (trace : List ε) : σ := trace.foldl monitor.step monitor.start

@[simp] theorem state_nil (monitor : Monitor σ ε) : monitor.state [] = monitor.start := rfl

@[simp] theorem state_snoc (monitor : Monitor σ ε) (trace : List ε) (event : ε) :
    monitor.state (trace ++ [event]) = monitor.step (monitor.state trace) event := by
  simp [state]

theorem state_append (monitor : Monitor σ ε) (first second : List ε) :
    monitor.state (first ++ second) = second.foldl monitor.step (monitor.state first) := by
  simp [state]

def AcceptsFrom (monitor : Monitor σ ε) : σ → List ε → Prop
  | _, [] => True
  | state, event :: rest =>
      monitor.allowed state event ∧ monitor.AcceptsFrom (monitor.step state event) rest

def Accepts (monitor : Monitor σ ε) (trace : List ε) : Prop :=
  monitor.AcceptsFrom monitor.start trace

theorem acceptsFrom_append (monitor : Monitor σ ε) (start : σ) (first second : List ε) :
    monitor.AcceptsFrom start (first ++ second) ↔
      monitor.AcceptsFrom start first ∧
        monitor.AcceptsFrom (first.foldl monitor.step start) second := by
  induction first generalizing start with
  | nil => simp [AcceptsFrom]
  | cons event rest ih => simp [AcceptsFrom, ih, and_assoc]

@[simp] theorem accepts_nil (monitor : Monitor σ ε) : monitor.Accepts [] := trivial

@[simp] theorem accepts_snoc (monitor : Monitor σ ε) (trace : List ε) (event : ε) :
    monitor.Accepts (trace ++ [event]) ↔
      monitor.Accepts trace ∧ monitor.allowed (monitor.state trace) event := by
  simp [Accepts, acceptsFrom_append, AcceptsFrom, state]

theorem Accepts.of_prefix {monitor : Monitor σ ε} {earlier later : List ε}
    (accepted : monitor.Accepts later) (start : earlier <+: later) : monitor.Accepts earlier := by
  obtain ⟨rest, rfl⟩ := start
  exact ((acceptsFrom_append monitor _ earlier rest).mp accepted).1

instance {monitor : Monitor σ ε} [decided : ∀ state event, Decidable (monitor.allowed state event)]
    (trace : List ε) : Decidable (monitor.Accepts trace) := by
  unfold Accepts
  generalize monitor.start = start
  induction trace generalizing start with
  | nil => exact .isTrue trivial
  | cons event rest ih =>
      have := ih (monitor.step start event)
      unfold AcceptsFrom
      exact inferInstance

end Monitor

end Effects
