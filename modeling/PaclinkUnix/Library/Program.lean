import Mathlib.Data.List.Basic

/-!
Programs that act on the outside world only through named operations. A program
is a finite tree of calls; a handler gives every operation its answer and its
effect on a state, or stops the run (`none`, with the state reached so far). The
file has the run function, the rules of pre- and postconditions, and the fact that
feeding more input to a stable handler only extends what a program does.
-/

namespace Effects

inductive Program (Op : Type) (Answer : Op → Type) (α : Type) : Type where
  | ret (value : α)
  | call (op : Op) (next : Answer op → Program Op Answer α)

namespace Program

variable {Op : Type} {Answer : Op → Type} {α β σ ι ε : Type}

def bind : Program Op Answer α → (α → Program Op Answer β) → Program Op Answer β
  | ret value, rest => rest value
  | call op next, rest => call op fun answer => bind (next answer) rest

instance : Monad (Program Op Answer) where
  pure := ret
  bind := bind

def perform (op : Op) : Program Op Answer (Answer op) := call op ret

@[simp] theorem pure_eq_ret (value : α) :
    (pure value : Program Op Answer α) = ret value := rfl

@[simp] theorem ret_bind (value : α) (rest : α → Program Op Answer β) :
    (ret value >>= rest) = rest value := rfl

@[simp] theorem call_bind (op : Op) (next : Answer op → Program Op Answer α)
    (rest : α → Program Op Answer β) :
    (call op next >>= rest) = call op fun answer => next answer >>= rest := rfl

@[simp] theorem perform_bind (op : Op) (rest : Answer op → Program Op Answer β) :
    (perform op >>= rest) = call op rest := rfl

theorem bind_assoc {γ : Type} (first : Program Op Answer α) (second : α → Program Op Answer β)
    (third : β → Program Op Answer γ) :
    first >>= second >>= third = first >>= fun value => second value >>= third := by
  induction first with
  | ret value => rfl
  | call op next ih => exact congrArg (call op) (funext ih)

abbrev Handler (Op : Type) (Answer : Op → Type) (σ : Type) : Type :=
  (op : Op) → σ → Option (Answer op) × σ

def run (handler : Handler Op Answer σ) : Program Op Answer α → σ → Option α × σ
  | ret value, state => (some value, state)
  | call op next, state =>
      match handler op state with
      | (some answer, after) => run handler (next answer) after
      | (none, after) => (none, after)

@[simp] theorem run_ret (handler : Handler Op Answer σ) (value : α) (state : σ) :
    run handler (ret value) state = (some value, state) := rfl

theorem run_call (handler : Handler Op Answer σ) (op : Op)
    (next : Answer op → Program Op Answer α) (state : σ) :
    run handler (call op next) state =
      match handler op state with
      | (some answer, after) => run handler (next answer) after
      | (none, after) => (none, after) := by
  rw [run]

theorem run_call_some {handler : Handler Op Answer σ} {op : Op}
    {next : Answer op → Program Op Answer α} {state after : σ} {answer : Answer op}
    (answered : handler op state = (some answer, after)) :
    run handler (call op next) state = run handler (next answer) after := by
  rw [run_call, answered]

theorem run_call_none {handler : Handler Op Answer σ} {op : Op}
    {next : Answer op → Program Op Answer α} {state after : σ}
    (stopped : handler op state = (none, after)) :
    run handler (call op next) state = (none, after) := by
  rw [run_call, stopped]

theorem run_bind (handler : Handler Op Answer σ) (program : Program Op Answer α)
    (rest : α → Program Op Answer β) (state : σ) :
    run handler (program >>= rest) state =
      match run handler program state with
      | (some value, after) => run handler (rest value) after
      | (none, after) => (none, after) := by
  induction program generalizing state with
  | ret value => rfl
  | call op next ih =>
      simp only [call_bind, run_call]
      rcases handler op state with ⟨answer, after⟩
      cases answer with
      | none => rfl
      | some answer => exact ih answer after

theorem run_bind_some {handler : Handler Op Answer σ} {program : Program Op Answer α}
    {rest : α → Program Op Answer β} {state after : σ} {value : α}
    (returned : run handler program state = (some value, after)) :
    run handler (program >>= rest) state = run handler (rest value) after := by
  rw [run_bind, returned]

theorem run_bind_none {handler : Handler Op Answer σ} {program : Program Op Answer α}
    {rest : α → Program Op Answer β} {state after : σ}
    (stopped : run handler program state = (none, after)) :
    run handler (program >>= rest) state = (none, after) := by
  rw [run_bind, stopped]

def Ends (handler : Handler Op Answer σ) (program : Program Op Answer α)
    (returned : α → σ → Prop) (halted : σ → Prop) (state : σ) : Prop :=
  match run handler program state with
  | (some value, after) => returned value after
  | (none, after) => halted after

section Rules

variable {handler : Handler Op Answer σ} {returned returned' : α → σ → Prop}
  {halted halted' : σ → Prop} {state : σ}

@[simp] theorem ends_ret {value : α} :
    Ends handler (ret value) returned halted state ↔ returned value state := Iff.rfl

theorem ends_call {op : Op} {next : Answer op → Program Op Answer α} :
    Ends handler (call op next) returned halted state ↔
      match handler op state with
      | (some answer, after) => Ends handler (next answer) returned halted after
      | (none, after) => halted after := by
  simp only [Ends, run_call]
  rcases handler op state with ⟨answer, after⟩
  cases answer <;> rfl

theorem ends_bind {program : Program Op Answer α} {rest : α → Program Op Answer β}
    {returned : β → σ → Prop} :
    Ends handler (program >>= rest) returned halted state ↔
      Ends handler program (fun value => Ends handler (rest value) returned halted)
        halted state := by
  simp only [Ends, run_bind]
  rcases run handler program state with ⟨value, after⟩
  cases value <;> rfl

theorem Ends.mono {program : Program Op Answer α}
    (ends : Ends handler program returned halted state)
    (weaker : ∀ value after, returned value after → returned' value after)
    (weakerHalt : ∀ after, halted after → halted' after) :
    Ends handler program returned' halted' state := by
  simp only [Ends] at ends ⊢
  rcases found : run handler program state with ⟨value, after⟩
  rw [found] at ends
  cases value with
  | none => exact weakerHalt after ends
  | some value => exact weaker value after ends

theorem Ends.and {program : Program Op Answer α}
    (first : Ends handler program returned halted state)
    (second : Ends handler program returned' halted' state) :
    Ends handler program (fun value after => returned value after ∧ returned' value after)
      (fun after => halted after ∧ halted' after) state := by
  simp only [Ends] at first second ⊢
  rcases found : run handler program state with ⟨value, after⟩
  rw [found] at first second
  cases value <;> exact ⟨first, second⟩

theorem ends_true {program : Program Op Answer α} :
    Ends handler program (fun _ _ => True) (fun _ => True) state := by
  simp only [Ends]
  split <;> trivial

theorem Ends.bind {program : Program Op Answer α} {rest : α → Program Op Answer β}
    {middle : α → σ → Prop} {returned : β → σ → Prop}
    (first : Ends handler program middle halted state)
    (second : ∀ value after, middle value after →
      Ends handler (rest value) returned halted after) :
    Ends handler (program >>= rest) returned halted state :=
  ends_bind.mpr (first.mono second fun _ holds => holds)

theorem ends_invariant {kept : σ → Prop}
    (keeps : ∀ op before, kept before → kept (handler op before).2)
    (program : Program Op Answer α) (initially : kept state) :
    Ends handler program (fun _ => kept) kept state := by
  induction program generalizing state with
  | ret value => exact initially
  | call op next ih =>
      have after := keeps op state initially
      rw [ends_call]
      rcases found : handler op state with ⟨answer, next⟩
      rw [found] at after
      cases answer with
      | none => exact after
      | some answer => exact ih answer after

theorem run_invariant (kept : σ → Prop)
    (keeps : ∀ op before, kept before → kept (handler op before).2)
    (program : Program Op Answer α) (initially : kept state) :
    kept (run handler program state).2 := by
  have ends := ends_invariant keeps program initially
  simp only [Ends] at ends
  rcases found : run handler program state with ⟨value, after⟩
  rw [found] at ends
  cases value <;> exact ends

end Rules

def Performs (allowed : Op → Prop) : Program Op Answer α → Prop
  | ret _ => True
  | call op next => allowed op ∧ ∀ answer, Performs allowed (next answer)

section Performs

variable {allowed : Op → Prop}

@[simp] theorem performs_ret (value : α) :
    Performs allowed (ret value : Program Op Answer α) := trivial

@[simp] theorem performs_call {op : Op} {next : Answer op → Program Op Answer α} :
    Performs allowed (call op next) ↔ allowed op ∧ ∀ answer, Performs allowed (next answer) :=
  Iff.rfl

theorem Performs.bind {program : Program Op Answer α} {rest : α → Program Op Answer β}
    (first : Performs allowed program) (second : ∀ value, Performs allowed (rest value)) :
    Performs allowed (program >>= rest) := by
  induction program with
  | ret value => exact second value
  | call op next ih => exact ⟨first.1, fun answer => ih answer (first.2 answer)⟩

theorem Performs.mono {wider : Op → Prop} {program : Program Op Answer α}
    (performs : Performs allowed program) (included : ∀ op, allowed op → wider op) :
    Performs wider program := by
  induction program with
  | ret value => trivial
  | call op next ih => exact ⟨included op performs.1, fun answer => ih answer (performs.2 answer)⟩

theorem Performs.ends {handler : Handler Op Answer σ} {kept : σ → Prop} {state : σ}
    {program : Program Op Answer α} (performs : Performs allowed program)
    (keeps : ∀ op before, allowed op → kept before → kept (handler op before).2)
    (initially : kept state) : Ends handler program (fun _ => kept) kept state := by
  induction program generalizing state with
  | ret value => exact initially
  | call op next ih =>
      have after := keeps op state performs.1 initially
      rw [ends_call]
      rcases found : handler op state with ⟨answer, next⟩
      rw [found] at after
      cases answer with
      | none => exact after
      | some answer => exact ih answer (performs.2 answer) after

end Performs

def calls (handler : Handler Op Answer σ) :
    Program Op Answer α → σ → List ((op : Op) × Option (Answer op))
  | ret _, _ => []
  | call op next, state =>
      match handler op state with
      | (some answer, after) => ⟨op, some answer⟩ :: calls handler (next answer) after
      | (none, _) => [⟨op, none⟩]

section Calls

variable {handler : Handler Op Answer σ} {state after : σ}

theorem calls_some {op : Op} {next : Answer op → Program Op Answer α} {answer : Answer op}
    (answered : handler op state = (some answer, after)) :
    calls handler (call op next) state =
      ⟨op, some answer⟩ :: calls handler (next answer) after := by
  rw [calls, answered]

theorem calls_none {op : Op} {next : Answer op → Program Op Answer α}
    (stopped : handler op state = (none, after)) :
    calls handler (call op next) state = [⟨op, none⟩] := by
  rw [calls, stopped]

theorem calls_bind (handler : Handler Op Answer σ) (program : Program Op Answer α)
    (rest : α → Program Op Answer β) (state : σ) :
    calls handler (program >>= rest) state = calls handler program state ++
      match run handler program state with
      | (some value, after) => calls handler (rest value) after
      | (none, _) => [] := by
  induction program generalizing state with
  | ret value => rfl
  | call op next ih =>
      rw [call_bind]
      rcases handled : handler op state with ⟨answer, after⟩
      cases answer with
      | none => rw [calls_none handled, calls_none handled, run_call_none handled, List.append_nil]
      | some answer =>
          rw [calls_some handled, calls_some handled, run_call_some handled, ih answer after]
          rfl

theorem Performs.calls {allowed : Op → Prop} {program : Program Op Answer α}
    (performs : Performs allowed program) (handler : Handler Op Answer σ) (state : σ) :
    ∀ made ∈ program.calls handler state, allowed made.1 := by
  induction program generalizing state with
  | ret value => simp [Program.calls]
  | call op next ih =>
      rcases handled : handler op state with ⟨answer, after⟩
      cases answer with
      | none =>
          rw [calls_none handled]
          simpa using performs.1
      | some answer =>
          rw [calls_some handled]
          intro made member
          rcases List.mem_cons.mp member with rfl | later
          · exact performs.1
          · exact ih answer (performs.2 answer) after made later

end Calls

/-! More input never changes what was already done: `feed` gives a state more
input, answers do not depend on input that was not needed, and a run that stopped
without it may only go on from there. -/

structure Stable (handler : Handler Op Answer σ) (feed : List ι → σ → σ)
    (trace : σ → List ε) : Prop where
  grows : ∀ op state, trace state <+: trace (handler op state).2
  feed_trace : ∀ more state, trace (feed more state) = trace state
  answered : ∀ op state answer after more, handler op state = (some answer, after) →
    handler op (feed more state) = (some answer, feed more after)
  stopped : ∀ op state after more, handler op state = (none, after) →
    trace after <+: trace (handler op (feed more state)).2

theorem Stable.run_grows {handler : Handler Op Answer σ} {feed : List ι → σ → σ}
    {trace : σ → List ε} (stable : Stable handler feed trace)
    (program : Program Op Answer α) (state : σ) :
    trace state <+: trace (run handler program state).2 := by
  apply run_invariant (fun after => trace state <+: trace after)
  · intro op before reached
    exact reached.trans (stable.grows op before)
  · exact List.prefix_refl _

end Program

end Effects
