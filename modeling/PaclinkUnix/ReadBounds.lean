import PaclinkUnix.InfoLines
import PaclinkUnix.OutboxSession

/-!
Which bytes of a line the program looks at. The handshakes look before an empty line, the
last test of the command loop always looks before its line, and the scanner of proposals
stays within its line.
-/

namespace PaclinkUnix

open Effects Effects.Program

variable {α β : Type}

def Op.sighted (op : Op) : Prop := op ≠ .strayBytes

def InBounds (env : Env) (program : Session α) (world : World) : Prop :=
  ∀ made ∈ program.calls (handle env) world, made.1.sighted

def answeredLine : ((op : Op) × Option op.Answer) → Option Bytes
  | ⟨.getline, some (some line)⟩ => some line
  | _ => none

def linesHeard (env : Env) (program : Session α) (world : World) : List Bytes :=
  (program.calls (handle env) world).filterMap answeredLine

section Calls

variable {env : Env} {world after : World}

theorem inBounds_bind (program : Session α) (rest : α → Session β) :
    InBounds env (program >>= rest) world ↔ InBounds env program world ∧
      ∀ value after, run (handle env) program world = (some value, after) →
        InBounds env (rest value) after := by
  rw [InBounds, calls_bind]
  rcases ran : run (handle env) program world with ⟨value, after⟩
  cases value with
  | none => simp [InBounds]
  | some value =>
      simp only [List.mem_append, or_imp, forall_and, InBounds, Prod.mk.injEq, Option.some.injEq]
      refine and_congr_right fun _ => ⟨?_, fun later => later value after ⟨rfl, rfl⟩⟩
      rintro later _ _ ⟨rfl, rfl⟩
      exact later

theorem linesHeard_bind {program : Session α} (rest : α → Session β) {value : α}
    (ran : run (handle env) program world = (some value, after)) :
    linesHeard env (program >>= rest) world =
      linesHeard env program world ++ linesHeard env (rest value) after := by
  rw [linesHeard, calls_bind, ran, List.filterMap_append]
  rfl

theorem linesHeard_stopped {program : Session α} (rest : α → Session β)
    (ran : run (handle env) program world = (none, after)) :
    linesHeard env (program >>= rest) world = linesHeard env program world := by
  rw [linesHeard, calls_bind, ran, List.append_nil]
  rfl

theorem deaf_silent (env : Env) (world : World) {program : Session α}
    (deaf : Performs (fun op => op.deaf = true) program) :
    InBounds env program world ∧ linesHeard env program world = [] := by
  have made := deaf.calls (handle env) world
  constructor
  · rintro ⟨op, answer⟩ member rfl
    cases made _ member
  · rw [linesHeard, List.filterMap_eq_nil_iff]
    rintro ⟨op, answer⟩ member
    have isDeaf := made _ member
    cases op with
    | getline => cases isDeaf
    | _ => rfl

/-- The run stays in bounds exactly if it reads no empty line. -/
def EmptyTells (env : Env) (program : Session α) (world : World) : Prop :=
  InBounds env program world ↔ [] ∉ linesHeard env program world

theorem emptyTells_deaf {program : Session α}
    (deaf : Performs (fun op => op.deaf = true) program) : EmptyTells env program world := by
  obtain ⟨inBounds, silent⟩ := deaf_silent env world deaf
  simp [EmptyTells, inBounds, silent]

theorem emptyTells_after {program : Session α} {rest : α → Session β}
    (deaf : Performs (fun op => op.deaf = true) program)
    (later : ∀ value after, EmptyTells env (rest value) after) :
    EmptyTells env (program >>= rest) world := by
  obtain ⟨inBounds, silent⟩ := deaf_silent env world deaf
  rw [EmptyTells, inBounds_bind]
  rcases ran : run (handle env) program world with ⟨value, after⟩
  cases value with
  | none => simp [linesHeard_stopped rest ran, silent, inBounds]
  | some value =>
      rw [linesHeard_bind rest ran, silent, List.nil_append]
      simp only [inBounds, true_and, Prod.mk.injEq, Option.some.injEq]
      have tells : InBounds env (rest value) after ↔ [] ∉ linesHeard env (rest value) after :=
        later value after
      rw [← tells]
      refine ⟨fun all => all value after ⟨rfl, rfl⟩, ?_⟩
      rintro one _ _ ⟨rfl, rfl⟩
      exact one

theorem emptyTells_getline {next : Option Bytes → Session α}
    (ended : Performs (fun op => op.deaf = true) (next none))
    (got : ∀ line after, (InBounds env (next (some line)) after ↔
      line ≠ [] ∧ [] ∉ linesHeard env (next (some line)) after)) :
    EmptyTells env (getline >>= next) world := by
  change EmptyTells env (.call Op.getline next) world
  rcases handled : handle env Op.getline world with ⟨answer, after⟩
  cases answer with
  | none => simp [EmptyTells, InBounds, linesHeard, calls_none handled, answeredLine, Op.sighted]
  | some line =>
      have bounds : InBounds env (.call Op.getline next) world ↔ InBounds env (next line) after := by
        simp [InBounds, calls_some handled, Op.sighted]
      rw [EmptyTells, bounds, linesHeard, calls_some handled, List.filterMap_cons]
      cases line with
      | none =>
          obtain ⟨inBounds, silent⟩ := deaf_silent env after ended
          rw [linesHeard] at silent
          simp only [answeredLine, silent]
          simpa using inBounds
      | some line =>
          rw [got]
          simp only [answeredLine, List.mem_cons, not_or, linesHeard]
          rw [ne_comm]

end Calls

section Handshakes

variable {env : Env}

theorem deaf_parseInboundsid (line : Bytes) :
    Performs (fun op => op.deaf = true) (parseInboundsid line) := by
  unfold parseInboundsid
  split
  · exact deaf_exit _
  · split
    · exact deaf_exit _
    · simp only
      split
      · trivial
      · exact deaf_exit _

theorem deaf_identify (codes text : Bytes) :
    Performs (fun op => op.deaf = true) (identify codes text) := by
  unfold identify
  split
  · exact deaf_write _ _
  · trivial

theorem deaf_secureLogin (config : Config) (challenge : Bytes) :
    Performs (fun op => op.deaf = true) (sendSecureLoginResponse config challenge) := by
  unfold sendSecureLoginResponse
  split
  · split
    · exact Performs.bind (deaf_write _ _) fun _ => Performs.bind (deaf_write _ _) fun _ => trivial
    · trivial
  · trivial

theorem endsInPrompt_some {line : Bytes} (nonempty : line ≠ []) :
    ∃ prompt, endsInPrompt line = pure prompt := by
  rw [endsInPrompt, List.getLast?_eq_getLast_of_ne_nil nonempty]
  exact ⟨_, rfl⟩

theorem endsInPrompt_empty (rest : Bool → Session α) (world : World) :
    ¬ InBounds env (endsInPrompt [] >>= rest) world := by
  intro inBounds
  have first := ((inBounds_bind _ _).mp inBounds).1
  exact first ⟨.strayBytes, some (env.stray world.calls)⟩ (by
    change _ ∈ Program.calls (handle env) (.call Op.strayBytes _) world
    rw [calls_some (show handle env Op.strayBytes world = (some _, _) from rfl)]
    exact List.mem_cons_self ..) rfl

theorem prompt_tells (line : Bytes) {rest : Bool → Session α} {world : World}
    (later : ∀ prompt after, EmptyTells env (rest prompt) after) :
    InBounds env (endsInPrompt line >>= rest) world ↔
      line ≠ [] ∧ [] ∉ linesHeard env (endsInPrompt line >>= rest) world := by
  by_cases empty : line = []
  · subst empty
    simp [endsInPrompt_empty]
  · obtain ⟨prompt, test⟩ := endsInPrompt_some empty
    rw [test]
    have tells := later prompt world
    rw [EmptyTells] at tells
    simpa [empty] using tells

theorem ne_nil_of_strchr {char : UInt8} {line : Bytes} (found : (strchr char line).isSome = true) :
    line ≠ [] := by
  rintro rfl
  cases found

theorem ne_nil_of_strbegins {line : Bytes} {first : UInt8} {start : Bytes}
    (begins : strbegins line (first :: start) = true) : line ≠ [] := by
  rintro rfl
  cases begins

theorem tells_of_some {line : Bytes} {program : Session α} {world : World} (nonempty : line ≠ [])
    (tells : EmptyTells env program world) :
    InBounds env program world ↔ line ≠ [] ∧ [] ∉ linesHeard env program world := by
  rw [EmptyTells] at tells
  simp [nonempty, tells]

theorem handshake_tells (config : Config) (fuel : Nat) (codes : Option Bytes) (challenge : Bytes)
    (world : World) : EmptyTells env (handshake config fuel codes challenge) world := by
  induction fuel generalizing codes challenge world with
  | zero => exact emptyTells_deaf ⟨rfl, fun halted => halted.elim⟩
  | succ fuel ih =>
      rw [handshake]
      refine emptyTells_getline (deaf_exit _) fun line after => ?_
      simp only
      split
      · rename_i bracket
        exact tells_of_some (ne_nil_of_strchr bracket)
          (emptyTells_after (deaf_parseInboundsid line) fun codes after => ih _ _ after)
      · split
        · rename_i comment
          refine tells_of_some (ne_nil_of_strbegins comment) ?_
          split
          · exact ih _ _ _
          · exact ih _ _ _
        · refine prompt_tells line fun prompt after => ?_
          split
          · split
            · exact emptyTells_deaf (deaf_exit _)
            · refine emptyTells_after (deaf_secureLogin _ _) fun sentPr after => ?_
              refine emptyTells_after (deaf_identify _ _) fun _ after => ?_
              split
              · exact emptyTells_deaf trivial
              · exact emptyTells_deaf (Performs.bind (deaf_write _ _) fun _ => trivial)
          · exact ih _ _ _

theorem deaf_halt (reason : Halt) : Performs (fun op => op.deaf = true) (halt reason : Session α) :=
  ⟨rfl, fun halted => halted.elim⟩

theorem linesHeard_ret (value : α) (world : World) :
    linesHeard env (pure value) world = [] := rfl

theorem inBounds_of_performs {program : Session α} {world : World}
    (performs : Performs Op.sighted program) : InBounds env program world :=
  performs.calls (handle env) world

theorem sighted_skipLines (start : Bytes) (fuel : Nat) (line : Bytes) :
    Performs Op.sighted (skipLines start fuel line) := by
  have stops : ∀ reason, Performs Op.sighted (halt reason : Session Bytes) :=
    fun reason => ⟨by simp [Op.sighted], fun halted => halted.elim⟩
  induction fuel generalizing line with
  | zero =>
      rw [skipLines]
      split
      · exact stops _
      · trivial
  | succ fuel ih =>
      rw [skipLines]
      split
      · refine ⟨by simp [Op.sighted], fun next => ?_⟩
        cases next with
        | none => exact stops _
        | some next => exact ih next
      · trivial

theorem skipLines_call {start line : Bytes} (begins : strbegins line start = true) (fuel : Nat) :
    ∃ further, skipLines start (fuel + 1) line = .call Op.getline further ∧
      further none = exit "connection closed" ∧
      ∀ next, further (some next) = skipLines start fuel next := by
  rw [skipLines, if_pos begins]
  exact ⟨_, rfl, rfl, fun _ => rfl⟩

/-- The lines that are skipped are not empty; the one that ends the loop may be. -/
theorem skipLines_heard {first : UInt8} {start : Bytes} (fuel : Nat) (line : Bytes) (world : World) :
    (line ≠ [] ∧ [] ∉ linesHeard env (skipLines (first :: start) fuel line) world) ↔
      ∀ last after, run (handle env) (skipLines (first :: start) fuel line) world =
        (some last, after) → last ≠ [] := by
  have ends : ∀ {line : Bytes} {world : World}, (line ≠ [] ∧ [] ∉ linesHeard env (pure line) world) ↔
      ∀ last after, run (handle env) (pure line) world = (some last, after) → last ≠ [] := by
    intro line world
    rw [linesHeard_ret]
    constructor
    · rintro ⟨reads, -⟩ last after same
      cases same
      exact reads
    · exact fun all => ⟨all line world rfl, by simp⟩
  induction fuel generalizing line world with
  | zero =>
      rw [skipLines]
      split
      · rename_i begins
        have quiet := (deaf_silent env world
          (deaf_halt .outOfFuel : Performs _ (halt .outOfFuel : Session Bytes))).2
        rw [quiet]
        constructor
        · rintro - last after same
          cases same
        · exact fun _ => ⟨ne_nil_of_strbegins begins, by simp⟩
      · exact ends
  | succ fuel ih =>
      by_cases begins : strbegins line (first :: start) = true
      · have here := ne_nil_of_strbegins begins
        obtain ⟨further, calls, closed, next⟩ := skipLines_call begins fuel
        rw [calls]
        rcases handled : handle env Op.getline world with ⟨answer, after⟩
        cases answer with
        | none =>
            rw [linesHeard, calls_none handled, run_call_none handled]
            simp [answeredLine, here]
        | some heard =>
            rw [linesHeard, calls_some handled, run_call_some handled]
            cases heard with
            | none =>
                rw [closed]
                have quiet := (deaf_silent env after
                  (deaf_exit "connection closed" : Performs _ (exit "connection closed" : Session Bytes))).2
                rw [linesHeard] at quiet
                constructor
                · rintro - last after same
                  cases same
                · intro _
                  rw [List.filterMap_cons]
                  simp only [answeredLine]
                  rw [quiet]
                  exact ⟨here, by simp⟩
            | some heard =>
                rw [next]
                have later := ih heard after
                simp only [← later, List.filterMap_cons, answeredLine, List.mem_cons, not_or,
                  linesHeard]
                rw [ne_comm]
                simp [here]
      · rw [skipLines, if_neg begins]
        exact ends

theorem skip_tells {first : UInt8} {start : Bytes} (fuel : Nat) (line : Bytes) (world : World)
    {rest : Bytes → Session α} (later : ∀ last after, InBounds env (rest last) after ↔
      last ≠ [] ∧ [] ∉ linesHeard env (rest last) after) :
    InBounds env (skipLines (first :: start) fuel line >>= rest) world ↔
      line ≠ [] ∧ [] ∉ linesHeard env (skipLines (first :: start) fuel line >>= rest) world := by
  have skipped : InBounds env (skipLines (first :: start) fuel line) world :=
    inBounds_of_performs (sighted_skipLines _ fuel line)
  have heard := @skipLines_heard env first start fuel line world
  rw [inBounds_bind]
  rcases ran : run (handle env) (skipLines (first :: start) fuel line) world with ⟨last, after⟩
  rw [ran] at heard
  cases last with
  | none =>
      rw [linesHeard_stopped rest ran]
      have all := heard.mpr fun last after same => by cases same
      simp [skipped, all]
  | some last =>
      rw [linesHeard_bind rest ran, List.mem_append, not_or, ← and_assoc, heard]
      constructor
      · rintro ⟨-, bounds⟩
        obtain ⟨reads, silent⟩ := (later last after).mp (bounds last after rfl)
        refine ⟨fun other final same => ?_, silent⟩
        cases same
        exact reads
      · rintro ⟨reads, silent⟩
        refine ⟨skipped, fun other final same => ?_⟩
        cases same
        exact (later last after).mpr ⟨reads last after rfl, silent⟩

theorem handshakeNoSecureLogin_tells (config : Config) (opropcount fuel : Nat)
    (codes : Option Bytes) (world : World) :
    EmptyTells env (handshakeNoSecureLogin config opropcount fuel codes) world := by
  induction fuel generalizing codes world with
  | zero => exact emptyTells_deaf ⟨rfl, fun halted => halted.elim⟩
  | succ fuel ih =>
      rw [handshakeNoSecureLogin]
      refine emptyTells_getline (deaf_exit _) fun line after => ?_
      refine skip_tells fuel line after fun line after => ?_
      split
      · rename_i bracket
        exact tells_of_some (ne_nil_of_strchr bracket)
          (emptyTells_after (deaf_parseInboundsid line) fun _ _ => emptyTells_deaf trivial)
      · split
        · rename_i comment
          refine tells_of_some (ne_nil_of_strbegins comment) ?_
          split
          · exact ih _ _
          · exact emptyTells_deaf trivial
        · refine prompt_tells line fun prompt after => ?_
          split
          · split
            · exact emptyTells_deaf (deaf_exit _)
            · refine emptyTells_after (deaf_identify _ _) fun _ after => ?_
              exact emptyTells_deaf (Performs.bind (deaf_write _ _) fun _ => trivial)
          · exact ih _ _

end Handshakes

/-- A line that none of the tests before the last one lets through. -/
def KnownCommand (line : Bytes) : Prop :=
  line = [] ∨ ∃ start ∈ [ascii ";", ascii "FC", ascii "FF", ascii "B", ascii "FQ", ascii "F>"],
    strbegins line start = true

def commandLines (env : Env) (config : Config) : Nat → Parser → World → List Bytes
  | 0, _, _ => []
  | fuel + 1, parser, world =>
      match handle env .getline world with
      | (some (some line), middle) =>
          line :: match run (handle env) (inboundCommand config fuel parser line) middle with
            | (some (.again parser), after) => commandLines env config fuel parser after
            | _ => []
      | _ => []

def TakesPrompt (env : Env) (line : Bytes) (world : World) : Prop :=
  promptTest line (env.stray world.calls).1 (env.stray world.calls).2 = true

instance (env : Env) (line : Bytes) (world : World) : Decidable (TakesPrompt env line world) :=
  inferInstanceAs (Decidable (_ = true))

section CommandLoop

variable {env : Env}

theorem sighted_of_deaf {program : Session α} (deaf : Performs (fun op => op.deaf = true) program) :
    Performs Op.sighted program :=
  deaf.mono fun op isDeaf same => by
    subst same
    cases isDeaf

theorem sighted_of_calm {program : Session α} {kind : Op → Bool} (never : kind .strayBytes = false)
    (performs : Performs (fun op => kind op = true) program) : Performs Op.sighted program :=
  performs.mono fun op isKind same => by
    subst same
    rw [never] at isKind
    cases isKind

theorem sighted_b2outboundproposal (fuel : Nat) (lastcommand : Bytes) (props : List Proposal)
    (cursor : Nat) : Performs Op.sighted (b2outboundproposal fuel lastcommand props cursor) := by
  by_cases finished : props.drop cursor = []
  · rw [b2outboundproposal]
    simp only [finished, List.isEmpty_nil, Bool.true_eq_false, if_false]
    split
    · exact sighted_of_deaf (Performs.bind (deaf_write _ _) fun _ => trivial)
    · exact sighted_of_deaf (Performs.bind (deaf_write _ _) fun _ => trivial)
  · rw [b2outboundproposal_turns finished]
    refine Performs.bind (sighted_of_deaf ?_) fun _ => Performs.bind ?_ fun line =>
      sighted_of_deaf (deaf_answerTurn _ _ line)
    · exact Performs.bind (deaf_sendProposals _ _ _) fun _ => deaf_write _ _
    · rw [listen]
      refine Performs.bind ⟨by simp [Op.sighted], fun _ => trivial⟩ fun next => ?_
      cases next with
      | none => exact sighted_of_deaf (deaf_exit _)
      | some line =>
          exact Performs.bind (sighted_skipLines _ fuel line) fun line => sighted_skipLines _ fuel line

theorem sighted_answerProposals (proposals : List Incoming) :
    Performs Op.sighted (answerProposals proposals) := by
  induction proposals with
  | nil => trivial
  | cons prop rest ih =>
      rw [answerProposals]
      refine Performs.bind ?_ fun _ => Performs.bind ⟨by simp [Op.sighted], fun _ => trivial⟩
        fun _ => Performs.bind ih fun _ => trivial
      rw [answerOne]
      split
      · refine Performs.bind ⟨by simp [Op.sighted], fun _ => trivial⟩ fun result => ?_
        split <;> trivial
      · trivial

theorem sighted_receiveBatch (config : Config) (proposals : List Incoming) :
    Performs Op.sighted (receiveBatch config proposals) := by
  rw [receiveBatch]
  split
  · trivial
  · refine Performs.bind (sighted_answerProposals proposals) fun answers =>
      Performs.bind ⟨by simp [Op.sighted], fun _ => trivial⟩ fun _ => ?_
    exact sighted_of_calm rfl (performs_deliverAll config answers)

theorem sighted_deleteTurn (parser : Parser) : Performs Op.sighted (deleteTurn parser) :=
  Performs.bind (sighted_of_calm rfl (performs_dodelete _ _)) fun _ => trivial

theorem sighted_outboundTurn (fuel : Nat) (line : Bytes) (parser : Parser) :
    Performs Op.sighted (outboundTurn fuel line parser) :=
  Performs.bind (sighted_b2outboundproposal _ _ _ _) fun _ => trivial

/-- A round stays in bounds exactly for a line that the last test does not see. -/
theorem inboundCommand_inBounds (config : Config) (fuel : Nat) (parser : Parser) (line : Bytes)
    (world : World) :
    InBounds env (inboundCommand config fuel parser line) world ↔ KnownCommand line := by
  have within : ∀ {program : Session Round}, Performs Op.sighted program →
      InBounds env program world := fun performs => inBounds_of_performs performs
  have exits : ∀ message, Performs Op.sighted (exit message : Session Round) :=
    fun message => sighted_of_deaf (deaf_exit message)
  rw [KnownCommand]
  simp only [List.mem_cons, List.not_mem_nil, or_false, exists_eq_or_imp, exists_eq_left]
  rw [inboundCommand]
  split
  · rename_i comment
    exact iff_of_true (within trivial) (.inr (.inl comment))
  rename_i notComment
  split
  · rename_i empty
    exact iff_of_true (within trivial) (.inl (List.eq_nil_of_length_eq_zero empty))
  rename_i notEmpty
  split
  · rename_i proposal
    refine iff_of_true (within (Performs.bind (sighted_deleteTurn _) fun parser => ?_))
      (.inr (.inr (.inl proposal)))
    split
    · exact exits _
    · split
      · exact exits _
      · trivial
  rename_i notProposal
  split
  · rename_i nothing
    exact iff_of_true (within (Performs.bind (sighted_deleteTurn _) fun parser =>
      sighted_outboundTurn _ _ _)) (.inr (.inr (.inr (.inl nothing))))
  rename_i notNothing
  split
  · rename_i bye
    exact iff_of_true (within trivial) (.inr (.inr (.inr (.inr (.inl bye)))))
  rename_i notBye
  split
  · rename_i quit
    exact iff_of_true (within (Performs.bind (sighted_deleteTurn _) fun parser => trivial))
      (.inr (.inr (.inr (.inr (.inr (.inl quit))))))
  rename_i notQuit
  split
  · rename_i batch
    refine iff_of_true (within ?_) (.inr (.inr (.inr (.inr (.inr (.inr batch))))))
    split
    · exact sighted_of_deaf (Performs.bind (deaf_write _ _) fun _ => trivial)
    · split
      · exact exits _
      · exact Performs.bind (sighted_receiveBatch _ _) fun _ => sighted_outboundTurn _ _ _
  rename_i notBatch
  refine iff_of_false ?_ ?_
  · intro inBounds
    have first := ((inBounds_bind _ _).mp inBounds).1
    refine first ⟨.strayBytes, some (env.stray world.calls)⟩ ?_ rfl
    change _ ∈ Program.calls (handle env) (.call Op.strayBytes _) world
    rw [calls_some (show handle env Op.strayBytes world = (some _, _) from rfl)]
    exact List.mem_cons_self ..
  · rintro (rfl | comment | proposal | nothing | bye | quit | batch)
    · exact notEmpty rfl
    · exact notComment comment
    · exact notProposal proposal
    · exact notNothing nothing
    · exact notBye bye
    · exact notQuit quit
    · exact notBatch batch

/-- The loop hears a line, does what the line says, and goes on or returns. -/
theorem inboundParser_call (config : Config) (fuel : Nat) (parser : Parser) :
    ∃ further onward, inboundParser config (fuel + 1) parser = .call Op.getline further ∧
      further none = exit "Lost connection. 4" ∧
      (∀ line, further (some line) = inboundCommand config fuel parser line >>= onward) ∧
      (∀ next, onward (.again next) = inboundParser config fuel next) ∧
      ∀ value next, onward (.returns value next) = pure (value, next) :=
  ⟨_, _, rfl, rfl, fun _ => rfl, fun _ => rfl, fun _ _ => rfl⟩

theorem inboundParser_inBounds (config : Config) (fuel : Nat) (parser : Parser) (world : World) :
    InBounds env (inboundParser config fuel parser) world ↔
      ∀ line ∈ commandLines env config fuel parser world, KnownCommand line := by
  induction fuel generalizing parser world with
  | zero => simp [commandLines, inboundParser, (deaf_silent env world (deaf_halt .outOfFuel)).1]
  | succ fuel ih =>
      obtain ⟨further, onward, calls, closed, heard, again, returns⟩ :=
        inboundParser_call config fuel parser
      rw [calls, commandLines]
      rcases handled : handle env Op.getline world with ⟨answer, middle⟩
      cases answer with
      | none => simp [InBounds, calls_none handled, Op.sighted]
      | some next =>
          have bounds : InBounds env (.call Op.getline further) world ↔
              InBounds env (further next) middle := by
            simp [InBounds, calls_some handled, Op.sighted]
          rw [bounds]
          cases next with
          | none => simp [closed, (deaf_silent env middle (deaf_exit "Lost connection. 4" :
              Performs _ (exit "Lost connection. 4" : Session (Int × Parser)))).1]
          | some line =>
              simp only [heard, List.forall_mem_cons]
              rw [inBounds_bind, inboundCommand_inBounds]
              refine and_congr_right fun _ => ?_
              rcases run (handle env) (inboundCommand config fuel parser line) middle with
                ⟨round, after⟩
              cases round with
              | none => simp
              | some round =>
                  cases round with
                  | again parser =>
                      simp only [Prod.mk.injEq, Option.some.injEq, and_imp]
                      rw [← ih parser after]
                      constructor
                      · intro later
                        exact again parser ▸ later _ _ rfl rfl
                      · rintro one _ _ rfl rfl
                        exact (again parser).symm ▸ one
                  | returns value parser =>
                      refine iff_of_true ?_ (by simp)
                      rintro _ _ same
                      cases same
                      rw [returns]
                      have quiet : Performs Op.sighted (pure (value, parser) : Session (Int × Parser)) :=
                        trivial
                      exact inBounds_of_performs quiet

/-- What the command loop does with a line that comes to its last test. -/
theorem inboundCommand_last (config : Config) (fuel : Nat) (parser : Parser) {line : Bytes}
    (unknown : ¬ KnownCommand line) (world : World) :
    run (handle env) (inboundCommand config fuel parser line) world =
      if TakesPrompt env line world then
        run (handle env) (deleteTurn parser >>= outboundTurn fuel line) world.tick
      else (none, world.tick.stop (.exit "unrecognized command")) := by
  simp only [KnownCommand, List.mem_cons, List.not_mem_nil, or_false, exists_eq_or_imp,
    exists_eq_left, not_or] at unknown
  obtain ⟨notEmpty, notComment, notProposal, notNothing, notBye, notQuit, notBatch⟩ := unknown
  have long : line.length ≠ 0 := fun zero => notEmpty (List.eq_nil_of_length_eq_zero zero)
  rw [inboundCommand, if_neg notComment, if_neg long, if_neg notProposal, if_neg notNothing,
    if_neg notBye, if_neg notQuit, if_neg notBatch]
  change run (handle env) (.call Op.strayBytes _) world = _
  rw [run_call_some (show handle env Op.strayBytes world = (some _, _) from rfl)]
  by_cases takes : TakesPrompt env line world
  · rw [if_pos takes]
    rw [TakesPrompt] at takes
    change run (handle env) (if promptTest line _ _ = true then _ else _) _ = _
    rw [if_pos takes]
  · rw [if_neg takes]
    rw [TakesPrompt] at takes
    change run (handle env) (if promptTest line _ _ = true then _ else _) _ = _
    rw [if_neg takes]
    rfl

theorem takesPrompt_iff (line : Bytes) (world : World) :
    (TakesPrompt env line world ↔ line.getLast? = some 62) ↔
      if (env.stray world.calls).1 = 0 then (line.head? = some 62 ↔ line.getLast? = some 62)
      else ((env.stray world.calls).2 = 62 ↔ line.getLast? = some 62) := by
  rw [TakesPrompt, promptTest]
  split
  · simp
  · simp

end CommandLoop

inductive ReadFault where
  | beside
  deriving DecidableEq, Repr

/-- The bytes that may be read are those of the string and its NUL. -/
def charAt (line : Bytes) (cp : Nat) : Except ReadFault UInt8 :=
  match (line ++ [0])[cp]? with
  | some char => .ok char
  | none => .error .beside

/-- `*cp++ != expected`. -/
def expectAt (expected : UInt8) (line : Bytes) (cp : Nat) : Except ReadFault (Option Nat) := do
  let char ← charAt line cp
  .ok (if char = expected then some (cp + 1) else none)

def scanMidAt (line : Bytes) : Nat → Nat → Except ReadFault (Option (Bytes × Nat))
  | 0, cp => .ok (some ([], cp))
  | limit + 1, cp => do
      let char ← charAt line cp
      if char = 32 then .ok (some ([], cp))
      else if char = 0 then .ok none
      else
        match ← scanMidAt line limit (cp + 1) with
        | none => .ok none
        | some (mid, cp) => .ok (some (char :: mid, cp))

/-- `strtoul` reads from `cp` up to the NUL at most. -/
def strtoulAt (line : Bytes) (cp base : Nat) : Except ReadFault (Nat × Nat) :=
  if cp ≤ line.length then
    let (value, endp) := strtoul (line.drop cp) base
    .ok (value, line.length - endp.length)
  else .error .beside

def parseProposalAt (propline : Bytes) : Except ReadFault (Option Incoming) := do
  let some cp ← expectAt 70 propline 0 | .ok none
  let code ← charAt propline cp
  let cp := cp + 1
  if code = 67 then
    let some cp ← expectAt 32 propline cp | .ok none
    let type ← charAt propline cp
    let cp := cp + 1
    if type ≠ 67 ∧ type ≠ 69 then .ok none else
    let some cp ← expectAt 77 propline cp | .ok none
    let some cp ← expectAt 32 propline cp | .ok none
    let some (mid, cp) ← scanMidAt propline midMaxLen cp | .ok none
    let some cp ← expectAt 32 propline cp | .ok none
    let (usize, cp) ← strtoulAt propline cp 10
    let some cp ← expectAt 32 propline cp | .ok none
    let (csize, cp) ← strtoulAt propline cp 10
    let some _ ← expectAt 32 propline cp | .ok none
    .ok (some { code := 67, type := type, mid := mid, usize := usize, csize := csize % 2 ^ 32 })
  else .ok (some { code := code, type := 88, mid := [], usize := 0, csize := 0 })

section Scanner

variable {line : Bytes}

/-- The pointer is where this much of the line is left. -/
def PointsTo (line : Bytes) (cp : Nat) (text : Bytes) : Prop := cp ≤ line.length ∧ line.drop cp = text

theorem PointsTo.char {cp : Nat} {text : Bytes} (here : PointsTo line cp text) :
    charAt line cp = .ok (text.headD 0) := by
  obtain ⟨inside, left⟩ := here
  rw [charAt]
  cases text with
  | nil =>
      have ended : cp = line.length := by
        have := List.drop_eq_nil_iff.mp left
        omega
      rw [ended, List.getElem?_append_right (Nat.le_refl _)]
      simp
  | cons first rest =>
      have found : (line)[cp]? = some first := by
        rw [← List.head?_drop, left]
        rfl
      rw [List.getElem?_append_left (List.getElem?_eq_some_iff.mp found).1, found]
      rfl

theorem PointsTo.next {cp : Nat} {first : UInt8} {rest : Bytes} (here : PointsTo line cp (first :: rest)) :
    PointsTo line (cp + 1) rest := by
  obtain ⟨inside, left⟩ := here
  have lengths := congrArg List.length left
  rw [List.length_drop, List.length_cons] at lengths
  refine ⟨by omega, ?_⟩
  rw [← List.tail_drop, left]
  rfl

theorem PointsTo.of_suffix {rest : Bytes} (suffix : rest <:+ line) :
    PointsTo line (line.length - rest.length) rest :=
  ⟨Nat.sub_le _ _, (List.suffix_iff_eq_drop.mp suffix).symm⟩

theorem PointsTo.expect {cp : Nat} {text : Bytes} (here : PointsTo line cp text) {expected : UInt8}
    (notNul : expected ≠ 0) :
    (expectChar expected text = none ∧ expectAt expected line cp = .ok none) ∨
      ∃ rest, expectChar expected text = some rest ∧ PointsTo line (cp + 1) rest ∧
        expectAt expected line cp = .ok (some (cp + 1)) := by
  have read : expectAt expected line cp =
      .ok (if text.headD 0 = expected then some (cp + 1) else none) := by
    rw [expectAt, here.char]
    rfl
  cases text with
  | nil => exact .inl ⟨rfl, by rw [read, List.headD_nil, if_neg (Ne.symm notNul)]⟩
  | cons first rest =>
      rw [List.headD_cons] at read
      by_cases same : first = expected
      · rw [if_pos same] at read
        exact .inr ⟨rest, by rw [expectChar, if_pos same], here.next, read⟩
      · rw [if_neg same] at read
        exact .inl ⟨by rw [expectChar, if_neg same], read⟩

theorem PointsTo.scanMid {cp : Nat} {text : Bytes} (limit : Nat) (here : PointsTo line cp text)
    (notNul : ∀ char ∈ line, char ≠ 0) :
    (PaclinkUnix.scanMid limit text = none ∧ scanMidAt line limit cp = .ok none) ∨
      ∃ mid rest after, PaclinkUnix.scanMid limit text = some (mid, rest) ∧
        PointsTo line after rest ∧ scanMidAt line limit cp = .ok (some (mid, after)) := by
  induction limit generalizing cp text with
  | zero => exact .inr ⟨[], text, cp, by cases text <;> rfl, here, rfl⟩
  | succ limit ih =>
      have read : scanMidAt line (limit + 1) cp =
          if text.headD 0 = 32 then .ok (some ([], cp))
          else if text.headD 0 = 0 then .ok none
          else scanMidAt line limit (cp + 1) >>= fun
            | none => .ok none
            | some (mid, cp) => .ok (some (text.headD 0 :: mid, cp)) := by
        rw [scanMidAt, here.char]
        rfl
      cases text with
      | nil => exact .inl ⟨rfl, by rw [read]; rfl⟩
      | cons first rest =>
          rw [List.headD_cons] at read
          by_cases blank : first = 32
          · rw [if_pos blank] at read
            exact .inr ⟨[], first :: rest, cp, by rw [PaclinkUnix.scanMid, if_pos blank], here, read⟩
          · have inLine : first ∈ line := by
              have member : first ∈ line.drop cp := by
                rw [here.2]
                exact List.mem_cons_self ..
              exact List.mem_of_mem_drop member
            rw [if_neg blank, if_neg (notNul first inLine)] at read
            rw [PaclinkUnix.scanMid, if_neg blank, read]
            rcases ih here.next with ⟨stops, same⟩ | ⟨mid, left, after, scans, points, same⟩
            · exact .inl ⟨by rw [stops]; rfl, by rw [same]; rfl⟩
            · exact .inr ⟨first :: mid, left, after, by rw [scans]; rfl, points, by rw [same]; rfl⟩

theorem scanDigits_suffix (base value : Nat) (text : Bytes) :
    (scanDigits base value text).2 <:+ text := by
  induction text generalizing value with
  | nil => exact List.suffix_refl _
  | cons char rest ih =>
      rw [scanDigits]
      split
      · exact (ih _).trans (List.suffix_cons _ _)
      · exact List.suffix_refl _

theorem skipSign_suffix (text : Bytes) : (skipSign text).2 <:+ text := by
  unfold skipSign
  split
  · exact List.suffix_cons _ _
  · exact List.suffix_cons _ _
  · exact List.suffix_refl _

theorem skipHexMark_suffix (base : Nat) (text : Bytes) : skipHexMark base text <:+ text := by
  unfold skipHexMark
  split
  · split
    · exact (List.suffix_cons _ _).trans (List.suffix_cons _ _)
    · exact List.suffix_refl _
  · exact List.suffix_refl _

theorem strtoul_suffix (text : Bytes) (base : Nat) : (strtoul text base).2 <:+ text := by
  have digits : skipHexMark base (skipSign (skipSpace text)).2 <:+ text :=
    ((skipHexMark_suffix base _).trans (skipSign_suffix _)).trans (List.dropWhile_suffix isspace)
  rw [strtoul]
  simp only
  split
  · exact List.suffix_refl _
  · split
    · exact (scanDigits_suffix _ _ _).trans digits
    · exact List.suffix_refl _

theorem PointsTo.strtoul {cp : Nat} {text : Bytes} (here : PointsTo line cp text) (base : Nat) :
    strtoulAt line cp base = .ok ((PaclinkUnix.strtoul text base).1,
        line.length - (PaclinkUnix.strtoul text base).2.length) ∧
      PointsTo line (line.length - (PaclinkUnix.strtoul text base).2.length)
        (PaclinkUnix.strtoul text base).2 := by
  constructor
  · rw [strtoulAt, if_pos here.1, here.2]
  · refine .of_suffix ((strtoul_suffix text base).trans ?_)
    rw [← here.2]
    exact List.drop_suffix _ _

theorem ok_bind {γ : Type} (value : α) (next : α → Except ReadFault γ) :
    (.ok value >>= next) = next value := rfl

/-- The pointer never leaves the line, and what the scanner finds is what stands there. -/
theorem parseProposalAt_eq (notNul : ∀ char ∈ line, char ≠ 0) :
    parseProposalAt line = .ok (parseProposal line) := by
  have start : PointsTo line 0 line := ⟨Nat.zero_le _, rfl⟩
  have blank : (32 : UInt8) ≠ 0 := by decide
  rw [parseProposalAt, parseProposal]
  obtain ⟨stops, same⟩ | ⟨text, finds, here, same⟩ := start.expect (show (70 : UInt8) ≠ 0 by decide)
  · rw [stops, same]
    rfl
  simp only [finds, same, ok_bind, here.char, Option.bind_eq_bind, Option.bind_some]
  cases text with
  | nil => rfl
  | cons code text =>
  have later := here.next
  rw [List.headD_cons]
  by_cases isC : code = 67
  · subst isC
    rw [if_pos rfl]
    simp only
    obtain ⟨stops, same⟩ | ⟨text, finds, here, same⟩ := later.expect blank
    · rw [stops, same]
      rfl
    simp only [finds, same, ok_bind, here.char, Option.bind_some]
    cases text with
    | nil => rfl
    | cons type text =>
    have later := here.next
    rw [List.headD_cons]
    by_cases unknown : type ≠ 67 ∧ type ≠ 69
    · simp only [if_pos unknown]
    simp only [if_neg unknown]
    obtain ⟨stops, same⟩ | ⟨text, finds, here, same⟩ := later.expect (show (77 : UInt8) ≠ 0 by decide)
    · rw [stops, same]
      rfl
    simp only [finds, same, ok_bind, Option.bind_some]
    obtain ⟨stops, same⟩ | ⟨text, finds, here, same⟩ := here.expect blank
    · rw [stops, same]
      rfl
    simp only [finds, same, ok_bind, Option.bind_some]
    obtain ⟨stops, same⟩ | ⟨mid, text, cp, finds, here, same⟩ := here.scanMid midMaxLen notNul
    · rw [stops, same]
      rfl
    simp only [finds, same, ok_bind, Option.bind_some]
    obtain ⟨stops, same⟩ | ⟨text, finds, here, same⟩ := here.expect blank
    · rw [stops, same]
      rfl
    simp only [finds, same, ok_bind, Option.bind_some]
    obtain ⟨same, here⟩ := here.strtoul 10
    simp only [same, ok_bind]
    obtain ⟨stops, same⟩ | ⟨text, finds, here, same⟩ := here.expect blank
    · rw [stops, same]
      rfl
    simp only [finds, same, ok_bind, Option.bind_some]
    obtain ⟨same, here⟩ := here.strtoul 10
    simp only [same, ok_bind]
    obtain ⟨stops, same⟩ | ⟨text, finds, here, same⟩ := here.expect blank
    · rw [stops, same]
      rfl
    simp only [finds, same, ok_bind, Option.bind_some]
  · rw [if_neg isC]
    split
    · rename_i same
      exact absurd (List.cons.inj same).1 isC
    · rename_i same
      cases same
    · rename_i same
      obtain ⟨rfl, -⟩ := List.cons.inj same
      rfl

end Scanner

/-- The handshakes stay within their lines exactly if they read no empty one, the command
loop exactly if its last test sees no line. What that test says depends on the bytes beside
its line. The scanner of proposals always stays within its line. -/
theorem line_reads (env : Env) (config : Config) (fuel : Nat) (world : World) :
    (∀ codes challenge, InBounds env (handshake config fuel codes challenge) world ↔
      [] ∉ linesHeard env (handshake config fuel codes challenge) world) ∧
    (∀ opropcount codes, InBounds env (handshakeNoSecureLogin config opropcount fuel codes) world ↔
      [] ∉ linesHeard env (handshakeNoSecureLogin config opropcount fuel codes) world) ∧
    (∀ parser, (InBounds env (inboundParser config fuel parser) world ∧
        ∀ line ∈ commandLines env config fuel parser world, ¬ KnownCommand line →
          ∀ after, TakesPrompt env line after ↔ line.getLast? = some 62) ↔
      ∀ line ∈ commandLines env config fuel parser world, KnownCommand line) ∧
    (∀ line after, (TakesPrompt env line after ↔ line.getLast? = some 62) ↔
      if (env.stray after.calls).1 = 0 then (line.head? = some 62 ↔ line.getLast? = some 62)
      else ((env.stray after.calls).2 = 62 ↔ line.getLast? = some 62)) ∧
    ∀ raw, parseProposalAt (cstring raw) = .ok (parseProposal (cstring raw)) := by
  refine ⟨fun codes challenge => handshake_tells config fuel codes challenge world,
    fun opropcount codes => handshakeNoSecureLogin_tells config opropcount fuel codes world,
    fun parser => ?_, fun line after => takesPrompt_iff line after,
    fun raw => parseProposalAt_eq (cstring_notNul raw)⟩
  rw [inboundParser_inBounds]
  exact ⟨fun holds => holds.1,
    fun known => ⟨known, fun line member unknown => absurd (known line member) unknown⟩⟩

/-- An empty line before the prompt is read before its start, and a prompt is not seen as
one where the byte before it is 0. -/
theorem empty_line_outside :
    (¬ InBounds quietEnv (handshake sampleConfig 3 none [])
      (World.start (ascii "\r") true fun _ => none)) ∧
    ¬ (TakesPrompt quietEnv (ascii "CMS>") (World.start [] true fun _ => none) ↔
      (ascii "CMS>").getLast? = some 62) := by
  refine ⟨?_, by decide +kernel⟩
  intro inBounds
  have tells : EmptyTells quietEnv (handshake sampleConfig 3 none [])
      (World.start (ascii "\r") true fun _ => none) := handshake_tells _ _ _ _ _
  exact tells.mp inBounds (by decide +kernel)

end PaclinkUnix
