import PaclinkUnix.OutboxSafety

/-!
The answers of an `FS` line: what the line says of each proposal of the batch, and the
lines of which `b2outboundproposal` reads exactly that.
-/

namespace PaclinkUnix

open Effects Effects.Program

variable {room : Nat} {props marked : List Proposal} {text : Bytes}

/-- The number of an answer with an offset. -/
def answerOffset (char : UInt8) (more : Bytes) : Nat :=
  if hasOffset char then (scanDigits 10 0 more).1 else 0

def Proposal.answer (verdict : Verdict) (offset : Nat) (prop : Proposal) : Proposal :=
  { prop with
    accepted := decide (verdict = .accept), delete := decide (verdict = .reject), offset := offset }

/-- What the answers say of a list whose first `room` proposals are the batch; `none` where
an answer is no answer, or there are more than the batch and the list goes on. -/
def answersMeant : Nat → List Proposal → Bytes → Option (List Proposal)
  | _, [], _ => some []
  | _, props, [] => some props
  | 0, _ :: _, _ :: _ => none
  | room + 1, prop :: next, char :: more => do
      let verdict ← verdictOf char
      let rest ← answersMeant room next (afterAnswer char more)
      some (prop.answer verdict (answerOffset char more) :: rest)

theorem answersMeant_cons {prop : Proposal} {next : List Proposal} {char : UInt8} {more : Bytes}
    {verdict : Verdict} (answered : verdictOf char = some verdict) :
    answersMeant (room + 1) (prop :: next) (char :: more) =
      (answersMeant room next (afterAnswer char more)).map
        (prop.answer verdict (answerOffset char more) :: ·) := by
  rw [answersMeant, answered]
  cases answersMeant room next (afterAnswer char more) <;> rfl

/-- `b2outboundproposal` reads the line as it is meant. -/
def AnsweredAsMeant (env : Env) (props : List Proposal) (line : Bytes) (world : World) : Prop :=
  let text := skipSpace (line.drop 3)
  match answersMeant propLimit props text with
  | some marked => run (handle env) (readAnswers 0 props text) world = (some marked, world)
  | none => ∃ message ∈ ["B2 protocol error 2", "B2 protocol error 3"],
      run (handle env) (readAnswers 0 props text) world = (none, world.stop (.exit message))

def Proposal.acceptedWhole (prop : Proposal) : Prop :=
  prop.accepted = true ∧ prop.delete = false ∧ prop.offset = 0

instance (prop : Proposal) : Decidable prop.acceptedWhole :=
  inferInstanceAs (Decidable (_ ∧ _ ∧ _))

/-- Every proposal of the list is accepted from its first byte: it is so answered, or has
no answer and was so before. -/
def AllWhole : Nat → List Proposal → Bytes → Prop
  | _, [], _ => True
  | _, props, [] => ∀ prop ∈ props, prop.acceptedWhole
  | 0, _ :: _, _ :: _ => False
  | room + 1, _ :: next, char :: more =>
      verdictOf char = some .accept ∧ answerOffset char more = 0 ∧
        AllWhole room next (afterAnswer char more)

/-- The first answer with an offset is not followed by another outcome than acceptance from
the first byte, and there are not more answers than the batch, or behind the batch stands
a character that is no answer. -/
def ReadRight : Nat → List Proposal → Bytes → Prop
  | _, [], _ => True
  | _, _, [] => True
  | room, prop :: next, char :: more =>
      if hasOffset char then AllWhole room (prop :: next) (char :: more)
      else
        match verdictOf char, room with
        | none, _ => True
        | some _, 0 => refused next.length more = true
        | some _, room + 1 => ReadRight room next more

theorem verdictOf_offset {char : UInt8} (offset : hasOffset char = true) :
    verdictOf char = some .accept := by
  simp [verdictOf, offset]

section ReadRight

variable {prop : Proposal} {next : List Proposal} {char : UInt8} {more : Bytes}
  {verdict : Verdict}

theorem readRight_offset (offset : hasOffset char = true) :
    ReadRight room (prop :: next) (char :: more) ↔ AllWhole room (prop :: next) (char :: more) := by
  rw [ReadRight.eq_def]
  simp [offset]

theorem readRight_refused (refusal : verdictOf char = none) :
    ReadRight room (prop :: next) (char :: more) := by
  have plain : hasOffset char = false := by
    rw [← Bool.not_eq_true]
    intro offset
    rw [verdictOf_offset offset] at refusal
    cases refusal
  rw [ReadRight.eq_def]
  simp [plain, refusal]

theorem readRight_beyond (plain : hasOffset char = false) (answered : verdictOf char = some verdict) :
    ReadRight 0 (prop :: next) (char :: more) ↔ refused next.length more = true := by
  rw [ReadRight.eq_def]
  simp [plain, answered]

theorem readRight_answer (plain : hasOffset char = false) (answered : verdictOf char = some verdict) :
    ReadRight (room + 1) (prop :: next) (char :: more) ↔ ReadRight room next more := by
  rw [ReadRight.eq_def]
  simp [plain, answered]

end ReadRight

theorem markAnswers_none_iff (props : List Proposal) (text : Bytes) :
    markAnswers props text = none ↔ refused props.length text = true := by
  induction props generalizing text with
  | nil => simp [markAnswers, refused]
  | cons prop next ih =>
      cases text with
      | nil => simp [markAnswers, refused]
      | cons char more =>
          cases offset : hasOffset char with
          | true =>
              simp [markAnswers_stuck offset, refused, verdictOf_offset offset, offset]
          | false =>
              rw [markAnswers_plain offset]
              cases answer : verdictOf char with
              | none => simp [refused, answer]
              | some verdict => simp [refused, answer, offset, ih more]

theorem wholeAnswer_iff (prop : Proposal) :
    prop = { prop with accepted := true, delete := false, offset := 0 } ↔ prop.acceptedWhole := by
  cases prop
  simp [Proposal.acceptedWhole]
  tauto

theorem answer_whole_iff (prop : Proposal) (verdict : Verdict) (offset : Nat) :
    prop.answer verdict offset = { prop with accepted := true, delete := false, offset := 0 } ↔
      verdict = .accept ∧ offset = 0 := by
  cases verdict <;> simp [Proposal.answer]

theorem answersMeant_whole (room : Nat) (props : List Proposal) (text : Bytes) :
    answersMeant room props text = some (props.map fun prop =>
        { prop with accepted := true, delete := false, offset := 0 }) ↔
      AllWhole room props text := by
  induction props generalizing room text with
  | nil => cases room <;> simp [answersMeant, AllWhole]
  | cons prop next ih =>
      cases text with
      | nil =>
          have each : ∀ props : List Proposal, props = props.map (fun prop =>
              { prop with accepted := true, delete := false, offset := 0 }) ↔
              ∀ prop ∈ props, prop.acceptedWhole := by
            intro props
            induction props with
            | nil => simp
            | cons first rest ih => simp [wholeAnswer_iff, ← ih]
          cases room <;> simp only [answersMeant, AllWhole, Option.some.injEq] <;> exact each _
      | cons char more =>
          cases room with
          | zero => simp [answersMeant, AllWhole]
          | succ room =>
              cases answered : verdictOf char with
              | none => simp [answersMeant, AllWhole, answered]
              | some verdict =>
                  rw [answersMeant_cons answered]
                  simp only [Option.map_eq_some_iff, List.map_cons, List.cons.injEq,
                    answer_whole_iff, AllWhole, answered, Option.some.injEq]
                  constructor
                  · rintro ⟨rest, meant, ⟨accepts, whole⟩, rfl⟩
                    exact ⟨accepts, whole, (ih room _).mp meant⟩
                  · rintro ⟨accepts, whole, later⟩
                    exact ⟨_, (ih room _).mpr later, ⟨accepts, whole⟩, rfl⟩

theorem markAnswers_meant_iff (room : Nat) (props : List Proposal) (text : Bytes) :
    markAnswers props text = answersMeant room props text ↔ ReadRight room props text := by
  induction props generalizing room text with
  | nil => cases room <;> simp [markAnswers, answersMeant, ReadRight]
  | cons prop next ih =>
      cases text with
      | nil => cases room <;> simp [markAnswers, answersMeant, ReadRight]
      | cons char more =>
          cases offset : hasOffset char with
          | true =>
              -- every proposal from here on gets this answer, with offset 0
              rw [markAnswers_stuck offset, eq_comm, answersMeant_whole, readRight_offset offset]
          | false =>
              have after : afterAnswer char more = more := by simp [afterAnswer, offset]
              have zero : answerOffset char more = 0 := by simp [answerOffset, offset]
              rw [markAnswers_plain offset]
              cases answered : verdictOf char with
              | none =>
                  have right : ReadRight room (prop :: next) (char :: more) :=
                    readRight_refused answered
                  cases room <;> simp [answersMeant, answered, right]
              | some verdict =>
                  cases room with
                  | zero =>
                      -- the program does not stop at the end of the batch
                      simp [answersMeant, readRight_beyond offset answered, markAnswers_none_iff]
                  | succ room =>
                      rw [answersMeant_cons answered, after, zero, readRight_answer offset answered,
                        ← ih room more, Option.bind_some]
                      constructor
                      · intro same
                        exact Option.map_injective List.cons_injective same
                      · intro same
                        rw [same]
                        rfl

/-- The exact lines of which the program reads what they say. -/
theorem answered_as_meant_iff (env : Env) (props : List Proposal) (line : Bytes) (world : World) :
    AnsweredAsMeant env props line world ↔
      ReadRight propLimit props (skipSpace (line.drop 3)) := by
  rw [← markAnswers_meant_iff, AnsweredAsMeant]
  simp only [readAnswers_eq]
  cases meant : answersMeant propLimit props (skipSpace (line.drop 3)) with
  | none =>
      cases markAnswers props (skipSpace (line.drop 3)) with
      | none => exact ⟨fun _ => rfl, fun _ => ⟨"B2 protocol error 3", by simp, rfl⟩⟩
      | some marked => simp
  | some marked =>
      cases markAnswers props (skipSpace (line.drop 3)) with
      | none => simp [exit, halt, run_call, handle]
      | some read => simp

/-- The offset of the only answer is lost. -/
theorem offset_ignored :
    ¬ AnsweredAsMeant quietEnv [sampleProposal] (ascii "FS A5")
      (World.start [] true fun _ => none) := by
  have meant : answersMeant propLimit [sampleProposal] (skipSpace ((ascii "FS A5").drop 3)) =
      some [sampleProposal.answer .accept 5] := by decide +kernel
  simp only [AnsweredAsMeant, meant]
  intro read
  have marked := congrArg Prod.fst read
  revert marked
  decide +kernel

end PaclinkUnix
