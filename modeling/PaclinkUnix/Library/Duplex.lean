import Mathlib.Data.List.Basic

/-!
Two programs joined by two FIFO channels. What a program has done is a function of the
input that has arrived, and more input only adds to it. However the channels deliver, and
wherever they are cut, both programs have done parts of what they do in a complete
exchange, and nothing was read before it was written.
-/

namespace Duplex

variable {ι ε μ : Type} {reads writes : ε → List ι} {stops : ε → Prop}
  {needs gives : ε → Option μ}

/-- A part of a trace behind which something is read, or nothing follows. -/
def Waiting (stops : ε → Prop) (trace part : List ε) : Prop :=
  part = trace ∨ ∃ event rest, trace = part ++ event :: rest ∧ stops event

structure Party (reads : ε → List ι) (stops : ε → Prop) where
  trace : List ι → List ε
  waits : ∀ input more, Waiting stops (trace (input ++ more)) (trace input)
  within : ∀ input, (trace input).flatMap reads <+: input

theorem Waiting.earlier {stops : ε → Prop} {trace part : List ε}
    (waiting : Waiting stops trace part) : part <+: trace := by
  rcases waiting with rfl | ⟨event, rest, rfl, -⟩
  · exact List.prefix_refl _
  · exact List.prefix_append _ _

theorem Waiting.trans {stops : ε → Prop} {trace part shorter : List ε}
    (waiting : Waiting stops trace part) (before : Waiting stops part shorter) :
    Waiting stops trace shorter := by
  rcases before with rfl | ⟨event, rest, rfl, stop⟩
  · exact waiting
  · obtain ⟨more, rfl⟩ := waiting.earlier
    exact .inr ⟨event, rest ++ more, by simp, stop⟩

theorem Party.trace_waits (party : Party reads stops) {input later : List ι}
    (earlier : input <+: later) : Waiting stops (party.trace later) (party.trace input) := by
  obtain ⟨more, rfl⟩ := earlier
  exact party.waits input more

theorem Party.trace_mono (party : Party reads stops) {input later : List ι}
    (earlier : input <+: later) : party.trace input <+: party.trace later :=
  (party.trace_waits earlier).earlier

theorem flatMap_mono (bytes : ε → List ι) {part whole : List ε} (earlier : part <+: whole) :
    part.flatMap bytes <+: whole.flatMap bytes := by
  obtain ⟨rest, rfl⟩ := earlier
  rw [List.flatMap_append]
  exact List.prefix_append _ _

/-- What has arrived at the two sides at some moment of some run. -/
inductive Arrived (writes : ε → List ι) (first second : Party reads stops) : List ι → List ι → Prop
  | start : Arrived writes first second [] []
  | atFirst {input later other : List ι} : Arrived writes first second input other →
      input <+: later → later <+: (second.trace other).flatMap writes →
      Arrived writes first second later other
  | atSecond {input other later : List ι} : Arrived writes first second input other →
      other <+: later → later <+: (first.trace input).flatMap writes →
      Arrived writes first second input later

section Arrived

variable {first second : Party reads stops} {input other whole wholeOther : List ι}

theorem Arrived.sent (arrived : Arrived writes first second input other) :
    input <+: (second.trace other).flatMap writes ∧
      other <+: (first.trace input).flatMap writes := by
  induction arrived with
  | start => exact ⟨List.nil_prefix, List.nil_prefix⟩
  | atFirst _ extended within ih =>
      exact ⟨within, ih.2.trans (flatMap_mono writes (first.trace_mono extended))⟩
  | atSecond _ extended within ih =>
      exact ⟨ih.1.trans (flatMap_mono writes (second.trace_mono extended)), within⟩

theorem Arrived.inside (arrived : Arrived writes first second input other)
    (answers : (second.trace wholeOther).flatMap writes = whole)
    (asks : (first.trace whole).flatMap writes = wholeOther) :
    input <+: whole ∧ other <+: wholeOther := by
  induction arrived with
  | start => exact ⟨List.nil_prefix, List.nil_prefix⟩
  | atFirst _ _ within ih =>
      refine ⟨?_, ih.2⟩
      rw [← answers]
      exact within.trans (flatMap_mono writes (second.trace_mono ih.2))
  | atSecond _ _ within ih =>
      refine ⟨ih.1, ?_⟩
      rw [← asks]
      exact within.trans (flatMap_mono writes (first.trace_mono ih.1))

end Arrived

/-- Parts of two traces in which neither side has read more than the other has written. -/
structure Cut (reads writes : ε → List ι) (trace other part partOther : List ε) : Prop where
  earlier : part <+: trace
  earlierOther : partOther <+: other
  heard : (part.flatMap reads).length ≤ (partOther.flatMap writes).length
  heardOther : (partOther.flatMap reads).length ≤ (part.flatMap writes).length

theorem Cut.swap {trace other part partOther : List ε}
    (cut : Cut reads writes trace other part partOther) :
    Cut reads writes other trace partOther part :=
  ⟨cut.earlierOther, cut.earlier, cut.heardOther, cut.heard⟩

/-- A side that stops sooner than `fuller`: what arrives could have arrived in a run of that. -/
theorem Arrived.shortened {first fuller second : Party reads stops} {input other : List ι}
    (arrived : Arrived writes first second input other)
    (sooner : ∀ input, first.trace input <+: fuller.trace input) :
    Arrived writes fuller second input other := by
  induction arrived with
  | start => exact .start
  | atFirst _ extended within ih => exact ih.atFirst extended within
  | atSecond _ extended within ih =>
      exact ih.atSecond extended (within.trans (flatMap_mono writes (sooner _)))

theorem Arrived.cut {first fuller second : Party reads stops}
    {input other whole wholeOther : List ι}
    (arrived : Arrived writes first second input other)
    (sooner : ∀ input, first.trace input <+: fuller.trace input)
    (answers : (second.trace wholeOther).flatMap writes = whole)
    (asks : (fuller.trace whole).flatMap writes = wholeOther) :
    Cut reads writes (fuller.trace whole) (second.trace wholeOther) (first.trace input)
      (second.trace other) := by
  obtain ⟨below, belowOther⟩ := (arrived.shortened sooner).inside answers asks
  obtain ⟨sent, sentOther⟩ := arrived.sent
  exact ⟨(sooner input).trans (fuller.trace_mono below), second.trace_mono belowOther,
    ((first.within input).trans sent).length_le, ((second.within other).trans sentOther).length_le⟩

theorem prefix_append_cases {part first second : List ε} (earlier : part <+: first ++ second) :
    part <+: first ∨ ∃ rest, part = first ++ rest ∧ rest <+: second := by
  rcases List.prefix_or_prefix_of_prefix earlier (List.prefix_append first second) with
    inside | beyond
  · exact .inl inside
  · obtain ⟨rest, rfl⟩ := beyond
    exact .inr ⟨rest, rfl, (List.prefix_append_right_inj first).mp earlier⟩

def Tidy (stops : ε → Prop) (settled : List ε → Prop) (trace : List ε) : Prop :=
  ∀ part, Waiting stops trace part → settled part

theorem Tidy.append {settled : List ε → Prop} {first second : List ε}
    (joins : ∀ part rest, settled part → settled rest → settled (part ++ rest))
    (before : Tidy stops settled first) (after : Tidy stops settled second) :
    Tidy stops settled (first ++ second) := by
  intro part waiting
  rcases prefix_append_cases waiting.earlier with inside | ⟨rest, rfl, inside⟩
  · obtain ⟨more, rfl⟩ := inside
    refine before part ?_
    cases more with
    | nil => exact .inl (List.append_nil _).symm
    | cons event more =>
        rcases waiting with whole | ⟨stop, rest, split, stops⟩
        · rw [List.append_assoc] at whole
          have short := congrArg List.length whole
          simp at short
        · rw [List.append_assoc] at split
          obtain ⟨rfl, -⟩ := List.cons.inj (List.append_cancel_left split)
          exact .inr ⟨event, more, rfl, stops⟩
  · refine joins _ _ (before first (.inl rfl)) (after rest ?_)
    rcases waiting with whole | ⟨stop, later, split, stops⟩
    · exact .inl (List.append_cancel_left whole)
    · rw [List.append_assoc] at split
      exact .inr ⟨stop, later, List.append_cancel_left split, stops⟩

/-- Nothing is needed before something has been read. -/
def Prompted (reads : ε → List ι) (needs : ε → Option μ) (trace : List ε) : Prop :=
  ∀ part, part <+: trace → (∃ event ∈ part, needs event ≠ none) →
    0 < (part.flatMap reads).length

/-- At every moment of every run, what one side's events need the other has given. -/
def Backed (reads writes : ε → List ι) (needs gives : ε → Option μ) (trace other : List ε)
    (known : μ → Prop) : Prop :=
  ∀ part partOther, Cut reads writes trace other part partOther → ∀ event ∈ part, ∀ need,
    needs event = some need → known need ∨ ∃ given ∈ partOther, gives given = some need

theorem prompted_of_read {event : ε} {rest : List ε} (positive : 0 < (reads event).length)
    (silent : needs event = none) : Prompted reads needs (event :: rest) := by
  intro part earlier needed
  rcases part with _ | ⟨head, part⟩
  · obtain ⟨event, member, -⟩ := needed
    cases member
  · obtain ⟨rfl, -⟩ := List.cons_prefix_cons.mp earlier
    rw [List.flatMap_cons, List.length_append]
    omega

theorem Prompted.append {first second : List ε} (before : Prompted reads needs first)
    (after : Prompted reads needs second) : Prompted reads needs (first ++ second) := by
  intro part earlier needed
  rcases prefix_append_cases earlier with inside | ⟨rest, rfl, inside⟩
  · exact before part inside needed
  · obtain ⟨event, member, need⟩ := needed
    rw [List.flatMap_append, List.length_append]
    rcases List.mem_append.mp member with early | late
    · exact Nat.add_pos_left (before first (List.prefix_refl _) ⟨event, early, need⟩) _
    · exact Nat.add_pos_right _ (after rest inside ⟨event, late, need⟩)

theorem prompted_quiet {trace : List ε} (quiet : ∀ event ∈ trace, needs event = none) :
    Prompted reads needs trace := by
  intro part earlier needed
  obtain ⟨event, member, need⟩ := needed
  exact absurd (quiet event (earlier.subset member)) need

theorem backed_of_known {trace other : List ε} {known : μ → Prop}
    (now : ∀ event ∈ trace, ∀ need, needs event = some need → known need) :
    Backed reads writes needs gives trace other known :=
  fun _ _ cut event member need needed =>
    .inl (now event (cut.earlier.subset member) need needed)

theorem Backed.mono {trace other : List ε} {known wider : μ → Prop}
    (backed : Backed reads writes needs gives trace other known)
    (included : ∀ need, known need → wider need) :
    Backed reads writes needs gives trace other wider :=
  fun part partOther cut event member need needed =>
    (backed part partOther cut event member need needed).imp_left (included need)

/-- A round in which each side reads what the other writes, followed by more. -/
theorem Backed.append {first firstOther trace other : List ε} {known : μ → Prop}
    (heard : (first.flatMap reads).length = (firstOther.flatMap writes).length)
    (heardOther : (firstOther.flatMap reads).length = (first.flatMap writes).length)
    (now : ∀ event ∈ first, ∀ need, needs event = some need → known need)
    (prompted : Prompted reads needs trace)
    (rest : Backed reads writes needs gives trace other fun need =>
      known need ∨ ∃ given ∈ firstOther, gives given = some need) :
    Backed reads writes needs gives (first ++ trace) (firstOther ++ other) known := by
  intro part partOther cut event member need needed
  rcases prefix_append_cases cut.earlier with inside | ⟨later, rfl, inside⟩
  · exact .inl (now event (inside.subset member) need needed)
  · rcases List.mem_append.mp member with early | late
    · exact .inl (now event early need needed)
    · have asked := prompted later inside ⟨event, late, by rw [needed]; exact Option.some_ne_none _⟩
      have read := cut.heard
      rw [List.flatMap_append, List.length_append] at read
      -- the other side has written more than it does in the first round
      rcases prefix_append_cases cut.earlierOther with short | ⟨laterOther, rfl, insideOther⟩
      · have least := (flatMap_mono writes short).length_le
        omega
      · have readOther := cut.heardOther
        rw [List.flatMap_append, List.length_append, List.flatMap_append, List.length_append]
          at readOther
        rw [List.flatMap_append, List.length_append] at read
        have cutLater : Cut reads writes trace other later laterOther :=
          ⟨inside, insideOther, by omega, by omega⟩
        rcases rest later laterOther cutLater event late need needed with
          (before | ⟨given, early, gave⟩) | ⟨given, since, gave⟩
        · exact .inl before
        · exact .inr ⟨given, List.mem_append_left _ early, gave⟩
        · exact .inr ⟨given, List.mem_append_right _ since, gave⟩

inductive Woven (reads writes : ε → List ι) : List ε → List ε → Prop
  | start : Woven reads writes [] []
  | first {trace other : List ε} {event : ε} : Woven reads writes trace other →
      ((trace ++ [event]).flatMap reads).length ≤ (other.flatMap writes).length →
      Woven reads writes (trace ++ [event]) other
  | second {trace other : List ε} {event : ε} : Woven reads writes trace other →
      ((other ++ [event]).flatMap reads).length ≤ (trace.flatMap writes).length →
      Woven reads writes trace (other ++ [event])

section Woven

variable {trace other part partOther : List ε}

theorem Woven.swap (woven : Woven reads writes trace other) : Woven reads writes other trace := by
  induction woven with
  | start => exact .start
  | first _ covered ih => exact ih.second covered
  | second _ covered ih => exact ih.first covered

theorem Woven.firsts (woven : Woven reads writes trace other) (more : List ε)
    (covered : ((trace ++ more).flatMap reads).length ≤ (other.flatMap writes).length) :
    Woven reads writes (trace ++ more) other := by
  induction more generalizing trace with
  | nil =>
      rw [List.append_nil]
      exact woven
  | cons event more ih =>
      rw [← List.singleton_append, ← List.append_assoc] at covered ⊢
      refine ih (woven.first (Nat.le_trans (flatMap_mono reads ?_).length_le covered)) covered
      exact List.prefix_append _ _

theorem Woven.seconds (woven : Woven reads writes trace other) (more : List ε)
    (covered : ((other ++ more).flatMap reads).length ≤ (trace.flatMap writes).length) :
    Woven reads writes trace (other ++ more) :=
  (woven.swap.firsts more covered).swap

theorem Woven.append {later laterOther : List ε} (woven : Woven reads writes trace other)
    (heard : (trace.flatMap reads).length ≤ (other.flatMap writes).length)
    (heardOther : (other.flatMap reads).length ≤ (trace.flatMap writes).length)
    (rest : Woven reads writes later laterOther) :
    Woven reads writes (trace ++ later) (other ++ laterOther) := by
  induction rest with
  | start =>
      rw [List.append_nil, List.append_nil]
      exact woven
  | first _ covered ih =>
      rw [← List.append_assoc]
      refine ih.first ?_
      simp only [List.append_assoc, List.flatMap_append, List.length_append] at covered ⊢
      omega
  | second _ covered ih =>
      rw [← List.append_assoc]
      refine ih.second ?_
      simp only [List.append_assoc, List.flatMap_append, List.length_append] at covered ⊢
      omega

/-- Stuck: what comes next would read more than the other side has written. -/
def Stuck (reads writes : ε → List ι) (trace part partOther : List ε) : Prop :=
  part = trace ∨ ∃ event rest, trace = part ++ event :: rest ∧
    (partOther.flatMap writes).length < ((part ++ [event]).flatMap reads).length

theorem Stuck.reaches {whole now partNow : List ε} {event : ε}
    (stuck : Stuck reads writes whole part partOther) (inside : now <+: part)
    (onward : now ++ [event] <+: whole) (before : partNow <+: partOther)
    (covered : ((now ++ [event]).flatMap reads).length ≤ (partNow.flatMap writes).length) :
    now ++ [event] <+: part := by
  rcases stuck with rfl | ⟨next, rest, rfl, short⟩
  · exact onward
  · obtain ⟨more, rfl⟩ := inside
    cases more with
    | nil =>
        rw [List.append_nil] at short onward
        obtain ⟨tail, same⟩ := onward
        rw [List.append_assoc] at same
        obtain ⟨rfl, -⟩ := List.cons.inj (List.append_cancel_left same)
        have least := (flatMap_mono writes before).length_le
        omega
    | cons first more =>
        obtain ⟨tail, same⟩ := onward
        rw [List.append_assoc, List.append_assoc] at same
        obtain ⟨rfl, -⟩ := List.cons.inj (List.append_cancel_left same)
        exact ⟨more, by rw [List.append_assoc]; rfl⟩

theorem Woven.complete {whole wholeOther : List ε} (woven : Woven reads writes trace other)
    (inside : trace <+: whole) (insideOther : other <+: wholeOther)
    (stuck : Stuck reads writes whole part partOther)
    (stuckOther : Stuck reads writes wholeOther partOther part) :
    trace <+: part ∧ other <+: partOther := by
  induction woven with
  | start => exact ⟨List.nil_prefix, List.nil_prefix⟩
  | first _ covered ih =>
      obtain ⟨before, beforeOther⟩ := ih ((List.prefix_append _ _).trans inside) insideOther
      exact ⟨stuck.reaches before inside beforeOther covered, beforeOther⟩
  | second _ covered ih =>
      obtain ⟨before, beforeOther⟩ := ih inside ((List.prefix_append _ _).trans insideOther)
      exact ⟨before, stuckOther.reaches beforeOther insideOther before covered⟩

end Woven

/-- From every moment, what is on its way can be delivered until nothing is on its way. -/
theorem Arrived.settles {first second : Party reads stops} {input other whole wholeOther : List ι}
    (arrived : Arrived writes first second input other)
    (answers : (second.trace wholeOther).flatMap writes = whole)
    (asks : (first.trace whole).flatMap writes = wholeOther) :
    ∃ later laterOther, Arrived writes first second later laterOther ∧ input <+: later ∧
      other <+: laterOther ∧ later = (second.trace laterOther).flatMap writes ∧
      laterOther = (first.trace later).flatMap writes := by
  generalize sizeEq : whole.length + wholeOther.length - (input.length + other.length) = size
  induction size using Nat.strongRecOn generalizing input other with
  | ind size ih =>
      obtain ⟨sent, sentOther⟩ := arrived.sent
      by_cases all : input = (second.trace other).flatMap writes
      · by_cases allOther : other = (first.trace input).flatMap writes
        · exact ⟨input, other, arrived, List.prefix_refl _, List.prefix_refl _, all, allOther⟩
        · have next := arrived.atSecond sentOther (List.prefix_refl _)
          have bound := next.inside answers asks
          have grown : other.length < ((first.trace input).flatMap writes).length :=
            Nat.lt_of_le_of_ne sentOther.length_le fun same =>
              allOther (sentOther.eq_of_length same)
          obtain ⟨later, laterOther, reached, before, beforeOther, fixed⟩ :=
            ih _ (by
              have := bound.1.length_le
              have := bound.2.length_le
              omega) next rfl
          exact ⟨later, laterOther, reached, before, sentOther.trans beforeOther, fixed⟩
      · have next := arrived.atFirst sent (List.prefix_refl _)
        have bound := next.inside answers asks
        have grown : input.length < ((second.trace other).flatMap writes).length :=
          Nat.lt_of_le_of_ne sent.length_le fun same => all (sent.eq_of_length same)
        obtain ⟨later, laterOther, reached, before, beforeOther, fixed⟩ :=
          ih _ (by
            have := bound.1.length_le
            have := bound.2.length_le
            omega) next rfl
        exact ⟨later, laterOther, reached, sent.trans before, beforeOther, fixed⟩

end Duplex
