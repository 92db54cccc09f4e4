import Mathlib.Data.List.Basic
import Mathlib.Tactic.Ring

/-!
Iterated hash functions: a message is cut into blocks of one size, and a compression
function absorbs them one after the other. A streaming computation keeps the state after
some of the blocks and the bytes behind them.
-/

namespace BlockHash

variable {σ α : Type} {compress : σ → List α → σ} {size count more : Nat}
  {start state : σ} {message front rest first second : List α}

/-- Absorb the first `count` blocks. -/
def absorb (compress : σ → List α → σ) (size : Nat) : Nat → σ → List α → σ
  | 0, state, _ => state
  | count + 1, state, message =>
      absorb compress size count (compress state (message.take size)) (message.drop size)

def digest (compress : σ → List α → σ) (size : Nat) (start : σ) (message : List α) : σ :=
  absorb compress size (message.length / size) start message

theorem absorb_append (whole : first.length = count * size) :
    absorb compress size (count + more) state (first ++ second) =
      absorb compress size more (absorb compress size count state first) second := by
  induction count generalizing state first with
  | zero =>
      obtain rfl := List.eq_nil_of_length_eq_zero (whole.trans (Nat.zero_mul size))
      rw [Nat.zero_add, List.nil_append, absorb]
  | succ count ih =>
      have inside : size ≤ first.length := by
        rw [whole, Nat.succ_mul]
        exact Nat.le_add_left _ _
      have left : (first.drop size).length = count * size := by
        rw [List.length_drop, whole, Nat.succ_mul, Nat.add_sub_cancel]
      rw [Nat.add_right_comm, absorb, absorb, List.take_append_of_le_length inside,
        List.drop_append_of_le_length inside, ih left]

/-- The whole blocks of `message` in front of `rest` have been absorbed. -/
def Absorbed (compress : σ → List α → σ) (size : Nat) (start : σ) (message : List α) (state : σ)
    (rest : List α) : Prop :=
  ∃ count front, message = front ++ rest ∧ front.length = count * size ∧
    state = absorb compress size count start front

theorem absorbed_start : Absorbed compress size start [] start [] :=
  ⟨0, [], rfl, (Nat.zero_mul size).symm, rfl⟩

theorem Absorbed.extend (absorbed : Absorbed compress size start message state rest)
    (chunk : List α) :
    Absorbed compress size start (message ++ chunk) state (rest ++ chunk) := by
  obtain ⟨count, front, rfl, whole, rfl⟩ := absorbed
  exact ⟨count, front, List.append_assoc _ _ _, whole, rfl⟩

theorem Absorbed.blocks (absorbed : Absorbed compress size start message state (first ++ rest))
    (whole : first.length = count * size) :
    Absorbed compress size start message (absorb compress size count state first) rest := by
  obtain ⟨before, front, rfl, wholeFront, rfl⟩ := absorbed
  refine ⟨before + count, front ++ first, (List.append_assoc _ _ _).symm, ?_, ?_⟩
  · rw [List.length_append, wholeFront, whole]
    ring
  · exact (absorb_append wholeFront).symm

theorem Absorbed.length_eq (absorbed : Absorbed compress size start message state rest) :
    ∃ count, message.length = count * size + rest.length := by
  obtain ⟨count, front, rfl, whole, -⟩ := absorbed
  exact ⟨count, by rw [List.length_append, whole]⟩

theorem Absorbed.result (absorbed : Absorbed compress size start message state [])
    (positive : 0 < size) : state = digest compress size start message := by
  obtain ⟨count, front, rfl, whole, rfl⟩ := absorbed
  rw [List.append_nil, BlockHash.digest, whole, Nat.mul_div_cancel _ positive]

end BlockHash
