import Mathlib.Algebra.Order.Ring.GeomSum
import Mathlib.Data.Fintype.BigOperators
import Mathlib.Data.Fintype.Sigma

/-!
No rule makes all words of a length shorter and keeps them apart: there are fewer shorter
words than words of that length.
-/

namespace Compression

variable {α : Type} [Fintype α]

/-- The words of less than `n` letters, by their length. -/
abbrev Shorter (α : Type) (n : Nat) : Type := Σ k : Fin n, List.Vector α k

theorem card_shorter (letters : 2 ≤ Fintype.card α) (n : Nat) :
    Fintype.card (Shorter α n) < Fintype.card (List.Vector α n) := by
  rw [card_vector, Fintype.card_sigma]
  calc
    ∑ k : Fin n, Fintype.card (List.Vector α k) = ∑ k : Fin n, Fintype.card α ^ (k : Nat) :=
      Finset.sum_congr rfl fun k _ => card_vector _
    _ = ∑ k ∈ Finset.range n, Fintype.card α ^ k :=
      Fin.sum_univ_eq_sum_range (fun k => Fintype.card α ^ k) n
    _ < Fintype.card α ^ n := Nat.geomSum_lt letters fun k inside => Finset.mem_range.mp inside

theorem collide (letters : 2 ≤ Fintype.card α) {n : Nat} (rule : List α → List α)
    (shorter : ∀ word, word.length = n → (rule word).length < n) :
    ∃ one two, one.length = n ∧ two.length = n ∧ one ≠ two ∧ rule one = rule two := by
  obtain ⟨⟨one, length⟩, ⟨two, length'⟩, apart, same⟩ :=
    Fintype.exists_ne_map_eq_of_card_lt
      (fun word : List.Vector α n =>
        (⟨⟨(rule word.1).length, shorter word.1 word.2⟩, ⟨rule word.1, rfl⟩⟩ : Shorter α n))
      (card_shorter letters n)
  refine ⟨one, two, length, length', fun equal => apart (Subtype.ext equal), ?_⟩
  have words := congrArg (fun word : Shorter α n => word.2.1) same
  exact words

end Compression
