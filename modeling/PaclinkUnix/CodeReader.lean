import PaclinkUnix.BitSource
import PaclinkUnix.Codewords
import PaclinkUnix.DecodeSafety

/-!
The decoder reads the codes the encoder writes: from any stream of bits it takes a symbol
whose code comes first there, and a position whose code does.
-/

namespace PaclinkUnix

open Memory BitStream HuffmanTree BitReader

section Symbols

variable {tree : HuffmanTree} {reader : BitReader} {f : Nat → Bool} {k l : Nat} {bits : List Bool}

theorem descend_leads (linked : Linked tree) (leads : Leads tree k bits l) (inside : k < tableSize)
    (starts : Starts f bits) (leaf : tableSize ≤ tree.son l) (ready : Ready reader f) {fuel : Nat}
    (enough : k < fuel) :
    ∃ next, iterate (descend tree) fuel (tree.son k, reader) = some (tree.son l, next) ∧
      Ready next (beyond f bits.length) ∧
      ∀ between behind, Counts between behind → ∀ used, between used reader →
        (bits = [] → behind used reader) → behind (used + bits.length) next := by
  induction leads generalizing f reader fuel with
  | here k =>
      obtain ⟨fuel, rfl⟩ : ∃ fewer, fuel = fewer + 1 := ⟨fuel - 1, by omega⟩
      refine ⟨reader, ?_, ready, fun _ _ _ used _ first => first rfl⟩
      simp only [iterate, descend, if_neg (show ¬ tree.son k < tableSize by omega),
        Option.bind_eq_bind, Option.bind_some]
  | @down k l bits bit node _ ih =>
      obtain ⟨fuel, rfl⟩ : ∃ fewer, fuel = fewer + 1 := ⟨fuel - 1, by omega⟩
      obtain ⟨below, -, -, -⟩ := linked.sons inside node
      have small := Bool.toNat_le bit
      obtain ⟨next, reads, ready⟩ := getBit_ready ready
      rw [show f 0 = bit from starts 0 (Nat.succ_pos _)] at reads
      have read : tree.getSon (tree.son k + bit.toNat) = some (tree.son (tree.son k + bit.toNat)) :=
        getSon_some (by lia)
      obtain ⟨last, goes, kept, count⟩ := ih (by lia)
        (starts_append.mp (show Starts f ([bit] ++ bits) from starts)).2 leaf ready
        (show tree.son k + bit.toNat < fuel by omega)
      refine ⟨last, ?_, ?_, ?_⟩
      · simp only [iterate, descend, if_pos node, reads, read, Option.bind_eq_bind, Option.bind_some]
        exact goes
      · rw [beyond_beyond, Nat.add_comm] at kept
        exact kept
      · intro between behind counts used before _
        have taken := counts.bit before reads
        have later := count between behind counts (used + 1) (counts.either taken) fun _ => taken
        rw [Nat.add_assoc, Nat.add_comm 1] at later
        exact later

theorem decodeChar_ready (invariant : Invariant tree) (ready : Ready reader f) :
    ∃ c next after, decodeChar tree reader = some (c, next, after) ∧ c < nChar ∧
      tree.update c = some next ∧ Invariant next ∧ Starts f (tree.codeword c) ∧
      Ready after (beyond f (tree.codeword c).length) ∧
      ∀ between behind, Counts between behind → ∀ used, between used reader →
        behind (used + (tree.codeword c).length) after := by
  obtain ⟨linked, weighted⟩ := invariant
  obtain ⟨bits, l, leads, starts, inside, leaf⟩ :=
    linked.follow (show rootPosition < tableSize by lia) f
  obtain ⟨after, goes, kept, count⟩ := descend_leads linked leads
    (show rootPosition < tableSize by lia) starts leaf ready (show rootPosition < tableSize by lia)
  have known := linked.son_inside inside
  have parent : tree.prnt (tree.son l - tableSize + tableSize) = l := by
    rw [Nat.sub_add_cancel leaf]
    exact linked.child_parent inside (.inl rfl)
  have code : tree.codeword (tree.son l - tableSize) = bits :=
    Leads.codeword linked (parent.symm ▸ leads)
  obtain ⟨next, updates, invariant⟩ := update_total ⟨linked, weighted⟩
    (show tree.son l - tableSize < nChar by lia)
  have read : tree.getSon rootPosition = some (tree.son rootPosition) := getSon_some (by lia)
  have nonempty : bits ≠ [] := by
    have long := codeword_pos linked (show tree.son l - tableSize < nChar by lia)
    rw [code] at long
    exact List.ne_nil_of_length_pos long
  refine ⟨tree.son l - tableSize, next, after, ?_, by lia, updates, invariant, code ▸ starts,
    code ▸ kept, fun between behind counts used before => ?_⟩
  · simp only [decodeChar, read, goes, updates, Option.bind_eq_bind, Option.bind_some]
  · rw [code]
    exact count between behind counts used before fun empty => absurd empty nonempty

end Symbols

end PaclinkUnix
