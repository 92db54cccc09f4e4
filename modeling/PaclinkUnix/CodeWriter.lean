import PaclinkUnix.Library.BitStream
import PaclinkUnix.LzhufEncode

/-!
What `Putcode` writes: the codes one behind the other, each with zeros for its bits beyond
the sixteenth, as long as no more than sixteen bits are pending.
-/

namespace PaclinkUnix

open Memory BitStream

def cut (code : List Bool) : List Bool := code.take 16 ++ List.replicate (code.length - 16) false

/-- `putlen` after a code of `l` bits. -/
def pendingAfter (p l : Nat) : Nat :=
  if p + l < 8 then p + l else if p + l < 16 then p + l - 8 else p + l - 16

namespace BitWriter

/-- The bytes of the buffer, and then `putbuf`. -/
def bits (writer : BitWriter) (n : Nat) : Bool :=
  if n < 8 * writer.outbuf.data.length then bitAt writer.outbuf.data n
  else window writer.putbuf (n - 8 * writer.outbuf.data.length)

structure Written (writer : BitWriter) (sent : List Bool) : Prop where
  total : 8 * writer.outbuf.data.length + writer.putlen = sent.length
  same : ∀ n, writer.bits n = sent.getD n false

end BitWriter

/-- A word for `Putcode` holds what it can of this code. -/
structure Carries (c : BitVec 32) (code : List Bool) : Prop where
  small : Small c
  same : ∀ j, window c j = (decide (j < 16) && code.getD j false)

section Lists

variable {code : List Bool} {codes : List (List Bool)}

@[simp] theorem cut_length : (cut code).length = code.length := by
  rw [cut, List.length_append, List.length_take, List.length_replicate]
  omega

theorem cut_bits (j : Nat) : (cut code).getD j false = (decide (j < 16) && code.getD j false) := by
  by_cases inside : j < 16
  · rw [decide_eq_true inside, Bool.true_and, cut]
    by_cases front : j < code.length
    · rw [List.getD_append _ _ _ _ (by rw [List.length_take]; omega), List.getD_eq_getElem?_getD,
        List.getElem?_take_of_lt inside, List.getD_eq_getElem?_getD]
    · rw [List.getD_append_right _ _ _ _ (by rw [List.length_take]; omega),
        List.getD_eq_default _ _ (by rw [List.length_replicate, List.length_take]; omega),
        List.getD_eq_default _ _ (by omega)]
  · rw [decide_eq_false inside, Bool.false_and, cut,
      List.getD_append_right _ _ _ _ (by rw [List.length_take]; omega), List.getD_eq_getElem?_getD,
      List.getElem?_replicate]
    split <;> rfl

theorem cut_short (short : code.length ≤ 16) : cut code = code := by
  rw [cut, List.take_of_length_le short, Nat.sub_eq_zero_of_le short, List.replicate_zero,
    List.append_nil]

theorem cut_total : (codes.map cut).flatten.length = codes.flatten.length := by
  induction codes with
  | nil => rfl
  | cons code rest ih =>
      simp only [List.map_cons, List.flatten_cons, List.length_append, cut_length, ih]

end Lists

section Put

open BitWriter

variable {writer : BitWriter} {sent code : List Bool} {c : BitVec 32}

theorem sent_append (n : Nat) : (sent ++ cut code).getD n false =
    if n < sent.length then sent.getD n false
    else decide (n - sent.length < 16) && code.getD (n - sent.length) false := by
  by_cases front : n < sent.length
  · rw [if_pos front, List.getD_append _ _ _ _ front]
  · rw [if_neg front, List.getD_append_right _ _ _ _ (by omega), cut_bits]

theorem joined_bits (written : Written writer sent) (carries : Carries c code) {j : Nat}
    (inside : j < 16) :
    window (writer.putbuf ||| c >>> writer.putlen) j =
      (sent ++ cut code).getD (8 * writer.outbuf.data.length + j) false := by
  have total := written.total
  have pending := written.same (8 * writer.outbuf.data.length + j)
  rw [bits, if_neg (by omega), Nat.add_sub_cancel_left] at pending
  rw [window_or, window_shiftRight carries.small, sent_append, pending]
  by_cases old : j < writer.putlen
  · rw [if_pos old, if_pos (by omega), Bool.or_false]
  · rw [if_neg old, if_neg (by omega), List.getD_eq_default _ _ (by omega), Bool.false_or,
      decide_eq_true inside, Bool.true_and, carries.same,
      show 8 * writer.outbuf.data.length + j - sent.length = j - writer.putlen by omega]

theorem bits_old (written : Written writer sent) {n : Nat}
    (old : n < 8 * writer.outbuf.data.length) :
    bitAt writer.outbuf.data n = (sent ++ cut code).getD n false := by
  have total := written.total
  have same := written.same n
  rw [bits, if_pos old] at same
  rw [sent_append, if_pos (by omega), same]

/-- One more code is written when it is in the bytes put out and in `putbuf`. -/
theorem written_next (written : Written writer sent) {next : BitWriter} (out : List UInt8)
    (data : next.outbuf.data = writer.outbuf.data ++ out)
    (total : 8 * (writer.outbuf.data.length + out.length) + next.putlen = sent.length + code.length)
    (fresh : ∀ j < 8 * out.length,
      bitAt out j = (sent ++ cut code).getD (8 * writer.outbuf.data.length + j) false)
    (rest : ∀ j, window next.putbuf j =
      (sent ++ cut code).getD (8 * (writer.outbuf.data.length + out.length) + j) false) :
    Written next (sent ++ cut code) := by
  constructor
  · rw [data, List.length_append, List.length_append, cut_length]
    exact total
  · intro n
    rw [bits, data, List.length_append]
    by_cases early : n < 8 * (writer.outbuf.data.length + out.length)
    · rw [if_pos early, bitAt_append]
      by_cases old : n < 8 * writer.outbuf.data.length
      · rw [if_pos old, bits_old written old]
      · rw [if_neg old, fresh _ (by omega), Nat.add_sub_cancel' (by omega)]
    · rw [if_neg early, rest, Nat.add_sub_cancel' (by omega)]

/-- The window of a word is the next bits, when the first sixteen are and no more follow. -/
theorem window_sent {v : BitVec 32} {start : Nat}
    (inside : ∀ j < 16, window v j = (sent ++ cut code).getD (start + j) false)
    (short : sent.length + code.length ≤ start + 16) (j : Nat) :
    window v j = (sent ++ cut code).getD (start + j) false := by
  by_cases here : j < 16
  · exact inside j here
  · rw [window_past (by omega), List.getD_eq_default _ _ (by
      rw [List.length_append, cut_length]
      omega)]

theorem putcode_few (written : Written writer sent) (carries : Carries c code)
    (few : writer.putlen + code.length < 8) :
    ∃ next, writer.putcode code.length c = some next ∧ Written next (sent ++ cut code) ∧
      next.putlen = writer.putlen + code.length := by
  have total := written.total
  refine ⟨{ writer with
      putbuf := writer.putbuf ||| c >>> writer.putlen, putlen := writer.putlen + code.length },
    ?_, written_next written [] (List.append_nil _).symm (by simp only [List.length_nil]; omega)
      (fun j none => absurd none (Nat.not_lt_zero j)) ?_, rfl⟩
  · simp [putcode, shiftRight, show writer.putlen < 32 by omega,
      Nat.mod_eq_of_lt (show writer.putlen + code.length < 256 by omega),
      show ¬ 8 ≤ writer.putlen + code.length by omega]
  · exact window_sent (fun j inside => joined_bits written carries inside)
      (by simp only [List.length_nil]; omega)

theorem putcode_one (written : Written writer sent) (carries : Carries c code)
    (low : writer.putlen ≤ 16) (enough : 8 ≤ writer.putlen + code.length)
    (few : writer.putlen + code.length < 16) :
    ∃ next, writer.putcode code.length c = some next ∧ Written next (sent ++ cut code) ∧
      next.putlen = writer.putlen + code.length - 8 := by
  have total := written.total
  have joined := fun {j} => @joined_bits writer sent code c written carries j
  let v := writer.putbuf ||| c >>> writer.putlen
  refine ⟨{ ({ writer with putbuf := v } : BitWriter).fputBits (v >>> 8) with
      putbuf := v <<< 8, putlen := writer.putlen + code.length - 8 },
    ?_, written_next written [UInt8.ofBitVec ((v >>> 8).setWidth 8)] rfl
      (by simp only [List.length_singleton]; omega) ?_ ?_, rfl⟩
  · simp [putcode, shiftRight, show writer.putlen < 32 by omega,
      Nat.mod_eq_of_lt (show writer.putlen + code.length < 256 by omega), enough,
      show ¬ 8 ≤ writer.putlen + code.length - 8 by omega, v, fputBits, crcFputc]
  · intro j inside
    rw [List.length_singleton] at inside
    rw [bitAt_cons, if_pos inside, byteBit_high inside]
    exact joined (by omega)
  · intro j
    simp only [List.length_singleton]
    rw [window_shiftLeft, show 8 * (writer.outbuf.data.length + 1) + j =
      8 * writer.outbuf.data.length + (j + 8) by omega]
    exact window_sent (fun j inside => joined inside) (by omega) (j + 8)

theorem putcode_two (written : Written writer sent) (carries : Carries c code)
    (low : writer.putlen ≤ 16) (enough : 16 ≤ writer.putlen + code.length)
    (short : code.length < 200) :
    ∃ next, writer.putcode code.length c = some next ∧ Written next (sent ++ cut code) ∧
      next.putlen = writer.putlen + code.length - 16 := by
  have total := written.total
  have joined := fun {j} => @joined_bits writer sent code c written carries j
  let v := writer.putbuf ||| c >>> writer.putlen
  refine ⟨{ (({ writer with putbuf := v } : BitWriter).fputBits (v >>> 8)).fputBits v with
      putbuf := c <<< (16 - writer.putlen), putlen := writer.putlen + code.length - 16 },
    ?_, written_next written [UInt8.ofBitVec ((v >>> 8).setWidth 8), UInt8.ofBitVec (v.setWidth 8)]
      ?_ (by simp only [List.length_cons, List.length_nil]; omega) ?_ ?_, rfl⟩
  · have left : shiftLeft c code.length (writer.putlen + code.length - 16) =
        some (c <<< (16 - writer.putlen)) := by
      rw [shiftLeft, if_pos (by omega), show code.length - (writer.putlen + code.length - 16) =
        16 - writer.putlen by omega]
    simp only [putcode, shiftRight, if_pos (show writer.putlen < 32 by omega), Option.bind_eq_bind,
      Option.bind_some, Nat.mod_eq_of_lt (show writer.putlen + code.length < 256 by omega),
      if_pos (show 8 ≤ writer.putlen + code.length by omega),
      if_pos (show 8 ≤ writer.putlen + code.length - 8 by omega),
      show writer.putlen + code.length - 8 - 8 = writer.putlen + code.length - 16 by omega, left]
    rfl
  · simp [fputBits, crcFputc, Buffer.addchar]
  · intro j inside
    simp only [List.length_cons, List.length_nil] at inside
    rw [bitAt_cons]
    by_cases first : j < 8
    · rw [if_pos first, byteBit_high first]
      exact joined (by omega)
    · rw [if_neg first, bitAt_cons, if_pos (by omega), byteBit_low (by omega),
        Nat.sub_add_cancel (by omega)]
      exact joined (by omega)
  · intro j
    simp only [List.length_cons, List.length_nil]
    rw [window_shiftLeft, carries.same, sent_append, if_neg (by omega),
      show 8 * (writer.outbuf.data.length + (0 + 1 + 1)) + j - sent.length =
        j + (16 - writer.putlen) by omega]

/-- A code is put after the others, with zeros for what its word cannot hold. -/
theorem putcode_written (written : Written writer sent) (carries : Carries c code)
    (low : writer.putlen ≤ 16) (short : code.length < 200) :
    ∃ next, writer.putcode code.length c = some next ∧ Written next (sent ++ cut code) ∧
      next.putlen = pendingAfter writer.putlen code.length := by
  unfold pendingAfter
  by_cases few : writer.putlen + code.length < 8
  · rw [if_pos few]
    exact putcode_few written carries few
  · rw [if_neg few]
    by_cases one : writer.putlen + code.length < 16
    · rw [if_pos one]
      exact putcode_one written carries low (by omega) one
    · rw [if_neg one]
      exact putcode_two written carries low (by omega) short

theorem putcode_none {l : Nat} (high : 16 < writer.putlen) (low : writer.putlen < 32)
    (positive : 0 < l) (short : l < 200) : writer.putcode l c = none := by
  simp [putcode, shiftRight, shiftLeft, low, Nat.mod_eq_of_lt (show writer.putlen + l < 256 by omega),
    show 8 ≤ writer.putlen + l by omega, show 8 ≤ writer.putlen + l - 8 by omega,
    show ¬ writer.putlen + l - 8 - 8 ≤ l by omega]

end Put

end PaclinkUnix
