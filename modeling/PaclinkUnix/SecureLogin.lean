import PaclinkUnix.Md5Digest

/-!
The answer to a secure login challenge: eight decimal digits from the digest of the
challenge, the password and a fixed salt.
-/

namespace PaclinkUnix

open Rfc1321

def slSalt : Bytes := [
  77, 197, 101, 206, 190, 249,
  93, 200, 51, 243, 93, 237,
  71, 94, 239, 138, 68, 108,
  70, 185, 225, 137, 217, 16,
  51, 122, 193, 48, 194, 195,
  198, 175, 172, 169, 70, 84,
  61, 62, 104, 186, 114, 52,
  61, 168, 66, 129, 192, 208,
  187, 249, 232, 193, 41, 113,
  41, 45, 240, 16, 29, 228,
  208, 228, 61, 20]

/-- `%08d` of a number that is not negative. -/
def paddedDecimal (width value : Nat) : Bytes :=
  List.replicate (width - (decimal value).length) 48 ++ decimal value

def responseNumber (hashSig : Bytes) : Nat :=
  (hashSig.getD 3 0 &&& 0x3f).toNat <<< 24 + (hashSig.getD 2 0).toNat <<< 16 +
    (hashSig.getD 1 0).toNat <<< 8 + (hashSig.getD 0 0).toNat

/-- The response buffer has nine bytes; `uninit` is what `md5_buffer` has on its stack. -/
def computeSecureLoginResponse (uninit challenge password : Bytes) : Option Bytes := do
  let hashInput := challenge ++ password ++ slSalt
  let n := hashInput.length
  let hashSig ← md5Buffer uninit hashInput (n % 2 ^ 32)
  let prStr := paddedDecimal 8 (responseNumber hashSig)
  some (if 8 < prStr.length then prStr.drop (prStr.length - 8) else prStr)

def numeral : Nat → Nat → Bytes
  | 0, _ => []
  | width + 1, value => numeral width (value / 10) ++ [UInt8.ofNat (value % 10).digitChar.toNat]

theorem numeral_length (width value : Nat) : (numeral width value).length = width := by
  induction width generalizing value with
  | zero => rfl
  | succ width ih => rw [numeral, List.length_append, ih, List.length_singleton]

theorem numeral_zero (width : Nat) : numeral width 0 = List.replicate width 48 := by
  induction width with
  | zero => rfl
  | succ width ih =>
      rw [numeral, Nat.zero_div, ih, List.replicate_succ']
      rfl

theorem numeral_digits (width value : Nat) :
    ∀ char ∈ numeral width value, 48 ≤ char ∧ char ≤ 57 := by
  induction width generalizing value with
  | zero => simp [numeral]
  | succ width ih =>
      intro char member
      rw [numeral, List.mem_append, List.mem_singleton] at member
      rcases member with earlier | rfl
      · exact ih _ char earlier
      · exact (digitChar_facts (value % 10) (by omega)).2

theorem paddedDecimal_last (width value : Nat) :
    (paddedDecimal width value).drop ((paddedDecimal width value).length - width) =
      numeral width value := by
  induction width generalizing value with
  | zero => rw [Nat.sub_zero, List.drop_length, numeral]
  | succ width ih =>
      by_cases small : value < 10
      · have digit : paddedDecimal (width + 1) value =
            List.replicate width 48 ++ [UInt8.ofNat value.digitChar.toNat] := by
          rw [paddedDecimal, decimal_small small, List.length_singleton, Nat.add_sub_cancel]
        rw [digit, numeral, Nat.div_eq_of_lt small, Nat.mod_eq_of_lt small, numeral_zero,
          List.length_append, List.length_replicate, List.length_singleton, Nat.sub_self,
          List.drop_zero]
      · have digits : paddedDecimal (width + 1) value =
            paddedDecimal width (value / 10) ++ [UInt8.ofNat (value % 10).digitChar.toNat] := by
          rw [paddedDecimal, decimal_large (by omega), paddedDecimal, List.length_append,
            List.length_singleton, Nat.add_sub_add_right, List.append_assoc]
        rw [digits, List.length_append, List.length_singleton, Nat.add_sub_add_right,
          List.drop_append_of_le_length (by omega), ih, numeral]

theorem scanDigits_numeral (width value start : Nat) (rest : Bytes) :
    scanDigits 10 start (numeral width value ++ rest) =
      scanDigits 10 (start * 10 ^ width + value % 10 ^ width) rest := by
  induction width generalizing value rest with
  | zero => simp [numeral, Nat.mod_one]
  | succ width ih =>
      have carried : start * 10 ^ (width + 1) + value % 10 ^ (width + 1) =
          (start * 10 ^ width + value / 10 % 10 ^ width) * 10 + value % 10 := by
        rw [Nat.pow_succ', Nat.mod_mul]
        ring
      rw [numeral, List.append_assoc, ih]
      simp only [List.cons_append, List.nil_append, scanDigits,
        digitIn_digitChar (value % 10) (by omega), carried]

theorem digit_facts {char : UInt8} (lower : 48 ≤ char) (upper : char ≤ 57) :
    isspace char = false ∧ (digitIn 10 char).isSome = true := by
  have table : ∀ value < 58, 48 ≤ value →
      isspace (UInt8.ofNat value) = false ∧ (digitIn 10 (UInt8.ofNat value)).isSome = true := by
    decide
  have found := table char.toNat (Nat.lt_succ_of_le (UInt8.le_iff_toNat_le.mp upper))
    (UInt8.le_iff_toNat_le.mp lower)
  rwa [UInt8.ofNat_toNat] at found

theorem strtoul_numeral {width value : Nat} (positive : 0 < width) (fits : 10 ^ width ≤ ulongMax) :
    strtoul (numeral width value) 10 = (value % 10 ^ width, []) := by
  have scanned := scanDigits_numeral width value 0 []
  have digits := numeral_digits width value
  have below : value % 10 ^ width < 10 ^ width := Nat.mod_lt _ (by positivity)
  rw [List.append_nil, Nat.zero_mul, Nat.zero_add, scanDigits] at scanned
  rcases shape : numeral width value with _ | ⟨char, rest⟩
  · have length := numeral_length width value
    rw [shape] at length
    exact absurd length (by simp; omega)
  · rw [shape] at scanned digits
    obtain ⟨lower, upper⟩ := digits char (by simp)
    obtain ⟨notSpace, digit⟩ := digit_facts lower upper
    simp only [strtoul, skipSpace_of_notSpace notSpace, skipSign_digit lower, skipHexMark_ten,
      digit, if_true, scanned]
    simp [Nat.not_lt.mpr (below.le.trans fits)]

/-- Bytes with the low one first. -/
def littleValue : Bytes → Nat
  | [] => 0
  | char :: rest => char.toNat + 256 * littleValue rest

theorem responseNumber_little {hashSig : Bytes} (long : 4 ≤ hashSig.length) :
    responseNumber hashSig = littleValue (hashSig.take 4) % 2 ^ 30 := by
  rcases hashSig with _ | ⟨first, _ | ⟨second, _ | ⟨third, _ | ⟨fourth, rest⟩⟩⟩⟩
  · simp at long
  · simp at long
  · simp at long
  · simp at long
  · have low := first.toNat_lt
    have mid := second.toNat_lt
    have high := third.toNat_lt
    have top := fourth.toNat_lt
    have masked : (fourth &&& 0x3f).toNat = fourth.toNat % 64 := by
      rw [UInt8.toNat_and]
      exact Nat.and_two_pow_sub_one_eq_mod fourth.toNat 6
    simp only [responseNumber, List.getD_cons_zero, List.getD_cons_succ, masked, List.take,
      littleValue, Nat.shiftLeft_eq]
    omega

theorem md5_length (message : Bytes) : (Rfc1321.md5 message).length = 16 := by
  simp [Rfc1321.md5, output, littleBytes]

/-- What a response has to be: eight digits whose value is the login number. -/
structure IsResponse (challenge password response : Bytes) : Prop where
  length : response.length = 8
  digits : ∀ char ∈ response, 48 ≤ char ∧ char ≤ 57
  value : strtoul response 10 =
    (littleValue ((Rfc1321.md5 (challenge ++ password ++ slSalt)).take 4) % 2 ^ 30 % 10 ^ 8, [])

/-- The response depends only on the challenge and the password, and it and its NUL fit
into nine bytes. -/
theorem secure_login_response (uninit challenge password : Bytes)
    (room : uninit.length = md5BufferSize)
    (fits : challenge.length + password.length + slSalt.length < 2 ^ 32) :
    ∃ response, computeSecureLoginResponse uninit challenge password = some response ∧
      IsResponse challenge password response := by
  have short : (challenge ++ password ++ slSalt).length < 2 ^ 32 := by
    rw [List.length_append, List.length_append]
    exact fits
  have hashed := @md5Buffer_digest uninit (challenge ++ password ++ slSalt)
    (challenge ++ password ++ slSalt).length room short
  rw [List.take_length] at hashed
  have last := paddedDecimal_last 8
    (responseNumber (Rfc1321.md5 (challenge ++ password ++ slSalt)))
  refine ⟨numeral 8 (responseNumber (Rfc1321.md5 (challenge ++ password ++ slSalt))), ?_,
    numeral_length _ _, numeral_digits _ _, ?_⟩
  · rw [computeSecureLoginResponse]
    simp only [Nat.mod_eq_of_lt short, hashed, Option.bind_eq_bind, Option.bind_some]
    rw [← last]
    split
    · rfl
    · rename_i whole
      rw [Nat.sub_eq_zero_of_le (Nat.not_lt.mp whole), List.drop_zero]
  · rw [strtoul_numeral (by decide) (by decide), responseNumber_little (by rw [md5_length]; decide)]

theorem secure_login_response_sample :
    ∃ response, computeSecureLoginResponse (List.replicate 128 0) (ascii "23753528")
        (ascii "FOOBAR") = some response ∧
      IsResponse (ascii "23753528") (ascii "FOOBAR") response :=
  secure_login_response _ _ _ List.length_replicate (by decide +kernel)

end PaclinkUnix
