import Mathlib.Data.List.TakeWhile
import Mathlib.Data.Nat.Digits.Lemmas

/-!
Bytes and C strings: the part of the C library the sources call, and `strutil.c`.
A C string is the list of its bytes before the terminating NUL.
-/

namespace PaclinkUnix

abbrev Bytes := List UInt8

def ascii (text : String) : Bytes := text.toList.map fun char => UInt8.ofNat char.toNat

def carriageReturn : UInt8 := 13
def lineFeed : UInt8 := 10
def crlf : Bytes := [carriageReturn, lineFeed]

def cstring (buffer : Bytes) : Bytes := buffer.takeWhile (· ≠ 0)

def isspace (char : UInt8) : Bool := char == 32 || (9 ≤ char && char ≤ 13)

def isascii (char : UInt8) : Bool := char < 128

def toupper (char : UInt8) : UInt8 := if 97 ≤ char ∧ char ≤ 122 then char - 32 else char

def tolower (char : UInt8) : UInt8 := if 65 ≤ char ∧ char ≤ 90 then char + 32 else char

def skipSpace (text : Bytes) : Bytes := text.dropWhile isspace

def strupper (text : Bytes) : Bytes := text.map toupper

def strbegins (text start : Bytes) : Bool := start.isPrefixOf text

def strcasebegins (text start : Bytes) : Bool :=
  (start.map tolower).isPrefixOf (text.map tolower)

def strchr (char : UInt8) : Bytes → Option Bytes
  | [] => none
  | first :: rest => if first = char then some (first :: rest) else strchr char rest

def strzapcc (text : Bytes) : Bytes := (text.takeWhile (· ≠ 13)).takeWhile (· ≠ 10)

/-! Numbers: `strtoul` returns the value and what `endp` points to, `decimal` is `%lu`
and `hexByte` is `%02X`. -/

def ulongMax : Nat := 2 ^ 64 - 1

def digitValue (char : UInt8) : Option Nat :=
  if 48 ≤ char ∧ char ≤ 57 then some (char.toNat - 48)
  else if 65 ≤ char ∧ char ≤ 90 then some (char.toNat - 55)
  else if 97 ≤ char ∧ char ≤ 122 then some (char.toNat - 87)
  else none

def digitIn (base : Nat) (char : UInt8) : Option Nat :=
  (digitValue char).filter (· < base)

def scanDigits (base : Nat) : Nat → Bytes → Nat × Bytes
  | value, [] => (value, [])
  | value, char :: rest =>
      match digitIn base char with
      | some digit => scanDigits base (value * base + digit) rest
      | none => (value, char :: rest)

def skipHexMark (base : Nat) : Bytes → Bytes
  | 48 :: mark :: digit :: rest =>
      if base = 16 ∧ (mark = 120 ∨ mark = 88) ∧ (digitIn base digit).isSome then digit :: rest
      else 48 :: mark :: digit :: rest
  | text => text

def skipSign : Bytes → Bool × Bytes
  | 45 :: rest => (true, rest)
  | 43 :: rest => (false, rest)
  | text => (false, text)

def strtoul (text : Bytes) (base : Nat) : Nat × Bytes :=
  let (negative, unsigned) := skipSign (skipSpace text)
  let digits := skipHexMark base unsigned
  match digits with
  | [] => (0, text)
  | char :: _ =>
      if (digitIn base char).isSome then
        let (value, rest) := scanDigits base 0 digits
        (if ulongMax < value then ulongMax
          else if negative then (2 ^ 64 - value) % 2 ^ 64 else value, rest)
      else (0, text)

def decimal (value : Nat) : Bytes :=
  (Nat.toDigits 10 value).map fun char => UInt8.ofNat char.toNat

def hexByte (value : Nat) : Bytes :=
  [value / 16, value % 16].map fun digit => UInt8.ofNat (if digit < 10 then 48 + digit else 55 + digit)

@[simp] theorem cstring_nil : cstring [] = [] := rfl

theorem cstring_of_notNul {text : Bytes} (notNul : ∀ char ∈ text, char ≠ 0) :
    cstring text = text := by
  exact List.takeWhile_eq_self_iff.mpr fun char member => by simpa using notNul char member

theorem cstring_notNul (buffer : Bytes) : ∀ char ∈ cstring buffer, char ≠ 0 := by
  intro char member
  simpa using List.mem_takeWhile_imp member

theorem strbegins_append (start rest : Bytes) : strbegins (start ++ rest) start = true := by
  simp [strbegins, List.isPrefixOf_iff_prefix]

theorem skipSpace_of_notSpace {char : UInt8} {rest : Bytes} (notSpace : isspace char = false) :
    skipSpace (char :: rest) = char :: rest := by
  simp [skipSpace, notSpace]

theorem skipSpace_space (text : Bytes) : skipSpace (32 :: text) = skipSpace text := by
  have space : isspace 32 = true := by decide
  simp [skipSpace, space]

theorem strchr_append {char : UInt8} {before : Bytes} (absent : char ∉ before) (rest : Bytes) :
    strchr char (before ++ char :: rest) = some (char :: rest) := by
  induction before with
  | nil => simp [strchr]
  | cons first before ih =>
      rw [List.mem_cons, not_or] at absent
      rw [List.cons_append, strchr, if_neg (Ne.symm absent.1), ih absent.2]

theorem strchr_none {char : UInt8} {text : Bytes} (absent : char ∉ text) :
    strchr char text = none := by
  induction text with
  | nil => rfl
  | cons first text ih =>
      rw [List.mem_cons, not_or] at absent
      rw [strchr, if_neg (Ne.symm absent.1), ih absent.2]

theorem strchr_mem {char : UInt8} {text : Bytes} (present : char ∈ text) :
    (strchr char text).isSome := by
  obtain ⟨before, rest, rfl, absent⟩ := List.eq_append_cons_of_mem present
  rw [strchr_append absent]
  rfl

theorem takeWhile_before {char : UInt8} {before : Bytes} (absent : char ∉ before) (rest : Bytes) :
    (before ++ char :: rest).takeWhile (· ≠ char) = before := by
  rw [List.takeWhile_append_of_pos]
  · simp
  · intro other member
    simp only [ne_eq, decide_eq_true_eq]
    rintro rfl
    exact absent member

theorem strchr_subset {char : UInt8} {text rest : Bytes} (found : strchr char text = some rest) :
    rest <:+ text := by
  induction text with
  | nil => cases found
  | cons first text ih =>
      rw [strchr] at found
      split at found
      · cases found
        exact List.suffix_refl _
      · exact (ih found).trans (List.suffix_cons _ _)

theorem digitIn_digitChar (digit : Nat) (bound : digit < 10) :
    digitIn 10 (UInt8.ofNat digit.digitChar.toNat) = some digit := by
  have table : ∀ digit, digit < 10 →
      digitIn 10 (UInt8.ofNat (Nat.digitChar digit).toNat) = some digit := by decide
  exact table digit bound

theorem decimal_small {value : Nat} (small : value < 10) :
    decimal value = [UInt8.ofNat value.digitChar.toNat] := by
  simp [decimal, Nat.toDigits_of_lt_base small]

theorem decimal_large {value : Nat} (large : 10 ≤ value) :
    decimal value = decimal (value / 10) ++ [UInt8.ofNat (value % 10).digitChar.toNat] := by
  simp [decimal, Nat.toDigits_of_base_le (by omega) large]

theorem scanDigits_decimal (value : Nat) (rest : Bytes) :
    scanDigits 10 0 (decimal value ++ rest) = scanDigits 10 value rest := by
  induction value using Nat.strongRecOn generalizing rest with
  | ind value ih =>
      by_cases small : value < 10
      · simp [decimal_small small, scanDigits, digitIn_digitChar value small]
      · rw [decimal_large (by omega), List.append_assoc, ih (value / 10) (by omega)]
        simp only [List.cons_append, List.nil_append, scanDigits,
          digitIn_digitChar (value % 10) (by omega)]
        rw [show value / 10 * 10 + value % 10 = value by omega]

theorem decimal_cons (value : Nat) :
    ∃ digit rest, digit < 10 ∧ decimal value = UInt8.ofNat (Nat.digitChar digit).toNat :: rest := by
  induction value using Nat.strongRecOn with
  | ind value ih =>
      by_cases small : value < 10
      · exact ⟨value, [], small, decimal_small small⟩
      · obtain ⟨digit, rest, bound, front⟩ := ih (value / 10) (by omega)
        refine ⟨digit, rest ++ [UInt8.ofNat (value % 10).digitChar.toNat], bound, ?_⟩
        rw [decimal_large (by omega), front, List.cons_append]

theorem digitChar_facts (digit : Nat) (bound : digit < 10) :
    let char := UInt8.ofNat (Nat.digitChar digit).toNat
    isspace char = false ∧ 48 ≤ char ∧ char ≤ 57 := by
  have table : ∀ digit, digit < 10 →
      isspace (UInt8.ofNat (Nat.digitChar digit).toNat) = false ∧
      48 ≤ UInt8.ofNat (Nat.digitChar digit).toNat ∧
      UInt8.ofNat (Nat.digitChar digit).toNat ≤ 57 := by decide
  exact table digit bound

theorem decimal_digits (value : Nat) : ∀ char ∈ decimal value, 48 ≤ char ∧ char ≤ 57 := by
  induction value using Nat.strongRecOn with
  | ind value ih =>
      by_cases small : value < 10
      · simpa [decimal_small small] using (digitChar_facts value small).2
      · intro char member
        rw [decimal_large (by omega), List.mem_append, List.mem_singleton] at member
        rcases member with earlier | rfl
        · exact ih (value / 10) (by omega) char earlier
        · exact (digitChar_facts (value % 10) (by omega)).2

theorem skipSign_digit {char : UInt8} {rest : Bytes} (lower : 48 ≤ char) :
    skipSign (char :: rest) = (false, char :: rest) := by
  rw [skipSign]
  · intro _ same
    obtain ⟨rfl, -⟩ := List.cons.inj same
    exact absurd lower (by decide)
  · intro _ same
    obtain ⟨rfl, -⟩ := List.cons.inj same
    exact absurd lower (by decide)

theorem skipHexMark_ten (text : Bytes) : skipHexMark 10 text = text := by
  unfold skipHexMark
  split <;> simp

/-- `strtoul` undoes `%lu` in front of a byte that is not a digit. -/
theorem strtoul_decimal {value : Nat} (fits : value ≤ ulongMax) {rest : Bytes}
    (stops : ∀ char ∈ rest.head?, digitIn 10 char = none) :
    strtoul (decimal value ++ rest) 10 = (value, rest) := by
  obtain ⟨digit, more, bound, front⟩ := decimal_cons value
  obtain ⟨notSpace, lower, -⟩ := digitChar_facts digit bound
  have scanned : scanDigits 10 0 (decimal value ++ rest) = (value, rest) := by
    rw [scanDigits_decimal]
    cases rest with
    | nil => rfl
    | cons char rest => simp [scanDigits, stops char (by simp)]
  rw [front, List.cons_append] at scanned ⊢
  simp only [strtoul, skipSpace_of_notSpace notSpace, skipSign_digit lower, skipHexMark_ten,
    digitIn_digitChar digit bound, Option.isSome_some, if_true, scanned]
  simp [Nat.not_lt.mpr fits]

theorem strtoul_hexByte (value : Nat) (bound : value < 256) :
    strtoul (32 :: hexByte value) 16 = (value, []) := by
  have table : ∀ value, value < 256 → strtoul (32 :: hexByte value) 16 = (value, []) := by
    decide +kernel
  exact table value bound

end PaclinkUnix
