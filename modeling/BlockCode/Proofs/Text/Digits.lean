/- # Written numbers

The digits of a number are read back as the number, so different numbers are written differently.
There is no zero in front of them unless the number is zero.
-/

import BlockCode.Text.Basic

namespace BlockCode

theorem toString_eq_ofList (n : Nat) : toString n = String.ofList (Nat.toDigits 10 n) := rfl

theorem toDigits_of_lt {n : Nat} (h : n < 10) : Nat.toDigits 10 n = [n.digitChar] := by
  rw [Nat.toDigits_eq_if (by decide), if_pos h]

theorem toDigits_of_le {n : Nat} (h : 10 ≤ n) :
    Nat.toDigits 10 n = Nat.toDigits 10 (n / 10) ++ [(n % 10).digitChar] := by
  rw [Nat.toDigits_eq_if (by decide), if_neg (by omega)]

/-- A digit is worth what it is written for. -/
theorem isAsciiDigit_digitChar {n : Nat} (h : n < 10) :
    isAsciiDigit n.digitChar = true ∧ n.digitChar.toNat - '0'.toNat = n := by
  revert n
  decide

theorem digitsValue_append_singleton (digits : List Char) (d : Char) :
    digitsValue (digits ++ [d]) = 10 * digitsValue digits + (d.toNat - '0'.toNat) := by
  rw [digitsValue, List.foldl_append]
  rfl

/-- The digits of a number give the number back. -/
theorem digitsValue_toDigits (n : Nat) : digitsValue (Nat.toDigits 10 n) = n := by
  induction n using Nat.strongRecOn with
  | ind n ih =>
      by_cases h : n < 10
      · rw [toDigits_of_lt h]
        exact (Nat.zero_add _).trans (isAsciiDigit_digitChar h).2
      · have hlt : n % 10 < 10 := Nat.mod_lt n (by decide)
        rw [toDigits_of_le (by omega), digitsValue_append_singleton, ih (n / 10) (by omega),
          (isAsciiDigit_digitChar hlt).2]
        omega

theorem isAsciiDigit_of_mem_toDigits {n : Nat} {c : Char} (h : c ∈ Nat.toDigits 10 n) :
    isAsciiDigit c = true := by
  induction n using Nat.strongRecOn with
  | ind n ih =>
      by_cases hn : n < 10
      · rw [toDigits_of_lt hn, List.mem_singleton] at h
        rw [h]
        exact (isAsciiDigit_digitChar hn).1
      · rw [toDigits_of_le (by omega), List.mem_append, List.mem_singleton] at h
        rcases h with h | rfl
        · exact ih (n / 10) (by omega) h
        · exact (isAsciiDigit_digitChar (Nat.mod_lt n (by decide))).1

theorem toString_injective {m n : Nat} (h : toString m = toString n) : m = n := by
  rw [toString_eq_ofList, toString_eq_ofList] at h
  rw [← digitsValue_toDigits m, String.ofList_injective h, digitsValue_toDigits]

/-- No zero stands in front of the digits of a number that is not zero. -/
theorem head?_toDigits {n : Nat} (h : 0 < n) : (Nat.toDigits 10 n).head? ≠ some '0' := by
  induction n using Nat.strongRecOn with
  | ind n ih =>
      by_cases hn : n < 10
      · rw [toDigits_of_lt hn, List.head?_cons]
        intro heq
        have hvalue := (isAsciiDigit_digitChar hn).2
        rw [Option.some.inj heq, Nat.sub_self] at hvalue
        omega
      · rw [toDigits_of_le (by omega), List.head?_append]
        have hrest := ih (n / 10) (by omega) (by omega)
        cases hhead : (Nat.toDigits 10 (n / 10)).head? with
        | none =>
            rw [List.head?_eq_none_iff] at hhead
            have hvalue := digitsValue_toDigits (n / 10)
            rw [hhead] at hvalue
            exact absurd hvalue (by rw [digitsValue, List.foldl_nil]; omega)
        | some d =>
            rw [hhead] at hrest
            exact hrest

end BlockCode
