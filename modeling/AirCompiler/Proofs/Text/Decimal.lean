import Mathlib.Data.List.TakeWhile
import Mathlib.Order.Basic

/-!
# Decimal numbers in texts

A number that stands in a text can be read off again if no digit comes after it
(`Text.toDigits_append_inj` for natural numbers, `Text.signed_append_inj` for integers).
-/

namespace AirCompiler.Text

/-- No digit comes first. -/
def Stops (xs : List Char) : Prop := ∀ c ∈ xs.head?, c.isDigit = false

@[simp] theorem stops_nil : Stops [] := by simp [Stops]

@[simp] theorem stops_cons_iff {c : Char} {xs : List Char} : Stops (c :: xs) ↔
    c.isDigit = false := by simp [Stops]

theorem Stops.append {xs ys : List Char} (hx : Stops xs) (hy : Stops ys) : Stops (xs ++ ys) := by
  cases xs with
  | nil => exact hy
  | cons c xs => exact stops_cons_iff.2 (stops_cons_iff.1 hx)

/-! ## Natural numbers -/

theorem toList_toString_nat (n : Nat) : (toString n).toList = Nat.toDigits 10 n := Nat.toList_repr

theorem isDigit_of_mem_toDigits {n : Nat} {c : Char} (h : c ∈ Nat.toDigits 10 n) :
    c.isDigit = true :=
  Nat.isDigit_of_mem_toDigits (by decide) (by decide) h

theorem not_mem_toDigits {n : Nat} {c : Char} (h : c.isDigit = false) : c ∉ Nat.toDigits 10 n := by
  intro hc
  rw [isDigit_of_mem_toDigits hc] at h
  cases h

theorem toDigits_injective {m n : Nat} (h : Nat.toDigits 10 m = Nat.toDigits 10 n) : m = n := by
  rw [← Nat.ofDigitChars_ten_toDigits (n := m), h, Nat.ofDigitChars_ten_toDigits]

/-- The digits of a number are the longest part of digits at the front. -/
theorem takeWhile_toDigits_append {n : Nat} {rest : List Char} (h : Stops rest) :
    (Nat.toDigits 10 n ++ rest).takeWhile Char.isDigit = Nat.toDigits 10 n := by
  rw [List.takeWhile_append_of_pos fun c hc => isDigit_of_mem_toDigits hc]
  cases rest with
  | nil => simp
  | cons c rest => simp [stops_cons_iff.1 h]

theorem toDigits_append_inj {m n : Nat} {rest rest' : List Char}
    (hr : Stops rest) (hr' : Stops rest')
    (h : Nat.toDigits 10 m ++ rest = Nat.toDigits 10 n ++ rest') : m = n ∧ rest = rest' := by
  have hdigits : Nat.toDigits 10 m = Nat.toDigits 10 n := by
    rw [← takeWhile_toDigits_append hr, h, takeWhile_toDigits_append hr']
  rw [hdigits] at h
  exact ⟨toDigits_injective hdigits, List.append_cancel_left h⟩

/-- Further digits make a number no smaller. -/
theorem le_ofDigitChars (xs : List Char) (n : Nat) : n ≤ Nat.ofDigitChars 10 xs n := by
  induction xs generalizing n with
  | nil => exact le_rfl
  | cons c xs ih => exact le_trans (by omega) (ih (10 * n + (c.toNat - '0'.toNat)))

theorem le_of_toDigits_append {m n : Nat} {xs : List Char}
    (h : Nat.toDigits 10 n = Nat.toDigits 10 m ++ xs) : m ≤ n := by
  have hn : Nat.ofDigitChars 10 (Nat.toDigits 10 m ++ xs) 0 = n := by
    rw [← h, Nat.ofDigitChars_ten_toDigits]
  rw [Nat.ofDigitChars, List.foldl_append] at hn
  have hm : Nat.ofDigitChars 10 (Nat.toDigits 10 m) 0 = m := Nat.ofDigitChars_ten_toDigits
  rw [Nat.ofDigitChars] at hm
  rw [hm] at hn
  exact hn ▸ le_ofDigitChars xs m

/-- A number whose digits come first in the text of another, up to where that ends, is no larger. -/
theorem le_of_prefix_toDigits {m n : Nat} {rest : List Char} (hr : Stops rest)
    (h : Nat.toDigits 10 m <+: Nat.toDigits 10 n ++ rest) : m ≤ n := by
  obtain ⟨xs, h⟩ := h
  rcases List.append_eq_append_iff.1 h with ⟨more, hn, -⟩ | ⟨more, hm, hrest⟩
  · exact le_of_toDigits_append hn
  · cases more with
    | nil => exact (toDigits_injective (by simpa using hm)).le
    | cons c more =>
      -- a further digit would have to be the first of what comes after
      have hc : c.isDigit = true := isDigit_of_mem_toDigits (n := m) (by simp [hm])
      rw [hrest, List.cons_append, stops_cons_iff, hc] at hr
      cases hr

/-! ## Integers -/

/-- The text of an integer. -/
def signed : Int → List Char
  | .ofNat n => Nat.toDigits 10 n
  | .negSucc n => '-' :: Nat.toDigits 10 (n + 1)

theorem toList_toString_int (i : Int) : (toString i).toList = signed i := by
  cases i with
  | ofNat n => exact Nat.toList_repr
  | negSucc n =>
    show ("-" ++ (n + 1).repr).toList = _
    rw [String.toList_append, Nat.toList_repr]
    rfl

theorem not_mem_signed {i : Int} {c : Char} (h : c.isDigit = false) (hc : c ≠ '-') :
    c ∉ signed i := by
  cases i with
  | ofNat n => exact not_mem_toDigits h
  | negSucc n => exact fun hm => (List.mem_cons.1 hm).elim hc (not_mem_toDigits h)

theorem minus_ne_toDigits_append {n : Nat} {xs rest : List Char} (hr : Stops rest) :
    '-' :: xs ≠ Nat.toDigits 10 n ++ rest := by
  intro h
  have hwhile := congrArg (List.takeWhile Char.isDigit) h
  rw [takeWhile_toDigits_append hr] at hwhile
  exact Nat.toDigits_ne_nil hwhile.symm

theorem signed_append_inj {i j : Int} {rest rest' : List Char} (hr : Stops rest) (hr' : Stops rest')
    (h : signed i ++ rest = signed j ++ rest') : i = j ∧ rest = rest' := by
  cases i with
  | ofNat m =>
    cases j with
    | ofNat n => exact (toDigits_append_inj hr hr' h).imp_left (congrArg Int.ofNat)
    | negSucc n => exact absurd h.symm (minus_ne_toDigits_append hr)
  | negSucc m =>
    cases j with
    | ofNat n => exact absurd h (minus_ne_toDigits_append hr')
    | negSucc n =>
      obtain ⟨hmn, hrest⟩ := toDigits_append_inj hr hr' (List.cons.inj h).2
      exact ⟨congrArg Int.negSucc (Nat.succ.inj hmn), hrest⟩

end AirCompiler.Text
