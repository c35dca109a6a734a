import AirCompiler.Proofs.Field.Ring
import Mathlib.Data.List.Prime
import Mathlib.FieldTheory.Finite.Basic
import Mathlib.NumberTheory.LucasPrimality
import Mathlib.Tactic.NormNum.Prime

/-!
# Powers and inverses

Square and multiply computes powers, in every monoid (`squareMultiply_eq`), so the powers of both
fields are the ones of their rings. With them the order of the base field is proved prime:

* `prime_isPrime`: Lucas's test with the witness `7`. Its powers are evaluated by `Base.natPow`
  itself.
* `Base.exists_inverse`: the power `a ^ (prime - 2)` inverts `a`, by Fermat's little theorem.
* `Base.exists_pow`: a power of integer exponent exists and has the residue of the power in
  `ZMod prime`.
-/

namespace AirCompiler

/-! ## Square and multiply -/

/-- The invariant of the loop: what is found so far, times the power that is left. -/
theorem squareMultiply_eq {M : Type} [Monoid M] (result base : M) (n : Nat) :
    squareMultiply (· * ·) result base n = result * base ^ n := by
  induction n using Nat.strong_induction_on generalizing result base with
  | h n ih =>
    rw [squareMultiply]
    split
    case isTrue hn => rw [hn, pow_zero, mul_one]
    case isFalse hn =>
      rw [ih (n / 2) (by omega), ← pow_two, ← pow_mul]
      by_cases hodd : n % 2 = 1
      · have hhalf : 2 * (n / 2) + 1 = n := by omega
        rw [if_pos hodd, mul_assoc, ← pow_succ', hhalf]
      · have hhalf : 2 * (n / 2) = n := by omega
        rw [if_neg hodd, hhalf]

theorem Base.natPow_eq (a : Base) (n : Nat) : a.natPow n = a ^ n := by
  rw [natPow, squareMultiply_eq, one_mul]

theorem Ext.natPow_eq (x : Ext) (n : Nat) : x.natPow n = x ^ n := by
  rw [natPow, squareMultiply_eq, one_mul]

/-! ## The order of the base field -/

/-- Residues as a homomorphism. -/
def Base.residueHom : Base →+* ZMod prime where
  toFun := residue
  map_zero' := residue_zero
  map_one' := residue_one
  map_add' := residue_add
  map_mul' := residue_mul

theorem Base.residue_natPow (a : Base) (n : Nat) : (a.natPow n).residue = a.residue ^ n := by
  rw [natPow_eq]
  exact map_pow residueHom a n

/-- The prime factors of the order of the base field's group of units. -/
def unitFactors : List Nat := List.replicate 32 2 ++ [3, 5, 17, 257, 65537]

theorem prod_unitFactors : unitFactors.prod = prime - 1 := by decide

theorem prime_of_mem_unitFactors {q : Nat} (h : q ∈ unitFactors) : q.Prime := by
  rcases List.mem_append.1 h with h | h
  · rw [List.eq_of_mem_replicate h]
    exact Nat.prime_two
  · simp only [List.mem_cons, List.not_mem_nil, or_false] at h
    rcases h with rfl | rfl | rfl | rfl | rfl <;> norm_num

/-- The class of `7` generates the group of units, so there are `prime - 1` units. -/
theorem prime_isPrime : Nat.Prime prime := by
  refine lucas_primality prime (Base.ofNat 7).residue ?_ ?_
  · have hpow : (Base.ofNat 7).natPow (prime - 1) = 1 := by decide +kernel
    rw [← Base.residue_natPow, hpow, Base.residue_one]
  · intro q hq hdvd hone
    have hpow : ∀ q ∈ unitFactors, (Base.ofNat 7).natPow ((prime - 1) / q) ≠ 1 := by decide +kernel
    have hmem : q ∈ unitFactors :=
      mem_list_primes_of_dvd_prod hq.prime (fun p hp => (prime_of_mem_unitFactors hp).prime)
        (prod_unitFactors ▸ hdvd)
    refine hpow q hmem (Base.residue_injective ?_)
    rw [Base.residue_natPow, hone, Base.residue_one]

instance : Fact (Nat.Prime prime) := ⟨prime_isPrime⟩

/-! ## Inverses and powers of the base field -/

namespace Base

theorem isZero_iff {a : Base} : a.isZero = true ↔ a = 0 := by
  rw [isZero, beq_iff_eq, Base.ext_iff]
  rfl

theorem residue_ne_zero {a : Base} (h : a ≠ 0) : a.residue ≠ 0 :=
  fun h₀ => h (residue_injective (h₀.trans residue_zero.symm))

theorem inverse_of_ne_zero {a : Base} (h : a ≠ 0) : a.inverse = .ok (a.natPow (prime - 2)) := by
  rw [inverse, if_neg (mt isZero_iff.1 h)]

theorem inverse_zero : inverse 0 = .error .zeroInverse := rfl

/-- Fermat's little theorem: the inverse is the power that is one short of the order of the
units. -/
theorem exists_inverse {a : Base} (h : a ≠ 0) :
    ∃ b, a.inverse = .ok b ∧ a * b = 1 ∧ b.residue = a.residue⁻¹ := by
  have hfermat : a.residue * (a.natPow (prime - 2)).residue = 1 := by
    rw [residue_natPow, ← pow_succ', show prime - 2 + 1 = prime - 1 from rfl]
    exact ZMod.pow_card_sub_one_eq_one (residue_ne_zero h)
  refine ⟨_, inverse_of_ne_zero h, residue_injective ?_, eq_inv_of_mul_eq_one_right hfermat⟩
  rw [residue_mul, hfermat, residue_one]

theorem exists_pow {a : Base} (h : a ≠ 0) (n : Int) :
    ∃ b, a.pow n = .ok b ∧ b.residue = a.residue ^ n := by
  cases n with
  | ofNat n => exact ⟨a.natPow n, rfl, by rw [residue_natPow]; exact (zpow_natCast _ n).symm⟩
  | negSucc n =>
    obtain ⟨b, hb, -, hres⟩ := exists_inverse h
    refine ⟨b.natPow (n + 1), by rw [pow, hb]; rfl, ?_⟩
    rw [residue_natPow, hres, inv_pow, zpow_negSucc]

/-- The laws of exponents, for exponents of either sign. -/
theorem exists_pow_add {a : Base} (h : a ≠ 0) (m n : Int) :
    ∃ u v, a.pow m = .ok u ∧ a.pow n = .ok v ∧ a.pow (m + n) = .ok (u * v) := by
  obtain ⟨u, hu, hu'⟩ := exists_pow h m
  obtain ⟨v, hv, hv'⟩ := exists_pow h n
  obtain ⟨w, hw, hw'⟩ := exists_pow h (m + n)
  refine ⟨u, v, hu, hv, hw.trans (congrArg _ (residue_injective ?_))⟩
  rw [hw', residue_mul, hu', hv', zpow_add₀ (residue_ne_zero h)]

theorem pow_neg_one (a : Base) : a.pow (-1) = a.inverse := by
  rw [show (-1 : Int) = .negSucc 0 from rfl, pow]
  cases a.inverse with
  | error e => rfl
  | ok b => exact congrArg Except.ok ((natPow_eq b 1).trans (pow_one b))

theorem pow_natCast (a : Base) (n : Nat) : a.pow n = .ok (List.replicate n a).prod := by
  rw [List.prod_replicate, ← natPow_eq]
  rfl

theorem zero_pow_of_neg {n : Int} (h : n < 0) : pow 0 n = .error .zeroInverse := by
  cases n with
  | ofNat n => cases h.not_ge (Int.natCast_nonneg n)
  | negSucc n => rfl

end Base

namespace Ext

theorem pow_natCast (x : Ext) (n : Nat) : x.pow n = .ok (List.replicate n x).prod := by
  rw [List.prod_replicate, ← natPow_eq]
  rfl

theorem pow_of_neg (x : Ext) {n : Int} (h : n < 0) : x.pow n = .error .negativeExponent := by
  cases n with
  | ofNat n => cases h.not_ge (Int.natCast_nonneg n)
  | negSucc n => rfl

end Ext

/-- Inverses and powers of both fields. In the base field an exponent may have either sign; zero has
no power of negative exponent. In the extension every negative exponent is refused. -/
theorem powers_correct :
    (∀ a : Base, a ≠ 0 →
      (∃ b, a.inverse = .ok b ∧ a * b = 1 ∧ a.pow (-1) = .ok b) ∧
      ∀ m n : Int, ∃ u v, a.pow m = .ok u ∧ a.pow n = .ok v ∧ a.pow (m + n) = .ok (u * v)) ∧
    (∀ (a : Base) (n : Nat), a.pow n = .ok (List.replicate n a).prod) ∧
    Base.inverse 0 = .error .zeroInverse ∧
    (∀ n : Int, n < 0 → Base.pow 0 n = .error .zeroInverse) ∧
    (∀ (y : Ext) (n : Nat), y.pow n = .ok (List.replicate n y).prod) ∧
    (∀ y : Ext, y.pow 0 = .ok 1) ∧
    ∀ (y : Ext) (n : Int), n < 0 → y.pow n = .error .negativeExponent := by
  refine ⟨fun a h => ⟨?_, Base.exists_pow_add h⟩, Base.pow_natCast, Base.inverse_zero,
    fun _ => Base.zero_pow_of_neg, Ext.pow_natCast,
    fun y => Ext.pow_natCast y 0, fun y _ => y.pow_of_neg⟩
  obtain ⟨b, hb, hone, -⟩ := Base.exists_inverse h
  exact ⟨b, hb, hone, a.pow_neg_one.trans hb⟩

theorem powers_correct_seven :
    (Base.ofNat 7 ≠ 0 ∧
      (∃ b, (Base.ofNat 7).inverse = .ok b ∧ Base.ofNat 7 * b = 1 ∧
        (Base.ofNat 7).pow (-1) = .ok b) ∧
      ∃ u v, (Base.ofNat 7).pow (-5) = .ok u ∧ (Base.ofNat 7).pow 3 = .ok v ∧
        (Base.ofNat 7).pow (-2) = .ok (u * v)) ∧
    Base.pow 0 (-2) = .error .zeroInverse ∧ Ext.pow ⟨1, 0, 1⟩ (-2) = .error .negativeExponent := by
  obtain ⟨hunits, -, -, hzero, -, -, hneg⟩ := powers_correct
  have hseven : Base.ofNat 7 ≠ 0 := by decide
  exact ⟨⟨hseven, (hunits _ hseven).1, (hunits _ hseven).2 (-5) 3⟩, hzero (-2) (by decide),
    hneg _ (-2) (by decide)⟩

end AirCompiler
