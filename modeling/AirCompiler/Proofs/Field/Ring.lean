import AirCompiler.Circuit.Node
import Mathlib.Data.ZMod.Basic
import Mathlib.Tactic.Ring

/-!
# Ring laws

Both fields are commutative rings, and a scalar can be lifted before or after an operation:

* `Base.residue`: the class of a base element modulo `prime`; it is injective and takes every
  operation to the one of `ZMod prime`, which gives the laws of the base field.
* The laws of the extension hold coefficient by coefficient.
* `Op.lift_apply`: lifting commutes with the operations on scalars, so a circuit may be evaluated in
  the extension throughout. `Ext.IsBase` is closed under the operations.
-/

namespace AirCompiler

namespace Base

/-- The residue class of an element. -/
def residue (a : Base) : ZMod prime := (a.val : ZMod prime)

theorem residue_injective {a b : Base} (h : a.residue = b.residue) : a = b := by
  have h := (ZMod.natCast_eq_natCast_iff a.val b.val prime).1 h
  ext
  rw [← Nat.mod_eq_of_lt a.isLt, ← Nat.mod_eq_of_lt b.isLt]
  exact h

theorem residue_ofNat (n : Nat) : (ofNat n).residue = n := ZMod.natCast_mod n prime

theorem residue_zero : (0 : Base).residue = 0 := Nat.cast_zero

theorem residue_one : (1 : Base).residue = 1 := Nat.cast_one

theorem residue_add (a b : Base) : (a + b).residue = a.residue + b.residue := by
  show (ofNat (a.val + b.val)).residue = _
  rw [residue_ofNat, Nat.cast_add]
  rfl

theorem residue_mul (a b : Base) : (a * b).residue = a.residue * b.residue := by
  show (ofNat (a.val * b.val)).residue = _
  rw [residue_ofNat, Nat.cast_mul]
  rfl

theorem residue_neg (a : Base) : (-a).residue = -a.residue := by
  show (ofNat (prime - a.val)).residue = _
  rw [residue_ofNat, Nat.cast_sub a.isLt.le, ZMod.natCast_self, zero_sub]
  rfl

theorem residue_sub (a b : Base) : (a - b).residue = a.residue - b.residue := by
  show (ofNat (a.val + (prime - b.val))).residue = _
  rw [residue_ofNat, Nat.cast_add, Nat.cast_sub b.isLt.le, ZMod.natCast_self,
    zero_sub, ← sub_eq_add_neg]
  rfl

instance : CommRing Base where
  add_assoc a b c := residue_injective (by simp only [residue_add]; ring)
  zero_add a := residue_injective (by simp only [residue_add, residue_zero]; ring)
  add_zero a := residue_injective (by simp only [residue_add, residue_zero]; ring)
  add_comm a b := residue_injective (by simp only [residue_add]; ring)
  left_distrib a b c := residue_injective (by simp only [residue_add, residue_mul]; ring)
  right_distrib a b c := residue_injective (by simp only [residue_add, residue_mul]; ring)
  zero_mul a := residue_injective (by simp only [residue_mul, residue_zero]; ring)
  mul_zero a := residue_injective (by simp only [residue_mul, residue_zero]; ring)
  mul_assoc a b c := residue_injective (by simp only [residue_mul]; ring)
  one_mul a := residue_injective (by simp only [residue_mul, residue_one]; ring)
  mul_one a := residue_injective (by simp only [residue_mul, residue_one]; ring)
  mul_comm a b := residue_injective (by simp only [residue_mul]; ring)
  neg_add_cancel a :=
    residue_injective (by simp only [residue_add, residue_neg, residue_zero]; ring)
  sub_eq_add_neg a b :=
    residue_injective (by simp only [residue_add, residue_neg, residue_sub]; ring)
  nsmul := nsmulRec
  zsmul := zsmulRec

/-- The representative of a word's class is the word reduced. -/
theorem val_ofInt (n : Int) : ((ofInt n).val : Int) = n % prime :=
  Int.toNat_of_nonneg (Int.emod_nonneg n (by decide))

@[simp] theorem ofInt_val (a : Base) : ofInt a.val = a := by
  ext
  have h := val_ofInt a.val
  rw [Int.emod_eq_of_lt (by omega) (by exact_mod_cast a.isLt)] at h
  exact_mod_cast h

end Base

namespace Ext

theorem zero_def : (0 : Ext) = ⟨0, 0, 0⟩ := rfl

theorem one_def : (1 : Ext) = ⟨1, 0, 0⟩ := rfl

theorem add_def (a b : Ext) : a + b = ⟨a.c0 + b.c0, a.c1 + b.c1, a.c2 + b.c2⟩ := rfl

theorem sub_def (a b : Ext) : a - b = ⟨a.c0 - b.c0, a.c1 - b.c1, a.c2 - b.c2⟩ := rfl

theorem neg_def (a : Ext) : -a = ⟨-a.c0, -a.c1, -a.c2⟩ := rfl

theorem mul_def (a b : Ext) : a * b = ⟨a.c0 * b.c0 - (a.c1 * b.c2 + a.c2 * b.c1),
    a.c0 * b.c1 + a.c1 * b.c0 + (a.c1 * b.c2 + a.c2 * b.c1) - a.c2 * b.c2,
    a.c0 * b.c2 + a.c1 * b.c1 + a.c2 * b.c0 + a.c2 * b.c2⟩ := rfl

instance : CommRing Ext where
  add_assoc a b c := by ext1 <;> simp only [add_def] <;> ring
  zero_add a := by ext1 <;> simp only [add_def, zero_def] <;> ring
  add_zero a := by ext1 <;> simp only [add_def, zero_def] <;> ring
  add_comm a b := by ext1 <;> simp only [add_def] <;> ring
  left_distrib a b c := by ext1 <;> simp only [add_def, mul_def] <;> ring
  right_distrib a b c := by ext1 <;> simp only [add_def, mul_def] <;> ring
  zero_mul a := by ext1 <;> simp only [zero_def, mul_def] <;> ring
  mul_zero a := by ext1 <;> simp only [zero_def, mul_def] <;> ring
  mul_assoc a b c := by ext1 <;> simp only [mul_def] <;> ring
  one_mul a := by ext1 <;> simp only [one_def, mul_def] <;> ring
  mul_one a := by ext1 <;> simp only [one_def, mul_def] <;> ring
  mul_comm a b := by ext1 <;> simp only [mul_def] <;> ring
  neg_add_cancel a := by ext1 <;> simp only [add_def, neg_def, zero_def] <;> ring
  sub_eq_add_neg a b := by ext1 <;> simp only [add_def, neg_def, sub_def] <;> ring
  nsmul := nsmulRec
  zsmul := zsmulRec

theorem ofBase_add (a b : Base) : ofBase (a + b) = ofBase a + ofBase b := by
  rw [add_def]
  simp [ofBase]

theorem ofBase_mul (a b : Base) : ofBase (a * b) = ofBase a * ofBase b := by
  rw [mul_def]
  simp [ofBase]

/-- The element lies in the base field. -/
def IsBase (x : Ext) : Prop := ∃ a, x = ofBase a

end Ext

/-! ## Operations -/

/-- The operation on extension elements. -/
def Op.onExt : Op → Ext → Ext → Ext
  | .add, x, y => x + y
  | .mul, x, y => x * y

theorem Scalar.lift_minusOne : (Scalar.base .minusOne).lift = -1 := by decide

theorem Op.onExt_comm (op : Op) (x y : Ext) : op.onExt x y = op.onExt y x := by
  cases op with
  | add => exact add_comm x y
  | mul => exact mul_comm x y

theorem Op.apply_comm (op : Op) (x y : Scalar) : op.apply x y = op.apply y x := by
  cases op with
  | add =>
    cases x <;> cases y
    case base.base s t => exact congrArg Scalar.base (add_comm s t)
    all_goals exact congrArg Scalar.ext (add_comm (Scalar.lift _) (Scalar.lift _))
  | mul =>
    cases x <;> cases y
    case base.base s t => exact congrArg Scalar.base (mul_comm s t)
    all_goals exact congrArg Scalar.ext (mul_comm (Scalar.lift _) (Scalar.lift _))

/-- Scalars may be lifted before or after an operation. -/
theorem Op.lift_apply (op : Op) (x y : Scalar) : (op.apply x y).lift = op.onExt x.lift y.lift := by
  cases op <;> cases x <;> cases y
  case add.base.base a b => exact Ext.ofBase_add a b
  case mul.base.base a b => exact Ext.ofBase_mul a b
  all_goals rfl

/-- An operation on base elements is a base element. -/
theorem Op.isBase_apply (op : Op) {x y : Scalar} :
    (op.apply x y).isBase = (x.isBase && y.isBase) := by
  cases op <;> cases x <;> cases y <;> rfl

theorem Ext.IsBase.onExt (op : Op) {x y : Ext} (hx : x.IsBase) (hy : y.IsBase) :
    (op.onExt x y).IsBase := by
  obtain ⟨a, rfl⟩ := hx
  obtain ⟨b, rfl⟩ := hy
  cases op with
  | add => exact ⟨a + b, (ofBase_add a b).symm⟩
  | mul => exact ⟨a * b, (ofBase_mul a b).symm⟩

theorem Scalar.lift_isBase {s : Scalar} (h : s.isBase) : s.lift.IsBase := by
  cases s with
  | base a => exact ⟨a, rfl⟩
  | ext x => cases h

end AirCompiler
