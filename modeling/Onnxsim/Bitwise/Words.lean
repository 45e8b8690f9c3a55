import Onnxsim.Reduce.Axes
import Onnxsim.ShapeRanges.Broadcasting

namespace Onnxsim.Bitwise.Words

variable {w : Nat}

theorem or_eq_and_add_xor (x y : BitVec w) : x ||| y = (x &&& y) + (x ^^^ y) := by
  have hdisjoint : (x &&& y) &&& (x ^^^ y) = 0#w := by
    ext i
    simp
    grind
  rw [BitVec.add_eq_or_of_and_eq_zero _ _ hdisjoint]
  ext i
  simp
  grind

theorem or_sub_and (x y : BitVec w) : (x ||| y) - (x &&& y) = x ^^^ y := by
  rw [or_eq_and_add_xor, BitVec.add_comm, BitVec.add_sub_cancel]

theorem toNat_or (x y : BitVec w) : (x ||| y).toNat = (x &&& y).toNat + (x ^^^ y).toNat := by
  have hdisjoint : (x &&& y) &&& (x ^^^ y) = 0#w := by
    ext i
    simp
    grind
  rw [or_eq_and_add_xor, BitVec.toNat_add_of_and_eq_zero hdisjoint]

/-- The number that a word stands for, in two's complement where it is signed. -/
def value (signed : Bool) (x : BitVec w) : Int := if signed then x.toInt else x.toNat

theorem value_or_sub_and (signed : Bool) (x y : BitVec w) :
    value signed ((x ||| y) - (x &&& y)) = value signed (x ||| y) - value signed (x &&& y) := by
  rw [or_sub_and]
  have hnat := toNat_or x y
  cases signed with
  | false =>
    simp only [value, Bool.false_eq_true, if_false]
    omega
  | true =>
    have hor : (x ||| y).msb = (x.msb || y.msb) := BitVec.msb_or
    have hand : (x &&& y).msb = (x.msb && y.msb) := BitVec.msb_and
    have hxor : (x ^^^ y).msb = (x.msb ^^ y.msb) := BitVec.msb_xor
    simp only [value, if_true, BitVec.toInt_eq_msb_cond, hor, hand, hxor]
    generalize (x ||| y).toNat = p at hnat ⊢
    generalize (x &&& y).toNat = q at hnat ⊢
    generalize (x ^^^ y).toNat = r at hnat ⊢
    cases x.msb <;> cases y.msb <;> simp <;> omega

end Onnxsim.Bitwise.Words
