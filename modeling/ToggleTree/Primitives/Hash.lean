import Mathlib.Data.BitVec
import Mathlib.Data.FinEnum
import Mathlib.Tactic.LinearCombination
import ToggleTree.Parallel.Word

/-!
# Hash functions and their inverses

Every line of a hash permutes the words, and the lines of its inverse undo them from the last to
the first. Shifted words are added modulo two by `xor`, so applying a step `v ^ (v << k)` to its own
result doubles the shift count until nothing is left of the shifted word.
-/

namespace ToggleTree

/-- The hash function of the library for 32-bit words. -/
def hash32 (value : BitVec 32) : BitVec 32 :=
  let value := (value + 0x7ed55d16#32) + (value <<< 12)
  let value := (value ^^^ 0xc761c23c#32) ^^^ (value >>> 19)
  let value := (value + 0x165667b1#32) + (value <<< 5)
  let value := (value + 0xd3a2646c#32) ^^^ (value <<< 9)
  let value := (value + 0xfd7046c5#32) + (value <<< 3)
  (value ^^^ 0xb55a4f09#32) ^^^ (value >>> 16)

/-- The inverse of `hash32`. -/
def unhash32 (value : BitVec 32) : BitVec 32 :=
  let value := value ^^^ 0xb55a4f09#32
  let value := value ^^^ value >>> 16
  let value := (value - 0xfd7046c5#32) * 0x38e38e39#32
  let y := value
  let x := y - 0xd3a2646c#32
  let x := (y ^^^ (x <<< 9)) - 0xd3a2646c#32
  let x := (y ^^^ (x <<< 9)) - 0xd3a2646c#32
  let x := (y ^^^ (x <<< 9)) - 0xd3a2646c#32
  let value := (x - 0x165667b1#32) * 0x3e0f83e1#32
  let value := value ^^^ 0xc761c23c#32
  let value := value ^^^ value >>> 19
  (value - 0x7ed55d16#32) * 0x00fff001#32

namespace Primitives

/-- The hash function of the library. -/
def hash64 (value : Word) : Word :=
  let value := value * 3935559000370003845 + 2691343689449507681
  let value := value ^^^ value >>> 21
  let value := value ^^^ value <<< 37
  let value := value ^^^ value >>> 4
  let value := value * 4768777513237032717
  let value := value ^^^ value <<< 20
  let value := value ^^^ value >>> 41
  value ^^^ value <<< 5

/-- The inverse of `hash64`. -/
def unhash64 (value : Word) : Word :=
  let value := value ^^^ value <<< 5
  let value := value ^^^ value <<< 10
  let value := value ^^^ value <<< 20
  let value := value ^^^ value <<< 40
  let value := value ^^^ value >>> 41
  let value := value ^^^ value <<< 20
  let value := value ^^^ value <<< 40
  let value := value * 0x166a74154b2b37c5
  let value := value ^^^ value >>> 4
  let value := value ^^^ value >>> 8
  let value := value ^^^ value >>> 16
  let value := value ^^^ value >>> 32
  let value := value ^^^ value <<< 37
  let value := value ^^^ value >>> 21
  let value := value ^^^ value >>> 42
  (value - 2691343689449507681) * 0xbe21f44c6018e14d

end Primitives

section Steps

variable {w : ℕ} (v c : BitVec w) (k : ℕ)

/-- An exclusive or with the value shifted to the left. -/
def xorShiftLeft : BitVec w := v ^^^ v <<< k

/-- An exclusive or with the value shifted to the right. -/
def xorShiftRight : BitVec w := v ^^^ v >>> k

/-- Two left shifts by one count are a shift by twice the count. -/
theorem xorShiftLeft_twice : xorShiftLeft (xorShiftLeft v k) k = xorShiftLeft v (k + k) := by
  simp only [xorShiftLeft]
  rw [BitVec.shiftLeft_xor_distrib, ← BitVec.shiftLeft_add, BitVec.xor_assoc, ← BitVec.xor_assoc (v <<< k),
    BitVec.xor_self, BitVec.zero_xor]

/-- Two right shifts by one count are a shift by twice the count. -/
theorem xorShiftRight_twice : xorShiftRight (xorShiftRight v k) k = xorShiftRight v (k + k) := by
  simp only [xorShiftRight]
  rw [BitVec.ushiftRight_xor_distrib, ← BitVec.shiftRight_add, BitVec.xor_assoc, ← BitVec.xor_assoc (v >>> k),
    BitVec.xor_self, BitVec.zero_xor]

/-- A shift to the left beyond the width changes nothing. -/
theorem xorShiftLeft_of_le {k : ℕ} (h : w ≤ k) : xorShiftLeft v k = v := by
  rw [xorShiftLeft, BitVec.shiftLeft_eq_zero h, BitVec.xor_zero]

/-- A shift to the right beyond the width changes nothing. -/
theorem xorShiftRight_of_le {k : ℕ} (h : w ≤ k) : xorShiftRight v k = v := by
  rw [xorShiftRight, BitVec.ushiftRight_eq_zero h, BitVec.xor_zero]

/-- A constant that was added before the shift can be taken off first. -/
theorem xor_xorShiftRight : (v ^^^ c) ^^^ v >>> k ^^^ c = xorShiftRight v k := by
  rw [xorShiftRight, BitVec.xor_assoc v, BitVec.xor_comm c, ← BitVec.xor_assoc v, BitVec.xor_assoc,
    BitVec.xor_self,
    BitVec.xor_zero]

/-- Adding a shifted word multiplies by an odd number. -/
theorem unaddShift {inverse : BitVec w} (h : (1 + BitVec.twoPow w k) * inverse = 1) :
    ((v + c) + v <<< k - c) * inverse = v := by
  rw [BitVec.shiftLeft_eq_mul_twoPow]
  linear_combination v * h

/-- Multiplying and adding are undone in the reverse order. -/
theorem unmulAdd {factor inverse : BitVec w} (h : factor * inverse = 1) :
    (v * factor + c - c) * inverse = v := by
  linear_combination v * h

/-- A guess that is right in its low bits gives a guess that is right in `k` more of them. -/
theorem unaddXorShift_step {x : BitVec w} {j m : ℕ} (hj : m ≤ j + k) (hm : m ≤ w)
    (hx : ∀ i < j, x.getLsbD i = v.getLsbD i) (i : ℕ) (hi : i < m) :
    ((((v + c) ^^^ (v <<< k)) ^^^ (x <<< k)) - c).getLsbD i = v.getLsbD i := by
  have hlow : (((v + c) ^^^ (v <<< k)) ^^^ (x <<< k)).setWidth m = (v + c).setWidth m := by
    refine BitVec.eq_of_getLsbD_eq fun i hi => ?_
    have hshift : (x <<< k).getLsbD i = (v <<< k).getLsbD i := by
      rw [BitVec.getLsbD_shiftLeft, BitVec.getLsbD_shiftLeft]
      by_cases hik : i < k
      · simp [hik]
      · rw [hx (i - k) (by omega)]
    rw [BitVec.getLsbD_setWidth, BitVec.getLsbD_setWidth, BitVec.getLsbD_xor, BitVec.getLsbD_xor, hshift,
      Bool.xor_assoc, Bool.xor_self, Bool.xor_false]
  have hsum : ((((v + c) ^^^ (v <<< k)) ^^^ (x <<< k)) - c).setWidth m = v.setWidth m := by
    rw [← BitVec.sub_add_cancel (((v + c) ^^^ (v <<< k)) ^^^ (x <<< k)) c, BitVec.setWidth_add _ _ hm,
      BitVec.setWidth_add _ _ hm] at hlow
    exact add_right_cancel hlow
  have hbit := congrArg (fun word : BitVec m => word.getLsbD i) hsum
  simpa only [BitVec.getLsbD_setWidth, hi, decide_true, Bool.true_and] using hbit

end Steps

/-- The first guess and three corrections give all the bits. -/
theorem unaddXorShift (v c : BitVec 32) :
    let y := (v + c) ^^^ (v <<< 9)
    (y ^^^ (((y ^^^ (((y ^^^ ((y - c) <<< 9)) - c) <<< 9)) - c) <<< 9)) - c = v := by
  have hfirst : ∀ i < 9, (((v + c) ^^^ (v <<< 9)) - c).getLsbD i = v.getLsbD i := by
    have h := unaddXorShift_step v c 9 (x := 0) (j := 0) (m := 9) le_rfl (by decide) (fun i hi => by omega)
    rwa [show (0 : BitVec 32) <<< 9 = 0#32 from rfl, BitVec.xor_zero] at h
  have hsecond := unaddXorShift_step v c 9 (m := 18) le_rfl (by decide) hfirst
  have hthird := unaddXorShift_step v c 9 (m := 27) le_rfl (by decide) hsecond
  exact BitVec.eq_of_getLsbD_eq (unaddXorShift_step v c 9 (m := 32) (by decide) le_rfl hthird)

/-- `unhash32` undoes `hash32`. -/
theorem unhash32_hash32 : Function.LeftInverse unhash32 hash32 := by
  intro value
  simp only [unhash32, hash32, xor_xorShiftRight]
  simp only [← xorShiftRight.eq_1]
  rw [xorShiftRight_twice, xorShiftRight_of_le _ le_rfl, unaddShift _ _ 3 (by decide), unaddXorShift,
    unaddShift _ _ 5 (by decide), xor_xorShiftRight, xorShiftRight_twice, xorShiftRight_of_le _ (by decide),
    unaddShift _ _ 12 (by decide)]

namespace Primitives

/-- `hash64` in steps. -/
theorem hash64_eq (value : Word) : hash64 value =
    xorShiftLeft (xorShiftRight (xorShiftLeft (xorShiftRight (xorShiftLeft (xorShiftRight
      (value * 3935559000370003845 + 2691343689449507681) 21) 37) 4 * 4768777513237032717) 20) 41) 5 := rfl

/-- `unhash64` undoes `hash64`. -/
theorem unhash64_hash64 : Function.LeftInverse unhash64 hash64 := by
  intro value
  rw [hash64_eq]
  change (xorShiftRight (xorShiftRight (xorShiftLeft (xorShiftRight (xorShiftRight (xorShiftRight (xorShiftRight
    (xorShiftLeft (xorShiftLeft (xorShiftRight (xorShiftLeft (xorShiftLeft (xorShiftLeft (xorShiftLeft
      _ 5) 10) 20) 40) 41) 20) 40 * 0x166a74154b2b37c5) 4) 8) 16) 32) 37) 21) 42 - 2691343689449507681) *
      0xbe21f44c6018e14d = value
  -- every group of shifts doubles one count until it reaches the width
  simp (disch := decide) only [xorShiftLeft_twice, xorShiftRight_twice, Nat.reduceAdd, xorShiftLeft_of_le,
    xorShiftRight_of_le]
  rw [mul_assoc _ (4768777513237032717 : Word),
    show (4768777513237032717 : Word) * 0x166a74154b2b37c5 = 1 from rfl,
    mul_one]
  simp (disch := decide) only [xorShiftLeft_twice, xorShiftRight_twice, Nat.reduceAdd, xorShiftLeft_of_le,
    xorShiftRight_of_le]
  exact unmulAdd value _ rfl

/-- `hash64` undoes `unhash64`. -/
theorem hash64_unhash64 : Function.RightInverse unhash64 hash64 :=
  unhash64_hash64.rightInverse_of_surjective (Finite.injective_iff_surjective.mp unhash64_hash64.injective)

end Primitives

/-- No two words have the same hash. -/
theorem hash32_injective : Function.Injective hash32 := unhash32_hash32.injective

/-- `hash32` undoes `unhash32`. -/
theorem hash32_unhash32 : Function.RightInverse unhash32 hash32 :=
  unhash32_hash32.rightInverse_of_surjective (Finite.injective_iff_surjective.mp hash32_injective)

end ToggleTree
