import Mathlib.Data.Nat.Size
import Mathlib.Data.Nat.Bitwise
import Mathlib.Tactic.Common

/-!
# Leading bits of fixed-width numbers

Numbers are `w` bits wide and read from the most significant bit. `Agree w c x y` says that `x` and
`y` have the same first `c` bits, `common w x y` is the length of their longest common prefix
(computed, as routers do, from the highest set bit of the difference), `msb w x i` is bit number
`i`, and `mask w c x` keeps the first `c` bits.
-/

namespace BitPrefix

variable {w c c' x y z : Nat}

def Agree (w c x y : Nat) : Prop := ∀ i, w - c ≤ i → x.testBit i = y.testBit i

def common (w x y : Nat) : Nat := w - (x ^^^ y).size

def msb (w x i : Nat) : Bool := x.testBit (w - 1 - i)

def mask (w c x : Nat) : Nat := x >>> (w - c) <<< (w - c)

namespace Agree

theorem refl (w c x : Nat) : Agree w c x x := fun _ _ => rfl

theorem symm (h : Agree w c x y) : Agree w c y x := fun i hi => (h i hi).symm

theorem trans (h : Agree w c x y) (h' : Agree w c y z) : Agree w c x z :=
  fun i hi => (h i hi).trans (h' i hi)

theorem mono (h : Agree w c x y) (hc : c' ≤ c) : Agree w c' x y := fun i hi => h i (by omega)

theorem msb_eq (h : Agree w c x y) (hi : c' < c) : msb w x c' = msb w y c' :=
  h _ (by omega)

theorem succ (h : Agree w c x y) (hb : msb w x c = msb w y c) (hc : c < w) : Agree w (c + 1) x y := by
  intro i hi
  by_cases hic : w - c ≤ i
  · exact h i hic
  · rw [show i = w - 1 - c by omega]; exact hb

end Agree

theorem agree_zero (hx : x < 2 ^ w) (hy : y < 2 ^ w) : Agree w 0 x y := by
  intro i hi
  have hpow : 2 ^ w ≤ 2 ^ i := Nat.pow_le_pow_right (by decide) hi
  rw [Nat.testBit_lt_two_pow (lt_of_lt_of_le hx hpow), Nat.testBit_lt_two_pow (lt_of_lt_of_le hy hpow)]

theorem common_le : common w x y ≤ w := Nat.sub_le ..

theorem agree_iff_lt : Agree w c x y ↔ x ^^^ y < 2 ^ (w - c) := by
  constructor
  · intro h
    refine Nat.lt_pow_two_of_testBit _ fun i hi => ?_
    rw [Nat.testBit_xor, h i hi, Bool.xor_self]
  · intro h i hi
    have hbit := Nat.testBit_lt_two_pow (lt_of_lt_of_le h (Nat.pow_le_pow_right (by decide) hi))
    rw [Nat.testBit_xor, bne_eq_false_iff_eq] at hbit
    exact hbit

theorem agree_iff_le_common (hc : c ≤ w) (hx : x < 2 ^ w) (hy : y < 2 ^ w) :
    Agree w c x y ↔ c ≤ common w x y := by
  have hw : (x ^^^ y).size ≤ w := Nat.size_le.2 (Nat.xor_lt_two_pow hx hy)
  rw [agree_iff_lt, ← Nat.size_le, common]
  omega

theorem agree_common (hx : x < 2 ^ w) (hy : y < 2 ^ w) : Agree w (common w x y) x y :=
  (agree_iff_le_common common_le hx hy).2 le_rfl

/-- Right after their longest common prefix, two numbers differ. -/
theorem msb_common_ne (hx : x < 2 ^ w) (hy : y < 2 ^ w) (h : common w x y < w) :
    msb w x (common w x y) ≠ msb w y (common w x y) := by
  intro heq
  have := (agree_iff_le_common (by omega) hx hy).1 ((agree_common hx hy).succ heq h)
  omega

theorem testBit_mask {i : Nat} : (mask w c x).testBit i = (decide (w - c ≤ i) && x.testBit i) := by
  rw [mask, Nat.testBit_shiftLeft, Nat.testBit_shiftRight]
  by_cases h : w - c ≤ i
  · simp [h]
  · simp [h]

theorem mask_eq_iff : mask w c x = mask w c y ↔ Agree w c x y := by
  constructor
  · intro h i hi
    have := congrArg (Nat.testBit · i) h
    simpa [testBit_mask, hi] using this
  · intro h
    refine Nat.eq_of_testBit_eq fun i => ?_
    rw [testBit_mask, testBit_mask]
    by_cases hi : w - c ≤ i
    · rw [h i hi]
    · simp [hi]

@[simp] theorem mask_mask : mask w c (mask w c x) = mask w c x := by
  refine mask_eq_iff.mpr fun i hi => ?_
  rw [testBit_mask, decide_eq_true hi, Bool.true_and]

end BitPrefix
