import Mathlib.Data.List.Induction
import Mathlib.Data.Nat.Bitwise
import Mathlib.Tactic.Ring
import Mathlib.Tactic.Linarith

/-!
# Byte strings as little- and big-endian numbers
-/

namespace ByteOrder

def leNat : List UInt8 → Nat
  | [] => 0
  | b :: bs => 256 * leNat bs + b.toNat

def beNat (bs : List UInt8) : Nat := bs.foldl (fun n b => 256 * n + b.toNat) 0

/-- The `k` bytes of a number, least significant first. -/
def leBytes : Nat → Nat → List UInt8
  | 0, _ => []
  | k + 1, n => UInt8.ofNat n :: leBytes k (n / 256)

@[simp] theorem length_leBytes (k n : Nat) : (leBytes k n).length = k := by
  induction k generalizing n with
  | zero => rfl
  | succ k ih => rw [leBytes, List.length_cons, ih]

theorem leNat_leBytes (k n : Nat) : leNat (leBytes k n) = n % 256 ^ k := by
  induction k generalizing n with
  | zero => simp [leBytes, leNat, Nat.mod_one]
  | succ k ih =>
    have hmod := Nat.mod_mul (a := 256) (b := 256 ^ k) (x := n)
    rw [leBytes, leNat, ih, UInt8.toNat_ofNat', pow_succ' 256 k, hmod, Nat.add_comm]

theorem leNat_append (as bs : List UInt8) : leNat (as ++ bs) = 256 ^ as.length * leNat bs + leNat as := by
  induction as with
  | nil => simp [leNat]
  | cons a as ih => simp only [List.cons_append, leNat, ih, List.length_cons]; ring

theorem leNat_reverse (bs : List UInt8) : leNat bs.reverse = beNat bs := by
  induction bs using List.reverseRecOn with
  | nil => rfl
  | append_singleton bs b ih =>
    rw [List.reverse_append, List.reverse_singleton, List.singleton_append, leNat, ih, beNat, beNat,
      List.foldl_append]
    rfl

theorem leNat_lt (bs : List UInt8) : leNat bs < 256 ^ bs.length := by
  induction bs with
  | nil => simp [leNat]
  | cons b bs ih =>
    have := b.toNat_lt
    rw [leNat, List.length_cons, pow_succ]
    omega

/-- Bit `i` of the number is bit `i % 8` of byte `i / 8`. -/
theorem testBit_leNat (bs : List UInt8) (i : Nat) :
    (leNat bs).testBit i = (bs.getD (i / 8) 0).toNat.testBit (i % 8) := by
  induction bs generalizing i with
  | nil => simp [leNat]
  | cons b bs ih =>
    rw [leNat, show (256 : Nat) = 2 ^ 8 from rfl, Nat.testBit_two_pow_mul_add _ b.toNat_lt]
    split_ifs with h
    · rw [Nat.div_eq_of_lt h, Nat.mod_eq_of_lt h]; rfl
    · rw [ih, show i / 8 = (i - 8) / 8 + 1 by omega, show i % 8 = (i - 8) % 8 by omega, List.getD_cons_succ]

theorem beNat_reverse (bs : List UInt8) : beNat bs.reverse = leNat bs := by
  rw [← leNat_reverse, List.reverse_reverse]

theorem beNat_lt (bs : List UInt8) : beNat bs < 2 ^ (8 * bs.length) := by
  have h := leNat_lt bs.reverse
  rw [leNat_reverse, List.length_reverse] at h
  rwa [Nat.pow_mul]

theorem testBit_beNat {bs : List UInt8} {i : Nat} (h : i < 8 * bs.length) :
    (beNat bs).testBit i = (bs.getD (bs.length - 1 - i / 8) 0).toNat.testBit (i % 8) := by
  have hi : i / 8 < bs.length := by omega
  rw [← leNat_reverse, testBit_leNat, List.getD_eq_getElem?_getD, List.getD_eq_getElem?_getD, List.getElem?_reverse hi]

theorem beNat_append (as bs : List UInt8) : beNat (as ++ bs) = 256 ^ bs.length * beNat as + beNat bs := by
  rw [← leNat_reverse, List.reverse_append, leNat_append, leNat_reverse, leNat_reverse, List.length_reverse]

theorem beNat_cons (b : UInt8) (bs : List UInt8) : beNat (b :: bs) = 256 ^ bs.length * b.toNat + beNat bs := by
  rw [← List.singleton_append, beNat_append, beNat, List.foldl_cons, List.foldl_nil, Nat.mul_zero, Nat.zero_add]

/-- The `k` bytes of a number, most significant first. -/
def beBytes (k n : Nat) : List UInt8 := (leBytes k n).reverse

@[simp] theorem length_beBytes (k n : Nat) : (beBytes k n).length = k := by
  rw [beBytes, List.length_reverse, length_leBytes]

theorem beNat_beBytes (k n : Nat) : beNat (beBytes k n) = n % 256 ^ k := by
  rw [beBytes, beNat_reverse, leNat_leBytes]

theorem leNat_inj {as bs : List UInt8} (hlen : as.length = bs.length) (h : leNat as = leNat bs) : as = bs := by
  induction as generalizing bs with
  | nil => exact (List.eq_nil_of_length_eq_zero hlen.symm).symm
  | cons a as ih =>
    rcases bs with - | ⟨b, bs⟩
    · cases hlen
    · have ha := a.toNat_lt
      have hb := b.toNat_lt
      rw [leNat, leNat] at h
      rw [ih (Nat.succ.inj hlen) (by omega), UInt8.toNat_inj.mp (by omega : a.toNat = b.toNat)]

theorem beNat_inj {as bs : List UInt8} (hlen : as.length = bs.length) (h : beNat as = beNat bs) : as = bs := by
  rw [← leNat_reverse, ← leNat_reverse] at h
  exact List.reverse_inj.mp (leNat_inj (by rwa [List.length_reverse, List.length_reverse]) h)

/-- Numbers of two digits are compared digit by digit. -/
theorem compare_mul_add {m a b : Nat} (ha : a < m) (hb : b < m) (x y : Nat) :
    compare (m * x + a) (m * y + b) = (compare x y).then (compare a b) := by
  rcases lt_trichotomy x y with h | rfl | h
  · have hmul : m * (x + 1) ≤ m * y := Nat.mul_le_mul_left m h
    rw [Nat.mul_succ] at hmul
    rw [compare_lt_iff_lt.mpr h, compare_lt_iff_lt.mpr (by omega)]
    rfl
  · rw [compare_eq_iff_eq.mpr rfl]
    show _ = compare a b
    simp only [Nat.compare_eq_ite_lt, Nat.add_lt_add_iff_left]
  · have hmul : m * (y + 1) ≤ m * x := Nat.mul_le_mul_left m h
    rw [Nat.mul_succ] at hmul
    rw [compare_gt_iff_gt.mpr h, compare_gt_iff_gt.mpr (by show _ < _; omega)]
    rfl

end ByteOrder
