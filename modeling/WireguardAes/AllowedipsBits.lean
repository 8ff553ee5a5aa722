import WireguardAes.Lib.BitPrefix
import WireguardAes.Lib.ByteOrder
import WireguardAes.Messages

/-!
# Keys of the allowed-IPs trie (`allowedips.c`)

Addresses arrive in network byte order; `swap_endian` stores them as one `u32` or two `u64` of the
machine (little-endian here), so that `fls` finds the first differing bit. `bit_at_a` and
`bit_at_b` locate bit number `cidr` of the network order inside those bytes. `keyNat` is the number
the stored bytes stand for; the functions of the trie are the bit-prefix functions on it.
-/

namespace WireguardAes

open BitPrefix ByteOrder

/-- `fls`, `fls64`: the position of the last set bit, from 1. -/
def fls (x : Nat) : Nat := x.size

def fls128 (a b : Nat) : Nat := if a ≠ 0 then fls a + 64 else fls b

def load32 (p : Bytes) : Nat := leNat (p.take 4)

def load64 (p : Bytes) : Nat := leNat (p.take 8)

def swapEndian (src : Bytes) (bits : Nat) : Bytes :=
  if bits = 32 then (src.take 4).reverse
  else if bits = 128 then (src.take 8).reverse ++ ((src.drop 8).take 8).reverse
  else []

def commonBits (nodeBits key : Bytes) (bits : Nat) : Nat :=
  if bits = 32 then 32 - fls (load32 nodeBits ^^^ load32 key)
  else if bits = 128 then
    128 - fls128 (load64 nodeBits ^^^ load64 key) (load64 (nodeBits.drop 8) ^^^ load64 (key.drop 8))
  else 0

/-- `bit_at_a`: the byte of bit number `cidr`, on a little-endian machine. -/
def bitAtA (cidr bits : Nat) : Nat := (cidr / 8) ^^^ ((bits / 8 - 1) % 8)

/-- `bit_at_b`: its position in that byte. -/
def bitAtB (cidr : Nat) : Nat := 7 - cidr % 8

/-- `(key[bit_at_a] >> bit_at_b) & 1`. -/
def bitAt (key : Bytes) (a b : Nat) : Bool := (key.getD a 0).toNat.testBit b

/-- The number stored in a key. -/
def keyNat (bits : Nat) (key : Bytes) : Nat :=
  if bits = 32 then load32 key else 2 ^ 64 * load64 key + load64 (key.drop 8)

/-- The two address widths. -/
def Width (bits : Nat) : Prop := bits = 32 ∨ bits = 128

theorem keyNat_v4 (key : Bytes) : keyNat 32 key = load32 key := rfl

theorem keyNat_v6 (key : Bytes) : keyNat 128 key = 2 ^ 64 * load64 key + load64 (key.drop 8) := rfl

theorem load32_lt (p : Bytes) : load32 p < 2 ^ 32 := by
  have h := leNat_lt (p.take 4)
  have hp : (256 : Nat) ^ (p.take 4).length ≤ 256 ^ 4 :=
    Nat.pow_le_pow_right (by decide) (by rw [List.length_take]; omega)
  exact lt_of_lt_of_le h hp

theorem load64_lt (p : Bytes) : load64 p < 2 ^ 64 := by
  have h := leNat_lt (p.take 8)
  have hp : (256 : Nat) ^ (p.take 8).length ≤ 256 ^ 8 :=
    Nat.pow_le_pow_right (by decide) (by rw [List.length_take]; omega)
  exact lt_of_lt_of_le h hp

theorem keyNat_lt {bits : Nat} (hb : Width bits) (key : Bytes) : keyNat bits key < 2 ^ bits := by
  rcases hb with rfl | rfl
  · exact load32_lt key
  · have h1 := load64_lt key
    have h2 := load64_lt (key.drop 8)
    rw [keyNat_v6]
    omega

theorem keyNat_take {bits : Nat} (hb : Width bits) (key : Bytes) :
    keyNat bits (key.take (bits / 8)) = keyNat bits key := by
  rcases hb with rfl | rfl
  · simp [keyNat_v4, load32, List.take_take]
  · simp [keyNat_v6, load64, List.take_take, List.drop_take]

theorem keyNat_copy {bits : Nat} (hb : Width bits) {src rest : Bytes} (hlen : bits / 8 ≤ src.length) :
    keyNat bits (src.take (bits / 8) ++ rest) = keyNat bits src := by
  rw [← keyNat_take hb (_ ++ _), List.take_left' (by rw [List.length_take]; omega), keyNat_take hb]

theorem xor_two_pow_mul_add {a a' b b' k : Nat} (hb : b < 2 ^ k) (hb' : b' < 2 ^ k) :
    (2 ^ k * a + b) ^^^ (2 ^ k * a' + b') = 2 ^ k * (a ^^^ a') + (b ^^^ b') := by
  refine Nat.eq_of_testBit_eq fun i => ?_
  rw [Nat.testBit_xor, Nat.testBit_two_pow_mul_add _ hb, Nat.testBit_two_pow_mul_add _ hb',
    Nat.testBit_two_pow_mul_add _ (Nat.xor_lt_two_pow hb hb')]
  split <;> rw [Nat.testBit_xor]

theorem fls128_eq {a b : Nat} (hb : b < 2 ^ 64) : fls128 a b = (2 ^ 64 * a + b).size := by
  unfold fls128 fls
  split_ifs with ha
  · apply le_antisymm
    · have h1 : 2 ^ (a.size - 1) ≤ a := Nat.lt_size.1 (by have := Nat.size_pos.2 (Nat.pos_of_ne_zero ha); omega)
      have hpos := Nat.size_pos.2 (Nat.pos_of_ne_zero ha)
      have h2 : a.size + 64 - 1 < (2 ^ 64 * a + b).size := by
        rw [Nat.lt_size, show a.size + 64 - 1 = 64 + (a.size - 1) by omega, pow_add]
        exact le_trans (Nat.mul_le_mul_left _ h1) (Nat.le_add_right ..)
      omega
    · rw [Nat.size_le, Nat.add_comm, pow_add]
      have h1 : a < 2 ^ a.size := Nat.lt_size_self a
      have h2 := Nat.mul_le_mul_left (2 ^ 64) h1
      rw [Nat.mul_succ] at h2
      omega
  · rw [not_not.1 ha]; simp

/-- `common_bits` is the length of the longest common prefix. -/
theorem commonBits_eq {bits : Nat} (hb : Width bits) (x y : Bytes) :
    commonBits x y bits = common bits (keyNat bits x) (keyNat bits y) := by
  rcases hb with rfl | rfl
  · rfl
  · have hlo := Nat.xor_lt_two_pow (load64_lt (x.drop 8)) (load64_lt (y.drop 8))
    rw [keyNat_v6, keyNat_v6, common, xor_two_pow_mul_add (load64_lt _) (load64_lt _), ← fls128_eq hlo]
    rfl

theorem bitAtA_xor3 : ∀ k < 4, k ^^^ 3 = 3 - k := by decide

theorem bitAtA_xor7 : ∀ k < 16, k ^^^ 7 = if k < 8 then 7 - k else 23 - k := by decide

theorem getD_take {key : Bytes} {n i : Nat} (h : i < n) : (key.take n).getD i 0 = key.getD i 0 := by
  simp [List.getD_eq_getElem?_getD, h]

theorem getD_drop {key : Bytes} {n i : Nat} : (key.drop n).getD i 0 = key.getD (n + i) 0 := by
  simp [List.getD_eq_getElem?_getD, List.getElem?_drop]

theorem bitAt_eq {bits : Nat} (hb : Width bits) (key : Bytes) {cidr : Nat} (hc : cidr < bits) :
    bitAt key (bitAtA cidr bits) (bitAtB cidr) = msb bits (keyNat bits key) cidr := by
  rcases hb with rfl | rfl
  · have hx : bitAtA cidr 32 = 3 - cidr / 8 := bitAtA_xor3 _ (by omega)
    rw [bitAt, hx, bitAtB, msb, keyNat_v4, load32, testBit_leNat, getD_take (by omega),
      show (32 - 1 - cidr) / 8 = 3 - cidr / 8 by omega, show (32 - 1 - cidr) % 8 = 7 - cidr % 8 by omega]
  · have hx : bitAtA cidr 128 = if cidr / 8 < 8 then 7 - cidr / 8 else 23 - cidr / 8 :=
      bitAtA_xor7 _ (by omega)
    rw [bitAt, hx, bitAtB, msb, keyNat_v6, Nat.testBit_two_pow_mul_add _ (load64_lt _)]
    by_cases h8 : cidr / 8 < 8
    · rw [if_pos h8, if_neg (by omega), load64, testBit_leNat, getD_take (by omega),
        show (128 - 1 - cidr - 64) / 8 = 7 - cidr / 8 by omega,
        show (128 - 1 - cidr - 64) % 8 = 7 - cidr % 8 by omega]
    · rw [if_neg h8, if_pos (by omega), load64, testBit_leNat, getD_take (by omega), getD_drop,
        show 8 + (128 - 1 - cidr) / 8 = 23 - cidr / 8 by omega,
        show (128 - 1 - cidr) % 8 = 7 - cidr % 8 by omega]

/-- A key holds the number its address spells in network byte order. -/
theorem keyNat_swapEndian {bits : Nat} (hb : Width bits) {ip : Bytes} (hlen : ip.length = bits / 8) :
    keyNat bits (swapEndian ip bits) = beNat ip := by
  rcases hb with rfl | rfl
  · have hip : ip.take 4 = ip := List.take_of_length_le (by omega)
    have hrev : ip.reverse.take 4 = ip.reverse := List.take_of_length_le (by simp; omega)
    rw [keyNat_v4, load32, swapEndian, if_pos rfl, hip, hrev, leNat_reverse]
  · have h1 : (ip.take 8).reverse.length = 8 := by simp; omega
    have h2 : (ip.drop 8).reverse.length = 8 := by simp; omega
    have hip : (ip.drop 8).take 8 = ip.drop 8 := List.take_of_length_le (by simp; omega)
    have hswap : swapEndian ip 128 = (ip.take 8).reverse ++ (ip.drop 8).reverse := by
      rw [swapEndian, if_neg (by decide), if_pos rfl, hip]
    rw [keyNat_v6, load64, load64, hswap, List.take_left' h1, List.drop_left' h1,
      List.take_of_length_le (le_of_eq h2), ← leNat_reverse ip]
    conv_rhs => rw [← List.take_append_drop 8 ip, List.reverse_append, leNat_append, h2]
    rfl

end WireguardAes
