import WireguardAes.Noise
import WireguardAes.Lib.ByteOrder
import Mathlib.Data.Nat.Size

/-!
# Timestamps of the initiations (`noise.c`)

`tai64n_now` rounds the nanoseconds of the wall clock down, adds the offset of TAI64 to the seconds,
and stores both big-endian, so that `memcmp` orders timestamps as numbers. The rounding is done
within the second; the interval between two initiations is longer than the unit of the rounding, so
it is never rounded away.
-/

namespace WireguardAes

open ByteOrder

/-- `struct timespec64`: a signed number of seconds and a `long`. -/
structure Timespec64 where
  tvSec : U64
  tvNsec : U64

/-- `1UL << (fls_long(n) - 1)` -/
def rounddownPowOfTwo (n : Nat) : Nat := 2 ^ (n.size - 1)

/-- `ALIGN_DOWN(x, a)` -/
def alignDown (x a : U64) : U64 := x &&& ~~~(a - 1)

/-- What `tai64n_now` writes when the clock reads `now`. -/
def tai64nNow (now : Timespec64) : Bytes :=
  let tvNsec := alignDown now.tvNsec (BitVec.ofNat 64 (rounddownPowOfTwo (nsecPerSec / initiationsPerSecond)))
  beBytes 8 (0x400000000000000a + now.tvSec).toNat ++ beBytes 4 (tvNsec.setWidth 32).toNat

namespace Timespec64

/-- A reading of the clock in the 146 billion years from the epoch. -/
structure Valid (now : Timespec64) : Prop where
  sec : now.tvSec.toNat < 2 ^ 62
  nsec : now.tvNsec.toNat < nsecPerSec

/-- The nanoseconds, rounded down to a multiple of 2²⁴. -/
def rounded (now : Timespec64) : Nat := now.tvNsec.toNat / 2 ^ 24 * 2 ^ 24

/-- The reading in nanoseconds. -/
def ns (now : Timespec64) : Nat := nsecPerSec * now.tvSec.toNat + now.tvNsec.toNat

/-- The order of the readings up to the rounding. -/
def cmpRounded (a b : Timespec64) : Ordering := (compare a.tvSec.toNat b.tvSec.toNat).then (compare a.rounded b.rounded)

end Timespec64

theorem length_tai64nNow (now : Timespec64) : (tai64nNow now).length = noiseTimestampLen := by
  rw [tai64nNow, List.length_append, length_beBytes, length_beBytes]
  rfl

theorem rounddownPowOfTwo_interval : rounddownPowOfTwo (nsecPerSec / initiationsPerSecond) = 2 ^ 24 := by
  have hinterval : nsecPerSec / initiationsPerSecond = 20000000 := by decide
  have hle : Nat.size 20000000 ≤ 25 := Nat.size_le.mpr (by decide)
  have hlt : 24 < Nat.size 20000000 := Nat.lt_size.mpr (by decide)
  rw [rounddownPowOfTwo, hinterval, show Nat.size 20000000 - 1 = 24 by omega]

theorem toNat_alignDown (x : U64) {k : Nat} (hk : k < 64) :
    (alignDown x (BitVec.ofNat 64 (2 ^ k))).toNat = x.toNat / 2 ^ k * 2 ^ k := by
  have hpow : 2 ^ k < 2 ^ 64 := Nat.pow_lt_pow_right (by decide) hk
  have hmask : BitVec.ofNat 64 (2 ^ k) - 1 = BitVec.ofNat 64 (2 ^ k - 1) := by
    apply BitVec.eq_of_toNat_eq
    have hpos : 0 < 2 ^ k := Nat.two_pow_pos k
    rw [BitVec.toNat_sub_of_le, BitVec.toNat_ofNat, BitVec.toNat_ofNat, Nat.mod_eq_of_lt hpow,
      Nat.mod_eq_of_lt (by omega)]
    · rfl
    · rw [BitVec.le_def, BitVec.toNat_ofNat, Nat.mod_eq_of_lt hpow]
      exact hpos
  -- both sides keep the bits from `k` on
  refine Nat.eq_of_testBit_eq fun i => ?_
  rw [alignDown, hmask, ← Nat.shiftRight_eq_div_pow, ← Nat.shiftLeft_eq, Nat.testBit_shiftLeft, Nat.testBit_shiftRight,
    BitVec.testBit_toNat, BitVec.getLsbD_and, BitVec.getLsbD_not, BitVec.getLsbD_ofNat, Nat.testBit_two_pow_sub_one,
    BitVec.testBit_toNat]
  by_cases hi : k ≤ i
  · rw [Nat.add_sub_cancel' hi]
    by_cases hw : i < 64
    · simp [hi, hw]
    · simp [hi, hw, BitVec.getLsbD_of_ge x i (by omega)]
  · simp [hi]
    omega

/-- `memcmp` orders byte strings of one length as big-endian numbers. -/
theorem memcmp_eq_compare {a b : Bytes} (h : a.length = b.length) : memcmp a b = compare (beNat a) (beNat b) := by
  induction a generalizing b with
  | nil =>
    rw [List.eq_nil_of_length_eq_zero h.symm]
    rfl
  | cons x a ih =>
    rcases b with - | ⟨y, b⟩
    · cases h
    have hlen : a.length = b.length := Nat.succ.inj h
    have ha := beNat_lt a
    have hb := beNat_lt b
    rw [Nat.pow_mul, hlen] at ha
    rw [Nat.pow_mul] at hb
    rw [memcmp, beNat_cons, beNat_cons, ih hlen, hlen, compare_mul_add ha hb]
    simp only [UInt8.lt_iff_toNat_lt, Nat.compare_eq_ite_lt x.toNat]
    split_ifs <;> rfl

theorem memcmp_gt_iff {a b : Bytes} (h : a.length = b.length) : memcmp a b = .gt ↔ beNat b < beNat a := by
  rw [memcmp_eq_compare h]
  exact compare_gt_iff_gt

namespace Timespec64

variable {a b : Timespec64}

theorem rounded_le (a : Timespec64) : a.rounded ≤ a.tvNsec.toNat := Nat.div_mul_le_self _ _

theorem beNat_tai64nNow (h : a.Valid) :
    beNat (tai64nNow a) = 2 ^ 32 * (0x400000000000000a + a.tvSec.toNat) + a.rounded := by
  have hsec := h.sec
  have hnsec := h.nsec
  have hround := a.rounded_le
  unfold nsecPerSec at hnsec
  have hlow : (0x400000000000000a : U64).toNat = 0x400000000000000a := rfl
  have hadd : (0x400000000000000a + a.tvSec).toNat = 0x400000000000000a + a.tvSec.toNat := by
    rw [BitVec.toNat_add, hlow, Nat.mod_eq_of_lt (by omega)]
  have halign : (alignDown a.tvNsec (BitVec.ofNat 64 (2 ^ 24))).toNat = a.rounded :=
    toNat_alignDown a.tvNsec (by decide)
  rw [tai64nNow, rounddownPowOfTwo_interval, beNat_append, length_beBytes, beNat_beBytes, beNat_beBytes, hadd,
    BitVec.toNat_setWidth, halign, Nat.mod_eq_of_lt (by omega), Nat.mod_eq_of_lt (by omega : a.rounded < 2 ^ 32),
    Nat.mod_eq_of_lt (by omega), show (256 : Nat) ^ 4 = 2 ^ 32 from rfl]

theorem memcmp_tai64nNow (ha : a.Valid) (hb : b.Valid) : memcmp (tai64nNow a) (tai64nNow b) = cmpRounded a b := by
  have hround (c : Timespec64) (hc : c.Valid) : c.rounded < 2 ^ 32 := by
    have hle := c.rounded_le
    have hnsec := hc.nsec
    unfold nsecPerSec at hnsec
    omega
  have hsec : compare (0x400000000000000a + a.tvSec.toNat) (0x400000000000000a + b.tvSec.toNat) =
      compare a.tvSec.toNat b.tvSec.toNat := by
    simp only [Nat.compare_eq_ite_lt, Nat.add_lt_add_iff_left]
  rw [memcmp_eq_compare (by rw [length_tai64nNow, length_tai64nNow]), beNat_tai64nNow ha, beNat_tai64nNow hb,
    compare_mul_add (hround a ha) (hround b hb), hsec, cmpRounded]

/-- A later reading has not a smaller timestamp. -/
theorem beNat_mono (ha : a.Valid) (hb : b.Valid) (hle : a.ns ≤ b.ns) : beNat (tai64nNow a) ≤ beNat (tai64nNow b) := by
  have hna := ha.nsec
  have hnb := hb.nsec
  have hra := a.rounded_le
  unfold ns at hle
  unfold nsecPerSec at hle hna hnb
  rw [beNat_tai64nNow ha, beNat_tai64nNow hb]
  rcases Nat.lt_trichotomy a.tvSec.toNat b.tvSec.toNat with hlt | heq | hgt
  · omega
  · have hround : a.rounded ≤ b.rounded := Nat.mul_le_mul_right _ (Nat.div_le_div_right (by omega))
    omega
  · omega

/-- A reading that is later by the interval between two initiations has a greater timestamp. -/
theorem beNat_strictMono (ha : a.Valid) (hb : b.Valid) (hle : a.ns + nsecPerSec / initiationsPerSecond ≤ b.ns) :
    beNat (tai64nNow a) < beNat (tai64nNow b) := by
  have hna := ha.nsec
  have hnb := hb.nsec
  have hra := a.rounded_le
  have hinterval : nsecPerSec / initiationsPerSecond = 20000000 := by decide
  rw [hinterval] at hle
  unfold ns at hle
  unfold nsecPerSec at hle hna hnb
  rw [beNat_tai64nNow ha, beNat_tai64nNow hb]
  rcases Nat.lt_trichotomy a.tvSec.toNat b.tvSec.toNat with hlt | heq | hgt
  · omega
  · unfold rounded
    omega
  · omega

/-- Timestamps compare like the readings with their nanoseconds rounded down. A later reading never
has a smaller timestamp. Of readings that are an interval apart the later one has the greater
timestamp: when the other side has the earlier one, or any before it, it does not take the later one
for a replay, and neither does it after it has accepted the earlier one. -/
theorem tai64n_order (ha : a.Valid) (hb : b.Valid) :
    memcmp (tai64nNow a) (tai64nNow b) = cmpRounded a b ∧
    (a.ns ≤ b.ns → memcmp (tai64nNow b) (tai64nNow a) ≠ .lt) ∧
    (a.ns + nsecPerSec / initiationsPerSecond ≤ b.ns →
      memcmp (tai64nNow b) (tai64nNow a) = .gt ∧
      (∀ h : NoiseHandshake, h.latestTimestamp.length = noiseTimestampLen → memcmp h.latestTimestamp
        (tai64nNow a) ≠ .gt →
        replayAttack h (tai64nNow b) = false) ∧
      ∀ (h : NoiseHandshake) (src : MessageHandshakeInitiation) (chainingKey hash : Bytes) (now : U64),
        replayAttack h (tai64nNow a) = false →
        replayAttack (writeInitiation h src (tai64nNow a) chainingKey hash now) (tai64nNow b) = false) := by
  have hlen : (tai64nNow b).length = (tai64nNow a).length := by rw [length_tai64nNow, length_tai64nNow]
  have hgt {h : NoiseHandshake} {t : Bytes} : replayAttack h t = false ↔ memcmp t h.latestTimestamp = .gt := by
    rw [replayAttack, bne_eq_false_iff_eq]
  refine ⟨memcmp_tai64nNow ha hb, fun hle hlt => ?_, fun hle => ⟨?_, fun h hlatest hnot => ?_, ?_⟩⟩
  · rw [memcmp_eq_compare hlen, compare_lt_iff_lt] at hlt
    exact absurd (beNat_mono ha hb hle) (not_le.mpr hlt)
  · exact (memcmp_gt_iff hlen).mpr (beNat_strictMono ha hb hle)
  · have hlenA : h.latestTimestamp.length = (tai64nNow a).length := by rw [hlatest, length_tai64nNow]
    rw [ne_eq, memcmp_gt_iff hlenA, not_lt] at hnot
    rw [hgt, memcmp_gt_iff (hlen.trans hlenA.symm)]
    exact lt_of_le_of_lt hnot (beNat_strictMono ha hb hle)
  · intro h src chainingKey hash now hfirst
    rw [hgt] at hfirst ⊢
    have hlatest : (writeInitiation h src (tai64nNow a) chainingKey hash now).latestTimestamp =
      tai64nNow a := if_pos hfirst
    rw [hlatest, memcmp_gt_iff hlen]
    exact beNat_strictMono ha hb hle

/-- Two readings across the end of a second, an interval apart. -/
theorem tai64n_order_second :
    memcmp (tai64nNow ⟨8, 10000000⟩) (tai64nNow ⟨7, 990000000⟩) = .gt := by
  have hvalid : Valid ⟨7, 990000000⟩ ∧ Valid ⟨8, 10000000⟩ := ⟨⟨by decide, by decide⟩, ⟨by decide, by decide⟩⟩
  exact ((tai64n_order hvalid.1 hvalid.2).2.2 (by decide)).1

end Timespec64
end WireguardAes
