import WireguardAes.Timers

/-!
# The padding of a data packet (`send.c`, `device.c`)

`calculate_skb_padding` computes with `unsigned int`. For every length of a socket buffer it gives
what the same computation gives on numbers that do not wrap, so the trailer that `encrypt_packet`
appends fits the tailroom that `wg_setup` asks the network stack for, and only a packet without data
has the length of a keepalive on the wire.
-/

namespace WireguardAes

/-- `ALIGN(x, MESSAGE_PADDING_MULTIPLE)` on integers. -/
def exactAlign (x : Int) : Int := (x + (messagePaddingMultiple - 1)) / messagePaddingMultiple * messagePaddingMultiple

/-- `calculate_skb_padding` on integers, which neither wrap nor stop at zero. -/
def exactPadding (len mtu : Int) : Int :=
  if mtu = 0 then exactAlign len - len
  else
    let lastUnit := if mtu < len then len % mtu else len
    min mtu (exactAlign lastUnit) - lastUnit

/-- `trailer_len` of `encrypt_packet`. -/
def trailerLen (len mtu : U32) : U32 := calculateSkbPadding len mtu + BitVec.ofNat 32 (noiseEncryptedLen 0)

/-- `dev->needed_tailroom` of `wg_setup`. -/
def neededTailroom : Nat := noiseEncryptedLen messagePaddingMultiple

theorem lastUnit_exact (len mtu : U32) : ((lastUnit len mtu).toNat : Int) =
    if (mtu.toNat : Int) = 0 then (len.toNat : Int)
    else if (mtu.toNat : Int) < len.toNat then (len.toNat : Int) % mtu.toNat else len.toNat := by
  have hzero : mtu = 0 ↔ (mtu.toNat : Int) = 0 := by bv_omega
  have hlt : mtu < len ↔ (mtu.toNat : Int) < len.toNat := by rw [BitVec.lt_def, Int.ofNat_lt]
  unfold lastUnit
  simp only [hzero, hlt]
  split_ifs
  · rfl
  · rw [BitVec.toNat_umod, Int.natCast_emod]
  · rfl

theorem calculateSkbPadding_exact {len : U32} (mtu : U32) (h : len.toNat < 2 ^ 31) :
    ((calculateSkbPadding len mtu).toNat : Int) = exactPadding len.toNat mtu.toNat := by
  have hsum := toNat_calculateSkbPadding mtu h
  have hlast := lastUnit_exact len mtu
  have hmul : (messagePaddingMultiple : Int) = 16 := rfl
  have halign (n : Nat) : exactAlign n = ((n + 15) / 16 * 16 : Nat) := by
    rw [exactAlign, hmul]
    omega
  unfold exactPadding
  by_cases hz : mtu = 0
  · have hzero : (mtu.toNat : Int) = 0 := by
      rw [hz]
      rfl
    rw [if_pos hzero] at hlast ⊢
    rw [if_neg fun hc => hc.1 hz] at hsum
    rw [← hlast, halign]
    omega
  · have hpos : (mtu.toNat : Int) ≠ 0 := by bv_omega
    rw [if_neg hpos] at hlast ⊢
    dsimp only
    rw [← hlast, halign]
    rw [min_def]
    split_ifs at hsum with hclamp
    · rw [if_pos (by have := hclamp.2; omega)]
      omega
    · have hle : ((lastUnit len mtu).toNat + 15) / 16 * 16 ≤ mtu.toNat := not_lt.mp fun hlt => hclamp ⟨hz, hlt⟩
      split <;> omega

/-- The length of a packet on the wire: header, data, padding and tag. -/
theorem OutSkb.encrypted_len {skb : OutSkb} (h : skb.len.toNat < 2 ^ 31) :
    skb.encrypted.len.toNat = messageDataLen (skb.len.toNat + (calculateSkbPadding skb.len skb.mtu).toNat) := by
  have hle := (calculateSkbPadding_le skb.mtu h).1
  have hfixed : messageDataLen 0 = 32 := rfl
  have hlen (n : Nat) : messageDataLen n = n + 32 := rfl
  rw [OutSkb.encrypted, hfixed, hlen]
  bv_omega

/-- For every length of a socket buffer and every MTU the padding is what the integers give, is less
than 16, and fills up the last unit to a multiple of 16 or to the MTU, which it never exceeds; an
empty packet has none. So the trailer fits the tailroom, and on the wire only packets without data
have the length of a keepalive. -/
theorem padding_fits {len : U32} (mtu : U32) (h : len.toNat < 2 ^ 31) :
    ((calculateSkbPadding len mtu).toNat : Int) = exactPadding len.toNat mtu.toNat ∧
    (calculateSkbPadding len mtu).toNat < messagePaddingMultiple ∧
    (messagePaddingMultiple ∣ (lastUnit len mtu).toNat + (calculateSkbPadding len mtu).toNat ∨
      (lastUnit len mtu).toNat + (calculateSkbPadding len mtu).toNat = mtu.toNat) ∧
    (mtu ≠ 0 → (lastUnit len mtu).toNat + (calculateSkbPadding len mtu).toNat ≤ mtu.toNat) ∧
    (len = 0 → calculateSkbPadding len mtu = 0) ∧
    (trailerLen len mtu).toNat = (calculateSkbPadding len mtu).toNat + noiseEncryptedLen 0 ∧
    (trailerLen len mtu).toNat ≤ neededTailroom ∧
    ∀ id, (OutSkb.mk id len mtu).encrypted.len.toNat = messageDataLen 0 ↔ len = 0 := by
  obtain ⟨hle, hzero⟩ := calculateSkbPadding_le mtu h
  have hsum := toNat_calculateSkbPadding mtu h
  have hmul : messagePaddingMultiple = 16 := rfl
  have htrailer : (trailerLen len mtu).toNat = (calculateSkbPadding len mtu).toNat + 16 := by
    have htag : noiseEncryptedLen 0 = 16 := rfl
    rw [trailerLen, htag]
    bv_omega
  refine ⟨calculateSkbPadding_exact mtu h, by omega, ?_, fun hne => ?_, hzero, htrailer, ?_, fun id => ?_⟩
  · split at hsum
    · exact .inr hsum
    · refine .inl ?_
      rw [hsum, hmul]
      exact Nat.dvd_mul_left ..
  · split_ifs at hsum with hclamp
    · exact hsum.le
    · rw [hsum]
      exact not_lt.mp fun hlt => hclamp ⟨hne, hlt⟩
  · have htail : neededTailroom = 32 := rfl
    omega
  · have hlen : (OutSkb.mk id len mtu).encrypted.len.toNat = _ := OutSkb.encrypted_len h
    have hdata (n : Nat) : messageDataLen n = n + 32 := rfl
    rw [hlen, hdata, hdata]
    show len.toNat + (calculateSkbPadding len mtu).toNat + 32 = 0 + 32 ↔ _
    constructor
    · intro heq
      apply BitVec.eq_of_toNat_eq
      show len.toNat = 0
      omega
    · rintro rfl
      show 0 + (calculateSkbPadding 0 mtu).toNat + 32 = 0 + 32
      rw [hzero rfl]
      rfl

/-- Without an MTU the last unit is the whole packet, and no packet but the empty one is within an
MTU of 0. -/
theorem padding_without_mtu : calculateSkbPadding 5 0 = 11 ∧
    (0 : U32).toNat < (lastUnit 5 0).toNat + (calculateSkbPadding 5 0).toNat := by decide

/-- Two packets for an MTU of 1420: one is padded up to the MTU, the other is longer than
the MTU. -/
theorem padding_fits_mtu :
    calculateSkbPadding 1419 1420 = 1 ∧ (lastUnit 1419 1420).toNat + 1 ≤ 1420 ∧
    calculateSkbPadding 1500 1420 = 0 ∧ (trailerLen 1500 1420).toNat ≤ neededTailroom :=
  ⟨by decide, (padding_fits 1420 (by decide)).2.2.2.1 (by decide), by decide,
    (padding_fits 1420 (by decide)).2.2.2.2.2.2.1⟩

end WireguardAes
