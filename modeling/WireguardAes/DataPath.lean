import WireguardAes.Handshake
import WireguardAes.SendNonce

/-!
# Data packets (`send.c`, `receive.c`)

`encrypt_packet`, `validate_header_len`, `decrypt_packet` and the first half of
`wg_packet_consume_data_done`, on the bytes of a packet, and the choice of the cipher in `device.c`.
The operations of the kernel on socket buffers are the fields of `SkbLayer`; an argument `room` says
whether `skb_cow_data`, `skb_cow_head`, `skb_to_sgvec` and `pskb_trim` succeed.
-/

namespace WireguardAes

open ByteOrder

structure SkbLayer where
  /-- Completes the checksum of a packet whose sender left it to the hardware. -/
  checksumHelp : Bytes → Option Bytes
  /-- `INET_ECN_decapsulate` with the outer traffic class. -/
  ecnDecapsulate : UInt8 → Bytes → Bytes

/-- A packet to send, with its `PACKET_CB`. -/
structure DataSkb where
  data : Bytes
  mtu : U32
  nonce : U64
  /-- `ip_summed == CHECKSUM_PARTIAL`. -/
  checksumPartial : Bool

/-! ### The cipher of a device -/

/-- `wg_init_aes_percpu`: `is_chacha`, or none if the requests cannot be allocated. `probe` says
whether `crypto_alloc_aead("gcm(aes)", 0, 0)` succeeds. -/
def initAesPercpu (probe alloc : Bool) : Option Bool :=
  if !probe then some true else if alloc then some false else none

/-! ### Sending -/

def align (x multiple : U32) : U32 := (x + (multiple - 1)) &&& ~~~(multiple - 1)

def calculateSkbPadding (len mtu : U32) : U32 :=
  let multiple := BitVec.ofNat 32 messagePaddingMultiple
  if mtu = 0 then align len multiple - len
  else
    let lastUnit := if mtu < len then len % mtu else len
    let paddedSize := if mtu < align lastUnit multiple then mtu else align lastUnit multiple
    paddedSize - lastUnit

def finalizeChecksum (N : SkbLayer) (skb : DataSkb) : Option Bytes :=
  if skb.checksumPartial then N.checksumHelp skb.data else some skb.data

/-- The `plaintext_len` bytes to encrypt: the packet and the padding. -/
def paddedPlaintext (N : SkbLayer) (skb : DataSkb) : Option Bytes :=
  let len := BitVec.ofNat 32 skb.data.length
  let paddingLen := calculateSkbPadding len skb.mtu
  let plaintextLen := len + paddingLen
  (finalizeChecksum N skb).map fun data => (data ++ List.replicate paddingLen.toNat 0).take plaintextLen.toNat

/-- `struct message_data` without the encrypted data. -/
def dataHeader (keyIdx : U32) (counter : U64) : Bytes :=
  leBytes 4 messageData ++ leBytes 4 keyIdx.toNat ++ leBytes 8 counter.toNat

/-- The end of `encrypt_packet`. -/
def aeadEncrypt (C : Crypto) (keypair : NoiseKeypair) (isChacha : Bool) (nonce : U64) (src : Bytes) : Option Bytes :=
  if isChacha then some (C.chacha20poly1305Encrypt keypair.sending.key nonce [] src)
  else keypair.aeadEnc.map fun key => C.gcmEncrypt key (gcmIv nonce) [] src

def encryptPacket (C : Crypto) (N : SkbLayer) (keypair : NoiseKeypair) (isChacha : Bool) (skb : DataSkb)
    (room : Bool) : Option Bytes :=
  if !room then none else
  (paddedPlaintext N skb).bind fun plaintext =>
  (aeadEncrypt C keypair isChacha skb.nonce plaintext).map (dataHeader keypair.remoteIndex skb.nonce ++ ·)

/-! ### Receiving -/

def skbType (skb : Bytes) : Nat := leNat (skb.take 4)

def validateHeaderLen (skb : Bytes) : Nat :=
  if skb.length < sizeofMessageHeader then 0
  else if skbType skb = messageData ∧ messageMinimumLength ≤ skb.length then sizeofMessageData
  else if skbType skb = messageHandshakeInitiation ∧ skb.length = sizeofMessageHandshakeInitiation then
    sizeofMessageHandshakeInitiation
  else if skbType skb = messageHandshakeResponse ∧ skb.length = sizeofMessageHandshakeResponse then
    sizeofMessageHandshakeResponse
  else if skbType skb = messageHandshakeCookie ∧ skb.length = sizeofMessageHandshakeCookie then
    sizeofMessageHandshakeCookie
  else 0

def birthdateHasExpired (birthdate : U64) (expirationSeconds : Nat) (now : U64) : Bool :=
  (birthdate + BitVec.ofNat 64 (expirationSeconds * nsecPerSec)).sle now

/-- Whether the first check of `decrypt_packet` finds the receiving key usable. -/
def receivingUsable (keypair : NoiseKeypair) (receivingCounter now : U64) : Bool :=
  keypair.receiving.isValid && !birthdateHasExpired keypair.receiving.birthdate rejectAfterTime now &&
    decide (receivingCounter.toNat < rejectAfterMessages)

/-- The middle of `decrypt_packet`. -/
def aeadDecrypt (C : Crypto) (keypair : NoiseKeypair) (isChacha : Bool) (nonce : U64) (src : Bytes) : Option Bytes :=
  if isChacha then C.chacha20poly1305Decrypt keypair.receiving.key nonce [] src
  else keypair.aeadDec.bind fun key => C.gcmDecrypt key (gcmIv nonce) [] src

/-- The keypair, which is invalidated if it is no longer usable, and the nonce and the plaintext of
the packet. -/
def decryptPacket (C : Crypto) (keypair : NoiseKeypair) (isChacha : Bool) (receivingCounter now : U64) (skb : Bytes)
    (room : Bool) : NoiseKeypair × Option (U64 × Bytes) :=
  if !receivingUsable keypair receivingCounter now then
    ({ keypair with receiving := { keypair.receiving with isValid := false } }, none)
  else
    let nonce := BitVec.ofNat 64 (leNat ((skb.drop 8).take 8))
    let decrypted := aeadDecrypt C keypair isChacha nonce (skb.drop sizeofMessageData)
    (keypair, if room then decrypted.map fun dst => (nonce, dst) else none)

def sizeofIphdr : Nat := 20
def sizeofIpv6hdr : Nat := 40

def ipVersion (skb : Bytes) : Nat := (skb.getD 0 0).toNat / 16

def be16 (skb : Bytes) (i : Nat) : Nat := 256 * (skb.getD i 0).toNat + (skb.getD (i + 1) 0).toNat

def ethPIp : UInt16 := 0x0800
def ethPIpv6 : UInt16 := 0x86DD

inductive EthProtocol where
  | ip
  | ipv6
  deriving DecidableEq

def ipTunnelParseProtocol (skb : Bytes) : Option EthProtocol :=
  if sizeofIphdr ≤ skb.length ∧ ipVersion skb = 4 then some .ip
  else if sizeofIpv6hdr ≤ skb.length ∧ ipVersion skb = 6 then some .ipv6
  else none

/-- The length in the IP header. -/
def ipLength (skb : Bytes) : EthProtocol → Nat
  | .ip => be16 skb 2
  | .ipv6 => be16 skb 4 + sizeofIpv6hdr

inductive Consumed where
  | keepalive
  | dishonestPacketType
  | dishonestPacketSize
  /-- `pskb_trim` failed. -/
  | dropped
  | trimmed (skb : Bytes)

/-- `wg_packet_consume_data_done` up to the lookup of the source address. -/
def consumeDataDone (N : SkbLayer) (ds : UInt8) (skb : Bytes) (room : Bool) : Consumed :=
  if skb.length = 0 then .keepalive
  else if ¬ (sizeofIphdr ≤ skb.length ∧
      (ipVersion skb = 4 ∨ (ipVersion skb = 6 ∧ sizeofIpv6hdr ≤ skb.length))) then .dishonestPacketType
  else match ipTunnelParseProtocol skb with
    | none => .dishonestPacketType
    | some protocol =>
      let len := ipLength skb protocol
      if protocol = .ip ∧ len < sizeofIphdr then .dishonestPacketSize
      else
        let skb := N.ecnDecapsulate ds skb
        if skb.length < len then .dishonestPacketSize
        else if room then .trimmed (skb.take len)
        else .dropped

/-! ### The padding -/

theorem and_not_add_and {w : Nat} (y m : BitVec w) : (y &&& ~~~m) + (y &&& m) = y := by
  rw [BitVec.add_eq_or_of_and_eq_zero]
  · ext i
    simp
    grind
  · ext i
    simp
    grind

/-- A length is rounded up to a multiple of 16. -/
theorem toNat_align {x : U32} (h : x.toNat < 2 ^ 31) : (align x 16).toNat = (x.toNat + 15) / 16 * 16 := by
  have hsum : align x 16 + ((x + 15) &&& 15) = x + 15 := and_not_add_and (x + 15) 15
  have hmod : ((x + 15) &&& 15).toNat = (x + 15).toNat % 16 := by
    rw [BitVec.toNat_and]
    exact Nat.and_two_pow_sub_one_eq_mod _ 4
  have hle : (align x 16).toNat ≤ (x + 15).toNat := by
    rw [align, BitVec.toNat_and]
    exact Nat.and_le_left
  bv_omega

/-- `last_unit`: the packet, or what is left of it after whole units of the MTU. -/
def lastUnit (len mtu : U32) : U32 := if mtu = 0 then len else if mtu < len then len % mtu else len

theorem lastUnit_le (len mtu : U32) :
    (lastUnit len mtu).toNat ≤ len.toNat ∧ (mtu ≠ 0 → (lastUnit len mtu).toNat ≤ mtu.toNat) := by
  unfold lastUnit
  split
  case isTrue hmtu =>
    exact ⟨le_rfl, fun hne => absurd hmtu hne⟩
  · split
    · have hlt := Nat.mod_lt len.toNat (show 0 < mtu.toNat by bv_omega)
      have hle := Nat.mod_le len.toNat mtu.toNat
      rw [BitVec.toNat_umod]
      omega
    · bv_omega

/-- The subtraction at the end does not wrap: the padding fills up the last unit to a multiple of
16, or to the MTU. -/
theorem toNat_calculateSkbPadding {len : U32} (mtu : U32) (h : len.toNat < 2 ^ 31) :
    (lastUnit len mtu).toNat + (calculateSkbPadding len mtu).toNat =
      if mtu ≠ 0 ∧ mtu.toNat < ((lastUnit len mtu).toNat + 15) / 16 * 16 then mtu.toNat
      else ((lastUnit len mtu).toNat + 15) / 16 * 16 := by
  have hmul : BitVec.ofNat 32 messagePaddingMultiple = 16 := rfl
  obtain ⟨hle, hmtu⟩ := lastUnit_le len mtu
  have halign : (align (lastUnit len mtu) 16).toNat = ((lastUnit len mtu).toNat + 15) / 16 * 16 :=
    toNat_align (Nat.lt_of_le_of_lt hle h)
  by_cases hz : mtu = 0
  · have hlast : lastUnit len mtu = len := if_pos hz
    rw [hlast] at halign
    rw [if_neg (fun hc => hc.1 hz), hlast, calculateSkbPadding, if_pos hz, hmul]
    bv_omega
  · have hcalc : calculateSkbPadding len mtu =
        (if mtu < align (lastUnit len mtu) 16 then mtu else align (lastUnit len mtu) 16) - lastUnit len mtu := by
      rw [calculateSkbPadding, if_neg hz, hmul, lastUnit, if_neg hz]
    have hmtu := hmtu hz
    rw [hcalc, ← halign]
    by_cases hclamp : mtu < align (lastUnit len mtu) 16
    · rw [if_pos hclamp, if_pos ⟨hz, hclamp⟩]
      bv_omega
    · rw [if_neg hclamp, if_neg fun hc => hclamp hc.2]
      bv_omega

/-- For no MTU does the final subtraction overflow, and an empty packet is not padded. -/
theorem calculateSkbPadding_le {len : U32} (mtu : U32) (h : len.toNat < 2 ^ 31) :
    (calculateSkbPadding len mtu).toNat ≤ 15 ∧ (len = 0 → calculateSkbPadding len mtu = 0) := by
  have hsum := toNat_calculateSkbPadding mtu h
  obtain ⟨hle, -⟩ := lastUnit_le len mtu
  refine ⟨?_, ?_⟩
  · split at hsum <;> omega
  · rintro rfl
    apply BitVec.eq_of_toNat_eq
    have hzero : (0 : U32).toNat = 0 := rfl
    rw [hzero] at hle ⊢
    split at hsum <;> omega

def ecnMask : EthProtocol → UInt8
  | .ip => 0x03
  | .ipv6 => 0x30

/-- Nothing but the ECN bits has changed, and with them the header checksum of IPv4, which covers
them. -/
structure SameButEcn (protocol : EthProtocol) (skb skb' : Bytes) : Prop where
  length : skb'.length = skb.length
  other : ∀ i, i ≠ 1 → (protocol = .ip → i ≠ 10 ∧ i ≠ 11) → skb'[i]? = skb[i]?
  ecn : skb'.getD 1 0 &&& ~~~(ecnMask protocol) = skb.getD 1 0 &&& ~~~(ecnMask protocol)
  unset : skb'.getD 1 0 = skb.getD 1 0 → skb' = skb

/-- What the functions of `SkbLayer` are documented to do. -/
structure SkbLayer.Documented (N : SkbLayer) : Prop where
  length_checksumHelp : ∀ skb skb', N.checksumHelp skb = some skb' → skb'.length = skb.length
  ecnDecapsulate : ∀ ds skb protocol, ipTunnelParseProtocol skb = some protocol →
    SameButEcn protocol skb (N.ecnDecapsulate ds skb)

variable {C : Crypto} {N : SkbLayer} {skb : DataSkb} {p : Bytes}

/-- The largest padding leaves the length of the message an `int`. -/
def DataSkb.Admitted (skb : DataSkb) : Prop := messageDataLen (skb.data.length + messagePaddingMultiple) < 2 ^ 31

theorem finalizeChecksum_length (hN : N.Documented) (h : finalizeChecksum N skb = some p) :
    p.length = skb.data.length := by
  unfold finalizeChecksum at h
  split at h
  · exact hN.length_checksumHelp _ _ h
  · cases h
    rfl

/-- The packet is encrypted whole, with zeros after it, and an empty packet is encrypted as such. -/
theorem paddedPlaintext_spec (hN : N.Documented) (hp : finalizeChecksum N skb = some p) (hskb : skb.Admitted) :
    ∃ padding, paddedPlaintext N skb = some (p ++ List.replicate padding 0) ∧ (p = [] → padding = 0) := by
  have hlen := finalizeChecksum_length hN hp
  have hadm : skb.data.length + 16 + 16 + 16 < 2 ^ 31 := hskb
  have hnat : (BitVec.ofNat 32 skb.data.length).toNat = p.length := by
    rw [hlen, BitVec.toNat_ofNat]
    exact Nat.mod_eq_of_lt (by omega)
  obtain ⟨hle, hzero⟩ := calculateSkbPadding_le skb.mtu
    (show (BitVec.ofNat 32 skb.data.length).toNat < 2 ^ 31 by omega)
  refine ⟨(calculateSkbPadding (BitVec.ofNat 32 skb.data.length) skb.mtu).toNat, ?_, fun h => ?_⟩
  · rw [paddedPlaintext, hp, Option.map_some, List.take_of_length_le]
    rw [List.length_append, List.length_replicate, BitVec.toNat_add, hnat, Nat.mod_eq_of_lt (by omega)]
  · rw [hzero (BitVec.eq_of_toNat_eq (by rw [hnat, h]; rfl))]
    rfl

/-! ### The message -/

@[simp] theorem length_dataHeader (keyIdx : U32) (counter : U64) :
    (dataHeader keyIdx counter).length = sizeofMessageData := by
  simp [dataHeader, sizeofMessageData, sizeofMessageHeader]

theorem skbType_dataHeader (keyIdx : U32) (counter : U64) (ct : Bytes) :
    skbType (dataHeader keyIdx counter ++ ct) = messageData := rfl

theorem counter_dataHeader (keyIdx : U32) (counter : U64) (ct : Bytes) :
    BitVec.ofNat 64 (leNat (((dataHeader keyIdx counter ++ ct).drop 8).take 8)) = counter := by
  have hsplit : dataHeader keyIdx counter ++ ct =
      (leBytes 4 messageData ++ leBytes 4 keyIdx.toNat) ++ (leBytes 8 counter.toNat ++ ct) := by
    simp [dataHeader]
  rw [hsplit, List.drop_left' (by simp), List.take_left' (by simp), leNat_leBytes]
  exact BitVec.eq_of_toNat_eq (by rw [BitVec.toNat_ofNat]; have := counter.isLt; omega)

theorem validateHeaderLen_dataHeader (keyIdx : U32) (counter : U64) {ct : Bytes} (h : noiseEncryptedLen 0 ≤ ct.length) :
    validateHeaderLen (dataHeader keyIdx counter ++ ct) = sizeofMessageData := by
  have hlen : (dataHeader keyIdx counter ++ ct).length = sizeofMessageData + ct.length := by simp
  have h16 : sizeofMessageData = 16 ∧ sizeofMessageHeader = 4 ∧ messageMinimumLength = 32 := ⟨rfl, rfl, rfl⟩
  have h0 : noiseEncryptedLen 0 = 16 := rfl
  rw [validateHeaderLen, if_neg (by omega), if_pos ⟨skbType_dataHeader .., by omega⟩]

/-! ### The inner packet -/

def EthProtocol.version : EthProtocol → Nat
  | .ip => 4
  | .ipv6 => 6

def EthProtocol.headerLen : EthProtocol → Nat
  | .ip => sizeofIphdr
  | .ipv6 => sizeofIpv6hdr

/-- A packet that holds at least the bytes its IP header announces. -/
structure IpPacket (protocol : EthProtocol) (p : Bytes) : Prop where
  version : ipVersion p = protocol.version
  headerLen : protocol.headerLen ≤ ipLength p protocol
  fits : ipLength p protocol ≤ p.length

namespace IpPacket

variable {protocol : EthProtocol}

theorem headerLen_le (h : IpPacket protocol p) : protocol.headerLen ≤ p.length := h.headerLen.trans h.fits

theorem sizeofIphdr_le (h : IpPacket protocol p) : sizeofIphdr ≤ p.length := by
  refine Nat.le_trans ?_ h.headerLen_le
  cases protocol <;> decide

theorem parse (h : IpPacket protocol p) : ipTunnelParseProtocol p = some protocol := by
  have hv := h.version
  have hl := h.headerLen_le
  cases protocol with
  | ip => rw [ipTunnelParseProtocol, if_pos ⟨hl, hv⟩]
  | ipv6 =>
    have h4 : ¬ (sizeofIphdr ≤ p.length ∧ ipVersion p = 4) := fun h => by
      rw [hv] at h
      exact absurd h.2 (by decide)
    rw [ipTunnelParseProtocol, if_neg h4, if_pos ⟨hl, hv⟩]

theorem append (h : IpPacket protocol p) (padding : Bytes) :
    IpPacket protocol (p ++ padding) ∧ ipLength (p ++ padding) protocol = ipLength p protocol := by
  have hget : ∀ i < 20, (p ++ padding).getD i 0 = p.getD i 0 := fun i hi => by
    have hl : 20 ≤ p.length := h.sizeofIphdr_le
    rw [List.getD_append _ _ _ _ (by omega)]
  have hlen : ipLength (p ++ padding) protocol = ipLength p protocol := by
    cases protocol <;> simp only [ipLength, be16, hget _ (by decide : 2 < 20), hget _ (by decide : 2 + 1 < 20),
      hget _ (by decide : 4 < 20), hget _ (by decide : 4 + 1 < 20)]
  refine ⟨⟨?_, ?_, ?_⟩, hlen⟩
  · rw [ipVersion, hget 0 (by decide)]
    exact h.version
  · rw [hlen]
    exact h.headerLen
  · rw [hlen, List.length_append]
    exact h.fits.trans (Nat.le_add_right ..)

end IpPacket

theorem SameButEcn.take {protocol : EthProtocol} {x y : Bytes} (h : SameButEcn protocol x y) {len : Nat}
    (hlen : 2 ≤ len) : SameButEcn protocol (x.take len) (y.take len) := by
  have h1 : ∀ z : Bytes, (z.take len).getD 1 0 = z.getD 1 0 := fun z => by
    rw [List.getD_eq_getElem?_getD, List.getElem?_take_of_lt (by omega), List.getD_eq_getElem?_getD]
  refine ⟨by rw [List.length_take, List.length_take, h.length], fun i hi hip => ?_, ?_, fun heq => ?_⟩
  · rw [List.getElem?_take, List.getElem?_take, h.other i hi hip]
  · rw [h1, h1]
    exact h.ecn
  · rw [h1, h1] at heq
    rw [h.unset heq]

theorem consumeDataDone_ip {protocol : EthProtocol} (hN : N.Documented) (h : IpPacket protocol p) (ds : UInt8) :
    ∃ out, consumeDataDone N ds p true = .trimmed out ∧ SameButEcn protocol (p.take (ipLength p protocol)) out := by
  have hecn := hN.ecnDecapsulate ds p protocol h.parse
  have hmin : sizeofIphdr ≤ p.length := h.sizeofIphdr_le
  have h20 : sizeofIphdr = 20 := rfl
  have hlen : 2 ≤ ipLength p protocol := Nat.le_trans (by cases protocol <;> decide) h.headerLen
  have hversion : ipVersion p = 4 ∨ (ipVersion p = 6 ∧ sizeofIpv6hdr ≤ p.length) := by
    have hl := h.headerLen_le
    have hv := h.version
    cases protocol with
    | ip => exact .inl hv
    | ipv6 => exact .inr ⟨hv, hl⟩
  have hsize : ¬ (protocol = .ip ∧ ipLength p protocol < sizeofIphdr) := by
    rintro ⟨rfl, hlt⟩
    exact absurd h.headerLen (Nat.not_le.mpr hlt)
  have hfits : ¬ (N.ecnDecapsulate ds p).length < ipLength p protocol := by
    rw [hecn.length]
    exact Nat.not_lt.mpr h.fits
  refine ⟨(N.ecnDecapsulate ds p).take (ipLength p protocol), ?_, hecn.take hlen⟩
  rw [consumeDataDone, if_neg (by omega), if_neg (not_not_intro ⟨hmin, hversion⟩), h.parse]
  simp only [hsize, hfits, if_false, if_true]

theorem consumeDataDone_keepalive (ds : UInt8) (room : Bool) : consumeDataDone N ds p room = .keepalive ↔ p = [] := by
  refine ⟨fun h => ?_, fun h => by subst h; rfl⟩
  unfold consumeDataDone at h
  split at h
  · exact List.length_eq_zero_iff.mp ‹_›
  · -- no other branch ends in a keepalive
    split at h
    · cases h
    · split at h
      · cases h
      · simp only at h
        repeat' split at h
        all_goals cases h

/-! ### The two ends of a session -/

/-- What the two ciphers are documented to do. -/
structure Crypto.Aead (C : Crypto) : Prop where
  chacha : ∀ key nonce ad src,
    C.chacha20poly1305Decrypt key nonce ad (C.chacha20poly1305Encrypt key nonce ad src) = some src
  gcm : ∀ key iv ad src, C.gcmDecrypt key iv ad (C.gcmEncrypt key iv ad src) = some src
  length_chacha : ∀ key nonce ad src,
    (C.chacha20poly1305Encrypt key nonce ad src).length = noiseEncryptedLen src.length
  length_gcm : ∀ key iv ad src, (C.gcmEncrypt key iv ad src).length = noiseEncryptedLen src.length

namespace WgDevice

variable {A B wg : WgDevice} {k kA kB : NoiseKeypair} {nonce counter now : U64}

/-- `wg_newlink` has set the device up, with this outcome of the probe for `gcm(aes)`. -/
def Probed (wg : WgDevice) (probe : Bool) : Prop := ∃ alloc, initAesPercpu probe alloc = some wg.isChacha

theorem Probed.isChacha {probe : Bool} (h : wg.Probed probe) : wg.isChacha = !probe := by
  obtain ⟨alloc, h⟩ := h
  cases probe <;> cases alloc <;> simp_all [initAesPercpu]

/-- A keypair that is installed is valid, and its handles belong to the cipher of the device and to
the keys of the keypair. -/
theorem Installs.fillKeypair (h : wg.Installs C k) :
    ∃ initiator ck index birthdate, k = fillKeypair C wg.isChacha initiator ck index birthdate := by
  obtain ⟨wg', p, keypairAlloc, aeadAlloc, birthdate, hb, hk⟩ := h
  simp only [beginSession] at hb
  split at hb
  · cases hb
  case h_2 keypair hnew =>
    -- the only way out with success is past all the checks
    split at hb
    · cases hb
    split at hb
    · cases hb
    split at hb
    · cases hb
    simp only [Prod.mk.injEq] at hb
    rw [← hb.1] at hk
    simp only [Function.update_self, Option.some.injEq] at hk
    subst hk
    unfold newKeypair at hnew
    split at hnew
    · cases hnew
    · cases hnew
      exact ⟨_, _, _, _, rfl⟩

/-- The receiving key is within its limits of time and messages. -/
def WithinLimits (k : NoiseKeypair) (receivingCounter now : U64) : Prop :=
  birthdateHasExpired k.receiving.birthdate rejectAfterTime now = false ∧ receivingCounter.toNat < rejectAfterMessages

theorem Installs.receivingUsable (h : wg.Installs C k) (hlim : WithinLimits k counter now) :
    receivingUsable k counter now = true := by
  obtain ⟨initiator, ck, index, birthdate, rfl⟩ := h.fillKeypair
  have hvalid : (WireguardAes.fillKeypair C wg.isChacha initiator ck index birthdate).receiving.isValid = true := by
    cases initiator <;> rfl
  rw [WireguardAes.receivingUsable, hvalid, hlim.1, decide_eq_true hlim.2]
  rfl

theorem Installs.handles (h : wg.Installs C k) :
    k.aeadEnc = (if wg.isChacha then none else some k.sending.key) ∧
      k.aeadDec = (if wg.isChacha then none else some k.receiving.key) := by
  obtain ⟨initiator, ck, index, birthdate, rfl⟩ := h.fillKeypair
  exact ⟨rfl, rfl⟩

/-- With one cipher on both sides, what one side encrypts the other side decrypts. -/
theorem CompletedHandshake.aeadDecrypt (hC : C.Aead) (h : CompletedHandshake C A B kA kB)
    (hsame : A.isChacha = B.isChacha) (nonce : U64) (src : Bytes) :
    ∃ ct, aeadEncrypt C kA A.isChacha nonce src = some ct ∧ ct.length = noiseEncryptedLen src.length ∧
      aeadDecrypt C kB B.isChacha nonce ct = some src := by
  have henc := h.left.handles.1
  have hdec := h.right.handles.2
  unfold aeadEncrypt WireguardAes.aeadDecrypt
  rw [hsame] at henc ⊢
  cases hcha : B.isChacha with
  | true => exact ⟨_, rfl, hC.length_chacha .., by simp only [if_true, h.sends, hC.chacha]⟩
  | false =>
    simp only [hcha, Bool.false_eq_true, if_false] at henc hdec ⊢
    rw [henc, hdec, h.sends]
    exact ⟨_, rfl, hC.length_gcm .., hC.gcm ..⟩

theorem decryptPacket_dataHeader (h : receivingUsable k counter now = true) (isChacha : Bool) (keyIdx : U32)
    (nonce : U64) (ct : Bytes) :
    (decryptPacket C k isChacha counter now (dataHeader keyIdx nonce ++ ct) true).2 =
      (WireguardAes.aeadDecrypt C k isChacha nonce ct).map fun dst => (nonce, dst) := by
  have hdrop : (dataHeader keyIdx nonce ++ ct).drop sizeofMessageData = ct := List.drop_left' (length_dataHeader ..)
  simp only [decryptPacket, h, counter_dataHeader, hdrop, Bool.not_true, Bool.false_eq_true, if_false, if_true]

/-- A packet goes out as a data message and comes back as it was encrypted. -/
theorem CompletedHandshake.roundTrip (hC : C.Aead) (h : CompletedHandshake C A B kA kB)
    (hsame : A.isChacha = B.isChacha) {plaintext : Bytes} (hp : paddedPlaintext N skb = some plaintext)
    (hlim : WithinLimits kB counter now) :
    ∃ msg, encryptPacket C N kA A.isChacha skb true = some msg ∧
      skbType msg = messageData ∧ validateHeaderLen msg = sizeofMessageData ∧
      (decryptPacket C kB B.isChacha counter now msg true).2 = some (skb.nonce, plaintext) := by
  obtain ⟨ct, henc, hlen, hdec⟩ := h.aeadDecrypt hC hsame skb.nonce plaintext
  have hmin : noiseEncryptedLen 0 ≤ ct.length := hlen ▸ Nat.add_le_add_right (Nat.zero_le _) _
  refine ⟨_, ?_, skbType_dataHeader kA.remoteIndex skb.nonce ct, validateHeaderLen_dataHeader _ _ hmin, ?_⟩
  · rw [encryptPacket, hp, Option.bind_some, henc]
    rfl
  · rw [decryptPacket_dataHeader (h.right.receivingUsable hlim), hdec, Option.map_some]

/-- Every packet that the first side encrypts is authenticated and recovered by the second. -/
def Recovers (C : Crypto) (N : SkbLayer) (A B : WgDevice) (kA kB : NoiseKeypair) : Prop :=
  ∀ skb room msg counter now, encryptPacket C N kA A.isChacha skb room = some msg → WithinLimits kB counter now →
    ∃ plaintext, paddedPlaintext N skb = some plaintext ∧
      (decryptPacket C kB B.isChacha counter now msg true).2 = some (skb.nonce, plaintext)

theorem CompletedHandshake.recovers (hC : C.Aead) (h : CompletedHandshake C A B kA kB)
    (hsame : A.isChacha = B.isChacha) : Recovers C N A B kA kB := by
  intro skb room msg counter now hmsg hlim
  cases room with
  | false => cases hmsg
  | true =>
    cases hp : paddedPlaintext N skb with
    | none =>
      rw [encryptPacket, hp] at hmsg
      cases hmsg
    | some plaintext =>
      obtain ⟨msg', hmsg', -, -, hdec⟩ := h.roundTrip hC hsame hp hlim
      rw [hmsg] at hmsg'
      cases hmsg'
      exact ⟨plaintext, rfl, hdec⟩

/-! ### Sample sessions -/

def plainSkbLayer : SkbLayer := ⟨some, fun _ skb => skb⟩

theorem plainSkbLayer_documented : plainSkbLayer.Documented where
  length_checksumHelp := by
    rintro skb _ ⟨⟩
    rfl
  ecnDecapsulate _ _ _ _ := ⟨rfl, fun _ _ _ => rfl, rfl, fun _ => rfl⟩

theorem length_tagged (tag : UInt8) (src : Bytes) : (tagged tag src).length = noiseEncryptedLen src.length := by
  simp [tagged, noiseEncryptedLen]

theorem plainCrypto_aead : plainCrypto.Aead where
  chacha _ _ _ := untagged_tagged 1
  gcm _ _ _ := untagged_tagged 2
  length_chacha _ _ _ := length_tagged 1
  length_gcm _ _ _ := length_tagged 2

/-- The two sample devices complete a handshake whatever their ciphers are. -/
theorem plainDevice_handshake (a b : Bool) :
    ∃ A₁ A₂ A₃ B₁ B₂ B₃ initiation response ck iA iB,
      (plainDevice a [9] [7, 7]).createInitiation plainCrypto 0 [1] [1] [5] = some (A₁, some initiation) ∧
      (plainDevice b [7, 7] [9]).consumeInitiation plainCrypto initiation 30000000 30000000 = (B₁, some 0) ∧
      B₁.createResponse plainCrypto 0 [2, 2] [6] = some (B₂, some response) ∧
      B₂.beginSession plainCrypto 0 true true 0 = (B₃, true) ∧
      A₁.consumeResponse plainCrypto response = (A₂, some 0) ∧
      A₂.beginSession plainCrypto 0 true true 0 = (A₃, true) ∧
      CompletedHandshake plainCrypto A₂ B₂ (fillKeypair plainCrypto a true ck iB 0)
        (fillKeypair plainCrypto b false ck iA 0) ∧
      A₂.isChacha = a ∧ B₂.isChacha = b := by
  obtain ⟨A₁, A₂, A₃, B₁, B₂, B₃, initiation, response, ck, iA, iB, h1, h2, h3, h4, h5, h6, -, -, -,
    -, -, -, h, ha, hb⟩ :=
    handshake_spec plainCrypto_documented (plainDevice a [9] [7, 7]) (plainDevice b [7, 7] [9]) 0 0
      (plainDevice_knows ..) (plainDevice_knows ..) [1] [2, 2] rfl rfl rfl rfl rfl rfl [1] 30000000 30000000
      (by cases b <;> decide) (by cases b <;> decide) [5] [6] ⟨5, by simp, nofun⟩ ⟨6, by simp, nofun⟩ 0 0
  exact ⟨A₁, A₂, A₃, B₁, B₂, B₃, initiation, response, ck, iA, iB, h1, h2, h3, h4, h5, h6, h, ha, hb⟩

theorem withinLimits_fillKeypair (isChacha initiator : Bool) (ck : Bytes) (index : U32) :
    WithinLimits (fillKeypair plainCrypto isChacha initiator ck index 0) 0 0 := by
  have hnow : birthdateHasExpired 0 rejectAfterTime 0 = false := by decide
  cases initiator <;> exact ⟨hnow, by decide⟩

/-! ### One cipher on both sides -/

/-- Two devices on which the probe for `gcm(aes)` went the same way use the same cipher, and each
recovers what the other sends. -/
theorem same_probe_recovers (C : Crypto) (hC : C.Aead) (N : SkbLayer) (A B : WgDevice) (probe : Bool)
    (hA : A.Probed probe) (hB : B.Probed probe) (kA kB : NoiseKeypair) (h : CompletedHandshake C A B kA kB) :
    A.isChacha = B.isChacha ∧ kA.aeadEnc = kB.aeadDec ∧ kA.aeadDec = kB.aeadEnc ∧
      Recovers C N A B kA kB ∧ Recovers C N B A kB kA := by
  have hsame : A.isChacha = B.isChacha := hA.isChacha.trans hB.isChacha.symm
  obtain ⟨hencA, hdecA⟩ := h.left.handles
  obtain ⟨hencB, hdecB⟩ := h.right.handles
  refine ⟨hsame, ?_, ?_, h.recovers hC hsame, h.symm.recovers hC hsame.symm⟩
  · rw [hencA, hdecB, hsame, h.sends]
  · rw [hdecA, hencB, hsame, h.receives]

theorem same_probe_recovers_plain : ∃ A B kA kB, CompletedHandshake plainCrypto A B kA kB ∧
    A.isChacha = false ∧ B.isChacha = false ∧ Recovers plainCrypto plainSkbLayer A B kA kB := by
  obtain ⟨-, A, -, -, B, -, -, -, ck, iA, iB, -, -, -, -, -, -, h, ha, hb⟩ := plainDevice_handshake false false
  exact ⟨A, B, _, _, h, ha, hb, (same_probe_recovers plainCrypto plainCrypto_aead plainSkbLayer A B true
    ⟨true, congrArg some ha.symm⟩ ⟨true, congrArg some hb.symm⟩ _ _ h).2.2.2.1⟩

/-- A device with AES-GCM and one without complete a handshake, and the keepalive that the first
then sends is not authenticated by the second. With AES-GCM on both it is not once the receiving key
is too old. -/
theorem mixed_probes_drop_keepalive :
    (∃ A₁ A₂ A₃ B₁ B₂ B₃ initiation response kA kB msg,
      (plainDevice false [9] [7, 7]).createInitiation plainCrypto 0 [1] [1] [5] = some (A₁, some initiation) ∧
      (plainDevice true [7, 7] [9]).consumeInitiation plainCrypto initiation 30000000 30000000 = (B₁, some 0) ∧
      B₁.createResponse plainCrypto 0 [2, 2] [6] = some (B₂, some response) ∧
      B₂.beginSession plainCrypto 0 true true 0 = (B₃, true) ∧
      A₁.consumeResponse plainCrypto response = (A₂, some 0) ∧
      A₂.beginSession plainCrypto 0 true true 0 = (A₃, true) ∧
      A₂.Probed true ∧ B₂.Probed false ∧ CompletedHandshake plainCrypto A₂ B₂ kA kB ∧
      A₂.isChacha ≠ B₂.isChacha ∧
      encryptPacket plainCrypto plainSkbLayer kA A₂.isChacha ⟨[], 1420, 0, false⟩ true = some msg ∧
      WithinLimits kB 0 0 ∧ (decryptPacket plainCrypto kB B₂.isChacha 0 0 msg true).2 = none) ∧
    ∃ A B kA kB msg, A.Probed true ∧ B.Probed true ∧ CompletedHandshake plainCrypto A B kA kB ∧
      encryptPacket plainCrypto plainSkbLayer kA A.isChacha ⟨[], 1420, 0, false⟩ true = some msg ∧
      (decryptPacket plainCrypto kB B.isChacha 0 180000000000 msg true).2 = none := by
  refine ⟨?_, ?_⟩
  · obtain ⟨A₁, A₂, A₃, B₁, B₂, B₃, initiation, response, ck, iA, iB, h1, h2, h3, h4, h5, h6, h, ha, hb⟩ :=
      plainDevice_handshake false true
    have hlim := withinLimits_fillKeypair true false ck iA
    refine ⟨A₁, A₂, A₃, B₁, B₂, B₃, initiation, response, _, _, dataHeader iB 0 ++ tagged 2 [], h1, h2, h3, h4, h5,
      h6, ⟨true, congrArg some ha.symm⟩, ⟨true, congrArg some hb.symm⟩, h, by rw [ha, hb]; decide, ?_, hlim, ?_⟩
    · rw [ha]
      rfl
    · rw [decryptPacket_dataHeader (h.right.receivingUsable hlim), hb]
      rfl
  · obtain ⟨-, A, -, -, B, -, -, -, ck, iA, iB, -, -, -, -, -, -, h, ha, hb⟩ := plainDevice_handshake false false
    have hnow : birthdateHasExpired 0 rejectAfterTime 180000000000 = true := by decide
    have hold : receivingUsable (fillKeypair plainCrypto false false ck iA 0) 0 180000000000 = false := by
      rw [receivingUsable, show (fillKeypair plainCrypto false false ck iA 0).receiving.birthdate = 0 from rfl, hnow]
      simp
    refine ⟨A, B, _, _, dataHeader iB 0 ++ tagged 2 [], ⟨true, congrArg some ha.symm⟩, ⟨true, congrArg some hb.symm⟩, h,
      ?_, ?_⟩
    · rw [ha]
      rfl
    · rw [decryptPacket, hold]
      rfl

/-! ### From packet to packet -/

/-- A packet between the two ends of a session: the message is a data message, it decrypts to the
nonce and the packet followed by zeros, and it is consumed as a keepalive if the packet was empty
and as the packet its IP header describes otherwise. -/
theorem packet_roundTrip (C : Crypto) (hC : C.Aead) (N : SkbLayer) (hN : N.Documented) (A B : WgDevice)
    (kA kB : NoiseKeypair) (h : CompletedHandshake C A B kA kB) (hsame : A.isChacha = B.isChacha) (skb : DataSkb)
    (p : Bytes) (hp : finalizeChecksum N skb = some p) (hskb : skb.Admitted) (counter now : U64)
    (hlim : WithinLimits kB counter now) (ds : UInt8) :
    ∃ msg padding, encryptPacket C N kA A.isChacha skb true = some msg ∧
      skbType msg = messageData ∧ validateHeaderLen msg = sizeofMessageData ∧
      (decryptPacket C kB B.isChacha counter now msg true).2 = some (skb.nonce, p ++ List.replicate padding 0) ∧
      (consumeDataDone N ds (p ++ List.replicate padding 0) true = .keepalive ↔ p = []) ∧
      ∀ protocol, IpPacket protocol p →
        ∃ out, consumeDataDone N ds (p ++ List.replicate padding 0) true = .trimmed out ∧
          SameButEcn protocol (p.take (ipLength p protocol)) out := by
  obtain ⟨padding, hpad, hzero⟩ := paddedPlaintext_spec hN hp hskb
  obtain ⟨msg, henc, htype, hlen, hdec⟩ := h.roundTrip hC hsame hpad hlim
  refine ⟨msg, padding, henc, htype, hlen, hdec, ?_, fun protocol hip => ?_⟩
  · rw [consumeDataDone_keepalive, List.append_eq_nil_iff]
    exact ⟨fun hnil => hnil.1, fun hnil => ⟨hnil, by rw [hzero hnil]; rfl⟩⟩
  · obtain ⟨hpadded, hipLen⟩ := hip.append (List.replicate padding 0)
    obtain ⟨out, hout, hsameOut⟩ := consumeDataDone_ip hN hpadded ds
    rw [hipLen, List.take_append_of_le_length hip.fits] at hsameOut
    exact ⟨out, hout, hsameOut⟩

/-- An IPv4 packet of 20 bytes in 21, with an MTU that cuts the padding short. -/
def sampleSkb : DataSkb where
  data := [0x45, 0, 0, 20, 0, 0, 0, 0, 64, 17, 0, 0, 10, 0, 0, 1, 10, 0, 0, 2, 7]
  mtu := 30
  nonce := 8
  checksumPartial := false

theorem packet_roundTrip_sample : ∃ A B kA kB msg padding out, CompletedHandshake plainCrypto A B kA kB ∧
    encryptPacket plainCrypto plainSkbLayer kA A.isChacha sampleSkb true = some msg ∧
    (decryptPacket plainCrypto kB B.isChacha 0 0 msg true).2 = some (8, sampleSkb.data ++ List.replicate padding 0) ∧
    consumeDataDone plainSkbLayer 0 (sampleSkb.data ++ List.replicate padding 0) true = .trimmed out ∧
    SameButEcn .ip (sampleSkb.data.take 20) out := by
  obtain ⟨-, A, -, -, B, -, -, -, ck, iA, iB, -, -, -, -, -, -, h, ha, hb⟩ := plainDevice_handshake false false
  obtain ⟨msg, padding, henc, -, -, hdec, -, htrim⟩ := packet_roundTrip plainCrypto plainCrypto_aead plainSkbLayer
    plainSkbLayer_documented A B _ _ h (ha.trans hb.symm) sampleSkb sampleSkb.data rfl
    (by unfold DataSkb.Admitted; decide) 0 0 (withinLimits_fillKeypair ..) 0
  obtain ⟨out, hout, hsame⟩ := htrim .ip ⟨by decide, by decide, by decide⟩
  exact ⟨A, B, _, _, msg, padding, out, h, henc, hdec, hout, hsame⟩

end WgDevice

end WireguardAes
