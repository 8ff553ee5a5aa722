import WireguardAes.DataPath
import WireguardAes.Lib.SocketBuffer
import WireguardAes.Lib.ByteOrder

/-!
# The header of a received packet (`receive.c`, `queueing.h`)

`prepare_skb_header` finds the UDP header of a received packet, checks its length field against the
packet, cuts the packet down to the payload and looks at the type and the length of the message. The
later code reads the message, its MACs and the header of a data packet without looking at the length
again. Offsets are differences of pointers, taken modulo 2^64 or 2^32; memory for `pskb_may_pull`
and `pskb_trim` is available.
-/

namespace WireguardAes

open ByteOrder SocketBuffer

def sizeofUdphdr : Nat := 8
def u16Max : Nat := 2 ^ 16 - 1
def headerEinval : Int := -22

structure SkBuff where
  buf : SocketBuffer UInt8
  /-- Offsets from `skb->head`. -/
  transportHeader : UInt16
  networkHeader : UInt16
  protocol : UInt16
  /-- The sizes are of type `unsigned int`. -/
  size_lt : buf.headroom.length + buf.len < 2 ^ 32

namespace SkBuff

/-- The version in the first byte of the network header. -/
def version (skb : SkBuff) : Nat := (skb.buf.memory.getD skb.networkHeader.toNat 0).toNat / 16

/-- `ip_tunnel_parse_protocol`; offsets are never before `skb->head`. -/
def ipTunnelParseProtocol (skb : SkBuff) : Option UInt16 :=
  if skb.networkHeader.toNat + sizeofIphdr ≤ skb.buf.tail ∧ skb.version = 4 then some ethPIp
  else if skb.networkHeader.toNat + sizeofIpv6hdr ≤ skb.buf.tail ∧ skb.version = 6 then some ethPIpv6
  else none

def wgCheckPacketProtocol (skb : SkBuff) : Bool := skb.ipTunnelParseProtocol = some skb.protocol

/-- `(u8 *)udp - skb->data`, a `size_t`. -/
def dataOffset (skb : SkBuff) : Nat := (2 ^ 64 + skb.transportHeader.toNat - skb.buf.headroom.length) % 2 ^ 64

/-- `ntohs(udp->len)` -/
def udpLen (skb : SkBuff) : Nat := beNat ((skb.buf.memory.drop (skb.transportHeader.toNat + 4)).take 2)

end SkBuff

namespace PacketHeader

/-- `SKB_TYPE_LE32` -/
def skbType (buf : SocketBuffer UInt8) : Nat := leNat (buf.linear.take sizeofMessageHeader)

def validateHeaderLen (buf : SocketBuffer UInt8) : Nat :=
  if buf.len < sizeofMessageHeader then 0
  else if skbType buf = messageData ∧ messageMinimumLength ≤ buf.len then sizeofMessageData
  else if skbType buf = messageHandshakeInitiation ∧ buf.len = sizeofMessageHandshakeInitiation then
    sizeofMessageHandshakeInitiation
  else if skbType buf = messageHandshakeResponse ∧ buf.len = sizeofMessageHandshakeResponse then
    sizeofMessageHandshakeResponse
  else if skbType buf = messageHandshakeCookie ∧ buf.len = sizeofMessageHandshakeCookie
    then sizeofMessageHandshakeCookie
  else 0

end PacketHeader

/-- `skb_pull`: nothing happens if the packet is shorter; `none` is the `BUG_ON` of `__skb_pull`. -/
def skbPull (buf : SocketBuffer UInt8) (n : Nat) : Option (SocketBuffer UInt8) :=
  if buf.len < n then some buf else buf.pull n

/-- `prepare_skb_header` once the offset and the length of the payload are known. -/
def cutPayload (buf : SocketBuffer UInt8) (dataOffset dataLen : Nat) : Option (Int × SocketBuffer UInt8) :=
  match buf.mayPull (dataOffset + sizeofMessageHeader) with
  | none => some (headerEinval, buf)
  | some buf => do
    let buf ← skbPull (buf.trim (dataLen + dataOffset)) dataOffset
    if buf.len ≠ dataLen then some (headerEinval, buf)
    else
      let headerLen := PacketHeader.validateHeaderLen buf
      if headerLen = 0 then some (headerEinval, buf)
      else do
        let buf ← buf.push dataOffset
        match buf.mayPull (dataOffset + headerLen) with
        | none => some (headerEinval, buf)
        | some buf => (buf.pull dataOffset).map fun buf => (0, buf)

/-- What it returns, and the buffer; `none` is a `BUG_ON` or `skb_under_panic`. -/
def prepareSkbHeader (skb : SkBuff) : Option (Int × SocketBuffer UInt8) :=
  if !skb.wgCheckPacketProtocol ∨ skb.buf.tail < skb.transportHeader.toNat + sizeofUdphdr then
    some (headerEinval, skb.buf)
  else if u16Max < skb.dataOffset ∨ skb.buf.len < skb.dataOffset + sizeofUdphdr then some (headerEinval, skb.buf)
  else if skb.udpLen < sizeofUdphdr ∨ skb.buf.len - skb.dataOffset < skb.udpLen then some (headerEinval, skb.buf)
  else cutPayload skb.buf (skb.dataOffset + sizeofUdphdr) (skb.udpLen - sizeofUdphdr)

/-- The moves of `decrypt_packet`, on the way to the plaintext: the network header stays part of the
packet while it is decrypted. -/
def decryptPacketMoves (networkHeader : Nat) (buf : SocketBuffer UInt8) : Option (SocketBuffer UInt8) := do
  let offset := (2 ^ 32 + buf.headroom.length - networkHeader) % 2 ^ 32
  let buf ← buf.push offset
  -- `skb_cow_data`: the pages are copied into the block
  let buf ← buf.mayPull buf.len
  let offset := offset + sizeofMessageData
  let buf ← skbPull buf offset
  let buf ← buf.push offset
  skbPull (buf.trim (buf.len - noiseEncryptedLen 0)) offset

/-! ### Messages -/

def messageType (payload : Bytes) : Nat := leNat (payload.take sizeofMessageHeader)

def IsMessage (payload : Bytes) : Prop :=
  messageType payload = messageHandshakeInitiation ∧ payload.length = sizeofMessageHandshakeInitiation ∨
  messageType payload = messageHandshakeResponse ∧ payload.length = sizeofMessageHandshakeResponse ∨
  messageType payload = messageHandshakeCookie ∧ payload.length = sizeofMessageHandshakeCookie ∨
  messageType payload = messageData ∧ messageMinimumLength ≤ payload.length

instance (payload : Bytes) : Decidable (IsMessage payload) := by
  unfold IsMessage
  infer_instance

/-- The part of a message that is read through a `struct`. -/
def fixedLen (payload : Bytes) : Nat := if messageType payload = messageData then sizeofMessageData else payload.length

/-- The packet is the payload, and its fixed part can be addressed. -/
structure Delimits (payload : Bytes) (buf : SocketBuffer UInt8) : Prop where
  bytes : buf.bytes = payload
  linear : fixedLen payload ≤ buf.linear.length

theorem IsMessage.fixedLen_le {payload : Bytes} (h : IsMessage payload) : fixedLen payload ≤ payload.length := by
  unfold fixedLen
  split_ifs with ht
  · unfold IsMessage at h
    rw [ht] at h
    simp only [messageData, messageHandshakeInitiation, messageHandshakeResponse, messageHandshakeCookie, false_and,
      Nat.reduceEqDiff, false_or, true_and] at h
    exact Nat.le_trans (by decide) h
  · exact Nat.le_refl _

theorem IsMessage.minimum_le {payload : Bytes} (h : IsMessage payload) : messageMinimumLength ≤ payload.length := by
  rcases h with ⟨-, h⟩ | ⟨-, h⟩ | ⟨-, h⟩ | ⟨-, h⟩
  · rw [h]
    decide
  · rw [h]
    decide
  · rw [h]
    decide
  · exact h

/-- The type can be read, or the packet is too short to have one. -/
def TypeReadable (buf : SocketBuffer UInt8) : Prop := min sizeofMessageHeader buf.len ≤ buf.linear.length

/-- The check on the buffer is the check on the bytes of the packet. -/
theorem PacketHeader.validateHeaderLen_eq {buf : SocketBuffer UInt8} (hr : TypeReadable buf) :
    PacketHeader.validateHeaderLen buf = WireguardAes.validateHeaderLen buf.bytes := by
  unfold TypeReadable at hr
  unfold PacketHeader.validateHeaderLen WireguardAes.validateHeaderLen
  rw [length_bytes]
  by_cases hlen : buf.len < sizeofMessageHeader
  · rw [if_pos hlen, if_pos hlen]
  · have htype : PacketHeader.skbType buf = WireguardAes.skbType buf.bytes := by
      rw [PacketHeader.skbType, ← take_bytes (by omega)]
      rfl
    rw [if_neg hlen, if_neg hlen, htype]

theorem validateHeaderLen_of_not {payload : Bytes} (h : ¬ IsMessage payload) : validateHeaderLen payload = 0 := by
  unfold validateHeaderLen
  split
  · rfl
  unfold IsMessage at h
  simp only [not_or] at h
  exact (if_neg h.2.2.2).trans ((if_neg h.1).trans ((if_neg h.2.1).trans (if_neg h.2.2.1)))

theorem validateHeaderLen_of_isMessage {payload : Bytes} (h : IsMessage payload) :
    validateHeaderLen payload = fixedLen payload ∧ validateHeaderLen payload ≠ 0 := by
  have hmin := h.minimum_le
  have hhdr : sizeofMessageHeader ≤ messageMinimumLength := by decide
  have htype : skbType payload = messageType payload := rfl
  unfold IsMessage at h
  unfold validateHeaderLen fixedLen
  rw [if_neg (by omega), htype]
  rcases h with ⟨ht, hl⟩ | ⟨ht, hl⟩ | ⟨ht, hl⟩ | ⟨ht, hl⟩
  · rw [ht, hl]
    decide
  · rw [ht, hl]
    decide
  · rw [ht, hl]
    decide
  · rw [ht, if_pos ⟨rfl, hl⟩, if_pos rfl]
    decide

/-! ### Cutting the packet down to its payload -/

theorem skbPull_of_le {b : SocketBuffer UInt8} {n : Nat} (h : n ≤ b.linear.length) :
    ∃ c, skbPull b n = some c ∧ Moved n b c := by
  obtain ⟨c, hc, hm⟩ := pull_of_le h
  refine ⟨c, ?_, hm⟩
  rw [skbPull, if_neg (Nat.not_lt.mpr (Nat.le_trans h b.linear_le_len)), hc]

/-- The packet in front of its payload is put back, the fixed part of the message is brought into
the block, and the front is moved to the payload again. -/
theorem bring_fixedLen (buf : SocketBuffer UInt8) (dataOffset headerLen : Nat)
    (hroom : dataOffset ≤ buf.headroom.length)
    (hlen : headerLen ≤ buf.len) :
    ∃ pushed pulled final, buf.push dataOffset = some pushed ∧ pushed.mayPull (dataOffset + headerLen) = some pulled ∧
      pulled.pull dataOffset = some final ∧ final.bytes = buf.bytes ∧ headerLen ≤ final.linear.length ∧
      final.headroom.length = buf.headroom.length := by
  obtain ⟨pushed, hpush, hmoved⟩ := push_of_le hroom
  have hpushedLen := hmoved.len
  obtain ⟨pulled, hpulled, hp⟩ := mayPull_of_le (b := pushed) (n := dataOffset + headerLen) (by omega)
  have hlinear := hp.linear
  obtain ⟨final, hfinal, hf⟩ := pull_of_le (b := pulled) (n := dataOffset) (by omega)
  refine ⟨pushed, pulled, final, hpush, hpulled, hfinal, ?_, ?_, ?_⟩
  · rw [hf.bytes, hp.bytes, ← hmoved.bytes]
  · have := hf.linear
    omega
  · rw [hf.headroom, hp.headroom, hmoved.headroom]

theorem refuses {p q : Prop} (h : ¬ p) : (headerEinval = 0 ↔ p) ∧ (headerEinval = 0 → q) := by
  have hne : headerEinval ≠ 0 := by decide
  constructor
  · constructor
    · intro h0
      exact absurd h0 hne
    · intro hp
      exact absurd hp h
  · intro h0
    exact absurd h0 hne

/-- What `prepare_skb_header` leaves behind when it accepts a packet whose payload starts at an
offset from `skb->head`. -/
structure Cut (payload : Bytes) (start : Nat) (buf : SocketBuffer UInt8) : Prop extends Delimits payload buf where
  headroom : buf.headroom.length = start

theorem cutPayload_spec (buf : SocketBuffer UInt8) (dataOffset dataLen : Nat)
    (hlen : dataOffset + dataLen ≤ buf.len) :
    ∃ ret buf', cutPayload buf dataOffset dataLen = some (ret, buf') ∧
      (ret = 0 ↔ IsMessage ((buf.bytes.drop dataOffset).take dataLen)) ∧
      (ret = 0 → Cut ((buf.bytes.drop dataOffset).take dataLen) (buf.headroom.length + dataOffset) buf') := by
  generalize hpay : (buf.bytes.drop dataOffset).take dataLen = payload
  have hpaylen : payload.length = dataLen := by
    rw [← hpay, List.length_take, List.length_drop, length_bytes]
    omega
  unfold cutPayload
  by_cases hshort : buf.len < dataOffset + sizeofMessageHeader
  · rw [mayPull_of_lt hshort]
    have hnot : ¬ IsMessage payload := by
      intro hm
      have hmin := hm.minimum_le
      have hhdr : sizeofMessageHeader ≤ messageMinimumLength := by decide
      omega
    exact ⟨headerEinval, buf, rfl, refuses hnot⟩
  · obtain ⟨b₁, hb₁, hp₁⟩ := mayPull_of_le (Nat.le_of_not_lt hshort)
    have hlen₁ : b₁.len = buf.len := len_eq_of_bytes hp₁.bytes
    have hlinear₁ := hp₁.linear
    have htrim := linear_trim b₁ (dataLen + dataOffset)
    have htlen := len_trim b₁ (dataLen + dataOffset)
    have htbytes := bytes_trim b₁ (dataLen + dataOffset)
    have htroom := headroom_trim b₁ (dataLen + dataOffset)
    rw [hb₁]
    dsimp only
    generalize b₁.trim (dataLen + dataOffset) = b₂ at htrim htlen htbytes htroom ⊢
    obtain ⟨b₃, hb₃, hm₃⟩ := skbPull_of_le (b := b₂) (n := dataOffset) (by omega)
    have hlen₃ := hm₃.len
    have hlinear₃ := hm₃.linear
    have hbytes₃ : b₃.bytes = payload := by
      rw [hm₃.bytes, htbytes, hp₁.bytes, ← hpay, List.drop_take]
      congr 1
      omega
    have hroom₃ : b₃.headroom.length = buf.headroom.length + dataOffset := by
      rw [hm₃.headroom, htroom, hp₁.headroom]
    have hread : TypeReadable b₃ := by
      unfold TypeReadable
      omega
    rw [hb₃, Option.bind_eq_bind, Option.bind_some, if_neg (by omega), PacketHeader.validateHeaderLen_eq hread, hbytes₃]
    by_cases hmsg : IsMessage payload
    · obtain ⟨hfixed, hne⟩ := validateHeaderLen_of_isMessage hmsg
      rw [if_neg hne, hfixed]
      have hfixedLe := hmsg.fixedLen_le
      obtain ⟨b₄, b₅, b₆, hb₄, hb₅, hb₆, hbytes, hlinear, hroom⟩ :=
        bring_fixedLen b₃ dataOffset (fixedLen payload) (by omega) (by omega)
      rw [hb₄, Option.bind_some, hb₅]
      dsimp only
      rw [hb₆]
      refine ⟨0, b₆, rfl, ⟨fun _ => hmsg, fun _ => rfl⟩, fun _ => ?_⟩
      exact ⟨⟨hbytes.trans hbytes₃, hlinear⟩, hroom.trans hroom₃⟩
    · rw [if_pos (validateHeaderLen_of_not hmsg)]
      exact ⟨headerEinval, b₃, rfl, refuses hmsg⟩

/-! ### The whole check -/

namespace SkBuff

variable (skb : SkBuff)

/-- Where the UDP header starts in the packet. -/
def udpOffset : Nat := skb.transportHeader.toNat - skb.buf.headroom.length

/-- The length field of the UDP header. -/
def udpLenField : Nat := beNat ((skb.buf.bytes.drop (skb.udpOffset + 4)).take 2)

def payload : Bytes := (skb.buf.bytes.drop (skb.udpOffset + sizeofUdphdr)).take (skb.udpLenField - sizeofUdphdr)

/-- The packet carries a message in a UDP datagram. -/
structure UdpMessage : Prop where
  protocol : skb.ipTunnelParseProtocol = some skb.protocol
  starts : skb.buf.headroom.length ≤ skb.transportHeader.toNat
  header : skb.udpOffset + sizeofUdphdr ≤ skb.buf.len
  offset : skb.udpOffset ≤ u16Max
  minimum : sizeofUdphdr ≤ skb.udpLenField
  present : skb.udpLenField ≤ skb.buf.len - skb.udpOffset
  message : IsMessage skb.payload

/-- The UDP header can be addressed. -/
def UdpLinear : Prop := skb.transportHeader.toNat + sizeofUdphdr ≤ skb.buf.tail

variable {skb}

theorem transportHeader_lt (skb : SkBuff) : skb.transportHeader.toNat < 2 ^ 16 := UInt16.toNat_lt_size _

theorem headroom_lt (skb : SkBuff) : skb.buf.headroom.length < 2 ^ 32 :=
  Nat.lt_of_le_of_lt (Nat.le_add_right ..) skb.size_lt

theorem dataOffset_of_le (h : skb.buf.headroom.length ≤ skb.transportHeader.toNat) :
    skb.dataOffset = skb.udpOffset := by
  have := skb.transportHeader_lt
  unfold dataOffset udpOffset
  omega

/-- A transport header in front of the packet makes the difference wrap around. -/
theorem dataOffset_of_lt (h : skb.transportHeader.toNat < skb.buf.headroom.length) : u16Max < skb.dataOffset := by
  have := skb.headroom_lt
  unfold dataOffset u16Max
  omega

theorem udpLen_eq (hs : skb.buf.headroom.length ≤ skb.transportHeader.toNat) (hl : skb.UdpLinear) :
    skb.udpLen = skb.udpLenField := by
  unfold UdpLinear sizeofUdphdr at hl
  unfold udpLen udpLenField udpOffset
  rw [memory_drop skb.buf (by omega) 2 (by omega), Nat.sub_add_comm hs]

end SkBuff

/-- What the later code relies on. -/
structure ReadsInside (payload : Bytes) (buf : SocketBuffer UInt8) : Prop where
  /-- A handshake message lies in the block from its first byte to its last. -/
  handshake : messageType payload ≠ messageData → buf.linear = payload ∧ buf.paged = []
  macs : messageType payload = messageHandshakeInitiation ∨ messageType payload = messageHandshakeResponse →
    sizeofMessageMacs ≤ buf.len
  data : messageType payload = messageData → sizeofMessageData ≤ buf.linear.length ∧ messageMinimumLength ≤ buf.len

theorem Delimits.readsInside {payload : Bytes} {buf : SocketBuffer UInt8} (h : Delimits payload buf)
    (hm : IsMessage payload) :
    ReadsInside payload buf := by
  have hlin := h.linear
  have hmin := hm.minimum_le
  have hlen : buf.len = payload.length := by rw [← length_bytes, h.bytes]
  unfold fixedLen at hlin
  refine ⟨?_, ?_, ?_⟩
  · intro ht
    rw [if_neg ht, ← hlen] at hlin
    have hpaged : buf.paged = [] := List.eq_nil_of_length_eq_zero (by unfold SocketBuffer.len at hlin; omega)
    have hbytes := h.bytes
    unfold SocketBuffer.bytes at hbytes
    rw [hpaged, List.append_nil] at hbytes
    exact ⟨hbytes, hpaged⟩
  · intro _
    rw [hlen]
    exact Nat.le_trans (by decide) hmin
  · intro ht
    rw [if_pos ht] at hlin
    exact ⟨hlin, hlen ▸ hmin⟩

/-- `decrypt_packet` pushes the network header and never takes away more than there is. -/
theorem decryptPacketMoves_spec (buf : SocketBuffer UInt8) (networkHeader : Nat)
    (hn : networkHeader ≤ buf.headroom.length)
    (hroom : buf.headroom.length < 2 ^ 32) (hlen : messageMinimumLength ≤ buf.len) :
    ∃ plain, decryptPacketMoves networkHeader buf = some plain ∧ plain.len + messageMinimumLength = buf.len ∧
      plain.bytes = (buf.bytes.drop sizeofMessageData).take (buf.len - messageMinimumLength) := by
  have hmin : messageMinimumLength = sizeofMessageData + noiseEncryptedLen 0 := by decide
  have hoff : (2 ^ 32 + buf.headroom.length - networkHeader) % 2 ^ 32 = buf.headroom.length - networkHeader := by omega
  unfold decryptPacketMoves
  dsimp only
  rw [hoff]
  generalize hoffset : buf.headroom.length - networkHeader = offset
  obtain ⟨b₁, hb₁, hm₁⟩ := push_of_le (b := buf) (n := offset) (by omega)
  have hlen₁ := hm₁.len
  have hlin₁ := hm₁.linear
  obtain ⟨b₂, hb₂, hp₂⟩ := mayPull_of_le (Nat.le_refl b₁.len)
  have hlen₂ := len_eq_of_bytes hp₂.bytes
  have hlin₂ := hp₂.linear
  obtain ⟨b₃, hb₃, hm₃⟩ := skbPull_of_le (b := b₂) (n := offset + sizeofMessageData) (by omega)
  have hlen₃ := hm₃.len
  have hroom₃ := hm₃.headroom
  have hbytes₃ : b₃.bytes = buf.bytes.drop sizeofMessageData := by
    rw [hm₃.bytes, hp₂.bytes, hm₁.bytes, List.drop_drop]
  obtain ⟨b₄, hb₄, hm₄⟩ := push_of_le (b := b₃) (n := offset + sizeofMessageData) (by omega)
  have hlen₄ := hm₄.len
  have hlin₄ := hm₄.linear
  have htlin := linear_trim b₄ (b₄.len - noiseEncryptedLen 0)
  have htbytes := bytes_trim b₄ (b₄.len - noiseEncryptedLen 0)
  rw [hb₁, Option.bind_eq_bind, Option.bind_some, hb₂, Option.bind_some, hb₃, Option.bind_some, hb₄, Option.bind_some]
  generalize b₄.trim (b₄.len - noiseEncryptedLen 0) = b₅ at htlin htbytes ⊢
  obtain ⟨b₆, hb₆, hm₆⟩ := skbPull_of_le (b := b₅) (n := offset + sizeofMessageData) (by omega)
  have hbytes : b₆.bytes = (buf.bytes.drop sizeofMessageData).take (buf.len - messageMinimumLength) := by
    rw [hm₆.bytes, htbytes, List.drop_take, ← hm₄.bytes, hbytes₃]
    congr 1
    omega
  refine ⟨b₆, hb₆, ?_, hbytes⟩
  rw [← length_bytes, hbytes, List.length_take, List.length_drop, length_bytes]
  omega

/-- Whatever the packet, `prepare_skb_header` returns; it accepts exactly the messages whose UDP
header can be addressed, and leaves exactly the payload, of which the message structs, the MACs and
the header of a data packet are part. If the network header does not lie behind the UDP header,
`decrypt_packet` can cut off the header and the tag. -/
theorem prepareSkbHeader_accepts (skb : SkBuff) :
    ∃ ret buf, prepareSkbHeader skb = some (ret, buf) ∧ (ret = 0 ↔ skb.UdpMessage ∧ skb.UdpLinear) ∧
      (ret = 0 → buf.bytes = skb.payload ∧ ReadsInside skb.payload buf ∧
        (messageType skb.payload = messageData → skb.networkHeader.toNat ≤ skb.transportHeader.toNat + sizeofUdphdr →
          ∃ plain, decryptPacketMoves skb.networkHeader.toNat buf = some plain ∧ plain.len +
            messageMinimumLength = buf.len ∧
            plain.bytes = (skb.payload.drop sizeofMessageData).take (buf.len - messageMinimumLength))) := by
  unfold prepareSkbHeader
  split
  case isTrue h =>
    refine ⟨headerEinval, skb.buf, rfl, refuses ?_⟩
    rintro ⟨hu, hl⟩
    rcases h with h | h
    · simp only [SkBuff.wgCheckPacketProtocol, hu.protocol, decide_true, Bool.not_true, Bool.false_eq_true] at h
    · exact absurd hl (Nat.not_le.mpr h)
  case isFalse hfirst =>
  rw [not_or] at hfirst
  have hprotocol : skb.ipTunnelParseProtocol = some skb.protocol := by
    simpa [SkBuff.wgCheckPacketProtocol] using hfirst.1
  have hl : skb.UdpLinear := Nat.le_of_not_lt hfirst.2
  split
  case isTrue h =>
    refine ⟨headerEinval, skb.buf, rfl, refuses ?_⟩
    rintro ⟨hu, -⟩
    rw [SkBuff.dataOffset_of_le hu.starts] at h
    rcases h with h | h
    · exact absurd hu.offset (Nat.not_le.mpr h)
    · exact absurd hu.header (Nat.not_le.mpr h)
  case isFalse hsecond =>
  rw [not_or] at hsecond
  have hs : skb.buf.headroom.length ≤ skb.transportHeader.toNat := by
    by_contra hlt
    exact hsecond.1 (SkBuff.dataOffset_of_lt (Nat.lt_of_not_le hlt))
  rw [SkBuff.dataOffset_of_le hs] at hsecond ⊢
  rw [SkBuff.udpLen_eq hs hl]
  split
  case isTrue h =>
    refine ⟨headerEinval, skb.buf, rfl, refuses ?_⟩
    rintro ⟨hu, -⟩
    rcases h with h | h
    · exact absurd hu.minimum (Nat.not_le.mpr h)
    · exact absurd hu.present (Nat.not_le.mpr h)
  case isFalse hthird =>
  rw [not_or] at hthird
  have hroom := skb.transportHeader_lt
  obtain ⟨ret, buf, hret, hiff, hcut⟩ := cutPayload_spec skb.buf (skb.udpOffset + sizeofUdphdr)
    (skb.udpLenField - sizeofUdphdr) (by omega)
  refine ⟨ret, buf, hret, ⟨?_, ?_⟩, ?_⟩
  · intro h0
    exact ⟨⟨hprotocol, hs, Nat.le_of_not_lt hsecond.2, Nat.le_of_not_lt hsecond.1, Nat.le_of_not_lt hthird.1,
      Nat.le_of_not_lt hthird.2, hiff.mp h0⟩, hl⟩
  · rintro ⟨hu, -⟩
    exact hiff.mpr hu.message
  · intro h0
    have hc := hcut h0
    have hinside := hc.readsInside (hiff.mp h0)
    refine ⟨hc.bytes, hinside, ?_⟩
    intro ht hn
    have hheadroom := hc.headroom
    have hbehind : buf.headroom.length = skb.transportHeader.toNat + sizeofUdphdr := by
      rw [hheadroom]
      unfold SkBuff.udpOffset
      omega
    obtain ⟨plain, hplain, hlen, hbytes⟩ := decryptPacketMoves_spec buf skb.networkHeader.toNat
      (by omega) (by unfold sizeofUdphdr at hbehind; omega) (hinside.data ht).2
    rw [hc.bytes] at hbytes
    exact ⟨plain, hplain, hlen, hbytes⟩

/-- A keepalive in a UDP datagram; the header says that it is 40 bytes long. -/
def keepaliveDatagram : Bytes := [0x23, 0x28, 0xCA, 0x6C, 0, 40, 0, 0, 4, 0, 0, 0] ++ List.replicate 28 0x45

/-- Only the IP header lies in the block. -/
def pagedDatagram : SkBuff where
  buf := ⟨[], List.replicate 20 0x45, keepaliveDatagram⟩
  transportHeader := 20
  networkHeader := 0
  protocol := ethPIp
  size_lt := by decide

/-- The network header lies behind the transport header. -/
def headersSwapped : SkBuff where
  buf := ⟨[], keepaliveDatagram, []⟩
  transportHeader := 0
  networkHeader := 20
  protocol := ethPIp
  size_lt := by decide

/-- A message whose UDP header lies in the packet but not in the block is refused; and
`decrypt_packet` moves the front of the packet out of the block if the network header lies behind
its data. -/
theorem prepareSkbHeader_paged :
    (pagedDatagram.UdpMessage ∧ (prepareSkbHeader pagedDatagram).map Prod.fst = some headerEinval) ∧
      headersSwapped.UdpMessage ∧
      ∃ buf, prepareSkbHeader headersSwapped = some (0, buf) ∧
        decryptPacketMoves headersSwapped.networkHeader.toNat buf = none := by
  refine ⟨⟨⟨?_, ?_, ?_, ?_, ?_, ?_, ?_⟩, ?_⟩, ⟨?_, ?_, ?_, ?_, ?_, ?_, ?_⟩, _, rfl, ?_⟩
  all_goals decide +kernel

end WireguardAes
