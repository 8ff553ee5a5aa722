import WireguardAes.DataPath
import WireguardAes.AllowedipsRuns

/-!
# Delivery of a decrypted packet (`receive.c`)

The whole of `wg_packet_consume_data_done` that concerns the packet: the checks of the inner IP
header, the cut to the length in it, and the lookup of the source address in the allowed IPs, which
has to answer with the peer whose keypair decrypted the packet. Here every access to a header is
checked against the bytes that are there; the theorems show that none fails.
-/

namespace WireguardAes

open ByteOrder

/-- Why a call does not return. -/
inductive Fault where
  | outOfBounds
  /-- `lookup` retries for as long as it finds a peer that is being freed. -/
  | retrying

inductive Delivered where
  | keepalive
  | dishonestPacketType
  | dishonestPacketSize
  | dishonestPacketPeer
  /-- `pskb_trim` failed. -/
  | dropped
  /-- `napi_gro_receive`. -/
  | received (skb : Bytes)

/-- `n` bytes of a header at `offset`. -/
def readHeader (skb : Bytes) (offset n : Nat) : Except Fault Bytes :=
  if offset + n ≤ skb.length then .ok ((skb.drop offset).take n) else .error .outOfBounds

def readVersion (skb : Bytes) : Except Fault Nat := (readHeader skb 0 1).map ipVersion

def readBe16 (skb : Bytes) (offset : Nat) : Except Fault Nat := (readHeader skb offset 2).map (be16 · 0)

/-- The version is looked at only if there is room for its header. -/
def hasVersion (skb : Bytes) (headerLen version : Nat) : Except Fault Bool :=
  if headerLen ≤ skb.length then (readVersion skb).map (· == version) else .ok false

/-- `ip_tunnel_parse_protocol`. -/
def readProtocol (skb : Bytes) : Except Fault (Option EthProtocol) := do
  if ← hasVersion skb sizeofIphdr 4 then .ok (some .ip)
  else if ← hasVersion skb sizeofIpv6hdr 6 then .ok (some .ipv6)
  else .ok none

namespace EthProtocol

def family : EthProtocol → Family
  | .ip => .v4
  | .ipv6 => .v6

/-- The offset of `saddr`. -/
def saddr : EthProtocol → Nat
  | .ip => 12
  | .ipv6 => 8

def sourceAddress (protocol : EthProtocol) (skb : Bytes) : Bytes :=
  (skb.drop protocol.saddr).take (protocol.family.bits / 8)

end EthProtocol

section
variable {P : Type} [DecidableEq P] (N : SkbLayer) (table : Allowedips P) (refcount : P → Nat) (fuel : Nat)

def allowedipsLookupSrc (skb : Bytes) (protocol : EthProtocol) : Except Fault (Option P) := do
  let ip ← readHeader skb protocol.saddr (protocol.family.bits / 8)
  match table.lookup refcount protocol.family ip fuel with
  | none => .error .retrying
  | some peer => .ok peer

/-- From the check of the length on. -/
def trimAndRoute (peer : P) (skb : Bytes) (protocol : EthProtocol) (len : Nat) (room : Bool) :
    Except Fault Delivered :=
  if skb.length < len then .ok .dishonestPacketSize
  else if !room then .ok .dropped
  else do
    let skb := skb.take len
    let routedPeer ← allowedipsLookupSrc table refcount fuel skb protocol
    if routedPeer ≠ some peer then .ok .dishonestPacketPeer else .ok (.received skb)

def packetConsumeDataDone (peer : P) (ds : UInt8) (skb : Bytes) (room : Bool) : Except Fault Delivered :=
  if skb.length = 0 then .ok .keepalive
  else if skb.length < sizeofIphdr then .ok .dishonestPacketType
  else do
    let version ← readVersion skb
    if ¬ (version = 4 ∨ (version = 6 ∧ sizeofIpv6hdr ≤ skb.length)) then .ok .dishonestPacketType
    else match ← readProtocol skb with
      | some .ip => do
        let len ← readBe16 skb 2
        if len < sizeofIphdr then .ok .dishonestPacketSize
        else do
          let _tos ← readHeader skb 1 1
          trimAndRoute table refcount fuel peer (N.ecnDecapsulate ds skb) .ip len room
      | some .ipv6 => do
        let payloadLen ← readBe16 skb 4
        let _dsfield ← readHeader skb 0 2
        trimAndRoute table refcount fuel peer (N.ecnDecapsulate ds skb) .ipv6 (payloadLen + sizeofIpv6hdr) room
      | none => .ok .dishonestPacketType

end

/-! ### No access is out of bounds -/

section
variable {skb : Bytes}

theorem readHeader_ok {offset n : Nat} (h : offset + n ≤ skb.length) :
    readHeader skb offset n = .ok ((skb.drop offset).take n) := if_pos h

theorem getD_read (skb : Bytes) (offset : Nat) {i n : Nat} (hi : i < n) :
    ((skb.drop offset).take n).getD i 0 = skb.getD (offset + i) 0 := by
  rw [List.getD_eq_getElem?_getD, List.getElem?_take_of_lt hi, List.getElem?_drop, List.getD_eq_getElem?_getD]

theorem readVersion_ok (h : 1 ≤ skb.length) : readVersion skb = .ok (ipVersion skb) := by
  rw [readVersion, readHeader_ok h]
  simp only [Except.map, ipVersion, getD_read skb 0 Nat.one_pos, Nat.zero_add]

theorem readBe16_ok {offset : Nat} (h : offset + 2 ≤ skb.length) : readBe16 skb offset = .ok (be16 skb offset) := by
  rw [readBe16, readHeader_ok h]
  simp only [Except.map, be16, getD_read skb offset Nat.two_pos, getD_read skb offset Nat.one_lt_two, Nat.add_zero,
    Nat.zero_add]

theorem hasVersion_ok {headerLen : Nat} (h : 1 ≤ headerLen) (version : Nat) :
    hasVersion skb headerLen version = .ok (decide (headerLen ≤ skb.length ∧ ipVersion skb = version)) := by
  unfold hasVersion
  split_ifs with hlen
  · rw [readVersion_ok (h.trans hlen)]
    simp only [Except.map, hlen, true_and]
    rfl
  · simp only [hlen, false_and, decide_false]

theorem readProtocol_ok (skb : Bytes) : readProtocol skb = .ok (ipTunnelParseProtocol skb) := by
  unfold readProtocol ipTunnelParseProtocol
  rw [hasVersion_ok (by decide), hasVersion_ok (by decide)]
  simp only [bind, Except.bind, decide_eq_true_eq]
  split
  · rfl
  · split <;> rfl

end

section
variable {P : Type} [DecidableEq P] {N : SkbLayer} {table : Allowedips P} {refcount : P → Nat} {fuel : Nat}
  {peer : P} {ds : UInt8} {skb : Bytes} {room : Bool} {protocol : EthProtocol}
variable {out : Bytes}

/-- What becomes of a packet after the first half. -/
def route (table : Allowedips P) (refcount : P → Nat) (fuel : Nat) (peer : P) (protocol : EthProtocol) :
    Consumed → Except Fault Delivered
  | .keepalive => .ok .keepalive
  | .dishonestPacketType => .ok .dishonestPacketType
  | .dishonestPacketSize => .ok .dishonestPacketSize
  | .dropped => .ok .dropped
  | .trimmed skb => do
    let routedPeer ← allowedipsLookupSrc table refcount fuel skb protocol
    if routedPeer ≠ some peer then .ok .dishonestPacketPeer else .ok (.received skb)

theorem parse_length (h : ipTunnelParseProtocol skb = some protocol) :
    protocol.headerLen ≤ skb.length ∧ ipVersion skb = protocol.version := by
  unfold ipTunnelParseProtocol at h
  split at h
  · cases h; exact ‹_›
  · split at h <;> cases h
    exact ‹_›

theorem trimAndRoute_eq {len : Nat} :
    trimAndRoute table refcount fuel peer skb protocol len room = route table refcount fuel peer protocol
      (if skb.length < len then .dishonestPacketSize else if room then .trimmed (skb.take len) else .dropped) := by
  unfold trimAndRoute
  split
  · rfl
  · cases room <;> rfl

/-- A packet with a whole header: all accesses are within it. -/
theorem packetConsumeDataDone_eq (hp : ipTunnelParseProtocol skb = some protocol) :
    packetConsumeDataDone N table refcount fuel peer ds skb room =
      route table refcount fuel peer protocol (consumeDataDone N ds skb room) := by
  obtain ⟨hlen, hv⟩ := parse_length hp
  have h20 : 20 ≤ skb.length := Nat.le_trans (by cases protocol <;> decide) hlen
  have hversion : ipVersion skb = 4 ∨ (ipVersion skb = 6 ∧ sizeofIpv6hdr ≤ skb.length) := by
    cases protocol with
    | ip => exact .inl hv
    | ipv6 => exact .inr ⟨hv, hlen⟩
  have hzero : skb.length ≠ 0 := by omega
  have hshort : ¬ skb.length < sizeofIphdr := Nat.not_lt.mpr h20
  have hread : ∀ offset n, offset + n ≤ 20 → readHeader skb offset n = .ok ((skb.drop offset).take n) :=
    fun offset n h => readHeader_ok (h.trans h20)
  simp only [packetConsumeDataDone, consumeDataDone, if_neg hzero, if_neg hshort,
    readVersion_ok (show 1 ≤ skb.length by omega), readProtocol_ok, hp, hversion, Nat.not_lt.mp hshort, true_and,
    not_true_eq_false, if_false, bind, Except.bind]
  cases protocol with
  | ip =>
    simp only [readBe16_ok (show 2 + 2 ≤ skb.length by omega), hread 1 1 (by decide), ipLength, true_and,
      trimAndRoute_eq]
    split <;> rfl
  | ipv6 =>
    simp only [readBe16_ok (show 4 + 2 ≤ skb.length by omega), hread 0 2 (by decide), ipLength, trimAndRoute_eq]
    rfl

theorem packetConsumeDataDone_unparsed (hp : ipTunnelParseProtocol skb = none) :
    packetConsumeDataDone N table refcount fuel peer ds skb room =
      .ok (if skb.length = 0 then .keepalive else .dishonestPacketType) := by
  unfold packetConsumeDataDone
  split
  · rfl
  · split
    · rfl
    · rw [readVersion_ok (by omega), readProtocol_ok, hp]
      simp only [bind, Except.bind]
      split <;> rfl

/-! ### The packets that are handed over -/

theorem consumeDataDone_trimmed (hN : N.Documented) (h : consumeDataDone N ds skb true = .trimmed out)
    (hp : ipTunnelParseProtocol skb = some protocol) :
    IpPacket protocol skb ∧ out = (N.ecnDecapsulate ds skb).take (ipLength skb protocol) := by
  obtain ⟨hlen, hv⟩ := parse_length hp
  have hecn := hN.ecnDecapsulate ds skb protocol hp
  unfold consumeDataDone at h
  split at h
  · cases h
  split at h
  · cases h
  rw [hp] at h
  simp only at h
  split at h
  · cases h
  case isFalse hsize =>
  split at h
  · cases h
  case isFalse hfits =>
  rw [hecn.length, Nat.not_lt] at hfits
  cases h
  refine ⟨⟨hv, ?_, hfits⟩, rfl⟩
  cases protocol with
  | ip => exact Nat.not_lt.mp fun hlt => hsize ⟨rfl, hlt⟩
  | ipv6 => exact Nat.le_add_left ..

/-- The source address is not among the bytes that change. -/
theorem SameButEcn.sourceAddress {x y : Bytes} (h : SameButEcn protocol x y) :
    protocol.sourceAddress y = protocol.sourceAddress x := by
  refine List.ext_getElem? fun i => ?_
  unfold EthProtocol.sourceAddress
  rw [List.getElem?_take, List.getElem?_take, List.getElem?_drop, List.getElem?_drop]
  have hi : y[protocol.saddr + i]? = x[protocol.saddr + i]? := by
    refine h.other _ ?_ fun hip => ?_
    · cases protocol <;> simp only [EthProtocol.saddr] <;> omega
    · subst hip
      simp only [EthProtocol.saddr]
      omega
  rw [hi]

theorem sourceAddress_take {len : Nat} (h : protocol.headerLen ≤ len) :
    protocol.sourceAddress (skb.take len) = protocol.sourceAddress skb := by
  have hle : protocol.family.bits / 8 ≤ len - protocol.saddr := by
    refine Nat.le_trans ?_ (Nat.sub_le_sub_right h _)
    cases protocol <;> decide
  unfold EthProtocol.sourceAddress
  rw [List.drop_take, List.take_take, Nat.min_eq_left hle]

omit [DecidableEq P] in
theorem allowedipsLookupSrc_eq (h : protocol.headerLen ≤ skb.length) :
    allowedipsLookupSrc table refcount fuel skb protocol =
      match table.lookup refcount protocol.family (protocol.sourceAddress skb) fuel with
      | none => .error .retrying
      | some routedPeer => .ok routedPeer := by
  have hle : protocol.saddr + protocol.family.bits / 8 ≤ skb.length :=
    Nat.le_trans (by cases protocol <;> decide) h
  rw [allowedipsLookupSrc, readHeader_ok hle]
  rfl

theorem packetConsumeDataDone_ip (hN : N.Documented) (table : Allowedips P) (refcount : P → Nat) (fuel : Nat) (peer : P)
    (ds : UInt8) (h : IpPacket protocol skb) :
    ∃ out, SameButEcn protocol (skb.take (ipLength skb protocol)) out ∧
      packetConsumeDataDone N table refcount fuel peer ds skb true =
        match table.lookup refcount protocol.family (protocol.sourceAddress skb) fuel with
        | none => .error .retrying
        | some routedPeer => if routedPeer ≠ some peer then .ok .dishonestPacketPeer else .ok (.received out) := by
  obtain ⟨out, hout, hsame⟩ := consumeDataDone_ip hN h ds
  have hlen : out.length = ipLength skb protocol := by
    rw [hsame.length, List.length_take, Nat.min_eq_left h.fits]
  have hsrc : protocol.sourceAddress out = protocol.sourceAddress skb := by
    rw [hsame.sourceAddress, sourceAddress_take h.headerLen]
  refine ⟨out, hsame, ?_⟩
  rw [packetConsumeDataDone_eq h.parse, hout]
  simp only [route, allowedipsLookupSrc_eq (hlen ▸ h.headerLen), hsrc]
  cases table.lookup refcount protocol.family (protocol.sourceAddress skb) fuel <;> rfl

theorem packetConsumeDataDone_not_ip (hN : N.Documented) (table : Allowedips P) (refcount : P → Nat) (fuel : Nat)
    (peer : P) (ds : UInt8) (h : ∀ protocol, ¬ IpPacket protocol skb) :
    ∃ r, packetConsumeDataDone N table refcount fuel peer ds skb true = .ok r ∧ ∀ out, r ≠ .received out := by
  cases hp : ipTunnelParseProtocol skb with
  | none =>
    rw [packetConsumeDataDone_unparsed hp]
    refine ⟨_, rfl, fun out => ?_⟩
    split <;> rintro ⟨⟩
  | some protocol =>
    rw [packetConsumeDataDone_eq hp]
    cases hc : consumeDataDone N ds skb true with
    | trimmed out => exact absurd (consumeDataDone_trimmed hN hc hp).1 (h protocol)
    | _ => exact ⟨_, rfl, by rintro _ ⟨⟩⟩

theorem length_sourceAddress (h : protocol.headerLen ≤ skb.length) :
    (protocol.sourceAddress skb).length = protocol.family.bits / 8 := by
  have hle : protocol.saddr + protocol.family.bits / 8 ≤ skb.length :=
    Nat.le_trans (by cases protocol <;> decide) h
  unfold EthProtocol.sourceAddress
  rw [List.length_take, List.length_drop]
  omega

theorem EthProtocol.version_inj {a b : EthProtocol} (h : a.version = b.version) : a = b := by
  cases a <;> cases b <;> first | rfl | cases h

/-- The outcome for an IP packet whose source address belongs to `owner`. -/
def routed (refcount : P → Nat) (peer : P) (out : Bytes) : Option P → Except Fault Delivered
  | none => .ok .dishonestPacketPeer
  | some q => if refcount q = 0 then .error .retrying
    else if q = peer then .ok (.received out) else .ok .dishonestPacketPeer

theorem routed_received {out' : Bytes} {owner : Option P} (h : 0 < refcount peer) :
    routed refcount peer out owner = .ok (.received out') ↔ owner = some peer ∧ out' = out := by
  cases owner with
  | none => simp [routed]
  | some q =>
    by_cases hq : q = peer
    · subst hq
      simp [routed, Nat.ne_of_gt h, eq_comm]
    · simp only [routed, hq, if_false, Option.some.injEq, false_and, iff_false]
      split <;> rintro ⟨⟩

theorem routed_ne_outOfBounds (owner : Option P) :
    routed refcount peer out owner ≠ .error .outOfBounds := by
  cases owner with
  | none => rintro ⟨⟩
  | some q =>
    simp only [routed]
    split
    · rintro ⟨⟩
    · split <;> rintro ⟨⟩

theorem routed_returns {owner : Option P} (h : ∀ q ∈ owner, 0 < refcount q) :
    ∃ r, routed refcount peer out owner = .ok r := by
  cases owner with
  | none => exact ⟨_, rfl⟩
  | some q =>
    simp only [routed, Nat.ne_of_gt (h q rfl), if_false]
    split <;> exact ⟨_, rfl⟩

theorem packetConsumeDataDone_routed {L : Set Nat} {T : PrefixTable Family P} (hN : N.Documented)
    (hi : Allowedips.Inv table L) (hT : PrefixForest.Reads Family.bits table.forest L T)
    (refcount : P → Nat) (fuel : Nat)
    (peer : P) (ds : UInt8) (h : IpPacket protocol skb) :
    ∃ out, SameButEcn protocol (skb.take (ipLength skb protocol)) out ∧
      packetConsumeDataDone N table refcount (fuel + 1) peer ds skb true =
        routed refcount peer out (T.longest Family.bits protocol.family (beNat (protocol.sourceAddress skb))) := by
  obtain ⟨out, hsame, heq⟩ := packetConsumeDataDone_ip hN table refcount (fuel + 1) peer ds h
  refine ⟨out, hsame, ?_⟩
  rw [heq, hi.lookup_eq hT refcount (length_sourceAddress h.headerLen_le) fuel]
  cases T.longest Family.bits protocol.family (beNat (protocol.sourceAddress skb)) with
  | none => simp [routed]
  | some q =>
    by_cases hq : refcount q = 0
    · simp only [routed, hq, if_true]
    · simp only [routed, hq, if_false, ne_eq, Option.some.injEq, ite_not]

/-- For every table that calls can make of the allowed IPs and every decrypted packet: no access to
a header is out of bounds; the packet is handed over if and only if it is not empty, is of version 4
or 6, has a whole header whose length is at least the header's and at most the packet's, and the
longest prefix that contains its source address belongs to the peer; and what is handed over is the
packet up to that length. The call returns unless the prefix belongs to a peer that is being
freed. -/
theorem packetConsumeDataDone_received (N : SkbLayer) (hN : N.Documented) (cs : List (AllowedipsCall P)) :
    ∃ rs table, AllowedipsCall.run Allowedips.wgAllowedipsInit cs = some (rs, table) ∧
      ∀ (refcount : P → Nat) (fuel : Nat) (peer : P) (ds : UInt8) (skb : Bytes), 0 < refcount peer →
        packetConsumeDataDone N table refcount (fuel + 1) peer ds skb true ≠ .error .outOfBounds ∧
        ((∃ out, packetConsumeDataDone N table refcount (fuel + 1) peer ds skb true = .ok (.received out)) ↔
          skb ≠ [] ∧ ∃ protocol : EthProtocol, ipVersion skb = protocol.version ∧ protocol.headerLen ≤ skb.length ∧
            protocol.headerLen ≤ ipLength skb protocol ∧ ipLength skb protocol ≤ skb.length ∧
            (AllowedipsCall.tables .empty cs rs).longest Family.bits protocol.family
              (beNat (protocol.sourceAddress skb)) = some peer) ∧
        (∀ out, packetConsumeDataDone N table refcount (fuel + 1) peer ds skb true = .ok (.received out) →
          ∀ protocol : EthProtocol, ipVersion skb = protocol.version →
            SameButEcn protocol (skb.take (ipLength skb protocol)) out) ∧
        ((∀ f x q, (AllowedipsCall.tables .empty cs rs).longest Family.bits f x = some q → 0 < refcount q) →
          ∃ r, packetConsumeDataDone N table refcount (fuel + 1) peer ds skb true = .ok r) := by
  obtain ⟨rs, table, hrun, -, hagree⟩ := (Allowedips.Agrees.init (P := P)).run cs
  obtain ⟨L, hi, hT⟩ := hagree.trie
  refine ⟨rs, table, hrun, fun refcount fuel peer ds skb href => ?_⟩
  by_cases hip : ∃ protocol, IpPacket protocol skb
  · obtain ⟨protocol, hip⟩ := hip
    obtain ⟨out, hsame, heq⟩ := packetConsumeDataDone_routed hN hi hT refcount fuel peer ds hip
    simp only [heq, routed_received href]
    refine ⟨routed_ne_outOfBounds _, ⟨?_, ?_⟩, ?_, fun hlive => routed_returns fun q hq => hlive _ _ q hq⟩
    · rintro ⟨_, hown, -⟩
      refine ⟨?_, protocol, hip.version, hip.headerLen_le, hip.headerLen, hip.fits, hown⟩
      rintro rfl
      exact absurd hip.sizeofIphdr_le (by decide)
    · rintro ⟨-, protocol', hv, -, -, -, hown⟩
      obtain rfl := EthProtocol.version_inj (hip.version.symm.trans hv)
      exact ⟨out, hown, rfl⟩
    · rintro _ ⟨-, rfl⟩ protocol' hv
      obtain rfl := EthProtocol.version_inj (hip.version.symm.trans hv)
      exact hsame
  · obtain ⟨r, heq, hr⟩ := packetConsumeDataDone_not_ip hN table refcount (fuel + 1) peer ds (not_exists.mp hip)
    rw [heq]
    refine ⟨by rintro ⟨⟩, ⟨?_, ?_⟩, ?_, fun _ => ⟨r, rfl⟩⟩
    · rintro ⟨out, hout⟩
      exact absurd (Except.ok.inj hout) (hr out)
    · rintro ⟨-, protocol, hv, -, hlen, hfits, -⟩
      exact absurd ⟨protocol, hv, hlen, hfits⟩ hip
    · intro out hout
      exact absurd (Except.ok.inj hout) (hr out)

end

/-- 24 bytes of IPv4 from 10.0.0.5, and padding. -/
def paddedPacket : Bytes :=
  [0x45, 0, 0, 24, 0, 0, 0, 0, 64, 17, 0, 0, 10, 0, 0, 5, 10, 0, 0, 1, 1, 2, 3, 4] ++ List.replicate 8 0

/-- 10.0.0.0/8 for one peer and 10.0.0.0/24 for another. -/
def nestedPrefixes : List (AllowedipsCall Nat) :=
  [.insertV4 #v[10, 0, 0, 0] 8 (some 1) false false, .insertV4 #v[10, 0, 0, 0] 24 (some 0) false false]

theorem packetConsumeDataDone_received_padded : ∃ rs table,
    AllowedipsCall.run Allowedips.wgAllowedipsInit nestedPrefixes = some (rs, table) ∧
    ∃ out, packetConsumeDataDone WgDevice.plainSkbLayer table (fun _ => 1) 1 0 0 paddedPacket true =
        .ok (.received out) ∧ SameButEcn .ip (paddedPacket.take 24) out := by
  obtain ⟨rs, table, hrun, h⟩ := packetConsumeDataDone_received WgDevice.plainSkbLayer
    WgDevice.plainSkbLayer_documented nestedPrefixes
  have hrs : rs = [.ok, .ok] := by
    have hret : (AllowedipsCall.run Allowedips.wgAllowedipsInit nestedPrefixes).map Prod.fst = some [.ok, .ok] := by
      decide +kernel
    rw [hrun] at hret
    exact Option.some.inj hret
  subst hrs
  obtain ⟨-, hiff, hout, -⟩ := h (fun _ => 1) 0 0 0 paddedPacket Nat.one_pos
  obtain ⟨out, heq⟩ := hiff.mpr ⟨by decide, .ip, by decide, by decide, by decide, by decide, by decide +kernel⟩
  exact ⟨_, table, hrun, out, heq, hout out heq .ip rfl⟩

end WireguardAes
