import WireguardAes.Delivery
import WireguardAes.SendNonce

/-!
# Packets from the network stack (`device.c`, `send.c`)

`wg_xmit` looks up the peer of the destination address in the allowed IPs, makes the segments of the
packet and puts them on the queue of the peer. Calls run beside each other, beside changes of the
allowed IPs and of the endpoints, beside keepalives and beside the calls that take from the queues.
References are not followed: their counts change at any time.
-/

namespace WireguardAes

open Function ByteOrder Runs

namespace EthProtocol

/-- `skb->protocol` -/
def number : EthProtocol → UInt16
  | .ip => ethPIp
  | .ipv6 => ethPIpv6

/-- The offset of `daddr`. -/
def daddr : EthProtocol → Nat
  | .ip => 16
  | .ipv6 => 24

def destinationAddress (protocol : EthProtocol) (skb : Bytes) : Bytes :=
  (skb.drop protocol.daddr).take (protocol.family.bits / 8)

end EthProtocol

/-- A packet that the network stack hands over. -/
structure XmitSkb where
  /-- From the network header to the tail pointer. -/
  data : Bytes
  protocol : UInt16
  /-- `dst_mtu`, if `skb_valid_dst`. -/
  dstMtu : Option U32
  isGso : Bool

structure StagedSkb where
  /-- The packet that it is, or is a segment of; a keepalive has none. -/
  origin : Option XmitSkb
  data : Bytes
  mtu : U32

def eprotonosupport : Int := -93
def enokey : Int := -126
def edestaddrreq : Int := -89

namespace XmitSkb

/-- The tests of `skb->protocol`. -/
def ethProtocol (skb : XmitSkb) : Option EthProtocol :=
  if skb.protocol = ethPIp then some .ip else if skb.protocol = ethPIpv6 then some .ipv6 else none

def wgCheckPacketProtocol (skb : XmitSkb) : Except Fault Bool :=
  (readProtocol skb.data).map fun real => real.map EthProtocol.number = some skb.protocol

/-- The loop over the segments; `shareCheck`: whether `skb_share_check` returns one. -/
def packets (skb : XmitSkb) (mtu : U32) (segs : List Bytes) (shareCheck : Nat → Bool) : List StagedSkb :=
  (segs.zipIdx.filter (shareCheck ·.2)).map fun seg => ⟨some skb, seg.1, skb.dstMtu.getD mtu⟩

/-- The packet has a whole IP header of the version that `skb->protocol` says. -/
def Valid (skb : XmitSkb) (protocol : EthProtocol) : Prop :=
  ipTunnelParseProtocol skb.data = some protocol ∧ skb.protocol = protocol.number

end XmitSkb

/-- Where a call of `wg_xmit` is. -/
inductive XmitCall (P : Type) where
  /-- The lookup has taken a reference to the peer. -/
  | found (peer : P) (skb : XmitSkb)
  | segmented (peer : P) (packets : List StagedSkb)
  /-- The packets are on the queue. -/
  | staged (peer : P)
  /-- `NETDEV_TX_OK` -/
  | sent
  /-- With the ICMP message that was sent. -/
  | failed (skb : XmitSkb) (ret : Int) (icmp : Option EthProtocol)
  | faulted

/-- The packets of a peer. -/
structure TxQueue where
  staged : List StagedSkb
  /-- What calls of `wg_packet_send_staged_packets` have taken. -/
  batches : List (List StagedSkb)
  /-- What was given to `wg_packet_create_data`. -/
  sent : List StagedSkb

def TxQueue.packets (q : TxQueue) : List StagedSkb := q.staged ++ (q.batches.flatten ++ q.sent)

structure XmitDevice (P : Type) where
  mtu : U32
  table : Allowedips P
  /-- What the table reads as. -/
  prefixes : PrefixTable Family P
  /-- The family of the endpoint, if it is one of IP. -/
  endpoint : P → Option Family
  refcount : P → Nat
  queue : P → TxQueue
  calls : List (XmitCall P)

inductive XmitEvent (P : Type) where
  | update (c : AllowedipsCall P)
  | setEndpoint (p : P) (family : Option Family)
  /-- References are taken and given back. -/
  | setRefcount (refcount : P → Nat)
  -- `wg_xmit`
  | xmit (skb : XmitSkb)
  /-- The endpoint is read; with what `skb_gso_segment` returns. -/
  | segment (c : Nat) (segs : Except Int (List Bytes)) (shareCheck : Nat → Bool)
  | stage (c : Nat)
  | finish (c : Nat)
  /-- `wg_packet_send_keepalive` has found the queue empty, some time before. -/
  | keepalive (p : P)
  -- `wg_packet_send_staged_packets`, `wg_packet_purge_staged_packets`
  | steal (p : P)
  | putBack (p : P) (i : Nat)
  | createData (p : P) (i : Nat)
  | purge (p : P)

namespace XmitDevice

variable {P : Type} [DecidableEq P]

def init (mtu : U32) : XmitDevice P where
  mtu := mtu
  table := .wgAllowedipsInit
  prefixes := .empty
  endpoint := fun _ => none
  refcount := fun _ => 0
  queue := fun _ => ⟨[], [], []⟩
  calls := []

section
variable (s : XmitDevice P)

def goto (c : Nat) (call : XmitCall P) : XmitDevice P := { s with calls := s.calls.set c call }

def setQueue (p : P) (q : TxQueue) : XmitDevice P := { s with queue := update s.queue p q }

def errPeer (c : Nat) (skb : XmitSkb) (ret : Int) : XmitDevice P :=
  s.goto c (.failed skb ret skb.ethProtocol)

def wgAllowedipsLookupDst (skb : XmitSkb) : Except Fault (Option P) :=
  match skb.ethProtocol with
  | none => .ok none
  | some protocol => do
    let ip ← readHeader skb.data protocol.daddr (protocol.family.bits / 8)
    match s.table.lookup s.refcount protocol.family ip 1 with
    | none => .error .retrying
    | some peer => .ok peer

/-- `wg_xmit` up to the lookup. -/
def lookupPeer (skb : XmitSkb) : Except Fault (XmitCall P) := do
  if ← skb.wgCheckPacketProtocol then
    match ← s.wgAllowedipsLookupDst skb with
    | none => .ok (.failed skb enokey skb.ethProtocol)
    | some peer => .ok (.found peer skb)
  else .ok (.failed skb eprotonosupport none)

end

def step (s : XmitDevice P) : XmitEvent P → Option (XmitDevice P)
  | .update c => (c.exec s.table).map fun (r, table) => { s with table := table, prefixes := c.table s.prefixes r }
  | .setEndpoint p family => some { s with endpoint := update s.endpoint p family }
  | .setRefcount refcount => some { s with refcount := refcount }
  | .xmit skb =>
    match s.lookupPeer skb with
    | .ok call => some { s with calls := s.calls ++ [call] }
    | .error .outOfBounds => some { s with calls := s.calls ++ [.faulted] }
    | .error .retrying => none
  | .segment c segs shareCheck =>
    match s.calls[c]? with
    | some (.found p skb) =>
      match if s.endpoint p = none then .error edestaddrreq else if skb.isGso then segs else .ok [skb.data] with
      | .ok segs => some (s.goto c (.segmented p (skb.packets s.mtu segs shareCheck)))
      -- `IS_ERR`
      | .error ret => if ret < 0 then some (s.errPeer c skb ret) else none
    | _ => none
  | .stage c =>
    match s.calls[c]? with
    | some (.segmented p packets) =>
      let q := s.queue p
      -- the oldest packets go until the queue is small again
      let staged := q.staged.drop (q.staged.length - maxStagedPackets)
      some ((s.setQueue p { q with staged := staged ++ packets }).goto c (.staged p))
    | _ => none
  | .finish c =>
    match s.calls[c]? with
    | some (.staged _) => some (s.goto c .sent)
    | _ => none
  | .keepalive p =>
    let q := s.queue p
    some (s.setQueue p { q with staged := q.staged ++ [⟨none, [], s.mtu⟩] })
  | .steal p =>
    let q := s.queue p
    some (s.setQueue p { q with staged := [], batches := q.batches ++ [q.staged] })
  | .putBack p i =>
    let q := s.queue p
    q.batches[i]?.map fun batch => s.setQueue p { q with staged := batch ++ q.staged, batches := q.batches.eraseIdx i }
  | .createData p i =>
    let q := s.queue p
    q.batches[i]?.map fun batch => s.setQueue p { q with batches := q.batches.eraseIdx i, sent := q.sent ++ batch }
  | .purge p => some (s.setQueue p { s.queue p with staged := [] })

/-- The packet is for the peer, which is not being freed. -/
def Owns (s : XmitDevice P) (p : P) (skb : XmitSkb) : Prop :=
  0 < s.refcount p ∧ ∃ protocol, skb.Valid protocol ∧
    s.prefixes.longest Family.bits protocol.family (beNat (protocol.destinationAddress skb.data)) = some p

end XmitDevice

/-! ### The lookup -/

section
variable {P : Type} {R : P → XmitSkb → Prop} {s : XmitDevice P} {skb : XmitSkb} {protocol : EthProtocol}

namespace XmitSkb

theorem Valid.ethProtocol (h : skb.Valid protocol) : skb.ethProtocol = some protocol := by
  rw [XmitSkb.ethProtocol, h.2]
  cases protocol <;> rfl

theorem Valid.unique {protocol' : EthProtocol} (h : skb.Valid protocol) :
    some protocol = some protocol' ↔ skb.Valid protocol' :=
  ⟨fun heq => Option.some.inj heq ▸ h, fun h' => h.1.symm.trans h'.1⟩

theorem wgCheckPacketProtocol_ok (skb : XmitSkb) :
    ∃ b, skb.wgCheckPacketProtocol = .ok b ∧ (b = true ↔ ∃ protocol, skb.Valid protocol) := by
  refine ⟨_, by rw [wgCheckPacketProtocol, readProtocol_ok]; rfl, ?_⟩
  rw [decide_eq_true_eq, Option.map_eq_some_iff]
  exact exists_congr fun _ => and_congr_right fun _ => eq_comm

theorem Valid.destination (h : skb.Valid protocol) : protocol.daddr + protocol.family.bits / 8 ≤ skb.data.length :=
  Nat.le_trans (by cases protocol <;> decide) (parse_length h.1).1

end XmitSkb

/-- `R`: the packets that were for a peer at some time. -/
def StagedSkb.Ok (R : P → XmitSkb → Prop) (p : P) (x : StagedSkb) : Prop :=
  (x.origin = none → x.data = []) ∧ ∀ skb, x.origin = some skb → R p skb

/-- What a call may say of its packet. -/
def XmitCall.Ok (R : P → XmitSkb → Prop) : XmitCall P → Prop
  | .found p skb => R p skb ∧ ∃ protocol, skb.Valid protocol
  | .segmented p packets => ∀ x ∈ packets, x.Ok R p
  | .staged _ | .sent => True
  | .failed skb ret icmp => ret < 0 ∧ ∀ protocol, icmp = some protocol ↔ skb.Valid protocol
  | .faulted => False

namespace XmitDevice

theorem wgAllowedipsLookupDst_eq (h : skb.Valid protocol) : s.wgAllowedipsLookupDst skb =
    match s.table.lookup s.refcount protocol.family (protocol.destinationAddress skb.data) 1 with
    | none => .error .retrying
    | some peer => .ok peer := by
  rw [wgAllowedipsLookupDst, h.ethProtocol]
  simp only [readHeader_ok h.destination, bind, Except.bind]
  rfl

theorem lookupPeer_spec {l : List (Horrible.Node P)} (ha : s.table.Agrees s.prefixes l)
    (hR : ∀ p skb, s.Owns p skb → R p skb)
    (skb : XmitSkb) : s.lookupPeer skb = .error .retrying ∨ ∃ call, s.lookupPeer skb = .ok call ∧ call.Ok R := by
  obtain ⟨b, hcheck, hb⟩ := skb.wgCheckPacketProtocol_ok
  cases b with
  | false =>
    have hnot : ∀ protocol, ¬ skb.Valid protocol := fun protocol h => Bool.false_ne_true (hb.mpr ⟨protocol, h⟩)
    refine .inr ⟨.failed skb eprotonosupport none, ?_, by decide, by simp [hnot]⟩
    simp only [lookupPeer, hcheck, bind, Except.bind, Bool.false_eq_true, if_false]
  | true =>
    obtain ⟨protocol, h⟩ := hb.mp rfl
    obtain ⟨L, hi, hT⟩ := ha.trie
    have hlen : (protocol.destinationAddress skb.data).length = protocol.family.bits / 8 := by
      have := h.destination
      rw [EthProtocol.destinationAddress, List.length_take, List.length_drop]
      omega
    simp only [lookupPeer, hcheck, wgAllowedipsLookupDst_eq h, h.ethProtocol, hi.lookup_eq hT s.refcount hlen 0, bind,
      Except.bind, if_true]
    cases hlongest : s.prefixes.longest Family.bits protocol.family (beNat (protocol.destinationAddress skb.data)) with
    | none => exact .inr ⟨_, rfl, by decide, fun _ => h.unique⟩
    | some peer =>
      by_cases hzero : s.refcount peer = 0
      · exact .inl (by simp only [hzero, if_true])
      · have howns : s.Owns peer skb := ⟨Nat.pos_of_ne_zero hzero, protocol, h, hlongest⟩
        exact .inr ⟨.found peer skb, by simp only [hzero, if_false], hR _ _ howns, protocol, h⟩

end XmitDevice
end

/-! ### Runs -/

variable {P : Type}

namespace XmitDevice

structure Inv (R : P → XmitSkb → Prop) (s : XmitDevice P) : Prop where
  agrees : ∃ l, s.table.Agrees s.prefixes l
  calls : ∀ x ∈ s.calls, x.Ok R
  queues : ∀ p, ∀ x ∈ (s.queue p).packets, x.Ok R p

namespace Inv
variable {R : P → XmitSkb → Prop} {s t : XmitDevice P} {x : XmitCall P} {p : P}

theorem goto (h : Inv R s) (c : Nat) (hx : x.Ok R) : Inv R (s.goto c x) := by
  refine ⟨h.agrees, fun z hz => ?_, h.queues⟩
  rcases List.mem_or_eq_of_mem_set hz with hz | rfl
  exacts [h.calls z hz, hx]

variable [DecidableEq P]

theorem setQueue (h : Inv R s) {q : TxQueue} (hq : ∀ x ∈ q.packets, x ∈ (s.queue p).packets ∨ x.Ok R p) :
    Inv R (s.setQueue p q) := by
  refine ⟨h.agrees, h.calls, fun p' x hx => ?_⟩
  by_cases hp : p' = p
  · subst hp
    simp only [XmitDevice.setQueue, update_self] at hx
    exact (hq x hx).elim (h.queues p' x) id
  · simp only [XmitDevice.setQueue, update_of_ne hp] at hx
    exact h.queues p' x hx

theorem step {e : XmitEvent P} (h : Inv R s) (hR : ∀ p skb, s.Owns p skb → R p skb)
    (hs : s.step e = some t) : Inv R t := by
  cases e with
  | update c =>
    obtain ⟨l, ha⟩ := h.agrees
    obtain ⟨r, table, hexec, -, -, -, ha'⟩ := ha.exec c
    rw [XmitDevice.step, hexec] at hs
    cases hs
    exact ⟨⟨_, ha'⟩, h.calls, h.queues⟩
  | setEndpoint | setRefcount =>
    cases hs
    exact ⟨h.agrees, h.calls, h.queues⟩
  | xmit skb =>
    obtain ⟨l, ha⟩ := h.agrees
    rw [XmitDevice.step] at hs
    rcases lookupPeer_spec ha hR skb with hl | ⟨call, hl, hcall⟩
    · rw [hl] at hs
      cases hs
    · rw [hl] at hs
      cases hs
      refine ⟨⟨l, ha⟩, fun x hx => ?_, h.queues⟩
      rcases List.mem_append.mp hx with hx | hx
      exacts [h.calls x hx, List.mem_singleton.mp hx ▸ hcall]
  | segment c segs shareCheck =>
    simp only [XmitDevice.step] at hs
    split at hs
    case h_1 p skb hc =>
      obtain ⟨hp, protocol, hv⟩ := h.calls _ (List.mem_of_getElem? hc)
      split at hs
      case h_1 segs _ =>
        cases hs
        refine h.goto c fun x hx => ?_
        obtain ⟨seg, -, rfl⟩ := List.mem_map.mp hx
        exact ⟨nofun, by rintro _ ⟨⟩; exact hp⟩
      case h_2 ret _ =>
        obtain ⟨hret, hs⟩ := Option.ite_none_right_eq_some.mp hs
        cases hs
        exact h.goto c ⟨hret, fun _ => hv.ethProtocol ▸ hv.unique⟩
    case h_2 => cases hs
  | stage c =>
    simp only [XmitDevice.step] at hs
    split at hs <;> cases hs
    case h_1 p packets hc =>
      have hpackets : ∀ x ∈ packets, x.Ok R p := h.calls _ (List.mem_of_getElem? hc)
      refine (h.setQueue fun x hx => ?_).goto c trivial
      have hdrop : ∀ n, x ∈ (s.queue p).staged.drop n → x ∈ (s.queue p).staged := fun _ => List.mem_of_mem_drop
      simp only [TxQueue.packets, List.mem_append] at hx ⊢
      grind
  | finish c =>
    simp only [XmitDevice.step] at hs
    split at hs <;> cases hs
    exact h.goto c trivial
  | keepalive p =>
    cases hs
    refine h.setQueue fun x hx => ?_
    simp only [TxQueue.packets, List.mem_append, List.mem_singleton] at hx ⊢
    rcases hx with (hx | rfl) | hx
    · exact .inl (.inl hx)
    · exact .inr ⟨fun _ => rfl, nofun⟩
    · exact .inl (.inr hx)
  | steal p | purge p =>
    cases hs
    refine h.setQueue fun x hx => .inl ?_
    simp only [TxQueue.packets, List.flatten_append, List.mem_append, List.flatten_singleton, List.nil_append] at hx ⊢
    tauto
  | putBack p i | createData p i =>
    obtain ⟨batch, hbatch, rfl⟩ := Option.map_eq_some_iff.mp hs
    have hmem : ∀ x ∈ batch, x ∈ (s.queue p).batches.flatten := fun x =>
      List.mem_flatten_of_mem (List.mem_of_getElem? hbatch)
    have hrest : ∀ x ∈ ((s.queue p).batches.eraseIdx i).flatten, x ∈ (s.queue p).batches.flatten := by
      intro x hx
      obtain ⟨l, hl, hx⟩ := List.mem_flatten.mp hx
      exact List.mem_flatten.mpr ⟨l, List.mem_of_mem_eraseIdx hl, hx⟩
    refine h.setQueue fun x hx => .inl ?_
    simp only [TxQueue.packets, List.mem_append] at hx ⊢
    grind

end Inv

variable [DecidableEq P] {mtu : U32} {s : XmitDevice P}

abbrev Reachable (mtu : U32) (s : XmitDevice P) : Prop := Exec step (fun _ _ => True) (init mtu) s

end XmitDevice
end WireguardAes
