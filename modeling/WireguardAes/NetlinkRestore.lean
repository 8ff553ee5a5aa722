import WireguardAes.NetlinkTidy
import WireguardAes.NetlinkPrivateKey

/-!
# Restoring a dump (`netlink.c`)

The attributes that a dump writes are those that `wg_set_device` reads, so the messages of a dump
can be sent back as requests. A peer may be spread over several messages, and the first messages may
all have the attributes of the device, if the first of its peers has many allowed IPs. Sent back one
after the other, the first one with `WGDEVICE_F_REPLACE_PEERS`, they give another device the same
configuration, if it can take the identity (`Restorable`), the endpoints were socket addresses
(`EndpointsOk`), and nothing fails on the way: the sender is capable, memory is found and a socket
is bound to the port it is asked for.
-/

namespace WireguardAes

open Function Runs ByteOrder

/-! ### Requests from messages -/

/-- `AF_INET` or `AF_INET6` -/
def Family.af : Family → UInt16
  | .v4 => afInet
  | .v6 => afInet6

/-- The attributes that `get_allowedips` puts, and memory for the nodes. -/
def dumpedAllowedip (ip : Family × Bytes × Nat) : AllowedipAttrs :=
  ⟨some ip.1.af, some ip.2.1, some (UInt8.ofNat ip.2.2), false, false⟩

/-- The attributes that `get_peer` puts. -/
def PeerNest.attrs (nest : PeerNest) : PeerAttrs where
  publicKey := some nest.publicKey
  presharedKey := nest.full.map FullAttrs.presharedKey
  flags := none
  endpoint := nest.full.bind FullAttrs.endpoint
  persistentKeepaliveInterval := nest.full.map FullAttrs.persistentKeepaliveInterval
  allowedips := nest.allowedips.map fun ips => ips.map fun ip => some (dumpedAllowedip ip)
  protocolVersion := nest.full.map FullAttrs.protocolVersion
  createFails := false

/-- The attributes of a message; if the device is up, it can bind the port. -/
def DumpMsg.attrs (msg : DumpMsg) (flags : Option U32) : DeviceAttrs where
  privateKey := msg.device.bind fun info => info.keys.map Prod.fst
  flags := flags
  listenPort := msg.device.map DeviceInfo.listenPort
  fwmark := msg.device.map DeviceInfo.fwmark
  peers := msg.peers.map fun nests => nests.map fun nest => some nest.attrs
  capable := true
  socketInit := .ok ((msg.device.map DeviceInfo.listenPort).getD 0)

/-- The messages as requests; the first one replaces the peers. -/
def restoring : List DumpMsg → List DeviceAttrs
  | [] => []
  | msg :: msgs => msg.attrs (some wgdeviceFReplacePeers) :: msgs.map fun msg => msg.attrs none

/-- One request after the other, with what they return. -/
def ConfigDevice.requests (C : Crypto) (pubkeyBucket : Bytes → PubkeyBucket) (dev : ConfigDevice) :
    List DeviceAttrs → Option (List Int × ConfigDevice)
  | [] => some ([], dev)
  | attrs :: rest =>
    match dev.wgSetDevice C pubkeyBucket attrs with
    | none => none
    | some (ret, dev) => (dev.requests C pubkeyBucket rest).map fun out => (ret :: out.1, out.2)

/-! ### The table from the messages -/

/-- What is known of the allowed IPs of a device. -/
structure DistinctIps (ips : List (Bytes × Family × Bytes × Nat)) : Prop where
  masked : ∀ x ∈ ips, PeerEntry.Masked (x.2, x.1)
  owner : ∀ x ∈ ips, ∀ y ∈ ips, x.2 = y.2 → x = y

theorem DistinctIps.of_append {ips ips' : List (Bytes × Family × Bytes × Nat)}
    (h : DistinctIps (ips ++ ips')) : DistinctIps ips :=
  ⟨fun x hx => h.masked x (List.mem_append_left _ hx),
    fun x hx y hy => h.owner x (List.mem_append_left _ hx) y (List.mem_append_left _ hy)⟩

/-- The table has the allowed IPs in `ips`, each for the peer with its key. -/
def Lists (T : PrefixTable Family Nat) (peerList : List Nat) (key : Nat → Bytes)
    (ips : List (Bytes × Family × Bytes × Nat)) : Prop :=
  ∀ f x c q, T f x c = some q ↔ q ∈ peerList ∧ ∃ ip, ip.length = f.bits / 8 ∧ beNat ip = x ∧ (key q, f, ip, c) ∈ ips

def TableOf (a : Allowedips Nat) (peerList : List Nat) (key : Nat → Bytes)
    (ips : List (Bytes × Family × Bytes × Nat)) : Prop :=
  ∃ T l, a.Agrees T l ∧ Lists T peerList key ips

namespace TableOf

variable {a : Allowedips Nat} {peerList : List Nat} {key : Nat → Bytes}
    {ips : List (Bytes × Family × Bytes × Nat)} {p : Nat}

theorem insert (h : TableOf a peerList key ips) (hkey : ∀ q ∈ peerList, key q = key p → q = p) (hp : p ∈ peerList)
    {f : Family} {ip : Bytes} {c : Nat} (hd : DistinctIps (ips ++ [(key p, f, ip, c)])) :
    ∃ a', (AllowedipsCall.reinsert ((f, ip, c), p)).exec a = some (.ok, a') ∧
      TableOf a' peerList key (ips ++ [(key p, f, ip, c)]) := by
  obtain ⟨T, l, hagrees, hT⟩ := h
  obtain ⟨r, a', hexec, hinval, hnomem, -, hagrees'⟩ := hagrees.exec (AllowedipsCall.reinsert ((f, ip, c), p))
  have hlast : (key p, f, ip, c) ∈ ips ++ [(key p, f, ip, c)] := List.mem_append_right _ (List.mem_singleton_self _)
  have hmasked : PeerEntry.Masked ((f, ip, c), p) :=
    ⟨(hd.masked _ hlast).length, (hd.masked _ hlast).cidr, (hd.masked _ hlast).mask⟩
  have hr : r = .ok := by
    cases r with
    | ok => rfl
    | einval => exact absurd (hinval.mp rfl) (AllowedipsCall.not_invalid_reinsert hmasked)
    | enomem => exact absurd rfl (hnomem (AllowedipsCall.not_allocFails_reinsert _))
  subst hr
  rw [AllowedipsCall.table_inserted T (AllowedipsCall.inserted_reinsert hmasked), hmasked.mask] at hagrees'
  refine ⟨a', hexec, _, _, hagrees', fun f' x c' q => ?_⟩
  rw [PrefixTable.insert_eq_some]
  constructor
  · rintro (⟨rfl, rfl, rfl, rfl⟩ | ⟨-, hq⟩)
    · exact ⟨hp, ip, hmasked.length, rfl, hlast⟩
    · obtain ⟨hq, ip', hlen, hx, hin⟩ := (hT f' x c' q).mp hq
      exact ⟨hq, ip', hlen, hx, List.mem_append_left _ hin⟩
  · rintro ⟨hq, ip', hlen, rfl, hin⟩
    by_cases hsame : f' = f ∧ beNat ip' = beNat ip ∧ c' = c
    · obtain ⟨rfl, hnum, rfl⟩ := hsame
      have hip : ip' = ip := beNat_inj (hlen.trans hmasked.length.symm) hnum
      subst hip
      have hown := hd.owner _ hin _ hlast rfl
      exact .inl ⟨rfl, rfl, rfl, hkey q hq (congrArg Prod.fst hown)⟩
    · refine .inr ⟨hsame, (hT f' _ c' q).mpr ⟨hq, ip', hlen, rfl, ?_⟩⟩
      rcases List.mem_append.mp hin with hin | hin
      · exact hin
      · simp only [List.mem_singleton, Prod.mk.injEq] at hin
        exact absurd ⟨hin.2.1, by rw [hin.2.2.1], hin.2.2.2⟩ hsame

/-- A peer that is new has no allowed IPs. -/
theorem cons (h : TableOf a peerList key ips) {key' : Nat → Bytes} (hkeys : ∀ q ∈ peerList, key' q = key q)
    (hnew : ∀ x ∈ ips, x.1 ≠ key' p) : TableOf a (peerList ++ [p]) key' ips := by
  obtain ⟨T, l, hagrees, hT⟩ := h
  refine ⟨T, l, hagrees, fun f x c q => ?_⟩
  rw [hT]
  constructor
  · rintro ⟨hq, ip, hlen, hx, hin⟩
    refine ⟨List.mem_append_left _ hq, ip, hlen, hx, ?_⟩
    rw [hkeys q hq]
    exact hin
  · rintro ⟨hq, ip, hlen, hx, hin⟩
    rcases List.mem_append.mp hq with hq | hq
    · rw [hkeys q hq] at hin
      exact ⟨hq, ip, hlen, hx, hin⟩
    · cases List.mem_singleton.mp hq
      exact absurd rfl (hnew _ hin)

end TableOf

namespace ConfigDevice

variable {C : Crypto} {pubkeyBucket : Bytes → PubkeyBucket} {dev dev' tgt : ConfigDevice} {p : Nat}
  {ips : List (Bytes × Family × Bytes × Nat)}

/-- `set_allowedip` with what was dumped inserts it again. -/
theorem setAllowedip_dumped (tgt : ConfigDevice) (p : Nat) {k : Bytes} {ip : Family × Bytes × Nat}
    (he : PeerEntry.Masked (ip, k)) :
    tgt.setAllowedip p (dumpedAllowedip ip) = tgt.insertAllowedip (AllowedipsCall.reinsert (ip, p)) := by
  obtain ⟨f, ip, c⟩ := ip
  have hcidr : (UInt8.ofNat c).toNat = c := AllowedipsCall.toNat_cidr he.cidr
  have hle : c ≤ f.bits := he.cidr
  have hlen : ip.length = f.bits / 8 := he.length
  rw [setAllowedip, dumpedAllowedip]
  cases f with
  | v4 =>
    have hok : Family.af .v4 = afInet ∧ UInt8.ofNat c ≤ 32 ∧ ip.length = 4 :=
      ⟨rfl, UInt8.le_iff_toNat_le.mpr (hcidr.trans_le hle), hlen⟩
    have hvec : (⟨ip.toArray, hok.2.2⟩ : Vector UInt8 4) = .ofFn fun i => ip.getD i 0 :=
      Vector.toList_inj.mp (AllowedipsCall.toList_ofFn_getD hlen).symm
    dsimp only
    rw [dif_pos hok, hvec]
    rfl
  | v6 =>
    have hnot : ¬ (Family.af .v6 = afInet ∧ UInt8.ofNat c ≤ 32 ∧ ip.length = 4) := fun h => absurd h.1 (by decide)
    have hok : Family.af .v6 = afInet6 ∧ UInt8.ofNat c ≤ 128 ∧ ip.length = 16 :=
      ⟨rfl, UInt8.le_iff_toNat_le.mpr (hcidr.trans_le hle), hlen⟩
    have hvec : (⟨ip.toArray, hok.2.2⟩ : Vector UInt8 16) = .ofFn fun i => ip.getD i 0 :=
      Vector.toList_inj.mp (AllowedipsCall.toList_ofFn_getD hlen).symm
    dsimp only
    rw [dif_neg hnot, dif_pos hok, hvec]
    rfl

theorem forEachNested_dumped (tgt : ConfigDevice) (htable : TableOf tgt.allowedips tgt.peerList tgt.key ips)
    (hkey : ∀ q ∈ tgt.peerList, tgt.key q = tgt.key p → q = p) (hp : p ∈ tgt.peerList)
    (new : List (Family × Bytes × Nat))
    (hd : DistinctIps (ips ++ new.map (Prod.mk (tgt.key p)))) :
    ∃ a, tgt.forEachNested (fun dev attrs => dev.setAllowedip p attrs) (new.map fun ip => some (dumpedAllowedip ip)) =
      some (0, { tgt with allowedips := a }) ∧ TableOf a tgt.peerList tgt.key
        (ips ++ new.map (Prod.mk (tgt.key p))) := by
  induction new generalizing tgt ips with
  | nil =>
    refine ⟨tgt.allowedips, rfl, ?_⟩
    rw [List.map_nil, List.append_nil]
    exact htable
  | cons ip new ih =>
    have hsplit : ips ++ (ip :: new).map (Prod.mk (tgt.key p)) =
        (ips ++ [(tgt.key p, ip)]) ++ new.map (Prod.mk (tgt.key p)) := by
      rw [List.map_cons, List.append_cons]
    rw [hsplit] at hd ⊢
    have hfirst := hd.of_append
    obtain ⟨f, ip, c⟩ := ip
    obtain ⟨a, hexec, ha⟩ := htable.insert hkey hp hfirst
    have hmasked := hfirst.masked _ (List.mem_append_right _ (List.mem_singleton_self _))
    have hset : tgt.setAllowedip p (dumpedAllowedip (f, ip, c)) = some (0, { tgt with allowedips := a }) := by
      rw [setAllowedip_dumped tgt p hmasked, insertAllowedip, hexec]
      rfl
    obtain ⟨a', hrest, ha'⟩ := ih { tgt with allowedips := a } ha hkey hp hd
    refine ⟨a', ?_, ha'⟩
    rw [List.map_cons, forEachNested, hset]
    exact hrest

/-- What `set_peer` changes of a device once it has its peer. -/
def withPeers (dev : ConfigDevice) (peers : Nat → ConfigPeer) (a : Allowedips Nat) (keepalives stagedSends : List Nat) :
    ConfigDevice :=
  { dev with peers := peers, allowedips := a, keepalives := keepalives, stagedSends := stagedSends }

/-- What it makes of the peer. -/
def configuredPeer (peer : ConfigPeer) (attrs : PeerAttrs) (presharedKey : Option Bytes) : ConfigPeer :=
  let peer := (peer.setPresharedKey presharedKey).setEndpoint attrs.endpoint
  { peer with
    persistentKeepaliveInterval := attrs.persistentKeepaliveInterval.getD peer.persistentKeepaliveInterval }

theorem setPersistentKeepalive_eq (dev : ConfigDevice) (p : Nat) (interval : Option UInt16) :
    ∃ keepalives, dev.setPersistentKeepalive p interval = dev.withPeers (update dev.peers p
      { dev.peers p with persistentKeepaliveInterval := interval.getD (dev.peers p).persistentKeepaliveInterval })
      dev.allowedips keepalives dev.stagedSends := by
  cases interval with
  | none =>
    refine ⟨dev.keepalives, ?_⟩
    rw [Option.getD_none, update_eq_self]
    rfl
  | some interval =>
    unfold setPersistentKeepalive
    dsimp only
    split
    · exact ⟨_, rfl⟩
    · exact ⟨_, rfl⟩

/-- `set_peer` without flags, with what was dumped. -/
theorem configurePeer_dumped (htable : TableOf tgt.allowedips tgt.peerList tgt.key ips)
    (hkey : ∀ q ∈ tgt.peerList, tgt.key q = tgt.key p → q = p) (hp : p ∈ tgt.peerList) {attrs : PeerAttrs}
    (presharedKey : Option Bytes) {new : List (Family × Bytes × Nat)}
    (hattrs : attrs.allowedips.getD [] = new.map fun ip => some (dumpedAllowedip ip))
    (hd : DistinctIps (ips ++ new.map (Prod.mk (tgt.key p)))) :
    ∃ a ks ss, tgt.configurePeer attrs presharedKey 0 p =
      some (0, tgt.withPeers (update tgt.peers p (configuredPeer (tgt.peers p) attrs presharedKey)) a ks ss) ∧
      TableOf a tgt.peerList tgt.key (ips ++ new.map (Prod.mk (tgt.key p))) := by
  have hkeys : ∀ q, (tgt.modifyPeer p fun peer => (peer.setPresharedKey presharedKey).setEndpoint
    attrs.endpoint).key q =
      tgt.key q := key_modifyPeer tgt p _ fun peer => remoteStatic_set peer presharedKey attrs.endpoint
  have hfun := funext hkeys
  unfold configurePeer
  rw [if_neg (by decide), hattrs]
  dsimp only
  rw [if_neg (by decide)]
  generalize hset : (tgt.modifyPeer p fun peer => (peer.setPresharedKey presharedKey).setEndpoint
    attrs.endpoint) = dev₁ at hfun
  have hips : dev₁.allowedips = tgt.allowedips := by rw [← hset]; rfl
  have hlist : dev₁.peerList = tgt.peerList := by rw [← hset]; rfl
  rw [← hips, ← hlist, ← hfun] at htable
  rw [← hlist, ← hfun] at hkey
  rw [← hlist] at hp
  rw [← hfun] at hd
  obtain ⟨a, hloop, ha⟩ := forEachNested_dumped dev₁ htable hkey hp new hd
  rw [hlist, hfun] at ha
  rw [hloop]
  dsimp only
  rw [if_neg (by decide)]
  obtain ⟨ks, hkeep⟩ := setPersistentKeepalive_eq { dev₁ with allowedips := a } p attrs.persistentKeepaliveInterval
  have hpeers : update dev₁.peers p { dev₁.peers p with
      persistentKeepaliveInterval := attrs.persistentKeepaliveInterval.getD
        (dev₁.peers p).persistentKeepaliveInterval } =
      update tgt.peers p (configuredPeer (tgt.peers p) attrs presharedKey) := by
    rw [← hset]
    simp only [modifyPeer, update_idem, update_self]
    rfl
  rw [hkeep, hpeers, ← hset]
  split
  · exact ⟨a, ks, _, rfl, ha⟩
  · exact ⟨a, ks, _, rfl, ha⟩

/-! ### One nest -/

variable {nest : PeerNest} {fulls : List (Bytes × Bytes × UInt16 × U32 × Option Bytes)}
variable {full : FullAttrs}

theorem setPeer_continued (hlen : nest.publicKey.length = noisePublicKeyLen) (hfull : nest.full = none)
    (hl : tgt.lookup pubkeyBucket nest.publicKey = some p) :
    tgt.setPeer C pubkeyBucket nest.attrs = tgt.configurePeer nest.attrs none 0 p := by
  have hkey : nest.attrs.publicKey.filter (fun k => k.length = noisePublicKeyLen) = some nest.publicKey := by
    rw [PeerNest.attrs, Option.filter_some, if_pos (decide_eq_true hlen)]
  have hpsk : nest.attrs.presharedKey.filter (fun k => k.length = noiseSymmetricKeyLen) = none := by
    rw [PeerNest.attrs, hfull]
    rfl
  have hversion : nest.attrs.protocolVersion.any (fun v => v ≠ 1) = false := by
    rw [PeerNest.attrs, hfull]
    rfl
  unfold setPeer
  rw [hkey]
  dsimp only
  rw [show nest.attrs.flags.getD 0 = 0 from rfl, if_neg (by decide), hversion, if_neg Bool.false_ne_true, hl, hpsk]

theorem setPeer_begun (hlen : nest.publicKey.length = noisePublicKeyLen) (hfull : nest.full = some full)
    (hpsk : full.presharedKey.length = noiseSymmetricKeyLen) (hversion : full.protocolVersion = 1)
    (hl : tgt.lookup pubkeyBucket nest.publicKey = none)
    (hself : ¬ (tgt.identity.hasIdentity ∧ nest.publicKey = tgt.identity.staticPublic))
    (hmax : tgt.numPeers < maxPeersPerDevice) :
    tgt.setPeer C pubkeyBucket nest.attrs =
      (tgt.addPeer pubkeyBucket
        (.new (noiseHandshakeInit C tgt.identity nest.publicKey full.presharedKey))).configurePeer
        nest.attrs (some full.presharedKey) 0 tgt.created := by
  have hkey : nest.attrs.publicKey.filter (fun k => k.length = noisePublicKeyLen) = some nest.publicKey := by
    rw [PeerNest.attrs, Option.filter_some, if_pos (decide_eq_true hlen)]
  have hpsk' : nest.attrs.presharedKey.filter (fun k => k.length = noiseSymmetricKeyLen) = some full.presharedKey := by
    rw [PeerNest.attrs, hfull, Option.map_some, Option.filter_some, if_pos (decide_eq_true hpsk)]
  have hversion' : nest.attrs.protocolVersion.any (fun v => v ≠ 1) = false := by
    show (nest.full.map FullAttrs.protocolVersion).any (fun v => v ≠ 1) = false
    rw [hfull, Option.map_some, hversion]
    rfl
  unfold setPeer
  rw [hkey]
  dsimp only
  rw [show nest.attrs.flags.getD 0 = 0 from rfl, if_neg (by decide), hversion', if_neg Bool.false_ne_true, hl, hpsk']
  dsimp only
  rw [if_neg (by decide), if_neg hself, wgPeerCreate, if_neg (Nat.not_le.mpr hmax)]
  rfl

/-- The target, when the full attributes and the allowed IPs in the two lists have been sent
back. -/
structure Restored (pubkeyBucket : Bytes → PubkeyBucket) (dev tgt : ConfigDevice)
    (fulls : List (Bytes × Bytes × UInt16 × U32 × Option Bytes))
    (ips : List (Bytes × Family × Bytes × Nat)) : Prop where
  configured : Configured pubkeyBucket tgt
  incomingPort : tgt.incomingPort = dev.incomingPort
  fwmark : tgt.fwmark = dev.fwmark
  identity : tgt.identity = dev.identity ∨ tgt.identity.hasIdentity = false ∧ dev.identity.hasIdentity = false
  peers : tgt.peerList.map tgt.peerConfig = fulls
  owners : ∀ x ∈ ips, x.1 ∈ fulls.map Prod.fst
  table : TableOf tgt.allowedips tgt.peerList tgt.key ips

namespace Restored

theorem keys (h : Restored pubkeyBucket dev tgt fulls ips) : tgt.peerList.map tgt.key = fulls.map Prod.fst := by
  rw [← h.peers, List.map_map]
  rfl

theorem key_inj (h : Restored pubkeyBucket dev tgt fulls ips) (hp : p ∈ tgt.peerList) :
    ∀ q ∈ tgt.peerList, tgt.key q = tgt.key p → q = p := fun q hq => h.configured.peers.distinct q hq p hp

theorem lookup_eq (h : Restored pubkeyBucket dev tgt fulls ips) (hp : p ∈ tgt.peerList) :
    tgt.lookup pubkeyBucket (tgt.key p) = some p := by
  cases hl : tgt.lookup pubkeyBucket (tgt.key p) with
  | none => exact absurd rfl (h.configured.peers.lookup_none hl p hp)
  | some q =>
    obtain ⟨hq, hkey⟩ := h.configured.peers.lookup_some hl
    rw [h.key_inj hp q hq hkey]

theorem getD_attrs (nest : PeerNest) :
    nest.attrs.allowedips.getD [] = (nest.allowedips.getD []).map fun ip => some (dumpedAllowedip ip) := by
  rw [PeerNest.attrs]
  cases nest.allowedips <;> rfl

theorem ipsOf_singleton (nest : PeerNest) : ipsOf [nest] = (nest.allowedips.getD []).map (Prod.mk nest.publicKey) :=
  List.append_nil _

theorem fullsOf_singleton (hfull : nest.full = some full) : fullsOf [nest] = [(nest.publicKey, full.config)] := by
  simp only [fullsOf, List.flatMap_cons, List.flatMap_nil, List.append_nil, hfull, Option.map_some, Option.toList_some]

theorem continued (h : Restored pubkeyBucket dev tgt fulls ips) (hfull : nest.full = none)
    (hlen : nest.publicKey.length = noisePublicKeyLen) (hseen : nest.publicKey ∈ fulls.map Prod.fst)
    (hd : DistinctIps (ips ++ ipsOf [nest])) :
    ∃ tgt', tgt.setPeer C pubkeyBucket nest.attrs = some (0, tgt') ∧ Restored pubkeyBucket dev tgt'
      fulls (ips ++ ipsOf [nest]) := by
  have hmem := hseen
  rw [← h.keys] at hmem
  obtain ⟨p, hp, hkey⟩ := List.mem_map.mp hmem
  have hl := h.lookup_eq hp
  rw [hkey] at hl
  have hconfigured : configuredPeer (tgt.peers p) nest.attrs none = tgt.peers p := by
    rw [configuredPeer, PeerNest.attrs, hfull]
    rfl
  rw [ipsOf_singleton, ← hkey] at hd ⊢
  obtain ⟨a, ks, ss, hout, htable⟩ := configurePeer_dumped h.table (h.key_inj hp) hp none (getD_attrs nest) hd
  rw [hconfigured, update_eq_self] at hout
  have hset := (setPeer_continued (C := C) hlen hfull hl).trans hout
  obtain ⟨ret, tgt', hout', hc⟩ := h.configured.setPeer (C := C) nest.attrs
  rw [hset] at hout'
  cases hout'
  refine ⟨_, hset, hc, h.incomingPort, h.fwmark, h.identity, h.peers, fun x hx => ?_, htable⟩
  rcases List.mem_append.mp hx with hx | hx
  · exact h.owners x hx
  · obtain ⟨ip, -, rfl⟩ := List.mem_map.mp hx
    rw [hkey]
    exact hseen

theorem config_new (hfull : nest.full = some full) (hend : ∀ addr ∈ full.endpoint, IsSockaddr addr)
    (identity : NoiseStaticIdentity) :
    let peer := configuredPeer (.new (noiseHandshakeInit C identity nest.publicKey full.presharedKey)) nest.attrs
      (some full.presharedKey)
    peer.handshake.remoteStatic = nest.publicKey ∧ peer.handshake.presharedKey = full.presharedKey ∧
      peer.persistentKeepaliveInterval = full.persistentKeepaliveInterval ∧ peer.endpoint = full.endpoint := by
  have hattrs : nest.attrs.endpoint = full.endpoint := by
    rw [PeerNest.attrs, hfull]
    rfl
  have hkeep : nest.attrs.persistentKeepaliveInterval = some full.persistentKeepaliveInterval := by
    rw [PeerNest.attrs, hfull]
    rfl
  dsimp only
  rw [configuredPeer, hattrs, hkeep]
  cases haddr : full.endpoint with
  | none => exact ⟨rfl, rfl, rfl, rfl⟩
  | some addr =>
    rw [ConfigPeer.setEndpoint_of_isSockaddr _ (hend addr haddr)]
    exact ⟨rfl, rfl, rfl, rfl⟩

theorem added (h : Restored pubkeyBucket dev tgt fulls ips) (peer : ConfigPeer) {k : Bytes}
    (hk : peer.handshake.remoteStatic = k)
    (hnew : k ∉ fulls.map Prod.fst) :
    (tgt.addPeer pubkeyBucket peer).key tgt.created = k ∧
    (∀ q ∈ (tgt.addPeer pubkeyBucket peer).peerList,
      (tgt.addPeer pubkeyBucket peer).key q = (tgt.addPeer pubkeyBucket peer).key tgt.created → q = tgt.created) ∧
    TableOf (tgt.addPeer pubkeyBucket peer).allowedips (tgt.addPeer pubkeyBucket peer).peerList
      (tgt.addPeer pubkeyBucket peer).key ips := by
  have hold : ∀ q ∈ tgt.peerList, (tgt.addPeer pubkeyBucket peer).key q = tgt.key q := by
    intro q hq
    rw [key_addPeer, if_neg (Nat.ne_of_lt (h.configured.peers.created q hq))]
  have hself : (tgt.addPeer pubkeyBucket peer).key tgt.created = k := by
    rw [key_addPeer, if_pos rfl, hk]
  refine ⟨hself, fun q hq he => ?_, h.table.cons hold fun x hx he => ?_⟩
  · rcases List.mem_append.mp hq with hq | hq
    · rw [hself, hold q hq] at he
      exact absurd (h.keys ▸ he ▸ List.mem_map_of_mem hq) hnew
    · exact List.mem_singleton.mp hq
  · rw [hself] at he
    exact hnew (he ▸ h.owners x hx)

theorem lookup_new (h : Restored pubkeyBucket dev tgt fulls ips) {key : Bytes} (hnew : key ∉ fulls.map Prod.fst) :
    tgt.lookup pubkeyBucket key = none := by
  cases hl : tgt.lookup pubkeyBucket key with
  | none => rfl
  | some q =>
    obtain ⟨hq, hkey⟩ := h.configured.peers.lookup_some hl
    rw [← h.keys, ← hkey] at hnew
    exact absurd (List.mem_map_of_mem hq) hnew

theorem begun (h : Restored pubkeyBucket dev tgt fulls ips) (hfull : nest.full = some full)
    (hlen : nest.publicKey.length = noisePublicKeyLen) (hpsk : full.presharedKey.length = noiseSymmetricKeyLen)
    (hversion : full.protocolVersion = 1) (hend : ∀ addr ∈ full.endpoint, IsSockaddr addr)
    (hnew : nest.publicKey ∉ fulls.map Prod.fst)
    (hself : ¬ (tgt.identity.hasIdentity ∧ nest.publicKey = tgt.identity.staticPublic))
    (hmax : fulls.length < maxPeersPerDevice) (hd : DistinctIps (ips ++ ipsOf [nest])) :
    ∃ tgt', tgt.setPeer C pubkeyBucket nest.attrs = some (0, tgt') ∧
      Restored pubkeyBucket dev tgt' (fulls ++ fullsOf [nest]) (ips ++ ipsOf [nest]) := by
  have hnum : tgt.numPeers < maxPeersPerDevice := by
    rw [h.configured.peers.num, Nat.add_zero, ← List.length_map (f := tgt.peerConfig), h.peers]
    exact hmax
  have hset := setPeer_begun (C := C) hlen hfull hpsk hversion (h.lookup_new hnew) hself hnum
  obtain ⟨ret, tgt', hout', hc⟩ := h.configured.setPeer (C := C) nest.attrs
  obtain ⟨hstatic, hshared, hinterval, haddr⟩ := config_new (C := C) hfull hend tgt.identity
  have hinit : (ConfigPeer.new (noiseHandshakeInit C tgt.identity nest.publicKey
    full.presharedKey)).handshake.remoteStatic =
    nest.publicKey := rfl
  obtain ⟨hkey, hinj, htable⟩ := h.added _ hinit hnew
  generalize ConfigPeer.new (noiseHandshakeInit C tgt.identity nest.publicKey full.presharedKey) = peer at *
  rw [ipsOf_singleton, ← hkey] at hd
  obtain ⟨a, ks, ss, hout, htable'⟩ := configurePeer_dumped htable hinj
    (List.mem_append_right _ (List.mem_singleton_self _))
    (some full.presharedKey) (getD_attrs nest) hd
  have hset' := hset.trans hout
  rw [hset'] at hout'
  cases hout'
  -- the new device has the new peer, and the others as they were
  have hpeers : ∀ q, update (tgt.addPeer pubkeyBucket peer).peers tgt.created (configuredPeer
      ((tgt.addPeer pubkeyBucket peer).peers tgt.created) nest.attrs (some full.presharedKey)) q =
      if q = tgt.created then configuredPeer peer nest.attrs (some full.presharedKey) else tgt.peers q := by
    intro q
    simp only [addPeer, update_self, update_idem]
    exact update_apply ..
  generalize update (tgt.addPeer pubkeyBucket peer).peers tgt.created (configuredPeer
    ((tgt.addPeer pubkeyBucket peer).peers tgt.created) nest.attrs (some full.presharedKey)) = peers at *
  have hkeys : ((tgt.addPeer pubkeyBucket peer).withPeers peers a ks ss).key = (tgt.addPeer pubkeyBucket peer).key := by
    funext q
    rw [key_addPeer]
    simp only [key, withPeers, hpeers]
    split
    · rw [hstatic, hinit]
    · rfl
  rw [hkey] at htable'
  refine ⟨_, hset', hc, h.incomingPort, h.fwmark, h.identity, ?_, fun x hx => ?_, ?_⟩
  · rw [fullsOf_singleton hfull, ← h.peers]
    show (tgt.peerList ++ [tgt.created]).map _ = _
    rw [List.map_append]
    congr 1
    · refine List.map_congr_left fun q hq => ?_
      simp only [peerConfig, key, withPeers, hpeers, if_neg (Nat.ne_of_lt (h.configured.peers.created q hq))]
    · simp only [List.map_cons, List.map_nil, peerConfig, key, withPeers, hpeers, if_pos, hstatic,
        hshared, hinterval, haddr,
        FullAttrs.config, hversion]
  · rw [fullsOf_singleton hfull, List.map_append]
    rcases List.mem_append.mp hx with hx | hx
    · exact List.mem_append_left _ (h.owners x hx)
    · rw [ipsOf_singleton] at hx
      obtain ⟨ip, -, rfl⟩ := List.mem_map.mp hx
      exact List.mem_append_right _ (List.mem_singleton_self _)
  · rw [hkeys, ipsOf_singleton]
    exact htable'

variable {post : List (Bytes × Bytes × UInt16 × U32 × Option Bytes)}

theorem setPeer (hc : Configured pubkeyBucket dev) (ht : Tidy dev) (h : Restored pubkeyBucket dev tgt fulls ips)
    (hfulls : dev.peerList.map dev.peerConfig = fulls ++ fullsOf [nest] ++ post)
    (hd : DistinctIps (ips ++ ipsOf [nest]))
    (hseen : nest.full = none → nest.publicKey ∈ fulls.map Prod.fst) :
    ∃ tgt', tgt.setPeer C pubkeyBucket nest.attrs = some (0, tgt') ∧
      Restored pubkeyBucket dev tgt' (fulls ++ fullsOf [nest]) (ips ++ ipsOf [nest]) := by
  have hkeys : dev.peerList.map dev.key = (fulls ++ fullsOf [nest] ++ post).map Prod.fst := by
    rw [← hfulls, List.map_map]
    rfl
  cases hfull : nest.full with
  | none =>
    have hin := hseen hfull
    have hnone : fullsOf [nest] = [] := by
      simp only [fullsOf, List.flatMap_cons, List.flatMap_nil, List.append_nil, hfull,
        Option.map_none, Option.toList_none]
    rw [hnone, List.append_nil] at hkeys ⊢
    obtain ⟨p₀, -, hp₀⟩ : ∃ p ∈ dev.peerList, dev.key p = nest.publicKey := by
      refine List.mem_map.mp ?_
      rw [hkeys, List.map_append]
      exact List.mem_append_left _ hin
    exact h.continued hfull (hp₀ ▸ (ht.shaped p₀).key) hin hd
  | some full =>
    rw [fullsOf_singleton hfull] at hfulls hkeys
    obtain ⟨p₀, hp₀, heq⟩ : ∃ p ∈ dev.peerList, dev.peerConfig p = (nest.publicKey, full.config) := by
      refine List.mem_map.mp ?_
      rw [hfulls]
      exact List.mem_append_left _ (List.mem_append_right _ (List.mem_singleton_self _))
    simp only [peerConfig, FullAttrs.config, Prod.mk.injEq] at heq
    obtain ⟨hkey, hpsk, -, hversion, hend⟩ := heq
    have hshaped := ht.shaped p₀
    have hnodup : ((fulls ++ [(nest.publicKey, full.config)] ++ post).map Prod.fst).Nodup := by
      rw [← hkeys]
      exact (List.nodup_map_iff_inj_on hc.peers.nodup).mpr fun p hp q hq => hc.peers.distinct p hp q hq
    have hlen : fulls.length < dev.peerList.length := by
      rw [← List.length_map (f := dev.peerConfig), hfulls]
      simp only [List.length_append, List.length_singleton]
      omega
    refine h.begun hfull (hkey ▸ hshaped.key) (hpsk ▸ hshaped.presharedKey) hversion.symm
      (hend ▸ hshaped.endpoint) ?_ ?_ ?_ hd
    · rw [List.map_append, List.map_append] at hnodup
      intro hin
      exact (List.disjoint_of_nodup_append hnodup.of_append_left) hin (List.mem_singleton_self _)
    · rintro ⟨hid, hpub⟩
      rcases h.identity with hsame | ⟨hno, -⟩
      · rw [hsame] at hid hpub
        exact hc.self hid p₀ hp₀ (hkey.trans hpub)
      · rw [hno] at hid
        cases hid
    · have hnum := hc.peers.num
      have hmax := hc.peers.max
      omega

theorem forEachNested (hc : Configured pubkeyBucket dev) (ht : Tidy dev) (h : Restored pubkeyBucket dev tgt fulls ips)
    (nests : List PeerNest) {seen : List Bytes} (hfulls : dev.peerList.map dev.peerConfig = fulls ++
      fullsOf nests ++ post)
    (hd : DistinctIps (ips ++ ipsOf nests)) (hbegun : Begun seen nests) (hseen : ∀ k ∈ seen, k ∈ fulls.map Prod.fst) :
    ∃ tgt', tgt.forEachNested (fun dev attrs => dev.setPeer C pubkeyBucket attrs)
      (nests.map fun nest => some nest.attrs) =
        some (0, tgt') ∧ Restored pubkeyBucket dev tgt' (fulls ++ fullsOf nests) (ips ++ ipsOf nests) ∧
      ∀ nest ∈ nests, nest.publicKey ∈ (fulls ++ fullsOf nests).map Prod.fst := by
  induction nests generalizing tgt fulls ips seen with
  | nil =>
    refine ⟨tgt, rfl, ?_, fun _ hmem => absurd hmem List.not_mem_nil⟩
    rw [show fullsOf [] = [] from rfl, show ipsOf [] = [] from rfl, List.append_nil, List.append_nil]
    exact h
  | cons nest nests ih =>
    have hfullsOf : fullsOf (nest :: nests) = fullsOf [nest] ++ fullsOf nests := fullsOf_append [nest] nests
    have hipsOf : ipsOf (nest :: nests) = ipsOf [nest] ++ ipsOf nests := ipsOf_append [nest] nests
    rw [hfullsOf, ← List.append_assoc] at hfulls ⊢
    rw [hipsOf, ← List.append_assoc] at hd ⊢
    have hfirst := fun hnone => hseen _ (hbegun.1 hnone)
    obtain ⟨tgt₁, hset, h₁⟩ := Restored.setPeer (C := C) hc ht h
      (by rw [hfulls, List.append_assoc (fulls ++ _)]) hd.of_append hfirst
    have hself : nest.publicKey ∈ (fulls ++ fullsOf [nest]).map Prod.fst := by
      rw [List.map_append]
      cases hfull : nest.full with
      | none => exact List.mem_append_left _ (hfirst hfull)
      | some full =>
        rw [fullsOf_singleton hfull]
        exact List.mem_append_right _ (List.mem_singleton_self _)
    have hseen' : ∀ k ∈ nest.publicKey :: seen, k ∈ (fulls ++ fullsOf [nest]).map Prod.fst := by
      intro k hk
      rcases List.mem_cons.mp hk with rfl | hk
      · exact hself
      · rw [List.map_append]
        exact List.mem_append_left _ (hseen k hk)
    obtain ⟨tgt', hrest, h', hall⟩ := ih h₁ hfulls hd hbegun.2 hseen'
    refine ⟨tgt', ?_, h', fun n hn => ?_⟩
    · rw [List.map_cons, ConfigDevice.forEachNested, hset]
      exact hrest
    · rcases List.mem_cons.mp hn with rfl | hn
      · rw [List.map_append]
        exact List.mem_append_left _ hself
      · exact hall n hn

end Restored

/-! ### One message -/

variable {msg : DumpMsg} {attrs : DeviceAttrs}
variable {msgs : List DumpMsg}

/-- A request that does not fail before it comes to the peers. -/
theorem wgSetDevice_eq (hflags : attrs.flags.getD 0 &&& ~~~wgdeviceFAll = 0) (hcapable : attrs.capable = true)
    {tgt₁ tgt₂ : ConfigDevice} (hport : (tgt.applyFwmark attrs).applyListenPort attrs = (0, tgt₁))
    (hreplace : tgt₁.applyReplacePeers attrs = some tgt₂) :
    tgt.wgSetDevice C pubkeyBucket attrs = (tgt₂.applyPrivateKey C pubkeyBucket attrs).forEachNested
      (fun dev attrs => dev.setPeer C pubkeyBucket attrs) (attrs.peers.getD []) := by
  unfold wgSetDevice
  rw [hflags, if_neg (fun h => h rfl), hcapable, if_neg (fun h => Bool.false_ne_true h.2), hport]
  dsimp only
  rw [if_neg (fun h => h rfl), hreplace]

theorem getD_peers (msg : DumpMsg) (flags : Option U32) :
    (msg.attrs flags).peers.getD [] = (msg.peers.getD []).map fun nest => some nest.attrs := by
  rw [DumpMsg.attrs]
  cases msg.peers <;> rfl

/-- A request with the attributes of the device. -/
structure Carries (dev : ConfigDevice) (attrs : DeviceAttrs) : Prop where
  listenPort : attrs.listenPort = some dev.incomingPort
  socketInit : attrs.socketInit = .ok dev.incomingPort
  fwmark : attrs.fwmark = some dev.fwmark
  privateKey : attrs.privateKey = if dev.identity.hasIdentity then some dev.identity.staticPrivate else none

theorem carries_attrs {call : DumpCall} (hinfo : msg.device = some (dev.deviceInfo call)) (flags : Option U32) :
    Carries dev (msg.attrs flags) := by
  refine ⟨?_, ?_, ?_, ?_⟩ <;> rw [DumpMsg.attrs, hinfo]
  · rfl
  · rfl
  · rfl
  · show (dev.deviceInfo call).keys.map Prod.fst = _
    rw [deviceInfo]
    cases dev.identity.hasIdentity <;> rfl

def bindPort (dev : ConfigDevice) (port : UInt16) : ConfigDevice := { dev with incomingPort := port }

theorem Carries.applyListenPort (h : Carries dev attrs) (tgt : ConfigDevice) :
    tgt.applyListenPort attrs = (0, tgt.bindPort dev.incomingPort) := by
  unfold ConfigDevice.applyListenPort setPort
  rw [h.listenPort, h.socketInit]
  dsimp only
  split
  case isTrue hsame =>
    rw [bindPort, ← hsame]
  split <;> rfl

theorem Carries.fwmark_eq (h : Carries dev attrs) (tgt : ConfigDevice) :
    (tgt.applyFwmark attrs).fwmark = dev.fwmark := by
  rw [applyFwmark, h.fwmark]
  rfl

theorem setPrivateKey_noPeers (hc : Configured pubkeyBucket tgt) (hempty : tgt.peerList = []) {k : Bytes}
    (hne : tgt.identity.staticPrivate ≠ k) :
    tgt.setPrivateKey C pubkeyBucket k = { tgt with identity := setStaticIdentityPrivateKey C tgt.identity k } := by
  have hself : tgt.removeSelf C pubkeyBucket k = tgt := by
    unfold removeSelf
    split
    · rfl
    case h_2 p hl =>
      obtain ⟨pub, -, hl⟩ := Option.bind_eq_some_iff.mp hl
      have hp := (hc.peers.lookup_some hl).1
      rw [hempty] at hp
      cases hp
  unfold setPrivateKey
  rw [if_neg hne]
  dsimp only
  rw [hself, hempty]
  rfl

theorem eq_of_isOf {i j : NoiseStaticIdentity} {k : Bytes} (hi : i.IsOf C k) (hj : j.IsOf C k)
    (hid : i.hasIdentity = true) :
    i = j := by
  obtain ⟨pub, hpub⟩ := Option.isSome_iff_exists.mp (hi.hasIdentity.symm.trans hid)
  have hpublic := (hi.staticPublic pub hpub).trans (hj.staticPublic pub hpub).symm
  have hprivate := hi.staticPrivate.trans hj.staticPrivate.symm
  have hhas := hi.hasIdentity.trans hj.hasIdentity.symm
  cases i
  cases j
  cases hpublic
  cases hprivate
  cases hhas
  rfl

/-- A target on which the key of the source can be set; if there is none, it has none either. -/
structure Restorable (dev tgt : ConfigDevice) : Prop where
  key : dev.identity.hasIdentity = true → tgt.identity.staticPrivate = dev.identity.staticPrivate →
    tgt.identity.hasIdentity = true
  noKey : dev.identity.hasIdentity = false → tgt.identity.hasIdentity = false

theorem Carries.applyPrivateKey (h : Carries dev attrs) (hC : PublicOfClamped C)
    (hdev : dev.IdentityOk C) (htgt : tgt.IdentityOk C)
    (hok : Restorable dev tgt) (hc : Configured pubkeyBucket tgt) (hempty : tgt.peerList = []) :
    ∃ identity, tgt.applyPrivateKey C pubkeyBucket attrs = { tgt with identity := identity } ∧
      (identity = dev.identity ∨ identity.hasIdentity = false ∧ dev.identity.hasIdentity = false) := by
  have hattr := h.privateKey
  cases hid : dev.identity.hasIdentity with
  | false =>
    rw [hid, if_neg Bool.false_ne_true] at hattr
    refine ⟨tgt.identity, ?_, .inr ⟨hok.noKey hid, rfl⟩⟩
    rw [ConfigDevice.applyPrivateKey, hattr]
    rfl
  | true =>
    rw [hid, if_pos rfl] at hattr
    obtain ⟨k, hlen, hclamp, -⟩ := hdev hid
    have hlen' : dev.identity.staticPrivate.length = noisePublicKeyLen := by
      rw [hclamp, curve25519ClampSecret, List.length_modify, List.length_modify]
      exact hlen
    have hdevOf := hdev.isOf hC hid
    rw [applyPrivateKey_eq hattr hlen']
    by_cases hsame : tgt.identity.staticPrivate = dev.identity.staticPrivate
    · refine ⟨tgt.identity, if_pos hsame, .inl ?_⟩
      have htgtOf := htgt.isOf hC (hok.key hid hsame)
      rw [hsame] at htgtOf
      exact (eq_of_isOf hdevOf htgtOf hid).symm
    · refine ⟨_, setPrivateKey_noPeers hc hempty hsame, .inl ?_⟩
      exact (eq_of_isOf hdevOf (isOf_setStaticIdentityPrivateKey C _ _) hid).symm

theorem foldl_field {β : Type} (g : ConfigDevice → β) (op : ConfigDevice → Nat → ConfigDevice)
    (hop : ∀ dev p, g (op dev p) = g dev)
    (l : List Nat) (dev : ConfigDevice) : g (l.foldl op dev) = g dev := by
  induction l generalizing dev with
  | nil => rfl
  | cons p l ih => exact (ih _).trans (hop dev p)

/-- What removing all peers leaves. -/
theorem wgPeerRemoveAll_fields (h : dev.wgPeerRemoveAll = some dev') :
    dev'.incomingPort = dev.incomingPort ∧ dev'.fwmark = dev.fwmark ∧ dev'.identity = dev.identity := by
  obtain ⟨a, -, rfl⟩ := Option.map_eq_some_iff.mp h
  refine ⟨?_, ?_, ?_⟩
  · exact (foldl_field incomingPort peerRemoveAfterDead (fun _ _ => rfl) _ _).trans
      (foldl_field incomingPort peerMakeDead (fun _ _ => rfl) _ _)
  · exact (foldl_field fwmark peerRemoveAfterDead (fun _ _ => rfl) _ _).trans
      (foldl_field fwmark peerMakeDead (fun _ _ => rfl) _ _)
  · exact (foldl_field identity peerRemoveAfterDead (fun _ _ => rfl) _ _).trans
      (foldl_field identity peerMakeDead (fun _ _ => rfl) _ _)

theorem Carries.first (h : Carries dev attrs) (hC : PublicOfClamped C) (hdev : dev.IdentityOk C)
    (htgt : tgt.IdentityOk C)
    (hok : Restorable dev tgt) (hc : Configured pubkeyBucket tgt) (ht : Tidy tgt)
    (hflags : attrs.flags = some wgdeviceFReplacePeers)
    (hcapable : attrs.capable = true) :
    ∃ tgt₁, Restored pubkeyBucket dev tgt₁ [] [] ∧ tgt.wgSetDevice C pubkeyBucket attrs =
      tgt₁.forEachNested (fun dev attrs => dev.setPeer C pubkeyBucket attrs) (attrs.peers.getD []) := by
  have hport := h.applyListenPort (tgt.applyFwmark attrs)
  have hmark := h.fwmark_eq tgt
  have hc₁ : Configured pubkeyBucket ((tgt.applyFwmark attrs).bindPort dev.incomingPort) :=
    hc.congr ⟨⟨rfl, rfl, rfl, rfl, fun _ => rfl⟩, rfl, id⟩
  have ht₁ : Tidy ((tgt.applyFwmark attrs).bindPort dev.incomingPort) := ht.congr rfl rfl rfl
  obtain ⟨tgt₂, hall, hpeers₂, hempty⟩ := hc₁.peers.wgPeerRemoveAll
  obtain ⟨hport₂, hmark₂, hid₂⟩ := wgPeerRemoveAll_fields hall
  have hid₂ : tgt₂.identity = tgt.identity := hid₂
  have hc₂ : Configured pubkeyBucket tgt₂ := by
    refine ⟨hpeers₂, fun _ p hp => ?_⟩
    rw [hempty] at hp
    cases hp
  have hreplace : ((tgt.applyFwmark attrs).bindPort dev.incomingPort).applyReplacePeers attrs = some tgt₂ := by
    rw [applyReplacePeers, hflags]
    exact hall
  have htgt₂ : tgt₂.IdentityOk C := by
    rw [IdentityOk, hid₂]
    exact htgt
  have hok₂ : Restorable dev tgt₂ := ⟨hid₂ ▸ hok.key, hid₂ ▸ hok.noKey⟩
  obtain ⟨identity, hkey, hident⟩ := h.applyPrivateKey hC hdev htgt₂ hok₂ hc₂ hempty
  have hc₃ : Configured pubkeyBucket { tgt₂ with identity := identity } := by
    rw [← hkey]
    exact hc₂.applyPrivateKey attrs
  have hflags' : attrs.flags.getD 0 &&& ~~~wgdeviceFAll = 0 := by
    rw [hflags]
    decide
  refine ⟨_, ⟨hc₃, hport₂, hmark₂.trans hmark, hident, ?_, fun x hx => absurd hx List.not_mem_nil, ?_⟩, ?_⟩
  · show tgt₂.peerList.map _ = []
    rw [hempty]
    rfl
  · obtain ⟨T, l, hagrees, howned⟩ := (ht₁.wgPeerRemoveAll hall).owned
    refine ⟨T, l, hagrees, fun f x c q => ⟨fun hq => ?_, ?_⟩⟩
    · have hin := howned f x c q hq
      rw [hempty] at hin
      cases hin
    · rintro ⟨-, ip, -, -, hin⟩
      cases hin
  · rw [wgSetDevice_eq hflags' hcapable hport hreplace, hkey]

namespace Restored

/-- A request without flags whose port, mark and key are there. -/
theorem unflagged (h : Restored pubkeyBucket dev tgt fulls ips) (hflags : attrs.flags = none)
    (hcapable : attrs.capable = true)
    (hmark : (tgt.applyFwmark attrs).fwmark = dev.fwmark)
    (hport : (tgt.applyFwmark attrs).applyListenPort attrs = (0, tgt.applyFwmark attrs))
    (hkey : (tgt.applyFwmark attrs).applyPrivateKey C pubkeyBucket attrs = tgt.applyFwmark attrs) :
    ∃ tgt₁, Restored pubkeyBucket dev tgt₁ fulls ips ∧ tgt.wgSetDevice C pubkeyBucket attrs =
      tgt₁.forEachNested (fun dev attrs => dev.setPeer C pubkeyBucket attrs) (attrs.peers.getD []) := by
  have hreplace : (tgt.applyFwmark attrs).applyReplacePeers attrs = some (tgt.applyFwmark attrs) := by
    rw [applyReplacePeers, hflags]
    rfl
  have hflags' : attrs.flags.getD 0 &&& ~~~wgdeviceFAll = 0 := by
    rw [hflags]
    decide
  refine ⟨tgt.applyFwmark attrs, ⟨?_, h.incomingPort, hmark, h.identity, h.peers, h.owners, h.table⟩, ?_⟩
  · exact h.configured.congr ⟨⟨rfl, rfl, rfl, rfl, fun _ => rfl⟩, rfl, id⟩
  · rw [wgSetDevice_eq hflags' hcapable hport hreplace, hkey]

theorem carried (h : Restored pubkeyBucket dev tgt fulls ips) (ha : Carries dev attrs) (hflags : attrs.flags = none)
    (hcapable : attrs.capable = true) :
    ∃ tgt₁, Restored pubkeyBucket dev tgt₁ fulls ips ∧ tgt.wgSetDevice C pubkeyBucket attrs =
      tgt₁.forEachNested (fun dev attrs => dev.setPeer C pubkeyBucket attrs) (attrs.peers.getD []) := by
  refine h.unflagged hflags hcapable (ha.fwmark_eq tgt) ?_ ?_
  · rw [ha.applyListenPort, bindPort, ← h.incomingPort]
    rfl
  · unfold applyPrivateKey
    rw [ha.privateKey]
    split
    · rfl
    case h_2 k hk =>
    obtain ⟨hk, -⟩ := Option.filter_eq_some_iff.mp hk
    obtain ⟨hid, ⟨⟩⟩ := Option.ite_none_right_eq_some.mp hk
    rcases h.identity with hsame | ⟨-, hno⟩
    · exact if_pos (congrArg NoiseStaticIdentity.staticPrivate hsame)
    · rw [hid] at hno
      cases hno

theorem message (h : Restored pubkeyBucket dev tgt fulls ips) (hinfo : ∀ info ∈ msg.device, ∃ call,
    info = dev.deviceInfo call) :
    ∃ tgt₁, Restored pubkeyBucket dev tgt₁ fulls ips ∧ tgt.wgSetDevice C pubkeyBucket (msg.attrs none) =
      tgt₁.forEachNested (fun dev attrs => dev.setPeer C pubkeyBucket attrs) ((msg.attrs none).peers.getD []) := by
  cases hdevice : msg.device with
  | some info =>
    obtain ⟨call, rfl⟩ := hinfo info hdevice
    exact h.carried (carries_attrs hdevice none) rfl rfl
  | none =>
    have hnone : (msg.attrs none).fwmark = none ∧ (msg.attrs none).listenPort = none ∧
      (msg.attrs none).privateKey = none := by
      rw [DumpMsg.attrs, hdevice]
      exact ⟨rfl, rfl, rfl⟩
    refine h.unflagged rfl rfl ?_ ?_ ?_
    · rw [applyFwmark, hnone.1]
      exact h.fwmark
    · rw [applyListenPort, hnone.2.1]
    · rw [applyPrivateKey, hnone.2.2]
      rfl

theorem finish (hc : Configured pubkeyBucket dev) (ht : Tidy dev) {tgt₁ : ConfigDevice}
    (h₁ : Restored pubkeyBucket dev tgt₁ fulls ips) {flags : Option U32}
    (hset : tgt.wgSetDevice C pubkeyBucket (msg.attrs flags) =
      tgt₁.forEachNested (fun dev attrs => dev.setPeer C pubkeyBucket attrs) ((msg.attrs flags).peers.getD []))
    {seen : List Bytes}
    (hfulls : dev.peerList.map dev.peerConfig = fulls ++ fullsOf (nestsOf (msg :: msgs)))
    (hd : DistinctIps (ips ++ ipsOf (nestsOf (msg :: msgs)))) (hbegun : Begun seen (nestsOf (msg :: msgs)))
    (hseen : ∀ k ∈ seen, k ∈ fulls.map Prod.fst) :
    ∃ tgt' seen', tgt.wgSetDevice C pubkeyBucket (msg.attrs flags) = some (0, tgt') ∧
      Restored pubkeyBucket dev tgt' (fulls ++ fullsOf (msg.peers.getD [])) (ips ++ ipsOf (msg.peers.getD [])) ∧
      Begun seen' (nestsOf msgs) ∧ ∀ k ∈ seen', k ∈ (fulls ++ fullsOf (msg.peers.getD [])).map Prod.fst := by
  rw [nestsOf_cons] at hfulls hd hbegun
  rw [fullsOf_append, ← List.append_assoc] at hfulls
  rw [ipsOf_append, ← List.append_assoc] at hd
  obtain ⟨hfirst, hrest⟩ := hbegun.split
  rw [getD_peers] at hset
  obtain ⟨tgt', hout, h', hall⟩ := Restored.forEachNested (C := C) hc ht h₁ _ hfulls hd.of_append hfirst hseen
  refine ⟨tgt', _, hset.trans hout, h', hrest, fun k hk => ?_⟩
  rcases List.mem_append.mp hk with hk | hk
  · obtain ⟨nest, hnest, rfl⟩ := List.mem_map.mp hk
    exact hall nest hnest
  · rw [List.map_append]
    exact List.mem_append_left _ (hseen k hk)

theorem messages (hc : Configured pubkeyBucket dev) (ht : Tidy dev) (h : Restored pubkeyBucket dev tgt fulls ips)
    (msgs : List DumpMsg) (hinfo : ∀ msg ∈ msgs, ∀ info ∈ msg.device, ∃ call,
      info = dev.deviceInfo call) {seen : List Bytes}
    (hfulls : dev.peerList.map dev.peerConfig = fulls ++ fullsOf (nestsOf msgs))
    (hd : DistinctIps (ips ++ ipsOf (nestsOf msgs)))
    (hbegun : Begun seen (nestsOf msgs)) (hseen : ∀ k ∈ seen, k ∈ fulls.map Prod.fst) :
    ∃ tgt', tgt.requests C pubkeyBucket (msgs.map fun msg => msg.attrs none) = some
      (List.replicate msgs.length 0, tgt') ∧
      Restored pubkeyBucket dev tgt' (fulls ++ fullsOf (nestsOf msgs)) (ips ++ ipsOf (nestsOf msgs)) := by
  induction msgs generalizing tgt fulls ips seen with
  | nil =>
    refine ⟨tgt, rfl, ?_⟩
    rw [show fullsOf (nestsOf []) = [] from rfl, show ipsOf (nestsOf []) = [] from rfl,
      List.append_nil, List.append_nil]
    exact h
  | cons msg msgs ih =>
    obtain ⟨tgt₁, h₁, hset⟩ := h.message (C := C) (hinfo msg List.mem_cons_self)
    obtain ⟨tgt₂, seen', hout, h₂, hbegun', hseen'⟩ := h₁.finish hc ht hset hfulls hd hbegun hseen
    rw [nestsOf_cons, fullsOf_append, ← List.append_assoc] at hfulls ⊢
    rw [nestsOf_cons, ipsOf_append, ← List.append_assoc] at hd
    obtain ⟨tgt', hrest, h'⟩ := ih h₂ (fun m hm => hinfo m (List.mem_cons_of_mem _ hm)) hfulls hd hbegun' hseen'
    refine ⟨tgt', ?_, ?_⟩
    · rw [List.map_cons, requests, hout]
      dsimp only
      rw [hrest]
      rfl
    · rw [ipsOf_append, ← List.append_assoc]
      exact h'

end Restored

/-! ### Whole dumps -/

/-- Two tables of the same allowed IPs, for peers with the same keys. -/
theorem map_key_of_lists {peers peers' : List Nat} {key key' : Nat → Bytes} (hkeys : peers.map key = peers'.map key')
    {T T' : PrefixTable Family Nat} (hT : Lists T peers key ips) (hT' : Lists T' peers' key' ips)
    (f : Family) (x c : Nat) :
    (T f x c).map key = (T' f x c).map key' := by
  have hmem : ∀ {T : PrefixTable Family Nat} {peers : List Nat} {key : Nat → Bytes}, Lists T peers key ips → ∀ k,
      (T f x c).map key = some k ↔ k ∈ peers.map key ∧ ∃ ip, ip.length = f.bits / 8 ∧ beNat ip = x ∧
        (k, f, ip, c) ∈ ips := by
    intro T peers key hT k
    rw [Option.map_eq_some_iff, List.mem_map]
    constructor
    · rintro ⟨q, hq, rfl⟩
      obtain ⟨hin, hip⟩ := (hT f x c q).mp hq
      exact ⟨⟨q, hin, rfl⟩, hip⟩
    · rintro ⟨⟨q, hin, rfl⟩, hip⟩
      exact ⟨q, (hT f x c q).mpr ⟨hin, hip⟩, rfl⟩
  refine Option.ext fun k => ?_
  rw [hmem hT k, hmem hT' k, hkeys]

/-- The allowed IPs of a device make its table. -/
theorem tableOf_allIps (hc : Configured pubkeyBucket dev) (ht : Tidy dev) (hl : ListsOk dev) :
    TableOf dev.allowedips dev.peerList dev.key dev.allIps := by
  obtain ⟨T, l, hagrees, howned⟩ := ht.owned
  obtain ⟨L, hi, hT⟩ := hagrees.trie
  refine ⟨T, l, hagrees, fun f x c q => ?_⟩
  constructor
  · intro hq
    obtain ⟨node, hnode, hfam, hmask, hcidr, hval⟩ := (hT f x c q).mp hq
    dsimp only at hfam hmask
    obtain ⟨ip, hread, hlen, hnum⟩ := Allowedips.readNode_spec hi hl.sized hnode
    rw [hfam] at hlen
    have hx : beNat ip = x := hnum.trans hmask
    refine ⟨howned f x c q hq, ip, hlen, hx, (mem_allIps hl hi hT).mpr ⟨q, howned f x c q hq, rfl, hlen, ?_⟩⟩
    rw [hx]
    exact hq
  · rintro ⟨hq, ip, hlen, rfl, hin⟩
    obtain ⟨p, hp, hkey, -, hval⟩ := (mem_allIps hl hi hT).mp hin
    rw [← hc.peers.distinct p hp q hq hkey]
    exact hval

theorem distinctIps_allIps (ht : Tidy dev) (hl : ListsOk dev) : DistinctIps dev.allIps := by
  obtain ⟨T, l, hagrees, -⟩ := ht.owned
  obtain ⟨L, hi, hT⟩ := hagrees.trie
  refine ⟨fun x hx => ?_, ?_⟩
  · obtain ⟨p, -, hx⟩ := List.mem_flatMap.mp hx
    obtain ⟨node, hnode, rfl⟩ := List.mem_map.mp hx
    have hmasked := Allowedips.masked_readNode hi hl.sized ((hi.list p node).mp hnode).1 p
    exact ⟨hmasked.length, hmasked.cidr, hmasked.mask⟩
  · rintro ⟨k, f, ip, c⟩ hx ⟨k', f', ip', c'⟩ hy heq
    cases heq
    obtain ⟨p, -, rfl, -, hp⟩ := (mem_allIps hl hi hT).mp hx
    obtain ⟨q, -, rfl, -, hq⟩ := (mem_allIps hl hi hT).mp hy
    rw [hp] at hq
    rw [Option.some.inj hq]

/-- The peers of two devices with the same allowed IPs. -/
theorem perm_peerEntries (hl : ListsOk dev) (hl' : ListsOk dev') (h : TableOf dev.allowedips dev.peerList dev.key ips)
    (h' : TableOf dev'.allowedips dev'.peerList dev'.key ips) {p' : Nat} (hp : p ∈ dev.peerList)
    (hp' : p' ∈ dev'.peerList)
    (hkey : dev'.key p' = dev.key p) : (dev'.allowedips.peerEntries p').Perm (dev.allowedips.peerEntries p) := by
  obtain ⟨T, l, hagrees, hlists⟩ := h
  obtain ⟨T', l', hagrees', hlists'⟩ := h'
  obtain ⟨L, hi, hT⟩ := hagrees.trie
  obtain ⟨L', hi', hT'⟩ := hagrees'.trie
  refine (List.perm_ext_iff_of_nodup (Allowedips.nodup_peerEntries hi' hl'.sized p')
    (Allowedips.nodup_peerEntries hi hl.sized p)).mpr ?_
  rintro ⟨f, ip, c⟩
  rw [Allowedips.mem_peerEntries hi' hl'.sized hT', Allowedips.mem_peerEntries hi hl.sized hT, hlists, hlists', hkey]
  simp only [hp, hp', true_and]

theorem exec_of_requests {l : List DeviceAttrs} {rets : List Int}
    (h : tgt.requests C pubkeyBucket l = some (rets, dev')) :
    Exec (step C pubkeyBucket) (fun _ _ => True) tgt dev' := by
  induction l generalizing tgt rets with
  | nil =>
    cases h
    exact .refl _
  | cons attrs l ih =>
    unfold requests at h
    split at h
    · cases h
    case h_2 ret tgt₁ hset =>
    obtain ⟨out, hrest, heq⟩ := Option.map_eq_some_iff.mp h
    cases heq
    have hstep : tgt.step C pubkeyBucket (.request attrs) = some tgt₁ := by
      rw [step, hset]
      rfl
    exact ((Exec.refl tgt).tail trivial hstep).trans (ih hrest)

theorem exec_mono {ok : ConfigDevice → ConfigEvent → Prop} (h : Exec (step C pubkeyBucket) ok (new C) dev) :
    Exec (step C pubkeyBucket) (fun _ _ => True) (new C) dev :=
  h.inv (I := fun dev => Exec (step C pubkeyBucket) (fun _ _ => True) (new C) dev) (.refl _)
    fun _ _ _ _ h hs => h.tail trivial hs

theorem identityOk_of_exec {ok : ConfigDevice → ConfigEvent → Prop} (h : Exec (step C pubkeyBucket) ok (new C) dev) :
    dev.IdentityOk C := by
  refine h.inv (I := fun dev => dev.IdentityOk C) (fun hid => ?_) fun _ _ _ _ h hs => h.step hs
  cases hid

theorem left_start : Left dev .start dev.peerList := by
  refine ⟨.inl rfl, fun node hnode => ?_⟩
  cases hnode

theorem pending_start : Pending dev .start dev.peerList [] := by
  intro hsome
  cases hsome

/-- The first call of a dump puts the attributes of the device. -/
theorem dumpAll_head (hl : ListsOk dev) (hnodup : ∀ q, (dev.allowedips.list q).Nodup)
    {call : DumpCall} {calls : List DumpCall}
    (hfits : Fits dev call) {ret : Option Int} (h : dev.dumpAll (call :: calls) .start = some (msgs, ret)) :
    ∃ msg rest, msgs = msg :: rest ∧ msg.device = some (dev.deviceInfo call) := by
  obtain ⟨res, msg, hres, hmsg, -⟩ := wgGetDeviceDump_put hl hnodup (List.nil_append _).symm
    List.getLast?_nil.symm left_start hfits
  have hdevice := (wgGetDeviceDump_begun hl.nodup (List.nil_append _).symm List.getLast?_nil.symm
    pending_start hres hmsg).1
  rw [dumpAll, hres] at h
  dsimp only at h
  rw [hmsg] at h
  split at h
  · obtain ⟨out, -, heq⟩ := Option.map_eq_some_iff.mp h
    cases heq
    exact ⟨msg, _, rfl, hdevice⟩
  · cases h
    exact ⟨msg, [], rfl, hdevice⟩

/-- What the messages of a dump have. -/
structure Dumped (dev : ConfigDevice) (msgs : List DumpMsg) : Prop where
  fulls : fullsOf (nestsOf msgs) = dev.peerList.map dev.peerConfig
  ips : ipsOf (nestsOf msgs) = dev.allIps
  begun : Begun [] (nestsOf msgs)
  info : ∀ msg ∈ msgs, ∀ info ∈ msg.device, ∃ call, info = dev.deviceInfo call
  head : ∃ msg rest call, msgs = msg :: rest ∧ msg.device = some (dev.deviceInfo call)

theorem exists_dumped (hl : ListsOk dev) (hnodup : ∀ q, (dev.allowedips.list q).Nodup) (calls : Nat → DumpCall)
    (hfits : ∀ i, Fits dev (calls i)) :
    ∃ n msgs, dev.dumpAll ((List.range n).map calls) .start = some (msgs, some 0) ∧ Dumped dev msgs := by
  let n := (dev.fullsLeft .start dev.peerList).length + (dev.ipsLeft .start dev.peerList).length
  have hfits' : ∀ call ∈ (List.range (n + 1)).map calls, Fits dev call := by
    intro call hcall
    obtain ⟨i, -, rfl⟩ := List.mem_map.mp hcall
    exact hfits i
  have hlen : n < ((List.range (n + 1)).map calls).length := by
    rw [List.length_map, List.length_range]
    exact Nat.lt_succ_self n
  obtain ⟨msgs, hmsgs, hfulls, hips⟩ := dumpAll_put hl hnodup _ hfits' [] rfl rfl left_start hlen
  obtain ⟨hbegun, hinfo⟩ := dumpAll_begun hl (List.nil_append _).symm List.getLast?_nil.symm pending_start hmsgs
  have hfirst := hmsgs
  rw [List.range_succ_eq_map, List.map_cons] at hfirst
  obtain ⟨msg, rest, heq, hdevice⟩ := dumpAll_head hl hnodup (hfits 0) hfirst
  exact ⟨n + 1, msgs, hmsgs, hfulls.trans fullsLeft_none, hips.trans ipsLeft_none, hbegun, hinfo,
    msg, rest, calls 0, heq, hdevice⟩

theorem Dumped.restored (h : Dumped dev msgs) (hC : PublicOfClamped C) (hc : Configured pubkeyBucket dev)
    (ht : Tidy dev) (hl : ListsOk dev) (hdev : dev.IdentityOk C) (htgt : tgt.IdentityOk C) (hok : Restorable dev tgt)
    (hctgt : Configured pubkeyBucket tgt) (httgt : Tidy tgt) :
    ∃ tgt', tgt.requests C pubkeyBucket (restoring msgs) = some (List.replicate msgs.length 0, tgt') ∧
      Restored pubkeyBucket dev tgt' (dev.peerList.map dev.peerConfig) dev.allIps := by
  obtain ⟨msg, rest, call, rfl, hdevice⟩ := h.head
  have hfulls : dev.peerList.map dev.peerConfig = [] ++ fullsOf (nestsOf (msg :: rest)) := h.fulls.symm
  have hd : DistinctIps ([] ++ ipsOf (nestsOf (msg :: rest))) := by
    rw [List.nil_append, h.ips]
    exact distinctIps_allIps ht hl
  obtain ⟨tgt₁, h₁, hset⟩ := (carries_attrs hdevice (some wgdeviceFReplacePeers)).first hC hdev htgt
    hok hctgt httgt rfl rfl
  obtain ⟨tgt₂, seen, hout, h₂, hbegun, hseen⟩ := h₁.finish hc ht hset hfulls hd h.begun fun _ hk =>
    absurd hk List.not_mem_nil
  rw [nestsOf_cons, fullsOf_append, ← List.append_assoc] at hfulls
  rw [nestsOf_cons, ipsOf_append, ← List.append_assoc] at hd
  obtain ⟨tgt', hrest, h'⟩ := h₂.messages (C := C) hc ht rest
    (fun m hm => h.info m (List.mem_cons_of_mem _ hm)) hfulls hd hbegun hseen
  refine ⟨tgt', ?_, ?_⟩
  · rw [restoring, requests, hout]
    dsimp only
    rw [hrest]
    rfl
  · rw [← hfulls, List.nil_append, ← ipsOf_append, ← nestsOf_cons, h.ips] at h'
    exact h'

theorem Restored.deviceInfo (h : Restored pubkeyBucket dev tgt fulls ips) (call : DumpCall) :
    tgt.deviceInfo call = dev.deviceInfo call := by
  rw [ConfigDevice.deviceInfo, ConfigDevice.deviceInfo, h.incomingPort, h.fwmark]
  rcases h.identity with hsame | ⟨hno, hno'⟩
  · rw [hsame]
  · rw [hno, hno']
    rfl

/-- An address is routed to the peers with the same key. -/
theorem lookup_key (hkeys : dev'.peerList.map dev'.key = dev.peerList.map dev.key)
    (h : TableOf dev.allowedips dev.peerList dev.key ips)
    (h' : TableOf dev'.allowedips dev'.peerList dev'.key ips) {f : Family}
    {ip : Bytes} (hip : ip.length = f.bits / 8) (fuel : Nat) :
    (dev'.allowedips.lookup (fun _ => 1) f ip fuel).map (Option.map dev'.key) =
      (dev.allowedips.lookup (fun _ => 1) f ip fuel).map (Option.map dev.key) := by
  obtain ⟨T, l, hagrees, hlists⟩ := h
  obtain ⟨T', l', hagrees', hlists'⟩ := h'
  obtain ⟨L, hi, hT⟩ := hagrees.trie
  obtain ⟨L', hi', hT'⟩ := hagrees'.trie
  cases fuel with
  | zero => rfl
  | succ fuel =>
    have hlongest := PrefixTable.map_longest (w := Family.bits) (i := f)
      (fun x c => map_key_of_lists hkeys hlists' hlists f x c) (beNat ip)
    rw [hi.lookup_eq hT _ hip, hi'.lookup_eq hT' _ hip]
    cases hq : T.longest Family.bits f (beNat ip) <;> cases hq' : T'.longest Family.bits f (beNat ip) <;>
      rw [hq, hq'] at hlongest
    · rfl
    · cases hlongest
    · cases hlongest
    · simpa using hlongest

/-- A dump of a device, sent back to another one, gives the second the configuration of the first:
the port, the mark, the keys of the device, the peers in their order with their keys, intervals and
endpoints, and the allowed IPs of each of them; and each address is routed to the peer with the same
key. All requests succeed, whatever the sizes of the buffers were that have cut the dump into
messages. Both devices have got their endpoints from requests or as socket addresses from the
network, and the second one can take the identity of the first: it does not hold that private key
without an identity, and has no identity if the first has none. The requests are as `DumpMsg.attrs`
makes them: from a sender that is capable, with memory for every peer and node, and with sockets
that are bound to the port asked for. -/
theorem dump_restores (hC : PublicOfClamped C) (hdev : Exec (step C pubkeyBucket) EndpointsOk (new C) dev)
    (htgt : Exec (step C pubkeyBucket) EndpointsOk (new C) tgt) (hok : Restorable dev tgt) (calls : Nat → DumpCall)
    (hfits : ∀ i, Fits dev (calls i)) :
    ∃ n msgs tgt', dev.dumpAll ((List.range n).map calls) .start = some (msgs, some 0) ∧
      tgt.requests C pubkeyBucket (restoring msgs) = some (List.replicate msgs.length 0, tgt') ∧
      (∀ call, tgt'.deviceInfo call = dev.deviceInfo call) ∧
      tgt'.peerList.map tgt'.peerConfig = dev.peerList.map dev.peerConfig ∧
      (∀ p' ∈ tgt'.peerList, ∀ p ∈ dev.peerList, tgt'.key p' = dev.key p →
        (tgt'.allowedips.peerEntries p').Perm (dev.allowedips.peerEntries p)) ∧
      ∀ (f : Family) (ip : Bytes) (fuel : Nat), ip.length = f.bits / 8 →
        (tgt'.allowedips.lookup (fun _ => 1) f ip fuel).map (Option.map tgt'.key) =
          (dev.allowedips.lookup (fun _ => 1) f ip fuel).map (Option.map dev.key) := by
  obtain ⟨hc, ht⟩ := tidy_of_exec hdev
  obtain ⟨hctgt, httgt⟩ := tidy_of_exec htgt
  have hl := (listsOk_of_exec (exec_mono hdev)).2
  obtain ⟨T, l, hagrees, -⟩ := ht.owned
  obtain ⟨L, hi, -⟩ := hagrees.trie
  obtain ⟨n, msgs, hmsgs, hdumped⟩ := exists_dumped hl hi.nodup calls hfits
  obtain ⟨tgt', hreq, h⟩ :=
    hdumped.restored hC hc ht hl (identityOk_of_exec hdev) (identityOk_of_exec htgt) hok hctgt httgt
  have hl' := (listsOk_of_exec ((exec_mono htgt).trans (exec_of_requests hreq))).2
  have htable := tableOf_allIps hc ht hl
  have hkeys : tgt'.peerList.map tgt'.key = dev.peerList.map dev.key := by
    rw [h.keys, List.map_map]
    rfl
  refine ⟨n, msgs, tgt', hmsgs, hreq, h.deviceInfo, h.peers, fun p' hp' p hp hkey => ?_, fun f ip fuel hip => ?_⟩
  · exact perm_peerEntries hl hl' htable h.table hp hp' hkey
  · exact lookup_key hkeys htable h.table hip fuel

/-- Two peers, the first one with two allowed IPs and an endpoint. -/
def sampleSource : List ConfigEvent :=
  [.request (keyAttrs (sampleKey 9) (some [some (ipsPeer 0 [sampleIp 1 false, sampleIp 2 false]),
    some (peerAttrs (sampleKey 8) 0)])),
    .activity 0 .zeroed ⟨none, none, none⟩ (some ([2, 0] ++ List.replicate 14 1))]

/-- Another peer, which has one of the two allowed IPs. -/
def sampleTarget : List ConfigEvent :=
  [.request (keyAttrs (sampleKey 3)
    (some [some { ipsPeer 0 [sampleIp 2 false] with publicKey := some (sampleKey 5) }])),
    .link true]

theorem dump_restores_sample : ∃ dev tgt n msgs tgt',
    Exec (step clampingCrypto fun _ => 0) EndpointsOk (new clampingCrypto) dev ∧
    Exec (step clampingCrypto fun _ => 0) EndpointsOk (new clampingCrypto) tgt ∧
    dev.peerList.map dev.key = [sampleKey 7, sampleKey 8] ∧ tgt.peerList.map tgt.key = [sampleKey 5] ∧
    dev.dumpAll ((List.range n).map fun _ => sampleCall 350) .start = some (msgs, some 0) ∧
    tgt.requests clampingCrypto (fun _ => 0) (restoring msgs) = some (List.replicate msgs.length 0, tgt') ∧
    tgt'.peerList.map tgt'.peerConfig = dev.peerList.map dev.peerConfig := by
  have hdev : ∃ dev, Exec (step clampingCrypto fun _ => 0) EndpointsOk (new clampingCrypto) dev ∧
      (dev.peerList.map dev.key, decide (Fits dev (sampleCall 350)), dev.identity.hasIdentity,
        dev.identity.staticPrivate) =
        ([sampleKey 7, sampleKey 8], true, true, curve25519ClampSecret (sampleKey 9)) :=
    Exec.exists_of_foldlM sampleSource (fun dev : ConfigDevice => _) (by decide +kernel)
  have htgt : ∃ tgt, Exec (step clampingCrypto fun _ => 0) EndpointsOk (new clampingCrypto) tgt ∧
      (tgt.peerList.map tgt.key, tgt.identity.hasIdentity) = ([sampleKey 5], true) :=
    Exec.exists_of_foldlM sampleTarget (fun tgt : ConfigDevice => _) (by decide +kernel)
  obtain ⟨dev, hdev, hfields⟩ := hdev
  obtain ⟨tgt, htgt, hfields'⟩ := htgt
  simp only [Prod.mk.injEq] at hfields hfields'
  obtain ⟨hkeys, hfits, hid, -⟩ := hfields
  have hok : Restorable dev tgt := by
    refine ⟨fun _ _ => hfields'.2, fun hno => ?_⟩
    rw [hid] at hno
    cases hno
  obtain ⟨n, msgs, tgt', hmsgs, hreq, -, hpeers, -⟩ :=
    dump_restores publicOfClamped_clampingCrypto hdev htgt hok (fun _ => sampleCall 350) fun _ =>
      of_decide_eq_true hfits
  exact ⟨dev, tgt, n, msgs, tgt', hdev, htgt, hkeys, hfields'.1, hmsgs, hreq, hpeers⟩

end ConfigDevice
end WireguardAes
