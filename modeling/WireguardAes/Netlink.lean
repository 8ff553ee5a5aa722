import WireguardAes.AllowedipsRuns
import WireguardAes.IdentityChange
import WireguardAes.Newlink
import WireguardAes.Lib.HashChains

/-!
# Configuring a device (`netlink.c`, `peer.c`, `peerlookup.c`)

`wg_set_device` with all its attributes and exits, on a device with its peer list, the buckets of
its pubkey hashtable, the number of its peers, its identity and its allowed IPs. A request holds
`device_update_lock` from beginning to end; it is applied from front to back, and what it has done
before an error stays. Peers are numbered in the order of their creation (`internal_id`).

What a request makes of the sessions is kept to what the identity has to do with them: the
handshakes and the `is_valid` of the keypairs. The calls that send packets are recorded.
-/

namespace WireguardAes

open Function Runs

/-! ### Attributes -/

def eperm : Int := -1
def einval : Int := -22
def eopnotsupp : Int := -95
def epfnosupport : Int := -96

def afInet : UInt16 := 2
def afInet6 : UInt16 := 10

def wgdeviceFReplacePeers : U32 := 1
def wgdeviceFAll : U32 := wgdeviceFReplacePeers

def wgpeerFRemoveMe : U32 := 1
def wgpeerFReplaceAllowedips : U32 := 2
def wgpeerFUpdateOnly : U32 := 4
def wgpeerFAll : U32 := wgpeerFRemoveMe ||| wgpeerFReplaceAllowedips ||| wgpeerFUpdateOnly

def maxPeersPerDevice : Nat := 2 ^ 20

/-- With the outcome of the allocations of nodes. -/
structure AllowedipAttrs where
  family : Option UInt16
  ipaddr : Option Bytes
  cidrMask : Option UInt8
  fail₁ : Bool
  fail₂ : Bool

structure PeerAttrs where
  publicKey : Option Bytes
  presharedKey : Option Bytes
  flags : Option U32
  endpoint : Option Bytes
  persistentKeepaliveInterval : Option UInt16
  /-- The inner `none` is a failure of `nla_parse_nested`. -/
  allowedips : Option (List (Option AllowedipAttrs))
  protocolVersion : Option U32
  /-- An allocation of `wg_peer_create` fails. -/
  createFails : Bool

structure DeviceAttrs where
  privateKey : Option Bytes
  flags : Option U32
  listenPort : Option UInt16
  fwmark : Option U32
  peers : Option (List (Option PeerAttrs))
  /-- The answer of `ns_capable`. -/
  capable : Bool
  /-- What `wg_socket_init` returns, or the port that it has bound. -/
  socketInit : Except Int UInt16

/-! ### The device -/

structure ConfigPeer where
  handshake : NoiseHandshake
  /-- For each keypair, `sending.is_valid`. -/
  keypairs : NoiseKeypairs Bool
  /-- As it was given, or as it was learnt. -/
  endpoint : Option Bytes
  persistentKeepaliveInterval : UInt16
  isDead : Bool

namespace ConfigPeer

def new (handshake : NoiseHandshake) : ConfigPeer := ⟨handshake, ⟨none, none, none⟩, none, 0, false⟩

/-- `wg_noise_expire_current_peer_keypairs` -/
def expireCurrentPeerKeypairs (peer : ConfigPeer) : ConfigPeer :=
  { peer with
    handshake := handshakeZero peer.handshake
    keypairs := { peer.keypairs with
      nextKeypair := peer.keypairs.nextKeypair.map fun _ => false
      currentKeypair := peer.keypairs.currentKeypair.map fun _ => false } }

def precomputeStaticStatic (C : Crypto) (identity : NoiseStaticIdentity) (peer : ConfigPeer) : ConfigPeer :=
  { peer with handshake := { peer.handshake with
      precomputedStaticStatic := WireguardAes.precomputeStaticStatic C identity peer.handshake.remoteStatic } }

def setPresharedKey (peer : ConfigPeer) (presharedKey : Option Bytes) : ConfigPeer :=
  match presharedKey with
  | none => peer
  | some psk => { peer with handshake := { peer.handshake with presharedKey := psk } }

/-- A `struct sockaddr_in` or `struct sockaddr_in6`. -/
def setEndpoint (peer : ConfigPeer) (addr : Option Bytes) : ConfigPeer :=
  match addr with
  | none => peer
  | some addr =>
    let saFamily := (addr.getD 0 0).toUInt16 + (addr.getD 1 0).toUInt16 * 256
    if addr.length = 16 ∧ saFamily = afInet ∨ addr.length = 28 ∧ saFamily = afInet6
    then { peer with endpoint := some addr }
    else peer

theorem isDead_set (peer : ConfigPeer) (presharedKey addr : Option Bytes) :
    ((peer.setPresharedKey presharedKey).setEndpoint addr).isDead = peer.isDead := by
  rcases presharedKey with - | psk <;> rcases addr with - | addr <;> simp only [setPresharedKey, setEndpoint] <;>
    split <;> rfl

end ConfigPeer

/-- `DECLARE_HASHTABLE(hashtable, 11)` -/
abbrev PubkeyBucket := Fin (2 ^ 11)

structure ConfigDevice where
  identity : NoiseStaticIdentity
  incomingPort : UInt16
  fwmark : U32
  deviceUpdateGen : U32
  netifRunning : Bool
  peers : Nat → ConfigPeer
  /-- `peer_counter` -/
  created : Nat
  peerList : List Nat
  peerHashtable : HashChains Nat PubkeyBucket
  numPeers : Nat
  allowedips : Allowedips Nat
  /-- The peers for which `wg_packet_send_keepalive` was called. -/
  keepalives : List Nat
  /-- The peers for which `wg_packet_send_staged_packets` was called. -/
  stagedSends : List Nat

namespace ConfigDevice

variable (C : Crypto) (pubkeyBucket : Bytes → PubkeyBucket) (dev : ConfigDevice)

/-- A device as `wg_newlink` leaves it. -/
def new : ConfigDevice where
  identity := ⟨zeroPoint, zeroPoint, false⟩
  incomingPort := 0
  fwmark := 0
  deviceUpdateGen := 1
  netifRunning := false
  peers _ := .new (noiseHandshakeInit C ⟨zeroPoint, zeroPoint, false⟩ zeroPoint zeroPoint)
  created := 0
  peerList := []
  peerHashtable := .empty
  numPeers := 0
  allowedips := Allowedips.wgAllowedipsInit
  keepalives := []
  stagedSends := []

def key (p : Nat) : Bytes := (dev.peers p).handshake.remoteStatic

def modifyPeer (p : Nat) (f : ConfigPeer → ConfigPeer) : ConfigDevice :=
  { dev with peers := update dev.peers p (f (dev.peers p)) }

/-- `wg_pubkey_hashtable_lookup` -/
def lookup (pubkey : Bytes) : Option Nat :=
  (dev.peerHashtable.chain (pubkeyBucket pubkey)).find? fun p => dev.key p = pubkey

/-- The end of `wg_peer_create`. -/
def addPeer (peer : ConfigPeer) : ConfigDevice :=
  { dev with
    peers := update dev.peers dev.created peer
    created := dev.created + 1
    peerList := dev.peerList ++ [dev.created]
    peerHashtable := dev.peerHashtable.pushHead dev.created (pubkeyBucket peer.handshake.remoteStatic)
    numPeers := dev.numPeers + 1 }

def wgPeerCreate (publicKey : Bytes) (presharedKey : Option Bytes) (fails : Bool) :
    Option (Nat × ConfigDevice) :=
  if maxPeersPerDevice ≤ dev.numPeers then none
  else if fails then none
  else
    let peer := .new (noiseHandshakeInit C dev.identity publicKey (presharedKey.getD zeroPoint))
    some (dev.created, dev.addPeer pubkeyBucket peer)

def peerMakeDead (p : Nat) : ConfigDevice :=
  { dev.modifyPeer p ({ · with isDead := true }) with
    peerList := dev.peerList.erase p
    allowedips := dev.allowedips.wgAllowedipsRemoveByPeer p
    peerHashtable := dev.peerHashtable.unlink p }

def peerRemoveAfterDead (p : Nat) : ConfigDevice :=
  { dev.modifyPeer p ({ · with keypairs := ⟨none, none, none⟩ }) with numPeers := dev.numPeers - 1 }

def wgPeerRemove (p : Nat) : ConfigDevice := (dev.peerMakeDead p).peerRemoveAfterDead p

/-- `none` is a walk of `wg_allowedips_free` that leaves its stack. -/
def wgPeerRemoveAll : Option ConfigDevice :=
  dev.allowedips.wgAllowedipsFree.map fun allowedips =>
    let dead := dev.peerList.foldl peerMakeDead { dev with allowedips := allowedips }
    dev.peerList.foldl peerRemoveAfterDead dead

/-! ### Setting a peer -/

def retCode : Ret → Int
  | .ok => 0
  | .einval => einval
  | .enomem => enomem

def insertAllowedip (call : AllowedipsCall Nat) : Option (Int × ConfigDevice) :=
  (call.exec dev.allowedips).map fun (ret, allowedips) => (retCode ret, { dev with allowedips := allowedips })

def setAllowedip (p : Nat) (attrs : AllowedipAttrs) : Option (Int × ConfigDevice) :=
  match attrs.family, attrs.ipaddr, attrs.cidrMask with
  | some family, some ip, some cidr =>
    if h : family = afInet ∧ cidr ≤ 32 ∧ ip.length = 4 then
      dev.insertAllowedip (.insertV4 ⟨ip.toArray, h.2.2⟩ cidr (some p) attrs.fail₁ attrs.fail₂)
    else if h : family = afInet6 ∧ cidr ≤ 128 ∧ ip.length = 16 then
      dev.insertAllowedip (.insertV6 ⟨ip.toArray, h.2.2⟩ cidr (some p) attrs.fail₁ attrs.fail₂)
    else some (einval, dev)
  | _, _, _ => some (einval, dev)

/-- `nla_for_each_nested` with the two exits of its body. -/
def forEachNested {A : Type} (body : ConfigDevice → A → Option (Int × ConfigDevice)) :
    ConfigDevice → List (Option A) → Option (Int × ConfigDevice)
  | dev, [] => some (0, dev)
  | dev, none :: _ => some (einval, dev)
  | dev, some attrs :: rest =>
    match body dev attrs with
    | none => none
    | some (ret, dev) => if ret < 0 then some (ret, dev) else forEachNested body dev rest

def setPersistentKeepalive (p : Nat) (interval : Option UInt16) : ConfigDevice :=
  match interval with
  | none => dev
  | some interval =>
    let sendKeepalive := (dev.peers p).persistentKeepaliveInterval = 0 ∧ interval ≠ 0 ∧ dev.netifRunning
    let dev := dev.modifyPeer p ({ · with persistentKeepaliveInterval := interval })
    if sendKeepalive then { dev with keepalives := p :: dev.keepalives } else dev

/-- `set_peer` from where it has its peer. -/
def configurePeer (attrs : PeerAttrs) (presharedKey : Option Bytes) (flags : U32) (p : Nat) :
    Option (Int × ConfigDevice) :=
  if flags &&& wgpeerFRemoveMe ≠ 0 then some (0, dev.wgPeerRemove p)
  else
    let dev := dev.modifyPeer p fun peer => (peer.setPresharedKey presharedKey).setEndpoint attrs.endpoint
    let dev :=
      if flags &&& wgpeerFReplaceAllowedips ≠ 0 then
        { dev with allowedips := dev.allowedips.wgAllowedipsRemoveByPeer p }
      else dev
    match dev.forEachNested (fun dev attrs => dev.setAllowedip p attrs) (attrs.allowedips.getD []) with
    | none => none
    | some (ret, dev) =>
      if ret < 0 then some (ret, dev)
      else
        let dev := dev.setPersistentKeepalive p attrs.persistentKeepaliveInterval
        some (ret, if dev.netifRunning then { dev with stagedSends := p :: dev.stagedSends } else dev)

def setPeer (attrs : PeerAttrs) : Option (Int × ConfigDevice) :=
  match attrs.publicKey.filter (·.length = noisePublicKeyLen) with
  | none => some (einval, dev)
  | some publicKey =>
    let presharedKey := attrs.presharedKey.filter (·.length = noiseSymmetricKeyLen)
    let flags := attrs.flags.getD 0
    if flags &&& ~~~wgpeerFAll ≠ 0 then some (eopnotsupp, dev)
    else if attrs.protocolVersion.any (· ≠ 1) then some (epfnosupport, dev)
    else
      match dev.lookup pubkeyBucket publicKey with
      | some p => dev.configurePeer attrs presharedKey flags p
      | none =>
        if flags &&& (wgpeerFRemoveMe ||| wgpeerFUpdateOnly) ≠ 0 then some (0, dev)
        else if dev.identity.hasIdentity ∧ publicKey = dev.identity.staticPublic then some (0, dev)
        else
          match dev.wgPeerCreate C pubkeyBucket publicKey presharedKey attrs.createFails with
          | none => some (enomem, dev)
          | some (p, dev) => dev.configurePeer attrs presharedKey (flags &&& ~~~wgpeerFReplaceAllowedips) p

/-! ### Setting the device -/

def setPort (port : UInt16) (socketInit : Except Int UInt16) : Int × ConfigDevice :=
  if dev.incomingPort = port then (0, dev)
  else if !dev.netifRunning then (0, { dev with incomingPort := port })
  else
    match socketInit with
    | .error ret => (ret, dev)
    | .ok port => (0, { dev with incomingPort := port })

/-- The loop over the peers after the key has been set. -/
def rekeyPeer (sendStagedPackets : Bool) (dev : ConfigDevice) (p : Nat) : ConfigDevice :=
  let dev := dev.modifyPeer p fun peer => (peer.precomputeStaticStatic C dev.identity).expireCurrentPeerKeypairs
  if sendStagedPackets then { dev with stagedSends := p :: dev.stagedSends } else dev

def removeSelf (privateKey : Bytes) : ConfigDevice :=
  match (C.curve25519GeneratePublic privateKey).bind (dev.lookup pubkeyBucket) with
  | none => dev
  | some p => dev.wgPeerRemove p

def setPrivateKey (privateKey : Bytes) : ConfigDevice :=
  if dev.identity.staticPrivate = privateKey then dev
  else
    let dev := dev.removeSelf C pubkeyBucket privateKey
    let identity := setStaticIdentityPrivateKey C dev.identity privateKey
    let sendStagedPackets := !dev.identity.hasIdentity && dev.netifRunning && identity.hasIdentity
    dev.peerList.foldl (rekeyPeer C sendStagedPackets) { dev with identity := identity }

/-! The blocks of `wg_set_device` for the single attributes. -/

def applyFwmark (attrs : DeviceAttrs) : ConfigDevice :=
  { dev with deviceUpdateGen := dev.deviceUpdateGen + 1, fwmark := attrs.fwmark.getD dev.fwmark }

def applyListenPort (attrs : DeviceAttrs) : Int × ConfigDevice :=
  match attrs.listenPort with
  | none => (0, dev)
  | some port => dev.setPort port attrs.socketInit

def applyReplacePeers (attrs : DeviceAttrs) : Option ConfigDevice :=
  if attrs.flags.getD 0 &&& wgdeviceFReplacePeers ≠ 0 then dev.wgPeerRemoveAll else some dev

def applyPrivateKey (attrs : DeviceAttrs) : ConfigDevice :=
  match attrs.privateKey.filter (·.length = noisePublicKeyLen) with
  | none => dev
  | some privateKey => dev.setPrivateKey C pubkeyBucket privateKey

def wgSetDevice (attrs : DeviceAttrs) : Option (Int × ConfigDevice) :=
  if attrs.flags.getD 0 &&& ~~~wgdeviceFAll ≠ 0 then some (eopnotsupp, dev)
  else if (attrs.listenPort.isSome ∨ attrs.fwmark.isSome) ∧ !attrs.capable then some (eperm, dev)
  else
    let out := (dev.applyFwmark attrs).applyListenPort attrs
    if out.1 ≠ 0 then some out
    else
      match out.2.applyReplacePeers attrs with
      | none => none
      | some dev =>
        (dev.applyPrivateKey C pubkeyBucket attrs).forEachNested (fun dev attrs => dev.setPeer C pubkeyBucket attrs)
          (attrs.peers.getD [])

/-! ### Events -/

inductive ConfigEvent where
  | request (attrs : DeviceAttrs)
  /-- Handshakes and packets of a peer. -/
  | activity (p : Nat) (state : HandshakeState) (keypairs : NoiseKeypairs Bool) (endpoint : Option Bytes)
  /-- `wg_open` or `wg_stop` -/
  | link (netifRunning : Bool)

def step : ConfigEvent → Option ConfigDevice
  | .request attrs => (dev.wgSetDevice C pubkeyBucket attrs).map Prod.snd
  | .activity p state keypairs endpoint => some (dev.modifyPeer p fun peer =>
      { peer with handshake := { peer.handshake with state := state }, keypairs := keypairs, endpoint := endpoint })
  | .link netifRunning => some { dev with netifRunning := netifRunning }

/-! ### The list, the table and the count -/

section Invariant

variable {C pubkeyBucket} {dev dev' : ConfigDevice} {p dead : Nat} {k : Bytes}
variable {P : ConfigDevice → Prop}

/-- The peers as the list, the table and the count have them; `dead` of those counted have left the
list. -/
structure PeersOk (pubkeyBucket : Bytes → PubkeyBucket) (dev : ConfigDevice) (dead : Nat) : Prop where
  nodup : dev.peerList.Nodup
  table : dev.peerHashtable.WF
  home : ∀ p, dev.peerHashtable.home p = if p ∈ dev.peerList then some (pubkeyBucket (dev.key p)) else none
  num : dev.numPeers = dev.peerList.length + dead
  max : dev.numPeers ≤ maxPeersPerDevice
  distinct : ∀ p ∈ dev.peerList, ∀ q ∈ dev.peerList, dev.key p = dev.key q → p = q
  created : ∀ p ∈ dev.peerList, p < dev.created
  trie : ∃ T l, dev.allowedips.Agrees T l

/-- What a step that neither adds nor removes peers keeps. -/
structure SamePeers (dev dev' : ConfigDevice) : Prop where
  peerList : dev'.peerList = dev.peerList
  peerHashtable : dev'.peerHashtable = dev.peerHashtable
  numPeers : dev'.numPeers = dev.numPeers
  created : dev'.created = dev.created
  key : ∀ p, dev'.key p = dev.key p

theorem SamePeers.refl (dev : ConfigDevice) : dev.SamePeers dev := ⟨rfl, rfl, rfl, rfl, fun _ => rfl⟩

theorem SamePeers.trans {dev'' : ConfigDevice} (h : dev.SamePeers dev')
    (h' : dev'.SamePeers dev'') : dev.SamePeers dev'' :=
  ⟨h'.peerList.trans h.peerList, h'.peerHashtable.trans h.peerHashtable, h'.numPeers.trans h.numPeers,
    h'.created.trans h.created, fun p => (h'.key p).trans (h.key p)⟩

theorem key_modifyPeer (dev : ConfigDevice) (p : Nat) (f : ConfigPeer → ConfigPeer)
    (hf : ∀ peer : ConfigPeer, (f peer).handshake.remoteStatic = peer.handshake.remoteStatic) (q : Nat) :
    (dev.modifyPeer p f).key q = dev.key q := by
  unfold key modifyPeer
  by_cases hq : q = p
  · subst hq
    simp only [update_self, hf]
  · simp only [update_of_ne hq]

theorem key_peerMakeDead (dev : ConfigDevice) (p q : Nat) : (dev.peerMakeDead p).key q = dev.key q :=
  key_modifyPeer dev p ({ · with isDead := true }) (fun _ => rfl) q

theorem key_peerRemoveAfterDead (dev : ConfigDevice) (p q : Nat) : (dev.peerRemoveAfterDead p).key q = dev.key q :=
  key_modifyPeer dev p ({ · with keypairs := ⟨none, none, none⟩ }) (fun _ => rfl) q

theorem key_addPeer (dev : ConfigDevice) (peer : ConfigPeer) (q : Nat) :
    (dev.addPeer pubkeyBucket peer).key q = if q = dev.created then peer.handshake.remoteStatic else dev.key q := by
  simp only [key, addPeer, update_apply]
  split <;> rfl

theorem samePeers_modifyPeer (dev : ConfigDevice) (p : Nat) (f : ConfigPeer → ConfigPeer)
    (hf : ∀ peer : ConfigPeer, (f peer).handshake.remoteStatic = peer.handshake.remoteStatic) :
    dev.SamePeers (dev.modifyPeer p f) :=
  ⟨rfl, rfl, rfl, rfl, key_modifyPeer dev p f hf⟩

namespace PeersOk

theorem congr (h : PeersOk pubkeyBucket dev dead) (hs : dev.SamePeers dev') (ht : ∃ T l, dev'.allowedips.Agrees T l) :
    PeersOk pubkeyBucket dev' dead := by
  obtain ⟨hlist, htable, hnum, hcreated, hkey⟩ := hs
  refine ⟨?_, ?_, ?_, ?_, ?_, ?_, ?_, ht⟩ <;> simp only [hlist, htable, hnum, hcreated, hkey]
  exacts [h.nodup, h.table, h.home, h.num, h.max, h.distinct, h.created]

theorem mem_chain_iff (h : PeersOk pubkeyBucket dev dead) {b : PubkeyBucket} :
    p ∈ dev.peerHashtable.chain b ↔ p ∈ dev.peerList ∧ pubkeyBucket (dev.key p) = b := by
  rw [h.table.mem_iff, h.home]
  split <;> simp_all

theorem lookup_some (h : PeersOk pubkeyBucket dev dead) (hl : dev.lookup pubkeyBucket k = some p) :
    p ∈ dev.peerList ∧ dev.key p = k := by
  have hkey := List.find?_some hl
  exact ⟨(h.mem_chain_iff.mp (List.mem_of_find?_eq_some hl)).1, by simpa using hkey⟩

theorem lookup_none (h : PeersOk pubkeyBucket dev dead) (hl : dev.lookup pubkeyBucket k = none) :
    ∀ p ∈ dev.peerList, dev.key p ≠ k := by
  rintro p hp rfl
  have := List.find?_eq_none.mp hl p (h.mem_chain_iff.mpr ⟨hp, rfl⟩)
  simp at this

theorem new : PeersOk pubkeyBucket (ConfigDevice.new C) 0 where
  nodup := List.nodup_nil
  table := .empty
  home p := by simp [ConfigDevice.new, HashChains.empty]
  num := rfl
  max := Nat.zero_le _
  distinct p hp := absurd hp List.not_mem_nil
  created p hp := absurd hp List.not_mem_nil
  trie := ⟨_, _, .init⟩

theorem agrees_removeByPeer {a : Allowedips Nat} (h : ∃ T l, a.Agrees T l) (p : Nat) :
    ∃ T l, (a.wgAllowedipsRemoveByPeer p).Agrees T l := by
  obtain ⟨T, l, h⟩ := h
  obtain ⟨r, a', hexec, -, -, -, h⟩ := h.exec (.removeByPeer p)
  cases hexec
  exact ⟨_, _, h⟩

theorem addPeer (h : PeersOk pubkeyBucket dev 0) (hmax : dev.numPeers < maxPeersPerDevice) {peer : ConfigPeer}
    (hnew : ∀ p ∈ dev.peerList, dev.key p ≠ peer.handshake.remoteStatic) :
    PeersOk pubkeyBucket (dev.addPeer pubkeyBucket peer) 0 := by
  have hfresh : dev.created ∉ dev.peerList := fun hmem => Nat.lt_irrefl _ (h.created _ hmem)
  have hne : ∀ p ∈ dev.peerList, p ≠ dev.created := fun p hp he => hfresh (he ▸ hp)
  have hmem : ∀ p, p ∈ (dev.addPeer pubkeyBucket peer).peerList ↔ p ∈ dev.peerList ∨ p = dev.created := by
    intro p
    simp only [ConfigDevice.addPeer, List.mem_append, List.mem_singleton]
  refine ⟨?_, ?_, fun p => ?_, ?_, hmax, ?_, ?_, h.trie⟩
  · refine List.nodup_append.mpr ⟨h.nodup, List.nodup_singleton _, fun p hp q hq => ?_⟩
    rw [List.mem_singleton.mp hq]
    exact hne p hp
  · refine h.table.pushHead ?_ _
    rw [h.home, if_neg hfresh]
  · rw [key_addPeer]
    simp only [hmem]
    rw [show (dev.addPeer pubkeyBucket peer).peerHashtable = dev.peerHashtable.pushHead _ _ from rfl,
      HashChains.home_pushHead, update_apply, h.home]
    by_cases hp : p = dev.created <;> simp [hp]
  · simp only [ConfigDevice.addPeer, h.num, List.length_append, List.length_singleton, Nat.add_zero]
  · intro p hp q hq hkey
    rw [key_addPeer, key_addPeer] at hkey
    rcases (hmem p).mp hp with hp | rfl <;> rcases (hmem q).mp hq with hq | rfl
    · rw [if_neg (hne p hp), if_neg (hne q hq)] at hkey
      exact h.distinct p hp q hq hkey
    · rw [if_neg (hne p hp), if_pos rfl] at hkey
      exact absurd hkey (hnew p hp)
    · rw [if_pos rfl, if_neg (hne q hq)] at hkey
      exact absurd hkey.symm (hnew q hq)
    · rfl
  · intro p hp
    rcases (hmem p).mp hp with hp | rfl
    · exact Nat.lt_succ_of_lt (h.created p hp)
    · exact Nat.lt_succ_self _

theorem peerMakeDead (h : PeersOk pubkeyBucket dev dead) (hp : p ∈ dev.peerList) :
    PeersOk pubkeyBucket (dev.peerMakeDead p) (dead + 1) := by
  have hkey : ∀ q, (dev.peerMakeDead p).key q = dev.key q := key_peerMakeDead dev p
  have hmem : ∀ q, q ∈ (dev.peerMakeDead p).peerList ↔ q ≠ p ∧ q ∈ dev.peerList := fun q => h.nodup.mem_erase_iff
  refine ⟨h.nodup.erase p, h.table.unlink p, ?_, ?_, h.max, ?_, ?_, agrees_removeByPeer h.trie p⟩
  · intro q
    rw [hkey]
    simp only [hmem]
    rw [show (dev.peerMakeDead p).peerHashtable = dev.peerHashtable.unlink p from rfl, HashChains.home_unlink,
      update_apply, h.home]
    split <;> simp_all
  · have := List.length_erase_of_mem hp
    have hpos := List.length_pos_of_mem hp
    have hnum := h.num
    simp only [ConfigDevice.peerMakeDead, ConfigDevice.modifyPeer]
    omega
  · intro q hq r hr
    rw [hkey, hkey]
    exact h.distinct q ((hmem q).mp hq).2 r ((hmem r).mp hr).2
  · intro q hq
    exact h.created q ((hmem q).mp hq).2

theorem peerRemoveAfterDead (h : PeersOk pubkeyBucket dev (dead + 1)) (p : Nat) :
    PeersOk pubkeyBucket (dev.peerRemoveAfterDead p) dead := by
  have hkey : ∀ q, (dev.peerRemoveAfterDead p).key q = dev.key q := key_peerRemoveAfterDead dev p
  have hnum := h.num
  have hmax := h.max
  refine ⟨h.nodup, h.table, ?_, ?_, ?_, ?_, h.created, h.trie⟩
  · intro q
    rw [hkey]
    exact h.home q
  · simp only [ConfigDevice.peerRemoveAfterDead, ConfigDevice.modifyPeer]
    omega
  · simp only [ConfigDevice.peerRemoveAfterDead]
    omega
  · intro q hq r hr
    rw [hkey, hkey]
    exact h.distinct q hq r hr

theorem wgPeerRemove (h : PeersOk pubkeyBucket dev 0) (hp : p ∈ dev.peerList) :
    PeersOk pubkeyBucket (dev.wgPeerRemove p) 0 := (h.peerMakeDead hp).peerRemoveAfterDead p

theorem foldl_peerMakeDead {l : List Nat} (h : PeersOk pubkeyBucket dev dead) (hl : dev.peerList = l) :
    PeersOk pubkeyBucket (l.foldl ConfigDevice.peerMakeDead dev) (dead + l.length) ∧
      (l.foldl ConfigDevice.peerMakeDead dev).peerList = [] := by
  induction l generalizing dev dead with
  | nil => exact ⟨h, hl⟩
  | cons p l ih =>
    have hp : p ∈ dev.peerList := hl ▸ List.mem_cons_self
    have hrest : (dev.peerMakeDead p).peerList = l := by
      simp only [ConfigDevice.peerMakeDead, hl, List.erase_cons_head]
    have := ih (h.peerMakeDead hp) hrest
    rw [List.length_cons, Nat.add_comm l.length, ← Nat.add_assoc]
    exact this

theorem foldl_peerRemoveAfterDead {l : List Nat} (h : PeersOk pubkeyBucket dev (dead + l.length)) :
    PeersOk pubkeyBucket (l.foldl ConfigDevice.peerRemoveAfterDead dev) dead ∧
      (l.foldl ConfigDevice.peerRemoveAfterDead dev).peerList = dev.peerList := by
  induction l generalizing dev with
  | nil => exact ⟨h, rfl⟩
  | cons p l ih => exact ih (PeersOk.peerRemoveAfterDead h p)

theorem wgPeerRemoveAll (h : PeersOk pubkeyBucket dev 0) :
    ∃ dev', dev.wgPeerRemoveAll = some dev' ∧ PeersOk pubkeyBucket dev' 0 ∧ dev'.peerList = [] := by
  obtain ⟨T, l, ht⟩ := h.trie
  obtain ⟨r, a, hexec, -, -, -, ht⟩ := ht.exec .free
  obtain ⟨a', ha, hr⟩ := Option.map_eq_some_iff.mp hexec
  cases hr
  have hfree : PeersOk pubkeyBucket { dev with allowedips := a } 0 :=
    h.congr ⟨rfl, rfl, rfl, rfl, fun _ => rfl⟩ ⟨_, _, ht⟩
  obtain ⟨hdead, hempty⟩ := hfree.foldl_peerMakeDead rfl
  obtain ⟨hgone, hlist⟩ := hdead.foldl_peerRemoveAfterDead
  exact ⟨_, by rw [ConfigDevice.wgPeerRemoveAll, ha]; rfl, hgone, hlist.trans hempty⟩

end PeersOk

/-! ### Requests -/

structure Configured (pubkeyBucket : Bytes → PubkeyBucket) (dev : ConfigDevice) : Prop where
  peers : PeersOk pubkeyBucket dev 0
  self : dev.identity.hasIdentity = true → ∀ p ∈ dev.peerList, dev.key p ≠ dev.identity.staticPublic

/-- The call comes back, with a device such that `P`. -/
def Returns (P : ConfigDevice → Prop) (out : Option (Int × ConfigDevice)) : Prop :=
  ∃ ret dev, out = some (ret, dev) ∧ P dev

theorem Returns.mono {Q : ConfigDevice → Prop} {out : Option (Int × ConfigDevice)}
    (h : Returns P out) (hPQ : ∀ dev, P dev → Q dev) :
    Returns Q out := by
  obtain ⟨ret, dev, hout, h⟩ := h
  exact ⟨ret, dev, hout, hPQ dev h⟩

theorem returns_some {ret : Int} (h : P dev) : Returns P (some (ret, dev)) := ⟨ret, dev, rfl, h⟩

theorem returns_forEachNested {A : Type} {body : ConfigDevice → A → Option (Int × ConfigDevice)}
    (hbody : ∀ dev attrs, P dev → Returns P (body dev attrs)) (l : List (Option A)) (h : P dev) :
    Returns P (dev.forEachNested body l) := by
  induction l generalizing dev with
  | nil => exact returns_some h
  | cons x l ih =>
    rcases x with _ | attrs
    · exact returns_some h
    · obtain ⟨ret, dev', hout, h⟩ := hbody dev attrs h
      simp only [forEachNested, hout]
      split
      · exact returns_some h
      · exact ih h

/-- What the parts of `set_peer` that follow the lookup keep. -/
structure SameDevice (dev dev' : ConfigDevice) : Prop extends SamePeers dev dev' where
  identity : dev'.identity = dev.identity
  trie : (∃ T l, dev.allowedips.Agrees T l) → ∃ T l, dev'.allowedips.Agrees T l

namespace SameDevice

theorem refl (dev : ConfigDevice) : dev.SameDevice dev := ⟨.refl dev, rfl, id⟩

theorem trans {dev'' : ConfigDevice} (h : dev.SameDevice dev') (h' : dev'.SameDevice dev'') : dev.SameDevice dev'' :=
  ⟨h.toSamePeers.trans h'.toSamePeers, h'.identity.trans h.identity, fun ht => h'.trie (h.trie ht)⟩

theorem modifyPeer (dev : ConfigDevice) (p : Nat) (f : ConfigPeer → ConfigPeer)
    (hf : ∀ peer : ConfigPeer, (f peer).handshake.remoteStatic = peer.handshake.remoteStatic) :
    dev.SameDevice (dev.modifyPeer p f) :=
  ⟨samePeers_modifyPeer dev p f hf, rfl, id⟩

theorem setPersistentKeepalive (dev : ConfigDevice) (p : Nat) (interval : Option UInt16) :
    dev.SameDevice (dev.setPersistentKeepalive p interval) := by
  unfold ConfigDevice.setPersistentKeepalive
  rcases interval with _ | interval
  · exact .refl dev
  · have h := SameDevice.modifyPeer dev p ({ · with persistentKeepaliveInterval := interval }) fun _ => rfl
    dsimp only
    split
    · exact ⟨⟨h.peerList, h.peerHashtable, h.numPeers, h.created, h.key⟩, h.identity, h.trie⟩
    · exact h

end SameDevice

theorem Configured.congr (h : Configured pubkeyBucket dev) (hs : dev.SameDevice dev') :
    Configured pubkeyBucket dev' := by
  refine ⟨h.peers.congr hs.toSamePeers (hs.trie h.peers.trie), ?_⟩
  simp only [hs.identity, hs.peerList, hs.key]
  exact h.self

theorem returns_insertAllowedip (ht : ∃ T l, dev.allowedips.Agrees T l) (call : AllowedipsCall Nat) :
    Returns dev.SameDevice (dev.insertAllowedip call) := by
  obtain ⟨T, l, ht⟩ := ht
  obtain ⟨r, a, hexec, -, -, -, ht⟩ := ht.exec call
  rw [insertAllowedip, hexec]
  exact returns_some ⟨⟨rfl, rfl, rfl, rfl, fun _ => rfl⟩, rfl, fun _ => ⟨_, _, ht⟩⟩

theorem returns_setAllowedip (ht : ∃ T l, dev.allowedips.Agrees T l) (p : Nat) (attrs : AllowedipAttrs) :
    Returns dev.SameDevice (dev.setAllowedip p attrs) := by
  unfold setAllowedip
  split
  · split
    · exact returns_insertAllowedip ht _
    · split
      · exact returns_insertAllowedip ht _
      · exact returns_some (.refl dev)
  · exact returns_some (.refl dev)

theorem remoteStatic_set (peer : ConfigPeer) (presharedKey addr : Option Bytes) :
    ((peer.setPresharedKey presharedKey).setEndpoint addr).handshake.remoteStatic = peer.handshake.remoteStatic := by
  rcases presharedKey with _ | psk <;> rcases addr with _ | addr <;>
    simp only [ConfigPeer.setPresharedKey, ConfigPeer.setEndpoint] <;>
    split <;> rfl

namespace Configured

theorem wgPeerRemove (h : Configured pubkeyBucket dev) (hp : p ∈ dev.peerList) :
    Configured pubkeyBucket (dev.wgPeerRemove p) := by
  refine ⟨h.peers.wgPeerRemove hp, fun hid q hq => ?_⟩
  have hkey : (dev.wgPeerRemove p).key q = dev.key q :=
    (key_peerRemoveAfterDead _ p q).trans (key_peerMakeDead dev p q)
  rw [hkey]
  exact h.self hid q (List.mem_of_mem_erase hq)

theorem configurePeer (h : Configured pubkeyBucket dev) (attrs : PeerAttrs) (presharedKey : Option Bytes) (flags : U32)
    (hp : p ∈ dev.peerList) : Returns (Configured pubkeyBucket) (dev.configurePeer attrs presharedKey flags p) := by
  unfold ConfigDevice.configurePeer
  split
  · exact returns_some (h.wgPeerRemove hp)
  dsimp only
  have hset := SameDevice.modifyPeer dev p (fun peer => (peer.setPresharedKey presharedKey).setEndpoint attrs.endpoint)
    fun peer => remoteStatic_set peer presharedKey attrs.endpoint
  generalize dev.modifyPeer p _ = dev₁ at hset ⊢
  have hreplace : dev₁.SameDevice (if flags &&& wgpeerFReplaceAllowedips ≠ 0 then
      { dev₁ with allowedips := dev₁.allowedips.wgAllowedipsRemoveByPeer p } else dev₁) := by
    split
    · exact ⟨⟨rfl, rfl, rfl, rfl, fun _ => rfl⟩, rfl, fun ht => PeersOk.agrees_removeByPeer ht p⟩
    · exact .refl dev₁
  generalize (if flags &&& wgpeerFReplaceAllowedips ≠ 0 then _ else dev₁) = dev₂ at hreplace ⊢
  have hsame : dev.SameDevice dev₂ := hset.trans hreplace
  obtain ⟨ret, dev₃, hout, hall⟩ := returns_forEachNested (P := dev.SameDevice)
    (fun dev' attrs h' => (returns_setAllowedip (h'.trie h.peers.trie) p attrs).mono fun _ => h'.trans)
    (attrs.allowedips.getD []) hsame
  rw [hout]
  dsimp only
  split
  · exact returns_some (h.congr hall)
  · have hlast := h.congr (hall.trans (.setPersistentKeepalive dev₃ p attrs.persistentKeepaliveInterval))
    refine returns_some ?_
    split
    · exact hlast.congr ⟨⟨rfl, rfl, rfl, rfl, fun _ => rfl⟩, rfl, id⟩
    · exact hlast

theorem setPeer (h : Configured pubkeyBucket dev) (attrs : PeerAttrs) :
    Returns (Configured pubkeyBucket) (dev.setPeer C pubkeyBucket attrs) := by
  unfold ConfigDevice.setPeer
  split
  · exact returns_some h
  case h_2 publicKey _ =>
  dsimp only
  split
  · exact returns_some h
  split
  · exact returns_some h
  split
  case h_1 p hl =>
    exact h.configurePeer _ _ _ (h.peers.lookup_some hl).1
  case h_2 hl =>
  split
  · exact returns_some h
  split
  · exact returns_some h
  case isFalse hself =>
  split
  · exact returns_some h
  case h_2 p dev' hc =>
  unfold wgPeerCreate at hc
  split at hc
  · cases hc
  case isFalse hmax =>
  split at hc
  · cases hc
  cases hc
  refine configurePeer ⟨h.peers.addPeer (Nat.lt_of_not_le hmax) (h.peers.lookup_none hl), ?_⟩ _ _ _ ?_
  · intro hid q hq
    rw [key_addPeer]
    split_ifs with hne
    · exact fun he => hself ⟨hid, he⟩
    · refine h.self hid q ?_
      simpa [ConfigDevice.addPeer, hne] using hq
  · simp [ConfigDevice.addPeer]

/-- No peer is left with the public key of the new private key. -/
theorem removeSelf (h : PeersOk pubkeyBucket dev 0) (privateKey : Bytes) :
    PeersOk pubkeyBucket (dev.removeSelf C pubkeyBucket privateKey) 0 ∧
      ∀ publicKey, C.curve25519GeneratePublic privateKey = some publicKey →
        ∀ p ∈ (dev.removeSelf C pubkeyBucket privateKey).peerList,
          (dev.removeSelf C pubkeyBucket privateKey).key p ≠ publicKey := by
  unfold ConfigDevice.removeSelf
  split
  case h_1 hl =>
    refine ⟨h, fun publicKey hgen p hp => ?_⟩
    rw [hgen, Option.bind_some] at hl
    exact h.lookup_none hl p hp
  case h_2 q hl =>
    obtain ⟨publicKey, hgen, hl⟩ := Option.bind_eq_some_iff.mp hl
    obtain ⟨hq, hkey⟩ := h.lookup_some hl
    refine ⟨h.wgPeerRemove hq, fun publicKey' hgen' p hp he => ?_⟩
    rw [hgen] at hgen'
    cases hgen'
    have hp : p ≠ q ∧ p ∈ dev.peerList := h.nodup.mem_erase_iff.mp hp
    have hkp : (dev.wgPeerRemove q).key p = dev.key p :=
      (key_peerRemoveAfterDead _ q p).trans (key_peerMakeDead dev q p)
    exact hp.1 (h.distinct p hp.2 q hq (hkp.symm.trans (he.trans hkey.symm)))

theorem foldl_rekeyPeer (C : Crypto) (send : Bool) (dev : ConfigDevice) (l : List Nat) :
    dev.SameDevice (l.foldl (rekeyPeer C send) dev) := by
  induction l generalizing dev with
  | nil => exact .refl dev
  | cons p l ih =>
    refine SameDevice.trans ?_ (ih _)
    have h := SameDevice.modifyPeer dev p
      (fun peer => (peer.precomputeStaticStatic C dev.identity).expireCurrentPeerKeypairs) fun _ => rfl
    unfold rekeyPeer
    dsimp only
    split
    · exact ⟨⟨h.peerList, h.peerHashtable, h.numPeers, h.created, h.key⟩, h.identity, h.trie⟩
    · exact h

theorem setPrivateKey (h : Configured pubkeyBucket dev) (privateKey : Bytes) :
    Configured pubkeyBucket (dev.setPrivateKey C pubkeyBucket privateKey) := by
  unfold ConfigDevice.setPrivateKey
  split
  · exact h
  obtain ⟨hok, hself⟩ := removeSelf (C := C) h.peers privateKey
  dsimp only
  generalize dev.removeSelf C pubkeyBucket privateKey = dev₁ at hok hself ⊢
  have hset : Configured pubkeyBucket
      { dev₁ with identity := setStaticIdentityPrivateKey C dev₁.identity privateKey } := by
    refine ⟨hok.congr ⟨rfl, rfl, rfl, rfl, fun _ => rfl⟩ hok.trie, fun hid p hp => ?_⟩
    obtain ⟨publicKey, hgen⟩ := Option.isSome_iff_exists.mp hid
    simp only [setStaticIdentityPrivateKey, hgen, Option.getD_some]
    exact hself publicKey hgen p hp
  exact hset.congr (foldl_rekeyPeer C _ _ _)

theorem setPort (h : Configured pubkeyBucket dev) (port : UInt16) (socketInit : Except Int UInt16) :
    Configured pubkeyBucket (dev.setPort port socketInit).2 := by
  unfold ConfigDevice.setPort
  split
  · exact h
  split
  · exact h.congr ⟨⟨rfl, rfl, rfl, rfl, fun _ => rfl⟩, rfl, id⟩
  split
  · exact h
  · exact h.congr ⟨⟨rfl, rfl, rfl, rfl, fun _ => rfl⟩, rfl, id⟩

theorem applyListenPort (h : Configured pubkeyBucket dev) (attrs : DeviceAttrs) :
    Configured pubkeyBucket (dev.applyListenPort attrs).2 := by
  unfold ConfigDevice.applyListenPort
  split
  · exact h
  · exact h.setPort _ _

theorem applyReplacePeers (h : Configured pubkeyBucket dev) (attrs : DeviceAttrs) :
    ∃ dev', dev.applyReplacePeers attrs = some dev' ∧ Configured pubkeyBucket dev' := by
  unfold ConfigDevice.applyReplacePeers
  split
  · obtain ⟨dev', hall, hok, hempty⟩ := h.peers.wgPeerRemoveAll
    refine ⟨dev', hall, hok, fun _ p hp => ?_⟩
    rw [hempty] at hp
    cases hp
  · exact ⟨dev, rfl, h⟩

theorem applyPrivateKey (h : Configured pubkeyBucket dev) (attrs : DeviceAttrs) :
    Configured pubkeyBucket (dev.applyPrivateKey C pubkeyBucket attrs) := by
  unfold ConfigDevice.applyPrivateKey
  split
  · exact h
  · exact h.setPrivateKey _

theorem wgSetDevice (h : Configured pubkeyBucket dev) (attrs : DeviceAttrs) :
    Returns (Configured pubkeyBucket) (dev.wgSetDevice C pubkeyBucket attrs) := by
  unfold ConfigDevice.wgSetDevice
  split
  · exact returns_some h
  split
  · exact returns_some h
  have hmark : Configured pubkeyBucket (dev.applyFwmark attrs) :=
    h.congr ⟨⟨rfl, rfl, rfl, rfl, fun _ => rfl⟩, rfl, id⟩
  have hport := hmark.applyListenPort attrs
  dsimp only
  split
  · exact returns_some hport
  obtain ⟨dev', hreplace, h'⟩ := hport.applyReplacePeers attrs
  rw [hreplace]
  exact returns_forEachNested (fun dev attrs h => h.setPeer attrs) _ (h'.applyPrivateKey attrs)

theorem step (h : Configured pubkeyBucket dev) {ev : ConfigEvent} (hs : dev.step C pubkeyBucket ev = some dev') :
    Configured pubkeyBucket dev' := by
  rcases ev with attrs | ⟨p, state, keypairs, endpoint⟩ | running
  · obtain ⟨ret, dev'', hout, h⟩ := h.wgSetDevice (C := C) attrs
    rw [ConfigDevice.step, hout] at hs
    cases hs
    exact h
  · cases hs
    exact h.congr (.modifyPeer dev p _ fun _ => rfl)
  · cases hs
    exact h.congr ⟨⟨rfl, rfl, rfl, rfl, fun _ => rfl⟩, rfl, id⟩

end Configured

/-- After any sequence of requests, however each of them ended: the list, the table and the count
have the same peers, at most `MAX_PEERS_PER_DEVICE`; no two of them share a key, and none has the
key of the device; and any further request comes to an end. -/
theorem peers_consistent (C : Crypto) (pubkeyBucket : Bytes → PubkeyBucket) (dev : ConfigDevice)
    (hrun : Exec (step C pubkeyBucket) (fun _ _ => True) (new C) dev) :
    dev.peerList.Nodup ∧
    (∀ b p, p ∈ dev.peerHashtable.chain b ↔ p ∈ dev.peerList ∧ b = pubkeyBucket (dev.key p)) ∧
    (∀ b, (dev.peerHashtable.chain b).Nodup) ∧
    dev.numPeers = dev.peerList.length ∧
    dev.numPeers ≤ maxPeersPerDevice ∧
    (∀ p ∈ dev.peerList, ∀ q ∈ dev.peerList, dev.key p = dev.key q → p = q) ∧
    (dev.identity.hasIdentity = true → ∀ p ∈ dev.peerList, dev.key p ≠ dev.identity.staticPublic) ∧
    ∀ attrs, (dev.wgSetDevice C pubkeyBucket attrs).isSome = true := by
  have h : Configured pubkeyBucket dev :=
    hrun.inv ⟨.new, nofun⟩ fun _ _ _ _ h hs => h.step hs
  refine ⟨h.peers.nodup, fun b p => ?_, h.peers.table.nodup, h.peers.num, h.peers.max, h.peers.distinct, h.self, ?_⟩
  · rw [h.peers.mem_chain_iff, eq_comm]
  · intro attrs
    obtain ⟨ret, dev', hout, -⟩ := h.wgSetDevice (C := C) attrs
    rw [hout]
    rfl

end Invariant

def keyAttrs (privateKey : Bytes) (peers : Option (List (Option PeerAttrs))) : DeviceAttrs :=
  ⟨some privateKey, none, none, none, peers, true, .ok 0⟩

def peerAttrs (publicKey : Bytes) (flags : U32) : PeerAttrs :=
  ⟨some publicKey, none, some flags, none, none, none, none, false⟩

def sampleKey (b : UInt8) : Bytes := List.replicate noisePublicKeyLen b

/-- A request that adds two peers, names the device itself as a third and then fails; and a request
with the private key of the second one. -/
def halfway : List ConfigEvent :=
  [.request (keyAttrs (sampleKey 9) (some [some (peerAttrs (sampleKey 7) 0), some (peerAttrs (sampleKey 8) 0),
    some (peerAttrs (sampleKey 9) 0), none])), .request (keyAttrs (sampleKey 8) none)]

theorem peers_consistent_halfway : ∃ dev, Exec (step plainCrypto fun _ => 0) (fun _ _ => True) (new plainCrypto) dev ∧
    dev.peerList = [0] ∧ dev.numPeers = 1 ∧ dev.identity.hasIdentity = true ∧
    ∀ p ∈ dev.peerList, dev.key p ≠ dev.identity.staticPublic := by
  have hrun : ∃ dev, Exec (step plainCrypto fun _ => 0) (fun _ _ => True) (new plainCrypto) dev ∧
      (dev.peerList, dev.numPeers, dev.identity.hasIdentity) = ([0], 1, true) :=
    Exec.exists_of_foldlM halfway (fun dev : ConfigDevice => (dev.peerList, dev.numPeers, dev.identity.hasIdentity))
      (by decide +kernel)
  obtain ⟨dev, hrun, hdev⟩ := hrun
  simp only [Prod.mk.injEq] at hdev
  obtain ⟨hlist, hnum, hid⟩ := hdev
  have h := peers_consistent plainCrypto (fun _ => 0) dev hrun
  exact ⟨dev, hrun, hlist, hnum, hid, h.2.2.2.2.2.2.1 hid⟩

end ConfigDevice
end WireguardAes
