import WireguardAes.NetlinkDumpComplete
import WireguardAes.AllowedipsReinsert

/-!
# Peers and nests in order (`netlink.c`)

What the round trip of a configuration rests on. In a device that requests have made, every peer has
keys of the right sizes and an address for an endpoint, and every allowed IP belongs to a peer on
the list. In the messages of a dump, a nest that goes on with a peer comes behind the one that has
its full attributes.
-/

namespace WireguardAes

open Runs ListCursor

/-- A `struct sockaddr_in` or a `struct sockaddr_in6`. -/
def IsSockaddr (addr : Bytes) : Prop :=
  let saFamily := (addr.getD 0 0).toUInt16 + (addr.getD 1 0).toUInt16 * 256
  addr.length = 16 ∧ saFamily = afInet ∨ addr.length = 28 ∧ saFamily = afInet6

instance (addr : Bytes) : Decidable (IsSockaddr addr) := by
  unfold IsSockaddr
  infer_instance

theorem ConfigPeer.setEndpoint_of_isSockaddr (peer : ConfigPeer) {addr : Bytes} (h : IsSockaddr addr) :
    peer.setEndpoint (some addr) = { peer with endpoint := some addr } := if_pos h

/-- The fields of a peer have the sizes of the source's. -/
structure ConfigPeer.Shaped (peer : ConfigPeer) : Prop where
  key : peer.handshake.remoteStatic.length = noisePublicKeyLen
  presharedKey : peer.handshake.presharedKey.length = noiseSymmetricKeyLen
  endpoint : ∀ addr ∈ peer.endpoint, IsSockaddr addr

namespace ConfigPeer.Shaped

variable {peer : ConfigPeer}

theorem setPresharedKey (h : peer.Shaped) {psk : Option Bytes} (hpsk : ∀ k ∈ psk, k.length = noiseSymmetricKeyLen) :
    (peer.setPresharedKey psk).Shaped := by
  cases psk with
  | none => exact h
  | some k => exact ⟨h.key, hpsk k rfl, h.endpoint⟩

theorem setEndpoint (h : peer.Shaped) (addr : Option Bytes) : (peer.setEndpoint addr).Shaped := by
  cases addr with
  | none => exact h
  | some addr =>
    unfold ConfigPeer.setEndpoint
    dsimp only
    split_ifs with hok
    · refine ⟨h.key, h.presharedKey, ?_⟩
      rintro _ ⟨⟩
      exact hok
    · exact h

end ConfigPeer.Shaped

namespace ConfigDevice

variable {C : Crypto} {pubkeyBucket : Bytes → PubkeyBucket} {dev dev' : ConfigDevice} {p : Nat}
variable {seen : List Bytes} {l : List PeerNest}

/-! ### Peers in order -/

/-- Every peer is in order, and the allowed IPs belong to peers on the list. -/
structure Tidy (dev : ConfigDevice) : Prop where
  shaped : ∀ p, (dev.peers p).Shaped
  owned : ∃ T l, dev.allowedips.Agrees T l ∧ ∀ f x c q, T f x c = some q → q ∈ dev.peerList

namespace Tidy

theorem new : Tidy (ConfigDevice.new C) := by
  refine ⟨fun p => ⟨rfl, rfl, ?_⟩, .empty, [], .init, ?_⟩
  · rintro addr ⟨⟩
  · rintro f x c q ⟨⟩

theorem congr (h : Tidy dev) (hpeers : dev'.peers = dev.peers) (hlist : dev'.peerList = dev.peerList)
    (hips : dev'.allowedips = dev.allowedips) : Tidy dev' := by
  refine ⟨fun p => ?_, ?_⟩
  · rw [hpeers]
    exact h.shaped p
  · rw [hips, hlist]
    exact h.owned

theorem modifyPeer (h : Tidy dev) (p : Nat) {f : ConfigPeer → ConfigPeer} (hf : ∀ peer : ConfigPeer,
    peer.Shaped → (f peer).Shaped) :
    Tidy (dev.modifyPeer p f) := by
  refine ⟨fun q => ?_, h.owned⟩
  simp only [ConfigDevice.modifyPeer, Function.update_apply]
  split
  · exact hf _ (h.shaped p)
  · exact h.shaped q

theorem table (h : Tidy dev) {call : AllowedipsCall Nat} {ret : Ret} {a : Allowedips Nat}
    (hexec : call.exec dev.allowedips = some (ret, a)) (hcall : ∀ e ∈ call.inserted, e.2 ∈ dev.peerList) :
    Tidy { dev with allowedips := a } := by
  obtain ⟨T, l, hagrees, howned⟩ := h.owned
  obtain ⟨r, a', hexec', -, -, -, hagrees'⟩ := hagrees.exec call
  rw [hexec] at hexec'
  cases hexec'
  refine ⟨h.shaped, _, _, hagrees', fun f x c q hq => ?_⟩
  by_cases hnone : ret = .ok → call.inserted = none
  · exact howned f x c q (AllowedipsCall.table_not_inserted hnone hq)
  · obtain ⟨rfl, hsome⟩ := Classical.not_imp.mp hnone
    obtain ⟨e, he⟩ := Option.ne_none_iff_exists'.mp hsome
    rw [AllowedipsCall.table_inserted T he, PrefixTable.insert_eq_some] at hq
    rcases hq with ⟨-, -, -, rfl⟩ | ⟨-, hq⟩
    · exact hcall e he
    · exact howned f x c q hq

theorem addPeer (h : Tidy dev) {peer : ConfigPeer} (hpeer : peer.Shaped) : Tidy (dev.addPeer pubkeyBucket peer) := by
  obtain ⟨T, l, hagrees, howned⟩ := h.owned
  refine ⟨fun q => ?_, T, l, hagrees, fun f x c q hq => List.mem_append_left _ (howned f x c q hq)⟩
  simp only [ConfigDevice.addPeer, Function.update_apply]
  split
  · exact hpeer
  · exact h.shaped q

theorem peerMakeDead (h : Tidy dev) (p : Nat) : Tidy (dev.peerMakeDead p) := by
  obtain ⟨T, l, hagrees, howned⟩ := h.owned
  obtain ⟨r, a, hexec, -, -, -, hagrees'⟩ := hagrees.exec (.removeByPeer p)
  cases hexec
  have hdead : Tidy (dev.modifyPeer p ({ · with isDead := true })) :=
    h.modifyPeer p fun _ hpeer => ⟨hpeer.key, hpeer.presharedKey, hpeer.endpoint⟩
  refine ⟨hdead.shaped, _, _, hagrees', fun f x c q hq => ?_⟩
  obtain ⟨hq, hne⟩ := PrefixTable.forget_eq_some.mp hq
  exact (List.mem_erase_of_ne hne).mpr (howned f x c q hq)

theorem peerRemoveAfterDead (h : Tidy dev) (p : Nat) : Tidy (dev.peerRemoveAfterDead p) :=
  (h.modifyPeer p fun _ hpeer => ⟨hpeer.key, hpeer.presharedKey, hpeer.endpoint⟩ :
    Tidy (dev.modifyPeer p ({ · with keypairs := ⟨none, none, none⟩ }))).congr rfl rfl rfl

theorem wgPeerRemove (h : Tidy dev) (p : Nat) : Tidy (dev.wgPeerRemove p) := (h.peerMakeDead p).peerRemoveAfterDead p

theorem foldl {op : ConfigDevice → Nat → ConfigDevice} (hop : ∀ dev p, Tidy dev → Tidy (op dev p))
    (l : List Nat) (h : Tidy dev) :
    Tidy (l.foldl op dev) := by
  induction l generalizing dev with
  | nil => exact h
  | cons p l ih => exact ih (hop dev p h)

theorem wgPeerRemoveAll (h : Tidy dev) (hall : dev.wgPeerRemoveAll = some dev') : Tidy dev' := by
  obtain ⟨a, ha, rfl⟩ := Option.map_eq_some_iff.mp hall
  have hexec : AllowedipsCall.exec dev.allowedips .free = some (.ok, a) := by
    rw [AllowedipsCall.exec, ha]
    rfl
  have hfree : Tidy { dev with allowedips := a } := by
    refine h.table hexec ?_
    rintro e ⟨⟩
  exact foldl (fun dev p h => h.peerRemoveAfterDead p) _ (foldl (fun dev p h => h.peerMakeDead p) _ hfree)

theorem setAllowedip (h : Tidy dev) (hp : p ∈ dev.peerList) (attrs : AllowedipAttrs) :
    Returns (fun dev' => Tidy dev' ∧ dev'.peerList = dev.peerList) (dev.setAllowedip p attrs) := by
  have hinsert : ∀ call : AllowedipsCall Nat, (∀ e ∈ call.inserted, e.2 = p) →
      Returns (fun dev' => Tidy dev' ∧ dev'.peerList = dev.peerList) (dev.insertAllowedip call) := by
    intro call hcall
    obtain ⟨T, l, hagrees, -⟩ := h.owned
    obtain ⟨r, a, hexec, -⟩ := hagrees.exec call
    rw [insertAllowedip, hexec]
    refine returns_some ⟨h.table hexec fun e he => ?_, rfl⟩
    rw [hcall e he]
    exact hp
  unfold ConfigDevice.setAllowedip
  split
  · split
    · refine hinsert _ ?_
      rintro e ⟨⟩
      rfl
    · split
      · refine hinsert _ ?_
        rintro e ⟨⟩
        rfl
      · exact returns_some ⟨h, rfl⟩
  · exact returns_some ⟨h, rfl⟩

theorem setPersistentKeepalive (h : Tidy dev) (p : Nat) (interval : Option UInt16) :
    Tidy (dev.setPersistentKeepalive p interval) := by
  unfold ConfigDevice.setPersistentKeepalive
  cases interval with
  | none => exact h
  | some interval =>
    have hset : Tidy (dev.modifyPeer p ({ · with persistentKeepaliveInterval := interval })) :=
      h.modifyPeer p fun peer hpeer => ⟨hpeer.key, hpeer.presharedKey, hpeer.endpoint⟩
    dsimp only
    split
    · exact hset.congr rfl rfl rfl
    · exact hset

theorem configurePeer (h : Tidy dev) (hp : p ∈ dev.peerList) (attrs : PeerAttrs) {psk : Option Bytes}
    (hpsk : ∀ k ∈ psk, k.length = noiseSymmetricKeyLen) (flags : U32) :
    Returns Tidy (dev.configurePeer attrs psk flags p) := by
  unfold ConfigDevice.configurePeer
  split
  · exact returns_some (h.wgPeerRemove p)
  dsimp only
  have hset : Tidy (dev.modifyPeer p fun peer => (peer.setPresharedKey psk).setEndpoint attrs.endpoint) :=
    h.modifyPeer p fun peer hpeer => (hpeer.setPresharedKey hpsk).setEndpoint attrs.endpoint
  have hreplace : ∀ dev₁ : ConfigDevice, Tidy dev₁ → Tidy (if flags &&& wgpeerFReplaceAllowedips ≠ 0 then
      { dev₁ with allowedips := dev₁.allowedips.wgAllowedipsRemoveByPeer p } else dev₁) := by
    intro dev₁ h₁
    split
    · have hexec : (AllowedipsCall.removeByPeer p).exec dev₁.allowedips = some (.ok, _) := rfl
      refine h₁.table hexec ?_
      rintro e ⟨⟩
    · exact h₁
  have hlist : ∀ dev₁ : ConfigDevice, dev₁.peerList = dev.peerList → (if flags &&& wgpeerFReplaceAllowedips ≠ 0 then
      { dev₁ with allowedips := dev₁.allowedips.wgAllowedipsRemoveByPeer p } else dev₁).peerList = dev.peerList := by
    intro dev₁ h₁
    split <;> exact h₁
  have h₂ := hreplace _ hset
  have hlist₂ := hlist _ (rfl : (dev.modifyPeer p fun peer => (peer.setPresharedKey psk).setEndpoint
    attrs.endpoint).peerList = _)
  generalize (if flags &&& wgpeerFReplaceAllowedips ≠ 0 then _ else _) = dev₂ at h₂ hlist₂ ⊢
  obtain ⟨ret, dev₃, hout, h₃, -⟩ := returns_forEachNested (P := fun dev' => Tidy dev' ∧ dev'.peerList = dev.peerList)
    (fun dev' attrs h' => (h'.1.setAllowedip (h'.2 ▸ hp) attrs).mono fun dev'' h'' => ⟨h''.1, h''.2.trans h'.2⟩)
    (attrs.allowedips.getD []) ⟨h₂, hlist₂⟩
  rw [hout]
  dsimp only
  split
  · exact returns_some h₃
  · refine returns_some ?_
    have hlast := h₃.setPersistentKeepalive p attrs.persistentKeepaliveInterval
    split
    · exact hlast.congr rfl rfl rfl
    · exact hlast

theorem setPeer (h : Tidy dev) (hc : Configured pubkeyBucket dev) (attrs : PeerAttrs) :
    Returns Tidy (dev.setPeer C pubkeyBucket attrs) := by
  unfold ConfigDevice.setPeer
  split
  · exact returns_some h
  case h_2 publicKey hkey =>
  have hlen : publicKey.length = noisePublicKeyLen := of_decide_eq_true (Option.filter_eq_some_iff.mp hkey).2
  have hpsk : ∀ k ∈ attrs.presharedKey.filter (·.length = noiseSymmetricKeyLen), k.length = noiseSymmetricKeyLen := by
    intro k hk
    exact of_decide_eq_true (Option.filter_eq_some_iff.mp hk).2
  dsimp only
  split
  · exact returns_some h
  split
  · exact returns_some h
  split
  · exact h.configurePeer (hc.peers.lookup_some ‹_›).1 attrs hpsk _
  split
  · exact returns_some h
  split
  · exact returns_some h
  split
  · exact returns_some h
  case h_2 hcreate =>
  unfold wgPeerCreate at hcreate
  split at hcreate
  · cases hcreate
  split at hcreate
  · cases hcreate
  cases hcreate
  refine configurePeer (h.addPeer ⟨hlen, ?_, ?_⟩) (by simp [ConfigDevice.addPeer]) attrs hpsk _
  · show ((attrs.presharedKey.filter (·.length = noiseSymmetricKeyLen)).getD zeroPoint).length = noiseSymmetricKeyLen
    cases hfilter : attrs.presharedKey.filter (·.length = noiseSymmetricKeyLen) with
    | none => rfl
    | some k => exact hpsk k hfilter
  · rintro addr ⟨⟩

theorem setPrivateKey (h : Tidy dev) (privateKey : Bytes) : Tidy (dev.setPrivateKey C pubkeyBucket privateKey) := by
  have hrekey : ∀ send (dev : ConfigDevice) p, Tidy dev → Tidy (rekeyPeer C send dev p) := by
    intro send dev p h
    have hset : Tidy (dev.modifyPeer p fun peer =>
      (peer.precomputeStaticStatic C dev.identity).expireCurrentPeerKeypairs) :=
      h.modifyPeer p fun peer hpeer => ⟨hpeer.key, hpeer.presharedKey, hpeer.endpoint⟩
    unfold rekeyPeer
    dsimp only
    split
    · exact hset.congr rfl rfl rfl
    · exact hset
  have hself : Tidy (dev.removeSelf C pubkeyBucket privateKey) := by
    unfold removeSelf
    split
    · exact h
    · exact h.wgPeerRemove _
  unfold ConfigDevice.setPrivateKey
  split
  · exact h
  · exact foldl (hrekey _) _ (hself.congr rfl rfl rfl)

theorem wgSetDevice (h : Tidy dev) (hc : Configured pubkeyBucket dev) (attrs : DeviceAttrs) :
    Returns Tidy (dev.wgSetDevice C pubkeyBucket attrs) := by
  unfold ConfigDevice.wgSetDevice
  split
  · exact returns_some h
  split
  · exact returns_some h
  have hmark : Configured pubkeyBucket (dev.applyFwmark attrs) := hc.congr ⟨⟨rfl, rfl, rfl, rfl, fun _ => rfl⟩, rfl, id⟩
  have hcport := hmark.applyListenPort attrs
  have hport : Tidy ((dev.applyFwmark attrs).applyListenPort attrs).2 := by
    have hmark : Tidy (dev.applyFwmark attrs) := h.congr rfl rfl rfl
    unfold applyListenPort setPort
    split
    · exact hmark
    split
    · exact hmark
    split
    · exact hmark.congr rfl rfl rfl
    split
    · exact hmark
    · exact hmark.congr rfl rfl rfl
  dsimp only
  generalize (dev.applyFwmark attrs).applyListenPort attrs = out at hport hcport ⊢
  split
  · exact returns_some hport
  obtain ⟨dev₁, hreplace, hc₁⟩ := hcport.applyReplacePeers attrs
  have h₁ : Tidy dev₁ := by
    unfold applyReplacePeers at hreplace
    split at hreplace
    · exact hport.wgPeerRemoveAll hreplace
    · cases hreplace
      exact hport
  have h₂ : Tidy (dev₁.applyPrivateKey C pubkeyBucket attrs) := by
    unfold applyPrivateKey
    split
    · exact h₁
    · exact h₁.setPrivateKey _
  rw [hreplace]
  refine (returns_forEachNested (P := fun dev => Configured pubkeyBucket dev ∧ Tidy dev) (fun dev attrs h => ?_) _
    ⟨hc₁.applyPrivateKey attrs, h₂⟩).mono fun dev h => h.2
  obtain ⟨ret, dev', hout, hc'⟩ := h.1.setPeer (C := C) attrs
  obtain ⟨ret', dev'', hout', h'⟩ := h.2.setPeer (C := C) h.1 attrs
  rw [hout] at hout'
  cases hout'
  exact ⟨ret, dev', hout, hc', h'⟩

end Tidy

/-- What the network tells of the address of a peer is one. -/
def EndpointsOk (_ : ConfigDevice) : ConfigEvent → Prop
  | .activity _ _ _ endpoint => ∀ addr ∈ endpoint, IsSockaddr addr
  | _ => True

instance (dev : ConfigDevice) (ev : ConfigEvent) : Decidable (EndpointsOk dev ev) := by
  unfold EndpointsOk
  split
  · infer_instance
  · infer_instance

theorem tidy_of_exec (hrun : Exec (step C pubkeyBucket) EndpointsOk (new C) dev) :
    Configured pubkeyBucket dev ∧ Tidy dev := by
  refine hrun.inv (I := fun dev => Configured pubkeyBucket dev ∧ Tidy dev) ⟨⟨.new, fun hid => ?_⟩, .new⟩ ?_
  · cases hid
  intro dev ev dev' hok h hs
  refine ⟨h.1.step hs, ?_⟩
  rcases ev with attrs | ⟨p, state, keypairs, endpoint⟩ | running
  · obtain ⟨ret, dev'', hout, h'⟩ := h.2.wgSetDevice (C := C) h.1 attrs
    rw [ConfigDevice.step, hout] at hs
    cases hs
    exact h'
  · cases hs
    exact h.2.modifyPeer p fun peer hpeer => ⟨hpeer.key, hpeer.presharedKey, hok⟩
  · cases hs
    exact h.2.congr rfl rfl rfl

/-! ### The order of the nests -/

/-- A nest without the full attributes goes on with a peer that has begun before. -/
def Begun : List Bytes → List PeerNest → Prop
  | _, [] => True
  | seen, nest :: nests => (nest.full = none → nest.publicKey ∈ seen) ∧ Begun (nest.publicKey :: seen) nests

theorem Begun.mono {seen' : List Bytes} (h : Begun seen l) (hsub : seen ⊆ seen') : Begun seen' l := by
  induction l generalizing seen seen' with
  | nil => trivial
  | cons nest l ih => exact ⟨fun hnone => hsub (h.1 hnone), ih h.2 (List.cons_subset_cons _ hsub)⟩

theorem Begun.append {l' : List PeerNest} (h : Begun seen l)
    (h' : Begun (l.map PeerNest.publicKey ++ seen) l') : Begun seen (l ++ l') := by
  induction l generalizing seen with
  | nil => exact h'
  | cons nest l ih =>
    refine ⟨h.1, ih h.2 (h'.mono ?_)⟩
    have hperm : (l.map PeerNest.publicKey ++ nest.publicKey :: seen).Perm
      (nest.publicKey :: (l.map PeerNest.publicKey ++ seen)) :=
      List.perm_middle
    exact hperm.symm.subset

theorem Begun.split {l' : List PeerNest} (h : Begun seen (l ++ l')) :
    Begun seen l ∧ Begun (l.map PeerNest.publicKey ++ seen) l' := by
  induction l generalizing seen with
  | nil => exact ⟨trivial, h⟩
  | cons nest l ih =>
    obtain ⟨hl, hl'⟩ := ih h.2
    refine ⟨⟨h.1, hl⟩, hl'.mono ?_⟩
    have hperm : (l.map PeerNest.publicKey ++ nest.publicKey :: seen).Perm
      (nest.publicKey :: (l.map PeerNest.publicKey ++ seen)) :=
      List.perm_middle
    exact hperm.subset

/-- If the dump has stopped inside a peer, the peer has begun. -/
def Pending (dev : ConfigDevice) (ctx : DumpCtx) (rest : List Nat) (seen : List Bytes) : Prop :=
  ctx.nextAllowedip.isSome → ∀ p ∈ rest.head?, dev.key p ∈ seen

variable {ctx : DumpCtx} {stats : Nat → PeerStats} {room : Nat} {rest : List Nat} {seen : List Bytes}
variable {pre : List Nat}

/-- What `get_peer` has put is of its peer, with the full attributes unless it goes on. -/
structure NestOf (dev : ConfigDevice) (ctx : DumpCtx) (p : Nat) (out : PeerDump) : Prop where
  nest : ∀ nest ∈ out.nest, nest.publicKey = dev.key p ∧ (nest.full = none → ctx.nextAllowedip.isSome)
  finished : out.ret = 0 → out.ctx.nextAllowedip = none
  cancelled : out.nest = none → out.ctx.nextAllowedip = ctx.nextAllowedip

theorem getPeerAllowedips_nestOf {full : Option FullAttrs} {start : Nat} {node : Option Nat} {out : PeerDump}
    (hfull : full = none → ctx.nextAllowedip.isSome)
    (h : dev.getPeerAllowedips ctx p full start room node = some out) : NestOf dev ctx p out := by
  have hzero : emsgsize ≠ 0 := by decide
  have hdone : ∀ ips room', NestOf dev ctx p ⟨0, ⟨ctx.nextPeer, 0, none⟩, some ⟨dev.key p, full, ips⟩, room'⟩ := by
    intro ips room'
    refine ⟨?_, fun _ => rfl, fun hnone => ?_⟩
    · rintro nest ⟨⟩
      exact ⟨rfl, hfull⟩
    · cases hnone
  unfold getPeerAllowedips at h
  dsimp only at h
  split at h
  · cases h
    exact hdone _ _
  split at h
  · cases h
    exact hdone _ _
  split at h
  · cases h
    refine ⟨?_, fun hret => absurd hret hzero, fun _ => rfl⟩
    rintro nest ⟨⟩
  split at h
  case isFalse => cases h
  split at h
  · cases h
    exact hdone _ _
  · cases h
    refine ⟨?_, fun hret => absurd hret hzero, fun hnone => ?_⟩
    · rintro nest ⟨⟩
      exact ⟨rfl, hfull⟩
    · cases hnone

theorem getPeer_nestOf {out : PeerDump} (h : dev.getPeer stats ctx p room = some out) : NestOf dev ctx p out := by
  have hzero : emsgsize ≠ 0 := by decide
  have hfail : NestOf dev ctx p ⟨emsgsize, ctx, none, room⟩ := by
    refine ⟨?_, fun hret => absurd hret hzero, fun _ => rfl⟩
    rintro nest ⟨⟩
  unfold getPeer at h
  split at h
  · cases h
    exact hfail
  split at h
  · split at h
    · cases h
      exact hfail
    · refine getPeerAllowedips_nestOf (fun hnone => ?_) h
      cases hnone
  case h_2 node hnext =>
    refine getPeerAllowedips_nestOf (fun _ => ?_) h
    rw [hnext]
    rfl

theorem dumpPeers_begun {out : PeersDump} (h : Pending dev ctx rest seen)
    (hout : dev.dumpPeers stats ctx pre.getLast? rest room = some out) :
    Begun seen out.nests ∧ ∃ fin rest', rest = fin ++ rest' ∧ out.cursor = (pre ++ fin).getLast? ∧
      Pending dev out.ctx rest' (out.nests.map PeerNest.publicKey ++ seen) := by
  induction rest generalizing ctx pre room seen out with
  | nil =>
    cases hout
    refine ⟨trivial, [], [], rfl, ?_, h⟩
    rw [List.append_nil]
  | cons p ps ih =>
    unfold dumpPeers at hout
    split at hout
    · cases hout
    case h_2 o ho =>
    have hnest := getPeer_nestOf ho
    have hfirst : Begun seen o.nest.toList := by
      rcases hn : o.nest with - | nest
      · trivial
      · obtain ⟨hkey, hfull⟩ := hnest.nest nest hn
        refine ⟨fun hnone => ?_, trivial⟩
        rw [hkey]
        exact h (hfull hnone) p rfl
    split_ifs at hout with hret
    · cases hout
      refine ⟨hfirst, [], p :: ps, rfl, ?_, fun hsome q hq => ?_⟩
      · rw [List.append_nil]
      · cases hq
        dsimp only
        rcases hn : o.nest with - | nest
        · rw [hnest.cancelled hn] at hsome
          exact h hsome p rfl
        · rw [← (hnest.nest nest hn).1]
          exact List.mem_cons_self
    · obtain ⟨out', hout', rfl⟩ := Option.map_eq_some_iff.mp hout
      have hlast : (pre ++ [p]).getLast? = some p := List.getLast?_concat
      rw [← hlast] at hout'
      have hnone : o.ctx.nextAllowedip = none := hnest.finished (Classical.not_not.mp hret)
      have hpending : Pending dev o.ctx ps (o.nest.toList.map PeerNest.publicKey ++ seen) := by
        intro hsome
        rw [hnone] at hsome
        cases hsome
      obtain ⟨hbegun, fin, rest', hsplit, hcur, hpend⟩ := ih hpending hout'
      refine ⟨hfirst.append hbegun, p :: fin, rest', ?_, ?_, fun hsome q hq => ?_⟩
      · rw [hsplit, List.cons_append]
      · dsimp only
        rw [hcur, List.append_assoc, List.singleton_append]
      · have hin := hpend hsome q hq
        simp only [List.map_append, List.mem_append] at hin ⊢
        tauto

/-- The attributes of the device are in the messages that begin at its first peer. -/
def headerOf (dev : ConfigDevice) (ctx : DumpCtx) (call : DumpCall) : Option DeviceInfo :=
  if ctx.nextPeer.isNone then some (dev.deviceInfo call) else none

theorem wgGetDeviceDump_begun (hnodup : dev.peerList.Nodup) (hsplit : dev.peerList = pre ++ rest)
    (hcur : ctx.nextPeer = pre.getLast?) (h : Pending dev ctx rest seen) {call : DumpCall}
    {res : DumpResult} {msg : DumpMsg}
    (hres : dev.wgGetDeviceDump call ctx = some res) (hmsg : res.msg = some msg) :
    msg.device = dev.headerOf ctx call ∧ Begun seen (msg.peers.getD []) ∧
    (0 < res.ret → ∃ pre' rest', dev.peerList = pre' ++ rest' ∧ res.ctx.nextPeer = pre'.getLast? ∧
      Pending dev res.ctx rest' ((msg.peers.getD []).map PeerNest.publicKey ++ seen)) := by
  unfold wgGetDeviceDump at hres
  split at hres
  · cases hres
    cases hmsg
  dsimp only at hres
  split at hres
  · cases hres
    cases hmsg
  split at hres
  · cases hres
    cases hmsg
    exact ⟨rfl, trivial, fun hpos => absurd hpos (Int.lt_irrefl 0)⟩
  split at hres
  · cases hres
  obtain ⟨out, hout, rfl⟩ := Option.map_eq_some_iff.mp hres
  have hresume : resume ctx.nextPeer dev.peerList = rest := by
    rw [hsplit] at hnodup ⊢
    rw [hcur]
    exact resume_append hnodup
  rw [hresume, hcur] at hout
  obtain ⟨hbegun, fin, rest', hrest, hcursor, hpend⟩ := dumpPeers_begun h hout
  have hmsg' : msg = ⟨dev.headerOf ctx call, some out.nests⟩ := by
    split at hmsg <;> exact (Option.some.inj hmsg).symm
  rw [hmsg']
  refine ⟨rfl, hbegun, fun hpos => ⟨pre ++ fin, rest', ?_, ?_, ?_⟩⟩
  · rw [hsplit, hrest, List.append_assoc]
  · split at hpos
    · exact absurd hpos (Int.lt_irrefl 0)
    case isFalse hdone =>
      rw [if_neg hdone]
      exact hcursor
  · split <;> exact hpend

theorem wgGetDeviceDump_msg {call : DumpCall} {res : DumpResult} (hres : dev.wgGetDeviceDump call ctx = some res)
    (hpos : 0 < res.ret) : ∃ msg, res.msg = some msg := by
  have hfail : ¬ 0 < emsgsize := by decide
  unfold wgGetDeviceDump at hres
  split at hres
  · cases hres
    exact absurd hpos hfail
  dsimp only at hres
  split at hres
  · cases hres
    exact absurd hpos hfail
  split at hres
  · cases hres
    exact ⟨_, rfl⟩
  split at hres
  · cases hres
  obtain ⟨out, -, rfl⟩ := Option.map_eq_some_iff.mp hres
  split
  · exact ⟨_, rfl⟩
  · exact ⟨_, rfl⟩

/-- The nests of a dump are in order, and a message that has attributes of the device has them as
they are. -/
theorem dumpAll_begun (hl : ListsOk dev) (hsplit : dev.peerList = pre ++ rest)
    (hcur : ctx.nextPeer = pre.getLast?) (h : Pending dev ctx rest seen) {calls : List DumpCall} {msgs : List DumpMsg}
    {ret : Option Int} (hout : dev.dumpAll calls ctx = some (msgs, ret)) :
    Begun seen (nestsOf msgs) ∧ ∀ msg ∈ msgs, ∀ info ∈ msg.device, ∃ call, info = dev.deviceInfo call := by
  induction calls generalizing ctx pre rest seen msgs ret with
  | nil =>
    cases hout
    exact ⟨trivial, fun _ hmem => absurd hmem List.not_mem_nil⟩
  | cons call calls ih =>
    unfold dumpAll at hout
    split at hout
    · cases hout
    case h_2 res hres =>
    have hdevice : ∀ msg, res.msg = some msg → ∀ info ∈ msg.device, ∃ call, info = dev.deviceInfo call := by
      intro msg hm info hinfo
      rw [(wgGetDeviceDump_begun hl.nodup hsplit hcur h hres hm).1, headerOf] at hinfo
      split at hinfo
      · exact ⟨call, (Option.some.inj hinfo).symm⟩
      · cases hinfo
    split_ifs at hout with hpos
    · obtain ⟨out, hrest, heq⟩ := Option.map_eq_some_iff.mp hout
      obtain ⟨msg, hm⟩ := wgGetDeviceDump_msg hres hpos
      obtain ⟨-, hbegun, hmore⟩ := wgGetDeviceDump_begun hl.nodup hsplit hcur h hres hm
      obtain ⟨pre', rest', hsplit', hcur', hpend⟩ := hmore hpos
      obtain ⟨hbegun', hdevice'⟩ := ih hsplit' hcur' hpend hrest
      rw [hm] at heq
      cases heq
      refine ⟨?_, fun m hmem => ?_⟩
      · rw [Option.toList_some, List.singleton_append, nestsOf_cons]
        exact hbegun.append hbegun'
      · rcases List.mem_cons.mp hmem with rfl | hmem
        · exact hdevice m hm
        · exact hdevice' m hmem
    · cases hout
      rcases hm : res.msg with - | msg
      · exact ⟨trivial, fun _ hmem => absurd hmem List.not_mem_nil⟩
      · obtain ⟨-, hbegun, -⟩ := wgGetDeviceDump_begun hl.nodup hsplit hcur h hres hm
        refine ⟨?_, fun m hmem => ?_⟩
        · rw [Option.toList_some, nestsOf_cons]
          exact hbegun.append trivial
        · rw [List.mem_singleton.mp hmem]
          exact hdevice msg hm

end ConfigDevice
end WireguardAes
