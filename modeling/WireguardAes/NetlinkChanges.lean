import WireguardAes.Netlink
import WireguardAes.AllowedipsRead

/-!
# The changes a request makes

A request changes the configuration in small steps: a call into the allowed IPs, a peer that is
added, a peer that is taken out, new settings of a peer or of the device. `Changes` is a sequence of
such steps. Every request is one, apart from the private key, for which all peers are gone through.
-/

namespace WireguardAes

open Function Relation

namespace ConfigPeer

/-- What handshakes and keypairs have set up, apart from the preshared key. -/
def session (peer : ConfigPeer) : NoiseHandshake × NoiseKeypairs Bool :=
  ({ peer.handshake with presharedKey := zeroPoint }, peer.keypairs)

theorem session_set (peer : ConfigPeer) (presharedKey addr : Option Bytes) :
    ((peer.setPresharedKey presharedKey).setEndpoint addr).session = peer.session := by
  have hpsk : (peer.setPresharedKey presharedKey).session = peer.session := by
    rcases presharedKey with - | psk <;> rfl
  rw [← hpsk]
  unfold setEndpoint
  split
  · rfl
  dsimp only
  split <;> rfl

end ConfigPeer

namespace ConfigDevice

variable {C : Crypto} {pubkeyBucket : Bytes → PubkeyBucket} {dev dev' dev'' : ConfigDevice} {p : Nat}
  {rest : ConfigDevice → ConfigDevice → Prop}

/-- A step that neither adds nor removes a peer or an allowed IP. -/
structure SameView (dev dev' : ConfigDevice) : Prop where
  peerList : dev'.peerList = dev.peerList
  created : dev'.created = dev.created
  allowedips : dev'.allowedips = dev.allowedips
  isDead : ∀ p, (dev'.peers p).isDead = (dev.peers p).isDead

/-- Only settings of the device itself are changed. -/
structure SameTables (dev dev' : ConfigDevice) : Prop where
  identity : dev'.identity = dev.identity
  peers : dev'.peers = dev.peers
  peerList : dev'.peerList = dev.peerList
  created : dev'.created = dev.created
  allowedips : dev'.allowedips = dev.allowedips

/-- The steps of a request; `rest` are those that come in addition. -/
inductive Change (pubkeyBucket : Bytes → PubkeyBucket) (rest : ConfigDevice → ConfigDevice → Prop)
    (dev : ConfigDevice) :
    ConfigDevice → Prop
  | table {call : AllowedipsCall Nat} {ret : Ret} {a : Allowedips Nat} (h : call.exec dev.allowedips = some (ret, a)) :
    Change pubkeyBucket rest dev { dev with allowedips := a }
  | create {peer : ConfigPeer} (h : peer.isDead = false) : Change pubkeyBucket rest dev (dev.addPeer pubkeyBucket peer)
  | makeDead (p : Nat) : Change pubkeyBucket rest dev (dev.peerMakeDead p)
  | removeAfterDead {p : Nat} (h : (dev.peers p).isDead = true) :
    Change pubkeyBucket rest dev (dev.peerRemoveAfterDead p)
  | modifyPeer (p : Nat) {f : ConfigPeer → ConfigPeer} (hdead : ∀ peer : ConfigPeer, (f peer).isDead = peer.isDead)
      (hsession : ∀ peer : ConfigPeer, (f peer).session = peer.session) : Change pubkeyBucket rest
        dev (dev.modifyPeer p f)
  | device {dev' : ConfigDevice} (h : dev.SameTables dev') : Change pubkeyBucket rest dev dev'
  | other {dev' : ConfigDevice} (h : rest dev dev') : Change pubkeyBucket rest dev dev'

abbrev Changes (pubkeyBucket : Bytes → PubkeyBucket) (rest : ConfigDevice → ConfigDevice → Prop) :
    ConfigDevice → ConfigDevice → Prop :=
  ReflTransGen (Change pubkeyBucket rest)

theorem SameView.trans (h : dev.SameView dev') (h' : dev'.SameView dev'') : dev.SameView dev'' :=
  ⟨h'.peerList.trans h.peerList, h'.created.trans h.created, h'.allowedips.trans h.allowedips,
    fun p => (h'.isDead p).trans (h.isDead p)⟩

theorem SameView.modifyPeer (dev : ConfigDevice) (p : Nat) (f : ConfigPeer → ConfigPeer)
    (hf : ∀ peer : ConfigPeer, (f peer).isDead = peer.isDead) : dev.SameView (dev.modifyPeer p f) := by
  refine ⟨rfl, rfl, rfl, fun q => ?_⟩
  dsimp only [ConfigDevice.modifyPeer]
  by_cases h : q = p
  · rw [h, update_self, hf]
  · rw [update_of_ne h]

/-! ### Peers -/

theorem sameView_removeAfterDead (dev : ConfigDevice) (p : Nat) : dev.SameView (dev.peerRemoveAfterDead p) :=
  (SameView.modifyPeer dev p ({ · with keypairs := ⟨none, none, none⟩ }) fun _ => rfl).trans
    ⟨rfl, rfl, rfl, fun _ => rfl⟩

theorem SameTables.sameView (h : dev.SameTables dev') : dev.SameView dev' :=
  ⟨h.peerList, h.created, h.allowedips, fun p => by rw [h.peers]⟩

/-- What such a step is for a reader of the lists. -/
theorem Change.view (h : Change pubkeyBucket SameView dev dev') :
    (∃ (call : AllowedipsCall Nat) (ret : Ret) (a : Allowedips Nat), call.exec dev.allowedips = some (ret, a) ∧
      dev' = { dev with allowedips := a }) ∨
    (∃ peer : ConfigPeer, peer.isDead = false ∧ dev' = dev.addPeer pubkeyBucket peer) ∨
    (∃ p, dev' = dev.peerMakeDead p) ∨ dev.SameView dev' := by
  cases h with
  | table h => exact .inl ⟨_, _, _, h, rfl⟩
  | create h => exact .inr (.inl ⟨_, h, rfl⟩)
  | makeDead p => exact .inr (.inr (.inl ⟨p, rfl⟩))
  | removeAfterDead => exact .inr (.inr (.inr (sameView_removeAfterDead ..)))
  | modifyPeer p hdead => exact .inr (.inr (.inr (.modifyPeer dev p _ hdead)))
  | device h => exact .inr (.inr (.inr h.sameView))
  | other h => exact .inr (.inr (.inr h))

theorem isDead_peerMakeDead {q : Nat} (h : q = p ∨ (dev.peers q).isDead = true) :
    ((dev.peerMakeDead p).peers q).isDead = true := by
  dsimp only [peerMakeDead, modifyPeer]
  by_cases hq : q = p
  · rw [hq, update_self]
  · rw [update_of_ne hq]
    exact h.resolve_left hq

theorem changes_wgPeerRemove (dev : ConfigDevice) (p : Nat) : Changes pubkeyBucket rest dev (dev.wgPeerRemove p) :=
  (ReflTransGen.single (.removeAfterDead (isDead_peerMakeDead (.inl rfl)))).head (.makeDead p)

theorem changes_foldl_peerMakeDead (l : List Nat) (dev : ConfigDevice) :
    Changes pubkeyBucket rest dev (l.foldl peerMakeDead dev) ∧
    ∀ p, p ∈ l ∨ (dev.peers p).isDead = true → ((l.foldl peerMakeDead dev).peers p).isDead = true := by
  induction l generalizing dev with
  | nil => exact ⟨.refl, fun p hp => hp.resolve_left List.not_mem_nil⟩
  | cons q l ih =>
    obtain ⟨hchanges, hdead⟩ := ih (dev.peerMakeDead q)
    refine ⟨hchanges.head (.makeDead q), fun p hp => hdead p ?_⟩
    rw [List.mem_cons, or_assoc, or_left_comm] at hp
    exact hp.imp_right isDead_peerMakeDead

theorem changes_foldl_peerRemoveAfterDead (l : List Nat) (h : ∀ p ∈ l, (dev.peers p).isDead = true) :
    Changes pubkeyBucket rest dev (l.foldl peerRemoveAfterDead dev) := by
  induction l generalizing dev with
  | nil => exact .refl
  | cons q l ih =>
    refine (ih fun p hp => ?_).head (.removeAfterDead (h q List.mem_cons_self))
    rw [(sameView_removeAfterDead dev q).isDead]
    exact h p (List.mem_cons_of_mem q hp)

theorem changes_wgPeerRemoveAll (hall : dev.wgPeerRemoveAll = some dev') : Changes pubkeyBucket rest dev dev' := by
  obtain ⟨a, ha, rfl⟩ := Option.map_eq_some_iff.mp hall
  have hexec : (AllowedipsCall.free : AllowedipsCall Nat).exec dev.allowedips = some (.ok, a) := by
    rw [AllowedipsCall.exec, ha]
    rfl
  obtain ⟨hchanges, hdead⟩ := changes_foldl_peerMakeDead dev.peerList { dev with allowedips := a }
  exact (hchanges.head (.table hexec)).trans
    (changes_foldl_peerRemoveAfterDead dev.peerList fun p hp => hdead p (.inl hp))

theorem sameView_foldl_rekeyPeer (send : Bool) (l : List Nat) (dev : ConfigDevice) :
    dev.SameView (l.foldl (rekeyPeer C send) dev) := by
  induction l generalizing dev with
  | nil => exact ⟨rfl, rfl, rfl, fun _ => rfl⟩
  | cons p l ih =>
    refine SameView.trans ?_ (ih _)
    have h := SameView.modifyPeer dev p
      (fun peer => (peer.precomputeStaticStatic C dev.identity).expireCurrentPeerKeypairs) fun _ => rfl
    unfold rekeyPeer
    dsimp only
    split
    · exact h.trans ⟨rfl, rfl, rfl, fun _ => rfl⟩
    · exact h

/-! ### Requests -/

theorem changes_setAllowedip {attrs : AllowedipAttrs} {ret : Int} (h : dev.setAllowedip p attrs = some (ret, dev')) :
    Changes pubkeyBucket rest dev dev' := by
  have hinsert : ∀ call : AllowedipsCall Nat, dev.insertAllowedip call = some (ret, dev') →
    Changes pubkeyBucket rest dev dev' := by
    intro call hcall
    obtain ⟨⟨r, a⟩, hexec, hout⟩ := Option.map_eq_some_iff.mp hcall
    cases hout
    exact .single (.table hexec)
  unfold setAllowedip at h
  split at h
  · split at h
    · exact hinsert _ h
    split at h
    · exact hinsert _ h
    · cases h
      exact .refl
  · cases h
    exact .refl

theorem changes_forEachNested {A : Type} {body : ConfigDevice → A → Option (Int × ConfigDevice)}
    (hbody : ∀ {dev dev' : ConfigDevice} {attrs : A} {ret : Int}, body dev attrs = some (ret, dev') →
      Changes pubkeyBucket rest dev dev')
    {l : List (Option A)} {ret : Int} (h : dev.forEachNested body l = some (ret, dev')) :
    Changes pubkeyBucket rest dev dev' := by
  induction l generalizing dev with
  | nil =>
    cases h
    exact .refl
  | cons attrs l ih =>
    rcases attrs with - | attrs
    · cases h
      exact .refl
    · unfold forEachNested at h
      split at h
      · cases h
      case h_2 ret₁ dev₁ hout =>
        split at h
        · cases h
          exact hbody hout
        · exact (hbody hout).trans (ih h)

theorem changes_setPersistentKeepalive (dev : ConfigDevice) (p : Nat) (interval : Option UInt16) :
    Changes pubkeyBucket rest dev (dev.setPersistentKeepalive p interval) := by
  rcases interval with - | interval
  · exact .refl
  have h : Changes pubkeyBucket rest dev (dev.modifyPeer p ({ · with persistentKeepaliveInterval := interval })) :=
    .single (.modifyPeer p (fun _ => rfl) fun _ => rfl)
  unfold setPersistentKeepalive
  dsimp only
  split
  · exact h.tail (.device ⟨rfl, rfl, rfl, rfl, rfl⟩)
  · exact h

theorem changes_configurePeer {attrs : PeerAttrs} {presharedKey : Option Bytes} {flags : U32} {ret : Int}
    (h : dev.configurePeer attrs presharedKey flags p = some (ret, dev')) : Changes pubkeyBucket rest dev dev' := by
  unfold configurePeer at h
  split at h
  · cases h
    exact changes_wgPeerRemove dev p
  have hset : Changes pubkeyBucket rest dev
      (dev.modifyPeer p fun peer => (peer.setPresharedKey presharedKey).setEndpoint attrs.endpoint) :=
    .single (.modifyPeer p (fun peer => peer.isDead_set presharedKey attrs.endpoint)
      fun peer => peer.session_set presharedKey attrs.endpoint)
  dsimp only at h
  generalize dev.modifyPeer p (fun peer => (peer.setPresharedKey presharedKey).setEndpoint
    attrs.endpoint) = dev₁ at hset h
  have hreplace : Changes pubkeyBucket rest dev₁ (if flags &&& wgpeerFReplaceAllowedips ≠ 0 then
      { dev₁ with allowedips := dev₁.allowedips.wgAllowedipsRemoveByPeer p } else dev₁) := by
    split
    · exact .single (.table (rfl : (AllowedipsCall.removeByPeer p).exec dev₁.allowedips = _))
    · exact .refl
  generalize (if flags &&& wgpeerFReplaceAllowedips ≠ 0 then
      { dev₁ with allowedips := dev₁.allowedips.wgAllowedipsRemoveByPeer p } else dev₁) = dev₂ at hreplace h
  split at h
  · cases h
  case h_2 ret₁ dev₃ hout =>
  have hips : Changes pubkeyBucket rest dev dev₃ :=
    (hset.trans hreplace).trans (changes_forEachNested (fun h => changes_setAllowedip h) hout)
  split at h
  · cases h
    exact hips
  cases h
  refine (hips.trans (changes_setPersistentKeepalive dev₃ p attrs.persistentKeepaliveInterval)).tail (.device ?_)
  split <;> exact ⟨rfl, rfl, rfl, rfl, rfl⟩

theorem changes_setPeer {attrs : PeerAttrs} {ret : Int} (h : dev.setPeer C pubkeyBucket attrs = some (ret, dev')) :
    Changes pubkeyBucket rest dev dev' := by
  unfold setPeer at h
  dsimp only at h
  split at h
  · cases h
    exact .refl
  split at h
  · cases h
    exact .refl
  split at h
  · cases h
    exact .refl
  split at h
  · exact changes_configurePeer h
  split at h
  · cases h
    exact .refl
  split at h
  · cases h
    exact .refl
  split at h
  · cases h
    exact .refl
  case h_2 q dev₁ hcreate =>
  have hadd : Changes pubkeyBucket rest dev dev₁ := by
    unfold wgPeerCreate at hcreate
    split at hcreate
    · cases hcreate
    split at hcreate
    · cases hcreate
    · cases hcreate
      exact .single (.create rfl)
  exact hadd.trans (changes_configurePeer h)

theorem changes_removeSelf (dev : ConfigDevice) (privateKey : Bytes) :
    Changes pubkeyBucket rest dev (dev.removeSelf C pubkeyBucket privateKey) := by
  unfold removeSelf
  split
  · exact .refl
  · exact changes_wgPeerRemove dev _

theorem sameTables_applyListenPort (dev : ConfigDevice) (attrs : DeviceAttrs) :
    dev.SameTables ((dev.applyFwmark attrs).applyListenPort attrs).2 := by
  unfold applyListenPort
  split
  · exact ⟨rfl, rfl, rfl, rfl, rfl⟩
  unfold setPort
  split
  · exact ⟨rfl, rfl, rfl, rfl, rfl⟩
  split
  · exact ⟨rfl, rfl, rfl, rfl, rfl⟩
  split <;> exact ⟨rfl, rfl, rfl, rfl, rfl⟩

/-- A request, up to the private key and from there on. -/
theorem wgSetDevice_cases {attrs : DeviceAttrs} {ret : Int}
    (h : dev.wgSetDevice C pubkeyBucket attrs = some (ret, dev')) :
    (ret ≠ 0 ∧ Changes pubkeyBucket rest dev dev') ∨
    ∃ dev₁, Changes pubkeyBucket rest dev dev₁ ∧
      Changes pubkeyBucket rest (dev₁.applyPrivateKey C pubkeyBucket attrs) dev' := by
  unfold wgSetDevice at h
  split at h
  · cases h
    exact .inl ⟨by decide, .refl⟩
  split at h
  · cases h
    exact .inl ⟨by decide, .refl⟩
  have hport : Changes pubkeyBucket rest dev _ := .single (.device (sameTables_applyListenPort dev attrs))
  dsimp only at h
  generalize (dev.applyFwmark attrs).applyListenPort attrs = out at hport h
  by_cases hret : out.1 ≠ 0
  · rw [if_pos hret] at h
    cases h
    exact .inl ⟨hret, hport⟩
  rw [if_neg hret] at h
  cases hreplace : out.2.applyReplacePeers attrs with
  | none =>
    rw [hreplace] at h
    cases h
  | some dev₁ =>
    rw [hreplace] at h
    refine .inr ⟨dev₁, hport.trans ?_, changes_forEachNested (fun h => changes_setPeer h) h⟩
    unfold applyReplacePeers at hreplace
    split at hreplace
    · exact changes_wgPeerRemoveAll hreplace
    · cases hreplace
      exact .refl

theorem changes_applyPrivateKey (dev : ConfigDevice) (attrs : DeviceAttrs) :
    Changes pubkeyBucket SameView dev (dev.applyPrivateKey C pubkeyBucket attrs) := by
  unfold applyPrivateKey
  split
  · exact .refl
  case h_2 privateKey _ =>
    unfold setPrivateKey
    split
    · exact .refl
    have hself : Changes pubkeyBucket SameView dev (dev.removeSelf C pubkeyBucket privateKey) :=
      changes_removeSelf dev privateKey
    dsimp only
    generalize dev.removeSelf C pubkeyBucket privateKey = dev₁ at hself ⊢
    have hset : dev₁.SameView { dev₁ with identity := setStaticIdentityPrivateKey C dev₁.identity privateKey } :=
      ⟨rfl, rfl, rfl, fun _ => rfl⟩
    exact hself.tail (.other (hset.trans (sameView_foldl_rekeyPeer _ _ _)))

theorem changes_wgSetDevice {attrs : DeviceAttrs} {ret : Int}
    (h : dev.wgSetDevice C pubkeyBucket attrs = some (ret, dev')) : Changes pubkeyBucket SameView dev dev' := by
  rcases wgSetDevice_cases h with ⟨-, hchanges⟩ | ⟨dev₁, hbefore, hafter⟩
  · exact hchanges
  · exact (hbefore.trans (changes_applyPrivateKey dev₁ attrs)).trans hafter

end ConfigDevice
end WireguardAes
