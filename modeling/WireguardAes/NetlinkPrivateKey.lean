import WireguardAes.NetlinkChanges

/-!
# Requests with a private key (`netlink.c`, `noise.c`)

`wg_set_device` leaves out the setting of a key that it finds to be set already, comparing the key
as it was given with the one that is stored, which has been clamped. So a key that is not clamped is
set again each time. And the key of all zeros, with which the identity is removed, is stored clamped
as well: the device then holds a key without an identity, and that key cannot be set.
-/

namespace WireguardAes

open Function Runs

/-! ### Clamping -/

theorem clampFirst_idem (b : UInt8) : (b &&& 248) &&& 248 = b &&& 248 := by
  rw [UInt8.and_assoc]
  rfl

theorem clampLast_idem (b : UInt8) : (((b &&& 127) ||| 64) &&& 127) ||| 64 = (b &&& 127) ||| 64 := by
  apply UInt8.eq_of_toBitVec_eq
  simp only [UInt8.toBitVec_or, UInt8.toBitVec_and]
  generalize b.toBitVec = x
  revert x
  decide

theorem clampLast_ne_zero (b : UInt8) : (b &&& 127) ||| 64 ≠ 0 := by
  intro he
  have he := congrArg UInt8.toBitVec he
  simp only [UInt8.toBitVec_or, UInt8.toBitVec_and] at he
  generalize b.toBitVec = x at he
  revert x
  decide

theorem curve25519ClampSecret_idem (k : Bytes) :
    curve25519ClampSecret (curve25519ClampSecret k) = curve25519ClampSecret k := by
  unfold curve25519ClampSecret
  apply List.ext_getElem?
  intro i
  simp only [List.getElem?_modify]
  by_cases h0 : i = 0
  · subst h0
    rcases k[0]? with _ | b <;> simp [clampFirst_idem]
  · by_cases h31 : i = 31
    · subst h31
      rcases k[31]? with _ | b <;> simp [clampLast_idem]
    · simp [Ne.symm h0, Ne.symm h31]

theorem curve25519ClampSecret_ne_zero {k : Bytes} (hk : k.length = noisePublicKeyLen) :
    curve25519ClampSecret k ≠ zeroPoint := by
  intro he
  have hget : (curve25519ClampSecret k)[31]? = (zeroPoint)[31]? := by rw [he]
  obtain ⟨b, hb⟩ : ∃ b, k[31]? = some b := ⟨_, List.getElem?_eq_getElem (by rw [hk]; decide)⟩
  rw [curve25519ClampSecret, List.getElem?_modify, List.getElem?_modify, hb] at hget
  exact clampLast_ne_zero b (Option.some.inj hget)

/-- Key generation fails for the key of all zeros only. -/
def FailsForZero (C : Crypto) : Prop :=
  ∀ k, k.length = noisePublicKeyLen → (C.curve25519GeneratePublic k = none ↔ k = zeroPoint)

/-- `curve25519_generate_public` clamps the key itself. -/
def PublicOfClamped (C : Crypto) : Prop :=
  ∀ k, k.length = noisePublicKeyLen → ∀ publicKey, C.curve25519GeneratePublic k = some publicKey →
    C.curve25519GeneratePublic (curve25519ClampSecret k) = some publicKey

/-- The identity of the private key `k`. -/
structure NoiseStaticIdentity.IsOf (C : Crypto) (identity : NoiseStaticIdentity) (k : Bytes) : Prop where
  hasIdentity : identity.hasIdentity = (C.curve25519GeneratePublic k).isSome
  staticPrivate : identity.staticPrivate = curve25519ClampSecret k
  staticPublic : ∀ publicKey, C.curve25519GeneratePublic k = some publicKey → identity.staticPublic = publicKey

theorem isOf_setStaticIdentityPrivateKey (C : Crypto) (identity : NoiseStaticIdentity) (k : Bytes) :
    (setStaticIdentityPrivateKey C identity k).IsOf C k := by
  refine ⟨rfl, rfl, fun publicKey hgen => ?_⟩
  rw [setStaticIdentityPrivateKey, hgen, Option.getD_some]

namespace ConfigDevice

variable {C : Crypto} {pubkeyBucket : Bytes → PubkeyBucket} {dev dev' dev'' : ConfigDevice}
    {p : Nat} {k : Bytes} {ret : Int}
variable {attrs : DeviceAttrs}

/-- The sessions of the peers that are not removed, and the identity. -/
structure KeepsSessions (dev dev' : ConfigDevice) : Prop where
  identity : dev'.identity = dev.identity
  created : dev.created ≤ dev'.created
  session : ∀ p < dev.created, (dev'.peers p).isDead = false →
    (dev.peers p).isDead = false ∧ (dev'.peers p).session = (dev.peers p).session
  listed : ∀ p < dev.created, (dev'.peers p).isDead = false → p ∈ dev.peerList → p ∈ dev'.peerList

namespace KeepsSessions

theorem of_peers (hid : dev'.identity = dev.identity) (hcreated : dev'.created = dev.created)
    (hpeers : dev'.peers = dev.peers) (hlist : dev'.peerList = dev.peerList) : dev.KeepsSessions dev' := by
  refine ⟨hid, Nat.le_of_eq hcreated.symm, fun p _ hp => ?_, fun p _ _ hp => hlist ▸ hp⟩
  rw [hpeers] at hp ⊢
  exact ⟨hp, rfl⟩

theorem refl (dev : ConfigDevice) : dev.KeepsSessions dev := of_peers rfl rfl rfl rfl

theorem trans (h : dev.KeepsSessions dev') (h' : dev'.KeepsSessions dev'') : dev.KeepsSessions dev'' := by
  refine ⟨h'.identity.trans h.identity, Nat.le_trans h.created h'.created, fun p hp hdead => ?_,
    fun p hp hdead hmem => ?_⟩
  all_goals
    have hp' := Nat.lt_of_lt_of_le hp h.created
    obtain ⟨hdead', hs'⟩ := h'.session p hp' hdead
  · obtain ⟨hdead, hs⟩ := h.session p hp hdead'
    exact ⟨hdead, hs'.trans hs⟩
  · exact h'.listed p hp' hdead (h.listed p hp hdead' hmem)

theorem modifyPeer (dev : ConfigDevice) (p : Nat) (f : ConfigPeer → ConfigPeer)
    (hdead : ∀ peer : ConfigPeer, (f peer).isDead = peer.isDead)
    (hs : ∀ peer : ConfigPeer, (f peer).session = peer.session) : dev.KeepsSessions (dev.modifyPeer p f) := by
  refine ⟨rfl, Nat.le_refl _, fun q _ hq => ?_, fun _ _ _ hmem => hmem⟩
  by_cases hqp : q = p
  · subst hqp
    simp only [ConfigDevice.modifyPeer, update_self, hdead, hs] at hq ⊢
    exact ⟨hq, trivial⟩
  · simp only [ConfigDevice.modifyPeer, update_of_ne hqp] at hq ⊢
    exact ⟨hq, trivial⟩

theorem addPeer (dev : ConfigDevice) (peer : ConfigPeer) : dev.KeepsSessions (dev.addPeer pubkeyBucket peer) := by
  refine ⟨rfl, Nat.le_succ _, fun p hp hdead => ?_, fun p _ _ hmem => List.mem_append_left _ hmem⟩
  simp only [ConfigDevice.addPeer, update_of_ne (Nat.ne_of_lt hp)] at hdead ⊢
  exact ⟨hdead, trivial⟩

/-- A peer that is dead afterwards may have changed in any way. -/
theorem kill (hid : dev'.identity = dev.identity) (hcreated : dev'.created = dev.created)
    (hdead : (dev'.peers p).isDead = true) (hother : ∀ q, q ≠ p → dev'.peers q = dev.peers q)
    (hlist : ∀ q, q ≠ p → q ∈ dev.peerList → q ∈ dev'.peerList) : dev.KeepsSessions dev' := by
  have hne {q : Nat} (hq : (dev'.peers q).isDead = false) : q ≠ p := by
    rintro rfl
    exact Bool.false_ne_true (hq.symm.trans hdead)
  refine ⟨hid, Nat.le_of_eq hcreated.symm, fun q _ hq => ?_, fun q _ hq => hlist q (hne hq)⟩
  have hsame := hother q (hne hq)
  rw [hsame] at hq ⊢
  exact ⟨hq, rfl⟩

theorem change (h : Change pubkeyBucket (fun _ _ => False) dev dev') : dev.KeepsSessions dev' := by
  cases h with
  | table => exact of_peers rfl rfl rfl rfl
  | create => exact addPeer dev _
  | makeDead p =>
    exact kill rfl rfl (isDead_peerMakeDead (.inl rfl)) (fun q hq => update_of_ne hq ..)
      fun q hq hmem => (List.mem_erase_of_ne hq).mpr hmem
  | @removeAfterDead p hdead =>
    exact kill (p := p) rfl rfl (((sameView_removeAfterDead dev p).isDead p).trans hdead)
      (fun q hq => update_of_ne hq ..) fun _ _ hmem => hmem
  | modifyPeer p hdead hsession => exact modifyPeer dev p _ hdead hsession
  | device h => exact of_peers h.identity h.created h.peers h.peerList
  | other h => exact h.elim

theorem changes (h : Changes pubkeyBucket (fun _ _ => False) dev dev') : dev.KeepsSessions dev' := by
  induction h with
  | refl => exact .refl dev
  | tail _ h ih => exact ih.trans (change h)

end KeepsSessions

theorem keepsSessions_cases (h : dev.wgSetDevice C pubkeyBucket attrs = some (ret, dev')) :
    (ret ≠ 0 ∧ dev.KeepsSessions dev') ∨
    ∃ dev₁, dev.KeepsSessions dev₁ ∧ (dev₁.applyPrivateKey C pubkeyBucket attrs).KeepsSessions dev' := by
  rcases wgSetDevice_cases h with ⟨hret, hchanges⟩ | ⟨dev₁, hbefore, hafter⟩
  · exact .inl ⟨hret, .changes hchanges⟩
  · exact .inr ⟨dev₁, .changes hbefore, .changes hafter⟩

theorem KeepsSessions.removeSelf (C : Crypto) (pubkeyBucket : Bytes → PubkeyBucket) (dev : ConfigDevice) (k : Bytes) :
    dev.KeepsSessions (dev.removeSelf C pubkeyBucket k) :=
  .changes (changes_removeSelf dev k)

theorem identity_setPrivateKey (dev : ConfigDevice) (k : Bytes) :
    (dev.setPrivateKey C pubkeyBucket k).identity =
      if dev.identity.staticPrivate = k then dev.identity else setStaticIdentityPrivateKey C dev.identity k := by
  unfold setPrivateKey
  split
  · rfl
  · dsimp only
    rw [(Configured.foldl_rekeyPeer C _ _ _).identity, (KeepsSessions.removeSelf C pubkeyBucket dev k).identity]

/-- The identity of a device that has one was made from a key. -/
def IdentityOk (C : Crypto) (dev : ConfigDevice) : Prop :=
  dev.identity.hasIdentity = true → ∃ k, k.length = noisePublicKeyLen ∧ dev.identity.staticPrivate =
    curve25519ClampSecret k ∧
    C.curve25519GeneratePublic k = some dev.identity.staticPublic

theorem IdentityOk.set (C : Crypto) (hdev : dev.identity = setStaticIdentityPrivateKey C dev'.identity k)
    (hk : k.length = noisePublicKeyLen) : dev.IdentityOk C := by
  unfold IdentityOk
  rw [hdev]
  intro hid
  obtain ⟨publicKey, hgen⟩ := Option.isSome_iff_exists.mp hid
  refine ⟨k, hk, rfl, ?_⟩
  rw [setStaticIdentityPrivateKey, hgen, Option.getD_some]

theorem IdentityOk.step (h : dev.IdentityOk C) {ev : ConfigEvent} (hs : dev.step C pubkeyBucket ev = some dev') :
    dev'.IdentityOk C := by
  have hsame : ∀ {d : ConfigDevice}, d.identity = dev.identity → d.IdentityOk C := by
    intro d hd
    unfold IdentityOk
    rw [hd]
    exact h
  rcases ev with attrs | ⟨p, state, keypairs, endpoint⟩ | running
  · obtain ⟨⟨ret, dev₁⟩, hout, rfl⟩ := Option.map_eq_some_iff.mp hs
    rcases keepsSessions_cases hout with ⟨-, hkeep⟩ | ⟨dev₂, hbefore, hafter⟩
    · exact hsame hkeep.identity
    have hid := hafter.identity
    unfold applyPrivateKey at hid
    split at hid
    · exact hsame (hid.trans hbefore.identity)
    case h_2 k hk =>
      rw [identity_setPrivateKey] at hid
      split at hid
      · exact hsame (hid.trans hbefore.identity)
      · have hlen := (Option.filter_eq_some_iff.mp hk).2
        exact .set C hid (of_decide_eq_true hlen)
  · cases hs
    exact hsame rfl
  · cases hs
    exact hsame rfl

theorem applyPrivateKey_eq (hkey : attrs.privateKey = some k) (hlen : k.length = noisePublicKeyLen)
    (dev : ConfigDevice) : dev.applyPrivateKey C pubkeyBucket attrs = dev.setPrivateKey C pubkeyBucket k := by
  rw [applyPrivateKey, hkey, Option.filter_some, if_pos (decide_eq_true hlen)]

/-- The key that is found to be set already is the one of the identity. -/
theorem IdentityOk.isOf (h : dev.IdentityOk C) (hC : PublicOfClamped C) (hid : dev.identity.hasIdentity = true) :
    dev.identity.IsOf C dev.identity.staticPrivate := by
  obtain ⟨k, hlen, hpriv, hgen⟩ := h hid
  have hgen' := hC k hlen _ hgen
  rw [← hpriv] at hgen'
  refine ⟨?_, ?_, fun publicKey hpub => ?_⟩
  · rw [hgen', hid, Option.isSome_some]
  · rw [hpriv, curve25519ClampSecret_idem]
  · rw [hgen'] at hpub
    exact Option.some.inj hpub

/-- The sending key of the current keypair is valid. -/
def CurrentValid (dev : ConfigDevice) (p : Nat) : Prop := (dev.peers p).keypairs.currentKeypair = some true

theorem peers_rekeyPeer (send : Bool) (dev : ConfigDevice) (q : Nat) : (rekeyPeer C send dev q).peers =
    update dev.peers q (((dev.peers q).precomputeStaticStatic C dev.identity).expireCurrentPeerKeypairs) := by
  unfold rekeyPeer
  cases send <;> rfl

theorem not_currentValid_rekeyPeer (send : Bool) {q : Nat} (h : p = q ∨ ¬ dev.CurrentValid p) :
    ¬ (rekeyPeer C send dev q).CurrentValid p := by
  unfold CurrentValid at h ⊢
  rw [peers_rekeyPeer, update_apply]
  split
  · show (dev.peers q).keypairs.currentKeypair.map (fun _ => false) ≠ some true
    rcases (dev.peers q).keypairs.currentKeypair with - | valid <;> simp
  · exact h.resolve_left ‹_›

/-- The loop over the peers leaves no valid current keypair. -/
theorem not_currentValid_foldl (send : Bool) {l : List Nat} (h : p ∈ l ∨ ¬ dev.CurrentValid p) :
    ¬ (l.foldl (rekeyPeer C send) dev).CurrentValid p := by
  induction l generalizing dev with
  | nil => exact h.resolve_left List.not_mem_nil
  | cons q l ih =>
    refine ih ?_
    rcases h with h | h
    · exact (List.mem_cons.mp h).symm.imp_right fun hpq => not_currentValid_rekeyPeer send (.inl hpq)
    · exact .inr (not_currentValid_rekeyPeer send (.inr h))

/-- A key that is not found to be set ends the sessions of the peers that are left. -/
theorem setPrivateKey_ends_sessions (C : Crypto) (pubkeyBucket : Bytes → PubkeyBucket)
    (hne : dev.identity.staticPrivate ≠ k) :
    dev.created ≤ (dev.setPrivateKey C pubkeyBucket k).created ∧
    ∀ p < dev.created, ((dev.setPrivateKey C pubkeyBucket k).peers p).isDead = false →
      (dev.peers p).isDead = false ∧ (p ∈ dev.peerList → ¬ (dev.setPrivateKey C pubkeyBucket k).CurrentValid p) := by
  have hremove := KeepsSessions.removeSelf C pubkeyBucket dev k
  unfold setPrivateKey
  rw [if_neg hne]
  dsimp only
  refine ⟨?_, fun p hp hdead => ?_⟩
  · rw [(Configured.foldl_rekeyPeer C _ _ _).created]
    exact hremove.created
  rw [(sameView_foldl_rekeyPeer _ _ _).isDead] at hdead
  exact ⟨(hremove.session p hp hdead).1, fun hmem => not_currentValid_foldl _ (.inl (hremove.listed p hp hdead hmem))⟩

theorem identity_wgSetDevice (hkey : attrs.privateKey = some k) (hlen : k.length = noisePublicKeyLen)
    (h : dev.wgSetDevice C pubkeyBucket attrs = some (0, dev')) : dev'.identity =
      if dev.identity.staticPrivate = k then dev.identity else setStaticIdentityPrivateKey C dev.identity k := by
  rcases keepsSessions_cases h with ⟨hne, -⟩ | ⟨dev₁, hbefore, hafter⟩
  · exact absurd rfl hne
  · rw [applyPrivateKey_eq hkey hlen] at hafter
    rw [hafter.identity, identity_setPrivateKey, hbefore.identity]

/-- A request with the key that the device holds keeps the sessions. -/
theorem keepsSessions_of_held {attrs : DeviceAttrs} (hkey : attrs.privateKey = some k)
    (hlen : k.length = noisePublicKeyLen)
    (hset : dev.wgSetDevice C pubkeyBucket attrs = some (ret, dev')) (hheld : dev.identity.staticPrivate = k) :
    dev.KeepsSessions dev' := by
  rcases keepsSessions_cases hset with ⟨-, hkeeps⟩ | ⟨dev₁, hbefore, hafter⟩
  · exact hkeeps
  · rw [applyPrivateKey_eq hkey hlen, setPrivateKey, if_pos (hbefore.identity ▸ hheld)] at hafter
    exact hbefore.trans hafter

/-- A request with another key that succeeds ends the sessions of the peers that it does not
remove. -/
theorem session_ne_of_not_held {attrs : DeviceAttrs} (hkey : attrs.privateKey = some k)
    (hlen : k.length = noisePublicKeyLen)
    (hset : dev.wgSetDevice C pubkeyBucket attrs = some (0, dev')) (hne : dev.identity.staticPrivate ≠ k)
    (hp : p < dev.created) (hmem : p ∈ dev.peerList) (hvalid : dev.CurrentValid p)
    (hdead : (dev'.peers p).isDead = false) : (dev'.peers p).session ≠ (dev.peers p).session := by
  rcases keepsSessions_cases hset with ⟨h, -⟩ | ⟨dev₁, hbefore, hafter⟩
  · exact absurd rfl h
  rw [applyPrivateKey_eq hkey hlen] at hafter
  have hp₁ : p < dev₁.created := Nat.lt_of_lt_of_le hp hbefore.created
  have hne₁ : dev₁.identity.staticPrivate ≠ k := hbefore.identity ▸ hne
  obtain ⟨hcreated, hends⟩ := setPrivateKey_ends_sessions C pubkeyBucket hne₁
  obtain ⟨hdead₂, hkept⟩ := hafter.session p (Nat.lt_of_lt_of_le hp₁ hcreated) hdead
  obtain ⟨hdead₁, hends⟩ := hends p hp₁ hdead₂
  intro hsession
  refine hends (hbefore.listed p hp hdead₁ hmem) ?_
  have hpairs := congrArg (·.2.currentKeypair) (hkept.symm.trans hsession)
  exact hpairs.trans hvalid

/-- A request with `k` that has succeeded leaves the device with the identity of `k` exactly if the
device did not hold `k` without an identity. The same request sent once more changes no session of a
peer that it does not remove, if `k` is clamped or was held before the first one; and if neither, it
ends the session of every such peer. -/
theorem private_key_set (C : Crypto) (hC : PublicOfClamped C) (hzero : FailsForZero C)
    (pubkeyBucket : Bytes → PubkeyBucket)
    (dev : ConfigDevice) (hrun : Exec (step C pubkeyBucket) (fun _ _ => True) (new C) dev)
    (attrs : DeviceAttrs) (k : Bytes)
    (hkey : attrs.privateKey = some k) (hlen : k.length = noisePublicKeyLen) (dev' : ConfigDevice)
    (hret : dev.wgSetDevice C pubkeyBucket attrs = some (0, dev')) :
    (dev'.identity.IsOf C k ↔ (dev.identity.staticPrivate = k → dev.identity.hasIdentity = true)) ∧
    ∀ (dev₁ : ConfigDevice) (ret : Int) (dev₂ : ConfigDevice), dev₁.identity = dev'.identity →
      dev₁.wgSetDevice C pubkeyBucket attrs = some (ret, dev₂) →
      (curve25519ClampSecret k = k ∨ dev.identity.staticPrivate = k → ∀ p < dev₁.created,
        (dev₂.peers p).isDead = false →
        (dev₂.peers p).session = (dev₁.peers p).session) ∧
      (ret = 0 → ∀ p < dev₁.created, p ∈ dev₁.peerList → dev₁.CurrentValid p → (dev₂.peers p).isDead = false →
        ((dev₂.peers p).session = (dev₁.peers p).session ↔
          curve25519ClampSecret k = k ∨ dev.identity.staticPrivate = k)) := by
  have hok : dev.IdentityOk C := hrun.inv (I := IdentityOk C) nofun fun _ _ _ _ h hs => h.step hs
  have hid := identity_wgSetDevice hkey hlen hret
  refine ⟨⟨fun hof hpriv => ?_, fun hhas => ?_⟩, fun dev₁ ret dev₂ hsame hagain => ?_⟩
  · -- a key that is held and is the clamped one is not the key of all zeros
    rw [hid, if_pos hpriv] at hof
    rw [hof.hasIdentity, Option.isSome_iff_ne_none, ne_eq, hzero k hlen]
    rintro rfl
    exact curve25519ClampSecret_ne_zero hlen (hof.staticPrivate.symm.trans hpriv)
  · rw [hid]
    split_ifs with hpriv
    · exact hpriv ▸ hok.isOf hC (hhas hpriv)
    · exact isOf_setStaticIdentityPrivateKey C dev.identity k
  have hheld : dev₁.identity.staticPrivate = k ↔ curve25519ClampSecret k = k ∨ dev.identity.staticPrivate = k := by
    rw [hsame, hid]
    by_cases hpriv : dev.identity.staticPrivate = k
    · rw [if_pos hpriv]
      exact iff_of_true hpriv (.inr hpriv)
    · rw [if_neg hpriv]
      exact (or_iff_left hpriv).symm
  have hkept (hcond : curve25519ClampSecret k = k ∨ dev.identity.staticPrivate = k) : dev₁.KeepsSessions dev₂ :=
    keepsSessions_of_held hkey hlen hagain (hheld.mpr hcond)
  refine ⟨fun hcond p hp hdead => ((hkept hcond).session p hp hdead).2, ?_⟩
  rintro rfl p hp hmem hvalid hdead
  refine ⟨fun hsession => hheld.mp ?_, fun hcond => ((hkept hcond).session p hp hdead).2⟩
  by_contra hne
  exact session_ne_of_not_held hkey hlen hagain hne hp hmem hvalid hdead hsession

/-- Key generation that fails for the key of all zeros only. -/
def clampingCrypto : Crypto :=
  { plainCrypto with
    curve25519GeneratePublic := fun k => if k = zeroPoint then none else some (curve25519ClampSecret k) }

theorem publicOfClamped_clampingCrypto : PublicOfClamped clampingCrypto := by
  intro k hk publicKey hgen
  have hne : k ≠ zeroPoint := by
    rintro rfl
    cases hgen
  simp only [clampingCrypto, if_neg hne, if_neg (curve25519ClampSecret_ne_zero hk),
    curve25519ClampSecret_idem] at hgen ⊢
  exact hgen

theorem failsForZero_clampingCrypto : FailsForZero clampingCrypto := by
  intro k _
  simp only [clampingCrypto]
  split <;> simp_all

/-- A peer with a session, after the private key has been set to `k`. -/
def sessionUnder (k : Bytes) : List ConfigEvent :=
  [.request (keyAttrs (sampleKey 9) (some [some (peerAttrs (sampleKey 7) 0)])), .request (keyAttrs k none),
    .activity 0 .zeroed ⟨some true, none, none⟩ none]

def currentValid (dev : ConfigDevice) : Option Bool := (dev.peers 0).keypairs.currentKeypair

theorem private_key_set_clamped :
    ∃ dev dev', Exec (step clampingCrypto fun _ => 0) (fun _ _ => True) (new clampingCrypto) dev ∧
    dev.wgSetDevice clampingCrypto (fun _ => 0) (keyAttrs (curve25519ClampSecret (sampleKey 1)) none) = some (0, dev') ∧
    dev'.identity.IsOf clampingCrypto (curve25519ClampSecret (sampleKey 1)) := by
  have hrun : ∃ dev, Exec (step clampingCrypto fun _ => 0) (fun _ _ => True) (new clampingCrypto) dev ∧
      ((dev.wgSetDevice clampingCrypto (fun _ => 0) (keyAttrs (curve25519ClampSecret (sampleKey 1)) none)).map Prod.fst,
        dev.identity.hasIdentity) = (some 0, true) :=
    Exec.exists_of_foldlM (sessionUnder (curve25519ClampSecret (sampleKey 1))) (fun dev : ConfigDevice =>
      ((dev.wgSetDevice clampingCrypto (fun _ => 0) (keyAttrs (curve25519ClampSecret (sampleKey 1)) none)).map Prod.fst,
        dev.identity.hasIdentity)) (by decide +kernel)
  obtain ⟨dev, hrun, hdev⟩ := hrun
  obtain ⟨hret, hid⟩ := Prod.mk.inj hdev
  obtain ⟨⟨ret, dev'⟩, hout, rfl⟩ := Option.map_eq_some_iff.mp hret
  have h := private_key_set clampingCrypto publicOfClamped_clampingCrypto
    failsForZero_clampingCrypto (fun _ => 0) dev hrun _ _ rfl (by decide) dev' hout
  exact ⟨dev, dev', hrun, hout, h.1.mpr fun _ => hid⟩

/-- A key that is not clamped, sent once more: the session is lost. And the key that the device
holds after its identity was removed: the request succeeds, and there is no identity. -/
theorem private_key_ignored_or_repeated :
    (∃ dev dev', Exec (step clampingCrypto fun _ => 0) (fun _ _ => True) (new clampingCrypto) dev ∧
      dev.wgSetDevice clampingCrypto (fun _ => 0) (keyAttrs (sampleKey 1) none) = some (0, dev') ∧
      dev.identity.staticPrivate = curve25519ClampSecret (sampleKey 1) ∧
      dev.currentValid = some true ∧ dev'.currentValid = some false) ∧
    ∃ dev dev', Exec (step clampingCrypto fun _ => 0) (fun _ _ => True) (new clampingCrypto) dev ∧
      dev.wgSetDevice clampingCrypto (fun _ => 0) (keyAttrs (curve25519ClampSecret zeroPoint) none) = some (0, dev') ∧
      (clampingCrypto.curve25519GeneratePublic (curve25519ClampSecret zeroPoint)).isSome = true ∧
      dev'.identity.hasIdentity = false := by
  constructor
  · have hrun : ∃ dev, Exec (step clampingCrypto fun _ => 0) (fun _ _ => True) (new clampingCrypto) dev ∧
        ((dev.wgSetDevice clampingCrypto (fun _ => 0) (keyAttrs (sampleKey 1) none)).map fun out =>
          (out.1, out.2.currentValid), dev.identity.staticPrivate, dev.currentValid) =
          (some (0, some false), curve25519ClampSecret (sampleKey 1), some true) :=
      Exec.exists_of_foldlM (sessionUnder (sampleKey 1)) (fun dev : ConfigDevice =>
        ((dev.wgSetDevice clampingCrypto (fun _ => 0) (keyAttrs (sampleKey 1) none)).map fun out =>
          (out.1, out.2.currentValid), dev.identity.staticPrivate, dev.currentValid)) (by decide +kernel)
    obtain ⟨dev, hrun, hdev⟩ := hrun
    simp only [Prod.mk.injEq] at hdev
    obtain ⟨⟨ret, dev'⟩, hout, hret⟩ := Option.map_eq_some_iff.mp hdev.1
    obtain ⟨rfl, hvalid⟩ := Prod.mk.inj hret
    exact ⟨dev, dev', hrun, hout, hdev.2.1, hdev.2.2, hvalid⟩
  · have hrun : ∃ dev, Exec (step clampingCrypto fun _ => 0) (fun _ _ => True) (new clampingCrypto) dev ∧
        ((dev.wgSetDevice clampingCrypto (fun _ => 0) (keyAttrs (curve25519ClampSecret zeroPoint) none)).map fun out =>
          (out.1, out.2.identity.hasIdentity)) = some (0, false) :=
      Exec.exists_of_foldlM (sessionUnder zeroPoint) (fun dev : ConfigDevice =>
        ((dev.wgSetDevice clampingCrypto (fun _ => 0) (keyAttrs (curve25519ClampSecret zeroPoint) none)).map fun out =>
          (out.1, out.2.identity.hasIdentity))) (by decide +kernel)
    obtain ⟨dev, hrun, hdev⟩ := hrun
    obtain ⟨⟨ret, dev'⟩, hout, hret⟩ := Option.map_eq_some_iff.mp hdev
    obtain ⟨rfl, hid⟩ := Prod.mk.inj hret
    exact ⟨dev, dev', hrun, hout, by decide, hid⟩

end ConfigDevice
end WireguardAes
