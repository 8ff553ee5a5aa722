import WireguardAes.Noise
import WireguardAes.PeerLookup
import WireguardAes.Keypairs

/-!
# A handshake between two devices

The handshake functions of `noise.c` as a device calls them: with the peer found through one of the
two hashtables, and the index hashtable and the keypair slots updated. Every call runs to its end
here; the interleavings are in `HandshakeRuns` and `Keypairs`, as are the reference counts of the
keypairs.
-/

namespace WireguardAes

open Function

structure WgPeer where
  handshake : NoiseHandshake
  keypairs : NoiseKeypairs Nat
  isDead : Bool
  /-- `wg_peer_get_maybe_zero` gives no reference once this is zero. -/
  refcount : Nat

structure WgDevice where
  staticIdentity : NoiseStaticIdentity
  isChacha : Bool
  peers : Nat → WgPeer
  /-- The peer entered under a public key. -/
  peerHashtable : Bytes → Option Nat
  indexHashtable : IndexHashtable
  keypair : Nat → Option NoiseKeypair
  keypairCounter : Nat

namespace WgDevice

def setHandshake (wg : WgDevice) (p : Nat) (handshake : NoiseHandshake) : WgDevice :=
  { wg with peers := update wg.peers p { wg.peers p with handshake } }

def getMaybeZero (wg : WgDevice) (p : Nat) : Option Nat := if (wg.peers p).refcount = 0 then none else some p

def pubkeyHashtableLookup (wg : WgDevice) (pubkey : Bytes) : Option Nat :=
  (wg.peerHashtable pubkey).bind wg.getMaybeZero

/-- Looks for the handshake of a peer under an index. -/
def handshakeLookup (wg : WgDevice) (index : U32) : Option Nat :=
  match wg.indexHashtable.lookup true index with
  | some (.handshake p) => wg.getMaybeZero p
  | _ => none

section
variable (C : Crypto) (wg : WgDevice)

/-- What is common to `create_initiation` and `create_response`: `create` gets the index that
`wg_index_hashtable_insert` chooses, which it only calls if it reaches the end. `none` if the search
for an index does not end with `draws`. -/
def createMessage {M : Type} (p : Nat) (draws : List U32) (create : U32 → NoiseHandshake × Option M) :
    Option (WgDevice × Option M) :=
  let inserted := wg.indexHashtable.insert (.handshake p) draws
  let r := create ((inserted.map Prod.fst).getD 0)
  match r.2, inserted with
  | none, _ => some (wg.setHandshake p r.1, none)
  | some m, some (_, indexHashtable) => some ({ wg.setHandshake p r.1 with indexHashtable }, some m)
  | some _, none => none

def createInitiation (p : Nat) (secret timestamp : Bytes) (draws : List U32) :
    Option (WgDevice × Option MessageHandshakeInitiation) :=
  wg.createMessage p draws (WireguardAes.createInitiation C wg.staticIdentity (wg.peers p).handshake secret timestamp)

def createResponse (p : Nat) (secret : Bytes) (draws : List U32) :
    Option (WgDevice × Option MessageHandshakeResponse) :=
  wg.createMessage p draws (WireguardAes.createResponse C (wg.peers p).handshake secret)

/-- The clock is read twice. -/
def consumeInitiation (src : MessageHandshakeInitiation) (now now' : U64) : WgDevice × Option Nat :=
  let result := (openStatic C wg.staticIdentity src).bind fun (s, chainingKey, hash) =>
    (wg.pubkeyHashtableLookup s).bind fun p =>
    let handshake := (wg.peers p).handshake
    (openTimestamp C handshake src chainingKey hash).bind fun (t, chainingKey, hash) =>
    if replayAttack handshake t || floodAttack handshake now then none
    else some (p, writeInitiation handshake src t chainingKey hash now')
  match result with
  | none => (wg, none)
  | some (p, handshake) => (wg.setHandshake p handshake, some p)

def consumeResponse (src : MessageHandshakeResponse) : WgDevice × Option Nat :=
  let result := if !wg.staticIdentity.hasIdentity then none else
    (wg.handshakeLookup src.receiverIndex).bind fun p =>
    let handshake := (wg.peers p).handshake
    (openResponse C wg.staticIdentity handshake src).map fun (chainingKey, hash) =>
    (p, writeResponse handshake src chainingKey hash)
  match result with
  | none => (wg, none)
  | some (p, handshake) => (wg.setHandshake p handshake, some p)

/-- `keypairAlloc` and `aeadAlloc` say whether `keypair_create` and the setup of the AEAD handles
succeed. -/
def beginSession (p : Nat) (keypairAlloc aeadAlloc : Bool) (birthdate : U64) : WgDevice × Bool :=
  match newKeypair C wg.isChacha (wg.peers p).handshake birthdate with
  | none => (wg, false)
  | some keypair =>
    if !keypairAlloc then (wg, false) else
    let id := wg.keypairCounter
    let wg := { wg with keypairCounter := id + 1 }
    if !wg.isChacha && !aeadAlloc then (wg, false) else
    let wg := wg.setHandshake p (handshakeZero (wg.peers p).handshake)
    if (wg.peers p).isDead then (wg, false) else
    let (keypairs, puts) := (wg.peers p).keypairs.addNewKeypair id keypair.iAmTheInitiator
    let table := puts.foldl (fun t k => t.remove (.keypair k)) wg.indexHashtable
    let (ret, indexHashtable) := table.replace (.handshake p) (.keypair id)
    ({ wg with
        peers := update wg.peers p { wg.peers p with keypairs }
        keypair := update wg.keypair id (some keypair)
        indexHashtable }, ret)

end

end WgDevice

/-! ### The two transcripts agree -/

/-- What the primitives are documented to do. -/
structure Crypto.Documented (C : Crypto) : Prop where
  decrypts : ∀ key nonce ad src,
    C.chacha20poly1305Decrypt key nonce ad (C.chacha20poly1305Encrypt key nonce ad src) = some src
  commutes : ∀ a b A B, C.curve25519GeneratePublic a = some A → C.curve25519GeneratePublic b = some B →
    C.curve25519 a B = C.curve25519 b A
  nonzero : ∀ a A d, C.curve25519 a A = some d → d ≠ zeroPoint

variable {C : Crypto}

theorem Crypto.Documented.messageDecrypt (hC : C.Documented) (src key hash : Bytes) :
    messageDecrypt C (messageEncrypt C src key hash).1 key hash = some (src, (messageEncrypt C src key hash).2) := by
  simp only [WireguardAes.messageDecrypt, messageEncrypt, hC.decrypts, Option.map_some]

section
variable {me it : NoiseStaticIdentity} {h h' : NoiseHandshake} {secret e : Bytes}

/-- The initiator's message opens to what the initiator put in, and leaves the responder with the
chaining key and the hash of the initiator. -/
theorem createInitiation_opens (hC : C.Documented) (hme : me.hasIdentity = true) (hit : it.hasIdentity = true)
    (hpub : C.curve25519GeneratePublic me.staticPrivate = some me.staticPublic)
    (hpub' : C.curve25519GeneratePublic it.staticPrivate = some it.staticPublic)
    (he : C.curve25519GeneratePublic secret = some e) (hrs : h.remoteStatic = it.staticPublic)
    (hss : h.precomputedStaticStatic = precomputeStaticStatic C me it.staticPublic)
    (hss' : h'.precomputedStaticStatic = precomputeStaticStatic C it me.staticPublic)
    (hes : (C.curve25519 secret it.staticPublic).isSome)
    (hdh : (C.curve25519 me.staticPrivate it.staticPublic).isSome) (t : Bytes) :
    ∃ ck hash ck₁ hash₁ encryptedStatic encryptedTimestamp, ∀ index,
      createInitiation C me h secret t index =
        ({ h with chainingKey := ck, hash, ephemeralPrivate := secret, state := .createdInitiation },
          some ⟨index, e, encryptedStatic, encryptedTimestamp⟩) ∧
      openStatic C it ⟨index, e, encryptedStatic, encryptedTimestamp⟩ = some (me.staticPublic, ck₁, hash₁) ∧
      openTimestamp C h' ⟨index, e, encryptedStatic, encryptedTimestamp⟩ ck₁ hash₁ = some (t, ck, hash) := by
  obtain ⟨es, hes⟩ := Option.isSome_iff_exists.mp hes
  obtain ⟨ss, hdh⟩ := Option.isSome_iff_exists.mp hdh
  have hes' : C.curve25519 it.staticPrivate e = some es := (hC.commutes _ _ _ _ hpub' he).trans hes
  have hdh' : C.curve25519 it.staticPrivate me.staticPublic = some ss := (hC.commutes _ _ _ _ hpub' hpub).trans hdh
  have hne : ss ≠ zeroPoint := hC.nonzero _ _ _ hdh
  rw [precomputeStaticStatic, if_pos hme, hdh, Option.getD_some] at hss
  rw [precomputeStaticStatic, if_pos hit, hdh', Option.getD_some] at hss'
  -- the values of the initiator after e, es, s, ss and {t}
  let m := messageEphemeral C e (handshakeInit C it.staticPublic).1 (handshakeInit C it.staticPublic).2
  let k := mixKey C m.1 es
  let s := messageEncrypt C me.staticPublic k.2 m.2
  let k' := mixKey C k.1 ss
  let s' := messageEncrypt C t k'.2 s.2
  refine ⟨k'.1, s'.2, k.1, s.2, s.1, s'.1, fun index => ⟨?_, ?_, ?_⟩⟩
  · simp only [createInitiation, hme, he, hrs, mixDh, hes, mixPrecomputedDh, hss, hne, Bool.not_true,
      Bool.false_eq_true, if_false, Option.map_some]
    rfl
  · simp only [openStatic, hit, mixDh, hes', Bool.not_true, Bool.false_eq_true, if_false, Option.map_some,
      Option.bind_some]
    exact congrArg _ (hC.messageDecrypt me.staticPublic k.2 m.2)
  · simp only [openTimestamp, mixPrecomputedDh, hss', hne, if_false, Option.bind_some]
    exact congrArg _ (hC.messageDecrypt t k'.2 s.2)

/-- The response opens for the initiator whose transcript the responder continued. -/
theorem createResponse_opens (me : NoiseStaticIdentity) (h h' : NoiseHandshake) (hC : C.Documented)
    (hst : h.state = .createdInitiation)
    (hst' : h'.state = .consumedInitiation) (hck : h.chainingKey = h'.chainingKey) (hhash : h.hash = h'.hash)
    (hpsk : h.presharedKey = h'.presharedKey)
    (hpub : C.curve25519GeneratePublic me.staticPrivate = some h'.remoteStatic)
    (hpub' : C.curve25519GeneratePublic h.ephemeralPrivate = some h'.remoteEphemeral)
    (he : C.curve25519GeneratePublic secret = some e) (hee : (C.curve25519 h.ephemeralPrivate e).isSome)
    (hse : (C.curve25519 me.staticPrivate e).isSome) :
    ∃ ck hash encryptedNothing, ∀ index,
      createResponse C h' secret index =
        ({ h' with chainingKey := ck, hash, ephemeralPrivate := secret, state := .createdResponse },
          some ⟨index, h'.remoteIndex, e, encryptedNothing⟩) ∧
      openResponse C me h ⟨index, h'.remoteIndex, e, encryptedNothing⟩ = some (ck, hash) := by
  obtain ⟨ee, hee⟩ := Option.isSome_iff_exists.mp hee
  obtain ⟨se, hse⟩ := Option.isSome_iff_exists.mp hse
  have hee' : C.curve25519 secret h'.remoteEphemeral = some ee := (hC.commutes _ _ _ _ he hpub').trans hee
  have hse' : C.curve25519 secret h'.remoteStatic = some se := (hC.commutes _ _ _ _ he hpub).trans hse
  -- the values of the responder after e, ee, se, psk and {}
  let m := messageEphemeral C e h'.chainingKey h'.hash
  let k := mixPsk C (mixKey C (mixKey C m.1 ee).1 se).1 m.2 h'.presharedKey
  let s := messageEncrypt C [] k.2.2 k.2.1
  refine ⟨k.1, s.2, s.1, fun index => ⟨?_, ?_⟩⟩
  · simp only [createResponse, hst', he, mixDh, hee', hse', ne_eq, not_true_eq_false, if_false, Option.map_some]
    rfl
  · simp only [openResponse, hst, hck, hhash, hpsk, mixDh, hee, hse, ne_eq, not_true_eq_false, if_false,
      Option.map_some, Option.bind_some]
    exact congrArg _ (hC.messageDecrypt [] k.2.2 k.2.1)

end

/-! ### The calls of a device -/

namespace WgDevice

variable {wg : WgDevice} {p : Nat} {index : U32}

@[simp] theorem peers_setHandshake_self (wg : WgDevice) (p : Nat) (h : NoiseHandshake) :
    (wg.setHandshake p h).peers p = { wg.peers p with handshake := h } := update_self ..

/-- The peer with this public key, as `wg_noise_handshake_init` set it up, whatever has happened
since. -/
structure Knows (C : Crypto) (wg : WgDevice) (p : Nat) (remoteStatic psk : Bytes) : Prop where
  hasIdentity : wg.staticIdentity.hasIdentity = true
  identity : C.curve25519GeneratePublic wg.staticIdentity.staticPrivate = some wg.staticIdentity.staticPublic
  entered : wg.peerHashtable remoteStatic = some p
  refcount : (wg.peers p).refcount ≠ 0
  alive : (wg.peers p).isDead = false
  remote : (wg.peers p).handshake.remoteStatic = remoteStatic
  precomputed : (wg.peers p).handshake.precomputedStaticStatic =
    precomputeStaticStatic C wg.staticIdentity remoteStatic
  psk : (wg.peers p).handshake.presharedKey = psk

theorem createMessage_spec {M : Type} (wg : WgDevice) (p : Nat) {draws : List U32}
    {create : U32 → NoiseHandshake × Option M}
    {h : NoiseHandshake} {m : U32 → M} (hc : ∀ index, create index = (h, some (m index)))
    (hfree : ∃ index ∈ draws, (wg.indexHashtable.remove (.handshake p)).Unused index) :
    ∃ index table, wg.createMessage p draws create =
        some ({ wg.setHandshake p h with indexHashtable := table }, some (m index)) ∧
      table.At (.handshake p) index := by
  obtain ⟨index, hins, hun⟩ := IndexHashtable.insert_spec hfree
  refine ⟨index, _, ?_, IndexHashtable.at_insert hun⟩
  simp only [createMessage, hins, hc, Option.map_some, Option.getD_some]

theorem at_foldl_remove {t : IndexHashtable} (h : t.At (.handshake p) index) (puts : List Nat) :
    (puts.foldl (fun t k => t.remove (.keypair k)) t).At (.handshake p) index := by
  induction puts generalizing t with
  | nil => exact h
  | cons k puts ih => exact ih (h.remove nofun)

/-- A session begins: the keypair is in its slot, and in the table under the index of the
handshake. -/
theorem beginSession_spec (wg : WgDevice) (p : Nat) {keypair : NoiseKeypair} {birthdate : U64}
    (halive : (wg.peers p).isDead = false)
    (hk : newKeypair C wg.isChacha (wg.peers p).handshake birthdate = some keypair)
    (hat : wg.indexHashtable.At (.handshake p) index) :
    ∃ wg', wg.beginSession C p true true birthdate = (wg', true) ∧
      (if keypair.iAmTheInitiator then (wg'.peers p).keypairs.currentKeypair
        else (wg'.peers p).keypairs.nextKeypair) = some wg.keypairCounter ∧
      wg'.keypair wg.keypairCounter = some keypair ∧
      wg'.indexHashtable.lookup false index = some (.keypair wg.keypairCounter) := by
  have hrep := (at_foldl_remove hat
    ((wg.peers p).keypairs.addNewKeypair wg.keypairCounter keypair.iAmTheInitiator).2).replace
      (.keypair wg.keypairCounter)
  have hret : (wg.beginSession C p true true birthdate).2 = true := by
    simp only [beginSession, hk, Bool.not_true, Bool.and_false, Bool.false_eq_true, if_false, setHandshake,
      update_self, halive]
    exact hrep.1
  refine ⟨(wg.beginSession C p true true birthdate).1, Prod.ext rfl hret, ?_, ?_, ?_⟩
  all_goals
    simp only [beginSession, hk, Bool.not_true, Bool.and_false, Bool.false_eq_true, if_false, setHandshake,
      update_self, halive]
  · exact NoiseKeypairs.addNewKeypair_slot _ _ _
  · exact hrep.2.lookup

theorem Knows.pubkeyHashtableLookup {remoteStatic psk : Bytes} (h : wg.Knows C p remoteStatic psk) :
    wg.pubkeyHashtableLookup remoteStatic = some p := by
  rw [WgDevice.pubkeyHashtableLookup, h.entered, Option.bind_some, getMaybeZero, if_neg h.refcount]

theorem consumeInitiation_spec {src : MessageHandshakeInitiation} {s t ck ck' hash hash' : Bytes} {now : U64}
    (now' : U64) (hs : openStatic C wg.staticIdentity src = some (s, ck, hash))
    (hp : wg.pubkeyHashtableLookup s = some p)
    (ht : openTimestamp C (wg.peers p).handshake src ck hash = some (t, ck', hash'))
    (hr : memcmp t (wg.peers p).handshake.latestTimestamp = .gt)
    (hf : floodAttack (wg.peers p).handshake now = false) :
    wg.consumeInitiation C src now now' =
      (wg.setHandshake p (writeInitiation (wg.peers p).handshake src t ck' hash' now'), some p) := by
  have hr : replayAttack (wg.peers p).handshake t = false := by rw [replayAttack, hr]; rfl
  simp only [consumeInitiation, hs, hp, ht, hr, hf, Option.bind_some, Bool.or_self, Bool.false_eq_true, if_false]

theorem consumeResponse_spec (wg : WgDevice) (p : Nat) {src : MessageHandshakeResponse} {ck hash : Bytes}
    (hid : wg.staticIdentity.hasIdentity = true) (hat : wg.indexHashtable.At (.handshake p) src.receiverIndex)
    (href : (wg.peers p).refcount ≠ 0)
    (ho : openResponse C wg.staticIdentity (wg.peers p).handshake src = some (ck, hash)) :
    wg.consumeResponse C src = (wg.setHandshake p (writeResponse (wg.peers p).handshake src ck hash), some p) := by
  have hp : wg.handshakeLookup src.receiverIndex = some p := by
    have hl : wg.indexHashtable.lookup true src.receiverIndex = _ := hat.lookup
    simp only [handshakeLookup, hl, getMaybeZero, if_neg href]
  simp only [consumeResponse, hid, hp, ho, Bool.not_true, Bool.false_eq_true, if_false, Option.bind_some,
    Option.map_some]

/-- A successful `begin_session` of the device has installed the keypair. -/
def Installs (C : Crypto) (wg : WgDevice) (k : NoiseKeypair) : Prop :=
  ∃ wg' p keypairAlloc aeadAlloc birthdate,
    wg.beginSession C p keypairAlloc aeadAlloc birthdate = (wg', true) ∧ wg'.keypair wg.keypairCounter = some k

/-- A handshake has completed on both sides, with matching transport keys. -/
structure CompletedHandshake (C : Crypto) (A B : WgDevice) (kA kB : NoiseKeypair) : Prop where
  left : A.Installs C kA
  right : B.Installs C kB
  sends : kA.sending.key = kB.receiving.key
  receives : kA.receiving.key = kB.sending.key

theorem CompletedHandshake.symm {A B : WgDevice} {kA kB : NoiseKeypair} (h : CompletedHandshake C A B kA kB) :
    CompletedHandshake C B A kB kA :=
  ⟨h.right, h.left, h.receives.symm, h.sends.symm⟩

section
variable (hC : C.Documented) (A B : WgDevice) (pA pB : Nat) {psk : Bytes}
  (hA : A.Knows C pB B.staticIdentity.staticPublic psk) (hB : B.Knows C pA A.staticIdentity.staticPublic psk)
  (eA eB : Bytes) {EA EB : Bytes} (heA : C.curve25519GeneratePublic eA = some EA)
  (heB : C.curve25519GeneratePublic eB = some EB)
  (hes : (C.curve25519 eA B.staticIdentity.staticPublic).isSome)
  (hss : (C.curve25519 A.staticIdentity.staticPrivate B.staticIdentity.staticPublic).isSome)
  (hee : (C.curve25519 eA EB).isSome) (hse : (C.curve25519 A.staticIdentity.staticPrivate EB).isSome)
  (t : Bytes) (now now' : U64) (hnew : memcmp t (B.peers pA).handshake.latestTimestamp = .gt)
  (hflood : floodAttack (B.peers pA).handshake now = false) (drawsA drawsB : List U32)
  (hdA : ∃ i ∈ drawsA, (A.indexHashtable.remove (.handshake pB)).Unused i)
  (hdB : ∃ i ∈ drawsB, (B.indexHashtable.remove (.handshake pA)).Unused i) (birthA birthB : U64)
include hC hA hB heA heB hes hss hee hse hnew hflood hdA hdB

/-- The six calls of a handshake succeed one after the other, and what they leave behind. -/
theorem handshake_spec :
    ∃ A₁ A₂ A₃ B₁ B₂ B₃ initiation response ck iA iB,
      A.createInitiation C pB eA t drawsA = some (A₁, some initiation) ∧
      B.consumeInitiation C initiation now now' = (B₁, some pA) ∧
      B₁.createResponse C pA eB drawsB = some (B₂, some response) ∧
      B₂.beginSession C pA true true birthB = (B₃, true) ∧
      A₁.consumeResponse C response = (A₂, some pB) ∧
      A₂.beginSession C pB true true birthA = (A₃, true) ∧
      (A₃.peers pB).keypairs.currentKeypair = some A.keypairCounter ∧
      (B₃.peers pA).keypairs.nextKeypair = some B.keypairCounter ∧
      A₃.keypair A.keypairCounter = some (fillKeypair C A.isChacha true ck iB birthA) ∧
      B₃.keypair B.keypairCounter = some (fillKeypair C B.isChacha false ck iA birthB) ∧
      A₃.indexHashtable.lookup false iA = some (.keypair A.keypairCounter) ∧
      B₃.indexHashtable.lookup false iB = some (.keypair B.keypairCounter) ∧
      CompletedHandshake C A₂ B₂ (fillKeypair C A.isChacha true ck iB birthA)
        (fillKeypair C B.isChacha false ck iA birthB) ∧
      A₂.isChacha = A.isChacha ∧ B₂.isChacha = B.isChacha := by
  obtain ⟨ck, hash, ck₁, hash₁, encryptedStatic, encryptedTimestamp, hinit⟩ :=
    createInitiation_opens hC hA.hasIdentity hB.hasIdentity hA.identity hB.identity heA hA.remote hA.precomputed
      hB.precomputed hes hss t
  obtain ⟨iA, tableA, hA₁, hatA⟩ := createMessage_spec A pB (fun index => (hinit index).1) hdA
  obtain ⟨-, hopenS, hopenT⟩ := hinit iA
  have hB₁ := consumeInitiation_spec now' hopenS hB.pubkeyHashtableLookup hopenT hnew hflood
  -- the handshakes of the two sides, between the two messages
  generalize hhI : ({ (A.peers pB).handshake with
    chainingKey := ck, hash, ephemeralPrivate := eA, state := .createdInitiation } : NoiseHandshake) = hI at hA₁
  generalize hhR : writeInitiation (B.peers pA).handshake ⟨iA, EA, encryptedStatic, encryptedTimestamp⟩ t ck hash
    now' = hR at hB₁
  obtain ⟨ck', hash', encryptedNothing, hresp⟩ := createResponse_opens A.staticIdentity hI hR hC
    (by rw [← hhI]) (by rw [← hhR]; rfl) (by rw [← hhI, ← hhR]; rfl) (by rw [← hhI, ← hhR]; rfl)
    (by rw [← hhI, ← hhR]; exact hA.psk.trans hB.psk.symm)
    (by rw [← hhR]; exact hA.identity.trans (congrArg some hB.remote.symm)) (by rw [← hhI, ← hhR]; exact heA)
    heB (by rw [← hhI]; exact hee) hse
  have hidx : hR.remoteIndex = iA := by rw [← hhR]; rfl
  rw [hidx] at hresp
  -- the responder
  let B₁ := B.setHandshake pA hR
  let hR' := { hR with
    chainingKey := ck', hash := hash', ephemeralPrivate := eB, remoteIndex := iA, state := .createdResponse }
  have hpR : (B₁.peers pA).handshake = hR := by simp [B₁]
  obtain ⟨iB, tableB, hB₂, hatB⟩ := createMessage_spec B₁ pA (fun index => (hresp index).1) hdB
  let B₂ : WgDevice := { B₁.setHandshake pA hR' with indexHashtable := tableB }
  have hkB : newKeypair C B₂.isChacha (B₂.peers pA).handshake birthB =
      some (fillKeypair C B.isChacha false ck' iA birthB) := by
    simp only [B₂, peers_setHandshake_self]
    rfl
  obtain ⟨B₃, hB₃, hnewB, hkB, hlB⟩ := beginSession_spec B₂ pA (by simpa [B₂, B₁] using hB.alive) hkB hatB
  -- the initiator
  let A₁ : WgDevice := { A.setHandshake pB hI with indexHashtable := tableA }
  have hpI : (A₁.peers pB).handshake = hI := by simp [A₁]
  have hA₂ : A₁.consumeResponse C ⟨iB, iA, EB, encryptedNothing⟩ = _ := consumeResponse_spec A₁ pB hA.hasIdentity
    hatA (by simpa [A₁] using hA.refcount) (by rw [hpI]; exact (hresp iB).2)
  let A₂ := A₁.setHandshake pB (writeResponse hI ⟨iB, iA, EB, encryptedNothing⟩ ck' hash')
  have hkA : newKeypair C A₂.isChacha (A₂.peers pB).handshake birthA =
      some (fillKeypair C A.isChacha true ck' iB birthA) := by
    simp only [A₂, peers_setHandshake_self]
    rfl
  obtain ⟨A₃, hA₃, hnewA, hkA, hlA⟩ := beginSession_spec A₂ pB (by simpa [A₂, A₁] using hA.alive) hkA hatA
  rw [hpI] at hA₂
  refine ⟨A₁, A₂, A₃, B₁, B₂, B₃, _, _, ck', iA, iB, hA₁, hB₁, ?_, hB₃, hA₂, hA₃, hnewA, hnewB, hkA, hkB, hlA, hlB,
    ⟨⟨_, _, _, _, _, hA₃, hkA⟩, ⟨_, _, _, _, _, hB₃, hkB⟩, rfl, rfl⟩, rfl, rfl⟩
  rw [createResponse, hpR]
  exact hB₂

/-- Two devices that know each other complete a handshake: every call succeeds, the keys cross, they
are the two outputs of one derivation, and each side finds its keypair under the index that the
other side will send. -/
theorem handshake_agrees :
    ∃ A₁ A₂ A₃ B₁ B₂ B₃ initiation response idA idB kA kB ck,
      A.createInitiation C pB eA t drawsA = some (A₁, some initiation) ∧
      B.consumeInitiation C initiation now now' = (B₁, some pA) ∧
      B₁.createResponse C pA eB drawsB = some (B₂, some response) ∧
      B₂.beginSession C pA true true birthB = (B₃, true) ∧
      A₁.consumeResponse C response = (A₂, some pB) ∧
      A₂.beginSession C pB true true birthA = (A₃, true) ∧
      (A₃.peers pB).keypairs.currentKeypair = some idA ∧ A₃.keypair idA = some kA ∧
      (B₃.peers pA).keypairs.nextKeypair = some idB ∧ B₃.keypair idB = some kB ∧
      kA.sending.key = kB.receiving.key ∧ kA.receiving.key = kB.sending.key ∧
      kA.sending.key = (kdf C [] ck).first ∧ kA.receiving.key = (kdf C [] ck).second ∧
      B₃.indexHashtable.lookup false kA.remoteIndex = some (.keypair idB) ∧
      A₃.indexHashtable.lookup false kB.remoteIndex = some (.keypair idA) := by
  obtain ⟨A₁, A₂, A₃, B₁, B₂, B₃, initiation, response, ck, iA, iB, h1, h2, h3, h4, h5, h6, hcur, hnext, hkA, hkB,
    hlA, hlB, -⟩ := handshake_spec hC A B pA pB hA hB eA eB heA heB hes hss hee hse t now now' hnew
    hflood drawsA drawsB hdA hdB birthA birthB
  exact ⟨A₁, A₂, A₃, B₁, B₂, B₃, initiation, response, _, _, _, _, ck, h1, h2, h3, h4, h5, h6, hcur, hkA, hnext, hkB,
    rfl, rfl, rfl, rfl, hlB, hlA⟩

end

/-! ### Two sample devices -/

theorem untagged_tagged (tag : UInt8) (src : Bytes) : untagged tag (tagged tag src) = some src := by
  have hlen : (tagged tag src).length - noiseAuthtagLen = src.length := by simp [tagged]
  rw [untagged, hlen, tagged]
  simp

theorem plainCrypto_documented : plainCrypto.Documented where
  decrypts _ _ _ src := untagged_tagged 1 src
  commutes a b A B hA hB := by
    simp only [plainCrypto, Option.some.injEq] at hA hB ⊢
    rw [← hA, ← hB, Nat.add_comm]
  nonzero a A d hd h := by
    simp only [plainCrypto, Option.some.injEq] at hd
    have hmem : 0 ∈ zeroPoint := by decide
    rw [← h, ← hd] at hmem
    exact absurd (List.eq_of_mem_replicate hmem) (by decide)

def plainDevice (isChacha : Bool) (me it : Bytes) : WgDevice where
  staticIdentity := ⟨me, me, true⟩
  isChacha
  peers _ := ⟨noiseHandshakeInit plainCrypto ⟨me, me, true⟩ it [4], ⟨none, none, none⟩, false, 1⟩
  peerHashtable _ := some 0
  indexHashtable := []
  keypair _ := none
  keypairCounter := 0

theorem plainDevice_knows (isChacha : Bool) (me it : Bytes) :
    (plainDevice isChacha me it).Knows plainCrypto 0 it [4] where
  hasIdentity := rfl
  identity := rfl
  entered := rfl
  refcount := nofun
  alive := rfl
  remote := rfl
  precomputed := rfl
  psk := rfl

theorem handshake_agrees_plain : ∃ A₃ B₃ : WgDevice, ∃ idA idB kA kB,
    A₃.keypair idA = some kA ∧ B₃.keypair idB = some kB ∧
    kA.sending.key = kB.receiving.key ∧ kA.receiving.key = kB.sending.key ∧
    B₃.indexHashtable.lookup false kA.remoteIndex = some (.keypair idB) ∧
    A₃.indexHashtable.lookup false kB.remoteIndex = some (.keypair idA) := by
  obtain ⟨_, _, A₃, _, _, B₃, _, _, idA, idB, kA, kB, _, -, -, -, -, -, -, -, hkA, -, hkB, h1, h2, -, -, hlB, hlA⟩ :=
    handshake_agrees plainCrypto_documented (plainDevice true [9] [7, 7]) (plainDevice true [7, 7] [9])
      0 0 (plainDevice_knows ..) (plainDevice_knows ..) [1] [2, 2] rfl rfl rfl rfl rfl rfl [1]
      30000000 30000000 (by decide) (by decide) [5] [6] ⟨5, by simp, by decide⟩ ⟨6, by simp, by decide⟩ 0 0
  exact ⟨A₃, B₃, idA, idB, kA, kB, hkA, hkB, h1, h2, hlB, hlA⟩

end WgDevice

end WireguardAes
