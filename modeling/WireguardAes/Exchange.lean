import WireguardAes.HandshakeCalls

/-!
# What transport keys are derived from

An `Exchange` has the seven values that one run of `Noise_IKpsk2` mixes into the chaining key. A
chaining key from which `begin_session` may derive keys is always that of one exchange, although
`create_initiation` and `create_response` work in place and may stop in the middle: if a point has a
shared secret with every generated key or with none, then what stopped them keeps the handshake from
getting to a state in which a session can begin.
-/

namespace WireguardAes

open Runs

structure Exchange where
  initiatorEphemeral : Bytes
  es : Bytes
  ss : Bytes
  responderEphemeral : Bytes
  ee : Bytes
  se : Bytes
  psk : Bytes

namespace Exchange

/-- In the order in which the values are mixed. -/
def data (x : Exchange) : List Bytes :=
  [x.initiatorEphemeral, x.es, x.ss, x.responderEphemeral, x.ee, x.se, x.psk]

section
variable (C : Crypto) (identity : NoiseStaticIdentity) (peerPublicKey presharedKey : Bytes)

/-- The values as the initiator computes them, with its ephemeral key `secret`. -/
structure Initiated (secret : Bytes) (x : Exchange) : Prop where
  e : C.curve25519GeneratePublic secret = some x.initiatorEphemeral
  es : C.curve25519 secret peerPublicKey = some x.es
  ss : C.curve25519 identity.staticPrivate peerPublicKey = some x.ss
  ee : C.curve25519 secret x.responderEphemeral = some x.ee
  se : C.curve25519 identity.staticPrivate x.responderEphemeral = some x.se
  psk : x.psk = presharedKey

/-- The values as the responder computes them, with its ephemeral key `secret`. -/
structure Responded (secret : Bytes) (x : Exchange) : Prop where
  e : C.curve25519GeneratePublic secret = some x.responderEphemeral
  es : C.curve25519 identity.staticPrivate x.initiatorEphemeral = some x.es
  ss : C.curve25519 identity.staticPrivate peerPublicKey = some x.ss
  ee : C.curve25519 secret x.initiatorEphemeral = some x.ee
  se : C.curve25519 secret peerPublicKey = some x.se
  psk : x.psk = presharedKey

end
end Exchange

/-- A point, be it the base point, has a shared secret with every generated key or with none. -/
structure UniformDh (C : Crypto) (generated : Bytes → Prop) : Prop where
  base : (∀ secret, generated secret → (C.curve25519GeneratePublic secret).isSome) ∨
    ∀ secret, generated secret → C.curve25519GeneratePublic secret = none
  point : ∀ p, (∀ secret, generated secret → (C.curve25519 secret p).isSome) ∨
    ∀ secret, generated secret → C.curve25519 secret p = none

section
variable {C : Crypto} {generated : Bytes → Prop} {p secret secret' e dh : Bytes}

theorem UniformDh.fails (h : UniformDh C generated) (hg : generated secret) (hf : DhFails C p secret)
    (hg' : generated secret') : DhFails C p secret' := by
  rcases hf with hf | hf
  · rcases h.base with hb | hb
    · have := hb secret hg
      rw [hf] at this
      cases this
    · exact .inl (hb secret' hg')
  · rcases h.point p with hp | hp
    · have := hp secret hg
      rw [hf] at this
      cases this
    · exact .inr (hp secret' hg')

theorem not_dhFails (he : C.curve25519GeneratePublic secret = some e) (hdh : C.curve25519 secret p = some dh) :
    ¬ DhFails C p secret := by
  rintro (hf | hf)
  · rw [he] at hf; cases hf
  · rw [hdh] at hf; cases hf

end

theorem precomputeStaticStatic_ne_zero {C : Crypto} {identity : NoiseStaticIdentity} {p : Bytes}
    (h : precomputeStaticStatic C identity p ≠ zeroPoint) :
    C.curve25519 identity.staticPrivate p = some (precomputeStaticStatic C identity p) := by
  unfold precomputeStaticStatic at h ⊢
  split_ifs at h with hid
  · rw [if_pos hid]
    cases hdh : C.curve25519 identity.staticPrivate p with
    | none => rw [hdh] at h; exact absurd rfl h
    | some ss => rfl
  · exact absurd rfl h

/-! ### The chaining key of a handshake -/

def CallEvent.secret : CallEvent → Option Bytes
  | .createInitiation secret _ _ => some secret
  | .createResponse _ secret _ => some secret
  | _ => none

namespace HandshakeCalls

open HandshakeRun (plainIdentity plainResponse)

/-- Ephemeral keys come from `curve25519_generate_secret`. -/
def Generates (generated : Bytes → Prop) (_ : HandshakeCalls) (ev : CallEvent) : Prop :=
  ∀ secret ∈ ev.secret, generated secret

instance (generated : Bytes → Prop) [DecidablePred generated] (s : HandshakeCalls) (ev : CallEvent) :
    Decidable (s.Generates generated ev) := inferInstanceAs (Decidable (∀ secret ∈ ev.secret, generated secret))

section
variable (C : Crypto) (identity : NoiseStaticIdentity) (isChacha : Bool) (peerPublicKey presharedKey : Bytes)
variable (generated : Bytes → Prop)

/-- `e`, `es` and `ss` of an own initiation. -/
def Begun (secret ck : Bytes) : Prop :=
  ∃ e es, generated secret ∧ C.curve25519GeneratePublic secret = some e ∧
    C.curve25519 secret peerPublicKey = some es ∧ ck = chain C [e, es, precomputeStaticStatic C identity peerPublicKey]

/-- `e`, `es` and `ss` of the peer's initiation. -/
def Consumed (e ck : Bytes) : Prop :=
  ∃ es, C.curve25519 identity.staticPrivate e = some es ∧
    ck = chain C [e, es, precomputeStaticStatic C identity peerPublicKey]

/-- No response can be created for this ephemeral key. -/
def Unanswerable (e : Bytes) : Prop :=
  ∀ secret, generated secret → DhFails C e secret ∨ DhFails C peerPublicKey secret

def InitiatorChain (ck : Bytes) : Prop :=
  ∃ secret x, generated secret ∧ Exchange.Initiated C identity peerPublicKey presharedKey secret x ∧ ck = chain C x.data

def ResponderChain (ck : Bytes) : Prop :=
  ∃ secret x, generated secret ∧ Exchange.Responded C identity peerPublicKey presharedKey secret x ∧ ck = chain C x.data

/-- What is mixed into the chaining key, by the state. A consumed initiation may have been spoilt by
a `create_initiation` or a `create_response` that stopped; then it is never answered. -/
def Mixed (h : NoiseHandshake) : HandshakeState → Prop
  | .zeroed => True
  | .createdInitiation => Begun C identity peerPublicKey generated h.ephemeralPrivate h.chainingKey
  | .consumedInitiation => Consumed C identity peerPublicKey h.remoteEphemeral h.chainingKey ∨
      Unanswerable C peerPublicKey generated h.remoteEphemeral
  | .createdResponse => ResponderChain C identity peerPublicKey presharedKey generated h.chainingKey
  | .consumedResponse => InitiatorChain C identity peerPublicKey presharedKey generated h.chainingKey

def CallMixed : HandshakeCall → Prop
  | .checked src _ ck _ _ => precomputeStaticStatic C identity peerPublicKey ≠ zeroPoint ∧
      Consumed C identity peerPublicKey src.unencryptedEphemeral ck
  | .opened _ copied ck _ _ => copied.state = .createdInitiation ∧
      InitiatorChain C identity peerPublicKey presharedKey generated ck
  | _ => True

def SessionMixed (y : InstalledSession) : Prop :=
  ∃ ck birthdate,
    y.keypair = fillKeypair C isChacha y.keypair.iAmTheInitiator ck y.keypair.remoteIndex birthdate ∧
    if y.keypair.iAmTheInitiator then InitiatorChain C identity peerPublicKey presharedKey generated ck
    else ResponderChain C identity peerPublicKey presharedKey generated ck

structure OneExchange (s : HandshakeCalls) : Prop where
  config : SameConfig (noiseHandshakeInit C identity peerPublicKey presharedKey) s.hs
  ss : s.hs.state ≠ .zeroed → precomputeStaticStatic C identity peerPublicKey ≠ zeroPoint
  mixed : Mixed C identity peerPublicKey presharedKey generated s.hs s.hs.state
  calls : ∀ w, CallMixed C identity peerPublicKey presharedKey generated (s.call w)
  sessions : ∀ y ∈ s.installed, SessionMixed C identity isChacha peerPublicKey presharedKey generated y

end

variable {C : Crypto} {identity : NoiseStaticIdentity} {isChacha : Bool} {peerPublicKey presharedKey : Bytes}
variable {generated : Bytes → Prop} {s s' : HandshakeCalls} {ev : CallEvent}
variable {index : U32} {hs : NoiseHandshake}

namespace OneExchange

theorem init : OneExchange C identity isChacha peerPublicKey presharedKey generated
    (HandshakeCalls.init (noiseHandshakeInit C identity peerPublicKey presharedKey)) where
  config := ⟨rfl, rfl, rfl⟩
  ss hst := absurd rfl hst
  mixed := trivial
  calls _ := trivial
  sessions := List.forall_mem_nil _

theorem goto (h : OneExchange C identity isChacha peerPublicKey presharedKey generated s) (w : Nat) {x : HandshakeCall}
    (hx : CallMixed C identity peerPublicKey presharedKey generated x) :
    OneExchange C identity isChacha peerPublicKey presharedKey generated (s.goto w x) :=
  { h with calls := forall_goto (s := s) h.calls w hx }

theorem change (h : OneExchange C identity isChacha peerPublicKey presharedKey generated s)
    (hcall : s'.call = s.call) (hinst : s'.installed = s.installed) (hc : SameConfig s.hs s'.hs)
    (hss : s'.hs.state ≠ .zeroed → precomputeStaticStatic C identity peerPublicKey ≠ zeroPoint)
    (hm : Mixed C identity peerPublicKey presharedKey generated s'.hs s'.hs.state) :
    OneExchange C identity isChacha peerPublicKey presharedKey generated s' where
  config := h.config.trans hc
  ss := hss
  mixed := hm
  calls := by rw [hcall]; exact h.calls
  sessions := by rw [hinst]; exact h.sessions

theorem zero (h : OneExchange C identity isChacha peerPublicKey presharedKey generated s) (entry : Option U32) :
    OneExchange C identity isChacha peerPublicKey presharedKey generated { s with hs := handshakeZero s.hs, entry } :=
  h.change rfl rfl ⟨rfl, rfl, rfl⟩ (fun hst => absurd rfl hst) trivial

/-- With a secret that does not go together with the peer's static key, an own initiation can only
have been stopped before any handshake with the peer got anywhere. -/
theorem mixed_of_dhFails (hu : UniformDh C generated) {secret : Bytes} (hg : generated secret)
    (hf : DhFails C peerPublicKey secret) {h h' : NoiseHandshake} {st : HandshakeState}
    (hm : Mixed C identity peerPublicKey presharedKey generated h st) :
    Mixed C identity peerPublicKey presharedKey generated h' st := by
  cases st with
  | zeroed => trivial
  | createdInitiation =>
    obtain ⟨e, es, hg', he, hes, -⟩ := hm
    exact absurd (hu.fails hg hf hg') (not_dhFails he hes)
  | consumedInitiation => exact .inr fun secret' hg' => .inr (hu.fails hg hf hg')
  | createdResponse =>
    obtain ⟨secret', x, hg', hx, -⟩ := hm
    exact absurd (hu.fails hg hf hg') (not_dhFails hx.e hx.se)
  | consumedResponse =>
    obtain ⟨secret', x, hg', hx, -⟩ := hm
    exact absurd (hu.fails hg hf hg') (not_dhFails hx.e hx.es)

theorem stopInitiation (hu : UniformDh C generated)
    (h : OneExchange C identity isChacha peerPublicKey presharedKey generated s) {secret timestamp : Bytes}
    (hg : generated secret)
    (hr : createInitiation C identity s.hs secret timestamp index = (hs, none)) :
    OneExchange C identity isChacha peerPublicKey presharedKey generated (s.generate hs none) := by
  obtain ⟨hrec, -, hcase⟩ := createInitiation_cases C identity s.hs secret timestamp index
  rw [hr] at hrec hcase
  rcases hcase with ⟨-, hst, hwhy⟩ | ⟨_, _, _, hp, -⟩
  · refine h.change rfl rfl hrec.toSameConfig (fun hz => h.ss (hst ▸ hz)) ?_
    change Mixed _ _ _ _ _ hs hs.state
    rw [show hs.state = s.hs.state from hst]
    rcases hwhy with hsame | hf | hss
    · rw [show hs = s.hs from hsame]; exact h.mixed
    · rw [h.config.remoteStatic] at hf
      exact mixed_of_dhFails hu hg hf h.mixed
    · -- without `ss` the handshake has never left its first state
      by_cases hz : s.hs.state = .zeroed
      · rw [hz]; trivial
      · exact absurd (h.config.precomputed.symm.trans hss) (h.ss hz)
  · cases hp

theorem createInitiation (h : OneExchange C identity isChacha peerPublicKey presharedKey generated s)
    {secret timestamp : Bytes} {packet : MessageHandshakeInitiation}
    (hg : generated secret) (hr : createInitiation C identity s.hs secret timestamp index = (hs, some packet)) :
    OneExchange C identity isChacha peerPublicKey presharedKey generated (s.generate hs (some packet.senderIndex)) := by
  obtain ⟨hrec, -, hcase⟩ := createInitiation_cases C identity s.hs secret timestamp index
  rw [hr] at hrec hcase
  rcases hcase with ⟨hp, -⟩ | ⟨_, e, es, -, -, hst, heph, he, hes, hss, hck, -⟩
  · cases hp
  · rw [h.config.precomputed] at hss hck
    rw [h.config.remoteStatic] at hes
    refine h.change rfl rfl hrec.toSameConfig (fun _ => hss) ?_
    change Mixed _ _ _ _ _ hs hs.state
    rw [show hs.state = .createdInitiation from hst]
    exact ⟨e, es, heph ▸ hg, heph ▸ he, heph ▸ hes, hck⟩

theorem stopResponse (hu : UniformDh C generated)
    (h : OneExchange C identity isChacha peerPublicKey presharedKey generated s) {secret : Bytes}
    (hg : generated secret) (hr : createResponse C s.hs secret index = (hs, none)) :
    OneExchange C identity isChacha peerPublicKey presharedKey generated (s.generate hs none) := by
  obtain ⟨hrec, heph, hcase⟩ := createResponse_cases C s.hs secret index
  rw [hr] at hrec hcase heph
  rcases hcase with ⟨-, hst, hwhy⟩ | ⟨_, _, _, _, hp, -⟩
  · refine h.change rfl rfl hrec.toSameConfig (fun hz => h.ss (hst ▸ hz)) ?_
    change Mixed _ _ _ _ _ hs hs.state
    rw [show hs.state = s.hs.state from hst]
    rcases hwhy with hsame | ⟨hst, hf⟩
    · rw [show hs = s.hs from hsame]; exact h.mixed
    · rw [hst]
      refine .inr fun secret' hg' => ?_
      rw [show hs.remoteEphemeral = s.hs.remoteEphemeral from heph]
      rw [h.config.remoteStatic] at hf
      exact hf.imp (hu.fails hg · hg') (hu.fails hg · hg')
  · cases hp

theorem createResponse (h : OneExchange C identity isChacha peerPublicKey presharedKey generated s) {secret : Bytes}
    {packet : MessageHandshakeResponse} (hg : generated secret)
    (hr : createResponse C s.hs secret index = (hs, some packet)) :
    OneExchange C identity isChacha peerPublicKey presharedKey generated (s.generate hs (some packet.senderIndex)) := by
  obtain ⟨hrec, -, hcase⟩ := createResponse_cases C s.hs secret index
  rw [hr] at hrec hcase
  rcases hcase with ⟨hp, -⟩ | ⟨_, e, ee, se, -, -, hst, hst', he, hee, hse, hck, -⟩
  · cases hp
  · have hss := h.ss (by rw [hst]; decide)
    have hm := h.mixed
    rw [hst] at hm
    rw [h.config.remoteStatic] at hse
    rw [h.config.psk] at hck
    refine h.change rfl rfl hrec.toSameConfig (fun _ => hss) ?_
    change Mixed _ _ _ _ _ hs hs.state
    rw [show hs.state = .createdResponse from hst']
    rcases hm with ⟨es, hes, hck'⟩ | hun
    · exact ⟨secret, ⟨s.hs.remoteEphemeral, es, _, e, ee, se, presharedKey⟩, hg,
        ⟨he, hes, precomputeStaticStatic_ne_zero hss, hee, hse, rfl⟩, hck _ hck'⟩
    · exact absurd (hun secret hg) (not_or.mpr ⟨not_dhFails he hee, not_dhFails he hse⟩)

theorem checkInitiation (h : OneExchange C identity isChacha peerPublicKey presharedKey generated s)
    {src : MessageHandshakeInitiation} {t ck ck' hash hash' : Bytes} (n : Nat)
    (hs : openStatic C identity src = some (s.hs.remoteStatic, ck, hash))
    (ht : openTimestamp C s.hs src ck hash = some (t, ck', hash')) :
    CallMixed C identity peerPublicKey presharedKey generated (.checked src t ck' hash' n) := by
  obtain ⟨hck, es, hes⟩ := openInitiation_chain hs ht
  have hss := openTimestamp_precomputed ht
  rw [initiationRead, hes, h.config.precomputed] at hck
  rw [h.config.precomputed] at hss
  exact ⟨hss, es, hes, hck⟩

theorem readResponse (h : OneExchange C identity isChacha peerPublicKey presharedKey generated s)
    {src : MessageHandshakeResponse} {ck hash : Bytes} (n : Nat)
    (ho : openResponse C identity s.hs src = some (ck, hash)) :
    CallMixed C identity peerPublicKey presharedKey generated (.opened src s.hs ck hash n) := by
  obtain ⟨hst, ee, se, hee, hse, hck⟩ := openResponse_cases ho
  have hss := h.ss (by rw [hst]; decide)
  have hm := h.mixed
  rw [hst] at hm
  obtain ⟨e, es, hg, he, hes, hck'⟩ := hm
  rw [h.config.psk] at hck
  exact ⟨hst, _, ⟨e, es, _, src.unencryptedEphemeral, ee, se, presharedKey⟩, hg,
    ⟨he, hes, precomputeStaticStatic_ne_zero hss, hee, hse, rfl⟩, hck _ hck'⟩

theorem install (h : OneExchange C identity isChacha peerPublicKey presharedKey generated s) (w : Nat)
    {keypair : NoiseKeypair} {birthdate : U64} (hk : newKeypair C isChacha s.hs birthdate = some keypair) :
    OneExchange C identity isChacha peerPublicKey presharedKey generated (s.install (s.session w keypair)) := by
  refine { h.zero none with sessions := List.forall_mem_cons.mpr ⟨?_, h.sessions⟩ }
  have hm := h.mixed
  obtain ⟨hst, hk⟩ := Option.ite_none_left_eq_some.mp hk
  refine ⟨s.hs.chainingKey, birthdate, ?_, ?_⟩
  · cases hk; rfl
  · have hst : s.hs.state = .createdResponse ∨ s.hs.state = .consumedResponse := by tauto
    rcases hst with hst | hst
    · rw [hst] at hm
      rw [if_neg (by cases hk; rw [hst]; exact Bool.false_ne_true)]
      exact hm
    · rw [hst] at hm
      rw [if_pos (by cases hk; rw [hst]; rfl)]
      exact hm

theorem step (hu : UniformDh C generated)
    (h : OneExchange C identity isChacha peerPublicKey presharedKey generated s) (hok : s.Generates generated ev)
    (hs : HandshakeCalls.step C identity isChacha s ev = some s') :
    OneExchange C identity isChacha peerPublicKey presharedKey generated s' := by
  cases step_cases hs with
  | noIdentity => exact h
  | stopInitiation hr => exact h.stopInitiation hu (hok _ rfl) hr
  | createInitiation hr => exact h.createInitiation (hok _ rfl) hr
  | @checkInitiation w src now t ck ck' hash hash' hclock ho ht hreplay hflood =>
    have hg := h.goto w (h.checkInitiation s.accepted.length ho ht)
    exact ⟨hg.config, hg.ss, hg.mixed, hg.calls, hg.sessions⟩
  | @writeInitiation w now src t ck hash n hw hclock =>
    have hx := h.calls w
    rw [hw] at hx
    exact (h.goto w (x := .respond) trivial).change rfl rfl ⟨rfl, rfl, rfl⟩ (fun _ => hx.1) (.inl hx.2)
  | stopResponse hr => exact (h.stopResponse hu (hok _ rfl) hr).goto _ trivial
  | createResponse hr => exact (h.createResponse (hok _ rfl) hr).goto _ trivial
  | lookupResponse he => exact h.goto _ trivial
  | readResponse hw ho => exact h.goto _ (h.readResponse _ ho)
  | @writeResponse w src copied ck hash n hw hst =>
    have hx := h.calls w
    rw [hw] at hx
    exact (h.goto w (x := .accepted ..) trivial).change rfl rfl ⟨rfl, rfl, rfl⟩
      (fun _ => h.ss (by rw [hst, hx.1]; decide)) hx.2
  | dead => exact (h.goto _ (x := .idle) trivial).zero s.entry
  | @install w birthdate keypair hk =>
    have hi := (h.install w hk).goto w (x := .idle) trivial
    exact ⟨hi.config, hi.ss, hi.mixed, hi.calls, hi.sessions⟩
  | endCall => exact h.goto _ trivial
  | handshakeClear => exact h.zero none


end OneExchange

/-- Whatever is interleaved and wherever the creating functions stop: a chaining key from which
transport keys are or may be derived is that of one exchange. -/
theorem chainingKey_of_exchange (C : Crypto) (identity : NoiseStaticIdentity) (isChacha : Bool)
    (peerPublicKey presharedKey : Bytes) (generated : Bytes → Prop) (hu : UniformDh C generated) (s : HandshakeCalls)
    (hrun : Exec (step C identity isChacha) (Generates generated)
      (init (noiseHandshakeInit C identity peerPublicKey presharedKey)) s) :
    (s.hs.state = .createdResponse → ∃ secret x, generated secret ∧
        Exchange.Responded C identity peerPublicKey presharedKey secret x ∧ s.hs.chainingKey = chain C x.data) ∧
      (s.hs.state = .consumedResponse → ∃ secret x, generated secret ∧
        Exchange.Initiated C identity peerPublicKey presharedKey secret x ∧ s.hs.chainingKey = chain C x.data) ∧
      ∀ y ∈ s.installed, ∃ secret x birthdate, generated secret ∧
        (if y.keypair.iAmTheInitiator then Exchange.Initiated C identity peerPublicKey presharedKey secret x
          else Exchange.Responded C identity peerPublicKey presharedKey secret x) ∧
        y.keypair = fillKeypair C isChacha y.keypair.iAmTheInitiator (chain C x.data)
          y.keypair.remoteIndex birthdate := by
  have h : OneExchange C identity isChacha peerPublicKey presharedKey generated s :=
    hrun.inv .init fun _ _ _ hok h hs => h.step hu hok hs
  refine ⟨fun hst => ?_, fun hst => ?_, fun y hy => ?_⟩
  · have hm := h.mixed
    rwa [hst] at hm
  · have hm := h.mixed
    rwa [hst] at hm
  · obtain ⟨ck, birthdate, hk, hx⟩ := h.sessions y hy
    cases hi : y.keypair.iAmTheInitiator with
    | true =>
      rw [if_pos hi] at hx
      obtain ⟨secret, x, hg, hx, rfl⟩ := hx
      exact ⟨secret, x, birthdate, hg, by rwa [if_pos rfl], hi ▸ hk⟩
    | false =>
      rw [if_neg (by rw [hi]; decide)] at hx
      obtain ⟨secret, x, hg, hx, rfl⟩ := hx
      exact ⟨secret, x, birthdate, hg, by rwa [if_neg (by decide)], hi ▸ hk⟩

theorem uniformDh_plain : UniformDh plainCrypto fun _ => True :=
  ⟨.inl fun _ _ => rfl, fun _ => .inl fun _ _ => rfl⟩

/-- A session as initiator, then one as responder. -/
def bothRoles : List CallEvent :=
  [.createInitiation [1] [] 5, .lookupResponse 0 (plainResponse 5), .readResponse 0, .writeResponse 0,
    .beginSession 0 .installed 0, .checkInitiation 1 (plainInitiation 9 1) 1000000000, .writeInitiation 1 1000000000,
    .createResponse 1 [2] 6, .beginSession 1 .installed 0]

theorem chainingKey_of_exchange_both_roles : ∃ s, plainCalls (Generates fun _ => True) s ∧
    s.installed.map (·.keypair.iAmTheInitiator) = [false, true] ∧
    ∀ y ∈ s.installed, ∃ secret x birthdate,
      (if y.keypair.iAmTheInitiator then Exchange.Initiated plainCrypto plainIdentity [7, 7] [4] secret x
        else Exchange.Responded plainCrypto plainIdentity [7, 7] [4] secret x) ∧
      y.keypair = fillKeypair plainCrypto true y.keypair.iAmTheInitiator (chain plainCrypto x.data)
        y.keypair.remoteIndex birthdate := by
  have hrun : ∃ s, plainCalls (Generates fun _ => True) s ∧
      s.installed.map (·.keypair.iAmTheInitiator) = [false, true] :=
    ⟨_, .of_foldlM bothRoles rfl, rfl⟩
  obtain ⟨s, hrun, hroles⟩ := hrun
  refine ⟨s, hrun, hroles, fun y hy => ?_⟩
  obtain ⟨secret, x, birthdate, -, hx, hk⟩ := (chainingKey_of_exchange _ _ _ _ _ _ uniformDh_plain s hrun).2.2 y hy
  exact ⟨secret, x, birthdate, hx, hk⟩

end HandshakeCalls
end WireguardAes
