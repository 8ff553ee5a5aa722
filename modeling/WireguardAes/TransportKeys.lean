import WireguardAes.Exchange
import WireguardAes.Lib.Ratchet

/-!
# Handshakes with a transport key in common

A handshake execution is what one device does in one role: it creates an initiation, consumes the
response and begins a session, or it consumes an initiation, creates the response and begins a
session. The key schedule is a ratchet of HMAC over the values of the exchange, so where HMAC has no
collisions a transport key tells its direction and all the values.
-/

namespace WireguardAes

structure InitiatorExecution (C : Crypto) where
  identity : NoiseStaticIdentity
  isChacha : Bool
  handshake : NoiseHandshake
  secret : Bytes
  timestamp : Bytes
  index : U32
  created : NoiseHandshake
  packet : MessageHandshakeInitiation
  src : MessageHandshakeResponse
  chainingKey : Bytes
  hash : Bytes
  birthdate : U64
  keypair : NoiseKeypair
  precomputed : handshake.precomputedStaticStatic = precomputeStaticStatic C identity handshake.remoteStatic
  creates : createInitiation C identity handshake secret timestamp index = (created, some packet)
  consumes : openResponse C identity created src = some (chainingKey, hash)
  begins : newKeypair C isChacha (writeResponse created src chainingKey hash) birthdate = some keypair

structure ResponderExecution (C : Crypto) where
  identity : NoiseStaticIdentity
  isChacha : Bool
  handshake : NoiseHandshake
  src : MessageHandshakeInitiation
  staticCk : Bytes
  staticHash : Bytes
  t : Bytes
  chainingKey : Bytes
  hash : Bytes
  now : U64
  secret : Bytes
  index : U32
  created : NoiseHandshake
  packet : MessageHandshakeResponse
  birthdate : U64
  keypair : NoiseKeypair
  precomputed : handshake.precomputedStaticStatic = precomputeStaticStatic C identity handshake.remoteStatic
  opensStatic : openStatic C identity src = some (handshake.remoteStatic, staticCk, staticHash)
  opensTimestamp : openTimestamp C handshake src staticCk staticHash = some (t, chainingKey, hash)
  creates : createResponse C (writeInitiation handshake src t chainingKey hash now) secret index =
    (created, some packet)
  begins : newKeypair C isChacha created birthdate = some keypair

/-- The values of the exchange, where all Diffie-Hellman results exist. -/
def InitiatorExecution.exchange {C : Crypto} (x : InitiatorExecution C) : Exchange where
  initiatorEphemeral := x.packet.unencryptedEphemeral
  es := (C.curve25519 x.secret x.handshake.remoteStatic).getD []
  ss := (C.curve25519 x.identity.staticPrivate x.handshake.remoteStatic).getD []
  responderEphemeral := x.src.unencryptedEphemeral
  ee := (C.curve25519 x.secret x.src.unencryptedEphemeral).getD []
  se := (C.curve25519 x.identity.staticPrivate x.src.unencryptedEphemeral).getD []
  psk := x.handshake.presharedKey

def ResponderExecution.exchange {C : Crypto} (x : ResponderExecution C) : Exchange where
  initiatorEphemeral := x.src.unencryptedEphemeral
  es := (C.curve25519 x.identity.staticPrivate x.src.unencryptedEphemeral).getD []
  ss := (C.curve25519 x.identity.staticPrivate x.handshake.remoteStatic).getD []
  responderEphemeral := x.packet.unencryptedEphemeral
  ee := (C.curve25519 x.secret x.src.unencryptedEphemeral).getD []
  se := (C.curve25519 x.secret x.handshake.remoteStatic).getD []
  psk := x.handshake.presharedKey

inductive HandshakeExecution (C : Crypto) where
  | initiator (x : InitiatorExecution C)
  | responder (x : ResponderExecution C)

inductive Direction where
  | toResponder
  | toInitiator
  deriving DecidableEq

/-- The key under which packets travel in this direction. -/
def NoiseKeypair.transportKey (k : NoiseKeypair) : Direction → Bytes
  | .toResponder => if k.iAmTheInitiator then k.sending.key else k.receiving.key
  | .toInitiator => if k.iAmTheInitiator then k.receiving.key else k.sending.key

section
variable (C : Crypto)

/-- HMAC calls of the key schedule, by message and key: those that lead from the initial chaining
key to the last one and from there to the transport keys. -/
def hmacCalls (data : List Bytes) : List (Bytes × Bytes) :=
  Ratchet.calls (hmac C) [1] (handshakeInitChainingKey C) data ++
    let ck := chain C data
    [([], ck), ([1], hmac C [] ck), ((kdf C [] ck).first ++ [2], hmac C [] ck)]

/-- The message whose HMAC is the transport key. -/
def outputMessage (data : List Bytes) : Direction → Bytes
  | .toResponder => [1]
  | .toInitiator => (kdf C [] (chain C data)).first ++ [2]

def transportKeyOf (data : List Bytes) (d : Direction) : Bytes :=
  hmac C (outputMessage C data d) (hmac C [] (chain C data))

end

namespace HandshakeExecution

variable {C : Crypto}

def exchange : HandshakeExecution C → Exchange
  | .initiator x => x.exchange
  | .responder x => x.exchange

def keypair : HandshakeExecution C → NoiseKeypair
  | .initiator x => x.keypair
  | .responder x => x.keypair

end HandshakeExecution

variable {C : Crypto}

theorem InitiatorExecution.chainingKey_eq (x : InitiatorExecution C) : x.chainingKey = chain C x.exchange.data := by
  obtain ⟨hrec, -, hcase⟩ := createInitiation_cases C x.identity x.handshake x.secret x.timestamp x.index
  rw [x.creates] at hrec hcase
  rcases hcase with ⟨hp, -⟩ | ⟨packet, e, es, hp, -, -, heph, he, hes, hss, hck, hpe⟩
  · cases hp
  obtain ⟨-, ee, se, hee, hse, hchain⟩ := openResponse_cases x.consumes
  rw [x.precomputed] at hss hck
  rw [show x.created.ephemeralPrivate = x.secret from heph] at hee
  have hpsk : x.created.presharedKey = x.handshake.presharedKey := hrec.psk
  rw [hchain _ hck, hpsk]
  cases hp
  simp only [exchange, Exchange.data, hpe, hes, hee, hse, precomputeStaticStatic_ne_zero hss, Option.getD_some,
    List.cons_append, List.nil_append]

theorem ResponderExecution.chainingKey_eq (x : ResponderExecution C) :
    x.created.chainingKey = chain C x.exchange.data := by
  obtain ⟨hck, es, hes⟩ := openInitiation_chain x.opensStatic x.opensTimestamp
  have hss := openTimestamp_precomputed x.opensTimestamp
  obtain ⟨-, -, hcase⟩ := createResponse_cases C
    (writeInitiation x.handshake x.src x.t x.chainingKey x.hash x.now) x.secret x.index
  rw [x.creates] at hcase
  rcases hcase with ⟨hp, -⟩ | ⟨packet, e, ee, se, hp, -, -, -, he, hee, hse, hchain, hpe⟩
  · cases hp
  rw [x.precomputed] at hss
  rw [initiationRead, x.precomputed, hes] at hck
  refine (hchain _ hck).trans ?_
  cases hp
  have hee : C.curve25519 x.secret x.src.unencryptedEphemeral = some ee := hee
  have hse : C.curve25519 x.secret x.handshake.remoteStatic = some se := hse
  simp only [exchange, Exchange.data, hpe, hes, hee, hse, precomputeStaticStatic_ne_zero hss, Option.getD_some,
    List.cons_append, List.nil_append]
  rfl

/-- Both roles take the first output of the key derivation for the way to the responder. -/
theorem newKeypair_transportKey {isChacha : Bool} {h : NoiseHandshake} {birthdate : U64} {k : NoiseKeypair}
    {data : List Bytes} (hk : newKeypair C isChacha h birthdate = some k) (hck : h.chainingKey = chain C data)
    (d : Direction) : k.transportKey d = transportKeyOf C data d := by
  unfold newKeypair at hk
  split at hk
  · cases hk
  cases hk
  cases hi : h.state == .consumedResponse <;> cases d <;> rw [hck] <;> rfl

namespace HandshakeExecution

theorem transportKey_eq (x : HandshakeExecution C) (d : Direction) :
    x.keypair.transportKey d = transportKeyOf C x.exchange.data d := by
  cases x with
  | initiator x => exact newKeypair_transportKey x.begins x.chainingKey_eq d
  | responder x => exact newKeypair_transportKey x.begins x.chainingKey_eq d

end HandshakeExecution

/-! ### No collisions -/

theorem outputMessage_mem (data : List Bytes) (d : Direction) :
    (outputMessage C data d, hmac C [] (chain C data)) ∈ hmacCalls C data := by
  cases d <;> simp [hmacCalls, outputMessage]

theorem outputMessage_direction {data data' : List Bytes} {d d' : Direction}
    (h : outputMessage C data d = outputMessage C data' d') : d = d' := by
  have hlast := congrArg List.getLast? h
  cases d <;> cases d' <;> simp [outputMessage] at hlast ⊢

theorem chain_eq_run (data : List Bytes) :
    chain C data = Ratchet.run (hmac C) [1] (handshakeInitChainingKey C) data := rfl

/-- A key tells its direction and, peeling off one output after the other, what was mixed. -/
theorem transportKeyOf_inj {data data' : List Bytes} {d d' : Direction}
    (hinj : Set.InjOn (fun p : Bytes × Bytes => hmac C p.1 p.2) { p | p ∈ hmacCalls C data ∨ p ∈ hmacCalls C data' })
    (hlen : data.length = data'.length) (h : transportKeyOf C data d = transportKeyOf C data' d') :
    d = d' ∧ data = data' := by
  have hout := hinj (.inl (outputMessage_mem data d)) (.inr (outputMessage_mem data' d')) h
  obtain ⟨hmsg, hsecret⟩ := Prod.mk.inj hout
  have hck : (([] : Bytes), chain C data) = ([], chain C data') :=
    hinj (.inl (by simp [hmacCalls])) (.inr (by simp [hmacCalls])) hsecret
  have hrun := (Prod.mk.inj hck).2
  rw [chain_eq_run, chain_eq_run] at hrun
  obtain ⟨-, hdata⟩ := Ratchet.run_inj hinj hlen (fun p hp => .inl (List.mem_append_left _ hp))
    (fun p hp => .inr (List.mem_append_left _ hp)) hrun
  exact ⟨outputMessage_direction hmsg, hdata⟩

theorem Exchange.data_inj {x y : Exchange} (h : x.data = y.data) : x = y := by
  cases x
  cases y
  simpa [Exchange.data] using h

/-- If HMAC has no collision among the calls of two handshake executions, a transport key they have
in common is of the same direction in both, and they agree on both ephemeral keys, on all
Diffie-Hellman results and on the preshared key. -/
theorem transportKey_agreement (C : Crypto) (x y : HandshakeExecution C) (d d' : Direction)
    (hinj : Set.InjOn (fun p : Bytes × Bytes => hmac C p.1 p.2)
      { p | p ∈ hmacCalls C x.exchange.data ∨ p ∈ hmacCalls C y.exchange.data })
    (h : x.keypair.transportKey d = y.keypair.transportKey d') : d = d' ∧ x.exchange = y.exchange := by
  rw [x.transportKey_eq, y.transportKey_eq] at h
  obtain ⟨hd, hdata⟩ := transportKeyOf_inj hinj rfl h
  exact ⟨hd, Exchange.data_inj hdata⟩

/-! ### Both sides of one exchange -/

/-- A four-byte hash. -/
def digest (m : Bytes) : Bytes :=
  let n := m.foldl (fun n b => (n * 257 + b.toNat + 1) % 4294967291) 1
  [n / 16777216, n / 65536, n / 256, n].map UInt8.ofNat

/-- Keys are one byte, and what two keys share is their product. -/
def byteCrypto : Crypto :=
  { plainCrypto with
    blake2s := digest
    curve25519 := fun secret point => some [secret.headD 0 * point.headD 0] }

def byteIdentity (key : UInt8) : NoiseStaticIdentity := ⟨[key], [key], true⟩

def byteHandshake (own peer : UInt8) : NoiseHandshake := noiseHandshakeInit byteCrypto (byteIdentity own) [peer] [4]

def byteTimestamp : Bytes := List.replicate noiseTimestampLen 1

def byteInitiation : MessageHandshakeInitiation := ⟨5, [3], tagged 1 [5], tagged 1 byteTimestamp⟩

def byteResponse : MessageHandshakeResponse := ⟨6, 5, [11], tagged 1 []⟩

def byteInitiator : InitiatorExecution byteCrypto where
  identity := byteIdentity 5
  isChacha := true
  handshake := byteHandshake 5 7
  secret := [3]
  timestamp := byteTimestamp
  index := 5
  created := (createInitiation byteCrypto (byteIdentity 5) (byteHandshake 5 7) [3] byteTimestamp 5).1
  packet := byteInitiation
  src := byteResponse
  chainingKey := _
  hash := _
  birthdate := 0
  keypair := _
  precomputed := rfl
  creates := rfl
  consumes := rfl
  begins := rfl

def byteResponder : ResponderExecution byteCrypto where
  identity := byteIdentity 7
  isChacha := true
  handshake := byteHandshake 7 5
  src := byteInitiation
  staticCk := _
  staticHash := _
  t := byteTimestamp
  chainingKey := _
  hash := _
  now := 0
  secret := [11]
  index := 6
  created := _
  packet := byteResponse
  birthdate := 0
  keypair := _
  precomputed := rfl
  opensStatic := rfl
  opensTimestamp := rfl
  creates := rfl
  begins := rfl

theorem byteExchange : byteInitiator.exchange = byteResponder.exchange := rfl

theorem byteCalls_nodup :
    ((hmacCalls byteCrypto byteInitiator.exchange.data).map fun p => hmac byteCrypto p.1 p.2).Nodup := by
  decide +kernel

theorem transportKey_agreement_bytes :
    byteInitiator.keypair.transportKey .toResponder = byteResponder.keypair.transportKey .toResponder ∧
      byteInitiator.exchange = byteResponder.exchange := by
  have hkey : (HandshakeExecution.initiator byteInitiator).keypair.transportKey .toResponder =
      (HandshakeExecution.responder byteResponder).keypair.transportKey .toResponder := by
    rw [HandshakeExecution.transportKey_eq, HandshakeExecution.transportKey_eq]
    exact congrArg (fun x : Exchange => transportKeyOf byteCrypto x.data _) byteExchange
  refine ⟨hkey, (transportKey_agreement byteCrypto (.initiator byteInitiator) (.responder byteResponder)
    .toResponder .toResponder ?_ hkey).2⟩
  intro p hp q hq heq
  exact List.inj_on_of_nodup_map byteCalls_nodup (or_self_iff.mp hp) (or_self_iff.mp hq) heq

end WireguardAes
