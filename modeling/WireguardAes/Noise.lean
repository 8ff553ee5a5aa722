import WireguardAes.Messages

/-!
# The Noise handshake (`noise.c`)

`Noise_IKpsk2`: `-> e, es, s, ss, {t}`, `<- e, ee, se, psk, {}`. The functions of `noise.c` on the
handshake of one peer, each lock-protected section of the source being one function. The creating
side updates the handshake in place, so what is left behind by a `goto out` in the middle of
`create_initiation` or `create_response` is part of the result; the consuming side works on copies.

The kernel's primitives are the fields of `Crypto`. Random and clock values are arguments.
-/

namespace WireguardAes

/-- The kernel's cryptographic library. -/
structure Crypto where
  /-- The 32-byte keyless hash of what the `blake2s_update` calls were given, concatenated. -/
  blake2s : Bytes → Bytes
  /-- Of a secret and a point; `none` where the kernel returns false. -/
  curve25519 : Bytes → Bytes → Option Bytes
  curve25519GeneratePublic : Bytes → Option Bytes
  chacha20poly1305Encrypt : (key : Bytes) → (nonce : U64) → (ad src : Bytes) → Bytes
  chacha20poly1305Decrypt : (key : Bytes) → (nonce : U64) → (ad src : Bytes) → Option Bytes
  /-- `gcm(aes)` with a 12-byte initialization vector. -/
  gcmEncrypt : (key iv ad src : Bytes) → Bytes
  gcmDecrypt : (key iv ad src : Bytes) → Option Bytes

def blake2sBlockSize : Nat := 64

/-! ### The key schedule -/

section
variable (C : Crypto)

/-- The key in a zeroed block, hashed first if it is longer than the block. -/
def hmacBlock (key : Bytes) : Bytes :=
  let k := if blake2sBlockSize < key.length then C.blake2s key else key
  k ++ List.replicate (blake2sBlockSize - k.length) 0

def hmac (input key : Bytes) : Bytes :=
  let xKey := (hmacBlock C key).map (· ^^^ 0x36)
  let iHash := C.blake2s (xKey ++ input)
  let xKey := xKey.map (· ^^^ (0x5c ^^^ 0x36))
  C.blake2s (xKey ++ iHash)

structure KdfOutput where
  first : Bytes
  second : Bytes
  third : Bytes

/-- All callers ask for whole outputs, so the ones a caller does not ask for are just not used. -/
def kdf (data chainingKey : Bytes) : KdfOutput :=
  let secret := hmac C data chainingKey
  let first := hmac C [1] secret
  let second := hmac C (first ++ [2]) secret
  let third := hmac C (second ++ [3]) secret
  ⟨first, second, third⟩

/-- The chaining key and the message key after a Diffie-Hellman result has been mixed in. -/
def mixKey (chainingKey dh : Bytes) : Bytes × Bytes :=
  let out := kdf C dh chainingKey
  (out.first, out.second)

def mixDh (chainingKey priv pub : Bytes) : Option (Bytes × Bytes) :=
  (C.curve25519 priv pub).map (mixKey C chainingKey)

def zeroPoint : Bytes := List.replicate noisePublicKeyLen 0

def mixPrecomputedDh (chainingKey precomputed : Bytes) : Option (Bytes × Bytes) :=
  if precomputed = zeroPoint then none else some (mixKey C chainingKey precomputed)

def mixHash (hash src : Bytes) : Bytes := C.blake2s (hash ++ src)

/-- The chaining key, the hash and the message key. -/
def mixPsk (chainingKey hash psk : Bytes) : Bytes × Bytes × Bytes :=
  let out := kdf C psk chainingKey
  (out.first, mixHash C hash out.second, out.third)

def handshakeName : Bytes := "Noise_IKpsk2_25519_ChaChaPoly_BLAKE2s".toUTF8.toList
def identifierName : Bytes := "WireGuard v1 zx2c4 Jason@zx2c4.com".toUTF8.toList

def handshakeInitChainingKey : Bytes := C.blake2s handshakeName
def handshakeInitHash : Bytes := C.blake2s (handshakeInitChainingKey C ++ identifierName)

/-- The chaining key and the hash a transcript starts from. -/
def handshakeInit (remoteStatic : Bytes) : Bytes × Bytes :=
  (handshakeInitChainingKey C, mixHash C (handshakeInitHash C) remoteStatic)

def messageEncrypt (src key hash : Bytes) : Bytes × Bytes :=
  let dst := C.chacha20poly1305Encrypt key 0 hash src
  (dst, mixHash C hash dst)

def messageDecrypt (src key hash : Bytes) : Option (Bytes × Bytes) :=
  (C.chacha20poly1305Decrypt key 0 hash src).map fun dst => (dst, mixHash C hash src)

def messageEphemeral (ephemeral chainingKey hash : Bytes) : Bytes × Bytes :=
  ((kdf C ephemeral chainingKey).first, mixHash C hash ephemeral)

end

/-! ### State and messages -/

structure NoiseStaticIdentity where
  staticPublic : Bytes
  staticPrivate : Bytes
  hasIdentity : Bool

inductive HandshakeState where
  | zeroed
  | createdInitiation
  | consumedInitiation
  | createdResponse
  | consumedResponse
  deriving DecidableEq

structure NoiseHandshake where
  state : HandshakeState
  lastInitiationConsumption : U64
  ephemeralPrivate : Bytes
  remoteStatic : Bytes
  remoteEphemeral : Bytes
  precomputedStaticStatic : Bytes
  presharedKey : Bytes
  hash : Bytes
  chainingKey : Bytes
  latestTimestamp : Bytes
  remoteIndex : U32

structure MessageHandshakeInitiation where
  senderIndex : U32
  unencryptedEphemeral : Bytes
  encryptedStatic : Bytes
  encryptedTimestamp : Bytes

structure MessageHandshakeResponse where
  senderIndex : U32
  receiverIndex : U32
  unencryptedEphemeral : Bytes
  encryptedNothing : Bytes

structure NoiseSymmetricKey where
  key : Bytes
  birthdate : U64
  isValid : Bool

/-- An AES-GCM handle is the key it was expanded from. -/
structure NoiseKeypair where
  sending : NoiseSymmetricKey
  receiving : NoiseSymmetricKey
  remoteIndex : U32
  iAmTheInitiator : Bool
  aeadEnc : Option Bytes
  aeadDec : Option Bytes

/-- The order of two timestamps as byte strings. -/
def memcmp : Bytes → Bytes → Ordering
  | a :: as, b :: bs => if a < b then .lt else if b < a then .gt else memcmp as bs
  | _, _ => .eq

def nsecPerSec : Nat := 1000000000

/-! ### The peer's handshake -/

def precomputeStaticStatic (C : Crypto) (identity : NoiseStaticIdentity) (remoteStatic : Bytes) : Bytes :=
  if identity.hasIdentity then (C.curve25519 identity.staticPrivate remoteStatic).getD zeroPoint else zeroPoint

/-- `wg_noise_handshake_init`. -/
def noiseHandshakeInit (C : Crypto) (identity : NoiseStaticIdentity) (peerPublicKey presharedKey : Bytes) :
    NoiseHandshake where
  state := .zeroed
  lastInitiationConsumption := 0
  ephemeralPrivate := zeroPoint
  remoteStatic := peerPublicKey
  remoteEphemeral := zeroPoint
  precomputedStaticStatic := precomputeStaticStatic C identity peerPublicKey
  presharedKey
  hash := List.replicate noiseHashLen 0
  chainingKey := List.replicate noiseHashLen 0
  latestTimestamp := List.replicate noiseTimestampLen 0
  remoteIndex := 0

def handshakeZero (h : NoiseHandshake) : NoiseHandshake :=
  { h with
    ephemeralPrivate := zeroPoint
    remoteEphemeral := zeroPoint
    hash := List.replicate noiseHashLen 0
    chainingKey := List.replicate noiseHashLen 0
    remoteIndex := 0
    state := .zeroed }

section
variable (C : Crypto) (identity : NoiseStaticIdentity)

/-- `secret` is the generated ephemeral key, `index` what `wg_index_hashtable_insert` returns. -/
def createInitiation (h : NoiseHandshake) (secret timestamp : Bytes) (index : U32) :
    NoiseHandshake × Option MessageHandshakeInitiation :=
  if !identity.hasIdentity then (h, none) else
  let (chainingKey, hash) := handshakeInit C h.remoteStatic
  -- e
  let h := { h with chainingKey, hash, ephemeralPrivate := secret }
  match C.curve25519GeneratePublic secret with
  | none => (h, none)
  | some e =>
    let (chainingKey, hash) := messageEphemeral C e h.chainingKey h.hash
    let h := { h with chainingKey, hash }
    -- es
    match mixDh C h.chainingKey h.ephemeralPrivate h.remoteStatic with
    | none => (h, none)
    | some (chainingKey, key) =>
      -- s
      let (encryptedStatic, hash) := messageEncrypt C identity.staticPublic key h.hash
      let h := { h with chainingKey, hash }
      -- ss
      match mixPrecomputedDh C h.chainingKey h.precomputedStaticStatic with
      | none => (h, none)
      | some (chainingKey, key) =>
        -- {t}
        let (encryptedTimestamp, hash) := messageEncrypt C timestamp key h.hash
        ({ h with chainingKey, hash, state := .createdInitiation },
          some ⟨index, e, encryptedStatic, encryptedTimestamp⟩)

/-- `e, es, s` of `consume_initiation`: the claimed static key, the chaining key and the hash. -/
def openStatic (src : MessageHandshakeInitiation) : Option (Bytes × Bytes × Bytes) :=
  if !identity.hasIdentity then none else
  let (chainingKey, hash) := handshakeInit C identity.staticPublic
  let (chainingKey, hash) := messageEphemeral C src.unencryptedEphemeral chainingKey hash
  (mixDh C chainingKey identity.staticPrivate src.unencryptedEphemeral).bind fun (chainingKey, key) =>
  (messageDecrypt C src.encryptedStatic key hash).map fun (s, hash) => (s, chainingKey, hash)

/-- `ss, {t}` of `consume_initiation` on the handshake of the peer that was looked up. -/
def openTimestamp (h : NoiseHandshake) (src : MessageHandshakeInitiation) (chainingKey hash : Bytes) :
    Option (Bytes × Bytes × Bytes) :=
  (mixPrecomputedDh C chainingKey h.precomputedStaticStatic).bind fun (chainingKey, key) =>
  (messageDecrypt C src.encryptedTimestamp key hash).map fun (t, hash) => (t, chainingKey, hash)

/-- What the read-locked section of `consume_initiation` finds. -/
def replayAttack (h : NoiseHandshake) (t : Bytes) : Bool := memcmp t h.latestTimestamp != .gt

def floodAttack (h : NoiseHandshake) (now : U64) : Bool :=
  now.slt (h.lastInitiationConsumption + BitVec.ofNat 64 (nsecPerSec / initiationsPerSecond))

/-- The write-locked section of `consume_initiation`. -/
def writeInitiation (h : NoiseHandshake) (src : MessageHandshakeInitiation) (t chainingKey hash : Bytes)
    (now : U64) : NoiseHandshake :=
  { h with
    remoteEphemeral := src.unencryptedEphemeral
    latestTimestamp := if memcmp t h.latestTimestamp = .gt then t else h.latestTimestamp
    hash
    chainingKey
    remoteIndex := src.senderIndex
    lastInitiationConsumption :=
      if (h.lastInitiationConsumption - now).slt 0 then now else h.lastInitiationConsumption
    state := .consumedInitiation }

def createResponse (h : NoiseHandshake) (secret : Bytes) (index : U32) :
    NoiseHandshake × Option MessageHandshakeResponse :=
  if h.state ≠ .consumedInitiation then (h, none) else
  -- e
  let h := { h with ephemeralPrivate := secret }
  match C.curve25519GeneratePublic secret with
  | none => (h, none)
  | some e =>
    let (chainingKey, hash) := messageEphemeral C e h.chainingKey h.hash
    let h := { h with chainingKey, hash }
    -- ee
    match mixDh C h.chainingKey h.ephemeralPrivate h.remoteEphemeral with
    | none => (h, none)
    | some (chainingKey, _) =>
      let h := { h with chainingKey }
      -- se
      match mixDh C h.chainingKey h.ephemeralPrivate h.remoteStatic with
      | none => (h, none)
      | some (chainingKey, _) =>
        -- psk
        let (chainingKey, hash, key) := mixPsk C chainingKey h.hash h.presharedKey
        -- {}
        let (encryptedNothing, hash) := messageEncrypt C [] key hash
        ({ h with chainingKey, hash, state := .createdResponse },
          some ⟨index, h.remoteIndex, e, encryptedNothing⟩)

/-- `e, ee, se, psk, {}` of `consume_response` on the values `h` copied under the read lock: the
chaining key and the hash. -/
def openResponse (h : NoiseHandshake) (src : MessageHandshakeResponse) : Option (Bytes × Bytes) :=
  if h.state ≠ .createdInitiation then none else
  let e := src.unencryptedEphemeral
  let (chainingKey, hash) := messageEphemeral C e h.chainingKey h.hash
  (mixDh C chainingKey h.ephemeralPrivate e).bind fun (chainingKey, _) =>
  (mixDh C chainingKey identity.staticPrivate e).bind fun (chainingKey, _) =>
  let (chainingKey, hash, key) := mixPsk C chainingKey hash h.presharedKey
  (messageDecrypt C src.encryptedNothing key hash).map fun (_, hash) => (chainingKey, hash)

/-- The write-locked section of `consume_response`, past its check of the state. -/
def writeResponse (h : NoiseHandshake) (src : MessageHandshakeResponse) (chainingKey hash : Bytes) :
    NoiseHandshake :=
  { h with
    remoteEphemeral := src.unencryptedEphemeral
    hash
    chainingKey
    remoteIndex := src.senderIndex
    state := .consumedResponse }

/-- The two keys of a session, in the order of the KDF outputs. -/
def deriveKeys (chainingKey : Bytes) (birthdate : U64) : NoiseSymmetricKey × NoiseSymmetricKey :=
  let out := kdf C [] chainingKey
  (⟨out.first, birthdate, true⟩, ⟨out.second, birthdate, true⟩)

/-- The keypair `begin_session` fills in from the handshake, with the two AES-GCM handles unless the
device uses ChaCha20-Poly1305. -/
def fillKeypair (isChacha iAmTheInitiator : Bool) (chainingKey : Bytes) (remoteIndex : U32) (birthdate : U64) :
    NoiseKeypair :=
  let keys := deriveKeys C chainingKey birthdate
  let sending := if iAmTheInitiator then keys.1 else keys.2
  let receiving := if iAmTheInitiator then keys.2 else keys.1
  { sending, receiving, iAmTheInitiator, remoteIndex
    aeadEnc := if isChacha then none else some sending.key
    aeadDec := if isChacha then none else some receiving.key }

/-- `none` in a state in which no session can begin. -/
def newKeypair (isChacha : Bool) (h : NoiseHandshake) (birthdate : U64) : Option NoiseKeypair :=
  if h.state ≠ .createdResponse ∧ h.state ≠ .consumedResponse then none
  else some (fillKeypair C isChacha (h.state == .consumedResponse) h.chainingKey h.remoteIndex birthdate)

end

/-! ### Sample primitives

An instance without collisions on which runs can be evaluated: the hash is the identity, a shared
secret shows the lengths of the two keys, and a cipher appends a tag that names it. -/

def tagged (tag : UInt8) (src : Bytes) : Bytes := src ++ List.replicate noiseAuthtagLen tag

def untagged (tag : UInt8) (src : Bytes) : Option Bytes :=
  let len := src.length - noiseAuthtagLen
  if src.drop len = List.replicate noiseAuthtagLen tag then some (src.take len) else none

def plainCrypto : Crypto where
  blake2s m := m
  curve25519 secret point := some (List.replicate (secret.length + point.length) 1)
  curve25519GeneratePublic secret := some secret
  chacha20poly1305Encrypt _ _ _ src := tagged 1 src
  chacha20poly1305Decrypt _ _ _ src := untagged 1 src
  gcmEncrypt _ _ _ src := tagged 2 src
  gcmDecrypt _ _ _ src := untagged 2 src

end WireguardAes
