import Mathlib.Algebra.Group.Nat.Defs

/-!
# Constants of `messages.h`

The protocol constants, with `BITS_PER_LONG = 64` and the sizes of the kernel's `curve25519.h`,
`chacha20poly1305.h` and `blake2s.h` (32-byte keys and hashes, 16-byte tags).
-/

namespace WireguardAes

abbrev U32 := BitVec 32
abbrev U64 := BitVec 64
abbrev Bytes := List UInt8

def bitsPerLong : Nat := 64

/-! ### `enum noise_lengths` -/

def noisePublicKeyLen : Nat := 32
def noiseTimestampLen : Nat := 8 + 4
def noiseAuthtagLen : Nat := 16
def noiseHashLen : Nat := 32
def noiseSymmetricKeyLen : Nat := 32

def noiseEncryptedLen (plainLen : Nat) : Nat := plainLen + noiseAuthtagLen

/-! ### `enum cookie_values` -/

def cookieSecretMaxAge : Nat := 2 * 60
def cookieSecretLatency : Nat := 5
def cookieNonceLen : Nat := 24
def cookieLen : Nat := 16

/-! ### `enum counter_values`, `enum limits` -/

def counterBitsTotal : Nat := 8192
def counterRedundantBits : Nat := bitsPerLong
def counterWindowSize : Nat := counterBitsTotal - counterRedundantBits

def rejectAfterMessages : Nat := (2 ^ 64 - 1) - counterWindowSize - 1
def rekeyAfterMessages : Nat := 2 ^ 60
def rekeyTimeout : Nat := 5
def rekeyTimeoutJitterMaxJiffies (hz : Nat) : Nat := hz / 3
def rekeyAfterTime : Nat := 120
def rejectAfterTime : Nat := 180
def initiationsPerSecond : Nat := 50
def keepaliveTimeout : Nat := 10
def maxTimerHandshakes : Nat := 90 / rekeyTimeout
def maxQueuedIncomingHandshakes : Nat := 4096
def maxQueuedPackets : Nat := 1024

/-! ### `enum message_type` and the sizes of the messages -/

def messageHandshakeInitiation : Nat := 1
def messageHandshakeResponse : Nat := 2
def messageHandshakeCookie : Nat := 3
def messageData : Nat := 4

def sizeofMessageHeader : Nat := 4
def sizeofMessageMacs : Nat := 2 * cookieLen
def sizeofMessageHandshakeInitiation : Nat :=
  sizeofMessageHeader + 4 + noisePublicKeyLen + noiseEncryptedLen noisePublicKeyLen +
    noiseEncryptedLen noiseTimestampLen + sizeofMessageMacs
def sizeofMessageHandshakeResponse : Nat :=
  sizeofMessageHeader + 4 + 4 + noisePublicKeyLen + noiseEncryptedLen 0 + sizeofMessageMacs
def sizeofMessageHandshakeCookie : Nat :=
  sizeofMessageHeader + 4 + cookieNonceLen + noiseEncryptedLen cookieLen
def sizeofMessageData : Nat := sizeofMessageHeader + 4 + 8

def messageDataLen (plainLen : Nat) : Nat := noiseEncryptedLen plainLen + sizeofMessageData

def messagePaddingMultiple : Nat := 16
def messageMinimumLength : Nat := messageDataLen 0

end WireguardAes
