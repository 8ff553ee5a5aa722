import Mathlib.Data.List.Basic

/-!
# HMAC and HKDF over an arbitrary hash

`hash` is a hash function whose blocks have `block` bytes.
-/

namespace Hkdf

section
variable (hash : List UInt8 → List UInt8) (block : Nat)

/-- The key as a whole block: a key that is longer is hashed, one that is shorter is filled up with
zeros. -/
def blockKey (key : List UInt8) : List UInt8 :=
  let k := if block < key.length then hash key else key
  k ++ List.replicate (block - k.length) 0

/-- `H(K xor opad, H(K xor ipad, text))` -/
def hmac (key text : List UInt8) : List UInt8 :=
  hash ((blockKey hash block key).map (· ^^^ 0x5c) ++ hash ((blockKey hash block key).map (· ^^^ 0x36) ++ text))

/-- `PRK = HMAC-Hash(salt, IKM)` -/
def extract (salt ikm : List UInt8) : List UInt8 := hmac hash block salt ikm

/-- `T(0)` is empty, and `T(i) = HMAC-Hash(PRK, T(i - 1) | info | i)`. -/
def expand (prk info : List UInt8) : Nat → List UInt8
  | 0 => []
  | i + 1 => hmac hash block prk (expand prk info i ++ info ++ [UInt8.ofNat (i + 1)])

theorem expand_succ (prk info : List UInt8) (i : Nat) :
    expand hash block prk info (i + 1) = hmac hash block prk (expand hash block prk info i ++
      info ++ [UInt8.ofNat (i + 1)]) := rfl

end
end Hkdf
