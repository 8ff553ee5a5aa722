import WireguardAes.DataPath
import WireguardAes.PeerLookup
import WireguardAes.Lib.Runs

/-!
# Cookies (`cookie.c`)

The macs at the end of a handshake message. `mac1` is keyed by the static key of the receiver;
`mac2` is keyed by a cookie, which the receiver, when under load, makes from a secret of its own and
the source of the message and sends back in a reply that only fits the message answered.

On the sending side the cookie of a peer is shared by the calls of `wg_cookie_add_mac_to_packet` and
`wg_cookie_message_consume`; each has two sections under the lock, which are the steps here, and the
steps of all calls interleave in any order.
-/

namespace WireguardAes

open Function ByteOrder Runs

structure CookieCrypto where
  /-- `outlen` bytes; `blake2s_init` has the empty key. -/
  blake2s : (outlen : Nat) → (key message : Bytes) → Vector UInt8 outlen
  xchacha20poly1305Encrypt : (src ad nonce key : Bytes) → Bytes
  xchacha20poly1305Decrypt : (src ad nonce key : Bytes) → Option Bytes

/-- Decryption inverts encryption. -/
def CookieCrypto.Inverts (C : CookieCrypto) : Prop :=
  ∀ src ad nonce key, C.xchacha20poly1305Decrypt (C.xchacha20poly1305Encrypt src ad nonce key) ad nonce key = some src

/-! ### `struct message_macs` -/

def macsOffset (message : Bytes) : Nat := message.length - sizeofMessageMacs

def mac1 (message : Bytes) : Bytes := (message.drop (macsOffset message)).take cookieLen

def mac2 (message : Bytes) : Bytes := (message.drop (macsOffset message + cookieLen)).take cookieLen

def setMac1 (message mac : Bytes) : Bytes :=
  message.take (macsOffset message) ++ mac ++ message.drop (macsOffset message + cookieLen)

def setMac2 (message mac : Bytes) : Bytes := message.take (macsOffset message + cookieLen) ++ mac

section
variable {message mac : Bytes}

theorem length_setMac1 (h : sizeofMessageMacs ≤ message.length) (hm : mac.length = cookieLen) :
    (setMac1 message mac).length = message.length := by
  simp only [setMac1, macsOffset, List.length_append, List.length_take, List.length_drop, hm]
  simp only [sizeofMessageMacs, cookieLen] at h ⊢
  omega

theorem length_setMac2 (h : sizeofMessageMacs ≤ message.length) (hm : mac.length = cookieLen) :
    (setMac2 message mac).length = message.length := by
  simp only [setMac2, macsOffset, List.length_append, List.length_take, hm]
  simp only [sizeofMessageMacs, cookieLen] at h ⊢
  omega

theorem macsOffset_setMac1 (h : sizeofMessageMacs ≤ message.length) (hm : mac.length = cookieLen) :
    macsOffset (setMac1 message mac) = macsOffset message := by
  rw [macsOffset, length_setMac1 h hm, macsOffset]

theorem macsOffset_setMac2 (h : sizeofMessageMacs ≤ message.length) (hm : mac.length = cookieLen) :
    macsOffset (setMac2 message mac) = macsOffset message := by
  rw [macsOffset, length_setMac2 h hm, macsOffset]

theorem take_setMac1 (mac : Bytes) :
    (setMac1 message mac).take (macsOffset message) = message.take (macsOffset message) := by
  have hlen : (message.take (macsOffset message)).length = macsOffset message := by
    rw [List.length_take]
    exact Nat.min_eq_left (Nat.sub_le ..)
  rw [setMac1, List.append_assoc]
  exact List.take_left' hlen

theorem mac1_setMac1 (h : sizeofMessageMacs ≤ message.length) (hm : mac.length = cookieLen) :
    mac1 (setMac1 message mac) = mac := by
  have hlen : (message.take (macsOffset message)).length = macsOffset message := by
    rw [List.length_take]
    exact Nat.min_eq_left (Nat.sub_le ..)
  rw [mac1, macsOffset_setMac1 h hm, setMac1, List.append_assoc, List.drop_left' hlen]
  exact List.take_left' hm

theorem length_take_mac1 (h : sizeofMessageMacs ≤ message.length) :
    (message.take (macsOffset message + cookieLen)).length = macsOffset message + cookieLen := by
  rw [List.length_take]
  refine Nat.min_eq_left ?_
  simp only [macsOffset, sizeofMessageMacs, cookieLen] at h ⊢
  omega

theorem take_setMac2 (h : sizeofMessageMacs ≤ message.length) (mac : Bytes) :
    (setMac2 message mac).take (macsOffset message + cookieLen) = message.take (macsOffset message + cookieLen) := by
  exact List.take_left' (length_take_mac1 h)

theorem mac2_setMac2 (h : sizeofMessageMacs ≤ message.length) (hm : mac.length = cookieLen) :
    mac2 (setMac2 message mac) = mac := by
  rw [mac2, macsOffset_setMac2 h hm, setMac2, List.drop_left' (length_take_mac1 h), ← hm]
  exact List.take_length

/-- The bytes in front of the second mac decide the first one. -/
theorem mac1_congr {message' : Bytes} (hoff : macsOffset message' = macsOffset message)
    (h : message'.take (macsOffset message + cookieLen) = message.take (macsOffset message + cookieLen)) :
    mac1 message' = mac1 message := by
  have htake (m : Bytes) : mac1 m = (m.take (macsOffset m + cookieLen)).drop (macsOffset m) := by
    rw [mac1, List.drop_take, Nat.add_sub_cancel_left]
  rw [htake, htake, hoff, h]

end

/-! ### Keys -/

def mac1KeyLabel : Bytes := "mac1----".toUTF8.toList
def cookieKeyLabel : Bytes := "cookie--".toUTF8.toList

def precomputeKey (C : CookieCrypto) (pubkey label : Bytes) : Bytes :=
  (C.blake2s noiseSymmetricKeyLen [] (label ++ pubkey)).toList

structure CookieChecker where
  secret : Bytes
  cookieEncryptionKey : Bytes
  messageMac1Key : Bytes
  secretBirthdate : U64

/-- `wg_cookie_checker_precompute_device_keys`. -/
def CookieChecker.precomputeDeviceKeys (C : CookieCrypto) (identity : NoiseStaticIdentity) (checker : CookieChecker) :
    CookieChecker :=
  if identity.hasIdentity then
    { checker with
      cookieEncryptionKey := precomputeKey C identity.staticPublic cookieKeyLabel
      messageMac1Key := precomputeKey C identity.staticPublic mac1KeyLabel }
  else
    { checker with
      cookieEncryptionKey := List.replicate noiseSymmetricKeyLen 0
      messageMac1Key := List.replicate noiseSymmetricKeyLen 0 }

/-- `struct cookie`. -/
structure Cookie where
  birthdate : U64
  isValid : Bool
  cookie : Bytes
  haveSentMac1 : Bool
  lastMac1Sent : Bytes
  cookieDecryptionKey : Bytes
  messageMac1Key : Bytes

/-- `wg_cookie_init`. -/
def Cookie.init : Cookie where
  birthdate := 0
  isValid := false
  cookie := List.replicate cookieLen 0
  haveSentMac1 := false
  lastMac1Sent := List.replicate cookieLen 0
  cookieDecryptionKey := List.replicate noiseSymmetricKeyLen 0
  messageMac1Key := List.replicate noiseSymmetricKeyLen 0

/-- `wg_cookie_checker_precompute_peer_keys`. -/
def Cookie.precomputePeerKeys (C : CookieCrypto) (remoteStatic : Bytes) (cookie : Cookie) : Cookie :=
  { cookie with
    cookieDecryptionKey := precomputeKey C remoteStatic cookieKeyLabel
    messageMac1Key := precomputeKey C remoteStatic mac1KeyLabel }

/-! ### The two macs -/

def computeMac1 (C : CookieCrypto) (message key : Bytes) : Bytes :=
  (C.blake2s cookieLen key (message.take (macsOffset message))).toList

def computeMac2 (C : CookieCrypto) (message cookie : Bytes) : Bytes :=
  (C.blake2s cookieLen cookie (message.take (macsOffset message + cookieLen))).toList

@[simp] theorem length_computeMac1 (C : CookieCrypto) (message key : Bytes) :
    (computeMac1 C message key).length = cookieLen := Vector.length_toList ..

@[simp] theorem length_computeMac2 (C : CookieCrypto) (message cookie : Bytes) :
    (computeMac2 C message cookie).length = cookieLen := Vector.length_toList ..

/-! ### The receiver -/

/-- Where a packet came from: its source address and the two bytes of its source port. -/
structure PacketSource where
  protocol : EthProtocol
  saddr : Bytes
  port : Bytes
  deriving DecidableEq

/-- What the cookie is made of; the address has the length of its family. -/
def PacketSource.bytes (source : PacketSource) : Bytes :=
  match source.protocol with
  | .ip => source.saddr.take 4 ++ source.port
  | .ipv6 => source.saddr.take 16 ++ source.port

/-- The two readings of the clock in `make_cookie`, and the bytes a new secret would be made of. -/
structure MakeCookieInput where
  now : U64
  birthdate : U64
  fresh : Bytes

def makeCookie (C : CookieCrypto) (checker : CookieChecker) (source : PacketSource) (input : MakeCookieInput) :
    Bytes × CookieChecker :=
  let checker :=
    if birthdateHasExpired checker.secretBirthdate cookieSecretMaxAge input.now then
      { checker with secretBirthdate := input.birthdate, secret := input.fresh }
    else checker
  ((C.blake2s cookieLen checker.secret source.bytes).toList, checker)

inductive CookieMacState where
  | invalidMac
  | validMacButNoCookie
  | validMacWithCookieButRatelimited
  | validMacWithCookie
  deriving DecidableEq

/-- `wg_cookie_validate_packet`; `allow` is what `wg_ratelimiter_allow` returns. -/
def cookieValidatePacket (C : CookieCrypto) (checker : CookieChecker) (skb : Bytes) (source : PacketSource)
    (checkCookie : Bool) (input : MakeCookieInput) (allow : Bool) : CookieMacState × CookieChecker :=
  if computeMac1 C skb checker.messageMac1Key ≠ mac1 skb then (.invalidMac, checker)
  else if !checkCookie then (.validMacButNoCookie, checker)
  else
    let (cookie, checker) := makeCookie C checker source input
    if computeMac2 C skb cookie ≠ mac2 skb then (.validMacButNoCookie, checker)
    else if !allow then (.validMacWithCookieButRatelimited, checker)
    else (.validMacWithCookie, checker)

structure MessageHandshakeCookie where
  receiverIndex : U32
  nonce : Bytes
  encryptedCookie : Bytes

/-- `wg_cookie_message_create`. -/
def cookieMessageCreate (C : CookieCrypto) (checker : CookieChecker) (skb : Bytes) (source : PacketSource)
    (index : U32) (nonce : Bytes) (input : MakeCookieInput) : MessageHandshakeCookie × CookieChecker :=
  let (cookie, checker) := makeCookie C checker source input
  (⟨index, nonce, C.xchacha20poly1305Encrypt cookie (mac1 skb) nonce checker.cookieEncryptionKey⟩, checker)

/-! ### The sender -/

/-- What `wg_cookie_add_mac_to_packet` is called with. -/
def IsHandshakeMessage (message : Bytes) : Prop :=
  message.length = sizeofMessageHandshakeInitiation ∨ message.length = sizeofMessageHandshakeResponse

instance (message : Bytes) : Decidable (IsHandshakeMessage message) := inferInstanceAs (Decidable (_ ∨ _))

theorem IsHandshakeMessage.macs_le {message : Bytes} (h : IsHandshakeMessage message) :
    sizeofMessageMacs ≤ message.length := by
  rcases h with h | h <;> rw [h] <;> decide

namespace Cookie

/-- The write-locked section of `wg_cookie_add_mac_to_packet`: the message with its first mac. -/
def addMac1 (C : CookieCrypto) (c : Cookie) (message : Bytes) : Bytes × Cookie :=
  let message := setMac1 message (computeMac1 C message c.messageMac1Key)
  (message, { c with lastMac1Sent := mac1 message, haveSentMac1 := true })

/-- Its read-locked section. -/
def addMac2 (C : CookieCrypto) (c : Cookie) (message : Bytes) (now : U64) : Bytes :=
  if c.isValid && !birthdateHasExpired c.birthdate (cookieSecretMaxAge - cookieSecretLatency) now then
    setMac2 message (computeMac2 C message c.cookie)
  else setMac2 message (List.replicate cookieLen 0)

/-- The read-locked section of `wg_cookie_message_consume`: the cookie, if the reply is for the last
message. -/
def openReply (C : CookieCrypto) (c : Cookie) (src : MessageHandshakeCookie) : Option Bytes :=
  if !c.haveSentMac1 then none
  else C.xchacha20poly1305Decrypt src.encryptedCookie c.lastMac1Sent src.nonce c.cookieDecryptionKey

/-- Its write-locked section. -/
def writeReply (c : Cookie) (cookie : Bytes) (now : U64) : Cookie :=
  { c with cookie, birthdate := now, isValid := true, haveSentMac1 := false }

end Cookie

/-- A call between its two sections. -/
inductive CookieCall where
  | idle
  | addingMac (message : Bytes)
  /-- The decrypted cookie, and the mac it was decrypted against. -/
  | consuming (cookie boundTo : Bytes)
  deriving DecidableEq

/-- The cookie of a peer and the calls of the workers, with what the statements need of the past. -/
structure CookieState where
  latestCookie : Cookie
  call : Nat → CookieCall
  /-- How many messages have been given their first mac. -/
  given : Nat
  /-- How many replies have been consumed. -/
  consumed : Nat
  /-- The two numbers when the call of the worker got to where it is. -/
  began : Nat → Nat × Nat
  /-- The messages that are ready to be sent, the newest first. -/
  finished : List Bytes
  /-- How many messages had been given their first mac with the newest of these. -/
  finishedAt : Nat
  /-- The macs to which the replies consumed since then were bound. -/
  answered : List Bytes

inductive CookieEvent where
  | addMac1 (w : Nat) (message : Bytes)
  | addMac2 (w : Nat) (now : U64)
  /-- After the lookup of the receiver index has led to this peer. -/
  | consumeRead (w : Nat) (src : MessageHandshakeCookie)
  | consumeWrite (w : Nat) (now : U64)

namespace CookieState

/-- The cookie of a peer from `wg_peer_create`. -/
def init (C : CookieCrypto) (remoteStatic : Bytes) : CookieState where
  latestCookie := Cookie.init.precomputePeerKeys C remoteStatic
  call _ := .idle
  given := 0
  consumed := 0
  began _ := (0, 0)
  finished := []
  finishedAt := 0
  answered := []

def goto (s : CookieState) (w : Nat) (c : CookieCall) : CookieState :=
  { s with call := update s.call w c, began := update s.began w (s.given, s.consumed) }

variable (C : CookieCrypto)

def step (s : CookieState) : CookieEvent → Option CookieState
  | .addMac1 w message =>
    match s.call w with
    | .idle =>
      if IsHandshakeMessage message then
        let (message, latestCookie) := s.latestCookie.addMac1 C message
        some ({ s with latestCookie, given := s.given + 1 }.goto w (.addingMac message))
      else none
    | _ => none
  | .addMac2 w now =>
    match s.call w with
    | .addingMac message => some { s.goto w .idle with
        finished := s.latestCookie.addMac2 C message now :: s.finished
        finishedAt := (s.began w).1
        answered := [] }
    | _ => none
  | .consumeRead w src =>
    match s.call w with
    | .idle =>
      match s.latestCookie.openReply C src with
      | none => some s
      | some cookie => some (s.goto w (.consuming cookie s.latestCookie.lastMac1Sent))
    | _ => none
  | .consumeWrite w now =>
    match s.call w with
    | .consuming cookie boundTo => some { s.goto w .idle with
        latestCookie := s.latestCookie.writeReply cookie now
        consumed := s.consumed + 1
        answered := boundTo :: s.answered }
    | _ => none

end CookieState

namespace CookieState

variable {C : CookieCrypto} {s s' : CookieState}

/-- The condition on a step: no reply has been consumed between the two sections that finish a
message, and no message has been given its first mac between the two sections that consume a
reply. -/
def Uninterrupted (s : CookieState) : CookieEvent → Prop
  | .addMac2 w _ => s.consumed = (s.began w).2
  | .consumeWrite w _ => s.given = (s.began w).1
  | _ => True

instance (s : CookieState) : (e : CookieEvent) → Decidable (s.Uninterrupted e)
  | .addMac2 .. | .consumeWrite .. => inferInstanceAs (Decidable (_ = _))
  | .addMac1 .. | .consumeRead .. => inferInstanceAs (Decidable True)

/-- What a step can do. -/
inductive Step (C : CookieCrypto) (s : CookieState) : CookieEvent → CookieState → Prop
  | addMac1 {w : Nat} {message : Bytes} (hw : s.call w = .idle) (hm : IsHandshakeMessage message) :
      Step C s (.addMac1 w message)
        ({ s with latestCookie := (s.latestCookie.addMac1 C message).2, given := s.given + 1 }.goto w
          (.addingMac (s.latestCookie.addMac1 C message).1))
  | addMac2 {w : Nat} {message : Bytes} {now : U64} (hw : s.call w = .addingMac message) :
      Step C s (.addMac2 w now) { s.goto w .idle with
        finished := s.latestCookie.addMac2 C message now :: s.finished
        finishedAt := (s.began w).1
        answered := [] }
  | dropped {w : Nat} {src : MessageHandshakeCookie} (hw : s.call w = .idle)
      (hr : s.latestCookie.openReply C src = none) : Step C s (.consumeRead w src) s
  | consumeRead {w : Nat} {src : MessageHandshakeCookie} {cookie : Bytes} (hw : s.call w = .idle)
      (hr : s.latestCookie.openReply C src = some cookie) :
      Step C s (.consumeRead w src) (s.goto w (.consuming cookie s.latestCookie.lastMac1Sent))
  | consumeWrite {w : Nat} {cookie boundTo : Bytes} {now : U64} (hw : s.call w = .consuming cookie boundTo) :
      Step C s (.consumeWrite w now) { s.goto w .idle with
        latestCookie := s.latestCookie.writeReply cookie now
        consumed := s.consumed + 1
        answered := boundTo :: s.answered }

theorem step_cases {e : CookieEvent} (h : s.step C e = some s') : Step C s e s' := by
  cases e with
  | addMac1 w message =>
    cases hw : s.call w with
    | idle =>
      simp only [CookieState.step, hw] at h
      obtain ⟨hm, h⟩ := Option.ite_none_right_eq_some.mp h
      cases h
      exact .addMac1 hw hm
    | _ => simp only [CookieState.step, hw, reduceCtorEq] at h
  | addMac2 w now =>
    cases hw : s.call w with
    | addingMac message =>
      simp only [CookieState.step, hw] at h
      cases h
      exact .addMac2 hw
    | _ => simp only [CookieState.step, hw, reduceCtorEq] at h
  | consumeRead w src =>
    cases hw : s.call w with
    | idle =>
      cases hr : s.latestCookie.openReply C src with
      | none =>
        simp only [CookieState.step, hw, hr] at h
        cases h
        exact .dropped hw hr
      | some cookie =>
        simp only [CookieState.step, hw, hr] at h
        cases h
        exact .consumeRead hw hr
    | _ => simp only [CookieState.step, hw, reduceCtorEq] at h
  | consumeWrite w now =>
    cases hw : s.call w with
    | consuming cookie boundTo =>
      simp only [CookieState.step, hw] at h
      cases h
      exact .consumeWrite hw
    | _ => simp only [CookieState.step, hw, reduceCtorEq] at h

/-- What a call that began at these numbers can rely on. -/
def Relies (s : CookieState) (began : Nat × Nat) : CookieCall → Prop
  | .idle => True
  | .addingMac message => sizeofMessageMacs ≤ message.length ∧ began.1 ≤ s.given ∧ began.2 ≤ s.consumed ∧
      (s.given = began.1 → s.latestCookie.lastMac1Sent = mac1 message ∧
        (s.consumed = began.2 → s.latestCookie.haveSentMac1 = true))
  | .consuming _ boundTo => began.1 ≤ s.given ∧ (s.given = began.1 → s.latestCookie.lastMac1Sent = boundTo)

structure Inv (s : CookieState) : Prop where
  calls : ∀ w, s.Relies (s.began w) (s.call w)
  finishedAt : s.finishedAt ≤ s.given
  finished : ∀ m, s.finished.head?.map mac1 = some m → s.finishedAt = s.given →
    s.latestCookie.lastMac1Sent = m ∧ (m ∉ s.answered → s.latestCookie.haveSentMac1 = true)

theorem Relies.mono {began : Nat × Nat} {c : CookieCall} (h : s.Relies began c) (hg : s.given ≤ s'.given)
    (hc : s.consumed ≤ s'.consumed)
    (hlast : s'.given = s.given → s'.latestCookie.lastMac1Sent = s.latestCookie.lastMac1Sent)
    (hsent : s'.given = s.given → s'.consumed = s.consumed →
      s'.latestCookie.haveSentMac1 = s.latestCookie.haveSentMac1) : s'.Relies began c := by
  cases c with
  | idle => trivial
  | addingMac message =>
    obtain ⟨hlen, hle, hle', h⟩ := h
    refine ⟨hlen, hle.trans hg, hle'.trans hc, fun hn => ?_⟩
    have hn' : s'.given = s.given := Nat.le_antisymm (hn ▸ hle) hg
    obtain ⟨hmac, h⟩ := h (hn' ▸ hn)
    refine ⟨(hlast hn').trans hmac, fun hm => ?_⟩
    have hm' : s'.consumed = s.consumed := Nat.le_antisymm (hm ▸ hle') hc
    exact (hsent hn' hm').trans (h (hm' ▸ hm))
  | consuming cookie boundTo =>
    obtain ⟨hle, h⟩ := h
    refine ⟨hle.trans hg, fun hn => ?_⟩
    have hn' : s'.given = s.given := Nat.le_antisymm (hn ▸ hle) hg
    exact (hlast hn').trans (h (hn' ▸ hn))

theorem forall_goto {w : Nat} {c : CookieCall} (h : ∀ w, s'.Relies (s.began w) (s.call w))
    (hc : s'.Relies (s.given, s.consumed) c) (w' : Nat) : s'.Relies ((s.goto w c).began w') ((s.goto w c).call w') := by
  by_cases hw : w' = w
  · subst hw
    simpa only [goto, update_self] using hc
  · simpa only [goto, update_of_ne hw] using h w'

theorem mac1_addMac2 {message : Bytes} (h : sizeofMessageMacs ≤ message.length) (c : Cookie) (now : U64) :
    mac1 (c.addMac2 C message now) = mac1 message := by
  unfold Cookie.addMac2
  split
  · exact mac1_congr (macsOffset_setMac2 h (length_computeMac2 ..)) (take_setMac2 h _)
  · exact mac1_congr (macsOffset_setMac2 h List.length_replicate) (take_setMac2 h _)

theorem Inv.init (C : CookieCrypto) (remoteStatic : Bytes) : Inv (init C remoteStatic) :=
  ⟨fun _ => trivial, Nat.le_refl _, by rintro _ ⟨⟩⟩

theorem Inv.step (h : Inv s) {e : CookieEvent} (hok : s.Uninterrupted e) (hs : Step C s e s') : Inv s' := by
  cases hs with
  | @addMac1 w message hw hm =>
    refine ⟨fun w' => ?_, Nat.le_succ_of_le h.finishedAt, fun m _ hn => ?_⟩
    · refine forall_goto (s := { s with
        latestCookie := (s.latestCookie.addMac1 C message).2, given := s.given + 1 }) (fun w' => ?_) ?_ w'
      · exact (h.calls w').mono (Nat.le_succ _) (Nat.le_refl _) (fun hn => absurd hn (Nat.succ_ne_self _))
          fun hn => absurd hn (Nat.succ_ne_self _)
      · refine ⟨?_, Nat.le_refl _, Nat.le_refl _, fun _ => ⟨rfl, fun _ => rfl⟩⟩
        exact (length_setMac1 hm.macs_le (length_computeMac1 ..)).symm ▸ hm.macs_le
    · exact absurd hn (Nat.ne_of_lt (Nat.lt_succ_of_le h.finishedAt))
  | @addMac2 w message now hw =>
    have hx := h.calls w
    rw [hw] at hx
    obtain ⟨hlen, hle, -, hx⟩ := hx
    refine ⟨forall_goto h.calls trivial, hle, ?_⟩
    rintro _ ⟨⟩ hn
    obtain ⟨hmac, hsent⟩ := hx hn.symm
    exact ⟨hmac.trans (mac1_addMac2 hlen ..).symm, fun _ => hsent hok⟩
  | dropped => exact h
  | consumeRead hw hr => exact ⟨forall_goto h.calls ⟨Nat.le_refl _, fun _ => rfl⟩, h.finishedAt, h.finished⟩
  | @consumeWrite w cookie boundTo now hw =>
    refine ⟨forall_goto (fun w' => ?_) trivial, h.finishedAt, fun m hm hn => ?_⟩
    · exact (h.calls w').mono (Nat.le_refl _) (Nat.le_succ _) (fun _ => rfl)
        fun _ hm => absurd hm (Nat.succ_ne_self _)
    · -- the reply was bound to the latest message
      have hx := h.calls w
      rw [hw] at hx
      have hlast := (h.finished m hm hn).1
      refine ⟨hlast, fun hans => absurd ?_ hans⟩
      rw [← hlast, hx.2 hok]
      exact List.mem_cons_self

end CookieState

/-! ### Sample runs -/

/-- A hash that adds the key to the message and a cipher that appends the associated data. -/
def sampleCookieCrypto : CookieCrypto where
  blake2s outlen key message := Vector.ofFn fun i : Fin outlen => key.getD i 0 + message.getD i 0
  xchacha20poly1305Encrypt src ad _ _ := src ++ ad
  xchacha20poly1305Decrypt src ad _ _ :=
    if src.drop (src.length - ad.length) = ad then some (src.take (src.length - ad.length)) else none

theorem sampleCookieCrypto_inverts : sampleCookieCrypto.Inverts := by
  intro src ad nonce key
  have hlen : (src ++ ad).length - ad.length = src.length := by
    rw [List.length_append, Nat.add_sub_cancel]
  simp only [sampleCookieCrypto, hlen, List.drop_left, List.take_left, if_true]

def sampleResponse (b : UInt8) : Bytes := List.replicate sizeofMessageHandshakeResponse b

/-- The first mac of a sample response to a peer whose static key is the empty string. -/
def sampleMac1 (b : UInt8) : Bytes :=
  computeMac1 sampleCookieCrypto (sampleResponse b)
    (Cookie.init.precomputePeerKeys sampleCookieCrypto []).messageMac1Key

namespace CookieState

end CookieState
end WireguardAes
