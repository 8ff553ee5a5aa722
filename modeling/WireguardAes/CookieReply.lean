import WireguardAes.Cookie

/-!
# A handshake message and the cookie reply to it

From the sender of a message to its receiver and back: the keys, the bytes that the macs cover, the
associated data of the reply and the lookup of its index agree, so the receiver accepts the first
mac of every message, the sender takes the reply to its latest message, and its messages carry the
second mac the receiver asks for until the cookie expires.
-/

namespace WireguardAes

open ByteOrder Runs

/-- `message->sender_index` of either message. -/
def senderIndex (message : Bytes) : U32 := BitVec.ofNat 32 (leNat ((message.drop sizeofMessageHeader).take 4))

/-- The first mac is the one the key demands. -/
structure Mac1Ok (C : CookieCrypto) (key message : Bytes) : Prop where
  macs_le : sizeofMessageMacs ≤ message.length
  mac1 : computeMac1 C message key = mac1 message

section
variable {C : CookieCrypto} {key message : Bytes}

theorem mac1Ok_setMac1 (h : sizeofMessageMacs ≤ message.length) :
    Mac1Ok C key (setMac1 message (computeMac1 C message key)) where
  macs_le := by rwa [length_setMac1 h (length_computeMac1 ..)]
  mac1 := by
    have hoff := macsOffset_setMac1 h (length_computeMac1 C message key)
    rw [mac1_setMac1 h (length_computeMac1 ..), computeMac1, hoff, take_setMac1]
    rfl

theorem Mac1Ok.setMac2 (h : Mac1Ok C key message) {mac : Bytes} (hm : mac.length = cookieLen) :
    Mac1Ok C key (setMac2 message mac) := by
  have hoff := macsOffset_setMac2 h.macs_le hm
  have htake := take_setMac2 h.macs_le mac
  have hcover : (WireguardAes.setMac2 message mac).take (macsOffset message) = message.take (macsOffset message) := by
    have hle : macsOffset message ≤ macsOffset message + cookieLen := Nat.le_add_right ..
    have := congrArg (List.take (macsOffset message)) htake
    rwa [List.take_take, List.take_take, Nat.min_eq_left hle] at this
  refine ⟨by rw [length_setMac2 h.macs_le hm]; exact h.macs_le, ?_⟩
  rw [mac1_congr hoff htake, ← h.mac1, computeMac1, hoff, hcover]
  rfl

theorem Mac1Ok.addMac2 (h : Mac1Ok C key message) (c : Cookie) (now : U64) :
    Mac1Ok C key (c.addMac2 C message now) := by
  unfold Cookie.addMac2
  split
  · exact h.setMac2 (length_computeMac2 ..)
  · exact h.setMac2 List.length_replicate

end

/-! ### What a sender keeps -/

namespace CookieState

variable {C : CookieCrypto} {s s' t : CookieState} {remoteStatic : Bytes}

structure SenderOk (C : CookieCrypto) (remoteStatic : Bytes) (s : CookieState) : Prop where
  decryptionKey : s.latestCookie.cookieDecryptionKey = precomputeKey C remoteStatic cookieKeyLabel
  mac1Key : s.latestCookie.messageMac1Key = precomputeKey C remoteStatic mac1KeyLabel
  adding : ∀ w message, s.call w = .addingMac message → Mac1Ok C (precomputeKey C remoteStatic mac1KeyLabel) message
  finished : ∀ message ∈ s.finished, Mac1Ok C (precomputeKey C remoteStatic mac1KeyLabel) message

theorem SenderOk.goto (h : SenderOk C remoteStatic s) (w : Nat) {c : CookieCall}
    (hc : ∀ message, c = .addingMac message → Mac1Ok C (precomputeKey C remoteStatic mac1KeyLabel) message) :
    ∀ w' message, (s.goto w c).call w' = .addingMac message →
      Mac1Ok C (precomputeKey C remoteStatic mac1KeyLabel) message :=
  (Function.forall_update_iff s.call fun _ c => ∀ message, c = .addingMac message →
    Mac1Ok C (precomputeKey C remoteStatic mac1KeyLabel) message).mpr ⟨hc, fun w' _ => h.adding w'⟩

theorem SenderOk.step (h : SenderOk C remoteStatic s) {e : CookieEvent} (hs : Step C s e s') :
    SenderOk C remoteStatic s' := by
  cases hs with
  | @addMac1 w message hw hm =>
    refine ⟨h.decryptionKey, h.mac1Key, h.goto w ?_, h.finished⟩
    rintro _ ⟨⟩
    rw [← h.mac1Key]
    exact mac1Ok_setMac1 hm.macs_le
  | @addMac2 w message now hw =>
    refine ⟨h.decryptionKey, h.mac1Key, h.goto w (by rintro _ ⟨⟩), ?_⟩
    exact List.forall_mem_cons.mpr ⟨(h.adding w message hw).addMac2 _ now, h.finished⟩
  | dropped => exact h
  | consumeRead => exact ⟨h.decryptionKey, h.mac1Key, h.goto _ (by rintro _ ⟨⟩), h.finished⟩
  | consumeWrite => exact ⟨h.decryptionKey, h.mac1Key, h.goto _ (by rintro _ ⟨⟩), h.finished⟩

theorem SenderOk.init (C : CookieCrypto) (remoteStatic : Bytes) : SenderOk C remoteStatic (init C remoteStatic) :=
  ⟨rfl, rfl, by rintro _ _ ⟨⟩, List.forall_mem_nil _⟩

/-! ### Conditions on the sender's other calls -/

/-- No other handshake message is sent to the peer. -/
def NoOtherMessage (_ : CookieState) : CookieEvent → Prop
  | .addMac1 .. => False
  | _ => True

/-- No other cookie reply from the peer is consumed. -/
def NoOtherReply (_ : CookieState) : CookieEvent → Prop
  | .consumeWrite .. => False
  | _ => True

instance (s : CookieState) : (e : CookieEvent) → Decidable (s.NoOtherMessage e)
  | .addMac1 .. => inferInstanceAs (Decidable False)
  | .addMac2 .. | .consumeRead .. | .consumeWrite .. => inferInstanceAs (Decidable True)

instance (s : CookieState) : (e : CookieEvent) → Decidable (s.NoOtherReply e)
  | .consumeWrite .. => inferInstanceAs (Decidable False)
  | .addMac1 .. | .addMac2 .. | .consumeRead .. => inferInstanceAs (Decidable True)

def Undisturbed (s : CookieState) (e : CookieEvent) : Prop := s.NoOtherMessage e ∧ s.NoOtherReply e

instance (s : CookieState) (e : CookieEvent) : Decidable (s.Undisturbed e) := inferInstanceAs (Decidable (_ ∧ _))

/-- In `s` the message is given its first mac; up to `t` the reply has been consumed, at time `now`,
and the sender's other steps have all been `ok`. -/
def Replied (C : CookieCrypto) (ok : CookieState → CookieEvent → Prop) (s t : CookieState) (message : Bytes)
    (reply : MessageHandshakeCookie) (now : U64) : Prop :=
  ∃ w w' s₁ s₂ s₃ s₄, s.step C (.addMac1 w message) = some s₁ ∧ Exec (CookieState.step C) ok s₁ s₂ ∧
    s₂.step C (.consumeRead w' reply) = some s₃ ∧ Exec (CookieState.step C) ok s₃ s₄ ∧
    s₄.step C (.consumeWrite w' now) = some t

theorem Undisturbed.latestCookie (h : Exec (CookieState.step C) Undisturbed s t) : t.latestCookie = s.latestCookie := by
  refine h.inv (I := fun t => t.latestCookie = s.latestCookie) rfl fun t e u hok hi hs => ?_
  cases step_cases hs with
  | addMac1 => exact hok.1.elim
  | addMac2 | dropped | consumeRead => exact hi
  | consumeWrite => exact hok.2.elim

theorem Undisturbed.call (h : Exec (CookieState.step C) Undisturbed s t) {w : Nat} {cookie boundTo : Bytes}
    (hw : s.call w = .consuming cookie boundTo) : t.call w = .consuming cookie boundTo := by
  refine h.inv (I := fun t => t.call w = .consuming cookie boundTo) hw fun t e u hok hi hs => ?_
  have hkeep {w' : Nat} {c c' : CookieCall} (hw' : t.call w' = c) (hne : c ≠ .consuming cookie boundTo) :
      (t.goto w' c').call w = .consuming cookie boundTo := by
    refine (Function.update_of_ne ?_ ..).trans hi
    rintro rfl
    exact hne (hw'.symm.trans hi)
  cases step_cases hs with
  | addMac1 => exact hok.1.elim
  | addMac2 hw' => exact hkeep hw' (by rintro ⟨⟩)
  | dropped => exact hi
  | consumeRead hw' => exact hkeep hw' (by rintro ⟨⟩)
  | consumeWrite => exact hok.2.elim

/-- The sender has the cookie, and has had it since `now`. -/
structure HasCookie (cookie : Bytes) (now : U64) (s : CookieState) : Prop where
  valid : s.latestCookie.isValid = true
  cookie : s.latestCookie.cookie = cookie
  birthdate : s.latestCookie.birthdate = now

theorem HasCookie.run {cookie : Bytes} {now : U64} (h : HasCookie cookie now s)
    (hrun : Exec (CookieState.step C) NoOtherReply s t) : HasCookie cookie now t := by
  refine hrun.inv h fun t e u hok hi hs => ?_
  cases step_cases hs with
  | addMac1 | addMac2 | dropped | consumeRead => exact ⟨hi.valid, hi.cookie, hi.birthdate⟩
  | consumeWrite => exact hok.elim

end CookieState

/-! ### The two directions together -/

/-- The clock, which stays far below the end of its signed range, has not moved by the whole
time. -/
theorem birthdateHasExpired_eq_false {birthdate now : U64} {seconds : Nat}
    (hlt : now.toNat < birthdate.toNat + seconds * nsecPerSec) (hrange : birthdate.toNat + seconds *
      nsecPerSec < 2 ^ 63) :
    birthdateHasExpired birthdate seconds now = false := by
  have hsum : (birthdate + BitVec.ofNat 64 (seconds * nsecPerSec)).toNat = birthdate.toNat + seconds * nsecPerSec := by
    rw [BitVec.toNat_add, BitVec.toNat_ofNat, Nat.mod_eq_of_lt (b := 2 ^ 64) (by omega), Nat.mod_eq_of_lt (by omega)]
  rw [birthdateHasExpired, BitVec.sle_eq_decide, decide_eq_false_iff_not, BitVec.toInt_eq_toNat_of_lt (by omega),
    BitVec.toInt_eq_toNat_of_lt (by omega), hsum]
  omega

section
variable {C : CookieCrypto} {checker : CookieChecker} {identity : NoiseStaticIdentity} {skb : Bytes}
  {source : PacketSource} {input : MakeCookieInput}

theorem makeCookie_unexpired (h : birthdateHasExpired checker.secretBirthdate cookieSecretMaxAge input.now = false) :
    makeCookie C checker source input = ((C.blake2s cookieLen checker.secret source.bytes).toList, checker) := by
  unfold makeCookie
  rw [h]
  rfl

theorem cookieValidatePacket_mac1 (h : Mac1Ok C checker.messageMac1Key skb) (checkCookie allow : Bool) :
    (cookieValidatePacket C checker skb source checkCookie input allow).1 ≠ .invalidMac := by
  unfold cookieValidatePacket
  rw [if_neg (not_not_intro h.mac1)]
  cases checkCookie with
  | false => rintro ⟨⟩
  | true =>
    simp only [Bool.not_true, Bool.false_eq_true, if_false]
    split
    · rintro ⟨⟩
    · split <;> rintro ⟨⟩

theorem cookieValidatePacket_mac2 (h : Mac1Ok C checker.messageMac1Key skb)
    (hsecret : birthdateHasExpired checker.secretBirthdate cookieSecretMaxAge input.now = false)
    (hmac2 : computeMac2 C skb (C.blake2s cookieLen checker.secret source.bytes).toList = mac2 skb) (allow : Bool) :
    (cookieValidatePacket C checker skb source true input allow).1 =
      if allow then .validMacWithCookie else .validMacWithCookieButRatelimited := by
  unfold cookieValidatePacket
  rw [if_neg (not_not_intro h.mac1)]
  simp only [Bool.not_true, Bool.false_eq_true, if_false, makeCookie_unexpired hsecret, hmac2, ne_eq,
    not_true_eq_false]
  cases allow <;> rfl

theorem Mac1Ok.mac2_addMac2 {key message : Bytes} (h : Mac1Ok C key message) {c : Cookie} {now : U64}
    (hvalid : c.isValid = true)
    (hexp : birthdateHasExpired c.birthdate (cookieSecretMaxAge - cookieSecretLatency) now = false) :
    computeMac2 C (c.addMac2 C message now) c.cookie = mac2 (c.addMac2 C message now) := by
  have hlen := length_computeMac2 C message c.cookie
  rw [Cookie.addMac2, hvalid, hexp]
  simp only [Bool.not_false, Bool.and_self, if_true]
  rw [mac2_setMac2 h.macs_le hlen, computeMac2, macsOffset_setMac2 h.macs_le hlen, take_setMac2 h.macs_le]
  rfl

end

namespace CookieState

variable {C : CookieCrypto} {identity : NoiseStaticIdentity} {s t : CookieState}

theorem SenderOk.takes (hC : C.Inverts) (hid : identity.hasIdentity = true)
    (h : SenderOk C identity.staticPublic s) {skb : Bytes} (hsent : s.latestCookie.haveSentMac1 = true)
    (hlast : s.latestCookie.lastMac1Sent = mac1 skb) (checker : CookieChecker) (source : PacketSource) (index : U32)
    (nonce : Bytes) (input : MakeCookieInput) :
    s.latestCookie.openReply C
        (cookieMessageCreate C (checker.precomputeDeviceKeys C identity) skb source index nonce input).1 =
      some (makeCookie C (checker.precomputeDeviceKeys C identity) source input).1 := by
  have hkey : (makeCookie C (checker.precomputeDeviceKeys C identity) source input).2.cookieEncryptionKey =
      s.latestCookie.cookieDecryptionKey := by
    rw [h.decryptionKey, CookieChecker.precomputeDeviceKeys, if_pos hid, makeCookie]
    split <;> rfl
  rw [Cookie.openReply, hsent, hlast, ← hkey]
  exact hC ..

theorem Replied.hasCookie (hC : C.Inverts) (hid : identity.hasIdentity = true)
    (h : SenderOk C identity.staticPublic s) {message skb nonce : Bytes} {checker : CookieChecker}
    {source : PacketSource} {index : U32} {input : MakeCookieInput} {now : U64}
    (hskb : mac1 skb = mac1 (s.latestCookie.addMac1 C message).1)
    (hr : Replied C Undisturbed s t message
      (cookieMessageCreate C (checker.precomputeDeviceKeys C identity) skb source index nonce input).1 now) :
    SenderOk C identity.staticPublic t ∧
      HasCookie (makeCookie C (checker.precomputeDeviceKeys C identity) source input).1 now t := by
  obtain ⟨w, w', s₁, s₂, s₃, s₄, h₁, h₁₂, h₂₃, h₃₄, h₄⟩ := hr
  have hrun {a b : CookieState} (ha : SenderOk C identity.staticPublic a)
      (hab : Exec (CookieState.step C) Undisturbed a b) : SenderOk C identity.staticPublic b :=
    hab.inv ha fun _ _ _ _ hi hs => hi.step (step_cases hs)
  have hs₁ := h.step (step_cases h₁)
  have hs₂ := hrun hs₁ h₁₂
  have hs₃ := hs₂.step (step_cases h₂₃)
  have hs₄ := hrun hs₃ h₃₄
  -- between the message and the reply nothing has changed the cookie of the peer
  have hcookie : s₂.latestCookie = (s.latestCookie.addMac1 C message).2 := by
    rw [Undisturbed.latestCookie h₁₂]
    cases step_cases h₁
    rfl
  have htakes := hs₂.takes hC hid (by rw [hcookie]; rfl) (by rw [hcookie, hskb]; rfl) checker source index nonce input
  have hcall : ∃ boundTo, s₃.call w' =
      .consuming (makeCookie C (checker.precomputeDeviceKeys C identity) source input).1 boundTo := by
    cases step_cases h₂₃ with
    | dropped hw hr =>
      rw [htakes] at hr
      cases hr
    | consumeRead hw hr =>
      rw [htakes] at hr
      cases hr
      exact ⟨_, Function.update_self ..⟩
  obtain ⟨boundTo, hcall⟩ := hcall
  refine ⟨hs₄.step (step_cases h₄), ?_⟩
  cases step_cases h₄ with
  | consumeWrite hw =>
    rw [Undisturbed.call h₃₄ hcall] at hw
    cases hw
    exact ⟨rfl, rfl, rfl⟩

/-- For a peer whose static key is the receiver's: the first mac of every finished message is
accepted. The reply to a message finds the peer by the index of the message, whichever entry is
under it, and is taken unless another message has been sent or another reply consumed meanwhile.
Once it has been consumed, every message that is finished within the lifetime of the cookie passes
the check of the second mac, if it comes from the same source and the check does not rotate the
secret, as long as no other reply has been consumed. -/
theorem cookie_round_trip (C : CookieCrypto) (hC : C.Inverts) (identity : NoiseStaticIdentity)
    (hid : identity.hasIdentity = true) (s : CookieState)
    (h : Exec (CookieState.step C) (fun _ _ => True) (init C identity.staticPublic) s) :
    (∀ skb ∈ s.finished, ∀ (checker : CookieChecker) source checkCookie input allow,
      (cookieValidatePacket C (checker.precomputeDeviceKeys C identity) skb source checkCookie input allow).1 ≠
        .invalidMac) ∧
    ∀ message skb, mac1 skb = mac1 (s.latestCookie.addMac1 C message).1 →
      ∀ (checker : CookieChecker) source nonce input,
      let r := cookieMessageCreate C (checker.precomputeDeviceKeys C identity) skb source (senderIndex skb) nonce input
      (∀ (table : IndexHashtable) entry, table.At entry (senderIndex skb) →
        table.lookupEither r.1.receiverIndex = some entry) ∧
      (∀ w w' s₁ s₂, s.step C (.addMac1 w message) = some s₁ → Exec (CookieState.step C) Undisturbed s₁ s₂ →
        s₂.call w' = .idle →
          ∃ cookie, s₂.step C (.consumeRead w' r.1) = some (s₂.goto w' (.consuming cookie (mac1 skb)))) ∧
      ∀ t now, Replied C Undisturbed s t message r.1 now →
        ∀ t', Exec (CookieState.step C) NoOtherReply t t' → ∀ w later t'' skb',
          t'.step C (.addMac2 w later) = some t'' → t''.finished = skb' :: t'.finished →
          later.toNat < now.toNat + (cookieSecretMaxAge - cookieSecretLatency) * nsecPerSec →
          now.toNat + (cookieSecretMaxAge - cookieSecretLatency) * nsecPerSec < 2 ^ 63 →
          ∀ (checker' : CookieChecker) (input' : MakeCookieInput) allow, checker'.secret = r.2.secret →
            birthdateHasExpired checker'.secretBirthdate cookieSecretMaxAge input'.now = false →
            (cookieValidatePacket C (checker'.precomputeDeviceKeys C identity) skb' source true input' allow).1 =
              if allow then .validMacWithCookie else .validMacWithCookieButRatelimited := by
  have hok : SenderOk C identity.staticPublic s :=
    h.inv (.init C _) fun _ _ _ _ hi hs => hi.step (step_cases hs)
  have hkey (checker : CookieChecker) : (checker.precomputeDeviceKeys C identity).messageMac1Key =
      precomputeKey C identity.staticPublic mac1KeyLabel := by
    rw [CookieChecker.precomputeDeviceKeys, if_pos hid]
  refine ⟨fun skb hskb checker source checkCookie input allow => ?_, ?_⟩
  · refine cookieValidatePacket_mac1 ?_ checkCookie allow
    rw [hkey]
    exact hok.finished skb hskb
  · intro message skb hskb checker source nonce input r
    refine ⟨fun table entry hentry => hentry.lookupEither, ?_, ?_⟩
    · intro w w' s₁ s₂ h₁ h₁₂ hw'
      have hs₂ : SenderOk C identity.staticPublic s₂ :=
        h₁₂.inv (hok.step (step_cases h₁)) fun _ _ _ _ hi hs => hi.step (step_cases hs)
      have hcookie : s₂.latestCookie = (s.latestCookie.addMac1 C message).2 := by
        rw [Undisturbed.latestCookie h₁₂]
        cases step_cases h₁
        rfl
      have htakes := hs₂.takes hC hid (by rw [hcookie]; rfl) (by rw [hcookie, hskb]; rfl) checker source
        (senderIndex skb) nonce input
      have hlast : s₂.latestCookie.lastMac1Sent = mac1 skb := by
        rw [hcookie, hskb]
        rfl
      refine ⟨(makeCookie C (checker.precomputeDeviceKeys C identity) source input).1, ?_⟩
      rw [CookieState.step, hw', ← hlast]
      simp only [r, htakes]
    · intro t now hr t' hrun w later t'' skb' hstep hfin hlater hrange checker' input' allow hsecret hexp
      obtain ⟨ht, hcookie⟩ := hr.hasCookie hC hid hok hskb
      have ht' : SenderOk C identity.staticPublic t' := hrun.inv ht fun _ _ _ _ hi hs => hi.step (step_cases hs)
      have hcookie' := hcookie.run hrun
      have hsecret' : (checker'.precomputeDeviceKeys C identity).secret = r.2.secret := by
        rw [CookieChecker.precomputeDeviceKeys, if_pos hid]
        exact hsecret
      have hbirth : (checker'.precomputeDeviceKeys C identity).secretBirthdate = checker'.secretBirthdate := by
        rw [CookieChecker.precomputeDeviceKeys, if_pos hid]
      cases step_cases hstep with
      | @addMac2 _ m _ hw =>
        obtain rfl : t'.latestCookie.addMac2 C m later = skb' := (List.cons.inj hfin).1
        have hm := ht'.adding w m hw
        refine cookieValidatePacket_mac2 (by rw [hkey]; exact hm.addMac2 _ later) (by rw [hbirth]; exact hexp) ?_ allow
        have hmac2 := hm.mac2_addMac2 hcookie'.valid
          (by rw [hcookie'.birthdate]; exact birthdateHasExpired_eq_false hlater hrange)
        rw [hsecret', ← hmac2, hcookie'.cookie]
        rfl

theorem exists_finished_eq_cons {C : CookieCrypto} {s t : CookieState} {w : Nat} {now : U64}
    (h : s.step C (.addMac2 w now) = some t) : ∃ skb, t.finished = skb :: s.finished := by
  rcases step_cases h
  exact ⟨_, rfl⟩

/-! ### Sample runs -/

def sampleIdentity : NoiseStaticIdentity := ⟨[], [], true⟩

def sampleChecker : CookieChecker := CookieChecker.precomputeDeviceKeys sampleCookieCrypto
    sampleIdentity ⟨[], [], [], 0⟩

def sampleSource (b : UInt8) : PacketSource := ⟨.ip, [10, 0, 0, b], [0, 7]⟩

def sampleInput : MakeCookieInput := ⟨1, 1, [9]⟩

/-- The reply to a response that came from a source. -/
def sampleReplyTo (message : Bytes) (source : PacketSource) : MessageHandshakeCookie :=
  let skb := ((init sampleCookieCrypto []).latestCookie.addMac1 sampleCookieCrypto message).1
  (cookieMessageCreate sampleCookieCrypto sampleChecker skb source (senderIndex skb) [] sampleInput).1

def sampleStep (s : CookieState) (e : CookieEvent) : CookieState := (s.step sampleCookieCrypto e).getD s

theorem sampleStep_eq {s : CookieState} {e : CookieEvent} (h : (s.step sampleCookieCrypto e).isSome = true) :
    s.step sampleCookieCrypto e = some (sampleStep s e) := Exec.step_getD h

/-- A response is given its first mac, it is answered, and the reply is consumed. -/
def sampleSent : CookieState := sampleStep (init sampleCookieCrypto []) (.addMac1 0 (sampleResponse 1))
def sampleOpened : CookieState :=
  sampleStep sampleSent (.consumeRead 1 (sampleReplyTo (sampleResponse 1) (sampleSource 1)))
def sampleReplied : CookieState := sampleStep sampleOpened (.consumeWrite 1 6)

theorem sampleReplied_replied (ok : CookieState → CookieEvent → Prop) : Replied sampleCookieCrypto ok
    (init sampleCookieCrypto []) sampleReplied (sampleResponse 1)
    (sampleReplyTo (sampleResponse 1) (sampleSource 1)) 6 :=
  ⟨0, 1, sampleSent, sampleSent, sampleOpened, sampleOpened, sampleStep_eq (by decide +kernel), .refl _,
    sampleStep_eq (by decide +kernel), .refl _, sampleStep_eq (by decide +kernel)⟩

/-- The next message has its first mac. -/
def sampleNext : CookieState := sampleStep sampleReplied (.addMac1 2 (sampleResponse 2))

theorem sampleNext_step : sampleReplied.step sampleCookieCrypto (.addMac1 2 (sampleResponse 2)) = some sampleNext :=
  sampleStep_eq (by decide +kernel)

theorem cookie_round_trip_next : ∃ t skb, sampleNext.step sampleCookieCrypto (.addMac2 2 8) = some t ∧
    t.finished = [skb] ∧ (cookieValidatePacket sampleCookieCrypto sampleChecker skb (sampleSource 1) true sampleInput
      true).1 = .validMacWithCookie := by
  have hround := cookie_round_trip sampleCookieCrypto sampleCookieCrypto_inverts sampleIdentity rfl
    (init sampleCookieCrypto []) (.refl _)
  have hskb := hround.2 (sampleResponse 1) _ rfl ⟨[], [], [], 0⟩ (sampleSource 1) [] sampleInput
  have hnext : Exec (CookieState.step sampleCookieCrypto) NoOtherReply sampleReplied sampleNext :=
    Exec.tail (.refl _) (by trivial) sampleNext_step
  have hlast : sampleNext.step sampleCookieCrypto (.addMac2 2 8) = some (sampleStep sampleNext (.addMac2 2 8)) :=
    sampleStep_eq (by decide +kernel)
  have hold : sampleNext.finished = [] := by decide +kernel
  obtain ⟨skb, hskb'⟩ := exists_finished_eq_cons hlast
  refine ⟨_, skb, hlast, by rw [hskb', hold], ?_⟩
  exact hskb.2.2 sampleReplied 6 (sampleReplied_replied Undisturbed) sampleNext hnext 2 8 _ skb hlast hskb'
    (by decide +kernel) (by decide +kernel) ⟨[], [], [], 0⟩ sampleInput true rfl (by decide +kernel)

/-- That message reaches the receiver from another source and is answered, and that reply is
consumed too. -/
def sampleOpenedOther : CookieState :=
  sampleStep sampleNext (.consumeRead 1 (sampleReplyTo (sampleResponse 2) (sampleSource 2)))
def sampleRepliedOther : CookieState := sampleStep sampleOpenedOther (.consumeWrite 1 7)
def sampleRoamed : CookieState := sampleStep sampleRepliedOther (.addMac1 3 (sampleResponse 3))

/-- The message after it carries the cookie of the other source, and fails the check at the first
one. -/
theorem otherReply_fails_mac2 :
    Replied sampleCookieCrypto NoOtherMessage (init sampleCookieCrypto []) sampleReplied (sampleResponse 1)
      (sampleReplyTo (sampleResponse 1) (sampleSource 1)) 6 ∧
    Exec (CookieState.step sampleCookieCrypto) (fun _ _ => True) sampleReplied sampleRoamed ∧
    ∃ t skb, sampleRoamed.step sampleCookieCrypto (.addMac2 3 8) = some t ∧ t.finished = [skb] ∧
      (cookieValidatePacket sampleCookieCrypto sampleChecker skb (sampleSource 1) true sampleInput true).1 =
        .validMacButNoCookie := by
  have hopen : sampleNext.step sampleCookieCrypto
      (.consumeRead 1 (sampleReplyTo (sampleResponse 2) (sampleSource 2))) = some sampleOpenedOther :=
    sampleStep_eq (by decide +kernel)
  have hwrite : sampleOpenedOther.step sampleCookieCrypto (.consumeWrite 1 7) = some sampleRepliedOther :=
    sampleStep_eq (by decide +kernel)
  have hmac : sampleRepliedOther.step sampleCookieCrypto (.addMac1 3 (sampleResponse 3)) = some sampleRoamed :=
    sampleStep_eq (by decide +kernel)
  refine ⟨sampleReplied_replied NoOtherMessage, ?_, sampleStep sampleRoamed (.addMac2 3 8),
    sampleRoamed.latestCookie.addMac2 sampleCookieCrypto (setMac1 (sampleResponse 3) (sampleMac1 3)) 8,
    sampleStep_eq (by decide +kernel), by decide +kernel, by decide +kernel⟩
  exact ((((Exec.refl _).tail trivial sampleNext_step).tail trivial hopen).tail trivial hwrite).tail trivial hmac

end CookieState
end WireguardAes
