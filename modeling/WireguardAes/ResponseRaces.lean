import WireguardAes.HandshakeCalls

/-!
# Sessions that begin after another handshake has moved in

`consume_response` checks before it writes back, and `begin_session` before it derives the keys,
that the handshake is in the right state. That it is still the same handshake they do not check. Two
things are at stake: the index under which the keypair of a call that has accepted a response is
registered, and whether a response that is transmitted belongs to the keypair that was installed for
it.
-/

namespace WireguardAes

open Runs

namespace HandshakeCalls

open HandshakeRun (plainResponse)

variable {C : Crypto} {identity : NoiseStaticIdentity} {isChacha : Bool} {s s' : HandshakeCalls} {ev : CallEvent}
variable {x : HandshakeCall} {keypair : NoiseKeypair} {birthdate : U64}

/-! ### The index of the keypair for an accepted response -/

/-- How often the handshake's entry had been inserted when the response was looked up for which a
keypair is about to be installed. -/
def lookedUpAfter (s : HandshakeCalls) : CallEvent → Option Nat
  | .beginSession w .installed _ => match s.call w with
    | .accepted _ n => some n
    | _ => none
  | _ => none

/-- Where a session begins for a response that the call has accepted, no handshake message has been
created since the response was looked up. -/
def NotReinserted (s : HandshakeCalls) (ev : CallEvent) : Prop :=
  s.hs.state = .createdResponse ∨ s.hs.state = .consumedResponse → ∀ n ∈ s.lookedUpAfter ev, s.inserted = n

instance (s : HandshakeCalls) (ev : CallEvent) : Decidable (s.NotReinserted ev) :=
  inferInstanceAs (Decidable (_ → ∀ n ∈ s.lookedUpAfter ev, _ = n))

/-- Only the insertion of an index leads into these states from the others. -/
def HasIndex (s : HandshakeCalls) : Prop :=
  s.hs.state = .createdInitiation ∨ s.hs.state = .createdResponse ∨ s.hs.state = .consumedResponse

/-- As long as no other index is inserted, the handshake's entry is the one that was looked up. -/
def Waits (s : HandshakeCalls) (receiverIndex : U32) (n : Nat) : Prop :=
  n ≤ s.inserted ∧ (s.inserted = n → s.HasIndex → s.entry = some receiverIndex)

def EntryKept (s : HandshakeCalls) : HandshakeCall → Prop
  | .found src n => s.Waits src.receiverIndex n
  | .opened src copied _ _ n => copied.state = .createdInitiation ∧ s.Waits src.receiverIndex n
  | .accepted i n => s.Waits i n
  | _ => True

structure Registered (s : HandshakeCalls) : Prop where
  calls : ∀ w, s.EntryKept (s.call w)
  sessions : ∀ x ∈ s.installed, ∀ i, x.response = some i → x.index = some i

theorem Waits.mono {i : U32} {n : Nat} (h : s.Waits i n) (hn : s.inserted ≤ s'.inserted)
    (he : s'.inserted = s.inserted → s'.HasIndex → s.HasIndex ∧ s'.entry = s.entry) : s'.Waits i n := by
  refine ⟨Nat.le_trans h.1 hn, fun hs' hst => ?_⟩
  have hs : s'.inserted = s.inserted := Nat.le_antisymm (hs' ▸ h.1) hn
  obtain ⟨hst', hent⟩ := he hs hst
  rw [hent]
  exact h.2 (hs ▸ hs') hst'

theorem EntryKept.mono (h : s.EntryKept x) (hn : s.inserted ≤ s'.inserted)
    (he : s'.inserted = s.inserted → s'.HasIndex → s.HasIndex ∧ s'.entry = s.entry) : s'.EntryKept x := by
  cases x with
  | found src n => exact Waits.mono h hn he
  | opened src copied ck hash n => exact ⟨h.1, h.2.mono hn he⟩
  | accepted i n => exact Waits.mono h hn he
  | _ => trivial

theorem not_hasIndex_zero (h : s'.hs = handshakeZero s.hs) : ¬ s'.HasIndex := by
  rw [HasIndex, h]
  rintro (h | h | h) <;> cases h

theorem newKeypair_state
    (hk : newKeypair C isChacha s.hs birthdate = some keypair) :
    s.hs.state = .createdResponse ∨ s.hs.state = .consumedResponse := by
  obtain ⟨hst, -⟩ := Option.ite_none_left_eq_some.mp hk
  tauto

namespace Registered

theorem init (h₀ : NoiseHandshake) : Registered (HandshakeCalls.init h₀) where
  calls _ := trivial
  sessions := List.forall_mem_nil _

theorem goto (h : s.Registered) (w : Nat) (hx : s.EntryKept x) : (s.goto w x).Registered where
  calls := forall_goto (P := s.EntryKept) h.calls w hx
  sessions := h.sessions

theorem change (h : s.Registered) (hcall : s'.call = s.call) (hinst : s'.installed = s.installed)
    (hn : s.inserted ≤ s'.inserted)
    (he : s'.inserted = s.inserted → s'.HasIndex → s.HasIndex ∧ s'.entry = s.entry) : s'.Registered where
  calls w := by rw [hcall]; exact (h.calls w).mono hn he
  sessions := by rw [hinst]; exact h.sessions

theorem zero (h : s.Registered) (entry : Option U32) :
    Registered { s with hs := handshakeZero s.hs, entry } :=
  h.change rfl rfl (Nat.le_refl _) fun _ hst => absurd hst (not_hasIndex_zero rfl)

theorem stopped (h : s.Registered) {hs : NoiseHandshake} (hst : hs.state = s.hs.state) :
    (s.generate hs none).Registered := by
  refine h.change rfl rfl (Nat.le_refl _) fun _ hst' => ⟨?_, rfl⟩
  rwa [HasIndex, show (s.generate hs none).hs.state = s.hs.state from hst] at hst'

theorem inserted (h : s.Registered) (hs : NoiseHandshake) (i : U32) : (s.generate hs (some i)).Registered :=
  h.change rfl rfl (Nat.le_succ _) fun hn => absurd hn (Nat.succ_ne_self _)

/-- This is where the condition is needed: the index is the one of whatever entry is there. -/
theorem install (h : s.Registered) {w : Nat}
    (hok : s.NotReinserted (.beginSession w .installed birthdate))
    (hk : newKeypair C isChacha s.hs birthdate = some keypair) : (s.install (s.session w keypair)).Registered := by
  refine { h.zero none with sessions := List.forall_mem_cons.mpr ⟨fun i hi => ?_, h.sessions⟩ }
  have hst := newKeypair_state hk
  change (s.call w).response = some i at hi
  cases hw : s.call w with
  | accepted j n =>
    rw [hw] at hi
    cases hi
    have hx := h.calls w
    rw [hw] at hx
    have hn : s.inserted = n := hok hst n (by simp only [lookedUpAfter, hw]; rfl)
    exact hx.2 hn (.inr hst)
  | _ => rw [hw] at hi; cases hi

theorem step (h : s.Registered) (hok : s.NotReinserted ev)
    (hs : HandshakeCalls.step C identity isChacha s ev = some s') : s'.Registered := by
  cases step_cases hs with
  | noIdentity => exact h
  | stopInitiation hr => exact h.stopped (createInitiation_stopped hr)
  | createInitiation hr => exact h.inserted _ _
  | checkInitiation hclock ho ht hreplay hflood =>
    exact (h.goto _ (x := .checked ..) trivial).change rfl rfl (Nat.le_refl _) fun _ hst => ⟨hst, rfl⟩
  | writeInitiation hw hclock =>
    refine (h.goto _ (x := .respond) trivial).change rfl rfl (Nat.le_refl _) fun _ hst => ?_
    rcases hst with hst | hst | hst <;> cases hst
  | stopResponse hr => exact (h.stopped (createResponse_stopped hr)).goto _ trivial
  | createResponse hr => exact (h.inserted _ _).goto _ trivial
  | lookupResponse he => exact h.goto _ ⟨Nat.le_refl _, fun _ _ => he⟩
  | @readResponse w src n ck hash hw ho =>
    have hx := h.calls w
    rw [hw] at hx
    exact h.goto _ ⟨openResponse_state ho, hx⟩
  | @writeResponse w src copied ck hash n hw hst =>
    have hx := h.calls w
    rw [hw] at hx
    exact (h.goto w (x := .accepted src.receiverIndex n) hx.2).change rfl rfl (Nat.le_refl _) fun _ _ =>
      ⟨.inl (hst.trans hx.1), rfl⟩
  | dead => exact (h.goto _ (x := .idle) trivial).zero s.entry
  | @install w birthdate keypair hk =>
    have hi := (h.install hok hk).goto w (x := .idle) trivial
    exact ⟨hi.calls, hi.sessions⟩
  | endCall => exact h.goto _ trivial
  | handshakeClear => exact h.zero none

end Registered

/-- How many keys had been generated, with the one of the response that is about to be sent, when it
was created. -/
def respondingAfter (s : HandshakeCalls) : CallEvent → Option Nat
  | .beginSession w _ _ => match s.call w with
    | .responding _ _ n => some n
    | _ => none
  | _ => none

/-- Where a session begins for a response that has been created, no other handshake message has been
created since. -/
def OwnExchange (s : HandshakeCalls) (ev : CallEvent) : Prop :=
  s.hs.state = .createdResponse ∨ s.hs.state = .consumedResponse → ∀ n ∈ s.respondingAfter ev, s.generated = n

instance (s : HandshakeCalls) (ev : CallEvent) : Decidable (s.OwnExchange ev) :=
  inferInstanceAs (Decidable (_ → ∀ n ∈ s.respondingAfter ev, _ = n))

/-- The handshake is still the one this response was created in, if a session can begin at all. -/
def Holds (s : HandshakeCalls) (packet : MessageHandshakeResponse) (ck : Bytes) : Prop :=
  s.hs.state ≠ .createdInitiation ∧ s.hs.state ≠ .consumedResponse ∧
    (s.hs.state = .createdResponse → s.hs.chainingKey = ck ∧ s.entry = some packet.senderIndex)

def ResponseHeld (s : HandshakeCalls) : HandshakeCall → Prop
  | .responding packet ck n => n ≤ s.generated ∧ (s.generated = n → s.Holds packet ck)
  | .opened _ copied _ _ _ => copied.state = .createdInitiation
  | _ => True

def SentResponse.Matches (C : Crypto) (x : SentResponse) : Prop :=
  x.session.index = some x.packet.senderIndex ∧
    x.session.keypair.sending.key = (kdf C [] x.chainingKey).second ∧
    x.session.keypair.receiving.key = (kdf C [] x.chainingKey).first

structure Matched (C : Crypto) (s : HandshakeCalls) : Prop where
  calls : ∀ w, s.ResponseHeld (s.call w)
  sent : ∀ x ∈ s.sent, SentResponse.Matches C x

/-- A section that generates no key can only take the handshake further on its way. -/
structure Keeps (s s' : HandshakeCalls) : Prop where
  initiation : s'.hs.state = .createdInitiation → s.hs.state = .createdInitiation
  response : s'.hs.state = .consumedResponse → s.hs.state = .createdInitiation ∨ s.hs.state = .consumedResponse
  created : s'.hs.state = .createdResponse →
    s.hs.state = .createdResponse ∧ s'.hs.chainingKey = s.hs.chainingKey ∧ s'.entry = s.entry

theorem Keeps.same (hh : s'.hs = s.hs) (he : s'.entry = s.entry) : s.Keeps s' := by
  constructor <;> rw [hh]
  · exact id
  · exact .inr
  · exact fun hst => ⟨hst, rfl, he⟩

theorem Keeps.zeroed (h : s'.hs.state = .zeroed) : s.Keeps s' := by
  constructor <;> rw [h] <;> rintro ⟨⟩

theorem Holds.mono {packet : MessageHandshakeResponse} {ck : Bytes} (h : s.Holds packet ck) (hk : s.Keeps s') :
    s'.Holds packet ck := by
  obtain ⟨hci, hcr, h⟩ := h
  refine ⟨fun hst => hci (hk.initiation hst), fun hst => (hk.response hst).elim hci hcr, fun hst => ?_⟩
  obtain ⟨hst', hck, he⟩ := hk.created hst
  rw [hck, he]
  exact h hst'

theorem ResponseHeld.mono (h : s.ResponseHeld x) (hn : s.generated ≤ s'.generated)
    (hk : s'.generated = s.generated → s.Keeps s') : s'.ResponseHeld x := by
  cases x with
  | responding packet ck n =>
    obtain ⟨hle, h⟩ := h
    refine ⟨Nat.le_trans hle hn, fun hs' => ?_⟩
    have hs : s'.generated = s.generated := Nat.le_antisymm (hs' ▸ hle) hn
    exact (h (hs ▸ hs')).mono (hk hs)
  | opened => exact h
  | _ => trivial

namespace Matched

theorem goto (h : s.Matched C) (w : Nat) (hx : s.ResponseHeld x) : (s.goto w x).Matched C where
  calls := forall_goto (P := s.ResponseHeld) h.calls w hx
  sent := h.sent

theorem change (h : s.Matched C) (hcall : s'.call = s.call) (hsent : s'.sent = s.sent)
    (hn : s.generated ≤ s'.generated) (hk : s'.generated = s.generated → s.Keeps s') : s'.Matched C where
  calls w := by rw [hcall]; exact (h.calls w).mono hn hk
  sent := by rw [hsent]; exact h.sent

theorem generate (h : s.Matched C) (hs : NoiseHandshake) (i : Option U32) : (s.generate hs i).Matched C :=
  h.change rfl rfl (Nat.le_succ _) fun hn => absurd hn (Nat.succ_ne_self _)

/-- This is where the condition is needed: the keys are derived from whatever handshake is there. -/
theorem transmit (h : s.Matched C) {w : Nat} {outcome : SessionOutcome}
    (hok : s.OwnExchange (.beginSession w outcome birthdate))
    (hk : newKeypair C isChacha s.hs birthdate = some keypair) :
    ∀ x ∈ s.transmit (s.session w keypair) (s.call w), SentResponse.Matches C x := by
  cases hw : s.call w with
  | responding packet ck n =>
    simp only [HandshakeCalls.transmit]
    split
    · refine List.forall_mem_cons.mpr ⟨?_, h.sent⟩
      have hst := newKeypair_state hk
      have hx := h.calls w
      rw [hw] at hx
      have hn : s.generated = n := hok hst n (by simp only [respondingAfter, hw]; rfl)
      obtain ⟨-, hcr, hcreated⟩ := hx.2 hn
      have hst := hst.resolve_right hcr
      obtain ⟨hck, he⟩ := hcreated hst
      simp only [newKeypair, hst, ne_eq, not_true_eq_false, false_and, if_false] at hk
      refine ⟨he, ?_, ?_⟩ <;> rw [← hck] <;> cases hk <;> rfl
    · exact h.sent
  | _ => exact h.sent

theorem step (h : s.Matched C) (hok : s.OwnExchange ev)
    (hs : HandshakeCalls.step C identity isChacha s ev = some s') : s'.Matched C := by
  cases step_cases hs with
  | noIdentity => exact h
  | stopInitiation hr => exact h.generate _ _
  | createInitiation hr => exact h.generate _ _
  | checkInitiation hclock ho ht hreplay hflood =>
    exact (h.goto _ (x := .checked ..) trivial).change rfl rfl (Nat.le_refl _) fun _ => .same rfl rfl
  | writeInitiation hw hclock =>
    exact (h.goto _ (x := .respond) trivial).change rfl rfl (Nat.le_refl _) fun _ => by
      constructor <;> rintro ⟨⟩
  | stopResponse hr => exact (h.generate _ _).goto _ trivial
  | createResponse hr =>
    refine (h.generate _ _).goto _ ⟨Nat.le_refl _, fun _ => ?_⟩
    have hst := createResponse_sent hr
    refine ⟨?_, ?_, fun _ => ⟨rfl, rfl⟩⟩
    · rw [show (s.generate _ _).hs.state = _ from hst]; decide
    · rw [show (s.generate _ _).hs.state = _ from hst]; decide
  | lookupResponse he => exact h.goto _ trivial
  | readResponse hw ho => exact h.goto _ (openResponse_state ho)
  | @writeResponse w src copied ck hash n hw hst =>
    have hx := h.calls w
    rw [hw] at hx
    refine (h.goto w (x := .accepted ..) trivial).change rfl rfl (Nat.le_refl _) fun _ => ?_
    refine ⟨?_, fun _ => .inl (hst.trans hx), ?_⟩ <;> rintro ⟨⟩
  | dead => exact (h.goto _ (x := .idle) trivial).change rfl rfl (Nat.le_refl _) fun _ => .zeroed rfl
  | @install w birthdate keypair hk =>
    have hz : Matched C ((s.install (s.session w keypair)).goto w .idle) :=
      (h.goto w (x := .idle) trivial).change rfl rfl (Nat.le_refl _) fun _ => .zeroed rfl
    exact ⟨hz.calls, h.transmit hok hk⟩
  | endCall => exact h.goto _ trivial
  | handshakeClear => exact h.change rfl rfl (Nat.le_refl _) fun _ => .zeroed rfl

end Matched

/-- If no handshake message is created between `create_response` and `begin_session` of the same
call, unless no session can begin, every response that is transmitted has the index of the keypair
that was installed for it, and the keys of that keypair come from the chaining key the response was
created with. -/
theorem sent_response_matches (C : Crypto) (identity : NoiseStaticIdentity) (isChacha : Bool)
    (peerPublicKey presharedKey : Bytes) (s : HandshakeCalls)
    (hrun : Exec (step C identity isChacha) OwnExchange
      (init (noiseHandshakeInit C identity peerPublicKey presharedKey)) s) :
    ∀ x ∈ s.sent, x.session.index = some x.packet.senderIndex ∧
      x.session.keypair.sending.key = (kdf C [] x.chainingKey).second ∧
      x.session.keypair.receiving.key = (kdf C [] x.chainingKey).first :=
  (hrun.inv (I := Matched C) ⟨fun _ => trivial, List.forall_mem_nil _⟩ fun _ _ _ hok h hs => h.step hok hs).sent

/-- Another worker consumes the next initiation and creates its response while this one is about to
begin its session. -/
def twoResponders : List CallEvent :=
  [.checkInitiation 0 (plainInitiation 8 1) 1000000000, .writeInitiation 0 1000000000, .createResponse 0 [1] 5,
    .checkInitiation 1 (plainInitiation 9 2) 1020000000, .writeInitiation 1 1020000000, .createResponse 1 [2] 6,
    .beginSession 0 .installed 0]

/-- The response with index 5 is sent, and the keypair is the one of index 6. -/
theorem twoResponders_sends_other_response : ∃ s x, plainCalls (fun _ _ => True) s ∧ s.sent = [x] ∧
    x.packet.senderIndex = 5 ∧ x.session.index = some 6 :=
  ⟨_, _, .of_foldlM twoResponders rfl, rfl, rfl, rfl⟩

def oneResponder : List CallEvent :=
  [.checkInitiation 0 (plainInitiation 8 1) 1000000000, .writeInitiation 0 1000000000, .createResponse 0 [1] 5,
    .beginSession 0 .installed 0]

theorem sent_response_matches_one : ∃ s x, plainCalls OwnExchange s ∧ s.sent = [x] ∧
    x.session.index = some x.packet.senderIndex ∧
    x.session.keypair.sending.key = (kdf plainCrypto [] x.chainingKey).second ∧
    x.session.keypair.receiving.key = (kdf plainCrypto [] x.chainingKey).first := by
  have hrun : ∃ s x, plainCalls OwnExchange s ∧ s.sent = [x] := ⟨_, _, .of_foldlM oneResponder rfl, rfl⟩
  obtain ⟨s, x, hrun, hsent⟩ := hrun
  exact ⟨s, x, hrun, hsent, sent_response_matches _ _ _ _ _ s hrun x (by simp [hsent])⟩

end HandshakeCalls
end WireguardAes
