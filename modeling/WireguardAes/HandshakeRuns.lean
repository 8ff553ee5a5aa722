import WireguardAes.Transcript
import WireguardAes.Lib.Runs
import Mathlib.Data.List.Nodup
import Mathlib.Logic.Function.Basic

/-!
# Interleavings of the handshake functions of one peer

Handshake workers and the initiation worker, each lock-protected section one step.
`consume_initiation` and `consume_response` are two or three steps with private values in between;
any message may be presented to them any number of times. A call that ends without having touched
the handshake is no step.

The state also records, for the statements only: the transcript behind the current chaining key, the
public ephemeral keys generated so far (each with the state its generation left the handshake in),
and the keypairs handed to `add_new_keypair`. A step that generates a key is one that generates a
new one.
-/

namespace WireguardAes

open Runs

/-- The values mixed into a chaining key and the ephemeral key of this device among them. -/
structure Transcript where
  ephemeral : Bytes
  data : List Bytes

structure Session where
  keypair : NoiseKeypair
  chainingKey : Bytes
  transcript : Transcript

/-- Where a handshake worker is, with what it holds on its stack. -/
inductive HandshakeWorker where
  | idle
  /-- `consume_initiation`, neither a replay nor a flood. -/
  | initiation (src : MessageHandshakeInitiation) (t chainingKey hash : Bytes)
  /-- `consume_response`, after `wg_index_hashtable_lookup`. -/
  | found (src : MessageHandshakeResponse)
  /-- `consume_response`, after `message_decrypt`; `copied` was read under the lock. -/
  | response (src : MessageHandshakeResponse) (copied : NoiseHandshake) (chainingKey hash : Bytes)
      (read : Transcript)

def HandshakeWorker.copied : HandshakeWorker → Option NoiseHandshake
  | .response _ copied _ _ _ => some copied
  | _ => none

structure HandshakeRun where
  hs : NoiseHandshake
  /-- The index of the handshake's entry while it is in the index hashtable. -/
  entry : Option U32
  worker : Nat → HandshakeWorker
  transcript : Transcript
  generated : List (Bytes × HandshakeState)
  installed : List Session

/-- How `begin_session` ends once the state allows it. -/
inductive SessionOutcome where
  | noKeypair
  | aeadFailed
  | dead
  | installed

inductive HandshakeEvent where
  | createInitiation (secret timestamp : Bytes) (index : U32)
  | checkInitiation (w : Nat) (src : MessageHandshakeInitiation) (now : U64)
  | writeInitiation (w : Nat) (now : U64)
  | createResponse (secret : Bytes) (index : U32)
  | lookupResponse (w : Nat) (src : MessageHandshakeResponse)
  | readResponse (w : Nat)
  | writeResponse (w : Nat)
  | beginSession (outcome : SessionOutcome) (birthdate : U64)
  | handshakeClear

/-- The worker that writes a response back. -/
def HandshakeEvent.writeBack : HandshakeEvent → Option Nat
  | .writeResponse w => some w
  | _ => none

namespace HandshakeRun

def init (hs : NoiseHandshake) : HandshakeRun := ⟨hs, none, fun _ => .idle, ⟨[], []⟩, [], []⟩

def setWorker (s : HandshakeRun) (w : Nat) (x : HandshakeWorker) : HandshakeRun :=
  { s with worker := Function.update s.worker w x }

/-- The public ephemeral keys of the installed keypairs. -/
def used (s : HandshakeRun) : List Bytes := s.installed.map (·.transcript.ephemeral)

section
variable (C : Crypto) (identity : NoiseStaticIdentity) (isChacha : Bool)

/-- A section of `create_initiation` or `create_response` that generated the key `e`. -/
def created (s : HandshakeRun) (hs : NoiseHandshake) (sent : Option U32) (e : Bytes) (data : List Bytes) :
    HandshakeRun :=
  { s with
    hs
    entry := sent <|> s.entry
    transcript := ⟨e, data⟩
    generated := (e, hs.state) :: s.generated }

/-- The public key of a generated secret, if it was never generated before. -/
def freshPublic (s : HandshakeRun) (secret : Bytes) : Option Bytes :=
  (C.curve25519GeneratePublic secret).filter fun e => e ∉ s.generated.map Prod.fst

def step (s : HandshakeRun) : HandshakeEvent → Option HandshakeRun
  | .createInitiation secret timestamp index =>
    if !identity.hasIdentity then some s else
    (s.freshPublic C secret).map fun e =>
      let r := createInitiation C identity s.hs secret timestamp index
      s.created r.1 (r.2.map (·.senderIndex)) e (initiationSent C s.hs secret e)
  | .checkInitiation w src now =>
    match s.worker w with
    | .idle =>
      (openStatic C identity src).bind fun (pub, chainingKey, hash) =>
      if pub ≠ s.hs.remoteStatic then none else
      (openTimestamp C s.hs src chainingKey hash).bind fun (t, chainingKey, hash) =>
      if replayAttack s.hs t || floodAttack s.hs now then none
      else some (s.setWorker w (.initiation src t chainingKey hash))
    | _ => none
  | .writeInitiation w now =>
    match s.worker w with
    | .initiation src t chainingKey hash =>
      some { s.setWorker w .idle with
        hs := writeInitiation s.hs src t chainingKey hash now
        transcript := ⟨s.transcript.ephemeral, initiationRead C identity s.hs src⟩ }
    | _ => none
  | .createResponse secret index =>
    if s.hs.state ≠ .consumedInitiation then some s else
    (s.freshPublic C secret).map fun e =>
      let r := createResponse C s.hs secret index
      s.created r.1 (r.2.map (·.senderIndex)) e (s.transcript.data ++ responseSent C s.hs secret e)
  | .lookupResponse w src =>
    match s.worker w with
    | .idle =>
      if identity.hasIdentity ∧ s.entry = some src.receiverIndex then some (s.setWorker w (.found src)) else none
    | _ => none
  | .readResponse w =>
    match s.worker w with
    | .found src =>
      match openResponse C identity s.hs src with
      | none => some (s.setWorker w .idle)
      | some (chainingKey, hash) =>
        some (s.setWorker w (.response src s.hs chainingKey hash
          ⟨s.transcript.ephemeral, s.transcript.data ++ responseRead C identity s.hs src⟩))
    | _ => none
  | .writeResponse w =>
    match s.worker w with
    | .response src copied chainingKey hash read =>
      if s.hs.state ≠ copied.state then some (s.setWorker w .idle)
      else some { s.setWorker w .idle with
        hs := writeResponse s.hs src chainingKey hash
        transcript := read }
    | _ => none
  | .beginSession outcome birthdate =>
    (newKeypair C isChacha s.hs birthdate).bind fun keypair =>
    match outcome with
    | .noKeypair => some s
    | .aeadFailed => if isChacha then none else some s
    | .dead => some { s with hs := handshakeZero s.hs }
    -- the keypair's entry takes the place of the handshake's
    | .installed => some { s with
        hs := handshakeZero s.hs
        entry := none
        installed := ⟨keypair, s.hs.chainingKey, s.transcript⟩ :: s.installed }
  | .handshakeClear => some { s with hs := handshakeZero s.hs, entry := none }

end

/-- Where `consume_response` writes back, in the state it was copied in, the handshake still holds
the ephemeral key it was copied with. -/
def Undisturbed (s : HandshakeRun) (ev : HandshakeEvent) : Prop :=
  ∀ w ∈ ev.writeBack, ∀ copied ∈ (s.worker w).copied, s.hs.state = copied.state →
    s.hs.ephemeralPrivate = copied.ephemeralPrivate

instance (s : HandshakeRun) (ev : HandshakeEvent) : Decidable (s.Undisturbed ev) :=
  inferInstanceAs (Decidable (∀ w ∈ ev.writeBack, ∀ copied ∈ (s.worker w).copied, _ → _))

/-! ### Transcripts of the reachable states

Where the device's own ephemeral key stands in a transcript, and what the first two values are. A
`create_initiation` that stops in the middle leaves a transcript of one or two values in whatever
state the handshake was in, and `create_response` or `consume_response` can build on that; so the
lengths matter, and the state in which a key was generated tells two own keys apart. -/

section
variable (C : Crypto) (identity : NoiseStaticIdentity) (h₀ : NoiseHandshake)

abbrev Generated := List (Bytes × HandshakeState)

/-- Begun by an own key; of full length `n` only if `es` follows it. -/
structure FromInitiator (gen : Generated) (n : Nat) (t : Transcript) : Prop where
  own : t.data[0]? = some t.ephemeral
  tag : ∃ st, (t.ephemeral, st) ∈ gen ∧ (st = .createdInitiation ∨ st = .consumedResponse)
  length : t.data.length ≤ n
  es : t.data.length = n →
    ∃ secret, C.curve25519GeneratePublic secret = some t.ephemeral ∧ t.data[1]? = C.curve25519 secret h₀.remoteStatic

/-- Begun by the peer's key, or by an own key of a `create_initiation` that stopped. -/
def FromPeer (gen : Generated) (n : Nat) (data : List Bytes) : Prop :=
  (∃ e st, data[0]? = some e ∧ (e, st) ∈ gen ∧ (st = .consumedInitiation ∨ st = .createdResponse)) ∨
    (n ≤ data.length ∧ ∃ e, data[0]? = some e ∧ data[1]? = C.curve25519 identity.staticPrivate e)

/-- The own key of a response is the fourth from the end. -/
def OwnLast (t : Transcript) : Prop :=
  (t.data.length ≤ 2 ∧ t.data[0]? = some t.ephemeral) ∨
    (5 ≤ t.data.length ∧ t.data[t.data.length - 4]? = some t.ephemeral)

def Holds (gen : Generated) (t : Transcript) : HandshakeState → Prop
  | .zeroed => True
  | .createdInitiation => FromInitiator C h₀ gen 3 t
  | .consumedInitiation => FromPeer C identity gen 3 t.data
  | .createdResponse => FromPeer C identity gen 7 t.data ∧ OwnLast t
  | .consumedResponse => FromInitiator C h₀ gen 7 t

/-- The states in which the own ephemeral key is part of the transcript. -/
def Active (st : HandshakeState) : Prop := st ≠ .zeroed ∧ st ≠ .consumedInitiation

instance (st : HandshakeState) : Decidable (Active st) := inferInstanceAs (Decidable (_ ∧ _))

def WorkerOk (gen : Generated) : HandshakeWorker → Prop
  | .initiation src _ chainingKey _ =>
    chainingKey = chain C (initiationRead C identity h₀ src) ∧
      ∃ es, C.curve25519 identity.staticPrivate src.unencryptedEphemeral = some es
  | .response _ copied chainingKey _ read =>
    copied.state = .createdInitiation ∧ C.curve25519GeneratePublic copied.ephemeralPrivate = some read.ephemeral ∧
      chainingKey = chain C read.data ∧ FromInitiator C h₀ gen 7 read
  | _ => True

structure SessionOk (gen : Generated) (x : Session) : Prop where
  chained : x.chainingKey = chain C x.transcript.data
  generated : x.transcript.ephemeral ∈ gen.map Prod.fst
  keys : (x.keypair.sending.key = (kdf C [] x.chainingKey).first ∧ Holds C identity h₀ gen
    x.transcript .consumedResponse) ∨
    (x.keypair.sending.key = (kdf C [] x.chainingKey).second ∧ Holds C identity h₀ gen x.transcript .createdResponse)

structure Inv (s : HandshakeRun) : Prop where
  config : SameConfig h₀ s.hs
  fresh : (s.generated.map Prod.fst).Nodup
  chained : s.hs.state ≠ .zeroed → s.hs.chainingKey = chain C s.transcript.data
  held : Holds C identity h₀ s.generated s.transcript s.hs.state
  own : Active s.hs.state → C.curve25519GeneratePublic s.hs.ephemeralPrivate = some s.transcript.ephemeral ∧
    s.transcript.ephemeral ∈ s.generated.map Prod.fst ∧ s.transcript.ephemeral ∉ s.used
  workers : ∀ w, WorkerOk C identity h₀ s.generated (s.worker w)
  sessions : ∀ x ∈ s.installed, SessionOk C identity h₀ s.generated x
  once : s.used.Nodup

end

variable {C : Crypto} {identity : NoiseStaticIdentity} {isChacha : Bool} {h₀ : NoiseHandshake}
variable {gen gen' : Generated} {t : Transcript} {s : HandshakeRun}
variable {secret e ck hash : Bytes} {x y : Transcript}

section
variable {n : Nat}
variable {data : List Bytes}

theorem FromInitiator.mono (h : FromInitiator C h₀ gen n t) (hg : gen ⊆ gen') : FromInitiator C h₀ gen' n t :=
  let ⟨st, hst, hor⟩ := h.tag
  ⟨h.own, ⟨st, hg hst, hor⟩, h.length, h.es⟩

theorem FromPeer.mono (h : FromPeer C identity gen n data) (hg : gen ⊆ gen') :
    FromPeer C identity gen' n data := by
  rcases h with ⟨e, st, he, hst, hor⟩ | h
  · exact .inl ⟨e, st, he, hg hst, hor⟩
  · exact .inr h

theorem Holds.mono {st : HandshakeState} (h : Holds C identity h₀ gen t st) (hg : gen ⊆ gen') :
    Holds C identity h₀ gen' t st := by
  cases st with
  | zeroed => trivial
  | createdInitiation => exact FromInitiator.mono h hg
  | consumedInitiation => exact FromPeer.mono h hg
  | createdResponse => exact ⟨h.1.mono hg, h.2⟩
  | consumedResponse => exact FromInitiator.mono h hg

theorem WorkerOk.mono {x : HandshakeWorker} (h : WorkerOk C identity h₀ gen x) (hg : gen ⊆ gen') :
    WorkerOk C identity h₀ gen' x := by
  cases x with
  | response src copied ck hash read => exact ⟨h.1, h.2.1, h.2.2.1, h.2.2.2.mono hg⟩
  | _ => exact h

theorem SessionOk.mono {x : Session} (h : SessionOk C identity h₀ gen x) (hg : gen ⊆ gen') :
    SessionOk C identity h₀ gen' x :=
  ⟨h.chained, List.map_subset _ hg h.generated,
    h.keys.imp (fun hk => ⟨hk.1, hk.2.mono hg⟩) fun hk => ⟨hk.1, hk.2.mono hg⟩⟩

/-- A `create_initiation` that stopped, in any state. -/
theorem Holds.stopped {e : Bytes} {st : HandshakeState} (hg : (e, st) ∈ gen)
    (h0 : data[0]? = some e) (hlen : data.length ≤ 2) : Holds C identity h₀ gen ⟨e, data⟩ st := by
  cases st with
  | zeroed => trivial
  | createdInitiation => exact ⟨h0, ⟨_, hg, .inl rfl⟩, by simp only; omega, fun h => by simp only at h; omega⟩
  | consumedInitiation => exact .inl ⟨e, _, h0, hg, .inl rfl⟩
  | createdResponse => exact ⟨.inl ⟨e, _, h0, hg, .inr rfl⟩, .inl ⟨hlen, h0⟩⟩
  | consumedResponse => exact ⟨h0, ⟨_, hg, .inr rfl⟩, by simp only; omega, fun h => by simp only at h; omega⟩

/-- `create_response` on top of a consumed initiation. -/
theorem FromPeer.append {data' : List Bytes} {m : Nat} (h : FromPeer C identity gen n data) (hn : 2 ≤ n)
    (hm : n + data'.length ≥ m) : FromPeer C identity gen m (data ++ data') := by
  rcases h with ⟨e, st, he, hst, hor⟩ | ⟨hlen, e, he, hes⟩
  · have h0 : 0 < data.length := (List.getElem?_eq_some_iff.mp he).1
    exact .inl ⟨e, st, by rw [List.getElem?_append_left h0, he], hst, hor⟩
  · refine .inr ⟨by rw [List.length_append]; omega, e, ?_, ?_⟩
    · rw [List.getElem?_append_left (by omega), he]
    · rw [List.getElem?_append_left (by omega), hes]

end

/-! ### The steps keep the invariant -/

theorem freshPublic_eq_some : s.freshPublic C secret = some e ↔
    C.curve25519GeneratePublic secret = some e ∧ e ∉ s.generated.map Prod.fst := by
  simp [freshPublic, Option.filter_eq_some_iff]

namespace Inv

theorem init (h : h₀.state = .zeroed) : Inv C identity h₀ (HandshakeRun.init h₀) where
  config := ⟨rfl, rfl, rfl⟩
  fresh := List.nodup_nil
  chained hst := absurd h hst
  held := by rw [show (HandshakeRun.init h₀).hs.state = .zeroed from h]; trivial
  own hst := absurd h hst.1
  workers _ := trivial
  sessions _ hx := nomatch hx
  once := List.nodup_nil

theorem setWorker (h : Inv C identity h₀ s) (w : Nat) {x : HandshakeWorker}
    (hx : WorkerOk C identity h₀ s.generated x) : Inv C identity h₀ (s.setWorker w x) :=
  { h with
    workers := fun w' => by
      by_cases hw : w' = w
      · subst hw; simpa only [HandshakeRun.setWorker, Function.update_self] using hx
      · simpa only [HandshakeRun.setWorker, Function.update_of_ne hw] using h.workers w' }

theorem used_subset (h : Inv C identity h₀ s) (he : e ∉ s.generated.map Prod.fst) : e ∉ s.used := by
  intro hu
  obtain ⟨x, hx, rfl⟩ := List.mem_map.mp hu
  exact he (h.sessions x hx).generated

/-- A section that generated a new key, whatever it got to. -/
theorem created (h : Inv C identity h₀ s) {hs : NoiseHandshake} {sent : Option U32} {data : List Bytes}
    (he : e ∉ s.generated.map Prod.fst) (hc : SameConfig s.hs hs) (hck : hs.chainingKey = chain C data)
    (heph : C.curve25519GeneratePublic hs.ephemeralPrivate = some e)
    (hh : Holds C identity h₀ ((e, hs.state) :: s.generated) ⟨e, data⟩ hs.state) :
    Inv C identity h₀ (s.created hs sent e data) := by
  have hg : s.generated ⊆ (e, hs.state) :: s.generated := List.subset_cons_self _ _
  exact {
    config := h.config.trans hc
    fresh := List.nodup_cons.mpr ⟨he, h.fresh⟩
    chained := fun _ => hck
    held := hh
    own := fun _ => ⟨heph, List.mem_cons_self, h.used_subset he⟩
    workers := fun w => (h.workers w).mono hg
    sessions := fun x hx => (h.sessions x hx).mono hg
    once := h.once }

theorem zero (h : Inv C identity h₀ s) (entry : Option U32) :
    Inv C identity h₀ { s with hs := handshakeZero s.hs, entry } :=
  { h with
    config := h.config.trans ⟨rfl, rfl, rfl⟩
    chained := fun hst => absurd rfl hst
    held := trivial
    own := fun hst => absurd rfl hst.1 }

theorem createInitiation (h : Inv C identity h₀ s) (hid : identity.hasIdentity = true) {timestamp : Bytes}
    {index : U32} (he : s.freshPublic C secret = some e) :
    let r := WireguardAes.createInitiation C identity s.hs secret timestamp index
    Inv C identity h₀ (s.created r.1 (r.2.map (·.senderIndex)) e (initiationSent C s.hs secret e)) := by
  intro r
  obtain ⟨hpub, hnew⟩ := freshPublic_eq_some.mp he
  obtain ⟨hck, heph, hc, hr⟩ :=
    createInitiation_spec s.hs timestamp index hid hpub
  refine h.created hnew hc hck (by rw [heph, hpub]) ?_
  have hmem : (e, r.1.state) ∈ (e, r.1.state) :: s.generated := List.mem_cons_self
  rcases hr with ⟨-, -, hlen⟩ | ⟨hst, -, hlen, hes⟩
  · exact .stopped hmem rfl hlen
  · rw [hst] at hmem ⊢
    exact ⟨rfl, ⟨_, hmem, .inl rfl⟩, Nat.le_of_eq hlen, fun _ => ⟨secret, hpub, by rw [hes, h.config.remoteStatic]⟩⟩

theorem createResponse (h : Inv C identity h₀ s) (hst : s.hs.state = .consumedInitiation)
    {index : U32} (he : s.freshPublic C secret = some e) :
    let r := WireguardAes.createResponse C s.hs secret index
    Inv C identity h₀
      (s.created r.1 (r.2.map (·.senderIndex)) e (s.transcript.data ++ responseSent C s.hs secret e)) := by
  intro r
  obtain ⟨hpub, hnew⟩ := freshPublic_eq_some.mp he
  obtain ⟨hck, heph, hc, hr⟩ := createResponse_spec index hst hpub (h.chained (by rw [hst]; decide))
  refine h.created hnew hc hck (by rw [heph, hpub]) ?_
  have hheld := h.held
  rw [hst] at hheld
  have hpeer : FromPeer C identity ((e, r.1.state) :: s.generated) 3 s.transcript.data :=
    FromPeer.mono hheld (List.subset_cons_self _ _)
  rcases hr with ⟨hr, -⟩ | ⟨hr, -, hlen, h0⟩
  · rw [hr] at hpeer ⊢
    exact hpeer.append (by omega) (by omega)
  · rw [hr] at hpeer ⊢
    refine ⟨hpeer.append (by omega) (by omega), .inr ?_⟩
    have hdata : 0 < s.transcript.data.length := by
      rcases hpeer with ⟨x, st, hx, -⟩ | ⟨hlen, -⟩
      · exact (List.getElem?_eq_some_iff.mp hx).1
      · omega
    rw [List.length_append, hlen, Nat.add_sub_cancel, List.getElem?_append_right (Nat.le_refl _), Nat.sub_self, h0]
    exact ⟨by omega, rfl⟩

theorem writeInitiation (h : Inv C identity h₀ s) {w : Nat} {src : MessageHandshakeInitiation} {t : Bytes}
    {now : U64} (hw : s.worker w = .initiation src t ck hash) :
    Inv C identity h₀ { s.setWorker w .idle with
      hs := WireguardAes.writeInitiation s.hs src t ck hash now
      transcript := ⟨s.transcript.ephemeral, initiationRead C identity s.hs src⟩ } := by
  have hok := h.workers w
  rw [hw] at hok
  obtain ⟨hck, es, hes⟩ := hok
  exact { h.setWorker w (x := .idle) trivial with
    config := h.config.trans ⟨rfl, rfl, rfl⟩
    chained := fun _ => by rw [initiationRead, h.config.precomputed]; exact hck
    held := .inr ⟨Nat.le_refl _, _, rfl, by simp [initiationRead, hes]⟩
    own := fun hst => absurd rfl hst.2 }

/-- This is where the condition on the write-back is needed: without it the transcript that was read
may be one that a session has already begun from. -/
theorem writeResponse (h : Inv C identity h₀ s) {w : Nat} {src : MessageHandshakeResponse}
    {copied : NoiseHandshake} {read : Transcript}
    (hw : s.worker w = .response src copied ck hash read) (hst : s.hs.state = copied.state)
    (heph : s.hs.ephemeralPrivate = copied.ephemeralPrivate) :
    Inv C identity h₀ { s.setWorker w .idle with
      hs := WireguardAes.writeResponse s.hs src ck hash
      transcript := read } := by
  have hok := h.workers w
  rw [hw] at hok
  obtain ⟨hcop, hpub, hck, hfrom⟩ := hok
  have hown := h.own (by rw [hst, hcop]; decide)
  rw [heph, hpub] at hown
  have hsame : read.ephemeral = s.transcript.ephemeral := Option.some.inj hown.1
  exact { h.setWorker w (x := .idle) trivial with
    config := h.config.trans ⟨rfl, rfl, rfl⟩
    chained := fun _ => hck
    held := hfrom
    own := fun _ => ⟨by rw [show (WireguardAes.writeResponse s.hs src ck hash).ephemeralPrivate =
      s.hs.ephemeralPrivate from rfl, heph, hpub], hsame ▸ hown.2⟩ }

theorem readResponse (h : Inv C identity h₀ s) {src : MessageHandshakeResponse}
    (ho : openResponse C identity s.hs src = some (ck, hash)) :
    WorkerOk C identity h₀ s.generated (.response src s.hs ck hash
      ⟨s.transcript.ephemeral, s.transcript.data ++ responseRead C identity s.hs src⟩) := by
  have hst : s.hs.state = .createdInitiation := by
    by_contra hst
    simp [openResponse, hst] at ho
  obtain ⟨-, hck⟩ := openResponse_chain (h.chained (by rw [hst]; decide)) ho
  have hheld := h.held
  rw [hst] at hheld
  obtain ⟨hown, htag, hlen, hes⟩ := hheld
  have h0 : 0 < s.transcript.data.length := (List.getElem?_eq_some_iff.mp hown).1
  have h4 : (responseRead C identity s.hs src).length = 4 := rfl
  refine ⟨hst, (h.own (by rw [hst]; decide)).1, hck, ?_, htag, ?_, ?_⟩
  · rw [List.getElem?_append_left h0, hown]
  · rw [List.length_append]; omega
  · intro h7
    rw [List.length_append] at h7
    obtain ⟨secret, hpub, hes⟩ := hes (by omega)
    exact ⟨secret, hpub, by rw [List.getElem?_append_left (by omega), hes]⟩

theorem beginSession (h : Inv C identity h₀ s) {keypair : NoiseKeypair} {birthdate : U64}
    (hk : newKeypair C isChacha s.hs birthdate = some keypair) :
    Inv C identity h₀ { s with
      hs := handshakeZero s.hs
      entry := none
      installed := ⟨keypair, s.hs.chainingKey, s.transcript⟩ :: s.installed } := by
  simp only [newKeypair] at hk
  split at hk
  · cases hk
  case isFalse hst =>
  have hst : s.hs.state = .createdResponse ∨ s.hs.state = .consumedResponse := by tauto
  have hact : Active s.hs.state := by rcases hst with hst | hst <;> rw [hst] <;> decide
  obtain ⟨-, hgen, hnew⟩ := h.own hact
  have hx : SessionOk C identity h₀ s.generated ⟨keypair, s.hs.chainingKey, s.transcript⟩ := by
    refine ⟨h.chained hact.1, hgen, ?_⟩
    have hheld := h.held
    rw [← Option.some.inj hk]
    rcases hst with hst | hst <;> rw [hst] at hheld
    · exact .inr ⟨by simp [hst, fillKeypair, deriveKeys], hheld⟩
    · exact .inl ⟨by simp [hst, fillKeypair, deriveKeys], hheld⟩
  exact { h.zero none with
    sessions := List.forall_mem_cons.mpr ⟨hx, h.sessions⟩
    once := List.nodup_cons.mpr ⟨hnew, h.once⟩
    own := fun hst => absurd rfl hst.1 }

theorem step (h : Inv C identity h₀ s) {ev : HandshakeEvent} {s' : HandshakeRun} (hok : s.Undisturbed ev)
    (hs : HandshakeRun.step C identity isChacha s ev = some s') : Inv C identity h₀ s' := by
  cases ev with
  | createInitiation secret timestamp index =>
    simp only [HandshakeRun.step] at hs
    split_ifs at hs with hid
    · cases hs; exact h
    · obtain ⟨e, he, rfl⟩ := Option.map_eq_some_iff.mp hs
      exact h.createInitiation (by simpa using hid) he
  | checkInitiation w src now =>
    simp only [HandshakeRun.step] at hs
    split at hs
    · obtain ⟨⟨pub, ck, hash⟩, hst, hs⟩ := Option.bind_eq_some_iff.mp hs
      simp only at hs
      split at hs
      · cases hs
      obtain ⟨⟨t, ck', hash'⟩, htm, hs⟩ := Option.bind_eq_some_iff.mp hs
      simp only at hs
      split at hs <;> cases hs
      have ho := openInitiation_chain hst htm
      rw [initiationRead, h.config.precomputed] at ho
      exact h.setWorker w ho
    · cases hs
  | writeInitiation w now =>
    simp only [HandshakeRun.step] at hs
    split at hs <;> cases hs
    exact h.writeInitiation ‹_›
  | createResponse secret index =>
    simp only [HandshakeRun.step] at hs
    split_ifs at hs with hst
    · cases hs; exact h
    · obtain ⟨e, he, rfl⟩ := Option.map_eq_some_iff.mp hs
      exact h.createResponse (by simpa using hst) he
  | lookupResponse w src =>
    simp only [HandshakeRun.step] at hs
    split at hs
    · split at hs <;> cases hs
      exact h.setWorker w trivial
    · cases hs
  | readResponse w =>
    simp only [HandshakeRun.step] at hs
    split at hs
    · split at hs <;> cases hs
      · exact h.setWorker w trivial
      · exact h.setWorker w (h.readResponse ‹_›)
    · cases hs
  | writeResponse w =>
    simp only [HandshakeRun.step] at hs
    cases hw : s.worker w with
    | response src copied ck hash read =>
      simp only [hw] at hs
      split at hs
      case isTrue => cases hs; exact h.setWorker w trivial
      case isFalse hst =>
        have hst : s.hs.state = copied.state := by simpa using hst
        cases hs
        exact h.writeResponse hw hst (hok w rfl copied (congrArg HandshakeWorker.copied hw) hst)
    | _ => simp [hw] at hs
  | beginSession outcome birthdate =>
    obtain ⟨keypair, hk, hs⟩ := Option.bind_eq_some_iff.mp hs
    cases outcome with
    | noKeypair => cases hs; exact h
    | aeadFailed =>
      simp only at hs
      split at hs <;> cases hs
      exact h
    | dead => cases hs; exact h.zero s.entry
    | installed => cases hs; exact h.beginSession hk
  | handshakeClear => cases hs; exact h.zero none

end Inv

/-! ### Keys of the installed keypairs -/

/-- The key derivation has no collisions on the sessions `l`: not between different transcripts, nor
between the outputs for different chaining keys, nor between first and second outputs. -/
structure KdfSeparates (C : Crypto) (l : List Session) : Prop where
  chain : ∀ x ∈ l, ∀ y ∈ l, chain C x.transcript.data = chain C y.transcript.data →
    x.transcript.data = y.transcript.data
  first : ∀ x ∈ l, ∀ y ∈ l, (kdf C [] x.chainingKey).first = (kdf C [] y.chainingKey).first →
    x.chainingKey = y.chainingKey
  second : ∀ x ∈ l, ∀ y ∈ l, (kdf C [] x.chainingKey).second = (kdf C [] y.chainingKey).second →
    x.chainingKey = y.chainingKey
  separate : ∀ x ∈ l, ∀ y ∈ l, (kdf C [] x.chainingKey).first ≠ (kdf C [] y.chainingKey).second

/-- The peer is not the device itself: what the device shares with it through an ephemeral key is
not what it would read off its own initiation. -/
def NotSelf (C : Crypto) (identity : NoiseStaticIdentity) (remoteStatic : Bytes) : Prop :=
  ∀ secret e es, C.curve25519GeneratePublic secret = some e → C.curve25519 secret remoteStatic = some es →
    C.curve25519 identity.staticPrivate e ≠ some es

theorem Inv.tag_unique (h : Inv C identity h₀ s) {st st' : HandshakeState}
    (h1 : (e, st) ∈ s.generated) (h2 : (e, st') ∈ s.generated) : st = st' :=
  congrArg Prod.snd (List.inj_on_of_nodup_map h.fresh h1 h2 rfl)

/-- An initiator's transcript is not also a responder's. -/
theorem Inv.not_reflected (h : Inv C identity h₀ s) (hself : NotSelf C identity h₀.remoteStatic)
    (hx : FromInitiator C h₀ s.generated 7 x) (hy : FromPeer C identity s.generated 7 y.data) : x.data ≠ y.data := by
  intro hd
  rw [← hd] at hy
  rcases hy with ⟨e, st, he, hst, hor⟩ | ⟨hlen, e, he, hes⟩
  · obtain ⟨st', hst', hor'⟩ := hx.tag
    rw [hx.own] at he
    rw [← Option.some.inj he] at hst
    have := h.tag_unique hst hst'
    subst this
    rcases hor with rfl | rfl <;> rcases hor' with hor' | hor' <;> cases hor'
  · obtain ⟨secret, hpub, hes'⟩ := hx.es (Nat.le_antisymm hx.length hlen)
    have h1 : x.data[1]? = some x.data[1] := List.getElem?_eq_getElem (by omega)
    rw [hx.own] at he
    rw [← Option.some.inj he, h1] at hes
    rw [h1] at hes'
    exact hself secret _ _ hpub hes'.symm hes.symm

theorem OwnLast.ephemeral_eq (hx : OwnLast x) (hy : OwnLast y) (hd : x.data = y.data) :
    x.ephemeral = y.ephemeral := by
  unfold OwnLast at hy
  rw [← hd] at hy
  rcases hx with ⟨hlen, hx⟩ | ⟨hlen, hx⟩ <;> rcases hy with ⟨hlen', hy⟩ | ⟨hlen', hy⟩
  · exact Option.some.inj (hx.symm.trans hy)
  · omega
  · omega
  · exact Option.some.inj (hx.symm.trans hy)

theorem FromInitiator.ephemeral_eq {n : Nat} (hx : FromInitiator C h₀ gen n x)
    (hy : FromInitiator C h₀ gen n y) (hd : x.data = y.data) : x.ephemeral = y.ephemeral :=
  Option.some.inj (hx.own.symm.trans ((congrArg (·[0]?) hd).trans hy.own))

/-- Sessions with different own ephemeral keys have different transcripts. -/
theorem Inv.data_ne (h : Inv C identity h₀ s) (hself : NotSelf C identity h₀.remoteStatic) {x y : Session}
    (hx : SessionOk C identity h₀ s.generated x) (hy : SessionOk C identity h₀ s.generated y)
    (hne : x.transcript.ephemeral ≠ y.transcript.ephemeral) : x.transcript.data ≠ y.transcript.data := by
  intro hd
  rcases hx.keys with ⟨-, hx⟩ | ⟨-, hx⟩ <;> rcases hy.keys with ⟨-, hy⟩ | ⟨-, hy⟩
  · exact hne (FromInitiator.ephemeral_eq hx hy hd)
  · exact h.not_reflected hself hx hy.1 hd
  · exact h.not_reflected hself hy hx.1 hd.symm
  · exact hne (hx.2.ephemeral_eq hy.2 hd)

theorem Inv.keys_ne (h : Inv C identity h₀ s) (hself : NotSelf C identity h₀.remoteStatic)
    (hkdf : KdfSeparates C s.installed) {x y : Session} (hx : x ∈ s.installed) (hy : y ∈ s.installed)
    (hne : x.transcript.ephemeral ≠ y.transcript.ephemeral) :
    x.keypair.sending.key ≠ y.keypair.sending.key ∧ x.chainingKey ≠ y.chainingKey := by
  have hxo := h.sessions x hx
  have hyo := h.sessions y hy
  have hck : x.chainingKey ≠ y.chainingKey := by
    intro he
    rw [hxo.chained, hyo.chained] at he
    exact h.data_ne hself hxo hyo hne (hkdf.chain x hx y hy he)
  refine ⟨?_, hck⟩
  rcases hxo.keys with ⟨hkx, -⟩ | ⟨hkx, -⟩ <;> rcases hyo.keys with ⟨hky, -⟩ | ⟨hky, -⟩ <;> rw [hkx, hky]
  · exact fun he => hck (hkdf.first x hx y hy he)
  · exact hkdf.separate x hx y hy
  · exact (hkdf.separate y hy x hx).symm
  · exact fun he => hck (hkdf.second x hx y hy he)

/-- If every write-back of `consume_response` finds the ephemeral key it was computed from, no two
keypairs installed for the peer, over any run, share a sending key or a chaining key. -/
theorem sendingKeys_distinct (C : Crypto) (identity : NoiseStaticIdentity) (isChacha : Bool)
    (peerPublicKey presharedKey : Bytes) (s : HandshakeRun)
    (hrun : Exec (step C identity isChacha) Undisturbed
      (init (noiseHandshakeInit C identity peerPublicKey presharedKey)) s)
    (hself : NotSelf C identity peerPublicKey) (hkdf : KdfSeparates C s.installed) :
    s.installed.Pairwise fun x y =>
      x.keypair.sending.key ≠ y.keypair.sending.key ∧ x.chainingKey ≠ y.chainingKey := by
  have h : Inv C identity (noiseHandshakeInit C identity peerPublicKey presharedKey) s :=
    hrun.inv (Inv.init rfl) fun _ _ _ hok h hs => h.step hok hs
  exact (List.pairwise_map.mp h.once).imp_of_mem fun hx hy hne => h.keys_ne hself hkdf hx hy hne

/-! ### The race

Two workers copy the handshake for the same response; the second one writes back after the session
of the first one and a new initiation, when the state is again the one it had copied. -/

theorem length_hmac_plain (input key : Bytes) :
    (hmac plainCrypto input key).length = 2 * max 64 key.length + input.length := by
  have hk : (if blake2sBlockSize < key.length then plainCrypto.blake2s key else key) = key := by
    split <;> rfl
  have hblock : (hmacBlock plainCrypto key).length = max 64 key.length := by
    rw [hmacBlock, hk, List.length_append, List.length_replicate, blake2sBlockSize]
    omega
  simp only [plainCrypto] at hblock
  simp only [hmac, plainCrypto, List.length_append, List.length_map]
  omega

theorem length_first_plain (data ck : Bytes) :
    (kdf plainCrypto data ck).first.length = 4 * max 64 ck.length + 2 * data.length + 1 := by
  simp only [kdf, length_hmac_plain, List.length_cons, List.length_nil]
  omega

theorem length_second_plain (data ck : Bytes) :
    (kdf plainCrypto data ck).second.length = 8 * max 64 ck.length + 4 * data.length + 2 := by
  simp only [kdf, length_hmac_plain, List.length_append, List.length_cons, List.length_nil]
  omega

theorem length_chain_plain (data : List Bytes) : (chain plainCrypto data).length =
    (data.map List.length).foldl (fun n d => 4 * max 64 n + 2 * d + 1) handshakeName.length := by
  have h : ∀ ck : Bytes, (data.foldl (fun ck d => (kdf plainCrypto d ck).first) ck).length =
      (data.map List.length).foldl (fun n d => 4 * max 64 n + 2 * d + 1) ck.length := by
    induction data with
    | nil => intro ck; rfl
    | cons d data ih => intro ck; rw [List.foldl_cons, ih, length_first_plain, List.map_cons, List.foldl_cons]
  exact h _

theorem first_ne_second_plain (ck ck' : Bytes) :
    (kdf plainCrypto [] ck).first ≠ (kdf plainCrypto [] ck').second := by
  intro h
  have := congrArg List.getLast? h
  simp [kdf, hmac, plainCrypto] at this

/-- Sessions that are equal or told apart by the lengths of their chaining keys. -/
theorem KdfSeparates.plain {l : List Session} (h : ∀ x ∈ l, ∀ y ∈ l,
      (x.transcript.data = y.transcript.data ∧ x.chainingKey = y.chainingKey) ∨
      ((WireguardAes.chain plainCrypto x.transcript.data).length ≠
          (WireguardAes.chain plainCrypto y.transcript.data).length ∧
        max 64 x.chainingKey.length ≠ max 64 y.chainingKey.length)) : KdfSeparates plainCrypto l := by
  refine ⟨fun x hx y hy he => ?_, fun x hx y hy he => ?_, fun x hx y hy he => ?_,
    fun _ _ _ _ => first_ne_second_plain _ _⟩
  · exact (h x hx y hy).elim And.left fun hne => absurd (congrArg List.length he) hne.1
  all_goals
    refine (h x hx y hy).elim And.right fun hne => ?_
    have he := congrArg List.length he
    simp only [length_first_plain, length_second_plain] at he
    omega

def plainIdentity : NoiseStaticIdentity := ⟨[9], [9], true⟩

theorem notSelf_plain : NotSelf plainCrypto plainIdentity [7, 7] := by
  intro secret e es he hes hself
  have h := congrArg List.length (Option.some.inj (hes.trans hself.symm))
  rw [← Option.some.inj he, List.length_replicate, List.length_replicate] at h
  simp only [plainIdentity, List.length_cons, List.length_nil] at h
  omega

abbrev plainRun (ok : HandshakeRun → HandshakeEvent → Prop) (s : HandshakeRun) : Prop :=
  Exec (step plainCrypto plainIdentity true) ok (init (noiseHandshakeInit plainCrypto plainIdentity [7, 7] [4])) s

def plainResponse (receiverIndex : U32) : MessageHandshakeResponse := ⟨8, receiverIndex, [3], tagged 1 []⟩

def duplicatedResponse : List HandshakeEvent :=
  [.createInitiation [1] [] 5, .lookupResponse 0 (plainResponse 5), .lookupResponse 1 (plainResponse 5),
    .readResponse 0, .readResponse 1, .writeResponse 0, .beginSession .installed 0,
    .createInitiation [2, 2] [] 6, .writeResponse 1, .beginSession .installed 0]

theorem duplicatedResponse_run : ∃ s x y, plainRun (fun _ _ => True) s ∧ s.installed = [x, y] ∧
    x.transcript.data = y.transcript.data ∧ x.chainingKey = y.chainingKey ∧
    x.keypair.sending.key = y.keypair.sending.key :=
  ⟨_, _, _, .of_foldlM duplicatedResponse rfl, rfl, rfl, rfl, rfl⟩

/-- Without the condition two keypairs with the same sending key can be installed. -/
theorem duplicatedResponse_reuses_key : ∃ s, plainRun (fun _ _ => True) s ∧
    NotSelf plainCrypto plainIdentity [7, 7] ∧ KdfSeparates plainCrypto s.installed ∧
    ¬ s.installed.Pairwise fun x y => x.keypair.sending.key ≠ y.keypair.sending.key := by
  obtain ⟨s, x, y, hrun, hinst, hdata, hck, hkey⟩ := duplicatedResponse_run
  refine ⟨s, hrun, notSelf_plain, .plain ?_, ?_⟩
  · simp [hinst, hdata, hck]
  · simp [hinst, hkey]

def twoHandshakes : List HandshakeEvent :=
  [.createInitiation [1] [] 5, .lookupResponse 0 (plainResponse 5), .readResponse 0, .writeResponse 0,
    .beginSession .installed 0, .createInitiation [2, 2] [] 6, .lookupResponse 0 (plainResponse 6),
    .readResponse 0, .writeResponse 0, .beginSession .installed 0]

theorem twoHandshakes_run : ∃ s x y, plainRun Undisturbed s ∧ s.installed = [x, y] ∧
    x.transcript.data.map List.length = [2, 4, 3, 1, 3, 2, 1] ∧
    y.transcript.data.map List.length = [1, 3, 3, 1, 2, 2, 1] :=
  ⟨_, _, _, .of_foldlM twoHandshakes rfl, rfl, rfl, rfl⟩

theorem sendingKeys_distinct_two_handshakes : ∃ s, plainRun Undisturbed s ∧ s.installed.length = 2 ∧
    s.installed.Pairwise fun x y =>
      x.keypair.sending.key ≠ y.keypair.sending.key ∧ x.chainingKey ≠ y.chainingKey := by
  obtain ⟨s, x, y, hrun, hinst, hx, hy⟩ := twoHandshakes_run
  refine ⟨s, hrun, by rw [hinst]; rfl, sendingKeys_distinct _ _ _ _ _ s hrun notSelf_plain (.plain ?_)⟩
  have h : Inv plainCrypto plainIdentity _ s := hrun.inv (Inv.init rfl) fun _ _ _ hok h hs => h.step hok hs
  have hlen : (chain plainCrypto x.transcript.data).length ≠ (chain plainCrypto y.transcript.data).length ∧
      64 ≤ (chain plainCrypto x.transcript.data).length ∧ 64 ≤ (chain plainCrypto y.transcript.data).length := by
    rw [length_chain_plain, length_chain_plain, hx, hy]
    generalize handshakeName.length = n
    simp only [List.foldl_cons, List.foldl_nil]
    omega
  have hckx := (h.sessions x (by simp [hinst])).chained
  have hcky := (h.sessions y (by simp [hinst])).chained
  intro a ha b hb
  rw [hinst] at ha hb
  rcases List.mem_pair.mp ha with rfl | rfl <;> rcases List.mem_pair.mp hb with rfl | rfl
  · exact .inl ⟨rfl, rfl⟩
  · exact .inr ⟨hlen.1, by rw [hckx, hcky]; omega⟩
  · exact .inr ⟨hlen.1.symm, by rw [hckx, hcky]; omega⟩
  · exact .inl ⟨rfl, rfl⟩

end HandshakeRun
end WireguardAes
