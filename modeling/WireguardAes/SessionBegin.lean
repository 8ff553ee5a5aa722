import WireguardAes.Keypairs
import WireguardAes.Noise
import WireguardAes.Lib.Custody

/-!
# `wg_noise_handshake_begin_session` (`noise.c`)

The call in full, on top of the keypairs of `Keypairs`: the state it asks for, every allocation and
`setkey` that may fail, the test of `is_dead`, `add_new_keypair` and `wg_index_hashtable_replace`,
next to the other operations on the handshake, the data paths and the removal of the peer. What runs
under the lock of the handshake keeps other such sections out; up to `handshake_zero` a call only
touches the handshake and a keypair that nobody else knows, which is one step.

Two things are followed: what a call has done to the slots and to the index hashtable when it
returns, and where the `crypto_aead` handles are that it allocates. Handles are numbered in the
order of their allocation.
-/

namespace WireguardAes

open Function Runs

/-- Which calls succeed. -/
structure SessionOutcomes where
  keypairCreate : Bool
  allocEnc : Bool
  setkeyEnc : Bool
  allocDec : Bool
  setkeyDec : Bool

/-! ### The handles -/

structure AeadHandles where
  aeadEnc : Nat → Option Nat
  aeadDec : Nat → Option Nat
  allocated : Nat
  /-- The arguments of `crypto_free_aead`. -/
  freed : List Nat
  /-- The keypairs whose memory has been freed. -/
  destroyed : List Nat

namespace AeadHandles

def init : AeadHandles := ⟨fun _ => none, fun _ => none, 0, [], []⟩

def handles (a : AeadHandles) (k : Nat) : List Nat := (a.aeadEnc k).toList ++ (a.aeadDec k).toList

def allocEnc (a : AeadHandles) (k : Nat) : AeadHandles :=
  { a with aeadEnc := update a.aeadEnc k (some a.allocated), allocated := a.allocated + 1 }

def allocDec (a : AeadHandles) (k : Nat) : AeadHandles :=
  { a with aeadDec := update a.aeadDec k (some a.allocated), allocated := a.allocated + 1 }

/-- The block for AES-GCM; `false` is the jump to `out_free_new`. -/
def setup (isChacha : Bool) (o : SessionOutcomes) (k : Nat) (a : AeadHandles) : Bool × AeadHandles :=
  if isChacha then (true, a)
  else if !o.allocEnc then (false, a)
  else if !o.setkeyEnc then (false, a.allocEnc k)
  else if !o.allocDec then (false, a.allocEnc k)
  else (o.setkeyDec, (a.allocEnc k).allocDec k)

def keypairFreeRcu (a : AeadHandles) (k : Nat) : AeadHandles :=
  { a with freed := a.handles k ++ a.freed, destroyed := k :: a.destroyed }

/-- The memory of the keypair, and nothing else. -/
def kfreeSensitive (a : AeadHandles) (k : Nat) : AeadHandles := { a with destroyed := k :: a.destroyed }

end AeadHandles

/-! ### The calls -/

/-- What a session is to change when it succeeds. -/
structure SessionView where
  slots : NoiseKeypairs Nat
  hashed : Nat → Bool
  handshakeHashed : Bool

structure SessionCall where
  /-- The slots and the table before and after each step of the call. -/
  steps : List (SessionView × SessionView)
  /-- The handles it has allocated. -/
  handles : List Nat
  /-- What it has handed to `add_new_keypair`. -/
  installed : Option Nat

def SessionCall.none : SessionCall := ⟨[], [], .none⟩

structure SessionState where
  keypairs : KeypairState
  aead : AeadHandles
  /-- `handshake->state` -/
  state : HandshakeState
  /-- The states read by the calls of `consume_response` that have not come to their second section.
  -/
  reads : List HandshakeState
  isDead : Bool
  /-- The call in progress has seen that the peer is not dead. -/
  alive : Bool
  call : SessionCall
  /-- What the calls have returned. -/
  returned : List (Bool × SessionCall)

inductive SessionEvent where
  | createInitiation
  | consumeInitiation
  | createResponse
  /-- The first section of `consume_response`, and the second one with what was read. -/
  | readState
  | consumeResponse (state : HandshakeState)
  | handshakeClear
  /-- `peer_make_dead` -/
  | makeDead
  /-- `begin_session` up to `handshake_zero`. -/
  | beginSession (o : SessionOutcomes)
  | testDead
  | addNewKeypair
  | indexHashtableReplace
  /-- The data paths, `keypairs_clear` and `keypair_free_kref`. -/
  | keypair (ev : KeypairEvent)
  /-- The callback, after a grace period. -/
  | keypairFreeRcu (k : Nat)

/-- Steps that are not parts of the operations on the handshake. -/
def KeypairEvent.isOutside : KeypairEvent → Bool
  | .receivedWithKeypair _ => true
  | .keypairsClear => true
  | .read _ => true
  | .get _ => true
  | .put _ => true
  | .freeRemove _ => true
  | .callRcu _ => true
  | _ => false

def HandshakeState.beginsSession : HandshakeState → Bool
  | .createdResponse => true
  | .consumedResponse => true
  | _ => false

namespace SessionState

def init : SessionState := ⟨.init, .init, .zeroed, [], false, false, .none, []⟩

def view (s : SessionState) : SessionView := ⟨s.keypairs.slots, s.keypairs.hashed, s.keypairs.handshakeHashed⟩

/-- A step of the call from `s` to `t`. -/
def own (s t : SessionState) : SessionState :=
  { t with call := { t.call with steps := (s.view, t.view) :: t.call.steps } }

def returns (s : SessionState) (ret : Bool) : SessionState :=
  { s with call := .none, returned := (ret, s.call) :: s.returned }

def isLocked (s : SessionState) : Bool :=
  match s.keypairs.session with
  | .idle => false
  | _ => true

def beginSession (isChacha : Bool) (o : SessionOutcomes) (s : SessionState) : Option SessionState :=
  if s.isLocked then none
  else if !s.state.beginsSession then some ((s.own s).returns false)
  else if !o.keypairCreate then some ((s.own s).returns false)
  else do
    let k := s.keypairs.created
    let ks ← s.keypairs.step (.keypairCreate (s.state = .consumedResponse))
    let out := s.aead.setup isChacha o k
    let call := { s.call with handles := List.range' s.aead.allocated (out.2.allocated - s.aead.allocated) }
    if out.1 then some (s.own { s with keypairs := ks, aead := out.2, state := .zeroed, call := call })
    else do
      let ks ← ks.step .sessionFails
      some ((s.own { s with keypairs := ks, aead := out.2.keypairFreeRcu k, call := call }).returns false)

def testDead (s : SessionState) : Option SessionState :=
  match s.keypairs.session with
  | .filling k _ =>
    if s.alive then none
    else if s.isDead then do
      let ks ← s.keypairs.step .sessionFails
      some ((s.own { s with keypairs := ks, aead := s.aead.kfreeSensitive k }).returns false)
    else some (s.own { s with alive := true })
  | _ => none

def addNewKeypair (s : SessionState) : Option SessionState :=
  match s.keypairs.session with
  | .filling k _ =>
    if s.alive then do
      let ks ← s.keypairs.step .addNewKeypair
      some (s.own { s with keypairs := ks, alive := false, call := { s.call with installed := some k } })
    else none
  | _ => none

def step (isChacha : Bool) (s : SessionState) : SessionEvent → Option SessionState
  | .createInitiation => do
    let ks ← s.keypairs.step .handshakeInsert
    some { s with keypairs := ks, state := .createdInitiation }
  | .consumeInitiation => if s.isLocked then none else some { s with state := .consumedInitiation }
  | .createResponse =>
    if s.state = .consumedInitiation then do
      let ks ← s.keypairs.step .handshakeInsert
      some { s with keypairs := ks, state := .createdResponse }
    else none
  | .readState => if s.isLocked then none else some { s with reads := s.state :: s.reads }
  | .consumeResponse state =>
    if s.isLocked ∨ state ∉ s.reads then none
    else
      let s := { s with reads := s.reads.erase state }
      if state ≠ .createdInitiation ∨ s.state ≠ state then some s else some { s with state := .consumedResponse }
  | .handshakeClear => do
    let ks ← s.keypairs.step .handshakeClear
    some { s with keypairs := ks, state := .zeroed }
  | .makeDead => some { s with isDead := true }
  | .beginSession o => s.beginSession isChacha o
  | .testDead => s.testDead
  | .addNewKeypair => s.addNewKeypair
  | .indexHashtableReplace => do
    let ks ← s.keypairs.step .indexHashtableReplace
    some ((s.own { s with keypairs := ks }).returns s.keypairs.handshakeHashed)
  | .keypair ev =>
    if ev.isOutside then do
      let ks ← s.keypairs.step ev
      some { s with keypairs := ks }
    else none
  | .keypairFreeRcu k =>
    if k ∈ s.keypairs.released ∧ k ∉ s.aead.destroyed then some { s with aead := s.aead.keypairFreeRcu k } else none

end SessionState

/-! ### What the sections on the keypairs change -/

namespace KeypairState

variable {s t : KeypairState} {k : Nat} {i : Bool} {ev : KeypairEvent}

theorem handshakeHashed_rotate (s : KeypairState) (r : NoiseKeypairs Nat × List Nat) :
    (s.rotate r).handshakeHashed = s.handshakeHashed :=
  foldl_putNow_eq KeypairState.handshakeHashed fun s k => by simp only [putNow]; split <;> rfl

theorem released_putNow_subset (s : KeypairState) (k : Nat) : s.released ⊆ (s.putNow k).released := by
  simp only [putNow]
  split
  · exact List.subset_cons_self ..
  · exact List.Subset.refl _

theorem released_rotate_subset (s : KeypairState) (r : NoiseKeypairs Nat × List Nat) :
    s.released ⊆ (s.rotate r).released := by
  unfold rotate
  obtain ⟨slots, puts⟩ := r
  suffices h : ∀ s' : KeypairState, s'.released ⊆ (puts.foldl putNow s').released from h { s with slots := slots }
  induction puts with
  | nil => exact fun s' => List.Subset.refl _
  | cons k puts ih => exact fun s' => List.Subset.trans (released_putNow_subset s' k) (ih _)

theorem keypairCreate_eq (h : s.step (.keypairCreate i) = some t) : t = { s with
    refcount := update s.refcount s.created 1
    created := s.created + 1
    session := .filling s.created i } := by
  simp only [KeypairState.step] at h
  split at h <;> cases h
  rfl

theorem sessionFails_eq (h : s.step .sessionFails = some t) (hs : s.session = .filling k i) : t = { s with
    refcount := update s.refcount k 0
    session := .idle
    released := k :: s.released } := by
  simp only [KeypairState.step, hs] at h
  cases h
  rfl

theorem addNewKeypair_eq (h : s.step .addNewKeypair = some t) (hs : s.session = .filling k i) :
    t = { s with session := .published k }.rotate (s.slots.addNewKeypair k i) := by
  simp only [KeypairState.step, hs] at h
  cases h
  rfl

theorem indexHashtableReplace_eq (h : s.step .indexHashtableReplace = some t) : ∃ k, s.session = .published k ∧
    t = { s with
      hashed := if s.handshakeHashed then update s.hashed k true else s.hashed
      handshakeHashed := false
      session := .idle } := by
  simp only [KeypairState.step] at h
  split at h <;> cases h
  exact ⟨_, ‹_›, rfl⟩

/-- The steps outside keep the handshake and its lock. -/
structure Outside (s t : KeypairState) : Prop where
  session : t.session = s.session
  handshakeHashed : t.handshakeHashed = s.handshakeHashed
  created : t.created = s.created
  released : s.released ⊆ t.released

theorem outside_rotate (s : KeypairState) (r : NoiseKeypairs Nat × List Nat) : Outside s (s.rotate r) :=
  ⟨session_rotate, handshakeHashed_rotate s r, created_rotate, released_rotate_subset s r⟩

theorem outside_step (h : s.step ev = some t) (hev : ev.isOutside = true) : Outside s t := by
  unfold KeypairState.step at h
  rcases ev with _ | _ | _ | _ | _ | _ | k | _ | k | k | k | k | k <;>
    simp only [KeypairEvent.isOutside, Bool.false_eq_true] at hev <;>
    simp only at h
  case receivedWithKeypair =>
    split at h <;> cases h
    exact outside_rotate ..
  case keypairsClear =>
    cases h
    exact outside_rotate ..
  case get | put =>
    split at h
    · split at h <;> cases h <;> exact ⟨rfl, rfl, rfl, List.Subset.refl _⟩
    · cases h
  case callRcu =>
    split at h <;> cases h
    exact ⟨rfl, rfl, rfl, List.subset_cons_self ..⟩
  all_goals
    split at h <;> cases h
    exact ⟨rfl, rfl, rfl, List.Subset.refl _⟩

end KeypairState

namespace SessionState

variable {isChacha : Bool} {s t : SessionState} {ev : SessionEvent}

/-- The steps, one constructor for each way to take one. -/
inductive SessionStep (isChacha : Bool) (s : SessionState) : SessionEvent → SessionState → Prop
  | createInitiation (hs : s.keypairs.session = .idle) : SessionStep isChacha s .createInitiation
      { s with keypairs := { s.keypairs with handshakeHashed := true }, state := .createdInitiation }
  | consumeInitiation (hs : s.keypairs.session = .idle) :
      SessionStep isChacha s .consumeInitiation { s with state := .consumedInitiation }
  | createResponse (hs : s.keypairs.session = .idle) : SessionStep isChacha s .createResponse
      { s with keypairs := { s.keypairs with handshakeHashed := true }, state := .createdResponse }
  | readState (hs : s.keypairs.session = .idle) :
      SessionStep isChacha s .readState { s with reads := s.state :: s.reads }
  | stale (state : HandshakeState) : SessionStep isChacha s (.consumeResponse state)
    { s with reads := s.reads.erase state }
  | consumeResponse (hs : s.keypairs.session = .idle) (hst : s.state = .createdInitiation) :
      SessionStep isChacha s (.consumeResponse .createdInitiation)
        { s with reads := s.reads.erase .createdInitiation, state := .consumedResponse }
  | handshakeClear (hs : s.keypairs.session = .idle) : SessionStep isChacha s .handshakeClear
      { s with keypairs := { s.keypairs with handshakeHashed := false }, state := .zeroed }
  | makeDead : SessionStep isChacha s .makeDead { s with isDead := true }
  /-- Wrong state, or no memory for the keypair. -/
  | refused (o : SessionOutcomes) (hs : s.keypairs.session = .idle) :
      SessionStep isChacha s (.beginSession o) ((s.own s).returns false)
  | setupFails (o : SessionOutcomes) (hs : s.keypairs.session = .idle) {i : Bool}
    {ks ks' : KeypairState} {a : AeadHandles}
      (ha : a = (s.aead.setup isChacha o s.keypairs.created).2) (hks : s.keypairs.step (.keypairCreate i) = some ks)
      (hks' : ks.step .sessionFails = some ks') :
      SessionStep isChacha s (.beginSession o) ((s.own { s with
        keypairs := ks'
        aead := a.keypairFreeRcu s.keypairs.created
        call := { s.call with handles := List.range' s.aead.allocated (a.allocated -
          s.aead.allocated) } }).returns false)
  | begins (o : SessionOutcomes) (hs : s.keypairs.session = .idle) (hst : s.state.beginsSession = true) {i : Bool}
      {ks : KeypairState} {a : AeadHandles} (ha : a = (s.aead.setup isChacha o s.keypairs.created).2)
      (hks : s.keypairs.step (.keypairCreate i) = some ks) :
      SessionStep isChacha s (.beginSession o) (s.own { s with
        keypairs := ks
        aead := a
        state := .zeroed
        call := { s.call with handles := List.range' s.aead.allocated (a.allocated - s.aead.allocated) } })
  | dead {k : Nat} {i : Bool} (hs : s.keypairs.session = .filling k i) (hd : s.isDead = true) {ks : KeypairState}
      (hks : s.keypairs.step .sessionFails = some ks) :
      SessionStep isChacha s .testDead
        ((s.own { s with keypairs := ks, aead := s.aead.kfreeSensitive k }).returns false)
  | alive {k : Nat} {i : Bool} (hs : s.keypairs.session = .filling k i) :
      SessionStep isChacha s .testDead (s.own { s with alive := true })
  | addNewKeypair {k : Nat} {i : Bool} (hs : s.keypairs.session = .filling k i) {ks : KeypairState}
      (hks : s.keypairs.step .addNewKeypair = some ks) :
      SessionStep isChacha s .addNewKeypair
        (s.own { s with keypairs := ks, alive := false, call := { s.call with installed := some k } })
  | replace {ks : KeypairState} (hks : s.keypairs.step .indexHashtableReplace = some ks) :
      SessionStep isChacha s .indexHashtableReplace
        ((s.own { s with keypairs := ks }).returns s.keypairs.handshakeHashed)
  | keypair {ev : KeypairEvent} (hev : ev.isOutside = true) {ks : KeypairState} (hks : s.keypairs.step ev = some ks) :
      SessionStep isChacha s (.keypair ev) { s with keypairs := ks }
  | keypairFreeRcu {k : Nat} (hk : k ∈ s.keypairs.released) (hd : k ∉ s.aead.destroyed) :
      SessionStep isChacha s (.keypairFreeRcu k) { s with aead := s.aead.keypairFreeRcu k }

theorem idle_of_not_locked (h : s.isLocked = false) : s.keypairs.session = .idle := by
  unfold isLocked at h
  split at h
  · assumption
  · cases h

theorem handshakeInsert_eq {k t : KeypairState} (h : k.step .handshakeInsert = some t) :
    k.session = .idle ∧ t = { k with handshakeHashed := true } := by
  simp only [KeypairState.step] at h
  split at h <;> cases h
  exact ⟨‹_›, rfl⟩

theorem handshakeClear_eq {k t : KeypairState} (h : k.step .handshakeClear = some t) :
    k.session = .idle ∧ t = { k with handshakeHashed := false } := by
  simp only [KeypairState.step] at h
  split at h <;> cases h
  exact ⟨‹_›, rfl⟩

theorem step_beginSession {o : SessionOutcomes} (h : s.beginSession isChacha o = some t) :
    SessionStep isChacha s (.beginSession o) t := by
  unfold beginSession at h
  split at h
  · cases h
  case isFalse hl =>
  have hs := idle_of_not_locked (Bool.eq_false_iff.mpr hl)
  split at h
  · cases h
    exact .refused o hs
  case isFalse hst =>
  split at h
  · cases h
    exact .refused o hs
  obtain ⟨ks, hks, h⟩ := Option.bind_eq_some_iff.mp h
  dsimp only at h
  split at h
  · cases h
    exact .begins o hs (by simpa using hst) rfl hks
  · obtain ⟨ks', hks', h⟩ := Option.bind_eq_some_iff.mp h
    cases h
    exact .setupFails o hs rfl hks hks'

theorem step_cases (h : s.step isChacha ev = some t) : SessionStep isChacha s ev t := by
  unfold step at h
  rcases ev with _ | _ | _ | _ | state | _ | _ | o | _ | _ | _ | ev | k <;> simp only at h
  case createInitiation =>
    obtain ⟨ks, hks, h⟩ := Option.bind_eq_some_iff.mp h
    obtain ⟨hs, rfl⟩ := handshakeInsert_eq hks
    cases h
    exact .createInitiation hs
  case consumeInitiation =>
    split at h <;> cases h
    exact .consumeInitiation (idle_of_not_locked (Bool.eq_false_iff.mpr ‹_›))
  case createResponse =>
    split at h
    · obtain ⟨ks, hks, h⟩ := Option.bind_eq_some_iff.mp h
      obtain ⟨hs, rfl⟩ := handshakeInsert_eq hks
      cases h
      exact .createResponse hs
    · cases h
  case readState =>
    split at h <;> cases h
    exact .readState (idle_of_not_locked (Bool.eq_false_iff.mpr ‹_›))
  case consumeResponse =>
    split at h
    · cases h
    case isFalse hl =>
    rw [not_or] at hl
    split_ifs at h with hst <;> cases h
    · exact .stale state
    · simp only [ne_eq, not_or, not_not] at hst
      obtain ⟨rfl, hst⟩ := hst
      exact .consumeResponse (idle_of_not_locked (Bool.eq_false_iff.mpr hl.1)) hst
  case handshakeClear =>
    obtain ⟨ks, hks, h⟩ := Option.bind_eq_some_iff.mp h
    obtain ⟨hs, rfl⟩ := handshakeClear_eq hks
    cases h
    exact .handshakeClear hs
  case makeDead =>
    cases h
    exact .makeDead
  case beginSession => exact step_beginSession h
  case testDead =>
    unfold testDead at h
    split at h
    case h_1 hs =>
      split at h
      · cases h
      split at h
      · obtain ⟨ks, hks, h⟩ := Option.bind_eq_some_iff.mp h
        cases h
        exact .dead hs ‹_› hks
      · cases h
        exact .alive hs
    · cases h
  case addNewKeypair =>
    unfold addNewKeypair at h
    split at h
    case h_1 hs =>
      split at h
      · obtain ⟨ks, hks, h⟩ := Option.bind_eq_some_iff.mp h
        cases h
        exact .addNewKeypair hs hks
      · cases h
    · cases h
  case indexHashtableReplace =>
    obtain ⟨ks, hks, h⟩ := Option.bind_eq_some_iff.mp h
    cases h
    exact .replace hks
  case keypair =>
    split at h
    · obtain ⟨ks, hks, h⟩ := Option.bind_eq_some_iff.mp h
      cases h
      exact .keypair ‹_› hks
    · cases h
  case keypairFreeRcu =>
    obtain ⟨hk, ⟨⟩⟩ := Option.ite_none_right_eq_some.mp h
    exact .keypairFreeRcu hk.1 hk.2

/-! ### A call that fails has changed nothing -/

def Unchanged (c : SessionCall) : Prop := ∀ v ∈ c.steps, v.1 = v.2

/-- What is known while a call holds the lock. -/
def CallOk (s : SessionState) : SessionPhase → Prop
  | .idle => s.call = .none
  | .filling _ _ => s.keypairs.handshakeHashed = true ∧ s.state = .zeroed ∧ Unchanged s.call ∧ s.call.installed = none
  | .published k => s.keypairs.handshakeHashed = true ∧ s.state = .zeroed ∧ s.call.installed = some k

/-- The entry is in the table. -/
def HandshakeState.isHashed : HandshakeState → Bool
  | .zeroed => false
  | .consumedInitiation => false
  | _ => true

structure Atomic (s : SessionState) : Prop where
  hashed : HandshakeState.isHashed s.state = true → s.keypairs.handshakeHashed = true
  call : s.CallOk s.keypairs.session
  returned : ∀ c ∈ s.returned, (c.1 = false → Unchanged c.2) ∧ (c.1 = true ↔ c.2.installed ≠ none)

theorem isHashed_of_beginsSession {st : HandshakeState} (h : st.beginsSession = true) :
    HandshakeState.isHashed st = true := by
  cases st <;> first | rfl | cases h

theorem unchanged_none : Unchanged .none := by
  intro v hv
  cases hv

theorem Unchanged.own (h : Unchanged s.call) (hv : t.view = s.view) (hc : t.call.steps = s.call.steps) :
    Unchanged (s.own t).call := by
  intro v hmem
  rcases List.mem_cons.mp hmem with rfl | hmem
  · exact hv.symm
  · exact h v (hc ▸ hmem)

namespace Atomic

theorem init : Atomic SessionState.init where
  hashed := nofun
  call := rfl
  returned _ hc := absurd hc List.not_mem_nil

theorem locked (h : Atomic s) (hs : s.keypairs.session = .idle) (hsession : t.keypairs.session = s.keypairs.session)
    (hcall : t.call = s.call) (hret : t.returned = s.returned)
    (hhash : HandshakeState.isHashed t.state = true → t.keypairs.handshakeHashed = true) : Atomic t := by
  refine ⟨hhash, ?_, hret ▸ h.returned⟩
  have hc := h.call
  rw [hs] at hc
  rw [hsession, hs, CallOk, hcall]
  exact hc

theorem returns (h : Atomic s) (hs : t.keypairs.session = .idle)
    (hhash : HandshakeState.isHashed t.state = true → t.keypairs.handshakeHashed = true)
    (hret : t.returned = s.returned)
    (ret : Bool) (hcall : (ret = false → Unchanged t.call) ∧ (ret = true ↔ t.call.installed ≠ none)) :
    Atomic (t.returns ret) := by
  refine ⟨hhash, ?_, fun c hc => ?_⟩
  · rw [show (t.returns ret).keypairs.session = .idle from hs]
    rfl
  · rcases List.mem_cons.mp hc with rfl | hc
    · exact hcall
    · exact h.returned c (hret ▸ hc)

theorem fails (h : Atomic s) (hview : t.view = s.view) (hsession : t.keypairs.session = .idle)
    (hstate : t.state = s.state) (hret : t.returned = s.returned) (hsteps : t.call.steps = s.call.steps)
    (hinst : t.call.installed = none) (hcall : Unchanged s.call) : Atomic ((s.own t).returns false) := by
  have hhashed : t.keypairs.handshakeHashed = s.keypairs.handshakeHashed := congrArg SessionView.handshakeHashed hview
  refine h.returns (t := s.own t) hsession ?_ hret false ⟨fun _ => hcall.own hview hsteps, ?_⟩
  · intro hst
    rw [show (s.own t).state = s.state from hstate] at hst
    exact hhashed.trans (h.hashed hst)
  · exact iff_of_false Bool.false_ne_true fun hne => hne hinst

theorem succeeds (h : Atomic s) (hsession : t.keypairs.session = .idle) (hstate : t.state = .zeroed)
    (hret : t.returned = s.returned) {k : Nat} (hinst : t.call.installed = some k) : Atomic
      ((s.own t).returns true) := by
  refine h.returns (t := s.own t) hsession ?_ hret true ⟨nofun, iff_of_true rfl ?_⟩
  · intro hst
    rw [show (s.own t).state = .zeroed from hstate] at hst
    cases hst
  · rw [show (s.own t).call.installed = some k from hinst]
    exact Option.some_ne_none k

theorem keypair (h : Atomic s) {ks : KeypairState} (ho : s.keypairs.Outside ks) : Atomic { s with keypairs := ks } := by
  have hcall := h.call
  refine ⟨fun hst => ho.handshakeHashed.trans (h.hashed hst), ?_, h.returned⟩
  rw [show ({ s with keypairs := ks } : SessionState).keypairs.session = _ from ho.session]
  rcases hs : s.keypairs.session with _ | ⟨k, i⟩ | k <;> rw [hs] at hcall
  · exact hcall
  · exact ⟨ho.handshakeHashed.trans hcall.1, hcall.2⟩
  · exact ⟨ho.handshakeHashed.trans hcall.1, hcall.2⟩

theorem step (h : Atomic s) (hs : SessionStep isChacha s ev t) : Atomic t := by
  have hcall := h.call
  rcases hs with hs | hs | hs | hs | state | ⟨hs, hst⟩ | hs | _ | ⟨o, hs⟩ | ⟨o, hs, ha, hks, hks'⟩ |
    ⟨o, hs, hst, ha, hks⟩ | ⟨hs, hd, hks⟩ | hs | ⟨hs, hks⟩ | hks | ⟨hev, hks⟩ | ⟨hk, hd⟩
  case createInitiation | createResponse => exact h.locked hs rfl rfl rfl fun _ => rfl
  case consumeInitiation | handshakeClear =>
    refine h.locked hs rfl rfl rfl ?_
    intro hst
    cases hst
  case readState => exact h.locked hs rfl rfl rfl h.hashed
  case consumeResponse =>
    refine h.locked hs rfl rfl rfl fun _ => h.hashed ?_
    rw [hst]
    rfl
  case stale | makeDead | keypairFreeRcu => exact ⟨h.hashed, hcall, h.returned⟩
  case refused =>
    rw [hs] at hcall
    exact h.fails rfl hs rfl rfl rfl (congrArg SessionCall.installed hcall) (hcall ▸ unchanged_none)
  case setupFails =>
    rw [hs] at hcall
    obtain rfl := KeypairState.keypairCreate_eq hks
    obtain rfl := KeypairState.sessionFails_eq hks' rfl
    exact h.fails rfl rfl rfl rfl rfl (congrArg SessionCall.installed hcall) (hcall ▸ unchanged_none)
  case begins =>
    rw [hs] at hcall
    obtain rfl := KeypairState.keypairCreate_eq hks
    have hunch : Unchanged s.call := hcall ▸ unchanged_none
    refine ⟨fun hst => ?_, ⟨h.hashed (isHashed_of_beginsSession hst), rfl, hunch.own rfl rfl, ?_⟩, h.returned⟩
    · cases hst
    · exact congrArg SessionCall.installed hcall
  case dead =>
    rw [hs] at hcall
    obtain ⟨hh, hst, hunch, hinst⟩ := hcall
    obtain rfl := KeypairState.sessionFails_eq hks hs
    exact h.fails rfl rfl rfl rfl rfl hinst hunch
  case alive =>
    rw [hs] at hcall
    obtain ⟨hh, hst, hunch, hinst⟩ := hcall
    refine ⟨h.hashed, ?_, h.returned⟩
    rw [show (s.own { s with alive := true }).keypairs.session = _ from hs]
    exact ⟨hh, hst, hunch.own rfl rfl, hinst⟩
  case addNewKeypair =>
    rw [hs] at hcall
    obtain ⟨hh, hst, -⟩ := hcall
    obtain rfl := KeypairState.addNewKeypair_eq hks hs
    refine ⟨fun _ => (KeypairState.handshakeHashed_rotate ..).trans hh, ?_, h.returned⟩
    dsimp only [SessionState.own]
    rw [KeypairState.session_rotate]
    exact ⟨(KeypairState.handshakeHashed_rotate ..).trans hh, hst, rfl⟩
  case replace =>
    obtain ⟨k, hs, rfl⟩ := KeypairState.indexHashtableReplace_eq hks
    rw [hs] at hcall
    obtain ⟨hh, hst, hinst⟩ := hcall
    rw [hh]
    exact h.succeeds rfl hst rfl hinst
  case keypair => exact h.keypair (KeypairState.outside_step hks hev)

end Atomic

/-- In every run, the entry of a handshake that has created or consumed a response is in the index
hashtable; a call of `begin_session` that returns `false` has changed neither the slots nor the
table, and one returns `true` if and only if it has installed a keypair. -/
theorem beginSession_false_unchanged (isChacha : Bool) (s : SessionState)
    (hrun : Exec (step isChacha) (fun _ _ => True) init s) :
    (s.state = .createdResponse ∨ s.state = .consumedResponse → s.keypairs.handshakeHashed = true) ∧
    ∀ c ∈ s.returned, (c.1 = false → ∀ v ∈ c.2.steps, v.1 = v.2) ∧ (c.1 = true ↔ c.2.installed ≠ none) := by
  have h : Atomic s := hrun.inv Atomic.init fun _ _ _ _ h hs => h.step (step_cases hs)
  refine ⟨fun hst => h.hashed ?_, h.returned⟩
  rcases hst with hst | hst <;> rw [hst] <;> rfl

def allSucceed : SessionOutcomes := ⟨true, true, true, true, true⟩

/-- A response to our initiation, for which the second key cannot be set at first. -/
def secondTry : List SessionEvent :=
  [.createInitiation, .readState, .consumeResponse .createdInitiation, .beginSession ⟨true, true, true, true, false⟩,
    .beginSession allSucceed, .testDead, .addNewKeypair, .indexHashtableReplace]

theorem beginSession_false_unchanged_secondTry : ∃ s, Exec (step false) (fun _ _ => True) init s ∧
    s.returned.map (·.1) = [true, false] ∧ ∀ c ∈ s.returned, c.1 = false → ∀ v ∈ c.2.steps, v.1 = v.2 := by
  have hrun : ∃ s, Exec (step false) (fun _ _ => True) init s ∧ s.returned.map (·.1) = [true, false] :=
    Exec.exists_of_foldlM secondTry (fun s : SessionState => s.returned.map (·.1)) (by decide +kernel)
  obtain ⟨s, hrun, hret⟩ := hrun
  exact ⟨s, hrun, hret, fun c hc => ((beginSession_false_unchanged false s hrun).2 c hc).1⟩

end SessionState

/-! ### Where the handles are -/

namespace AeadHandles

variable {a b : AeadHandles} {k created : Nat} {released : List Nat}
variable {x : Nat}

/-- From `a` to `b` handles have been allocated for the keypair `k`. -/
structure AllocatedFor (k : Nat) (a b : AeadHandles) : Prop where
  handles : b.handles = update a.handles k (List.range' a.allocated (b.allocated - a.allocated))
  allocated : a.allocated ≤ b.allocated
  freed : b.freed = a.freed
  destroyed : b.destroyed = a.destroyed

theorem handles_eq_nil_iff : a.handles k = [] ↔ a.aeadEnc k = none ∧ a.aeadDec k = none := by
  simp [handles]

theorem handles_eq_update {l : List Nat} (hk : b.handles k = l) (hj : ∀ j, j ≠ k → b.handles j = a.handles j) :
    b.handles = update a.handles k l := by
  funext j
  by_cases h : j = k
  · subst h
    rw [hk, update_self]
  · rw [hj j h, update_of_ne h]

theorem allocatedFor_none (h : a.handles k = []) : AllocatedFor k a a := by
  refine ⟨handles_eq_update ?_ fun _ _ => rfl, Nat.le_refl _, rfl, rfl⟩
  rw [h, Nat.sub_self]
  rfl

theorem allocatedFor_enc (h : a.handles k = []) : AllocatedFor k a (a.allocEnc k) := by
  obtain ⟨henc, hdec⟩ := handles_eq_nil_iff.mp h
  refine ⟨handles_eq_update ?_ fun j hj => ?_, Nat.le_succ _, rfl, rfl⟩
  · simp [handles, allocEnc, hdec]
  · simp [handles, allocEnc, hj]

theorem allocatedFor_dec (a : AeadHandles) (k : Nat) : AllocatedFor k a ((a.allocEnc k).allocDec k) := by
  refine ⟨handles_eq_update ?_ fun j hj => ?_, Nat.le_add_right _ 2, rfl, rfl⟩
  · simp [handles, allocEnc, allocDec, Nat.add_assoc, List.range']
  · simp [handles, allocEnc, allocDec, hj]

theorem allocatedFor_setup (isChacha : Bool) (o : SessionOutcomes) (h : a.handles k = []) :
    AllocatedFor k a (a.setup isChacha o k).2 := by
  unfold setup
  split
  · exact allocatedFor_none h
  split
  · exact allocatedFor_none h
  split
  · exact allocatedFor_enc h
  split
  · exact allocatedFor_enc h
  · exact allocatedFor_dec a k

/-- Every handle belongs to one keypair, and those of the keypairs that are gone have been freed. -/
structure Inv (a : AeadHandles) (created : Nat) (released : List Nat) : Prop where
  custody : Custody a.handles (· < a.allocated)
  fresh : ∀ k, created ≤ k → a.handles k = []
  released : ∀ k ∈ a.destroyed, k ∈ released
  once : a.destroyed.Nodup
  freed : a.freed.Perm (a.destroyed.flatMap a.handles)

namespace Inv

theorem init : Inv AeadHandles.init 0 [] where
  custody := .of_nil (fun _ => rfl) fun _ => Nat.not_lt_zero _
  fresh _ _ := rfl
  released _ hk := absurd hk List.not_mem_nil
  once := List.nodup_nil
  freed := .refl _

theorem mono (h : Inv a created released) {released' : List Nat} (hr : released ⊆ released') :
    Inv a created released' :=
  ⟨h.custody, h.fresh, fun k hk => hr (h.released k hk), h.once, h.freed⟩

theorem allocate (h : Inv a created released) (hb : AllocatedFor created a b) (hmade : ∀ k ∈ released, k < created) :
    Inv b (created + 1) released := by
  have hother : ∀ j, j ≠ created → b.handles j = a.handles j := by
    intro j hj
    rw [hb.handles, update_of_ne hj]
  refine ⟨?_, fun k hk => ?_, fun k hk => h.released k (hb.destroyed ▸ hk), hb.destroyed ▸ h.once, ?_⟩
  · have hle := hb.allocated
    rw [hb.handles]
    refine h.custody.enter (List.nodup_range' (s := a.allocated) (n := b.allocated - a.allocated)) ?_ ?_ ?_
    · intro x hx
      simp only [List.mem_range'_1] at hx
      omega
    · rw [h.fresh created (Nat.le_refl _), List.append_nil]
    · intro x
      simp only [List.mem_range'_1]
      omega
  · rw [hother k (by omega)]
    exact h.fresh k (by omega)
  · rw [hb.freed, hb.destroyed]
    refine h.freed.trans (.of_eq ?_)
    refine List.flatMap_congr fun k hk => (hother k ?_).symm
    exact Nat.ne_of_lt (hmade k (h.released k hk))

theorem keypairFreeRcu (h : Inv a created released) (hk : k ∈ released) (hd : k ∉ a.destroyed) :
    Inv (a.keypairFreeRcu k) created released := by
  refine ⟨h.custody, h.fresh, fun j hj => ?_, List.nodup_cons.mpr ⟨hd, h.once⟩, ?_⟩
  · rcases List.mem_cons.mp hj with rfl | hj
    · exact hk
    · exact h.released j hj
  · exact h.freed.append_left (a.handles k)

theorem kfreeSensitive (h : Inv a created released) (hk : k ∈ released) (hd : k ∉ a.destroyed)
    (hnil : a.handles k = []) :
    Inv (a.kfreeSensitive k) created released := by
  have hfree := h.keypairFreeRcu hk hd
  refine ⟨h.custody, h.fresh, hfree.released, hfree.once, ?_⟩
  have := hfree.freed
  rw [AeadHandles.keypairFreeRcu, hnil, List.nil_append] at this
  exact this

theorem mem_freed_iff (h : Inv a created released) : x ∈ a.freed ↔ ∃ k ∈ a.destroyed, x ∈ a.handles k := by
  rw [h.freed.mem_iff, List.mem_flatMap]

theorem freed_nodup (h : Inv a created released) : a.freed.Nodup := by
  rw [h.freed.nodup_iff, List.nodup_flatMap]
  refine ⟨fun k _ => h.custody.nodup k, h.once.imp ?_⟩
  intro k j hkj x hk hj
  exact hkj (h.custody.eq_of_mem k j x hk hj)

end Inv

theorem AllocatedFor.mem (hb : AllocatedFor k a b) (hk : a.handles k = []) {j : Nat} (hx : x ∈ a.handles j) :
    x ∈ b.handles j := by
  have hj : j ≠ k := by
    rintro rfl
    rw [hk] at hx
    cases hx
  rwa [hb.handles, update_of_ne hj]

theorem AllocatedFor.mem_range (hb : AllocatedFor k a b)
    (hx : x ∈ List.range' a.allocated (b.allocated - a.allocated)) : x ∈ b.handles k := by
  rwa [hb.handles, update_self]

/-- What the call has allocated belongs to the keypair that it has installed, or is freed. -/
def Settled (a : AeadHandles) (c : SessionCall) : Prop :=
  ∀ x ∈ c.handles, (∃ k, c.installed = some k ∧ x ∈ a.handles k) ∨ x ∈ a.freed

theorem Settled.mono {c : SessionCall} (h : a.Settled c) (hh : ∀ k, ∀ x ∈ a.handles k, x ∈ b.handles k)
    (hf : a.freed ⊆ b.freed) : b.Settled c := by
  intro x hx
  rcases h x hx with ⟨k, hk, hx⟩ | hx
  · exact .inl ⟨k, hk, hh k x hx⟩
  · exact .inr (hf hx)

end AeadHandles

namespace SessionState

variable {isChacha : Bool} {s t : SessionState} {ev : SessionEvent}
variable {ks : KeypairState}

def CallHandles (s : SessionState) : SessionPhase → Prop
  | .idle => s.call = .none
  | .filling k _ => ∀ x ∈ s.call.handles, x ∈ s.aead.handles k
  | .published k => s.call.installed = some k ∧ ∀ x ∈ s.call.handles, x ∈ s.aead.handles k

structure HandlesOk (isChacha : Bool) (s : SessionState) : Prop where
  keypairs : s.keypairs.Inv
  aead : s.aead.Inv s.keypairs.created s.keypairs.released
  chacha : isChacha = true → ∀ k, s.aead.handles k = []
  call : s.CallHandles s.keypairs.session
  returned : ∀ c ∈ s.returned, s.aead.Settled c.2

/-- The test of `is_dead` does not find the peer dead, or there are no handles. -/
def AliveAtTest (isChacha : Bool) (s : SessionState) : SessionEvent → Prop
  | .testDead => s.isDead = true → isChacha = true
  | _ => True

instance (isChacha : Bool) (s : SessionState) (ev : SessionEvent) : Decidable (s.AliveAtTest isChacha ev) := by
  unfold AliveAtTest
  split <;> infer_instance

namespace HandlesOk

theorem init : HandlesOk isChacha SessionState.init where
  keypairs := .init
  aead := .init
  chacha _ _ := rfl
  call := rfl
  returned _ hc := absurd hc List.not_mem_nil

theorem made (h : HandlesOk isChacha s) : ∀ k ∈ s.keypairs.released, k < s.keypairs.created := by
  intro k hk
  have hf : k ∈ s.keypairs.freed := List.mem_append_right _ hk
  exact ((h.keypairs.counted.owned.freed_iff k).mp hf).1

theorem carried (h : HandlesOk isChacha s) {k : Nat} (hk : k ∈ s.keypairs.session.carried) : k ∉ s.aead.destroyed := by
  intro hd
  have hf : k ∈ s.keypairs.freed := List.mem_append_right _ (h.aead.released k hd)
  refine ((h.keypairs.counted.owned.freed_iff k).mp hf).2 ?_
  simp [KeypairState.owners, hk]

theorem handshake (h : HandlesOk isChacha s) (hashed : Bool) (state : HandshakeState) :
    HandlesOk isChacha { s with keypairs := { s.keypairs with handshakeHashed := hashed }, state := state } := by
  have hk := h.keypairs
  refine ⟨⟨⟨hk.counted.owned, hk.counted.sound⟩, hk.distinct, hk.readers, hk.hashed, hk.published, hk.fresh⟩, h.aead,
    h.chacha, ?_, h.returned⟩
  have hcall := h.call
  dsimp only
  rcases hs : s.keypairs.session with _ | ⟨k, i⟩ | k <;> rw [hs] at hcall <;> exact hcall

theorem keypair (h : HandlesOk isChacha s) (hks : ks.Inv) (ho : s.keypairs.Outside ks) :
    HandlesOk isChacha { s with keypairs := ks } := by
  refine ⟨hks, ?_, h.chacha, ?_, h.returned⟩
  · rw [show ({ s with keypairs := ks } : SessionState).keypairs.created = _ from ho.created]
    exact h.aead.mono ho.released
  · rw [show ({ s with keypairs := ks } : SessionState).keypairs.session = _ from ho.session]
    have hcall := h.call
    rcases hs : s.keypairs.session with _ | ⟨k, i⟩ | k <;> rw [hs] at hcall <;> exact hcall

theorem returns (hks : t.keypairs.Inv) (ha : t.aead.Inv t.keypairs.created t.keypairs.released)
    (hch : isChacha = true → ∀ k, t.aead.handles k = []) (hs : t.keypairs.session = .idle)
    (hcall : t.aead.Settled t.call) (hret : ∀ c ∈ t.returned, t.aead.Settled c.2) (ret : Bool) :
    HandlesOk isChacha ((s.own t).returns ret) := by
  refine ⟨hks, ha, hch, ?_, fun c hc => ?_⟩
  · rw [show ((s.own t).returns ret).keypairs.session = .idle from hs]
    rfl
  · rcases List.mem_cons.mp hc with rfl | hc
    · exact hcall
    · exact hret c hc

theorem chacha_setup (h : HandlesOk isChacha s) (o : SessionOutcomes) {k : Nat} (hch : isChacha = true) :
    ∀ j, (s.aead.setup isChacha o k).2.handles j = [] := by
  subst hch
  exact h.chacha rfl

theorem setupFails (h : HandlesOk isChacha s) (o : SessionOutcomes) {i : Bool} {ks' : KeypairState} {a : AeadHandles}
    (ha : a = (s.aead.setup isChacha o s.keypairs.created).2) (hks : s.keypairs.step (.keypairCreate i) = some ks)
    (hks' : ks.step .sessionFails = some ks') :
    HandlesOk isChacha ((s.own { s with
      keypairs := ks'
      aead := a.keypairFreeRcu s.keypairs.created
      call := { s.call with handles := List.range' s.aead.allocated (a.allocated -
        s.aead.allocated) } }).returns false) := by
  have hnil := h.aead.fresh s.keypairs.created (Nat.le_refl _)
  have hfor : AeadHandles.AllocatedFor s.keypairs.created s.aead a :=
    ha ▸ AeadHandles.allocatedFor_setup isChacha o hnil
  have hinv := (h.keypairs.step hks).step hks'
  have hch := h.chacha_setup o (k := s.keypairs.created)
  rw [← ha] at hch
  have hnew : s.keypairs.created ∉ a.destroyed := fun hd => by
    rw [hfor.destroyed] at hd
    exact Nat.lt_irrefl _ (h.made _ (h.aead.released _ hd))
  obtain rfl := KeypairState.keypairCreate_eq hks
  obtain rfl := KeypairState.sessionFails_eq hks' rfl
  refine returns hinv ?_ hch rfl (fun x hx => .inr ?_) (fun c hc => ?_) false
  · exact ((h.aead.allocate hfor h.made).mono (List.subset_cons_self ..)).keypairFreeRcu List.mem_cons_self hnew
  · exact List.mem_append_left _ (hfor.mem_range hx)
  · refine (h.returned c hc).mono (fun k x hx => hfor.mem hnil hx) ?_
    exact List.subset_append_of_subset_right _ (hfor.freed ▸ List.Subset.refl _)

theorem begins (h : HandlesOk isChacha s) (o : SessionOutcomes) {i : Bool} {a : AeadHandles}
    (ha : a = (s.aead.setup isChacha o s.keypairs.created).2) (hks : s.keypairs.step (.keypairCreate i) = some ks) :
    HandlesOk isChacha (s.own { s with
      keypairs := ks
      aead := a
      state := .zeroed
      call := { s.call with handles := List.range' s.aead.allocated (a.allocated - s.aead.allocated) } }) := by
  have hnil := h.aead.fresh s.keypairs.created (Nat.le_refl _)
  have hfor : AeadHandles.AllocatedFor s.keypairs.created s.aead a :=
    ha ▸ AeadHandles.allocatedFor_setup isChacha o hnil
  have hinv := h.keypairs.step hks
  have hch := h.chacha_setup o (k := s.keypairs.created)
  rw [← ha] at hch
  obtain rfl := KeypairState.keypairCreate_eq hks
  refine ⟨hinv, h.aead.allocate hfor h.made, hch, fun x hx => hfor.mem_range hx, fun c hc => ?_⟩
  exact (h.returned c hc).mono (fun k x hx => hfor.mem hnil hx) (hfor.freed ▸ List.Subset.refl _)

theorem dead (h : HandlesOk isChacha s) {k : Nat} {i : Bool} (hs : s.keypairs.session = .filling k i)
    (hch : isChacha = true) (hks : s.keypairs.step .sessionFails = some ks) :
    HandlesOk isChacha ((s.own { s with keypairs := ks, aead := s.aead.kfreeSensitive k }).returns false) := by
  have hinv := h.keypairs.step hks
  have hnew : k ∉ s.aead.destroyed := h.carried (by simp [hs, SessionPhase.carried])
  have hcall := h.call
  rw [hs] at hcall
  obtain rfl := KeypairState.sessionFails_eq hks hs
  refine returns hinv ?_ ?_ rfl (fun x hx => ?_) ?_ false
  · exact (h.aead.mono (List.subset_cons_self ..)).kfreeSensitive List.mem_cons_self hnew (h.chacha hch k)
  · exact h.chacha
  · have hx := hcall x hx
    rw [h.chacha hch k] at hx
    cases hx
  · exact h.returned

theorem addNewKeypair (h : HandlesOk isChacha s) {k : Nat} {i : Bool} (hs : s.keypairs.session = .filling k i)
    (hks : s.keypairs.step .addNewKeypair = some ks) :
    HandlesOk isChacha
      (s.own { s with keypairs := ks, alive := false, call := { s.call with installed := some k } }) := by
  have hinv := h.keypairs.step hks
  have hcall := h.call
  rw [hs] at hcall
  obtain rfl := KeypairState.addNewKeypair_eq hks hs
  refine ⟨hinv, ?_, h.chacha, ?_, h.returned⟩
  · dsimp only [SessionState.own]
    rw [KeypairState.created_rotate]
    exact h.aead.mono (KeypairState.released_rotate_subset { s.keypairs with session := .published k } _)
  · dsimp only [SessionState.own]
    rw [KeypairState.session_rotate]
    exact ⟨rfl, hcall⟩

theorem replace (h : HandlesOk isChacha s)
    (hks : s.keypairs.step .indexHashtableReplace = some ks) (ret : Bool) :
    HandlesOk isChacha ((s.own { s with keypairs := ks }).returns ret) := by
  have hinv := h.keypairs.step hks
  have hcall := h.call
  obtain ⟨k, hs, rfl⟩ := KeypairState.indexHashtableReplace_eq hks
  rw [hs] at hcall
  refine returns hinv ?_ ?_ rfl ?_ ?_ ret
  · exact h.aead
  · exact h.chacha
  · exact fun x hx => .inl ⟨k, hcall.1, hcall.2 x hx⟩
  · exact h.returned

theorem step (h : HandlesOk isChacha s) (hok : s.AliveAtTest isChacha ev) (hs : SessionStep isChacha s ev t) :
    HandlesOk isChacha t := by
  have hcall := h.call
  rcases hs with hs | hs | hs | hs | state | ⟨hs, hst⟩ | hs | _ | ⟨o, hs⟩ | ⟨o, hs, ha, hks, hks'⟩ |
    ⟨o, hs, hst, ha, hks⟩ | ⟨hs, hd, hks⟩ | hs | ⟨hs, hks⟩ | hks | ⟨hev, hks⟩ | ⟨hk, hd⟩
  case createInitiation | createResponse | handshakeClear =>
    exact h.handshake _ _
  case consumeInitiation | readState | consumeResponse | stale | makeDead =>
    exact ⟨h.keypairs, h.aead, h.chacha, hcall, h.returned⟩
  case keypairFreeRcu =>
    refine ⟨h.keypairs, h.aead.keypairFreeRcu hk hd, h.chacha, hcall, fun c hc => ?_⟩
    exact (h.returned c hc).mono (fun _ _ => id) (List.subset_append_right ..)
  case refused =>
    rw [hs] at hcall
    refine returns h.keypairs h.aead h.chacha hs (fun x hx => ?_) h.returned false
    rw [show s.call = .none from hcall] at hx
    cases hx
  case setupFails => exact h.setupFails o ha hks hks'
  case begins => exact h.begins o ha hks
  case dead => exact h.dead hs (hok hd) hks
  case alive =>
    rw [hs] at hcall
    refine ⟨h.keypairs, h.aead, h.chacha, ?_, h.returned⟩
    rw [show (s.own { s with alive := true }).keypairs.session = _ from hs]
    exact hcall
  case addNewKeypair => exact h.addNewKeypair hs hks
  case replace => exact h.replace hks _
  case keypair =>
    exact h.keypair (h.keypairs.step hks) (KeypairState.outside_step hks hev)

end HandlesOk

/-- If no call of `begin_session` on an AES-GCM device finds its peer dead: no handle is freed
twice; the handles that a call has allocated belong to the keypair that it has installed, or are
freed when it returns; a handle is freed with its keypair, never before; and a handle that is not
freed belongs to a keypair that is held, or on its way to be freed. -/
theorem aead_handles_freed_once (isChacha : Bool) (s : SessionState)
    (hrun : Exec (step isChacha) (AliveAtTest isChacha) init s) :
    s.aead.freed.Nodup ∧
    (∀ c ∈ s.returned, ∀ x ∈ c.2.handles, (∃ k, c.2.installed = some k ∧ x ∈ s.aead.handles k) ∨ x ∈ s.aead.freed) ∧
    (∀ k ∈ s.aead.destroyed, ∀ x ∈ s.aead.handles k, x ∈ s.aead.freed) ∧
    (∀ k, k ∉ s.aead.destroyed → ∀ x ∈ s.aead.handles k, x ∉ s.aead.freed) ∧
    ∀ x < s.aead.allocated, x ∉ s.aead.freed → ∃ k, x ∈ s.aead.handles k ∧
      (k ∈ s.keypairs.owners ∨ k ∈ s.keypairs.dying ∨ k ∈ s.keypairs.removed ∨
        k ∈ s.keypairs.released ∧ k ∉ s.aead.destroyed) := by
  have h : HandlesOk isChacha s := hrun.inv HandlesOk.init fun _ _ _ hok h hs => h.step hok (step_cases hs)
  refine ⟨h.aead.freed_nodup, h.returned, fun k hk x hx => h.aead.mem_freed_iff.mpr ⟨k, hk, hx⟩, ?_, ?_⟩
  · intro k hk x hx hf
    obtain ⟨j, hj, hxj⟩ := h.aead.mem_freed_iff.mp hf
    exact hk (h.aead.custody.eq_of_mem j k x hxj hx ▸ hj)
  · intro x hx hf
    obtain ⟨k, hk⟩ := (h.aead.custody.covers x).mp hx
    have hd : k ∉ s.aead.destroyed := fun hd => hf (h.aead.mem_freed_iff.mpr ⟨k, hd, hk⟩)
    have hmade : k < s.keypairs.created := by
      by_contra hge
      rw [h.aead.fresh k (Nat.le_of_not_lt hge)] at hk
      cases hk
    refine ⟨k, hk, ?_⟩
    by_cases ho : k ∈ s.keypairs.owners
    · exact .inl ho
    have hfreed := (h.keypairs.counted.owned.freed_iff k).mpr ⟨hmade, by rwa [List.append_nil]⟩
    simp only [KeypairState.freed, List.mem_append] at hfreed
    tauto

/-- The same with the keypair cleared and freed. -/
theorem aead_handles_freed_once_secondTry : ∃ s, Exec (step false) (AliveAtTest false) init s ∧
    s.aead.allocated = 4 ∧ s.aead.freed = [2, 3, 0, 1] ∧ s.aead.freed.Nodup := by
  have hrun : ∃ s, Exec (step false) (AliveAtTest false) init s ∧ (s.aead.allocated, s.aead.freed) =
    (4, [2, 3, 0, 1]) :=
    Exec.exists_of_foldlM (secondTry ++ [.keypair .keypairsClear, .keypairFreeRcu 1])
      (fun s : SessionState => (s.aead.allocated, s.aead.freed)) (by decide +kernel)
  obtain ⟨s, hrun, hs⟩ := hrun
  obtain ⟨hall, hfreed⟩ := Prod.mk.inj hs
  exact ⟨s, hrun, hall, hfreed, (aead_handles_freed_once false s hrun).1⟩

/-- The peer is removed while it completes a handshake. -/
def diesInSession : List SessionEvent :=
  [.createInitiation, .readState, .consumeResponse .createdInitiation, .beginSession allSucceed, .makeDead, .testDead]

/-- Both handles of the new keypair are lost: it is gone and they have not been freed. -/
theorem diesInSession_leaks : ∃ s, Exec (step false) (fun _ _ => True) init s ∧
    (s.returned.map fun c => (c.1, c.2.handles)) = [(false, [0, 1])] ∧ s.aead.handles 0 = [0, 1] ∧
    s.aead.destroyed = [0] ∧ s.aead.freed = [] := by
  have hrun : ∃ s, Exec (step false) (fun _ _ => True) init s ∧
      ((s.returned.map fun c => (c.1, c.2.handles)), s.aead.handles 0, s.aead.destroyed, s.aead.freed) =
        ([(false, [0, 1])], [0, 1], [0], []) :=
    Exec.exists_of_foldlM diesInSession (fun s : SessionState => ((s.returned.map fun c => (c.1, c.2.handles)),
      s.aead.handles 0, s.aead.destroyed, s.aead.freed)) (by decide +kernel)
  obtain ⟨s, hrun, hs⟩ := hrun
  simp only [Prod.mk.injEq] at hs
  exact ⟨s, hrun, hs⟩

end SessionState
end WireguardAes
