import WireguardAes.DataPath
import WireguardAes.Lib.PtrRing
import WireguardAes.Lib.Runs

/-!
# The handshake queue (`receive.c`, `device.c`)

`wg_packet_receive` puts a handshake packet on a ring and then adds one to `handshake_queue_len`; a
worker takes a packet from the ring, handles it and then subtracts one; `wg_stop` empties the ring
and then sets the counter to zero. An operation of the ring is one step (it is under the ring's
producer or consumer lock) and so is each access to the counter. `wg_open` and `wg_stop` are
serialised by the RTNL lock. The counter is an integer: the wrap of an `atomic_t` is left out.
-/

namespace WireguardAes

open Runs

/-- What `wg_open` and `wg_stop` have done last. -/
inductive LinkState where
  | down
  | up
  /-- The loop of `wg_stop` has taken `n` packets from the ring. -/
  | draining (n : Nat)
  /-- The ring was empty. -/
  | drained (n : Nat)
  /-- The counter is set. -/
  | reset
  deriving DecidableEq

/-- The number of packets that `wg_stop` has taken from the ring while the counter still has
them. -/
def LinkState.taken : LinkState → Nat
  | .draining n => n
  | .drained n => n
  | _ => 0

structure HandshakeQueue where
  ring : PtrRing Bytes maxQueuedIncomingHandshakes
  handshakeQueueLen : Int
  lastUnderLoad : U64
  link : LinkState
  /-- The calls of `wg_packet_receive` that have read the counter; was it above half of the maximum?
  -/
  deciding : List (Bytes × Bool)
  /-- The calls between the insertion into the ring and the increment of the counter. -/
  inserted : List Bytes
  /-- The workers between the removal from the ring and the decrement of the counter, with
  `under_load` once it is known. -/
  handling : List (Bytes × Option Bool)

/-- `under_load` and the new `last_under_load`. -/
def underLoad (handshakeQueueLen : Int) (lastUnderLoad now : U64) : Bool × U64 :=
  if maxQueuedIncomingHandshakes / 8 ≤ handshakeQueueLen then (true, now)
  else if lastUnderLoad = 0 then (false, 0)
  else if birthdateHasExpired lastUnderLoad 1 now then (false, 0)
  else (true, lastUnderLoad)

/-- The packets that `wg_packet_receive` puts on the ring. -/
def IsHandshakeSkb (skb : Bytes) : Prop := validateHeaderLen skb ≠ 0 ∧ skbType skb ≠ messageData

instance (skb : Bytes) : Decidable (IsHandshakeSkb skb) := inferInstanceAs (Decidable (_ ∧ _))

inductive HandshakeQueueEvent where
  /-- `wg_open`, with what `wg_socket_init` says. -/
  | wgOpen (socketInit : Bool)
  /-- `wg_packet_receive` up to the read of the counter. The link is not asked: packets come also
  while `wg_socket_reinit` frees the old sockets. -/
  | receive (skb : Bytes) (rngIsInitialized : Bool)
  /-- With what `spin_trylock_bh` says. -/
  | produce (i : Nat) (locked : Bool)
  | increment (i : Nat)
  | consume (clears : Bool)
  /-- The computation of `under_load`. -/
  | testLoad (i : Nat) (now : U64)
  | decrement (i : Nat)
  | wgStop
  | drain (clears : Bool)
  /-- `atomic_set`. -/
  | resetLen
  | socketReinit
  deriving DecidableEq

namespace HandshakeQueue

def init : HandshakeQueue where
  ring := .empty
  handshakeQueueLen := 0
  lastUnderLoad := 0
  link := .down
  deciding := []
  inserted := []
  handling := []

def step (s : HandshakeQueue) : HandshakeQueueEvent → Option HandshakeQueue
  | .wgOpen socketInit =>
    if s.link = .down then some (if socketInit then { s with link := .up } else s) else none
  | .receive skb rngIsInitialized =>
    if IsHandshakeSkb skb then
      if rngIsInitialized then
        some { s with
          deciding := (skb, decide ((maxQueuedIncomingHandshakes / 2 : Nat) < s.handshakeQueueLen)) :: s.deciding }
      else some s
    else none
  | .produce i locked =>
    match s.deciding[i]? with
    | some (skb, tryLock) =>
      let s := { s with deciding := s.deciding.eraseIdx i }
      if tryLock && !locked then some s
      else match s.ring.produce skb with
        | some ring => some { s with ring := ring, inserted := skb :: s.inserted }
        | none => some s
    | none => none
  | .increment i =>
    if i < s.inserted.length then
      some { s with inserted := s.inserted.eraseIdx i, handshakeQueueLen := s.handshakeQueueLen + 1 }
    else none
  | .consume clears =>
    match s.ring.consume clears with
    | some (skb, ring) => some { s with ring := ring, handling := (skb, none) :: s.handling }
    | none => none
  | .testLoad i now =>
    match s.handling[i]? with
    | some (skb, none) =>
      if skbType skb = messageHandshakeCookie then none
      else
        let r := underLoad s.handshakeQueueLen s.lastUnderLoad now
        some { s with lastUnderLoad := r.2, handling := s.handling.set i (skb, some r.1) }
    | _ => none
  | .decrement i =>
    match s.handling[i]? with
    | some (skb, tested) =>
      if tested.isSome ∨ skbType skb = messageHandshakeCookie then
        some { s with handling := s.handling.eraseIdx i, handshakeQueueLen := s.handshakeQueueLen - 1 }
      else none
    | none => none
  | .wgStop => if s.link = .up then some { s with link := .draining 0 } else none
  | .drain clears =>
    match s.link with
    | .draining n =>
      match s.ring.consume clears with
      | some (_, ring) => some { s with ring := ring, link := .draining (n + 1) }
      | none => some { s with link := .drained n }
    | _ => none
  | .resetLen =>
    match s.link with
    | .drained _ => some { s with handshakeQueueLen := 0, link := .reset }
    | _ => none
  | .socketReinit => if s.link = .reset then some { s with link := .down } else none

/-- What a step does to the ring, the counter and the calls in progress. -/
inductive Step (s : HandshakeQueue) : HandshakeQueueEvent → HandshakeQueue → Prop
  /-- The packet is not put on the ring, or is not there yet, or only its load has been tested. -/
  | quiet {e : HandshakeQueueEvent} {deciding : List (Bytes × Bool)} {handling : List (Bytes × Option Bool)}
      {lastUnderLoad : U64} (hh : handling.length = s.handling.length) :
      Step s e { s with deciding := deciding, handling := handling, lastUnderLoad := lastUnderLoad }
  | link {e : HandshakeQueueEvent} {link : LinkState} (hl : link.taken = s.link.taken) :
    Step s e { s with link := link }
  | produce {i : Nat} {locked : Bool} {skb : Bytes} {ring : PtrRing Bytes maxQueuedIncomingHandshakes}
      {deciding : List (Bytes × Bool)} (hr : s.ring.produce skb = some ring) :
      Step s (.produce i locked) { s with deciding := deciding, ring := ring, inserted := skb :: s.inserted }
  | increment {i : Nat} (hi : i < s.inserted.length) : Step s (.increment i)
      { s with inserted := s.inserted.eraseIdx i, handshakeQueueLen := s.handshakeQueueLen + 1 }
  | consume {clears : Bool} {skb : Bytes} {ring : PtrRing Bytes maxQueuedIncomingHandshakes}
      (hr : s.ring.consume clears = some (skb, ring)) :
      Step s (.consume clears) { s with ring := ring, handling := (skb, none) :: s.handling }
  | decrement {i : Nat} (hi : i < s.handling.length) : Step s (.decrement i)
      { s with handling := s.handling.eraseIdx i, handshakeQueueLen := s.handshakeQueueLen - 1 }
  | drain {clears : Bool} {n : Nat} {skb : Bytes} {ring : PtrRing Bytes maxQueuedIncomingHandshakes}
      (hl : s.link = .draining n) (hr : s.ring.consume clears = some (skb, ring)) :
      Step s (.drain clears) { s with ring := ring, link := .draining (n + 1) }
  | resetLen {n : Nat} (hl : s.link = .drained n) : Step s .resetLen { s with handshakeQueueLen := 0, link := .reset }

variable {s t : HandshakeQueue} {e : HandshakeQueueEvent}

theorem Step.refl : Step s e s := .link rfl

theorem step_cases (h : s.step e = some t) : Step s e t := by
  cases e with
  | wgOpen socketInit =>
    obtain ⟨hl, h⟩ := Option.ite_none_right_eq_some.mp h
    cases h
    split
    · exact .link (by rw [hl]; rfl)
    · exact .refl
  | receive skb rngIsInitialized =>
    obtain ⟨-, h⟩ := Option.ite_none_right_eq_some.mp h
    split at h <;> cases h
    · exact .quiet rfl
    · exact .refl
  | produce i locked =>
    simp only [step] at h
    split at h
    case h_1 skb tryLock _ =>
      split at h
      case isTrue => cases h; exact .quiet rfl
      case isFalse =>
        cases hr : s.ring.produce skb with
        | some ring =>
          simp only [hr] at h
          cases h
          exact .produce hr
        | none =>
          simp only [hr] at h
          cases h
          exact .quiet rfl
    case h_2 => cases h
  | increment i =>
    obtain ⟨hi, h⟩ := Option.ite_none_right_eq_some.mp h
    cases h
    exact .increment hi
  | consume clears =>
    simp only [step] at h
    split at h
    case h_1 skb ring hr => cases h; exact .consume hr
    case h_2 => cases h
  | testLoad i now =>
    simp only [step] at h
    split at h
    case h_1 =>
      split at h <;> cases h
      exact .quiet List.length_set
    case h_2 => cases h
  | decrement i =>
    simp only [step] at h
    split at h
    case h_1 skb tested hi =>
      obtain ⟨-, h⟩ := Option.ite_none_right_eq_some.mp h
      cases h
      exact .decrement (List.getElem?_eq_some_iff.mp hi).1
    case h_2 => cases h
  | wgStop =>
    obtain ⟨hl, h⟩ := Option.ite_none_right_eq_some.mp h
    cases h
    exact .link (by rw [hl]; rfl)
  | drain clears =>
    simp only [step] at h
    split at h
    case h_1 n hl =>
      split at h
      case h_1 skb ring hr => cases h; exact .drain hl hr
      case h_2 => cases h; exact .link (by rw [hl]; rfl)
    case h_2 => cases h
  | resetLen =>
    simp only [step] at h
    split at h
    case h_1 n hl => cases h; exact .resetLen hl
    case h_2 => cases h
  | socketReinit =>
    obtain ⟨hl, h⟩ := Option.ite_none_right_eq_some.mp h
    cases h
    exact .link (by rw [hl]; rfl)

/-- When `wg_stop` sets the counter, the packets on the ring and with the workers are as many as
those that are inserted and not counted yet. -/
def QuietReset (s : HandshakeQueue) (e : HandshakeQueueEvent) : Prop :=
  e = .resetLen → s.ring.entries.length + s.handling.length = s.inserted.length

instance (s : HandshakeQueue) (e : HandshakeQueueEvent) : Decidable (QuietReset s e) :=
  inferInstanceAs (Decidable (_ → _))

/-- Every packet of the ring is counted from its increment on, and stays counted until its
decrement. -/
def Balanced (s : HandshakeQueue) : Prop :=
  s.handshakeQueueLen + s.inserted.length = s.ring.entries.length + s.handling.length + s.link.taken

theorem Balanced.step (h : Balanced s) (hok : QuietReset s e) (hs : Step s e t) : Balanced t := by
  unfold Balanced at h ⊢
  rcases hs with hh | hl | hr | hi | hr | hi | ⟨hl, hr⟩ | hl
  · simp only [hh]
    exact h
  · simp only [hl]
    exact h
  · simp only [PtrRing.entries_of_produce hr, List.length_append, List.length_cons, List.length_nil]
    omega
  · simp only [List.length_eraseIdx_of_lt hi]
    omega
  · simp only [PtrRing.entries_of_consume hr, List.length_cons] at h ⊢
    omega
  · simp only [List.length_eraseIdx_of_lt hi]
    omega
  · simp only [hl, PtrRing.entries_of_consume hr, List.length_cons, LinkState.taken] at h ⊢
    omega
  · have hreset := hok rfl
    simp only [LinkState.taken]
    omega

theorem Balanced.of_exec (h : Exec HandshakeQueue.step QuietReset init s) : Balanced s :=
  h.inv rfl fun _ _ _ hok hb hs => hb.step hok (step_cases hs)

theorem underLoad_fst (len : Int) (lastUnderLoad now : U64) : (underLoad len lastUnderLoad now).1 = true ↔
    maxQueuedIncomingHandshakes / 8 ≤ len ∨ lastUnderLoad ≠ 0 ∧ birthdateHasExpired lastUnderLoad 1 now = false := by
  unfold underLoad
  split_ifs <;> simp_all

/-- The counter is the number of packets on the ring whenever no call is between its access to the
ring and its access to the counter, and a worker finds the load that the packets received and not
yet handled make. -/
theorem handshakeQueueLen_eq_length (h : Exec step QuietReset init s) (hl : s.link.taken = 0) :
    (s.inserted = [] → s.handling = [] → s.handshakeQueueLen = s.ring.entries.length ∧ 0 ≤ s.handshakeQueueLen) ∧
      ∀ lastUnderLoad now, (underLoad s.handshakeQueueLen lastUnderLoad now).1 = true ↔
        maxQueuedIncomingHandshakes / 8 + s.inserted.length ≤ s.ring.entries.length + s.handling.length ∨
          lastUnderLoad ≠ 0 ∧ birthdateHasExpired lastUnderLoad 1 now = false := by
  have hb := Balanced.of_exec h
  unfold Balanced at hb
  rw [hl] at hb
  refine ⟨?_, fun lastUnderLoad now => ?_⟩
  · intro hi hh
    rw [hi, hh] at hb
    simp only [List.length_nil] at hb
    omega
  · rw [underLoad_fst]
    refine or_congr_left ?_
    omega

def sampleCookieMessage : Bytes := 3 :: List.replicate 63 0

/-- What is to be seen of a state: the link, the ring, the calls in progress and the counter. -/
def shown (s : HandshakeQueue) : LinkState × List Bytes × Nat × Nat × Int :=
  (s.link, s.ring.entries, s.inserted.length, s.handling.length, s.handshakeQueueLen)

theorem eq_of_shown {link : LinkState} {ring : List Bytes} {len : Int} (h : s.shown = (link, ring, 0, 0, len)) :
    s.link = link ∧ s.ring.entries = ring ∧ s.inserted = [] ∧ s.handling = [] ∧ s.handshakeQueueLen = len := by
  simpa only [shown, Prod.mk.injEq, List.length_eq_zero_iff] using h

/-- Two packets are received, one is handled, the other is drained by `wg_stop`; a third one comes
after `wg_open`. -/
theorem handshakeQueueLen_eq_length_reopened : ∃ s, Exec step QuietReset init s ∧ s.link = .up ∧
    s.ring.entries = [sampleCookieMessage] ∧ s.handshakeQueueLen = s.ring.entries.length ∧ 0 ≤ s.handshakeQueueLen := by
  have hrun : ∃ s, Exec step QuietReset init s ∧ s.shown = (.up, [sampleCookieMessage], 0, 0, 1) :=
    Exec.exists_of_foldlM [.wgOpen true, .receive sampleCookieMessage true, .produce 0 true, .increment 0,
      .receive sampleCookieMessage true, .produce 0 true, .increment 0, .consume false, .wgStop, .drain true,
      .drain true, .decrement 0, .resetLen, .socketReinit, .wgOpen true,
      .receive sampleCookieMessage true, .produce 0 true, .increment 0] shown (by decide +kernel)
  obtain ⟨s, hs, heq⟩ := hrun
  obtain ⟨hl, hr, hi, hh, -⟩ := eq_of_shown heq
  exact ⟨s, hs, hl, hr, (handshakeQueueLen_eq_length hs (by rw [hl]; rfl)).1 hi hh⟩

/-- A worker that has a packet when `wg_stop` sets the counter takes it below zero, where it stays
when the interface is up again. -/
theorem handshakeQueueLen_negative : ∃ s, Exec step (fun _ _ => True) init s ∧ s.link = .up ∧
    s.ring.entries = [] ∧ s.inserted = [] ∧ s.handling = [] ∧ s.handshakeQueueLen = -1 := by
  have hrun : ∃ s, Exec step (fun _ _ => True) init s ∧ s.shown = (.up, [], 0, 0, -1) :=
    Exec.exists_of_foldlM [.wgOpen true, .receive sampleCookieMessage true, .produce 0 true, .increment 0,
      .consume true, .wgStop, .drain true, .resetLen, .socketReinit, .decrement 0, .wgOpen true] shown
      (by decide +kernel)
  obtain ⟨s, hs, heq⟩ := hrun
  exact ⟨s, hs, eq_of_shown heq⟩

end HandshakeQueue
end WireguardAes
