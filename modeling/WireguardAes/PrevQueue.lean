import WireguardAes.Messages
import WireguardAes.Lib.Runs
import WireguardAes.Lib.BoundedFifo
import WireguardAes.Lib.LinkedChain
import Mathlib.Data.List.Perm.Subperm
import Mathlib.Order.Basic

/-!
# The queue of a peer's packets (`queueing.c`, `queueing.h`)

`struct prev_queue` has many producers and one consumer. The nodes are linked from `tail` to `head`
through their `prev` pointers, here `next` as in the source's macro; a stub node stands in for the
packets when there are none. Every access to the shared memory is a step of its own, and the steps
of all calls interleave in any order.

`history` has a `put` for every exchange on `head` by a producer, a `take` for every node a dequeue
returns and a `null` for every dequeue that returns none; `lent` has the packets that were given to
the queue and not returned yet, which their owners do not enqueue again.
-/

namespace WireguardAes

open Function Runs BoundedFifo LinkedChain

inductive QueueNode (α : Type) where
  /-- `STUB(queue)`. -/
  | stub
  | skb (x : α)
  deriving DecidableEq

/-- `wg_prev_queue_enqueue`. -/
inductive EnqueueCall (α : Type) where
  | idle
  /-- After `atomic_add_unless`. -/
  | counted (x : α)
  /-- After `WRITE_ONCE(NEXT(skb), NULL)`. -/
  | cleared (x : α)
  /-- After `xchg_release(&queue->head, skb)`. -/
  | exchanged (prev : QueueNode α) (x : α)

/-- `wg_prev_queue_dequeue`, by the access that comes next. -/
inductive DequeueCall (α : Type) where
  | idle
  /-- `smp_load_acquire(&NEXT(tail))`. -/
  | load (tail : QueueNode α)
  /-- `queue->tail = next` past the stub. -/
  | skipStub (next : QueueNode α)
  /-- `smp_load_acquire(&NEXT(next))` past the stub. -/
  | loadPastStub (tail : QueueNode α)
  /-- `queue->tail = next` past the node to return. -/
  | advance (tail next : QueueNode α)
  /-- `atomic_dec(&queue->count)`. -/
  | decrement (tail : QueueNode α)
  /-- `READ_ONCE(queue->head)`. -/
  | readHead (tail : QueueNode α)
  /-- `__wg_prev_queue_enqueue(queue, STUB(queue))`, its three accesses. -/
  | clearStub (tail : QueueNode α)
  | exchangeStub (tail : QueueNode α)
  | linkStub (tail prev : QueueNode α)
  /-- `smp_load_acquire(&NEXT(tail))` after that. -/
  | reload (tail : QueueNode α)

structure PrevQueue (α : Type) where
  next : QueueNode α → Option (QueueNode α)
  head : QueueNode α
  tail : QueueNode α
  peeked : Option (QueueNode α)
  count : Int
  producer : Nat → EnqueueCall α
  consumer : DequeueCall α
  /-- Whether the consumer is in `wg_prev_queue_peek`. -/
  peeking : Bool
  lent : List α
  history : List (Action (QueueNode α))

inductive PrevQueueEvent (α : Type) where
  | enqueue (p : Nat) (x : α)
  | produce (p : Nat)
  | dequeue
  | peek
  | dropPeeked
  | consume

namespace PrevQueue

variable {α : Type} [DecidableEq α]

/-- `wg_prev_queue_init`. -/
def init : PrevQueue α where
  next _ := none
  head := .stub
  tail := .stub
  peeked := none
  count := 0
  producer _ := .idle
  consumer := .idle
  peeking := false
  lent := []
  history := []

def setNext (s : PrevQueue α) (n : QueueNode α) (next : Option (QueueNode α)) : PrevQueue α :=
  { s with next := update s.next n next }

def setProducer (s : PrevQueue α) (p : Nat) (c : EnqueueCall α) : PrevQueue α :=
  { s with producer := update s.producer p c }

def goto (s : PrevQueue α) (c : DequeueCall α) : PrevQueue α := { s with consumer := c }

def ret (s : PrevQueue α) (r : Option (QueueNode α)) : PrevQueue α :=
  { s with
    consumer := .idle
    peeked := if s.peeking then r else s.peeked
    history := s.history ++ [r.elim .null .take] }

def produce (s : PrevQueue α) (p : Nat) : Option (PrevQueue α) :=
  match s.producer p with
  | .idle => none
  | .counted x => some ((s.setNext (.skb x) none).setProducer p (.cleared x))
  | .cleared x => some { s.setProducer p (.exchanged s.head x) with
      head := .skb x
      history := s.history ++ [.put (.skb x)] }
  | .exchanged prev x => some ((s.setNext prev (some (.skb x))).setProducer p .idle)

/-- The packet that is returned goes back to its owner. -/
def giveBack (lent : List α) : QueueNode α → List α
  | .stub => lent
  | .skb x => lent.erase x

def consume (s : PrevQueue α) : Option (PrevQueue α) :=
  match s.consumer with
  | .idle => none
  | .load tail =>
    match tail, s.next tail with
    | .stub, none => some (s.ret none)
    | .stub, some next => some (s.goto (.skipStub next))
    | tail, some next => some (s.goto (.advance tail next))
    | tail, none => some (s.goto (.readHead tail))
  | .skipStub next => some { s.goto (.loadPastStub next) with tail := next }
  | .loadPastStub tail =>
    match s.next tail with
    | some next => some (s.goto (.advance tail next))
    | none => some (s.goto (.readHead tail))
  | .advance tail next => some { s.goto (.decrement tail) with tail := next }
  | .decrement tail => some { s.ret (some tail) with count := s.count - 1, lent := giveBack s.lent tail }
  | .readHead tail => if tail ≠ s.head then some (s.ret none) else some (s.goto (.clearStub tail))
  | .clearStub tail => some ((s.setNext .stub none).goto (.exchangeStub tail))
  | .exchangeStub tail => some { s.goto (.linkStub tail s.head) with head := .stub }
  | .linkStub tail prev => some ((s.setNext prev (some .stub)).goto (.reload tail))
  | .reload tail =>
    match s.next tail with
    | some next => some (s.goto (.advance tail next))
    | none => some (s.ret none)

def step (s : PrevQueue α) : PrevQueueEvent α → Option (PrevQueue α)
  | .enqueue p x =>
    match s.producer p with
    | .idle =>
      if x ∈ s.lent then none
      -- The call returns false.
      else if s.count = maxQueuedPackets then some s
      else some { s.setProducer p (.counted x) with count := s.count + 1, lent := x :: s.lent }
    | _ => none
  | .produce p => s.produce p
  | .dequeue =>
    match s.consumer with
    | .idle => some { s.goto (.load s.tail) with peeking := false }
    | _ => none
  | .peek =>
    match s.consumer with
    | .idle => if s.peeked.isSome then some s else some { s.goto (.load s.tail) with peeking := true }
    | _ => none
  | .dropPeeked =>
    match s.consumer with
    | .idle => some { s with peeked := none }
    | _ => none
  | .consume => s.consume

/-! ### What holds at every step -/

def elements (chain : List (QueueNode α)) : List α :=
  chain.filterMap fun | .stub => none | .skb x => some x

/-- The links still to be made: by a producer that has exchanged, or by the consumer for the
stub. -/
def Missing (producer : Nat → EnqueueCall α) (consumer : DequeueCall α) (a b : QueueNode α) : Prop :=
  (∃ p x, producer p = .exchanged a x ∧ b = .skb x) ∨ ∃ t, consumer = .linkStub t a ∧ b = .stub

end PrevQueue

def EnqueueCall.packet {α : Type} : EnqueueCall α → Option α
  | .idle => none
  | .counted x => some x
  | .cleared x => some x
  | .exchanged _ x => some x

/-- No packet is in the hands of two producers. -/
def Distinct {α : Type} (producer : Nat → EnqueueCall α) : Prop :=
  ∀ p q x, (producer p).packet = some x → (producer q).packet = some x → p = q

/-- The packet a dequeue has taken off the list and not returned yet. -/
def DequeueCall.inFlight {α : Type} : DequeueCall α → List α
  | .decrement (.skb x) => [x]
  | _ => []

/-- No link is left to make, and no packet to return. -/
def DequeueCall.Quiet {α : Type} : DequeueCall α → Prop
  | .decrement _ => False
  | .linkStub _ _ => False
  | _ => True

/-- What a producer relies on; `reserved` are the packets counted but not exchanged. -/
def EnqueueCall.Ok {α : Type} (next : QueueNode α → Option (QueueNode α)) (chain : List (QueueNode α))
    (reserved : List α) : EnqueueCall α → Prop
  | .idle => True
  | .counted x => x ∈ reserved
  | .cleared x => x ∈ reserved ∧ next (.skb x) = none
  | .exchanged prev x => Adjacent prev (.skb x) chain ∧ next prev = none

def DequeueCall.Ok {α : Type} (next : QueueNode α → Option (QueueNode α)) (tail : QueueNode α)
    (chain : List (QueueNode α)) : DequeueCall α → Prop
  | .idle => True
  | .load t => t = tail
  | .skipStub n => tail = .stub ∧ next .stub = some n
  | .loadPastStub t => t = tail ∧ t ≠ .stub
  | .advance t n => t = tail ∧ t ≠ .stub ∧ next t = some n
  | .decrement t => t ≠ .stub
  | .readHead t => t = tail ∧ t ≠ .stub
  | .clearStub t => t = tail ∧ t ≠ .stub ∧ .stub ∉ chain
  | .exchangeStub t => t = tail ∧ t ≠ .stub ∧ .stub ∉ chain ∧ next .stub = none
  | .linkStub t prev => t = tail ∧ t ≠ .stub ∧ Adjacent prev .stub chain ∧ next prev = none
  | .reload t => t = tail ∧ t ≠ .stub

section
variable {α : Type} {next next' : QueueNode α → Option (QueueNode α)} {tail : QueueNode α}
  {chain chain' : List (QueueNode α)} {reserved reserved' : List α}
variable {c : DequeueCall α}

theorem DequeueCall.Quiet.ne_linkStub (h : c.Quiet) (t prev : QueueNode α) :
    c ≠ .linkStub t prev := by
  rintro rfl
  exact h

theorem DequeueCall.Quiet.inFlight (h : c.Quiet) : c.inFlight = [] := by
  cases c with
  | decrement t => exact h.elim
  | _ => rfl

theorem EnqueueCall.Ok.mono {c : EnqueueCall α} (h : c.Ok next chain reserved)
    (hnext : ∀ n, next n = none → n ∈ chain ∨ (∃ x ∈ reserved, n = .skb x) → next' n = none)
    (hadj : ∀ a b, Adjacent a b chain → next a = none → Adjacent a b chain')
    (hres : ∀ x ∈ c.packet, x ∈ reserved → x ∈ reserved') : c.Ok next' chain' reserved' := by
  cases c with
  | idle => trivial
  | counted x => exact hres x rfl h
  | cleared x => exact ⟨hres x rfl h.1, hnext _ h.2 (.inr ⟨x, h.1, rfl⟩)⟩
  | exchanged prev x => exact ⟨hadj _ _ h.1 h.2, hnext _ h.2 (.inl h.1.mem_left)⟩

theorem Distinct.update {producer : Nat → EnqueueCall α} (h : Distinct producer) (p : Nat) {c : EnqueueCall α}
    (hc : ∀ x ∈ c.packet, ∀ q, q ≠ p → (producer q).packet ≠ some x) : Distinct (update producer p c) := by
  intro q r x hq hr
  by_cases hqp : q = p
  · by_cases hrp : r = p
    · rw [hqp, hrp]
    · rw [hqp, update_self] at hq
      rw [update_of_ne hrp] at hr
      exact absurd hr (hc x hq r hrp)
  · rw [update_of_ne hqp] at hq
    by_cases hrp : r = p
    · rw [hrp, update_self] at hr
      exact absurd hq (hc x hr q hqp)
    · rw [update_of_ne hrp] at hr
      exact h q r x hq hr

theorem Distinct.goOn {producer : Nat → EnqueueCall α} (h : Distinct producer) {p : Nat} {c : EnqueueCall α}
    (hc : c.packet = (producer p).packet) : Distinct (Function.update producer p c) :=
  h.update p fun x hx q hqp hq => hqp (h q p x hq (hc ▸ hx))

theorem DequeueCall.Ok.mono (h : c.Ok next tail chain) (htail : tail ∈ chain)
    (hsome : ∀ n ∈ chain, ∀ m, next n = some m → next' n = some m)
    (hstub : .stub ∉ chain → .stub ∉ chain' ∧ (next .stub = none → next' .stub = none))
    (hadj : ∀ prev, Adjacent prev .stub chain → next prev = none → Adjacent prev .stub chain' ∧ next' prev = none) :
    c.Ok next' tail chain' := by
  cases c with
  | idle => trivial
  | load t => exact h
  | skipStub n => exact ⟨h.1, hsome _ (h.1 ▸ htail) _ h.2⟩
  | loadPastStub t => exact h
  | advance t n => exact ⟨h.1, h.2.1, hsome _ (h.1 ▸ htail) _ h.2.2⟩
  | decrement t => exact h
  | readHead t => exact h
  | clearStub t => exact ⟨h.1, h.2.1, (hstub h.2.2).1⟩
  | exchangeStub t => exact ⟨h.1, h.2.1, (hstub h.2.2.1).1, (hstub h.2.2.1).2 h.2.2.2⟩
  | linkStub t prev => exact ⟨h.1, h.2.1, hadj prev h.2.2.1 h.2.2.2⟩
  | reload t => exact h

variable [DecidableEq α] {n prev : QueueNode α}

theorem EnqueueCall.Ok.link {c : EnqueueCall α} (h : c.Ok next chain reserved) (hprev : prev ∈ chain)
    (hres : ∀ x ∈ reserved, .skb x ∉ chain) (hne : ∀ x, c ≠ .exchanged prev x) :
    c.Ok (update next prev (some n)) chain reserved := by
  cases c with
  | idle => trivial
  | counted x => exact h
  | cleared x => exact ⟨h.1, (update_of_ne (ne_of_mem_of_not_mem hprev (hres x h.1)).symm ..).trans h.2⟩
  | exchanged prev' x =>
    refine ⟨h.1, (update_of_ne ?_ ..).trans h.2⟩
    rintro rfl
    exact hne x rfl

theorem DequeueCall.Ok.link {c : DequeueCall α} (h : c.Ok next tail chain) (hprev : prev ∈ chain)
    (hnone : next prev = none) (hne : ∀ t, c ≠ .linkStub t prev) :
    c.Ok (update next prev (some n)) tail chain := by
  have hsome (a m : QueueNode α) (ha : next a = some m) : update next prev (some n) a = some m := by
    refine (update_of_ne ?_ ..).trans ha
    rintro rfl
    rw [hnone] at ha
    cases ha
  cases c with
  | skipStub m => exact ⟨h.1, hsome _ _ h.2⟩
  | advance t m => exact ⟨h.1, h.2.1, hsome _ _ h.2.2⟩
  | exchangeStub t =>
    exact ⟨h.1, h.2.1, h.2.2.1, (update_of_ne (ne_of_mem_of_not_mem hprev h.2.2.1).symm ..).trans h.2.2.2⟩
  | linkStub t prev' =>
    refine ⟨h.1, h.2.1, h.2.2.1, (update_of_ne ?_ ..).trans h.2.2.2⟩
    rintro rfl
    exact hne t rfl
  | _ => exact h

end

namespace PrevQueue

variable {α : Type} [DecidableEq α]

/-- The list from `tail` to `head`, in the order of the exchanges. -/
structure Shape (s : PrevQueue α) (chain : List (QueueNode α)) (reserved : List α) : Prop where
  nodup : chain.Nodup
  first : chain.head? = some s.tail
  last : chain.getLast? = some s.head
  linked : Linked s.next (Missing s.producer s.consumer) chain
  producers : ∀ p, (s.producer p).Ok s.next chain reserved
  distinct : Distinct s.producer
  consumer : s.consumer.Ok s.next s.tail chain

/-- `queue` is what the abstract queue holds. -/
structure Accounts (s : PrevQueue α) (queue reserved : List α) : Prop where
  fifo : ∃ h : List (Action α), s.history = h.map (.map .skb) ∧ run maxQueuedPackets [] h = some queue
  lent : s.lent.Perm (queue ++ reserved)
  nodup : s.lent.Nodup
  count : s.count = s.lent.length
  bound : s.lent.length ≤ maxQueuedPackets
  peeked : ∀ n ∈ s.peeked, Action.take n ∈ s.history

section
variable {s s' : PrevQueue α} {chain : List (QueueNode α)} {queue reserved : List α}

omit [DecidableEq α] in
theorem Shape.of_eq (h : s.Shape chain reserved) (hnext : s'.next = s.next) (hhead : s'.head = s.head)
    (htail : s'.tail = s.tail) (hp : s'.producer = s.producer) (hc : s'.consumer = s.consumer) :
    s'.Shape chain reserved := by
  refine ⟨h.nodup, htail ▸ h.first, hhead ▸ h.last, ?_, ?_, hp ▸ h.distinct, ?_⟩
  · rw [hnext, hp, hc]
    exact h.linked
  · rw [hnext, hp]
    exact h.producers
  · rw [hnext, htail, hc]
    exact h.consumer

theorem Accounts.of_eq (h : s.Accounts queue reserved) (hhist : s'.history = s.history) (hlent : s'.lent = s.lent)
    (hcount : s'.count = s.count) (hpeek : s'.peeked = s.peeked) : s'.Accounts queue reserved := by
  refine ⟨hhist ▸ h.fifo, hlent ▸ h.lent, hlent ▸ h.nodup, ?_, hlent ▸ h.bound, ?_⟩
  · rw [hcount, hlent]
    exact h.count
  · rw [hpeek, hhist]
    exact h.peeked

end

structure Inv (s : PrevQueue α) (chain : List (QueueNode α)) (reserved : List α) : Prop extends
    Shape s chain reserved where
  accounts : s.Accounts (s.consumer.inFlight ++ elements chain) reserved

variable {s : PrevQueue α} {chain : List (QueueNode α)} {reserved : List α}
variable {x : α} {p : Nat} {c : DequeueCall α} {t : QueueNode α}

omit [DecidableEq α] in
theorem mem_elements : x ∈ elements chain ↔ .skb x ∈ chain := by
  simp only [elements, List.mem_filterMap]
  constructor
  · rintro ⟨n, hn, hx⟩
    cases n with
    | stub => cases hx
    | skb y => cases hx; exact hn
  · exact fun h => ⟨_, h, rfl⟩

namespace Inv

theorem notMem_chain (h : s.Inv chain reserved) (hx : x ∈ reserved) : .skb x ∉ chain := by
  intro hmem
  have hnodup := h.accounts.lent.nodup_iff.mp h.accounts.nodup
  have hdisj := (List.nodup_append.mp hnodup).2.2
  exact hdisj x (List.mem_append_right _ (mem_elements.mpr hmem)) x hx rfl

theorem mem_lent (h : s.Inv chain reserved) (hx : (s.producer p).packet = some x) : x ∈ s.lent := by
  rw [h.accounts.lent.mem_iff, List.mem_append, List.mem_append]
  have hp := h.producers p
  cases hc : s.producer p with
  | idle => rw [hc] at hx; cases hx
  | counted y => rw [hc] at hx hp; cases hx; exact .inr hp
  | cleared y => rw [hc] at hx hp; cases hx; exact .inr hp.1
  | exchanged prev y => rw [hc] at hx hp; cases hx; exact .inl (.inr (mem_elements.mpr hp.1.mem_right))

end Inv

omit [DecidableEq α] in
theorem Shape.tail_mem (h : s.Shape chain reserved) : s.tail ∈ chain := List.mem_of_head? h.first

theorem Shape.clear (h : s.Shape chain reserved) {n : QueueNode α} (hn : n ∉ chain) :
    (s.setNext n none).Shape chain reserved := by
  have hne (a : QueueNode α) (ha : a ∈ chain) : update s.next n none a = s.next a :=
    update_of_ne (ne_of_mem_of_not_mem ha hn) ..
  have hnone (a : QueueNode α) (ha : s.next a = none) : update s.next n none a = none := by
    by_cases han : a = n
    · subst han; exact update_self ..
    · rwa [update_of_ne han]
  refine ⟨h.nodup, h.first, h.last, h.linked.congr hne fun _ _ _ => id, fun p => ?_, h.distinct, ?_⟩
  · exact (h.producers p).mono (fun a ha _ => hnone a ha) (fun _ _ hab _ => hab) fun _ _ => id
  · exact h.consumer.mono h.tail_mem (fun a ha m hm => (hne a ha).trans hm) (fun hs => ⟨hs, hnone _⟩)
      fun prev hab ha => ⟨hab, hnone _ ha⟩

/-! ### Producers -/

omit [DecidableEq α] in
theorem Missing.update {producer : Nat → EnqueueCall α} {consumer : DequeueCall α} {a b : QueueNode α}
    (h : Missing producer consumer a b) (c : EnqueueCall α) (hp : ∀ x, producer p ≠ .exchanged a x) :
    Missing (update producer p c) consumer a b := by
  rcases h with ⟨q, x, hq, hb⟩ | h
  · have hne : q ≠ p := by
      rintro rfl
      exact hp x hq
    exact .inl ⟨q, x, by rw [update_of_ne hne, hq], hb⟩
  · exact .inr h

namespace Inv

theorem enqueue (h : s.Inv chain reserved) (hp : s.producer p = .idle) (hx : x ∉ s.lent)
    (hc : s.count ≠ maxQueuedPackets) :
    Inv { s.setProducer p (.counted x) with count := s.count + 1, lent := x :: s.lent } chain (x :: reserved) := by
  have hbound : s.lent.length < maxQueuedPackets := by
    refine Nat.lt_of_le_of_ne h.accounts.bound fun heq => hc ?_
    rw [h.accounts.count, heq]
  refine ⟨⟨h.nodup, h.first, h.last, ?_, ?_, ?_, h.consumer⟩, ⟨h.accounts.fifo, ?_, ?_, ?_, hbound, h.accounts.peeked⟩⟩
  · refine h.linked.congr (fun _ _ => rfl) fun a b _ hm => hm.update _ fun y hy => ?_
    rw [hp] at hy
    cases hy
  · refine (forall_update_iff s.producer fun _ c => c.Ok s.next chain (x :: reserved)).mpr
      ⟨List.mem_cons_self, fun q _ => (h.producers q).mono (fun _ hn _ => hn) (fun _ _ hab _ => hab) ?_⟩
    exact fun _ _ => List.mem_cons_of_mem _
  · refine h.distinct.update p fun y hy q _ hq => ?_
    cases hy
    exact hx (h.mem_lent hq)
  · exact (h.accounts.lent.cons x).trans List.perm_middle.symm
  · exact List.nodup_cons.mpr ⟨hx, h.accounts.nodup⟩
  · rw [h.accounts.count]
    rfl

theorem clear (h : s.Inv chain reserved) (hp : s.producer p = .counted x) :
    Inv ((s.setNext (.skb x) none).setProducer p (.cleared x)) chain reserved := by
  have hx : x ∈ reserved := by
    have hok := h.producers p
    rwa [hp] at hok
  have hshape := h.toShape.clear (h.notMem_chain hx)
  refine ⟨⟨hshape.nodup, hshape.first, hshape.last, ?_, ?_, h.distinct.goOn (by rw [hp]; rfl), hshape.consumer⟩,
    h.accounts.of_eq rfl rfl rfl rfl⟩
  · refine hshape.linked.congr (fun _ _ => rfl) fun a b _ hm => hm.update _ fun y hy => ?_
    rw [show s.producer p = .exchanged a y from hy] at hp
    cases hp
  · exact (forall_update_iff s.producer fun _ c =>
      c.Ok (update s.next (.skb x) none) chain reserved).mpr
      ⟨⟨hx, update_self ..⟩, fun q _ => hshape.producers q⟩

theorem exchange (h : s.Inv chain reserved) (hp : s.producer p = .cleared x) :
    Inv { s.setProducer p (.exchanged s.head x) with
      head := .skb x
      history := s.history ++ [.put (.skb x)] } (chain ++ [.skb x]) (reserved.erase x) := by
  obtain ⟨hx, hnone⟩ : x ∈ reserved ∧ s.next (.skb x) = none := by
    have hok := h.producers p
    rwa [hp] at hok
  have helem : s.consumer.inFlight ++ elements (chain ++ [.skb x]) = s.consumer.inFlight ++ elements chain ++ [x] := by
    rw [List.append_assoc]
    exact congrArg _ List.filterMap_append
  have hlen : (s.consumer.inFlight ++ elements chain).length < maxQueuedPackets := by
    have hperm := h.accounts.lent.length_eq
    have hbound := h.accounts.bound
    have hpos := List.length_pos_of_mem hx
    rw [List.length_append] at hperm
    omega
  refine ⟨⟨?_, ?_, List.getLast?_concat, ?_, ?_, h.distinct.goOn (by rw [hp]; rfl), ?_⟩, ?_, ?_, h.accounts.nodup,
    h.accounts.count, h.accounts.bound, fun n hn => List.mem_append_left _ (h.accounts.peeked n hn)⟩
  · refine List.nodup_append.mpr ⟨h.nodup, List.nodup_singleton _, fun n hn m hm => ?_⟩
    rw [List.mem_singleton.mp hm]
    exact ne_of_mem_of_not_mem hn (h.notMem_chain hx)
  · rw [List.head?_append, h.first]
    rfl
  · refine (h.linked.congr (fun _ _ => rfl) fun a b _ hm => hm.update _ fun y hy => ?_).append h.last hnone
      (.inl ⟨p, x, update_self .., rfl⟩)
    rw [hp] at hy
    cases hy
  · refine (forall_update_iff s.producer fun _ (c : EnqueueCall α) =>
      c.Ok s.next (chain ++ [QueueNode.skb x]) (reserved.erase x)).mpr
      ⟨⟨.last h.last _, h.linked.next_last h.last⟩, fun q hq => (h.producers q).mono (fun _ hn _ => hn)
        (fun _ _ hab _ => hab.append _) fun y hy hmem => ?_⟩
    refine (List.mem_erase_of_ne fun hyx => hq ?_).mpr hmem
    exact h.distinct q p x (hyx ▸ hy) (by rw [hp]; rfl)
  · refine h.consumer.mono h.tail_mem (fun _ _ _ => id) (fun hs => ⟨fun hmem => ?_, id⟩) fun prev ha hn =>
      ⟨ha.append _, hn⟩
    rcases List.mem_append.mp hmem with hmem | hmem
    · exact hs hmem
    · cases List.mem_singleton.mp hmem
  · obtain ⟨hist, hmap, hrun⟩ := h.accounts.fifo
    refine ⟨hist ++ [.put x], by rw [hmap, List.map_append]; rfl, ?_⟩
    rw [run_append hrun, BoundedFifo.step, if_pos hlen, ← helem]
    rfl
  · refine h.accounts.lent.trans ?_
    show List.Perm _ (s.consumer.inFlight ++ elements (chain ++ [QueueNode.skb x]) ++ reserved.erase x)
    rw [helem, List.append_assoc _ [x]]
    exact (List.perm_cons_erase hx).append_left _

theorem link (h : s.Inv chain reserved) {prev : QueueNode α} (hp : s.producer p = .exchanged prev x) :
    Inv ((s.setNext prev (some (.skb x))).setProducer p .idle) chain reserved := by
  obtain ⟨hadj, hnone⟩ : Adjacent prev (.skb x) chain ∧ s.next prev = none := by
    have hok := h.producers p
    rwa [hp] at hok
  refine ⟨⟨h.nodup, h.first, h.last, ?_, ?_, h.distinct.update p (by rintro _ ⟨⟩), ?_⟩,
    h.accounts.of_eq rfl rfl rfl rfl⟩
  · refine h.linked.link hadj h.nodup fun c d _ hc hm => hm.update _ fun y hy => hc ?_
    rw [hp] at hy
    cases hy
    rfl
  · refine (forall_update_iff s.producer fun _ c =>
      c.Ok (update s.next prev (some (.skb x))) chain reserved).mpr ⟨trivial, fun q hq => ?_⟩
    refine (h.producers q).link hadj.mem_left (fun _ => h.notMem_chain) fun y hy => hq ?_
    have hok := h.producers q
    rw [hy] at hok
    -- Both would make the link to one packet.
    cases hok.1.right_unique hadj h.nodup
    exact h.distinct q p x (by rw [hy]; rfl) (by rw [hp]; rfl)
  · refine h.consumer.link hadj.mem_left hnone fun t ht => ?_
    have hok := h.consumer
    rw [ht] at hok
    cases hok.2.2.1.right_unique hadj h.nodup

end Inv

/-! ### The consumer -/

omit [DecidableEq α] in
theorem Missing.consumer {producer : Nat → EnqueueCall α} {c' : DequeueCall α} {a b : QueueNode α}
    (h : Missing producer c a b) (hc : ∀ t, c ≠ .linkStub t a) : Missing producer c' a b := by
  rcases h with h | ⟨t, ht, -⟩
  · exact .inl h
  · exact absurd ht (hc t)

omit [DecidableEq α] in
theorem eq_singleton {n : QueueNode α} (hl : chain.Nodup) (hf : chain.head? = some n) (hg : chain.getLast? = some n) :
    chain = [n] := by
  cases chain with
  | nil => cases hf
  | cons a l =>
    cases hf
    cases l with
    | nil => rfl
    | cons b l =>
      rw [List.getLast?_cons_cons] at hg
      exact absurd (List.mem_of_getLast? hg) (List.nodup_cons.mp hl).1

namespace Inv

theorem goto (h : s.Inv chain reserved) (hs : s.consumer.Quiet) (hq : c.Quiet)
    (hc : c.Ok s.next s.tail chain) : (s.goto c).Inv chain reserved := by
  refine ⟨⟨h.nodup, h.first, h.last, ?_, h.producers, h.distinct, hc⟩, ?_⟩
  · exact h.linked.congr (fun _ _ => rfl) fun a b _ hm => hm.consumer fun t => hs.ne_linkStub t a
  · have ha := h.accounts
    rw [hs.inFlight, ← hq.inFlight] at ha
    exact ha.of_eq rfl rfl rfl rfl

theorem retNone (h : s.Inv chain reserved) (hs : s.consumer.Quiet) : (s.ret none).Inv chain reserved := by
  have hg := h.goto (c := .idle) hs trivial trivial
  refine ⟨hg.toShape.of_eq rfl rfl rfl rfl rfl, ?_, hg.accounts.lent, hg.accounts.nodup, hg.accounts.count,
    hg.accounts.bound, fun n hn => List.mem_append_left _ ?_⟩
  · obtain ⟨hist, hmap, hrun⟩ := hg.accounts.fifo
    refine ⟨hist ++ [.null], ?_, run_append hrun .null⟩
    rw [List.map_append, ← hmap]
    rfl
  · simp only [ret] at hn
    split at hn
    · cases hn
    · exact h.accounts.peeked n hn

theorem moveTail (h : s.Inv chain reserved) {n : QueueNode α} (ht : t = s.tail)
    (hn : s.next t = some n) (hs : s.consumer.Quiet)
    (hc : ∀ l, (t :: n :: l).Nodup → c.Ok s.next n (n :: l) ∧
      c.inFlight ++ elements (n :: l) = elements (t :: n :: l)) :
    ∃ chain', Inv { s.goto c with tail := n } chain' reserved := by
  obtain ⟨l, rfl⟩ : ∃ l, chain = t :: n :: l := by
    have hfirst := h.first
    have hlinked := h.linked
    cases chain with
    | nil => cases hfirst
    | cons a l =>
      obtain rfl : a = t := (Option.some.inj hfirst).trans ht.symm
      obtain ⟨l', rfl⟩ := hlinked.next_first hn
      exact ⟨l', rfl⟩
  obtain ⟨hok, helem⟩ := hc l h.nodup
  refine ⟨n :: l, ⟨(List.nodup_cons.mp h.nodup).2, rfl, ?_, ?_, fun p => ?_, h.distinct, hok⟩, ?_⟩
  · exact List.getLast?_cons_cons.symm.trans h.last
  · exact h.linked.tail.congr (fun _ _ => rfl) fun a b _ hm => hm.consumer fun t => hs.ne_linkStub t a
  · refine (h.producers p).mono (fun _ ha _ => ha) (fun a b hab ha => hab.of_cons ?_) fun _ _ => id
    rintro rfl
    rw [hn] at ha
    cases ha
  · have ha := h.accounts
    rw [hs.inFlight, List.nil_append, ← helem] at ha
    exact ha.of_eq rfl rfl rfl rfl

theorem decrement (h : s.Inv chain reserved) (hc : s.consumer = .decrement t) :
    Inv { s.ret (some t) with count := s.count - 1, lent := giveBack s.lent t } chain reserved := by
  obtain ⟨x, rfl⟩ : ∃ x, t = .skb x := by
    have hok := h.consumer
    rw [hc] at hok
    cases t with
    | stub => exact absurd rfl hok
    | skb x => exact ⟨x, rfl⟩
  have ha : s.Accounts (x :: elements chain) reserved := by
    have ha := h.accounts
    rwa [hc] at ha
  have hx : x ∈ s.lent := ha.lent.mem_iff.mpr List.mem_cons_self
  refine ⟨⟨h.nodup, h.first, h.last, ?_, h.producers, h.distinct, trivial⟩, ?_, ?_, ha.nodup.erase x, ?_, ?_, ?_⟩
  · refine h.linked.congr (fun _ _ => rfl) fun a b _ hm => hm.consumer fun t => ?_
    rw [hc]
    rintro ⟨⟩
  · obtain ⟨hist, hmap, hrun⟩ := ha.fifo
    refine ⟨hist ++ [.take x], ?_, (run_append hrun (.take x)).trans (if_pos rfl)⟩
    rw [List.map_append, ← hmap]
    rfl
  · have hperm := ha.lent.erase x
    rwa [List.cons_append, List.erase_cons_head] at hperm
  · show s.count - 1 = ((s.lent.erase x).length : Int)
    have hpos := List.length_pos_of_mem hx
    rw [ha.count, List.length_erase_of_mem hx]
    omega
  · show (s.lent.erase x).length ≤ maxQueuedPackets
    exact Nat.le_trans List.length_erase_le ha.bound
  · intro n hn
    simp only [ret] at hn
    split at hn
    · cases hn
      exact List.mem_append_right _ List.mem_cons_self
    · exact List.mem_append_left _ (ha.peeked n hn)

theorem exchangeStub (h : s.Inv chain reserved) (hc : s.consumer = .exchangeStub t) :
    Inv { s.goto (.linkStub t s.head) with head := .stub } (chain ++ [.stub]) reserved := by
  obtain ⟨ht, hne, hstub, hnone⟩ : t = s.tail ∧ t ≠ .stub ∧ .stub ∉ chain ∧ s.next .stub = none := by
    have hok := h.consumer
    rwa [hc] at hok
  refine ⟨⟨?_, ?_, List.getLast?_concat, ?_, fun p => ?_, h.distinct, ?_⟩, ?_⟩
  · refine List.nodup_append.mpr ⟨h.nodup, List.nodup_singleton _, fun n hn m hm => ?_⟩
    rw [List.mem_singleton.mp hm]
    exact ne_of_mem_of_not_mem hn hstub
  · rw [List.head?_append, h.first]
    rfl
  · refine (h.linked.congr (fun _ _ => rfl) fun a b _ hm => hm.consumer fun t => ?_).append h.last hnone
      (.inr ⟨t, rfl, rfl⟩)
    rw [hc]
    rintro ⟨⟩
  · exact (h.producers p).mono (fun _ ha _ => ha) (fun _ _ hab _ => hab.append _) fun _ _ => id
  · exact ⟨ht, hne, .last h.last _, h.linked.next_last h.last⟩
  · have helem : elements (chain ++ [.stub]) = elements chain :=
      List.filterMap_append.trans (List.append_nil _)
    have ha := h.accounts
    rw [hc, ← helem] at ha
    exact ha.of_eq rfl rfl rfl rfl

theorem linkStub (h : s.Inv chain reserved) {prev : QueueNode α} (hc : s.consumer = .linkStub t prev) :
    Inv ((s.setNext prev (some .stub)).goto (.reload t)) chain reserved := by
  obtain ⟨ht, hne, hadj, hnone⟩ : t = s.tail ∧ t ≠ .stub ∧ Adjacent prev .stub chain ∧ s.next prev = none := by
    have hok := h.consumer
    rwa [hc] at hok
  refine ⟨⟨h.nodup, h.first, h.last, ?_, fun p => ?_, h.distinct, ht, hne⟩, ?_⟩
  · refine h.linked.link hadj h.nodup fun a b _ ha hm => hm.consumer fun t ht => ha ?_
    rw [hc] at ht
    cases ht
    rfl
  · refine (h.producers p).link hadj.mem_left (fun _ => h.notMem_chain) fun x hx => ?_
    have hok := h.producers p
    rw [hx] at hok
    cases hok.1.right_unique hadj h.nodup
  · have ha := h.accounts
    rw [hc] at ha
    exact ha.of_eq rfl rfl rfl rfl

theorem consume {s' : PrevQueue α} (h : s.Inv chain reserved) (hs : s.consume = some s') :
    ∃ chain' reserved', s'.Inv chain' reserved' := by
  have hok := h.consumer
  unfold PrevQueue.consume at hs
  cases hc : s.consumer with
  | idle => rw [hc] at hs; cases hs
  | load t =>
    rw [hc] at hs hok
    have hq : s.consumer.Quiet := by rw [hc]; trivial
    cases hn : s.next t with
    | none =>
      cases t with
      | stub => simp only [hn] at hs; cases hs; exact ⟨_, _, h.retNone hq⟩
      | skb x => simp only [hn] at hs; cases hs; exact ⟨_, _, h.goto hq trivial ⟨hok, by rintro ⟨⟩⟩⟩
    | some n =>
      cases t with
      | stub => simp only [hn] at hs; cases hs; exact ⟨_, _, h.goto hq trivial ⟨hok.symm, hn⟩⟩
      | skb x => simp only [hn] at hs; cases hs; exact ⟨_, _, h.goto hq trivial ⟨hok, by rintro ⟨⟩, hn⟩⟩
  | skipStub n =>
    rw [hc] at hs hok
    have hq : s.consumer.Quiet := by rw [hc]; trivial
    cases hs
    obtain ⟨chain', h'⟩ := h.moveTail hok.1.symm hok.2 hq (c := .loadPastStub n) fun l hl => by
      refine ⟨⟨rfl, ?_⟩, rfl⟩
      rintro rfl
      exact (List.nodup_cons.mp hl).1 List.mem_cons_self
    exact ⟨chain', _, h'⟩
  | loadPastStub t =>
    rw [hc] at hs hok
    have hq : s.consumer.Quiet := by rw [hc]; trivial
    cases hn : s.next t with
    | none => simp only [hn] at hs; cases hs; exact ⟨_, _, h.goto hq trivial hok⟩
    | some n => simp only [hn] at hs; cases hs; exact ⟨_, _, h.goto hq trivial ⟨hok.1, hok.2, hn⟩⟩
  | advance t n =>
    rw [hc] at hs hok
    have hq : s.consumer.Quiet := by rw [hc]; trivial
    cases hs
    obtain ⟨chain', h'⟩ := h.moveTail hok.1 hok.2.2 hq (c := .decrement t) fun l _ => by
      refine ⟨hok.2.1, ?_⟩
      cases t with
      | stub => exact absurd rfl hok.2.1
      | skb x => rfl
    exact ⟨chain', _, h'⟩
  | decrement t => rw [hc] at hs; cases hs; exact ⟨_, _, h.decrement hc⟩
  | readHead t =>
    rw [hc] at hs hok
    have hq : s.consumer.Quiet := by rw [hc]; trivial
    simp only at hs
    split_ifs at hs with hhead <;> cases hs
    · exact ⟨_, _, h.retNone hq⟩
    · -- `tail` is the last node, so it is the only one.
      have hsingle : chain = [t] := eq_singleton h.nodup (by rw [h.first, hok.1]) (by rw [h.last, not_ne_iff.mp hhead])
      refine ⟨_, _, h.goto hq trivial ⟨hok.1, hok.2, ?_⟩⟩
      rw [hsingle]
      exact fun hmem => hok.2 (List.mem_singleton.mp hmem).symm
  | clearStub t =>
    rw [hc] at hs hok
    cases hs
    have hshape := h.toShape.clear hok.2.2
    have h' : (s.setNext .stub none).Inv chain reserved := ⟨hshape, h.accounts.of_eq rfl rfl rfl rfl⟩
    have hq : (s.setNext .stub none).consumer.Quiet := by
      rw [show (s.setNext .stub none).consumer = .clearStub t from hc]
      trivial
    have hclear : (s.setNext .stub none).next .stub = none := by simp only [setNext, update_self]
    exact ⟨_, _, h'.goto (c := .exchangeStub t) hq trivial ⟨hok.1, hok.2.1, hok.2.2, hclear⟩⟩
  | exchangeStub t => rw [hc] at hs; cases hs; exact ⟨_, _, h.exchangeStub hc⟩
  | linkStub t prev => rw [hc] at hs; cases hs; exact ⟨_, _, h.linkStub hc⟩
  | reload t =>
    rw [hc] at hs hok
    have hq : s.consumer.Quiet := by rw [hc]; trivial
    cases hn : s.next t with
    | none => simp only [hn] at hs; cases hs; exact ⟨_, _, h.retNone hq⟩
    | some n => simp only [hn] at hs; cases hs; exact ⟨_, _, h.goto hq trivial ⟨hok.1, hok.2, hn⟩⟩

theorem produce {s' : PrevQueue α} (h : s.Inv chain reserved) (hs : s.produce p = some s') :
    ∃ chain' reserved', s'.Inv chain' reserved' := by
  unfold PrevQueue.produce at hs
  cases hp : s.producer p with
  | idle => rw [hp] at hs; cases hs
  | counted x => rw [hp] at hs; cases hs; exact ⟨_, _, h.clear hp⟩
  | cleared x => rw [hp] at hs; cases hs; exact ⟨_, _, h.exchange hp⟩
  | exchanged prev x => rw [hp] at hs; cases hs; exact ⟨_, _, h.link hp⟩

theorem start (h : s.Inv chain reserved) (hc : s.consumer = .idle) (peeking : Bool) :
    Inv { s.goto (.load s.tail) with peeking } chain reserved := by
  have hg := h.goto (c := .load s.tail) (by rw [hc]; trivial) trivial rfl
  exact ⟨hg.toShape.of_eq rfl rfl rfl rfl rfl, hg.accounts.of_eq rfl rfl rfl rfl⟩

theorem step {s' : PrevQueue α} {ev : PrevQueueEvent α} (h : s.Inv chain reserved) (hs : s.step ev = some s') :
    ∃ chain' reserved', s'.Inv chain' reserved' := by
  cases ev with
  | enqueue p x =>
    simp only [PrevQueue.step] at hs
    split at hs
    · split at hs
      · cases hs
      split at hs <;> cases hs
      · exact ⟨_, _, h⟩
      · exact ⟨_, _, h.enqueue ‹_› ‹_› ‹_›⟩
    · cases hs
  | produce p => exact h.produce hs
  | dequeue =>
    simp only [PrevQueue.step] at hs
    split at hs <;> cases hs
    exact ⟨_, _, h.start ‹_› false⟩
  | peek =>
    simp only [PrevQueue.step] at hs
    split at hs
    · split at hs <;> cases hs
      · exact ⟨_, _, h⟩
      · exact ⟨_, _, h.start ‹_› true⟩
    · cases hs
  | dropPeeked =>
    simp only [PrevQueue.step] at hs
    split at hs <;> cases hs
    exact ⟨_, _, h.toShape.of_eq rfl rfl rfl rfl rfl, h.accounts.fifo, h.accounts.lent, h.accounts.nodup,
      h.accounts.count, h.accounts.bound, by rintro _ ⟨⟩⟩
  | consume => exact h.consume hs

theorem init : (PrevQueue.init : PrevQueue α).Inv [.stub] [] where
  nodup := List.nodup_singleton _
  first := rfl
  last := rfl
  linked := rfl
  producers _ := trivial
  distinct := by rintro _ _ _ ⟨⟩
  consumer := trivial
  accounts := ⟨⟨[], rfl, rfl⟩, .refl _, List.nodup_nil, rfl, Nat.zero_le _, by rintro _ ⟨⟩⟩

end Inv

end PrevQueue

end WireguardAes
