import WireguardAes.PrevQueue

/-!
# The queue of a peer's packets is a bounded FIFO

`PrevQueue` has the invariant that every access keeps. Here it is put together with what a consumer
gets out of the queue when it is left alone: a packet comes out once the links up to it and the link
from it have been made. The link from it is the next packet's: the queue never gives away its last
node, so that a producer stuck before its link store holds up the packet before its own.
-/

namespace WireguardAes

open Runs BoundedFifo LinkedChain

/-- The calls of the consumer. -/
def PrevQueueEvent.byConsumer {α : Type} : PrevQueueEvent α → Bool
  | .enqueue _ _ => false
  | .produce _ => false
  | _ => true

namespace PrevQueue

variable {α : Type} [DecidableEq α] {s s' : PrevQueue α} {chain : List (QueueNode α)} {reserved : List α}
variable {x : α}

/-- Only the consumer takes steps. -/
abbrev Alone (s s' : PrevQueue α) : Prop := Exec step (fun _ ev => ev.byConsumer = true) s s'

omit [DecidableEq α] in
/-- The producer of the packet is not between its exchange and its link store. -/
def Finished (s : PrevQueue α) (x : α) : Prop := ∀ p prev, s.producer p ≠ .exchanged prev x

/-- Left alone, the consumer ends its dequeue and returns the node. -/
def Retrieves (s : PrevQueue α) (t : QueueNode α) : Prop :=
  ∃ s', Alone s s' ∧ s'.consumer = .idle ∧ s'.producer = s.producer ∧ s'.history = s.history ++ [.take t]

/-! ### A consumer that is left alone -/

namespace Retrieves

variable {t n : QueueNode α}

theorem of_step {ev : PrevQueueEvent α} (h : s'.Retrieves t) (hs : s.step ev = some s')
    (hev : ev.byConsumer = true) (hp : s'.producer = s.producer) (hh : s'.history = s.history) : s.Retrieves t := by
  obtain ⟨u, hu, hidle, hpu, hhu⟩ := h
  exact ⟨u, ((Exec.refl s).tail hev hs).trans hu, hidle, hpu.trans hp, by rw [hhu, hh]⟩

theorem of_consume (h : s'.Retrieves t) (hs : s.consume = some s') (hp : s'.producer = s.producer)
    (hh : s'.history = s.history) : s.Retrieves t := by
  have hs : s.step .consume = some s' := hs
  exact h.of_step hs rfl hp hh

theorem decrement (hc : s.consumer = .decrement t) : s.Retrieves t := by
  have hs : s.step .consume =
      some { s.ret (some t) with count := s.count - 1, lent := giveBack s.lent t } := by
    simp only [PrevQueue.step, consume, hc]
  exact ⟨_, (Exec.refl s).tail rfl hs, rfl, rfl, rfl⟩

theorem advance (hc : s.consumer = .advance t n) : s.Retrieves t := by
  have h : Retrieves { s.goto (.decrement t) with tail := n } t := .decrement rfl
  exact h.of_consume (by simp only [consume, hc]) rfl rfl

theorem readHead (hc : s.consumer = .readHead t) (hhead : s.head = t) : s.Retrieves t := by
  let s₁ := s.goto (.clearStub t)
  let s₂ := (s₁.setNext .stub none).goto (.exchangeStub t)
  let s₃ := { s₂.goto (.linkStub t t) with head := QueueNode.stub }
  let s₄ := (s₃.setNext t (some .stub)).goto (.reload t)
  have h₄ : s₄.Retrieves t := by
    have hn : s₄.next t = some .stub := by simp only [s₄, setNext, PrevQueue.goto, Function.update_self]
    have h₅ : (s₄.goto (.advance t .stub)).Retrieves t := .advance rfl
    refine h₅.of_consume ?_ rfl rfl
    simp only [consume, show s₄.consumer = .reload t from rfl, hn]
  have h₃ : s₃.Retrieves t := h₄.of_consume rfl rfl rfl
  have h₂ : s₂.Retrieves t := h₃.of_consume (by simp only [consume, s₂, PrevQueue.goto, setNext, s₁, hhead, s₃]) rfl rfl
  have h₁ : s₁.Retrieves t := h₂.of_consume rfl rfl rfl
  refine h₁.of_consume ?_ rfl rfl
  simp only [consume, hc, hhead, ne_eq, not_true_eq_false, if_false, s₁]

theorem load {x : α} (hc : s.consumer = .load (.skb x) ∨ s.consumer = .loadPastStub (.skb x))
    (hx : (∃ n, s.next (.skb x) = some n) ∨ (s.next (.skb x) = none ∧ s.head = .skb x)) : s.Retrieves (.skb x) := by
  rcases hx with ⟨n, hn⟩ | ⟨hn, hhead⟩
  · have h : (s.goto (.advance (.skb x) n)).Retrieves (.skb x) := .advance rfl
    refine h.of_consume ?_ rfl rfl
    rcases hc with hc | hc <;> simp only [consume, hc, hn]
  · have h : (s.goto (.readHead (.skb x))).Retrieves (.skb x) := .readHead rfl hhead
    refine h.of_consume ?_ rfl rfl
    rcases hc with hc | hc <;> simp only [consume, hc, hn]

theorem loadStub {x : α} (hc : s.consumer = .load .stub) (hn : s.next .stub = some (.skb x))
    (hx : (∃ n, s.next (.skb x) = some n) ∨ (s.next (.skb x) = none ∧ s.head = .skb x)) : s.Retrieves (.skb x) := by
  have hload : Retrieves { s.goto (.loadPastStub (.skb x)) with tail := .skb x } (.skb x) := .load (.inr rfl) hx
  have hskip : (s.goto (.skipStub (.skb x))).Retrieves (.skb x) := hload.of_consume rfl rfl rfl
  exact hskip.of_consume (by simp only [consume, hc, hn]) rfl rfl

end Retrieves

omit [DecidableEq α] in
theorem not_missing_idle (hc : s.consumer = .idle) {a b : QueueNode α} (hb : ∀ x, b = .skb x → s.Finished x) :
    ¬ Missing s.producer s.consumer a b := by
  rintro (⟨p, x, hp, hx⟩ | ⟨t, ht, -⟩)
  · exact hb x hx p a hp
  · rw [hc] at ht
    cases ht

omit [DecidableEq α] in
/-- The first packet can be returned if the one after it has been linked. -/
theorem linkable {l : List (QueueNode α)} (hc : s.consumer = .idle)
    (hl : Linked s.next (Missing s.producer s.consumer) (.skb x :: l))
    (hlast : (QueueNode.skb x :: l).getLast? = some s.head)
    (hnext : ∀ y ∈ (elements l).head?, s.Finished y) :
    (∃ n, s.next (.skb x) = some n) ∨ (s.next (.skb x) = none ∧ s.head = .skb x) := by
  cases l with
  | nil =>
    exact .inr ⟨hl, (Option.some.inj hlast).symm⟩
  | cons b l =>
    refine .inl ⟨b, hl.1.resolve_right fun hm => not_missing_idle hc (fun y hy => hnext y ?_) hm.2⟩
    subst hy
    rfl

/-- Left alone, an idle consumer gets the first packet if its producer and that of the next one have
finished. -/
theorem Inv.retrieves (h : s.Inv chain reserved) (hc : s.consumer = .idle) {q : List α}
    (hq : elements chain = x :: q) (hx : s.Finished x) (hnext : ∀ y ∈ q.head?, s.Finished y) :
    s.Retrieves (.skb x) := by
  have hfirst := h.first
  have hlast := h.last
  have hlinked := h.linked
  cases chain with
  | nil => cases hfirst
  | cons t l =>
    have ht : s.tail = t := (Option.some.inj hfirst).symm
    have hstart : s.step .dequeue = some { s.goto (.load s.tail) with peeking := false } := by
      simp only [PrevQueue.step, hc]
    refine Retrieves.of_step ?_ hstart rfl rfl rfl
    cases t with
    | skb y =>
      obtain ⟨rfl, rfl⟩ : y = x ∧ elements l = q := List.cons.inj hq
      have hlinkable := linkable hc hlinked hlast hnext
      exact .load (.inl (congrArg _ ht)) hlinkable
    | stub =>
      -- The list is the stub and then the packet.
      cases l with
      | nil => cases hq
      | cons b l =>
        cases b with
        | stub => exact absurd List.mem_cons_self (List.nodup_cons.mp h.nodup).1
        | skb y =>
          obtain ⟨rfl, rfl⟩ : y = x ∧ elements l = q := List.cons.inj hq
          have hn : s.next .stub = some (.skb y) := hlinked.1.resolve_right fun hm =>
            not_missing_idle hc (fun z hz => by cases hz; exact hx) hm.2
          rw [List.getLast?_cons_cons] at hlast
          have hlinkable := linkable hc hlinked.2 hlast hnext
          exact .loadStub (congrArg _ ht) hn hlinkable

theorem exists_inv (h : ∃ chain reserved, s.Inv chain reserved) {ok : PrevQueue α → PrevQueueEvent α → Prop}
    (hrun : Exec step ok s s') : ∃ chain reserved, s'.Inv chain reserved :=
  hrun.inv (I := fun s => ∃ chain reserved, s.Inv chain reserved) h fun _ _ _ _ ⟨_, _, h⟩ hs => h.step hs

omit [DecidableEq α] in
theorem skb_injective : Function.Injective (QueueNode.skb (α := α)) := fun _ _ h => QueueNode.skb.inj h

theorem Inv.fifo_idle (h : s.Inv chain reserved) (hc : s.consumer = .idle) :
    ∃ hist : List (Action α), s.history = hist.map (.map .skb) ∧ run maxQueuedPackets [] hist = some
      (elements chain) := by
  have hfifo := h.accounts.fifo
  rwa [hc] at hfifo

theorem Inv.elements_take {chain' : List (QueueNode α)} {reserved' : List α} {q : List α}
    (h : s.Inv chain reserved) (h' : s'.Inv chain' reserved') (hc : s.consumer = .idle) (hc' : s'.consumer = .idle)
    (hq : elements chain = x :: q) (hhist : s'.history = s.history ++ [.take (.skb x)]) : elements chain' = q := by
  obtain ⟨hist, hmap, hrun⟩ := h.fifo_idle hc
  obtain ⟨hist', hmap', hrun'⟩ := h'.fifo_idle hc'
  have heq : hist' = hist ++ [.take x] := by
    refine List.map_injective_iff.mpr (Action.map_injective skb_injective) ?_
    rw [← hmap', hhist, hmap, List.map_append]
    rfl
  rw [heq, run_append hrun, hq] at hrun'
  exact Option.some.inj (hrun'.symm.trans (if_pos rfl))

theorem Inv.drain (h : s.Inv chain reserved) (hc : s.consumer = .idle) {l r : List α}
    (hq : elements chain = l ++ x :: r) (hf : ∀ y ∈ l ++ x :: r.head?.toList, s.Finished y) :
    ∃ s', Alone s s' ∧ takes s'.history = takes s.history ++ (l ++ [x]).map .skb := by
  induction l generalizing s chain reserved with
  | nil =>
    obtain ⟨s', hs', -, -, hhist⟩ := h.retrieves hc hq (hf x List.mem_cons_self) fun y hy =>
      hf y (List.mem_cons_of_mem _ (Option.mem_toList.mpr hy))
    refine ⟨s', hs', ?_⟩
    rw [hhist, takes, List.filterMap_append]
    rfl
  | cons a l ih =>
    have hnext : ∀ y ∈ (l ++ x :: r).head?, s.Finished y := by
      intro y hy
      refine hf y (List.mem_cons_of_mem _ ?_)
      cases l with
      | nil => cases hy; exact List.mem_cons_self
      | cons b l => cases hy; exact List.mem_cons_self
    obtain ⟨s₁, hs₁, hidle, hprod, hhist⟩ := h.retrieves hc hq (hf a List.mem_cons_self) hnext
    obtain ⟨chain₁, reserved₁, h₁⟩ := exists_inv ⟨_, _, h⟩ hs₁
    have hq₁ : elements chain₁ = l ++ x :: r := h.elements_take h₁ hc hidle hq hhist
    obtain ⟨s₂, hs₂, htakes⟩ := ih h₁ hidle hq₁ fun y hy p prev => by
      rw [hprod]
      exact hf y (List.mem_cons_of_mem _ hy) p prev
    refine ⟨s₂, hs₁.trans hs₂, ?_⟩
    rw [htakes, hhist, takes, List.filterMap_append, List.append_assoc]
    rfl

/-- The producer of the first packet has finished: its link is the one along which `tail` has
moved. -/
theorem finished_tail {ok : PrevQueue α → PrevQueueEvent α → Prop} (hrun : Exec step ok init s)
    (ht : s.tail = .skb x) : s.Finished x := by
  obtain ⟨chain, reserved, h⟩ := exists_inv ⟨_, _, Inv.init⟩ hrun
  intro p prev hp
  have hok := h.producers p
  rw [hp] at hok
  have hfirst := h.first
  have hnodup := h.nodup
  cases chain with
  | nil => cases hfirst
  | cons a l =>
    obtain rfl : a = .skb x := (Option.some.inj hfirst).trans ht
    exact (List.nodup_cons.mp hnodup).1 hok.1.mem_tail

/-- For any number of producers and one consumer, after any interleaving of their accesses: what the
consumer has been given is what a bounded FIFO gives that is filled in the order of the exchanges on
`head`, and what is not given out yet is in the list, or in the hands of the dequeue that is about
to return it; the stub is never given out and is in the list at most once; `count` is at most
`MAX_QUEUED_PACKETS` and at least the number of packets not given out yet. An idle consumer,
whatever its last dequeue returned, gets a packet by itself once its producer, those of the packets
before it and that of the packet after it have finished linking. -/
theorem refines_boundedFifo (s : PrevQueue α) (hrun : Exec step (fun _ _ => True) init s) :
    ∃ (hist : List (Action α)) (chain : List (QueueNode α)), s.history = hist.map (.map .skb) ∧
      run maxQueuedPackets [] hist = some (s.consumer.inFlight ++ elements chain) ∧
      puts hist = takes hist ++ (s.consumer.inFlight ++ elements chain) ∧
      (∀ n ∈ s.peeked, Action.take n ∈ s.history) ∧
      chain.head? = some s.tail ∧ chain.getLast? = some s.head ∧
      Linked s.next (Missing s.producer s.consumer) chain ∧ chain.count .stub ≤ 1 ∧
      s.count ≤ maxQueuedPackets ∧ (s.consumer.inFlight ++ elements chain).length ≤ s.count ∧
      (s.consumer = .idle → ∀ l x r, elements chain = l ++ x :: r →
        (∀ y ∈ l ++ x :: r.head?.toList, s.Finished y) →
        ∃ s', Alone s s' ∧ takes s'.history = takes s.history ++ (l ++ [x]).map .skb) := by
  obtain ⟨chain, reserved, h⟩ := exists_inv ⟨_, _, Inv.init⟩ hrun
  obtain ⟨hist, hmap, hfifo⟩ := h.accounts.fifo
  have hlen := h.accounts.lent.length_eq
  rw [List.length_append] at hlen
  refine ⟨hist, chain, hmap, hfifo, puts_eq hfifo, h.accounts.peeked, h.first, h.last, h.linked,
    List.nodup_iff_count_le_one.mp h.nodup _, ?_, ?_, fun hc l x r => h.drain hc⟩
  · rw [h.accounts.count]
    exact Int.ofNat_le.mpr h.accounts.bound
  · rw [h.accounts.count, hlen]
    exact Int.ofNat_le.mpr (Nat.le_add_right ..)

/-- One packet is enqueued, a second one is exchanged but not linked, and a dequeue returns none. -/
def unlinkedSecond : List (PrevQueueEvent Nat) :=
  [.enqueue 0 0, .produce 0, .produce 0, .produce 0, .enqueue 1 1, .produce 1, .produce 1,
    .dequeue, .consume, .consume, .consume, .consume]

/-- The second one is linked, and the first one comes out. -/
def linkedSecond : List (PrevQueueEvent Nat) :=
  unlinkedSecond ++ [.produce 1, .dequeue, .consume, .consume, .consume]

theorem refines_boundedFifo_linkedSecond : ∃ s : PrevQueue Nat, Exec step (fun _ _ => True) init s ∧
    s.history = [.put (.skb 0), .put (.skb 1), .null, .take (.skb 0)] ∧ s.count = 1 ∧
    ∃ s', Alone s s' ∧ takes s'.history = [.skb 0, .skb 1] := by
  have hrun : ∃ s : PrevQueue Nat, Exec step (fun _ _ => True) init s ∧
      s.history = [.put (.skb 0), .put (.skb 1), .null, .take (.skb 0)] ∧ s.count = 1 ∧ s.consumer = .idle ∧
      s.tail = .skb 1 := ⟨_, .of_foldlM linkedSecond rfl, rfl, rfl, rfl, rfl⟩
  obtain ⟨s, hrun, hhist, hcount, hc, ht⟩ := hrun
  obtain ⟨hist, chain, hmap, hfifo, -, -, -, -, -, -, -, -, hdrain⟩ := refines_boundedFifo s hrun
  have heq : hist = [.put 0, .put 1, .null, .take 0] :=
    List.map_injective_iff.mpr (Action.map_injective skb_injective) (hmap.symm.trans hhist)
  rw [heq, hc] at hfifo
  obtain ⟨s', hs', htakes⟩ := hdrain hc [] 1 [] (Option.some.inj hfifo).symm fun y hy => by
    rw [List.mem_singleton.mp hy]
    exact finished_tail hrun ht
  refine ⟨s, hrun, hhist, hcount, s', hs', ?_⟩
  rw [htakes, hhist]
  rfl

/-! ### A packet that is held up -/

/-- The consumer is at a node behind which another one has been exchanged but not linked. -/
structure HeldUp (n : QueueNode α) (s : PrevQueue α) : Prop where
  tail : s.tail = n
  next : s.next n = none
  head : s.head ≠ n
  consumer : s.consumer = .idle ∨ s.consumer = .load n ∨ s.consumer = .readHead n

namespace HeldUp
variable {n : QueueNode α}

omit [DecidableEq α] in
theorem ret (h : s.HeldUp n) : (s.ret none).HeldUp n ∧ takes (s.ret none).history = takes s.history := by
  refine ⟨⟨h.tail, h.next, h.head, .inl rfl⟩, ?_⟩
  rw [PrevQueue.ret, takes, List.filterMap_append]
  exact List.append_nil _

theorem step {ev : PrevQueueEvent α} (h : s.HeldUp n) (hev : ev.byConsumer = true) (hs : s.step ev = some s') :
    s'.HeldUp n ∧ takes s'.history = takes s.history := by
  have hstart : ∀ b, HeldUp n { s.goto (.load s.tail) with peeking := b } := fun b =>
    ⟨h.tail, h.next, h.head, .inr (.inl (congrArg _ h.tail))⟩
  cases ev with
  | enqueue p y => cases hev
  | produce p => cases hev
  | dequeue =>
    simp only [PrevQueue.step] at hs
    split at hs <;> cases hs
    exact ⟨hstart false, rfl⟩
  | peek =>
    simp only [PrevQueue.step] at hs
    split at hs
    · split at hs <;> cases hs
      · exact ⟨h, rfl⟩
      · exact ⟨hstart true, rfl⟩
    · cases hs
  | dropPeeked =>
    simp only [PrevQueue.step] at hs
    split at hs <;> cases hs
    exact ⟨⟨h.tail, h.next, h.head, h.consumer⟩, rfl⟩
  | consume =>
    simp only [PrevQueue.step, consume] at hs
    rcases h.consumer with hc | hc | hc
    · rw [hc] at hs
      cases hs
    · simp only [hc, h.next] at hs
      cases n with
      | stub =>
        cases hs
        exact h.ret
      | skb x =>
        cases hs
        exact ⟨⟨h.tail, h.next, h.head, .inr (.inr rfl)⟩, rfl⟩
    · simp only [hc, ne_eq, h.head.symm, not_false_eq_true, if_true] at hs
      cases hs
      exact h.ret

/-- However often the consumer tries by itself, it gets nothing. -/
theorem not_taken (h : s.HeldUp n) {m : QueueNode α} (hm : m ∉ takes s.history) (hrun : Alone s s') :
    Action.take m ∉ s'.history := by
  have hinv : s'.HeldUp n ∧ takes s'.history = takes s.history := by
    refine hrun.inv (I := fun u => u.HeldUp n ∧ takes u.history = takes s.history) ⟨h, rfl⟩ fun t ev u hev ht hs => ?_
    obtain ⟨hu, htakes⟩ := ht.1.step hev hs
    exact ⟨hu, htakes.trans ht.2⟩
  intro hmem
  refine hm ?_
  rw [← hinv.2]
  exact List.mem_filterMap.mpr ⟨_, hmem, rfl⟩

end HeldUp

/-- One packet is exchanged but not linked, a second one is enqueued behind it, and a dequeue
returns none. -/
def unlinkedFirst : List (PrevQueueEvent Nat) :=
  [.enqueue 0 0, .produce 0, .produce 0, .enqueue 1 1, .produce 1, .produce 1, .produce 1, .dequeue, .consume]

/-- The producer of a packet has finished linking and the packet cannot be retrieved, since the
packet right after it has not been linked, or one before it. -/
theorem unlinkedSecond_holds_up_first :
    (∃ s : PrevQueue Nat, Exec step (fun _ _ => True) init s ∧
      s.history = [.put (.skb 0), .put (.skb 1), .null] ∧ s.consumer = .idle ∧ s.Finished 0 ∧
      ∀ s', Alone s s' → Action.take (.skb 0) ∉ s'.history) ∧
    ∃ s : PrevQueue Nat, Exec step (fun _ _ => True) init s ∧
      s.history = [.put (.skb 0), .put (.skb 1), .null] ∧ s.consumer = .idle ∧ s.Finished 1 ∧
      ∀ s', Alone s s' → Action.take (.skb 1) ∉ s'.history := by
  have hsecond : ∃ s : PrevQueue Nat, Exec step (fun _ _ => True) init s ∧
      s.history = [.put (.skb 0), .put (.skb 1), .null] ∧ s.consumer = .idle ∧ s.HeldUp (.skb 0) :=
    ⟨_, .of_foldlM unlinkedSecond rfl, rfl, rfl, rfl, rfl, by rintro ⟨⟩, .inl rfl⟩
  have hfirst : ∃ s : PrevQueue Nat, Exec step (fun _ _ => True) init s ∧
      s.history = [.put (.skb 0), .put (.skb 1), .null] ∧ s.consumer = .idle ∧ s.Finished 1 ∧ s.HeldUp .stub := by
    refine ⟨_, .of_foldlM unlinkedFirst rfl, rfl, rfl, fun p prev => ?_, rfl, rfl, by rintro ⟨⟩, .inl rfl⟩
    rcases p with _ | _ | p <;> rintro ⟨⟩
  refine ⟨?_, ?_⟩
  · obtain ⟨s, hrun, hhist, hc, hheld⟩ := hsecond
    exact ⟨s, hrun, hhist, hc, finished_tail hrun hheld.tail, fun s' => hheld.not_taken (by rw [hhist]; rintro ⟨⟩)⟩
  · obtain ⟨s, hrun, hhist, hc, hfinished, hheld⟩ := hfirst
    exact ⟨s, hrun, hhist, hc, hfinished, fun s' => hheld.not_taken (by rw [hhist]; rintro ⟨⟩)⟩

end PrevQueue

end WireguardAes
