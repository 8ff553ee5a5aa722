import Mathlib.Data.List.Basic
import Mathlib.Order.Basic
import Mathlib.Algebra.Order.Ring.Nat
import Mathlib.Tactic.Linarith

/-!
# Token buckets

A bucket gains one token for each unit of time, up to `cap`, and a request that finds `cost` tokens
is granted and takes them. The bucket remembers the time of the last request, granted or not. The
tokens that it holds are the credit that bounds what can be granted: over any stretch of requests,
what was spent is covered by the tokens at its start and by the time that has passed (`spent_le`). A
bucket that has had the time to fill up is as good as a new one (`take_of_full`).
-/

structure TokenBucket where
  last : Nat
  tokens : Nat
deriving DecidableEq

namespace TokenBucket

/-- A new bucket. -/
def full (cap now : Nat) : TokenBucket := ⟨now, cap⟩

def refilled (cap : Nat) (b : TokenBucket) (now : Nat) : Nat := min cap (b.tokens + (now - b.last))

/-- A request: whether it is granted, and the bucket after it. -/
def take (cap cost : Nat) (b : TokenBucket) (now : Nat) : Bool × TokenBucket :=
  if cost ≤ b.refilled cap now then (true, ⟨now, b.refilled cap now - cost⟩) else (false, ⟨now, b.refilled cap now⟩)

/-- The answers to requests at the given times. -/
def answers (cap cost : Nat) : TokenBucket → List Nat → List Bool
  | _, [] => []
  | b, now :: rest => (b.take cap cost now).1 :: answers cap cost (b.take cap cost now).2 rest

/-- The bucket after requests at the given times. -/
def after (cap cost : Nat) (b : TokenBucket) (times : List Nat) : TokenBucket :=
  times.foldl (fun b now => (b.take cap cost now).2) b

variable {cap cost : Nat} {b : TokenBucket} {now : Nat} {times : List Nat}

theorem last_take (cap cost : Nat) (b : TokenBucket) (now : Nat) : (b.take cap cost now).2.last = now := by
  unfold take
  split <;> rfl

/-- What a request spends, with the tokens that it leaves, is what it finds. -/
theorem spent_take (cap cost : Nat) (b : TokenBucket) (now : Nat) :
    (b.take cap cost now).1.toNat * cost + (b.take cap cost now).2.tokens = b.refilled cap now := by
  unfold take
  split_ifs with h
  · simp only [Bool.toNat_true, one_mul]
    omega
  · simp only [Bool.toNat_false, zero_mul, zero_add]

theorem refilled_le_cap (cap : Nat) (b : TokenBucket) (now : Nat) : b.refilled cap now ≤ cap := Nat.min_le_left ..

theorem refilled_le (cap : Nat) (b : TokenBucket) (now : Nat) :
    b.refilled cap now ≤ b.tokens + (now - b.last) := Nat.min_le_right ..

theorem tokens_take_le (cap cost : Nat) (b : TokenBucket) (now : Nat) : (b.take cap cost now).2.tokens ≤ cap := by
  have h := spent_take cap cost b now
  have hcap := refilled_le_cap cap b now
  omega

theorem granted_iff : (b.take cap cost now).1 = true ↔ cost ≤ cap ∧ cost ≤ b.tokens + (now - b.last) := by
  unfold take refilled
  rw [← le_min_iff]
  split <;> simp_all

/-- Requests in the order of time, none of them before the last request to the bucket. -/
def InOrder (b : TokenBucket) (times : List Nat) : Prop := (b.last :: times).Pairwise (· ≤ ·)

theorem InOrder.head (h : InOrder b (now :: times)) : b.last ≤ now :=
  (List.pairwise_cons.mp h).1 now List.mem_cons_self

theorem InOrder.tail (cap cost : Nat) (h : InOrder b (now :: times)) : InOrder (b.take cap cost now).2 times := by
  unfold InOrder
  rw [last_take]
  exact (List.pairwise_cons.mp h).2

theorem InOrder.last_le (cap cost : Nat) (h : InOrder b times) : b.last ≤ (b.after cap cost times).last := by
  induction times generalizing b with
  | nil => exact le_rfl
  | cons now rest ih =>
    have hrest := ih (h.tail cap cost)
    rw [last_take] at hrest
    exact h.head.trans hrest

/-- What is spent is covered by the tokens at the start and the time that has passed. -/
theorem spent_le (cap cost : Nat) (h : InOrder b times) :
    (b.answers cap cost times).count true * cost + (b.after cap cost times).tokens ≤
      b.tokens + ((b.after cap cost times).last - b.last) := by
  induction times generalizing b with
  | nil => simp [answers, after]
  | cons now rest ih =>
    have hrest := ih (h.tail cap cost)
    have hstep := spent_take cap cost b now
    have hgain := refilled_le cap b now
    have hlast := (h.tail cap cost).last_le cap cost
    have hhead := h.head
    have hcount : (b.answers cap cost (now :: rest)).count true =
        ((b.take cap cost now).2.answers cap cost rest).count true + (b.take cap cost now).1.toNat := by
      rw [answers, List.count_cons]
      rcases (b.take cap cost now).1 with _ | _ <;> rfl
    rw [last_take] at hrest hlast
    show _ * cost + ((b.take cap cost now).2.after cap cost rest).tokens ≤
      b.tokens + (((b.take cap cost now).2.after cap cost rest).last - b.last)
    rw [hcount, add_mul]
    omega

/-- The requests from the one at `now` on: whatever the bucket held before, it had at most `cap`
tokens then. -/
theorem window_le (cap cost : Nat) (h : InOrder b (now :: times)) :
    (b.answers cap cost (now :: times)).count true * cost ≤
      cap + ((b.after cap cost (now :: times)).last - now) := by
  have hrest := spent_le cap cost (h.tail cap cost)
  have hstep := spent_take cap cost b now
  have hcap := refilled_le_cap cap b now
  rw [last_take] at hrest
  show _ ≤ cap + (((b.take cap cost now).2.after cap cost times).last - now)
  rw [answers, List.count_cons]
  rcases hg : (b.take cap cost now).1 with _ | _
  · rw [hg] at hstep
    simp only [Bool.toNat_false, zero_mul, zero_add] at hstep
    simp only [beq_iff_eq, Bool.false_eq_true, if_false, Nat.add_zero]
    omega
  · rw [hg] at hstep
    simp only [Bool.toNat_true, one_mul] at hstep
    simp only [BEq.rfl, if_true, add_mul, one_mul]
    omega

/-- As long as there are tokens for all of them, requests are granted, whatever the time between
them. -/
theorem answers_of_tokens (hcap : cost ≤ cap) (htokens : b.tokens ≤ cap) (h : times.length * cost ≤ b.tokens) :
    b.answers cap cost times = List.replicate times.length true := by
  induction times generalizing b with
  | nil => rfl
  | cons now rest ih =>
    rw [List.length_cons, add_mul, one_mul] at h
    have hgrant : (b.take cap cost now).1 = true := by
      rw [granted_iff]
      omega
    have hleft : rest.length * cost ≤ (b.take cap cost now).2.tokens := by
      have hstep := spent_take cap cost b now
      have hrefill : b.tokens ≤ b.refilled cap now := by
        unfold refilled
        omega
      rw [hgrant, Bool.toNat_true, one_mul] at hstep
      omega
    rw [answers, hgrant, ih (tokens_take_le cap cost b now) hleft]
    rfl

/-- After enough time the bucket is as good as a new one. -/
theorem take_of_full (h : cap ≤ b.tokens + (now - b.last)) :
    b.take cap cost now = (full cap now).take cap cost now := by
  have hold : b.refilled cap now = cap := Nat.min_eq_left h
  have hnew : (full cap now).refilled cap now = cap := Nat.min_eq_left (Nat.le_add_right ..)
  unfold take
  rw [hold, hnew]

theorem last_after (hne : times ≠ []) : (b.after cap cost times).last = times.getLast hne := by
  obtain ⟨init, now, rfl⟩ : ∃ init now, times = init ++ [now] := ⟨_, _, (List.dropLast_append_getLast hne).symm⟩
  rw [List.getLast_append_singleton, after, List.foldl_append]
  exact last_take ..

end TokenBucket
