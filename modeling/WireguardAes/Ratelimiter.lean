import WireguardAes.Messages
import WireguardAes.DataPath
import WireguardAes.Lib.TokenBucket

/-!
# The rate limiter's token buckets (`ratelimiter.c`)

One entry of the table: what `wg_ratelimiter_allow` does with it in 64-bit arithmetic is what a
token bucket does that gains a token each nanosecond, as long as the clock does not go back and
stays in the range of `ktime_t`.
-/

namespace WireguardAes

def packetsPerSecond : Nat := 20
def packetsBurstable : Nat := 5
def packetCost : Nat := nsecPerSec / packetsPerSecond
def tokenMax : Nat := packetCost * packetsBurstable

structure RatelimiterEntry where
  lastTimeNs : U64
  tokens : U64
deriving DecidableEq

namespace RatelimiterEntry

/-- `min_t(u64, TOKEN_MAX, entry->tokens + now - entry->last_time_ns)` -/
def refill (entry : RatelimiterEntry) (now : U64) : U64 :=
  let sum := entry.tokens + now - entry.lastTimeNs
  if BitVec.ofNat 64 tokenMax < sum then BitVec.ofNat 64 tokenMax else sum

/-- What `wg_ratelimiter_allow` does with the entry of the source, under its lock. -/
def hit (entry : RatelimiterEntry) (now : U64) : Bool × RatelimiterEntry :=
  let tokens := entry.refill now
  let ret := decide (BitVec.ofNat 64 packetCost ≤ tokens)
  (ret, ⟨now, if ret then tokens - BitVec.ofNat 64 packetCost else tokens⟩)

/-- The entry that it makes if there is none. -/
def create (now : U64) : RatelimiterEntry := ⟨now, BitVec.ofNat 64 (tokenMax - packetCost)⟩

/-- A call at the time `now`, given the entry of its source. -/
def allow (entry : Option RatelimiterEntry) (now : U64) : Bool × RatelimiterEntry :=
  match entry with
  | some entry => entry.hit now
  | none => (true, create now)

/-- The answers to calls at the given times, one after the other. -/
def answers : Option RatelimiterEntry → List U64 → List Bool
  | _, [] => []
  | entry, now :: rest => (allow entry now).1 :: answers (some (allow entry now).2) rest

/-- The entry after calls at the given times. -/
def after (entry : Option RatelimiterEntry) (times : List U64) : Option RatelimiterEntry :=
  times.foldl (fun entry now => some (allow entry now).2) entry

/-! ### Token buckets -/

def bucket (entry : RatelimiterEntry) : TokenBucket := ⟨entry.lastTimeNs.toNat, entry.tokens.toNat⟩

/-- The entry is one that calls up to the time `now` leave. -/
structure Fits (entry : RatelimiterEntry) (now : U64) : Prop where
  tokens : entry.tokens.toNat ≤ tokenMax
  last : entry.lastTimeNs.toNat ≤ now.toNat

theorem toNat_tokenMax : (BitVec.ofNat 64 tokenMax).toNat = tokenMax := by decide

theorem toNat_packetCost : (BitVec.ofNat 64 packetCost).toNat = packetCost := by decide

variable {entry : RatelimiterEntry} {now : U64}

/-- The clock is in the range of `ktime_t`: a signed 64-bit number that is not negative. -/
theorem Fits.sum (h : entry.Fits now) (hnow : now.toNat < 2 ^ 63) :
    entry.tokens.toNat + now.toNat < 2 ^ 64 ∧ entry.lastTimeNs.toNat ≤ (entry.tokens + now).toNat ∧
      (entry.tokens + now - entry.lastTimeNs).toNat = entry.tokens.toNat + (now.toNat - entry.lastTimeNs.toNat) := by
  have hmax : tokenMax < 2 ^ 63 := by decide
  have htokens := h.tokens
  have hlast := h.last
  have hadd : (entry.tokens + now).toNat = entry.tokens.toNat + now.toNat := by
    rw [BitVec.toNat_add]
    exact Nat.mod_eq_of_lt (by omega)
  refine ⟨by omega, by omega, ?_⟩
  rw [BitVec.toNat_sub_of_le (by rw [BitVec.le_def]; omega), hadd]
  omega

theorem Fits.toNat_refill (h : entry.Fits now) (hnow : now.toNat < 2 ^ 63) :
    (entry.refill now).toNat = entry.bucket.refilled tokenMax now.toNat := by
  obtain ⟨-, -, hsum⟩ := h.sum hnow
  unfold refill TokenBucket.refilled bucket
  simp only [BitVec.lt_def, toNat_tokenMax, hsum]
  split
  · rw [toNat_tokenMax]
    omega
  · rw [hsum]
    omega

/-- An entry that is hit is a token bucket that is asked. -/
theorem Fits.hit (h : entry.Fits now) (hnow : now.toNat < 2 ^ 63) :
    ((entry.hit now).1, (entry.hit now).2.bucket) = entry.bucket.take tokenMax packetCost now.toNat := by
  have hrefill := h.toNat_refill hnow
  have hle : BitVec.ofNat 64 packetCost ≤ entry.refill now ↔
      packetCost ≤ entry.bucket.refilled tokenMax now.toNat := by
    rw [BitVec.le_def, toNat_packetCost, hrefill]
  unfold RatelimiterEntry.hit TokenBucket.take
  generalize entry.bucket.refilled tokenMax now.toNat = r at hrefill hle ⊢
  by_cases hcost : packetCost ≤ r
  · simp only [hle, hcost, decide_true, if_true, bucket]
    rw [BitVec.toNat_sub_of_le (hle.mpr hcost), toNat_packetCost, hrefill]
  · simp only [hle, hcost, decide_false, Bool.false_eq_true, if_false, bucket, hrefill]

/-- A new entry is a full bucket that has been asked once. -/
theorem bucket_create (now : U64) :
    (true, (create now).bucket) = (TokenBucket.full tokenMax now.toNat).take tokenMax packetCost now.toNat := by
  have hfull : (TokenBucket.full tokenMax now.toNat).refilled tokenMax now.toNat = tokenMax :=
    Nat.min_eq_left (Nat.le_add_right ..)
  unfold TokenBucket.take
  rw [hfull, if_pos (by decide)]
  unfold create bucket
  rw [show (BitVec.ofNat 64 (tokenMax - packetCost)).toNat = tokenMax - packetCost by decide]

/-- The bucket of an entry that may not be there yet. -/
def bucketAt (entry : Option RatelimiterEntry) (now : U64) : TokenBucket :=
  match entry with
  | some entry => entry.bucket
  | none => .full tokenMax now.toNat

/-- What calls up to the time `now` leave. -/
def FitsAt (entry : Option RatelimiterEntry) (now : U64) : Prop := ∀ e ∈ entry, e.Fits now

theorem allow_eq {entry : Option RatelimiterEntry} (h : FitsAt entry now) (hnow : now.toNat < 2 ^ 63) :
    ((allow entry now).1, (allow entry now).2.bucket) = (bucketAt entry now).take tokenMax packetCost now.toNat := by
  rcases entry with _ | entry
  · exact bucket_create now
  · exact (h entry rfl).hit hnow

theorem fits_allow {entry : Option RatelimiterEntry} (h : FitsAt entry now) (hnow : now.toNat < 2 ^ 63) {later : U64}
    (hle : now.toNat ≤ later.toNat) : FitsAt (some (allow entry now).2) later := by
  rintro e ⟨⟩
  have heq := congrArg Prod.snd (allow_eq h hnow)
  refine ⟨?_, ?_⟩
  · have htokens := (bucketAt entry now).tokens_take_le tokenMax packetCost now.toNat
    rw [← heq] at htokens
    exact htokens
  · have hlast := (bucketAt entry now).last_take tokenMax packetCost now.toNat
    rw [← heq] at hlast
    exact (le_of_eq hlast).trans hle

/-- Times that do not go back, in the range of `ktime_t`. -/
structure Clock (times : List U64) : Prop where
  mono : times.Pairwise fun a b => a.toNat ≤ b.toNat
  range : ∀ now ∈ times, now.toNat < 2 ^ 63

theorem Clock.tail {times : List U64} (h : Clock (now :: times)) : Clock times :=
  ⟨(List.pairwise_cons.mp h.mono).2, fun t ht => h.range t (List.mem_cons_of_mem now ht)⟩

theorem Clock.append {xs ys : List U64} (h : Clock (xs ++ ys)) : Clock xs ∧ Clock ys := by
  obtain ⟨hx, hy, -⟩ := List.pairwise_append.mp h.mono
  exact ⟨⟨hx, fun t ht => h.range t (List.mem_append_left ys ht)⟩,
    ⟨hy, fun t ht => h.range t (List.mem_append_right xs ht)⟩⟩

theorem answers_cons {entry : Option RatelimiterEntry} {rest : List U64} (hclock : Clock (now :: rest))
    (h : FitsAt entry now) : answers entry (now :: rest) =
      (bucketAt entry now).answers tokenMax packetCost ((now :: rest).map BitVec.toNat) := by
  induction rest generalizing entry now with
  | nil => exact congrArg (fun r : Bool × TokenBucket => [r.1]) (allow_eq h (hclock.range now List.mem_cons_self))
  | cons later rest ih =>
    have hnow := hclock.range now List.mem_cons_self
    have hle := (List.pairwise_cons.mp hclock.mono).1 later List.mem_cons_self
    have heq := allow_eq h hnow
    rw [answers, ih hclock.tail (fits_allow h hnow hle)]
    show _ = ((bucketAt entry now).take tokenMax packetCost now.toNat).1 ::
      ((bucketAt entry now).take tokenMax packetCost now.toNat).2.answers tokenMax packetCost
        ((later :: rest).map BitVec.toNat)
    rw [← heq]
    rfl

theorem fits_after {entry : Option RatelimiterEntry} {pre post : List U64} (hclock : Clock (pre ++ now :: post))
    (h : ∀ t ∈ pre ++ now :: post, FitsAt entry t) : FitsAt (after entry pre) now := by
  induction pre generalizing entry with
  | nil => exact h now List.mem_cons_self
  | cons x pre ih =>
    refine ih hclock.tail fun t ht => ?_
    exact fits_allow (h x List.mem_cons_self) (hclock.range x List.mem_cons_self)
      ((List.pairwise_cons.mp hclock.mono).1 t ht)

theorem answers_append (entry : Option RatelimiterEntry) (xs ys : List U64) :
    answers entry (xs ++ ys) = answers entry xs ++ answers (after entry xs) ys := by
  induction xs generalizing entry with
  | nil => rfl
  | cons x xs ih => exact congrArg (_ :: ·) (ih _)

@[simp] theorem length_answers (entry : Option RatelimiterEntry) (xs : List U64) :
    (answers entry xs).length = xs.length := by
  induction xs generalizing entry with
  | nil => rfl
  | cons x xs ih => exact congrArg (· + 1) (ih _)

theorem take_answers (entry : Option RatelimiterEntry) (xs : List U64) (n : Nat) :
    (answers entry xs).take n = answers entry (xs.take n) := by
  induction xs generalizing entry n with
  | nil => rw [List.take_nil, answers, List.take_nil]
  | cons x xs ih =>
    rcases n with _ | n
    · rfl
    · exact congrArg (_ :: ·) (ih _ n)

theorem answers_window (pre w post : List U64) :
    ((answers none (pre ++ w ++ post)).drop pre.length).take w.length = answers (after none pre) w := by
  rw [List.append_assoc, answers_append, answers_append, List.drop_left' (length_answers none pre),
    List.take_left' (length_answers _ w)]

theorem inOrder_bucketAt {entry : Option RatelimiterEntry} {rest : List U64} (hclock : Clock (now :: rest))
    (h : FitsAt entry now) : (bucketAt entry now).InOrder ((now :: rest).map BitVec.toNat) := by
  have hmono : ((now :: rest).map BitVec.toNat).Pairwise (· ≤ ·) := List.pairwise_map.mpr hclock.mono
  refine List.pairwise_cons.mpr ⟨fun t ht => ?_, hmono⟩
  have hlast : (bucketAt entry now).last ≤ now.toNat := by
    rcases entry with _ | entry
    · exact le_rfl
    · exact (h entry rfl).last
  rcases List.mem_cons.mp ht with rfl | ht
  · exact hlast
  · exact hlast.trans ((List.pairwise_cons.mp hmono).1 t ht)

theorem window_le {entry : Option RatelimiterEntry} {s t : U64} {mid : List U64} (hclock : Clock (s :: mid))
    (h : FitsAt entry s) (hlast : (s :: mid).getLast? = some t) :
    (answers entry (s :: mid)).count true * packetCost ≤ tokenMax + (t.toNat - s.toNat) := by
  have hwin := TokenBucket.window_le tokenMax packetCost (inOrder_bucketAt hclock h)
  have hne : (s :: mid).map BitVec.toNat ≠ [] := List.cons_ne_nil _ _
  have hend : ((bucketAt entry s).after tokenMax packetCost ((s :: mid).map BitVec.toNat)).last = t.toNat := by
    rw [TokenBucket.last_after hne, List.getLast_map, ← List.getLast_of_mem_getLast? hlast]
  rw [← List.map_cons, hend, ← answers_cons hclock h] at hwin
  exact hwin

theorem answers_burst {times : List U64} (hclock : Clock times) (hlen : times.length ≤ packetsBurstable) :
    answers none times = List.replicate times.length true := by
  rcases times with _ | ⟨now, rest⟩
  · rfl
  · have hcover : ((now :: rest).map BitVec.toNat).length * packetCost ≤ tokenMax := by
      rw [List.length_map, Nat.mul_comm]
      exact Nat.mul_le_mul_left packetCost hlen
    have hgrant := TokenBucket.answers_of_tokens (b := .full tokenMax now.toNat) (show packetCost ≤ tokenMax by decide)
      le_rfl hcover
    rw [List.length_map] at hgrant
    rw [answers_cons hclock (by rintro e ⟨⟩)]
    exact hgrant

theorem lastTimeNs_allow (entry : Option RatelimiterEntry) (now : U64) : (allow entry now).2.lastTimeNs = now := by
  rcases entry with _ | entry <;> rfl

theorem Fits.allowed (h : entry.Fits now) (hnow : now.toNat < 2 ^ 63)
    (hle : entry.lastTimeNs.toNat + packetCost ≤ now.toNat) : (entry.hit now).1 = true := by
  have heq := congrArg Prod.fst (h.hit hnow)
  rw [heq, TokenBucket.granted_iff]
  refine ⟨by decide, ?_⟩
  show packetCost ≤ entry.tokens.toNat + (now.toNat - entry.lastTimeNs.toNat)
  omega

/-- None of the additions and subtractions of a hit wraps. -/
structure NoWrap (entry : RatelimiterEntry) (now : U64) : Prop where
  sum : entry.tokens.toNat + now.toNat < 2 ^ 64
  elapsed : entry.lastTimeNs.toNat ≤ (entry.tokens + now).toNat
  cost : (entry.hit now).1 = true → packetCost ≤ (entry.refill now).toNat

theorem Fits.noWrap (h : entry.Fits now) (hnow : now.toNat < 2 ^ 63) : NoWrap entry now := by
  obtain ⟨hsum, helapsed, -⟩ := h.sum hnow
  refine ⟨hsum, helapsed, fun hret => ?_⟩
  have hcost : BitVec.ofNat 64 packetCost ≤ entry.refill now := of_decide_eq_true hret
  rw [BitVec.le_def, toNat_packetCost] at hcost
  exact hcost

/-- Calls for one source, the first of which makes its entry. Over any stretch of them the packets
that are allowed are covered by the burst and by the time that has passed; the first ones are
allowed, and so is every call that comes long enough after the one before it. -/
theorem allow_rate (times : List U64) (hclock : Clock times) :
    (∀ pre w post s t, times = pre ++ w ++ post → w.head? = some s → w.getLast? = some t →
      (((answers none times).drop pre.length).take w.length).count true * packetCost ≤ tokenMax + (t.toNat - s.toNat)) ∧
    (answers none times).take packetsBurstable = List.replicate (min packetsBurstable times.length) true ∧
    (∀ pre a b post, times = pre ++ a :: b :: post → a.toNat + packetCost ≤ b.toNat →
      (answers none times)[pre.length + 1]? = some true) ∧
    ∀ pre now post entry, times = pre ++ now :: post → after none pre = some entry → NoWrap entry now := by
  have hfits (pre : List U64) (now : U64) (post : List U64) (heq : times = pre ++ now :: post) :
    FitsAt (after none pre) now := by
    refine fits_after (heq ▸ hclock) fun t _ e he => ?_
    cases he
  have hrange {pre post : List U64} {now : U64} (heq : times = pre ++ now :: post) : now.toNat < 2 ^ 63 :=
    hclock.range now (heq ▸ List.mem_append_right pre List.mem_cons_self)
  refine ⟨fun pre w post s t heq hhead hlast => ?_, ?_, fun pre a b post heq hle => ?_,
    fun pre now post entry heq hafter => ?_⟩
  · rcases w with _ | ⟨x, mid⟩
    · cases hhead
    · cases hhead
      rw [heq, answers_window]
      refine window_le (heq ▸ hclock).append.1.append.2 (hfits pre s (mid ++ post) ?_) hlast
      rw [heq, List.append_assoc, List.cons_append]
  · have hfirst := answers_burst (List.take_append_drop packetsBurstable times ▸ hclock).append.1
      (List.length_take_le packetsBurstable times)
    rw [take_answers, hfirst, List.length_take]
  · have heq' : times = (pre ++ [a]) ++ b :: post := by rw [heq, List.append_cons]
    have hafter : after none (pre ++ [a]) = some (allow (after none pre) a).2 := by
      rw [after, List.foldl_append]
      rfl
    have hb : ((allow (after none pre) a).2).Fits b := hfits _ b post heq' _ hafter
    rw [heq', answers_append, List.getElem?_append_right (by simp), hafter]
    simp only [length_answers, List.length_append, List.length_singleton, Nat.sub_self, answers,
      List.getElem?_cons_zero,
      Option.some.injEq]
    refine hb.allowed (hrange heq') ?_
    rw [lastTimeNs_allow]
    exact hle
  · exact Fits.noWrap (hfits pre now post heq entry hafter) (hrange heq)

/-- A burst, and one packet after the time for one. -/
def sampleTimes : List U64 := [7, 7, 7, 7, 7, 7, 50000007]

theorem allow_rate_burst : answers none sampleTimes = [true, true, true, true, true, false, true] ∧
    (answers none sampleTimes).count true * packetCost ≤ tokenMax + (50000007 - 7) := by
  have hclock : Clock sampleTimes := ⟨by simp [sampleTimes], by simp [sampleTimes]⟩
  have hanswers : answers none sampleTimes = [true, true, true, true, true, false, true] := by decide +kernel
  refine ⟨hanswers, ?_⟩
  have hwindow := (allow_rate sampleTimes hclock).1 [] sampleTimes [] 7 50000007 rfl rfl rfl
  rw [hanswers] at hwindow ⊢
  exact hwindow

end RatelimiterEntry
end WireguardAes
