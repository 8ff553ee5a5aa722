import WireguardAes.Ratelimiter
import WireguardAes.Allowedips
import WireguardAes.Lib.HashChains
import WireguardAes.Lib.ByteOrder
import WireguardAes.Lib.Runs

/-!
# The tables of the rate limiter (`ratelimiter.c`)

`wg_ratelimiter_allow` looks for the entry of the source in its bucket in a read section, and uses
it under the entry's lock; if there is none it counts, allocates, fills in and links a new one, each
in a step of its own. A pass of `wg_ratelimiter_gc_entries` reads the clock once and goes through
the buckets, with the table's lock for each of them; the entries that it takes out are freed and
discounted after a grace period. Any number of calls are in progress at a time; an entry has the
number of the call that has allocated it. Called with a NULL work, the pass takes out every entry.
-/

namespace WireguardAes

open Function Runs

/-- The key of an entry and the table that it is in. -/
structure RateSource where
  table : Family
  net : U64
  ip : U64
deriving DecidableEq

/-- What `wg_ratelimiter_allow` reads: `skb->protocol`, the source address and the pointer `net`. -/
structure RatePacket where
  protocol : UInt16
  saddr : Bytes
  net : U64
deriving DecidableEq

/-- Only 64 bits of an IPv6 address, so as to ratelimit the whole /64. -/
def RatePacket.source (packet : RatePacket) : Option RateSource :=
  if packet.protocol = ethPIp then some ⟨.v4, packet.net, BitVec.ofNat 64 (ByteOrder.leNat (packet.saddr.take 4))⟩
  else if packet.protocol = ethPIpv6 then some ⟨.v6, packet.net, BitVec.ofNat 64
    (ByteOrder.leNat (packet.saddr.take 8))⟩
  else none

/-- The size of the tables and the keyed hashes `hsiphash_2u32` and `hsiphash_3u32`. -/
structure RatelimiterConfig where
  tableSize : Nat
  hash : RateSource → Nat

namespace RatelimiterConfig

def maxEntries (C : RatelimiterConfig) : Nat := C.tableSize * 8

def bucket (C : RatelimiterConfig) (source : RateSource) : Family × Nat :=
  (source.table, C.hash source &&& (C.tableSize - 1))

end RatelimiterConfig

structure HashedEntry extends RatelimiterEntry where
  net : U64
  ip : U64
deriving DecidableEq

inductive AllowCall where
  | idle
  /-- In the read section, before the walk over the bucket. -/
  | searching (source : RateSource)
  /-- At the entry of the source, before its lock. -/
  | found (source : RateSource) (entry : Nat)
  /-- Before `atomic_inc_return`. -/
  | missed (source : RateSource)
  /-- Before `kmem_cache_alloc`. -/
  | counted (source : RateSource)
  | allocated (source : RateSource)
  /-- Before `hlist_add_head_rcu`. -/
  | ready (source : RateSource)
  /-- At `err_oom`. -/
  | oom (source : RateSource)
deriving DecidableEq

namespace AllowCall

/-- The source for which the call is about to link an entry. -/
def making : AllowCall → Option RateSource
  | .missed source | .counted source | .allocated source | .ready source => some source
  | _ => none

def searched : AllowCall → Option RateSource
  | .searching source => some source
  | _ => none

def foundEntry : AllowCall → Option Nat
  | .found _ entry => some entry
  | _ => none

end AllowCall

inductive GcPass where
  | idle
  /-- Before the bucket `i`; `now` is the clock at the start. -/
  | next (now : U64) (i : Nat)
  /-- With `table_lock`, before the entries `rest` of the bucket. -/
  | locked (now : U64) (i : Nat) (rest : List Nat)
deriving DecidableEq

/-- The time of the pass and the entry that it comes to next. -/
def GcPass.visiting : GcPass → Option (U64 × Nat)
  | .locked now _ (entry :: _) => some (now, entry)
  | _ => none

/-- The clock as the pass has read it. -/
def GcPass.now : GcPass → Option U64
  | .idle => none
  | .next now _ | .locked now _ _ => some now

/-- The entries of the bucket that the pass has not come to yet. -/
def GcPass.rest : GcPass → List Nat
  | .locked _ _ rest => rest
  | _ => []

structure RatelimiterTables where
  /-- `ktime_get_coarse_boottime_ns`. -/
  clock : U64
  mem : Nat → HashedEntry
  /-- `table_v4` and `table_v6`. -/
  chains : HashChains Nat (Family × Nat)
  totalEntries : Int
  /-- The entries for which `call_rcu` has been called. -/
  freeing : List Nat
  calls : Nat → AllowCall
  nextCall : Nat
  gc : GcPass
  /-- The times and answers of the calls for each source, in the order of the accesses to its entry.
  -/
  history : RateSource → List (U64 × Bool)

inductive RatelimiterEvent where
  | tick (now : U64)
  | allow (packet : RatePacket)
  | search (c : Nat)
  | hit (c : Nat)
  | count (c : Nat)
  | alloc (c : Nat) (ok : Bool)
  | fill (c : Nat)
  | insert (c : Nat)
  | errOom (c : Nat)
  | gcStart
  | gcLock
  | gcEntry
  | gcUnlock
  | gcEnd
  | entryFree (entry : Nat)
deriving DecidableEq

namespace RatelimiterTables

def init : RatelimiterTables where
  clock := 0
  mem _ := ⟨⟨0, 0⟩, 0, 0⟩
  chains := .empty
  totalEntries := 0
  freeing := []
  calls _ := .idle
  nextCall := 0
  gc := .idle
  history _ := []

def setCall (s : RatelimiterTables) (c : Nat) (call : AllowCall) : RatelimiterTables :=
  { s with calls := update s.calls c call }

def setEntry (s : RatelimiterTables) (n : Nat) (entry : HashedEntry) : RatelimiterTables :=
  { s with mem := update s.mem n entry }

/-- A call for the source gets its answer. -/
def record (s : RatelimiterTables) (source : RateSource) (answer : Bool) : RatelimiterTables :=
  { s with history := update s.history source (s.history source ++ [(s.clock, answer)]) }

/-- The walk over the bucket. -/
def lookup (C : RatelimiterConfig) (s : RatelimiterTables) (source : RateSource) : Option Nat :=
  (s.chains.chain (C.bucket source)).find? fun n => (s.mem n).net = source.net ∧ (s.mem n).ip = source.ip

/-- `now - entry->last_time_ns > NSEC_PER_SEC` -/
def expired (s : RatelimiterTables) (now : U64) (n : Nat) : Bool :=
  BitVec.ofNat 64 nsecPerSec < now - (s.mem n).lastTimeNs

def entryUninit (s : RatelimiterTables) (n : Nat) : RatelimiterTables :=
  { s with chains := s.chains.unlink n, freeing := n :: s.freeing }

/-- The table's lock is not taken by the pass. -/
def unlocked (s : RatelimiterTables) : Bool :=
  match s.gc with
  | .locked _ _ _ => false
  | _ => true

def step (C : RatelimiterConfig) (s : RatelimiterTables) : RatelimiterEvent → Option RatelimiterTables
  | .tick now => if s.clock.toNat ≤ now.toNat ∧ now.toNat < 2 ^ 63 then some { s with clock := now } else none
  | .allow packet =>
    match packet.source with
    -- `return false`
    | none => some s
    | some source => some { s.setCall s.nextCall (.searching source) with nextCall := s.nextCall + 1 }
  | .search c =>
    match s.calls c with
    | .searching source =>
      match s.lookup C source with
      | some n => some (s.setCall c (.found source n))
      | none => some (s.setCall c (.missed source))
    | _ => none
  | .hit c =>
    match s.calls c with
    | .found source n =>
      let (ret, entry) := (s.mem n).hit s.clock
      some (((s.setEntry n { s.mem n with toRatelimiterEntry := entry }).record source ret).setCall c .idle)
    | _ => none
  | .count c =>
    match s.calls c with
    | .missed source =>
      let total := s.totalEntries + 1
      some { s.setCall c (if (C.maxEntries : Int) < total then .oom source else .counted source)
        with totalEntries := total }
    | _ => none
  | .alloc c ok =>
    match s.calls c with
    | .counted source => some (s.setCall c (if ok then .allocated source else .oom source))
    | _ => none
  | .fill c =>
    match s.calls c with
    | .allocated source =>
      some (((s.setEntry c ⟨.create s.clock, source.net, source.ip⟩).record source true).setCall c (.ready source))
    | _ => none
  | .insert c =>
    match s.calls c with
    | .ready source =>
      if s.unlocked then some { s.setCall c .idle with chains := s.chains.pushHead c (C.bucket source) } else none
    | _ => none
  | .errOom c =>
    match s.calls c with
    | .oom source => some { (s.record source false).setCall c .idle with totalEntries := s.totalEntries - 1 }
    | _ => none
  | .gcStart =>
    match s.gc with
    | .idle => some { s with gc := .next s.clock 0 }
    | _ => none
  | .gcLock =>
    match s.gc with
    | .next now i =>
      if i < C.tableSize then
        some { s with gc := .locked now i (s.chains.chain (.v4, i) ++ s.chains.chain (.v6, i)) }
      else none
    | _ => none
  | .gcEntry =>
    match s.gc with
    | .locked now i (n :: rest) =>
      some { (if s.expired now n then s.entryUninit n else s) with gc := .locked now i rest }
    | _ => none
  | .gcUnlock =>
    match s.gc with
    | .locked now i [] => some { s with gc := .next now (i + 1) }
    | _ => none
  | .gcEnd =>
    match s.gc with
    | .next _ i => if i < C.tableSize then none else some { s with gc := .idle }
    | _ => none
  | .entryFree n =>
    -- the callback runs when no read section holds the entry any more
    if n ∈ s.freeing ∧ ∀ c < s.nextCall, (s.calls c).foundEntry ≠ some n then
      some { s with freeing := s.freeing.erase n, totalEntries := s.totalEntries - 1 }
    else none

/-- What the steps do. -/
inductive Step (C : RatelimiterConfig) (s : RatelimiterTables) : RatelimiterEvent → RatelimiterTables → Prop
  | tick {now : U64} (hle : s.clock.toNat ≤ now.toNat) (hrange : now.toNat < 2 ^ 63) :
      Step C s (.tick now) { s with clock := now }
  | ignore {packet : RatePacket} : Step C s (.allow packet) s
  | allow {packet : RatePacket} {source : RateSource} :
      Step C s (.allow packet) { s.setCall s.nextCall (.searching source) with nextCall := s.nextCall + 1 }
  | find {c n : Nat} {source : RateSource} (hc : s.calls c = .searching source) (hn : s.lookup C source = some n) :
      Step C s (.search c) (s.setCall c (.found source n))
  | miss {c : Nat} {source : RateSource} (hc : s.calls c = .searching source) (hn : s.lookup C source = none) :
      Step C s (.search c) (s.setCall c (.missed source))
  | hit {c n : Nat} {source : RateSource} (hc : s.calls c = .found source n) :
      Step C s (.hit c) (((s.setEntry n { s.mem n with toRatelimiterEntry := ((s.mem n).hit s.clock).2 }).record source
        ((s.mem n).hit s.clock).1).setCall c .idle)
  | count {c : Nat} {source : RateSource} {call : AllowCall} (hc : s.calls c = .missed source)
      (hcall : call = .oom source ∧ (C.maxEntries : Int) < s.totalEntries + 1 ∨
        call = .counted source ∧ s.totalEntries + 1 ≤ C.maxEntries) :
      Step C s (.count c) { s.setCall c call with totalEntries := s.totalEntries + 1 }
  | alloc {c : Nat} {ok : Bool} {source : RateSource} {call : AllowCall} (hc : s.calls c = .counted source)
      (hcall : call = .oom source ∧ ok = false ∨ call = .allocated source) : Step C s (.alloc c ok) (s.setCall c call)
  | fill {c : Nat} {source : RateSource} (hc : s.calls c = .allocated source) :
      Step C s (.fill c)
        (((s.setEntry c ⟨.create s.clock, source.net, source.ip⟩).record source true).setCall c (.ready source))
  | insert {c : Nat} {source : RateSource} (hc : s.calls c = .ready source) :
      Step C s (.insert c) { s.setCall c .idle with chains := s.chains.pushHead c (C.bucket source) }
  | errOom {c : Nat} {source : RateSource} (hc : s.calls c = .oom source) :
      Step C s (.errOom c) { (s.record source false).setCall c .idle with totalEntries := s.totalEntries - 1 }
  | gc {e : RatelimiterEvent} {gc : GcPass} (hgc : ∀ now ∈ gc.now, now = s.clock ∨ s.gc.now = some now)
      (hrest : gc.rest <:+ s.gc.rest ∨ ∃ i, gc.rest = s.chains.chain (.v4, i) ++ s.chains.chain (.v6, i)) :
      Step C s e { s with gc := gc }
  | evict {now : U64} {i n : Nat} {rest : List Nat} (hgc : s.gc = .locked now i (n :: rest))
      (hexp : s.expired now n = true) : Step C s .gcEntry { s.entryUninit n with gc := .locked now i rest }
  | free {n : Nat} (hn : n ∈ s.freeing) :
      Step C s (.entryFree n) { s with freeing := s.freeing.erase n, totalEntries := s.totalEntries - 1 }

variable {C : RatelimiterConfig} {s t : RatelimiterTables} {e : RatelimiterEvent}
variable {source : RateSource} {n m : Nat}

theorem step_cases (h : s.step C e = some t) : Step C s e t := by
  rcases e with now | packet | c | c | c | ⟨c, ok⟩ | c | c | c | _ | _ | _ | _ | _ | n
  · dsimp only [step] at h
    obtain ⟨hnow, ⟨⟩⟩ := Option.ite_none_right_eq_some.mp h
    exact .tick hnow.1 hnow.2
  · dsimp only [step] at h
    split at h <;> cases h
    · exact .ignore
    · exact .allow
  · dsimp only [step] at h
    split at h
    case h_1 source hc =>
      rcases hn : s.lookup C source with _ | n
      · rw [hn] at h
        cases h
        exact .miss hc hn
      · rw [hn] at h
        cases h
        exact .find hc hn
    · cases h
  · dsimp only [step] at h
    split at h
    case h_1 hc =>
      cases h
      exact .hit hc
    case h_2 => cases h
  · dsimp only [step] at h
    split at h
    case h_1 hc =>
      cases h
      refine .count hc ?_
      split_ifs with hmax
      · exact .inl ⟨rfl, hmax⟩
      · exact .inr ⟨rfl, not_lt.mp hmax⟩
    case h_2 => cases h
  · dsimp only [step] at h
    split at h
    case h_1 hc =>
      cases h
      refine .alloc hc ?_
      rcases ok with _ | _
      · exact .inl ⟨rfl, rfl⟩
      · exact .inr rfl
    case h_2 => cases h
  · dsimp only [step] at h
    split at h
    case h_1 hc =>
      cases h
      exact .fill hc
    case h_2 => cases h
  · dsimp only [step] at h
    split at h
    case h_1 hc =>
      split at h <;> cases h
      exact .insert hc
    · cases h
  · dsimp only [step] at h
    split at h
    case h_1 hc =>
      cases h
      exact .errOom hc
    case h_2 => cases h
  · dsimp only [step] at h
    split at h <;> cases h
    refine .gc ?_ (.inl (List.nil_suffix ..))
    rintro now ⟨⟩
    exact .inl rfl
  · dsimp only [step] at h
    split at h
    case h_1 hgc =>
      split at h <;> cases h
      refine .gc ?_ (.inr ⟨_, rfl⟩)
      rintro now ⟨⟩
      rw [hgc]
      exact .inr rfl
    · cases h
  · dsimp only [step] at h
    split at h
    case h_1 now i n rest hgc =>
      cases hexp : s.expired now n with
      | true =>
        rw [hexp] at h
        cases h
        exact .evict hgc hexp
      | false =>
        rw [hexp] at h
        cases h
        refine .gc ?_ (.inl ?_)
        · rintro now ⟨⟩
          rw [hgc]
          exact .inr rfl
        · rw [hgc]
          exact List.suffix_cons n rest
    · cases h
  · dsimp only [step] at h
    split at h
    case h_1 hgc =>
      cases h
      refine .gc ?_ (.inl (List.nil_suffix ..))
      rintro now ⟨⟩
      rw [hgc]
      exact .inr rfl
    case h_2 => cases h
  · dsimp only [step] at h
    split at h
    · split at h <;> cases h
      refine .gc ?_ (.inl (List.nil_suffix ..))
      rintro now ⟨⟩
    · cases h
  · dsimp only [step] at h
    obtain ⟨hn, ⟨⟩⟩ := Option.ite_none_right_eq_some.mp h
    exact .free hn.1

/-! ### Calls and entries -/

/-- The entry is the one of the source. -/
def Here (C : RatelimiterConfig) (s : RatelimiterTables) (source : RateSource) (n : Nat) : Prop :=
  s.chains.home n = some (C.bucket source) ∧ (s.mem n).net = source.net ∧ (s.mem n).ip = source.ip

theorem Here.source_inj {source' : RateSource} (h : Here C s source n) (h' : Here C s source' n) :
    source = source' := by
  obtain ⟨hb, hnet, hip⟩ := h
  obtain ⟨hb', hnet', hip'⟩ := h'
  have htable : source.table = source'.table := congrArg Prod.fst (Option.some.inj (hb.symm.trans hb'))
  rcases source with ⟨_, _, _⟩
  rcases source' with ⟨_, _, _⟩
  simp_all

theorem calls_setCall (s : RatelimiterTables) (c c' : Nat) (call : AllowCall) :
    (s.setCall c call).calls c' = if c' = c then call else s.calls c' := update_apply ..

theorem calls_setCall_self (s : RatelimiterTables) (c : Nat) (call : AllowCall) : (s.setCall c call).calls c = call :=
  update_self ..

theorem calls_setCall_of_ne {c c' : Nat} (call : AllowCall) (hc : c' ≠ c) : (s.setCall c call).calls c' = s.calls c' :=
  update_of_ne hc ..

theorem mem_setEntry (s : RatelimiterTables) (n m : Nat) (entry : HashedEntry) :
    (s.setEntry n entry).mem m = if m = n then entry else s.mem m := update_apply ..

theorem mem_setEntry_of_ne (entry : HashedEntry) (hm : m ≠ n) : (s.setEntry n entry).mem m = s.mem m :=
  update_of_ne hm ..

theorem here_setEntry {entry : HashedEntry}
    (hkey : s.chains.home n ≠ none → entry.net = (s.mem n).net ∧ entry.ip = (s.mem n).ip) :
    Here C (s.setEntry n entry) source m ↔ Here C s source m := by
  refine and_congr_right fun hhome => ?_
  rw [mem_setEntry]
  split_ifs with heq
  · obtain ⟨hnet, hip⟩ := hkey (by rw [← heq, show s.chains.home m = _ from hhome]; exact Option.some_ne_none _)
    rw [hnet, hip, heq]
  · rfl

theorem here_pushHead {c : Nat} {source' : RateSource} (hhome : s.chains.home c = none)
    (hnet : (s.mem c).net = source.net) (hip : (s.mem c).ip = source.ip) :
    Here C { s.setCall c .idle with chains := s.chains.pushHead c (C.bucket source) } source' m ↔
      Here C s source' m ∨ m = c ∧ source' = source := by
  show (s.chains.pushHead c (C.bucket source)).home m = _ ∧ _ ↔ _
  rw [HashChains.home_pushHead, update_apply]
  split
  case isTrue heq =>
    subst heq
    refine ⟨fun hm => .inr ⟨rfl, ?_⟩, ?_⟩
    · obtain ⟨hb, hn, hi⟩ := hm
      have htable : source.table = source'.table := congrArg Prod.fst (Option.some.inj hb)
      rcases source with ⟨_, _, _⟩
      rcases source' with ⟨_, _, _⟩
      exact RateSource.mk.injEq .. ▸ ⟨htable.symm, hn.symm.trans hnet, hi.symm.trans hip⟩
    · rintro (⟨hb, -⟩ | ⟨-, rfl⟩)
      · rw [hhome] at hb
        cases hb
      · exact ⟨rfl, hnet, hip⟩
  case isFalse hmc =>
    exact (or_iff_left (fun hm => hmc hm.1)).symm

theorem here_unlink (gc : GcPass) :
    Here C { s.entryUninit n with gc := gc } source m ↔ m ≠ n ∧ Here C s source m := by
  show (s.chains.unlink n).home m = _ ∧ _ ↔ _
  rw [HashChains.home_unlink, update_apply]
  split
  case isTrue heq =>
    refine iff_of_false ?_ fun hm => hm.1 heq
    rintro ⟨⟨⟩, -⟩
  case isFalse hne =>
    exact (and_iff_right hne).symm

end RatelimiterTables

/-! ### The pass without a work -/

/-- The tables, and whether the pass has been called with a NULL work. -/
structure RatelimiterModule where
  tables : RatelimiterTables
  nullWork : Bool

inductive RatelimiterModuleEvent where
  | table (e : RatelimiterEvent)
  /-- `wg_ratelimiter_gc_entries(NULL)` -/
  | gcNull
deriving DecidableEq

namespace RatelimiterModule

def init : RatelimiterModule := ⟨.init, false⟩

def step (C : RatelimiterConfig) (s : RatelimiterModule) : RatelimiterModuleEvent → Option RatelimiterModule
  | .gcNull => (s.tables.step C .gcStart).map (⟨·, true⟩)
  | .table .gcStart => (s.tables.step C .gcStart).map (⟨·, false⟩)
  | .table .gcEntry =>
    if s.nullWork then
      match s.tables.gc with
      | .locked now i (n :: rest) => some ⟨{ s.tables.entryUninit n with gc := .locked now i rest }, true⟩
      | _ => none
    else (s.tables.step C .gcEntry).map (⟨·, false⟩)
  | .table e => (s.tables.step C e).map (⟨·, s.nullWork⟩)

variable {C : RatelimiterConfig} {s t : RatelimiterModule} {e : RatelimiterModuleEvent}

/-- A step on the tables, or the pass with a NULL work takes out an entry. -/
theorem step_cases (h : s.step C e = some t) :
    (∃ e', s.tables.step C e' = some t.tables ∧ (e = .table e' ∨ e' = .gcStart)) ∨
    ∃ now i n rest, s.tables.gc = .locked now i (n :: rest) ∧
      t.tables = { s.tables.entryUninit n with gc := .locked now i rest } := by
  have hmap {e' : RatelimiterEvent} {f : RatelimiterTables → Bool} (he : e = .table e' ∨ e' = .gcStart)
      (h : (s.tables.step C e').map (fun u => RatelimiterModule.mk u (f u)) = some t) :
      ∃ e', s.tables.step C e' = some t.tables ∧ (e = .table e' ∨ e' = .gcStart) := by
    obtain ⟨u, hu, rfl⟩ := Option.map_eq_some_iff.mp h
    exact ⟨e', hu, he⟩
  unfold step at h
  split at h
  · exact .inl (hmap (.inr rfl) h)
  · exact .inl (hmap (.inl rfl) h)
  · split at h
    · split at h
      case h_1 hgc =>
        cases h
        exact .inr ⟨_, _, _, _, hgc, rfl⟩
      · cases h
    · exact .inl (hmap (.inl rfl) h)
  · exact .inl (hmap (.inl rfl) h)

end RatelimiterModule

/-! ### Sample calls -/

namespace RatelimiterTables

def sampleConfig : RatelimiterConfig := ⟨16, fun _ => 3⟩

def sampleRatePacket : RatePacket := ⟨ethPIp, [10, 0, 0, 1], 1⟩

def sampleRateSource : RateSource := ⟨.v4, 1, 0x0100000a⟩

/-- The call `c`, which finds no entry. -/
def creates (c : Nat) : List RatelimiterEvent :=
  [.allow sampleRatePacket, .search c, .count c, .alloc c true, .fill c, .insert c]

/-- The call `c`, which finds one. -/
def hits (c : Nat) : List RatelimiterEvent := [.allow sampleRatePacket, .search c, .hit c]

/-- A pass up to the bucket of the source. -/
def gcTo : List RatelimiterEvent :=
  [.gcLock, .gcUnlock, .gcLock, .gcUnlock, .gcLock, .gcUnlock, .gcLock]

def shown (s : RatelimiterTables) : List (U64 × Bool) × List Nat × Int :=
  (s.history sampleRateSource, s.freeing, s.totalEntries)

end RatelimiterTables
end WireguardAes
