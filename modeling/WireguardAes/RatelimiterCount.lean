import WireguardAes.RatelimiterSingle
import Mathlib.Algebra.Order.BigOperators.Group.Finset
import Mathlib.Algebra.BigOperators.Group.Finset.Piecewise

/-!
# Counting the entries of the rate limiter (`ratelimiter.c`)

`total_entries` is counted up before the limit is checked and before the allocation, and down at
`err_oom` or by `entry_free`, after the grace period. It counts the entries of the two tables, those
that wait to be freed, and the calls that have counted and not yet linked their entry or given it
up. A call that the limit has admitted has its place among the `max_entries`; one at `err_oom` has
not.
-/

namespace WireguardAes

open Function Runs

/-- The buckets of both tables. -/
def RatelimiterConfig.buckets (C : RatelimiterConfig) : Finset (Family × Nat) :=
  {.v4, .v6} ×ˢ Finset.range C.tableSize

theorem RatelimiterConfig.bucket_mem {C : RatelimiterConfig} (h : 0 < C.maxEntries) (source : RateSource) :
    C.bucket source ∈ C.buckets := by
  have hand : C.hash source &&& (C.tableSize - 1) ≤ C.tableSize - 1 := Nat.and_le_right
  have hsize : 0 < C.tableSize := by
    unfold maxEntries at h
    omega
  refine Finset.mem_product.mpr ⟨?_, Finset.mem_range.mpr (by show C.hash source &&& _ < _; omega)⟩
  show source.table ∈ _
  rcases source.table <;> decide

namespace AllowCall

/-- The call has counted an entry that is not in the tables. -/
def counting : AllowCall → Nat
  | .counted _ | .allocated _ | .ready _ | .oom _ => 1
  | _ => 0

/-- The limit has admitted the call. -/
def admitted : AllowCall → Nat
  | .counted _ | .allocated _ | .ready _ => 1
  | _ => 0

end AllowCall

namespace RatelimiterTables

variable {C : RatelimiterConfig} {s t : RatelimiterTables} {e : RatelimiterEvent} {w : AllowCall → Nat}

/-- The number of entries in both tables. -/
def entries (C : RatelimiterConfig) (s : RatelimiterTables) : Nat := s.chains.size C.buckets

/-- The calls, with a weight for where each of them is. -/
def tally (w : AllowCall → Nat) (s : RatelimiterTables) : Nat := ∑ c ∈ Finset.range s.nextCall, w (s.calls c)

theorem tally_setCall {c : Nat} (call : AllowCall) (hlt : c < s.nextCall) :
    tally w (s.setCall c call) + w (s.calls c) = tally w s + w call := by
  have hsum := HashChains.sum_replace (f := fun c => w (s.calls c)) (g := fun c' => w ((s.setCall c call).calls c'))
    (Finset.mem_range.mpr hlt) fun c' hne => by rw [calls_setCall_of_ne call hne]
  rw [calls_setCall_self] at hsum
  exact hsum

theorem tally_allow (source : RateSource) (hw : w (.searching source) = 0) :
    tally w { s.setCall s.nextCall (.searching source) with nextCall := s.nextCall + 1 } = tally w s := by
  show ∑ c ∈ Finset.range (s.nextCall + 1), w ((s.setCall s.nextCall (.searching source)).calls c) = _
  rw [Finset.sum_range_succ, calls_setCall_self, hw, Nat.add_zero]
  refine Finset.sum_congr rfl fun c hc => ?_
  rw [calls_setCall_of_ne _ (Finset.mem_range.mp hc).ne]

theorem admitted_le_counting : tally AllowCall.admitted s ≤ tally AllowCall.counting s := by
  refine Finset.sum_le_sum fun c _ => ?_
  rcases s.calls c <;> simp only [AllowCall.admitted, AllowCall.counting, le_refl, Nat.zero_le]

theorem entries_init : init.entries C = 0 := by
  unfold entries HashChains.size
  exact Finset.sum_eq_zero fun _ _ => rfl

structure Counted (C : RatelimiterConfig) (s : RatelimiterTables) : Prop where
  buckets : ∀ n b, s.chains.home n = some b → b ∈ C.buckets
  /-- The entries that the pass still comes to are linked: the lock is held. -/
  rest : s.gc.rest.Nodup ∧ ∀ n ∈ s.gc.rest, s.chains.home n ≠ none
  total : s.totalEntries = (s.entries C + s.freeing.length + tally AllowCall.counting s : Nat)
  room : s.entries C + s.freeing.length + tally AllowCall.admitted s ≤ C.maxEntries

namespace Counted

theorem init : Counted C init where
  buckets := by rintro n b ⟨⟩
  rest := ⟨List.nodup_nil, by rintro n ⟨⟩⟩
  total := by
    rw [entries_init]
    rfl
  room := by
    rw [entries_init]
    exact Nat.zero_le _

theorem setCall (h : Counted C s) {c : Nat} {old call : AllowCall} {total : Int}
    (hlt : c < s.nextCall) (hc : s.calls c = old)
    (htotal : total + old.counting = s.totalEntries + call.counting)
    (hroom : call.admitted ≤ old.admitted ∨ total ≤ C.maxEntries) :
    Counted C { s.setCall c call with totalEntries := total } := by
  subst hc
  have hcounting := tally_setCall (w := AllowCall.counting) call hlt
  have hadmitted := tally_setCall (w := AllowCall.admitted) call hlt
  have hle : tally AllowCall.admitted (s.setCall c call) ≤ tally AllowCall.counting
    (s.setCall c call) := admitted_le_counting
  have hold := h.total
  have hroom' := h.room
  refine ⟨h.buckets, h.rest, ?_, ?_⟩
  · show total = (s.entries C + s.freeing.length + tally AllowCall.counting (s.setCall c call) : Nat)
    omega
  · show s.entries C + s.freeing.length + tally AllowCall.admitted (s.setCall c call) ≤ _
    omega

theorem insert (h : Counted C s) (hlinking : Linking s) {c : Nat} {source : RateSource}
    (hc : s.calls c = .ready source) :
    Counted C { s.setCall c .idle with chains := s.chains.pushHead c (C.bucket source) } := by
  have hidle : s.calls c ≠ .idle := by
    rw [hc]
    rintro ⟨⟩
  have hhome : s.chains.home c = none := hlinking.unlinked c (.inl hidle)
  have hcounting := tally_setCall (w := AllowCall.counting) .idle (hlinking.lt_nextCall hidle)
  have hadmitted := tally_setCall (w := AllowCall.admitted) .idle (hlinking.lt_nextCall hidle)
  rw [hc] at hcounting hadmitted
  simp only [AllowCall.counting, AllowCall.admitted] at hcounting hadmitted
  have hold := h.total
  have hroom := h.room
  have hbucket : C.bucket source ∈ C.buckets := C.bucket_mem (by omega) source
  have hsize : (s.chains.pushHead c (C.bucket source)).size C.buckets = s.entries C + 1 :=
    HashChains.size_pushHead c hbucket
  refine ⟨fun n b hn => ?_, ⟨h.rest.1, fun n hn => ?_⟩, ?_, ?_⟩
  · have hn' : (s.chains.pushHead c (C.bucket source)).home n = some b := hn
    rw [HashChains.home_pushHead, update_apply] at hn'
    split at hn'
    · cases hn'
      exact hbucket
    · exact h.buckets n b hn'
  · show (s.chains.pushHead c (C.bucket source)).home n ≠ none
    have hne : n ≠ c := by
      rintro rfl
      exact h.rest.2 n hn hhome
    rw [HashChains.home_pushHead, update_of_ne hne]
    exact h.rest.2 n hn
  · show s.totalEntries = ((s.chains.pushHead c (C.bucket source)).size C.buckets + s.freeing.length +
      tally AllowCall.counting (s.setCall c .idle) : Nat)
    omega
  · show (s.chains.pushHead c (C.bucket source)).size C.buckets + s.freeing.length +
      tally AllowCall.admitted (s.setCall c .idle) ≤ _
    omega

theorem entryUninit (h : Counted C s) (hlinking : Linking s) {now : U64} {i n : Nat}
    {rest : List Nat} (hgc : s.gc = .locked now i (n :: rest)) :
    Counted C { s.entryUninit n with gc := .locked now i rest } := by
  obtain ⟨hnodup, hlinked⟩ := h.rest
  rw [hgc] at hnodup hlinked
  obtain ⟨hnot, hnodup⟩ := List.nodup_cons.mp hnodup
  obtain ⟨b, hb⟩ := Option.ne_none_iff_exists'.mp (hlinked n List.mem_cons_self)
  have hsize : (s.chains.unlink n).size C.buckets + 1 = s.entries C := hlinking.wf.size_unlink hb (h.buckets n b hb)
  have hold := h.total
  have hroom := h.room
  refine ⟨fun m b hm => ?_, ⟨hnodup, fun m hm => ?_⟩, ?_, ?_⟩
  · have hm' : (s.chains.unlink n).home m = some b := hm
    rw [HashChains.home_unlink, update_apply] at hm'
    split at hm'
    · cases hm'
    · exact h.buckets m b hm'
  · show (s.chains.unlink n).home m ≠ none
    have hne : m ≠ n := by
      rintro rfl
      exact hnot hm
    rw [HashChains.home_unlink, update_of_ne hne]
    exact hlinked m (List.mem_cons_of_mem n hm)
  · show s.totalEntries = ((s.chains.unlink n).size C.buckets + (n :: s.freeing).length +
      tally AllowCall.counting s : Nat)
    rw [List.length_cons]
    omega
  · show (s.chains.unlink n).size C.buckets + (n :: s.freeing).length + tally AllowCall.admitted s ≤ _
    rw [List.length_cons]
    omega

theorem entryFree (h : Counted C s) {n : Nat} (hn : n ∈ s.freeing) :
    Counted C { s with freeing := s.freeing.erase n, totalEntries := s.totalEntries - 1 } := by
  have hlen := List.length_erase_add_one hn
  have hold := h.total
  have hroom := h.room
  refine ⟨h.buckets, h.rest, ?_, ?_⟩
  · show s.totalEntries - 1 = (s.entries C + (s.freeing.erase n).length + tally AllowCall.counting s : Nat)
    omega
  · show s.entries C + (s.freeing.erase n).length + tally AllowCall.admitted s ≤ _
    omega

/-- The pass goes on; what it comes to are the entries of a bucket, under the lock. -/
theorem pass (h : Counted C s) (hlinking : Linking s) {gc : GcPass}
    (hrest : gc.rest <:+ s.gc.rest ∨ ∃ i, gc.rest = s.chains.chain (.v4, i) ++ s.chains.chain (.v6, i)) :
    Counted C { s with gc := gc } := by
  refine { h with rest := ?_ }
  rcases hrest with hsuffix | ⟨i, hrest⟩
  · exact ⟨h.rest.1.sublist hsuffix.sublist, fun n hn => h.rest.2 n (hsuffix.subset hn)⟩
  · have hhome {n : Nat} {b : Family × Nat} (hn : n ∈ s.chains.chain b) :
      s.chains.home n = some b := (hlinking.wf.mem_iff n b).mp hn
    show gc.rest.Nodup ∧ ∀ n ∈ gc.rest, _
    rw [hrest]
    refine ⟨(hlinking.wf.nodup _).append (hlinking.wf.nodup _) fun n hn hn' => ?_, fun n hn => ?_⟩
    · have heq := (hhome hn).symm.trans (hhome hn')
      cases heq
    · rcases List.mem_append.mp hn with hn | hn
      · rw [hhome hn]
        exact Option.some_ne_none _
      · rw [hhome hn]
        exact Option.some_ne_none _

theorem step (h : Counted C s) (hlinking : Linking s) (hs : Step C s e t) : Counted C t := by
  have hlt {c : Nat} {call : AllowCall} (hc : s.calls c = call) (hne : call ≠ .idle) : c < s.nextCall :=
    hlinking.lt_nextCall (hc ▸ hne)
  cases hs with
  | tick => exact { h with }
  | ignore => exact h
  | @allow _ source =>
    refine { h with total := ?_, room := ?_ }
    · rw [tally_allow source rfl]
      exact h.total
    · rw [tally_allow source rfl]
      exact h.room
  | find hc => exact h.setCall (hlt hc (by rintro ⟨⟩)) hc rfl (.inl le_rfl)
  | miss hc => exact h.setCall (hlt hc (by rintro ⟨⟩)) hc rfl (.inl le_rfl)
  | @hit c n source hc =>
    have hcall : Counted C { s.setCall c .idle with totalEntries := s.totalEntries } :=
      h.setCall (hlt hc (by rintro ⟨⟩)) hc rfl (.inl le_rfl)
    exact { hcall with }
  | count hc hcall =>
    rcases hcall with ⟨rfl, -⟩ | ⟨rfl, hmax⟩
    · exact h.setCall (hlt hc (by rintro ⟨⟩)) hc (add_zero _) (.inl le_rfl)
    · exact h.setCall (hlt hc (by rintro ⟨⟩)) hc (add_zero _) (.inr hmax)
  | alloc hc hcall =>
    rcases hcall with ⟨rfl, -⟩ | rfl
    · exact h.setCall (hlt hc (by rintro ⟨⟩)) hc rfl (.inl (Nat.zero_le _))
    · exact h.setCall (hlt hc (by rintro ⟨⟩)) hc rfl (.inl le_rfl)
  | @fill c source hc =>
    have hcall : Counted C { s.setCall c (.ready source) with totalEntries := s.totalEntries } :=
      h.setCall (hlt hc (by rintro ⟨⟩)) hc rfl (.inl le_rfl)
    exact { hcall with }
  | insert hc => exact h.insert hlinking hc
  | @errOom c source hc =>
    have hcall : Counted C { s.setCall c .idle with totalEntries := s.totalEntries - 1 } :=
      h.setCall (hlt hc (by rintro ⟨⟩)) hc (by show s.totalEntries - 1 + 1 = s.totalEntries + 0; omega) (.inl le_rfl)
    exact { hcall with }
  | gc _ hrest => exact h.pass hlinking hrest
  | evict hgc => exact h.entryUninit hlinking hgc
  | free hn => exact h.entryFree hn

end Counted
end RatelimiterTables

namespace RatelimiterModule

open RatelimiterTables

variable {C : RatelimiterConfig} {s : RatelimiterModule}

/-- The entries of both tables and those that wait to be freed are at most `max_entries`.
`total_entries` is at least their number, and exceeds it by no more than the calls that are in
progress: with none in progress it is exact. -/
theorem total_entries_exact (h : Exec (step C) (fun _ _ => True) init s) :
    s.tables.entries C + s.tables.freeing.length ≤ C.maxEntries ∧
    ((∀ c < s.tables.nextCall, s.tables.calls c = .idle) →
      s.tables.totalEntries = (s.tables.entries C + s.tables.freeing.length : Nat)) ∧
    ((s.tables.entries C + s.tables.freeing.length : Nat) : Int) ≤ s.tables.totalEntries ∧
    s.tables.totalEntries ≤ (s.tables.entries C + s.tables.freeing.length +
      ((Finset.range s.tables.nextCall).filter fun c => s.tables.calls c ≠ .idle).card : Nat) := by
  have hinv : Linking s.tables ∧ Counted C s.tables := by
    refine h.inv (I := fun s => Linking s.tables ∧ Counted C s.tables) ⟨.init, .init⟩ fun s e t _ hi hs => ?_
    rcases step_cases hs with ⟨e', hs', -⟩ | ⟨now, i, n, rest, hgc, ht⟩
    · have hstep := RatelimiterTables.step_cases hs'
      exact ⟨hi.1.step hstep, hi.2.step hi.1 hstep⟩
    · rw [ht]
      exact ⟨hi.1.entryUninit n _, hi.2.entryUninit hi.1 hgc⟩
  obtain ⟨-, hcounted⟩ := hinv
  have htotal := hcounted.total
  have hroom := hcounted.room
  have hcalls : tally AllowCall.counting s.tables ≤
      ((Finset.range s.tables.nextCall).filter fun c => s.tables.calls c ≠ .idle).card := by
    rw [Finset.card_filter]
    refine Finset.sum_le_sum fun c _ => ?_
    rcases s.tables.calls c <;> simp [AllowCall.counting]
  refine ⟨by omega, fun hidle => ?_, by omega, by omega⟩
  have hnone : tally AllowCall.counting s.tables = 0 := Finset.sum_eq_zero fun c hc => by
    rw [hidle c (Finset.mem_range.mp hc)]
    rfl
  omega

/-- One entry is made, one allocation fails, and a pass with a NULL work takes the entry out: it
still counts. -/
theorem total_entries_exact_uninit : ∃ s, Exec (step sampleConfig) (fun _ _ => True) init s ∧ s.tables.freeing = [0] ∧
    s.tables.entries sampleConfig + 1 ≤ 128 ∧ s.tables.totalEntries = (s.tables.entries sampleConfig + 1 : Nat) := by
  have hrun : ∃ s, Exec (step sampleConfig) (fun _ _ => True) init s ∧
      (s.tables.freeing, decide (∀ c < s.tables.nextCall, s.tables.calls c = .idle)) = ([0], true) :=
    Exec.exists_of_foldlM (List.map RatelimiterModuleEvent.table
      (creates 0 ++ [.allow ⟨ethPIpv6, List.replicate 16 1, 1⟩, .search 1,
      .count 1, .alloc 1 false, .errOom 1]) ++ [.gcNull] ++ List.map RatelimiterModuleEvent.table
        (gcTo ++ [.gcEntry, .gcUnlock]))
      (fun s : RatelimiterModule => (s.tables.freeing, decide (∀ c < s.tables.nextCall, s.tables.calls c = .idle)))
      (by decide +kernel)
  obtain ⟨s, hs, hshown⟩ := hrun
  have hfreeing : s.tables.freeing = [0] := congrArg Prod.fst hshown
  have hidle := of_decide_eq_true (congrArg Prod.snd hshown)
  obtain ⟨hmax, hexact, -⟩ := total_entries_exact hs
  have htotal := hexact hidle
  rw [hfreeing] at hmax htotal
  exact ⟨s, hs, hfreeing, hmax, htotal⟩

end RatelimiterModule
end WireguardAes
