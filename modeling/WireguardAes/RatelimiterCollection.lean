import WireguardAes.RatelimiterSingle

/-!
# Collection of the entries of the rate limiter

To collect an entry is to forget a bucket that has long been full again, if the entry has not been
used since the pass read the clock and nobody is about to use it. Otherwise the collected source
gets a second burst.
-/

namespace WireguardAes

open Function Runs

namespace RatelimiterTables

variable {C : RatelimiterConfig} {s t : RatelimiterTables} {e : RatelimiterEvent}
variable {source : RateSource}

instance (source : RateSource) (n : Nat) : Decidable (Here C s source n) := inferInstanceAs (Decidable (_ ∧ _ ∧ _))

/-- No call searches for the source while another one is about to link an entry for it, there is
room for its entries, and the pass finds them not used since it read the clock, and takes out none
that a call has found. -/
def Undisturbed (C : RatelimiterConfig) (source : RateSource) (s : RatelimiterTables) : RatelimiterEvent → Prop
  | .search c => (s.calls c).searched = some source → ∀ c' < s.nextCall, (s.calls c').making ≠ some source
  | .count c => (s.calls c).making = some source → s.totalEntries + 1 ≤ C.maxEntries
  | .alloc c ok => (s.calls c).making = some source → ok = true
  | .gcEntry => ∀ v ∈ s.gc.visiting, Here C s source v.2 → (s.mem v.2).lastTimeNs.toNat ≤ v.1.toNat ∧
      (s.expired v.1 v.2 = true → ∀ c < s.nextCall, (s.calls c).foundEntry ≠ some v.2)
  | _ => True

instance (source : RateSource) : ∀ e, Decidable (Undisturbed C source s e)
  | .search _ => inferInstanceAs (Decidable (_ → ∀ c' < s.nextCall, (s.calls c').making ≠ some source))
  | .count _ => inferInstanceAs (Decidable (_ → _ ≤ _))
  | .alloc _ ok => inferInstanceAs (Decidable (_ → ok = true))
  | .gcEntry => inferInstanceAs (Decidable (∀ v ∈ s.gc.visiting, Here C s source v.2 → _ ∧
      (_ → ∀ c < s.nextCall, (s.calls c).foundEntry ≠ some v.2)))
  | .tick _ | .allow _ | .hit _ | .fill _ | .insert _ | .errOom _ | .gcStart | .gcLock | .gcUnlock | .gcEnd
  | .entryFree _ => inferInstanceAs (Decidable True)

theorem Undisturbed.alone (h : Undisturbed C source s e) : AloneFor source s e := by
  cases e with
  | search c => exact h
  | _ => trivial

def times (s : RatelimiterTables) (source : RateSource) : List U64 := (s.history source).map Prod.fst

/-- The entry that the source would have if it were never collected. -/
def kept (s : RatelimiterTables) (source : RateSource) : Option RatelimiterEntry :=
  RatelimiterEntry.after none (s.times source)

/-- What the answers to the calls for `source` are compared with. -/
structure Inv (C : RatelimiterConfig) (source : RateSource) (s : RatelimiterTables) :
    Prop extends Single C source s where
  clock : RatelimiterEntry.Clock (s.times source ++ [s.clock])
  gcNow : ∀ now ∈ s.gc.now, now.toNat ≤ s.clock.toNat
  answers : (s.history source).map Prod.snd = RatelimiterEntry.answers none (s.times source)
  here : ∀ n, Here C s source n → s.kept source = some (s.mem n).toRatelimiterEntry
  /-- A call has found an entry of the source exactly if it has searched for the source. -/
  found : ∀ c source' n, s.calls c = .found source' n → s.calls n = .idle ∧ n < s.nextCall ∧
    (Here C s source n ↔ source' = source)
  ready : ∀ c, s.calls c = .ready source → s.kept source = some (s.mem c).toRatelimiterEntry
  /-- Without an entry the source has a full bucket. -/
  absent : (∀ n, ¬ Here C s source n) → (∀ c, s.calls c ≠ .ready source) →
    ∀ entry ∈ s.kept source, entry.lastTimeNs.toNat + tokenMax ≤ s.clock.toNat
  noOom : ∀ c, s.calls c ≠ .oom source

theorem history_record (s : RatelimiterTables) (source : RateSource) (answer : Bool) :
    (s.record source answer).history source = s.history source ++ [(s.clock, answer)] := update_self ..

theorem history_record_of_ne {source' : RateSource} (answer : Bool) (hne : source' ≠ source) :
    (s.record source' answer).history source = s.history source := update_of_ne hne.symm ..

theorem times_record (s : RatelimiterTables) (source : RateSource) (answer : Bool) :
    (s.record source answer).times source = s.times source ++ [s.clock] := by
  rw [times, history_record, List.map_append]
  rfl

theorem kept_record (s : RatelimiterTables) (source : RateSource) (answer : Bool) :
    (s.record source answer).kept source = some (RatelimiterEntry.allow (s.kept source) s.clock).2 := by
  rw [kept, times_record, RatelimiterEntry.after, List.foldl_append]
  rfl

/-- Without wrapping, the pass takes out an entry that has not been used for a second. -/
theorem expired_iff {now : U64} {n : Nat} (hlast : (s.mem n).lastTimeNs.toNat ≤ now.toNat) :
    s.expired now n = true ↔ (s.mem n).lastTimeNs.toNat + nsecPerSec < now.toNat := by
  have hsec : (BitVec.ofNat 64 nsecPerSec).toNat = nsecPerSec := by decide
  unfold expired
  rw [decide_eq_true_iff, BitVec.lt_def, hsec, BitVec.toNat_sub_of_le (by rw [BitVec.le_def]; exact hlast)]
  omega

/-- A bucket that has had the time to fill up is used like a new one. -/
theorem allow_of_full {entry : Option RatelimiterEntry} {now : U64} (hnow : now.toNat < 2 ^ 63)
    (hfits : RatelimiterEntry.FitsAt entry now) (h : ∀ e ∈ entry, e.lastTimeNs.toNat + tokenMax ≤ now.toNat) :
    RatelimiterEntry.allow entry now = (true, .create now) := by
  rcases entry with _ | entry
  · rfl
  · have hlast := h entry rfl
    have hhit := (hfits entry rfl).hit hnow
    have hfull : tokenMax ≤ entry.bucket.tokens + (now.toNat - entry.bucket.last) := by
      show tokenMax ≤ entry.tokens.toNat + (now.toNat - entry.lastTimeNs.toNat)
      omega
    rw [TokenBucket.take_of_full hfull, ← RatelimiterEntry.bucket_create] at hhit
    obtain ⟨hret, hbucket⟩ := Prod.mk.inj hhit
    refine Prod.ext hret ?_
    obtain ⟨hlast, htokens⟩ := TokenBucket.mk.inj hbucket
    have hl := BitVec.eq_of_toNat_eq hlast
    have ht := BitVec.eq_of_toNat_eq htokens
    show (entry.hit now).2 = .create now
    rcases hcase : (entry.hit now).2 with ⟨l, t⟩
    rw [hcase] at hl ht
    exact congrArg₂ RatelimiterEntry.mk hl ht

theorem here_use (s : RatelimiterTables) (n m : Nat) (source : RateSource) (entry : RatelimiterEntry) :
    Here C (s.setEntry n { s.mem n with toRatelimiterEntry := entry }) source m ↔ Here C s source m :=
  here_setEntry fun _ => ⟨rfl, rfl⟩

/-- A step has left alone what the answers to the calls for `source` depend on. -/
structure Unaffected (C : RatelimiterConfig) (source : RateSource) (s t : RatelimiterTables) : Prop where
  clock : t.clock = s.clock
  gcNow : ∀ now ∈ t.gc.now, now = s.clock ∨ s.gc.now = some now
  history : t.history source = s.history source
  here : ∀ n, Here C t source n ↔ Here C s source n
  mem : ∀ n, Here C s source n ∨ s.calls n = .ready source →
    (t.mem n).toRatelimiterEntry = (s.mem n).toRatelimiterEntry

theorem Unaffected.kept (h : Unaffected C source s t) : t.kept source = s.kept source := by
  rw [RatelimiterTables.kept, times, h.history]
  rfl

namespace Inv
variable {source source' : RateSource}
variable {n c : Nat}

theorem range (h : Inv C source s) : s.clock.toNat < 2 ^ 63 :=
  h.clock.range s.clock (List.mem_append_right _ List.mem_cons_self)

theorem fits (h : Inv C source s) : RatelimiterEntry.FitsAt (s.kept source) s.clock := by
  refine RatelimiterEntry.fits_after h.clock fun t _ entry hentry => ?_
  cases hentry

theorem init : Inv C source init where
  toSingle := .init
  clock := ⟨List.pairwise_singleton _ _, by simp [RatelimiterTables.init, times]⟩
  gcNow := by rintro now ⟨⟩
  answers := rfl
  here := by rintro n ⟨⟨⟩, -⟩
  found := by rintro c source' n ⟨⟩
  ready := by rintro c ⟨⟩
  absent := by rintro - - entry ⟨⟩
  noOom := by rintro c ⟨⟩

/-- What the search finds is an entry of the source exactly if the search is for the source. -/
theorem lookup (h : Inv C source s) (hn : s.lookup C source' = some n) :
    s.calls n = .idle ∧ n < s.nextCall ∧ (Here C s source n ↔ source' = source) := by
  have hhere : Here C s source' n := h.lookup_eq_some hn
  have hlinked {P : Prop} (hnot : ¬ P → s.calls n ≠ .idle ∨ s.nextCall ≤ n) : P := by
    by_contra hP
    have hhome := h.unlinked n (hnot hP)
    rw [hhere.1] at hhome
    cases hhome
  refine ⟨hlinked .inl, hlinked fun hge => .inr (Nat.le_of_not_lt hge), hhere.source_inj, ?_⟩
  rintro rfl
  exact hhere

/-- One call goes on, without an access to what the answers depend on. -/
theorem keep (h : Inv C source s) (ht : Single C source t) (hu : Unaffected C source s t) {call : AllowCall}
    (hcalls : ∀ c', t.calls c' = if c' = c then call else s.calls c') (hnext : s.nextCall ≤ t.nextCall)
    (hidle : s.calls c = .idle → s.nextCall ≤ c ∨ call = .idle) (hready : call = .ready source ↔
      s.calls c = .ready source)
    (hfound : ∀ source' n, call = .found source' n → s.calls c = .found source' n ∨ s.lookup C source' = some n)
    (hoom : call ≠ .oom source) : Inv C source t := by
  have hsame (c' : Nat) : t.calls c' = .ready source ↔ s.calls c' = .ready source := by
    rw [hcalls]
    split
    case isTrue heq =>
      rw [heq]
      exact hready
    case isFalse => rfl
  refine ⟨ht, ?_, fun now hnow => ?_, ?_, fun n hn => ?_, fun c' source' n hc' => ?_, fun c' hc' => ?_,
    fun hnone hnot => ?_, fun c' => ?_⟩
  · rw [times, hu.history, hu.clock]
    exact h.clock
  · rw [hu.clock]
    rcases hu.gcNow now hnow with rfl | hold
    · exact le_rfl
    · exact h.gcNow now hold
  · rw [times, hu.history]
    exact h.answers
  · have hold := (hu.here n).mp hn
    rw [hu.kept, hu.mem n (.inl hold)]
    exact h.here n hold
  · have hold : s.calls n = .idle ∧ n < s.nextCall ∧ (Here C s source n ↔ source' = source) := by
      rw [hcalls] at hc'
      split at hc'
      case isTrue heq =>
        rcases hfound source' n hc' with hc' | hn
        · exact h.found c source' n hc'
        · exact h.lookup hn
      case isFalse => exact h.found c' source' n hc'
    obtain ⟨hn, hlt, hiff⟩ := hold
    refine ⟨?_, hlt.trans_le hnext, (hu.here n).trans hiff⟩
    rw [hcalls]
    split
    case isTrue heq =>
      subst heq
      exact (hidle hn).resolve_left (Nat.not_le.mpr hlt)
    case isFalse => exact hn
  · have hold := (hsame c').mp hc'
    rw [hu.kept, hu.mem c' (.inr hold)]
    exact h.ready c' hold
  · rw [hu.kept, hu.clock]
    exact h.absent (fun n hn => hnone n ((hu.here n).mpr hn)) fun c' hc' => hnot c' ((hsame c').mpr hc')
  · rw [hcalls]
    split
    · exact hoom
    · exact h.noOom c'

/-- A call that has begun goes on, and had no entry ready to be linked and has none now. -/
theorem goOn (h : Inv C source s) (ht : Single C source t) (hu : Unaffected C source s t) {old call : AllowCall}
    (hc : s.calls c = old) (hcalls : ∀ c', t.calls c' = if c' = c then call else s.calls c')
    (hnext : s.nextCall ≤ t.nextCall) (hbegun : old ≠ .idle) (hold : old ≠ .ready source)
    (hcall : call ≠ .ready source) (hfound : ∀ source' n, call = .found source' n → s.lookup C source' = some n)
    (hoom : call ≠ .oom source) : Inv C source t := by
  subst hc
  exact h.keep ht hu hcalls hnext (fun hidle => absurd hidle hbegun) (iff_of_false hcall hold)
    (fun source' n heq => .inr (hfound source' n heq)) hoom

/-- The calls stay where they are. -/
theorem keepCalls (h : Inv C source s) (ht : Single C source t) (hu : Unaffected C source s t)
    (hcalls : t.calls = s.calls)
    (hnext : t.nextCall = s.nextCall) : Inv C source t := by
  have hcall (c' : Nat) : t.calls c' = if c' = 0 then s.calls 0 else s.calls c' := by
    rw [hcalls]
    split
    case isTrue heq => rw [heq]
    case isFalse => rfl
  exact h.keep ht hu hcall hnext.ge .inr Iff.rfl (fun _ _ => .inl) (h.noOom 0)

theorem clock_record (h : Inv C source s) (answer : Bool) :
    RatelimiterEntry.Clock ((s.record source answer).times source ++ [s.clock]) := by
  obtain ⟨hmono, hrange⟩ := h.clock
  rw [times_record]
  refine ⟨List.pairwise_append.mpr ⟨hmono, List.pairwise_singleton _ _, fun a ha b hb => ?_⟩, fun now hnow => ?_⟩
  · rw [List.mem_singleton.mp hb]
    rcases List.mem_append.mp ha with ha | ha
    · exact (List.pairwise_append.mp hmono).2.2 a ha s.clock List.mem_cons_self
    · rw [List.mem_singleton.mp ha]
  · rcases List.mem_append.mp hnow with hnow | hnow
    · exact hrange now hnow
    · exact hrange now (List.mem_append_right _ hnow)

theorem answers_record (h : Inv C source s) {answer : Bool}
    (hanswer : (RatelimiterEntry.allow (s.kept source) s.clock).1 = answer) :
    ((s.record source answer).history source).map Prod.snd =
      RatelimiterEntry.answers none ((s.record source answer).times source) := by
  rw [times_record, history_record, List.map_append, h.answers, RatelimiterEntry.answers_append, ← hanswer]
  rfl

theorem tick (h : Inv C source s) {now : U64} (hle : s.clock.toNat ≤ now.toNat) (hrange : now.toNat < 2 ^ 63) :
    Inv C source { s with clock := now } :=
  { h with
    clock := by
      obtain ⟨hmono, hr⟩ := h.clock
      obtain ⟨htimes, -, hlast⟩ := List.pairwise_append.mp hmono
      refine ⟨List.pairwise_append.mpr ⟨htimes, List.pairwise_singleton _ _, fun a ha b hb => ?_⟩, fun t ht => ?_⟩
      · rw [List.mem_singleton.mp hb]
        exact (hlast a ha s.clock List.mem_cons_self).trans hle
      · rcases List.mem_append.mp ht with ht | ht
        · exact hr t (List.mem_append_left _ ht)
        · rw [List.mem_singleton.mp ht]
          exact hrange
    gcNow := fun now' hnow' => (h.gcNow now' hnow').trans hle
    absent := fun hnone hnot entry hentry => (h.absent hnone hnot entry hentry).trans hle }

/-- A call for the source is answered from the entry `n`: the one that there is, or that is now
ready to be linked. -/
theorem answer (h : Inv C source s) (hs : Single C source t) {entry : HashedEntry} {allowed : Bool} {call : AllowCall}
    (ht : t = ((s.setEntry n entry).record source allowed).setCall c call)
    (hallow : RatelimiterEntry.allow (s.kept source) s.clock = (allowed, entry.toRatelimiterEntry))
    (hhere : ∀ m, Here C t source m ↔ Here C s source m) (hn : Here C t source n ∨ t.calls n = .ready source)
    (hidle : s.calls c = .idle → call = .idle) (hfound : ∀ source' m, call ≠ .found source' m)
    (hoom : call ≠ .oom source) : Inv C source t := by
  have hcalls (c' : Nat) : t.calls c' = if c' = c then call else s.calls c' := by
    subst ht
    exact calls_setCall ..
  have hkept : t.kept source = some (t.mem n).toRatelimiterEntry := by
    subst ht
    refine (kept_record _ source _).trans ?_
    show some (RatelimiterEntry.allow (s.kept source) s.clock).2 = some ((s.setEntry n entry).mem n).toRatelimiterEntry
    rw [hallow, mem_setEntry, if_pos rfl]
  have hmaking {c' : Nat} (hc' : t.calls c' = .ready source) := hs.making c' (by rw [hc']; rfl)
  refine ⟨hs, ?_, ?_, ?_, fun m hm => ?_, fun c' source' m hc' => ?_, fun c' hc' => ?_,
    fun hnone hnot => ?_, fun c' hc' => ?_⟩
  · subst ht
    exact h.clock_record _
  · subst ht
    exact h.gcNow
  · subst ht
    exact h.answers_record (congrArg Prod.fst hallow)
  · rcases hn with hn | hn
    · rw [hs.unique m n hm hn]
      exact hkept
    · exact absurd hm ((hmaking hn).1 m)
  · rw [hcalls] at hc'
    split at hc'
    case isTrue => exact absurd hc' (hfound source' m)
    case isFalse =>
      obtain ⟨hm, hlt, hiff⟩ := h.found c' source' m hc'
      refine ⟨?_, ?_, (hhere m).trans hiff⟩
      · rw [hcalls]
        split
        case isTrue heq => exact hidle (heq ▸ hm)
        case isFalse => exact hm
      · subst ht
        exact hlt
  · rcases hn with hn | hn
    · exact absurd hn ((hmaking hc').1 n)
    · rw [(hmaking hn).2 c' (by rw [hc']; rfl)]
      exact hkept
  · rcases hn with hn | hn
    · exact absurd hn (hnone n)
    · exact absurd hn (hnot n)
  · rw [hcalls] at hc'
    split at hc'
    · exact hoom hc'
    · exact h.noOom c' hc'

/-- A call that has found an entry of the source uses it. -/
theorem use (h : Inv C source s) (hc : s.calls c = .found source n) (hs : Single C source t)
    (ht : t = ((s.setEntry n { s.mem n with toRatelimiterEntry := ((s.mem n).hit s.clock).2 }).record source
      ((s.mem n).hit s.clock).1).setCall c .idle) : Inv C source t := by
  have hn : Here C s source n := (h.found c source n hc).2.2.mpr rfl
  have hallow : RatelimiterEntry.allow (s.kept source) s.clock = (s.mem n).hit s.clock := by
    rw [h.here n hn]
    rfl
  have hhere (m : Nat) : Here C t source m ↔ Here C s source m := by
    subst ht
    exact here_use s n m source _
  exact h.answer hs ht hallow hhere (.inl ((hhere n).mpr hn)) (fun _ => rfl) (by rintro _ _ ⟨⟩) (by rintro ⟨⟩)

/-- While a call is about to make an entry for it, the source has a full bucket, or none. -/
theorem allow_allocated (h : Inv C source s) (hc : s.calls c = .allocated source) :
    RatelimiterEntry.allow (s.kept source) s.clock = (true, .create s.clock) := by
  obtain ⟨hnone, honly⟩ := h.making c (by rw [hc]; rfl)
  refine allow_of_full h.range h.fits (h.absent hnone fun c' hc' => ?_)
  have heq := honly c' (by rw [hc']; rfl)
  rw [heq, hc] at hc'
  cases hc'

theorem fill (h : Inv C source s) (hc : s.calls c = .allocated source) (hs : Single C source t)
    (ht : t = ((s.setEntry c ⟨.create s.clock, source.net, source.ip⟩).record source true).setCall c (.ready source)) :
    Inv C source t := by
  have hhome : s.chains.home c = none := h.unlinked c (.inl (by rw [hc]; rintro ⟨⟩))
  have hhere (m : Nat) : Here C t source m ↔ Here C s source m := by
    subst ht
    exact here_setEntry fun hne => absurd hhome hne
  have hready : t.calls c = .ready source := by
    subst ht
    exact calls_setCall_self ..
  refine h.answer hs ht (h.allow_allocated hc) hhere (.inr hready) (fun hidle => ?_) (by rintro _ _ ⟨⟩) (by rintro ⟨⟩)
  rw [hc] at hidle
  cases hidle

theorem insert (h : Inv C source s) (hc : s.calls c = .ready source)
    (hs : Single C source { s.setCall c .idle with chains := s.chains.pushHead c (C.bucket source) }) :
    Inv C source { s.setCall c .idle with chains := s.chains.pushHead c (C.bucket source) } := by
  have hiff (m : Nat) := h.here_insert (C := C) hc source m
  have hcall {c' : Nat} {call : AllowCall} (hne : call ≠ .idle) (hc' : (s.setCall c .idle).calls c' = call) :
      s.calls c' = call := by
    rw [calls_setCall] at hc'
    split at hc'
    · exact absurd hc'.symm hne
    · exact hc'
  have hnone := (h.making c (by rw [hc]; rfl)).1
  exact {
    toSingle := hs
    clock := h.clock
    gcNow := h.gcNow
    answers := h.answers
    here := fun m hm => by
      rcases (hiff m).mp hm with hm | ⟨rfl, -⟩
      · exact absurd hm (hnone m)
      · exact h.ready m hc
    found := fun c' source' m hc' => by
      obtain ⟨hm, hlt, hmiff⟩ := h.found c' source' m (hcall (by rintro ⟨⟩) hc')
      have hmc : m ≠ c := by
        rintro rfl
        rw [hc] at hm
        cases hm
      refine ⟨(calls_setCall_of_ne _ hmc).trans hm, hlt, ((hiff m).trans (or_iff_left ?_)).trans hmiff⟩
      exact fun hm => hmc hm.1
    ready := fun c' hc' => h.ready c' (hcall (by rintro ⟨⟩) hc')
    absent := fun hnone' => absurd ((hiff c).mpr (.inr ⟨rfl, rfl⟩)) (hnone' c)
    noOom := fun c' hc' => h.noOom c' (hcall (by rintro ⟨⟩) hc') }

/-- The pass takes out an entry of the source that has not been used for a second and that nobody is
about to use. -/
theorem evict (h : Inv C source s) {now : U64} {i : Nat} {rest : List Nat} (hgc : s.gc = .locked now i (n :: rest))
    (hn : Here C s source n) (hexp : s.expired now n = true) (hlast : (s.mem n).lastTimeNs.toNat ≤ now.toNat)
    (hfound : ∀ c < s.nextCall, (s.calls c).foundEntry ≠ some n) :
    Inv C source { s.entryUninit n with gc := .locked now i rest } := by
  have hnow : now.toNat ≤ s.clock.toNat := h.gcNow now (by rw [hgc]; rfl)
  have hiff (m : Nat) : Here C { s.entryUninit n with gc := .locked now i rest } source m ↔ m ≠ n ∧ Here C s source m :=
    here_unlink _
  exact {
    toSingle := h.toSingle.entryUninit n _
    clock := h.clock
    gcNow := by
      rintro _ ⟨⟩
      exact hnow
    answers := h.answers
    here := fun m hm => h.here m ((hiff m).mp hm).2
    found := fun c source' m hc => by
      obtain ⟨hm, hlt, hmiff⟩ := h.found c source' m hc
      have hmn : m ≠ n := by
        rintro rfl
        refine hfound c (h.lt_nextCall ?_) (congrArg AllowCall.foundEntry hc)
        rw [show s.calls c = _ from hc]
        rintro ⟨⟩
      exact ⟨hm, hlt, ((hiff m).trans (and_iff_right hmn)).trans hmiff⟩
    ready := h.ready
    absent := fun _ _ entry hentry => by
      have hkept : s.kept source = some (s.mem n).toRatelimiterEntry := h.here n hn
      obtain rfl : (s.mem n).toRatelimiterEntry = entry := Option.some.inj (hkept.symm.trans hentry)
      have hold := (expired_iff hlast).mp hexp
      have hmax : tokenMax ≤ nsecPerSec := by decide
      show _ ≤ s.clock.toNat
      omega
    noOom := h.noOom }

theorem step (h : Inv C source s) (hok : Undisturbed C source s e) (hs : Step C s e t) : Inv C source t := by
  have hsingle : Single C source t := h.toSingle.step hok.alone hs
  have hgcNow : ∀ now ∈ s.gc.now, now = s.clock ∨ s.gc.now = some now := fun now hnow => .inr hnow
  cases hs with
  | tick hle hrange => exact h.tick hle hrange
  | ignore => exact h
  | allow =>
    refine h.keep hsingle ⟨rfl, hgcNow, rfl, fun _ => Iff.rfl, fun _ _ => rfl⟩ (calls_setCall s _ · _) (Nat.le_succ _)
      (fun _ => .inl le_rfl) ?_ (by rintro _ _ ⟨⟩) (by rintro ⟨⟩)
    rw [h.started s.nextCall le_rfl]
    exact iff_of_false (by rintro ⟨⟩) (by rintro ⟨⟩)
  | find hc hn =>
    refine h.goOn hsingle ⟨rfl, hgcNow, rfl, fun _ => Iff.rfl, fun _ _ => rfl⟩ hc (calls_setCall s _ · _) le_rfl
      (by rintro ⟨⟩) (by rintro ⟨⟩) (by rintro ⟨⟩) ?_ (by rintro ⟨⟩)
    rintro _ _ ⟨⟩
    exact hn
  | miss hc =>
    exact h.goOn hsingle ⟨rfl, hgcNow, rfl, fun _ => Iff.rfl, fun _ _ => rfl⟩ hc (calls_setCall s _ · _) le_rfl
      (by rintro ⟨⟩) (by rintro ⟨⟩) (by rintro ⟨⟩) (by rintro _ _ ⟨⟩) (by rintro ⟨⟩)
  | @hit c n source' hc =>
    by_cases hne : source' = source
    · subst hne
      exact h.use hc hsingle rfl
    · obtain ⟨hn, -, hiff⟩ := h.found c source' n hc
      refine h.goOn hsingle ⟨rfl, hgcNow, history_record_of_ne _ hne, fun m => here_use s n m source _,
        fun m hm => ?_⟩ hc (calls_setCall _ c · _) le_rfl (by rintro ⟨⟩) (by rintro ⟨⟩) (by rintro ⟨⟩)
        (by rintro _ _ ⟨⟩) (by rintro ⟨⟩)
      show ((s.setEntry n _).mem m).toRatelimiterEntry = _
      rw [mem_setEntry_of_ne]
      rintro rfl
      rcases hm with hm | hm
      · exact hne (hiff.mp hm)
      · rw [hn] at hm
        cases hm
  | @count c source' call hc hcall =>
    have hmake : source' = source → (s.calls c).making = some source := by
      rintro rfl
      rw [hc]
      rfl
    refine h.goOn hsingle ⟨rfl, hgcNow, rfl, fun _ => Iff.rfl, fun _ _ => rfl⟩ hc (calls_setCall s _ · _) le_rfl
      (by rintro ⟨⟩) (by rintro ⟨⟩) ?_ ?_ ?_
    · rcases hcall with ⟨rfl, -⟩ | ⟨rfl, -⟩ <;> rintro ⟨⟩
    · rcases hcall with ⟨rfl, -⟩ | ⟨rfl, -⟩ <;> rintro _ _ ⟨⟩
    · rcases hcall with ⟨rfl, hmax⟩ | ⟨rfl, -⟩
      · rintro ⟨⟩
        exact absurd (hok (hmake rfl)) (not_le.mpr hmax)
      · rintro ⟨⟩
  | @alloc c ok source' call hc hcall =>
    refine h.goOn hsingle ⟨rfl, hgcNow, rfl, fun _ => Iff.rfl, fun _ _ => rfl⟩ hc (calls_setCall s _ · _) le_rfl
      (by rintro ⟨⟩) (by rintro ⟨⟩) ?_ ?_ ?_
    · rcases hcall with ⟨rfl, -⟩ | rfl <;> rintro ⟨⟩
    · rcases hcall with ⟨rfl, -⟩ | rfl <;> rintro _ _ ⟨⟩
    · rcases hcall with ⟨rfl, rfl⟩ | rfl
      · rintro ⟨⟩
        exact absurd (hok (by rw [hc]; rfl)) (by decide)
      · rintro ⟨⟩
  | @fill c source' hc =>
    by_cases hne : source' = source
    · subst hne
      exact h.fill hc hsingle rfl
    · have hhome : s.chains.home c = none := h.unlinked c (.inl (by rw [hc]; rintro ⟨⟩))
      refine h.goOn hsingle ⟨rfl, hgcNow, history_record_of_ne _ hne,
        fun m => here_setEntry fun hlinked => absurd hhome hlinked, fun m hm => ?_⟩ hc (calls_setCall _ c · _) le_rfl
        (by rintro ⟨⟩) (by rintro ⟨⟩) (fun heq => hne (AllowCall.ready.inj heq)) (by rintro _ _ ⟨⟩) (by rintro ⟨⟩)
      show ((s.setEntry c _).mem m).toRatelimiterEntry = _
      rw [mem_setEntry_of_ne]
      rintro rfl
      rcases hm with hm | hm
      · rw [hm.1] at hhome
        cases hhome
      · rw [hc] at hm
        cases hm
  | @insert c source' hc =>
    by_cases hne : source' = source
    · subst hne
      exact h.insert hc hsingle
    · have hhere (m : Nat) := (h.here_insert (C := C) hc source m).trans (or_iff_left fun hm => hne hm.2.symm)
      exact h.goOn hsingle ⟨rfl, hgcNow, rfl, hhere, fun _ _ => rfl⟩ hc (calls_setCall s c · _) le_rfl
        (by rintro ⟨⟩) (fun heq => hne (AllowCall.ready.inj heq)) (by rintro ⟨⟩) (by rintro _ _ ⟨⟩) (by rintro ⟨⟩)
  | @errOom c source' hc =>
    have hne : source' ≠ source := by
      rintro rfl
      exact h.noOom c hc
    exact h.goOn hsingle ⟨rfl, hgcNow, history_record_of_ne _ hne, fun _ => Iff.rfl, fun _ _ => rfl⟩ hc
      (calls_setCall s c · _) le_rfl (by rintro ⟨⟩) (by rintro ⟨⟩) (by rintro ⟨⟩) (by rintro _ _ ⟨⟩) (by rintro ⟨⟩)
  | gc hgc => exact h.keepCalls hsingle ⟨rfl, hgc, rfl, fun _ => Iff.rfl, fun _ _ => rfl⟩ rfl rfl
  | @evict now i n rest hgc hexp =>
    by_cases hn : Here C s source n
    · obtain ⟨hlast, hfound⟩ := hok (now, n) (by rw [hgc]; rfl) hn
      exact h.evict hgc hn hexp hlast (hfound hexp)
    · refine h.keepCalls hsingle ⟨rfl, ?_, rfl, fun m => (here_unlink _).trans
        (and_iff_right_of_imp ?_), fun _ _ => rfl⟩
        rfl rfl
      · rintro _ ⟨⟩
        rw [hgc]
        exact .inr rfl
      · rintro hm rfl
        exact hn hm
  | free => exact h.keepCalls hsingle ⟨rfl, hgcNow, rfl, fun _ => Iff.rfl, fun _ _ => rfl⟩ rfl rfl

end Inv

/-- The answers to the calls for a source are those that it would get if its entry were kept for
ever, and the pass comes to no entry of the source that it takes out within a second of its last
use. -/
theorem gc_invisible {source : RateSource} (h : Exec (step C) (Undisturbed C source) init s) :
    (s.history source).map Prod.snd = RatelimiterEntry.answers none (s.times source) ∧
    ∀ v ∈ s.gc.visiting, Here C s source v.2 → s.expired v.1 v.2 = true → Undisturbed C source s .gcEntry →
      (s.mem v.2).lastTimeNs.toNat + nsecPerSec < s.clock.toNat := by
  have hinv : Inv C source s := h.inv .init fun _ _ _ hok hi hs => hi.step hok (step_cases hs)
  refine ⟨hinv.answers, fun v hv hn hexp hok => ?_⟩
  have hold := (expired_iff (hok v hv hn).1).mp hexp
  have hnow : v.1.toNat ≤ s.clock.toNat := by
    refine hinv.gcNow v.1 ?_
    rcases hgc : s.gc with _ | _ | ⟨now, i, _ | ⟨n, rest⟩⟩ <;> rw [hgc] at hv <;> cases hv
    rfl
  omega

/-- The entry of the first call is collected after more than a second; the source starts anew with
the same answers. -/
theorem gc_invisible_collected : ∃ s, Exec (step sampleConfig) (Undisturbed sampleConfig sampleRateSource) init s ∧
    s.freeing = [0] ∧
    (s.history sampleRateSource).map Prod.snd = [true, true, true] ∧
    RatelimiterEntry.answers none (s.times sampleRateSource) = [true, true, true] := by
  have hrun : ∃ s, Exec (step sampleConfig) (Undisturbed sampleConfig sampleRateSource) init s ∧
      shown s = ([(5, true), (5, true), (1000000006, true)], [0], 2) :=
    Exec.exists_of_foldlM ([.tick 5] ++ creates 0 ++ hits 1 ++ [.tick 1000000006, .gcStart] ++
      gcTo ++ [.gcEntry, .gcUnlock] ++
      creates 2) shown (by decide +kernel)
  obtain ⟨s, hs, hshown⟩ := hrun
  have hhist : (s.history sampleRateSource).map Prod.snd = [true, true, true] :=
    congrArg (fun r => (Prod.fst r).map Prod.snd) hshown
  refine ⟨s, hs, congrArg (fun r => r.2.1) hshown, hhist, ?_⟩
  rw [← (gc_invisible hs).1]
  exact hhist

/-- The entry is used up after the pass has read the clock; the pass takes it out all the same, and
the sixth packet of the burst is allowed. -/
theorem usedEntry_collected : ∃ s, Exec (step sampleConfig) (fun _ _ => True) init s ∧ s.freeing = [0] ∧
    (s.mem 0).lastTimeNs = s.clock ∧
    (s.history sampleRateSource).map Prod.snd = [true, true, true, true, true, true] ∧
    RatelimiterEntry.answers none (s.times sampleRateSource) = [true, true, true, true, true, false] := by
  have hrun : ∃ s, Exec (step sampleConfig) (fun _ _ => True) init s ∧
      (shown s, (s.mem 0).lastTimeNs, s.clock) =
        (([(6, true), (6, true), (6, true), (6, true), (6, true), (6, true)], [0], 2), 6, 6) :=
    Exec.exists_of_foldlM ([.tick 5, .gcStart, .tick 6] ++ creates 0 ++ hits 1 ++ hits 2 ++ hits 3 ++ hits 4 ++ gcTo ++
      [.gcEntry, .gcUnlock] ++ creates 5) (fun s => (shown s, (s.mem 0).lastTimeNs, s.clock)) (by decide +kernel)
  obtain ⟨s, hs, hres⟩ := hrun
  have hhist : s.history sampleRateSource = [(6, true), (6, true), (6, true), (6, true), (6, true), (6, true)] :=
    congrArg (fun r => r.1.1) hres
  refine ⟨s, hs, congrArg (fun r => r.1.2.1) hres, ?_, ?_, ?_⟩
  · exact (congrArg (fun r => r.2.1) hres).trans (congrArg (fun r => r.2.2) hres).symm
  · rw [hhist]
    rfl
  · rw [times, hhist]
    decide +kernel

end RatelimiterTables
end WireguardAes
