import WireguardAes.RatelimiterTable

/-!
# One entry for each source (`ratelimiter.c`)

The search for an entry and the insertion of a new one are in different critical sections, and
nobody looks again before the insertion. A call that has found no entry is *making* one until it has
linked it. Two calls that are making an entry for the same source link two of them; as long as no
call searches for a source that another call is making an entry for, there is never more than one.
-/

namespace WireguardAes

open Function Runs

namespace RatelimiterTables

variable {C : RatelimiterConfig} {s t : RatelimiterTables} {e : RatelimiterEvent}
variable {c n : Nat} {source : RateSource}

/-- Where the entries of the calls are. -/
structure Linking (s : RatelimiterTables) : Prop where
  wf : s.chains.WF
  /-- An entry is linked when the call that has made it is over. -/
  unlinked : ∀ n, s.calls n ≠ .idle ∨ s.nextCall ≤ n → s.chains.home n = none
  started : ∀ c, s.nextCall ≤ c → s.calls c = .idle
  key : ∀ c source, s.calls c = .ready source → (s.mem c).net = source.net ∧ (s.mem c).ip = source.ip

namespace Linking

theorem init : Linking init where
  wf := .empty
  unlinked _ _ := rfl
  started _ _ := rfl
  key := by rintro c source ⟨⟩

theorem lt_nextCall (h : Linking s) (hc : s.calls c ≠ .idle) : c < s.nextCall := by
  by_contra hge
  exact hc (h.started c (Nat.le_of_not_lt hge))

theorem setCall (h : Linking s) {call : AllowCall} (hlt : c < s.nextCall) (hhome : s.chains.home c = none)
    (hkey : ∀ source, call = .ready source → (s.mem c).net = source.net ∧ (s.mem c).ip = source.ip) :
    Linking (s.setCall c call) where
  wf := h.wf
  unlinked n hn := by
    rw [calls_setCall] at hn
    split_ifs at hn with heq
    · rw [heq]
      exact hhome
    · exact h.unlinked n hn
  started c' hc' := by
    rw [calls_setCall, if_neg (by have : s.nextCall ≤ c' := hc'; omega)]
    exact h.started c' hc'
  key c' source hc' := by
    rw [calls_setCall] at hc'
    split_ifs at hc' with heq
    · rw [heq]
      exact hkey source hc'
    · exact h.key c' source hc'

theorem goOn (h : Linking s) {call : AllowCall} (hc : s.calls c ≠ .idle)
    (hkey : ∀ source, call = .ready source → (s.mem c).net = source.net ∧ (s.mem c).ip = source.ip) :
    Linking (s.setCall c call) :=
  h.setCall (h.lt_nextCall hc) (h.unlinked c (.inl hc)) hkey

theorem next (h : Linking s) : Linking { s with nextCall := s.nextCall + 1 } :=
  { h with
    unlinked := fun n hn => h.unlinked n (hn.imp_right Nat.le_of_succ_le)
    started := fun c hc => h.started c (Nat.le_of_succ_le hc) }

theorem allow (h : Linking s) (source : RateSource) :
    Linking { s.setCall s.nextCall (.searching source) with nextCall := s.nextCall + 1 } := by
  refine h.next.setCall (Nat.lt_succ_self _) (h.unlinked _ (.inr le_rfl)) ?_
  rintro _ ⟨⟩

theorem setEntry (h : Linking s) {entry : HashedEntry}
    (hkey : ∀ source, s.calls n = .ready source → entry.net = source.net ∧ entry.ip = source.ip) :
    Linking (s.setEntry n entry) where
  wf := h.wf
  unlinked := h.unlinked
  started := h.started
  key c source hc := by
    rw [mem_setEntry]
    split_ifs with heq
    · exact hkey source (heq ▸ hc)
    · exact h.key c source hc

theorem fill (h : Linking s) (hc : s.calls c = .allocated source) (entry : RatelimiterEntry) :
    Linking (s.setEntry c ⟨entry, source.net, source.ip⟩) ∧
      Linking ((s.setEntry c ⟨entry, source.net, source.ip⟩).setCall c (.ready source)) := by
  have hset : Linking (s.setEntry c ⟨entry, source.net, source.ip⟩) := h.setEntry fun source' hready => by
    rw [hc] at hready
    cases hready
  refine ⟨hset, hset.goOn ?_ ?_⟩
  · show s.calls c ≠ _
    rw [hc]
    rintro ⟨⟩
  · rintro _ ⟨⟩
    rw [mem_setEntry, if_pos rfl]
    exact ⟨rfl, rfl⟩

theorem insert (h : Linking s) (hc : s.calls c = .ready source) (b : Family × Nat) :
    Linking { s.setCall c .idle with chains := s.chains.pushHead c b } := by
  have hidle : s.calls c ≠ .idle := by
    rw [hc]
    rintro ⟨⟩
  have hlt := h.lt_nextCall hidle
  have hcall : Linking (s.setCall c .idle) := h.goOn hidle (by rintro _ ⟨⟩)
  refine ⟨h.wf.pushHead (h.unlinked c (.inl hidle)) b, fun n hn => ?_, hcall.started, hcall.key⟩
  have hnc : n ≠ c := by
    rintro rfl
    rcases hn with hn | hn
    · exact hn (calls_setCall_self s n .idle)
    · exact absurd hlt (Nat.not_lt.mpr hn)
  rw [HashChains.home_pushHead, update_of_ne hnc]
  exact hcall.unlinked n hn

theorem entryUninit (h : Linking s) (n : Nat) (gc : GcPass) : Linking { s.entryUninit n with gc := gc } := by
  refine ⟨h.wf.unlink n, fun m hm => ?_, h.started, h.key⟩
  show (s.chains.unlink n).home m = none
  rw [HashChains.home_unlink, update_apply]
  split
  · rfl
  · exact h.unlinked m hm

theorem step (h : Linking s) (hs : Step C s e t) : Linking t := by
  have hidle {c : Nat} {call : AllowCall} (hc : s.calls c = call) (hne : call ≠ .idle) : s.calls c ≠ .idle := hc ▸ hne
  cases hs with
  | tick => exact { h with }
  | ignore => exact h
  | allow => exact h.allow _
  | find hc => exact h.goOn (hidle hc (by rintro ⟨⟩)) (by rintro _ ⟨⟩)
  | miss hc => exact h.goOn (hidle hc (by rintro ⟨⟩)) (by rintro _ ⟨⟩)
  | @hit c n source hc =>
    have hused : Linking (s.setEntry n { s.mem n with toRatelimiterEntry :=
      ((s.mem n).hit s.clock).2 }) := h.setEntry (h.key n)
    have hcall : Linking (RatelimiterTables.setCall _ c .idle) := hused.goOn (hidle hc (by rintro ⟨⟩)) (by rintro _ ⟨⟩)
    exact { hcall with }
  | @count c source call hc hcall =>
    have hcounted : Linking (s.setCall c call) := by
      refine h.goOn (hidle hc (by rintro ⟨⟩)) fun source' he => ?_
      rcases hcall with ⟨rfl, -⟩ | ⟨rfl, -⟩ <;> cases he
    exact { hcounted with }
  | alloc hc hcall =>
    refine h.goOn (hidle hc (by rintro ⟨⟩)) fun source' he => ?_
    rcases hcall with ⟨rfl, -⟩ | rfl <;> cases he
  | fill hc =>
    have hfilled := (h.fill hc (.create s.clock)).2
    exact { hfilled with }
  | insert hc => exact h.insert hc _
  | @errOom c source hc =>
    have hcall : Linking (s.setCall c .idle) := h.goOn (hidle hc (by rintro ⟨⟩)) (by rintro _ ⟨⟩)
    exact { hcall with }
  | gc => exact { h with }
  | evict => exact h.entryUninit _ _
  | free => exact { h with }

/-- A call in the read section finds an entry of the source, if there is one. -/
theorem lookup_eq_some (h : Linking s) (hn : s.lookup C source = some n) :
    Here C s source n := by
  have hkey := List.find?_some hn
  rw [decide_eq_true_iff] at hkey
  exact ⟨(h.wf.mem_iff n _).mp (List.mem_of_find?_eq_some hn), hkey⟩

theorem lookup_eq_none (h : Linking s) (hn : s.lookup C source = none) (n : Nat) :
    ¬ Here C s source n := by
  rintro ⟨hhome, hkey⟩
  exact List.find?_eq_none.mp hn n ((h.wf.mem_iff n _).mpr hhome) (decide_eq_true hkey)

theorem here_insert (h : Linking s) (hc : s.calls c = .ready source)
    (source' : RateSource) (m : Nat) :
    Here C { s.setCall c .idle with chains := s.chains.pushHead c (C.bucket source) } source' m ↔
      Here C s source' m ∨ m = c ∧ source' = source :=
  here_pushHead (h.unlinked c (.inl (by rw [hc]; rintro ⟨⟩))) (h.key c source hc).1 (h.key c source hc).2

end Linking

/-! ### No second entry -/

/-- The source has at most one entry, and none while a call is making one, which no other call
is. -/
structure Single (C : RatelimiterConfig) (source : RateSource) (s : RatelimiterTables) : Prop extends Linking s where
  unique : ∀ n n', Here C s source n → Here C s source n' → n = n'
  making : ∀ c, (s.calls c).making = some source → (∀ n, ¬ Here C s source n) ∧
    ∀ c', (s.calls c').making = some source → c' = c

namespace Single
variable {source : RateSource}
variable {c : Nat}

theorem init : Single C source init where
  toLinking := .init
  unique := by rintro n n' ⟨⟨⟩, -⟩
  making := by rintro c ⟨⟩

theorem setCall (h : Single C source s) {call : AllowCall} (hlinking : Linking (s.setCall c call))
    (hmaking : call.making = some source → (∀ n, ¬ Here C s source n) ∧
      ∀ c', c' ≠ c → (s.calls c').making ≠ some source) : Single C source (s.setCall c call) where
  toLinking := hlinking
  unique := h.unique
  making c' hc' := by
    by_cases heq : c' = c
    · subst heq
      rw [calls_setCall_self] at hc'
      obtain ⟨hnone, hother⟩ := hmaking hc'
      refine ⟨hnone, fun c'' hc'' => ?_⟩
      by_contra hne
      rw [calls_setCall_of_ne _ hne] at hc''
      exact hother c'' hne hc''
    · rw [calls_setCall_of_ne _ heq] at hc'
      obtain ⟨hnone, honly⟩ := h.making c' hc'
      refine ⟨hnone, fun c'' hc'' => ?_⟩
      rw [calls_setCall] at hc''
      split at hc''
      · exact absurd hc' ((hmaking hc'').2 c' heq)
      · exact honly c'' hc''

/-- A call that is making an entry for the source afterwards has been making it before. -/
theorem goOn (h : Single C source s) {call : AllowCall} (hlinking : Linking (s.setCall c call))
    (hmaking : call.making = some source → (s.calls c).making = some source) : Single C source (s.setCall c call) := by
  refine h.setCall hlinking fun hnew => ?_
  obtain ⟨hnone, honly⟩ := h.making c (hmaking hnew)
  exact ⟨hnone, fun c' hne hc' => hne (honly c' hc')⟩

theorem setEntry (h : Single C source s) {n : Nat} {entry : HashedEntry} (hlinking : Linking (s.setEntry n entry))
    (hkey : s.chains.home n ≠ none → entry.net = (s.mem n).net ∧ entry.ip = (s.mem n).ip) :
    Single C source (s.setEntry n entry) where
  toLinking := hlinking
  unique m m' hm hm' := h.unique m m' ((here_setEntry hkey).mp hm) ((here_setEntry hkey).mp hm')
  making c hc := by
    obtain ⟨hnone, honly⟩ := h.making c hc
    exact ⟨fun m hm => hnone m ((here_setEntry hkey).mp hm), honly⟩

theorem insert (h : Single C source s) {source' : RateSource} (hc : s.calls c = .ready source') :
    Single C source { s.setCall c .idle with chains := s.chains.pushHead c (C.bucket source') } := by
  have hiff (m : Nat) := h.toLinking.here_insert (C := C) hc source m
  have hmaking (heq : source = source') : (s.calls c).making = some source := by
    rw [hc, heq]
    rfl
  have hold {c' : Nat} (hc' : ((s.setCall c .idle).calls c').making = some source) :
      c' ≠ c ∧ (s.calls c').making = some source := by
    rw [calls_setCall] at hc'
    split at hc'
    case isTrue => cases hc'
    case isFalse hne => exact ⟨hne, hc'⟩
  refine ⟨h.toLinking.insert hc _, fun m m' hm hm' => ?_, fun c' hc' => ?_⟩
  · rcases (hiff m).mp hm with hwas | ⟨rfl, hs⟩ <;> rcases (hiff m').mp hm' with hwas' | ⟨rfl, hs'⟩
    · exact h.unique m m' hwas hwas'
    · exact absurd hwas ((h.making m' (hmaking hs')).1 m)
    · exact absurd hwas' ((h.making m (hmaking hs)).1 m')
    · rfl
  · obtain ⟨hcc, hc'⟩ := hold hc'
    obtain ⟨hnone, honly⟩ := h.making c' hc'
    refine ⟨fun m hm => ?_, fun c'' hc'' => honly c'' (hold hc'').2⟩
    rcases (hiff m).mp hm with hm | ⟨-, hs⟩
    · exact hnone m hm
    · exact hcc (honly c (hmaking hs)).symm

theorem entryUninit (h : Single C source s) (n : Nat) (gc : GcPass) : Single C source
    { s.entryUninit n with gc := gc } where
  toLinking := h.toLinking.entryUninit n gc
  unique m m' hm hm' := h.unique m m' ((here_unlink gc).mp hm).2 ((here_unlink gc).mp hm').2
  making c hc := by
    obtain ⟨hnone, honly⟩ := h.making c hc
    exact ⟨fun m hm => hnone m ((here_unlink gc).mp hm).2, honly⟩

end Single

/-- The event is no search for the source while another call that has found no entry for it has not
linked its own. -/
def AloneFor (source : RateSource) (s : RatelimiterTables) : RatelimiterEvent → Prop
  | .search c => (s.calls c).searched = some source → ∀ c' < s.nextCall, (s.calls c').making ≠ some source
  | _ => True

/-- No call searches for a source while another call that has found no entry for it has not linked
its own. -/
def Alone (s : RatelimiterTables) : RatelimiterEvent → Prop
  | .search c => ∀ source ∈ (s.calls c).searched, ∀ c' < s.nextCall, (s.calls c').making ≠ some source
  | _ => True

instance : ∀ e, Decidable (Alone s e)
  | .search c => inferInstanceAs
      (Decidable (∀ source ∈ (s.calls c).searched, ∀ c' < s.nextCall, (s.calls c').making ≠ some source))
  | .tick _ | .allow _ | .hit _ | .count _ | .alloc _ _ | .fill _ | .insert _
    | .errOom _ | .gcStart | .gcLock | .gcEntry
  | .gcUnlock | .gcEnd | .entryFree _ => inferInstanceAs (Decidable True)

theorem Alone.for (h : Alone s e) (source : RateSource) : AloneFor source s e := by
  cases e with
  | search c => exact h source
  | _ => trivial

theorem Single.step (h : Single C source s) (hok : AloneFor source s e) (hs : Step C s e t) :
    Single C source t := by
  have hlinking := h.toLinking.step hs
  cases hs with
  | tick => exact { h with }
  | ignore => exact h
  | allow =>
    have hnext : Single C source { s with nextCall := s.nextCall + 1 } := { h with toLinking := h.toLinking.next }
    exact hnext.goOn hlinking (by rintro ⟨⟩)
  | find hc => exact h.goOn hlinking (by rintro ⟨⟩)
  | @miss c source' hc hn =>
    refine h.setCall hlinking ?_
    rintro ⟨⟩
    refine ⟨h.lookup_eq_none hn, fun c' _ hc' => hok (by rw [hc]; rfl) c' (h.lt_nextCall fun hidle => ?_) hc'⟩
    rw [hidle] at hc'
    cases hc'
  | @hit c n source' hc =>
    have hused : Single C source (s.setEntry n { s.mem n with toRatelimiterEntry := ((s.mem n).hit s.clock).2 }) :=
      h.setEntry (h.toLinking.setEntry (h.key n)) fun _ => ⟨rfl, rfl⟩
    have hcall : Single C source (RatelimiterTables.setCall _ c .idle) :=
      hused.goOn ⟨hlinking.wf, hlinking.unlinked, hlinking.started, hlinking.key⟩ (by rintro ⟨⟩)
    exact { hcall with }
  | @count c source' call hc hcall =>
    have hcounted : Single C source (s.setCall c call) := by
      refine h.goOn ⟨hlinking.wf, hlinking.unlinked, hlinking.started, hlinking.key⟩ fun hnew => ?_
      rw [hc]
      rcases hcall with ⟨rfl, -⟩ | ⟨rfl, -⟩
      · cases hnew
      · exact hnew
    exact { hcounted with }
  | @alloc c ok source' call hc hcall =>
    refine h.goOn hlinking fun hnew => ?_
    rw [hc]
    rcases hcall with ⟨rfl, -⟩ | rfl
    · cases hnew
    · exact hnew
  | @fill c source' hc =>
    obtain ⟨hset, hready⟩ := h.toLinking.fill hc (.create s.clock)
    have hhome : s.chains.home c = none := h.unlinked c (.inl (by rw [hc]; rintro ⟨⟩))
    have hfilled := (h.setEntry hset fun hne => absurd hhome hne).goOn hready fun hnew => ?_
    · exact { hfilled with }
    · show (s.calls c).making = _
      rw [hc]
      exact hnew
  | insert hc => exact h.insert hc
  | @errOom c source' hc =>
    have hcall : Single C source (s.setCall c .idle) :=
      h.goOn ⟨hlinking.wf, hlinking.unlinked, hlinking.started, hlinking.key⟩ (by rintro ⟨⟩)
    exact { hcall with }
  | gc => exact { h with }
  | evict => exact h.entryUninit _ _
  | free => exact { h with }

/-- Every entry is in the bucket of its key. -/
def InBucket (C : RatelimiterConfig) (s : RatelimiterTables) : Prop :=
  ∀ n b, s.chains.home n = some b → b = C.bucket ⟨b.1, (s.mem n).net, (s.mem n).ip⟩

namespace InBucket

theorem setEntry (h : InBucket C s) {entry : HashedEntry}
    (hkey : s.chains.home n ≠ none → entry.net = (s.mem n).net ∧ entry.ip = (s.mem n).ip) :
    InBucket C (s.setEntry n entry) := by
  intro m b hm
  rw [mem_setEntry]
  split_ifs with heq
  · obtain ⟨hnet, hip⟩ := hkey (by rw [← heq, show s.chains.home m = _ from hm]; exact Option.some_ne_none _)
    rw [hnet, hip, ← heq]
    exact h m b hm
  · exact h m b hm

theorem entryUninit (h : InBucket C s) (n : Nat) (gc : GcPass) : InBucket C { s.entryUninit n with gc := gc } := by
  intro m b hm
  have hm' : (s.chains.unlink n).home m = some b := hm
  rw [HashChains.home_unlink, update_apply] at hm'
  split at hm'
  · cases hm'
  · exact h m b hm'

theorem step (h : InBucket C s) (hlinking : Linking s) (hs : Step C s e t) : InBucket C t := by
  cases hs with
  | hit => exact h.setEntry fun _ => ⟨rfl, rfl⟩
  | @fill c source hc =>
    have hhome : s.chains.home c = none := hlinking.unlinked c (.inl (by rw [hc]; rintro ⟨⟩))
    exact h.setEntry fun hne => absurd hhome hne
  | @insert c source hc =>
    intro m b hm
    have hm' : (s.chains.pushHead c (C.bucket source)).home m = some b := hm
    rw [HashChains.home_pushHead, update_apply] at hm'
    split_ifs at hm' with heq
    · obtain ⟨hnet, hip⟩ := hlinking.key c source hc
      cases hm'
      subst heq
      show _ = C.bucket ⟨_, (s.mem m).net, (s.mem m).ip⟩
      rw [hnet, hip]
      rfl
    · exact h m b hm'
  | evict => exact h.entryUninit _ _
  | _ => exact h

end InBucket
end RatelimiterTables

namespace RatelimiterModule

open RatelimiterTables

variable {C : RatelimiterConfig} {s : RatelimiterModule}

def Alone (s : RatelimiterModule) : RatelimiterModuleEvent → Prop
  | .table e => s.tables.Alone e
  | .gcNull => True

instance : ∀ e, Decidable (Alone s e)
  | .table e => inferInstanceAs (Decidable (s.tables.Alone e))
  | .gcNull => inferInstanceAs (Decidable True)

/-- As long as no call searches for a source while another one is making an entry for it, both
tables have at most one entry for each `net` and source prefix, and every search for a source that
has an entry finds that one. -/
theorem one_entry_per_source (h : Exec (step C) Alone init s) :
    (∀ table i i' n n', n ∈ s.tables.chains.chain (table, i) → n' ∈ s.tables.chains.chain (table, i') →
      (s.tables.mem n).net = (s.tables.mem n').net → (s.tables.mem n).ip = (s.tables.mem n').ip → n = n') ∧
    ∀ source n, Here C s.tables source n → s.tables.lookup C source = some n := by
  have hinv : (∀ source, Single C source s.tables) ∧ InBucket C s.tables := by
    refine h.inv (I := fun s => (∀ source, Single C source s.tables) ∧ InBucket C s.tables) ⟨fun _ => .init, ?_⟩
      fun s e t hok hi hs => ?_
    · rintro n b ⟨⟩
    · rcases step_cases hs with ⟨e', hs', he⟩ | ⟨now, i, n, rest, -, ht⟩
      · have hstep := RatelimiterTables.step_cases hs'
        have halone : s.tables.Alone e' := by
          rcases he with rfl | rfl
          · exact hok
          · trivial
        exact ⟨fun source => (hi.1 source).step (halone.for source) hstep, hi.2.step (hi.1 ⟨.v4, 0, 0⟩).toLinking hstep⟩
      · rw [ht]
        exact ⟨fun source => (hi.1 source).entryUninit n _, hi.2.entryUninit n _⟩
  obtain ⟨hsingle, hbucket⟩ := hinv
  have hhere {table : Family} {i n : Nat} (hn : n ∈ s.tables.chains.chain (table, i)) :
      Here C s.tables ⟨table, (s.tables.mem n).net, (s.tables.mem n).ip⟩ n := by
    have hhome := ((hsingle ⟨table, 0, 0⟩).wf.mem_iff n _).mp hn
    exact ⟨hhome.trans (congrArg some (hbucket n _ hhome)), rfl, rfl⟩
  refine ⟨fun table i i' n n' hn hn' hnet hip => ?_, fun source n hn => ?_⟩
  · have hother := hhere hn'
    rw [← hnet, ← hip] at hother
    exact (hsingle _).unique n n' (hhere hn) hother
  · rcases hlookup : s.tables.lookup C source with _ | m
    · exact absurd hn ((hsingle source).lookup_eq_none hlookup n)
    · rw [(hsingle source).unique m n ((hsingle source).lookup_eq_some hlookup) hn]

/-- The bucket of the sample source, with the keys of the first two entries. -/
def shownBucket (s : RatelimiterModule) : List Nat × (U64 × U64) × (U64 × U64) :=
  (s.tables.chains.chain (.v4, 3), ((s.tables.mem 0).net, (s.tables.mem 0).ip),
    ((s.tables.mem 1).net, (s.tables.mem 1).ip))

/-- A second packet finds the entry that the first one has made, before and after a pass with a NULL
work. -/
theorem one_entry_per_source_found : ∃ s, Exec (step sampleConfig) Alone init s ∧ s.tables.freeing = [0] ∧
    Here sampleConfig s.tables sampleRateSource 2 ∧ s.tables.lookup sampleConfig sampleRateSource = some 2 := by
  have hrun : ∃ s, Exec (step sampleConfig) Alone init s ∧
      (s.tables.freeing, s.tables.chains.home 2, (s.tables.mem 2).net, (s.tables.mem 2).ip) =
        ([0], some (.v4, 3), 1, 0x0100000a) :=
    Exec.exists_of_foldlM (List.map RatelimiterModuleEvent.table (creates 0 ++ hits 1) ++ [.gcNull] ++
      List.map RatelimiterModuleEvent.table (gcTo ++ [.gcEntry, .gcUnlock] ++ creates 2))
      (fun s : RatelimiterModule => (s.tables.freeing, s.tables.chains.home 2, (s.tables.mem 2).net,
        (s.tables.mem 2).ip))
      (by decide +kernel)
  obtain ⟨s, hs, hshown⟩ := hrun
  have hhere : Here sampleConfig s.tables sampleRateSource 2 :=
    ⟨congrArg (fun r => r.2.1) hshown, congrArg (fun r => r.2.2.1) hshown, congrArg (fun r => r.2.2.2) hshown⟩
  exact ⟨s, hs, congrArg Prod.fst hshown, hhere, (one_entry_per_source hs).2 sampleRateSource 2 hhere⟩

/-- The first two packets of a source are handled at the same time: both calls search, both find
nothing, and both link an entry. At the same instant four more packets draw on the second entry: six
are allowed, of which one bucket allows five. -/
theorem two_entries : ∃ s, Exec (step sampleConfig) (fun _ _ => True) init s ∧
    s.tables.chains.chain (.v4, 3) = [1, 0] ∧ (s.tables.mem 0).net = (s.tables.mem 1).net ∧
    (s.tables.mem 0).ip = (s.tables.mem 1).ip ∧
    s.tables.history sampleRateSource = List.replicate 6 (5, true) ∧
    RatelimiterEntry.answers none (List.replicate 6 5) = [true, true, true, true, true, false] := by
  have hrun : ∃ s, Exec (step sampleConfig) (fun _ _ => True) init s ∧
      (shownBucket s, s.tables.history sampleRateSource) =
        (([1, 0], (1, 0x0100000a), (1, 0x0100000a)), List.replicate 6 (5, true)) :=
    Exec.exists_of_foldlM (List.map RatelimiterModuleEvent.table
      ([.tick 5, .allow sampleRatePacket, .allow sampleRatePacket,
      .search 0, .search 1, .count 0, .count 1, .alloc 0 true, .alloc 1 true, .fill 0, .fill 1, .insert 0, .insert 1] ++
      hits 2 ++ hits 3 ++ hits 4 ++ hits 5))
      (fun s : RatelimiterModule => (shownBucket s, s.tables.history sampleRateSource)) (by decide +kernel)
  obtain ⟨s, hs, hshown⟩ := hrun
  have hmem : shownBucket s = ([1, 0], (1, 0x0100000a), (1, 0x0100000a)) := congrArg Prod.fst hshown
  refine ⟨s, hs, congrArg Prod.fst hmem, ?_, ?_, congrArg Prod.snd hshown, by decide +kernel⟩
  · exact (congrArg (fun r => r.2.1.1) hmem).trans (congrArg (fun r => r.2.2.1) hmem).symm
  · exact (congrArg (fun r => r.2.1.2) hmem).trans (congrArg (fun r => r.2.2.2) hmem).symm

end RatelimiterModule
end WireguardAes
