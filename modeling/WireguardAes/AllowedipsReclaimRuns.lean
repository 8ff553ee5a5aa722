import WireguardAes.AllowedipsRetire

/-!
# Every node is given back once (`allowedips.c`)

Updates beside lookups and callbacks, in any order: no lookup has a node in hand that was given
back, no node is given back twice, the writer does not come back to one, and no node is forgotten.
-/

namespace WireguardAes

open Function PrefixForest Reclaim Runs

variable {P : Type} {s : Allowedips P} {stage : Nat → Stage} {st : AllowedipsStore P} {n i k : Nat}
variable {ran : List Nat}

/-! ### One store -/

/-- The node was given back, if the callbacks of `ran` have run. -/
def Reclaimed (ran : List Nat) : Stage → Prop
  | .dropped => True
  | .retired i => i ∈ ran
  | .hidden | .shared => False

theorem Reclaimed.not_active {x : Stage} (h : Reclaimed ran x) : ¬ x.Active := by
  cases x with
  | hidden => exact h.elim
  | shared => exact h.elim
  | retired i => exact id
  | dropped => exact id

/-- A node that a reader has in hand is not given back by the callbacks that could run. -/
theorem Reclaimed.not_since {x : Stage} (h : Reclaimed ran x) (hran : ∀ i ∈ ran, i < k) : ¬ x.Since k := by
  cases x with
  | hidden => exact id
  | shared => exact h.elim
  | retired i => exact Nat.not_le.mpr (hran i h)
  | dropped => exact id

namespace AllowedipsStore

theorem since_stageAfter (hst : st.Allowed s stage) (hk : k ≤ s.rcu.length) (h : (stage n).Since k) :
    (st.stageAfter s stage n).Since k := by
  cases st with
  | kmemCacheFree p => exact Disciplined.since_drop hst.2.1 h
  | slot σ o =>
    cases o with
    | none => exact h
    | some c => exact Disciplined.since_link h
  | callRcu head =>
    have hr : Retires stage ((callRcu head).stageAfter s stage) (head.nodes s) s.rcu.length :=
      ⟨fun n hn => if_pos hn, fun n hn => if_neg hn⟩
    exact hr.since hk h
  | _ => exact h

theorem reclaimed_stageAfter (hst : st.Allowed s stage) (hran : ∀ i ∈ ran, i < s.rcu.length) :
    Reclaimed ran (st.stageAfter s stage n) ↔ Reclaimed ran (stage n) ∨ n ∈ st.frees := by
  have hsame : Reclaimed ran (stage n) ↔ Reclaimed ran (stage n) ∨ n ∈ [] := (or_iff_left List.not_mem_nil).symm
  cases st with
  | kmemCacheFree p =>
    show Reclaimed ran (update stage p .dropped n) ↔ Reclaimed ran (stage n) ∨ n ∈ [p]
    rw [List.mem_singleton, update_apply]
    split_ifs with hnp
    · exact ⟨fun _ => .inr hnp, fun _ => trivial⟩
    · exact (or_iff_left hnp).symm
  | slot σ o =>
    cases o with
    | none => exact hsame
    | some c =>
      have hc : (stage c).Active := by
        cases σ with
        | root f => exact (hst c rfl).2
        | bit p b => exact (hst.2 c rfl).2
      refine Iff.trans ?_ hsame
      show Reclaimed ran (update stage c .shared n) ↔ Reclaimed ran (stage n)
      rw [update_apply]
      split_ifs with hnc
      · subst hnc
        exact ⟨False.elim, fun h => h.not_active hc⟩
      · exact Iff.rfl
  | callRcu head =>
    refine Iff.trans ?_ hsame
    have hshared : ∀ n ∈ head.nodes s, stage n = .shared := by
      cases head with
      | nodeFree p => exact hst.shared
      | rootFree root => exact hst.1.shared
    by_cases hn : n ∈ head.nodes s
    · have hstage : (callRcu head).stageAfter s stage n = .retired s.rcu.length := if_pos hn
      rw [hstage, hshared n hn]
      exact ⟨fun h => Nat.lt_irrefl _ (hran _ h), False.elim⟩
    · have hstage : (callRcu head).stageAfter s stage n = stage n := if_neg hn
      rw [hstage]
  | _ => exact hsame

/-- The writer only works on nodes that were not given back. -/
theorem touches_active (hst : st.Allowed s stage) (hn : n ∈ st.touches) : (stage n).Active := by
  cases st with
  | seq | kmemCacheZalloc => cases hn
  | kmemCacheFree p =>
    rw [List.mem_singleton.mp hn, hst.2.1]
    trivial
  | peer p q | copyAndAssignCidr p src cidr bits | parentBitPacked p σ
  | listAddTail p q | listDel p | listMoveTail p q =>
    rw [List.mem_singleton.mp hn]
    exact hst.2
  | slot σ o =>
    cases σ with
    | root f => cases hn
    | bit p b =>
      rw [List.mem_singleton.mp hn]
      exact hst.1.2
  | callRcu head =>
    cases head with
    | nodeFree p =>
      rw [List.mem_singleton.mp hn]
      exact Stage.active_of_eq (hst.shared p rfl)
    | rootFree root =>
      rw [List.mem_singleton.mp hn]
      exact Stage.active_of_eq (hst.1.shared root .refl)

theorem rcu_length_le [DecidableEq P] (st : AllowedipsStore P) (s : Allowedips P) :
    s.rcu.length ≤ (st.exec s).rcu.length := by
  cases st with
  | callRcu head =>
    show s.rcu.length ≤ (s.rcu ++ [head]).length
    rw [List.length_append]
    exact Nat.le_add_right _ _
  | slot σ o => cases σ <;> exact Nat.le_refl _
  | _ => exact Nat.le_refl _

end AllowedipsStore

/-! ### One callback -/

/-- `node_free_rcu` or `root_free_rcu` gives back the nodes that were waiting for it. -/
theorem Allowedips.HeadOk.callbackFrees {head : RcuHead} (h : s.HeadOk stage i head) (debug : Bool) :
    ∃ nodes, TrieMemory.callbackFrees debug s head = some nodes ∧ nodes.Nodup ∧ ∀ n, n ∈ nodes ↔
      stage n = .retired i := by
  cases head with
  | nodeFree p => exact ⟨[p], rfl, List.nodup_singleton p, fun n => List.mem_singleton.trans (h n).symm⟩
  | rootFree root =>
    obtain ⟨s₀, visits, ⟨hv, hlen⟩, hsame, hvisits⟩ := h
    refine ⟨visits, ?_, hv.nodup, fun n => (hvisits n).symm⟩
    have hloop := hv.loop debug Allowedips.kmemCacheFree s (2 ^ (Family.v6.bits + 1))
      (fun t n p hpn => update_of_ne hpn _ _) hsame hlen
    exact congrArg (Option.map Prod.fst) hloop

/-! ### One read -/

theorem TrieReader.since_advance (r : TrieReader P) (h : s.Coherent stage)
    (hr : ∀ n ∈ r.inHand, (stage n).Since k) : ∀ n ∈ (r.advance s).inHand, (stage n).Since k := by
  obtain ⟨since, f, key, walk⟩ := r
  have hfound : ∀ {found : Option (Nat × P)} {p : Nat}, (∀ m ∈ (found.map Prod.fst).toList, (stage m).Since k) →
      (stage p).Since k → ∀ m ∈ ((Walk.latest found p (s.mem p).peer).map Prod.fst).toList, (stage m).Since k := by
    intro found p hold hp m hm
    unfold Walk.latest at hm
    split at hm
    · rw [List.mem_singleton.mp hm]
      exact hp
    · exact hold m hm
  cases walk with
  | start =>
    intro n hn
    change n ∈ (s.root f).toList ++ [] at hn
    rw [List.append_nil, Option.mem_toList] at hn
    exact h.disciplined.since_entry ⟨f, hn⟩
  | reached node found =>
    cases node with
    | none => exact hr
    | some p =>
      have hp : (stage p).Since k := hr p List.mem_cons_self
      have hold : ∀ m ∈ (found.map Prod.fst).toList, (stage m).Since k := fun m hm => hr m (List.mem_cons_of_mem _ hm)
      intro n hn
      simp only [advance, Allowedips.advance] at hn
      split at hn
      · split at hn
        · exact hfound hold hp n hn
        · rcases List.mem_cons.mp hn with rfl | hn
          exacts [hp, hfound hold hp n hn]
      · exact hold n hn
  | passed p found =>
    intro n hn
    rcases List.mem_append.mp hn with hn | hn
    · exact h.disciplined.since_next (hr p List.mem_cons_self) ⟨_, Option.mem_toList.mp hn⟩
    · exact hr n (List.mem_cons_of_mem _ hn)
  | done found => exact hr

/-! ### Whole runs -/

variable [DecidableEq P] {m m' : TrieMemory P} {debug : Bool}

namespace TrieMemory

structure Inv (m : TrieMemory P) (stage : Nat → Stage) : Prop where
  coherent : m.table.Coherent stage
  /-- The stores that are left are allowed, and after them the tries are in order. -/
  plan : ∃ stage', AllowedipsStore.Follows stage' m.table stage m.todo ∧
    (m.todo.foldl AllowedipsStore.exec m.table).Rests stage'
  ran : ∀ i ∈ m.ran, i < m.table.rcu.length
  gone : ∀ i ∈ m.ran, ∀ r ∈ m.readers, i < r.since
  since : ∀ r ∈ m.readers, r.since ≤ m.table.rcu.length ∧ ∀ n ∈ r.inHand, (stage n).Since r.since
  freed : ∀ n, n ∈ m.freed ↔ Reclaimed m.ran (stage n)
  nodup : m.freed.Nodup

namespace Inv

theorem init : Inv (init : TrieMemory P) fun _ => .hidden := by
  have hrest : (Allowedips.wgAllowedipsInit : Allowedips P).Rests fun _ => .hidden := by
    obtain ⟨L, hi, hT⟩ := (Allowedips.Agrees.init (P := P)).trie
    exact ⟨L, _, hi, hT, by rintro n ⟨⟩⟩
  refine ⟨⟨⟨?_, ?_, ?_⟩, ?_, ?_, ?_, fun n _ => ⟨rfl, fun _ => rfl⟩⟩, ⟨_, rfl, hrest⟩, by rintro i ⟨⟩, by rintro i ⟨⟩,
    by rintro r ⟨⟩, fun n => ⟨by rintro ⟨⟩, False.elim⟩, List.nodup_nil⟩
  · rintro n ⟨f, ⟨⟩⟩
  · rintro x n ⟨b, ⟨⟩⟩
  · rintro x n i ⟨b, ⟨⟩⟩
  · rintro n i ⟨⟩
  · rintro i head ⟨⟩
  · rintro q n ⟨⟩

theorem plan_of (h : m.Inv stage) (htodo : m.todo = []) {w : AllowedipsWriter m.table}
    (hw : m.table.Rests stage → ∃ stage', w.Keeps stage stage' ∧ w.state.Rests stage') :
    (m.plan w.stores).Inv stage := by
  obtain ⟨stage', hfollows, hrest⟩ := h.plan
  rw [htodo] at hfollows hrest
  obtain rfl : stage = stage' := hfollows
  obtain ⟨stage', hk, hrest'⟩ := hw hrest
  refine ⟨h.coherent, ⟨stage', hk, ?_⟩, h.ran, h.gone, h.since, h.freed, h.nodup⟩
  rw [← w.stored] at hrest'
  exact hrest'

theorem readers (h : m.Inv stage) {rs : List (TrieReader P)}
    (hrs : ∀ r ∈ rs, (∀ i ∈ m.ran, i < r.since) ∧ r.since ≤ m.table.rcu.length ∧ ∀ n ∈ r.inHand,
      (stage n).Since r.since) :
    (m.setReaders rs).Inv stage :=
  ⟨h.coherent, h.plan, h.ran, fun i hi r hr => (hrs r hr).1 i hi, fun r hr => (hrs r hr).2, h.freed, h.nodup⟩

theorem reader (h : m.Inv stage) {r : TrieReader P} (hr : r ∈ m.readers) :
    (∀ i ∈ m.ran, i < r.since) ∧ r.since ≤ m.table.rcu.length ∧ ∀ n ∈ r.inHand, (stage n).Since r.since :=
  ⟨fun i hi => h.gone i hi r hr, h.since r hr⟩

theorem store (h : m.Inv stage) {st : AllowedipsStore P} {rest : List (AllowedipsStore P)}
    (htodo : m.todo = st :: rest) :
    Inv { m with table := st.exec m.table, todo := rest, freed := m.freed ++ st.frees }
      (st.stageAfter m.table stage) := by
  obtain ⟨stage', hfollows, hrest⟩ := h.plan
  rw [htodo] at hfollows hrest
  obtain ⟨hst, hfollows⟩ := hfollows
  have hlen := st.rcu_length_le m.table
  refine ⟨h.coherent.exec hst, ⟨stage', hfollows, hrest⟩, fun i hi => (h.ran i hi).trans_le hlen,
    h.gone, fun r hr => ?_,
    fun n => ?_, ?_⟩
  · obtain ⟨hle, hhand⟩ := h.since r hr
    exact ⟨hle.trans hlen, fun n hn => AllowedipsStore.since_stageAfter hst hle (hhand n hn)⟩
  · rw [List.mem_append, h.freed, AllowedipsStore.reclaimed_stageAfter hst h.ran]
  · cases st with
    | kmemCacheFree p =>
      refine h.nodup.append (List.nodup_singleton p) ?_
      rintro n hn hp
      rw [List.mem_singleton.mp hp, h.freed, hst.2.1] at hn
      exact hn
    | _ => exact (List.append_nil m.freed).symm ▸ h.nodup

theorem callback (h : m.Inv stage) {head : RcuHead} {nodes : List Nat} (hi : m.table.rcu[i]? = some head)
    (hran : i ∉ m.ran) (hreaders : ∀ r ∈ m.readers, i < r.since)
    (hnodes : callbackFrees debug m.table head = some nodes) : (m.runCallback i nodes).Inv stage := by
  obtain ⟨nodes', hnodes', hnodup, hmem⟩ := (h.coherent.head i head hi).callbackFrees debug
  obtain rfl : nodes = nodes' := Option.some.inj (hnodes.symm.trans hnodes')
  refine ⟨h.coherent, h.plan, fun j hj => ?_, fun j hj r hr => ?_, h.since, fun n => ?_, ?_⟩
  · rcases List.mem_cons.mp hj with rfl | hj
    · exact (List.getElem?_eq_some_iff.mp hi).1
    · exact h.ran j hj
  · rcases List.mem_cons.mp hj with rfl | hj
    exacts [hreaders r hr, h.gone j hj r hr]
  · show n ∈ m.freed ++ nodes ↔ Reclaimed (i :: m.ran) (stage n)
    rw [List.mem_append, h.freed, hmem]
    cases stage n with
    | hidden | shared | dropped => simp [Reclaimed]
    | retired j => simp [Reclaimed, or_comm]
  · refine h.nodup.append hnodup fun n hn hn' => ?_
    rw [h.freed, (hmem n).mp hn'] at hn
    exact hran hn

end Inv

theorem Inv.step (h : m.Inv stage) {e : TrieEvent P} (hstep : m.step debug e = some m') : ∃ stage', m'.Inv stage' := by
  cases e with
  | update u =>
    simp only [TrieMemory.step] at hstep
    split at hstep
    case isTrue htodo =>
      obtain ⟨⟨r, w⟩, hw, rfl⟩ := Option.map_eq_some_iff.mp hstep
      exact ⟨stage, h.plan_of (List.isEmpty_iff.mp htodo) fun hrest => AllowedipsUpdate.keeps h.coherent hrest hw⟩
    · cases hstep
  | free =>
    simp only [TrieMemory.step] at hstep
    split at hstep
    case isTrue htodo =>
      obtain ⟨w, hw, rfl⟩ := Option.map_eq_some_iff.mp hstep
      exact ⟨stage, h.plan_of (List.isEmpty_iff.mp htodo) fun hrest => AllowedipsWriter.keeps_free h.coherent hrest hw⟩
    · cases hstep
  | store =>
    simp only [TrieMemory.step] at hstep
    split at hstep
    · cases hstep
    case h_2 st rest htodo =>
      cases hstep
      exact ⟨_, h.store htodo⟩
  | enter f ip =>
    cases hstep
    refine ⟨stage, h.readers fun r hr => ?_⟩
    rcases List.mem_append.mp hr with hr | hr
    · exact h.reader hr
    · rw [List.mem_singleton.mp hr]
      exact ⟨h.ran, Nat.le_refl _, by rintro n ⟨⟩⟩
  | read j =>
    obtain ⟨r, hr, rfl⟩ := Option.map_eq_some_iff.mp hstep
    refine ⟨stage, h.readers fun r' hr' => ?_⟩
    rcases List.mem_or_eq_of_mem_set hr' with hr' | rfl
    · exact h.reader hr'
    · obtain ⟨hran, hle, hhand⟩ := h.reader (List.mem_of_getElem? hr)
      exact ⟨hran, hle, r.since_advance h.coherent hhand⟩
  | retry j =>
    obtain ⟨r, hr, rfl⟩ := Option.map_eq_some_iff.mp hstep
    refine ⟨stage, h.readers fun r' hr' => ?_⟩
    rcases List.mem_or_eq_of_mem_set hr' with hr' | rfl
    · exact h.reader hr'
    · obtain ⟨hran, hle, -⟩ := h.reader (List.mem_of_getElem? hr)
      exact ⟨hran, hle, by rintro n ⟨⟩⟩
  | leave j =>
    cases hstep
    exact ⟨stage, h.readers fun r hr => h.reader (List.mem_of_mem_eraseIdx hr)⟩
  | callback j =>
    obtain ⟨head, hhead, hstep⟩ := Option.bind_eq_some_iff.mp hstep
    split at hstep
    case isTrue hok =>
      obtain ⟨nodes, hnodes, rfl⟩ := Option.map_eq_some_iff.mp hstep
      exact ⟨stage, h.callback hhead hok.1 hok.2 hnodes⟩
    · cases hstep

theorem exists_inv (h : Exec (step debug) (fun _ _ => True) (init : TrieMemory P) m) : ∃ stage, m.Inv stage :=
  h.inv (I := fun m => ∃ stage, m.Inv stage) ⟨_, .init⟩ fun _ _ _ _ ⟨_, ht⟩ hstep => ht.step hstep

/-- A callback that has not run will give the node back. -/
def Waiting (debug : Bool) (m : TrieMemory P) (n : Nat) : Prop :=
  ∃ i head nodes, m.table.rcu[i]? = some head ∧ i ∉ m.ran ∧ callbackFrees debug m.table head = some nodes ∧ n ∈ nodes

namespace Inv

theorem not_freed_of_active (h : m.Inv stage) (hn : (stage n).Active) : n ∉ m.freed :=
  fun hfreed => ((h.freed n).mp hfreed).not_active hn

theorem waiting_iff (h : m.Inv stage) : m.Waiting debug n ↔ ∃ i, i ∉ m.ran ∧ stage n = .retired i := by
  constructor
  · rintro ⟨i, head, nodes, hhead, hi, hnodes, hn⟩
    obtain ⟨nodes', hnodes', -, hmem⟩ := (h.coherent.head i head hhead).callbackFrees debug
    obtain rfl : nodes = nodes' := Option.some.inj (hnodes.symm.trans hnodes')
    exact ⟨i, hi, (hmem n).mp hn⟩
  · rintro ⟨i, hi, hn⟩
    have hhead := List.getElem?_eq_getElem (h.coherent.queued n i hn)
    obtain ⟨nodes, hnodes, -, hmem⟩ := (h.coherent.head i _ hhead).callbackFrees debug
    exact ⟨i, _, nodes, hhead, hi, hnodes, (hmem n).mpr hn⟩

theorem accounted (h : m.Inv stage) (htodo : m.todo = []) (hn : n < m.table.brk) :
    (n ∉ m.freed ↔ m.table.InTrie n ∨ m.Waiting debug n) ∧ ¬ (m.table.InTrie n ∧ m.Waiting debug n) := by
  obtain ⟨stage', hfollows, L, T, hi, -, hcount⟩ := h.plan
  rw [htodo] at hfollows hi hcount
  obtain rfl : stage = stage' := hfollows
  have hin : m.table.InTrie n → stage n = .shared := fun hn => h.coherent.shared hi.linked (hi.inTrie_iff.mp hn)
  rw [h.waiting_iff, h.freed]
  refine ⟨⟨fun hfreed => ?_, ?_⟩, ?_⟩
  · rcases hcount n hn with hnL | hgone
    · exact .inl (hi.inTrie_iff.mpr hnL)
    · cases hstage : stage n with
      | hidden | shared =>
        rw [hstage] at hgone
        exact absurd trivial hgone
      | dropped =>
        rw [hstage] at hfreed
        exact absurd trivial hfreed
      | retired i =>
        rw [hstage] at hfreed
        exact .inr ⟨i, hfreed, rfl⟩
  · rintro (hn | ⟨i, hi, hn⟩)
    · rw [hin hn]
      exact id
    · rw [hn]
      exact hi
  · rintro ⟨hn, i, -, hi⟩
    cases (hin hn).symm.trans hi

end Inv

/-- In every run of updates, lookups and callbacks, in any order: no lookup has a node in hand that
was given back; the next store of the writer is about none; a node on the list of a peer was not
given back and does not wait for a callback, whose `rcu` shares its memory with the `peer_list` of
the node; no node is given back twice; a callback that is due does not fail; and between two updates
every node that was handed out and not given back hangs in a trie or waits, but not both. -/
theorem nodes_reclaimed_once (h : Exec (step debug) (fun _ _ => True) (init : TrieMemory P) m) :
    (∀ r ∈ m.readers, ∀ n ∈ r.inHand, n ∉ m.freed) ∧
    (∀ st rest, m.todo = st :: rest → ∀ n ∈ st.touches, n ∉ m.freed) ∧
    (∀ q, ∀ n ∈ m.table.list q, n ∉ m.freed ∧ ¬ m.Waiting debug n) ∧
    m.freed.Nodup ∧
    (∀ i < m.table.rcu.length, i ∉ m.ran → (∀ r ∈ m.readers, i < r.since) → (m.step debug (.callback i)).isSome) ∧
    (m.todo = [] → ∀ n < m.table.brk, (n ∉ m.freed ↔ m.table.InTrie n ∨ m.Waiting debug n) ∧
      ¬ (m.table.InTrie n ∧ m.Waiting debug n)) := by
  obtain ⟨stage, hm⟩ := exists_inv h
  refine ⟨fun r hr n hn hfreed => ?_, fun st rest htodo n hn => ?_, fun q n hn => ?_, hm.nodup,
    fun i hi hran hreaders => ?_,
    fun htodo n hn => hm.accounted htodo hn⟩
  · have hsince := (hm.since r hr).2 n hn
    exact ((hm.freed n).mp hfreed).not_since (fun i hi => hm.gone i hi r hr) hsince
  · obtain ⟨stage', hfollows, -⟩ := hm.plan
    rw [htodo] at hfollows
    exact hm.not_freed_of_active (AllowedipsStore.touches_active hfollows.1 hn)
  · have hactive := hm.coherent.list q n hn
    refine ⟨hm.not_freed_of_active hactive, fun hwaiting => ?_⟩
    obtain ⟨i, -, hi⟩ := hm.waiting_iff.mp hwaiting
    rw [hi] at hactive
    exact hactive
  · have hhead := List.getElem?_eq_getElem hi
    obtain ⟨nodes, hnodes, -⟩ := (hm.coherent.head i _ hhead).callbackFrees debug
    rw [step, hhead, Option.bind_some, if_pos ⟨hran, hreaders⟩, hnodes]
    rfl

/-- Two prefixes hang below a node of their own; a lookup has reached the second one when its peer
is removed, and the two nodes that go are given back once it has ended, in the other order. The
third is given back by `wg_allowedips_free`. -/
theorem nodes_reclaimed_once_sample :
    ∃ m t : TrieMemory Bool, Exec (step false) (fun _ _ => True) init m ∧ Exec (step false) (fun _ _ => True) init t ∧
      (m.readers.map TrieReader.inHand, m.table.rcu.length) = ([[1]], 2) ∧
        (∀ r ∈ m.readers, ∀ n ∈ r.inHand, n ∉ m.freed) ∧
      t.freed = [2, 1, 0] ∧ t.freed.Nodup := by
  let removal : List (TrieEvent Bool) :=
    [.update (.insertV4 #v[10, 0, 0, 0] 8 (some true) false false)] ++ List.replicate 7 .store ++
      [.update (.insertV4 #v[11, 0, 0, 0] 8 (some false) false false)] ++ List.replicate 13 .store ++
      [.enter .v4 [11, 1, 2, 3], .read 0, .read 0, .read 0, .update (.removeByPeer false)] ++ List.replicate 8 .store
  have hm : ∃ m : TrieMemory Bool, Exec (step false) (fun _ _ => True) init m ∧
      (m.readers.map TrieReader.inHand, m.table.rcu.length) = ([[1]], 2) :=
    Exec.exists_of_foldlM removal (fun m : TrieMemory Bool => _) (by decide +kernel)
  have ht : ∃ t : TrieMemory Bool, Exec (step false) (fun _ _ => True) init t ∧ t.freed = [2, 1, 0] :=
    Exec.exists_of_foldlM (removal ++ [.leave 0, .callback 1, .callback 0, .free] ++ List.replicate
      5 .store ++ [.callback 2])
      (fun t : TrieMemory Bool => t.freed) (by decide +kernel)
  obtain ⟨m, hm, hview⟩ := hm
  obtain ⟨t, ht, hfreed⟩ := ht
  exact ⟨m, t, hm, ht, hview, (nodes_reclaimed_once hm).1, hfreed, (nodes_reclaimed_once ht).2.2.2.1⟩

end TrieMemory
end WireguardAes
