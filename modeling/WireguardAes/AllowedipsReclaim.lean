import WireguardAes.AllowedipsPublish
import WireguardAes.Lib.Reclaim

/-!
# The memory of the allowed-IPs tries (`allowedips.c`)

Updates, one store at a time, beside any number of lookups in their read sections and the callbacks
that `call_rcu` has queued. A callback may run once the sections that were there when it was queued
have ended, in any order with the others. What a node holds after `kmem_cache_free` is not modelled:
that nobody looks is what is shown of it. Node numbers are not handed out again, so that a number on
`freed` is a node that is gone.
-/

namespace WireguardAes

open Function PrefixForest Reclaim Runs

variable {P : Type} [DecidableEq P]

/-! ### `wg_allowedips_free` as a sequence of stores -/

namespace AllowedipsWriter
variable {s : Allowedips P}

variable (w : AllowedipsWriter s)

abbrev rootRemovePeerListsLoop (fuel : Nat) (stack : List Nat) : Option (AllowedipsWriter s) :=
  AllowedipsMemory.rootRemovePeerListsLoop w fuel stack

abbrev freeTrie (bits : Nat) (old : Option Nat) : Option (AllowedipsWriter s) := AllowedipsMemory.freeTrie w bits old

abbrev free : Option (AllowedipsWriter s) := AllowedipsMemory.free w

theorem state_rootRemovePeerListsLoop (fuel : Nat) (stack : List Nat) :
    (w.rootRemovePeerListsLoop fuel stack).map state = w.state.rootRemovePeerListsLoop fuel stack := by
  induction fuel generalizing w stack with
  | zero => cases stack <;> rfl
  | succ fuel ih =>
    cases stack with
    | nil => rfl
    | cons node stack =>
      rw [rootRemovePeerListsLoop, Allowedips.rootRemovePeerListsLoop, AllowedipsMemory.rootRemovePeerListsLoop,
        AllowedipsMemory.rootRemovePeerListsLoop]
      dsimp only [AllowedipsMemory.state, AllowedipsMemory.store]
      generalize (Allowedips.pushRcu stack ((w.state.mem node).bit false)).bind
        (Allowedips.pushRcu · ((w.state.mem node).bit true)) = pushed
      cases pushed with
      | none => rfl
      | some stack =>
        dsimp only
        rw [ih, apply_ite state]
        rfl

theorem state_freeTrie (bits : Nat) (old : Option Nat) :
    (w.freeTrie bits old).map state = w.state.freeTrie bits old := by
  cases old with
  | none => rfl
  | some node =>
    show ((w.rootRemovePeerListsLoop _ _).map _).map state = (w.state.rootRemovePeerListsLoop _ _).map _
    rw [← state_rootRemovePeerListsLoop, Option.map_map, Option.map_map]
    rfl

theorem state_free : w.free.map state = w.state.wgAllowedipsFree := by
  rw [free, Allowedips.wgAllowedipsFree, AllowedipsMemory.free, AllowedipsMemory.free]
  dsimp only [AllowedipsMemory.state, AllowedipsMemory.store]
  simp only [← state_store]
  generalize ((w.store .seq).store (.slot (.root .v4) none)).store (.slot (.root .v6) none) = w₀
  have h₄ : (AllowedipsMemory.freeTrie w₀ 32 (w.state.root .v4)).map state = AllowedipsMemory.freeTrie w₀.state 32 _ :=
    state_freeTrie ..
  rw [← h₄]
  cases AllowedipsMemory.freeTrie w₀ 32 (w.state.root .v4) with
  | none => rfl
  | some w₁ => exact state_freeTrie w₁ 128 _

end AllowedipsWriter

/-! ### Readers, callbacks and the writer -/

/-- `lookup` in its read section. -/
structure TrieReader (P : Type) where
  /-- How many callbacks were queued when the section began. -/
  since : Nat
  family : Family
  key : Bytes
  walk : Walk P

namespace TrieReader

/-- `find_node` takes its next step. -/
def advance (r : TrieReader P) (s : Allowedips P) : TrieReader P :=
  { r with walk := s.advance r.family r.key r.walk }

def retry (r : TrieReader P) : TrieReader P := { r with walk := .start }

/-- The nodes that the reader has a pointer to. -/
def inHand (r : TrieReader P) : List Nat :=
  match r.walk with
  | .start => []
  | .reached node found => node.toList ++ (found.map Prod.fst).toList
  | .passed node found => node :: (found.map Prod.fst).toList
  | .done found => (found.map Prod.fst).toList

end TrieReader

/-- What the store gives back. -/
def AllowedipsStore.frees : AllowedipsStore P → List Nat
  | kmemCacheFree p => [p]
  | _ => []

/-- The nodes that the store writes to. -/
def AllowedipsStore.touches : AllowedipsStore P → List Nat
  | seq | kmemCacheZalloc | slot (.root _) _ => []
  | kmemCacheFree p | peer p _ | copyAndAssignCidr p _ _ _ | parentBitPacked p _ | slot (.bit p _) _ | listAddTail p _
  | listDel p | listMoveTail p _ | callRcu (.nodeFree p) | callRcu (.rootFree p) => [p]

structure TrieMemory (P : Type) where
  table : Allowedips P
  /-- The stores that the writer has still to make. -/
  todo : List (AllowedipsStore P)
  readers : List (TrieReader P)
  /-- The callbacks that have run. -/
  ran : List Nat
  /-- What was given to `kmem_cache_free`. -/
  freed : List Nat

inductive TrieEvent (P : Type) where
  /-- A writer takes the lock, for an insertion or a removal by peer. -/
  | update (u : AllowedipsUpdate P)
  /-- A writer takes the lock, for `wg_allowedips_free`. -/
  | free
  | store
  | enter (f : Family) (ip : Bytes)
  | read (i : Nat)
  /-- `goto retry`: there was no reference to be had to the peer of the node. -/
  | retry (i : Nat)
  | leave (i : Nat)
  /-- The callback number `i` runs. -/
  | callback (i : Nat)

namespace TrieMemory

def init : TrieMemory P := ⟨.wgAllowedipsInit, [], [], [], []⟩

def plan (m : TrieMemory P) (stores : List (AllowedipsStore P)) : TrieMemory P := { m with todo := stores }

def setReaders (m : TrieMemory P) (readers : List (TrieReader P)) : TrieMemory P := { m with readers := readers }

/-- The nodes of a trie, as `root_free_rcu` meets them. -/
def trieNodes (debug : Bool) (s : Allowedips P) (root : Nat) : Option (List Nat) :=
  (s.rootFreeRcu debug (2 ^ (Family.v6.bits + 1)) root).map Prod.fst

/-- What `node_free_rcu` or `root_free_rcu` gives back. -/
def callbackFrees (debug : Bool) (s : Allowedips P) : RcuHead → Option (List Nat)
  | .nodeFree p => some [p]
  | .rootFree root => trieNodes debug s root

def runCallback (m : TrieMemory P) (i : Nat) (nodes : List Nat) : TrieMemory P :=
  { m with ran := i :: m.ran, freed := m.freed ++ nodes }

def step (debug : Bool) (m : TrieMemory P) : TrieEvent P → Option (TrieMemory P)
  | .update u => if m.todo.isEmpty then (u.write m.table).map fun w => m.plan w.2.stores else none
  | .free => if m.todo.isEmpty then (AllowedipsWriter.start m.table).free.map fun w => m.plan w.stores else none
  | .store =>
    match m.todo with
    | [] => none
    | st :: rest => some { m with table := st.exec m.table, todo := rest, freed := m.freed ++ st.frees }
  | .enter f ip => some (m.setReaders (m.readers ++ [⟨m.table.rcu.length, f, swapEndian ip f.bits, .start⟩]))
  | .read i => (m.readers[i]?).map fun r => m.setReaders (m.readers.set i (r.advance m.table))
  | .retry i => (m.readers[i]?).map fun r => m.setReaders (m.readers.set i r.retry)
  | .leave i => some (m.setReaders (m.readers.eraseIdx i))
  | .callback i =>
    (m.table.rcu[i]?).bind fun head =>
      if i ∉ m.ran ∧ ∀ r ∈ m.readers, i < r.since then
        (callbackFrees debug m.table head).map (m.runCallback i)
      else none

end TrieMemory

/-! ### What the writer keeps to -/

/-- The nodes that the callback is about. -/
def RcuHead.nodes (s : Allowedips P) : RcuHead → Set Nat
  | nodeFree p => {p}
  | rootFree root => {n | s.forest.Below root n}

/-- The nodes can be retired: the trie does not lead to them, and no peer has them on its list. -/
structure Allowedips.Retirable (s : Allowedips P) (stage : Nat → Stage) (S : Set Nat) : Prop where
  shared : ∀ n ∈ S, stage n = .shared
  root : ∀ f n, s.root f = some n → n ∉ S
  bit : ∀ x b n, (s.mem x).bit b = some n → n ∈ S → (stage x).Active → x ∈ S
  list : ∀ q, ∀ n ∈ S, n ∉ s.list q

/-- The traversal of `root_free_rcu` from `root` meets these nodes. -/
def Allowedips.Traversed (s : Allowedips P) (root : Nat) (visits : List Nat) : Prop :=
  s.Traversal [root] visits ∧ visits.length ≤ 2 ^ (Family.v6.bits + 1)

namespace AllowedipsStore

def Allowed (s : Allowedips P) (stage : Nat → Stage) : AllowedipsStore P → Prop
  | seq | kmemCacheZalloc => True
  | kmemCacheFree p => p < s.brk ∧ stage p = .hidden ∧ ∀ q, p ∉ s.list q
  | peer p _ | copyAndAssignCidr p _ _ _ | parentBitPacked p _ | listAddTail p _ | listDel p | listMoveTail p _ =>
    p < s.brk ∧ (stage p).Active
  | slot (.root _) o => ∀ c, o = some c → c < s.brk ∧ (stage c).Active
  | slot (.bit p _) o => (p < s.brk ∧ (stage p).Active) ∧ ∀ c, o = some c → c < s.brk ∧ (stage c).Active
  | callRcu (.nodeFree p) => s.Retirable stage {p}
  | callRcu (.rootFree root) => s.Retirable stage {n | s.forest.Below root n} ∧ ∃ visits, s.Traversed root visits

open Classical in
/-- The stages after the store. -/
noncomputable def stageAfter (s : Allowedips P) (stage : Nat → Stage) : AllowedipsStore P → Nat → Stage
  | kmemCacheFree p => update stage p .dropped
  | slot _ (some c) => update stage c .shared
  | callRcu head => fun n => if n ∈ head.nodes s then .retired s.rcu.length else stage n
  | _ => stage

end AllowedipsStore

/-- The callback number `i` is about exactly the nodes that are waiting for it. -/
def Allowedips.HeadOk (s : Allowedips P) (stage : Nat → Stage) (i : Nat) : RcuHead → Prop
  | .nodeFree p => ∀ n, stage n = .retired i ↔ n = p
  | .rootFree root => ∃ (s₀ : Allowedips P) (visits : List Nat), s₀.Traversed root visits ∧
    (∀ p ∈ visits, s.mem p = s₀.mem p) ∧
      ∀ n, stage n = .retired i ↔ n ∈ visits

/-- What holds between any two stores. -/
structure Allowedips.Coherent (s : Allowedips P) (stage : Nat → Stage) : Prop where
  disciplined : Disciplined (fun n => ∃ f, s.root f = some n) (fun x n => ∃ b, (s.mem x).bit b = some n) stage
  queued : ∀ n i, stage n = .retired i → i < s.rcu.length
  head : ∀ i head, s.rcu[i]? = some head → s.HeadOk stage i head
  list : ∀ q, ∀ n ∈ s.list q, (stage n).Active
  fresh : ∀ n, s.brk ≤ n → stage n = .hidden ∧ ∀ b, (s.mem n).bit b = none

namespace Allowedips
variable {s t : Allowedips P} {stage stage' : Nat → Stage} {i p : Nat} {head : RcuHead} {q : P}

omit [DecidableEq P]

theorem HeadOk.congr (h : s.HeadOk stage i head) (hstage : ∀ n, stage' n = .retired i ↔ stage n = .retired i)
    (hmem : ∀ n, stage n = .retired i → t.mem n = s.mem n) : t.HeadOk stage' i head := by
  cases head with
  | nodeFree p => exact fun n => (hstage n).trans (h n)
  | rootFree root =>
    obtain ⟨s₀, visits, htraversed, hsame, hvisits⟩ := h
    refine ⟨s₀, visits, htraversed, fun p hp => ?_, fun n => (hstage n).trans (hvisits n)⟩
    rw [hmem p ((hvisits p).mpr hp), hsame p hp]

namespace Coherent

theorem frame (h : s.Coherent stage) (hroot : ∀ f n, t.root f = some n → s.root f = some n)
    (hbit : ∀ x b n, (t.mem x).bit b = some n → (s.mem x).bit b = some n)
    (hmem : ∀ x i, stage x = .retired i → t.mem x = s.mem x) (hrcu : t.rcu = s.rcu) (hbrk : s.brk ≤ t.brk)
    (hlist : ∀ q, ∀ n ∈ t.list q, n ∈ s.list q ∨ (stage n).Active) : t.Coherent stage where
  disciplined := h.disciplined.mono (fun n ⟨f, hf⟩ => ⟨f, hroot f n hf⟩) fun x n ⟨b, hb⟩ => ⟨b, hbit x b n hb⟩
  queued n i hi := hrcu ▸ h.queued n i hi
  head i head hi := (h.head i head (hrcu ▸ hi)).congr (fun _ => Iff.rfl) fun n hn => hmem n i hn
  list q n hn := (hlist q n hn).elim (h.list q n) id
  fresh n hn := by
    obtain ⟨hstage, hnone⟩ := h.fresh n (hbrk.trans hn)
    refine ⟨hstage, fun b => Option.eq_none_iff_forall_ne_some.mpr fun c hc => ?_⟩
    exact Option.some_ne_none c ((hbit n b c hc).symm.trans (hnone b))

theorem setNode (h : s.Coherent stage) (hp : (stage p).Active) {v : AllowedipsNode P}
    (hv : ∀ b n, v.bit b = some n → (s.mem p).bit b = some n) : (s.setNode p v).Coherent stage := by
  refine h.frame (fun _ _ h => h) (fun x b n hn => ?_) (fun x i hx => ?_) rfl (Nat.le_refl _) fun _ _ h => .inl h
  · change (update s.mem p v x).bit b = some n at hn
    by_cases hxp : x = p
    · subst hxp
      rw [update_self] at hn
      exact hv b n hn
    · rw [update_of_ne hxp] at hn
      exact hn
  · refine update_of_ne ?_ _ _
    rintro rfl
    rw [hx] at hp
    exact hp

theorem drop (h : s.Coherent stage) (hbrk : p < s.brk) (hp : stage p = .hidden) (hlist : ∀ q, p ∉ s.list q) :
    s.Coherent (update stage p .dropped) := by
  have hkeep : ∀ n, n ≠ p → update stage p .dropped n = stage n := fun n hn => update_of_ne hn _ _
  have hretired : ∀ n i, update stage p .dropped n = .retired i ↔ stage n = .retired i := by
    intro n i
    by_cases hn : n = p
    · subst hn
      rw [update_self, hp]
      constructor <;> rintro ⟨⟩
    · rw [hkeep n hn]
  refine ⟨h.disciplined.drop hp, fun n i hi => h.queued n i ((hretired n i).mp hi), fun i head hi => ?_,
    fun q n hn => ?_, fun n hn => ?_⟩
  · exact (h.head i head hi).congr (fun n => hretired n i) fun _ _ => rfl
  · rw [hkeep n (by rintro rfl; exact hlist q hn)]
    exact h.list q n hn
  · rw [hkeep n (by rintro rfl; omega)]
    exact h.fresh n hn

/-- A pointer is stored at a root or in a node that the writer may work on. -/
theorem link (h : s.Coherent stage) {σ : Slot Family} {c : Nat}
    (hσ : ∀ p b, σ = .bit p b → p < s.brk ∧ (stage p).Active) (hc : (stage c).Active) (hbrk : c < s.brk) :
    (s.setSlot σ (some c)).Coherent (update stage c .shared) := by
  have hretired : ∀ n i, update stage c .shared n = .retired i ↔ stage n = .retired i := by
    intro n i
    by_cases hn : n = c
    · subst hn
      rw [update_self]
      constructor
      · rintro ⟨⟩
      · intro hi
        rw [hi] at hc
        exact hc.elim
    · rw [update_of_ne hn]
  have hactive : ∀ n, (stage n).Active → (update stage c .shared n).Active := by
    intro n hn
    rw [update_apply]
    split
    exacts [trivial, hn]
  have hslot : ∀ τ, (s.setSlot σ (some c)).forest.slot τ = if τ = σ then some c else s.forest.slot τ := by
    intro τ
    rw [forest_setSlot, Forest.slot_setSlot]
  have hmem : ∀ x i, stage x = .retired i → (s.setSlot σ (some c)).mem x = s.mem x := by
    intro x i hx
    cases σ with
    | root f => rfl
    | bit p b =>
      refine update_of_ne ?_ _ _
      rintro rfl
      have hp := (hσ x b rfl).2
      rw [hx] at hp
      exact hp
  have hrest : (s.setSlot σ (some c)).rcu = s.rcu ∧ (s.setSlot σ (some c)).brk = s.brk ∧
      (s.setSlot σ (some c)).list = s.list := by cases σ <;> exact ⟨rfl, rfl, rfl⟩
  refine ⟨h.disciplined.link hc ?_ ?_, fun n i hi => ?_, fun i head hi => ?_, fun q n hn => ?_, fun n hn => ?_⟩
  · rintro n ⟨f, hf⟩
    have hf' := hslot (.root f)
    split at hf'
    · exact .inr (Option.some.inj (hf.symm.trans hf'))
    · exact .inl ⟨f, hf'.symm.trans hf⟩
  · rintro x n ⟨b, hb⟩
    have hb' := hslot (.bit x b)
    split_ifs at hb' with hσ'
    · exact .inr ⟨Option.some.inj (hb.symm.trans hb'), (hσ x b hσ'.symm).2⟩
    · exact .inl ⟨b, hb'.symm.trans hb⟩
  · rw [hrest.1]
    exact h.queued n i ((hretired n i).mp hi)
  · rw [hrest.1] at hi
    exact (h.head i head hi).congr (fun n => hretired n i) fun n hn => hmem n i hn
  · rw [hrest.2.2] at hn
    exact hactive n (h.list q n hn)
  · rw [hrest.2.1] at hn
    obtain ⟨hstage, hnone⟩ := h.fresh n hn
    rw [update_of_ne (by rintro rfl; omega)]
    refine ⟨hstage, fun b => (hslot (.bit n b)).trans ?_⟩
    rw [if_neg]
    · exact hnone b
    · intro heq
      have hlt := (hσ n b heq.symm).1
      omega

theorem retire (h : s.Coherent stage) (head : RcuHead) (hS : s.Retirable stage (head.nodes s))
    (hhead : ∀ root, head = .rootFree root → ∃ visits, s.Traversed root visits) :
    (s.callRcu head).Coherent ((AllowedipsStore.callRcu head).stageAfter s stage) := by
  have hr : Retires stage ((AllowedipsStore.callRcu head).stageAfter s stage) (head.nodes s) s.rcu.length :=
    ⟨fun n hn => if_pos hn, fun n hn => if_neg hn⟩
  generalize (AllowedipsStore.callRcu head).stageAfter s stage = stage' at hr
  have hnew : ∀ n, stage' n = .retired s.rcu.length ↔ n ∈ head.nodes s := by
    intro n
    refine ⟨fun hn => ?_, hr.inside n⟩
    by_contra hout
    rw [hr.outside n hout] at hn
    exact Nat.lt_irrefl _ (h.queued n _ hn)
  have hold : ∀ n i, i < s.rcu.length → (stage' n = .retired i ↔ stage n = .retired i) := by
    intro n i hi
    by_cases hn : n ∈ head.nodes s
    · rw [hr.inside n hn, hS.shared n hn]
      constructor
      · rintro ⟨⟩
        exact absurd hi (Nat.lt_irrefl _)
      · rintro ⟨⟩
    · rw [hr.outside n hn]
  have hlen : (s.callRcu head).rcu.length = s.rcu.length + 1 := List.length_append
  refine ⟨h.disciplined.retire hr hS.shared ?_ ?_ fun n i hi => Nat.le_of_lt (h.queued n i hi), fun n i hi => ?_,
    fun i head' hi => ?_, fun q n hn => ?_, fun n hn => ?_⟩
  · rintro n ⟨f, hf⟩
    exact hS.root f n hf
  · rintro x n ⟨b, hb⟩
    exact hS.bit x b n hb
  · rw [hlen]
    by_cases hn : n ∈ head.nodes s
    · cases (hr.inside n hn).symm.trans hi
      exact Nat.lt_succ_self _
    · rw [hr.outside n hn] at hi
      exact Nat.lt_succ_of_lt (h.queued n i hi)
  · change (s.rcu ++ [head])[i]? = some head' at hi
    rcases Nat.lt_or_ge i s.rcu.length with hlt | hge
    · rw [List.getElem?_append_left hlt] at hi
      exact (h.head i head' hi).congr (fun n => hold n i hlt) fun _ _ => rfl
    · obtain ⟨rfl, rfl⟩ : head = head' ∧ i = s.rcu.length := by
        rw [List.getElem?_append_right hge, List.getElem?_singleton] at hi
        split at hi
        · exact ⟨Option.some.inj hi, by omega⟩
        · cases hi
      cases head with
      | nodeFree p => exact hnew
      | rootFree root =>
        obtain ⟨visits, hv⟩ := hhead root rfl
        refine ⟨s, visits, hv, fun _ _ => rfl, fun n => (hnew n).trans ?_⟩
        rw [hv.1.mem]
        simp [RcuHead.nodes]
  · rw [hr.outside n fun hnS => hS.list q n hnS hn]
    exact h.list q n hn
  · obtain ⟨hstage, hnone⟩ := h.fresh n hn
    refine ⟨?_, hnone⟩
    rw [hr.outside n, hstage]
    intro hnS
    rw [hS.shared n hnS] at hstage
    cases hstage

end Coherent
end Allowedips

namespace Allowedips
variable {s : Allowedips P} {stage : Nat → Stage} {st : AllowedipsStore P}

theorem mem_listAddTail {p n : Nat} {q r : P} (h : n ∈ (s.listAddTail p q).list r) : n ∈ s.list r ∨ n = p := by
  change n ∈ update s.list q (s.list q ++ [p]) r at h
  by_cases hr : r = q
  · subst hr
    rw [update_self] at h
    exact (List.mem_append.mp h).imp id List.mem_singleton.mp
  · rw [update_of_ne hr] at h
    exact .inl h

theorem Coherent.exec (h : s.Coherent stage) (hst : st.Allowed s stage) :
    (st.exec s).Coherent (st.stageAfter s stage) := by
  cases st with
  | seq => exact h.frame (fun _ _ h => h) (fun _ _ _ h => h) (fun _ _ _ => rfl) rfl (Nat.le_refl _) fun _ _ h => .inl h
  | kmemCacheZalloc =>
    have hbrk : (stage s.brk).Active := by
      rw [(h.fresh s.brk (Nat.le_refl _)).1]
      trivial
    refine (h.setNode (v := .zero) hbrk (by rintro b n ⟨⟩)).frame (fun _ _ h => h) (fun _ _ _ h => h) (fun _ _ _ => rfl)
      rfl (Nat.le_succ _) fun _ _ h => .inl h
  | kmemCacheFree p =>
    obtain ⟨hbrk, hp, hlist⟩ := hst
    refine (h.setNode (v := .zero) ?_ (by rintro b n ⟨⟩)).drop hbrk hp hlist
    rw [hp]
    trivial
  | peer p q => exact h.setNode hst.2 fun _ _ h => h
  | copyAndAssignCidr p src cidr bits => exact h.setNode hst.2 fun _ _ h => h
  | parentBitPacked p σ => exact h.setNode hst.2 fun _ _ h => h
  | slot σ o =>
    cases o with
    | none =>
      have hslot : ∀ τ n, (s.setSlot σ none).forest.slot τ = some n → s.forest.slot τ = some n := by
        intro τ n hn
        rw [forest_setSlot, Forest.slot_setSlot] at hn
        split at hn
        · cases hn
        · exact hn
      have hrest : (s.setSlot σ none).rcu = s.rcu ∧ (s.setSlot σ none).brk = s.brk ∧
          (s.setSlot σ none).list = s.list := by cases σ <;> exact ⟨rfl, rfl, rfl⟩
      refine h.frame (fun f n => hslot (.root f) n) (fun x b n => hslot (.bit x b) n) (fun x i hx => ?_) hrest.1
        hrest.2.1.ge fun q n hn => .inl (hrest.2.2 ▸ hn)
      cases σ with
      | root f => rfl
      | bit p b =>
        refine update_of_ne ?_ _ _
        rintro rfl
        have hp := hst.1.2
        rw [hx] at hp
        exact hp
    | some c =>
      cases σ with
      | root f =>
        obtain ⟨hbrk, hc⟩ := hst c rfl
        exact h.link (σ := .root f) (by rintro p b ⟨⟩) hc hbrk
      | bit p b =>
        obtain ⟨hbrk, hc⟩ := hst.2 c rfl
        refine h.link (σ := .bit p b) ?_ hc hbrk
        rintro _ _ ⟨⟩
        exact hst.1
  | listAddTail p q =>
    refine h.frame (fun _ _ h => h) (fun _ _ _ h => h) (fun _ _ _ => rfl) rfl (Nat.le_refl _) fun r n hn => ?_
    rcases mem_listAddTail hn with hn | rfl
    exacts [.inl hn, .inr hst.2]
  | listDel p =>
    exact h.frame (fun _ _ h => h) (fun _ _ _ h => h) (fun _ _ _ => rfl) rfl (Nat.le_refl _) fun r n hn =>
      .inl (List.mem_of_mem_erase hn)
  | listMoveTail p q =>
    refine h.frame (fun _ _ h => h) (fun _ _ _ h => h) (fun _ _ _ => rfl) rfl (Nat.le_refl _) fun r n hn => ?_
    rcases mem_listAddTail hn with hn | rfl
    exacts [.inl (List.mem_of_mem_erase hn), .inr hst.2]
  | callRcu head =>
    cases head with
    | nodeFree p => exact h.retire (.nodeFree p) hst (by rintro root ⟨⟩)
    | rootFree root =>
      refine h.retire (.rootFree root) hst.1 ?_
      rintro _ ⟨⟩
      exact hst.2

end Allowedips
end WireguardAes
