import Mathlib.Logic.Function.Basic
import Mathlib.Data.List.Nodup
import Mathlib.Algebra.BigOperators.Group.Finset.Basic

/-!
# Chained hash tables

The nodes are linked into the chains of the buckets, and each node knows the chain that it is in. A
node is unlinked from where it is, whatever its key says by then.
-/

structure HashChains (N B : Type) where
  chain : B → List N
  /-- The bucket whose chain the node is in. -/
  home : N → Option B

namespace HashChains

open Function

variable {N B : Type} [DecidableEq N] [DecidableEq B]

def empty : HashChains N B := ⟨fun _ => [], fun _ => none⟩

def unlink (c : HashChains N B) (n : N) : HashChains N B :=
  match c.home n with
  | none => c
  | some b => ⟨update c.chain b ((c.chain b).erase n), update c.home n none⟩

def pushHead (c : HashChains N B) (n : N) (b : B) : HashChains N B :=
  ⟨update c.chain b (n :: c.chain b), update c.home n (some b)⟩

/-- `new` takes the place of `old` in its chain. -/
def swap (c : HashChains N B) (old new : N) : HashChains N B :=
  match c.home old with
  | none => c
  | some b => ⟨update c.chain b ((c.chain b).map fun x => if x = old then new else x),
      update (update c.home new (some b)) old none⟩

/-- The chains hold the nodes that are linked, each of them once. -/
structure WF (c : HashChains N B) : Prop where
  mem_iff : ∀ n b, n ∈ c.chain b ↔ c.home n = some b
  nodup : ∀ b, (c.chain b).Nodup

variable {c : HashChains N B} {n m old new : N} {b : B}

theorem home_unlink (c : HashChains N B) (n : N) : (c.unlink n).home = update c.home n none := by
  unfold unlink
  split
  case h_1 h => rw [← h, update_eq_self]
  · rfl

theorem home_pushHead (c : HashChains N B) (n : N) (b : B) :
    (c.pushHead n b).home = update c.home n (some b) := rfl

theorem home_swap (h : c.home old = some b) :
    (c.swap old new).home = update (update c.home new (some b)) old none := by
  rw [swap, h]

namespace WF

omit [DecidableEq N] [DecidableEq B] in
theorem empty : WF (HashChains.empty : HashChains N B) where
  mem_iff n b := by simp only [HashChains.empty, List.not_mem_nil, reduceCtorEq]
  nodup _ := List.nodup_nil

theorem unlink (h : WF c) (n : N) : WF (c.unlink n) := by
  cases hn : c.home n with
  | none =>
    rw [HashChains.unlink, hn]
    exact h
  | some b =>
    rw [HashChains.unlink, hn]
    refine ⟨fun m b' => ?_, fun b' => ?_⟩
    · have hm := h.mem_iff m b'
      simp only [update_apply]
      split
      case isTrue hb =>
        subst hb
        rw [(h.nodup b').mem_erase_iff]
        grind
      · grind
    · simp only [update_apply]
      split
      · exact (h.nodup b).erase n
      · exact h.nodup b'

theorem pushHead (h : WF c) (hn : c.home n = none) (b : B) : WF (c.pushHead n b) := by
  refine ⟨fun m b' => ?_, fun b' => ?_⟩
  · have hm := h.mem_iff m b'
    simp only [HashChains.pushHead, update_apply]
    split
    case isTrue hb =>
      subst hb
      rw [List.mem_cons]
      grind
    · grind
  · simp only [HashChains.pushHead, update_apply]
    split
    · refine List.nodup_cons.mpr ⟨fun hm => ?_, h.nodup b⟩
      rw [h.mem_iff, hn] at hm
      cases hm
    · exact h.nodup b'

theorem swap (h : WF c) (old : N) (hn : c.home new = none) : WF (c.swap old new) := by
  cases ho : c.home old with
  | none =>
    rw [HashChains.swap, ho]
    exact h
  | some b =>
    have hnew : ∀ b, new ∉ c.chain b := by
      intro b hb
      rw [h.mem_iff, hn] at hb
      cases hb
    have hold : old ∈ c.chain b := (h.mem_iff old b).mpr ho
    rw [HashChains.swap, ho]
    refine ⟨fun m b' => ?_, fun b' => ?_⟩
    · have hm := h.mem_iff m b'
      have hm' := hnew b'
      simp only [update_apply]
      split
      case isTrue hb =>
        subst hb
        rw [List.mem_map]
        grind
      · grind
    · simp only [update_apply]
      split
      · refine (h.nodup b).map_on ?_
        have hb := hnew b
        grind
      · exact h.nodup b'

end WF

/-! ### Counting -/

/-- Two sums that differ in one summand. -/
theorem sum_replace {ι : Type} [DecidableEq ι] {S : Finset ι} {f g : ι → Nat} {i : ι} (hi : i ∈ S)
    (h : ∀ j, j ≠ i → g j = f j) : ∑ j ∈ S, g j + f i = ∑ j ∈ S, f j + g i := by
  have hrest : ∑ j ∈ S.erase i, g j = ∑ j ∈ S.erase i, f j :=
    Finset.sum_congr rfl fun j hj => h j (Finset.ne_of_mem_erase hj)
  rw [← Finset.add_sum_erase S f hi, ← Finset.add_sum_erase S g hi, hrest]
  omega

/-- The number of nodes in some buckets. -/
def size (c : HashChains N B) (bs : Finset B) : Nat := ∑ b ∈ bs, (c.chain b).length

variable {bs : Finset B}

omit [DecidableEq N] in
theorem size_update {c' : HashChains N B} {l : List N} (hchain : c'.chain = update c.chain b l) (hb : b ∈ bs) :
    c'.size bs + (c.chain b).length = c.size bs + l.length := by
  have hsum := sum_replace (f := fun b => (c.chain b).length) (g := fun b => (c'.chain b).length) hb
    fun b' hne => by rw [hchain, update_of_ne hne]
  rw [hchain, update_self, ← hchain] at hsum
  exact hsum

theorem size_pushHead (n : N) (hb : b ∈ bs) : (c.pushHead n b).size bs = c.size bs + 1 := by
  have hchain : (c.pushHead n b).chain = update c.chain b (n :: c.chain b) := rfl
  have hsize := size_update hchain hb
  rw [List.length_cons] at hsize
  omega

theorem WF.size_unlink (h : WF c) (hn : c.home n = some b) (hb : b ∈ bs) : (c.unlink n).size bs + 1 = c.size bs := by
  have hchain : (c.unlink n).chain = update c.chain b ((c.chain b).erase n) := by rw [HashChains.unlink, hn]
  have hsize := size_update hchain hb
  have hlen := List.length_erase_add_one ((h.mem_iff n b).mpr hn)
  omega

end HashChains
