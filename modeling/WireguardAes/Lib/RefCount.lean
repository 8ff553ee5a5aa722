import Mathlib.Data.List.Perm.Basic
import Mathlib.Data.List.Nodup
import Mathlib.Logic.Function.Basic

/-!
# Reference counts

`Owned count freed owners made`: the list `owners` has one element for every reference held
somewhere, `count` agrees with it, and the objects handed to `freed` are exactly those made and no
longer owned, each once. The rules say how the four change together when an object is made, when a
reference is taken from an object that is still owned, and when one is given up.
-/

namespace RefCount

open Function

variable {K : Type} [DecidableEq K]

structure Owned (count : K → Nat) (freed owners : List K) (made : K → Prop) : Prop where
  counted : ∀ k, count k = owners.count k
  once : freed.Nodup
  freed_iff : ∀ k, k ∈ freed ↔ made k ∧ k ∉ owners
  made : ∀ k ∈ owners, made k

namespace Owned

variable {count : K → Nat} {freed freed' owners owners' : List K} {made made' : K → Prop} {k : K}

theorem perm (h : Owned count freed owners made) (hf : freed.Perm freed') (ho : owners.Perm owners') :
    Owned count freed' owners' made where
  counted k := by rw [h.counted, ho.count_eq]
  once := hf.nodup_iff.mp h.once
  freed_iff k := by rw [← hf.mem_iff, ← ho.mem_iff, h.freed_iff]
  made k hk := h.made k (ho.mem_iff.mpr hk)

theorem pos_iff (h : Owned count freed owners made) : 0 < count k ↔ k ∈ owners := by
  rw [h.counted, List.count_pos_iff]

theorem count_eq_zero (h : Owned count freed owners made) (hk : k ∈ freed) : count k = 0 := by
  rw [h.counted, List.count_eq_zero]
  exact ((h.freed_iff k).mp hk).2

/-- A new object, owned by whoever made it. -/
theorem create (h : Owned count freed owners made) (hk : ¬ made k) (hm : ∀ j, made' j ↔ made j ∨ j = k) :
    Owned (update count k 1) freed (k :: owners) made' := by
  have hnot : k ∉ owners := fun hmem => hk (h.made k hmem)
  refine ⟨fun j => ?_, h.once, fun j => ?_, fun j hj => ?_⟩
  · by_cases hj : j = k
    · subst hj
      rw [update_self, List.count_cons_self, List.count_eq_zero_of_not_mem hnot]
    · rw [update_of_ne hj, List.count_cons_of_ne (Ne.symm hj), h.counted]
  · rw [h.freed_iff, hm, List.mem_cons, not_or]
    constructor
    · exact fun hj => ⟨.inl hj.1, fun he => hk (he ▸ hj.1), hj.2⟩
    · exact fun hj => ⟨hj.1.resolve_right hj.2.1, hj.2.2⟩
  · rw [hm]
    exact (List.mem_cons.mp hj).symm.imp (h.made j) id

/-- Another reference to an object that is owned. -/
theorem get (h : Owned count freed owners made) (hk : k ∈ owners) :
    Owned (update count k (count k + 1)) freed (k :: owners) made := by
  refine ⟨fun j => ?_, h.once, fun j => ?_, fun j hj => ?_⟩
  · by_cases hj : j = k
    · subst hj
      rw [update_self, List.count_cons_self, h.counted]
    · rw [update_of_ne hj, List.count_cons_of_ne (Ne.symm hj), h.counted]
  · rw [h.freed_iff, List.mem_cons, not_or]
    exact ⟨fun hj => ⟨hj.1, fun he => hj.2 (he ▸ hk), hj.2⟩, fun hj => ⟨hj.1, hj.2.2⟩⟩
  · rcases List.mem_cons.mp hj with rfl | hj
    exacts [h.made j hk, h.made j hj]

/-- A reference is given up; the object is freed if it was the last one. -/
theorem put (h : Owned count freed (k :: owners) made) :
    Owned (update count k (count k - 1)) (if count k - 1 = 0 then k :: freed else freed) owners made := by
  have hc : count k = owners.count k + 1 := by rw [h.counted, List.count_cons_self]
  have hmem : count k - 1 = 0 ↔ k ∉ owners := by
    rw [hc, Nat.add_sub_cancel, List.count_eq_zero]
  have hkf : k ∉ freed := fun hk => ((h.freed_iff k).mp hk).2 List.mem_cons_self
  refine ⟨fun j => ?_, ?_, fun j => ?_, fun j hj => h.made j (List.mem_cons_of_mem _ hj)⟩
  · by_cases hj : j = k
    · subst hj
      rw [update_self, hc, Nat.add_sub_cancel]
    · rw [update_of_ne hj, h.counted, List.count_cons_of_ne (Ne.symm hj)]
  · split
    exacts [List.nodup_cons.mpr ⟨hkf, h.once⟩, h.once]
  · have hj := h.freed_iff j
    rw [List.mem_cons, not_or] at hj
    by_cases hjk : j = k
    · subst hjk
      have hmade := h.made j List.mem_cons_self
      split
      · exact ⟨fun _ => ⟨hmade, hmem.mp ‹_›⟩, fun _ => List.mem_cons_self⟩
      · exact ⟨fun hf => absurd hf hkf, fun ho => absurd (hmem.mpr ho.2) ‹_›⟩
    · split
      · rw [List.mem_cons, hj]
        exact ⟨fun hf => (hf.resolve_left hjk).imp_right And.right, fun ho => .inr ⟨ho.1, hjk, ho.2⟩⟩
      · rw [hj]
        exact ⟨fun hf => hf.imp_right And.right, fun ho => ⟨ho.1, hjk, ho.2⟩⟩

end Owned
end RefCount
