import Mathlib.Logic.Function.Basic
import Mathlib.Data.Set.Basic

/-!
# Deferred reclamation of linked nodes

Nodes that point to each other, written by one writer and read by readers that take no lock. Nobody
has a pointer to a node before it is shared; a node that is taken out is retired, with its place in
the queue of what is to be given back, and is given back only when the readers that were there
before have left. What the writer has to keep to is `Disciplined`: the nodes that it may still work
on point to shared nodes only, and a retired one to nothing that was retired before it. A reader
that came when `k` nodes were queued then only ever has nodes in hand that are shared, or queued
since (`Stage.Since`).
-/

namespace Reclaim

open Function

inductive Stage where
  /-- No pointer to the node has been stored yet. -/
  | hidden
  | shared
  /-- The node is waiting, as number `i` of the queue. -/
  | retired (i : Nat)
  /-- The node was given back before it was shared. -/
  | dropped
  deriving DecidableEq

namespace Stage

/-- The node may be in the hands of a reader that came when `k` nodes were queued. -/
def Since (k : Nat) : Stage → Prop
  | .shared => True
  | .retired i => k ≤ i
  | .hidden | .dropped => False

/-- The writer may still work on the node. -/
def Active : Stage → Prop
  | .retired _ | .dropped => False
  | .hidden | .shared => True

theorem active_of_eq {t : Stage} (h : t = .shared) : t.Active := h ▸ trivial

end Stage

variable {ι : Type}

structure Disciplined (entry : ι → Prop) (points : ι → ι → Prop) (stage : ι → Stage) : Prop where
  root : ∀ n, entry n → stage n = .shared
  next : ∀ x n, points x n → (stage x).Active → stage n = .shared
  after : ∀ x n i, points x n → stage x = .retired i → stage n = .shared ∨ ∃ j, i ≤ j ∧ stage n = .retired j

namespace Disciplined

variable {entry entry' : ι → Prop} {points points' : ι → ι → Prop} {stage : ι → Stage} {n x : ι} {k : Nat}

/-! ### What a reader finds -/

theorem since_entry (h : Disciplined entry points stage) (hn : entry n) : (stage n).Since k := by
  rw [h.root n hn]
  trivial

theorem since_next (h : Disciplined entry points stage) (hx : (stage x).Since k) (hn : points x n) :
    (stage n).Since k := by
  cases hstage : stage x with
  | shared =>
    rw [h.next x n hn (Stage.active_of_eq hstage)]
    trivial
  | retired i =>
    rw [hstage] at hx
    rcases h.after x n i hn hstage with hn | ⟨j, hij, hn⟩
    · rw [hn]
      trivial
    · rw [hn]
      exact Nat.le_trans hx hij
  | hidden =>
    rw [hstage] at hx
    exact hx.elim
  | dropped =>
    rw [hstage] at hx
    exact hx.elim

/-! ### What the writer does -/

theorem mono (h : Disciplined entry points stage) (he : ∀ n, entry' n → entry n)
    (hp : ∀ x n, points' x n → points x n) :
    Disciplined entry' points' stage :=
  ⟨fun n hn => h.root n (he n hn), fun x n hn => h.next x n (hp x n hn), fun x n i hn => h.after x n i (hp x n hn)⟩

variable [DecidableEq ι] {c p : ι}

/-- A pointer to `c` is stored at an entry or in a node that the writer may work on. -/
theorem link (h : Disciplined entry points stage) (hc : (stage c).Active) (he : ∀ n, entry' n → entry n ∨ n = c)
    (hp : ∀ x n, points' x n → points x n ∨ (n = c ∧ (stage x).Active)) :
    Disciplined entry' points' (update stage c .shared) := by
  have hshared : ∀ n, stage n = .shared → update stage c .shared n = .shared := by
    intro n hn
    rw [update_apply]
    split
    exacts [rfl, hn]
  have hretired : ∀ n i, update stage c .shared n = .retired i ↔ stage n = .retired i := by
    intro n i
    rw [update_apply]
    split_ifs with hnc
    · subst hnc
      constructor
      · rintro ⟨⟩
      · intro h
        rw [h] at hc
        exact hc.elim
    · exact Iff.rfl
  have hactive : ∀ x, (update stage c .shared x).Active → (stage x).Active := by
    intro x hx
    rw [update_apply] at hx
    split_ifs at hx with hxc
    · rwa [hxc]
    · exact hx
  refine ⟨fun n hn => ?_, fun x n hn hx => ?_, fun x n i hn hx => ?_⟩
  · rcases he n hn with hn | rfl
    · exact hshared n (h.root n hn)
    · exact update_self ..
  · rcases hp x n hn with hn | ⟨rfl, -⟩
    · exact hshared n (h.next x n hn (hactive x hx))
    · exact update_self ..
  · rw [hretired] at hx
    rcases hp x n hn with hn | ⟨rfl, hne⟩
    · refine (h.after x n i hn hx).imp (hshared n) ?_
      rintro ⟨j, hij, hj⟩
      exact ⟨j, hij, (hretired n j).mpr hj⟩
    · rw [hx] at hne
      exact hne.elim

theorem since_link {k : Nat} (h : (stage n).Since k) : (update stage c .shared n).Since k := by
  rw [update_apply]
  split
  exacts [trivial, h]

/-- A node that nobody has a pointer to is given back at once. -/
theorem drop (h : Disciplined entry points stage) (hc : stage p = .hidden) :
    Disciplined entry points (update stage p .dropped) := by
  have hkeep : ∀ n t, t ≠ .hidden → stage n = t → update stage p .dropped n = t := by
    intro n t ht hn
    rw [update_of_ne, hn]
    rintro rfl
    exact ht (hn.symm.trans hc)
  have hretired : ∀ n i, update stage p .dropped n = .retired i → stage n = .retired i := by
    intro n i hn
    rw [update_apply] at hn
    split at hn
    · cases hn
    · exact hn
  have hactive : ∀ x, (update stage p .dropped x).Active → (stage x).Active := by
    intro x hx
    rw [update_apply] at hx
    split at hx
    · exact hx.elim
    · exact hx
  refine ⟨fun n hn => hkeep n _ (by decide) (h.root n hn), fun x n hn hx => ?_, fun x n i hn hx => ?_⟩
  · exact hkeep n _ (by decide) (h.next x n hn (hactive x hx))
  · refine (h.after x n i hn (hretired x i hx)).imp (hkeep n _ (by decide)) ?_
    rintro ⟨j, hij, hj⟩
    exact ⟨j, hij, hkeep n _ (by rintro ⟨⟩) hj⟩

theorem since_drop {k : Nat} (hc : stage p = .hidden) (h : (stage n).Since k) :
    (update stage p .dropped n).Since k := by
  rw [update_of_ne]
  · exact h
  · rintro rfl
    rw [hc] at h
    exact h

end Disciplined

section
variable {entry : ι → Prop} {points : ι → ι → Prop} {stage stage' : ι → Stage} {S : Set ι} {q : Nat}

/-- The nodes of `S` are queued together, as number `q`. -/
structure Retires (stage stage' : ι → Stage) (S : Set ι) (q : Nat) : Prop where
  inside : ∀ n ∈ S, stage' n = .retired q
  outside : ∀ n, n ∉ S → stage' n = stage n

/-- Nodes are retired that, of the nodes the writer may work on, only they themselves point to. -/
theorem Disciplined.retire (h : Disciplined entry points stage) (hr : Retires stage stage' S q)
    (hS : ∀ n ∈ S, stage n = .shared) (he : ∀ n, entry n → n ∉ S)
    (hp : ∀ x n, points x n → n ∈ S → (stage x).Active → x ∈ S)
    (hq : ∀ n i, stage n = .retired i → i ≤ q) : Disciplined entry points stage' := by
  refine ⟨fun n hn => (hr.outside n (he n hn)).trans (h.root n hn), fun x n hn hx => ?_, fun x n i hn hx => ?_⟩
  · have hxS : x ∉ S := by
      intro hxS
      rw [hr.inside x hxS] at hx
      exact hx
    rw [hr.outside x hxS] at hx
    have hnS : n ∉ S := fun hnS => hxS (hp x n hn hnS hx)
    exact (hr.outside n hnS).trans (h.next x n hn hx)
  · by_cases hxS : x ∈ S
    · rw [hr.inside x hxS] at hx
      cases hx
      by_cases hnS : n ∈ S
      · exact .inr ⟨q, Nat.le_refl _, hr.inside n hnS⟩
      · exact .inl ((hr.outside n hnS).trans (h.next x n hn (Stage.active_of_eq (hS x hxS))))
    · rw [hr.outside x hxS] at hx
      by_cases hnS : n ∈ S
      · exact .inr ⟨q, hq x i hx, hr.inside n hnS⟩
      · rw [hr.outside n hnS]
        exact h.after x n i hn hx

theorem Retires.since {n : ι} {k : Nat} (hr : Retires stage stage' S q) (hk : k ≤ q) (h : (stage n).Since k) :
    (stage' n).Since k := by
  by_cases hn : n ∈ S
  · rw [hr.inside n hn]
    exact hk
  · rw [hr.outside n hn]
    exact h

end
end Reclaim
