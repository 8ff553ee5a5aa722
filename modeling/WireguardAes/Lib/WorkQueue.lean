import Mathlib.Algebra.Group.Nat.Defs

/-!
# Work items

A work item is queued unless it is queued already, and runs once for each time that it has been
queued; it may be queued again while it runs. A flush that is called when the item has been queued
`mark` times is over once the item has finished as often. The runs are numbered by the times that
the item has been queued: `Will` says that one with a number of some kind is still to look at its
input.
-/

structure WorkItem where
  /-- How often the item has been queued. -/
  gen : Nat
  queued : Bool
  running : Bool
  fits : queued.toNat + running.toNat ≤ gen
  deriving DecidableEq

namespace WorkItem

def idle : WorkItem := ⟨0, false, false, Nat.le_refl 0⟩

def queue (w : WorkItem) : WorkItem :=
  if h : w.queued = true then w
  else ⟨w.gen + 1, true, w.running, by
    have hfits := w.fits
    rw [Bool.eq_false_iff.mpr h] at hfits
    simp only [Bool.toNat_true, Bool.toNat_false] at hfits ⊢
    omega⟩

/-- A worker takes the item from its queue. -/
def start (w : WorkItem) : Option WorkItem :=
  if h : w.queued = true ∧ w.running = false then
    some ⟨w.gen, false, true, by
      have hfits := w.fits
      rw [h.1, h.2] at hfits
      exact hfits⟩
  else none

def finish (w : WorkItem) : Option WorkItem :=
  if w.running = true then
    some ⟨w.gen, w.queued, false, by
      have hfits := w.fits
      simp only [Bool.toNat_false]
      omega⟩
  else none

def finished (w : WorkItem) : Nat := w.gen - w.queued.toNat - w.running.toNat

/-- The runs for which the item had been queued up to `mark` are over. -/
def Flushed (w : WorkItem) (mark : Nat) : Prop := mark ≤ w.finished

instance (w : WorkItem) (mark : Nat) : Decidable (w.Flushed mark) := inferInstanceAs (Decidable (_ ≤ _))

variable {w w' : WorkItem} {mark : Nat}

theorem gen_start (h : w.start = some w') : w'.gen = w.gen := by
  unfold start at h
  split at h <;> cases h
  rfl

theorem gen_finish (h : w.finish = some w') : w'.gen = w.gen := by
  unfold finish at h
  split at h <;> cases h
  rfl

theorem queued_start (h : w.start = some w') : w'.queued = false := by
  unfold start at h
  split at h <;> cases h
  rfl

theorem queued_of_start (h : w.start = some w') : w.queued = true := by
  unfold start at h
  split at h <;> cases h
  case isTrue hw =>
  exact hw.1

theorem queued_finish (h : w.finish = some w') : w'.queued = w.queued := by
  unfold finish at h
  split at h <;> cases h
  rfl

theorem running_queue : w.queue.running = w.running := by
  unfold queue
  split <;> rfl

theorem running_start (h : w.start = some w') : w.running = false ∧ w'.running = true := by
  unfold start at h
  split at h <;> cases h
  case isTrue hw =>
  exact ⟨hw.2, rfl⟩

theorem running_finish (h : w.finish = some w') : w'.running = false := by
  unfold finish at h
  split at h <;> cases h
  rfl

/-- An item that has not been queued since the flush was called is idle when the flush is over. -/
theorem idle_of_flushed (hg : w.gen ≤ mark) (h : w.Flushed mark) : w.queued = false ∧ w.running = false := by
  have hfits := w.fits
  unfold Flushed finished at h
  refine ⟨Bool.eq_false_iff.mpr fun hq => ?_, Bool.eq_false_iff.mpr fun hr => ?_⟩
  · rw [hq, Bool.toNat_true] at h hfits
    omega
  · rw [hr, Bool.toNat_true] at h hfits
    omega

/-- The number of the run that is under way. -/
def current (w : WorkItem) : Nat := w.gen - w.queued.toNat

theorem current_queue : w.queue.current = w.current := by
  unfold queue
  split
  · rfl
  case isFalse hq =>
    simp only [current, Bool.toNat_true, Bool.eq_false_iff.mpr hq, Bool.toNat_false]
    omega

theorem current_start (h : w.start = some w') : w'.current = w.gen := by
  rw [current, queued_start h, gen_start h]
  rfl

theorem queued_queue : w.queue.queued = true := by
  unfold queue
  split
  · assumption
  · rfl

/-- A run with a number of `early` is queued, or it is under way and `live`. -/
def Will (w : WorkItem) (early : Nat → Prop) (live : Prop) : Prop :=
  w.queued = true ∧ early w.gen ∨ live ∧ early w.current

section
variable {early : Nat → Prop} {live live' : Prop}

theorem will_queue (h : early w.queue.gen) : w.queue.Will early live := .inl ⟨queued_queue, h⟩

theorem Will.queue (h : w.Will early live) : w.queue.Will early live := by
  rcases h with ⟨hq, he⟩ | ⟨hl, he⟩
  · have hw : w.queue = w := by
      unfold WorkItem.queue
      exact dif_pos hq
    rw [hw]
    exact .inl ⟨hq, he⟩
  · refine .inr ⟨hl, ?_⟩
    rw [current_queue]
    exact he

theorem Will.imp (h : w.Will early live) (hl : live → live') : w.Will early live' :=
  h.imp_right fun h => ⟨hl h.1, h.2⟩

theorem Will.le_gen (h : w.Will early live) : w.Will (· ≤ w.gen) live :=
  Or.imp (fun h => ⟨h.1, Nat.le_refl _⟩) (fun h => ⟨h.1, Nat.sub_le _ _⟩) h

/-- The run that starts is the one that was queued. -/
theorem Will.start (h : w.Will early live) (hs : w.start = some w') (hl : live → w.running = true) (hl' : live') :
    w'.Will early live' := by
  rcases h with ⟨-, he⟩ | ⟨h, -⟩
  · refine .inr ⟨hl', ?_⟩
    rw [current_start hs]
    exact he
  · have hr := hl h
    rw [(running_start hs).1] at hr
    cases hr

theorem Will.finish (h : w.Will early live) (hs : w.finish = some w') (hl : ¬ live) : w'.Will early live' := by
  rcases h with ⟨hq, he⟩ | ⟨h, -⟩
  · refine .inl ⟨(queued_finish hs).trans hq, ?_⟩
    rw [gen_finish hs]
    exact he
  · exact absurd h hl

/-- When the flush is over the runs that it has waited for are over. -/
theorem not_will_of_flushed (h : w.Flushed mark) (hl : live → w.running = true) : ¬ w.Will (· ≤ mark) live := by
  have hfits := w.fits
  unfold Flushed finished at h
  rintro (⟨hq, he⟩ | ⟨hlive, he⟩)
  · rw [hq, Bool.toNat_true] at h hfits
    omega
  · rw [current] at he
    rw [hl hlive, Bool.toNat_true] at h hfits
    omega

end

end WorkItem
