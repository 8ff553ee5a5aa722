import Mathlib.Algebra.Group.Nat.Defs

/-!
# Bounded rings of pointers

A ring with a fixed number of slots. The consumer takes the oldest entry and clears the slots it has
left behind in batches, so a slot may be unusable for the producer after its entry is gone.
-/

structure PtrRing (α : Type) (size : Nat) where
  entries : List α
  /-- The consumed slots that have not been cleared. -/
  uncleared : Nat
  fits : entries.length + uncleared ≤ size

namespace PtrRing

variable {α : Type} {size : Nat}

def empty : PtrRing α size := ⟨[], 0, Nat.zero_le _⟩

def produce (r : PtrRing α size) (x : α) : Option (PtrRing α size) :=
  if h : r.entries.length + r.uncleared < size then
    some ⟨r.entries ++ [x], r.uncleared, by rw [List.length_append, List.length_singleton]; omega⟩
  else none

/-- `clears`: the batch is complete. -/
def consume (r : PtrRing α size) (clears : Bool) : Option (α × PtrRing α size) :=
  match h : r.entries with
  | [] => none
  | x :: xs =>
    have hfits := r.fits
    some (x, ⟨xs, if clears then 0 else r.uncleared + 1, by rw [h, List.length_cons] at hfits; split <;> omega⟩)

theorem entries_of_produce {r r' : PtrRing α size} {x : α} (h : r.produce x = some r') :
    r'.entries = r.entries ++ [x] := by
  unfold produce at h
  split at h
  · cases h
    rfl
  · cases h

theorem entries_of_consume {r r' : PtrRing α size} {clears : Bool} {x : α} (h : r.consume clears = some (x, r')) :
    r.entries = x :: r'.entries := by
  unfold consume at h
  split at h
  · cases h
  case h_2 hxs =>
    cases h
    exact hxs

theorem consume_eq_none {r : PtrRing α size} {clears : Bool} : r.consume clears = none ↔ r.entries = [] := by
  unfold consume
  split
  case h_1 hnil =>
    simp only [hnil]
  case h_2 hcons =>
    simp only [hcons, reduceCtorEq]

end PtrRing
