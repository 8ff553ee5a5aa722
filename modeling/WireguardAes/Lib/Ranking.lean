import Mathlib.Algebra.GroupWithZero.Nat

/-!
# Systems that run down

`Ranked step I rank`: from a state with `I` every step leads to one of a lower rank. The length of a
run is then bounded by the rank of its first state, no run goes on for ever, and every state has a
run to one without a step. A rank is mostly a sum over things that may be pending: `due b w` is what
a pending thing counts.
-/

namespace Ranking

/-- `w` for a thing that is pending. -/
def due (pending : Bool) (w : Nat) : Nat := bif pending then w else 0

@[simp] theorem due_true (w : Nat) : due true w = w := rfl

@[simp] theorem due_false (w : Nat) : due false w = 0 := rfl

theorem due_le (b : Bool) (w : Nat) : due b w ≤ w := by
  rcases b with _ | _
  · exact Nat.zero_le w
  · exact Nat.le_refl w

theorem sum_map_set {α : Type} (f : α → Nat) {l : List α} {i : Nat} {x : α} (h : l[i]? = some x) (y : α) :
    ((l.set i y).map f).sum + f x = (l.map f).sum + f y := by
  induction l generalizing i with
  | nil => cases h
  | cons a l ih =>
    rcases i with _ | i
    · rw [List.getElem?_cons_zero, Option.some.injEq] at h
      subst h
      simp only [List.set_cons_zero, List.map_cons, List.sum_cons]
      omega
    · have hsum := ih h
      simp only [List.set_cons_succ, List.map_cons, List.sum_cons]
      omega

variable {σ ε : Type} {step : σ → ε → Option σ} {I : σ → Prop} {rank : σ → Nat} {s t : σ}

structure Ranked (step : σ → ε → Option σ) (I : σ → Prop) (rank : σ → Nat) : Prop where
  keeps : ∀ {s e t}, I s → step s e = some t → I t
  falls : ∀ {s e t}, I s → step s e = some t → rank t < rank s

namespace Ranked

theorem length_add_rank_le (h : Ranked step I rank) (hs : I s) {es : List ε} (hrun : es.foldlM step s = some t) :
    I t ∧ es.length + rank t ≤ rank s := by
  induction es generalizing s with
  | nil =>
    cases hrun
    exact ⟨hs, Nat.le_of_eq (Nat.zero_add _)⟩
  | cons e es ih =>
    rw [List.foldlM_cons] at hrun
    obtain ⟨u, hu, hrun⟩ := Option.bind_eq_some_iff.mp hrun
    have hfalls := h.falls hs hu
    obtain ⟨hI, hle⟩ := ih (h.keeps hs hu) hrun
    refine ⟨hI, ?_⟩
    rw [List.length_cons]
    omega

/-- A run can be continued until there is no step. -/
theorem exists_last (h : Ranked step I rank) (hs : I s) :
    ∃ (es : List ε) (t : σ), es.foldlM step s = some t ∧ ∀ e, step t e = none := by
  induction hn : rank s using Nat.strongRecOn generalizing s with
  | ind n ih =>
    by_cases hstep : ∀ e, step s e = none
    · exact ⟨[], s, rfl, hstep⟩
    · obtain ⟨e, he⟩ := Classical.not_forall.mp hstep
      obtain ⟨u, hu⟩ := Option.ne_none_iff_exists'.mp he
      obtain ⟨es, t, hrun, hlast⟩ := ih (rank u) (hn ▸ h.falls hs hu) (h.keeps hs hu) rfl
      refine ⟨e :: es, t, ?_, hlast⟩
      rw [List.foldlM_cons, hu]
      exact hrun

theorem not_endless (h : Ranked step I rank) {run : Nat → σ} {es : Nat → ε} (hs : I (run 0)) :
    ¬ ∀ n, step (run n) (es n) = some (run (n + 1)) := by
  intro hrun
  -- after `n` steps the rank has fallen by `n`
  have hrank : ∀ n, I (run n) ∧ rank (run n) + n ≤ rank (run 0) := by
    intro n
    induction n with
    | zero => exact ⟨hs, Nat.le_refl _⟩
    | succ n ih =>
      have hfalls := h.falls ih.1 (hrun n)
      exact ⟨h.keeps ih.1 (hrun n), by omega⟩
  have hle := (hrank (rank (run 0) + 1)).2
  omega

end Ranked
end Ranking
