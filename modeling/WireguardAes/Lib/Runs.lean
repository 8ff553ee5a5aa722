import Mathlib.Logic.Relation

/-!
# Runs of a transition system

`Run step C s t`: a run from `s` to `t` all of whose states meet the condition `C` (an assumption on
the environment, such as a bound on the load). `Exec step ok s t`: a run of labelled steps, each
taken in a state in which `ok` allows its label. Invariants are proved by `Run.inv` and `Exec.inv`:
they hold at the start and each step keeps them.
-/

namespace Runs

variable {σ ε : Type}

inductive Run (step : σ → σ → Prop) (C : σ → Prop) : σ → σ → Prop
  | refl (s : σ) (h : C s) : Run step C s s
  | tail {s t u : σ} (h : Run step C s t) (hs : step t u) (hu : C u) : Run step C s u

namespace Run

variable {step : σ → σ → Prop} {C I : σ → Prop} {s t : σ}

theorem cond (h : Run step C s t) : C t := by
  cases h <;> assumption

/-- What holds at the start and is kept by every step holds along the run. -/
theorem inv (h : Run step C s t) (h₀ : I s) (hstep : ∀ t u, C t → C u → I t → step t u → I u) : I t := by
  induction h with
  | refl => exact h₀
  | tail h hs hu ih => exact hstep _ _ h.cond hu ih hs

end Run

inductive Exec (step : σ → ε → Option σ) (ok : σ → ε → Prop) : σ → σ → Prop
  | refl (s : σ) : Exec step ok s s
  | tail {s t u : σ} {e : ε} (h : Exec step ok s t) (hok : ok t e) (hs : step t e = some u) : Exec step ok s u

namespace Exec

variable {step : σ → ε → Option σ} {ok : σ → ε → Prop} {I : σ → Prop} {s t u : σ}

theorem inv (h : Exec step ok s t) (h₀ : I s) (hstep : ∀ t e u, ok t e → I t → step t e = some u → I u) : I t := by
  induction h with
  | refl => exact h₀
  | tail h hok hs ih => exact hstep _ _ _ hok ih hs

theorem trans (h : Exec step ok s t) (h' : Exec step ok t u) : Exec step ok s u := by
  induction h' with
  | refl => exact h
  | tail _ hok hs ih => exact ih.tail hok hs

/-- A step that can be taken leads to the state that evaluating it gives. -/
theorem step_getD {e : ε} (h : (step s e).isSome = true) : step s e = some ((step s e).getD s) := by
  obtain ⟨t, ht⟩ := Option.isSome_iff_exists.mp h
  rw [ht, Option.getD_some]

/-- A run is found by evaluating its steps. -/
theorem of_foldlM [∀ s e, Decidable (ok s e)] (es : List ε)
    (h : es.foldlM (fun s e => if ok s e then step s e else none) s = some t) : Exec step ok s t := by
  induction es generalizing s with
  | nil => cases h; exact .refl _
  | cons e es ih =>
    rw [List.foldlM_cons] at h
    obtain ⟨u, hu, h⟩ := Option.bind_eq_some_iff.mp h
    split at hu
    · exact ((Exec.refl s).tail ‹_› hu).trans (ih h)
    · cases hu

/-- A run is found by evaluating what is to be known of its last state. -/
theorem exists_of_foldlM {β : Type} [∀ s e, Decidable (ok s e)] (es : List ε) (f : σ → β) {b : β}
    (h : (es.foldlM (fun s e => if ok s e then step s e else none) s).map f = some b) :
    ∃ t, Exec step ok s t ∧ f t = b := by
  obtain ⟨t, ht, hb⟩ := Option.map_eq_some_iff.mp h
  exact ⟨t, .of_foldlM es ht, hb⟩

end Exec
end Runs
