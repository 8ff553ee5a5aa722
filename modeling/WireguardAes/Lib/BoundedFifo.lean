/-!
# Bounded first-in-first-out queues

The abstract queue: a list of at most `capacity` elements, to the end of which elements are put and
from the front of which they are taken. An attempt to take may fail at any time, which changes
nothing. `run` accepts the histories that such a queue allows.
-/

namespace BoundedFifo

inductive Action (ν : Type) where
  | put (x : ν)
  | take (x : ν)
  | null
  deriving DecidableEq

def Action.map {ν μ : Type} (f : ν → μ) : Action ν → Action μ
  | .put x => .put (f x)
  | .take x => .take (f x)
  | .null => .null

theorem Action.map_injective {ν μ : Type} {f : ν → μ} (hf : Function.Injective f) :
    Function.Injective (Action.map f) := by
  intro a b h
  cases a with
  | put x =>
    cases b with
    | put y => exact congrArg _ (hf (Action.put.inj h))
    | _ => cases h
  | take x =>
    cases b with
    | take y => exact congrArg _ (hf (Action.take.inj h))
    | _ => cases h
  | null => cases b <;> first | rfl | cases h

variable {ν : Type} [DecidableEq ν]

def step (capacity : Nat) (queue : List ν) : Action ν → Option (List ν)
  | .put x => if queue.length < capacity then some (queue ++ [x]) else none
  | .take x => match queue with
    | [] => none
    | y :: queue => if x = y then some queue else none
  | .null => some queue

def run (capacity : Nat) (queue : List ν) (history : List (Action ν)) : Option (List ν) :=
  history.foldlM (step capacity) queue

def puts (history : List (Action ν)) : List ν :=
  history.filterMap fun | .put x => some x | _ => none

def takes (history : List (Action ν)) : List ν :=
  history.filterMap fun | .take x => some x | _ => none

variable {capacity : Nat} {queue queue' : List ν} {history : List (Action ν)}

theorem run_append (h : run capacity queue history = some queue') (a : Action ν) :
    run capacity queue (history ++ [a]) = step capacity queue' a := by
  have h' : history.foldlM (step capacity) queue = some queue' := h
  rw [run, List.foldlM_append, h']
  show (step capacity queue' a).bind some = _
  cases step capacity queue' a <;> rfl

/-- What has been put comes out in the same order, and what has not come out is in the queue. -/
theorem puts_eq (h : run capacity queue history = some queue') : queue ++ puts history = takes history ++ queue' := by
  induction history generalizing queue with
  | nil =>
    cases h
    exact List.append_nil _
  | cons a history ih =>
    obtain ⟨queue₁, ha, h⟩ := Option.bind_eq_some_iff.mp h
    have ih := ih h
    cases a with
    | put x =>
      simp only [step] at ha
      split at ha <;> cases ha
      rwa [List.append_assoc] at ih
    | take x =>
      simp only [step] at ha
      split at ha
      · cases ha
      · split at ha <;> cases ha
        case h_2 y _ hxy =>
        subst hxy
        exact congrArg (x :: ·) ih
    | null =>
      cases ha
      exact ih

end BoundedFifo
