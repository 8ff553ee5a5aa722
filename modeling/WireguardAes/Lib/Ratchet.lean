import Mathlib.Data.Set.Function

/-!
# Ratchets of a keyed function

A ratchet mixes a list of values into a key: each value is given to the keyed function `mac`, and a
fixed label under the result is the next key. `calls` has the arguments of all calls of `mac`. If
`mac` has no collision among them, the last key tells the first one and all the values.
-/

namespace Ratchet

variable {D K : Type} (mac : D → K → K) (label : D)

def step (k : K) (d : D) : K := mac label (mac d k)

def run (k : K) (ds : List D) : K := ds.foldl (step mac label) k

def calls : K → List D → List (D × K)
  | _, [] => []
  | k, d :: ds => (d, k) :: (label, mac d k) :: calls (step mac label k d) ds

variable {mac label} {S : Set (D × K)} {k k' : K}

theorem step_inj (hinj : Set.InjOn (fun p : D × K => mac p.1 p.2) S) {d d' : D} (h : (d, k) ∈ S) (h' : (d', k') ∈ S)
    (hl : (label, mac d k) ∈ S) (hl' : (label, mac d' k') ∈ S) (heq : step mac label k d = step mac label k' d') :
    k = k' ∧ d = d' := by
  have hmac : mac d k = mac d' k' := congrArg Prod.snd (hinj hl hl' heq)
  have hpair : (d, k) = (d', k') := hinj h h' hmac
  exact ⟨congrArg Prod.snd hpair, congrArg Prod.fst hpair⟩

theorem run_inj (hinj : Set.InjOn (fun p : D × K => mac p.1 p.2) S) {ds ds' : List D}
    (hlen : ds.length = ds'.length) (h : ∀ p ∈ calls mac label k ds, p ∈ S)
    (h' : ∀ p ∈ calls mac label k' ds', p ∈ S) (heq : run mac label k ds = run mac label k' ds') :
    k = k' ∧ ds = ds' := by
  induction ds generalizing k k' ds' with
  | nil =>
    obtain rfl := List.length_eq_zero_iff.mp hlen.symm
    exact ⟨heq, rfl⟩
  | cons d ds ih =>
    cases ds' with
    | nil => cases hlen
    | cons d' ds' =>
      obtain ⟨h1, h⟩ := List.forall_mem_cons.mp h
      obtain ⟨h2, h⟩ := List.forall_mem_cons.mp h
      obtain ⟨h1', h'⟩ := List.forall_mem_cons.mp h'
      obtain ⟨h2', h'⟩ := List.forall_mem_cons.mp h'
      obtain ⟨hstep, rfl⟩ := ih (Nat.succ.inj hlen) h h' heq
      obtain ⟨rfl, rfl⟩ := step_inj hinj h1 h1' h2 h2' hstep
      exact ⟨rfl, rfl⟩

end Ratchet
