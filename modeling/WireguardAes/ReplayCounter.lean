import WireguardAes.Lib.RingBitmap
import WireguardAes.Messages
import Mathlib.Logic.Function.Basic
import Mathlib.Tactic.SplitIfs

/-!
# The replay counter (`counter_validate` of `receive.c`)

`counterValidate` is the RFC 6479 bitmap as the code runs it, on 64-bit words that wrap. `Ideal`
is what it is for: the set of accepted counters and their maximum. `Refines` relates the two (the
ring holds the accepted counters of the window that ends with `counter`, shifted by one), is kept
by every call, and makes the two agree on every answer along any run.
-/

namespace WireguardAes

open Function RingBitmap

/-- `COUNTER_BITS_TOTAL / BITS_PER_LONG`, the number of words of the bitmap. -/
abbrev backtrackWords : Nat := 128

example : counterBitsTotal / bitsPerLong = backtrackWords := by decide

structure NoiseReplayCounter where
  counter : U64
  backtrack : Fin backtrackWords → BitVec 64

namespace NoiseReplayCounter

/-- The counter of a fresh keypair (`kzalloc`). -/
def zeroed : NoiseReplayCounter := ⟨0, fun _ => 0⟩

/-- The word `x & (COUNTER_BITS_TOTAL / BITS_PER_LONG - 1)`. -/
def slot (x : U64) : Fin backtrackWords := Fin.ofNat backtrackWords (x &&& 127#64).toNat

/-- `for (i = 1; i <= top; ++i) backtrack[(i + index_current) & ...] = 0`. -/
def clearWords (backtrack : Fin backtrackWords → BitVec 64) (indexCurrent : U64) :
    Nat → Fin backtrackWords → BitVec 64
  | 0 => backtrack
  | i + 1 => update (clearWords backtrack indexCurrent i)
      (slot (BitVec.ofNat 64 (i + 1) + indexCurrent)) 0

/-- `!test_and_set_bit(nr, &backtrack[i])`. -/
def testAndSetBit (c : NoiseReplayCounter) (nr : U64) (i : Fin backtrackWords) : Bool × NoiseReplayCounter :=
  (!(c.backtrack i).getLsbD nr.toNat,
    { c with backtrack := update c.backtrack i (c.backtrack i ||| BitVec.twoPow 64 nr.toNat) })

/-- The number of words cleared when the counter moves on to `their`. -/
def clearTop (c : NoiseReplayCounter) (their : U64) : U64 :=
  let passed := (their >>> 6) - (c.counter >>> 6)
  if passed < 128#64 then passed else 128#64

/-- The state in which the bit of `their` (already incremented) is tested. -/
def advance (c : NoiseReplayCounter) (their : U64) : NoiseReplayCounter :=
  if c.counter < their then
    ⟨their, clearWords c.backtrack (c.counter >>> 6) (c.clearTop their).toNat⟩
  else c

def counterValidate (c : NoiseReplayCounter) (their : U64) : Bool × NoiseReplayCounter :=
  if BitVec.ofNat 64 rejectAfterMessages + 1 ≤ c.counter ∨ BitVec.ofNat 64 rejectAfterMessages ≤ their then
    (false, c)
  else
    let their := their + 1
    if BitVec.ofNat 64 counterWindowSize + their < c.counter then (false, c)
    else (c.advance their).testAndSetBit (their &&& 63#64) (slot (their >>> 6))

/-- The operands of the 64-bit additions that `counterValidate` performs, in program order. -/
def additions (c : NoiseReplayCounter) (their : U64) : List (U64 × U64) :=
  (BitVec.ofNat 64 rejectAfterMessages, 1) ::
  if BitVec.ofNat 64 rejectAfterMessages + 1 ≤ c.counter ∨ BitVec.ofNat 64 rejectAfterMessages ≤ their then []
  else (their, 1) :: (BitVec.ofNat 64 counterWindowSize, their + 1) ::
    if BitVec.ofNat 64 counterWindowSize + (their + 1) < c.counter then []
    else if c.counter < their + 1 then
      (List.range (c.clearTop (their + 1)).toNat).map fun i => (BitVec.ofNat 64 (i + 1), c.counter >>> 6)
    else []

/-- One call of a run, which also remembers the counters accepted so far. -/
def runStep (r : NoiseReplayCounter × List U64) (n : U64) : NoiseReplayCounter × List U64 :=
  ((r.1.counterValidate n).2, if (r.1.counterValidate n).1 then n :: r.2 else r.2)

/-- The counter after the calls for `ns`, in order, and the counters they accepted. -/
def run (ns : List U64) : NoiseReplayCounter × List U64 := ns.foldl runStep (zeroed, [])

end NoiseReplayCounter

/-! ### The ideal window -/

/-- The accepted counters and the largest of them. -/
structure Ideal where
  accepted : List U64
  max : Option U64

namespace Ideal

def empty : Ideal := ⟨[], none⟩

def Accepts (s : Ideal) (n : U64) : Prop :=
  n.toNat < rejectAfterMessages ∧ n ∉ s.accepted ∧ ∀ m ∈ s.max, m.toNat ≤ n.toNat + counterWindowSize

instance (s : Ideal) (n : U64) : Decidable (s.Accepts n) :=
  inferInstanceAs (Decidable (_ ∧ _ ∧ _))

def validate (s : Ideal) (n : U64) : Bool × Ideal :=
  if s.Accepts n then (true, ⟨n :: s.accepted, some (s.max.elim n fun m => if m < n then n else m)⟩)
  else (false, s)

def run (ns : List U64) : Ideal := ns.foldl (fun s n => (s.validate n).2) empty

end Ideal

/-! ### The bitmap as a ring -/

namespace NoiseReplayCounter
variable {c : NoiseReplayCounter}
variable {w their : U64}

def ringBit (c : NoiseReplayCounter) (i j : Nat) : Bool := (c.backtrack (Fin.ofNat backtrackWords i)).getLsbD j

theorem slot_eq (x : U64) : slot x = Fin.ofNat backtrackWords x.toNat := by
  apply Fin.ext
  have h : x.toNat &&& 127 = x.toNat % 128 := Nat.and_two_pow_sub_one_eq_mod x.toNat 7
  simp [slot, Fin.ofNat, h]

theorem ofNat_eq_iff {i j : Nat} :
    Fin.ofNat backtrackWords i = Fin.ofNat backtrackWords j ↔ i % backtrackWords = j % backtrackWords := by
  simp [Fin.ofNat, Fin.ext_iff]

theorem ofNat_mod (i : Nat) : Fin.ofNat backtrackWords (i % backtrackWords) = Fin.ofNat backtrackWords i :=
  ofNat_eq_iff.2 (Nat.mod_mod _ _)

theorem slot_loop {k : Nat} (hk : k ≤ backtrackWords) (hw : w.toNat < 2 ^ 58) :
    slot (BitVec.ofNat 64 k + w) = Fin.ofNat backtrackWords (w.toNat + k) := by
  have hk' : k ≤ 128 := hk
  rw [slot_eq, BitVec.toNat_add, BitVec.toNat_ofNat, Nat.mod_eq_of_lt (by omega : k < 2 ^ 64),
    Nat.mod_eq_of_lt (by omega), Nat.add_comm]

theorem clearWords_hit {bt : Fin backtrackWords → BitVec 64} (hw : w.toNat < 2 ^ 58) {m k : Nat}
    (hm : m ≤ backtrackWords) (hk1 : 1 ≤ k) (hk : k ≤ m) :
    clearWords bt w m (Fin.ofNat backtrackWords (w.toNat + k)) = 0 := by
  induction m with
  | zero => omega
  | succ m ih =>
    rw [clearWords, slot_loop hm hw]
    by_cases heq : Fin.ofNat backtrackWords (w.toNat + k) = Fin.ofNat backtrackWords (w.toNat + (m + 1))
    · rw [heq, update_self]
    · rw [update_of_ne heq]
      have : k ≠ m + 1 := fun h => heq (by rw [h])
      exact ih (by omega) (by omega)

theorem clearWords_miss {bt : Fin backtrackWords → BitVec 64} (hw : w.toNat < 2 ^ 58) {m : Nat}
    (hm : m ≤ backtrackWords) {i : Fin backtrackWords}
    (hi : ∀ k, 1 ≤ k → k ≤ m → i ≠ Fin.ofNat backtrackWords (w.toNat + k)) :
    clearWords bt w m i = bt i := by
  induction m with
  | zero => rfl
  | succ m ih =>
    rw [clearWords, slot_loop hm hw, update_of_ne (hi (m + 1) (by omega) le_rfl)]
    exact ih (by omega) fun k hk1 hk => hi k hk1 (by omega)

theorem shift_toNat (x : U64) : (x >>> 6).toNat = x.toNat / 64 := by
  simp [Nat.shiftRight_eq_div_pow]

theorem shift_lt (x : U64) : (x >>> 6).toNat < 2 ^ 58 := by
  have := x.isLt
  rw [shift_toNat]; omega

theorem clearTop_toNat (h : c.counter < their) :
    (c.clearTop their).toNat = min (their.toNat / 64 - c.counter.toNat / 64) backtrackWords := by
  have hlt : c.counter.toNat < their.toNat := h
  have hsub : ((their >>> 6) - (c.counter >>> 6)).toNat = their.toNat / 64 - c.counter.toNat / 64 := by
    have hle : c.counter >>> 6 ≤ their >>> 6 := by
      rw [BitVec.le_def, shift_toNat, shift_toNat]; omega
    rw [BitVec.toNat_sub_of_le hle, shift_toNat, shift_toNat]
  simp only [clearTop, BitVec.lt_def, hsub]
  split_ifs with h'
  · have h'' : their.toNat / 64 - c.counter.toNat / 64 < 128 := by simpa using h'
    rw [hsub]; simp only [backtrackWords]; omega
  · have h'' : ¬ their.toNat / 64 - c.counter.toNat / 64 < 128 := by simpa using h'
    simp only [backtrackWords]
    rw [show (128#64).toNat = 128 from rfl]; omega

/-- The ring after `advance` holds the same numbers, in the window of the new counter. -/
theorem holds_advance {T : Set Nat} (h : Holds backtrackWords 64 c.ringBit c.counter.toNat T)
    (hT : ∀ t ∈ T, t ≤ c.counter.toNat) :
    Holds backtrackWords 64 (c.advance their).ringBit (c.advance their).counter.toNat T := by
  unfold advance
  split_ifs with hlt
  · have hm : (c.clearTop their).toNat ≤ backtrackWords := by rw [clearTop_toNat hlt]; omega
    have hw := shift_lt c.counter
    refine h.advance (by decide) (Nat.le_of_lt hlt) hT ?_ ?_
    · intro k hk1 hk j
      rw [← clearTop_toNat hlt] at hk
      simp only [ringBit, ofNat_mod]
      rw [← shift_toNat, clearWords_hit hw hm hk1 hk]; simp
    · intro i hi hmiss j
      simp only [ringBit]
      rw [clearWords_miss hw hm]
      intro k hk1 hk heq
      rw [ofNat_eq_iff, Nat.mod_eq_of_lt hi, shift_toNat] at heq
      exact hmiss k hk1 (by rwa [← clearTop_toNat hlt]) heq
  · exact h

theorem le_counter_advance (their : U64) : their.toNat ≤ (c.advance their).counter.toNat := by
  unfold advance
  split_ifs with h
  · exact le_rfl
  · exact Nat.le_of_not_lt h

/-- A number at most `COUNTER_WINDOW_SIZE` below the counter lies in its window. -/
theorem advance_in_window (h : c.counter.toNat ≤ their.toNat + counterWindowSize) :
    (c.advance their).counter.toNat / 64 < their.toNat / 64 + backtrackWords := by
  refine in_window (by decide) (by decide) ?_
  unfold advance
  split
  · exact Nat.le_add_right ..
  · exact h

theorem getLsbD_and_63 (x : U64) : (x &&& 63#64).toNat = x.toNat % 64 := by
  rw [BitVec.toNat_and]
  exact Nat.and_two_pow_sub_one_eq_mod x.toNat 6

/-- `testAndSetBit` reads and sets the bit of `t` in the ring. -/
theorem testAndSetBit_fst (t : U64) :
    (c.testAndSetBit (t &&& 63#64) (slot (t >>> 6))).1 = !c.ringBit (t.toNat / 64 % backtrackWords) (t.toNat % 64) := by
  simp only [testAndSetBit, ringBit, getLsbD_and_63, slot_eq, shift_toNat, ofNat_mod]

theorem holds_testAndSetBit {t : U64} {T : Set Nat} (h : Holds backtrackWords 64 c.ringBit c.counter.toNat T)
    (hle : t.toNat ≤ c.counter.toNat) (hwin : c.counter.toNat / 64 < t.toNat / 64 + backtrackWords) :
    Holds backtrackWords 64 (c.testAndSetBit (t &&& 63#64) (slot (t >>> 6))).2.ringBit c.counter.toNat
      (insert t.toNat T) := by
  have hlt : t.toNat % 64 < 64 := Nat.mod_lt _ (by decide)
  refine h.insert (Nat.div_le_div_right hle) hwin ?_ ?_
  · simp only [testAndSetBit, ringBit, getLsbD_and_63, slot_eq, shift_toNat, ofNat_mod,
      update_self, BitVec.getLsbD_or, BitVec.getLsbD_twoPow]
    simp [hlt]
  · intro i hi j hij
    simp only [testAndSetBit, ringBit, getLsbD_and_63, slot_eq, shift_toNat]
    by_cases hw : Fin.ofNat backtrackWords i = Fin.ofNat backtrackWords (t.toNat / 64)
    · rw [hw, update_self, BitVec.getLsbD_or, BitVec.getLsbD_twoPow]
      rw [ofNat_eq_iff, Nat.mod_eq_of_lt hi] at hw
      have : t.toNat % 64 ≠ j := fun hj => hij ⟨hw, hj.symm⟩
      simp [this]
    · rw [update_of_ne hw]

theorem counter_testAndSetBit (nr : U64) (i : Fin backtrackWords) :
    (c.testAndSetBit nr i).2.counter = c.counter := rfl

theorem counter_advance (their : U64) :
    (c.advance their).counter.toNat = max c.counter.toNat their.toNat := by
  unfold advance
  split_ifs with h
  · exact (max_eq_right (Nat.le_of_lt h)).symm
  · exact (max_eq_left (Nat.le_of_not_lt h)).symm

end NoiseReplayCounter

/-! ### The simulation -/

/-- The numbers the bitmap records for the accepted counters: a counter `n` is recorded as
`n + 1`. -/
def Ideal.recorded (s : Ideal) : Set Nat := {t | ∃ n ∈ s.accepted, t = n.toNat + 1}

structure Refines (c : NoiseReplayCounter) (s : Ideal) : Prop where
  lt : ∀ n ∈ s.accepted, n.toNat < rejectAfterMessages
  le : ∀ n ∈ s.accepted, n.toNat < c.counter.toNat
  max_mem : ∀ m ∈ s.max, m ∈ s.accepted
  counter : c.counter.toNat = s.max.elim 0 fun m => m.toNat + 1
  ring : Holds backtrackWords 64 c.ringBit c.counter.toNat s.recorded

namespace Refines
open NoiseReplayCounter
variable {c : NoiseReplayCounter} {s : Ideal} {n : U64}

theorem zeroed : Refines NoiseReplayCounter.zeroed Ideal.empty := by
  refine ⟨by simp [Ideal.empty], by simp [Ideal.empty], by simp [Ideal.empty], rfl, ?_⟩
  intro t _ _
  simp [NoiseReplayCounter.zeroed, ringBit, Ideal.recorded, Ideal.empty]

theorem counter_le (h : Refines c s) : c.counter.toNat ≤ rejectAfterMessages := by
  rw [h.counter]
  cases hm : s.max with
  | none => exact Nat.zero_le _
  | some m => exact h.lt m (h.max_mem m hm)

theorem mem_recorded : n.toNat + 1 ∈ s.recorded ↔ n ∈ s.accepted := by
  constructor
  · rintro ⟨m, hm, heq⟩
    rwa [show n = m from BitVec.eq_of_toNat_eq (by omega)]
  · exact fun hn => ⟨n, hn, rfl⟩

theorem recorded_le (h : Refines c s) : ∀ t ∈ s.recorded, t ≤ c.counter.toNat := by
  rintro t ⟨n, hn, rfl⟩
  exact h.le n hn

theorem toNat_succ (hn : n.toNat < rejectAfterMessages) : (n + 1).toNat = n.toNat + 1 := by
  have h : n.toNat + 1 < 2 ^ 64 := by have : n.toNat < 2 ^ 64 - 8130 := hn; omega
  rw [BitVec.toNat_add, show (1 : U64).toNat = 1 from rfl, Nat.mod_eq_of_lt h]

theorem toNat_window (hn : n.toNat < rejectAfterMessages) :
    (BitVec.ofNat 64 counterWindowSize + (n + 1)).toNat = n.toNat + 1 + counterWindowSize := by
  have h : n.toNat < 2 ^ 64 - 8130 := hn
  rw [BitVec.toNat_add, toNat_succ hn, show (BitVec.ofNat 64 counterWindowSize).toNat = 8128 from rfl,
    Nat.mod_eq_of_lt (by omega)]
  exact Nat.add_comm ..

/-- The first test of `counterValidate`: the counter itself is never past the limit. -/
theorem reject_iff (h : Refines c s) :
    (BitVec.ofNat 64 rejectAfterMessages + 1 ≤ c.counter ∨ BitVec.ofNat 64 rejectAfterMessages ≤ n) ↔
      rejectAfterMessages ≤ n.toNat := by
  have hc : ¬ BitVec.ofNat 64 rejectAfterMessages + 1 ≤ c.counter := by
    have := h.counter_le
    rw [BitVec.le_def]
    exact Nat.not_le.2 (Nat.lt_succ_of_le this)
  rw [or_iff_right hc, BitVec.le_def]
  rfl

/-- The second test: `n` fell out of the window of the largest accepted counter. -/
theorem behind_iff (h : Refines c s) (hn : n.toNat < rejectAfterMessages) :
    BitVec.ofNat 64 counterWindowSize + (n + 1) < c.counter ↔
      ¬ ∀ m ∈ s.max, m.toNat ≤ n.toNat + counterWindowSize := by
  rw [BitVec.lt_def, toNat_window hn, h.counter]
  cases s.max with
  | none => simp
  | some m => simp; omega

theorem window_le (h : Refines c s) (hn : n.toNat < rejectAfterMessages)
    (hwin : ∀ m ∈ s.max, m.toNat ≤ n.toNat + counterWindowSize) :
    c.counter.toNat ≤ (n + 1).toNat + counterWindowSize := by
  rw [toNat_succ hn, h.counter]
  cases hm : s.max with
  | none => simp
  | some m => have := hwin m hm; simp; omega

/-- Recording `n`, which lies in the window, whether or not it was accepted before. -/
theorem record (h : Refines c s) (hn : n.toNat < rejectAfterMessages)
    (hwin : ∀ m ∈ s.max, m.toNat ≤ n.toNat + counterWindowSize) :
    Refines ((c.advance (n + 1)).testAndSetBit ((n + 1) &&& 63#64) (slot ((n + 1) >>> 6))).2
      ⟨n :: s.accepted, some (s.max.elim n fun m => if m < n then n else m)⟩ := by
  have hcnt : (c.advance (n + 1)).counter.toNat = max c.counter.toNat (n.toNat + 1) := by
    rw [counter_advance, toNat_succ hn]
  refine ⟨?_, ?_, ?_, ?_, ?_⟩
  · intro m hm
    rcases List.mem_cons.1 hm with rfl | hm
    exacts [hn, h.lt m hm]
  · intro m hm
    rw [counter_testAndSetBit, hcnt]
    rcases List.mem_cons.1 hm with rfl | hm
    · omega
    · have := h.le m hm; omega
  · intro m hm
    simp only [Option.mem_some_iff] at hm
    subst hm
    cases hs : s.max with
    | none => simp
    | some m =>
      have := h.max_mem m hs
      simp only [Option.elim_some]
      split <;> simp [this]
  · rw [counter_testAndSetBit, hcnt, h.counter]
    cases hs : s.max with
    | none => simp
    | some m =>
      simp only [Option.elim_some]
      split_ifs with hlt
      · have : m.toNat < n.toNat := hlt
        omega
      · have : ¬ m.toNat < n.toNat := hlt
        omega
  · have hset : (⟨n :: s.accepted, some (s.max.elim n fun m => if m < n then n else m)⟩ : Ideal).recorded =
        insert (n + 1).toNat s.recorded := by
      rw [toNat_succ hn]
      ext t
      simp [Ideal.recorded]
    rw [hset]
    exact holds_testAndSetBit (holds_advance h.ring h.recorded_le) (le_counter_advance _)
      (advance_in_window (h.window_le hn hwin))

theorem ringBit_advance (h : Refines c s) (hn : n.toNat < rejectAfterMessages)
    (hwin : ∀ m ∈ s.max, m.toNat ≤ n.toNat + counterWindowSize) :
    (c.advance (n + 1)).ringBit ((n + 1).toNat / 64 % backtrackWords) ((n + 1).toNat % 64) = true ↔
      n ∈ s.accepted := by
  rw [holds_advance h.ring h.recorded_le _ (Nat.div_le_div_right (le_counter_advance _))
    (advance_in_window (h.window_le hn hwin)), toNat_succ hn, mem_recorded]

/-- Recording a counter that was accepted before leaves the ideal window as it is. -/
theorem of_seen (h : Refines c s) {c' : NoiseReplayCounter} (hmem : n ∈ s.accepted)
    (hr : Refines c' ⟨n :: s.accepted, some (s.max.elim n fun m => if m < n then n else m)⟩) : Refines c' s := by
  obtain ⟨m, hm⟩ : ∃ m, s.max = some m := by
    cases hm : s.max with
    | none => have := h.le n hmem; rw [h.counter, hm] at this; simp at this
    | some m => exact ⟨m, rfl⟩
  have hnm : ¬ m < n := by
    have := h.le n hmem
    rw [h.counter, hm, Option.elim_some] at this
    exact fun hlt => absurd (show m.toNat < n.toNat from hlt) (by omega)
  have hset : (⟨n :: s.accepted, some (s.max.elim n fun m => if m < n then n else m)⟩ : Ideal).recorded =
      s.recorded := by
    ext t
    simp only [Ideal.recorded, List.mem_cons, exists_eq_or_imp, Set.mem_ofPred_eq, or_iff_right_iff_imp]
    rintro rfl
    exact ⟨n, hmem, rfl⟩
  refine ⟨h.lt, fun m hm => hr.le m (List.mem_cons_of_mem _ hm), h.max_mem, ?_, ?_⟩
  · rw [hr.counter, hm]; simp [hnm]
  · rw [← hset]; exact hr.ring

/-- One call: both sides give the same answer and stay related. -/
theorem validate (h : Refines c s) (n : U64) :
    (c.counterValidate n).1 = (s.validate n).1 ∧ Refines (c.counterValidate n).2 (s.validate n).2 := by
  unfold counterValidate Ideal.validate
  simp only [h.reject_iff]
  by_cases hrej : rejectAfterMessages ≤ n.toNat
  · have hno : ¬ s.Accepts n := fun ha => absurd ha.1 (Nat.not_lt.2 hrej)
    simp only [hrej, hno, if_true, if_false]
    exact ⟨trivial, h⟩
  have hn : n.toNat < rejectAfterMessages := Nat.lt_of_not_le hrej
  simp only [hrej, if_false, h.behind_iff hn]
  by_cases hwin : ∀ m ∈ s.max, m.toNat ≤ n.toNat + counterWindowSize
  · have hrec := h.record hn hwin
    rw [if_neg (not_not.2 hwin), testAndSetBit_fst]
    by_cases hmem : n ∈ s.accepted
    · have hno : ¬ s.Accepts n := fun ha => ha.2.1 hmem
      rw [if_neg hno, (h.ringBit_advance hn hwin).2 hmem]
      exact ⟨rfl, h.of_seen hmem hrec⟩
    · rw [if_pos ⟨hn, hmem, hwin⟩]
      have hbit := Bool.eq_false_iff.2 (mt (h.ringBit_advance hn hwin).1 hmem)
      rw [hbit]
      exact ⟨rfl, hrec⟩
  · have hno : ¬ s.Accepts n := fun ha => hwin ha.2.2
    rw [if_pos hwin, if_neg hno]
    exact ⟨rfl, h⟩

theorem foldl_runStep (h : Refines c s) {acc : List U64} (hacc : acc = s.accepted) (ns : List U64) :
    Refines (ns.foldl runStep (c, acc)).1 (ns.foldl (fun s n => (s.validate n).2) s) ∧
      (ns.foldl runStep (c, acc)).2 = (ns.foldl (fun s n => (s.validate n).2) s).accepted := by
  induction ns generalizing c s acc with
  | nil => exact ⟨h, hacc⟩
  | cons n ns ih =>
    obtain ⟨hans, hnext⟩ := h.validate n
    refine ih hnext ?_
    rw [hans, hacc]
    unfold Ideal.validate
    split <;> simp

theorem run (ns : List U64) :
    Refines (NoiseReplayCounter.run ns).1 (Ideal.run ns) ∧
      (NoiseReplayCounter.run ns).2 = (Ideal.run ns).accepted :=
  zeroed.foldl_runStep rfl ns

theorem max_le_iff (h : Refines c s) :
    (∀ m ∈ s.max, m.toNat ≤ n.toNat + counterWindowSize) ↔
      ∀ m ∈ s.accepted, m.toNat ≤ n.toNat + counterWindowSize := by
  constructor
  · intro hmax m hm
    have hlt := h.le m hm
    rw [h.counter] at hlt
    cases hs : s.max with
    | none => rw [hs] at hlt; simp at hlt
    | some k => rw [hs] at hlt; have := hmax k hs; simp at hlt; omega
  · exact fun hall m hm => hall m (h.max_mem m hm)

theorem additions_lt (h : Refines c s) (n : U64) :
    ∀ p ∈ c.additions n, p.1.toNat + p.2.toNat < 2 ^ 64 := by
  intro p hp
  unfold additions at hp
  simp only [h.reject_iff] at hp
  rcases List.mem_cons.1 hp with rfl | hp
  · decide
  split at hp
  · simp at hp
  case isFalse hrej =>
  have hn : n.toNat < rejectAfterMessages := Nat.lt_of_not_le hrej
  have hn' : n.toNat < 2 ^ 64 - 8130 := hn
  rcases List.mem_cons.1 hp with rfl | hp
  · show n.toNat + 1 < 2 ^ 64
    omega
  rcases List.mem_cons.1 hp with rfl | hp
  · show (BitVec.ofNat 64 counterWindowSize).toNat + (n + 1).toNat < 2 ^ 64
    rw [toNat_succ hn, show (BitVec.ofNat 64 counterWindowSize).toNat = 8128 from rfl]
    omega
  split at hp
  · simp at hp
  split_ifs at hp with hlt
  · obtain ⟨i, hi, rfl⟩ := List.mem_map.1 hp
    have hi' : i < (c.clearTop (n + 1)).toNat := List.mem_range.1 hi
    rw [clearTop_toNat hlt] at hi'
    have hi'' : i < 128 := lt_of_lt_of_le hi' (min_le_right _ _)
    have := shift_lt c.counter
    show (BitVec.ofNat 64 (i + 1)).toNat + (c.counter >>> 6).toNat < 2 ^ 64
    rw [BitVec.toNat_ofNat, Nat.mod_eq_of_lt (by omega)]
    omega
  · simp at hp

end Refines

/-- Along any run from a zeroed counter, each call accepts exactly the counters below the limit
that no earlier call accepted and that are at most `COUNTER_WINDOW_SIZE` below every counter
accepted so far; it answers as the ideal window does, and none of its additions wraps. -/
theorem counterValidate_run (ns : List U64) (n : U64) :
    let r := NoiseReplayCounter.run ns
    ((r.1.counterValidate n).1 = true ↔
      n.toNat < rejectAfterMessages ∧ n ∉ r.2 ∧ ∀ m ∈ r.2, m.toNat ≤ n.toNat + counterWindowSize) ∧
    (r.1.counterValidate n).1 = ((Ideal.run ns).validate n).1 ∧
    ∀ p ∈ r.1.additions n, p.1.toNat + p.2.toNat < 2 ^ 64 := by
  obtain ⟨href, hacc⟩ := Refines.run ns
  refine ⟨?_, (href.validate n).1, href.additions_lt n⟩
  rw [(href.validate n).1, hacc, ← href.max_le_iff, Ideal.validate]
  by_cases ha : (Ideal.run ns).Accepts n
  · simp only [if_pos ha, true_iff]
    exact ha
  · simp only [if_neg ha, Bool.false_eq_true, false_iff]
    exact ha

end WireguardAes
