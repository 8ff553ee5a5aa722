import WireguardAes.Lib.RefCount
import WireguardAes.Lib.Runs

/-!
# The keypairs of a peer (`noise.c`)

The three slots, the reference counts and the index hashtable entries of one peer's keypairs, under
any interleaving of `begin_session`, `received_with_keypair`, `keypairs_clear`, `handshake_clear`
and the get and put of the data paths. A section under `keypair_update_lock` or under the lock of
the table is one step, as are an atomic operation on a reference count and the reading of a pointer
under RCU. All of `begin_session` runs under the lock of the handshake, so there is one at a time
and no `handshake_clear` inside of it; between `add_new_keypair` and `wg_index_hashtable_replace` it
holds neither of the other locks.

Keypairs are numbered in the order of their creation (`internal_id`).
-/

namespace WireguardAes

open Function RefCount Runs

structure NoiseKeypairs (K : Type) where
  currentKeypair : Option K
  previousKeypair : Option K
  nextKeypair : Option K

namespace NoiseKeypairs

variable {K : Type} [DecidableEq K]
variable {ks : NoiseKeypairs K}

def toList (ks : NoiseKeypairs K) : List K :=
  ks.currentKeypair.toList ++ ks.previousKeypair.toList ++ ks.nextKeypair.toList

/-- The new slots, and the keypairs put. -/
def addNewKeypair (ks : NoiseKeypairs K) (new : K) (iAmTheInitiator : Bool) : NoiseKeypairs K × List K :=
  if iAmTheInitiator then
    match ks.nextKeypair with
    | some next => (⟨some new, some next, none⟩, ks.currentKeypair.toList ++ ks.previousKeypair.toList)
    | none => (⟨some new, ks.currentKeypair, none⟩, ks.previousKeypair.toList)
  else (⟨ks.currentKeypair, none, some new⟩, ks.nextKeypair.toList ++ ks.previousKeypair.toList)

def receivedWithKeypair (ks : NoiseKeypairs K) (received : K) : NoiseKeypairs K × List K :=
  if ks.nextKeypair = some received then (⟨some received, ks.currentKeypair, none⟩, ks.previousKeypair.toList)
  else (ks, [])

def keypairsClear (ks : NoiseKeypairs K) : NoiseKeypairs K × List K :=
  (⟨none, none, none⟩, ks.nextKeypair.toList ++ ks.previousKeypair.toList ++ ks.currentKeypair.toList)

/-! No reference gets lost: what leaves the slots is put. -/

theorem addNewKeypair_perm (ks : NoiseKeypairs K) (new : K) (i : Bool) :
    ((ks.addNewKeypair new i).1.toList ++ (ks.addNewKeypair new i).2).Perm (new :: ks.toList) := by
  obtain ⟨current, previous, next⟩ := ks
  rw [List.perm_iff_count]
  intro k
  cases i <;> cases next <;> simp [addNewKeypair, toList, List.count_cons] <;> omega

theorem receivedWithKeypair_perm (ks : NoiseKeypairs K) (received : K) :
    ((ks.receivedWithKeypair received).1.toList ++ (ks.receivedWithKeypair received).2).Perm ks.toList := by
  obtain ⟨current, previous, next⟩ := ks
  rw [List.perm_iff_count]
  intro k
  by_cases h : next = some received
  · subst h
    simp [receivedWithKeypair, toList, List.count_cons]
    omega
  · simp [receivedWithKeypair, toList, h]

theorem toList_receivedWithKeypair (received : K) (h : ks.toList = []) :
    (ks.receivedWithKeypair received).1.toList = [] := by
  have hperm := ks.receivedWithKeypair_perm received
  rw [h, List.perm_nil, List.append_eq_nil_iff] at hperm
  exact hperm.1

theorem keypairsClear_perm (ks : NoiseKeypairs K) :
    (ks.keypairsClear.1.toList ++ ks.keypairsClear.2).Perm ks.toList := by
  rw [List.perm_iff_count]
  intro k
  simp only [keypairsClear, toList, Option.toList_none, List.nil_append, List.count_append]
  omega

/-- `k` was the last keypair added. -/
def Newest (ks : NoiseKeypairs K) (k : K) : Prop :=
  ks.nextKeypair = some k ∨ (ks.currentKeypair = some k ∧ ks.nextKeypair = none)

omit [DecidableEq K] in
theorem addNewKeypair_slot (ks : NoiseKeypairs K) (k : K) (i : Bool) :
    (if i then (ks.addNewKeypair k i).1.currentKeypair else (ks.addNewKeypair k i).1.nextKeypair) = some k := by
  obtain ⟨current, previous, next⟩ := ks
  cases i <;> cases next <;> rfl

omit [DecidableEq K] in
theorem newest_addNewKeypair (ks : NoiseKeypairs K) (k : K) (i : Bool) : (ks.addNewKeypair k i).1.Newest k := by
  obtain ⟨current, previous, next⟩ := ks
  cases i <;> cases next <;> simp [addNewKeypair, Newest]

omit [DecidableEq K] in
theorem Newest.mem {k : K} (h : ks.Newest k) : k ∈ ks.toList := by
  rcases h with h | ⟨h, -⟩ <;> simp [toList, h]

theorem Newest.receivedWithKeypair {k : K} (h : ks.Newest k) (received : K) :
    (ks.receivedWithKeypair received).1.Newest k := by
  unfold NoiseKeypairs.receivedWithKeypair
  split_ifs with hnext
  · rcases h with h | ⟨-, h⟩
    · exact .inr ⟨hnext.symm.trans h, rfl⟩
    · rw [h] at hnext; cases hnext
  · exact h

end NoiseKeypairs

/-- How far the `begin_session` that holds the handshake's lock is. -/
inductive SessionPhase where
  | idle
  /-- `keypair_create` has returned `k`. -/
  | filling (k : Nat) (iAmTheInitiator : Bool)
  /-- `add_new_keypair` is done, `wg_index_hashtable_replace` is not. -/
  | published (k : Nat)

def SessionPhase.carried : SessionPhase → List Nat
  | .filling k _ => [k]
  | _ => []

def SessionPhase.isPublished : SessionPhase → Bool
  | .published _ => true
  | _ => false

structure KeypairState where
  slots : NoiseKeypairs Nat
  refcount : Nat → Nat
  /-- Whether the keypair's entry is in the index hashtable. -/
  hashed : Nat → Bool
  handshakeHashed : Bool
  created : Nat
  session : SessionPhase
  /-- Pointers read under RCU on which `wg_noise_keypair_get` has not been called yet. -/
  readers : List Nat
  /-- The keypairs carried by calls of the data paths and by packets in flight, one for each. -/
  holders : List Nat
  /-- The count was put to zero and `keypair_free_kref` is about to remove the entry. -/
  dying : List Nat
  /-- `keypair_free_kref` has removed the entry and is about to call `call_rcu`. -/
  removed : List Nat
  released : List Nat
  /-- A count was decremented when it was zero. -/
  underflow : Bool

inductive KeypairEvent where
  /-- `create_initiation` or `create_response` enters the handshake into the table. -/
  | handshakeInsert
  | handshakeClear
  | keypairCreate (iAmTheInitiator : Bool)
  /-- No AEAD handle, or the peer is dead: the new keypair is freed on the spot. -/
  | sessionFails
  | addNewKeypair
  | indexHashtableReplace
  | receivedWithKeypair (k : Nat)
  | keypairsClear
  /-- From `current_keypair` or by `wg_index_hashtable_lookup`. -/
  | read (k : Nat)
  | get (k : Nat)
  /-- `wg_noise_keypair_put(keypair, false)`. -/
  | put (k : Nat)
  | freeRemove (k : Nat)
  | callRcu (k : Nat)

namespace KeypairState

def init : KeypairState where
  slots := ⟨none, none, none⟩
  refcount _ := 0
  hashed _ := false
  handshakeHashed := false
  created := 0
  session := .idle
  readers := []
  holders := []
  dying := []
  removed := []
  released := []
  underflow := false

/-- One element for each reference to a keypair. -/
def owners (s : KeypairState) : List Nat := s.slots.toList ++ s.session.carried ++ s.holders

/-- The keypairs whose count has reached zero. -/
def freed (s : KeypairState) : List Nat := s.dying ++ s.removed ++ s.released

def unhash (s : KeypairState) (k : Nat) : KeypairState := { s with hashed := update s.hashed k false }

def decrement (s : KeypairState) (k : Nat) : KeypairState :=
  { s with
    refcount := update s.refcount k (s.refcount k - 1)
    underflow := s.underflow || s.refcount k == 0 }

/-- `wg_noise_keypair_put(keypair, true)` in a locked section. -/
def putNow (s : KeypairState) (k : Nat) : KeypairState :=
  let s := (s.unhash k).decrement k
  if s.refcount k = 0 then { s.unhash k with released := k :: s.released } else s

/-- A section under `keypair_update_lock`: the new slots and what is put. -/
def rotate (s : KeypairState) (r : NoiseKeypairs Nat × List Nat) : KeypairState :=
  r.2.foldl putNow { s with slots := r.1 }

def step (s : KeypairState) : KeypairEvent → Option KeypairState
  | .handshakeInsert =>
    match s.session with
    | .idle => some { s with handshakeHashed := true }
    | _ => none
  | .handshakeClear =>
    match s.session with
    | .idle => some { s with handshakeHashed := false }
    | _ => none
  | .keypairCreate iAmTheInitiator =>
    match s.session with
    | .idle => some { s with
        refcount := update s.refcount s.created 1
        created := s.created + 1
        session := .filling s.created iAmTheInitiator }
    | _ => none
  | .sessionFails =>
    match s.session with
    | .filling k _ => some { s with
        -- `kfree_sensitive` zeroes the memory
        refcount := update s.refcount k 0
        session := .idle
        released := k :: s.released }
    | _ => none
  | .addNewKeypair =>
    match s.session with
    | .filling k iAmTheInitiator =>
      some ({ s with session := .published k }.rotate (s.slots.addNewKeypair k iAmTheInitiator))
    | _ => none
  | .indexHashtableReplace =>
    match s.session with
    | .published k => some { s with
        hashed := if s.handshakeHashed then update s.hashed k true else s.hashed
        handshakeHashed := false
        session := .idle }
    | _ => none
  | .receivedWithKeypair k =>
    if k ∈ s.holders then some (s.rotate (s.slots.receivedWithKeypair k)) else none
  | .keypairsClear => some (s.rotate s.slots.keypairsClear)
  | .read k =>
    if s.slots.currentKeypair = some k ∨ s.hashed k then some { s with readers := k :: s.readers } else none
  | .get k =>
    if k ∈ s.readers then
      let s := { s with readers := s.readers.erase k }
      if s.refcount k = 0 then some s
      else some { s with
        refcount := update s.refcount k (s.refcount k + 1)
        holders := k :: s.holders }
    else none
  | .put k =>
    if k ∈ s.holders then
      let s := { s with holders := s.holders.erase k }.decrement k
      if s.refcount k = 0 then some { s with dying := k :: s.dying } else some s
    else none
  | .freeRemove k =>
    if k ∈ s.dying then some { s.unhash k with dying := s.dying.erase k, removed := k :: s.removed } else none
  | .callRcu k =>
    if k ∈ s.removed then some { s with removed := s.removed.erase k, released := k :: s.released } else none

/-! ### Counting references -/

variable {s s' : KeypairState} {k : Nat} {extra puts : List Nat}

/-- The counts are right, with the references `extra` taken out of the slots and not put yet. -/
structure Counted (s : KeypairState) (extra : List Nat) : Prop where
  owned : Owned s.refcount s.freed (s.owners ++ extra) (· < s.created)
  sound : s.underflow = false

theorem Counted.decrement (h : Counted s (k :: extra)) :
    Owned (s.decrement k).refcount (if (s.decrement k).refcount k = 0 then k :: s.freed else s.freed)
      (s.owners ++ extra) (· < s.created) ∧ (s.decrement k).underflow = false := by
  have ho := h.owned.perm .rfl List.perm_middle
  have hpos : 0 < s.refcount k := ho.pos_iff.mpr List.mem_cons_self
  have hk : (s.decrement k).refcount k = s.refcount k - 1 := update_self ..
  refine ⟨hk ▸ ho.put, ?_⟩
  rw [KeypairState.decrement, h.sound, Bool.false_or, beq_eq_false_iff_ne]
  omega

theorem Counted.putNow (h : Counted s (k :: extra)) : Counted (s.putNow k) extra := by
  obtain ⟨ho, hu⟩ := h.decrement
  simp only [KeypairState.putNow]
  split_ifs with hz
  · rw [if_pos (show (s.decrement k).refcount k = 0 from hz)] at ho
    exact ⟨ho.perm List.perm_middle.symm .rfl, hu⟩
  · rw [if_neg (show (s.decrement k).refcount k ≠ 0 from hz)] at ho
    exact ⟨ho, hu⟩

theorem foldl_putNow_eq {α : Type} (f : KeypairState → α) (hf : ∀ s k, f (s.putNow k) = f s) :
    f (puts.foldl putNow s) = f s := by
  induction puts generalizing s with
  | nil => rfl
  | cons k puts ih => rw [List.foldl_cons, ih, hf]

theorem Counted.foldl_putNow (h : Counted s puts) : Counted (puts.foldl KeypairState.putNow s) [] := by
  induction puts generalizing s with
  | nil => exact h
  | cons k puts ih => exact ih h.putNow

theorem hashed_unhash (s : KeypairState) (j k : Nat) : (s.unhash k).hashed j = (s.hashed j && !decide (j = k)) := by
  by_cases h : j = k <;> simp [unhash, h]

theorem hashed_foldl_putNow : (puts.foldl putNow s).hashed k = (s.hashed k && !decide (k ∈ puts)) := by
  have hput : ∀ (s : KeypairState) j, (s.putNow j).hashed k = (s.hashed k && !decide (k = j)) := by
    intro s j
    simp only [putNow]
    split <;> simp [KeypairState.decrement, hashed_unhash]
  induction puts generalizing s with
  | nil => simp
  | cons j puts ih => simp [ih, hput, Bool.and_assoc]

section
variable {r : NoiseKeypairs Nat × List Nat}

@[simp] theorem slots_rotate : (s.rotate r).slots = r.1 :=
  foldl_putNow_eq KeypairState.slots fun s k => by simp only [putNow]; split <;> rfl

@[simp] theorem session_rotate : (s.rotate r).session = s.session :=
  foldl_putNow_eq KeypairState.session fun s k => by simp only [putNow]; split <;> rfl

@[simp] theorem readers_rotate : (s.rotate r).readers = s.readers :=
  foldl_putNow_eq KeypairState.readers fun s k => by simp only [putNow]; split <;> rfl

@[simp] theorem holders_rotate : (s.rotate r).holders = s.holders :=
  foldl_putNow_eq KeypairState.holders fun s k => by simp only [putNow]; split <;> rfl

@[simp] theorem created_rotate : (s.rotate r).created = s.created :=
  foldl_putNow_eq KeypairState.created fun s k => by simp only [putNow]; split <;> rfl

theorem hashed_rotate : (s.rotate r).hashed k = (s.hashed k && !decide (k ∈ r.2)) := hashed_foldl_putNow

theorem Counted.rotate (h : Counted s extra) (hp : (r.1.toList ++ r.2).Perm (extra ++ s.slots.toList)) :
    Counted (s.rotate r) [] := by
  refine Counted.foldl_putNow ⟨h.owned.perm .rfl ?_, h.sound⟩
  rw [List.perm_iff_count] at hp ⊢
  intro k
  have := hp k
  simp only [owners, List.count_append] at this ⊢
  omega

end

structure Inv (s : KeypairState) : Prop where
  counted : Counted s []
  distinct : s.slots.toList.Nodup
  readers : ∀ k ∈ s.readers, k < s.created
  hashed : ∀ k, s.hashed k → k < s.created
  published : ∀ k, s.session = .published k → k < s.created
  /-- Nobody else has seen the keypair that `begin_session` is filling in. -/
  fresh : ∀ k i, s.session = .filling k i →
    k ∉ s.slots.toList ∧ k ∉ s.holders ∧ k ∉ s.readers ∧ s.hashed k = false

namespace Inv

theorem made (h : Inv s) (hk : k ∈ s.owners) : k < s.created :=
  h.counted.owned.made k (List.mem_append_left _ hk)

theorem init : Inv KeypairState.init where
  counted := ⟨⟨fun _ => rfl, List.nodup_nil, fun _ => by simp [KeypairState.freed, KeypairState.init], nofun⟩, rfl⟩
  distinct := List.nodup_nil
  readers := nofun
  hashed := nofun
  published := nofun
  fresh := nofun

theorem rotate (h : Inv s) {r : NoiseKeypairs Nat × List Nat} (hp : (r.1.toList ++ r.2).Perm s.slots.toList) :
    Inv (s.rotate r) where
  counted := h.counted.rotate hp
  distinct := by
    rw [slots_rotate]
    exact (List.nodup_append.mp (hp.nodup_iff.mpr h.distinct)).1
  readers := by simpa using h.readers
  hashed k hk := by
    rw [hashed_rotate, Bool.and_eq_true] at hk
    rw [created_rotate]
    exact h.hashed k hk.1
  published k hs := by
    rw [session_rotate] at hs
    rw [created_rotate]
    exact h.published k hs
  fresh k i hs := by
    rw [session_rotate] at hs
    obtain ⟨h1, h2, h3, h4⟩ := h.fresh k i hs
    rw [slots_rotate, holders_rotate, readers_rotate, hashed_rotate, h4]
    exact ⟨fun hk => h1 (hp.subset (List.mem_append_left _ hk)), h2, h3, rfl⟩

theorem addNewKeypair (h : Inv s) {i : Bool} (hs : s.session = .filling k i) :
    Inv ({ s with session := .published k }.rotate (s.slots.addNewKeypair k i)) := by
  have hp := s.slots.addNewKeypair_perm k i
  have hc : Counted { s with session := .published k } [k] := by
    refine ⟨h.counted.owned.perm .rfl ?_, h.counted.sound⟩
    rw [List.perm_iff_count]
    intro j
    simp only [owners, hs, SessionPhase.carried, List.count_append, List.count_nil]
    omega
  refine ⟨hc.rotate hp, ?_, ?_, ?_, ?_, ?_⟩
  · rw [slots_rotate]
    have hnew := (h.fresh k i hs).1
    exact (List.nodup_append.mp (hp.nodup_iff.mpr (List.nodup_cons.mpr ⟨hnew, h.distinct⟩))).1
  · simpa using h.readers
  · intro j hj
    rw [hashed_rotate, Bool.and_eq_true] at hj
    rw [created_rotate]
    exact h.hashed j hj.1
  · intro j hj
    rw [session_rotate] at hj
    cases hj
    rw [created_rotate]
    exact h.made (by simp [owners, hs, SessionPhase.carried])
  · intro j i' hs'
    rw [session_rotate] at hs'
    cases hs'

theorem keypairCreate (h : Inv s) (i : Bool) (hs : s.session = .idle) :
    Inv { s with
      refcount := update s.refcount s.created 1
      created := s.created + 1
      session := .filling s.created i } := by
  have hnew : ∀ {l : List Nat}, (∀ k ∈ l, k ∈ s.owners) → s.created ∉ l :=
    fun hl hk => Nat.lt_irrefl _ (h.made (hl _ hk))
  refine ⟨⟨?_, h.counted.sound⟩, h.distinct, fun k hk => Nat.lt_succ_of_lt (h.readers k hk),
    fun k hk => Nat.lt_succ_of_lt (h.hashed k hk), nofun, ?_⟩
  · have ho := h.counted.owned.create (k := s.created) (Nat.lt_irrefl _) fun j => Nat.lt_succ_iff_lt_or_eq
    refine ho.perm .rfl ?_
    rw [List.perm_iff_count]
    intro j
    simp only [owners, hs, SessionPhase.carried, List.count_append, List.count_cons, List.count_nil]
    omega
  · rintro k i' hk
    cases hk
    refine ⟨hnew fun k hk => ?_, hnew fun k hk => ?_, fun hk => Nat.lt_irrefl _ (h.readers _ hk), ?_⟩
    · exact List.mem_append_left _ (List.mem_append_left _ hk)
    · exact List.mem_append_right _ hk
    · exact Bool.eq_false_iff.mpr fun hk => Nat.lt_irrefl _ (h.hashed _ hk)

theorem sessionFails (h : Inv s) {i : Bool} (hs : s.session = .filling k i) :
    Inv { s with
      refcount := update s.refcount k 0
      session := .idle
      released := k :: s.released } := by
  refine ⟨⟨?_, h.counted.sound⟩, h.distinct, h.readers, h.hashed, nofun, nofun⟩
  have ho : Owned s.refcount s.freed (k :: (s.slots.toList ++ s.holders)) (· < s.created) := by
    refine h.counted.owned.perm .rfl ?_
    rw [List.perm_iff_count]
    intro j
    simp only [owners, hs, SessionPhase.carried, List.count_append, List.count_cons, List.count_nil]
    omega
  obtain ⟨h1, h2, -⟩ := h.fresh k i hs
  have hone : s.refcount k - 1 = 0 := by
    rw [ho.counted, List.count_cons_self, List.count_append, List.count_eq_zero_of_not_mem h1,
      List.count_eq_zero_of_not_mem h2]
  have hput := ho.put
  rw [if_pos hone, hone] at hput
  refine hput.perm List.perm_middle.symm ?_
  simp [owners, SessionPhase.carried]

theorem replace (h : Inv s) (hs : s.session = .published k) :
    Inv { s with
      hashed := if s.handshakeHashed then update s.hashed k true else s.hashed
      handshakeHashed := false
      session := .idle } := by
  refine ⟨⟨h.counted.owned.perm .rfl ?_, h.counted.sound⟩, h.distinct, h.readers, fun j hj => ?_, nofun, nofun⟩
  · simp [owners, hs, SessionPhase.carried]
  · by_cases hjk : j = k
    · exact hjk ▸ h.published k hs
    · refine h.hashed j ?_
      split at hj
      · simpa only [update_of_ne hjk] using hj
      · exact hj

theorem read (h : Inv s) (hk : s.slots.currentKeypair = some k ∨ s.hashed k = true) :
    Inv { s with readers := k :: s.readers } := by
  have hslot : s.slots.currentKeypair = some k → k ∈ s.slots.toList := fun hc => by
    simp [NoiseKeypairs.toList, hc]
  refine ⟨⟨h.counted.owned, h.counted.sound⟩, h.distinct, fun j hj => ?_, h.hashed, h.published, fun j i hj => ?_⟩
  · rcases List.mem_cons.mp hj with rfl | hj
    · rcases hk with hk | hk
      · exact h.made (List.mem_append_left _ (List.mem_append_left _ (hslot hk)))
      · exact h.hashed j hk
    · exact h.readers j hj
  · obtain ⟨h1, h2, h3, h4⟩ := h.fresh j i hj
    refine ⟨h1, h2, fun hm => ?_, h4⟩
    rcases List.mem_cons.mp hm with rfl | hm
    · rcases hk with hk | hk
      exacts [h1 (hslot hk), Bool.eq_false_iff.mp h4 hk]
    · exact h3 hm

theorem unread (h : Inv s) : Inv { s with readers := s.readers.erase k } := by
  refine ⟨⟨h.counted.owned, h.counted.sound⟩, h.distinct, fun j hj => h.readers j (List.mem_of_mem_erase hj),
    h.hashed, h.published, fun j i hj => ?_⟩
  obtain ⟨h1, h2, h3, h4⟩ := h.fresh j i hj
  exact ⟨h1, h2, fun hm => h3 (List.mem_of_mem_erase hm), h4⟩

theorem get (h : Inv s) (hk : k ∈ s.readers) (hpos : s.refcount k ≠ 0) :
    Inv { s with
      readers := s.readers.erase k
      refcount := update s.refcount k (s.refcount k + 1)
      holders := k :: s.holders } := by
  refine ⟨⟨?_, h.counted.sound⟩, h.distinct, fun j hj => h.readers j (List.mem_of_mem_erase hj), h.hashed,
    h.published, ?_⟩
  · have hmem := h.counted.owned.pos_iff.mp (Nat.pos_of_ne_zero hpos)
    refine (h.counted.owned.get hmem).perm .rfl ?_
    rw [List.perm_iff_count]
    intro j
    simp only [owners, List.count_append, List.count_cons, List.count_nil]
    omega
  · intro j i hj
    obtain ⟨h1, h2, h3, h4⟩ := h.fresh j i hj
    refine ⟨h1, fun hm => ?_, fun hm => h3 (List.mem_of_mem_erase hm), h4⟩
    rcases List.mem_cons.mp hm with rfl | hm
    exacts [h3 hk, h2 hm]

theorem put (h : Inv s) (hk : k ∈ s.holders) {t : KeypairState}
    (ht : t = { s with holders := s.holders.erase k }.decrement k) :
    (t.refcount k = 0 → Inv { t with dying := k :: t.dying }) ∧ (t.refcount k ≠ 0 → Inv t) := by
  have hc : Counted { s with holders := s.holders.erase k } [k] := by
    refine ⟨h.counted.owned.perm .rfl ?_, h.counted.sound⟩
    have := (List.perm_cons_erase hk).count_eq
    rw [List.perm_iff_count]
    intro j
    have := this j
    simp only [owners, List.count_append, List.count_cons, List.count_nil] at this ⊢
    omega
  obtain ⟨ho, hu⟩ := hc.decrement
  rw [← ht] at ho hu
  have hfresh : ∀ j i, t.session = .filling j i → j ∉ t.slots.toList ∧ j ∉ t.holders ∧ j ∉ t.readers ∧
      t.hashed j = false := by
    subst ht
    intro j i hj
    obtain ⟨h1, h2, h3, h4⟩ := h.fresh j i hj
    exact ⟨h1, fun hm => h2 (List.mem_of_mem_erase hm), h3, h4⟩
  constructor
  · intro hz
    rw [if_pos hz] at ho
    subst ht
    exact ⟨⟨ho, hu⟩, h.distinct, h.readers, h.hashed, h.published, hfresh⟩
  · intro hz
    rw [if_neg hz] at ho
    subst ht
    exact ⟨⟨ho, hu⟩, h.distinct, h.readers, h.hashed, h.published, hfresh⟩

theorem freeRemove (h : Inv s) (hk : k ∈ s.dying) :
    Inv { s.unhash k with dying := s.dying.erase k, removed := k :: s.removed } := by
  have hhash : ∀ {j}, (s.unhash k).hashed j = true → s.hashed j = true := by
    intro j hj
    rw [hashed_unhash, Bool.and_eq_true] at hj
    exact hj.1
  refine ⟨⟨h.counted.owned.perm ?_ .rfl, h.counted.sound⟩, h.distinct, h.readers,
    fun j hj => h.hashed j (hhash hj), h.published, ?_⟩
  · refine (((List.perm_cons_erase hk).append_right s.removed).trans ?_).append_right s.released
    exact List.perm_middle.symm
  · intro j i hj
    obtain ⟨h1, h2, h3, h4⟩ := h.fresh j i hj
    exact ⟨h1, h2, h3, Bool.eq_false_iff.mpr fun hj => Bool.eq_false_iff.mp h4 (hhash hj)⟩

theorem callRcu (h : Inv s) (hk : k ∈ s.removed) :
    Inv { s with removed := s.removed.erase k, released := k :: s.released } := by
  refine { h with counted := ⟨h.counted.owned.perm ?_ .rfl, h.counted.sound⟩ }
  simp only [KeypairState.freed, List.append_assoc]
  refine List.Perm.append_left _ (((List.perm_cons_erase hk).append_right s.released).trans ?_)
  exact List.perm_middle.symm

theorem step (h : Inv s) {ev : KeypairEvent} (hs : s.step ev = some s') : Inv s' := by
  cases ev with
  | handshakeInsert | handshakeClear =>
    simp only [KeypairState.step] at hs
    split at hs <;> cases hs
    exact ⟨⟨h.counted.owned, h.counted.sound⟩, h.distinct, h.readers, h.hashed, h.published, h.fresh⟩
  | keypairCreate i =>
    simp only [KeypairState.step] at hs
    split at hs <;> cases hs
    exact h.keypairCreate i ‹_›
  | sessionFails =>
    simp only [KeypairState.step] at hs
    split at hs <;> cases hs
    exact h.sessionFails ‹_›
  | addNewKeypair =>
    simp only [KeypairState.step] at hs
    split at hs <;> cases hs
    exact h.addNewKeypair ‹_›
  | indexHashtableReplace =>
    simp only [KeypairState.step] at hs
    split at hs <;> cases hs
    exact h.replace ‹_›
  | receivedWithKeypair k =>
    simp only [KeypairState.step] at hs
    split at hs <;> cases hs
    exact h.rotate (s.slots.receivedWithKeypair_perm k)
  | keypairsClear =>
    cases hs
    exact h.rotate s.slots.keypairsClear_perm
  | read k =>
    simp only [KeypairState.step] at hs
    split at hs <;> cases hs
    exact h.read ‹_›
  | get k =>
    simp only [KeypairState.step] at hs
    split at hs
    · split at hs <;> cases hs
      · exact h.unread
      · exact h.get ‹_› ‹_›
    · cases hs
  | put k =>
    simp only [KeypairState.step] at hs
    split at hs
    · split at hs <;> cases hs
      · exact (h.put ‹_› rfl).1 ‹_›
      · exact (h.put ‹_› rfl).2 ‹_›
    · cases hs
  | freeRemove k =>
    simp only [KeypairState.step] at hs
    split at hs <;> cases hs
    exact h.freeRemove ‹_›
  | callRcu k =>
    simp only [KeypairState.step] at hs
    split at hs <;> cases hs
    exact h.callRcu ‹_›

end Inv

/-- In every state of every run: the slots hold different keypairs; a count is the number of slots,
calls and packets that hold the keypair and has never been decremented below zero; no keypair is
handed to `call_rcu` (or freed by a `begin_session` that failed) twice, nor while or before somebody
holds it; and one that nobody holds has been released or is on its way through
`keypair_free_kref`. -/
theorem keypair_refcounts (s : KeypairState) (hrun : Exec step (fun _ _ => True) init s) :
    s.slots.toList.Nodup ∧
    (∀ k, s.refcount k = s.slots.toList.count k + s.session.carried.count k + s.holders.count k) ∧
    s.underflow = false ∧
    s.released.Nodup ∧
    (∀ k ∈ s.released, k ∉ s.slots.toList ∧ k ∉ s.session.carried ∧ k ∉ s.holders) ∧
    ∀ k < s.created, k ∉ s.slots.toList → k ∉ s.session.carried → k ∉ s.holders →
      k ∈ s.released ∨ k ∈ s.dying ∨ k ∈ s.removed := by
  have h : Inv s := hrun.inv Inv.init fun _ _ _ _ h hs => h.step hs
  have ho := h.counted.owned
  simp only [List.append_nil] at ho
  refine ⟨h.distinct, fun k => ?_, h.counted.sound, ?_, fun k hk => ?_, fun k hlt h1 h2 h3 => ?_⟩
  · rw [ho.counted, owners, List.count_append, List.count_append]
  · exact (List.nodup_append.mp ho.once).2.1
  · have := ((ho.freed_iff k).mp (List.mem_append_right _ hk)).2
    simpa only [owners, List.mem_append, not_or, and_assoc] using this
  · have hf := (ho.freed_iff k).mpr ⟨hlt, by simp [owners, h1, h2, h3]⟩
    simp only [freed, List.mem_append] at hf
    tauto

/-- A handshake as initiator, a packet sent with the keypair while the keys are cleared, and the
last put. -/
def clearWhileSending : List KeypairEvent :=
  [.handshakeInsert, .keypairCreate true, .addNewKeypair, .indexHashtableReplace, .read 0, .get 0, .keypairsClear,
    .put 0, .freeRemove 0, .callRcu 0]

theorem keypair_refcounts_clearWhileSending : ∃ s, Exec step (fun _ _ => True) init s ∧ s.released = [0] ∧
    s.released.Nodup ∧ s.refcount 0 = 0 := by
  have hrun : ∃ s, clearWhileSending.foldlM (fun s e => if True then step s e else none) init = some s ∧
      s.released = [0] ∧ s.slots = ⟨none, none, none⟩ ∧ s.session.carried = [] ∧ s.holders = [] :=
    ⟨_, rfl, rfl, rfl, rfl, rfl⟩
  obtain ⟨s, hs, hrel, hslots, hses, hhold⟩ := hrun
  have hexec : Exec step (fun _ _ => True) init s := .of_foldlM clearWhileSending hs
  obtain ⟨-, hcount, -, hnodup, -⟩ := keypair_refcounts s hexec
  exact ⟨s, hexec, hrel, hnodup, by rw [hcount, hslots, hses, hhold]; rfl⟩

/-! ### Entries of the index hashtable -/

/-- No `keypairs_clear` between the two sections in which `begin_session` publishes a keypair. -/
def ClearsBetweenSessions (s : KeypairState) : KeypairEvent → Prop
  | .keypairsClear => s.session.isPublished = false
  | _ => True

/-- The entries in the table are those of keypairs in a slot, and so will be the one that
`begin_session` is about to enter. -/
structure Entered (s : KeypairState) : Prop where
  hashed : ∀ k, s.hashed k → k ∈ s.slots.toList
  published : ∀ k, s.session = .published k → s.slots.Newest k

namespace Entered

theorem of_eq (h : Entered s) (hl : s'.slots = s.slots) (hh : ∀ k, s'.hashed k → s.hashed k)
    (hs : ∀ k, s'.session = .published k → s.session = .published k) : Entered s' :=
  ⟨fun k hk => hl ▸ h.hashed k (hh k hk), fun k hk => hl ▸ h.published k (hs k hk)⟩

theorem rotate (h : ∀ k, s.hashed k → k ∈ s.slots.toList) {r : NoiseKeypairs Nat × List Nat}
    (hp : ∀ k ∈ s.slots.toList, k ∈ r.1.toList ++ r.2) (hpub : ∀ k, s.session = .published k → r.1.Newest k) :
    Entered (s.rotate r) := by
  refine ⟨fun k hk => ?_, fun k hk => ?_⟩
  · rw [hashed_rotate, Bool.and_eq_true, Bool.not_eq_true', decide_eq_false_iff_not] at hk
    rw [slots_rotate]
    exact (List.mem_append.mp (hp k (h k hk.1))).resolve_right hk.2
  · rw [session_rotate] at hk
    rw [slots_rotate]
    exact hpub k hk

theorem replace (h : Entered s) (hs : s.session = .published k) :
    Entered { s with
      hashed := if s.handshakeHashed then update s.hashed k true else s.hashed
      handshakeHashed := false
      session := .idle } := by
  refine ⟨fun j hj => ?_, nofun⟩
  by_cases hjk : j = k
  · exact hjk ▸ (h.published k hs).mem
  · refine h.hashed j ?_
    split at hj
    · simpa only [update_of_ne hjk] using hj
    · exact hj

theorem step (h : Entered s) {ev : KeypairEvent} (hok : s.ClearsBetweenSessions ev) (hs : s.step ev = some s') :
    Entered s' := by
  cases ev with
  | handshakeInsert | handshakeClear | keypairCreate i | sessionFails =>
    simp only [KeypairState.step] at hs
    split at hs <;> cases hs
    exact h.of_eq rfl (fun _ => id) (by simp_all)
  | addNewKeypair =>
    simp only [KeypairState.step] at hs
    split at hs
    case h_1 k i _ =>
      cases hs
      refine rotate (s := { s with session := .published k }) h.hashed (fun j hj => ?_) fun j hj => ?_
      · exact (s.slots.addNewKeypair_perm k i).mem_iff.mpr (List.mem_cons_of_mem _ hj)
      · cases hj
        exact s.slots.newest_addNewKeypair k i
    case h_2 => cases hs
  | indexHashtableReplace =>
    simp only [KeypairState.step] at hs
    split at hs <;> cases hs
    exact h.replace ‹_›
  | receivedWithKeypair k =>
    simp only [KeypairState.step] at hs
    split at hs <;> cases hs
    refine rotate h.hashed (fun j hj => (s.slots.receivedWithKeypair_perm k).mem_iff.mpr hj) fun j hj => ?_
    exact (h.published j hj).receivedWithKeypair k
  | keypairsClear =>
    cases hs
    refine rotate h.hashed (fun j hj => s.slots.keypairsClear_perm.mem_iff.mpr hj) fun j hj => ?_
    -- the one section that would take a published keypair out of the slots again
    rw [ClearsBetweenSessions, hj] at hok
    cases hok
  | read k =>
    simp only [KeypairState.step] at hs
    split at hs <;> cases hs
    exact h.of_eq rfl (fun _ => id) fun _ => id
  | get k | put k =>
    simp only [KeypairState.step] at hs
    split at hs
    · split at hs <;> cases hs <;> exact h.of_eq rfl (fun _ => id) fun _ => id
    · cases hs
  | freeRemove k =>
    simp only [KeypairState.step] at hs
    split at hs <;> cases hs
    refine h.of_eq rfl (fun j hj => ?_) fun _ => id
    have := hashed_unhash s j k
    simp_all
  | callRcu k =>
    simp only [KeypairState.step] at hs
    split at hs <;> cases hs
    exact h.of_eq rfl (fun _ => id) fun _ => id

end Entered

/-- If no `keypairs_clear` comes between `add_new_keypair` and `wg_index_hashtable_replace`, the
keypairs in the table always have a positive reference count and none of them has been released. -/
theorem hashed_keypairs_live (s : KeypairState) (hrun : Exec step ClearsBetweenSessions init s) (k : Nat)
    (hk : s.hashed k = true) : 0 < s.refcount k ∧ k ∉ s.released := by
  have h : Inv s := hrun.inv Inv.init fun _ _ _ _ h hs => h.step hs
  have he : Entered s := hrun.inv (I := Entered) ⟨nofun, nofun⟩ fun _ _ _ hok h hs => h.step hok hs
  have hpos : 0 < s.refcount k :=
    h.counted.owned.pos_iff.mpr (by simp [owners, he.hashed k hk])
  refine ⟨hpos, fun hrel => ?_⟩
  have := h.counted.owned.count_eq_zero (List.mem_append_right _ hrel)
  omega

instance (s : KeypairState) : (ev : KeypairEvent) → Decidable (s.ClearsBetweenSessions ev)
  | .keypairsClear => inferInstanceAs (Decidable (_ = false))
  | .handshakeInsert | .handshakeClear | .keypairCreate _ | .sessionFails | .addNewKeypair | .indexHashtableReplace
  | .receivedWithKeypair _ | .read _ | .get _ | .put _ | .freeRemove _ | .callRcu _ => isTrue trivial

/-- The zero-key worker has cleared the handshake when a new one completes, and clears the keypairs
in the middle of its `begin_session`. -/
def clearWhilePublishing : List KeypairEvent :=
  [.handshakeClear, .handshakeInsert, .keypairCreate false, .addNewKeypair, .keypairsClear, .indexHashtableReplace]

/-- Otherwise a keypair that has been handed to `call_rcu` can be entered into the table. -/
theorem clearWhilePublishing_enters_released :
    ∃ s, Exec step (fun _ _ => True) init s ∧ s.hashed 0 = true ∧ s.refcount 0 = 0 ∧ 0 ∈ s.released :=
  ⟨_, .of_foldlM clearWhilePublishing rfl, rfl, rfl, by decide⟩

theorem hashed_keypairs_live_after_clear : ∃ s, Exec step ClearsBetweenSessions init s ∧ s.hashed 1 = true ∧
    0 < s.refcount 1 ∧ 1 ∉ s.released := by
  have hrun : ∃ s, Exec step ClearsBetweenSessions init s ∧ s.hashed 1 = true :=
    ⟨_, .of_foldlM [.handshakeInsert, .keypairCreate true, .addNewKeypair, .indexHashtableReplace, .keypairsClear,
      .handshakeInsert, .keypairCreate false, .addNewKeypair, .indexHashtableReplace] rfl, rfl⟩
  obtain ⟨s, hexec, hk⟩ := hrun
  exact ⟨s, hexec, hk, hashed_keypairs_live s hexec 1 hk⟩

end KeypairState
end WireguardAes
