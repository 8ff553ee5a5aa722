import WireguardAes.PeerLookup
import WireguardAes.Lib.HashChains
import WireguardAes.Lib.Runs

/-!
# The buckets of the index hashtable (`peerlookup.c`)

`wg_index_hashtable_insert` takes its entry out of the table, draws indices and looks for one that
is not in use without the table's lock, and looks again under the lock before it links the entry. A
section under the lock is one step. The operations on a handshake's entry are serialised by the lock
of the handshake; a keypair's entry gets into the table by the one `wg_index_hashtable_replace`
after the keypair is made. The outcome of a search without the lock is arbitrary.
-/

namespace WireguardAes

open Function Runs

/-- `enum index_hashtable_type`. -/
def IndexHashtableEntry.type : IndexHashtableEntry → U32
  | .handshake _ => 1 <<< 0
  | .keypair _ => 1 <<< 1

/-- The table has `2 ^ 13` buckets. -/
def indexBucket (index : U32) : U32 := index &&& (1 <<< 13 - 1)

/-- `wg_index_hashtable_insert`. -/
inductive InsertCall where
  | idle
  /-- At `search_unused_slot`. -/
  | searching
  /-- The index is drawn. -/
  | drawn
  /-- The search without the lock has found no entry under it. -/
  | found
  deriving DecidableEq

structure IndexBuckets where
  chains : HashChains IndexHashtableEntry U32
  /-- The field `index` of the entries, hashed or not. -/
  index : IndexHashtableEntry → U32
  /-- The insertions of the peers' handshake entries. -/
  insert : Nat → InsertCall
  /-- The keypairs for which `wg_index_hashtable_replace` has been called. -/
  replaced : List Nat

inductive IndexBucketsEvent where
  | insertDel (peer : Nat)
  | draw (peer : Nat) (index : U32)
  | searched (peer : Nat) (inUse : Bool)
  | insertAdd (peer : Nat)
  | replace (peer keypair : Nat)
  | remove (entry : IndexHashtableEntry)
  deriving DecidableEq

namespace IndexBuckets

def init : IndexBuckets where
  chains := .empty
  index _ := 0
  insert _ := .idle
  replaced := []

/-- `!hlist_unhashed`. -/
def Hashed (s : IndexBuckets) (entry : IndexHashtableEntry) : Prop := s.chains.home entry ≠ none

/-- The walk of an insertion over a bucket. -/
def inUse (s : IndexBuckets) (index : U32) : Bool :=
  (s.chains.chain (indexBucket index)).any fun entry => s.index entry = index

/-- The walk of `wg_index_hashtable_lookup`. -/
def lookup (s : IndexBuckets) (typeMask index : U32) : Option IndexHashtableEntry :=
  ((s.chains.chain (indexBucket index)).find? fun entry => s.index entry = index).filter fun entry =>
    entry.type &&& typeMask ≠ 0

def setInsert (s : IndexBuckets) (peer : Nat) (call : InsertCall) : IndexBuckets :=
  { s with insert := update s.insert peer call }

/-- No insertion of the entry is in progress. -/
def Settled (s : IndexBuckets) : IndexHashtableEntry → Prop
  | .handshake peer => s.insert peer = .idle
  | .keypair _ => True

instance (s : IndexBuckets) : ∀ entry, Decidable (s.Settled entry)
  | .handshake peer => inferInstanceAs (Decidable (s.insert peer = .idle))
  | .keypair _ => inferInstanceAs (Decidable True)

def step (s : IndexBuckets) : IndexBucketsEvent → Option IndexBuckets
  | .insertDel peer =>
    if s.insert peer = .idle then
      some { s.setInsert peer .searching with chains := s.chains.unlink (.handshake peer) }
    else none
  | .draw peer index =>
    if s.insert peer = .searching then
      some { s.setInsert peer .drawn with index := update s.index (.handshake peer) index }
    else none
  | .searched peer inUse =>
    if s.insert peer = .drawn then some (s.setInsert peer (if inUse then .searching else .found)) else none
  | .insertAdd peer =>
    if s.insert peer = .found then
      let index := s.index (.handshake peer)
      if s.inUse index then some (s.setInsert peer .searching)
      else some { s.setInsert peer .idle with chains := s.chains.pushHead (.handshake peer) (indexBucket index) }
    else none
  | .replace peer keypair =>
    if s.insert peer = .idle ∧ keypair ∉ s.replaced then
      let s := { s with replaced := keypair :: s.replaced }
      if s.chains.home (.handshake peer) = none then some s
      else some { s with
        index := update s.index (.keypair keypair) (s.index (.handshake peer))
        chains := s.chains.swap (.handshake peer) (.keypair keypair) }
    else none
  | .remove entry => if s.Settled entry then some { s with chains := s.chains.unlink entry } else none

/-- What a step does to the chains and to the indices. -/
inductive Step (s : IndexBuckets) : IndexBuckets → Prop
  | search {peer : Nat} {call : InsertCall} (hp : s.insert peer ≠ .idle) : Step s (s.setInsert peer call)
  | draw {peer : Nat} {index : U32} (hp : s.insert peer ≠ .idle) :
      Step s { s.setInsert peer .drawn with index := update s.index (.handshake peer) index }
  | unlinkFor {peer : Nat} :
      Step s { s.setInsert peer .searching with chains := s.chains.unlink (.handshake peer) }
  | unlink {entry : IndexHashtableEntry} : Step s { s with chains := s.chains.unlink entry }
  | add {peer : Nat} (hp : s.insert peer ≠ .idle) (hu : s.inUse (s.index (.handshake peer)) = false) :
      Step s { s.setInsert peer .idle with
        chains := s.chains.pushHead (.handshake peer) (indexBucket (s.index (.handshake peer))) }
  | keep {keypair : Nat} : Step s { s with replaced := keypair :: s.replaced }
  | replace {peer keypair : Nat} {b : U32} (hk : keypair ∉ s.replaced)
      (hb : s.chains.home (.handshake peer) = some b) :
      Step s { s with
        replaced := keypair :: s.replaced
        index := update s.index (.keypair keypair) (s.index (.handshake peer))
        chains := s.chains.swap (.handshake peer) (.keypair keypair) }

variable {s t : IndexBuckets} {e : IndexBucketsEvent}
variable {entry : IndexHashtableEntry} {u : IndexBuckets} {peer : Nat}

theorem step_cases (h : s.step e = some t) : Step s t := by
  cases e with
  | insertDel peer =>
    dsimp only [step] at h
    split at h <;> cases h
    exact .unlinkFor
  | draw peer index =>
    obtain ⟨hp, ⟨⟩⟩ := Option.ite_none_right_eq_some.mp h
    exact .draw (by rw [hp]; decide)
  | searched peer inUse =>
    obtain ⟨hp, ⟨⟩⟩ := Option.ite_none_right_eq_some.mp h
    exact .search (by rw [hp]; decide)
  | insertAdd peer =>
    dsimp only [step] at h
    split at h
    case isTrue hp =>
      have hne : s.insert peer ≠ .idle := by rw [hp]; decide
      split_ifs at h with hu <;> cases h
      · exact .search hne
      · exact .add hne (Bool.eq_false_iff.mpr hu)
    · cases h
  | replace peer keypair =>
    dsimp only [step] at h
    split at h
    case isTrue hp =>
      split_ifs at h with hb <;> cases h
      · exact .keep
      · obtain ⟨b, hb⟩ := Option.ne_none_iff_exists'.mp hb
        exact .replace hp.2 hb
    · cases h
  | remove entry =>
    dsimp only [step] at h
    split at h <;> cases h
    exact .unlink

structure Inv (s : IndexBuckets) : Prop where
  wf : s.chains.WF
  bucket : ∀ entry b, s.chains.home entry = some b → b = indexBucket (s.index entry)
  unique : ∀ entry entry', s.Hashed entry → s.Hashed entry' → s.index entry = s.index entry' → entry = entry'
  /-- An entry that is being inserted is in no chain, so its index may be drawn again. -/
  inserting : ∀ peer, s.insert peer ≠ .idle → ¬ s.Hashed (.handshake peer)
  fresh : ∀ keypair, s.Hashed (.keypair keypair) → keypair ∈ s.replaced

theorem inUse_eq_false (h : Inv s) {index : U32} (hu : s.inUse index = false)
    (he : s.Hashed entry) : s.index entry ≠ index := by
  obtain ⟨b, hb⟩ := Option.ne_none_iff_exists'.mp he
  intro hi
  have hmem : entry ∈ s.chains.chain (indexBucket index) := by
    rw [h.wf.mem_iff, hb, h.bucket entry b hb, hi]
  rw [inUse, List.any_eq_false] at hu
  exact hu entry hmem (decide_eq_true hi)

theorem hashed_unlink {entry' : IndexHashtableEntry} (hu : u.chains = s.chains.unlink entry') :
    u.Hashed entry ↔ entry ≠ entry' ∧ s.Hashed entry := by
  rw [Hashed, hu, HashChains.home_unlink, update_apply, Hashed]
  split <;> simp_all

namespace Inv

theorem init : Inv IndexBuckets.init where
  wf := .empty
  bucket _ _ hb := by cases hb
  unique _ _ he := absurd rfl he
  inserting _ hp := absurd rfl hp
  fresh _ hk := absurd rfl hk

theorem unlink (h : Inv s) (hc : u.chains = s.chains.unlink entry)
    (hi : u.index = s.index) (hr : u.replaced = s.replaced)
    (hcall : ∀ peer, u.insert peer ≠ .idle → s.insert peer ≠ .idle ∨ .handshake peer = entry) : Inv u where
  wf := hc ▸ h.wf.unlink entry
  bucket entry' b hb := by
    rw [hi]
    rw [hc, HashChains.home_unlink, update_apply] at hb
    split at hb
    · cases hb
    · exact h.bucket entry' b hb
  unique entry₁ entry₂ h₁ h₂ := by
    rw [hi]
    rw [hashed_unlink hc] at h₁ h₂
    exact h.unique entry₁ entry₂ h₁.2 h₂.2
  inserting peer hp := by
    rw [hashed_unlink hc]
    rintro ⟨hne, hh⟩
    rcases hcall peer hp with hp | hp
    · exact h.inserting peer hp hh
    · exact hne hp
  fresh keypair hk := by
    rw [hashed_unlink hc] at hk
    rw [hr]
    exact h.fresh keypair hk.2

/-- Only the insertion's own index has changed, and its entry is in no chain. -/
theorem search (h : Inv s) (hp : s.insert peer ≠ .idle) (hc : u.chains = s.chains)
    (hi : ∀ entry, entry ≠ .handshake peer → u.index entry = s.index entry) (hr : u.replaced = s.replaced)
    (hcall : ∀ other, other ≠ peer → u.insert other = s.insert other) : Inv u := by
  have hhashed : ∀ entry, u.Hashed entry ↔ s.Hashed entry := by
    intro entry
    rw [Hashed, Hashed, hc]
  have hindex : ∀ entry, s.Hashed entry → u.index entry = s.index entry := by
    intro entry he
    refine hi entry ?_
    rintro rfl
    exact h.inserting peer hp he
  refine ⟨hc ▸ h.wf, fun entry b hb => ?_, fun entry entry' he he' heq => ?_, fun other ho => ?_, fun keypair hk => ?_⟩
  · rw [hc] at hb
    have he : s.Hashed entry := by
      rw [Hashed, hb]
      exact Option.some_ne_none b
    rw [hindex entry he]
    exact h.bucket entry b hb
  · rw [hhashed] at he he'
    rw [hindex entry he, hindex entry' he'] at heq
    exact h.unique entry entry' he he' heq
  · rw [hhashed]
    by_cases hop : other = peer
    · rw [hop]
      exact h.inserting peer hp
    · rw [hcall other hop] at ho
      exact h.inserting other ho
  · rw [hhashed] at hk
    rw [hr]
    exact h.fresh keypair hk

theorem hashed_add {b : U32} (hc : u.chains = s.chains.pushHead (.handshake peer) b) :
    u.Hashed entry ↔ entry = .handshake peer ∨ s.Hashed entry := by
  rw [Hashed, hc, HashChains.home_pushHead, update_apply, Hashed]
  split <;> simp_all

theorem add (h : Inv s) (hp : s.insert peer ≠ .idle)
    (hu : s.inUse (s.index (.handshake peer)) = false) : Inv { s.setInsert peer .idle with
      chains := s.chains.pushHead (.handshake peer) (indexBucket (s.index (.handshake peer))) } := by
  have hnone : s.chains.home (.handshake peer) = none := not_not.mp (h.inserting peer hp)
  refine ⟨h.wf.pushHead hnone _, fun entry b hb => ?_, fun entry entry' he he' heq => ?_, fun other ho => ?_,
    fun keypair hk => ?_⟩
  · simp only [HashChains.home_pushHead, update_apply] at hb
    split_ifs at hb with he
    · rw [he]
      exact (Option.some.inj hb).symm
    · exact h.bucket entry b hb
  · rw [hashed_add rfl] at he he'
    rcases he with rfl | he
    · rcases he' with rfl | he'
      · rfl
      · exact absurd heq.symm (inUse_eq_false h hu he')
    · rcases he' with rfl | he'
      · exact absurd heq (inUse_eq_false h hu he)
      · exact h.unique entry entry' he he' heq
  · rw [hashed_add rfl]
    simp only [setInsert, update_apply] at ho
    split_ifs at ho with hne
    · exact absurd rfl ho
    · rintro (heq | hh)
      · exact hne (IndexHashtableEntry.handshake.inj heq)
      · exact h.inserting other ho hh
  · rw [hashed_add rfl] at hk
    rcases hk with hk | hk
    · cases hk
    · exact h.fresh keypair hk

/-- The keypair's entry takes the place and the index of the handshake's. -/
theorem replace (h : Inv s) {keypair : Nat} {b : U32} (hk : keypair ∉ s.replaced)
    (hb : s.chains.home (.handshake peer) = some b) : Inv { s with
      replaced := keypair :: s.replaced
      index := update s.index (.keypair keypair) (s.index (.handshake peer))
      chains := s.chains.swap (.handshake peer) (.keypair keypair) } := by
  have hnone : s.chains.home (.keypair keypair) = none := not_not.mp fun hh => hk (h.fresh keypair hh)
  have hold : s.Hashed (.handshake peer) := by
    rw [Hashed, hb]
    exact Option.some_ne_none b
  have hhome : (s.chains.swap (.handshake peer) (.keypair keypair)).home =
      update (update s.chains.home (.keypair keypair) (some b)) (.handshake peer) none :=
    HashChains.home_swap hb
  -- The entries that are hashed now, by the entry that had their index before.
  have hhashed : ∀ entry, (s.chains.swap (.handshake peer) (.keypair keypair)).home entry ≠ none →
      entry = .keypair keypair ∨ entry ≠ .handshake peer ∧ entry ≠ .keypair keypair ∧ s.Hashed entry := by
    intro entry he
    rw [hhome, update_apply, update_apply] at he
    grind [Hashed]
  refine ⟨h.wf.swap _ hnone, fun entry b' hb' => ?_, fun entry entry' he he' heq => ?_, fun other ho => ?_,
    fun k hk' => ?_⟩
  · rw [hhome, update_apply, update_apply] at hb'
    have hbucket := h.bucket _ b hb
    have hbucket' := h.bucket entry b'
    simp only [update_apply]
    grind
  · rcases hhashed entry he with rfl | ⟨hne₁, hne₂, he⟩ <;> rcases hhashed entry' he' with rfl | ⟨hne₁', hne₂', he'⟩
    · rfl
    · simp only [update_self, update_of_ne hne₂'] at heq
      exact absurd (h.unique _ _ hold he' heq).symm hne₁'
    · simp only [update_self, update_of_ne hne₂] at heq
      exact absurd (h.unique _ _ he hold heq) hne₁
    · simp only [update_of_ne hne₂, update_of_ne hne₂'] at heq
      exact h.unique _ _ he he' heq
  · intro hh
    rcases hhashed _ hh with heq | ⟨-, -, hh⟩
    · cases heq
    · exact h.inserting other ho hh
  · rcases hhashed _ hk' with heq | ⟨-, -, hh⟩
    · cases heq
      exact List.mem_cons_self
    · exact List.mem_cons_of_mem _ (h.fresh k hh)

theorem step (h : Inv s) (hs : Step s t) : Inv t := by
  cases hs with
  | search hp => exact h.search hp rfl (fun _ _ => rfl) rfl fun _ ho => update_of_ne ho ..
  | draw hp =>
    exact h.search hp rfl (fun _ he => update_of_ne he ..) rfl fun _ ho => update_of_ne ho ..
  | @unlinkFor peer =>
    refine h.unlink rfl rfl rfl fun other ho => ?_
    by_cases hop : other = peer
    · exact .inr (by rw [hop])
    · simp only [setInsert, update_of_ne hop] at ho
      exact .inl ho
  | unlink => exact h.unlink rfl rfl rfl fun _ ho => .inl ho
  | add hp hu => exact h.add hp hu
  | keep => exact ⟨h.wf, h.bucket, h.unique, h.inserting, fun k hk => List.mem_cons_of_mem _ (h.fresh k hk)⟩
  | replace hk hb => exact h.replace hk hb

theorem of_exec (h : Exec IndexBuckets.step (fun _ _ => True) IndexBuckets.init s) : Inv s :=
  h.inv .init fun _ _ _ _ hi hs => hi.step (step_cases hs)

theorem mem_chain_iff (h : Inv s) {index : U32} (hi : s.index entry = index) :
    entry ∈ s.chains.chain (indexBucket index) ↔ s.Hashed entry := by
  rw [h.wf.mem_iff, Hashed, ← hi]
  constructor
  · intro hb
    rw [hb]
    exact Option.some_ne_none _
  · intro hh
    obtain ⟨b, hb⟩ := Option.ne_none_iff_exists'.mp hh
    rw [hb, h.bucket entry b hb]

/-- A lookup finds the entry that is registered under the index, and nothing else. -/
theorem lookup_eq_some (h : Inv s) (typeMask index : U32) (entry : IndexHashtableEntry) :
    s.lookup typeMask index = some entry ↔ s.Hashed entry ∧ s.index entry = index ∧ entry.type &&& typeMask ≠ 0 := by
  have hfind : ((s.chains.chain (indexBucket index)).find? fun entry => s.index entry = index) = some entry ↔
      s.Hashed entry ∧ s.index entry = index := by
    constructor
    · intro hf
      have hi : s.index entry = index := by simpa only [decide_eq_true_eq] using List.find?_some hf
      exact ⟨(h.mem_chain_iff hi).mp (List.mem_of_find?_eq_some hf), hi⟩
    · rintro ⟨hh, hi⟩
      cases hf : (s.chains.chain (indexBucket index)).find? fun entry => s.index entry = index with
      | none => exact absurd (decide_eq_true hi) (List.find?_eq_none.mp hf entry ((h.mem_chain_iff hi).mpr hh))
      | some other =>
        have hi' : s.index other = index := by simpa only [decide_eq_true_eq] using List.find?_some hf
        have hh' := (h.mem_chain_iff hi').mp (List.mem_of_find?_eq_some hf)
        rw [h.unique other entry hh' hh (hi'.trans hi.symm)]
  rw [lookup, Option.filter_eq_some_iff, hfind, decide_eq_true_iff, and_assoc]

end Inv

/-- The entries in the table have different indices, each of them is linked once and in the bucket
of its index, and a lookup gives exactly the entry under the index if it is of a type that is asked
for. -/
theorem indices_unique (h : Exec step (fun _ _ => True) init s) :
    (∀ entry entry', s.Hashed entry → s.Hashed entry' → s.index entry = s.index entry' → entry = entry') ∧
    (∀ entry, s.Hashed entry → (s.chains.chain (indexBucket (s.index entry))).count entry = 1 ∧
      ∀ b, entry ∈ s.chains.chain b → b = indexBucket (s.index entry)) ∧
    (∀ entry b, entry ∈ s.chains.chain b → s.Hashed entry) ∧
    ∀ typeMask index entry, s.lookup typeMask index = some entry ↔
      s.Hashed entry ∧ s.index entry = index ∧ entry.type &&& typeMask ≠ 0 := by
  have hi := Inv.of_exec h
  refine ⟨hi.unique, fun entry he => ⟨?_, fun b hb => ?_⟩, fun entry b hb => ?_, hi.lookup_eq_some⟩
  · exact List.count_eq_one_of_mem (hi.wf.nodup _) ((hi.mem_chain_iff rfl).mpr he)
  · exact hi.bucket entry b ((hi.wf.mem_iff entry b).mp hb)
  · rw [Hashed, (hi.wf.mem_iff entry b).mp hb]
    exact Option.some_ne_none b

/-- Two peers draw the same index, and the second one draws again: an index of the same bucket. The
first entry is then handed over to a keypair. -/
theorem indices_unique_redrawn : ∃ s, Exec step (fun _ _ => True) init s ∧ s.lookup 2 5 = some (.keypair 7) ∧
    s.lookup 1 5 = none ∧ s.lookup 1 8197 = some (.handshake 1) := by
  have hrun : ∃ s, Exec step (fun _ _ => True) init s ∧
      (s.chains.home (.keypair 7), s.index (.keypair 7), s.chains.home (.handshake 1), s.index (.handshake 1)) =
        (some 5, 5, some 5, 8197) :=
    Exec.exists_of_foldlM [.insertDel 0, .insertDel 1, .draw 0 5, .draw 1 5, .searched 0 false, .searched 1 false,
      .insertAdd 0, .insertAdd 1, .draw 1 8197, .searched 1 false, .insertAdd 1, .replace 0 7]
      (fun s : IndexBuckets => (s.chains.home (.keypair 7), s.index (.keypair 7), s.chains.home (.handshake 1),
        s.index (.handshake 1))) (by decide +kernel)
  obtain ⟨s, hs, heq⟩ := hrun
  simp only [Prod.mk.injEq] at heq
  obtain ⟨hk, hki, hh, hhi⟩ := heq
  obtain ⟨hunique, -, -, hlookup⟩ := indices_unique hs
  have hkeypair : s.Hashed (.keypair 7) := by rw [Hashed, hk]; decide
  have hhandshake : s.Hashed (.handshake 1) := by rw [Hashed, hh]; decide
  refine ⟨s, hs, (hlookup _ _ _).mpr ⟨hkeypair, hki, by decide⟩, ?_, (hlookup _ _ _).mpr ⟨hhandshake, hhi, by decide⟩⟩
  rw [Option.eq_none_iff_forall_ne_some]
  intro entry he
  obtain ⟨hhashed, hi, htype⟩ := (hlookup _ _ _).mp he
  rw [hunique entry (.keypair 7) hhashed hkeypair (hi.trans hki.symm)] at htype
  exact htype (by decide)

/-! ### The table as one list -/

/-- The list holds the entries of the buckets with their indices. -/
def Represents (s : IndexBuckets) (table : IndexHashtable) : Prop :=
  ∀ entry index, (entry, index) ∈ table ↔ s.Hashed entry ∧ s.index entry = index

/-- What the operations do to the list. -/
inductive TableOp (table : IndexHashtable) : IndexHashtable → Prop
  | keep : TableOp table table
  | remove (entry : IndexHashtableEntry) : TableOp table (table.remove entry)
  | insert {entry : IndexHashtableEntry} {draws : List U32} {index : U32} {table' : IndexHashtable}
      (h : table.insert entry draws = some (index, table')) : TableOp table table'
  | replace (old new : IndexHashtableEntry) : TableOp table (table.replace old new).2

variable {table : IndexHashtable}
variable {peer : Nat}

theorem Represents.unlink (h : Represents s table) {entry : IndexHashtableEntry} {u : IndexBuckets}
    (hc : u.chains = s.chains.unlink entry) (hi : u.index = s.index) : Represents u (table.remove entry) := by
  intro entry' index
  rw [IndexHashtable.remove, List.mem_filter, h entry' index, hashed_unlink hc, hi, decide_eq_true_iff]
  tauto

theorem Represents.search (h : Represents s table) (hinv : Inv s) (hp : s.insert peer ≠ .idle)
    {u : IndexBuckets} (hc : u.chains = s.chains)
    (hi : ∀ entry, entry ≠ .handshake peer → u.index entry = s.index entry) : Represents u table := by
  intro entry index
  rw [h entry index, Hashed, Hashed, hc]
  refine and_congr_right fun he => ?_
  rw [hi entry]
  rintro rfl
  exact hinv.inserting peer hp he

theorem Represents.add (h : Represents s table) (hinv : Inv s)
    (hu : s.inUse (s.index (.handshake peer)) = false) :
    ∃ table', table.insert (.handshake peer) [s.index (.handshake peer)] =
        some (s.index (.handshake peer), table') ∧
      Represents { s.setInsert peer .idle with
        chains := s.chains.pushHead (.handshake peer) (indexBucket (s.index (.handshake peer))) } table' := by
  have hunused : (table.remove (.handshake peer)).Unused (s.index (.handshake peer)) := by
    intro x hx
    obtain ⟨hh, hi⟩ := (h x.1 x.2).mp (List.mem_filter.mp hx).1
    rw [← hi]
    exact inUse_eq_false hinv hu hh
  refine ⟨(.handshake peer, s.index (.handshake peer)) :: table.remove (.handshake peer), ?_, fun entry index => ?_⟩
  · simp only [IndexHashtable.insert, List.find?_cons, decide_eq_true hunused, Option.map_some]
  · rw [Inv.hashed_add rfl, List.mem_cons, IndexHashtable.remove, List.mem_filter, h entry index, Prod.mk.injEq,
      decide_eq_true_iff]
    simp only [setInsert]
    grind

theorem Represents.replace (h : Represents s table) (hinv : Inv s) {keypair : Nat} {b : U32}
    (hk : keypair ∉ s.replaced) (hb : s.chains.home (.handshake peer) = some b) :
    Represents { s with
      replaced := keypair :: s.replaced
      index := update s.index (.keypair keypair) (s.index (.handshake peer))
      chains := s.chains.swap (.handshake peer) (.keypair keypair) }
      (table.replace (.handshake peer) (.keypair keypair)).2 := by
  have hnone : ¬ s.Hashed (.keypair keypair) := fun hh => hk (hinv.fresh keypair hh)
  have hold : s.Hashed (.handshake peer) := by
    rw [Hashed, hb]
    exact Option.some_ne_none b
  intro entry index
  rw [IndexHashtable.replace, List.mem_map, Hashed, HashChains.home_swap hb]
  simp only [update_apply, Prod.exists]
  constructor
  · rintro ⟨old, i, hmem, heq⟩
    obtain ⟨hh, hi⟩ := (h old i).mp hmem
    grind [Hashed]
  · rintro ⟨hh, hi⟩
    by_cases he : entry = .keypair keypair
    · exact ⟨.handshake peer, index, (h _ _).mpr ⟨hold, by grind⟩, by grind⟩
    · exact ⟨entry, index, (h _ _).mpr ⟨by grind [Hashed], by grind⟩, by grind⟩

theorem Represents.step (h : Represents s table) (hinv : Inv s) (hs : Step s t) :
    ∃ table', TableOp table table' ∧ Represents t table' := by
  cases hs with
  | search hp => exact ⟨table, .keep, h.search hinv hp rfl fun _ _ => rfl⟩
  | draw hp => exact ⟨table, .keep, h.search hinv hp rfl fun _ he => update_of_ne he ..⟩
  | unlinkFor => exact ⟨_, .remove _, h.unlink rfl rfl⟩
  | @unlink entry => exact ⟨_, .remove entry, h.unlink rfl rfl⟩
  | add hp hu =>
    obtain ⟨table', hins, hrep⟩ := h.add hinv hu
    exact ⟨table', .insert hins, hrep⟩
  | keep => exact ⟨table, .keep, h⟩
  | replace hk hb => exact ⟨_, .replace _ _, h.replace hinv hk hb⟩

/-- The buckets are at each moment a list that the operations of the table have led to. -/
theorem exists_represents (h : Exec step (fun _ _ => True) init s) :
    ∃ table, Relation.ReflTransGen TableOp [] table ∧ Represents s table := by
  have hboth : Inv s ∧ ∃ table, Relation.ReflTransGen TableOp [] table ∧ Represents s table := by
    refine h.inv (I := fun s => Inv s ∧ ∃ table, Relation.ReflTransGen TableOp [] table ∧ Represents s table)
      ⟨.init, [], .refl, fun entry index => ?_⟩ fun s e t _ hi hs => ?_
    · simp only [List.not_mem_nil, false_iff, not_and]
      exact fun hh => absurd rfl hh
    · obtain ⟨hinv, table, hops, hrep⟩ := hi
      obtain ⟨table', hop, hrep'⟩ := hrep.step hinv (step_cases hs)
      exact ⟨hinv.step (step_cases hs), table', hops.tail hop, hrep'⟩
  exact hboth.2

/-- A lookup in the buckets is one in the list. -/
theorem Represents.lookup (h : Represents s table) (hinv : Inv s) (isHandshake : Bool) (index : U32) :
    table.lookup isHandshake index = s.lookup (if isHandshake then 1 else 2) index := by
  have htype : ∀ entry : IndexHashtableEntry,
      entry.type &&& (if isHandshake then 1 else 2) ≠ 0 ↔ entry.isHandshake = isHandshake := by
    intro entry
    rcases entry with p | k <;> cases isHandshake <;> simp [IndexHashtableEntry.type, IndexHashtableEntry.isHandshake]
  refine Option.ext fun entry => ?_
  rw [hinv.lookup_eq_some, htype, ← and_assoc, ← h entry index, IndexHashtable.lookup, Option.filter_eq_some_iff,
    Option.map_eq_some_iff, beq_iff_eq]
  refine and_congr_left fun _ => ⟨?_, fun hmem => ?_⟩
  · rintro ⟨x, hf, rfl⟩
    have hi : x.2 = index := by simpa only [decide_eq_true_eq] using List.find?_some hf
    rw [← hi]
    exact List.mem_of_find?_eq_some hf
  · cases hf : table.find? (·.2 = index) with
    | none => exact absurd (decide_eq_true rfl) (List.find?_eq_none.mp hf _ hmem)
    | some x =>
      have hi : x.2 = index := by simpa only [decide_eq_true_eq] using List.find?_some hf
      obtain ⟨hh, hx⟩ := (h x.1 x.2).mp (List.mem_of_find?_eq_some hf)
      obtain ⟨hh', hx'⟩ := (h entry index).mp hmem
      exact ⟨x, rfl, hinv.unique x.1 entry hh hh' (by rw [hx, hx', hi])⟩

end IndexBuckets
end WireguardAes
