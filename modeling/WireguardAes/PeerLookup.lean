import WireguardAes.Messages

/-!
# The index hashtable (`peerlookup.c`)

Entries of handshakes and keypairs under random 32-bit indices. An index determines its bucket, so
the buckets together behave like one list; an entry is in the table at most once (its `index_hash`
node).
-/

namespace WireguardAes

/-- An entry, by the peer whose handshake or the keypair that it is embedded in. -/
inductive IndexHashtableEntry where
  | handshake (peer : Nat)
  | keypair (id : Nat)
  deriving DecidableEq

def IndexHashtableEntry.isHandshake : IndexHashtableEntry → Bool
  | .handshake _ => true
  | .keypair _ => false

abbrev IndexHashtable := List (IndexHashtableEntry × U32)

namespace IndexHashtable

variable {t t' : IndexHashtable} {entry new : IndexHashtableEntry} {index : U32}

/-- `hlist_del_init_rcu`. -/
def remove (t : IndexHashtable) (entry : IndexHashtableEntry) : IndexHashtable := t.filter (·.1 ≠ entry)

def Unused (t : IndexHashtable) (index : U32) : Prop := ∀ x ∈ t, x.2 ≠ index

instance (t : IndexHashtable) (index : U32) : Decidable (t.Unused index) :=
  inferInstanceAs (Decidable (∀ x ∈ t, x.2 ≠ index))

/-- `draws` are the results of `get_random_u32`; `none` if none of them is unused. -/
def insert (t : IndexHashtable) (entry : IndexHashtableEntry) (draws : List U32) : Option (U32 × IndexHashtable) :=
  (draws.find? fun index => (t.remove entry).Unused index).map fun index => (index, (entry, index) :: t.remove entry)

def replace (t : IndexHashtable) (old new : IndexHashtableEntry) : Bool × IndexHashtable :=
  (t.any (·.1 = old), t.map fun x => if x.1 = old then (new, x.2) else x)

/-- The first entry under the index, if it is of the type asked for. -/
def lookup (t : IndexHashtable) (isHandshake : Bool) (index : U32) : Option IndexHashtableEntry :=
  ((t.find? (·.2 = index)).map Prod.fst).filter (·.isHandshake == isHandshake)

/-- The entry under the index, of whatever type. -/
def lookupEither (t : IndexHashtable) (index : U32) : Option IndexHashtableEntry :=
  (t.find? (·.2 = index)).map Prod.fst

/-- An insertion that gets an unused index puts the entry under it, where a lookup finds it. -/
theorem insert_spec {draws : List U32} (h : ∃ index ∈ draws, (t.remove entry).Unused index) :
    ∃ index, t.insert entry draws = some (index, (entry, index) :: t.remove entry) ∧
      (t.remove entry).Unused index := by
  cases hf : draws.find? fun index => (t.remove entry).Unused index with
  | none =>
    obtain ⟨index, hmem, hun⟩ := h
    simpa [hun] using List.find?_eq_none.mp hf index hmem
  | some index =>
    exact ⟨index, by rw [insert, hf]; rfl, by simpa using List.find?_some hf⟩

/-- `entry` is in the table under `index`, and nothing else is. -/
structure At (t : IndexHashtable) (entry : IndexHashtableEntry) (index : U32) : Prop where
  mem : (entry, index) ∈ t
  only : ∀ x ∈ t, x.2 = index → x.1 = entry

theorem at_insert (h : (t.remove entry).Unused index) : At ((entry, index) :: t.remove entry) entry index where
  mem := List.mem_cons_self
  only x hx hi := by
    rcases List.mem_cons.mp hx with rfl | hx
    · rfl
    · exact absurd hi (h x hx)

theorem At.remove (h : At t entry index) {other : IndexHashtableEntry} (hne : entry ≠ other) :
    At (t.remove other) entry index where
  mem := List.mem_filter.mpr ⟨h.mem, by simpa using hne⟩
  only x hx := h.only x (List.mem_filter.mp hx).1

theorem At.lookupEither (h : At t entry index) : t.lookupEither index = some entry := by
  cases hf : t.find? (·.2 = index) with
  | none => simpa using List.find?_eq_none.mp hf _ h.mem
  | some x =>
    have hx := h.only x (List.mem_of_find?_eq_some hf) (by simpa using List.find?_some hf)
    rw [IndexHashtable.lookupEither, hf, Option.map_some, hx]

theorem At.lookup (h : At t entry index) : t.lookup entry.isHandshake index = some entry := by
  have he := h.lookupEither
  rw [IndexHashtable.lookupEither] at he
  rw [IndexHashtable.lookup, he, Option.filter_some, if_pos (beq_self_eq_true _)]

theorem At.replace (h : At t entry index) (new : IndexHashtableEntry) :
    (t.replace entry new).1 = true ∧ At (t.replace entry new).2 new index := by
  refine ⟨List.any_eq_true.mpr ⟨_, h.mem, by simp⟩, List.mem_map.mpr ⟨_, h.mem, by simp⟩, fun x hx hi => ?_⟩
  obtain ⟨y, hy, rfl⟩ := List.mem_map.mp hx
  by_cases he : y.1 = entry
  · rw [if_pos he]
  · rw [if_neg he] at hi
    exact absurd (h.only y hy hi) he

end IndexHashtable
end WireguardAes
