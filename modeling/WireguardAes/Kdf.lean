import WireguardAes.Noise
import WireguardAes.Lib.ByteMemory
import WireguardAes.Lib.Hkdf

/-!
# `hmac` and `kdf` in memory (`noise.c`)

The two functions with the buffers they are given. `hmac` writes to `out` when it has read
everything, so that `out` may be the input; `kdf` has two local arrays, `output`, which is the input
and the output of each step, and `secret`, and reads the data and the chaining key before it writes
to a destination, so that a destination may be the chaining key. What is left in memory is HKDF of
what was there. The arrays of `hmac` are never passed on, so they are values.
-/

namespace WireguardAes

open ByteMemory

def blake2sHashSize : Nat := 32

/-! ### The functions -/

namespace InPlace
variable (blake2s : Bytes → Vector UInt8 blake2sHashSize)

/-- `for (i = 0; i < BLAKE2S_BLOCK_SIZE; ++i) x_key[i] ^= c;` -/
def xorBlock (c : UInt8) (xKey : Bytes) : Bytes :=
  (List.range blake2sBlockSize).foldl (fun xKey i => xKey.modify i (· ^^^ c)) xKey

/-- `x_key` with the key in it. The hash state is what the `blake2s_update` calls were given, and
`blake2s_final` hashes that. -/
def keyBlock (m : ByteMemory) (key : Pointer) (keylen : Nat) : Option Bytes := do
  let xKey := List.replicate blake2sBlockSize 0
  if keylen > blake2sBlockSize then
    let state ← m.read key keylen
    return overwrite xKey 0 (blake2s state).toList
  else
    let key ← m.read key keylen
    return overwrite xKey 0 key

def hmac (m : ByteMemory) (out input key : Pointer) (inlen keylen : Nat) : Option ByteMemory := do
  let xKey ← keyBlock blake2s m key keylen
  let xKey := xorBlock 0x36 xKey
  let input ← m.read input inlen
  let iHash := (blake2s (xKey ++ input)).toList
  let xKey := xorBlock (0x5c ^^^ 0x36) xKey
  let iHash := (blake2s (xKey ++ iHash)).toList
  m.write out iHash

/-- `output[k] = c; hmac(output, output, secret, inlen, BLAKE2S_HASH_SIZE);
memcpy(dst, output, len);` with `output` and `secret` the objects from `frame` on. -/
def expandInto (m : ByteMemory) (frame k : Nat) (c : UInt8) (inlen : Nat) (dst : Pointer)
    (len : Nat) : Option ByteMemory := do
  let m ← m.write (some ⟨frame, k⟩) [c]
  let m ← hmac blake2s m (some ⟨frame, 0⟩) (some ⟨frame, 0⟩) (some ⟨frame + 1, 0⟩) inlen blake2sHashSize
  m.memcpy dst (some ⟨frame, 0⟩) len

/-- The three steps, up to the first `goto out`. -/
def expandKeys (m : ByteMemory) (frame : Nat) (firstDst secondDst thirdDst : Pointer)
    (firstLen secondLen thirdLen : Nat) :
    Option ByteMemory := do
  if firstDst = none ∨ firstLen = 0 then return m
  let m ← expandInto blake2s m frame 0 1 1 firstDst firstLen
  if secondDst = none ∨ secondLen = 0 then return m
  let m ← expandInto blake2s m frame blake2sHashSize 2 (blake2sHashSize + 1) secondDst secondLen
  if thirdDst = none ∨ thirdLen = 0 then return m
  expandInto blake2s m frame blake2sHashSize 3 (blake2sHashSize + 1) thirdDst thirdLen

/-- The local arrays start with whatever `output` and `secret` are. -/
def kdf (m : ByteMemory) (firstDst secondDst thirdDst data : Pointer) (firstLen secondLen thirdLen dataLen : Nat)
    (chainingKey : Pointer) (output : Vector UInt8 (blake2sHashSize + 1)) (secret : Vector UInt8 blake2sHashSize) :
    Option ByteMemory := do
  let frame := m.objects.length
  let m := m.enter [output.toList, secret.toList]
  let m ← hmac blake2s m (some ⟨frame + 1, 0⟩) data chainingKey dataLen noiseHashLen
  let m ← expandKeys blake2s m frame firstDst secondDst thirdDst firstLen secondLen thirdLen
  let m ← m.write (some ⟨frame + 1, 0⟩) (List.replicate blake2sHashSize 0)
  let m ← m.write (some ⟨frame, 0⟩) (List.replicate (blake2sHashSize + 1) 0)
  return m.leave frame

/-! ### What they compute -/

/-- The hash as a function of byte strings. -/
def blake2sBytes (bs : Bytes) : Bytes := (blake2s bs).toList

/-- The outputs that are asked for, up to the first that is not. -/
def requested : List (Pointer × Nat) → List (Pointer × Nat)
  | [] => []
  | (dst, len) :: rs => if dst = none ∨ len = 0 then [] else (dst, len) :: requested rs

/-- Each destination gets the first bytes of its output of HKDF with an empty `info`, from number
`i` on, and nothing else changes. -/
def writeOutputs (prk : Bytes) (m : ByteMemory) : Nat → List (Pointer × Nat) → Option ByteMemory
  | _, [] => some m
  | i, (dst, len) :: rs => do
    let m ← m.write dst ((Hkdf.expand (blake2sBytes blake2s) blake2sBlockSize prk [] i).take len)
    writeOutputs prk m (i + 1) rs

variable {blake2s} {m m' : ByteMemory}

/-! ### `hmac` -/

theorem getElem?_foldl_modify (f : UInt8 → UInt8) (x : Bytes) (n j : Nat) :
    ((List.range n).foldl (fun x i => x.modify i f) x)[j]? = if j < n then x[j]?.map f else x[j]? := by
  induction n with
  | zero => rfl
  | succ n ih =>
    rw [List.range_succ, List.foldl_append, List.foldl_cons, List.foldl_nil, List.getElem?_modify, ih]
    rcases Nat.lt_trichotomy j n with hlt | rfl | hgt
    · rw [if_pos hlt, if_pos (by omega)]
      simp [show n ≠ j by omega]
    · rw [if_neg (Nat.lt_irrefl j), if_pos (Nat.lt_succ_self j)]
      simp
    · rw [if_neg (by omega), if_neg (by omega)]
      simp [show n ≠ j by omega]

theorem xorBlock_eq_map (c : UInt8) {xKey : Bytes} (h : xKey.length = blake2sBlockSize) :
    xorBlock c xKey = xKey.map (· ^^^ c) := by
  refine List.ext_getElem? fun j => ?_
  rw [xorBlock, getElem?_foldl_modify, List.getElem?_map]
  split_ifs with hj
  · rfl
  · rw [List.getElem?_eq_none (by omega)]
    rfl

theorem xor_pads (b : UInt8) : b ^^^ 0x36 ^^^ (0x5c ^^^ 0x36) = b ^^^ 0x5c := by
  rw [UInt8.xor_comm 0x5c, UInt8.xor_assoc, ← UInt8.xor_assoc 0x36, UInt8.xor_self, UInt8.zero_xor]

@[simp] theorem length_blake2sBytes (bs : Bytes) :
    (blake2sBytes blake2s bs).length = blake2sHashSize := Vector.length_toList

@[simp] theorem length_hmac (key text : Bytes) :
    (Hkdf.hmac (blake2sBytes blake2s) blake2sBlockSize key text).length = blake2sHashSize := length_blake2sBytes _

theorem length_blockKey (blake2s : Bytes → Vector UInt8 blake2sHashSize) (key : Bytes) :
    (Hkdf.blockKey (blake2sBytes blake2s) blake2sBlockSize key).length = blake2sBlockSize := by
  unfold Hkdf.blockKey
  dsimp only
  split
  · rw [List.length_append, List.length_replicate, length_blake2sBytes]
    rfl
  · rw [List.length_append, List.length_replicate]
    omega

theorem overwrite_zeros (k : Bytes) :
    overwrite (List.replicate blake2sBlockSize 0) 0 k = k ++ List.replicate (blake2sBlockSize - k.length) 0 := by
  rw [overwrite_zero, List.drop_replicate]

theorem keyBlock_eq (m : ByteMemory) (key : Pointer) (keylen : Nat) :
    keyBlock blake2s m key keylen = (m.read key keylen).map
      (Hkdf.blockKey (blake2sBytes blake2s) blake2sBlockSize) := by
  unfold keyBlock
  dsimp only
  cases hk : m.read key keylen with
  | none => split <;> rfl
  | some k =>
    have hlen := length_read hk
    rw [Option.map_some, Hkdf.blockKey, hlen]
    split
    · exact congrArg some (overwrite_zeros _)
    · exact congrArg some (overwrite_zeros _)

/-- `hmac` reads the key and the input, and then writes HMAC of them to `out`, wherever that is. -/
theorem hmac_eq (m : ByteMemory) (out input key : Pointer) (inlen keylen : Nat) :
    hmac blake2s m out input key inlen keylen = (m.read key keylen).bind fun k => (m.read input inlen).bind fun text =>
      m.write out (Hkdf.hmac (blake2sBytes blake2s) blake2sBlockSize k text) := by
  rw [hmac, keyBlock_eq]
  simp only [Option.bind_eq_bind]
  cases m.read key keylen with
  | none => rw [Option.map_none, Option.bind_none, Option.bind_none]
  | some k =>
    rw [Option.map_some, Option.bind_some, Option.bind_some]
    cases m.read input inlen with
    | none => rw [Option.bind_none, Option.bind_none]
    | some text =>
      have hblock := length_blockKey blake2s k
      rw [Option.bind_some, Option.bind_some]
      rw [xorBlock_eq_map _ hblock, xorBlock_eq_map _ (by rw [List.length_map, hblock]), List.map_map]
      simp only [Function.comp_def, xor_pads]
      rfl

/-! ### `kdf` -/

variable {dst : Pointer} {len k n : Nat} {c : UInt8} {output secret bs : Bytes}

theorem read_output (h : k + n ≤ output.length) :
    (m.enter [output, secret]).read (some ⟨m.objects.length, k⟩) n = some ((output.drop k).take n) :=
  read_local m (i := 0) rfl h

theorem write_output (hbs : bs ≠ []) (h : k + bs.length ≤ output.length) :
    (m.enter [output, secret]).write (some ⟨m.objects.length, k⟩) bs = some (m.enter [overwrite output k bs, secret]) :=
  write_local m (i := 0) rfl hbs h

theorem read_secret (hs : secret.length = blake2sHashSize) :
    (m.enter [output, secret]).read (some ⟨m.objects.length + 1, 0⟩) blake2sHashSize = some secret := by
  rw [read_local m rfl (by omega), List.drop_zero, List.take_of_length_le (Nat.le_of_eq hs)]

theorem write_secret (hs : secret.length = blake2sHashSize) (hbs : bs.length = blake2sHashSize) :
    (m.enter [output, secret]).write (some ⟨m.objects.length + 1, 0⟩) bs = some (m.enter [output, bs]) := by
  have hne : bs ≠ [] := List.ne_nil_of_length_pos (by rw [hbs]; decide)
  rw [write_local m rfl hne (by omega), overwrite_zero, List.drop_of_length_le (by omega),
    List.append_nil]
  rfl

variable (blake2s)
variable {prk : Bytes} {i : Nat} {rs : List (Pointer × Nat)}

/-- One step: HMAC of the front of `output` and the byte behind it, in the same array, and its first
bytes to the destination. -/
theorem expandInto_eq (ho : output.length = blake2sHashSize + 1)
    (hs : secret.length = blake2sHashSize) (hk : k ≤ blake2sHashSize)
    (hlen : len ≤ blake2sHashSize) (hdst : m.Outer dst) :
    ∃ b, expandInto blake2s (m.enter [output, secret]) m.objects.length k c (k + 1) dst len =
      (m.write dst ((Hkdf.hmac (blake2sBytes blake2s) blake2sBlockSize secret (output.take k ++ [c])).take len)).map
        (·.enter [Hkdf.hmac (blake2sBytes blake2s) blake2sBlockSize secret (output.take k ++ [c]) ++ [b], secret]) := by
  set key := Hkdf.hmac (blake2sBytes blake2s) blake2sBlockSize secret (output.take k ++ [c]) with hkey
  have hkeylen : key.length = blake2sHashSize := length_hmac ..
  have hne : key ≠ [] := List.ne_nil_of_length_pos (by rw [hkeylen]; decide)
  have hfits : k + [c].length ≤ output.length := by
    rw [ho, List.length_singleton]
    omega
  have ho₁ : (overwrite output k [c]).length = blake2sHashSize + 1 := by rw [length_overwrite hfits, ho]
  -- the byte behind the hash stays what the step before has left there
  obtain ⟨b, hb⟩ : ∃ b, (overwrite output k [c]).drop blake2sHashSize = [b] := by
    rw [← List.length_eq_one_iff, List.length_drop, ho₁, Nat.add_sub_cancel_left]
  have htake : (overwrite output k [c]).take (k + [c].length) = output.take k ++ [c] := take_overwrite (by omega)
  have htext : (m.enter [overwrite output k [c], secret]).read (some ⟨m.objects.length, 0⟩) (k + 1) =
      some (output.take k ++ [c]) := by
    rw [read_output (by rw [ho₁]; omega), List.drop_zero]
    exact congrArg some htake
  have hout : (m.enter [overwrite output k [c], secret]).write (some ⟨m.objects.length, 0⟩) key =
      some (m.enter [key ++ [b], secret]) := by
    rw [write_output hne (by rw [hkeylen, ho₁]; omega), overwrite_zero, hkeylen, hb]
  have hread : (m.enter [key ++ [b], secret]).read (some ⟨m.objects.length, 0⟩) len = some (key.take len) := by
    rw [read_output (by rw [List.length_append, hkeylen]; omega), List.drop_zero,
      List.take_append_of_le_length (by omega)]
  refine ⟨b, ?_⟩
  simp only [expandInto, Option.bind_eq_bind, write_output (List.cons_ne_nil c []) hfits, Option.bind_some, hmac_eq,
    read_secret hs, htext, hout, memcpy, hread, ← hkey]
  exact write_enter hdst _

theorem length_writeOutputs (h : writeOutputs blake2s prk m i rs = some m') :
    m'.objects.length = m.objects.length := by
  induction rs generalizing m i with
  | nil =>
    cases h
    rfl
  | cons r rs ih =>
    obtain ⟨m₁, hw, hrest⟩ := Option.bind_eq_some_iff.mp h
    rw [ih hrest, length_write hw]

/-- Where the destination number `i + 1` is written and `next` writes the ones after it, all of them
are written. -/
theorem expandInto_bind {next : ByteMemory → Option ByteMemory}
    (ho : output.length = blake2sHashSize + 1) (hs : prk.length = blake2sHashSize) (hk : k ≤ blake2sHashSize)
    (hlen : len ≤ blake2sHashSize) (hdst : m.Outer dst)
    (htext : output.take k ++ [c] = Hkdf.expand (blake2sBytes blake2s) blake2sBlockSize prk [] i ++
      [] ++ [UInt8.ofNat (i + 1)])
    (hnext : ∀ m' b, m'.objects.length = m.objects.length → ∃ output', output'.length = blake2sHashSize + 1 ∧
      next (m'.enter [Hkdf.expand (blake2sBytes blake2s) blake2sBlockSize prk [] (i + 1) ++ [b], prk]) =
        (writeOutputs blake2s prk m' (i + 2) rs).map (·.enter [output', prk])) :
    ∃ output', output'.length = blake2sHashSize + 1 ∧
      (expandInto blake2s (m.enter [output, prk]) m.objects.length k c (k + 1) dst len).bind next =
        (writeOutputs blake2s prk m (i + 1) ((dst, len) :: rs)).map (·.enter [output', prk]) := by
  obtain ⟨b, hstep⟩ := expandInto_eq blake2s (c := c) ho hs hk hlen hdst
  rw [htext, ← Hkdf.expand_succ] at hstep
  rw [hstep, writeOutputs, Option.bind_eq_bind]
  cases hw : m.write dst ((Hkdf.expand (blake2sBytes blake2s) blake2sBlockSize prk [] (i + 1)).take len) with
  | none => exact ⟨output, ho, rfl⟩
  | some m' =>
    obtain ⟨output', hlen', hrest⟩ := hnext m' b (length_write hw)
    exact ⟨output', hlen', hrest⟩

theorem length_output (prk : Bytes) (i : Nat) (b : UInt8) :
    (Hkdf.expand (blake2sBytes blake2s) blake2sBlockSize prk [] (i + 1) ++ [b]).length = blake2sHashSize + 1 := by
  rw [List.length_append, Hkdf.expand_succ, length_hmac, List.length_singleton]

/-- Each step after the first: it starts from the output of the one before. -/
theorem expandNext_bind {frame : Nat} {b : UInt8} {next : ByteMemory → Option ByteMemory}
    (hframe : m.objects.length = frame) (hs : prk.length = blake2sHashSize) (hlen : len ≤ blake2sHashSize)
    (hdst : ∀ a, dst = some a → a.object < frame) (hc : c = UInt8.ofNat (i + 2))
    (hnext : ∀ m' b, m'.objects.length = frame → ∃ output', output'.length = blake2sHashSize + 1 ∧
      next (m'.enter [Hkdf.expand (blake2sBytes blake2s) blake2sBlockSize prk [] (i + 2) ++ [b], prk]) =
        (writeOutputs blake2s prk m' (i + 3) rs).map (·.enter [output', prk])) :
    ∃ output', output'.length = blake2sHashSize + 1 ∧
      (expandInto blake2s (m.enter [Hkdf.expand (blake2sBytes blake2s) blake2sBlockSize prk []
        (i + 1) ++ [b], prk]) frame
        blake2sHashSize c (blake2sHashSize + 1) dst len).bind next =
        (writeOutputs blake2s prk m (i + 2) ((dst, len) :: rs)).map (·.enter [output', prk]) := by
  subst hframe hc
  have hlast : (Hkdf.expand (blake2sBytes blake2s) blake2sBlockSize prk [] (i + 1)).length =
    blake2sHashSize := length_hmac ..
  refine expandInto_bind blake2s (length_output blake2s ..) hs (Nat.le_refl _) hlen hdst ?_ hnext
  rw [← hlast, List.take_left, List.append_nil]

theorem expandKeys_eq {firstDst secondDst thirdDst : Pointer} {firstLen secondLen thirdLen : Nat}
    (ho : output.length = blake2sHashSize + 1) (hs : prk.length = blake2sHashSize)
    (hfirst : m.Outer firstDst) (hsecond : m.Outer secondDst) (hthird : m.Outer thirdDst)
    (hlen₁ : firstLen ≤ blake2sHashSize) (hlen₂ : secondLen ≤ blake2sHashSize) (hlen₃ : thirdLen ≤ blake2sHashSize) :
    ∃ output', output'.length = blake2sHashSize + 1 ∧
      expandKeys blake2s (m.enter [output, prk]) m.objects.length firstDst secondDst thirdDst
        firstLen secondLen thirdLen =
        (writeOutputs blake2s prk m 1 (requested [(firstDst, firstLen), (secondDst, secondLen),
          (thirdDst, thirdLen)])).map
          (·.enter [output', prk]) := by
  rw [expandKeys, requested]
  by_cases h₁ : firstDst = none ∨ firstLen = 0
  · rw [if_pos h₁, if_pos h₁]
    exact ⟨output, ho, rfl⟩
  rw [if_neg h₁, if_neg h₁]
  refine expandInto_bind blake2s ho hs (Nat.zero_le _) hlen₁ hfirst rfl fun m₁ b₁ hm₁ => ?_
  rw [requested]
  by_cases h₂ : secondDst = none ∨ secondLen = 0
  · rw [if_pos h₂, if_pos h₂]
    exact ⟨_, length_output blake2s .., rfl⟩
  rw [if_neg h₂, if_neg h₂]
  refine expandNext_bind blake2s hm₁ hs hlen₂ hsecond rfl fun m₂ b₂ hm₂ => ?_
  rw [requested]
  by_cases h₃ : thirdDst = none ∨ thirdLen = 0
  · rw [if_pos h₃, if_pos h₃]
    exact ⟨_, length_output blake2s .., rfl⟩
  rw [if_neg h₃, if_neg h₃, ← Option.bind_fun_some (expandInto ..)]
  exact expandNext_bind blake2s hm₂ hs hlen₃ hthird rfl fun m₃ b₃ _ => ⟨_, length_output blake2s .., rfl⟩

theorem wipe_eq (ho : output.length = blake2sHashSize + 1) (hs : secret.length = blake2sHashSize) :
    ((m.enter [output, secret]).write (some ⟨m.objects.length + 1, 0⟩)
      (List.replicate blake2sHashSize 0)).bind (fun m' =>
      (m'.write (some ⟨m.objects.length, 0⟩) (List.replicate (blake2sHashSize + 1) 0)).bind fun m' =>
        some (m'.leave m.objects.length)) = some m := by
  rw [write_secret hs (List.length_replicate ..), Option.bind_some, write_output (by simp)
    (by simp [ho]), Option.bind_some,
    leave_enter]

/-- `kdf` reads the chaining key and the data, and then writes the outputs that are asked for. -/
theorem kdf_eq {firstDst secondDst thirdDst data chainingKey : Pointer}
    {firstLen secondLen thirdLen : Nat} (dataLen : Nat)
    (output : Vector UInt8 (blake2sHashSize + 1)) (secret : Vector UInt8 blake2sHashSize)
    (hfirst : m.Outer firstDst) (hsecond : m.Outer secondDst) (hthird : m.Outer thirdDst)
    (hdata : m.Outer data) (hck : m.Outer chainingKey)
    (hlen₁ : firstLen ≤ blake2sHashSize) (hlen₂ : secondLen ≤ blake2sHashSize) (hlen₃ : thirdLen ≤ blake2sHashSize) :
    kdf blake2s m firstDst secondDst thirdDst data firstLen secondLen thirdLen dataLen chainingKey output secret =
      (m.read chainingKey noiseHashLen).bind fun salt => (m.read data dataLen).bind fun ikm =>
        writeOutputs blake2s (Hkdf.extract (blake2sBytes blake2s) blake2sBlockSize salt ikm) m 1
          (requested [(firstDst, firstLen), (secondDst, secondLen), (thirdDst, thirdLen)]) := by
  simp only [kdf, hmac_eq, read_enter hck, read_enter hdata, Option.bind_eq_bind]
  cases m.read chainingKey noiseHashLen with
  | none => rfl
  | some salt =>
    cases m.read data dataLen with
    | none => rfl
    | some ikm =>
      have hprk : (Hkdf.extract (blake2sBytes blake2s) blake2sBlockSize salt ikm).length =
        blake2sHashSize := length_hmac ..
      obtain ⟨output', ho', hexpand⟩ := expandKeys_eq blake2s (output.length_toList) hprk hfirst
        hsecond hthird hlen₁ hlen₂ hlen₃
      rw [Option.bind_some, Option.bind_some, Option.bind_some, Option.bind_some, ← Hkdf.extract,
        write_secret secret.length_toList hprk, Option.bind_some, hexpand]
      cases hw : writeOutputs blake2s (Hkdf.extract (blake2sBytes blake2s) blake2sBlockSize salt ikm) m 1
          (requested [(firstDst, firstLen), (secondDst, secondLen), (thirdDst, thirdLen)]) with
      | none => rfl
      | some m' =>
        rw [Option.map_some, Option.bind_some, ← length_writeOutputs blake2s hw]
        exact wipe_eq ho' hprk

/-- For every key and data length `hmac` is HMAC and `kdf` is HKDF with an empty `info` and the
chaining key as the salt, of what was in the buffers before the call. The pointers of a caller are
not to the arrays of the callee, and no output is asked for beyond its end; otherwise they may
overlap in any way. -/
theorem computes_hkdf (m : ByteMemory) :
    (∀ (out input key : Pointer) (inlen keylen : Nat),
      hmac blake2s m out input key inlen keylen = (m.read key keylen).bind fun k =>
        (m.read input inlen).bind fun text =>
        m.write out (Hkdf.hmac (blake2sBytes blake2s) blake2sBlockSize k text)) ∧
    ∀ (firstDst secondDst thirdDst data : Pointer) (firstLen secondLen thirdLen dataLen : Nat) (chainingKey : Pointer)
      (output : Vector UInt8 (blake2sHashSize + 1)) (secret : Vector UInt8 blake2sHashSize),
      (∀ p ∈ [firstDst, secondDst, thirdDst, data, chainingKey], m.Outer p) →
      (∀ len ∈ [firstLen, secondLen, thirdLen], len ≤ blake2sHashSize) →
      kdf blake2s m firstDst secondDst thirdDst data firstLen secondLen thirdLen dataLen chainingKey output secret =
        (m.read chainingKey noiseHashLen).bind fun salt => (m.read data dataLen).bind fun ikm =>
          writeOutputs blake2s (Hkdf.extract (blake2sBytes blake2s) blake2sBlockSize salt ikm) m 1
            (requested [(firstDst, firstLen), (secondDst, secondLen), (thirdDst, thirdLen)]) := by
  refine ⟨hmac_eq m, fun firstDst secondDst thirdDst data firstLen secondLen thirdLen dataLen
    chainingKey output secret hp hlen => ?_⟩
  exact kdf_eq blake2s dataLen output secret (hp _ (by simp)) (hp _ (by simp)) (hp _ (by simp))
    (hp _ (by simp)) (hp _ (by simp))
    (hlen _ (by simp)) (hlen _ (by simp)) (hlen _ (by simp))

/-- One object, which is the chaining key and the first destination; there are no data and no other
destinations. -/
def sampleKeyMemory : ByteMemory := ⟨[List.replicate 32 7]⟩

theorem computes_hkdf_chainingKey :
    (∀ p ∈ ([some ⟨0, 0⟩, none, none, none, some ⟨0, 0⟩] : List Pointer), sampleKeyMemory.Outer p) ∧
      (kdf (fun _ => .replicate blake2sHashSize 9) sampleKeyMemory (some ⟨0, 0⟩) none none none 32 0 0 0 (some ⟨0, 0⟩)
        (.replicate _ 0) (.replicate _ 0)).map ByteMemory.objects = some [List.replicate 32 9] := by
  have houter : ∀ p ∈ ([some ⟨0, 0⟩, none, none, none, some ⟨0, 0⟩] : List Pointer), sampleKeyMemory.Outer p := by
    simp [Outer, sampleKeyMemory]
  refine ⟨houter, ?_⟩
  rw [(computes_hkdf _ sampleKeyMemory).2 _ _ _ _ _ _ _ _ _ _ _ houter (by simp [blake2sHashSize])]
  rfl

/-! ### The handshake's callers -/

theorem hmac_eq_hmac (C : Crypto) (input key : Bytes) :
    WireguardAes.hmac C input key = Hkdf.hmac C.blake2s blake2sBlockSize key input := by
  unfold WireguardAes.hmac Hkdf.hmac
  simp only [List.map_map, Function.comp_def, xor_pads]
  rfl

theorem kdf_eq_expand (C : Crypto) (data chainingKey : Bytes) :
    WireguardAes.kdf C data chainingKey =
      ⟨Hkdf.expand C.blake2s blake2sBlockSize (Hkdf.extract C.blake2s blake2sBlockSize chainingKey data) [] 1,
        Hkdf.expand C.blake2s blake2sBlockSize (Hkdf.extract C.blake2s blake2sBlockSize chainingKey data) [] 2,
        Hkdf.expand C.blake2s blake2sBlockSize (Hkdf.extract C.blake2s blake2sBlockSize chainingKey data) [] 3⟩ := by
  simp only [WireguardAes.kdf, hmac_eq_hmac, Hkdf.expand, Hkdf.extract, List.append_nil, List.nil_append]
  rfl

theorem not_skipped {old : Bytes} (h : m.read dst len = some old) (hlen : len ≠ 0) : ¬ (dst = none ∨ len = 0) := by
  rintro (hnull | hzero)
  · exact ne_none_of_read h hlen hnull
  · exact hlen hzero

/-- A whole output goes to a buffer of its length, and nowhere else. -/
theorem write_expand (prk : Bytes) (i : Nat) {old : Bytes} (h : m.read dst blake2sHashSize = some old) :
    ∃ m', m.write dst ((Hkdf.expand (blake2sBytes blake2s) blake2sBlockSize prk [] (i + 1)).take
      blake2sHashSize) = some m' ∧
      m'.read dst blake2sHashSize = some (Hkdf.expand (blake2sBytes blake2s) blake2sBlockSize prk [] (i + 1)) ∧
      ∀ q k, Separate dst blake2sHashSize q k → m'.read q k = m.read q k := by
  have hlen : (Hkdf.expand (blake2sBytes blake2s) blake2sBlockSize prk [] (i + 1)).length =
    blake2sHashSize := length_hmac ..
  rw [List.take_of_length_le (Nat.le_of_eq hlen)]
  rw [← hlen] at h ⊢
  obtain ⟨m', hm'⟩ := write_of_read h
  exact ⟨m', hm', read_write_self hm', fun q k hq => read_write_of_separate hm' hq⟩

/-- `mix_dh` and `mix_precomputed_dh` update the chaining key in place, and write the message key
unless `key` is null. -/
theorem mixKey_in_place {C : Crypto} (hC : C.blake2s = blake2sBytes blake2s)
    {chainingKey key dh : Pointer} {ck d : Bytes}
    (output : Vector UInt8 (blake2sHashSize + 1)) (secret : Vector UInt8 blake2sHashSize)
    (hck : m.read chainingKey noiseHashLen = some ck) (hd : m.read dh noisePublicKeyLen = some d)
    (hkey : key = none ∨ ∃ old, m.read key noiseSymmetricKeyLen = some old)
    (hsep : Separate key noiseSymmetricKeyLen chainingKey noiseHashLen) :
    ∃ m', kdf blake2s m chainingKey key none dh noiseHashLen noiseSymmetricKeyLen 0
        noisePublicKeyLen chainingKey output secret =
        some m' ∧ m'.read chainingKey noiseHashLen = some (mixKey C ck d).1 ∧
      (key ≠ none → m'.read key noiseSymmetricKeyLen = some (mixKey C ck d).2) := by
  have houter : m.Outer chainingKey := outer_of_read hck (by decide)
  have hkeyOuter : m.Outer key := by
    rcases hkey with rfl | ⟨old, hold⟩
    · intro a ha
      cases ha
    · exact outer_of_read hold (by decide)
  have hnull : m.Outer none := by
    intro a ha
    cases ha
  have hlen₁ : noiseHashLen ≤ blake2sHashSize := Nat.le_refl _
  have hlen₂ : noiseSymmetricKeyLen ≤ blake2sHashSize := Nat.le_refl _
  rw [kdf_eq blake2s noisePublicKeyLen output secret houter hkeyOuter hnull
    (outer_of_read hd (by decide)) houter hlen₁ hlen₂
    (Nat.zero_le _), hck, hd, Option.bind_some, Option.bind_some, mixKey, kdf_eq_expand, hC]
  dsimp only
  generalize Hkdf.extract (blake2sBytes blake2s) blake2sBlockSize ck d = prk
  obtain ⟨m₁, hm₁, hread₁, hframe₁⟩ := write_expand blake2s prk 0 hck
  have hfirst : writeOutputs blake2s prk m 1 (requested [(chainingKey, noiseHashLen),
    (key, noiseSymmetricKeyLen), (none, 0)]) =
      writeOutputs blake2s prk m₁ 2 (requested [(key, noiseSymmetricKeyLen), (none, 0)]) := by
    rw [requested, if_neg (not_skipped hck (by decide)), writeOutputs]
    exact congrArg (Option.bind · _) hm₁
  rw [hfirst, requested]
  rcases hkey with rfl | ⟨old, hold⟩
  · rw [if_pos (.inl rfl)]
    exact ⟨m₁, rfl, hread₁, fun h => absurd rfl h⟩
  · have hold₁ := (hframe₁ key noiseSymmetricKeyLen hsep.symm).trans hold
    obtain ⟨m₂, hm₂, hread₂, hframe₂⟩ := write_expand blake2s prk 1 hold₁
    rw [if_neg (not_skipped hold (by decide)), writeOutputs, requested, if_pos (.inl rfl)]
    exact ⟨m₂, congrArg (Option.bind · _) hm₂, (hframe₂ chainingKey noiseHashLen hsep).trans hread₁, fun _ => hread₂⟩

end InPlace
end WireguardAes
