import WireguardAes.AeadRequest

/-!
# The size of the AEAD requests (`device.c`, `noise.c`)

`wg_init_aes_percpu` allocates the requests of a device with the size a probe transform asks for,
and frees the probe; `begin_session` allocates the transforms of a keypair when the session begins.
Which registered implementation of `gcm(aes)` a call of `crypto_alloc_aead` gets is an input of that
call; a transform is given by its implementation, which decides how large its context is.
-/

namespace WireguardAes

open Runs

/-- The implementations of the two transforms of a keypair. -/
structure KeypairHandles (A : Type) where
  aeadEnc : Option A
  aeadDec : Option A

variable {A : Type}

def CryptWorker.handle (k : KeypairHandles A) : CryptWorker → Option A
  | .encrypt => k.aeadEnc
  | .decrypt => k.aeadDec

/-- How far the crypto layer has written into a request of `size` bytes. -/
structure RequestWrite where
  size : Nat
  upTo : Nat

structure RequestState (A : Type) where
  isChacha : Bool
  /-- The implementation that `wg_init_aes_percpu` got. -/
  probe : Option A
  /-- The size of the request of each possible CPU. -/
  reqs : List Nat
  keypairs : List (KeypairHandles A)
  writes : List RequestWrite

inductive RequestEvent (A : Type) where
  /-- With what the two calls of `crypto_alloc_aead` return and whether `crypto_aead_setkey`
  succeeds. -/
  | beginSession (enc dec : Option A) (setkeyEnc setkeyDec : Bool)
  /-- A data packet of the `i`-th keypair, on a CPU. -/
  | crypt (w : CryptWorker) (i cpu : Nat)
  /-- `keypair_free_rcu`. -/
  | free (i : Nat)

/-- The handles `begin_session` gives a new keypair; `none` where it goes to `out_free_new`. -/
def sessionHandles (isChacha : Bool) (enc dec : Option A) (setkeyEnc setkeyDec : Bool) :
    Option (KeypairHandles A) :=
  if isChacha then some ⟨none, none⟩
  else if enc.isNone || !setkeyEnc then none
  else if dec.isNone || !setkeyDec then none
  else some ⟨enc, dec⟩

namespace RequestState

section
variable (sizeofAeadRequest : Nat) (cryptoAeadReqsize : A → Nat)

/-- `wg_newlink`, `none` where it fails; `alloc` says whether the requests can be allocated. -/
def newlink (probe : Option A) (alloc : Bool) (cpus : Nat) : Option (RequestState A) :=
  (initAesPercpu probe.isSome alloc).map fun isChacha =>
    { isChacha
      probe
      reqs := probe.elim [] fun tfm => List.replicate cpus (sizeofAeadRequest + cryptoAeadReqsize tfm)
      keypairs := []
      writes := [] }

def step (s : RequestState A) : RequestEvent A → Option (RequestState A)
  | .beginSession enc dec setkeyEnc setkeyDec =>
    (sessionHandles s.isChacha enc dec setkeyEnc setkeyDec).map fun k => { s with keypairs := k :: s.keypairs }
  -- the context of the operation follows the `aead_request`
  | .crypt w i cpu =>
    s.keypairs[i]?.bind fun k => (w.handle k).bind fun tfm => s.reqs[cpu]?.map fun size =>
      { s with writes := ⟨size, sizeofAeadRequest + cryptoAeadReqsize tfm⟩ :: s.writes }
  | .free i => if i < s.keypairs.length then some { s with keypairs := s.keypairs.eraseIdx i } else none

/-- A transform whose context fits into the requests of the device. -/
def FitsTfm (s : RequestState A) (tfm : A) : Prop :=
  ∀ size ∈ s.reqs, sizeofAeadRequest + cryptoAeadReqsize tfm ≤ size

/-- The contexts of the installed keypairs fit, and nothing has been written past a request. -/
structure Fits (s : RequestState A) : Prop where
  handles : ∀ k ∈ s.keypairs, ∀ w : CryptWorker, ∀ tfm ∈ w.handle k, s.FitsTfm sizeofAeadRequest cryptoAeadReqsize tfm
  writes : ∀ x ∈ s.writes, x.upTo ≤ x.size

end

/-- Where `begin_session` allocates transforms, they are of the implementation that the probe was
of. -/
def SameImplementation (s : RequestState A) : RequestEvent A → Prop
  | .beginSession enc dec _ _ => ∀ tfm, enc = some tfm ∨ dec = some tfm → ∀ probe ∈ s.probe, tfm = probe
  | _ => True

variable {sizeofAeadRequest : Nat} {cryptoAeadReqsize : A → Nat} {s s' : RequestState A} {ev : RequestEvent A}

theorem sessionHandles_eq_some {isChacha setkeyEnc setkeyDec : Bool} {enc dec : Option A} {k : KeypairHandles A}
    (h : sessionHandles isChacha enc dec setkeyEnc setkeyDec = some k) (w : CryptWorker) {tfm : A}
    (htfm : w.handle k = some tfm) : isChacha = false ∧ (enc = some tfm ∨ dec = some tfm) := by
  unfold sessionHandles at h
  cases isChacha with
  | true => cases h; cases w <;> cases htfm
  | false =>
  obtain ⟨-, h⟩ := Option.ite_none_left_eq_some.mp h
  obtain ⟨-, h⟩ := Option.ite_none_left_eq_some.mp h
  cases h
  refine ⟨rfl, ?_⟩
  cases w with
  | encrypt => exact .inl htfm
  | decrypt => exact .inr htfm

/-- What the probe has to do with the requests. -/
structure Sized (sizeofAeadRequest : Nat) (cryptoAeadReqsize : A → Nat) (s : RequestState A) : Prop where
  isChacha : s.isChacha = s.probe.isNone
  size : ∀ probe ∈ s.probe, ∀ size ∈ s.reqs, size = sizeofAeadRequest + cryptoAeadReqsize probe

theorem Sized.newlink {probe : Option A} {alloc : Bool} {cpus : Nat}
    (h : newlink sizeofAeadRequest cryptoAeadReqsize probe alloc cpus = some s) :
    s.Sized sizeofAeadRequest cryptoAeadReqsize ∧ s.Fits sizeofAeadRequest cryptoAeadReqsize := by
  obtain ⟨isChacha, hinit, rfl⟩ := Option.map_eq_some_iff.mp h
  refine ⟨⟨?_, ?_⟩, List.forall_mem_nil _, List.forall_mem_nil _⟩
  · unfold initAesPercpu at hinit
    cases probe <;> cases alloc <;> simp_all
  · rintro tfm htfm size hsize
    rw [show probe = some tfm from htfm] at hsize
    exact List.eq_of_mem_replicate hsize

theorem Sized.step (h : s.Sized sizeofAeadRequest cryptoAeadReqsize)
    (hs : s.step sizeofAeadRequest cryptoAeadReqsize ev = some s') : s'.Sized sizeofAeadRequest cryptoAeadReqsize := by
  cases ev with
  | beginSession enc dec setkeyEnc setkeyDec =>
    obtain ⟨k, -, rfl⟩ := Option.map_eq_some_iff.mp hs
    exact ⟨h.isChacha, h.size⟩
  | crypt w i cpu =>
    obtain ⟨k, -, hs⟩ := Option.bind_eq_some_iff.mp hs
    obtain ⟨tfm, -, hs⟩ := Option.bind_eq_some_iff.mp hs
    obtain ⟨size, -, rfl⟩ := Option.map_eq_some_iff.mp hs
    exact ⟨h.isChacha, h.size⟩
  | free i =>
    obtain ⟨-, hs⟩ := Option.ite_none_right_eq_some.mp hs
    cases hs
    exact ⟨h.isChacha, h.size⟩

theorem Fits.step (hsz : s.Sized sizeofAeadRequest cryptoAeadReqsize) (h : s.Fits sizeofAeadRequest cryptoAeadReqsize)
    (hok : s.SameImplementation ev) (hs : s.step sizeofAeadRequest cryptoAeadReqsize ev = some s') :
    s'.Fits sizeofAeadRequest cryptoAeadReqsize := by
  cases ev with
  | beginSession enc dec setkeyEnc setkeyDec =>
    obtain ⟨k, hk, rfl⟩ := Option.map_eq_some_iff.mp hs
    refine ⟨List.forall_mem_cons.mpr ⟨?_, h.handles⟩, h.writes⟩
    intro w tfm htfm size hsize
    obtain ⟨hc, hor⟩ := sessionHandles_eq_some hk w htfm
    -- a device with AES-GCM has had a probe
    obtain ⟨probe, hprobe⟩ : ∃ probe, s.probe = some probe :=
      Option.isSome_iff_exists.mp (by simpa [hc] using hsz.isChacha)
    obtain rfl : tfm = probe := hok tfm hor probe hprobe
    exact (hsz.size tfm hprobe size hsize).ge
  | crypt w i cpu =>
    obtain ⟨k, hk, hs⟩ := Option.bind_eq_some_iff.mp hs
    obtain ⟨tfm, htfm, hs⟩ := Option.bind_eq_some_iff.mp hs
    obtain ⟨size, hsize, rfl⟩ := Option.map_eq_some_iff.mp hs
    refine ⟨h.handles, List.forall_mem_cons.mpr ⟨?_, h.writes⟩⟩
    exact h.handles k (List.mem_of_getElem? hk) w tfm htfm size (List.mem_of_getElem? hsize)
  | free i =>
    obtain ⟨-, hs⟩ := Option.ite_none_right_eq_some.mp hs
    cases hs
    exact ⟨fun k hk => h.handles k (List.mem_of_mem_eraseIdx hk), h.writes⟩

/-- If `begin_session` gets transforms of the implementation that the probe was of, the contexts of
all installed keypairs fit into the requests, at every moment. -/
theorem requests_fit (probe : Option A) (alloc : Bool) (cpus : Nat) (s₀ s : RequestState A)
    (h₀ : newlink sizeofAeadRequest cryptoAeadReqsize probe alloc cpus = some s₀)
    (hrun : Exec (step sizeofAeadRequest cryptoAeadReqsize) SameImplementation s₀ s) :
    s.Fits sizeofAeadRequest cryptoAeadReqsize := by
  have h := hrun.inv
    (I := fun s => s.Sized sizeofAeadRequest cryptoAeadReqsize ∧ s.Fits sizeofAeadRequest cryptoAeadReqsize)
    (Sized.newlink h₀) fun _ _ _ hok h hs => ⟨h.1.step hs, h.2.step h.1 hok hs⟩
  exact h.2

/-! ### Another implementation

After the device has been created, the implementation that `crypto_alloc_aead` prefers becomes one
with a larger context. -/

/-- Two registered implementations of `gcm(aes)`. -/
inductive SampleAead where
  | generic
  | accelerated
deriving DecidableEq

def SampleAead.reqsize : SampleAead → Nat
  | generic => 8
  | accelerated => 24

instance [DecidableEq A] (s : RequestState A) (ev : RequestEvent A) : Decidable (s.SameImplementation ev) :=
  match ev with
  | .beginSession enc dec _ _ =>
    decidable_of_iff (∀ tfm ∈ enc.toList ++ dec.toList, ∀ probe ∈ s.probe, tfm = probe) (by simp [SameImplementation])
  | .crypt _ _ _ => .isTrue trivial
  | .free _ => .isTrue trivial

def otherImplementation : List (RequestEvent SampleAead) :=
  [.beginSession (some .generic) (some .accelerated) true true, .crypt .decrypt 0 0]

/-- The crypto layer writes sixteen bytes past the request. -/
theorem otherImplementation_overruns : ∃ s₀ s, newlink 80 SampleAead.reqsize (some .generic) true 1 = some s₀ ∧
    Exec (step 80 SampleAead.reqsize) (fun _ _ => True) s₀ s ∧ ∃ x ∈ s.writes, x.size = 88 ∧ x.upTo = 104 := by
  refine ⟨_, _, rfl, .of_foldlM otherImplementation rfl, _, List.mem_singleton_self _, rfl, rfl⟩

def sameImplementation : List (RequestEvent SampleAead) :=
  [.beginSession (some .generic) (some .generic) true true, .crypt .encrypt 0 1, .crypt .decrypt 0 0]

theorem requests_fit_same_implementation : ∃ s₀ s,
    newlink 80 SampleAead.reqsize (some .generic) true 2 = some s₀ ∧
    Exec (step 80 SampleAead.reqsize) SameImplementation s₀ s ∧ s.writes.length = 2 ∧ s.Fits 80 SampleAead.reqsize := by
  have hrun : ∃ s, Exec (step 80 SampleAead.reqsize) SameImplementation ⟨false, some .generic, [88, 88], [], []⟩ s ∧
      s.writes.length = 2 :=
    Exec.exists_of_foldlM sameImplementation (fun s : RequestState SampleAead => s.writes.length) (by decide +kernel)
  obtain ⟨s, hrun, hlen⟩ := hrun
  exact ⟨_, s, rfl, hrun, hlen, requests_fit (some .generic) true 2 _ s rfl hrun⟩

end RequestState
end WireguardAes
