import WireguardAes.HandshakeCalls

/-!
# The order of the accepted initiations

`consume_initiation` decides under the read lock whether an initiation is a replay or comes too
soon, and takes the write lock later to write it. `latest_timestamp` and
`last_initiation_consumption` are written in that second section only, so a decision stands as long
as no other initiation has been written since.
-/

namespace WireguardAes

open Runs

/-! ### Timestamps and the clock -/

theorem memcmp_gt_trans : ∀ {a b c : Bytes}, memcmp a b = .gt → memcmp b c = .gt → memcmp a c = .gt
  | [], _, _, h, _ => by simp [memcmp] at h
  | _ :: _, [], _, h, _ => by simp [memcmp] at h
  | _ :: _, _ :: _, [], _, h => by simp [memcmp] at h
  | x :: a, y :: b, z :: c, hab, hbc => by
    unfold memcmp at hab hbc ⊢
    simp only [UInt8.lt_iff_toNat_lt] at hab hbc ⊢
    split_ifs at hab hbc ⊢ <;> first | rfl | omega | exact memcmp_gt_trans hab hbc

theorem memcmp_self_ne_gt : ∀ a : Bytes, memcmp a a ≠ .gt
  | [] => by decide
  | x :: a => by
    unfold memcmp
    simpa using memcmp_self_ne_gt a

theorem floodAttack_eq_false_iff {h : NoiseHandshake} {now : U64}
    (hlast : h.lastInitiationConsumption.toNat + initiationInterval < 2 ^ 63) (hnow : now.toNat < 2 ^ 63) :
    floodAttack h now = false ↔ h.lastInitiationConsumption.toNat + initiationInterval ≤ now.toNat := by
  have hadd : (h.lastInitiationConsumption + BitVec.ofNat 64 initiationInterval).toNat =
      h.lastInitiationConsumption.toNat + initiationInterval := by
    rw [BitVec.toNat_add, BitVec.toNat_ofNat]
    omega
  change now.slt (h.lastInitiationConsumption + BitVec.ofNat 64 initiationInterval) = false ↔ _
  rw [BitVec.slt_eq_decide, BitVec.toInt_eq_toNat_of_lt (by omega), BitVec.toInt_eq_toNat_of_lt (by omega), hadd]
  simp only [decide_eq_false_iff_not]
  omega

theorem writeInitiation_consumption (h : NoiseHandshake) (src : MessageHandshakeInitiation) (t ck hash : Bytes)
    {now : U64} (hle : h.lastInitiationConsumption.toNat ≤ now.toNat) (hnow : now.toNat < 2 ^ 63) :
    (writeInitiation h src t ck hash now).lastInitiationConsumption = now := by
  simp only [writeInitiation]
  split_ifs with hslt
  · rfl
  · apply BitVec.eq_of_toNat_eq
    by_contra hne
    apply hslt
    have hzero : (0 : U64).toInt = 0 := rfl
    rw [BitVec.slt_eq_decide, hzero, BitVec.toInt_eq_toNat_cond, BitVec.toNat_sub, decide_eq_true_eq]
    split <;> omega

/-- The timestamp `consume_initiation` finds in a message. -/
def initiationTimestamp (C : Crypto) (identity : NoiseStaticIdentity) (h : NoiseHandshake)
    (src : MessageHandshakeInitiation) : Option Bytes :=
  (openStatic C identity src).bind fun (_, chainingKey, hash) =>
    (openTimestamp C h src chainingKey hash).map Prod.fst

theorem initiationTimestamp_eq {C : Crypto} {identity : NoiseStaticIdentity} {h₀ h : NoiseHandshake}
    (hc : SameConfig h₀ h) {src : MessageHandshakeInitiation} {pub t ck ck' hash hash' : Bytes}
    (hs : openStatic C identity src = some (pub, ck, hash))
    (ht : openTimestamp C h src ck hash = some (t, ck', hash')) :
    initiationTimestamp C identity h₀ src = some t := by
  unfold openTimestamp at ht
  rw [hc.precomputed] at ht
  unfold initiationTimestamp
  rw [hs]
  exact Option.map_eq_some_iff.mpr ⟨_, ht, rfl⟩

/-! ### The condition and the invariant -/

def CallEvent.writesInitiation : CallEvent → Option Nat
  | .writeInitiation w _ => some w
  | _ => none

def HandshakeCall.checkedAfter : HandshakeCall → Option Nat
  | .checked _ _ _ _ n => some n
  | _ => none

/-- Later, by its timestamp and by the clock. -/
def AcceptedInitiation.After (x y : AcceptedInitiation) : Prop :=
  memcmp x.t y.t = .gt ∧ y.time.toNat + initiationInterval ≤ x.time.toNat

namespace HandshakeCalls

/-- No other initiation has been written since the one that is about to be written was checked. -/
def NotOvertaken (s : HandshakeCalls) (ev : CallEvent) : Prop :=
  ∀ w ∈ ev.writesInitiation, ∀ n ∈ (s.call w).checkedAfter, s.accepted.length = n

instance (s : HandshakeCalls) (ev : CallEvent) : Decidable (s.NotOvertaken ev) :=
  inferInstanceAs (Decidable (∀ w ∈ ev.writesInitiation, ∀ n ∈ (s.call w).checkedAfter, _ = n))

section
variable (C : Crypto) (identity : NoiseStaticIdentity) (h₀ : NoiseHandshake)

/-- The decision that has been made for a checked initiation stands until another one is
accepted. -/
def CheckStands (s : HandshakeCalls) : HandshakeCall → Prop
  | .checked src t _ _ n =>
    initiationTimestamp C identity h₀ src = some t ∧ n ≤ s.accepted.length ∧
      (s.accepted.length = n → memcmp t s.hs.latestTimestamp = .gt ∧
        s.hs.lastInitiationConsumption.toNat + initiationInterval ≤ s.clock.toNat)
  | _ => True

structure InOrder (s : HandshakeCalls) : Prop where
  config : SameConfig h₀ s.hs
  consumption : s.hs.lastInitiationConsumption.toNat ≤ s.clock.toNat
  clock : s.clock.toNat + initiationInterval < 2 ^ 63
  latest : ∀ x ∈ s.accepted.head?, s.hs.latestTimestamp = x.t ∧ s.hs.lastInitiationConsumption = x.time
  stamps : ∀ x ∈ s.accepted, initiationTimestamp C identity h₀ x.src = some x.t
  ordered : s.accepted.Pairwise AcceptedInitiation.After
  calls : ∀ w, CheckStands C identity h₀ s (s.call w)

end

variable {C : Crypto} {identity : NoiseStaticIdentity} {isChacha : Bool} {h₀ : NoiseHandshake}
variable {s s' : HandshakeCalls} {ev : CallEvent}

theorem CheckStands.mono {x : HandshakeCall} (h : CheckStands C identity h₀ s x) (hr : SameRecord s.hs s'.hs)
    (ha : s'.accepted = s.accepted) (hc : s.clock.toNat ≤ s'.clock.toNat) : CheckStands C identity h₀ s' x := by
  cases x with
  | checked src t ck hash n =>
    obtain ⟨hstamp, hn, h⟩ := h
    refine ⟨hstamp, by rw [ha]; exact hn, fun hlen => ?_⟩
    rw [hr.timestamp, hr.consumption]
    obtain ⟨hgt, hle⟩ := h (by rw [← ha]; exact hlen)
    exact ⟨hgt, Nat.le_trans hle hc⟩
  | _ => trivial

namespace InOrder

theorem init (h : h₀.lastInitiationConsumption = 0) : InOrder C identity h₀ (HandshakeCalls.init h₀) where
  config := ⟨rfl, rfl, rfl⟩
  consumption := by rw [show (HandshakeCalls.init h₀).hs.lastInitiationConsumption = 0 from h]; exact Nat.zero_le _
  clock := show 0 + initiationInterval < 2 ^ 63 by decide
  latest := by rintro _ ⟨⟩
  stamps := List.forall_mem_nil _
  ordered := .nil
  calls _ := trivial

theorem frame (h : InOrder C identity h₀ s) (hr : SameRecord s.hs s'.hs) (ha : s'.accepted = s.accepted)
    (hc : s.clock.toNat ≤ s'.clock.toNat) (hc' : s'.clock.toNat + initiationInterval < 2 ^ 63)
    (hcalls : ∀ w, CheckStands C identity h₀ s' (s'.call w)) : InOrder C identity h₀ s' where
  config := h.config.trans hr.toSameConfig
  consumption := by rw [hr.consumption]; exact Nat.le_trans h.consumption hc
  clock := hc'
  latest := by rw [ha, hr.timestamp, hr.consumption]; exact h.latest
  stamps := by rw [ha]; exact h.stamps
  ordered := by rw [ha]; exact h.ordered
  calls := hcalls

theorem goto (h : InOrder C identity h₀ s) (w : Nat) {x : HandshakeCall} (hx : x.checkedAfter = none) :
    InOrder C identity h₀ (s.goto w x) := by
  refine h.frame (.refl _) rfl (Nat.le_refl _) h.clock (forall_goto (s := s) h.calls w ?_)
  cases x with
  | checked => cases hx
  | _ => trivial

theorem sameRecord (h : InOrder C identity h₀ s) (hr : SameRecord s.hs s'.hs) (ha : s'.accepted = s.accepted)
    (hc : s'.clock = s.clock) (hcall : s'.call = s.call) : InOrder C identity h₀ s' := by
  have hle : s.clock.toNat ≤ s'.clock.toNat := Nat.le_of_eq (congrArg _ hc.symm)
  refine h.frame hr ha hle (by rw [hc]; exact h.clock) fun w => ?_
  rw [hcall]
  exact (h.calls w).mono hr ha hle

theorem checkInitiation (h : InOrder C identity h₀ s) {w : Nat} {src : MessageHandshakeInitiation} {now : U64}
    {t ck ck' hash hash' : Bytes} (hclock : s.ClockOk now)
    (hs : openStatic C identity src = some (s.hs.remoteStatic, ck, hash))
    (ht : openTimestamp C s.hs src ck hash = some (t, ck', hash')) (hreplay : replayAttack s.hs t = false)
    (hflood : floodAttack s.hs now = false) :
    InOrder C identity h₀ { s.goto w (.checked src t ck' hash' s.accepted.length) with clock := now } := by
  have hc := h.clock
  have hle := h.consumption
  have hgt : memcmp t s.hs.latestTimestamp = .gt := by simpa [replayAttack] using hreplay
  have hfl := (floodAttack_eq_false_iff (by omega) (by have := hclock.2; omega)).mp hflood
  refine h.frame (.refl _) rfl hclock.1 hclock.2 (forall_goto (s := s) (fun w' => ?_) w ?_)
  · exact (h.calls w').mono (.refl _) rfl hclock.1
  · exact ⟨initiationTimestamp_eq h.config hs ht, Nat.le_refl _, fun _ => ⟨hgt, hfl⟩⟩

theorem writeInitiation (h : InOrder C identity h₀ s) {w n : Nat} {src : MessageHandshakeInitiation} {now : U64}
    {t ck hash : Bytes} (hw : s.call w = .checked src t ck hash n) (hclock : s.ClockOk now)
    (hlen : s.accepted.length = n) :
    InOrder C identity h₀ { s.goto w .respond with
      hs := WireguardAes.writeInitiation s.hs src t ck hash now
      clock := now
      accepted := ⟨src, t, now⟩ :: s.accepted } := by
  have hstands := h.calls w
  rw [hw] at hstands
  obtain ⟨hstamp, -, hstands⟩ := hstands
  obtain ⟨hgt, hle⟩ := hstands hlen
  have hnow := hclock.2
  have hcons : (WireguardAes.writeInitiation s.hs src t ck hash now).lastInitiationConsumption = now :=
    writeInitiation_consumption _ _ _ _ _ (Nat.le_trans h.consumption hclock.1) (by omega)
  have hlatest : (WireguardAes.writeInitiation s.hs src t ck hash now).latestTimestamp = t := if_pos hgt
  refine ⟨h.config.trans ⟨rfl, rfl, rfl⟩, ?_, hnow, ?_, List.forall_mem_cons.mpr ⟨hstamp, h.stamps⟩, ?_, ?_⟩
  · exact Nat.le_of_eq (congrArg BitVec.toNat hcons)
  · rintro _ ⟨⟩
    exact ⟨hlatest, hcons⟩
  · -- the newest accepted initiation is older than this one, and all others are older still
    refine List.pairwise_cons.mpr ⟨?_, h.ordered⟩
    have hclk := hclock.1
    cases hacc : s.accepted with
    | nil => exact List.forall_mem_nil _
    | cons y l =>
      obtain ⟨ht, htime⟩ := h.latest y (by rw [hacc]; rfl)
      rw [ht] at hgt
      rw [htime] at hle
      have hy : AcceptedInitiation.After ⟨src, t, now⟩ y := ⟨hgt, by dsimp only; omega⟩
      have hold := h.ordered
      rw [hacc] at hold
      refine List.forall_mem_cons.mpr ⟨hy, fun z hz => ?_⟩
      obtain ⟨hyz, hyz'⟩ := (List.pairwise_cons.mp hold).1 z hz
      exact ⟨memcmp_gt_trans hgt hyz, by have := hy.2; dsimp only at this ⊢; omega⟩
  · refine forall_goto (s := s) (fun w' => ?_) w trivial
    have hw' := h.calls w'
    cases hx : s.call w' with
    | checked src' t' ck' hash' n' =>
      rw [hx] at hw'
      exact ⟨hw'.1, by rw [List.length_cons]; have := hw'.2.1; omega,
        fun hl => by rw [List.length_cons] at hl; have := hw'.2.1; omega⟩
    | _ => trivial

theorem step (h : InOrder C identity h₀ s) (hok : s.NotOvertaken ev)
    (hs : HandshakeCalls.step C identity isChacha s ev = some s') : InOrder C identity h₀ s' := by
  cases step_cases hs with
  | noIdentity => exact h
  | stopInitiation hr => exact h.sameRecord (SameRecord.createInitiation hr) rfl rfl rfl
  | createInitiation hr => exact h.sameRecord (SameRecord.createInitiation hr) rfl rfl rfl
  | checkInitiation hclock ho ht hreplay hflood => exact h.checkInitiation hclock ho ht hreplay hflood
  | writeInitiation hw hclock => exact h.writeInitiation hw hclock (hok _ rfl _ (by rw [hw]; rfl))
  | stopResponse hr => exact (h.goto _ rfl).sameRecord (SameRecord.createResponse hr) rfl rfl rfl
  | createResponse hr => exact (h.goto _ rfl).sameRecord (SameRecord.createResponse hr) rfl rfl rfl
  | lookupResponse he => exact h.goto _ rfl
  | readResponse hw ho => exact h.goto _ rfl
  | writeResponse hw hst => exact (h.goto _ rfl).sameRecord (.writeResponse ..) rfl rfl rfl
  | dead => exact (h.goto _ rfl).sameRecord (.handshakeZero _) rfl rfl rfl
  | install hk => exact (h.goto _ rfl).sameRecord (.handshakeZero _) rfl rfl rfl
  | endCall => exact h.goto _ rfl
  | handshakeClear => exact h.sameRecord (.handshakeZero _) rfl rfl rfl

end InOrder

/-- If no initiation is written that another one has overtaken since its check, the accepted
initiations have increasing timestamps, keep the minimal interval and are all different. -/
theorem initiations_in_order (C : Crypto) (identity : NoiseStaticIdentity) (isChacha : Bool)
    (peerPublicKey presharedKey : Bytes) (s : HandshakeCalls)
    (hrun : Exec (step C identity isChacha) NotOvertaken
      (init (noiseHandshakeInit C identity peerPublicKey presharedKey)) s) :
    s.accepted.Pairwise (fun later earlier => memcmp later.t earlier.t = .gt ∧
        earlier.time.toNat + nsecPerSec / initiationsPerSecond ≤ later.time.toNat) ∧
      (s.accepted.map (·.src)).Nodup := by
  have h : InOrder C identity (noiseHandshakeInit C identity peerPublicKey presharedKey) s :=
    hrun.inv (InOrder.init rfl) fun _ _ _ hok h hs => h.step hok hs
  refine ⟨h.ordered, List.pairwise_map.mpr (h.ordered.imp_of_mem fun {x y} hx hy hxy hsrc => ?_)⟩
  have hst := (h.stamps x hx).symm.trans ((congrArg _ hsrc).trans (h.stamps y hy))
  have hgt := hxy.1
  rw [Option.some.inj hst] at hgt
  exact memcmp_self_ne_gt _ hgt

/-! ### The race

Two workers check the same message before either of them writes it. -/

def duplicatedInitiation : List CallEvent :=
  [.checkInitiation 0 (plainInitiation 8 1) 1000000000, .checkInitiation 1 (plainInitiation 8 1) 1000000000,
    .writeInitiation 0 1000000000, .writeInitiation 1 1000000000]

/-- Without the condition a message can be accepted twice, and at once. -/
theorem duplicatedInitiation_accepted_twice : ∃ s x y, plainCalls (fun _ _ => True) s ∧ s.accepted = [x, y] ∧
    x.src = y.src ∧ x.t = y.t ∧ x.time = y.time :=
  ⟨_, _, _, .of_foldlM duplicatedInitiation rfl, rfl, rfl, rfl, rfl⟩

def twoInitiations : List CallEvent :=
  [.checkInitiation 0 (plainInitiation 8 1) 1000000000, .writeInitiation 0 1000000000,
    .checkInitiation 1 (plainInitiation 9 2) 1020000000, .writeInitiation 1 1030000000]

theorem initiations_in_order_two : ∃ s, plainCalls NotOvertaken s ∧ s.accepted.length = 2 ∧
    s.accepted.Pairwise (fun later earlier => memcmp later.t earlier.t = .gt ∧
      earlier.time.toNat + nsecPerSec / initiationsPerSecond ≤ later.time.toNat) ∧
    (s.accepted.map (·.src)).Nodup := by
  have hrun : ∃ s, plainCalls NotOvertaken s ∧ s.accepted.length = 2 :=
    Exec.exists_of_foldlM twoInitiations (fun s : HandshakeCalls => s.accepted.length) (by decide +kernel)
  obtain ⟨s, hrun, hlen⟩ := hrun
  exact ⟨s, hrun, hlen, initiations_in_order _ _ _ _ _ s hrun⟩

end HandshakeCalls
end WireguardAes
