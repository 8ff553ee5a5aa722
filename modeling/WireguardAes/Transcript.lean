import WireguardAes.Noise

/-!
# What goes into a chaining key

`chain C data` is the chaining key after the values `data` have been mixed into the initial one, and
`initiationSent`, `initiationRead`, `responseSent` and `responseRead` are the values the four
handshake functions mix, up to the point where they stop.
-/

namespace WireguardAes

section
variable (C : Crypto) (identity : NoiseStaticIdentity)

def chain (data : List Bytes) : Bytes :=
  data.foldl (fun chainingKey d => (kdf C d chainingKey).first) (handshakeInitChainingKey C)

def initiationSent (h : NoiseHandshake) (secret e : Bytes) : List Bytes :=
  e :: match C.curve25519 secret h.remoteStatic with
    | none => []
    | some es => es :: if h.precomputedStaticStatic = zeroPoint then [] else [h.precomputedStaticStatic]

def initiationRead (h : NoiseHandshake) (src : MessageHandshakeInitiation) : List Bytes :=
  [src.unencryptedEphemeral, (C.curve25519 identity.staticPrivate src.unencryptedEphemeral).getD [],
    h.precomputedStaticStatic]

def responseSent (h : NoiseHandshake) (secret e : Bytes) : List Bytes :=
  e :: match C.curve25519 secret h.remoteEphemeral with
    | none => []
    | some ee => ee :: match C.curve25519 secret h.remoteStatic with
      | none => []
      | some se => [se, h.presharedKey]

def responseRead (h : NoiseHandshake) (src : MessageHandshakeResponse) : List Bytes :=
  let e := src.unencryptedEphemeral
  [e, (C.curve25519 h.ephemeralPrivate e).getD [], (C.curve25519 identity.staticPrivate e).getD [],
    h.presharedKey]

end

variable {C : Crypto} {identity : NoiseStaticIdentity} {h : NoiseHandshake} {D : List Bytes}
variable {ck hash : Bytes}

theorem chain_append (D D' : List Bytes) :
    chain C (D ++ D') = D'.foldl (fun chainingKey d => (kdf C d chainingKey).first) (chain C D) :=
  List.foldl_append

/-- The parts of a handshake that only its configuration sets. -/
structure SameConfig (h h' : NoiseHandshake) : Prop where
  remoteStatic : h'.remoteStatic = h.remoteStatic
  precomputed : h'.precomputedStaticStatic = h.precomputedStaticStatic
  psk : h'.presharedKey = h.presharedKey

theorem SameConfig.trans {h h' h'' : NoiseHandshake} (h1 : SameConfig h h') (h2 : SameConfig h' h'') :
    SameConfig h h'' :=
  ⟨h2.1.trans h1.1, h2.2.trans h1.2, h2.3.trans h1.3⟩

/-- `createInitiation` either gets through or keeps the state, with at most `e` and `es` mixed
in. -/
theorem createInitiation_spec (h : NoiseHandshake) {secret e : Bytes} (timestamp : Bytes) (index : U32)
    (hid : identity.hasIdentity = true) (he : C.curve25519GeneratePublic secret = some e) :
    let r := createInitiation C identity h secret timestamp index
    let data := initiationSent C h secret e
    r.1.chainingKey = chain C data ∧ r.1.ephemeralPrivate = secret ∧ SameConfig h r.1 ∧
      ((r.1.state = h.state ∧ r.2 = none ∧ data.length ≤ 2) ∨
        (r.1.state = .createdInitiation ∧ r.2.isSome ∧ data.length = 3 ∧
          data[1]? = C.curve25519 secret h.remoteStatic)) := by
  intro r data
  cases hes : C.curve25519 secret h.remoteStatic with
  | none =>
    have hr : r = createInitiation C identity h secret timestamp index := rfl
    simp only [createInitiation, hid, he, mixDh, hes, Bool.not_true, Bool.false_eq_true, if_false,
      Option.map_none] at hr
    have hd : data = [e] := by simp only [data, initiationSent, hes]
    rw [hr, hd]
    exact ⟨rfl, rfl, ⟨rfl, rfl, rfl⟩, .inl ⟨rfl, rfl, by simp⟩⟩
  | some es =>
    have hr : r = createInitiation C identity h secret timestamp index := rfl
    by_cases hss : h.precomputedStaticStatic = zeroPoint
    · simp only [createInitiation, hid, he, mixDh, hes, mixPrecomputedDh, hss, Bool.not_true,
        Bool.false_eq_true, if_false, if_true, Option.map_some] at hr
      have hd : data = [e, es] := by simp only [data, initiationSent, hes, hss, if_true]
      rw [hr, hd]
      exact ⟨rfl, rfl, ⟨rfl, hss.symm, rfl⟩, .inl ⟨rfl, rfl, by simp⟩⟩
    · simp only [createInitiation, hid, he, mixDh, hes, mixPrecomputedDh, hss, Bool.not_true,
        Bool.false_eq_true, if_false, Option.map_some] at hr
      have hd : data = [e, es, h.precomputedStaticStatic] := by
        simp only [data, initiationSent, hes, hss, if_false]
      rw [hr, hd]
      exact ⟨rfl, rfl, ⟨rfl, rfl, rfl⟩, .inr ⟨rfl, rfl, rfl, rfl⟩⟩

/-- `createResponse` either gets through, with four values mixed in, or stays where it was. -/
theorem createResponse_spec {secret e : Bytes} (index : U32) (hst : h.state = .consumedInitiation)
    (he : C.curve25519GeneratePublic secret = some e) (hck : h.chainingKey = chain C D) :
    let r := createResponse C h secret index
    let data := responseSent C h secret e
    r.1.chainingKey = chain C (D ++ data) ∧ r.1.ephemeralPrivate = secret ∧ SameConfig h r.1 ∧
      ((r.1.state = .consumedInitiation ∧ r.2 = none) ∨
        (r.1.state = .createdResponse ∧ r.2.isSome ∧ data.length = 4 ∧ data[0]? = some e)) := by
  intro r data
  have hr : r = createResponse C h secret index := rfl
  rw [chain_append, ← hck]
  cases hee : C.curve25519 secret h.remoteEphemeral with
  | none =>
    simp only [createResponse, hst, he, mixDh, hee, ne_eq, not_true_eq_false, if_false, Option.map_none] at hr
    have hd : data = [e] := by simp only [data, responseSent, hee]
    rw [hr, hd]
    exact ⟨rfl, rfl, ⟨rfl, rfl, rfl⟩, .inl ⟨rfl, rfl⟩⟩
  | some ee =>
    cases hse : C.curve25519 secret h.remoteStatic with
    | none =>
      simp only [createResponse, hst, he, mixDh, hee, hse, ne_eq, not_true_eq_false, if_false,
        Option.map_none, Option.map_some] at hr
      have hd : data = [e, ee] := by simp only [data, responseSent, hee, hse]
      rw [hr, hd]
      exact ⟨rfl, rfl, ⟨rfl, rfl, rfl⟩, .inl ⟨rfl, rfl⟩⟩
    | some se =>
      simp only [createResponse, hst, he, mixDh, hee, hse, ne_eq, not_true_eq_false, if_false,
        Option.map_some] at hr
      have hd : data = [e, ee, se, h.presharedKey] := by simp only [data, responseSent, hee, hse]
      rw [hr, hd]
      exact ⟨rfl, rfl, ⟨rfl, rfl, rfl⟩, .inr ⟨rfl, rfl, rfl, rfl⟩⟩

/-- What only a configuration change or an accepted initiation sets. -/
structure SameRecord (h h' : NoiseHandshake) : Prop extends SameConfig h h' where
  timestamp : h'.latestTimestamp = h.latestTimestamp
  consumption : h'.lastInitiationConsumption = h.lastInitiationConsumption

theorem SameRecord.refl (h : NoiseHandshake) : SameRecord h h := ⟨⟨rfl, rfl, rfl⟩, rfl, rfl⟩

/-- No public key, or nothing shared with `point`. -/
def DhFails (C : Crypto) (point secret : Bytes) : Prop :=
  C.curve25519GeneratePublic secret = none ∨ C.curve25519 secret point = none

/-- `create_initiation` leaves the state alone unless it gets to the end, with `e`, `es` and `ss`
mixed in. -/
theorem createInitiation_cases (C : Crypto) (identity : NoiseStaticIdentity) (h : NoiseHandshake)
    (secret timestamp : Bytes) (index : U32) :
    let r := createInitiation C identity h secret timestamp index
    SameRecord h r.1 ∧ r.1.remoteEphemeral = h.remoteEphemeral ∧
      ((r.2 = none ∧ r.1.state = h.state ∧
          (r.1 = h ∨ DhFails C h.remoteStatic secret ∨ h.precomputedStaticStatic = zeroPoint)) ∨
        ∃ msg e es, r.2 = some msg ∧ msg.senderIndex = index ∧ r.1.state = .createdInitiation ∧
          r.1.ephemeralPrivate = secret ∧ C.curve25519GeneratePublic secret = some e ∧
          C.curve25519 secret h.remoteStatic = some es ∧ h.precomputedStaticStatic ≠ zeroPoint ∧
          r.1.chainingKey = chain C [e, es, h.precomputedStaticStatic] ∧ msg.unencryptedEphemeral = e) := by
  intro r
  have hr : r = createInitiation C identity h secret timestamp index := rfl
  cases hid : identity.hasIdentity with
  | false =>
    simp only [createInitiation, hid, Bool.not_false, if_true] at hr
    rw [hr]
    exact ⟨.refl h, rfl, .inl ⟨rfl, rfl, .inl rfl⟩⟩
  | true =>
  cases he : C.curve25519GeneratePublic secret with
  | none =>
    simp only [createInitiation, hid, he, Bool.not_true, Bool.false_eq_true, if_false] at hr
    rw [hr]
    exact ⟨⟨⟨rfl, rfl, rfl⟩, rfl, rfl⟩, rfl, .inl ⟨rfl, rfl, .inr (.inl (.inl he))⟩⟩
  | some e =>
  cases hes : C.curve25519 secret h.remoteStatic with
  | none =>
    simp only [createInitiation, hid, he, mixDh, hes, Bool.not_true, Bool.false_eq_true, if_false,
      Option.map_none] at hr
    rw [hr]
    exact ⟨⟨⟨rfl, rfl, rfl⟩, rfl, rfl⟩, rfl, .inl ⟨rfl, rfl, .inr (.inl (.inr hes))⟩⟩
  | some es =>
  by_cases hss : h.precomputedStaticStatic = zeroPoint
  · simp only [createInitiation, hid, he, mixDh, hes, mixPrecomputedDh, hss, Bool.not_true,
      Bool.false_eq_true, if_false, if_true, Option.map_some] at hr
    rw [hr]
    exact ⟨⟨⟨rfl, hss.symm, rfl⟩, rfl, rfl⟩, rfl, .inl ⟨rfl, rfl, .inr (.inr hss)⟩⟩
  · simp only [createInitiation, hid, he, mixDh, hes, mixPrecomputedDh, hss, Bool.not_true,
      Bool.false_eq_true, if_false, Option.map_some] at hr
    rw [hr]
    exact ⟨⟨⟨rfl, rfl, rfl⟩, rfl, rfl⟩, rfl,
      .inr ⟨_, e, es, rfl, rfl, rfl, rfl, rfl, rfl, hss, rfl, rfl⟩⟩

/-- `create_response` leaves the state alone unless it gets to the end, with `e`, `ee`, `se` and the
preshared key mixed in. -/
theorem createResponse_cases (C : Crypto) (h : NoiseHandshake) (secret : Bytes) (index : U32) :
    let r := createResponse C h secret index
    SameRecord h r.1 ∧ r.1.remoteEphemeral = h.remoteEphemeral ∧
      ((r.2 = none ∧ r.1.state = h.state ∧
          (r.1 = h ∨ h.state = .consumedInitiation ∧
            (DhFails C h.remoteEphemeral secret ∨ DhFails C h.remoteStatic secret))) ∨
        ∃ msg e ee se, r.2 = some msg ∧ msg.senderIndex = index ∧ h.state = .consumedInitiation ∧
          r.1.state = .createdResponse ∧ C.curve25519GeneratePublic secret = some e ∧
          C.curve25519 secret h.remoteEphemeral = some ee ∧ C.curve25519 secret h.remoteStatic = some se ∧
          (∀ D, h.chainingKey = chain C D → r.1.chainingKey = chain C (D ++ [e, ee, se, h.presharedKey])) ∧
          msg.unencryptedEphemeral = e) := by
  intro r
  have hr : r = createResponse C h secret index := rfl
  by_cases hst : h.state = .consumedInitiation
  · cases he : C.curve25519GeneratePublic secret with
    | none =>
      simp only [createResponse, hst, he, ne_eq, not_true_eq_false, if_false] at hr
      rw [hr]
      exact ⟨⟨⟨rfl, rfl, rfl⟩, rfl, rfl⟩, rfl, .inl ⟨rfl, hst.symm, .inr ⟨hst, .inl (.inl he)⟩⟩⟩
    | some e =>
    cases hee : C.curve25519 secret h.remoteEphemeral with
    | none =>
      simp only [createResponse, hst, he, mixDh, hee, ne_eq, not_true_eq_false, if_false, Option.map_none] at hr
      rw [hr]
      exact ⟨⟨⟨rfl, rfl, rfl⟩, rfl, rfl⟩, rfl, .inl ⟨rfl, hst.symm, .inr ⟨hst, .inl (.inr hee)⟩⟩⟩
    | some ee =>
    cases hse : C.curve25519 secret h.remoteStatic with
    | none =>
      simp only [createResponse, hst, he, mixDh, hee, hse, ne_eq, not_true_eq_false, if_false,
        Option.map_none, Option.map_some] at hr
      rw [hr]
      exact ⟨⟨⟨rfl, rfl, rfl⟩, rfl, rfl⟩, rfl, .inl ⟨rfl, hst.symm, .inr ⟨hst, .inr (.inr hse)⟩⟩⟩
    | some se =>
      simp only [createResponse, hst, he, mixDh, hee, hse, ne_eq, not_true_eq_false, if_false,
        Option.map_some] at hr
      rw [hr]
      refine ⟨⟨⟨rfl, rfl, rfl⟩, rfl, rfl⟩, rfl, .inr ⟨_, e, ee, se, rfl, rfl, hst, rfl, rfl, rfl, rfl, ?_, rfl⟩⟩
      intro D hD
      rw [chain_append, ← hD]
      rfl
  · simp only [createResponse, hst, ne_eq, not_false_eq_true, if_true] at hr
    rw [hr]
    exact ⟨.refl h, rfl, .inl ⟨rfl, rfl, .inl rfl⟩⟩

theorem openInitiation_chain {src : MessageHandshakeInitiation} {s t ck' hash' : Bytes}
    (hs : openStatic C identity src = some (s, ck, hash))
    (ht : openTimestamp C h src ck hash = some (t, ck', hash')) :
    ck' = chain C (initiationRead C identity h src) ∧
      ∃ es, C.curve25519 identity.staticPrivate src.unencryptedEphemeral = some es := by
  simp only [openStatic] at hs
  split at hs
  · cases hs
  obtain ⟨⟨ck₁, key⟩, hdh, hs⟩ := Option.bind_eq_some_iff.mp hs
  obtain ⟨⟨s₁, hash₁⟩, -, hs⟩ := Option.map_eq_some_iff.mp hs
  obtain ⟨es, hes, hdh⟩ := Option.map_eq_some_iff.mp hdh
  obtain ⟨⟨ck₂, key₂⟩, hss, ht₁⟩ := Option.bind_eq_some_iff.mp ht
  obtain ⟨⟨t₁, hash₂⟩, -, ht₂⟩ := Option.map_eq_some_iff.mp ht₁
  simp only [Prod.mk.injEq] at hs ht₂
  obtain ⟨-, rfl, -⟩ := hs
  obtain ⟨-, rfl, -⟩ := ht₂
  simp only [mixPrecomputedDh] at hss
  split at hss
  · cases hss
  refine ⟨?_, es, hes⟩
  rw [← (Prod.mk.inj (Option.some.inj hss)).1, ← (Prod.mk.inj hdh).1, initiationRead, hes]
  rfl

theorem openTimestamp_precomputed {src : MessageHandshakeInitiation} {r : Bytes × Bytes × Bytes}
    (ht : openTimestamp C h src ck hash = some r) : h.precomputedStaticStatic ≠ zeroPoint := by
  obtain ⟨_, hss, -⟩ := Option.bind_eq_some_iff.mp ht
  unfold mixPrecomputedDh at hss
  split at hss
  · cases hss
  · assumption

/-- `consume_response` gets through only with `e`, `ee`, `se` and the preshared key mixed in. -/
theorem openResponse_cases {src : MessageHandshakeResponse}
    (ho : openResponse C identity h src = some (ck, hash)) :
    h.state = .createdInitiation ∧ ∃ ee se, C.curve25519 h.ephemeralPrivate src.unencryptedEphemeral = some ee ∧
      C.curve25519 identity.staticPrivate src.unencryptedEphemeral = some se ∧
      ∀ D, h.chainingKey = chain C D → ck = chain C (D ++ [src.unencryptedEphemeral, ee, se, h.presharedKey]) := by
  simp only [openResponse] at ho
  split at ho
  · cases ho
  obtain ⟨⟨ck₁, key₁⟩, hee, ho⟩ := Option.bind_eq_some_iff.mp ho
  obtain ⟨⟨ck₂, key₂⟩, hse, ho⟩ := Option.bind_eq_some_iff.mp ho
  obtain ⟨⟨_, hash₃⟩, -, ho⟩ := Option.map_eq_some_iff.mp ho
  obtain ⟨ee, hee', hee⟩ := Option.map_eq_some_iff.mp hee
  obtain ⟨se, hse', hse⟩ := Option.map_eq_some_iff.mp hse
  refine ⟨Decidable.not_not.mp ‹_›, ee, se, hee', hse', fun D hD => ?_⟩
  rw [chain_append, ← hD, ← (Prod.mk.inj ho).1, ← (Prod.mk.inj hse).1, ← (Prod.mk.inj hee).1]
  rfl

theorem openResponse_chain {src : MessageHandshakeResponse} (hck : h.chainingKey = chain C D)
    (ho : openResponse C identity h src = some (ck, hash)) :
    h.state = .createdInitiation ∧ ck = chain C (D ++ responseRead C identity h src) := by
  obtain ⟨hst, ee, se, hee, hse, hchain⟩ := openResponse_cases ho
  refine ⟨hst, ?_⟩
  rw [responseRead, hee, hse]
  exact hchain D hck

end WireguardAes
