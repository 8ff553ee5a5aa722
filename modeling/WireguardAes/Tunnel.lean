import WireguardAes.DataPath
import WireguardAes.ReplayCounter

/-!
# One direction of a session, from end to end (`send.c`, `receive.c`)

The calls that number packets and the workers that encrypt them on one side (`SendNonce`), a network
that drops, repeats, delays and changes messages, and the receiving side: `wg_packet_consume_data`
puts a message on the queue of the peer, a worker decrypts it there, and `wg_packet_rx_poll` takes
the messages off the queue in their order and asks `counter_validate`. Any of these may happen at
any time.

The network is bound only by the cipher: a message that decrypts has the nonce and the ciphertext of
one that was sent. The header is not covered by the tag, so a message with another `key_idx` is not
excluded.
-/

namespace WireguardAes

open Runs

/-- Where a message on the receive queue of the peer is. -/
inductive RxState where
  | uncrypted
  | crypted (nonce : U64) (plaintext : Bytes)
  | dead

/-- A message that was encrypted for the session. -/
structure SentMessage where
  nonce : U64
  /-- The packet that is in it. -/
  skb : DataSkb
  message : Bytes

structure Tunnel (K : Type) where
  send : SendState K
  sent : List SentMessage
  keypair : NoiseKeypair
  receivingCounter : NoiseReplayCounter
  rxQueue : List (Bytes × RxState)
  /-- The messages that have left the receive queue, in their order. -/
  processed : List Bytes
  /-- The nonces that `counter_validate` has accepted, the last one first. -/
  accepted : List U64
  /-- What went to `wg_packet_consume_data_done`: the nonce and the decrypted packet. -/
  delivered : List (U64 × Bytes)
  /-- The messages for which the key was past its limits, or memory or an endpoint was missing. -/
  refused : List Bytes

namespace Tunnel

/-- The counter in the header of a data message. -/
def messageNonce (msg : Bytes) : U64 := BitVec.ofNat 64 (ByteOrder.leNat ((msg.drop 8).take 8))

def ciphertext (msg : Bytes) : Bytes := msg.drop sizeofMessageData

def rxState : Option (U64 × Bytes) → RxState
  | some (nonce, plaintext) => .crypted nonce plaintext
  | none => .dead

section
variable {K : Type} [DecidableEq K] (C : Crypto) (N : SkbLayer) (A B : WgDevice) (kA kB : NoiseKeypair) (k : K)
  (content : Nat → DataSkb)

/-- The packet of a socket buffer, with the nonce in its `PACKET_CB`. -/
def packet (p : Skb) : DataSkb := { content p.id with nonce := p.nonce }

/-- The receiving side has the key for the message. -/
def Decrypts (msg : Bytes) : Prop := (aeadDecrypt C kB B.isChacha (messageNonce msg) (ciphertext msg)).isSome = true

/-- The message is `x`, but for what else is in its header. -/
def CopyOf (x : SentMessage) (msg : Bytes) : Prop := x.nonce = messageNonce msg ∧ ciphertext x.message = ciphertext msg

/-- The message is one that was sent. -/
def Genuine (s : Tunnel K) (msg : Bytes) : Prop := ∃ x ∈ s.sent, CopyOf x msg

def init (current : Option K) : Tunnel K where
  send := .init current
  sent := []
  keypair := kB
  receivingCounter := .zeroed
  rxQueue := []
  processed := []
  accepted := []
  delivered := []
  refused := []

/-- A batch of `k` goes on, and its first packet has become `msg`. -/
def encrypted (s : Tunnel K) (a b : List (K × List Skb)) (p : Skb) (rest : List Skb) (msg : Bytes) : Tunnel K :=
  { s with
    send := { s.send with workers := a ++ (k, rest) :: b, encrypted := s.send.encrypted ++ [(k, p.nonce)] }
    sent := ⟨p.nonce, packet content p, msg⟩ :: s.sent }

def received (s : Tunnel K) (msg : Bytes) : Tunnel K := { s with rxQueue := s.rxQueue ++ [(msg, .uncrypted)] }

/-- `decrypt_packet` with a message in the middle of the queue. -/
def decrypted (s : Tunnel K) (a b : List (Bytes × RxState)) (msg : Bytes) (now : U64) (room : Bool) : Tunnel K :=
  let out := decryptPacket C s.keypair B.isChacha s.receivingCounter.counter now msg room
  { s with
    keypair := out.1
    rxQueue := a ++ (msg, rxState out.2) :: b
    refused :=
      if receivingUsable s.keypair s.receivingCounter.counter now && room then s.refused else msg :: s.refused }

/-- `wg_packet_rx_poll` with a decrypted message; `endpoint` says whether
`wg_socket_endpoint_from_skb` succeeds. -/
def polled (s : Tunnel K) (msg : Bytes) (nonce : U64) (plaintext : Bytes) (rest : List (Bytes × RxState))
    (endpoint : Bool) : Tunnel K :=
  let out := s.receivingCounter.counterValidate nonce
  { s with
    receivingCounter := out.2
    rxQueue := rest
    processed := s.processed ++ [msg]
    accepted := if out.1 then nonce :: s.accepted else s.accepted
    delivered := if out.1 && endpoint then (nonce, plaintext) :: s.delivered else s.delivered
    refused := if out.1 && !endpoint then msg :: s.refused else s.refused }

def polledDead (s : Tunnel K) (msg : Bytes) (rest : List (Bytes × RxState)) : Tunnel K :=
  { s with rxQueue := rest, processed := s.processed ++ [msg] }

inductive TunnelStep : Tunnel K → Tunnel K → Prop
  | send (s : Tunnel K) {s' : SendState K} (hs : SendStep s.send s') : TunnelStep s { s with send := s' }
  | encrypt (s : Tunnel K) {a b : List (K × List Skb)} {p : Skb} {rest : List Skb} {msg : Bytes}
      (h : s.send.workers = a ++ (k, p :: rest) :: b)
      (hm : encryptPacket C N kA A.isChacha (packet content p) true = some msg) :
      TunnelStep s (s.encrypted k content a b p rest msg)
  /-- The network brings any message. -/
  | receive (s : Tunnel K) (msg : Bytes) (h : Decrypts C B kB msg → s.Genuine msg) : TunnelStep s (s.received msg)
  | decrypt (s : Tunnel K) {a b : List (Bytes × RxState)} {msg : Bytes} (now : U64) (room : Bool)
      (h : s.rxQueue = a ++ (msg, .uncrypted) :: b) : TunnelStep s (s.decrypted C B a b msg now room)
  | poll (s : Tunnel K) {msg : Bytes} {nonce : U64} {plaintext : Bytes} {rest : List (Bytes × RxState)}
      (endpoint : Bool) (h : s.rxQueue = (msg, .crypted nonce plaintext) :: rest) :
      TunnelStep s (s.polled msg nonce plaintext rest endpoint)
  | pollDead (s : Tunnel K) {msg : Bytes} {rest : List (Bytes × RxState)} (h : s.rxQueue = (msg, .dead) :: rest) :
      TunnelStep s (s.polledDead msg rest)

/-! ### What is sent -/

omit [DecidableEq K] in
theorem genuine_mono {s t : Tunnel K} (h : ∀ x ∈ s.sent, x ∈ t.sent) {msg : Bytes} (hg : s.Genuine msg) :
    t.Genuine msg := by
  obtain ⟨x, hx, hrest⟩ := hg
  exact ⟨x, h x hx, hrest⟩

/-- A step of the sending side takes no encryption back. -/
theorem encryptions_mono (k : K) {s s' : SendState K} (hs : SendStep s s') (n : U64) :
    (s.encryptions k).count n ≤ (s'.encryptions k).count n := by
  have hmore : s'.encrypted = s.encrypted ∨ ∃ x, s'.encrypted = s.encrypted ++ [x] := by
    cases hs with
    | encrypt h => exact .inr ⟨_, rfl⟩
    | encryptFails ran h =>
      cases ran with
      | true => exact .inr ⟨_, rfl⟩
      | false => exact .inl rfl
    | _ => exact .inl rfl
  rw [SendState.encryptions, SendState.encryptions]
  rcases hmore with hsame | ⟨x, hmore⟩
  · rw [hsame]
  · rw [hmore, List.filter_append, List.map_append, List.count_append]
    exact Nat.le_add_right _ _

theorem encryptions_encrypted (s : Tunnel K) (a b : List (K × List Skb)) (p : Skb) (rest : List Skb) (msg : Bytes) :
    (s.encrypted k content a b p rest msg).send.encryptions k = s.send.encryptions k ++ [p.nonce] := by
  simp [encrypted, SendState.encryptions]

/-- What holds of the messages and of the keypair that decrypts them. -/
structure Session (s : Tunnel K) : Prop where
  send : SendInv k s.send
  /-- Each message stands for one execution of the cipher. -/
  executed : ∀ n, (s.sent.map SentMessage.nonce).count n ≤ (s.send.encryptions k).count n
  made : ∀ x ∈ s.sent, x.skb.nonce = x.nonce ∧ encryptPacket C N kA A.isChacha x.skb true = some x.message
  key : s.keypair.receiving.key = kB.receiving.key
  handle : s.keypair.aeadDec = kB.aeadDec

variable {C N A B kA kB k content} {s t : Tunnel K}
variable {msg plaintext : Bytes} {nonce : U64} {a b rest : List (Bytes × RxState)}

namespace Session

theorem init (current : Option K) : Session C N A kA kB k (Tunnel.init kB current) := by
  refine ⟨SendInv.init current, fun n => Nat.zero_le _, ?_, rfl, rfl⟩
  rintro x ⟨⟩

theorem congr (h : Session C N A kA kB k s) (hsend : t.send = s.send) (hsent : t.sent = s.sent)
    (hkey : t.keypair.receiving.key = s.keypair.receiving.key) (hhandle : t.keypair.aeadDec = s.keypair.aeadDec) :
    Session C N A kA kB k t := by
  refine ⟨?_, ?_, ?_, hkey.trans h.key, hhandle.trans h.handle⟩
  · rw [hsend]
    exact h.send
  · rw [hsend, hsent]
    exact h.executed
  · rw [hsent]
    exact h.made

theorem step (h : Session C N A kA kB k s) (hC : s.send.inFlight k < counterWindowSize)
    (hs : TunnelStep C N A B kA kB k content s t) : Session C N A kA kB k t := by
  cases hs with
  | send hs =>
    exact ⟨h.send.step hC hs, fun n => (h.executed n).trans (encryptions_mono k hs n), h.made, h.key, h.handle⟩
  | @encrypt a b p rest msg hw hm =>
    refine ⟨h.send.step hC (.encrypt s.send hw), fun n => ?_, fun x hx => ?_, h.key, h.handle⟩
    · rw [encryptions_encrypted]
      have hle := h.executed n
      simp only [encrypted, List.map_cons, List.count_cons, List.count_append, List.count_nil]
      omega
    · rcases List.mem_cons.mp hx with rfl | hx
      · exact ⟨rfl, hm⟩
      · exact h.made x hx
  | receive msg hauth => exact h.congr rfl rfl rfl rfl
  | decrypt now room hq =>
    -- an expired key is marked, not changed
    refine h.congr rfl rfl ?_ ?_ <;>
    · simp only [decrypted, decryptPacket]
      split <;> rfl
  | poll endpoint hq => exact h.congr rfl rfl rfl rfl
  | pollDead hq => exact h.congr rfl rfl rfl rfl

theorem nodup (h : Session C N A kA kB k s) : (s.sent.map SentMessage.nonce).Nodup := by
  refine List.nodup_iff_count_le_one.mpr fun n => (h.executed n).trans ?_
  refine le_trans ?_ (h.send.once n)
  rw [SendState.held, SendState.queued, List.count_append, List.count_append]
  omega

theorem below (h : Session C N A kA kB k s) {x : SentMessage} (hx : x ∈ s.sent) :
    x.nonce.toNat < rejectAfterMessages := by
  have hpos : 0 < (s.send.encryptions k).count x.nonce :=
    Nat.lt_of_lt_of_le (List.count_pos_iff.mpr (List.mem_map_of_mem hx)) (h.executed x.nonce)
  refine (h.send.below x.nonce ?_).2
  rw [SendState.held, SendState.queued]
  exact List.mem_append_right _ (List.mem_append_right _ (List.count_pos_iff.mp hpos))

theorem aeadDecrypt_eq (h : Session C N A kA kB k s) (nonce : U64) (src : Bytes) :
    aeadDecrypt C s.keypair B.isChacha nonce src = aeadDecrypt C kB B.isChacha nonce src := by
  rw [aeadDecrypt, aeadDecrypt, h.key, h.handle]

end Session

/-- What was encrypted decrypts to the padded packet, under its own nonce. -/
theorem decrypts_sent (hC : C.Aead) (hAB : WgDevice.CompletedHandshake C A B kA kB) (hsame : A.isChacha = B.isChacha)
    {skb : DataSkb} (hm : encryptPacket C N kA A.isChacha skb true = some msg) :
    ∃ plaintext, paddedPlaintext N skb = some plaintext ∧ messageNonce msg = skb.nonce ∧
      aeadDecrypt C kB B.isChacha skb.nonce (ciphertext msg) = some plaintext := by
  obtain ⟨plaintext, hp, hm⟩ := Option.bind_eq_some_iff.mp hm
  obtain ⟨ct, henc, -, hdec⟩ := hAB.aeadDecrypt hC hsame skb.nonce plaintext
  rw [henc, Option.map_some, Option.some.injEq] at hm
  subst hm
  refine ⟨plaintext, hp, WireguardAes.counter_dataHeader _ _ ct, ?_⟩
  rw [ciphertext, List.drop_left' (length_dataHeader _ _)]
  exact hdec

/-! ### What is received -/

/-- The nonce and the plaintext are those of a packet that was sent. -/
def IsPacket (N : SkbLayer) (s : Tunnel K) (nonce : U64) (plaintext : Bytes) : Prop :=
  ∃ x ∈ s.sent, x.nonce = nonce ∧ paddedPlaintext N x.skb = some plaintext

omit [DecidableEq K] in
theorem IsPacket.mono (h : ∀ x ∈ s.sent, x ∈ t.sent)
    (hp : s.IsPacket N nonce plaintext) : t.IsPacket N nonce plaintext := by
  obtain ⟨x, hx, hrest⟩ := hp
  exact ⟨x, h x hx, hrest⟩

/-- What holds of a message on the receive queue. -/
def Queued (C : Crypto) (N : SkbLayer) (B : WgDevice) (kB : NoiseKeypair) (s : Tunnel K) (x : Bytes × RxState) : Prop :=
  match x.2 with
  | .uncrypted => Decrypts C B kB x.1 → s.Genuine x.1
  | .crypted nonce plaintext =>
    nonce = messageNonce x.1 ∧ Decrypts C B kB x.1 ∧ s.Genuine x.1 ∧ s.IsPacket N nonce plaintext
  | .dead => Decrypts C B kB x.1 → s.Genuine x.1 ∧ x.1 ∈ s.refused

structure Receiving (C : Crypto) (N : SkbLayer) (B : WgDevice) (kB : NoiseKeypair) (s : Tunnel K) : Prop where
  counter : ∃ ideal, Refines s.receivingCounter ideal ∧ ideal.accepted = s.accepted
  nodup : s.accepted.Nodup
  queue : ∀ x ∈ s.rxQueue, Queued C N B kB s x
  delivered : ∀ x ∈ s.delivered, s.IsPacket N x.1 x.2
  once : (s.delivered.map Prod.fst).Sublist s.accepted
  accepted : ∀ n ∈ s.accepted, ∃ msg ∈ s.processed, Decrypts C B kB msg ∧ messageNonce msg = n

omit [DecidableEq K] in
theorem Queued.mono {x : Bytes × RxState} (h : Queued C N B kB s x) (hsent : ∀ x ∈ s.sent, x ∈ t.sent)
    (hrefused : ∀ msg ∈ s.refused, msg ∈ t.refused) : Queued C N B kB t x := by
  obtain ⟨msg, state⟩ := x
  cases state with
  | uncrypted => exact fun hd => genuine_mono hsent (h hd)
  | crypted nonce plaintext => exact ⟨h.1, h.2.1, genuine_mono hsent h.2.2.1, h.2.2.2.mono hsent⟩
  | dead => exact fun hd => ⟨genuine_mono hsent (h hd).1, hrefused _ (h hd).2⟩

omit [DecidableEq K] in
theorem mem_refused_decrypted {now : U64} {room : Bool}
    {m : Bytes} (hm : m ∈ s.refused) : m ∈ (s.decrypted C B a b msg now room).refused := by
  simp only [decrypted]
  split
  · exact hm
  · exact List.mem_cons_of_mem _ hm

omit [DecidableEq K] in
theorem mem_refused_polled
    {endpoint : Bool} {m : Bytes} (hm : m ∈ s.refused) : m ∈ (s.polled msg nonce plaintext rest endpoint).refused := by
  simp only [polled]
  split
  · exact List.mem_cons_of_mem _ hm
  · exact hm

theorem queued_decrypted (hA : C.Aead) (hAB : WgDevice.CompletedHandshake C A B kA kB) (hsame : A.isChacha = B.isChacha)
    (hses : Session C N A kA kB k s) (now : U64) (room : Bool)
    (hauth : Decrypts C B kB msg → s.Genuine msg) :
    Queued C N B kB (s.decrypted C B a b msg now room)
      (msg, rxState (decryptPacket C s.keypair B.isChacha s.receivingCounter.counter now msg room).2) := by
  by_cases husable : (receivingUsable s.keypair s.receivingCounter.counter now && room) = true
  case neg =>
    -- nothing was decrypted, and that is recorded
    have hnone : (decryptPacket C s.keypair B.isChacha s.receivingCounter.counter now msg room).2 = none := by
      rw [Bool.and_eq_true, not_and] at husable
      simp only [decryptPacket]
      cases hu : receivingUsable s.keypair s.receivingCounter.counter now with
      | false => rfl
      | true => exact if_neg (husable hu)
    rw [hnone]
    intro hd
    simp only [decrypted, husable, Bool.false_eq_true, if_false]
    exact ⟨hauth hd, List.mem_cons_self⟩
  obtain ⟨hu, rfl⟩ := Bool.and_eq_true_iff.mp husable
  have hout : (decryptPacket C s.keypair B.isChacha s.receivingCounter.counter now msg true).2 =
      (aeadDecrypt C kB B.isChacha (messageNonce msg) (ciphertext msg)).map fun dst => (messageNonce msg, dst) := by
    simp only [decryptPacket, hu, Bool.not_true, Bool.false_eq_true, if_false, if_true, hses.aeadDecrypt_eq]
    rfl
  rw [hout]
  cases hdec : aeadDecrypt C kB B.isChacha (messageNonce msg) (ciphertext msg) with
  | none =>
    intro hd
    rw [Decrypts, hdec] at hd
    cases hd
  | some plaintext =>
    -- the tag was right, so this is the ciphertext of a packet
    have hd : Decrypts C B kB msg := by
      rw [Decrypts, hdec]
      rfl
    obtain ⟨x, hx, hnonce, hct⟩ := hauth hd
    obtain ⟨hskb, hmade⟩ := hses.made x hx
    obtain ⟨padded, hp, -, hround⟩ := decrypts_sent hA hAB hsame hmade
    rw [hskb, hnonce, hct, hdec, Option.some.injEq] at hround
    exact ⟨rfl, hd, ⟨x, hx, hnonce, hct⟩, x, hx, hnonce, hround ▸ hp⟩

/-- The answer of `counter_validate`, with the numbers that were accepted. -/
theorem counterValidate_spec {c : NoiseReplayCounter} {ideal : Ideal} (h : Refines c ideal) (n : U64) :
    ((c.counterValidate n).1 = true ↔ ideal.Accepts n) ∧
      (ideal.validate n).2.accepted = if (c.counterValidate n).1 then n :: ideal.accepted else ideal.accepted := by
  rw [(h.validate n).1, Ideal.validate]
  by_cases ha : ideal.Accepts n
  · simp only [if_true, ha, and_self]
  · simp only [Bool.false_eq_true, if_false, ha, and_self]

namespace Receiving

omit [DecidableEq K] in
theorem init (current : Option K) : Receiving C N B kB (Tunnel.init kB current) := by
  refine ⟨⟨.empty, .zeroed, rfl⟩, List.nodup_nil, ?_, ?_, .slnil, ?_⟩
  all_goals rintro x ⟨⟩

omit [DecidableEq K] in
theorem grow (h : Receiving C N B kB s) {send : SendState K} {sent : List SentMessage}
    (hsent : ∀ x ∈ s.sent, x ∈ sent) :
    Receiving C N B kB { s with send := send, sent := sent } :=
  ⟨h.counter, h.nodup, fun x hx => (h.queue x hx).mono hsent fun _ => id, fun x hx => (h.delivered x hx).mono hsent,
    h.once, h.accepted⟩

omit [DecidableEq K] in
theorem receive (h : Receiving C N B kB s) (hauth : Decrypts C B kB msg → s.Genuine msg) :
    Receiving C N B kB (s.received msg) := by
  refine ⟨h.counter, h.nodup, fun x hx => ?_, h.delivered, h.once, h.accepted⟩
  rcases List.mem_append.mp hx with hx | hx
  · exact h.queue x hx
  · rw [List.mem_singleton] at hx
    subst hx
    exact hauth

theorem decrypt (h : Receiving C N B kB s) (hA : C.Aead) (hAB : WgDevice.CompletedHandshake C A B kA kB)
    (hsame : A.isChacha = B.isChacha) (hses : Session C N A kA kB k s)
    (now : U64) (room : Bool) (hq : s.rxQueue = a ++ (msg, .uncrypted) :: b) :
    Receiving C N B kB (s.decrypted C B a b msg now room) := by
  have hother : ∀ x ∈ s.rxQueue, Queued C N B kB (s.decrypted C B a b msg now room) x := fun x hx =>
    (h.queue x hx).mono (fun _ => id) fun _ => mem_refused_decrypted
  refine ⟨h.counter, h.nodup, fun x hx => ?_, h.delivered, h.once, h.accepted⟩
  rcases List.mem_append.mp hx with hx | hx
  · exact hother x (by rw [hq]; exact List.mem_append_left _ hx)
  rcases List.mem_cons.mp hx with rfl | hx
  · have hauth : Queued C N B kB s (msg, .uncrypted) := h.queue _
      (by rw [hq]; exact List.mem_append_right _ List.mem_cons_self)
    exact queued_decrypted hA hAB hsame hses now room hauth
  · exact hother x (by rw [hq]; exact List.mem_append_right _ (List.mem_cons_of_mem _ hx))

omit [DecidableEq K] in
theorem head (h : Receiving C N B kB s) {x : Bytes × RxState} (hq : s.rxQueue = x :: rest) :
    Queued C N B kB s x := h.queue x (by rw [hq]; exact List.mem_cons_self)

omit [DecidableEq K] in
theorem poll (h : Receiving C N B kB s)
    (endpoint : Bool) (hq : s.rxQueue = (msg, .crypted nonce plaintext) :: rest) :
    Receiving C N B kB (s.polled msg nonce plaintext rest endpoint) := by
  obtain ⟨hnonce, hdec, -, hpacket⟩ := h.head hq
  obtain ⟨ideal, href, hideal⟩ := h.counter
  obtain ⟨hiff, hnext⟩ := counterValidate_spec href nonce
  rw [hideal] at hnext
  refine ⟨⟨_, (href.validate nonce).2, hnext⟩, ?_, fun x hx => ?_, fun x hx => ?_, ?_, fun n hn => ?_⟩
  · simp only [polled]
    split
    · exact List.nodup_cons.mpr ⟨hideal ▸ (hiff.mp ‹_›).2.1, h.nodup⟩
    · exact h.nodup
  · exact (h.queue x (by rw [hq]; exact List.mem_cons_of_mem _ hx)).mono (fun _ => id) fun _ => mem_refused_polled
  · simp only [polled] at hx
    split at hx
    · rcases List.mem_cons.mp hx with rfl | hx
      · exact hpacket
      · exact h.delivered x hx
    · exact h.delivered x hx
  · simp only [polled]
    cases (s.receivingCounter.counterValidate nonce).1 <;> cases endpoint
    · exact h.once
    · exact h.once
    · exact h.once.cons nonce
    · exact h.once.cons_cons nonce
  · have hn : n = nonce ∨ n ∈ s.accepted := by
      simp only [polled] at hn
      split at hn
      · exact List.mem_cons.mp hn
      · exact .inr hn
    rcases hn with rfl | hn
    · exact ⟨msg, List.mem_append_right _ List.mem_cons_self, hdec, hnonce.symm⟩
    · obtain ⟨msg', hmem, hrest⟩ := h.accepted n hn
      exact ⟨msg', List.mem_append_left _ hmem, hrest⟩

omit [DecidableEq K] in
theorem pollDead (h : Receiving C N B kB s)
    (hq : s.rxQueue = (msg, .dead) :: rest) : Receiving C N B kB (s.polledDead msg rest) := by
  refine ⟨h.counter, h.nodup, fun x hx => ?_, h.delivered, h.once, fun n hn => ?_⟩
  · exact (h.queue x (by rw [hq]; exact List.mem_cons_of_mem _ hx)).mono (fun _ => id) fun _ => id
  · obtain ⟨msg', hmem, hrest⟩ := h.accepted n hn
    exact ⟨msg', List.mem_append_left _ hmem, hrest⟩

theorem step (h : Receiving C N B kB s) (hA : C.Aead) (hAB : WgDevice.CompletedHandshake C A B kA kB)
    (hsame : A.isChacha = B.isChacha) (hses : Session C N A kA kB k s)
    (hs : TunnelStep C N A B kA kB k content s t) : Receiving C N B kB t := by
  cases hs with
  | send hs => exact h.grow fun _ => id
  | encrypt hw hm => exact h.grow fun _ => List.mem_cons_of_mem _
  | receive msg hauth => exact h.receive hauth
  | decrypt now room hq => exact h.decrypt hA hAB hsame hses now room hq
  | poll endpoint hq => exact h.poll endpoint hq
  | pollDead hq => exact h.pollDead hq

end Receiving

/-! ### At most once -/

/-- Between two devices that use the same cipher, in every run in which fewer than
`COUNTER_WINDOW_SIZE` calls of the sender are working with the keypair at any time, with whatever
the network does to the messages: no nonce is delivered twice, no two messages have the same one,
and what is delivered under a nonce is the packet that was sent under it, with its padding: an IP
packet arrives as it was but for the ECN bits. -/
theorem delivered_once (hA : C.Aead) (hN : N.Documented) (hAB : WgDevice.CompletedHandshake C A B kA kB)
    (hsame : A.isChacha = B.isChacha) (current : Option K)
    (hrun : Run (TunnelStep C N A B kA kB k content) (fun s => s.send.inFlight k < counterWindowSize)
      (Tunnel.init kB current) s) :
    (s.delivered.map Prod.fst).Nodup ∧ (s.sent.map SentMessage.nonce).Nodup ∧
      ∀ out ∈ s.delivered, ∃ x ∈ s.sent, x.nonce = out.1 ∧ paddedPlaintext N x.skb = some out.2 ∧
        ∀ p protocol ds, finalizeChecksum N x.skb = some p → x.skb.Admitted → IpPacket protocol p →
          ∃ skb, consumeDataDone N ds out.2 true = .trimmed skb ∧
            SameButEcn protocol (p.take (ipLength p protocol)) skb := by
  have hinv : Session C N A kA kB k s ∧ Receiving C N B kB s :=
    hrun.inv (I := fun s => Session C N A kA kB k s ∧ Receiving C N B kB s) ⟨.init current, .init current⟩
      fun _ _ hC _ h hs => ⟨h.1.step hC hs, h.2.step hA hAB hsame h.1 hs⟩
  obtain ⟨hses, hrec⟩ := hinv
  refine ⟨hrec.nodup.sublist hrec.once, hses.nodup, fun out hout => ?_⟩
  obtain ⟨x, hx, hnonce, hpad⟩ := hrec.delivered out hout
  refine ⟨x, hx, hnonce, hpad, fun p protocol ds hp hadm hip => ?_⟩
  obtain ⟨padding, hpad', -⟩ := paddedPlaintext_spec hN hp hadm
  rw [hpad, Option.some.injEq] at hpad'
  obtain ⟨hpadded, hlen⟩ := hip.append (List.replicate padding 0)
  obtain ⟨skb, hskb, hecn⟩ := consumeDataDone_ip hN hpadded ds
  rw [hlen, List.take_append_of_le_length hip.fits] at hecn
  rw [hpad']
  exact ⟨skb, hskb, hecn⟩

/-! ### Nothing is lost that comes in time -/

/-- No message has been overtaken by one whose number is more than `COUNTER_WINDOW_SIZE` higher. -/
def Timely (C : Crypto) (B : WgDevice) (kB : NoiseKeypair) (s : Tunnel K) : Prop :=
  (s.processed ++ s.rxQueue.map Prod.fst).Pairwise fun m m' => Decrypts C B kB m → Decrypts C B kB m' →
    (messageNonce m).toNat ≤ (messageNonce m').toNat + counterWindowSize

/-- The number has been delivered, or the message with it was refused. -/
def Done (s : Tunnel K) (nonce : U64) : Prop :=
  nonce ∈ s.delivered.map Prod.fst ∨ ∃ msg ∈ s.refused, s.Genuine msg ∧ messageNonce msg = nonce

/-- What has left the queue was delivered or refused. -/
def Settled (C : Crypto) (B : WgDevice) (kB : NoiseKeypair) (s : Tunnel K) : Prop :=
  ∀ msg ∈ s.processed, Decrypts C B kB msg → s.Done (messageNonce msg)

omit [DecidableEq K] in
theorem Done.mono (h : s.Done nonce) (hdelivered : ∀ x ∈ s.delivered, x ∈ t.delivered)
    (hrefused : ∀ msg ∈ s.refused, msg ∈ t.refused) (hsent : ∀ x ∈ s.sent, x ∈ t.sent) : t.Done nonce := by
  rcases h with hd | ⟨msg, hmem, hg, hn⟩
  · obtain ⟨x, hx, hxn⟩ := List.mem_map.mp hd
    exact .inl (List.mem_map.mpr ⟨x, hdelivered x hx, hxn⟩)
  · exact .inr ⟨msg, hrefused msg hmem, genuine_mono hsent hg, hn⟩

omit [DecidableEq K] in
theorem Settled.keep (h : Settled C B kB s) (hprocessed : t.processed = s.processed)
    (hdelivered : ∀ x ∈ s.delivered, x ∈ t.delivered) (hrefused : ∀ msg ∈ s.refused, msg ∈ t.refused)
    (hsent : ∀ x ∈ s.sent, x ∈ t.sent) : Settled C B kB t := by
  intro msg hmsg hdec
  rw [hprocessed] at hmsg
  exact (h msg hmsg hdec).mono hdelivered hrefused hsent

/-- A message in time that `counter_validate` turns away has been accepted before. -/
theorem mem_accepted_of_rejected (hses : Session C N A kA kB k s) (hrec : Receiving C N B kB s)
    (htime : Timely C B kB s)
    (hq : s.rxQueue = (msg, .crypted nonce plaintext) :: rest)
    (hrej : ¬ (s.receivingCounter.counterValidate nonce).1 = true) : nonce ∈ s.accepted := by
  obtain ⟨hnonce, hdec, ⟨x, hx, hxn, -⟩, -⟩ := hrec.head hq
  obtain ⟨ideal, href, hideal⟩ := hrec.counter
  by_contra hnew
  refine hrej ((counterValidate_spec href nonce).1.mpr ⟨?_, hideal ▸ hnew, ?_⟩)
  · rw [hnonce, ← hxn]
    exact hses.below hx
  rw [href.max_le_iff, hideal]
  intro m hm
  obtain ⟨earlier, hmem, hdec', rfl⟩ := hrec.accepted m hm
  rw [Timely, hq, List.pairwise_append] at htime
  rw [hnonce]
  exact htime.2.2 earlier hmem msg List.mem_cons_self hdec' hdec

theorem Settled.step (h : Settled C B kB s) (hses : Session C N A kA kB k s) (hrec : Receiving C N B kB s)
    (htime : Timely C B kB s) (hs : TunnelStep C N A B kA kB k content s t) : Settled C B kB t := by
  cases hs with
  | send hs => exact h
  | encrypt hw hm => exact h.keep rfl (fun _ => id) (fun _ => id) fun _ => List.mem_cons_of_mem _
  | receive msg hauth => exact h
  | decrypt now room hq => exact h.keep rfl (fun _ => id) (fun _ => mem_refused_decrypted) fun _ => id
  | @poll msg nonce plaintext rest endpoint hq =>
    have hold : ∀ m ∈ s.processed, Decrypts C B kB m →
        (s.polled msg nonce plaintext rest endpoint).Done (messageNonce m) := by
      refine fun m hm hd => (h m hm hd).mono (fun x hx => ?_) (fun _ => mem_refused_polled) fun _ => id
      simp only [polled]
      split
      · exact List.mem_cons_of_mem _ hx
      · exact hx
    obtain ⟨hnonce, -, hgenuine, -⟩ := hrec.head hq
    intro m hm hd
    rcases List.mem_append.mp hm with hm | hm
    · exact hold m hm hd
    rw [List.mem_singleton] at hm
    subst hm
    by_cases hacc : (s.receivingCounter.counterValidate nonce).1 = true
    · cases endpoint with
      | true =>
        refine .inl ?_
        simp only [polled, hacc, Bool.and_self, if_true, ← hnonce]
        exact List.mem_cons_self
      | false =>
        refine .inr ⟨m, ?_, hgenuine, rfl⟩
        simp only [polled, hacc, Bool.not_false, Bool.and_self, if_true]
        exact List.mem_cons_self
    · -- the number was used before, by a message that has been settled
      obtain ⟨earlier, hmem, hdec', hn⟩ := hrec.accepted nonce (mem_accepted_of_rejected hses hrec htime hq hacc)
      exact hn.trans hnonce ▸ hold earlier hmem hdec'
  | @pollDead msg rest hq =>
    intro m hm hd
    rcases List.mem_append.mp hm with hm | hm
    · exact h m hm hd
    rw [List.mem_singleton] at hm
    subst hm
    obtain ⟨hgenuine, hrefused⟩ := hrec.head hq hd
    exact .inr ⟨m, hrefused, hgenuine, rfl⟩

end

/-! ### One packet on its way -/

/-- The sample packet goes from one sample device to the other, whatever condition the states meet
that is met while one packet is in flight. -/
theorem exists_run_sample (P : WgDevice → NoiseKeypair → Tunnel Unit → Prop)
    (hP : ∀ B kB s, s.send.inFlight () ≤ 1 → s.processed.length + s.rxQueue.length ≤ 1 → P B kB s) :
    ∃ A B kA kB, WgDevice.CompletedHandshake plainCrypto A B kA kB ∧ A.isChacha = B.isChacha ∧
      ∃ s msg plaintext, Run (TunnelStep plainCrypto WgDevice.plainSkbLayer A B kA kB () fun _ =>
        WgDevice.sampleSkb) (P B kB)
        (Tunnel.init kB (some ())) s ∧
        s.sent = [⟨0, packet (fun _ => WgDevice.sampleSkb) ⟨0, 0⟩, msg⟩] ∧ s.processed = [msg] ∧
        s.delivered = [(0, plaintext)] ∧ s.refused = [] := by
  obtain ⟨-, A, -, -, B, -, -, -, ck, iA, iB, -, -, -, -, -, -, h, ha, hb⟩ := WgDevice.plainDevice_handshake false false
  have hsame : A.isChacha = B.isChacha := ha.trans hb.symm
  have hlim := WgDevice.withinLimits_fillKeypair false false ck iA
  have hnow := h.right.receivingUsable hlim
  have hadm : (packet (fun _ => WgDevice.sampleSkb) ⟨0, 0⟩).Admitted := by
    unfold DataSkb.Admitted
    decide
  obtain ⟨padding, hpad, -⟩ := paddedPlaintext_spec WgDevice.plainSkbLayer_documented rfl hadm
  obtain ⟨msg, henc, -, -, hdec⟩ := h.roundTrip WgDevice.plainCrypto_aead hsame hpad hlim
  obtain ⟨-, -, hnonce, -⟩ := decrypts_sent WgDevice.plainCrypto_aead h hsame henc
  have hvalid : (NoiseReplayCounter.zeroed.counterValidate 0).1 = true := by decide
  generalize fillKeypair plainCrypto false true ck iB 0 = kA at *
  generalize fillKeypair plainCrypto false false ck iA 0 = kB at *
  have idle : (0 : Nat) ≤ 1 := Nat.zero_le 1
  have busy : (1 : Nat) ≤ 1 := Nat.le_refl 1
  refine ⟨A, B, kA, kB, h, hsame, ?_⟩
  have h₀ : Run (TunnelStep plainCrypto WgDevice.plainSkbLayer A B kA kB () fun _ => WgDevice.sampleSkb) (P B kB)
      (Tunnel.init kB (some ())) _ := .refl _ (hP _ _ _ idle idle)
  have h₁ := h₀.tail (.send _ (.xmit (.init (some ())) [⟨0, 0⟩])) (hP _ _ _ idle idle)
  have h₂ := h₁.tail (.send _ (.steal _ (List.cons_ne_nil _ _))) (hP _ _ _ idle idle)
  have h₃ := h₂.tail (.send _ (.getKeypair _ (a := []) rfl rfl)) (hP _ _ _ busy idle)
  have h₄ := h₃.tail (.send _ (.readValid _ (a := []) rfl)) (hP _ _ _ busy idle)
  have h₅ := h₄.tail (.send _ (.birthdate _ (a := []) false rfl)) (hP _ _ _ busy idle)
  have h₆ := h₅.tail (.send _ (.draw _ (a := []) rfl)) (hP _ _ _ busy idle)
  have h₇ := h₆.tail (.send _ (.enqueue _ (a := []) rfl)) (hP _ _ _ idle idle)
  have h₈ := h₇.tail (.send _ (.consume _ rfl)) (hP _ _ _ idle idle)
  have h₉ := h₈.tail (.encrypt _ (a := []) rfl henc) (hP _ _ _ idle idle)
  have h₁₀ := h₉.tail (.receive _ msg fun _ => ⟨_, List.mem_cons_self, hnonce.symm, rfl⟩) (hP _ _ _ idle busy)
  have h₁₁ := h₁₀.tail (.decrypt _ (a := []) 0 true rfl) (hP _ _ _ idle busy)
  have h₁₂ := h₁₁.tail (.poll _ true (congrArg (fun out => [(msg, rxState out)]) hdec)) (hP _ _ _ idle busy)
  refine ⟨_, msg, WgDevice.sampleSkb.data ++ List.replicate padding 0, h₁₂, rfl, rfl, ?_, ?_⟩
  · exact if_pos (by rw [Bool.and_true]; exact hvalid)
  · simp only [polled, Bool.not_true, Bool.and_false, Bool.false_eq_true, if_false]
    exact if_pos (by rw [Bool.and_true]; exact hnow)

theorem delivered_once_sample : ∃ A B kA kB, WgDevice.CompletedHandshake plainCrypto A B kA kB ∧
    ∃ (s : Tunnel Unit) (plaintext : Bytes), s.delivered = [(0, plaintext)] ∧ (s.delivered.map Prod.fst).Nodup := by
  obtain ⟨A, B, kA, kB, h, hsame, s, msg, plaintext, hrun, -, -, hdel, -⟩ :=
    exists_run_sample (fun _ _ s => s.send.inFlight () < counterWindowSize)
      fun _ _ _ h _ => Nat.lt_of_le_of_lt h (by decide)
  exact ⟨A, B, kA, kB, h, s, plaintext, hdel,
    (delivered_once WgDevice.plainCrypto_aead WgDevice.plainSkbLayer_documented h
    hsame (some ()) hrun).1⟩

end Tunnel
end WireguardAes
