import WireguardAes.Allowedips
import WireguardAes.Lib.Runs
import WireguardAes.Lib.GracePeriod
import WireguardAes.Lib.Ledger

/-!
# The sockets of a device (`socket.c`, `device.c`, `netlink.c`)

`wg_socket_init` makes a pair of sockets, for IPv4 and, on the port that the first one got, for
IPv6; `wg_socket_reinit` puts them in the place of the old pair and frees that one after a grace
period. Both are called from `wg_open`, `wg_stop`, `set_port`, `wg_netns_pre_exit` and
`wg_destruct`, one call at a time, under the RTNL lock, or when nothing else can reach the device
any more. `send4` and `send6` read the pointers inside a read section, at any time.

A pair that is being made is not visible to anybody else, so making it is one step, with what
`udp_sock_create` answers as an argument.
-/

namespace WireguardAes

open Runs

def eaddrinuse : Int := -98
def enonet : Int := -64

structure Sock where
  id : Nat
  /-- `inet_sport` -/
  port : UInt16
  deriving DecidableEq

/-- The sockets that were made for the device. -/
structure UdpSocks where
  next : Nat
  ledger : Ledger Sock

namespace UdpSocks

def empty : UdpSocks := ⟨0, .empty⟩

def newSock (k : UdpSocks) (port : UInt16) : Sock := ⟨k.next, port⟩

def create (k : UdpSocks) (port : UInt16) : UdpSocks := ⟨k.next + 1, k.ledger.acquire (k.newSock port)⟩

/-- `udp_tunnel_sock_release` -/
def release (k : UdpSocks) (sock : Sock) : UdpSocks := ⟨k.next, k.ledger.release sock⟩

/-- What was made and not released is in `held`. -/
def Holds (k : UdpSocks) (held : List Sock) : Prop := k.ledger.Holds Sock.id k.next held

end UdpSocks

/-- What the two calls of `udp_sock_create` answer: for IPv4 with the port that is taken if none is
asked for. -/
structure SockAttempt where
  sock4 : Except Int UInt16
  sock6 : Except Int Unit

/-- How one pass through the body of `wg_socket_init` ends. -/
inductive SockPass where
  | made (new4 : Sock) (new6 : Option Sock)
  | failed4 (ret : Int)
  | failed6 (ret : Int)

def passSocks (port : UInt16) (ipv6ModEnabled : Bool) (attempt : SockAttempt) (k : UdpSocks) : SockPass × UdpSocks :=
  match attempt.sock4 with
  | .error ret => (.failed4 ret, k)
  | .ok picked =>
    let new4 := k.newSock (if port = 0 then picked else port)
    let k := k.create new4.port
    if !ipv6ModEnabled then (.made new4 none, k)
    else
      match attempt.sock6 with
      | .ok () => (.made new4 (some (k.newSock new4.port)), k.create new4.port)
      | .error ret => (.failed6 ret, k.release new4)

/-- The loop of `wg_socket_init`, with `left` retries. -/
def createSocks (port : UInt16) (ipv6ModEnabled : Bool) (attempts : Nat → SockAttempt) :
    Nat → UdpSocks → Except Int (Sock × Option Sock) × UdpSocks
  | left, k =>
    match passSocks port ipv6ModEnabled (attempts left) k, left with
    | (.made new4 new6, k), _ => (.ok (new4, new6), k)
    | (.failed4 ret, k), _ => (.error ret, k)
    | (.failed6 ret, k), 0 => (.error ret, k)
    | (.failed6 ret, k), left + 1 =>
      if ret = eaddrinuse ∧ port = 0 then createSocks port ipv6ModEnabled attempts left k else (.error ret, k)

/-- `retries++ < 100` -/
def maxSocketRetries : Nat := 100

/-- Where `send4` or `send6` is in its read section: before or after it has read the pointer. -/
structure SockReader where
  family : Family
  sock : Option Sock
  deriving DecidableEq

/-- How far `wg_socket_reinit` is; `net` says whether `wg_socket_init` has called it, which holds a
reference to the namespace. -/
inductive SocketCall where
  | none
  /-- Before the section under `socket_update_lock`. -/
  | reinit (new4 new6 : Option Sock) (net : Bool)
  /-- The pointers are exchanged. -/
  | exchanged (old : List Sock) (net : Bool)
  /-- `synchronize_net` waits for the sections that had begun. -/
  | synchronizing (old : List Sock) (mark : Nat) (net : Bool)
  | freeing (old : List Sock) (net : Bool)
  deriving DecidableEq

structure SocketDevice where
  /-- `creating_net` is not `NULL`. -/
  creatingNet : Bool
  netifRunning : Bool
  incomingPort : UInt16
  sock4 : Option Sock
  sock6 : Option Sock
  socks : UdpSocks
  call : SocketCall
  readers : ReadSections SockReader
  /-- References to the namespace that `wg_socket_init` holds. -/
  netRefs : Nat
  destroyed : Bool

/-- The answers of the kernel to a call of `wg_socket_init`. -/
structure SocketAnswers where
  /-- `maybe_get_net` -/
  maybeGetNet : Bool
  ipv6ModEnabled : Bool
  attempts : Nat → SockAttempt

inductive SocketEvent where
  /-- The interface is brought up. -/
  | wgOpen (answers : SocketAnswers)
  | wgStop
  | setPort (port : UInt16) (answers : SocketAnswers)
  | wgNetnsPreExit
  | wgDestruct
  -- `wg_socket_reinit`
  | exchange
  | synchronizeNet
  | synchronized
  | sockFree
  -- `send4`, `send6`
  | enter (family : Family)
  | dereference (i : Nat)
  | leave (i : Nat)

namespace SocketDevice

/-- As `wg_newlink` leaves it. -/
def new : SocketDevice where
  creatingNet := true
  netifRunning := false
  incomingPort := 0
  sock4 := none
  sock6 := none
  socks := .empty
  call := .none
  readers := .empty
  netRefs := 0
  destroyed := false

def setRunning (s : SocketDevice) (running : Bool) : SocketDevice := { s with netifRunning := running }

def setCall (s : SocketDevice) (call : SocketCall) : SocketDevice := { s with call := call }

def setSocks (s : SocketDevice) (socks : UdpSocks) : SocketDevice := { s with socks := socks }

def setIncomingPort (s : SocketDevice) (port : UInt16) : SocketDevice := { s with incomingPort := port }

def setReaders (s : SocketDevice) (readers : ReadSections SockReader) : SocketDevice := { s with readers := readers }

def getNet (s : SocketDevice) : SocketDevice := { s with netRefs := s.netRefs + 1 }

def putNet (s : SocketDevice) : SocketDevice := { s with netRefs := s.netRefs - 1 }

def dropNet (s : SocketDevice) : SocketDevice := { s with creatingNet := false }

/-- `wg_socket_init` up to `wg_socket_reinit`, with what it returns if it does not get there. -/
def wgSocketInit (s : SocketDevice) (port : UInt16) (answers : SocketAnswers) : Except Int Unit × SocketDevice :=
  if !(s.creatingNet && answers.maybeGetNet) then (.error enonet, s)
  else
    let out := createSocks port answers.ipv6ModEnabled answers.attempts maxSocketRetries s.socks
    match out.1 with
    | .error ret => (.error ret, (s.getNet.setSocks out.2).putNet)
    | .ok (new4, new6) => (.ok (), (s.getNet.setSocks out.2).setCall (.reinit (some new4) new6 true))

/-- The section of `wg_socket_reinit` under `socket_update_lock`. -/
def exchange (s : SocketDevice) (new4 new6 : Option Sock) (net : Bool) : SocketDevice :=
  { s with
    sock4 := new4
    sock6 := new6
    incomingPort := (new4.map Sock.port).getD s.incomingPort
    call := .exchanged (s.sock4.toList ++ s.sock6.toList) net }

def reinitNone (s : SocketDevice) : SocketDevice := s.setCall (.reinit none none false)

/-- The pointer that `send4` or `send6` reads. -/
def sock (s : SocketDevice) : Family → Option Sock
  | .v4 => s.sock4
  | .v6 => s.sock6

def step (s : SocketDevice) : SocketEvent → Option SocketDevice
  | .wgOpen answers =>
    if s.call = .none ∧ s.netifRunning = false ∧ s.destroyed = false then
      -- `netif_running` is set before `wg_open` is called, and cleared again if that fails
      match (s.setRunning true).wgSocketInit s.incomingPort answers with
      | (.ok (), t) => some t
      | (.error _, t) => some (t.setRunning false)
    else none
  | .wgStop =>
    if s.call = .none ∧ s.netifRunning = true then some (s.setRunning false).reinitNone else none
  | .setPort port answers =>
    -- `wg_set_device` has asked for `creating_net` before
    if s.call = .none ∧ s.destroyed = false ∧ s.creatingNet = true then
      if s.incomingPort = port then some s
      else if !s.netifRunning then some (s.setIncomingPort port)
      else some (s.wgSocketInit port answers).2
    else none
  | .wgNetnsPreExit =>
    if s.call = .none ∧ s.destroyed = false ∧ s.creatingNet = true then some s.dropNet.reinitNone else none
  | .wgDestruct =>
    if s.call = .none ∧ s.destroyed = false ∧ s.netifRunning = false then
      some ({ s.dropNet with destroyed := true, incomingPort := 0 } : SocketDevice).reinitNone
    else none
  | .exchange =>
    match s.call with
    | .reinit new4 new6 net => some (s.exchange new4 new6 net)
    | _ => none
  | .synchronizeNet =>
    match s.call with
    | .exchanged old net => some (s.setCall (.synchronizing old s.readers.began net))
    | _ => none
  | .synchronized =>
    match s.call with
    | .synchronizing old mark net => if s.readers.GraceOver mark then some (s.setCall (.freeing old net)) else none
    | _ => none
  | .sockFree =>
    match s.call with
    | .freeing (sock :: old) net => some ((s.setSocks (s.socks.release sock)).setCall (.freeing old net))
    | .freeing [] net => some ((if net then s.putNet else s).setCall .none)
    | _ => none
  | .enter family => some (s.setReaders (s.readers.enter ⟨family, none⟩))
  | .dereference i => some (s.setReaders (s.readers.modify i fun x => ⟨x.family, s.sock x.family⟩))
  | .leave i => some (s.setReaders (s.readers.leave i))

end SocketDevice

/-! ### Making a pair of sockets -/

namespace UdpSocks

variable {k : UdpSocks} {held : List Sock}

theorem Holds.create (h : k.Holds held) (port : UInt16) : (k.create port).Holds (k.newSock port :: held) :=
  Ledger.Holds.acquire h (Nat.le_refl _)

theorem Holds.release {sock : Sock} (h : k.Holds (sock :: held)) : (k.release sock).Holds held := Ledger.Holds.release h

/-- What is held has not been released, and nothing was released twice. -/
theorem Holds.notMem_released (h : k.Holds held) {sock : Sock} (hs : sock ∈ held) : sock ∉ k.ledger.released := by
  have hnodup := (h.perm.nodup_iff.mp h.nodup)
  exact (List.disjoint_of_nodup_append hnodup) hs

theorem Holds.released_nodup (h : k.Holds held) : k.ledger.released.Nodup :=
  (h.perm.nodup_iff.mp h.nodup).of_append_right

end UdpSocks

section
variable {held : List Sock} (port : UInt16) (ipv6ModEnabled : Bool)

/-- A pass that fails gives back what it has taken, and one that succeeds has a pair on one port. -/
def SockPass.Leaves (k : UdpSocks) (held : List Sock) : SockPass → Prop
  | .made new4 new6 => k.Holds (new4 :: (new6.toList ++ held)) ∧ (∀ sock ∈ new6, sock.port = new4.port) ∧
      (port ≠ 0 → new4.port = port)
  | .failed4 _ => k.Holds held
  | .failed6 _ => k.Holds held

theorem passSocks_spec (attempt : SockAttempt) {k : UdpSocks} (hk : k.Holds held) :
    (passSocks port ipv6ModEnabled attempt k).1.Leaves port (passSocks port ipv6ModEnabled attempt k).2 held := by
  unfold passSocks
  split
  · exact hk
  case h_2 picked _ =>
  have h4 := hk.create (if port = 0 then picked else port)
  have hport : port ≠ 0 → (k.newSock (if port = 0 then picked else port)).port = port := fun hp => if_neg hp
  dsimp only
  split
  · exact ⟨h4, by simp, hport⟩
  split
  · refine ⟨Ledger.Holds.congr (h4.create _) (List.Perm.swap ..), ?_, hport⟩
    rintro sock ⟨⟩
    rfl
  · exact h4.release

/-- What the loop returns with: nothing new is held if it fails. -/
theorem createSocks_spec (attempts : Nat → SockAttempt) (left : Nat) {k : UdpSocks} (hk : k.Holds held) :
    match createSocks port ipv6ModEnabled attempts left k with
    | (.error _, k) => k.Holds held
    | (.ok (new4, new6), k) => k.Holds (new4 :: (new6.toList ++ held)) ∧ (∀ sock ∈ new6, sock.port = new4.port) ∧
        (port ≠ 0 → new4.port = port) := by
  induction left generalizing k with
  | zero =>
    have hpass := passSocks_spec port ipv6ModEnabled (attempts 0) hk
    unfold createSocks
    generalize passSocks port ipv6ModEnabled (attempts 0) k = out at hpass ⊢
    obtain ⟨_ | _ | _, k'⟩ := out <;> exact hpass
  | succ left ih =>
    have hpass := passSocks_spec port ipv6ModEnabled (attempts (left + 1)) hk
    unfold createSocks
    generalize passSocks port ipv6ModEnabled (attempts (left + 1)) k = out at hpass ⊢
    obtain ⟨_ | _ | ret, k'⟩ := out
    · exact hpass
    · exact hpass
    · dsimp only
      by_cases hretry : ret = eaddrinuse ∧ port = 0
      · rw [if_pos hretry]
        exact ih hpass
      · rw [if_neg hretry]
        exact hpass

end

namespace SocketCall

/-- The sockets that only the call knows: not yet published, or not any more. -/
def held : SocketCall → List Sock
  | none => []
  | reinit new4 new6 _ => new4.toList ++ new6.toList
  | exchanged old _ => old
  | synchronizing old _ _ => old
  | freeing old _ => old

def holdsNet : SocketCall → Bool
  | none => false
  | reinit _ _ net => net
  | exchanged _ net => net
  | synchronizing _ _ net => net
  | freeing _ net => net

/-- The section numbered `n` may still have the socket, though it is not published any more. -/
def MayUse (n : Nat) (sock : Sock) : SocketCall → Prop
  | exchanged old _ => sock ∈ old
  | synchronizing old mark _ => sock ∈ old ∧ n < mark
  | _ => False

theorem MayUse.mem_held {n : Nat} {sock : Sock} {call : SocketCall} (h : call.MayUse n sock) : sock ∈ call.held := by
  cases call with
  | exchanged => exact h
  | synchronizing => exact h.1
  | _ => exact h.elim

end SocketCall

namespace SocketDevice

/-- The sockets that are published. -/
def live (s : SocketDevice) : List Sock := s.sock4.toList ++ s.sock6.toList

/-- The pair that is published once the call in progress has exchanged it. -/
def target (s : SocketDevice) : Option Sock × Option Sock :=
  match s.call with
  | .reinit new4 new6 _ => (new4, new6)
  | _ => (s.sock4, s.sock6)

/-- The socket for IPv6 has the port of the one for IPv4. -/
def OnePort (pair : Option Sock × Option Sock) : Prop := ∀ b ∈ pair.2, ∃ a ∈ pair.1, b.port = a.port

structure Inv (s : SocketDevice) : Prop where
  holds : s.socks.Holds (s.live ++ s.call.held)
  readers : ∀ x ∈ s.readers.active, ∀ sock ∈ x.2.sock, sock ∈ s.live ∨ s.call.MayUse x.1 sock
  onePort : OnePort (s.sock4, s.sock6)
  target : OnePort s.target
  port : ∀ a ∈ s.sock4, a.port = s.incomingPort
  running : s.target.1.isSome = (s.netifRunning && s.creatingNet)
  netRefs : s.netRefs = if s.call.holdsNet then 1 else 0

namespace Inv

variable {s t : SocketDevice}

theorem new : Inv SocketDevice.new := by
  refine ⟨Ledger.Holds.empty, ?_, ?_, ?_, ?_, rfl, rfl⟩
  · rintro x ⟨⟩
  all_goals rintro b ⟨⟩

/-- Nothing is published while the interface is down or the namespace is gone. -/
theorem live_eq_nil (h : Inv s) (hcall : s.call = .none) (hdown : (s.netifRunning && s.creatingNet) = false) :
    s.sock4 = none ∧ s.sock6 = none := by
  have hrun := h.running
  have htarget : s.target = (s.sock4, s.sock6) := by
    rw [SocketDevice.target, hcall]
  rw [htarget, hdown, Option.isSome_eq_false_iff, Option.isNone_iff_eq_none] at hrun
  refine ⟨hrun, ?_⟩
  cases h6 : s.sock6 with
  | none => rfl
  | some b =>
    obtain ⟨a, ha, -⟩ := h.onePort b h6
    rw [hrun] at ha
    cases ha

/-- A call of `wg_socket_init` or `wg_socket_reinit` begins; until the exchange nothing changes for
the readers. -/
theorem begin (h : Inv s) (hcall : s.call = .none) (new4 new6 : Option Sock) (net : Bool)
    (hsock4 : t.sock4 = s.sock4) (hsock6 : t.sock6 = s.sock6) (hreaders : t.readers = s.readers)
    (hport : ∀ a ∈ t.sock4, a.port = t.incomingPort) (hcall' : t.call = .reinit new4 new6 net)
    (hholds : t.socks.Holds (s.live ++ (new4.toList ++ new6.toList))) (hone : OnePort (new4, new6))
    (hrun : new4.isSome = (t.netifRunning && t.creatingNet)) (hnet : t.netRefs = if net then 1 else 0) : Inv t := by
  have htarget : t.target = (new4, new6) := by
    rw [SocketDevice.target, hcall']
  have hlive : t.live = s.live := by
    rw [live, live, hsock4, hsock6]
  refine ⟨?_, fun x hx sock hsock => ?_, ?_, ?_, hport, ?_, ?_⟩
  · rw [hlive, hcall']
    exact hholds
  · rw [hreaders] at hx
    have hold := h.readers x hx sock hsock
    rw [hcall] at hold
    rw [hlive]
    exact .inl (hold.resolve_right id)
  · rw [hsock4, hsock6]
    exact h.onePort
  · rw [htarget]
    exact hone
  · rw [htarget]
    exact hrun
  · rw [hnet, hcall']
    rfl

theorem setSocks (h : Inv s) {k : UdpSocks} (hk : k.Holds (s.live ++ s.call.held)) : Inv (s.setSocks k) :=
  ⟨hk, h.readers, h.onePort, h.target, h.port, h.running, h.netRefs⟩

theorem wgSocketInit (h : Inv s) (hcall : s.call = .none) (port : UInt16) (answers : SocketAnswers) :
    match (s.setRunning true).wgSocketInit port answers with
    | (.ok (), t) => Inv t
    | (.error _, t) => Inv (t.setRunning s.netifRunning) := by
  have hholds : s.socks.Holds s.live := by
    have hk := h.holds
    rw [hcall] at hk
    simpa [SocketCall.held] using hk
  have hrefs : s.netRefs = 0 := by
    have hn := h.netRefs
    rw [hcall] at hn
    exact hn
  unfold SocketDevice.wgSocketInit
  by_cases hnet : (!((s.setRunning true).creatingNet && answers.maybeGetNet)) = true
  · rw [if_pos hnet]
    exact h
  rw [if_neg hnet]
  have hcreating : s.creatingNet = true := by
    simp only [Bool.not_eq_true', Bool.not_eq_false, Bool.and_eq_true] at hnet
    exact hnet.1
  have hmade := createSocks_spec port answers.ipv6ModEnabled answers.attempts maxSocketRetries hholds
  have hsocks : (s.setRunning true).socks = s.socks := rfl
  dsimp only
  rw [hsocks]
  generalize createSocks port answers.ipv6ModEnabled answers.attempts maxSocketRetries s.socks = out at hmade ⊢
  obtain ⟨ret | ⟨new4, new6⟩, k⟩ := out
  · -- nothing is left of the attempts
    refine h.setSocks (k := k) ?_
    rw [hcall]
    simpa [SocketCall.held] using hmade
  · obtain ⟨hk, hone, -⟩ := hmade
    refine h.begin hcall (some new4) new6 true rfl rfl rfl h.port rfl ?_ ?_ ?_ ?_
    · have hperm : ((new4 :: new6.toList) ++ s.live).Perm (s.live ++ new4 :: new6.toList) := List.perm_append_comm
      exact Ledger.Holds.congr hk hperm
    · exact fun b hb => ⟨new4, rfl, hone b hb⟩
    · show true = (true && s.creatingNet)
      rw [hcreating]
      rfl
    · show s.netRefs + 1 = 1
      rw [hrefs]

theorem reinitNone (h : Inv s) (hcall : s.call = .none) (hsock4 : t.sock4 = s.sock4) (hsock6 : t.sock6 = s.sock6)
    (hsocks : t.socks = s.socks) (hreaders : t.readers = s.readers) (hrefs : t.netRefs = s.netRefs)
    (hport : ∀ a ∈ t.sock4, a.port = t.incomingPort) (hdown : (t.netifRunning && t.creatingNet) = false) :
    Inv t.reinitNone := by
  have hholds := h.holds
  have hn := h.netRefs
  rw [hcall] at hholds hn
  refine h.begin hcall none none false hsock4 hsock6 hreaders hport rfl ?_ ?_ ?_ ?_
  · rw [← hsocks] at hholds
    exact hholds
  · rintro b ⟨⟩
  · show false = (t.netifRunning && t.creatingNet)
    rw [hdown]
  · exact hrefs.trans hn

theorem advance (h : Inv s) {call : SocketCall} (hnew : ∀ new4 new6 net, s.call ≠ .reinit new4 new6 net)
    (hnew' : ∀ new4 new6 net, call ≠ .reinit new4 new6 net) (hheld : call.held = s.call.held)
    (hnet : call.holdsNet = s.call.holdsNet)
    (huse : ∀ x ∈ s.readers.active, ∀ sock ∈ x.2.sock, s.call.MayUse x.1 sock → call.MayUse x.1 sock) :
    Inv (s.setCall call) := by
  have htarget : ∀ u : SocketDevice, (∀ new4 new6 net, u.call ≠ .reinit new4 new6 net) → u.target =
    (u.sock4, u.sock6) := by
    intro u hu
    unfold SocketDevice.target
    split
    · exact absurd ‹_› (hu _ _ _)
    · rfl
  have ht : (s.setCall call).target = s.target := (htarget (s.setCall call) hnew').trans (htarget s hnew).symm
  refine ⟨?_, fun x hx sock hsock => ?_, h.onePort, ht ▸ h.target, h.port, ht ▸ h.running, ?_⟩
  · have hk := h.holds
    rw [← hheld] at hk
    exact hk
  · exact (h.readers x hx sock hsock).imp id (huse x hx sock hsock)
  · exact h.netRefs.trans (by rw [← hnet]; rfl)

theorem exchange (h : Inv s) {new4 new6 : Option Sock} {net : Bool} (hcall : s.call = .reinit new4 new6 net) :
    Inv (s.exchange new4 new6 net) := by
  have htarget : s.target = (new4, new6) := by
    rw [SocketDevice.target, hcall]
  have hone := h.target
  have hrun := h.running
  have hholds := h.holds
  have hrefs := h.netRefs
  rw [htarget] at hone hrun
  rw [hcall] at hholds hrefs
  refine ⟨Ledger.Holds.congr hholds List.perm_append_comm, fun x hx sock hsock => ?_, hone, hone, ?_, hrun, hrefs⟩
  · -- whoever had a socket of the old pair may go on with it for now
    have hold := h.readers x hx sock hsock
    rw [hcall] at hold
    exact .inr (hold.resolve_right id)
  · rintro a rfl
    rfl

theorem sockFree (h : Inv s) {sock : Sock} {old : List Sock} {net : Bool}
    (hcall : s.call = .freeing (sock :: old) net) :
    Inv ((s.setSocks (s.socks.release sock)).setCall (.freeing old net)) := by
  have hholds := h.holds
  have hrefs := h.netRefs
  have htarget : s.target = (s.sock4, s.sock6) := by
    rw [SocketDevice.target, hcall]
  have hone := h.target
  have hrun := h.running
  rw [htarget] at hone hrun
  rw [hcall] at hholds hrefs
  refine ⟨?_, fun x hx y hy => ?_, h.onePort, hone, h.port, hrun, hrefs⟩
  · exact UdpSocks.Holds.release (Ledger.Holds.congr hholds List.perm_middle)
  · have hold := h.readers x hx y hy
    rw [hcall] at hold
    exact hold

theorem finish (h : Inv s) {net : Bool} (hcall : s.call = .freeing [] net) :
    Inv ((if net then s.putNet else s).setCall .none) := by
  have hholds := h.holds
  have hrefs := h.netRefs
  have htarget : s.target = (s.sock4, s.sock6) := by
    rw [SocketDevice.target, hcall]
  have hone := h.target
  have hrun := h.running
  have hreaders : ∀ x ∈ s.readers.active, ∀ y ∈ x.2.sock, y ∈ s.live ∨ False := by
    intro x hx y hy
    have hold := h.readers x hx y hy
    rw [hcall] at hold
    exact hold
  rw [htarget] at hone hrun
  rw [hcall] at hholds hrefs
  cases net with
  | false => exact ⟨hholds, hreaders, h.onePort, hone, h.port, hrun, hrefs⟩
  | true =>
    refine ⟨hholds, hreaders, h.onePort, hone, h.port, hrun, ?_⟩
    show s.netRefs - 1 = 0
    rw [hrefs]
    rfl

theorem setReaders (h : Inv s) {readers : ReadSections SockReader}
    (hr : ∀ x ∈ readers.active, ∀ sock ∈ x.2.sock, sock ∈ s.live ∨ s.call.MayUse x.1 sock) :
    Inv (s.setReaders readers) :=
  ⟨h.holds, hr, h.onePort, h.target, h.port, h.running, h.netRefs⟩

theorem mem_live {family : Family} {sock : Sock} (h : sock ∈ s.sock family) : sock ∈ s.live := by
  cases family with
  | v4 => exact List.mem_append_left _ (Option.mem_toList.mpr h)
  | v6 => exact List.mem_append_right _ (Option.mem_toList.mpr h)

theorem wgSocketInit_netifRunning (s : SocketDevice) (port : UInt16) (answers : SocketAnswers) :
    (s.wgSocketInit port answers).2.netifRunning = s.netifRunning := by
  unfold SocketDevice.wgSocketInit
  split
  · rfl
  dsimp only
  split <;> rfl

theorem step_wgOpen {answers : SocketAnswers} (h : Inv s) (hs : s.step (.wgOpen answers) = some t) : Inv t := by
  simp only [SocketDevice.step] at hs
  split at hs
  case isFalse => cases hs
  case isTrue hpre =>
  have hinit := h.wgSocketInit hpre.1 s.incomingPort answers
  split at hs
  case h_1 heq =>
    rw [heq] at hinit
    cases hs
    exact hinit
  case h_2 heq =>
    rw [heq] at hinit
    cases hs
    rw [hpre.2.1] at hinit
    exact hinit

/-- `set_port`: while the interface is down only the port is noted. -/
theorem step_setPort {port : UInt16} {answers : SocketAnswers} (h : Inv s)
    (hs : s.step (.setPort port answers) = some t) : Inv t := by
  simp only [SocketDevice.step] at hs
  split at hs
  case isFalse => cases hs
  case isTrue hpre =>
  split at hs
  · cases hs
    exact h
  split at hs
  · cases hs
    case isFalse hdown =>
    have hnone := h.live_eq_nil hpre.1 (by simp at hdown; simp [hdown])
    refine ⟨h.holds, h.readers, h.onePort, h.target, ?_, h.running, h.netRefs⟩
    intro a ha
    rw [show (s.setIncomingPort port).sock4 = s.sock4 from rfl, hnone.1] at ha
    cases ha
  · cases hs
    case isFalse hup =>
    have hrunning : s.netifRunning = true := by simpa using hup
    have hs' : s.setRunning true = s := by
      rw [← hrunning]
      rfl
    have hinit := h.wgSocketInit hpre.1 port answers
    have hup' := wgSocketInit_netifRunning s port answers
    rw [hs', hrunning] at hinit
    rw [hrunning] at hup'
    generalize s.wgSocketInit port answers = out at hinit hup' ⊢
    obtain ⟨ret | ret, t⟩ := out
    · -- the failed call leaves the interface as it was, up
      rw [← hup'] at hinit
      exact hinit
    · exact hinit

theorem step {e : SocketEvent} (h : Inv s) (hs : s.step e = some t) : Inv t := by
  cases e with
  | wgOpen answers => exact h.step_wgOpen hs
  | wgStop =>
    obtain ⟨hcond, ⟨⟩⟩ := Option.ite_none_right_eq_some.mp hs
    exact h.reinitNone ‹_ ∧ _›.1 rfl rfl rfl rfl rfl h.port rfl
  | setPort port answers => exact h.step_setPort hs
  | wgNetnsPreExit =>
    obtain ⟨hcond, ⟨⟩⟩ := Option.ite_none_right_eq_some.mp hs
    exact h.reinitNone ‹_ ∧ _›.1 rfl rfl rfl rfl rfl h.port (Bool.and_false _)
  | wgDestruct =>
    simp only [SocketDevice.step] at hs
    split at hs
    case isFalse => cases hs
    case isTrue hpre =>
    cases hs
    refine h.reinitNone hpre.1 rfl rfl rfl rfl rfl ?_ (Bool.and_false _)
    intro a ha
    have hnone := h.live_eq_nil hpre.1 (by rw [hpre.2.2]; rfl)
    rw [show s.sock4 = some a from ha] at hnone
    cases hnone.1
  | exchange =>
    simp only [SocketDevice.step] at hs
    split at hs
    · cases hs
      exact h.exchange ‹_›
    · cases hs
  | synchronizeNet =>
    simp only [SocketDevice.step] at hs
    split at hs
    case h_1 old net hcall =>
      cases hs
      refine h.advance (by simp [hcall]) (by simp) (by rw [hcall]; rfl) (by rw [hcall]; rfl) fun x hx sock _ huse => ?_
      rw [hcall] at huse
      exact ⟨huse, s.readers.lt_began x hx⟩
    · cases hs
  | synchronized =>
    simp only [SocketDevice.step] at hs
    split at hs
    case h_2 => cases hs
    case h_1 old mark net hcall =>
    obtain ⟨hover, ⟨⟩⟩ := Option.ite_none_right_eq_some.mp hs
    refine h.advance (by simp [hcall]) (by simp) (by rw [hcall]; rfl) (by rw [hcall]; rfl) fun x hx sock _ huse => ?_
    rw [hcall] at huse
    exact absurd (hover x hx) (Nat.not_le.mpr huse.2)
  | sockFree =>
    simp only [SocketDevice.step] at hs
    split at hs
    · cases hs
      exact h.sockFree ‹_›
    · cases hs
      exact h.finish ‹_›
    · cases hs
  | enter family =>
    cases hs
    exact h.setReaders (ReadSections.forall_enter h.readers (by simp))
  | dereference i =>
    cases hs
    exact h.setReaders (ReadSections.forall_modify h.readers i fun x _ sock hsock => .inl (mem_live hsock))
  | leave i =>
    cases hs
    exact h.setReaders (ReadSections.forall_leave h.readers i)

end Inv

/-! ### Runs -/

abbrev Reachable (s : SocketDevice) : Prop := Exec SocketDevice.step (fun _ _ => True) new s

theorem Reachable.inv {s : SocketDevice} (h : Reachable s) : Inv s := Exec.inv h Inv.new fun _ _ _ _ h hs => h.step hs

/-- Without the namespace no socket is made any more, and it does not come back. -/
theorem step_creatingNet {s t : SocketDevice} {e : SocketEvent} (h : s.creatingNet = false) (hs : s.step e = some t) :
    t.creatingNet = false ∧ t.socks.next = s.socks.next := by
  have hinit : ∀ (u : SocketDevice) port answers, u.creatingNet = false →
      u.wgSocketInit port answers = (.error enonet, u) := by
    intro u port answers hu
    simp [SocketDevice.wgSocketInit, hu]
  cases e with
  | wgOpen answers =>
    simp only [SocketDevice.step, hinit (s.setRunning true) _ answers h] at hs
    obtain ⟨-, ⟨⟩⟩ := Option.ite_none_right_eq_some.mp hs
    exact ⟨h, rfl⟩
  | setPort port answers =>
    simp [SocketDevice.step, h] at hs
  | wgStop | wgNetnsPreExit | wgDestruct =>
    obtain ⟨-, ⟨⟩⟩ := Option.ite_none_right_eq_some.mp hs
    first | exact ⟨h, rfl⟩ | exact ⟨rfl, rfl⟩
  | exchange | synchronizeNet =>
    simp only [SocketDevice.step] at hs
    split at hs
    · cases hs
      exact ⟨h, rfl⟩
    · cases hs
  | synchronized =>
    simp only [SocketDevice.step] at hs
    split at hs
    · split at hs
      · cases hs
        exact ⟨h, rfl⟩
      · cases hs
    · cases hs
  | sockFree =>
    simp only [SocketDevice.step] at hs
    split at hs
    · cases hs
      exact ⟨h, rfl⟩
    · cases hs
      split <;> exact ⟨h, rfl⟩
    · cases hs
  | enter | dereference | leave =>
    cases hs
    exact ⟨h, rfl⟩

/-- In every run nobody has a socket that was freed, and none is freed twice. A pair that is
published is on the port that the device tells. Between the calls the device has a socket exactly
while it is up and its namespace is there, every other one that it has made is freed, and no
reference to the namespace is left. Once the namespace is gone no socket is made again. -/
theorem sockets_safe {s t : SocketDevice} (hs : Reachable s) (ht : Exec SocketDevice.step (fun _ _ => True) s t) :
    (∀ x ∈ s.readers.active, ∀ sock ∈ x.2.sock, sock ∉ s.socks.ledger.released) ∧
    s.socks.ledger.released.Nodup ∧
    (∀ sock ∈ s.live, sock.port = s.incomingPort) ∧
    (s.call = .none →
      s.socks.ledger.acquired.Perm (s.live ++ s.socks.ledger.released) ∧
      s.sock4.isSome = (s.netifRunning && s.creatingNet) ∧
      ((s.netifRunning && s.creatingNet) = false → s.socks.ledger.acquired.Perm s.socks.ledger.released) ∧
      s.netRefs = 0) ∧
    (s.creatingNet = false → t.socks.next = s.socks.next) := by
  have h := hs.inv
  refine ⟨fun x hx sock hsock => ?_, h.holds.released_nodup, fun sock hsock => ?_, fun hcall => ?_, fun hnet => ?_⟩
  · refine h.holds.notMem_released ?_
    exact List.mem_append.mpr ((h.readers x hx sock hsock).imp id SocketCall.MayUse.mem_held)
  · rcases List.mem_append.mp hsock with h4 | h6
    · exact h.port sock (Option.mem_toList.mp h4)
    · obtain ⟨a, ha, hport⟩ := h.onePort sock (Option.mem_toList.mp h6)
      exact hport.trans (h.port a ha)
  · have hperm := h.holds.perm
    have hrun := h.running
    have hrefs := h.netRefs
    have htarget : s.target = (s.sock4, s.sock6) := by
      rw [target, hcall]
    rw [htarget] at hrun
    rw [hcall] at hperm hrefs
    rw [SocketCall.held, List.append_nil] at hperm
    refine ⟨hperm, hrun, fun hdown => ?_, hrefs⟩
    obtain ⟨h4, h6⟩ := h.live_eq_nil hcall hdown
    rw [live, h4, h6] at hperm
    exact hperm
  · refine (ht.inv (I := fun u => u.creatingNet = false ∧ u.socks.next = s.socks.next) ⟨hnet, rfl⟩ ?_).2
    intro u e v _ hu he
    obtain ⟨hv, hnext⟩ := step_creatingNet hu.1 he
    exact ⟨hv, hnext.trans hu.2⟩

/-- The port for IPv4 that is taken first is not free for IPv6, so that the pair is made in the
second pass; a packet is being sent when the namespace goes away, and the old pair is freed once it
is sent. -/
theorem sockets_safe_sample :
    ∃ s t : SocketDevice, Reachable s ∧ Exec SocketDevice.step (fun _ _ => True) s t ∧ s.creatingNet = false ∧
      (s.readers.active = [(0, ⟨.v4, some ⟨1, 9⟩⟩)] ∧ ⟨1, 9⟩ ∉ s.socks.ledger.released) ∧
      (t.call = .none ∧ t.socks.ledger.acquired.Perm t.socks.ledger.released) ∧
      t.socks.next = s.socks.next := by
  let finished (t : SocketDevice) : SocketCall × Bool := (t.call, t.creatingNet)
  have hmid : ∃ s : SocketDevice, Reachable s ∧
      (s.creatingNet, s.readers.active, ([SocketEvent.synchronizeNet, .leave 0, .synchronized, .sockFree, .sockFree,
        .sockFree].foldlM (fun s e => if True then SocketDevice.step s e else none) s).map finished) =
        (false, [(0, ⟨.v4, some ⟨1, 9⟩⟩)], some (.none, false)) :=
    Exec.exists_of_foldlM
      [.wgOpen ⟨true, true, fun left => if left = 100 then ⟨.ok 7, .error eaddrinuse⟩ else ⟨.ok 9, .ok ()⟩⟩,
        .exchange, .synchronizeNet, .synchronized, .sockFree, .enter .v4, .dereference 0, .wgNetnsPreExit, .exchange]
      (fun s : SocketDevice => _) (by decide +kernel)
  obtain ⟨s, hs, hres⟩ := hmid
  obtain ⟨hnet, hres⟩ := Prod.mk.inj hres
  obtain ⟨hreaders, hrest⟩ := Prod.mk.inj hres
  have hend : ∃ t, Exec SocketDevice.step (fun _ _ => True) s t ∧ finished t = (.none, false) :=
    Exec.exists_of_foldlM _ finished hrest
  obtain ⟨t, ht, hfin⟩ := hend
  obtain ⟨hcall, hnet'⟩ := Prod.mk.inj hfin
  obtain ⟨hread, -, -, -, hmade⟩ := sockets_safe hs ht
  obtain ⟨-, -, -, hidle, -⟩ := sockets_safe (hs.trans ht) (.refl t)
  refine ⟨s, t, hs, ht, hnet, ⟨hreaders, ?_⟩, ⟨hcall, (hidle hcall).2.2.1 ?_⟩, hmade hnet⟩
  · exact hread (0, ⟨.v4, some ⟨1, 9⟩⟩) (by rw [hreaders]; exact List.mem_singleton_self _) _ rfl
  · rw [hnet', Bool.and_false]

end SocketDevice
end WireguardAes
