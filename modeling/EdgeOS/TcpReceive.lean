import EdgeOS.Lib.Runs
import EdgeOS.SocketTransfer
import Mathlib.Data.List.TakeDrop

namespace EdgeOS

open Lib List

/-!
The receiving side of a TCP socket: segments arrive in the receive callback, between receives of
any lengths. The callback acknowledges the whole segment and keeps as much of it as fits.
-/

/-- A TCP socket. `acked` and `returned` are not in the source: the payloads passed to
`tcp_recved` and the bytes that `do_sys_recvfrom` has returned. -/
structure TcpSocket where
  sock : Socket
  stream : sock.type = linuxSockStream
  rx : List UInt8 := []
  acked : List UInt8 := []
  returned : List UInt8 := []

/-- What can happen: a segment, with an error or without, the end of the stream, a receive. -/
inductive TcpEvent
  | segment (payload : List UInt8) (err : Bool)
  | finished
  | recv (buf : ReadBuf) (env : RecvEnv)

namespace TcpSocket

variable (s : TcpSocket)

/-- `edge_tcp_recv_cb` and `do_sys_recvfrom`. -/
def step : TcpEvent → TcpSocket
  | .segment payload err =>
    if err then s else { s with rx := edgeTcpRecvCb s.rx payload, acked := s.acked ++ payload }
  | .finished => { s with sock := { s.sock with closed := true }, stream := s.stream }
  | .recv buf env =>
    let out := doSysRecvfrom s.sock s.rx buf env
    { s with rx := out.1, returned := s.returned ++ out.2.value [] }

/-- What has been returned and what is kept is what has been acknowledged. -/
def Conserves : Prop := s.returned ++ s.rx = s.acked

def Fits : TcpEvent → Prop
  | .segment payload err => err = false → payload.length ≤ rxBufSize - s.rx.length
  | _ => True

def fresh (sock : { x : Socket // x.type = linuxSockStream }) : TcpSocket := ⟨sock.1, sock.2, [], [], []⟩

variable {s}

/-- Nothing is lost up to here, and the buffer is within its bounds. -/
structure Sound (s : TcpSocket) : Prop where
  bound : s.rx.length ≤ rxBufSize
  conserves : s.Conserves

theorem step_bound (h : s.rx.length ≤ rxBufSize) (e : TcpEvent) : (s.step e).rx.length ≤ rxBufSize := by
  cases e with
  | segment payload err =>
    cases err with
    | true => exact h
    | false =>
      change (edgeTcpRecvCb s.rx payload).length ≤ rxBufSize
      rw [tcpRecvCb_eq h, length_append, length_take]
      omega
  | finished => exact h
  | recv buf env =>
    have hlen := congrArg List.length (recvfrom_spec s.stream s.rx buf env)
    rw [length_append] at hlen
    change (doSysRecvfrom s.sock s.rx buf env).1.length ≤ rxBufSize
    omega

/-- A step loses nothing if and only if the segment fits. -/
theorem Sound.conserves_iff (h : s.Sound) (e : TcpEvent) : s.Fits e ↔ (s.step e).Conserves := by
  cases e with
  | segment payload err =>
    cases err with
    | true => exact iff_of_true (fun herr => Bool.noConfusion herr) h.conserves
    | false =>
      have hcons : s.returned ++ s.rx = s.acked := h.conserves
      have hkept : (s.step (.segment payload false)).Conserves ↔ payload.take (rxBufSize - s.rx.length) = payload := by
        change s.returned ++ edgeTcpRecvCb s.rx payload = s.acked ++ payload ↔ _
        rw [tcpRecvCb_eq h.bound, ← append_assoc, hcons, append_cancel_left_eq]
      rw [hkept, take_eq_self_iff]
      exact ⟨fun hfits => hfits rfl, fun hle _ => hle⟩
  | finished => exact iff_of_true trivial h.conserves
  | recv buf env =>
    refine iff_of_true trivial ?_
    -- a receive moves bytes from the buffer to its caller
    have hcons : s.returned ++ s.rx = s.acked := h.conserves
    change s.returned ++ (doSysRecvfrom s.sock s.rx buf env).2.value [] ++
      (doSysRecvfrom s.sock s.rx buf env).1 = s.acked
    rw [append_assoc, ← recvfrom_spec s.stream]
    exact hcons

end TcpSocket

theorem fresh_sound (sock : { x : Socket // x.type = linuxSockStream }) : (TcpSocket.fresh sock).Sound :=
  ⟨Nat.zero_le _, rfl⟩

/-- In a run no acknowledged byte is lost if and only if every segment fits. -/
theorem tcp_receive (sock : { x : Socket // x.type = linuxSockStream }) (es : List TcpEvent) :
    Meets TcpSocket.step TcpSocket.Fits (.fresh sock) es ↔
      Meets TcpSocket.step (fun s e => (s.step e).Conserves) (.fresh sock) es :=
  meets_iff (fun _ e (h : TcpSocket.Sound _) hok => ⟨TcpSocket.step_bound h.bound e, (h.conserves_iff e).mp hok⟩)
    (fun _ e h => h.conserves_iff e) (fresh_sound sock)

theorem segments_acked (n : ℕ) (payload : List UInt8) (s : TcpSocket) :
    (run TcpSocket.step s (List.replicate n (.segment payload false))).acked.length =
        s.acked.length + n * payload.length ∧
      (run TcpSocket.step s (List.replicate n (.segment payload false))).returned = s.returned := by
  induction n generalizing s with
  | zero => simp
  | succ n ih =>
    rw [replicate_succ, run_cons]
    obtain ⟨hacked, hreturned⟩ := ih (s.step (.segment payload false))
    refine ⟨?_, hreturned⟩
    have hone : (s.step (.segment payload false)).acked = s.acked ++ payload := rfl
    rw [hacked, hone, length_append, Nat.succ_mul]
    omega

def tcpSock : { x : Socket // x.type = linuxSockStream } :=
  ⟨{ used := true, refs := 1, domain := linuxAfInet, type := linuxSockStream, connected := true, hasPcb := true }, rfl⟩

/-- More bytes than the buffer holds arrive, and nobody reads. -/
theorem unread_overflow (n : ℕ) (payload : List UInt8) (h : rxBufSize < (n + 1) * payload.length) :
    ¬ Meets TcpSocket.step (fun s e => (s.step e).Conserves) (.fresh tcpSock)
      (List.replicate n (.segment payload false) ++ [.segment payload false]) := by
  rw [meets_append]
  rintro ⟨-, hlast, -⟩
  have hall : Meets TcpSocket.step (fun _ _ => True) (.fresh tcpSock)
      (List.replicate n (.segment payload false)) := meets_of_forall (fun _ _ => trivial) _ _
  have hbound := run_invariant (I := fun s : TcpSocket => s.rx.length ≤ rxBufSize)
    (fun _ e h _ => TcpSocket.step_bound h e) (fresh_sound tcpSock).bound hall
  obtain ⟨hacked, hreturned⟩ := segments_acked n payload (.fresh tcpSock)
  generalize run TcpSocket.step (.fresh tcpSock) (List.replicate n (.segment payload false)) = s
    at hlast hbound hacked hreturned
  have hafter := TcpSocket.step_bound hbound (.segment payload false)
  have hlen := congrArg List.length hlast
  have hone : (s.step (.segment payload false)).acked = s.acked ++ payload := rfl
  have hsame : (s.step (.segment payload false)).returned = [] := hreturned
  have hzero : (TcpSocket.fresh tcpSock).acked.length = 0 := rfl
  rw [hone, hsame, nil_append, length_append, hacked, hzero] at hlen
  rw [Nat.succ_mul] at h
  omega

/-- 62 segments of 536 bytes: the last one does not fit, and 464 of its bytes are acknowledged
and dropped. -/
theorem unread_drops : ¬ Meets TcpSocket.step (fun s e => (s.step e).Conserves) (.fresh tcpSock)
      (List.replicate 61 (.segment (List.replicate 536 97) false) ++ [.segment (List.replicate 536 97) false]) := by
  apply unread_overflow
  rw [List.length_replicate]
  decide

end EdgeOS
