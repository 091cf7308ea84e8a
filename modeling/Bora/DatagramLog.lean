import Bora.SenderThread
import Bora.Framing
import Bora.ResentPackets

/-! The sender thread among the callers of `send_data`, with a log of what it hands to `sendto`. -/
namespace Bora

open ByteMemory Checked Transition

/-- `send_raw` up to its call of `send_data`; `host` is what `inet_pton` makes of the
destination. -/
def sendRaw (messageString : Bytes) (host : Option UInt32) (portNum : ℤ) : Option SendData :=
  if h : 1400 < messageString.length then none
  else
    host.bind (fun sin_addr =>
      if 65535 < portNum ∨ portNum < 1 then none
      else
        some { data := blkEmpty :: messageString
               dest := ⟨sin_addr, htons (UInt16.ofInt portNum)⟩
               fits := by rw [List.length_cons]; unfold packetSize; omega })

theorem sendRaw_some {messageString : Bytes} {host : Option UInt32} {portNum : ℤ} {d : SendData}
    (h : sendRaw messageString host portNum = some d) :
    messageString.length ≤ 1400 ∧ d.data = blkEmpty :: messageString := by
  unfold sendRaw at h
  split at h
  · cases h
  rename_i hlen
  obtain ⟨sin_addr, -, h⟩ := Option.bind_eq_some_iff.mp h
  split at h
  · cases h
  · cases h
    exact ⟨Nat.not_lt.mp hlen, rfl⟩

inductive Caller
  | sendblock (block : Block) (dest : SockAddr) (i : ℕ)
  | sendRaw (messageString : Bytes) (host : Option UInt32) (portNum : ℤ)
  | sendBwmsg (host : SockAddr) (bw : UInt32)
  | answer (seq cons : UInt16) (tv : Timeval) (source : SockAddr)
  | resend (d : SendData)

def Caller.packet : Caller → Option SendData
  | .sendblock block dest i =>
    if i < block.fs.fn.toNat then (sendPacket block dest i).toOption else none
  | .sendRaw messageString host portNum => Bora.sendRaw messageString host portNum
  | .sendBwmsg host bw => some ((encodeBw bw).setDest host)
  | .answer seq cons tv source => some (ackFor seq cons tv source)
  | .resend d => resent d

/-- One call of `sendto`: the packet that was taken, where from, whether as the second of a pair,
the datagram, and whether the call succeeded. -/
structure Attempt where
  packet : SendData
  source : PacketSource
  z : Bool
  datagram : SendData
  sent : Bool

/-- The latest attempt stands first in the log. -/
structure Emitter where
  sender : Sender
  nacks : NackTable
  log : List Attempt

/-- `others` is what the rest of the program does to the outstanding packets. -/
inductive EmitterAction
  | call (c : Caller)
  | insert (k : ℕ)
  | post
  | cookies (a : CookieAction)
  | others (nacks : NackTable)
  | sender (sent : Bool) (tEnd : Timeval) (bandwidth : UInt64) (natPort : UInt16)

namespace Emitter

def init : Emitter := ⟨Sender.init, NackTable.init, []⟩

def setSender (s : Emitter) (sender : Sender) : Emitter := { s with sender := sender }

@[simp] theorem setSender_sender (s : Emitter) (sender : Sender) :
    (s.setSender sender).sender = sender := rfl
@[simp] theorem setSender_log (s : Emitter) (sender : Sender) :
    (s.setSender sender).log = s.log := rfl

/-- A packet that overflows its buffer, or a bandwidth of 0, ends the run. -/
def step (s : Emitter) : EmitterAction → Option Emitter
  | .call c => c.packet.bind (fun d => (s.sender.step (.sendData d)).map s.setSender)
  | .insert k => (s.sender.step (.insert k)).map s.setSender
  | .post => (s.sender.step .post).map s.setSender
  | .cookies a => (s.sender.step (.cookies a)).map s.setSender
  | .others nacks => some { s with nacks := nacks }
  | .sender sent tEnd bandwidth natPort =>
    match s.sender.pc with
    | .send d source z =>
      match sendD s.nacks d tEnd bandwidth z natPort with
      | .error _ => none
      | .ok (nacks, datagram) =>
        (s.sender.step (.sender sent)).map
          (fun sender => ⟨sender, nacks, ⟨d, source, z, datagram, sent⟩ :: s.log⟩)
    | _ => (s.sender.step (.sender sent)).map s.setSender

end Emitter

def emitter : System Emitter EmitterAction where
  init s := s = Emitter.init
  step := Emitter.step

end Bora
