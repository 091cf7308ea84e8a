import Bora.Messages
import Bora.Library.FirstMatch

/-! What the receiver notes of accepted fragments and bandwidth messages, of recv_stats.c and
bw_msgs.c. -/
namespace Bora

/-- `fromlen` is the same constant for every sender and left out. -/
structure RecvFragment where
  source : SockAddr
  streamid : UInt16
  blockid : UInt32
  fragmentid : UInt16
  buflen : ℕ
  tv : Timeval
  flags : UInt8

structure BW where
  buflen : ℕ
  delta : Timeval
  tv : Timeval

structure BWEstimation where
  source : SockAddr
  bandwidth : List BW
  lastfragment : RecvFragment

abbrev Estimations := List BWEstimation

def bwFindByHost (e : Estimations) (source : SockAddr) : Option BWEstimation :=
  e.find? (fun h => h.source = source)

/-- The fragment numbers are compared as `int`, so 65535 has no successor. -/
def BWEstimation.record (h : BWEstimation) (fragment : RecvFragment) : BWEstimation :=
  if h.lastfragment.streamid = fragment.streamid ∧ h.lastfragment.blockid = fragment.blockid ∧
      h.lastfragment.fragmentid.toNat + 1 = fragment.fragmentid.toNat ∧
      hasBit fragment.flags blockConsecutive then
    { h with
      bandwidth := ⟨fragment.buflen, timerSub fragment.tv h.lastfragment.tv, fragment.tv⟩ ::
        h.bandwidth
      lastfragment := fragment }
  else { h with lastfragment := fragment }

def fragmentReceived (e : Estimations) (fragment : RecvFragment) : Estimations :=
  match bwFindByHost e fragment.source with
  | none => ⟨fragment.source, [], fragment⟩ :: e
  | some _ => FirstMatch.modify (fun h => h.source = fragment.source) (·.record fragment) e

structure BWMsg where
  bw : UInt32
  recvTime : Timeval
  addr : SockAddr

def bwmsgReceived (bwmlist : List BWMsg) (bwMessage : BWMsg) : List BWMsg := bwMessage :: bwmlist

end Bora
