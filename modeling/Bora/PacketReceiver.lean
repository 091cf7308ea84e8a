import Bora.AckReceived
import Bora.BlockCache
import Bora.RecvStats

/-! One datagram in `packet_processor`: the port trailer, the acknowledgement it asks for, and
the acknowledgement, bandwidth message or fragment it carries. -/
namespace Bora

open ByteMemory

/-- One slot of the receive buffer; behind `buflen` it holds what was there before. -/
structure IncomingData where
  source : SockAddr
  buf : Bytes
  buflen : ℕ
  tv : Timeval
  size : buf.length = packetSize

def IncomingData.flags (data : IncomingData) : UInt8 := byteAt data.buf 0

def IncomingData.clearFlags (data : IncomingData) : IncomingData :=
  { data with buf := data.buf.set 0 0, size := by simpa using data.size }

/-- The entries of `stats_r`. -/
inductive InCounter
  | pkg | data | ackData | ack | garbage | dupe | dupeData | badAck
deriving DecidableEq, Repr

/-- The calls of `block_completed`. -/
inductive Completion
  | raw (data : IncomingData)
  | block (id : BlockID)

/-- The state of a node that processing reads and writes. -/
structure Node where
  cache : Cache
  ack : AckState
  statsR : InCounter → UInt64
  estimations : Estimations
  bwmlist : List BWMsg
  completed : List Completion

/-- A datagram under way. `subs` records the subtractions made on `buflen`, each as the value
before and the amount; after a fault nothing further is done. -/
structure Processing where
  node : Node
  data : IncomingData
  subs : List (ℕ × ℕ)
  fault : Option Fault

namespace Processing

def addStat (p : Processing) (c : InCounter) (k : ℕ) : Processing :=
  { p with node := { p.node with
      statsR := Function.update p.node.statsR c (p.node.statsR c + UInt64.ofNat k) } }

/-- `buflen - k`, as an argument. -/
def noteSub (p : Processing) (k : ℕ) : Processing :=
  { p with subs := p.subs ++ [(p.data.buflen, k)] }

def sub (p : Processing) (k : ℕ) : Processing :=
  { p.noteSub k with data := { p.data with buflen := subSize p.data.buflen k } }

def setPort (p : Processing) (port : UInt16) : Processing :=
  { p with data := { p.data with source := { p.data.source with sin_port := port } } }

/-- A bad packet: its length is garbage and its flags are cleared. -/
def reject (p : Processing) : Processing :=
  { p.addStat .garbage p.data.buflen with data := p.data.clearFlags }

def setAck (p : Processing) (ack : AckState) : Processing :=
  { p with node := { p.node with ack := ack } }

def sendData (p : Processing) (d : SendData) : Processing :=
  p.setAck { p.node.ack with queues := (p.node.ack.queues.sendData d).1 }

def complete (p : Processing) (c : Completion) : Processing :=
  { p with node := { p.node with completed := p.node.completed ++ [c] } }

def fail (p : Processing) (e : Fault) : Processing := { p with fault := some e }

/-- The byte the port is read from: one byte, widened. -/
def portByte (p : Processing) : UInt8 := byteAt p.data.buf p.data.buflen

def portStage (p : Processing) : Processing :=
  if p.data.flags = 0 then
    if 3 < p.data.buflen then p.complete (.raw p.data) else p
  else
    let p := p.sub 2
    if p.portByte ≠ 0 then (p.setPort p.portByte.toUInt16).sub 2 else p

def answer (p : Processing) (seq : UInt16) : Processing :=
  match getConsecutives p.node.cache (getFragmentId p.data.buf p.data.buflen) with
  | .error e => p.fail e
  | .ok cons =>
    p.sendData ((appendAckTs (appendAckCons (encodeAck seq) cons) p.data.tv).sendData p.data.source)

def needAckStage (p : Processing) : Processing :=
  if hasBit p.data.flags needAck then
    let p := p.noteSub ackSize
    if validateBlock p.data.buf (subSize p.data.buflen ackSize) then
      let seq := stripAck p.data.buf p.data.buflen
      ((p.sub ackSize).addStat .data ackSize).answer seq
    else p.reject
  else p

def ackStage (p : Processing) : Processing :=
  if hasBit p.data.flags blkAck then
    if validateAck p.data.buf p.data.buflen then
      let p := (p.addStat .ack 1).addStat .ackData p.data.buflen
      match decodeAck p.data.buf p.data.buflen with
      | none => p.fail (.read 0 ackPacketSize p.data.buflen)
      | some ackR =>
        match popAck p.node.ack.nacks ackR.seq p.data.source with
        | (nacks, some pop) =>
          p.setAck (ackReceived { p.node.ack with nacks := nacks } pop ackR p.data.tv p.data.source)
        | (_, none) => (p.addStat .garbage p.data.buflen).addStat .badAck 1
    else p.reject
  else p

def bwStage (p : Processing) : Processing :=
  if hasBit p.data.flags bwMsg then
    if validateBw p.data.buf p.data.buflen then
      match decodeBwmsg p.data.buf p.data.buflen with
      | none => p.reject
      | some bw =>
        { p with node := { p.node with
            bwmlist := bwmsgReceived p.node.bwmlist ⟨bw, p.data.tv, p.data.source⟩ } }
    else p.reject
  else p

def fragmentAdded (p : Processing) (fragment : FragmentData) : AddResult → Processing
  | .duplicate => (p.addStat .dupe 1).addStat .dupeData p.data.buflen
  | .fragmentidOutOfBounds => p.addStat .garbage p.data.buflen
  | .fragmentsMismatch => p.addStat .garbage p.data.buflen
  | .badLen => p.addStat .garbage p.data.buflen
  | .added =>
    let p := { p with node := { p.node with
      estimations := fragmentReceived p.node.estimations
        { source := p.data.source, streamid := fragment.streamid, blockid := fragment.blockid,
          fragmentid := fragment.fragmentid, buflen := p.data.buflen, tv := p.data.tv,
          flags := p.data.flags } } }
    if iscomplete p.node.cache fragment.id then p.complete (.block fragment.id) else p

/-- `junk` is what `malloc` leaves in the `lastlen` of a new block. -/
def blockStage (junk : UInt16) (p : Processing) : Processing :=
  if hasBit p.data.flags blkBlock then
    if validateBlock p.data.buf p.data.buflen then
      match decodeFragment p.data.buf p.data.buflen with
      | none => p.reject
      | some fragment =>
        match addfragment p.node.cache fragment p.data.source p.data.tv junk with
        | .error e => p.fail e
        | .ok (cache, r) => fragmentAdded { p with node := { p.node with cache := cache } } fragment r
    else p.reject
  else p

def countStage (p : Processing) : Processing :=
  (p.addStat .data p.data.buflen).addStat .pkg 1

def andThen (p : Processing) (stage : Processing → Processing) : Processing :=
  match p.fault with
  | none => stage p
  | some _ => p

end Processing

open Processing

/-- One iteration of the loop of `packet_processor`. -/
def packetProcessor (node : Node) (data : IncomingData) (junk : UInt16) : Processing :=
  let p : Processing := ⟨node, data, [], none⟩
  let p :=
    if 1 < data.buflen then
      ((((p.portStage.andThen needAckStage).andThen ackStage).andThen bwStage).andThen
        (blockStage junk))
    else p
  p.andThen countStage

end Bora
