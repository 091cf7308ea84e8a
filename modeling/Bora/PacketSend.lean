import Bora.Ack

/-! The end of `packet_send`, from the label send_d on: the packet in hand gets its number,
its flags and the port trailer, and is what `sendto` puts on the wire. -/
namespace Bora

open ByteMemory Checked

def setNatPort (portN : UInt16) : UInt16 := htons portN

/-- `sleeptime` of a packet; a bandwidth of 0 is divided by. -/
def packetSleeptime (bandwidth : UInt64) (d : SendData) : Except Fault UInt64 :=
  if bandwidth = 0 then .error .divZero
  else .ok (UInt64.ofNat (1000000 * d.length) / bandwidth)

def numbered (n : NackTable) (d : SendData) (tEnd : Timeval) (sleeptime : UInt64) :
    Except Fault (NackTable × SendData) :=
  if hasBit d.flags needAck then appendAck n d tEnd sleeptime.toUInt32 else .ok (n, d)

/-- `z` marks the second of two packets sent to one host without a pause. -/
def sendD (n : NackTable) (d : SendData) (tEnd : Timeval) (bandwidth : UInt64) (z : Bool)
    (natPort : UInt16) : Except Fault (NackTable × SendData) := do
  let sleeptime ← packetSleeptime bandwidth d
  let (n, d) ← numbered n d tEnd sleeptime
  let d := if z then d.setFlags (d.flags ||| blockConsecutive) else d
  if d.flags = 0 then return (n, d)
  else
    let d ← d.append (store16 natPort)
    return (n, d)

theorem sendD_numbered {n n' : NackTable} {d w : SendData} {tEnd : Timeval} {bandwidth : UInt64}
    {z : Bool} {natPort : UInt16} (h : sendD n d tEnd bandwidth z natPort = .ok (n', w)) :
    ∃ sleeptime d', numbered n d tEnd sleeptime = .ok (n', d') := by
  obtain ⟨sleeptime, -, h⟩ := bind_eq_ok.mp h
  obtain ⟨⟨n₁, d₁⟩, hnum, h⟩ := bind_eq_ok.mp h
  refine ⟨sleeptime, d₁, ?_⟩
  simp only at h
  generalize (if z then d₁.setFlags (d₁.flags ||| blockConsecutive) else d₁) = d₂ at h
  split at h
  · cases h
    exact hnum
  · obtain ⟨d₃, -, h⟩ := bind_eq_ok.mp h
    cases h
    exact hnum

theorem sendD_unrecorded {n n' : NackTable} {d w : SendData} {tEnd : Timeval}
    {bandwidth : UInt64} {z : Bool} {natPort : UInt16}
    (h : sendD n d tEnd bandwidth z natPort = .ok (n', w)) (hd : hasBit d.flags needAck = false) :
    n' = n := by
  obtain ⟨sleeptime, d', hnum⟩ := sendD_numbered h
  simp only [numbered, hd, Bool.false_eq_true, if_false, Except.ok.injEq, Prod.mk.injEq] at hnum
  exact hnum.1.symm

/-- A packet that asks for an acknowledgement gets the next number, and stands first among what its
destination was sent. -/
theorem sendD_recorded {n n' : NackTable} {d w : SendData} {tEnd : Timeval}
    {bandwidth : UInt64} {z : Bool} {natPort : UInt16}
    (h : sendD n d tEnd bandwidth z natPort = .ok (n', w)) (hd : hasBit d.flags needAck = true) :
    n'.seqNum = n.seqNum + 1 ∧ ∃ sleeptime, n'.nacksOf = Function.update n.nacksOf d.dest
      (⟨n'.seqNum, tEnd, sleeptime, d⟩ :: n.nacksOf d.dest) := by
  obtain ⟨sleeptime, d', hnum⟩ := sendD_numbered h
  rw [numbered, if_pos hd] at hnum
  obtain ⟨hseq, -, -, hnacks⟩ := appendAck_ok hnum
  exact ⟨hseq, sleeptime.toUInt32, hnacks⟩

/-- An empty fragment that wants an acknowledgement, in 13 bytes. -/
def fragmentTo (dest : SockAddr) : SendData :=
  ⟨[blkBlockAck, 0, 0, 0, 0, 0, 0, 0, 0, 0, 1, 0, 0], dest, by decide⟩

end Bora
