import Bora.AckReceived
import Bora.Library.TwoDigit

/-! The acknowledgement from the receiver of a fragment to its sender: what is written into the
packet is what is read out of it, and the times on both sides. -/
namespace Bora

open ByteMemory

namespace Timeval

def parts (t : Timeval) : TwoDigit := ⟨t.tv_sec, t.tv_usec⟩

def micros (t : Timeval) : ℤ := t.parts.value 1000000

/-- As `gettimeofday` gives it. -/
def Normal (t : Timeval) : Prop := t.parts.Normal 1000000

end Timeval

variable {a b : Timeval}

theorem parts_timerSub (a b : Timeval) : (timerSub a b).parts = a.parts.sub 1000000 b.parts := by
  unfold timerSub TwoDigit.sub
  by_cases hneg : a.tv_usec - b.tv_usec < 0
  · rw [if_pos hneg, if_pos (show a.parts.low - b.parts.low < 0 from hneg)]
    rfl
  · rw [if_neg hneg, if_neg (show ¬ a.parts.low - b.parts.low < 0 from hneg)]
    rfl

theorem micros_timerSub (a b : Timeval) : (timerSub a b).micros = a.micros - b.micros := by
  rw [Timeval.micros, parts_timerSub, TwoDigit.value_sub]
  rfl

theorem Timeval.Normal.timerSub (ha : a.Normal) (hb : b.Normal) : (timerSub a b).Normal := by
  rw [Timeval.Normal, parts_timerSub]
  exact TwoDigit.Normal.sub ha hb

theorem timerLt_iff (ha : a.Normal) (hb : b.Normal) : timerLt a b = true ↔ a.micros < b.micros := by
  refine Iff.trans ?_ (TwoDigit.lt_iff ha hb)
  unfold timerLt TwoDigit.Lt
  by_cases hsec : a.tv_sec = b.tv_sec
  · rw [if_pos hsec, if_pos (show a.parts.high = b.parts.high from hsec), decide_eq_true_iff]
    rfl
  · rw [if_neg hsec, if_neg (show a.parts.high ≠ b.parts.high from hsec), decide_eq_true_iff]
    rfl

theorem timeToUsec_micros (t : Timeval) : timeToUsec t = UInt64.ofInt t.micros := by
  rw [timeToUsec, Timeval.micros, TwoDigit.value, Timeval.parts, Int.add_comm]

theorem toNat_timeToUsec {t : Timeval} (h0 : 0 ≤ t.micros) (h : t.micros < 2 ^ 64) :
    ((timeToUsec t).toNat : ℤ) = t.micros := by
  rw [timeToUsec_micros, UInt64.ofInt, UInt64.toNat_ofNat', Int.emod_eq_of_lt h0 h]
  omega

def ackPacketOf (seq cons : UInt16) (ts : Timeval) : AckPacket :=
  appendAckTs (appendAckCons (encodeAck seq) cons) ts

def AckReceived.time (r : AckReceived) : Timeval := ⟨r.sec.toInt, r.usec.toInt⟩

/-- The sender takes the packet for an acknowledgement and reads out of it what was written. -/
structure CarriesAck (seq cons : UInt16) (ts : Timeval) (blob : Bytes) (l : ℕ) : Prop where
  validAck : validateAck blob l = true
  notBw : validateBw blob l = false
  decoded : ∃ r, decodeAck blob l = some r ∧ r.seq = seq ∧ r.cons = cons ∧
    r.sec.toInt = ts.tv_sec ∧ r.usec.toInt = ts.tv_usec ∧ r.time = ts ∧
      ∀ ackS received source,
        (ackStoreOf ackS r received source).STT.micros = ts.micros - ackS.sendtime.micros

theorem toInt_toInt32_ofInt (x : ℤ) : (UInt32.ofInt x).toInt32.toInt = x.bmod (2 ^ 32) := by
  have hnonneg : 0 ≤ x % 2 ^ 32 := Int.emod_nonneg _ (by decide)
  have hlt : x % 2 ^ 32 < 2 ^ 32 := Int.emod_lt_of_pos _ (by decide)
  have hnat : ((UInt32.ofInt x).toNat : ℤ) = x % 2 ^ 32 := by
    rw [UInt32.ofInt, UInt32.toNat_ofNat']
    omega
  calc (UInt32.ofInt x).toInt32.toInt
      = ((UInt32.ofInt x).toNat : ℤ).bmod (2 ^ 32) := BitVec.toInt_eq_toNat_bmod _
    _ = (x % 2 ^ 32).bmod (2 ^ 32) := by rw [hnat]
    _ = x.bmod (2 ^ 32) := Int.emod_bmod x (2 ^ 32)

/-- A field of 32 bits that is written unsigned and read signed comes out as it went in exactly if
the sign bit is clear. -/
theorem toInt_toInt32_ofInt_iff {x : ℤ} (h0 : 0 ≤ x) (h : x < 2 ^ 32) :
    (UInt32.ofInt x).toInt32.toInt = x ↔ x < 2 ^ 31 := by
  rw [toInt_toInt32_ofInt]
  constructor
  · intro heq
    have hlt := Int.bmod_lt (x := x) (show 0 < 2 ^ 32 by decide)
    rw [heq] at hlt
    omega
  · intro hlt
    exact Int.bmod_eq_of_le (by omega) (by omega)

/-- For every number and every time of 32 bits, exactly if the seconds fit the signed field they
are read into. -/
theorem carriesAck_iff (seq cons : UInt16) {ts : Timeval} (hsec : 0 ≤ ts.tv_sec)
    (hsec' : ts.tv_sec < 2 ^ 32) (husec : 0 ≤ ts.tv_usec) (husec' : ts.tv_usec < 10 ^ 6)
    (addr : SockAddr) (rest : Bytes) :
    CarriesAck seq cons ts (((ackPacketOf seq cons ts).sendData addr).data ++ rest)
      ((ackPacketOf seq cons ts).sendData addr).length ↔ ts.tv_sec < 2 ^ 31 := by
  have hlen : ((ackPacketOf seq cons ts).sendData addr).length = ackPacketSize :=
    AckPacket.bytes_length _
  have hdecode := decodeAck_packet seq cons ts rest
  have husecs : (UInt32.ofInt ts.tv_usec).toInt32.toInt = ts.tv_usec :=
    (toInt_toInt32_ofInt_iff husec (husec'.trans (by decide))).mpr (husec'.trans (by decide))
  rw [hlen, ← toInt_toInt32_ofInt_iff hsec hsec']
  constructor
  · rintro ⟨-, -, r, hr, -, -, hrsec, -⟩
    cases hdecode.symm.trans hr
    exact hrsec
  · intro hsecs
    have htime : (⟨(UInt32.ofInt ts.tv_sec).toInt32.toInt, (UInt32.ofInt ts.tv_usec).toInt32.toInt⟩
        : Timeval) = ts := by rw [hsecs, husecs]
    refine ⟨validateAck_packet seq cons ts rest, ?_, _, hdecode, rfl, rfl, hsecs, husecs, htime, ?_⟩
    · exact if_neg (by decide)
    · intro ackS received source
      refine (micros_timerSub _ _).trans ?_
      exact congrArg (fun t => Timeval.micros t - ackS.sendtime.micros) htime

theorem carriesAck_last :
    CarriesAck 513 2 ⟨2147483647, 999999⟩
      (((ackPacketOf 513 2 ⟨2147483647, 999999⟩).sendData ⟨1, 1⟩).data ++ []) 13 :=
  (carriesAck_iff 513 2 (by decide) (by decide) (by decide) (by decide) ⟨1, 1⟩ []).mpr (by decide)

/-- The first second that does not fit the signed field comes out negative. -/
theorem not_carriesAck :
    ¬ CarriesAck 513 2 ⟨2147483648, 0⟩
      (((ackPacketOf 513 2 ⟨2147483648, 0⟩).sendData ⟨1, 1⟩).data ++ []) 13 := by
  rintro ⟨-, -, r, hr, -, -, hrsec, -⟩
  have hdecode := decodeAck_packet 513 2 ⟨2147483648, 0⟩ []
  cases hdecode.symm.trans hr
  exact absurd hrsec (by decide)

end Bora
