import Bora.Library.ByteMemory

/-! Flag bytes, addresses, clock values and packet buffers shared by every module
of the program. -/
namespace Bora

export ByteMemory (Bytes)

open ByteMemory

def blkEmpty : UInt8 := 0x00
def blkBlock : UInt8 := 0x01
def blkBlockAck : UInt8 := 0x81
def blkAck : UInt8 := 0x02
def needAck : UInt8 := 0x80
def cookieMsg : UInt8 := 0x08
def bwMsg : UInt8 := 0x40
def maskBlockAck : UInt8 := 0x7E
def blockConsecutive : UInt8 := 0x04
def blockMaskConsecutive : UInt8 := 0xFB
def blockRetransmission : UInt8 := 0x10
def blockMaskRetransmission : UInt8 := 0xEF

def hasBit (flags bit : UInt8) : Bool := flags &&& bit != 0

/-- A property of flag bytes holds of all of them if it holds of the 256 values. -/
theorem flags_forall {P : UInt8 → Prop} (h : ∀ n : Fin 256, P (UInt8.ofNat n)) (f : UInt8) :
    P f := by
  have hf := h ⟨f.toNat, f.toNat_lt⟩
  rwa [UInt8.ofNat_toNat] at hf

/-- `struct sockaddr_in` of the family AF_INET; both fields are in network order. -/
structure SockAddr where
  sin_addr : UInt32
  sin_port : UInt16
deriving DecidableEq, Repr, Inhabited

structure Timeval where
  tv_sec : ℤ
  tv_usec : ℤ
deriving DecidableEq, Repr, Inhabited

def timerLt (a b : Timeval) : Bool :=
  if a.tv_sec = b.tv_sec then a.tv_usec < b.tv_usec else a.tv_sec < b.tv_sec

/-- `timersub`: the microseconds of the difference are brought back into range by one borrow. -/
def timerSub (a b : Timeval) : Timeval :=
  if a.tv_usec - b.tv_usec < 0 then
    ⟨a.tv_sec - b.tv_sec - 1, a.tv_usec - b.tv_usec + 1000000⟩
  else ⟨a.tv_sec - b.tv_sec, a.tv_usec - b.tv_usec⟩

/-- `time_to_usec` of bora_util.c, in unsigned 64-bit arithmetic. -/
def timeToUsec (t : Timeval) : UInt64 := UInt64.ofInt (t.tv_usec + t.tv_sec * 1000000)

/-- Accesses that leave the object they are made to, a division by zero, and the fatal
exit of `get_cookie_data`. What C leaves undefined ends a computation of the model. -/
inductive Fault
  | index (i size : ℕ)
  | write (off len size : ℕ)
  | read (off len size : ℕ)
  | divZero
  | exit
deriving DecidableEq, Repr

/-- Size of `SendData.data` and of `IncomingData.buf`. -/
def packetSize : ℕ := 1500

/-- `struct SendData`: the bytes below `length` and the destination, the field `to`. -/
structure SendData where
  data : Bytes
  dest : SockAddr
  fits : data.length ≤ packetSize
deriving DecidableEq

namespace SendData

instance : Inhabited SendData := ⟨⟨[], default, Nat.zero_le _⟩⟩

def length (d : SendData) : ℕ := d.data.length

def flags (d : SendData) : UInt8 := byteAt d.data 0

def setFlags (d : SendData) (f : UInt8) : SendData :=
  ⟨d.data.set 0 f, d.dest, by simpa using d.fits⟩

def setDest (d : SendData) (addr : SockAddr) : SendData := ⟨d.data, addr, d.fits⟩

def append (d : SendData) (bs : Bytes) : Except Fault SendData :=
  if h : d.data.length + bs.length ≤ packetSize then
    .ok ⟨d.data ++ bs, d.dest, by simpa using h⟩
  else .error (.write d.data.length bs.length packetSize)

@[simp] theorem setFlags_dest (d : SendData) (f : UInt8) : (d.setFlags f).dest = d.dest := rfl
@[simp] theorem setFlags_data (d : SendData) (f : UInt8) :
    (d.setFlags f).data = d.data.set 0 f := rfl
@[simp] theorem setFlags_length (d : SendData) (f : UInt8) :
    (d.setFlags f).length = d.length := by simp [length]
@[simp] theorem setDest_data (d : SendData) (addr : SockAddr) :
    (d.setDest addr).data = d.data := rfl
@[simp] theorem setDest_dest (d : SendData) (addr : SockAddr) :
    (d.setDest addr).dest = addr := rfl

theorem setFlags_flags (d : SendData) (f : UInt8) (h : 0 < d.length) :
    (d.setFlags f).flags = f := by
  rw [length] at h
  simp [flags, byteAt, List.getD_eq_getElem?_getD, h]

theorem append_ok {d d' : SendData} {bs : Bytes} (h : d.append bs = .ok d') :
    d'.data = d.data ++ bs ∧ d'.dest = d.dest := by
  unfold append at h
  split at h
  · cases h
    exact ⟨rfl, rfl⟩
  · cases h

end SendData

end Bora
