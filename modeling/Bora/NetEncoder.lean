import Bora.Messages

/-! The wire formats of netencoder.c: packed headers, their encoders and decoders,
and the validators the packet processor runs before decoding. -/
namespace Bora

open ByteMemory

/-- Payload bytes of a fragment. -/
def mtu : ℕ := 1400

/-- `sizeof(FragmentHeader)`, `sizeof(AckPacket)` and `sizeof(BWPacket)`. -/
def headerSize : ℕ := 13
def ackPacketSize : ℕ := 13
def bwPacketSize : ℕ := 5

structure BlockID where
  streamid : UInt16
  blockid : UInt32
deriving DecidableEq, Repr, Inhabited

/-- A fragment whose `data` pointer is good for the `length` bytes its users copy. -/
structure FragmentData where
  streamid : UInt16
  blockid : UInt32
  fragmentid : UInt16
  fragments : UInt16
  length : UInt16
  data : Bytes
  data_length : data.length = length.toNat
deriving DecidableEq

def FragmentData.id (f : FragmentData) : BlockID := ⟨f.streamid, f.blockid⟩

structure FragmentID where
  streamid : UInt16
  blockid : UInt32
  fragmentid : UInt16
  fragments : UInt16
  length : UInt16
deriving DecidableEq, Repr, Inhabited

def FragmentID.id (f : FragmentID) : BlockID := ⟨f.streamid, f.blockid⟩

structure FragmentHeader where
  flags : UInt8
  streamid : UInt16
  blockid : UInt32
  fragmentid : UInt16
  fragments : UInt16
  length : UInt16
deriving DecidableEq

def FragmentHeader.bytes (h : FragmentHeader) : Bytes :=
  h.flags :: (store16 h.streamid ++ (store32 h.blockid ++ (store16 h.fragmentid ++
    (store16 h.fragments ++ store16 h.length))))

def fragmentHeader (blob : Bytes) : FragmentHeader where
  flags := byteAt blob 0
  streamid := load16 blob 1
  blockid := load32 blob 3
  fragmentid := load16 blob 7
  fragments := load16 blob 9
  length := load16 blob 11

structure AckPacket where
  flags : UInt8
  seq : UInt16
  sec : UInt32
  usec : UInt32
  cons : UInt16
deriving DecidableEq

def AckPacket.bytes (p : AckPacket) : Bytes :=
  p.flags :: (store16 p.seq ++ (store32 p.sec ++ (store32 p.usec ++ store16 p.cons)))

def ackPacket (blob : Bytes) : AckPacket where
  flags := byteAt blob 0
  seq := load16 blob 1
  sec := load32 blob 3
  usec := load32 blob 7
  cons := load16 blob 11

@[simp] theorem FragmentHeader.bytes_length (h : FragmentHeader) :
    h.bytes.length = headerSize := by simp [FragmentHeader.bytes, headerSize]

@[simp] theorem AckPacket.bytes_length (p : AckPacket) :
    p.bytes.length = ackPacketSize := by simp [AckPacket.bytes, ackPacketSize]

@[simp] theorem fragmentHeader_bytes (h : FragmentHeader) (rest : Bytes) :
    fragmentHeader (h.bytes ++ rest) = h := by
  simp [fragmentHeader, FragmentHeader.bytes, byteAt, load16_cons, load32_cons, load16_append,
    load32_append]

@[simp] theorem ackPacket_bytes (p : AckPacket) (rest : Bytes) :
    ackPacket (p.bytes ++ rest) = p := by
  simp [ackPacket, AckPacket.bytes, byteAt, load16_cons, load32_cons, load16_append,
    load32_append]

def validateBlock (blob : Bytes) (l : ℕ) : Bool :=
  let header := fragmentHeader blob
  if headerSize ≤ l ∧ l = headerSize + (htons header.length).toNat ∧
      (header.flags &&& maskBlockAck &&& blockMaskConsecutive &&& blockMaskRetransmission)
        ^^^ blkEmpty = 0 then true
  else if l = headerSize + mtu then byteAt blob 0 == needAck ||| cookieMsg
  else false

/-- The header of a fragment in network order. -/
def wireHeader (flags : UInt8) (f : FragmentData) : FragmentHeader where
  flags := flags
  streamid := htons f.streamid
  blockid := htonl f.blockid
  fragmentid := htons f.fragmentid
  fragments := htons f.fragments
  length := htons f.length

/-- The bytes of a fragment packet; `encode_fragment` sets the flags to BLK_BLOCK. -/
def fragmentPacket (flags : UInt8) (f : FragmentData) : Bytes :=
  (wireHeader flags f).bytes ++ f.data

@[simp] theorem fragmentPacket_length (flags : UInt8) (f : FragmentData) :
    (fragmentPacket flags f).length = headerSize + f.length.toNat := by
  simp [fragmentPacket, f.data_length]

theorem fragmentPacket_set (flags flags' : UInt8) (f : FragmentData) :
    (fragmentPacket flags f).set 0 flags' = fragmentPacket flags' f := by
  simp [fragmentPacket, FragmentHeader.bytes, wireHeader]

@[simp] theorem fragmentHeader_packet (flags : UInt8) (f : FragmentData) (rest : Bytes) :
    fragmentHeader (fragmentPacket flags f ++ rest) = wireHeader flags f := by
  rw [fragmentPacket, List.append_assoc, fragmentHeader_bytes]

@[simp] theorem fragmentPacket_flags (flags : UInt8) (f : FragmentData) (rest : Bytes) :
    byteAt (fragmentPacket flags f ++ rest) 0 = flags := by
  simp [fragmentPacket, FragmentHeader.bytes, wireHeader, byteAt]

/-- The destination is left for the caller to set. -/
def encodeFragment (fragment : FragmentData) : Except Fault SendData :=
  if h : headerSize + fragment.length.toNat ≤ packetSize then
    .ok ⟨fragmentPacket blkBlock fragment, default, by simpa using h⟩
  else .error (.write headerSize fragment.length.toNat packetSize)

def decodeFragment (fragmentstring : Bytes) (length : ℕ) : Option FragmentData :=
  let header := fragmentHeader fragmentstring
  if length < headerSize then none
  else if ¬ hasBit header.flags blkBlock then none
  else if length ≠ (ntohs header.length).toNat + headerSize then none
  else some
    { streamid := ntohs header.streamid
      blockid := ntohl header.blockid
      fragmentid := ntohs header.fragmentid
      fragments := ntohs header.fragments
      length := ntohs header.length
      data := readBytes fragmentstring headerSize (ntohs header.length).toNat
      data_length := by simp }

/-- Answers zeros unless the packet is part of a block; a length that does not match
the header is reported but the fields are returned all the same. -/
def getFragmentId (fragmentstring : Bytes) (length : ℕ) : FragmentID :=
  let header := fragmentHeader fragmentstring
  if length < headerSize then default
  else if ¬ hasBit header.flags blkBlock then default
  else
    { streamid := ntohs header.streamid
      blockid := ntohl header.blockid
      fragmentid := ntohs header.fragmentid
      fragments := ntohs header.fragments
      length := ntohs header.length }

def FragmentData.fragmentID (f : FragmentData) : FragmentID :=
  ⟨f.streamid, f.blockid, f.fragmentid, f.fragments, f.length⟩

theorem encodeFragment_of_le (f : FragmentData)
    (h : headerSize + f.length.toNat ≤ packetSize) :
    ∃ d, encodeFragment f = .ok d ∧ d.data = fragmentPacket blkBlock f :=
  ⟨_, dif_pos h, rfl⟩

theorem encodeFragment_ok {f : FragmentData} {d : SendData} (h : encodeFragment f = .ok d) :
    d.data = fragmentPacket blkBlock f ∧ headerSize + f.length.toNat ≤ packetSize := by
  unfold encodeFragment at h
  split at h
  · rename_i hle
    cases h
    exact ⟨rfl, hle⟩
  · cases h

/-- Decoding undoes encoding, whatever follows the packet in the buffer. -/
theorem decodeFragment_packet {flags : UInt8} (hf : hasBit flags blkBlock) (f : FragmentData)
    (rest : Bytes) :
    decodeFragment (fragmentPacket flags f ++ rest) (headerSize + f.length.toNat) = some f := by
  have hd : readBytes (fragmentPacket flags f ++ rest) headerSize f.length.toNat = f.data := by
    rw [readBytes_eq_slice _ _ _ (by simp), slice_append_left _ _ _ _ (by simp), fragmentPacket,
      slice_append_right _ _ _ _ (by simp)]
    simp [slice, ← f.data_length]
  simp only [decodeFragment, fragmentHeader_packet, wireHeader, ntohs_htons, ntohl_htonl, hf, hd]
  simp [Nat.add_comm]

theorem getFragmentId_packet {flags : UInt8} (hf : hasBit flags blkBlock) (f : FragmentData)
    (rest : Bytes) :
    getFragmentId (fragmentPacket flags f ++ rest) (headerSize + f.length.toNat) =
      f.fragmentID := by
  simp only [getFragmentId, fragmentHeader_packet, wireHeader, ntohs_htons, ntohl_htonl, hf]
  simp [FragmentData.fragmentID]

theorem getFragmentId_decode {blob : Bytes} {l : ℕ} {f : FragmentData}
    (h : decodeFragment blob l = some f) : getFragmentId blob l = f.fragmentID := by
  simp only [decodeFragment] at h
  split at h
  · cases h
  split at h
  · cases h
  split at h
  · cases h
  rename_i hlen hbit _
  cases h
  simp only [getFragmentId, hlen, hbit, if_false]
  rfl

/-- Fragment packets are valid under every combination of the bits the sender sets. -/
theorem validateBlock_packet {flags : UInt8}
    (hf : flags &&& maskBlockAck &&& blockMaskConsecutive &&& blockMaskRetransmission = 0)
    (f : FragmentData) (rest : Bytes) :
    validateBlock (fragmentPacket flags f ++ rest) (headerSize + f.length.toNat) = true := by
  simp only [validateBlock, fragmentHeader_packet, wireHeader, htons_htons, hf]
  simp [blkEmpty]

structure AckReceived where
  flags : UInt8
  seq : UInt16
  sec : Int32
  usec : Int32
  cons : UInt16
deriving DecidableEq

/-- The sequence number stays in the byte order of the host that chose it; the other
fields are set by the two functions that follow. -/
def encodeAck (seq : UInt16) : AckPacket := ⟨blkAck, seq, 0, 0, 0⟩

def appendAckCons (s : AckPacket) (cons : UInt16) : AckPacket := { s with cons := htons cons }

def appendAckTs (s : AckPacket) (ts : Timeval) : AckPacket :=
  { s with sec := htonl (UInt32.ofInt ts.tv_sec), usec := htonl (UInt32.ofInt ts.tv_usec) }

def AckPacket.sendData (p : AckPacket) (addr : SockAddr) : SendData :=
  ⟨p.bytes, addr, by simp [ackPacketSize, packetSize]⟩

def validateAck (blob : Bytes) (l : ℕ) : Bool :=
  if l = ackPacketSize then (ackPacket blob).flags ^^^ blkAck == 0 else false

def decodeAck (ackR : Bytes) (length : ℕ) : Option AckReceived :=
  let p := ackPacket ackR
  if length < ackPacketSize then none
  else some
    { flags := p.flags
      seq := p.seq
      sec := (ntohl p.sec).toInt32
      usec := (ntohl p.usec).toInt32
      cons := ntohs p.cons }

def encodeBw (bw : UInt32) : SendData :=
  ⟨bwMsg :: store32 (htonl bw), default, by simp [packetSize]⟩

def validateBw (blob : Bytes) (l : ℕ) : Bool :=
  if l = bwPacketSize then (ackPacket blob).flags ^^^ bwMsg == 0 else false

def decodeBwmsg (bwR : Bytes) (length : ℕ) : Option UInt32 :=
  if length < bwPacketSize then none else some (ntohl (load32 bwR 1))

theorem validateAck_packet (seq cons : UInt16) (ts : Timeval) (rest : Bytes) :
    validateAck ((appendAckTs (appendAckCons (encodeAck seq) cons) ts).bytes ++ rest)
      ackPacketSize = true := by
  simp [validateAck, appendAckTs, appendAckCons, encodeAck]

theorem decodeAck_packet (seq cons : UInt16) (ts : Timeval) (rest : Bytes) :
    decodeAck ((appendAckTs (appendAckCons (encodeAck seq) cons) ts).bytes ++ rest)
      ackPacketSize =
      some ⟨blkAck, seq, (UInt32.ofInt ts.tv_sec).toInt32, (UInt32.ofInt ts.tv_usec).toInt32,
        cons⟩ := by
  simp [decodeAck, appendAckTs, appendAckCons, encodeAck]

end Bora
