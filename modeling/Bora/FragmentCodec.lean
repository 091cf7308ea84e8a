import Bora.NetEncoder

/-! The four readings of a fragment packet in netencoder.c: what the encoder writes, what the
decoder and `get_fragment_id` read, and what the validator lets through. -/
namespace Bora

open ByteMemory

theorem fragmentHeader_slice {b : Bytes} (h : headerSize ≤ b.length) :
    (fragmentHeader b).bytes = slice b 0 headerSize := by
  unfold headerSize at h
  have hflags : [byteAt b 0] = slice b 0 1 := by
    cases b with
    | nil => simp at h
    | cons x xs => rfl
  have htail : store16 (load16 b 1) ++ (store32 (load32 b 3) ++ (store16 (load16 b 7) ++
      (store16 (load16 b 9) ++ store16 (load16 b 11)))) = slice b 1 12 := by
    rw [store16_load16 b 1 (by omega), store32_load32 b 3 (by omega),
      store16_load16 b 7 (by omega), store16_load16 b 9 (by omega),
      store16_load16 b 11 (by omega), slice_append_slice b 9 2 2, slice_append_slice b 7 2 4,
      slice_append_slice b 3 4 6, slice_append_slice b 1 2 10]
  have hall : [byteAt b 0] ++ slice b 1 12 = slice b 0 headerSize := by
    rw [hflags]
    exact slice_append_slice b 0 1 12
  rw [← hall, ← htail]
  rfl

theorem decodeFragment_some_iff (blob : Bytes) (l : ℕ) :
    (∃ f, decodeFragment blob l = some f) ↔
      headerSize ≤ l ∧ hasBit (byteAt blob 0) blkBlock = true ∧
        l = headerSize + (ntohs (fragmentHeader blob).length).toNat := by
  have hflags : (fragmentHeader blob).flags = byteAt blob 0 := rfl
  constructor
  · rintro ⟨f, h⟩
    simp only [decodeFragment, hflags] at h
    split at h
    · cases h
    split at h
    · cases h
    split at h
    · cases h
    rename_i hlen hbit hl
    exact ⟨Nat.le_of_not_lt hlen, of_not_not hbit, (of_not_not hl).trans (Nat.add_comm _ _)⟩
  · rintro ⟨hlen, hbit, hl⟩
    have hlen' : ¬ l < headerSize := Nat.not_lt.mpr hlen
    have hl' : l = (ntohs (fragmentHeader blob).length).toNat + headerSize := by omega
    simp only [decodeFragment, hflags, hlen', hbit, if_false, not_true_eq_false]
    rw [if_neg (not_not.mpr hl')]
    exact ⟨_, rfl⟩

theorem decodeFragment_fields {blob : Bytes} {l : ℕ} {f : FragmentData}
    (h : decodeFragment blob l = some f) :
    wireHeader (byteAt blob 0) f = fragmentHeader blob ∧
      f.data = readBytes blob headerSize f.length.toNat := by
  simp only [decodeFragment] at h
  split at h
  · cases h
  split at h
  · cases h
  split at h
  · cases h
  cases h
  refine ⟨?_, rfl⟩
  simp only [wireHeader, htons_ntohs, htonl_ntohl]
  rfl

theorem fragmentPacket_decode {b : Bytes} {f : FragmentData}
    (h : decodeFragment b b.length = some f) : fragmentPacket (byteAt b 0) f = b := by
  obtain ⟨hlen, -, hl⟩ := (decodeFragment_some_iff b b.length).mp ⟨f, h⟩
  obtain ⟨hheader, hdata⟩ := decodeFragment_fields h
  have hsize : b.length = headerSize + f.length.toNat := by
    have hfield : (fragmentHeader b).length = htons f.length := by rw [← hheader]; rfl
    rw [hfield, ntohs_htons] at hl
    exact hl
  have hslice : f.data = slice b headerSize f.length.toNat := by
    rw [hdata, readBytes_eq_slice b _ _ hsize.ge]
  have hwhole : slice b 0 b.length = b := List.take_length
  rw [fragmentPacket, hheader, fragmentHeader_slice hlen, hslice]
  calc slice b 0 headerSize ++ slice b headerSize f.length.toNat
      = slice b 0 (headerSize + f.length.toNat) := by
        simpa using slice_append_slice b 0 headerSize f.length.toNat
    _ = b := by rw [← hsize, hwhole]

theorem encodeFragment_decode {b : Bytes} {f : FragmentData}
    (h : decodeFragment b b.length = some f) (hfit : b.length ≤ packetSize) :
    ∃ d, encodeFragment f = .ok d ∧ d.data = b.set 0 blkBlock := by
  have hpacket := fragmentPacket_decode h
  have hsize : headerSize + f.length.toNat ≤ packetSize := by
    rw [← fragmentPacket_length (byteAt b 0) f, hpacket]
    exact hfit
  obtain ⟨d, hd, hdata⟩ := encodeFragment_of_le f hsize
  refine ⟨d, hd, ?_⟩
  rw [hdata, ← fragmentPacket_set (byteAt b 0) blkBlock f, hpacket]

theorem decodeFragment_of_validate {blob : Bytes} {l : ℕ} (hv : validateBlock blob l = true)
    (hbit : hasBit (byteAt blob 0) blkBlock = true) : ∃ f, decodeFragment blob l = some f := by
  rw [decodeFragment_some_iff]
  simp only [validateBlock] at hv
  split at hv
  · rename_i hfrag
    exact ⟨hfrag.1, hbit, hfrag.2.1⟩
  split at hv
  · rw [beq_iff_eq.mp hv] at hbit
    exact absurd hbit (by decide)
  · cases hv

/-- Encoder, decoder, validator and `get_fragment_id` agree: on every fragment that fits a
packet, on every string with its length, and on everything the validator lets through. -/
theorem fragment_codec :
    (∀ f : FragmentData, f.length.toNat ≤ packetSize - headerSize →
      ∃ d, encodeFragment f = .ok d ∧
        decodeFragment d.data d.length = some f ∧ validateBlock d.data d.length = true ∧
        decodeFragment (d.setFlags blkBlockAck).data (d.setFlags blkBlockAck).length = some f ∧
        validateBlock (d.setFlags blkBlockAck).data (d.setFlags blkBlockAck).length = true) ∧
    (∀ b : Bytes,
      ((∃ f, decodeFragment b b.length = some f) ↔
        headerSize ≤ b.length ∧ hasBit (byteAt b 0) blkBlock = true ∧
          b.length = headerSize + (ntohs (fragmentHeader b).length).toNat) ∧
      ∀ f, decodeFragment b b.length = some f → b.length ≤ packetSize →
        ∃ d, encodeFragment f = .ok d ∧ d.data = b.set 0 blkBlock) ∧
    (∀ (blob : Bytes) (l : ℕ), validateBlock blob l = true →
      hasBit (byteAt blob 0) blkBlock = true →
      ∃ f, decodeFragment blob l = some f ∧ getFragmentId blob l = f.fragmentID) := by
  refine ⟨?_, ?_, ?_⟩
  · intro f hf
    have hsize : headerSize + f.length.toNat ≤ packetSize := by
      unfold packetSize headerSize at *
      omega
    obtain ⟨d, hd, hdata⟩ := encodeFragment_of_le f hsize
    have hlen : d.length = headerSize + f.length.toNat := by
      rw [SendData.length, hdata, fragmentPacket_length]
    have hack : (d.setFlags blkBlockAck).data = fragmentPacket blkBlockAck f := by
      rw [SendData.setFlags_data, hdata, fragmentPacket_set]
    have hdecode : ∀ flags, hasBit flags blkBlock = true →
        decodeFragment (fragmentPacket flags f) (headerSize + f.length.toNat) = some f := by
      intro flags hbit
      simpa using decodeFragment_packet hbit f []
    have hvalid : ∀ flags : UInt8,
        flags &&& maskBlockAck &&& blockMaskConsecutive &&& blockMaskRetransmission = 0 →
        validateBlock (fragmentPacket flags f) (headerSize + f.length.toNat) = true := by
      intro flags hbits
      simpa using validateBlock_packet hbits f []
    refine ⟨d, hd, ?_⟩
    rw [SendData.setFlags_length, hack, hdata, hlen]
    exact ⟨hdecode blkBlock (by decide), hvalid blkBlock (by decide),
      hdecode blkBlockAck (by decide), hvalid blkBlockAck (by decide)⟩
  · intro b
    exact ⟨decodeFragment_some_iff b b.length, fun f h hfit => encodeFragment_decode h hfit⟩
  · intro blob l hv hbit
    obtain ⟨f, hf⟩ := decodeFragment_of_validate hv hbit
    exact ⟨f, hf, getFragmentId_decode hf⟩

def longFragment : FragmentData :=
  ⟨1, 1, 0, 1, 1488, List.replicate 1488 7, by rw [List.length_replicate]; rfl⟩

/-- The packet of 1488 bytes decodes, but encoding it again would overrun the packet buffer. -/
theorem long_fragment_overruns :
    decodeFragment (fragmentPacket blkBlock longFragment)
        (fragmentPacket blkBlock longFragment).length = some longFragment ∧
      encodeFragment longFragment = .error (.write headerSize 1488 packetSize) := by
  constructor
  · have hbit : hasBit blkBlock blkBlock = true := by decide
    have hdecode := decodeFragment_packet hbit longFragment []
    rw [List.append_nil] at hdecode
    rw [fragmentPacket_length]
    exact hdecode
  · exact dif_neg (by decide)

end Bora
