import Bora.AddOutcome
import Bora.Delivery
import Bora.FragmentCodec

/-! A receiver over whole runs: the fragment that a datagram hands to `addfragment`, what one
datagram does to the cache and to the calls of `block_completed`, and the system of all runs. -/
namespace Bora

open ByteMemory Checked Processing Transition

def beforeBlock (node : Node) (data : IncomingData) : Processing :=
  (((⟨node, data, [], none⟩ : Processing).portStage.andThen needAckStage).andThen
    ackStage).andThen bwStage

def Processing.fragment (p : Processing) : Option FragmentData :=
  if hasBit p.data.flags blkBlock && validateBlock p.data.buf p.data.buflen then
    decodeFragment p.data.buf p.data.buflen
  else none

/-- The fragment that a datagram carries, its trailers taken off. -/
def receivedFragment (node : Node) (data : IncomingData) : Option FragmentData :=
  if 1 < data.buflen then (beforeBlock node data).fragment else none

theorem packetProcessor_eq (node : Node) (data : IncomingData) (junk : UInt16) :
    packetProcessor node data junk =
      (if 1 < data.buflen then (beforeBlock node data).andThen (blockStage junk)
        else ⟨node, data, [], none⟩).andThen countStage := rfl

def Completion.reports (id : BlockID) : Completion → Bool
  | .raw _ => false
  | .block id' => id' = id

def Node.reports (node : Node) (id : BlockID) : ℕ := node.completed.countP (Completion.reports id)

/-- Neither the cache nor the number of reports changes. -/
def Steady (node node' : Node) : Prop :=
  node'.cache = node.cache ∧ ∀ id, node'.reports id = node.reports id

theorem Steady.refl (node : Node) : Steady node node := ⟨rfl, fun _ => rfl⟩

theorem Steady.trans {n₁ n₂ n₃ : Node} (h : Steady n₁ n₂) (h' : Steady n₂ n₃) : Steady n₁ n₃ :=
  ⟨h'.1.trans h.1, fun id => (h'.2 id).trans (h.2 id)⟩

theorem steady_of_completed {node node' : Node} (hc : node'.cache = node.cache)
    (hr : node'.completed = node.completed) : Steady node node' :=
  ⟨hc, fun id => by rw [Node.reports, hr, Node.reports]⟩

/-- The blocks, the reports and the bandwidth estimates stay as they are. -/
structure Node.Untouched (node node' : Node) : Prop where
  cache : node'.cache = node.cache
  completed : node'.completed = node.completed
  estimations : node'.estimations = node.estimations

theorem Node.Untouched.trans {n₁ n₂ n₃ : Node} (h : n₁.Untouched n₂) (h' : n₂.Untouched n₃) :
    n₁.Untouched n₃ where
  cache := h'.cache.trans h.cache
  completed := h'.completed.trans h.completed
  estimations := h'.estimations.trans h.estimations

section Stages

variable {p : Processing}

theorem portStage_frame :
    Steady p.node p.portStage.node ∧ p.portStage.fault = p.fault ∧
      p.portStage.data.flags = p.data.flags ∧ p.portStage.node.ack = p.node.ack := by
  unfold portStage
  split
  · split
    · refine ⟨⟨rfl, fun id => ?_⟩, rfl, rfl, rfl⟩
      simp [Node.reports, complete, Completion.reports]
    · exact ⟨Steady.refl _, rfl, rfl, rfl⟩
  · simp only
    split <;> exact ⟨Steady.refl _, rfl, rfl, rfl⟩

theorem answer_keeps (seq : UInt16) : p.node.Untouched (p.answer seq).node := by
  unfold answer
  split <;> exact ⟨rfl, rfl, rfl⟩

theorem needAckStage_keeps : p.node.Untouched p.needAckStage.node := by
  unfold needAckStage
  split
  · simp only
    split
    · have hcounted : p.node.Untouched
          (((p.noteSub ackSize).sub ackSize).addStat .data ackSize).node := ⟨rfl, rfl, rfl⟩
      exact hcounted.trans (answer_keeps _)
    · exact ⟨rfl, rfl, rfl⟩
  · exact ⟨rfl, rfl, rfl⟩

theorem ackStage_keeps : p.node.Untouched p.ackStage.node := by
  unfold ackStage
  split
  · split
    · simp only
      split
      · exact ⟨rfl, rfl, rfl⟩
      · split <;> exact ⟨rfl, rfl, rfl⟩
    · exact ⟨rfl, rfl, rfl⟩
  · exact ⟨rfl, rfl, rfl⟩

theorem bwStage_keeps : p.node.Untouched p.bwStage.node := by
  unfold bwStage
  split
  · split
    · split <;> exact ⟨rfl, rfl, rfl⟩
    · exact ⟨rfl, rfl, rfl⟩
  · exact ⟨rfl, rfl, rfl⟩

theorem andThen_keeps {stage : Processing → Processing}
    (hstage : ∀ p : Processing, p.node.Untouched (stage p).node) :
    p.node.Untouched (p.andThen stage).node := by
  unfold andThen
  split
  · exact hstage p
  · exact ⟨rfl, rfl, rfl⟩

theorem beforeBlock_keeps (node : Node) (data : IncomingData) :
    (⟨node, data, [], none⟩ : Processing).portStage.node.Untouched (beforeBlock node data).node :=
  ((andThen_keeps (fun _ => needAckStage_keeps)).trans
    (andThen_keeps (fun _ => ackStage_keeps))).trans (andThen_keeps (fun _ => bwStage_keeps))

theorem beforeBlock_steady (node : Node) (data : IncomingData) :
    Steady node (beforeBlock node data).node := by
  have hkeeps := beforeBlock_keeps node data
  exact portStage_frame.1.trans (steady_of_completed hkeeps.cache hkeeps.completed)

theorem ackStage_fault : p.ackStage.fault = p.fault := by
  unfold ackStage
  split
  · split
    · rename_i hvalid
      have hlen : ¬ p.data.buflen < ackPacketSize := by
        unfold validateAck at hvalid
        split at hvalid
        · rename_i hlen
          rw [hlen]
          exact lt_irrefl _
        · cases hvalid
      simp only [addStat_data, decodeAck, hlen, if_false]
      split <;> rfl
    · rfl
  · rfl

theorem bwStage_fault : p.bwStage.fault = p.fault := by
  unfold bwStage
  split
  · split
    · split <;> rfl
    · rfl
  · rfl

/-- What passes as a fragment or as a cookie is no acknowledgement and no bandwidth message. -/
theorem validateBlock_bits {blob : Bytes} {l : ℕ} (h : validateBlock blob l = true) :
    hasBit (byteAt blob 0) blkAck = false ∧ hasBit (byteAt blob 0) bwMsg = false := by
  simp only [validateBlock] at h
  split at h
  · rename_i hfrag
    have hflags := hfrag.2.2
    have hheader : (fragmentHeader blob).flags = byteAt blob 0 := rfl
    rw [hheader] at hflags
    revert hflags
    exact flags_forall (P := fun f =>
      (f &&& maskBlockAck &&& blockMaskConsecutive &&& blockMaskRetransmission) ^^^ blkEmpty = 0 →
        hasBit f blkAck = false ∧ hasBit f bwMsg = false) (by decide +kernel) _
  split at h
  · rw [beq_iff_eq.mp h]
    exact ⟨by decide, by decide⟩
  · cases h

theorem andThen_unmoved {stage : Processing → Processing} (h : stage p = p) :
    p.andThen stage = p := by
  unfold andThen
  split
  · exact h
  · rfl

theorem andThen_asked (hvalid : validateBlock p.data.buf p.data.buflen = true) :
    (p.andThen ackStage).andThen bwStage = p := by
  obtain ⟨hack, hbw⟩ := validateBlock_bits hvalid
  have hack' : p.ackStage = p := by
    simp only [ackStage, IncomingData.flags, hack, Bool.false_eq_true, if_false]
  have hbw' : p.bwStage = p := by
    simp only [bwStage, IncomingData.flags, hbw, Bool.false_eq_true, if_false]
  rw [andThen_unmoved hack', andThen_unmoved hbw']

theorem andThen_fault {stage : Processing → Processing}
    (hstage : ∀ p : Processing, (stage p).fault = p.fault) : (p.andThen stage).fault = p.fault := by
  unfold andThen
  split
  · exact hstage p
  · rfl

theorem answer_ok (seq : UInt16) {cons : UInt16}
    (h : getConsecutives p.node.cache (getFragmentId p.data.buf p.data.buflen) = .ok cons) :
    p.answer seq = p.sendData (ackFor seq cons p.data.tv p.data.source) := by
  simp only [answer, h]
  rfl

end Stages

section Datagram

variable {node : Node} {data : IncomingData} {f : FragmentData}

/-- The datagram without its port. -/
def stripped (node : Node) (data : IncomingData) : Processing :=
  (⟨node, data, [], none⟩ : Processing).portStage

theorem stripped_frame (node : Node) (data : IncomingData) :
    Steady node (stripped node data).node ∧ (stripped node data).fault = none ∧
      (stripped node data).data.flags = data.flags ∧
      (stripped node data).node.ack = node.ack := portStage_frame

theorem beforeBlock_fault (node : Node) (data : IncomingData) :
    (beforeBlock node data).fault = (stripped node data).needAckStage.fault := by
  rw [beforeBlock, andThen_fault (fun _ => bwStage_fault), andThen_fault (fun _ => ackStage_fault)]
  exact congrArg Processing.fault (andThen_none (stripped_frame node data).2.1 _)

theorem beforeBlock_asked (hask : hasBit data.flags needAck = true)
    (hvalid : validateBlock (stripped node data).data.buf
      (subSize (stripped node data).data.buflen ackSize) = true) :
    beforeBlock node data = (stripped node data).needAckStage ∧
      (beforeBlock node data).data = ((stripped node data).sub ackSize).data := by
  obtain ⟨-, hfault, hflags, -⟩ := stripped_frame node data
  have hstage := needAckStage_asked (by rw [hflags]; exact hask) hvalid
  have hdata : (stripped node data).needAckStage.data = ((stripped node data).sub ackSize).data := by
    rw [hstage, (answer_frame _).1]
    rfl
  have hbefore : beforeBlock node data = (stripped node data).needAckStage := by
    rw [beforeBlock]
    show (((stripped node data).andThen needAckStage).andThen ackStage).andThen bwStage = _
    rw [andThen_none hfault]
    apply andThen_asked
    rw [hdata]
    exact hvalid
  exact ⟨hbefore, by rw [hbefore, hdata]⟩

theorem receivedFragment_asked (hl : 1 < data.buflen) (hask : hasBit data.flags needAck = true)
    (hblk : hasBit data.flags blkBlock = true)
    (hvalid : validateBlock (stripped node data).data.buf
      (subSize (stripped node data).data.buflen ackSize) = true) :
    ∃ f, receivedFragment node data = some f ∧
      decodeFragment (stripped node data).data.buf
        (subSize (stripped node data).data.buflen ackSize) = some f := by
  obtain ⟨-, -, hflags, -⟩ := stripped_frame node data
  rw [← hflags] at hblk
  obtain ⟨-, hdata⟩ := beforeBlock_asked hask hvalid
  obtain ⟨f, hf⟩ := decodeFragment_of_validate hvalid hblk
  refine ⟨f, ?_, hf⟩
  rw [receivedFragment, if_pos hl, Processing.fragment, hdata, sub_flags, sub_buf, sub_buflen, hblk,
    hvalid]
  exact hf

theorem getConsecutives_default (cache : Cache) : getConsecutives cache default = .ok 0 := by
  unfold getConsecutives
  split <;> rfl

theorem beforeBlock_safe (hl : 1 < data.buflen)
    (hsafe : ∀ f, receivedFragment node data = some f →
      ∃ n, getConsecutives node.cache f.fragmentID = .ok n) :
    (beforeBlock node data).fault = none := by
  obtain ⟨hsteady, hfault, hflags, -⟩ := stripped_frame node data
  rw [beforeBlock_fault]
  cases hask : hasBit data.flags needAck with
  | false =>
    rw [needAckStage_unasked (by rw [hflags]; exact hask)]
    exact hfault
  | true =>
    cases hvalid : validateBlock (stripped node data).data.buf
        (subSize (stripped node data).data.buflen ackSize) with
    | false =>
      rw [needAckStage_rejected (by rw [hflags]; exact hask) hvalid]
      exact hfault
    | true =>
      obtain ⟨-, hdata⟩ := beforeBlock_asked hask hvalid
      have hcons : ∃ n, getConsecutives node.cache (getFragmentId (stripped node data).data.buf
          (subSize (stripped node data).data.buflen ackSize)) = .ok n := by
        cases hblk : hasBit data.flags blkBlock with
        | true =>
          obtain ⟨f, hf, hdecode⟩ := receivedFragment_asked hl hask hblk hvalid
          rw [getFragmentId_decode hdecode]
          exact hsafe f hf
        | false =>
          have hid : getFragmentId (stripped node data).data.buf
              (subSize (stripped node data).data.buflen ackSize) = default := by
            rw [← hflags] at hblk
            have hheader : (fragmentHeader (stripped node data).data.buf).flags =
                (stripped node data).data.flags := rfl
            simp [getFragmentId, hheader, hblk]
          rw [hid]
          exact ⟨0, getConsecutives_default _⟩
      obtain ⟨n, hn⟩ := hcons
      rw [← hsteady.1] at hn
      rw [needAckStage_asked (by rw [hflags]; exact hask) hvalid, answer_ok]
      · exact hfault
      · exact n
      · exact hn

/-- Without a fragment for the cache, a datagram neither changes it nor reports a block. -/
theorem packetProcessor_other (junk : UInt16) (h : receivedFragment node data = none) :
    Steady node (packetProcessor node data junk).node ∧
      (packetProcessor node data junk).fault = none := by
  rw [packetProcessor_eq]
  by_cases hl : 1 < data.buflen
  · have hfault : (beforeBlock node data).fault = none := beforeBlock_safe hl (by simp [h])
    rw [receivedFragment, if_pos hl] at h
    rw [if_pos hl, andThen_none hfault]
    have hstage : Steady (beforeBlock node data).node ((beforeBlock node data).blockStage junk).node ∧
        ((beforeBlock node data).blockStage junk).fault = none := by
      unfold blockStage
      unfold Processing.fragment at h
      split
      · rename_i hbit
        split
        · rename_i hvalid
          rw [hbit, hvalid] at h
          simp only [Bool.and_self, if_true] at h
          simp only [h]
          exact ⟨Steady.refl _, hfault⟩
        · exact ⟨Steady.refl _, hfault⟩
      · exact ⟨Steady.refl _, hfault⟩
    rw [andThen_none hstage.2]
    exact ⟨(beforeBlock_steady node data).trans hstage.1, hstage.2⟩
  · rw [if_neg hl]
    exact ⟨Steady.refl _, rfl⟩

theorem fragmentAdded_reports (p : Processing) (fragment : FragmentData) (r : AddResult)
    (id : BlockID) :
    (p.fragmentAdded fragment r).node.reports id = p.node.reports id +
      if r = .added ∧ iscomplete p.node.cache fragment.id = true ∧ fragment.id = id then 1
      else 0 := by
  cases r with
  | added =>
    simp only [fragmentAdded]
    split
    · rename_i hcomplete
      by_cases hid : fragment.id = id
      · subst id
        simp [hcomplete, complete, Node.reports, Completion.reports]
      · simp [hid, complete, Node.reports, Completion.reports]
    · rename_i hcomplete
      simp [hcomplete, Node.reports]
  | duplicate => rfl
  | fragmentsMismatch => rfl
  | fragmentidOutOfBounds => rfl
  | badLen => rfl

/-- The fragment of a datagram goes to `addfragment`, and its block is reported if the fragment
was added and the block is complete then. -/
theorem packetProcessor_received (junk : UInt16) (h : receivedFragment node data = some f)
    (hfault : (beforeBlock node data).fault = none) :
    (∀ e, addfragment node.cache f (beforeBlock node data).data.source
        (beforeBlock node data).data.tv junk = .error e →
      (packetProcessor node data junk).fault = some e) ∧
    ∀ cache r, addfragment node.cache f (beforeBlock node data).data.source
        (beforeBlock node data).data.tv junk = .ok (cache, r) →
      (packetProcessor node data junk).fault = none ∧
        (packetProcessor node data junk).node.cache = cache ∧
        (packetProcessor node data junk).node.ack = (beforeBlock node data).node.ack ∧
        ∀ id, (packetProcessor node data junk).node.reports id = node.reports id +
          if r = .added ∧ iscomplete cache f.id = true ∧ f.id = id then 1 else 0 := by
  obtain ⟨hcache, hreports⟩ := beforeBlock_steady node data
  unfold receivedFragment at h
  split at h
  · rename_i hl
    unfold Processing.fragment at h
    split at h
    · rename_i hboth
      obtain ⟨hbit, hvalid⟩ := Bool.and_eq_true_iff.mp hboth
      have hrun : packetProcessor node data junk =
          ((beforeBlock node data).blockStage junk).andThen countStage := by
        rw [packetProcessor_eq, if_pos hl, andThen_none hfault]
      rw [hrun]
      constructor
      · intro e he
        have hstage : (beforeBlock node data).blockStage junk = (beforeBlock node data).fail e := by
          simp only [blockStage, hbit, hvalid, if_true, h, hcache, he]
        rw [hstage]
        rfl
      · intro cache r hadd
        have hstage : (beforeBlock node data).blockStage junk =
            fragmentAdded { beforeBlock node data with
              node := { (beforeBlock node data).node with cache := cache } } f r := by
          simp only [blockStage, hbit, hvalid, if_true, h, hcache, hadd]
        rw [hstage]
        obtain ⟨hcache', hack, hfault'⟩ := fragmentAdded_frame { beforeBlock node data with
          node := { (beforeBlock node data).node with cache := cache } } f r
        rw [andThen_none (hfault'.trans hfault)]
        refine ⟨hfault'.trans hfault, hcache', hack, fun id => ?_⟩
        rw [← hreports id]
        exact fragmentAdded_reports _ f r id
    · cases h
  · cases h

theorem beforeBlock_of_processed {junk : UInt16} (hl : 1 < data.buflen)
    (h : (packetProcessor node data junk).fault = none) : (beforeBlock node data).fault = none := by
  cases hfault : (beforeBlock node data).fault with
  | none => rfl
  | some e =>
    rw [packetProcessor_eq, if_pos hl] at h
    simp [andThen, hfault] at h

end Datagram

/-- A node with, for the record, the ids under which `addblock` has put a block. -/
structure Receiver where
  node : Node
  put : List BlockID

/-- `elsewhere` is what the rest of the program does meanwhile to the tables of the node, the
cache apart. -/
inductive ReceiverAction
  | addblock (id : BlockID) (blockdata : Bytes)
  | deleteblock (id : BlockID)
  | datagram (data : IncomingData) (junk : UInt16)
  | elsewhere (node : Node)

/-- A datagram whose processing faults has no state after it. -/
def receiver : System Receiver ReceiverAction where
  init s := s.node.cache = [] ∧ s.node.completed = [] ∧ s.put = []
  step s
    | .addblock id blockdata =>
      some ⟨{ s.node with cache := (addblock s.node.cache id blockdata).1 },
        if (addblock s.node.cache id blockdata).2 then id :: s.put else s.put⟩
    | .deleteblock id =>
      some ⟨{ s.node with cache := (deleteblock s.node.cache id).1 }, s.put⟩
    | .datagram data junk =>
      if (packetProcessor s.node data junk).fault = none then
        some ⟨(packetProcessor s.node data junk).node, s.put⟩
      else none
    | .elsewhere node =>
      some ⟨{ node with cache := s.node.cache, completed := s.node.completed }, s.put⟩

theorem receiver_datagram {s t : Receiver} {data : IncomingData} {junk : UInt16}
    (h : receiver.step s (.datagram data junk) = some t) :
    (packetProcessor s.node data junk).fault = none ∧
      t = ⟨(packetProcessor s.node data junk).node, s.put⟩ := by
  simp only [receiver] at h
  split at h
  · rename_i hfault
    cases h
    exact ⟨hfault, rfl⟩
  · cases h

theorem receiver_cache {s : Receiver} (h : Reachable receiver s) :
    Reachable blockcache s.node.cache := by
  apply h.invariant
  · rintro s ⟨hcache, -, -⟩
    exact .init hcache
  · intro s a t hs _ hstep
    cases a with
    | addblock id blockdata =>
      cases hstep
      exact hs.step (a := .addblock id blockdata) trivial rfl
    | deleteblock id =>
      cases hstep
      exact hs.step (a := .deleteblock id) trivial rfl
    | elsewhere node =>
      cases hstep
      exact hs
    | datagram data junk =>
      obtain ⟨hfault, rfl⟩ := receiver_datagram hstep
      cases hf : receivedFragment s.node data with
      | none =>
        simp only [(packetProcessor_other junk hf).1.1]
        exact hs
      | some f =>
        have hl : 1 < data.buflen := by
          by_contra hl
          simp [receivedFragment, hl] at hf
        obtain ⟨hbad, hgood⟩ :=
          packetProcessor_received junk hf (beforeBlock_of_processed hl hfault)
        cases hadd : addfragment s.node.cache f (beforeBlock s.node data).data.source
            (beforeBlock s.node data).data.tv junk with
        | error e =>
          rw [hbad e hadd] at hfault
          cases hfault
        | ok result =>
          simp only [(hgood result.1 result.2 hadd).2.1]
          refine hs.step (a := .addfragment f (beforeBlock s.node data).data.source
            (beforeBlock s.node data).data.tv junk) trivial ?_
          simp only [blockcache, hadd]
          rfl

end Bora
