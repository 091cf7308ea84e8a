import Bora.PacketReceiver
import Bora.Library.SlotRing

/-! The receive buffer between `packet_receiver` and `packet_processor`: one step for each
semaphore operation, each write and read of a slot and each advance of an index. -/
namespace Bora

open ByteMemory Transition

def bufN : ℕ := 256

/-- `c = (BUF_N+1+c)%BUF_N`, computed as an int and stored in a byte. -/
def nextSlot (c : UInt8) : UInt8 := UInt8.ofNat ((bufN + 1 + c.toNat) % bufN)

structure Datagram where
  source : SockAddr
  bytes : Bytes
  fits : bytes.length ≤ packetSize

namespace IncomingData

def setBuf (data : IncomingData) (x : Datagram) : IncomingData :=
  { data with
    buf := x.bytes ++ data.buf.drop x.bytes.length
    size := by
      have hx := x.fits
      rw [List.length_append, List.length_drop, data.size]
      omega }

def setSource (data : IncomingData) (source : SockAddr) : IncomingData :=
  { data with source := source }

def setTv (data : IncomingData) (tv : Timeval) : IncomingData := { data with tv := tv }

def setBuflen (data : IncomingData) (l : ℕ) : IncomingData := { data with buflen := l }

structure Holds (data : IncomingData) (x : Datagram × Timeval) : Prop where
  source : data.source = x.1.source
  buflen : data.buflen = x.1.bytes.length
  bytes : data.buf.take data.buflen = x.1.bytes
  tv : data.tv = x.2

end IncomingData

inductive ReceiverPc
  | wait
  | recvfrom
  | source (x : Datagram)
  | stamp (x : Datagram)
  | buflen (x : Datagram) (tv : Timeval)
  | advance (x : Datagram) (tv : Timeval)
  | post (x : Datagram) (tv : Timeval)
  | exited

/-- Between its wait and its advance `packet_processor` reads and changes its slot. -/
inductive ProcessorTurn
  | wait
  | process
  | post
deriving DecidableEq

/-- A read of the slot in an iteration of `packet_processor`, with what the iteration had done to
the slot before. -/
structure SlotRead where
  iteration : ℕ
  changes : IncomingData → IncomingData
  found : IncomingData

/-- The last four fields record the run: the datagrams for which `bFull` was posted, the
iterations for which `bEmpty` was posted, the changes made in the present one, and all reads. -/
structure ReceiveRing where
  buffer : ℕ → IncomingData
  bFull : ℕ
  bEmpty : ℕ
  receiver : ReceiverPc
  receiverC : UInt8
  processor : ProcessorTurn
  processorC : UInt8
  received : List (Datagram × Timeval)
  iterations : ℕ
  changes : IncomingData → IncomingData
  reads : List SlotRead

/-- `x` is the outcome of `recvfrom`, `tv` that of `gettimeofday`, if the step calls them. -/
inductive ReceiveAction
  | receiver (x : Option Datagram) (tv : Timeval)
  | wait
  | read
  | change (f : IncomingData → IncomingData)
  | advance
  | post

namespace ReceiveRing

def init (buffer : ℕ → IncomingData) : ReceiveRing :=
  ⟨buffer, 0, bufN, .wait, 0, .wait, 0, [], 0, id, []⟩

def fill (s : ReceiveRing) (f : IncomingData → IncomingData) : ReceiveRing :=
  { s with buffer := Function.update s.buffer s.receiverC.toNat (f (s.buffer s.receiverC.toNat)) }

def receiverStep (s : ReceiveRing) (x : Option Datagram) (tv : Timeval) : Option ReceiveRing :=
  match s.receiver with
  | .wait =>
    if s.bEmpty = 0 then none else some { s with bEmpty := s.bEmpty - 1, receiver := .recvfrom }
  | .recvfrom =>
    match x with
    | none => some { s with receiver := .exited }
    | some x => some { s.fill (fun data => data.setBuf x) with receiver := .source x }
  | .source x => some { s.fill (fun data => data.setSource x.source) with receiver := .stamp x }
  | .stamp x => some { s.fill (fun data => data.setTv tv) with receiver := .buflen x tv }
  | .buflen x tv =>
    some { s.fill (fun data => data.setBuflen x.bytes.length) with receiver := .advance x tv }
  | .advance x tv => some { s with receiverC := nextSlot s.receiverC, receiver := .post x tv }
  | .post x tv =>
    some { s with bFull := s.bFull + 1, received := s.received ++ [(x, tv)], receiver := .wait }
  | .exited => none

def step (s : ReceiveRing) : ReceiveAction → Option ReceiveRing
  | .receiver x tv => s.receiverStep x tv
  | .wait =>
    if s.processor ≠ .wait ∨ s.bFull = 0 then none
    else some { s with bFull := s.bFull - 1, processor := .process, changes := id }
  | .read =>
    if s.processor = .process then
      some { s with reads := ⟨s.iterations, s.changes, s.buffer s.processorC.toNat⟩ :: s.reads }
    else none
  | .change f =>
    if s.processor = .process then
      some { s with
        buffer := Function.update s.buffer s.processorC.toNat (f (s.buffer s.processorC.toNat))
        changes := f ∘ s.changes }
    else none
  | .advance =>
    if s.processor = .process then
      some { s with processorC := nextSlot s.processorC, processor := .post }
    else none
  | .post =>
    if s.processor = .post then
      some { s with bEmpty := s.bEmpty + 1, processor := .wait, iterations := s.iterations + 1 }
    else none

end ReceiveRing

def receiveRing : System ReceiveRing ReceiveAction where
  init s := ∃ buffer, s = ReceiveRing.init buffer
  step := ReceiveRing.step

@[simp] theorem nextSlot_toNat (c : UInt8) : (nextSlot c).toNat = (c.toNat + 1) % bufN := by
  have hc := c.toNat_lt
  simp only [nextSlot, bufN, UInt8.toNat_ofNat']
  omega

namespace ReceiverPc

/-- Between its wait and its post the receiver has the slot; it exits with it. -/
def writing : ReceiverPc → Bool
  | .wait => false
  | _ => true

def writes : ReceiverPc → Bool
  | .recvfrom | .source _ | .stamp _ | .buflen _ _ => true
  | _ => false

/-- How far the private index is ahead of the number of posts. -/
def ahead : ReceiverPc → ℕ
  | .post _ _ => 1
  | _ => 0

theorem writing_of_writes {pc : ReceiverPc} (h : pc.writes = true) :
    pc.writing = true ∧ pc.ahead = 0 := by
  cases pc with
  | recvfrom => exact ⟨rfl, rfl⟩
  | source x => exact ⟨rfl, rfl⟩
  | stamp x => exact ⟨rfl, rfl⟩
  | buflen x tv => exact ⟨rfl, rfl⟩
  | _ => cases h

/-- What the receiver has put into its slot. -/
def Filled (data : IncomingData) : ReceiverPc → Prop
  | .source x => data.buf.take x.bytes.length = x.bytes
  | .stamp x => data.buf.take x.bytes.length = x.bytes ∧ data.source = x.source
  | .buflen x tv => data.buf.take x.bytes.length = x.bytes ∧ data.source = x.source ∧ data.tv = tv
  | .advance x tv => data.Holds (x, tv)
  | .post x tv => data.Holds (x, tv)
  | _ => True

end ReceiverPc

namespace ProcessorTurn

def reading : ProcessorTurn → Bool
  | .wait => false
  | _ => true

def ahead : ProcessorTurn → ℕ
  | .post => 1
  | _ => 0

end ProcessorTurn

namespace ReceiveRing

variable {s t : ReceiveRing} {r : SlotRing.State IncomingData}

structure Refines (s : ReceiveRing) (r : SlotRing.State IncomingData) : Prop where
  slots : r.slots = s.buffer
  empty : r.empty = s.bEmpty
  full : r.full = s.bFull
  writing : r.writing = s.receiver.writing
  reading : r.reading = s.processor.reading
  released : r.released = s.iterations
  changes : r.changes = s.changes
  holds : List.Forall₂ (fun data x => IncomingData.Holds data x) r.produced s.received
  receiverC : s.receiverC.toNat = (r.produced.length + s.receiver.ahead) % bufN
  processorC : s.processorC.toNat = (r.released + s.processor.ahead) % bufN
  filled : s.receiver.Filled (r.slots (r.head bufN))

theorem refines_init (buffer : ℕ → IncomingData) :
    (init buffer).Refines (SlotRing.State.init bufN buffer) where
  slots := rfl
  empty := rfl
  full := rfl
  writing := rfl
  reading := rfl
  released := rfl
  changes := rfl
  holds := List.Forall₂.nil
  receiverC := rfl
  processorC := rfl
  filled := trivial

theorem Refines.fill (h : s.Refines r) (f : IncomingData → IncomingData) (pc : ReceiverPc)
    (hw : s.receiver.writing = true) (hahead : s.receiver.ahead = 0)
    (hw' : pc.writing = true) (hahead' : pc.ahead = 0)
    (hfilled : pc.Filled (f (r.slots (r.head bufN)))) :
    ∃ r', r.step bufN (.write f) = some r' ∧ Refines { s.fill f with receiver := pc } r' := by
  have hc : s.receiverC.toNat = r.head bufN := by
    rw [h.receiverC, hahead, Nat.add_zero]
    rfl
  refine ⟨_, if_pos (h.writing.trans hw), ?_⟩
  refine ⟨?_, h.empty, h.full, h.writing.trans (hw.trans hw'.symm), h.reading, h.released,
    h.changes, h.holds, ?_, h.processorC, ?_⟩
  · simp only [ReceiveRing.fill, hc, h.slots]
  · simp only [ReceiveRing.fill, h.receiverC, hahead, hahead']
  · simp only [SlotRing.State.head, Function.update_self]
    exact hfilled

theorem refines_receiver (h : s.Refines r) {x : Option Datagram} {tv : Timeval}
    (hs : s.receiverStep x tv = some t) : ∃ r', r.Moves bufN r' ∧ t.Refines r' := by
  have hfilled := h.filled
  have hreceiverC := h.receiverC
  have hwriting := h.writing
  unfold receiverStep at hs
  cases hpc : s.receiver with
  | wait =>
    simp only [hpc] at hs hwriting
    split at hs
    · cases hs
    · rename_i hne
      cases hs
      have hr := SlotRing.State.step_acquire (N := bufN) hwriting (by rw [h.empty]; exact hne)
      refine ⟨_, Or.inr ⟨_, hr⟩, h.slots, ?_, h.full, rfl, h.reading, h.released, h.changes,
        h.holds, ?_, h.processorC, trivial⟩
      · rw [h.empty]
      · rw [hreceiverC, hpc]
        rfl
  | recvfrom =>
    simp only [hpc] at hs
    split at hs
    · cases hs
      refine ⟨r, Or.inl rfl, h.slots, h.empty, h.full, ?_, h.reading, h.released, h.changes,
        h.holds, ?_, h.processorC, trivial⟩
      · rw [hwriting, hpc]
        rfl
      · rw [hreceiverC, hpc]
        rfl
    · rename_i x
      cases hs
      obtain ⟨r', hr, href⟩ := h.fill (fun data => data.setBuf x) (.source x)
        (by rw [hpc]; rfl) (by rw [hpc]; rfl) rfl rfl List.take_left
      exact ⟨r', Or.inr ⟨_, hr⟩, href⟩
  | source x =>
    simp only [hpc] at hs hfilled
    cases hs
    obtain ⟨r', hr, href⟩ := h.fill (fun data => data.setSource x.source) (.stamp x)
      (by rw [hpc]; rfl) (by rw [hpc]; rfl) rfl rfl ⟨hfilled, rfl⟩
    exact ⟨r', Or.inr ⟨_, hr⟩, href⟩
  | stamp x =>
    simp only [hpc] at hs hfilled
    cases hs
    obtain ⟨r', hr, href⟩ := h.fill (fun data => data.setTv tv) (.buflen x tv)
      (by rw [hpc]; rfl) (by rw [hpc]; rfl) rfl rfl ⟨hfilled.1, hfilled.2, rfl⟩
    exact ⟨r', Or.inr ⟨_, hr⟩, href⟩
  | buflen x tv' =>
    simp only [hpc] at hs hfilled
    cases hs
    obtain ⟨r', hr, href⟩ := h.fill (fun data => data.setBuflen x.bytes.length)
      (.advance x tv') (by rw [hpc]; rfl) (by rw [hpc]; rfl) rfl rfl
      ⟨hfilled.2.1, rfl, hfilled.1, hfilled.2.2⟩
    exact ⟨r', Or.inr ⟨_, hr⟩, href⟩
  | advance x tv' =>
    simp only [hpc] at hs hfilled hwriting hreceiverC
    cases hs
    refine ⟨r, Or.inl rfl, h.slots, h.empty, h.full, hwriting, h.reading, h.released, h.changes,
      h.holds, ?_, h.processorC, hfilled⟩
    rw [nextSlot_toNat, hreceiverC]
    exact Nat.mod_add_mod _ _ _
  | post x tv' =>
    simp only [hpc] at hs hfilled hwriting hreceiverC
    cases hs
    refine ⟨_, Or.inr ⟨.publish, if_pos hwriting⟩, h.slots, h.empty, ?_, rfl, h.reading,
      h.released, h.changes, ?_, ?_, h.processorC, trivial⟩
    · rw [h.full]
    · exact List.rel_append h.holds (List.Forall₂.cons hfilled List.Forall₂.nil)
    · rw [hreceiverC, List.length_append]
      rfl
  | exited => simp [hpc] at hs

theorem refines_change (h : s.Refines r) (hinv : r.Inv bufN) (hr : r.reading = true)
    (f : IncomingData → IncomingData) :
    s.receiver.Filled (Function.update r.slots (r.tail bufN) (f (r.slots (r.tail bufN)))
      (r.head bufN)) := by
  by_cases hw : r.writing = true
  · have hfilled := hinv.filled
    rw [hr, Bool.toNat_true] at hfilled
    have hne : r.tail bufN ≠ r.head bufN := hinv.head_ne hw (Nat.le_refl _) (by omega)
    rw [Function.update_of_ne hne.symm]
    exact h.filled
  · rw [h.writing] at hw
    cases hpc : s.receiver with
    | wait => trivial
    | _ => rw [hpc] at hw; exact absurd rfl hw

/-- Every step of the two threads is one of the ring, or nothing to it. -/
theorem refines_step (h : s.Refines r) (hinv : r.Inv bufN) {a : ReceiveAction}
    (hs : s.step a = some t) : ∃ r', r.Moves bufN r' ∧ t.Refines r' := by
  have hreading := h.reading
  have hprocessorC := h.processorC
  cases a with
  | receiver x tv => exact refines_receiver h hs
  | wait =>
    simp only [step] at hs
    split at hs
    · cases hs
    · rename_i hno
      obtain ⟨hpc, hfull⟩ := not_or.mp hno
      have hwait : s.processor = .wait := not_not.mp hpc
      cases hs
      rw [hwait] at hreading
      have hr := SlotRing.State.step_take (N := bufN) hreading (by rw [h.full]; exact hfull)
      refine ⟨_, Or.inr ⟨_, hr⟩, h.slots, h.empty, ?_, h.writing, rfl, h.released, rfl, h.holds,
        h.receiverC, ?_, h.filled⟩
      · rw [h.full]
      · rw [hprocessorC, hwait]
        rfl
  | read =>
    simp only [step] at hs
    split at hs
    · cases hs
      exact ⟨r, Or.inl rfl, h.slots, h.empty, h.full, h.writing, h.reading, h.released, h.changes,
        h.holds, h.receiverC, h.processorC, h.filled⟩
    · cases hs
  | change f =>
    simp only [step] at hs
    split at hs
    · rename_i hpc
      cases hs
      rw [hpc] at hreading hprocessorC
      have hc : s.processorC.toNat = r.tail bufN := hprocessorC
      refine ⟨_, Or.inr ⟨.change f, if_pos hreading⟩, ?_, h.empty, h.full, h.writing, h.reading,
        h.released, ?_, h.holds, h.receiverC, h.processorC, ?_⟩
      · simp only [hc, h.slots]
      · simp only [h.changes]
      · exact refines_change h hinv hreading f
    · cases hs
  | advance =>
    simp only [step] at hs
    split at hs
    · rename_i hpc
      cases hs
      rw [hpc] at hreading hprocessorC
      refine ⟨r, Or.inl rfl, h.slots, h.empty, h.full, h.writing, hreading, h.released, h.changes,
        h.holds, h.receiverC, ?_, h.filled⟩
      rw [nextSlot_toNat, hprocessorC]
      exact Nat.mod_add_mod _ _ _
    · cases hs
  | post =>
    simp only [step] at hs
    split at hs
    · rename_i hpc
      cases hs
      rw [hpc] at hreading hprocessorC
      refine ⟨_, Or.inr ⟨.release, if_pos hreading⟩, h.slots, ?_, h.full, h.writing, rfl, ?_,
        h.changes, h.holds, h.receiverC, ?_, h.filled⟩
      · rw [h.empty]
      · rw [h.released]
      · exact hprocessorC
    · cases hs

theorem refines_reachable (h : Reachable receiveRing s) :
    ∃ buffer r, Reachable (SlotRing.ring bufN buffer) r ∧ s.Refines r := by
  apply h.invariant
  · rintro _ ⟨buffer, rfl⟩
    exact ⟨buffer, _, .init rfl, refines_init buffer⟩
  · rintro s a t ⟨buffer, r, hr, href⟩ _ hs
    obtain ⟨r', hmove, href'⟩ := refines_step href (SlotRing.State.inv_reachable hr) hs
    exact ⟨buffer, r', hmove.reachable hr, href'⟩

/-- A read finds the datagram whose number is that of the iteration, with the changes that the
iteration itself has made. -/
def Faithful (s : ReceiveRing) : Prop :=
  ∀ o ∈ s.reads, ∃ x data, s.received[o.iteration]? = some x ∧ data.Holds x ∧
    o.found = o.changes data

theorem Refines.found (h : s.Refines r) (hinv : r.Inv bufN) (hpc : s.processor = .process) :
    ∃ x data, s.received[s.iterations]? = some x ∧ IncomingData.Holds data x ∧
      s.buffer s.processorC.toNat = s.changes data := by
  have hreading := h.reading
  have hprocessorC := h.processorC
  rw [hpc] at hreading hprocessorC
  have hc : s.processorC.toNat = r.tail bufN := hprocessorC
  obtain ⟨data, hdata, hslot⟩ := hinv.found hreading
  obtain ⟨hlt, hget⟩ := List.getElem?_eq_some_iff.mp hdata
  have hlt' : r.released < s.received.length := by
    rw [← h.holds.length_eq]
    exact hlt
  refine ⟨s.received[r.released], data, ?_, ?_, ?_⟩
  · rw [← h.released]
    exact List.getElem?_eq_getElem hlt'
  · rw [← hget]
    exact h.holds.get hlt hlt'
  · rw [hc, ← h.slots, hslot, h.changes]

theorem receiverStep_reads {x : Option Datagram} {tv : Timeval}
    (hs : s.receiverStep x tv = some t) : s.received <+: t.received ∧ t.reads = s.reads := by
  unfold receiverStep at hs
  cases hpc : s.receiver with
  | wait =>
    simp only [hpc] at hs
    split at hs
    · cases hs
    · cases hs
      exact ⟨List.prefix_rfl, rfl⟩
  | recvfrom =>
    simp only [hpc] at hs
    split at hs
    · cases hs
      exact ⟨List.prefix_rfl, rfl⟩
    · cases hs
      exact ⟨List.prefix_rfl, rfl⟩
  | post x tv' =>
    simp only [hpc] at hs
    cases hs
    exact ⟨List.prefix_append _ _, rfl⟩
  | exited => simp [hpc] at hs
  | _ =>
    simp only [hpc] at hs
    cases hs
    exact ⟨List.prefix_rfl, rfl⟩

theorem step_reads {a : ReceiveAction} (hs : s.step a = some t) :
    s.received <+: t.received ∧ ∀ o ∈ t.reads, o ∈ s.reads ∨ s.processor = .process ∧
      o = ⟨s.iterations, s.changes, s.buffer s.processorC.toNat⟩ := by
  cases a with
  | receiver x tv =>
    obtain ⟨hgrow, hreads⟩ := receiverStep_reads hs
    exact ⟨hgrow, fun o ho => Or.inl (hreads ▸ ho)⟩
  | wait =>
    simp only [step] at hs
    split at hs
    · cases hs
    · cases hs
      exact ⟨List.prefix_rfl, fun o ho => Or.inl ho⟩
  | read =>
    simp only [step] at hs
    split at hs
    · rename_i hpc
      cases hs
      refine ⟨List.prefix_rfl, fun o ho => ?_⟩
      rcases List.mem_cons.mp ho with rfl | ho
      · exact Or.inr ⟨hpc, rfl⟩
      · exact Or.inl ho
    · cases hs
  | _ =>
    simp only [step] at hs
    split at hs
    · cases hs
      exact ⟨List.prefix_rfl, fun o ho => Or.inl ho⟩
    · cases hs

theorem faithful_reachable (h : Reachable receiveRing s) : s.Faithful := by
  have hboth : Reachable receiveRing s ∧ s.Faithful := by
    apply h.invariant
    · rintro s ⟨buffer, rfl⟩
      exact ⟨.init ⟨buffer, rfl⟩, fun o ho => by simp [init] at ho⟩
    · rintro s a t ⟨hreach, hfaithful⟩ _ hs
      refine ⟨hreach.step trivial hs, fun o ho => ?_⟩
      obtain ⟨⟨more, hmore⟩, hreads⟩ := step_reads hs
      have hmono : ∀ {i : ℕ} {x : Datagram × Timeval}, s.received[i]? = some x →
          t.received[i]? = some x := by
        intro i x hx
        rw [← hmore, List.getElem?_append_left (List.getElem?_eq_some_iff.mp hx).1]
        exact hx
      rcases hreads o ho with hold | ⟨hpc, rfl⟩
      · obtain ⟨x, data, hx, hdata, hfound⟩ := hfaithful o hold
        exact ⟨x, data, hmono hx, hdata, hfound⟩
      · obtain ⟨buffer, r, hr, href⟩ := refines_reachable hreach
        obtain ⟨x, data, hx, hdata, hfound⟩ := href.found (SlotRing.State.inv_reachable hr) hpc
        exact ⟨x, data, hmono hx, hdata, hfound⟩
  exact hboth.2

theorem received_length (h : Reachable receiveRing s) :
    s.bFull + s.processor.reading.toNat + s.iterations = s.received.length := by
  obtain ⟨buffer, r, hr, href⟩ := refines_reachable h
  have hfilled := (SlotRing.State.inv_reachable hr).filled
  rw [href.full, href.reading, href.released, href.holds.length_eq] at hfilled
  exact hfilled

theorem receiver_slot_free (h : Reachable receiveRing s) (hw : s.receiver.writes = true) {k : ℕ}
    (hk : s.iterations ≤ k) (hlt : k < s.received.length) : k % bufN ≠ s.receiverC.toNat := by
  obtain ⟨buffer, r, hr, href⟩ := refines_reachable h
  obtain ⟨hwriting, hahead⟩ := ReceiverPc.writing_of_writes hw
  have hc : s.receiverC.toNat = r.head bufN := by
    rw [href.receiverC, hahead, Nat.add_zero]
    rfl
  rw [hc]
  refine (SlotRing.State.inv_reachable hr).head_ne (href.writing.trans hwriting) ?_ ?_
  · rw [href.released]
    exact hk
  · rw [href.holds.length_eq]
    exact hlt

/-- The processor sees the received datagrams in order, each once and none lost, and no slot is
written that it is not done with. -/
structure Lossless (s : ReceiveRing) : Prop where
  seen : s.Faithful
  kept : s.bFull + s.processor.reading.toNat + s.iterations = s.received.length
  free : s.receiver.writes = true → ∀ k, s.iterations ≤ k → k < s.received.length →
    k % bufN ≠ s.receiverC.toNat

theorem lossless (h : Reachable receiveRing s) : s.Lossless where
  seen := faithful_reachable h
  kept := received_length h
  free hw _ hk hlt := receiver_slot_free h hw hk hlt

end ReceiveRing

end Bora
