import Bora.Lengths
import Bora.Receiver
import Mathlib.Data.Fintype.Basic

/-! The locks between the packet processor and Python: `stat_lock_r`, which is held for a whole
datagram, `ack_list`, which `bwsiter.next()` keeps until `bws_set()`, the ring of completed blocks
and the interpreter's global lock, which the waits of the two iterators give up. -/
namespace Bora

open ByteMemory Processing Transition

/-- What the processor does with the other locks while it holds `stat_lock_r`: it takes `ack_list`
for `ack_received`, and a slot of the ring for `block_completed`. -/
inductive ProcessorOp
  | ack
  | complete
deriving DecidableEq

def opsOf (ack complete : Bool) : List ProcessorOp :=
  (if ack then [.ack] else []) ++ if complete then [.complete] else []

def Processing.accepts (p : Processing) : Bool :=
  hasBit p.data.flags blkAck && validateAck p.data.buf p.data.buflen &&
    match decodeAck p.data.buf p.data.buflen with
    | none => false
    | some ackR => (popAck p.node.ack.nacks ackR.seq p.data.source).2.isSome

def completions (p q : Processing) : List ProcessorOp :=
  List.replicate (q.node.completed.length - p.node.completed.length) .complete

/-- The operations of a datagram, in the order in which `packet_processor` comes to them. -/
def datagramOps (node : Node) (data : IncomingData) (junk : UInt16) : List ProcessorOp :=
  if 1 < data.buflen then
    let p : Processing := ⟨node, data, [], none⟩
    let answered := p.portStage.andThen needAckStage
    let before := beforeBlock node data
    completions p p.portStage ++
      (if answered.fault = none ∧ answered.accepts = true then [.ack] else []) ++
      completions before (before.andThen (blockStage junk))
  else []

theorem completions_none {p q : Processing} (h : q.node.completed = p.node.completed) :
    completions p q = [] := by
  simp [completions, h]

theorem completions_one {p q : Processing} {c : Completion}
    (h : q.node.completed = p.node.completed ++ [c]) : completions p q = [.complete] := by
  simp [completions, h]

theorem completions_blockStage (p : Processing) (junk : UInt16) :
    ∃ complete : Bool, completions p (p.andThen (blockStage junk)) =
      if complete then [.complete] else [] := by
  have hsame : ∀ {q : Processing}, q.node.completed = p.node.completed →
      ∃ complete : Bool, completions p q = if complete then [.complete] else [] :=
    fun h => ⟨false, completions_none h⟩
  unfold andThen
  split
  · unfold blockStage
    split
    · split
      · split
        · exact hsame rfl
        · split
          · exact hsame rfl
          · rename_i r _
            cases r with
            | added =>
              simp only [fragmentAdded]
              split
              · exact ⟨true, completions_one rfl⟩
              · exact hsame rfl
            | duplicate => exact hsame rfl
            | fragmentsMismatch => exact hsame rfl
            | fragmentidOutOfBounds => exact hsame rfl
            | badLen => exact hsame rfl
      · exact hsame rfl
    · exact hsame rfl
  · exact hsame rfl

theorem datagramOps_noFlags (node : Node) {data : IncomingData} (junk : UInt16)
    (hl : 1 < data.buflen) (hf : data.flags = 0) :
    ∃ complete : Bool, datagramOps node data junk = opsOf false complete := by
  have hflags : (stripped node data).data.flags = 0 := (stripped_frame node data).2.2.1.trans hf
  have hbit : ∀ b, hasBit (stripped node data).data.flags b = false := by
    intro b
    rw [hflags]
    exact hasBit_zero b
  have hask : (stripped node data).andThen needAckStage = stripped node data :=
    andThen_unmoved (needAckStage_unasked (hbit needAck))
  have hack : (stripped node data).andThen ackStage = stripped node data :=
    andThen_unmoved (by simp [ackStage, hbit])
  have hbw : (stripped node data).andThen bwStage = stripped node data :=
    andThen_unmoved (by simp [bwStage, hbit])
  have hblock : (stripped node data).andThen (blockStage junk) = stripped node data :=
    andThen_unmoved (by simp [blockStage, hbit])
  have hbefore : beforeBlock node data = stripped node data := by
    show (((stripped node data).andThen needAckStage).andThen ackStage).andThen bwStage = _
    rw [hask, hack, hbw]
  have hnot : (stripped node data).accepts = false := by simp [accepts, hbit]
  have hops : datagramOps node data junk =
      completions ⟨node, data, [], none⟩ (stripped node data) := by
    rw [datagramOps, if_pos hl]
    show completions _ (stripped node data) ++
      (if ((stripped node data).andThen needAckStage).fault = none ∧
          ((stripped node data).andThen needAckStage).accepts = true then [ProcessorOp.ack] else [])
      ++ _ = _
    rw [hask, hbefore, hblock, hnot, completions_none rfl]
    simp
  rw [hops, stripped, portStage, if_pos hf]
  split
  · exact ⟨true, completions_one rfl⟩
  · exact ⟨false, completions_none rfl⟩

/-- An ack is no fragment, and without flags nothing is done. -/
theorem completions_refused {p : Processing} (junk : UInt16)
    (h : p.data.flags = 0 ∨ hasBit p.data.flags blkAck = true) :
    completions p (p.andThen (blockStage junk)) = [] := by
  apply completions_none
  unfold andThen
  split
  · unfold blockStage
    split
    · rename_i hblock
      have hack : hasBit (byteAt p.data.buf 0) blkAck = true := by
        refine h.resolve_left fun hzero => ?_
        rw [hzero, hasBit_zero] at hblock
        cases hblock
      have hinvalid : validateBlock p.data.buf p.data.buflen = false := by
        cases hvalid : validateBlock p.data.buf p.data.buflen with
        | false => rfl
        | true =>
          rw [(validateBlock_bits hvalid).1] at hack
          cases hack
      rw [if_neg (by simp [hinvalid])]
      rfl
    · rfl
  · rfl

theorem ackStage_accepts {p : Processing} (h : p.accepts = true) : p.ackStage.data = p.data := by
  simp only [accepts, Bool.and_eq_true] at h
  obtain ⟨⟨hbit, hvalid⟩, -⟩ := h
  unfold ackStage
  rw [if_pos hbit, if_pos hvalid]
  simp only
  split
  · rfl
  · split <;> rfl

theorem bwStage_data_or (p : Processing) : p.bwStage.data = p.data ∨ p.bwStage.data.flags = 0 := by
  unfold bwStage
  split
  · split
    · split
      · exact .inr (clearFlags_flags p.data)
      · exact .inl rfl
    · exact .inr (clearFlags_flags p.data)
  · exact .inl rfl

theorem completions_accepts {p : Processing} (junk : UInt16) (hfault : p.fault = none)
    (h : p.accepts = true) :
    completions ((p.andThen ackStage).andThen bwStage)
      (((p.andThen ackStage).andThen bwStage).andThen (blockStage junk)) = [] := by
  apply completions_refused
  rw [andThen_none hfault, andThen_none (ackStage_fault.trans hfault)]
  rcases bwStage_data_or p.ackStage with hdata | hzero
  · have hbit : hasBit p.data.flags blkAck = true := by
      simp only [accepts, Bool.and_eq_true] at h
      exact h.1.1
    rw [hdata, ackStage_accepts h]
    exact .inr hbit
  · exact .inl hzero

/-- A datagram needs an ack or a completed block at most. -/
theorem datagramOps_eq (node : Node) (data : IncomingData) (junk : UInt16) :
    ∃ ack complete : Bool, (ack && complete) = false ∧
      datagramOps node data junk = opsOf ack complete := by
  by_cases hl : 1 < data.buflen
  · by_cases hf : data.flags = 0
    · obtain ⟨complete, hops⟩ := datagramOps_noFlags node junk hl hf
      exact ⟨false, complete, rfl, hops⟩
    · have hport : (⟨node, data, [], none⟩ : Processing).portStage.node.completed =
          node.completed := by
        rw [portStage, if_neg hf]
        simp only
        split <;> rfl
      have hnone : completions ⟨node, data, [], none⟩
          (⟨node, data, [], none⟩ : Processing).portStage = [] := completions_none hport
      simp only [datagramOps, if_pos hl, hnone, List.nil_append]
      split
      · rename_i haccepts
        have hblock : completions (beforeBlock node data)
            ((beforeBlock node data).andThen (blockStage junk)) = [] :=
          completions_accepts junk haccepts.1 haccepts.2
        exact ⟨true, false, rfl, by rw [hblock]; rfl⟩
      · obtain ⟨complete, hcomplete⟩ := completions_blockStage (beforeBlock node data) junk
        exact ⟨false, complete, rfl, by rw [hcomplete]; rfl⟩
  · exact ⟨false, false, rfl, by rw [datagramOps, if_neg hl]; rfl⟩

/-- Where the processor is, with what the datagram still needs: in `.acking` it holds `ack_list`,
in `.posting` it has a slot and did not post it yet. -/
inductive ProcessorLockPc
  | take
  | lock (ops : List ProcessorOp)
  | work (ops : List ProcessorOp)
  | acking (ops : List ProcessorOp)
  | posting (ops : List ProcessorOp)

namespace ProcessorLockPc

/-- What is still needed, of a processor that holds `stat_lock_r`. -/
def inside : ProcessorLockPc → Option (List ProcessorOp)
  | .work ops => some ops
  | .acking ops => some ops
  | .posting ops => some ops
  | _ => none

def begins : ProcessorLockPc → Option (List ProcessorOp)
  | .lock ops => some ops
  | _ => none

end ProcessorLockPc

/-- Where a Python thread is. In `.python` it runs, or waits for the global lock; `.biterWait` and
`.biterPost` are the two semaphores of `biter.next()`, after which it wants the lock back
(`.biterDone`), `.bwsWait`, `.bwsGot` and `.bwsLock` the steps of `bwsiter.next()`, `.setPost` is
the end of `bws_set()`, `.statLock` and `.statUnlock` are the lock and the unlock of
`get_in_stats()`. -/
inductive PyPc
  | python
  | biterWait | biterPost | biterDone
  | bwsWait | bwsGot | bwsLock
  | setPost
  | statLock | statUnlock
deriving DecidableEq

namespace PyPc

def keeps : PyPc → Bool
  | .bwsLock => true
  | .setPost => true
  | .statLock => true
  | .statUnlock => true
  | _ => false

def inBiter : PyPc → Bool
  | .biterWait => true
  | .biterPost => true
  | _ => false

end PyPc

inductive StatHolder (ι : Type)
  | processor
  | python (i : ι)
deriving DecidableEq

/-- `.store` is what `get_ack_store` locks for `release_ack_store` to unlock. -/
inductive AckHolder
  | processor
  | store
deriving DecidableEq

/-- `full` and `empty` are the semaphores of the ring, `pusher` says that `bws_thread` waits for
`s_bws_processed`. -/
structure GlobalLock (ι : Type) where
  processor : ProcessorLockPc
  pc : ι → PyPc
  gil : Option ι
  stat : Option (StatHolder ι)
  ackList : Option AckHolder
  full : ℕ
  empty : ℕ
  pusher : Bool
  hasdata : ℕ
  processed : ℕ

def nBiter : ℕ := 20

/-- Python code takes and gives up the global lock and begins calls; `run` is the next step of a
call, `take` the next datagram. -/
inductive GlobalLockStep (ι : Type)
  | acquire (i : ι)
  | release (i : ι)
  | biter (i : ι)
  | bws (i : ι)
  | bwsSet (i : ι)
  | stats (i : ι)
  | run (i : ι)
  | take (ack complete : Bool)
  | processor
  | pusher

namespace GlobalLock

variable {ι : Type} [DecidableEq ι]

def init : GlobalLock ι :=
  ⟨.take, fun _ => .python, none, none, none, 0, nBiter, false, 0, 0⟩

def setPc (s : GlobalLock ι) (i : ι) (pc : PyPc) : GlobalLock ι :=
  { s with pc := Function.update s.pc i pc }

def acquire (s : GlobalLock ι) (i : ι) : Option (GlobalLock ι) :=
  if s.gil = none then
    match s.pc i with
    | .python => some { s with gil := some i }
    | .biterDone => some { s.setPc i .python with gil := some i }
    | .bwsGot => some { s.setPc i .bwsLock with gil := some i }
    | _ => none
  else none

/-- The next step of a call of thread `i`; a wait that cannot end is none. -/
def run (s : GlobalLock ι) (i : ι) : Option (GlobalLock ι) :=
  match s.pc i with
  | .biterWait => if s.full = 0 then none else some { s.setPc i .biterPost with full := s.full - 1 }
  | .biterPost => some { s.setPc i .biterDone with empty := s.empty + 1 }
  | .bwsWait =>
    if s.hasdata = 0 then none else some { s.setPc i .bwsGot with hasdata := s.hasdata - 1 }
  | .bwsLock =>
    if s.ackList = none then some { s.setPc i .python with ackList := some .store } else none
  | .setPost => some { s.setPc i .python with processed := s.processed + 1 }
  | .statLock =>
    if s.stat = none then some { s.setPc i .statUnlock with stat := some (.python i) } else none
  | .statUnlock => some { s.setPc i .python with stat := none }
  | _ => none

def processorStep (s : GlobalLock ι) : Option (GlobalLock ι) :=
  match s.processor with
  | .take => none
  | .lock ops =>
    if s.stat = none then some { s with stat := some .processor, processor := .work ops } else none
  | .work [] => some { s with stat := none, processor := .take }
  | .work (.ack::ops) =>
    if s.ackList = none then some { s with ackList := some .processor, processor := .acking ops }
    else none
  | .acking ops => some { s with ackList := none, processor := .work ops }
  | .work (.complete::ops) =>
    if s.empty = 0 then none else some { s with empty := s.empty - 1, processor := .posting ops }
  | .posting ops => some { s with full := s.full + 1, processor := .work ops }

def Running (s : GlobalLock ι) (i : ι) : Prop := s.gil = some i ∧ s.pc i = .python

instance (s : GlobalLock ι) (i : ι) : Decidable (s.Running i) := inferInstanceAs (Decidable (_ ∧ _))

def step (s : GlobalLock ι) : GlobalLockStep ι → Option (GlobalLock ι)
  | .acquire i => s.acquire i
  | .release i => if s.Running i then some { s with gil := none } else none
  | .biter i => if s.Running i then some { s.setPc i .biterWait with gil := none } else none
  | .bws i => if s.Running i then some { s.setPc i .bwsWait with gil := none } else none
  -- `bws_set` is called for an ack store that `bwsiter.next()` returned.
  | .bwsSet i =>
    if s.Running i ∧ s.ackList = some .store then some { s.setPc i .setPost with ackList := none }
    else none
  | .stats i => if s.Running i then some (s.setPc i .statLock) else none
  | .run i => s.run i
  | .take ack complete =>
    match s.processor with
    | .take => some { s with processor := .lock (opsOf ack complete) }
    | _ => none
  | .processor => s.processorStep
  | .pusher =>
    if s.pusher then
      if s.processed = 0 then none else some { s with processed := s.processed - 1, pusher := false }
    else some { s with hasdata := s.hasdata + 1, pusher := true }

end GlobalLock

def globalLock (ι : Type) [DecidableEq ι] : System (GlobalLock ι) (GlobalLockStep ι) where
  init s := s = GlobalLock.init
  step := GlobalLock.step

namespace GlobalLock

variable {ι : Type} {s t : GlobalLock ι}

section Moves

variable [DecidableEq ι]

inductive Moves (s : GlobalLock ι) : GlobalLockStep ι → GlobalLock ι → Prop
  | acquire {i : ι} (hgil : s.gil = none) (hpc : s.pc i = .python) :
      Moves s (.acquire i) { s with gil := some i }
  | acquireBiter {i : ι} (hgil : s.gil = none) (hpc : s.pc i = .biterDone) :
      Moves s (.acquire i) { s.setPc i .python with gil := some i }
  | acquireBws {i : ι} (hgil : s.gil = none) (hpc : s.pc i = .bwsGot) :
      Moves s (.acquire i) { s.setPc i .bwsLock with gil := some i }
  | release {i : ι} (hrun : s.Running i) : Moves s (.release i) { s with gil := none }
  | biter {i : ι} (hrun : s.Running i) :
      Moves s (.biter i) { s.setPc i .biterWait with gil := none }
  | bws {i : ι} (hrun : s.Running i) : Moves s (.bws i) { s.setPc i .bwsWait with gil := none }
  | bwsSet {i : ι} (hrun : s.Running i) (hstore : s.ackList = some .store) :
      Moves s (.bwsSet i) { s.setPc i .setPost with ackList := none }
  | stats {i : ι} (hrun : s.Running i) : Moves s (.stats i) (s.setPc i .statLock)
  | biterWait {i : ι} (hpc : s.pc i = .biterWait) (hfull : s.full ≠ 0) :
      Moves s (.run i) { s.setPc i .biterPost with full := s.full - 1 }
  | biterPost {i : ι} (hpc : s.pc i = .biterPost) :
      Moves s (.run i) { s.setPc i .biterDone with empty := s.empty + 1 }
  | bwsWait {i : ι} (hpc : s.pc i = .bwsWait) (hdata : s.hasdata ≠ 0) :
      Moves s (.run i) { s.setPc i .bwsGot with hasdata := s.hasdata - 1 }
  | bwsLock {i : ι} (hpc : s.pc i = .bwsLock) (hfree : s.ackList = none) :
      Moves s (.run i) { s.setPc i .python with ackList := some .store }
  | setPost {i : ι} (hpc : s.pc i = .setPost) :
      Moves s (.run i) { s.setPc i .python with processed := s.processed + 1 }
  | statLock {i : ι} (hpc : s.pc i = .statLock) (hfree : s.stat = none) :
      Moves s (.run i) { s.setPc i .statUnlock with stat := some (.python i) }
  | statUnlock {i : ι} (hpc : s.pc i = .statUnlock) :
      Moves s (.run i) { s.setPc i .python with stat := none }
  | take {ack complete : Bool} (hpc : s.processor = .take) :
      Moves s (.take ack complete) { s with processor := .lock (opsOf ack complete) }
  | lock {ops : List ProcessorOp} (hpc : s.processor = .lock ops) (hfree : s.stat = none) :
      Moves s .processor { s with stat := some .processor, processor := .work ops }
  | done (hpc : s.processor = .work []) :
      Moves s .processor { s with stat := none, processor := .take }
  | ack {ops : List ProcessorOp} (hpc : s.processor = .work (.ack::ops)) (hfree : s.ackList = none) :
      Moves s .processor { s with ackList := some .processor, processor := .acking ops }
  | acked {ops : List ProcessorOp} (hpc : s.processor = .acking ops) :
      Moves s .processor { s with ackList := none, processor := .work ops }
  | slot {ops : List ProcessorOp} (hpc : s.processor = .work (.complete::ops))
      (hempty : s.empty ≠ 0) :
      Moves s .processor { s with empty := s.empty - 1, processor := .posting ops }
  | post {ops : List ProcessorOp} (hpc : s.processor = .posting ops) :
      Moves s .processor { s with full := s.full + 1, processor := .work ops }
  | push (hpusher : s.pusher = false) :
      Moves s .pusher { s with hasdata := s.hasdata + 1, pusher := true }
  | pushed (hpusher : s.pusher = true) (hdone : s.processed ≠ 0) :
      Moves s .pusher { s with processed := s.processed - 1, pusher := false }

theorem acquire_moves {i : ι} (hs : s.acquire i = some t) : Moves s (.acquire i) t := by
  unfold acquire at hs
  split at hs
  · rename_i hgil
    split at hs
    all_goals rename_i hpc
    · cases hs
      exact .acquire hgil hpc
    · cases hs
      exact .acquireBiter hgil hpc
    · cases hs
      exact .acquireBws hgil hpc
    · cases hs
  · cases hs

theorem run_moves {i : ι} (hs : s.run i = some t) : Moves s (.run i) t := by
  unfold run at hs
  split at hs
  all_goals rename_i hpc
  · split at hs
    · cases hs
    · rename_i hfull
      cases hs
      exact .biterWait hpc hfull
  · cases hs
    exact .biterPost hpc
  · split at hs
    · cases hs
    · rename_i hdata
      cases hs
      exact .bwsWait hpc hdata
  · split at hs
    · rename_i hfree
      cases hs
      exact .bwsLock hpc hfree
    · cases hs
  · cases hs
    exact .setPost hpc
  · split at hs
    · rename_i hfree
      cases hs
      exact .statLock hpc hfree
    · cases hs
  · cases hs
    exact .statUnlock hpc
  · cases hs

theorem processor_moves (hs : s.processorStep = some t) : Moves s .processor t := by
  unfold processorStep at hs
  split at hs
  all_goals rename_i hpc
  · cases hs
  · split at hs
    · rename_i hfree
      cases hs
      exact .lock hpc hfree
    · cases hs
  · cases hs
    exact .done hpc
  · split at hs
    · rename_i hfree
      cases hs
      exact .ack hpc hfree
    · cases hs
  · cases hs
    exact .acked hpc
  · split at hs
    · cases hs
    · rename_i hempty
      cases hs
      exact .slot hpc hempty
  · cases hs
    exact .post hpc

theorem step_moves {a : GlobalLockStep ι} (hs : s.step a = some t) : Moves s a t := by
  cases a with
  | acquire i => exact acquire_moves hs
  | run i => exact run_moves hs
  | processor => exact processor_moves hs
  | release i =>
    obtain ⟨hrun, ht⟩ := Option.ite_none_right_eq_some.mp hs
    cases ht
    exact .release hrun
  | biter i =>
    obtain ⟨hrun, ht⟩ := Option.ite_none_right_eq_some.mp hs
    cases ht
    exact .biter hrun
  | bws i =>
    obtain ⟨hrun, ht⟩ := Option.ite_none_right_eq_some.mp hs
    cases ht
    exact .bws hrun
  | bwsSet i =>
    obtain ⟨⟨hrun, hstore⟩, ht⟩ := Option.ite_none_right_eq_some.mp hs
    cases ht
    exact .bwsSet hrun hstore
  | stats i =>
    obtain ⟨hrun, ht⟩ := Option.ite_none_right_eq_some.mp hs
    cases ht
    exact .stats hrun
  | take ack complete =>
    simp only [step] at hs
    split at hs
    · rename_i hpc
      cases hs
      exact .take hpc
    · cases hs
  | pusher =>
    simp only [step] at hs
    split at hs
    · rename_i hpusher
      split at hs
      · cases hs
      · rename_i hdone
        cases hs
        exact .pushed hpusher hdone
    · rename_i hpusher
      cases hs
      exact .push (Bool.eq_false_of_not_eq_true hpusher)

end Moves

/-- What is still needed at a place, of the two operations of a datagram. -/
def Sorted : ProcessorLockPc → Prop
  | .take => True
  | .lock ops => ops.Sublist [.ack, .complete]
  | .work ops => ops.Sublist [.ack, .complete]
  | .acking ops => ops.Sublist [.complete]
  | .posting ops => ops = []

structure Locked (s : GlobalLock ι) : Prop where
  gil : ∀ i, (s.pc i).keeps = true → s.gil = some i
  stat : s.processor.inside ≠ none → s.stat = some .processor
  reading : ∀ i, s.pc i = .statUnlock → s.stat = some (.python i)
  acking : s.ackList = some .processor ↔ ∃ ops, s.processor = .acking ops
  sorted : Sorted s.processor
  slot : s.empty = 0 → 0 < s.full ∨ (∃ ops, s.processor = .posting ops) ∨ ∃ i, s.pc i = .biterPost

theorem sublist_opsOf (ack complete : Bool) : (opsOf ack complete).Sublist [.ack, .complete] := by
  cases ack <;> cases complete <;> decide

theorem locked_init : (init : GlobalLock ι).Locked where
  gil := nofun
  stat h := absurd rfl h
  reading := nofun
  acking := ⟨nofun, nofun⟩
  sorted := trivial
  slot := nofun

/-- The processor moves. The slot that it takes it has in `.posting`, and gives back filled. -/
theorem Locked.move (h : s.Locked) {pc : ProcessorLockPc} {stat : Option (StatHolder ι)}
    {ackList : Option AckHolder} {full empty : ℕ}
    (hstat : stat = some .processor ∧ (s.stat = none ∨ s.stat = some .processor) ∨
      pc.inside = none ∧ (stat = s.stat ∨ s.stat = some .processor))
    (hack : ackList = some .processor ↔ ∃ ops, pc = .acking ops) (hsorted : Sorted pc)
    (hslot : empty = 0 → 0 < full ∨ (∃ ops, pc = .posting ops) ∨
      s.empty = 0 ∧ full = s.full ∧ ∀ ops, s.processor ≠ .posting ops) :
    Locked { s with
      processor := pc, stat := stat, ackList := ackList, full := full, empty := empty } := by
  refine ⟨h.gil, fun hinside => ?_, fun i hi => ?_, hack, hsorted, fun hempty => ?_⟩
  · rcases hstat with ⟨hstat, -⟩ | ⟨hnone, -⟩
    · exact hstat
    · exact absurd hnone hinside
  · have hreading := h.reading i hi
    rcases hstat with ⟨-, hold | hold⟩ | ⟨-, hold | hold⟩
    · cases hold.symm.trans hreading
    · cases hold.symm.trans hreading
    · exact hold.trans hreading
    · cases hold.symm.trans hreading
  · rcases hslot hempty with hpos | hposting | ⟨hold, hfull, hnot⟩
    · exact .inl hpos
    · exact .inr (.inl hposting)
    · rcases h.slot hold with hpos | ⟨ops, hops⟩ | hpost
      · exact .inl (hfull ▸ hpos)
      · exact absurd hops (hnot ops)
      · exact .inr (.inr hpost)

theorem nil_of_complete {ops : List ProcessorOp}
    (h : (ProcessorOp.complete :: ops).Sublist [.ack, .complete]) : ops = [] := by
  cases h with
  | cons _ h => exact List.sublist_nil.mp h.of_cons_cons

variable [DecidableEq ι] {i : ι}

theorem Locked.processor (h : s.Locked) (hs : Moves s .processor t) : t.Locked := by
  have hsorted := h.sorted
  have hack := h.acking
  have hstat := h.stat
  cases hs with
  | lock hpc hfree =>
    rw [hpc] at hsorted hack
    exact h.move (.inl ⟨rfl, .inl hfree⟩) (hack.trans ⟨nofun, nofun⟩) hsorted
      (fun hempty => .inr (.inr ⟨hempty, rfl, by rw [hpc]; nofun⟩))
  | done hpc =>
    rw [hpc] at hack hstat
    exact h.move (.inr ⟨rfl, .inr (hstat nofun)⟩) (hack.trans ⟨nofun, nofun⟩) trivial
      (fun hempty => .inr (.inr ⟨hempty, rfl, by rw [hpc]; nofun⟩))
  | ack hpc =>
    rw [hpc] at hsorted hstat
    exact h.move (.inl ⟨hstat nofun, .inr (hstat nofun)⟩) ⟨fun _ => ⟨_, rfl⟩, fun _ => rfl⟩
      hsorted.of_cons_cons (fun hempty => .inr (.inr ⟨hempty, rfl, by rw [hpc]; nofun⟩))
  | acked hpc =>
    rw [hpc] at hsorted hstat
    exact h.move (.inl ⟨hstat nofun, .inr (hstat nofun)⟩) ⟨nofun, nofun⟩ (hsorted.cons _)
      (fun hempty => .inr (.inr ⟨hempty, rfl, by rw [hpc]; nofun⟩))
  | slot hpc =>
    rw [hpc] at hsorted hack hstat
    exact h.move (.inl ⟨hstat nofun, .inr (hstat nofun)⟩) (hack.trans ⟨nofun, nofun⟩)
      (nil_of_complete hsorted) (fun _ => .inr (.inl ⟨_, rfl⟩))
  | post hpc =>
    rw [hpc] at hsorted hack hstat
    obtain rfl := hsorted
    exact h.move (.inl ⟨hstat nofun, .inr (hstat nofun)⟩) (hack.trans ⟨nofun, nofun⟩)
      (List.nil_sublist _) (fun _ => .inl (Nat.succ_pos _))

theorem setPc_self (s : GlobalLock ι) (i : ι) (pc : PyPc) : (s.setPc i pc).pc i = pc :=
  Function.update_self _ _ _

theorem setPc_other {j : ι} (hj : j ≠ i) (s : GlobalLock ι) (pc : PyPc) :
    (s.setPc i pc).pc j = s.pc j := Function.update_of_ne hj _ _

theorem setPc_or (s : GlobalLock ι) (i : ι) (pc : PyPc) (j : ι) :
    (j = i ∧ (s.setPc i pc).pc j = pc) ∨ (j ≠ i ∧ (s.setPc i pc).pc j = s.pc j) := by
  by_cases hj : j = i
  · subst j
    exact .inl ⟨rfl, setPc_self s i pc⟩
  · exact .inr ⟨hj, setPc_other hj s pc⟩

/-- A Python thread moves, and the global lock with it, but not `stat_lock_r`; the ring stays, or
gets a filled or a free slot for the one that the thread has. -/
theorem Locked.python (h : s.Locked) {pc : PyPc} {gil : Option ι} {ackList : Option AckHolder}
    {full empty hasdata processed : ℕ} (hself : pc.keeps = true → gil = some i)
    (hothers : ∀ j, j ≠ i → s.gil = some j → gil = some j) (hpc : pc ≠ .statUnlock)
    (hack : ackList = some .processor ↔ s.ackList = some .processor)
    (hslot : empty = 0 → 0 < full ∨ pc = .biterPost ∨ s.empty = 0 ∧ full = s.full ∧
      s.pc i ≠ .biterPost) :
    Locked { s.setPc i pc with
      gil := gil, ackList := ackList, full := full, empty := empty
      hasdata := hasdata, processed := processed } := by
  refine ⟨?_, h.stat, ?_, hack.trans h.acking, h.sorted, ?_⟩
  · intro j (hj : ((s.setPc i pc).pc j).keeps = true)
    rcases s.setPc_or i pc j with ⟨rfl, hat⟩ | ⟨hne, hat⟩ <;> rw [hat] at hj
    · exact hself hj
    · exact hothers j hne (h.gil j hj)
  · intro j (hj : (s.setPc i pc).pc j = .statUnlock)
    rcases s.setPc_or i pc j with ⟨rfl, hat⟩ | ⟨-, hat⟩ <;> rw [hat] at hj
    · exact absurd hj hpc
    · exact h.reading j hj
  · intro hempty
    rcases hslot hempty with hfull | hpost | ⟨hold, hfull, hnot⟩
    · exact .inl hfull
    · exact .inr (.inr ⟨i, (setPc_self s i pc).trans hpost⟩)
    · rcases h.slot hold with hpos | hposting | ⟨j, hj⟩
      · exact .inl (hfull ▸ hpos)
      · exact .inr (.inl hposting)
      · have hne : j ≠ i := by
          rintro rfl
          exact hnot hj
        exact .inr (.inr ⟨j, (setPc_other hne s pc).trans hj⟩)

theorem Locked.stats (h : s.Locked) (hgil : s.gil = some i) (hinside : s.processor.inside = none)
    (hpost : s.pc i ≠ .biterPost) {pc : PyPc} {stat : Option (StatHolder ι)}
    (hpc : pc = .statUnlock → stat = some (.python i)) :
    Locked { s.setPc i pc with stat := stat } := by
  have honly : ∀ j, j ≠ i → s.gil ≠ some j := by
    intro j hj hgil'
    exact hj (Option.some.inj (hgil'.symm.trans hgil))
  refine ⟨?_, fun hnot => absurd hinside hnot, ?_, h.acking, h.sorted, fun hempty => ?_⟩
  · intro j (hj : ((s.setPc i pc).pc j).keeps = true)
    rcases s.setPc_or i pc j with ⟨rfl, -⟩ | ⟨-, hat⟩
    · exact hgil
    · rw [hat] at hj
      exact h.gil j hj
  · intro j (hj : (s.setPc i pc).pc j = .statUnlock)
    rcases s.setPc_or i pc j with ⟨rfl, hat⟩ | ⟨hne, hat⟩ <;> rw [hat] at hj
    · exact hpc hj
    · exact absurd (h.gil j (by rw [hj]; rfl)) (honly j hne)
  · rcases h.slot hempty with hpos | hposting | ⟨j, hj⟩
    · exact .inl hpos
    · exact .inr (.inl hposting)
    · have hne : j ≠ i := by
        rintro rfl
        exact hpost hj
      exact .inr (.inr ⟨j, (setPc_other hne s pc).trans hj⟩)

theorem Locked.pythonElsewhere (h : s.Locked) {pc : PyPc} {gil : Option ι}
    {ackList : Option AckHolder} {hasdata processed : ℕ} (hself : pc.keeps = true → gil = some i)
    (hothers : ∀ j, j ≠ i → s.gil = some j → gil = some j) (hpc : pc ≠ .statUnlock)
    (hack : ackList = some .processor ↔ s.ackList = some .processor) (hpost : s.pc i ≠ .biterPost) :
    Locked { s.setPc i pc with
      gil := gil, ackList := ackList, hasdata := hasdata, processed := processed } :=
  h.python hself hothers hpc hack (fun hempty => .inr (.inr ⟨hempty, rfl, hpost⟩))

omit [DecidableEq ι] in
theorem gil_others (hgil : s.gil = some i) {gil : Option ι} :
    ∀ j, j ≠ i → s.gil = some j → gil = some j :=
  fun _ hne hj => absurd (Option.some.inj (hj.symm.trans hgil)) hne

theorem Locked.acquire (h : s.Locked) (hs : Moves s (.acquire i) t) : t.Locked := by
  have hfree : s.gil = none → ∀ j, j ≠ i → s.gil = some j → some i = some j := by
    intro hgil j _ hj
    cases hgil.symm.trans hj
  cases hs with
  | acquire hgil hpc =>
    refine ⟨fun j hj => ?_, h.stat, h.reading, h.acking, h.sorted, h.slot⟩
    exact absurd (h.gil j hj) (by rw [hgil]; nofun)
  | acquireBiter hgil hpc =>
    exact h.pythonElsewhere (fun _ => rfl) (hfree hgil) nofun Iff.rfl (by rw [hpc]; nofun)
  | acquireBws hgil hpc =>
    exact h.pythonElsewhere (fun _ => rfl) (hfree hgil) nofun Iff.rfl (by rw [hpc]; nofun)

theorem Locked.run (h : s.Locked) (hs : Moves s (.run i) t) : t.Locked := by
  have hsame : ∀ j, j ≠ i → s.gil = some j → s.gil = some j := fun _ _ hj => hj
  cases hs with
  | biterWait hpc hfull => exact h.python nofun hsame nofun Iff.rfl (fun _ => .inr (.inl rfl))
  | biterPost hpc => exact h.python nofun hsame nofun Iff.rfl nofun
  | bwsWait hpc hdata => exact h.pythonElsewhere nofun hsame nofun Iff.rfl (by rw [hpc]; nofun)
  | bwsLock hpc hfree =>
    exact h.pythonElsewhere nofun hsame nofun (by rw [hfree]; exact ⟨nofun, nofun⟩)
      (by rw [hpc]; nofun)
  | setPost hpc => exact h.pythonElsewhere nofun hsame nofun Iff.rfl (by rw [hpc]; nofun)
  | statLock hpc hfree =>
    refine h.stats (h.gil i (by rw [hpc]; rfl)) ?_ (by rw [hpc]; nofun) (fun _ => rfl)
    by_contra hinside
    rw [h.stat hinside] at hfree
    cases hfree
  | statUnlock hpc =>
    refine h.stats (h.gil i (by rw [hpc]; rfl)) ?_ (by rw [hpc]; nofun) nofun
    by_contra hinside
    cases (h.stat hinside).symm.trans (h.reading i hpc)

theorem Locked.step (h : s.Locked) {a : GlobalLockStep ι} (hs : s.step a = some t) : t.Locked := by
  have hmoves := step_moves hs
  cases a with
  | acquire i => exact h.acquire hmoves
  | run i => exact h.run hmoves
  | processor => exact h.processor hmoves
  | release i =>
    cases hmoves with
    | release hrun =>
      refine ⟨fun j hj => ?_, h.stat, h.reading, h.acking, h.sorted, h.slot⟩
      obtain rfl : i = j := Option.some.inj (hrun.1.symm.trans (h.gil j hj))
      have hkeeps : (s.pc i).keeps = true := hj
      rw [hrun.2] at hkeeps
      cases hkeeps
  | biter i =>
    cases hmoves with
    | biter hrun =>
      exact h.pythonElsewhere nofun (gil_others hrun.1) nofun Iff.rfl (by rw [hrun.2]; nofun)
  | bws i =>
    cases hmoves with
    | bws hrun =>
      exact h.pythonElsewhere nofun (gil_others hrun.1) nofun Iff.rfl (by rw [hrun.2]; nofun)
  | bwsSet i =>
    cases hmoves with
    | bwsSet hrun hstore =>
      exact h.pythonElsewhere (fun _ => hrun.1) (gil_others hrun.1) nofun
        (by rw [hstore]; exact ⟨nofun, nofun⟩) (by rw [hrun.2]; nofun)
  | stats i =>
    cases hmoves with
    | stats hrun =>
      exact h.pythonElsewhere (fun _ => hrun.1) (gil_others hrun.1) nofun Iff.rfl
        (by rw [hrun.2]; nofun)
  | take ack complete =>
    cases hmoves with
    | take hpc =>
      have hack := h.acking
      rw [hpc] at hack
      exact h.move (.inr ⟨rfl, .inl rfl⟩) (hack.trans ⟨nofun, nofun⟩) (sublist_opsOf ack complete)
        (fun hempty => .inr (.inr ⟨hempty, rfl, by rw [hpc]; nofun⟩))
  | pusher =>
    cases hmoves with
    | push => exact ⟨h.gil, h.stat, h.reading, h.acking, h.sorted, h.slot⟩
    | pushed => exact ⟨h.gil, h.stat, h.reading, h.acking, h.sorted, h.slot⟩

theorem locked_reaches {ok : GlobalLock ι → GlobalLockStep ι → Prop}
    (h : Reaches (globalLock ι) ok s) : s.Locked := by
  apply h.invariant
  · rintro _ rfl
    exact locked_init
  · intro s a t hl _ hs
    exact hl.step hs

/-- The processor can do what it still needs without the global lock: `ack_list` is not kept for
`bws_set()`, and the ring has a free slot or a call of `biter.next()` is about to make one. -/
def CanFinish (s : GlobalLock ι) (ops : List ProcessorOp) : Prop :=
  (.ack ∈ ops → s.ackList ≠ some .store) ∧
    (.complete ∈ ops → 0 < s.empty ∨ ∃ i, (s.pc i).inBiter = true)

/-- No `get_in_stats()` waits for a datagram that cannot be finished without the global lock: none
begins while one is under way, and none is begun while a call waits. -/
def Finishes (s : GlobalLock ι) : GlobalLockStep ι → Prop
  | .stats _ => ∀ ops ∈ s.processor.inside, s.CanFinish ops
  | .processor => ∀ ops ∈ s.processor.begins, (∃ i, s.pc i = .statLock) → s.CanFinish ops
  | _ => True

/-- A thread waits in `get_in_stats()`, with the global lock, for a datagram that cannot be
finished without that lock. -/
def Doomed (s : GlobalLock ι) : Prop :=
  (∃ i, s.pc i = .statLock) ∧ ∃ ops ∈ s.processor.inside, ¬ s.CanFinish ops

omit [DecidableEq ι] in
theorem not_canFinish {ops : List ProcessorOp} : ¬ s.CanFinish ops ↔
    (.ack ∈ ops ∧ s.ackList = some .store) ∨
      (.complete ∈ ops ∧ s.empty = 0 ∧ ∀ i, (s.pc i).inBiter = false) := by
  simp only [CanFinish, not_and_or, Classical.not_imp, not_not, not_or, not_exists, Nat.not_lt,
    Nat.le_zero, Bool.not_eq_true]

omit [DecidableEq ι] in
theorem Locked.statLock_gil (h : s.Locked) {j : ι} (hj : s.pc j = .statLock) : s.gil = some j :=
  h.gil j (by rw [hj]; rfl)

theorem setPc_eq {pc : PyPc} (h : s.pc i = pc) : s.setPc i pc = s := by
  rw [setPc, ← h, Function.update_eq_self]

theorem statLock_other (pc : PyPc) (hpc : pc ≠ .statLock) {j : ι}
    (hj : (s.setPc i pc).pc j = .statLock) : j ≠ i ∧ s.pc j = .statLock := by
  rcases s.setPc_or i pc j with ⟨-, hat⟩ | ⟨hne, hat⟩ <;> rw [hat] at hj
  · exact absurd hj hpc
  · exact ⟨hne, hj⟩

theorem Locked.not_doomed (h : s.Locked) (hgil : ∀ j, j ≠ i → s.gil ≠ some j) (pc : PyPc)
    (hpc : pc ≠ .statLock) (ht : t.pc = (s.setPc i pc).pc) : ¬ t.Doomed := by
  rintro ⟨⟨j, hj⟩, -⟩
  rw [ht] at hj
  obtain ⟨hne, hj⟩ := statLock_other pc hpc hj
  exact hgil j hne (h.statLock_gil hj)

omit [DecidableEq ι] in
theorem Doomed.back (hd : t.Doomed) (hproc : t.processor = s.processor)
    (hlock : ∀ j, t.pc j = .statLock → s.pc j = .statLock)
    (hcan : ∀ ops, s.CanFinish ops → t.CanFinish ops) : s.Doomed := by
  obtain ⟨⟨j, hj⟩, ops, hops, hnot⟩ := hd
  exact ⟨⟨j, hlock j hj⟩, ops, hproc ▸ hops, fun h => hnot (hcan ops h)⟩

theorem canFinish_elsewhere {ops : List ProcessorOp} {pc : PyPc}
    (hold : (s.pc i).inBiter = false) (hnew : pc.inBiter = false) (hack : t.ackList = s.ackList)
    (hempty : t.empty = s.empty) (ht : t.pc = (s.setPc i pc).pc) :
    t.CanFinish ops ↔ s.CanFinish ops := by
  have hin : ∀ j, (t.pc j).inBiter = (s.pc j).inBiter := by
    intro j
    rw [ht]
    rcases s.setPc_or i pc j with ⟨rfl, hat⟩ | ⟨-, hat⟩ <;> rw [hat]
    rw [hold, hnew]
  simp only [CanFinish, hack, hempty, hin]

omit [DecidableEq ι] in
theorem store_of_inBiter {ops : List ProcessorOp} (hin : (s.pc i).inBiter = true)
    (hnot : ¬ s.CanFinish ops) : .ack ∈ ops ∧ s.ackList = some .store := by
  rcases not_canFinish.mp hnot with hack | ⟨-, -, hnone⟩
  · exact hack
  · cases hin.symm.trans (hnone i)

theorem doomed_run (h : s.Locked) (hs : Moves s (.run i) t) (hd : t.Doomed) : s.Doomed := by
  have hkept : (s.pc i).keeps = true → ∀ j, j ≠ i → s.gil ≠ some j := by
    intro hkeeps j hj hgil
    exact hj (Option.some.inj (hgil.symm.trans (h.gil i hkeeps)))
  cases hs with
  | biterWait hpc hfull =>
    refine hd.back rfl (fun j hj => (statLock_other .biterPost nofun hj).2)
      (fun ops hcan => ⟨hcan.1, fun _ => .inr ⟨i, ?_⟩⟩)
    show ((s.setPc i .biterPost).pc i).inBiter = true
    rw [setPc_self]
    rfl
  | biterPost hpc =>
    exact hd.back rfl (fun j hj => (statLock_other .biterDone nofun hj).2)
      (fun ops hcan => ⟨hcan.1, fun _ => .inl (Nat.succ_pos _)⟩)
  | bwsWait hpc hdata =>
    exact hd.back rfl (fun j hj => (statLock_other .bwsGot nofun hj).2)
      (fun ops => Iff.mpr (canFinish_elsewhere (by rw [hpc]; rfl) rfl rfl rfl rfl))
  | bwsLock hpc hfree =>
    exact absurd hd (h.not_doomed (hkept (by rw [hpc]; rfl)) .python nofun rfl)
  | setPost hpc =>
    exact absurd hd (h.not_doomed (hkept (by rw [hpc]; rfl)) .python nofun rfl)
  | statLock hpc hfree =>
    exact absurd hd (h.not_doomed (hkept (by rw [hpc]; rfl)) .statUnlock nofun rfl)
  | statUnlock hpc =>
    exact absurd hd (h.not_doomed (hkept (by rw [hpc]; rfl)) .python nofun rfl)

theorem doomed_processor (h : s.Locked) (ha : Finishes s .processor) (hs : Moves s .processor t)
    (hd : t.Doomed) : s.Doomed := by
  obtain ⟨hlock, ops', hops', hnot⟩ := hd
  have hsorted := h.sorted
  cases hs with
  | lock hpc hfree =>
    cases hops'
    exact absurd (ha _ (by rw [hpc]; rfl) hlock) hnot
  | done hpc => cases hops'
  | ack hpc hfree =>
    cases hops'
    refine ⟨hlock, _, by rw [hpc]; rfl, fun hcan => hnot ⟨nofun, fun hmem => ?_⟩⟩
    exact hcan.2 (List.mem_cons_of_mem _ hmem)
  | acked hpc =>
    cases hops'
    exact ⟨hlock, _, by rw [hpc]; rfl, fun hcan => hnot ⟨nofun, hcan.2⟩⟩
  | slot hpc hempty =>
    cases hops'
    rw [hpc] at hsorted
    obtain rfl := nil_of_complete hsorted
    exact absurd ⟨nofun, nofun⟩ hnot
  | post hpc =>
    cases hops'
    exact ⟨hlock, _, by rw [hpc]; rfl, fun hcan => hnot hcan⟩

/-- A state is doomed by a step that does not meet the condition. -/
theorem not_doomed_step (h : s.Locked) (hd : ¬ s.Doomed) {a : GlobalLockStep ι}
    (ha : Finishes s a) (hs : s.step a = some t) : ¬ t.Doomed := by
  have hmoves := step_moves hs
  have hrunning : ∀ i, s.Running i → ∀ j, j ≠ i → s.gil ≠ some j := by
    intro i hrun j hj hgil
    exact hj (Option.some.inj (hgil.symm.trans hrun.1))
  have hnone : s.gil = none → ∀ i j, j ≠ i → s.gil ≠ some j := by
    intro hgil i j _
    rw [hgil]
    nofun
  cases a with
  | run i => exact fun hdt => hd (doomed_run h hmoves hdt)
  | processor => exact fun hdt => hd (doomed_processor h ha hmoves hdt)
  | acquire i =>
    cases hmoves with
    | acquire hgil hpc => exact h.not_doomed (hnone hgil i) .python nofun (by rw [setPc_eq hpc])
    | acquireBiter hgil hpc => exact h.not_doomed (hnone hgil i) .python nofun rfl
    | acquireBws hgil hpc => exact h.not_doomed (hnone hgil i) .bwsLock nofun rfl
  | release i =>
    cases hmoves with
    | release hrun =>
      exact h.not_doomed (hrunning i hrun) .python nofun (by rw [setPc_eq hrun.2])
  | biter i =>
    cases hmoves with
    | biter hrun => exact h.not_doomed (hrunning i hrun) .biterWait nofun rfl
  | bws i =>
    cases hmoves with
    | bws hrun => exact h.not_doomed (hrunning i hrun) .bwsWait nofun rfl
  | bwsSet i =>
    cases hmoves with
    | bwsSet hrun hstore => exact h.not_doomed (hrunning i hrun) .setPost nofun rfl
  | stats i =>
    cases hmoves with
    | stats hrun =>
      rintro ⟨-, ops, hops, hnot⟩
      refine mt ?_ hnot (ha ops hops)
      exact Iff.mpr (canFinish_elsewhere (by rw [hrun.2]; rfl) rfl rfl rfl rfl)
  | take ack complete =>
    cases hmoves with
    | take hpc =>
      rintro ⟨-, ops, hops, -⟩
      cases hops
  | pusher =>
    cases hmoves with
    | push => exact fun hdt => hd (hdt.back rfl (fun _ hj => hj) (fun _ hcan => hcan))
    | pushed => exact fun hdt => hd (hdt.back rfl (fun _ hj => hj) (fun _ hcan => hcan))

/-- The steps that threads make without the global lock do not help: none of them is at the ring
if it is full. -/
theorem Doomed.run (hd : s.Doomed) (h : s.Locked) (hs : Moves s (.run i) t) : t.Doomed := by
  obtain ⟨⟨j, hj⟩, ops, hops, hnot⟩ := hd
  have hgil := h.statLock_gil hj
  have hkeeps : (s.pc i).keeps = true → i = j :=
    fun hk => Option.some.inj ((h.gil i hk).symm.trans hgil)
  have hstay : ∀ pc, s.pc i ≠ .statLock → (s.setPc i pc).pc j = .statLock := by
    intro pc hne
    have hji : j ≠ i := by
      rintro rfl
      exact hne hj
    rw [setPc_other hji]
    exact hj
  cases hs with
  | biterWait hpc hfull =>
    have hstore := store_of_inBiter (by rw [hpc]; rfl) hnot
    exact ⟨⟨j, hstay _ (by rw [hpc]; nofun)⟩, ops, hops, not_canFinish.mpr (.inl hstore)⟩
  | biterPost hpc =>
    have hstore := store_of_inBiter (by rw [hpc]; rfl) hnot
    exact ⟨⟨j, hstay _ (by rw [hpc]; nofun)⟩, ops, hops, not_canFinish.mpr (.inl hstore)⟩
  | bwsWait hpc hdata =>
    refine ⟨⟨j, hstay _ (by rw [hpc]; nofun)⟩, ops, hops, mt ?_ hnot⟩
    exact Iff.mp (canFinish_elsewhere (by rw [hpc]; rfl) rfl rfl rfl rfl)
  | bwsLock hpc hfree =>
    obtain rfl := hkeeps (by rw [hpc]; rfl)
    cases hpc.symm.trans hj
  | setPost hpc =>
    obtain rfl := hkeeps (by rw [hpc]; rfl)
    cases hpc.symm.trans hj
  | statLock hpc hfree =>
    have hinside : s.processor.inside ≠ none := by
      intro hnone
      rw [hnone] at hops
      cases hops
    cases hfree.symm.trans (h.stat hinside)
  | statUnlock hpc =>
    obtain rfl := hkeeps (by rw [hpc]; rfl)
    cases hpc.symm.trans hj

theorem Doomed.processor (hd : s.Doomed) (h : s.Locked) (hs : Moves s .processor t) :
    t.Doomed := by
  obtain ⟨hlock, ops, hops, hnot⟩ := hd
  have hsorted := h.sorted
  cases hs with
  | lock hpc hfree =>
    rw [hpc] at hops
    cases hops
  | done hpc =>
    rw [hpc] at hops
    cases hops
    exact absurd ⟨nofun, nofun⟩ hnot
  | ack hpc hfree =>
    rw [hpc] at hops
    cases hops
    refine ⟨hlock, _, rfl, not_canFinish.mpr ?_⟩
    rcases not_canFinish.mp hnot with ⟨-, hstore⟩ | ⟨hmem, hrest⟩
    · cases hfree.symm.trans hstore
    · exact .inr ⟨(List.mem_cons.mp hmem).resolve_left nofun, hrest⟩
  | acked hpc =>
    rw [hpc] at hops
    cases hops
    refine ⟨hlock, _, rfl, not_canFinish.mpr ?_⟩
    rcases not_canFinish.mp hnot with ⟨-, hstore⟩ | hcomplete
    · cases (h.acking.mpr ⟨_, hpc⟩).symm.trans hstore
    · exact .inr hcomplete
  | slot hpc hpos =>
    rw [hpc] at hops hsorted
    cases hops
    obtain rfl := nil_of_complete hsorted
    rcases not_canFinish.mp hnot with ⟨hmem, -⟩ | ⟨-, hempty, -⟩
    · cases (List.mem_singleton.mp hmem)
    · exact absurd hempty hpos
  | post hpc =>
    rw [hpc] at hops hsorted
    cases hops
    obtain rfl := hsorted
    exact absurd ⟨nofun, nofun⟩ hnot

theorem Doomed.step (hd : s.Doomed) (h : s.Locked) {a : GlobalLockStep ι}
    (hs : s.step a = some t) : t.Doomed := by
  have hmoves := step_moves hs
  obtain ⟨⟨j, hj⟩, ops, hops, hnot⟩ := hd
  have hgil := h.statLock_gil hj
  -- Thread `j` has the global lock and does not run.
  have hnotRunning : ∀ i, ¬ s.Running i := by
    intro i hrun
    obtain rfl := Option.some.inj (hrun.1.symm.trans hgil)
    cases hrun.2.symm.trans hj
  cases a with
  | acquire i => simp [GlobalLock.step, GlobalLock.acquire, hgil] at hs
  | release i => simp [GlobalLock.step, hnotRunning] at hs
  | biter i => simp [GlobalLock.step, hnotRunning] at hs
  | bws i => simp [GlobalLock.step, hnotRunning] at hs
  | bwsSet i => simp [GlobalLock.step, hnotRunning] at hs
  | stats i => simp [GlobalLock.step, hnotRunning] at hs
  | take ack complete =>
    cases hmoves with
    | take hpc =>
      rw [hpc] at hops
      cases hops
  | pusher =>
    cases hmoves with
    | push => exact ⟨⟨j, hj⟩, ops, hops, hnot⟩
    | pushed => exact ⟨⟨j, hj⟩, ops, hops, hnot⟩
  | run i => exact Doomed.run ⟨⟨j, hj⟩, ops, hops, hnot⟩ h hmoves
  | processor => exact Doomed.processor ⟨⟨j, hj⟩, ops, hops, hnot⟩ h hmoves

/-- The processor waits for a slot or for `ack_list` and holds `stat_lock_r`, a Python thread waits
for that lock and holds the global lock, and no Python thread nor the processor can go on. -/
structure Deadlocked (s : GlobalLock ι) : Prop where
  holds : s.stat = some .processor
  waits : (∃ ops, s.processor = .work (.complete :: ops)) ∧ s.empty = 0 ∨
    (∃ ops, s.processor = .work (.ack :: ops)) ∧ s.ackList ≠ none
  python : ∃ i, s.gil = some i ∧ s.pc i = .statLock
  stuck : ∀ a, a ≠ .pusher → s.step a = none

theorem Deadlocked.doomed (hd : s.Deadlocked) (h : s.Locked) : s.Doomed := by
  obtain ⟨i, -, hi⟩ := hd.python
  refine ⟨⟨i, hi⟩, ?_⟩
  rcases hd.waits with ⟨⟨ops, hpc⟩, hempty⟩ | ⟨⟨ops, hpc⟩, hack⟩
  · refine ⟨_, by rw [hpc]; rfl, not_canFinish.mpr (.inr ⟨List.mem_cons_self, hempty, fun j => ?_⟩)⟩
    have hnone := hd.stuck (.run j) nofun
    have hpost : ∀ k, s.pc k ≠ .biterPost := by
      intro k hk
      have hrun := hd.stuck (.run k) nofun
      simp [GlobalLock.step, GlobalLock.run, hk] at hrun
    cases hj : s.pc j with
    | biterPost => exact absurd hj (hpost j)
    | biterWait =>
      -- The ring is full, so this thread could take from it.
      have hzero : s.full = 0 := by
        by_contra hpos
        simp [GlobalLock.step, GlobalLock.run, hj, hpos] at hnone
      rcases h.slot hempty with hpos | ⟨ops', hpost'⟩ | ⟨k, hk⟩
      · omega
      · cases hpc.symm.trans hpost'
      · exact absurd hk (hpost k)
    | python => rfl
    | biterDone => rfl
    | bwsWait => rfl
    | bwsGot => rfl
    | bwsLock => rfl
    | setPost => rfl
    | statLock => rfl
    | statUnlock => rfl
  · refine ⟨_, by rw [hpc]; rfl, not_canFinish.mpr (.inl ⟨List.mem_cons_self, ?_⟩)⟩
    cases hholder : s.ackList with
    | none => exact absurd hholder hack
    | some holder =>
      cases holder with
      | store => rfl
      | processor =>
        obtain ⟨ops', hacking⟩ := h.acking.mp hholder
        cases hpc.symm.trans hacking

theorem not_doomed_reaches (h : Reaches (globalLock ι) Finishes s) : ¬ s.Doomed := by
  induction h with
  | init h =>
    obtain rfl := h
    rintro ⟨⟨i, hi⟩, -⟩
    cases hi
  | step hs ha h ih => exact not_doomed_step (locked_reaches hs) ih ha h

/-- In every run in which `get_in_stats()` never waits for a datagram that needs a lock which only
Python can give up, the processor and the Python threads do not deadlock. -/
theorem not_deadlocked (h : Reaches (globalLock ι) Finishes s) : ¬ s.Deadlocked :=
  fun hd => not_doomed_reaches h (hd.doomed (locked_reaches h))

/-- A step that does not meet the condition dooms the threads. -/
theorem doomed_of_unfinished {a : GlobalLockStep ι} (ha : ¬ Finishes s a)
    (hs : s.step a = some t) : t.Doomed := by
  have hmoves := step_moves hs
  cases a with
  | stats i =>
    obtain ⟨ops, hrest⟩ := not_forall.mp ha
    obtain ⟨hops, hnot⟩ := Classical.not_imp.mp hrest
    cases hmoves with
    | stats hrun =>
      refine ⟨⟨i, setPc_self s i .statLock⟩, ops, hops, mt ?_ hnot⟩
      exact Iff.mp (canFinish_elsewhere (by rw [hrun.2]; rfl) rfl rfl rfl rfl)
  | processor =>
    obtain ⟨ops, hrest⟩ := not_forall.mp ha
    obtain ⟨hops, hrest⟩ := Classical.not_imp.mp hrest
    obtain ⟨hlock, hnot⟩ := Classical.not_imp.mp hrest
    cases hmoves with
    | lock hpc hfree =>
      rw [hpc] at hops
      cases hops
      exact ⟨hlock, ops, rfl, hnot⟩
    | done hpc => rw [hpc] at hops; cases hops
    | ack hpc hfree => rw [hpc] at hops; cases hops
    | acked hpc => rw [hpc] at hops; cases hops
    | slot hpc hempty => rw [hpc] at hops; cases hops
    | post hpc => rw [hpc] at hops; cases hops
  | acquire i => exact absurd trivial ha
  | release i => exact absurd trivial ha
  | biter i => exact absurd trivial ha
  | bws i => exact absurd trivial ha
  | bwsSet i => exact absurd trivial ha
  | run i => exact absurd trivial ha
  | take ack complete => exact absurd trivial ha
  | pusher => exact absurd trivial ha

/-- No continuation of the run gets out of it: a `get_in_stats()` waits, the datagram stays
unfinished. -/
theorem doomed_forever (h : s.Locked) (hd : s.Doomed)
    (ht : Reachable { globalLock ι with init := (· = s) } t) : t.Doomed := by
  have hboth : t.Locked ∧ t.Doomed := by
    apply ht.invariant
    · rintro _ rfl
      exact ⟨h, hd⟩
    · rintro u a v ⟨hl, hd⟩ - hs
      exact ⟨hl.step hs, hd.step hl hs⟩
  exact hboth.2

instance [Fintype ι] (s : GlobalLock ι) (ops : List ProcessorOp) : Decidable (s.CanFinish ops) :=
  inferInstanceAs (Decidable (_ ∧ _))

instance [Fintype ι] (s : GlobalLock ι) (a : GlobalLockStep ι) : Decidable (Finishes s a) := by
  unfold Finishes
  split <;> infer_instance

/-- The thread has the ack store that `bwsiter.next()` returned. -/
def storeTaken : List (GlobalLockStep Unit) :=
  [.acquire (), .bws (), .pusher, .run (), .acquire (), .run ()]

/-- The store is given back, and `get_in_stats()` waits for an ack and then for a fragment that
completes a block. -/
theorem not_deadlocked_run :
    ∃ s, (globalLock Unit).runIf Finishes init (storeTaken ++ [.bwsSet (), .run (),
        .take true false, .processor, .processor, .stats (), .processor, .processor, .run (),
        .run (), .take false true, .processor, .processor, .stats (), .processor, .processor,
        .run ()]) = some s ∧ s.pc () = .statUnlock ∧ ¬ s.Deadlocked := by
  have hrun : ((globalLock Unit).runIf Finishes init (storeTaken ++ [.bwsSet (), .run (),
      .take true false, .processor, .processor, .stats (), .processor, .processor, .run (),
      .run (), .take false true, .processor, .processor, .stats (), .processor, .processor,
      .run ()])).map (fun s => s.pc ()) = some .statUnlock := by
    decide +kernel
  obtain ⟨s, hs, hpc⟩ := Option.map_eq_some_iff.mp hrun
  exact ⟨s, hs, hpc, not_deadlocked ((Reaches.init rfl).runIf hs)⟩

/-- `get_in_stats()` is called between `bwsiter.next()` and `bws_set()` while the processor waits
with an ack. Nothing goes on, not even `bws_thread`. -/
theorem deadlock_reached :
    ∃ s : GlobalLock Unit, Reachable (globalLock Unit) s ∧ s.Deadlocked ∧ s.step .pusher = none := by
  have hrun : ((globalLock Unit).runIf (fun _ _ => True) init (storeTaken ++
      [.take true false, .processor, .stats ()])) = some
        ⟨.work [.ack], fun _ => .statLock, some (), some .processor, some .store, 0, nBiter, true,
          0, 0⟩ := rfl
  refine ⟨_, (Reaches.init rfl).runIf hrun, ⟨rfl, .inr ⟨⟨[], rfl⟩, nofun⟩, ⟨(), rfl, rfl⟩, ?_⟩, rfl⟩
  intro a ha
  cases a with
  | pusher => exact absurd rfl ha
  | acquire i => rfl
  | release i => rfl
  | biter i => rfl
  | bws i => rfl
  | bwsSet i => rfl
  | stats i => rfl
  | run i => rfl
  | take ack complete => rfl
  | processor => rfl

end GlobalLock

end Bora
