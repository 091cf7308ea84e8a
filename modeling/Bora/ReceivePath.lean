import Bora.Library.Simulation
import Bora.StaleBytes

/-! The way of a datagram from `recvfrom` to `biter.next()`, through both rings and the stages of
`packet_processor` between them, and the same way with a fresh buffer for every datagram. -/
namespace Bora

open ByteMemory Processing Simulation Transition

inductive Stage
  | port | needAck | ack | bw | block | count
deriving DecidableEq, Repr

namespace Stage

def run (junk : UInt16) : Stage → Processing → Processing
  | .port => portStage
  | .needAck => needAckStage
  | .ack => ackStage
  | .bw => bwStage
  | .block => blockStage junk
  | .count => countStage

end Stage

/-- `if (buffer[c].buflen>1)` -/
def IncomingData.stages (data : IncomingData) : List Stage :=
  if 1 < data.buflen then [.port, .needAck, .ack, .bw, .block, .count] else [.count]

/-- Without other threads in between, the stages are an iteration of `packet_processor`. -/
theorem packetProcessor_stages (node : Node) (data : IncomingData) (junk : UInt16) :
    packetProcessor node data junk =
      data.stages.foldl (fun p st => p.andThen (st.run junk)) ⟨node, data, [], none⟩ := by
  unfold packetProcessor IncomingData.stages
  split <;> rfl

def CompletedPc.idle : CompletedPc → Bool
  | .wait => true
  | _ => false

/-- What the other threads do to a node; none of them touches what was reported. -/
def Node.elsewhere (f : Node → Node) (node : Node) : Node :=
  { f { node with completed := [] } with completed := node.completed }

/-- `todo` are the stages that `packet_processor` has before it with the datagram in its slot. -/
structure ReceivePath where
  receive : ReceiveRing
  node : Node
  todo : List Stage
  completion : CompletionRing

/-- The steps of `packet_receiver`, those of `packet_processor` with its calls of
`block_completed`, those of `biter.next()`, and those of the other threads. -/
inductive PathAction
  | receiver (x : Option Datagram) (tv : Timeval)
  | wait
  | stage (junk : UInt16)
  | blockCompleted
  | producer
  | advance
  | post
  | iternext
  | elsewhere (f : Node → Node)

namespace ReceivePath

def init (buffer : ℕ → IncomingData) (slots : ℕ → BiterSlot) : ReceivePath :=
  ⟨ReceiveRing.init buffer, Node.init, [], CompletionRing.init slots⟩

def slot (s : ReceivePath) : IncomingData := s.receive.buffer s.receive.processorC.toNat

def returned (s : ReceivePath) : Bool :=
  s.completion.producer.idle && s.completion.produced.length == s.node.completed.length

/-- The next stage begins after the calls of the last one have returned. -/
def stageStep (s : ReceivePath) (junk : UInt16) : Option ReceivePath :=
  match s.todo with
  | [] => none
  | st::todo =>
    let p := st.run junk ⟨s.node, s.slot, [], none⟩
    if s.returned ∧ p.fault = none then
      (s.receive.step (.change (fun _ => p.data))).map
        (fun receive => { s with receive := receive, node := p.node, todo := todo })
    else none

def step (s : ReceivePath) : PathAction → Option ReceivePath
  | .receiver x tv =>
    (s.receive.step (.receiver x tv)).map (fun receive => { s with receive := receive })
  | .wait =>
    (s.receive.step .wait).map (fun receive =>
      { s with receive := receive, todo := s.slot.stages })
  | .stage junk => s.stageStep junk
  | .blockCompleted =>
    s.node.completed[s.completion.produced.length]?.bind (fun c =>
      (s.completion.step (.blockCompleted c)).map
        (fun completion => { s with completion := completion }))
  | .producer =>
    (s.completion.step .producer).map (fun completion => { s with completion := completion })
  | .advance =>
    if s.todo = [] ∧ s.returned then
      (s.receive.step .advance).map (fun receive => { s with receive := receive })
    else none
  | .post => (s.receive.step .post).map (fun receive => { s with receive := receive })
  | .iternext =>
    (s.completion.step .iternext).map (fun completion => { s with completion := completion })
  | .elsewhere f => some { s with node := s.node.elsewhere f }

end ReceivePath

def receivePath : System ReceivePath PathAction where
  init s := ∃ buffer slots, s = ReceivePath.init buffer slots
  step := ReceivePath.step

def Datagram.fresh (x : Datagram) (tv : Timeval) : IncomingData :=
  { slotOf x.bytes x.fits with
    source := x.source
    tv := tv }

/-- The datagrams wait in a queue. -/
structure FreshPath where
  waiting : List (Datagram × Timeval)
  node : Node
  data : IncomingData
  todo : List Stage

inductive FreshAction
  | arrive (x : Datagram) (tv : Timeval)
  | take
  | stage (junk : UInt16)
  | elsewhere (f : Node → Node)

namespace FreshPath

def init (data : IncomingData) : FreshPath := ⟨[], Node.init, data, []⟩

def step (t : FreshPath) : FreshAction → Option FreshPath
  | .arrive x tv => some { t with waiting := t.waiting ++ [(x, tv)] }
  | .take =>
    match t.todo, t.waiting with
    | [], (x, tv)::waiting =>
      some { t with waiting := waiting, data := x.fresh tv, todo := (x.fresh tv).stages }
    | _, _ => none
  | .stage junk =>
    match t.todo with
    | [] => none
    | st::todo =>
      let p := st.run junk ⟨t.node, t.data, [], none⟩
      if p.fault = none then some { t with node := p.node, data := p.data, todo := todo } else none
  | .elsewhere f => some { t with node := t.node.elsewhere f }

end FreshPath

def freshPath : System FreshPath FreshAction where
  init t := ∃ data, t = FreshPath.init data
  step := FreshPath.step

def ReceiveRing.arriving (s : ReceiveRing) : Option (Datagram × Timeval) :=
  match s.receiver with
  | .post x tv => some (x, tv)
  | _ => none

/-- What a step is to the queue: a datagram arrives when the receiver posts for it, and the ring of
`biter` is nothing to it. -/
def ReceivePath.label (s : ReceivePath) : PathAction → Option FreshAction
  | .receiver _ _ => s.receive.arriving.map (fun x => .arrive x.1 x.2)
  | .wait => some .take
  | .stage junk => some (.stage junk)
  | .elsewhere f => some (.elsewhere f)
  | _ => none

namespace ReceiveRing

variable {s t : ReceiveRing}

theorem processing_slot (h : Reachable receiveRing s) (hp : s.processor = .process) :
    s.iterations < s.received.length ∧ s.processorC.toNat = s.iterations % bufN := by
  have hlength := received_length h
  obtain ⟨buffer, r, hr, href⟩ := refines_reachable h
  have hc := href.processorC
  rw [hp] at hlength hc
  rw [href.released] at hc
  have hread : ProcessorTurn.process.reading.toNat = 1 := rfl
  exact ⟨by omega, hc⟩

theorem fill_slot (h : Reachable receiveRing s) (hw : s.receiver.writes = true)
    (hp : s.processor = .process) (f : IncomingData → IncomingData) :
    (s.fill f).buffer s.processorC.toNat = s.buffer s.processorC.toNat := by
  obtain ⟨hlt, hc⟩ := processing_slot h hp
  have hne := receiver_slot_free h hw (Nat.le_refl _) hlt
  rw [← hc] at hne
  exact Function.update_of_ne hne _ _

theorem receiver_frame (h : Reachable receiveRing s) {x : Option Datagram} {tv : Timeval}
    (hs : s.receiverStep x tv = some t) :
    t.processor = s.processor ∧ t.processorC = s.processorC ∧ t.iterations = s.iterations ∧
      t.received = s.received ++ s.arriving.toList ∧
      (s.processor = .process → t.buffer s.processorC.toNat = s.buffer s.processorC.toNat) := by
  unfold receiverStep at hs
  unfold arriving
  cases hpc : s.receiver with
  | wait =>
    simp only [hpc] at hs
    split at hs
    · cases hs
    · cases hs
      exact ⟨rfl, rfl, rfl, (List.append_nil _).symm, fun _ => rfl⟩
  | recvfrom =>
    simp only [hpc] at hs
    split at hs
    · cases hs
      exact ⟨rfl, rfl, rfl, (List.append_nil _).symm, fun _ => rfl⟩
    · rename_i x
      cases hs
      exact ⟨rfl, rfl, rfl, (List.append_nil _).symm,
        fun hp => fill_slot h (by rw [hpc]; rfl) hp (fun data => data.setBuf x)⟩
  | source x =>
    simp only [hpc] at hs
    cases hs
    exact ⟨rfl, rfl, rfl, (List.append_nil _).symm,
      fun hp => fill_slot h (by rw [hpc]; rfl) hp (fun data => data.setSource x.source)⟩
  | stamp x =>
    simp only [hpc] at hs
    cases hs
    exact ⟨rfl, rfl, rfl, (List.append_nil _).symm,
      fun hp => fill_slot h (by rw [hpc]; rfl) hp (fun data => data.setTv tv)⟩
  | buflen x tv' =>
    simp only [hpc] at hs
    cases hs
    exact ⟨rfl, rfl, rfl, (List.append_nil _).symm,
      fun hp => fill_slot h (by rw [hpc]; rfl) hp (fun data => data.setBuflen x.bytes.length)⟩
  | advance x tv' =>
    simp only [hpc] at hs
    cases hs
    exact ⟨rfl, rfl, rfl, (List.append_nil _).symm, fun _ => rfl⟩
  | post x tv' =>
    simp only [hpc] at hs
    cases hs
    exact ⟨rfl, rfl, rfl, rfl, fun _ => rfl⟩
  | exited => simp [hpc] at hs

theorem wait_frame (hs : s.step .wait = some t) :
    s.processor = .wait ∧
      t = { s with bFull := s.bFull - 1, processor := .process, changes := id } := by
  simp only [step] at hs
  split at hs
  · cases hs
  · rename_i hno
    exact ⟨not_not.mp (not_or.mp hno).1, (Option.some.inj hs).symm⟩

theorem change_frame {f : IncomingData → IncomingData} (hs : s.step (.change f) = some t) :
    s.processor = .process ∧ t.processor = s.processor ∧ t.received = s.received ∧
      t.iterations = s.iterations ∧
      t.buffer t.processorC.toNat = f (s.buffer s.processorC.toNat) := by
  simp only [step] at hs
  split at hs
  · rename_i hp
    cases hs
    exact ⟨hp, rfl, rfl, rfl, Function.update_self _ _ _⟩
  · cases hs

theorem advance_frame (hs : s.step .advance = some t) :
    s.processor = .process ∧
      t = { s with processorC := nextSlot s.processorC, processor := .post } := by
  simp only [step] at hs
  split at hs
  · exact ⟨‹_›, (Option.some.inj hs).symm⟩
  · cases hs

theorem post_frame (hs : s.step .post = some t) :
    s.processor = .post ∧
      t = { s with bEmpty := s.bEmpty + 1, processor := .wait, iterations := s.iterations + 1 } := by
  simp only [step] at hs
  split at hs
  · exact ⟨‹_›, (Option.some.inj hs).symm⟩
  · cases hs

end ReceiveRing

def CompletedPc.call : CompletedPc → Option Completion
  | .writeS c | .writeB c | .writeD c | .post c => some c
  | _ => none

namespace CompletionRing

variable {s t : CompletionRing}

def calls (s : CompletionRing) : List Completion := s.produced ++ s.producer.call.toList

theorem producerStep_calls (hs : s.producerStep = some t) : t.calls = s.calls := by
  unfold producerStep at hs
  unfold calls
  cases hpc : s.producer with
  | wait => simp [hpc] at hs
  | writeD c =>
    simp only [hpc] at hs
    split at hs <;> cases hs <;> rfl
  | post c =>
    simp only [hpc] at hs
    cases hs
    exact List.append_nil _
  | _ =>
    simp only [hpc] at hs
    cases hs
    rfl

theorem iternextStep_calls (hs : s.iternextStep = some t) : t.calls = s.calls := by
  unfold iternextStep at hs
  cases hpc : s.consumer with
  | wait =>
    simp only [hpc] at hs
    split at hs
    · cases hs
    · cases hs
      rfl
  | readB x =>
    simp only [hpc] at hs
    split at hs <;> cases hs <;> rfl
  | _ =>
    simp only [hpc] at hs
    cases hs
    rfl

theorem blockCompleted_calls {c : Completion} (hs : s.step (.blockCompleted c) = some t) :
    t.calls = s.produced ++ [c] := by
  simp only [step] at hs
  split at hs
  · split at hs
    · cases hs
    · cases hs
      rfl
  · cases hs

end CompletionRing

/-- The stages before the processor have the same datagram of `m` bytes before them. -/
structure Underway (m : ℕ) (todo : List Stage) (d e : IncomingData) : Prop where
  alike : d.Alike m e
  left : d.buflen ≤ m ∨ 2 ^ 17 ≤ d.buflen
  first : .port ∉ todo.tail
  long : ∀ st ∈ todo, st ≠ .count → 1 < m
  whole : .port ∈ todo → d.buflen = m

namespace Stage

variable {m : ℕ} {p q : Processing}

theorem run_twin (h : Twin m p q) {st : Stage} (hlong : st ≠ .count → 1 < m)
    (hwhole : st = .port → p.data.buflen = m) (junk : UInt16) :
    Twin m (st.run junk p) (st.run junk q) := by
  cases st with
  | port => exact h.portStage (hwhole rfl) (hlong (by decide))
  | needAck => exact h.needAckStage (Nat.lt_of_succ_lt (hlong (by decide)))
  | ack => exact h.ackStage (Nat.lt_of_succ_lt (hlong (by decide)))
  | bw => exact h.bwStage (Nat.lt_of_succ_lt (hlong (by decide)))
  | block => exact h.blockStage (Nat.lt_of_succ_lt (hlong (by decide))) junk
  | count => exact h.countStage

theorem fragmentAdded_completed (p : Processing) (fragment : FragmentData) (r : AddResult) :
    p.node.completed <+: (p.fragmentAdded fragment r).node.completed := by
  cases r with
  | added =>
    simp only [fragmentAdded]
    split
    · exact List.prefix_append _ _
    · exact List.prefix_rfl
  | _ => exact List.prefix_rfl

theorem run_completed (st : Stage) (junk : UInt16) (p : Processing) :
    p.node.completed <+: (st.run junk p).node.completed := by
  cases st with
  | port =>
    show _ <+: p.portStage.node.completed
    unfold portStage
    split
    · split
      · exact List.prefix_append _ _
      · exact List.prefix_rfl
    · simp only
      split <;> exact List.prefix_rfl
  | needAck => exact needAckStage_keeps.completed ▸ List.prefix_rfl
  | ack => exact ackStage_keeps.completed ▸ List.prefix_rfl
  | bw => exact bwStage_keeps.completed ▸ List.prefix_rfl
  | block =>
    show _ <+: (p.blockStage junk).node.completed
    unfold blockStage
    split
    · split
      · split
        · exact List.prefix_rfl
        · split
          · exact List.prefix_rfl
          · rename_i fragment _ _ cache r _
            exact fragmentAdded_completed { p with node := { p.node with cache := cache } } fragment r
      · exact List.prefix_rfl
    · exact List.prefix_rfl
  | count => exact List.prefix_rfl

end Stage

theorem Node.Same.elsewhere {n k : Node} (h : n.Same k) (f : Node → Node) :
    (n.elsewhere f).Same (k.elsewhere f) := by
  have hrest : { n with completed := [] } = { k with completed := [] } := by
    simp only [Node.mk.injEq, and_true]
    exact ⟨h.cache, h.ack, h.statsR, h.estimations, h.bwmlist⟩
  unfold Node.elsewhere
  rw [hrest]
  exact ⟨rfl, rfl, rfl, rfl, rfl, h.completed⟩

theorem IncomingData.Holds.underway {data : IncomingData} {x : Datagram} {tv : Timeval}
    (h : data.Holds (x, tv)) :
    data.stages = (x.fresh tv).stages ∧
      Underway x.bytes.length data.stages data (x.fresh tv) := by
  have hlen : data.buflen = x.bytes.length := h.buflen
  have hbuf : data.buf.take x.bytes.length = x.bytes := by
    rw [← hlen]
    exact h.bytes
  refine ⟨?_, ⟨h.source, ?_, hlen, h.tv⟩, Or.inl hlen.le, ?_, ?_, fun _ => hlen⟩
  · unfold IncomingData.stages
    rw [hlen]
    rfl
  · rw [hbuf]
    exact List.take_left.symm
  · unfold IncomingData.stages
    split <;> decide
  · unfold IncomingData.stages
    rw [hlen]
    split
    · rename_i hlong
      exact fun _ _ _ => hlong
    · intro st hst hne
      exact absurd (List.mem_singleton.mp hst) hne

/-- The datagrams that the ring holds are those in the queue, and the one in the slot is the one in
the buffer. -/
structure Follows (s : ReceivePath) (t : FreshPath) : Prop where
  receive : Reachable receiveRing s.receive
  completion : Reachable completionRing s.completion
  waiting : t.waiting =
    s.receive.received.drop (s.receive.iterations + s.receive.processor.reading.toNat)
  node : s.node.Same t.node
  todo : s.todo = t.todo
  slot : s.receive.processor = .process → ∃ m, Underway m s.todo s.slot t.data
  resting : s.receive.processor ≠ .process → s.todo = []
  calls : s.completion.calls <+: s.node.completed

namespace Follows

variable {s s' : ReceivePath} {t : FreshPath}

theorem setReceive (h : Follows s t) {receive : ReceiveRing} {waiting : List (Datagram × Timeval)}
    (hreach : Reachable receiveRing receive)
    (hwaiting : waiting =
      receive.received.drop (receive.iterations + receive.processor.reading.toNat))
    (hresting : receive.processor ≠ .process → s.todo = [])
    (hslot : receive.processor = .process → s.receive.processor = .process ∧
      receive.buffer receive.processorC.toNat = s.slot) :
    Follows { s with receive := receive } { t with waiting := waiting } where
  receive := hreach
  completion := h.completion
  waiting := hwaiting
  node := h.node
  todo := h.todo
  slot hp := by
    obtain ⟨hprocess, hsame⟩ := hslot hp
    obtain ⟨m, hm⟩ := h.slot hprocess
    refine ⟨m, ?_⟩
    show Underway m s.todo (receive.buffer receive.processorC.toNat) t.data
    rw [hsame]
    exact hm
  resting := hresting
  calls := h.calls

theorem setCompletion (h : Follows s t) {completion : CompletionRing}
    (hreach : Reachable completionRing completion)
    (hcalls : completion.calls <+: s.node.completed) :
    Follows { s with completion := completion } t :=
  ⟨h.receive, hreach, h.waiting, h.node, h.todo, h.slot, h.resting, hcalls⟩

theorem receiver (h : Follows s t) {x : Option Datagram} {tv : Timeval} {receive : ReceiveRing}
    (hr : receiveRing.step s.receive (.receiver x tv) = some receive) :
    Follows { s with receive := receive }
      { t with waiting := t.waiting ++ s.receive.arriving.toList } := by
  obtain ⟨hp, hc, hi, hreceived, hslot⟩ := ReceiveRing.receiver_frame h.receive hr
  have hlength := ReceiveRing.received_length h.receive
  refine h.setReceive (h.receive.step trivial hr) ?_ ?_ ?_
  · rw [hp, hi, hreceived, List.drop_append_of_le_length (by omega), h.waiting]
  · rw [hp]
    exact h.resting
  · rw [hp, hc]
    exact fun hprocess => ⟨hprocess, hslot hprocess⟩

theorem wait (h : Follows s t) {receive : ReceiveRing}
    (hr : receiveRing.step s.receive .wait = some receive) :
    ∃ t', freshPath.step t .take = some t' ∧
      Follows { s with receive := receive, todo := s.slot.stages } t' := by
  have hreach : Reachable receiveRing receive := h.receive.step trivial hr
  obtain ⟨hwait, hreceive⟩ := ReceiveRing.wait_frame hr
  have hprocess : receive.processor = .process := by rw [hreceive]
  have hchanges : receive.changes = id := by rw [hreceive]
  have hbuffer : receive.buffer receive.processorC.toNat = s.slot := by rw [hreceive]; rfl
  have hreceived : receive.received = s.receive.received := by rw [hreceive]
  have hiterations : receive.iterations = s.receive.iterations := by rw [hreceive]
  obtain ⟨buffer, r, hring, href⟩ := ReceiveRing.refines_reachable hreach
  obtain ⟨⟨x, tv⟩, data, hx, hholds, hfound⟩ :=
    href.found (SlotRing.State.inv_reachable hring) hprocess
  have hslot : s.slot = data := by rw [← hbuffer, hfound, hchanges]; rfl
  obtain ⟨hstages, hunder⟩ := hholds.underway
  have hwaiting : t.waiting = (x, tv) :: receive.received.drop (receive.iterations + 1) := by
    obtain ⟨hlt, hget⟩ := List.getElem?_eq_some_iff.mp hx
    rw [h.waiting, hwait, ← hreceived, ← hiterations, ← hget]
    exact List.drop_eq_getElem_cons hlt
  have htodo : t.todo = [] := by
    rw [← h.todo]
    exact h.resting (by rw [hwait]; decide)
  refine ⟨⟨receive.received.drop (receive.iterations + 1), t.node, x.fresh tv,
    (x.fresh tv).stages⟩, ?_, ?_⟩
  · simp only [freshPath, FreshPath.step, htodo, hwaiting]
  · refine ⟨hreach, h.completion, ?_, h.node, ?_, fun _ => ⟨x.bytes.length, ?_⟩, ?_, h.calls⟩
    · rw [hprocess]
      rfl
    · rw [hslot]
      exact hstages
    · show Underway _ s.slot.stages (receive.buffer receive.processorC.toNat) _
      rw [hbuffer, hslot]
      exact hunder
    · exact fun hno => absurd hprocess hno

theorem stage (h : Follows s t) {junk : UInt16} (hs : s.stageStep junk = some s') :
    ∃ t', freshPath.step t (.stage junk) = some t' ∧ Follows s' t' := by
  unfold ReceivePath.stageStep at hs
  cases htodo : s.todo with
  | nil => simp [htodo] at hs
  | cons st todo =>
    simp only [htodo] at hs
    split at hs
    · rename_i hgo
      obtain ⟨hreturned, hfault⟩ := hgo
      obtain ⟨receive, hr, rfl⟩ := Option.map_eq_some_iff.mp hs
      have hreach : Reachable receiveRing receive := h.receive.step
        (a := .change (fun _ => (st.run junk ⟨s.node, s.slot, [], none⟩).data)) trivial hr
      obtain ⟨hprocess, hp, hreceived, hiterations, hbuffer⟩ := ReceiveRing.change_frame hr
      obtain ⟨m, hm⟩ := h.slot hprocess
      rw [htodo] at hm
      have htwin : Twin m ⟨s.node, s.slot, [], none⟩ ⟨t.node, t.data, [], none⟩ :=
        ⟨h.node, hm.alike, rfl, hm.left⟩
      have hrun := Stage.run_twin htwin (hm.long st List.mem_cons_self)
        (fun hport => hm.whole (hport ▸ List.mem_cons_self)) junk
      have hrest : .port ∉ todo := hm.first
      refine ⟨⟨t.waiting, (st.run junk ⟨t.node, t.data, [], none⟩).node,
        (st.run junk ⟨t.node, t.data, [], none⟩).data, todo⟩, ?_, ?_⟩
      · simp only [freshPath, FreshPath.step, ← h.todo, htodo]
        exact if_pos (hrun.fault.symm.trans hfault)
      · refine ⟨hreach, h.completion, ?_, hrun.node, rfl, fun _ => ⟨m, ?_⟩, ?_, ?_⟩
        · rw [h.waiting, hp, hreceived, hiterations]
        · show Underway m todo (receive.buffer receive.processorC.toNat) _
          rw [hbuffer]
          exact ⟨hrun.data, hrun.left, fun hport => hrest (List.mem_of_mem_tail hport),
            fun st' hst' => hm.long st' (List.mem_cons_of_mem _ hst'),
            fun hport => absurd hport hrest⟩
        · exact fun hno => absurd (hp.trans hprocess) hno
        · exact h.calls.trans (st.run_completed junk ⟨s.node, s.slot, [], none⟩)
    · cases hs

theorem advance (h : Follows s t) {receive : ReceiveRing} (htodo : s.todo = [])
    (hr : receiveRing.step s.receive .advance = some receive) :
    Follows { s with receive := receive } t := by
  obtain ⟨hprocess, hreceive⟩ := ReceiveRing.advance_frame hr
  refine h.setReceive (h.receive.step trivial hr) ?_ (fun _ => htodo) ?_
  · rw [h.waiting, hreceive, hprocess]
    rfl
  · rw [hreceive]
    exact fun hno => absurd hno (by simp)

theorem post (h : Follows s t) {receive : ReceiveRing}
    (hr : receiveRing.step s.receive .post = some receive) :
    Follows { s with receive := receive } t := by
  obtain ⟨hpost, hreceive⟩ := ReceiveRing.post_frame hr
  have htodo : s.todo = [] := h.resting (by rw [hpost]; decide)
  refine h.setReceive (h.receive.step trivial hr) ?_ (fun _ => htodo) ?_
  · rw [h.waiting, hreceive, hpost]
    rfl
  · rw [hreceive]
    exact fun hno => absurd hno (by simp)

theorem blockCompleted (h : Follows s t) {c : Completion} {completion : CompletionRing}
    (hc : s.node.completed[s.completion.produced.length]? = some c)
    (hs : completionRing.step s.completion (.blockCompleted c) = some completion) :
    Follows { s with completion := completion } t := by
  refine h.setCompletion (h.completion.step trivial hs) ?_
  rw [CompletionRing.blockCompleted_calls hs]
  obtain ⟨rest, hrest⟩ := (List.prefix_append _ _).trans h.calls
  rw [← hrest, List.getElem?_append_right (Nat.le_refl _), Nat.sub_self] at hc
  obtain ⟨more, rfl⟩ : ∃ more, rest = c :: more := by
    cases rest with
    | nil => cases hc
    | cons d more =>
      obtain rfl : d = c := Option.some.inj hc
      exact ⟨more, rfl⟩
  rw [← hrest]
  exact ⟨more, by simp⟩

theorem elsewhere (h : Follows s t) (f : Node → Node) :
    Follows { s with node := s.node.elsewhere f } { t with node := t.node.elsewhere f } :=
  ⟨h.receive, h.completion, h.waiting, h.node.elsewhere f, h.todo, h.slot, h.resting, h.calls⟩

end Follows

theorem follows_init (buffer : ℕ → IncomingData) (slots : ℕ → BiterSlot) (data : IncomingData) :
    Follows (ReceivePath.init buffer slots) (FreshPath.init data) where
  receive := .init ⟨buffer, rfl⟩
  completion := .init ⟨slots, rfl⟩
  waiting := rfl
  node := Node.Same.refl _
  todo := rfl
  slot hp := by cases hp
  resting _ := rfl
  calls := List.prefix_rfl

/-- The rings are nothing to the datagrams but a queue, and what is left in their slots is nothing
to them at all. -/
theorem receivePath_simulates :
    Simulates receivePath freshPath ReceivePath.label Follows := by
  intro s t a s' h hs
  cases a with
  | receiver x tv =>
    obtain ⟨receive, hr, rfl⟩ := Option.map_eq_some_iff.mp hs
    have hnext := h.receiver hr
    simp only [ReceivePath.label]
    cases harrive : s.receive.arriving with
    | none =>
      rw [harrive, Option.toList_none, List.append_nil] at hnext
      exact hnext
    | some y =>
      rw [harrive] at hnext
      exact ⟨_, rfl, hnext⟩
  | wait =>
    obtain ⟨receive, hr, rfl⟩ := Option.map_eq_some_iff.mp hs
    exact h.wait hr
  | stage junk => exact h.stage hs
  | blockCompleted =>
    obtain ⟨c, hc, hcall⟩ := Option.bind_eq_some_iff.mp hs
    obtain ⟨completion, hring, rfl⟩ := Option.map_eq_some_iff.mp hcall
    exact h.blockCompleted hc hring
  | producer =>
    obtain ⟨completion, hring, rfl⟩ := Option.map_eq_some_iff.mp hs
    refine h.setCompletion (h.completion.step (a := .producer) trivial hring) ?_
    rw [CompletionRing.producerStep_calls hring]
    exact h.calls
  | advance =>
    simp only [receivePath, ReceivePath.step] at hs
    split at hs
    · rename_i hgo
      obtain ⟨receive, hr, rfl⟩ := Option.map_eq_some_iff.mp hs
      exact h.advance hgo.1 hr
    · cases hs
  | post =>
    obtain ⟨receive, hr, rfl⟩ := Option.map_eq_some_iff.mp hs
    exact h.post hr
  | iternext =>
    obtain ⟨completion, hring, rfl⟩ := Option.map_eq_some_iff.mp hs
    refine h.setCompletion (h.completion.step (a := .iternext) trivial hring) ?_
    rw [CompletionRing.iternextStep_calls hring]
    exact h.calls
  | elsewhere f =>
    cases hs
    exact ⟨_, rfl, h.elsewhere f⟩

/-- What the rings do to the datagrams in a run. -/
def freshActions (buffer : ℕ → IncomingData) (slots : ℕ → BiterSlot) (as : List PathAction) :
    List FreshAction :=
  labels receivePath ReceivePath.label (ReceivePath.init buffer slots) as

/-- In every interleaving, and whatever the slots held at the start: the node is the one that it
would be if every datagram had a fresh buffer and waited in a queue, and `biter.next()` returns what
is reported there, in order. -/
theorem receivePath_fresh (buffer : ℕ → IncomingData) (slots : ℕ → BiterSlot)
    (data : IncomingData) {as : List PathAction} {s : ReceivePath}
    (h : receivePath.run (ReceivePath.init buffer slots) as = some s) :
    ∃ t, freshPath.run (FreshPath.init data) (freshActions buffer slots as) = some t ∧
      s.node.Same t.node ∧
      s.completion.seen.map BiterItem.tuple <+:
        t.node.completed.map (fun c => c.item.tuple) := by
  obtain ⟨t, ht, hfollows⟩ :=
    receivePath_simulates.run (follows_init buffer slots data) h
  refine ⟨t, ht, hfollows.node, ?_⟩
  have hseen := (CompletionRing.lossless hfollows.completion).seen.map BiterItem.tuple
  have hreported := hfollows.calls
  rw [← hfollows.node.completed]
  rw [List.map_map] at hseen
  exact hseen.trans (((List.prefix_append _ _).trans hreported).map _)

/-- Behind a message of one letter, the slot has sevens; they are not in what the iterator
returns. -/
def messageOverSevens : List PathAction :=
  List.replicate 7 (.receiver (some ⟨⟨2, 1⟩, [0, 8, 8, 8], by decide⟩) ⟨1, 0⟩) ++
    [.wait, .stage 0, .blockCompleted] ++ List.replicate 5 .producer ++
    List.replicate 5 (.stage 0) ++ [.advance, .post] ++ List.replicate 6 .iternext

def sevens : IncomingData :=
  ⟨⟨0, 0⟩, List.replicate packetSize 7, 0, ⟨0, 0⟩, List.length_replicate⟩

theorem receivePath_fresh_sevens :
    ∃ (s : ReceivePath) (t : FreshPath),
      s.completion.seen.map BiterItem.tuple = [⟨-1, -1, some ⟨2, 256, [8, 8, 8], ⟨1, 0⟩⟩⟩] ∧
      s.node.Same t.node ∧
      s.completion.seen.map BiterItem.tuple <+:
        t.node.completed.map (fun c => c.item.tuple) := by
  have hrun : (receivePath.run (ReceivePath.init (fun _ => sevens) (fun _ => ⟨0, 0, sevens⟩))
      messageOverSevens).map (fun s => s.completion.seen.map BiterItem.tuple) =
        some [⟨-1, -1, some ⟨2, 256, [8, 8, 8], ⟨1, 0⟩⟩⟩] := by
    decide +kernel
  obtain ⟨s, hs, hseen⟩ := Option.map_eq_some_iff.mp hrun
  obtain ⟨t, -, hsame, hprefix⟩ := receivePath_fresh _ _ sevens hs
  exact ⟨s, t, hseen, hsame, hprefix⟩

end Bora
