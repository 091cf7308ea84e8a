import Bora.Messages
import Bora.Library.RingBuffer

/-! The three queues between `send_data` and the sender thread, with the semaphores that
count their filled and their free slots. -/
namespace Bora

def nSend : ℕ := 2000
def nRetr : ℕ := 2000
def nPrio : ℕ := 2000

inductive QueueName
  | prio | retr | send
deriving DecidableEq, Repr

def QueueName.capacity : QueueName → ℕ
  | .prio => nPrio
  | .retr => nRetr
  | .send => nSend

/-- The queue that `send_data` chooses by the flags of a packet. -/
def queueOf (d : SendData) : QueueName :=
  if hasBit d.flags blkAck || hasBit d.flags bwMsg then .prio
  else if hasBit d.flags blockRetransmission then .retr
  else .send

/-- `ring q` has the buffer, the write index `c_q` and the fill counter `f_q`. -/
structure SendQueues where
  ring : QueueName → RingBuffer SendData
  sFull : ℕ
  qEmpty : ℕ

namespace SendQueues

def init : SendQueues := ⟨fun _ => RingBuffer.empty default, 0, 3 * nSend⟩

def f (s : SendQueues) (q : QueueName) : ℕ := (s.ring q).f

def queued (s : SendQueues) (q : QueueName) : List SendData := (s.ring q).toList q.capacity

def fill (s : SendQueues) : ℕ := s.f .prio + s.f .retr + s.f .send

def front (s : SendQueues) (q : QueueName) : SendData := (s.ring q).front q.capacity

def setRing (s : SendQueues) (q : QueueName) (r : RingBuffer SendData) : SendQueues :=
  { s with ring := Function.update s.ring q r }

/-- The section of `send_data` under the lock of the queue; a full queue gives the slot back. -/
def enqueue (s : SendQueues) (d : SendData) : SendQueues × Bool :=
  if s.f (queueOf d) < (queueOf d).capacity then
    (s.setRing (queueOf d) ((s.ring (queueOf d)).push (queueOf d).capacity d), true)
  else ({ s with qEmpty := s.qEmpty + 1 }, false)

/-- `f_q--`, after the front packet was copied. -/
def dequeue (s : SendQueues) (q : QueueName) : SendQueues := s.setRing q (s.ring q).drop

def reserve (s : SendQueues) : Option SendQueues :=
  if s.qEmpty = 0 then none else some { s with qEmpty := s.qEmpty - 1 }

def postFull (s : SendQueues) : SendQueues := { s with sFull := s.sFull + 1 }
def postEmpty (s : SendQueues) : SendQueues := { s with qEmpty := s.qEmpty + 1 }

/-- `send_data` without interference, and whether it queued the packet. -/
def sendData (s : SendQueues) (d : SendData) : SendQueues × Bool :=
  match s.reserve with
  | none => (s, false)
  | some s =>
    match s.enqueue d with
    | (s, true) => (s.postFull, true)
    | (s, false) => (s, false)

def Valid (s : SendQueues) : Prop := ∀ q, (s.ring q).Valid q.capacity

theorem capacity_pos (q : QueueName) : 0 < q.capacity := by cases q <;> decide

theorem valid_init : init.Valid := fun q => RingBuffer.valid_empty (capacity_pos q) _

@[simp] theorem queued_init (q : QueueName) : init.queued q = [] := rfl
@[simp] theorem postFull_ring (s : SendQueues) : s.postFull.ring = s.ring := rfl
@[simp] theorem postEmpty_ring (s : SendQueues) : s.postEmpty.ring = s.ring := rfl
@[simp] theorem postFull_sFull (s : SendQueues) : s.postFull.sFull = s.sFull + 1 := rfl
@[simp] theorem postEmpty_qEmpty (s : SendQueues) : s.postEmpty.qEmpty = s.qEmpty + 1 := rfl

theorem queued_length (s : SendQueues) (q : QueueName) : (s.queued q).length = s.f q := by
  simp [queued, f]

theorem queued_congr {s t : SendQueues} (h : t.ring = s.ring) : t.queued = s.queued := by
  funext q
  rw [queued, queued, h]

theorem fill_congr {s t : SendQueues} (h : t.ring = s.ring) : t.fill = s.fill := by
  simp only [fill, f, h]

theorem valid_congr {s t : SendQueues} (h : t.ring = s.ring) (hs : s.Valid) : t.Valid := by
  intro q
  rw [h]
  exact hs q

theorem reserve_some {s t : SendQueues} (h : s.reserve = some t) :
    t.ring = s.ring ∧ t.sFull = s.sFull ∧ t.qEmpty + 1 = s.qEmpty := by
  unfold reserve at h
  split at h
  · cases h
  · rename_i hpos
    cases h
    exact ⟨rfl, rfl, Nat.sub_add_cancel (Nat.pos_of_ne_zero hpos)⟩

theorem enqueue_true {s t : SendQueues} (hs : s.Valid) {d : SendData}
    (h : s.enqueue d = (t, true)) :
    t.Valid ∧ t.sFull = s.sFull ∧ t.qEmpty = s.qEmpty ∧ t.fill = s.fill + 1 ∧
      ∀ q, t.queued q = s.queued q ++ if q = queueOf d then [d] else [] := by
  unfold enqueue at h
  split at h
  · rename_i hroom
    cases h
    have hother : ∀ q, q ≠ queueOf d →
        (s.setRing (queueOf d) ((s.ring (queueOf d)).push (queueOf d).capacity d)).ring q =
          s.ring q := fun q hq => Function.update_of_ne hq _ _
    have hself : (s.setRing (queueOf d) ((s.ring (queueOf d)).push (queueOf d).capacity d)).ring
        (queueOf d) = (s.ring (queueOf d)).push (queueOf d).capacity d := Function.update_self _ _ _
    have hf : ∀ q, (s.setRing (queueOf d) ((s.ring (queueOf d)).push (queueOf d).capacity d)).f q =
        s.f q + if q = queueOf d then 1 else 0 := by
      intro q
      by_cases hq : q = queueOf d
      · subst q
        rw [f, hself, if_pos rfl]
        rfl
      · rw [f, hother q hq, if_neg hq]
        rfl
    refine ⟨?_, rfl, rfl, ?_, ?_⟩
    · intro q
      by_cases hq : q = queueOf d
      · subst q
        rw [hself]
        exact RingBuffer.push_valid (hs _) hroom d
      · rw [hother q hq]
        exact hs q
    · simp only [fill, hf]
      cases queueOf d <;> simp <;> omega
    · intro q
      by_cases hq : q = queueOf d
      · subst q
        rw [queued, hself, if_pos rfl]
        exact RingBuffer.toList_push (hs _) hroom d
      · rw [queued, hother q hq, if_neg hq, List.append_nil]
        rfl
  · cases h

theorem enqueue_false {s t : SendQueues} {d : SendData} (h : s.enqueue d = (t, false)) :
    t = s.postEmpty := by
  unfold enqueue at h
  split at h
  · cases h
  · cases h
    rfl

/-- `send_data` puts an accepted packet behind the others of its queue and changes no other. -/
theorem sendData_spec {s : SendQueues} (hs : s.Valid) (d : SendData) :
    (s.sendData d).1.Valid ∧ ∀ q, (s.sendData d).1.queued q =
      s.queued q ++ if (s.sendData d).2 = true ∧ q = queueOf d then [d] else [] := by
  cases hr : s.reserve with
  | none =>
    have hsend : s.sendData d = (s, false) := by simp only [sendData, hr]
    rw [hsend]
    exact ⟨hs, by simp⟩
  | some u =>
    obtain ⟨hring, -, -⟩ := reserve_some hr
    have hu := valid_congr hring hs
    rcases he : u.enqueue d with ⟨t, b⟩
    cases b with
    | true =>
      have hsend : s.sendData d = (t.postFull, true) := by simp only [sendData, hr, he]
      obtain ⟨hvalid, -, -, -, hqueued⟩ := enqueue_true hu he
      rw [hsend]
      refine ⟨hvalid, fun q => ?_⟩
      rw [queued_congr (postFull_ring t), hqueued q, queued_congr hring]
      simp
    | false =>
      have hsend : s.sendData d = (t, false) := by simp only [sendData, hr, he]
      have ht : t.ring = s.ring := by rw [enqueue_false he, postEmpty_ring, hring]
      rw [hsend]
      refine ⟨valid_congr ht hs, fun q => ?_⟩
      rw [queued_congr ht]
      simp

theorem sendData_room {s : SendQueues} (hs : s.Valid) {d : SendData} (hslot : 0 < s.qEmpty)
    (hroom : s.f (queueOf d) < (queueOf d).capacity) :
    ∃ t, s.sendData d = (t, true) ∧ t.Valid ∧ t.sFull = s.sFull + 1 ∧
      t.qEmpty + 1 = s.qEmpty ∧
        ∀ q, t.queued q = s.queued q ++ if q = queueOf d then [d] else [] := by
  obtain ⟨u, hu⟩ : ∃ u, s.reserve = some u := ⟨_, if_neg (Nat.pos_iff_ne_zero.mp hslot)⟩
  obtain ⟨hring, hfull, hslots⟩ := reserve_some hu
  have hvalid := valid_congr hring hs
  have hroom' : u.f (queueOf d) < (queueOf d).capacity := by
    rw [f, hring]
    exact hroom
  rcases he : u.enqueue d with ⟨t, ok⟩
  obtain rfl : ok = true := by
    rw [enqueue, if_pos hroom'] at he
    exact (Prod.mk.inj he).2.symm
  obtain ⟨hv, hfull', hq, -, hqueued⟩ := enqueue_true hvalid he
  refine ⟨t.postFull, by simp only [sendData, hu, he], hv, ?_, ?_, ?_⟩
  · rw [postFull_sFull, hfull', hfull]
  · rw [show t.postFull.qEmpty = u.qEmpty from hq]
    exact hslots
  · intro q
    rw [queued_congr (postFull_ring t), hqueued q, queued_congr hring]

/-- A take from a filled queue removes the oldest packet of that queue. -/
theorem dequeue_spec {s : SendQueues} (hs : s.Valid) {q : QueueName} (hf : 0 < s.f q) :
    (s.dequeue q).Valid ∧ (s.dequeue q).sFull = s.sFull ∧ (s.dequeue q).qEmpty = s.qEmpty ∧
      (s.dequeue q).fill + 1 = s.fill ∧
      s.queued q = s.front q :: (s.dequeue q).queued q ∧
      ∀ q', q' ≠ q → (s.dequeue q).queued q' = s.queued q' := by
  have hother : ∀ q', q' ≠ q → (s.dequeue q).ring q' = s.ring q' :=
    fun q' hq => Function.update_of_ne hq _ _
  have hself : (s.dequeue q).ring q = (s.ring q).drop := Function.update_self _ _ _
  refine ⟨?_, rfl, rfl, ?_, ?_, ?_⟩
  · intro q'
    by_cases hq : q' = q
    · subst q'
      rw [hself]
      exact RingBuffer.drop_valid (hs q)
    · rw [hother q' hq]
      exact hs q'
  · have hdrop : (s.dequeue q).f q + 1 = s.f q := by
      rw [f, hself]
      exact Nat.sub_add_cancel hf
    have hsame : ∀ q', q' ≠ q → (s.dequeue q).f q' = s.f q' := fun q' hq => by
      rw [f, hother q' hq]
      rfl
    unfold fill
    cases q with
    | prio => rw [← hdrop, hsame .retr (by decide), hsame .send (by decide)]; omega
    | retr => rw [← hdrop, hsame .prio (by decide), hsame .send (by decide)]; omega
    | send => rw [← hdrop, hsame .prio (by decide), hsame .retr (by decide)]; omega
  · rw [queued, queued, hself]
    exact RingBuffer.toList_drop (hs q) hf
  · intro q' hq
    rw [queued, queued, hother q' hq]

end SendQueues

end Bora
