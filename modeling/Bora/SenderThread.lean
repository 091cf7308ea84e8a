import Bora.SendQueues
import Bora.CookieSender
import Bora.Library.Transition

/-! The sender thread among the callers of `send_data` and `send_cookie`: one step for each
semaphore operation and each lock-protected section, in every interleaving. -/
namespace Bora

open Transition

inductive PacketSource
  | cookie
  | queue (q : QueueName)
deriving DecidableEq

/-- What the sender thread does next. `z` is set in the extra round of `send_packet` for a
second packet to the host just served. -/
inductive SenderPc
  | look
  | wait (z : Bool)
  | cookie
  | getCookie
  | prio
  | retr
  | data (z : Bool)
  | send (d : SendData) (source : PacketSource) (z : Bool)
  | underflow
  | exited
deriving DecidableEq

/-- `calls` are the `send_data` calls that reserved a slot and did not insert yet, `posting`
those that inserted and did not post yet. The last three fields record the run. -/
structure Sender where
  queues : SendQueues
  rounds : CookieRounds
  calls : List SendData
  posting : ℕ
  pc : SenderPc
  lasthost : Option SockAddr
  accepted : QueueName → List SendData
  taken : QueueName → List SendData
  cookiesTaken : ℕ

/-- `sent` says whether the `sendto` of the step, if it has one, succeeds. -/
inductive SenderAction
  | sendData (d : SendData)
  | insert (k : ℕ)
  | post
  | cookies (a : CookieAction)
  | sender (sent : Bool)

namespace Sender

def init : Sender :=
  ⟨SendQueues.init, CookieRounds.init, [], 0, .look, none, fun _ => [], fun _ => [], 0⟩

def take (s : Sender) (q : QueueName) (z : Bool) : Sender :=
  { s with queues := s.queues.dequeue q
           taken := Function.update s.taken q (s.taken q ++ [s.queues.front q])
           pc := .send (s.queues.front q) (.queue q) z }

def nextLasthost (s : Sender) (d : SendData) (source : PacketSource) (z sent : Bool) :
    Option SockAddr :=
  if sent = false ∨ source = .queue .prio ∨ source = .queue .retr then s.lasthost
  else if z then none
  else if hasBit d.flags blkBlock then some d.dest
  else s.lasthost

/-- One step of `send_packet` and of the `packet_send` it calls. -/
def senderStep (s : Sender) (sent : Bool) : Option Sender :=
  match s.pc with
  | .look =>
    match s.lasthost with
    | none => some { s with pc := .wait false }
    | some host =>
      if 0 < s.queues.f .send ∧ (s.queues.front .send).dest = host then
        some { s with pc := .wait true }
      else some { s with pc := .wait false, lasthost := none }
  | .wait z =>
    if s.queues.sFull = 0 then none
    else
      let queues := { s.queues with sFull := s.queues.sFull - 1 }
      if z then some { s with queues := queues, pc := .data true }
      else some { s with queues := queues, pc := .cookie, lasthost := none }
  | .cookie =>
    match s.rounds.cookies.tryFull with
    | none => some { s with pc := .prio }
    | some c =>
      some { s with rounds := { s.rounds with cookies := c }, pc := .getCookie,
                    cookiesTaken := s.cookiesTaken + 1 }
  | .getCookie =>
    match s.rounds.cookies.getCookieData with
    | none => some { s with pc := .exited }
    | some (d, c) =>
      some { s with rounds := { s.rounds with cookies := c }, pc := .send d .cookie false }
  | .prio => if 0 < s.queues.f .prio then some (s.take .prio false) else some { s with pc := .retr }
  | .retr =>
    if 0 < s.queues.f .retr then some (s.take .retr false) else some { s with pc := .data false }
  -- No test here: an empty queue would be read and its counter made negative.
  | .data z =>
    if 0 < s.queues.f .send then some (s.take .send z) else some { s with pc := .underflow }
  | .send d source z =>
    some { s with queues := s.queues.postEmpty, lasthost := s.nextLasthost d source z sent,
                  pc := if z then .wait false else .look }
  | .underflow => none
  | .exited => none

def step (s : Sender) : SenderAction → Option Sender
  | .sendData d =>
    match s.queues.reserve with
    | none => some s
    | some queues => some { s with queues := queues, calls := d :: s.calls }
  | .insert k =>
    match s.calls[k]? with
    | none => none
    | some d =>
      match s.queues.enqueue d with
      | (queues, true) =>
        some { s with queues := queues, calls := s.calls.eraseIdx k, posting := s.posting + 1,
                      accepted := Function.update s.accepted (queueOf d)
                        (s.accepted (queueOf d) ++ [d]) }
      | (queues, false) => some { s with queues := queues, calls := s.calls.eraseIdx k }
  | .post =>
    if s.posting = 0 then none
    else some { s with queues := s.queues.postFull, posting := s.posting - 1 }
  | .cookies a => (s.rounds.step a).map (fun r => { s with rounds := r })
  | .sender sent => s.senderStep sent

end Sender

def sender : System Sender SenderAction where
  init s := s = Sender.init
  step := Sender.step

namespace SenderPc

/-- The thread holds a token of `sFull` for which it has taken nothing yet. -/
def holds : SenderPc → ℕ
  | .cookie | .prio | .retr | .data _ => 1
  | _ => 0

/-- The thread holds a packet or a cookie and has not posted `qEmpty` yet. -/
def carries : SenderPc → ℕ
  | .getCookie | .send .. | .exited => 1
  | _ => 0

end SenderPc

namespace Sender

/-- Where the thread is about to take without a test, there is something to take: producers
only add, and it is the only one that takes. -/
def Ready (s : Sender) : Prop :=
  match s.pc with
  | .wait true => 0 < s.queues.f .send
  | .data _ => 0 < s.queues.f .send
  | .retr => 0 < s.queues.f .retr + s.queues.f .send
  | .underflow => False
  | _ => True

/-- Every cookie taken leaves one packet in the queues without a token, and one slot counted
as free that is not. -/
structure Inv (s : Sender) : Prop where
  valid : s.queues.Valid
  fifo : ∀ q, s.accepted q = s.taken q ++ s.queues.queued q
  tokens : s.queues.fill = s.queues.sFull + s.posting + s.pc.holds + s.cookiesTaken
  room : s.queues.qEmpty + s.calls.length + s.queues.fill + s.pc.carries =
    3 * nSend + s.cookiesTaken
  ready : s.Ready

variable {s t : Sender}

theorem inv_init : init.Inv where
  valid := SendQueues.valid_init
  fifo _ := rfl
  tokens := rfl
  room := rfl
  ready := trivial

theorem Inv.of_ring (h : s.Inv) (hr : t.queues.ring = s.queues.ring)
    (ha : t.accepted = s.accepted) (ht : t.taken = s.taken)
    (htokens : s.queues.fill = t.queues.sFull + t.posting + t.pc.holds + t.cookiesTaken)
    (hroom : t.queues.qEmpty + t.calls.length + s.queues.fill + t.pc.carries =
      3 * nSend + t.cookiesTaken)
    (hready : t.Ready) : t.Inv where
  valid := SendQueues.valid_congr hr h.valid
  fifo q := by rw [ha, ht, SendQueues.queued_congr hr]; exact h.fifo q
  tokens := by rw [SendQueues.fill_congr hr]; exact htokens
  room := by rw [SendQueues.fill_congr hr]; exact hroom
  ready := hready

theorem ready_mono (h : s.Ready) (hpc : t.pc = s.pc) (hf : ∀ q, s.queues.f q ≤ t.queues.f q) :
    t.Ready := by
  have hsend := hf .send
  have hretr := hf .retr
  unfold Ready at h ⊢
  rw [hpc]
  split at h
  · omega
  · omega
  · omega
  · exact h
  · trivial

theorem inv_sendData (h : s.Inv) {d : SendData} (hs : s.step (.sendData d) = some t) : t.Inv := by
  simp only [step] at hs
  split at hs
  · cases hs
    exact h
  · rename_i queues hq
    obtain ⟨hring, hfull, hempty⟩ := SendQueues.reserve_some hq
    cases hs
    refine h.of_ring hring rfl rfl ?_ ?_ (ready_mono h.ready rfl ?_)
    · simp only [hfull]
      exact h.tokens
    · have hroom := h.room
      simp only [List.length_cons]
      omega
    · intro q
      simp [SendQueues.f, hring]

theorem inv_insert (h : s.Inv) {k : ℕ} (hs : s.step (.insert k) = some t) : t.Inv := by
  simp only [step] at hs
  split at hs
  · cases hs
  rename_i d hd
  obtain ⟨hk, -⟩ := List.getElem?_eq_some_iff.mp hd
  have hlen : (s.calls.eraseIdx k).length + 1 = s.calls.length := by
    rw [List.length_eraseIdx_of_lt hk]
    omega
  split at hs
  · rename_i queues hq
    obtain ⟨hvalid, hfull, hempty, hfill, hqueued⟩ := SendQueues.enqueue_true h.valid hq
    have htokens := h.tokens
    have hroom := h.room
    cases hs
    refine ⟨hvalid, ?_, ?_, ?_, ready_mono h.ready rfl ?_⟩
    · intro q
      rw [hqueued q, ← List.append_assoc, ← h.fifo q]
      by_cases hqd : q = queueOf d
      · subst q
        simp
      · simp [hqd]
    · simp only [hfill, hfull]
      omega
    · simp only [hfill, hempty]
      omega
    · intro q
      have hl := congrArg List.length (hqueued q)
      rw [List.length_append, SendQueues.queued_length, SendQueues.queued_length] at hl
      exact hl ▸ Nat.le_add_right _ _
  · rename_i queues hq
    rw [SendQueues.enqueue_false hq] at hs
    have hroom := h.room
    cases hs
    refine h.of_ring rfl rfl rfl h.tokens ?_ (ready_mono h.ready rfl (fun q => le_rfl))
    simp only [SendQueues.postEmpty_qEmpty]
    omega

theorem inv_post (h : s.Inv) (hs : s.step .post = some t) : t.Inv := by
  simp only [step] at hs
  split at hs
  · cases hs
  · rename_i hpos
    have htokens := h.tokens
    cases hs
    refine h.of_ring rfl rfl rfl ?_ h.room (ready_mono h.ready rfl (fun q => le_rfl))
    simp only [SendQueues.postFull_sFull]
    omega

/-- The callers leave the thread where it is and only put packets behind the others. -/
theorem callers_frame (hv : s.queues.Valid) {a : SenderAction} (ha : ∀ sent, a ≠ .sender sent)
    (hs : s.step a = some t) : t.pc = s.pc ∧ t.lasthost = s.lasthost ∧
      ∀ q, ∃ ds, t.queues.queued q = s.queues.queued q ++ ds := by
  have hsame : ∀ {u : SendQueues}, u.ring = s.queues.ring → ∀ q, ∃ ds,
      u.queued q = s.queues.queued q ++ ds :=
    fun hr q => ⟨[], by rw [SendQueues.queued_congr hr, List.append_nil]⟩
  cases a with
  | sendData d =>
    simp only [step] at hs
    split at hs
    · cases hs
      exact ⟨rfl, rfl, hsame rfl⟩
    · rename_i queues hq
      cases hs
      exact ⟨rfl, rfl, hsame (SendQueues.reserve_some hq).1⟩
  | insert k =>
    simp only [step] at hs
    split at hs
    · cases hs
    rename_i d hd
    split at hs
    · rename_i queues hq
      cases hs
      exact ⟨rfl, rfl, fun q => ⟨_, (SendQueues.enqueue_true hv hq).2.2.2.2 q⟩⟩
    · rename_i queues hq
      rw [SendQueues.enqueue_false hq] at hs
      cases hs
      exact ⟨rfl, rfl, hsame rfl⟩
  | post =>
    simp only [step] at hs
    split at hs
    · cases hs
    · cases hs
      exact ⟨rfl, rfl, hsame rfl⟩
  | cookies a =>
    obtain ⟨r, -, rfl⟩ := Option.map_eq_some_iff.mp hs
    exact ⟨rfl, rfl, hsame rfl⟩
  | sender sent => exact absurd rfl (ha sent)

theorem inv_take (h : s.Inv) {q : QueueName} (hf : 0 < s.queues.f q) (hh : s.pc.holds = 1)
    (hc : s.pc.carries = 0) (z : Bool) : (s.take q z).Inv := by
  obtain ⟨hvalid, hfull, hempty, hfill, hself, hother⟩ := SendQueues.dequeue_spec h.valid hf
  have htokens := h.tokens
  have hroom := h.room
  refine ⟨hvalid, ?_, ?_, ?_, trivial⟩
  · intro q'
    by_cases hq : q' = q
    · subst q'
      have hfifo := h.fifo q
      rw [hself] at hfifo
      simp [take, hfifo]
    · simp only [take, Function.update_of_ne hq, hother q' hq]
      exact h.fifo q'
  · simp only [take, hfull, SenderPc.holds]
    omega
  · simp only [take, hempty, SenderPc.carries]
    omega

theorem inv_sender (h : s.Inv) {sent : Bool} (hs : s.senderStep sent = some t) : t.Inv := by
  have htokens := h.tokens
  have hroom := h.room
  have hready := h.ready
  unfold senderStep at hs
  unfold Ready at hready
  cases hpc : s.pc with
  | look =>
    simp only [hpc, SenderPc.holds, SenderPc.carries] at hs htokens hroom
    split at hs
    · cases hs
      exact h.of_ring rfl rfl rfl htokens hroom trivial
    split at hs
    · rename_i hsame
      cases hs
      exact h.of_ring rfl rfl rfl htokens hroom hsame.1
    · cases hs
      exact h.of_ring rfl rfl rfl htokens hroom trivial
  | wait z =>
    simp only [hpc, SenderPc.holds, SenderPc.carries] at hs htokens hroom hready
    split at hs
    · cases hs
    rename_i hpos
    cases z with
    | true =>
      cases hs
      exact h.of_ring rfl rfl rfl (by simp only [SenderPc.holds]; omega) hroom hready
    | false =>
      cases hs
      exact h.of_ring rfl rfl rfl (by simp only [SenderPc.holds]; omega) hroom trivial
  | cookie =>
    simp only [hpc, SenderPc.holds, SenderPc.carries] at hs htokens hroom
    split at hs
    · cases hs
      exact h.of_ring rfl rfl rfl htokens hroom trivial
    · cases hs
      exact h.of_ring rfl rfl rfl (by simp only [SenderPc.holds]; omega)
        (by simp only [SenderPc.carries]; omega) trivial
  | getCookie =>
    simp only [hpc, SenderPc.holds, SenderPc.carries] at hs htokens hroom
    split at hs
    · cases hs
      exact h.of_ring rfl rfl rfl htokens hroom trivial
    · cases hs
      exact h.of_ring rfl rfl rfl htokens hroom trivial
  | prio =>
    simp only [hpc] at hs
    split at hs
    · rename_i hf
      cases hs
      exact inv_take h hf (by rw [hpc]; rfl) (by rw [hpc]; rfl) false
    · -- The token in hand stands for a packet, and none was in the prio queue.
      rename_i hf
      cases hs
      simp only [hpc, SenderPc.holds, SenderPc.carries] at htokens hroom
      refine h.of_ring rfl rfl rfl htokens hroom ?_
      simp only [SendQueues.fill] at htokens
      simp only [Ready]
      omega
  | retr =>
    simp only [hpc] at hs hready
    split at hs
    · rename_i hf
      cases hs
      exact inv_take h hf (by rw [hpc]; rfl) (by rw [hpc]; rfl) false
    · rename_i hf
      cases hs
      simp only [hpc, SenderPc.holds, SenderPc.carries] at htokens hroom
      refine h.of_ring rfl rfl rfl htokens hroom ?_
      simp only [Ready]
      omega
  | data z =>
    simp only [hpc] at hs hready
    rw [if_pos hready] at hs
    cases hs
    exact inv_take h hready (by rw [hpc]; rfl) (by rw [hpc]; rfl) z
  | send d source z =>
    simp only [hpc, SenderPc.holds, SenderPc.carries] at hs htokens hroom
    cases hs
    cases z with
    | true =>
      refine h.of_ring rfl rfl rfl htokens ?_ trivial
      simp only [SendQueues.postEmpty_qEmpty, if_true, SenderPc.carries]
      omega
    | false =>
      refine h.of_ring rfl rfl rfl htokens ?_ trivial
      simp only [SendQueues.postEmpty_qEmpty, Bool.false_eq_true, if_false, SenderPc.carries]
      omega
  | underflow => simp [hpc] at hs
  | exited => simp [hpc] at hs

theorem inv_step (h : s.Inv) {a : SenderAction} (hs : s.step a = some t) : t.Inv := by
  cases a with
  | sendData d => exact inv_sendData h hs
  | insert k => exact inv_insert h hs
  | post => exact inv_post h hs
  | cookies a =>
    obtain ⟨r, -, rfl⟩ := Option.map_eq_some_iff.mp hs
    exact ⟨h.valid, h.fifo, h.tokens, h.room, h.ready⟩
  | sender sent => exact inv_sender h hs

theorem inv_reaches {ok : Sender → SenderAction → Prop} (h : Reaches sender ok s) : s.Inv := by
  apply h.invariant
  · rintro _ rfl
    exact inv_init
  · intro s a t hi _ hs
    exact inv_step hi hs

end Sender

end Bora
