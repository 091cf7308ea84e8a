import Bora.SenderThread
import Bora.Fragmentation

/-! `sendblock` at work: its loop calls `send_data` once for each fragment while the sender thread
drains the queues and other threads fill them. -/
namespace Bora

open Checked Transition

/-- Where the call is: in front of the loop, before fragment `i`, and within its `send_data`
before the queue is locked and before `sFull` is posted. -/
inductive SendblockPc
  | start
  | loop (block : Block) (i : ℕ)
  | insert (block : Block) (i : ℕ) (d : SendData)
  | post (block : Block) (i : ℕ)
  | returned (ret : ℕ)
deriving DecidableEq

/-- `accepted` records the packets of this call that were put in a queue, `missed` how many found
no slot. -/
structure SendblockRun where
  sender : Sender
  pc : SendblockPc
  accepted : List SendData
  missed : ℕ

inductive SendblockAction
  | call
  | others (a : SenderAction)

namespace SendblockRun

def setQueues (s : SendblockRun) (queues : SendQueues) (pc : SendblockPc) : SendblockRun :=
  { s with sender := { s.sender with queues := queues }, pc := pc }

/-- The block is locked for the whole call, so it does not change. A fragment that reaches
beyond the buffer ends the run. -/
def call (cache : Cache) (id : BlockID) (dest : SockAddr) (s : SendblockRun) :
    Option SendblockRun :=
  match s.pc with
  | .start =>
    match findblock cache id with
    | none => some { s with pc := .returned 0 }
    | some block => some { s with pc := .loop block 0 }
  | .loop block i =>
    if i < block.fs.fn.toNat then
      match sendPacket block dest i with
      | .error _ => none
      | .ok d =>
        match s.sender.queues.reserve with
        | none => some { s with pc := .loop block (i + 1), missed := s.missed + 1 }
        | some queues => some (s.setQueues queues (.insert block i d))
    else some { s with pc := .returned i }
  | .insert block i d =>
    match s.sender.queues.enqueue d with
    | (queues, true) =>
      some { s.setQueues queues (.post block i) with accepted := s.accepted ++ [d] }
    | (queues, false) =>
      some { s.setQueues queues (.loop block (i + 1)) with missed := s.missed + 1 }
  | .post block i => some (s.setQueues s.sender.queues.postFull (.loop block (i + 1)))
  | .returned _ => none

end SendblockRun

/-- One call of `sendblock`, begun with queues of any fill level. -/
def sendblockRun (cache : Cache) (id : BlockID) (dest : SockAddr) :
    System SendblockRun SendblockAction where
  init s := s.sender.queues.Valid ∧ s.pc = .start ∧ s.accepted = [] ∧ s.missed = 0
  step s
    | .call => s.call cache id dest
    | .others a => (s.sender.step a).map (fun sender => { s with sender := sender })

namespace SendblockRun

/-- The two tests of `send_data`: a token of `qEmpty`, and room in the data queue. -/
def FindsSlot (s : SendblockRun) : SendblockAction → Prop
  | .call =>
    match s.pc with
    | .loop block i => i < block.fs.fn.toNat → 0 < s.sender.queues.qEmpty
    | .insert _ _ _ => s.sender.queues.f .send < nSend
    | _ => True
  | .others _ => True

/-- The return value is the number of packets that were queued, and if it is not 0 these are
the packets of all the fragments, once and in order. -/
def Reports (cache : Cache) (id : BlockID) (dest : SockAddr) (s : SendblockRun) : Prop :=
  ∀ ret, s.pc = .returned ret → ret = s.accepted.length ∧
    (ret ≠ 0 → sendblock cache id dest = .ok (s.accepted, ret))

structure Progress (dest : SockAddr) (block : Block) (n : ℕ) (s : SendblockRun) : Prop where
  count : s.accepted.length + s.missed = n
  all : s.missed = 0 → (List.range n).mapM (sendPacket block dest) = .ok s.accepted

def Inv (cache : Cache) (id : BlockID) (dest : SockAddr) (s : SendblockRun) : Prop :=
  match s.pc with
  | .start => s.accepted = [] ∧ s.missed = 0
  | .loop block i => findblock cache id = some block ∧ i ≤ block.fs.fn.toNat ∧
      s.Progress dest block i
  | .insert block i d => findblock cache id = some block ∧ i < block.fs.fn.toNat ∧
      s.Progress dest block i ∧ sendPacket block dest i = .ok d
  | .post block i => findblock cache id = some block ∧ i < block.fs.fn.toNat ∧
      s.Progress dest block (i + 1)
  | .returned ret =>
    (findblock cache id = none ∧ ret = 0 ∧ s.accepted = [] ∧ s.missed = 0) ∨
      ∃ block, findblock cache id = some block ∧ ret = block.fs.fn.toNat ∧
        s.Progress dest block ret

section Steps

variable {cache : Cache} {id : BlockID} {dest : SockAddr} {s t : SendblockRun} {block : Block}
  {i n : ℕ} {d : SendData} {a : SendblockAction}

theorem mapM_range_succ {ds : List SendData}
    (h : (List.range n).mapM (sendPacket block dest) = .ok ds)
    (hd : sendPacket block dest n = .ok d) :
    (List.range (n + 1)).mapM (sendPacket block dest) = .ok (ds ++ [d]) := by
  rw [mapM_ok_iff] at h ⊢
  rw [List.range_succ]
  exact List.rel_append h (List.Forall₂.cons hd List.Forall₂.nil)

theorem Progress.accept (h : s.Progress dest block n) (hd : sendPacket block dest n = .ok d)
    (hacc : t.accepted = s.accepted ++ [d]) (hmiss : t.missed = s.missed) :
    t.Progress dest block (n + 1) where
  count := by
    have hcount := h.count
    rw [hacc, hmiss, List.length_append, List.length_singleton]
    omega
  all := by
    intro hzero
    rw [hacc]
    exact mapM_range_succ (h.all (hmiss ▸ hzero)) hd

theorem Progress.miss (h : s.Progress dest block n) (hacc : t.accepted = s.accepted)
    (hmiss : t.missed = s.missed + 1) : t.Progress dest block (n + 1) where
  count := by
    have hcount := h.count
    rw [hacc, hmiss]
    omega
  all := fun hzero => absurd (hmiss.symm.trans hzero) (Nat.succ_ne_zero _)

theorem Progress.same (h : s.Progress dest block n) (hacc : t.accepted = s.accepted)
    (hmiss : t.missed = s.missed) : t.Progress dest block n :=
  ⟨by rw [hacc, hmiss]; exact h.count, by rw [hacc, hmiss]; exact h.all⟩

inductive CallCase (cache : Cache) (id : BlockID) (dest : SockAddr) (s t : SendblockRun) : Prop
  | absent (hpc : s.pc = .start) (hfind : findblock cache id = none)
      (ht : t = { s with pc := .returned 0 })
  | entered {block : Block} (hpc : s.pc = .start) (hfind : findblock cache id = some block)
      (ht : t = { s with pc := .loop block 0 })
  | done {block : Block} {i : ℕ} (hpc : s.pc = .loop block i) (hi : ¬ i < block.fs.fn.toNat)
      (ht : t = { s with pc := .returned i })
  | refused {block : Block} {i : ℕ} (hpc : s.pc = .loop block i) (hi : i < block.fs.fn.toNat)
      (hres : s.sender.queues.reserve = none)
      (ht : t = { s with pc := .loop block (i + 1), missed := s.missed + 1 })
  | reserved {block : Block} {i : ℕ} {d : SendData} {queues : SendQueues}
      (hpc : s.pc = .loop block i) (hi : i < block.fs.fn.toNat)
      (hd : sendPacket block dest i = .ok d)
      (ht : t = s.setQueues queues (.insert block i d))
  | queued {block : Block} {i : ℕ} {d : SendData} {queues : SendQueues}
      (hpc : s.pc = .insert block i d)
      (ht : t = { s.setQueues queues (.post block i) with accepted := s.accepted ++ [d] })
  | full {block : Block} {i : ℕ} {d : SendData} {queues : SendQueues}
      (hpc : s.pc = .insert block i d) (henq : s.sender.queues.enqueue d = (queues, false))
      (ht : t = { s.setQueues queues (.loop block (i + 1)) with missed := s.missed + 1 })
  | posted {block : Block} {i : ℕ} (hpc : s.pc = .post block i)
      (ht : t = s.setQueues s.sender.queues.postFull (.loop block (i + 1)))

theorem call_cases (hs : s.call cache id dest = some t) : CallCase cache id dest s t := by
  unfold call at hs
  cases hpc : s.pc with
  | start =>
    simp only [hpc] at hs
    split at hs
    · rename_i hfind
      exact .absent hpc hfind (Option.some.inj hs).symm
    · rename_i block hfind
      exact .entered hpc hfind (Option.some.inj hs).symm
  | loop block i =>
    simp only [hpc] at hs
    split at hs
    · rename_i hi
      split at hs
      · cases hs
      rename_i d hd
      split at hs
      · rename_i hres
        exact .refused hpc hi hres (Option.some.inj hs).symm
      · exact .reserved hpc hi hd (Option.some.inj hs).symm
    · rename_i hi
      exact .done hpc hi (Option.some.inj hs).symm
  | insert block i d =>
    simp only [hpc] at hs
    split at hs
    · exact .queued hpc (Option.some.inj hs).symm
    · rename_i henq
      exact .full hpc henq (Option.some.inj hs).symm
  | post block i =>
    simp only [hpc] at hs
    exact .posted hpc (Option.some.inj hs).symm
  | returned ret =>
    simp only [hpc] at hs
    cases hs

theorem inv_call (h : s.Inv cache id dest) (hs : s.call cache id dest = some t) :
    t.Inv cache id dest := by
  unfold Inv at h
  cases call_cases hs with
  | absent hpc hfind ht =>
    simp only [hpc] at h
    subst ht
    exact Or.inl ⟨hfind, rfl, h.1, h.2⟩
  | entered hpc hfind ht =>
    simp only [hpc] at h
    subst ht
    refine ⟨hfind, Nat.zero_le _, ?_, fun _ => ?_⟩
    · simp [h.1, h.2]
    · simp [h.1]
  | @done block i hpc hi ht =>
    simp only [hpc] at h
    obtain ⟨hfind, hle, hprog⟩ := h
    obtain rfl : i = block.fs.fn.toNat := by omega
    subst ht
    exact Or.inr ⟨block, hfind, rfl, hprog.same rfl rfl⟩
  | refused hpc hi _ ht =>
    simp only [hpc] at h
    subst ht
    exact ⟨h.1, hi, h.2.2.miss rfl rfl⟩
  | reserved hpc hi hd ht =>
    simp only [hpc] at h
    subst ht
    exact ⟨h.1, hi, h.2.2.same rfl rfl, hd⟩
  | queued hpc ht =>
    simp only [hpc] at h
    obtain ⟨hfind, hi, hprog, hd⟩ := h
    subst ht
    exact ⟨hfind, hi, hprog.accept hd rfl rfl⟩
  | full hpc _ ht =>
    simp only [hpc] at h
    obtain ⟨hfind, hi, hprog, -⟩ := h
    subst ht
    exact ⟨hfind, hi, hprog.miss rfl rfl⟩
  | posted hpc ht =>
    simp only [hpc] at h
    obtain ⟨hfind, hi, hprog⟩ := h
    subst ht
    exact ⟨hfind, hi, hprog.same rfl rfl⟩

theorem inv_others (h : s.Inv cache id dest) (sender : Sender) :
    Inv cache id dest { s with sender := sender } := by
  unfold Inv at h ⊢
  cases hpc : s.pc with
  | start => simpa only [hpc] using h
  | loop block i =>
    simp only [hpc] at h ⊢
    exact ⟨h.1, h.2.1, h.2.2.same rfl rfl⟩
  | insert block i d =>
    simp only [hpc] at h ⊢
    exact ⟨h.1, h.2.1, h.2.2.1.same rfl rfl, h.2.2.2⟩
  | post block i =>
    simp only [hpc] at h ⊢
    exact ⟨h.1, h.2.1, h.2.2.same rfl rfl⟩
  | returned ret =>
    simp only [hpc] at h ⊢
    rcases h with h | ⟨block, hfind, hret, hprog⟩
    · exact Or.inl h
    · exact Or.inr ⟨block, hfind, hret, hprog.same rfl rfl⟩

theorem reachable_inv {ok : SendblockRun → SendblockAction → Prop}
    (h : Reaches (sendblockRun cache id dest) ok s) : s.Inv cache id dest := by
  apply h.invariant
  · rintro s ⟨-, hpc, hacc, hmiss⟩
    unfold Inv
    rw [hpc]
    exact ⟨hacc, hmiss⟩
  · intro s a t hs _ hstep
    cases a with
    | call => exact inv_call hs hstep
    | others a =>
      obtain ⟨sender, -, rfl⟩ := Option.map_eq_some_iff.mp hstep
      exact inv_others hs sender

theorem missed_of_findsSlot (h : Reaches (sendblockRun cache id dest) FindsSlot s) :
    s.missed = 0 := by
  induction h with
  | init h₀ => exact h₀.2.2.2
  | @step s t a hreach hfinds hstep ih =>
    cases a with
    | others a =>
      obtain ⟨sender, -, rfl⟩ := Option.map_eq_some_iff.mp hstep
      exact ih
    | call =>
      cases call_cases (show s.call cache id dest = some t from hstep) with
      | absent _ _ ht | entered _ _ ht | done _ _ ht | reserved _ _ _ ht | queued _ ht
        | posted _ ht =>
        subst ht
        exact ih
      | refused hpc hi hres _ =>
        simp only [FindsSlot, hpc] at hfinds
        rw [SendQueues.reserve, if_neg (Nat.pos_iff_ne_zero.mp (hfinds hi))] at hres
        cases hres
      | @full block i d queues hpc henq _ =>
        have hinv := reachable_inv hreach
        simp only [Inv, hpc] at hinv
        simp only [FindsSlot, hpc] at hfinds
        have hsend : queueOf d = .send := by
          rw [queueOf, sendPacket_flags hinv.2.2.2]
          decide
        have hroom : s.sender.queues.f .send < QueueName.send.capacity := hfinds
        rw [SendQueues.enqueue, hsend, if_pos hroom] at henq
        cases henq

theorem Inv.reports_iff (h : s.Inv cache id dest) {ret : ℕ} (hret : s.pc = .returned ret) :
    s.Reports cache id dest ↔ s.missed = 0 := by
  unfold Inv at h
  simp only [hret] at h
  rcases h with ⟨-, rfl, hacc, hmiss⟩ | ⟨block, hfind, rfl, hprog⟩
  · refine iff_of_true ?_ hmiss
    intro ret hret'
    obtain rfl : 0 = ret := SendblockPc.returned.inj (hret.symm.trans hret')
    exact ⟨by rw [hacc]; rfl, fun hne => absurd rfl hne⟩
  · have hcount := hprog.count
    constructor
    · intro hrep
      have hlen := (hrep _ hret).1
      omega
    · intro hmiss ret hret'
      obtain rfl : block.fs.fn.toNat = ret := SendblockPc.returned.inj (hret.symm.trans hret')
      refine ⟨by omega, fun _ => ?_⟩
      simp only [sendblock, hfind, hprog.all hmiss, ok_bind]
      rfl

/-- Calls that all find a slot are reported rightly; and in any run the report is right exactly
if no call found none. -/
theorem sendblock_reports_iff (cache : Cache) (id : BlockID) (dest : SockAddr) :
    (∀ s, Reaches (sendblockRun cache id dest) FindsSlot s → s.Reports cache id dest) ∧
      ∀ s ret, Reachable (sendblockRun cache id dest) s → s.pc = .returned ret →
        (s.Reports cache id dest ↔ s.missed = 0) := by
  constructor
  · intro s h ret hret
    exact ((reachable_inv h).reports_iff hret).mpr (missed_of_findsSlot h) ret hret
  · intro s ret h hret
    exact (reachable_inv h).reports_iff hret

end Steps

def begin (queues : SendQueues) : SendblockRun :=
  ⟨{ Sender.init with queues := queues }, .start, [], 0⟩

theorem begin_init {cache : Cache} {id : BlockID} {dest : SockAddr} {queues : SendQueues}
    (h : queues.Valid) : (sendblockRun cache id dest).init (begin queues) := ⟨h, rfl, rfl, rfl⟩

def fullSend : SendQueues :=
  ⟨Function.update (fun _ => RingBuffer.empty default) .send ⟨fun _ => default, 0, nSend⟩, nSend,
    2 * nSend⟩

theorem fullSend_valid : fullSend.Valid := by
  intro q
  cases q with
  | prio => exact RingBuffer.valid_empty (SendQueues.capacity_pos _) _
  | retr => exact RingBuffer.valid_empty (SendQueues.capacity_pos _) _
  | send => exact ⟨by decide, le_refl nSend⟩

/-- Both fragments of a block are queued, while another thread queues a packet between them. -/
theorem sendblock_reports_two :
    ∃ s : SendblockRun, s.pc = .returned 2 ∧
      s.Reports [contentBlock ⟨1, 1⟩ (List.replicate 1401 7)] ⟨1, 1⟩ ⟨3, 1⟩ := by
  have hrun : ((sendblockRun [contentBlock ⟨1, 1⟩ (List.replicate 1401 7)] ⟨1, 1⟩ ⟨3, 1⟩).runIf
      (fun _ _ => True) (begin SendQueues.init) (List.replicate 4 .call ++
        [.others (.sendData ⟨[blkBlockAck], ⟨2, 1⟩, by decide⟩), .others (.insert 0),
          .others .post] ++ List.replicate 4 .call)).map
      (fun s => (decide (s.pc = .returned 2), s.missed)) = some (true, 0) := by decide +kernel
  obtain ⟨s, hs, hend⟩ := Option.map_eq_some_iff.mp hrun
  obtain ⟨hpc, hmiss⟩ := Prod.mk.inj hend
  have hpc' : s.pc = .returned 2 := of_decide_eq_true hpc
  have hreach : Reachable
      (sendblockRun [contentBlock ⟨1, 1⟩ (List.replicate 1401 7)] ⟨1, 1⟩ ⟨3, 1⟩) s :=
    (Reaches.init (begin_init SendQueues.valid_init)).runIf hs
  exact ⟨s, hpc', ((sendblock_reports_iff _ _ _).2 s 2 hreach hpc').mpr hmiss⟩

/-- With the data queue full the only fragment of a block is dropped, and `sendblock` returns 1. -/
theorem sendblock_misreports :
    ∃ s, Reachable (sendblockRun [contentBlock ⟨1, 1⟩ [7]] ⟨1, 1⟩ ⟨3, 1⟩) s ∧
      s.pc = .returned 1 ∧ s.accepted = [] ∧
        ¬ s.Reports [contentBlock ⟨1, 1⟩ [7]] ⟨1, 1⟩ ⟨3, 1⟩ := by
  have hrun : ((sendblockRun [contentBlock ⟨1, 1⟩ [7]] ⟨1, 1⟩ ⟨3, 1⟩).runIf (fun _ _ => True)
      (begin fullSend) [.call, .call, .call, .call]).map
        (fun s => (decide (s.pc = .returned 1), s.accepted)) = some (true, []) := by
    decide +kernel
  obtain ⟨s, hs, hend⟩ := Option.map_eq_some_iff.mp hrun
  obtain ⟨hpc, hacc⟩ := Prod.mk.inj hend
  have hpc' : s.pc = .returned 1 := of_decide_eq_true hpc
  refine ⟨s, (Reaches.init (begin_init fullSend_valid)).runIf hs, hpc', hacc, fun h => ?_⟩
  have hlen := (h 1 hpc').1
  rw [hacc] at hlen
  cases hlen

end SendblockRun

end Bora
