import Bora.BlockCache
import Bora.SenderThread

/-! The pull handshake: the sender signals that its queue runs low, the puller asks the
application for a block and waits for it to be queued, the application takes the question with
`next()` and calls `send_block`. A signal that finds no waiter has no effect. -/
namespace Bora

open Transition

def nBpuller : ℕ := 20

/-- `HIT_TRESHOLD` of the bandwidth and `f_send`. -/
def hitTreshold (bandwidth : UInt64) (fSend : ℕ) : Except Fault Bool :=
  if bandwidth = 0 then .error .divZero
  else .ok (UInt64.ofNat (mtu * fSend * 1000000) / bandwidth < 50000)

/-- What `send_pull` does next; `.pulling` and `.posting` are the two halves of `block_pull`. -/
inductive PullerPc
  | produceWait
  | produceWaiting
  | pulling
  | posting
  | blockWait
  | blockWaiting
deriving DecidableEq

/-- What the application does next: the two semaphores of `next()`, then `send_block` with the
packets still to be queued, each in the three steps of `send_data`. -/
inductive PullAppPc
  | next
  | taken
  | call
  | sending (rest : List SendData)
  | insert (rest : List SendData)
  | post (rest : List SendData)
  | signal
deriving DecidableEq

/-- `due` says that the sender has to look at the threshold before it goes on, `full` and `empty`
are the semaphores of the puller. The last two fields record the run. -/
structure PullHandshake where
  sender : Sender
  due : Bool
  bandwidth : UInt64
  puller : PullerPc
  app : PullAppPc
  full : ℕ
  empty : ℕ
  pulls : ℕ
  answered : ℕ

/-- `spurious` is a wait that returns without a signal. -/
inductive PullAction
  | puller
  | spurious
  | check
  | sender (sent : Bool)
  | app
  | sendblock (cache : Cache) (id : BlockID) (dest : SockAddr)
  | setBandwidth (bw : UInt64)

namespace PullHandshake

def init : PullHandshake :=
  ⟨Sender.init, false, 1000000, .produceWait, .next, 0, nBpuller, 0, 0⟩

/-- The two signals wake the puller if it waits for them. -/
def signalProduce (s : PullHandshake) : PullHandshake :=
  if s.puller = .produceWaiting then { s with puller := .pulling } else s

def signalProduced (s : PullHandshake) : PullHandshake :=
  if s.puller = .blockWaiting then { s with puller := .produceWait } else s

/-- The threshold is looked at when `packet_send` begins, and after it came back to the loop. -/
def checksAt : SenderPc → Bool
  | .wait _ => true
  | .look => true
  | _ => false

def pullerStep (s : PullHandshake) : Option PullHandshake :=
  match s.puller with
  | .produceWait => some { s with puller := .produceWaiting }
  | .pulling => if s.empty = 0 then none else some { s with empty := s.empty - 1, puller := .posting }
  | .posting => some { s with full := s.full + 1, puller := .blockWait, pulls := s.pulls + 1 }
  | .blockWait => some { s with puller := .blockWaiting }
  | .produceWaiting => none
  | .blockWaiting => none

def appStep (s : PullHandshake) : Option PullHandshake :=
  match s.app with
  | .next => if s.full = 0 then none else some { s with full := s.full - 1, app := .taken }
  | .taken => some { s with empty := s.empty + 1, app := .call }
  | .call => none
  | .sending [] => some { s with app := .signal }
  | .sending (d::rest) =>
    (s.sender.step (.sendData d)).map
      (fun t => { s with sender := t, app := if t.calls = [] then .sending rest else .insert rest })
  | .insert rest =>
    (s.sender.step (.insert 0)).map
      (fun t => { s with sender := t, app := if t.posting = 0 then .sending rest else .post rest })
  | .post rest => (s.sender.step .post).map (fun t => { s with sender := t, app := .sending rest })
  | .signal => some { s.signalProduced with app := .next, answered := s.answered + 1 }

def step (s : PullHandshake) : PullAction → Option PullHandshake
  | .puller => s.pullerStep
  | .spurious =>
    match s.puller with
    | .produceWaiting => some { s with puller := .pulling }
    | .blockWaiting => some { s with puller := .produceWait }
    | _ => none
  | .check =>
    if s.due then
      match hitTreshold s.bandwidth (s.sender.queues.f .send) with
      | .error _ => none
      | .ok true => some { s.signalProduce with due := false }
      | .ok false => some { s with due := false }
    else none
  | .sender sent =>
    if s.due then none
    else (s.sender.step (.sender sent)).map (fun t => { s with sender := t, due := checksAt t.pc })
  | .app => s.appStep
  | .sendblock cache id dest =>
    match s.app with
    | .call =>
      match Bora.sendblock cache id dest with
      | .error _ => none
      | .ok (ds, _) => some { s with app := .sending ds }
    | _ => none
  | .setBandwidth bw => some { s with bandwidth := bw }

end PullHandshake

def pullHandshake : System PullHandshake PullAction where
  init s := s = PullHandshake.init
  step := PullHandshake.step

namespace PullHandshake

variable {s t : PullHandshake}

/-- The puller is past its question and not past the wait for the answer. -/
def Asked (s : PullHandshake) : Prop := s.puller = .blockWait ∨ s.puller = .blockWaiting

/-- A question that the application has taken and not answered yet. -/
def inHand : PullAppPc → ℕ
  | .next => 0
  | _ => 1

/-- The answer to the last question is not signalled before the puller waits for it. -/
def AnswerAwaited (s : PullHandshake) : PullAction → Prop
  | .app => s.app = .signal → s.puller = .blockWait → s.answered + 1 ≠ s.pulls
  | _ => True

/-- Every question is in the semaphore, in hand or answered; that the puller waits for is not. -/
structure Awaiting (s : PullHandshake) : Prop where
  counted : s.pulls = s.full + inHand s.app + s.answered
  awaited : s.Asked → s.answered < s.pulls

theorem awaiting_init : init.Awaiting where
  counted := rfl
  awaited h := by rcases h with h | h <;> cases h

theorem Awaiting.frame (h : s.Awaiting) (hpulls : t.pulls = s.pulls) (hfull : t.full = s.full)
    (happ : inHand t.app = inHand s.app) (hanswered : t.answered = s.answered)
    (hasked : t.Asked → s.Asked) : t.Awaiting where
  counted := by rw [hpulls, hfull, happ, hanswered]; exact h.counted
  awaited ht := by rw [hpulls, hanswered]; exact h.awaited (hasked ht)

theorem signalProduce_eq (s : PullHandshake) :
    s.signalProduce = s ∨ s.signalProduce = { s with puller := .pulling } := by
  unfold signalProduce
  split
  · exact .inr rfl
  · exact .inl rfl

theorem awaiting_puller (h : s.Awaiting) (hs : s.pullerStep = some t) : t.Awaiting := by
  have hcounted := h.counted
  unfold pullerStep at hs
  split at hs
  · cases hs
    exact h.frame rfl rfl rfl rfl (fun ht => by rcases ht with ht | ht <;> cases ht)
  · split at hs
    · cases hs
    · cases hs
      exact h.frame rfl rfl rfl rfl (fun ht => by rcases ht with ht | ht <;> cases ht)
  · cases hs
    refine ⟨?_, fun _ => ?_⟩
    · show s.pulls + 1 = s.full + 1 + inHand s.app + s.answered
      omega
    · show s.answered < s.pulls + 1
      omega
  · rename_i hpuller
    cases hs
    exact h.frame rfl rfl rfl rfl (fun _ => .inl hpuller)
  · cases hs
  · cases hs

/-- The answer wakes the puller, or finds it elsewhere; by the condition it is then not the answer
that the puller is about to wait for. -/
theorem awaiting_signal (h : s.Awaiting) (happ : s.app = .signal)
    (hcond : s.puller = .blockWait → s.answered + 1 ≠ s.pulls) :
    Awaiting { s.signalProduced with app := .next, answered := s.answered + 1 } := by
  have hcounted := h.counted
  rw [happ] at hcounted
  have hone : inHand PullAppPc.signal = 1 := rfl
  unfold signalProduced
  split
  · refine ⟨?_, fun ht => by rcases ht with ht | ht <;> cases ht⟩
    show s.pulls = s.full + 0 + (s.answered + 1)
    omega
  · rename_i hwaiting
    refine ⟨?_, fun ht => ?_⟩
    · show s.pulls = s.full + 0 + (s.answered + 1)
      omega
    · have hwait : s.puller = .blockWait := ht.resolve_right hwaiting
      have hlt := h.awaited (.inl hwait)
      have hne := hcond hwait
      show s.answered + 1 < s.pulls
      omega

theorem awaiting_app (h : s.Awaiting) (hcond : AnswerAwaited s .app) (hs : s.appStep = some t) :
    t.Awaiting := by
  have hcounted := h.counted
  unfold appStep at hs
  split at hs
  · rename_i happ
    split at hs
    · cases hs
    · cases hs
      rw [happ] at hcounted
      refine ⟨?_, fun ht => h.awaited ht⟩
      have hzero : inHand PullAppPc.next = 0 := rfl
      show s.pulls = s.full - 1 + 1 + s.answered
      omega
  · rename_i happ
    cases hs
    exact h.frame rfl rfl (by rw [happ]; rfl) rfl id
  · cases hs
  · rename_i happ
    cases hs
    exact h.frame rfl rfl (by rw [happ]; rfl) rfl id
  · rename_i happ
    obtain ⟨u, -, rfl⟩ := Option.map_eq_some_iff.mp hs
    refine h.frame rfl rfl ?_ rfl id
    rw [happ]
    dsimp only
    split <;> rfl
  · rename_i happ
    obtain ⟨u, -, rfl⟩ := Option.map_eq_some_iff.mp hs
    refine h.frame rfl rfl ?_ rfl id
    rw [happ]
    dsimp only
    split <;> rfl
  · rename_i happ
    obtain ⟨u, -, rfl⟩ := Option.map_eq_some_iff.mp hs
    exact h.frame rfl rfl (by rw [happ]; rfl) rfl id
  · rename_i happ
    cases hs
    exact awaiting_signal h happ (hcond happ)

theorem Awaiting.step (h : s.Awaiting) {a : PullAction} (ha : AnswerAwaited s a)
    (hs : s.step a = some t) : t.Awaiting := by
  cases a with
  | puller => exact awaiting_puller h hs
  | app => exact awaiting_app h ha hs
  | spurious =>
    simp only [PullHandshake.step] at hs
    split at hs
    · cases hs
      exact h.frame rfl rfl rfl rfl (fun ht => by rcases ht with ht | ht <;> cases ht)
    · cases hs
      exact h.frame rfl rfl rfl rfl (fun ht => by rcases ht with ht | ht <;> cases ht)
    · cases hs
  | check =>
    simp only [PullHandshake.step] at hs
    split at hs
    · split at hs
      · cases hs
      · cases hs
        rcases s.signalProduce_eq with hsig | hsig <;> rw [hsig]
        · exact h.frame rfl rfl rfl rfl id
        · exact h.frame rfl rfl rfl rfl (fun ht => by rcases ht with ht | ht <;> cases ht)
      · cases hs
        exact h.frame rfl rfl rfl rfl id
    · cases hs
  | sender sent =>
    simp only [PullHandshake.step] at hs
    split at hs
    · cases hs
    · obtain ⟨u, -, rfl⟩ := Option.map_eq_some_iff.mp hs
      exact h.frame rfl rfl rfl rfl id
  | sendblock cache id dest =>
    simp only [PullHandshake.step] at hs
    split at hs
    · rename_i happ
      split at hs
      · cases hs
      · cases hs
        exact h.frame rfl rfl (by rw [happ]; rfl) rfl (fun ht => ht)
    · cases hs
  | setBandwidth bw =>
    cases hs
    exact h.frame rfl rfl rfl rfl id

theorem awaiting_reaches (h : Reaches pullHandshake AnswerAwaited s) : s.Awaiting := by
  apply h.invariant
  · rintro _ rfl
    exact awaiting_init
  · intro s a t hw ha hs
    exact hw.step ha hs

def SenderBlocked (s : PullHandshake) : Prop :=
  (∃ z, s.sender.pc = .wait z) ∧ s.due = false ∧ s.sender.queues.sFull = 0 ∧
    ∀ q, s.sender.queues.f q = 0

/-- The puller waits for an answer that was given, the application for a question and the sender
for a packet. -/
structure Stalled (s : PullHandshake) : Prop where
  puller : s.puller = .blockWaiting
  answered : s.answered = s.pulls
  app : s.app = .next
  full : s.full = 0
  sender : s.SenderBlocked

/-- In every run in which the answer to the last question is not signalled in the time between the
puller's question and its wait, the stream does not stall. -/
theorem not_stalled (h : Reaches pullHandshake AnswerAwaited s) : ¬ s.Stalled := by
  intro hs
  have hlt := (awaiting_reaches h).awaited (.inr hs.puller)
  have heq := hs.answered
  omega

/-- No thread gets a stalled stream going again. -/
theorem Stalled.stuck (h : s.Stalled) {a : PullAction} (hs : s.step a = some t) :
    a = .spurious ∨ ∃ bw, a = .setBandwidth bw := by
  obtain ⟨⟨z, hpc⟩, hdue, hfull, -⟩ := h.sender
  cases a with
  | spurious => exact .inl rfl
  | setBandwidth bw => exact .inr ⟨bw, rfl⟩
  | puller => simp [step, pullerStep, h.puller] at hs
  | check => simp [step, hdue] at hs
  | sender sent => simp [step, hdue, Sender.step, Sender.senderStep, hpc, hfull] at hs
  | app => simp [step, appStep, h.app, h.full] at hs
  | sendblock cache id dest => simp [step, h.app] at hs

/-- The first step that does not meet the condition answers the question that the puller is about
to wait for, and its next step waits. -/
theorem signal_lost (h : Reaches pullHandshake AnswerAwaited s) {a : PullAction}
    (ha : ¬ AnswerAwaited s a) (hs : s.step a = some t) :
    t.answered = t.pulls ∧ t.app = .next ∧ t.full = 0 ∧
      t.step .puller = some { t with puller := .blockWaiting } := by
  have hcounted := (awaiting_reaches h).counted
  cases a with
  | app =>
    obtain ⟨happ, hrest⟩ := Classical.not_imp.mp ha
    obtain ⟨hpuller, hlast⟩ := Classical.not_imp.mp hrest
    have hlast := not_not.mp hlast
    have hone : inHand PullAppPc.signal = 1 := rfl
    rw [happ] at hcounted
    have hsig : s.signalProduced = s := if_neg (by rw [hpuller]; nofun)
    simp only [step, appStep, happ, hsig] at hs
    cases hs
    refine ⟨hlast, rfl, ?_, ?_⟩
    · show s.full = 0
      omega
    · simp only [step, pullerStep, hpuller]
  | puller => exact absurd trivial ha
  | spurious => exact absurd trivial ha
  | check => exact absurd trivial ha
  | sender sent => exact absurd trivial ha
  | sendblock cache id dest => exact absurd trivial ha
  | setBandwidth bw => exact absurd trivial ha

instance (s : PullHandshake) (a : PullAction) : Decidable (AnswerAwaited s a) := by
  unfold AnswerAwaited
  split <;> infer_instance

def askOnce : List PullAction := [.puller, .sender true, .check, .puller, .puller]

theorem not_stalled_run :
    ∃ s, pullHandshake.runIf AnswerAwaited init (askOnce ++ [.puller, .app, .app,
        .sendblock [contentBlock ⟨1, 1⟩ [7]] ⟨1, 1⟩ ⟨1, 1⟩, .app, .app, .app, .app, .app,
        .sender true, .sender true, .sender true, .sender true, .sender true, .sender true]) =
        some s ∧ s.answered = s.pulls ∧ ¬ s.Stalled := by
  have hrun : (pullHandshake.runIf AnswerAwaited init (askOnce ++ [.puller, .app, .app,
      .sendblock [contentBlock ⟨1, 1⟩ [7]] ⟨1, 1⟩ ⟨1, 1⟩, .app, .app, .app, .app, .app,
      .sender true, .sender true, .sender true, .sender true, .sender true, .sender true])).map
        (fun s => (s.answered, s.pulls)) = some (1, 1) := by
    decide +kernel
  obtain ⟨s, hs, hcount⟩ := Option.map_eq_some_iff.mp hrun
  obtain ⟨hanswered, hpulls⟩ := Prod.mk.inj hcount
  exact ⟨s, hs, hanswered.trans hpulls.symm, not_stalled ((Reaches.init rfl).runIf hs)⟩

/-- The application sends a block that is not in the cache before the puller waits. -/
theorem stalled_reached : ∃ s, Reachable pullHandshake s ∧ s.Stalled := by
  have hrun : (pullHandshake.runIf (fun _ _ => True) init (askOnce ++
      [.app, .app, .sendblock [] ⟨1, 1⟩ ⟨1, 1⟩, .app, .app, .puller])).map
        (fun s => ((s.puller, s.app, s.sender.pc, s.due),
          [s.answered, s.pulls, s.full, s.sender.queues.sFull, s.sender.queues.f .prio,
            s.sender.queues.f .retr, s.sender.queues.f .send])) =
        some ((.blockWaiting, .next, .wait false, false), [1, 1, 0, 0, 0, 0, 0]) := by
    decide +kernel
  obtain ⟨s, hs, hstate⟩ := Option.map_eq_some_iff.mp hrun
  simp only [Prod.mk.injEq, List.cons.injEq, and_true] at hstate
  obtain ⟨⟨hpuller, happ, hpc, hdue⟩, hanswered, hpulls, hfull, hsFull, hprio, hretr, hsend⟩ := hstate
  refine ⟨s, (Reaches.init rfl).runIf hs, hpuller, hanswered.trans hpulls.symm, happ, hfull,
    ⟨false, hpc⟩, hdue, hsFull, fun q => ?_⟩
  cases q with
  | prio => exact hprio
  | retr => exact hretr
  | send => exact hsend

end PullHandshake

end Bora
