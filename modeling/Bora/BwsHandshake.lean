import Bora.Bandwidth
import Bora.PacketWrites
import Bora.Library.Progress
import Bora.Library.Rendezvous

/-! The report of the bandwidth iterator and its answer: `bws_thread` wakes `next()` and holds
`bwLock` until `bws_set` answers, while the sender thread needs the lock for the pause behind each
packet. What a report says, the counters and the lists of acknowledgements, is not in here, nor is
the threshold that the sender thread looks at between two packets. -/
namespace Bora

open Checked Transition

/-- What `packet_send` does next with the packet that it took: take `bwLock`, divide and give the
lock back, send. -/
inductive SendPart
  | lock | divide | emit
deriving DecidableEq

inductive BwsPc
  | usleep | lock | post | wait | unlock
deriving DecidableEq

/-- The application between its calls, in `next()`, with a report, and in `bws_set`. -/
inductive BwsAppPc
  | python
  | hasdata
  | report
  | bandwidth (rst : Int32)
  | post (rst : Int32)
deriving DecidableEq

inductive BwLockHolder
  | bwsThread | sender
deriving DecidableEq

/-- The fields from `intervals` on record the run: the posts of `bws_thread`, the answers and the
last of them, and the packets sent since the last report began. -/
structure Bws where
  sender : Sender
  part : SendPart
  sleeptime : UInt64
  bandwidth : UInt64
  bwLock : Option BwLockHolder
  thread : BwsPc
  bwsTimer : Int32
  hasdata : ℕ
  processed : ℕ
  app : BwsAppPc
  fault : Option Fault
  intervals : ℕ
  answers : ℕ
  answered : Int32
  sent : ℕ

/-- `sent` is whether `sendto` succeeds, `callers` what other threads do to the queues of the
sender. -/
inductive BwsStep
  | thread
  | app
  | bwsSet (rst bwsTime : Int32)
  | sender (sent : Bool)
  | callers (a : SenderAction)

namespace Bws

def init (interval : Int32) : Bws where
  sender := Sender.init
  part := .lock
  sleeptime := 1500
  bandwidth := 1000000
  bwLock := none
  thread := .usleep
  bwsTimer := interval
  hasdata := 0
  processed := 0
  app := .python
  fault := none
  intervals := 0
  answers := 0
  answered := 1000000
  sent := 0

def threadStep (s : Bws) : Option Bws :=
  match s.thread with
  | .usleep => some { s with thread := .lock }
  | .lock =>
    if s.bwLock = none then some { s with bwLock := some .bwsThread, thread := .post } else none
  | .post =>
    some { s with hasdata := s.hasdata + 1, thread := .wait, intervals := s.intervals + 1 }
  | .wait =>
    if s.processed = 0 then none
    else some { s with processed := s.processed - 1, thread := .unlock }
  | .unlock => some { s with bwLock := none, thread := .usleep }

/-- `next()` and, from `.bandwidth` on, `bws_return_value`. -/
def appStep (s : Bws) : Option Bws :=
  match s.app with
  | .python => some { s with app := .hasdata }
  | .hasdata =>
    if s.hasdata = 0 then none
    else some { s with hasdata := s.hasdata - 1, app := .report, sent := 0 }
  | .report => none
  | .bandwidth rst => some { s with app := .post rst, bandwidth := setBandwidth rst }
  | .post rst =>
    some { s with app := .python, processed := s.processed + 1, answers := s.answers + 1,
                  answered := rst }

def senderStep (s : Bws) (sent : Bool) : Option Bws :=
  match s.part, s.sender.pc with
  | .lock, .send .. =>
    if s.bwLock = none then some { s with bwLock := some .sender, part := .divide } else none
  | .divide, .send d _ _ =>
    match packetSleeptime s.bandwidth d with
    | .error e => some { s with fault := some e }
    | .ok x => some { s with sleeptime := x, bwLock := none, part := .emit }
  | .emit, .send .. =>
    (s.sender.step (.sender sent)).map (fun sender =>
      { s with sender := sender, part := .lock, sent := s.sent + 1 })
  | .lock, _ => (s.sender.step (.sender sent)).map (fun sender => { s with sender := sender })
  | _, _ => none

/-- The application answers each report by one `bws_set`, and nothing else. A killed process does
nothing any more. -/
def step (s : Bws) (a : BwsStep) : Option Bws :=
  if s.fault.isSome then none
  else
    match a with
    | .thread => s.threadStep
    | .app => s.appStep
    | .bwsSet rst bwsTime =>
      if s.app = .report then some { s with app := .bandwidth rst, bwsTimer := bwsTime } else none
    | .sender sent => s.senderStep sent
    | .callers (.sender _) => none
    | .callers a => (s.sender.step a).map (fun sender => { s with sender := sender })

end Bws

def bws (interval : Int32) : System Bws BwsStep where
  init s := s = Bws.init interval
  step := Bws.step

namespace BwsAppPc

/-- From the return of `sem_wait` in `next()` to the `sem_post` of `bws_set`. -/
def reporting : BwsAppPc → Bool
  | .python | .hasdata => false
  | _ => true

def given : BwsAppPc → Option Int32
  | .post rst => some rst
  | _ => none

end BwsAppPc

def BwsPc.holds : BwsPc → Bool
  | .post | .wait | .unlock => true
  | _ => false

def SendPart.toSend : SendPart → ℕ
  | .emit => 1
  | _ => 0

namespace Bws

inductive Moves (s : Bws) : Bws → Prop
  | slept (h : s.thread = .usleep) : Moves s { s with thread := .lock }
  | locked (h : s.thread = .lock) (hfree : s.bwLock = none) :
      Moves s { s with bwLock := some .bwsThread, thread := .post }
  | posted (h : s.thread = .post) :
      Moves s { s with hasdata := s.hasdata + 1, thread := .wait, intervals := s.intervals + 1 }
  | resumed (h : s.thread = .wait) (hpos : s.processed ≠ 0) :
      Moves s { s with processed := s.processed - 1, thread := .unlock }
  | unlocked (h : s.thread = .unlock) : Moves s { s with bwLock := none, thread := .usleep }
  | called (h : s.app = .python) : Moves s { s with app := .hasdata }
  | taken (h : s.app = .hasdata) (hpos : s.hasdata ≠ 0) :
      Moves s { s with hasdata := s.hasdata - 1, app := .report, sent := 0 }
  | bwsSet (h : s.app = .report) (rst bwsTime : Int32) :
      Moves s { s with app := .bandwidth rst, bwsTimer := bwsTime }
  | bandwidth {rst : Int32} (h : s.app = .bandwidth rst) :
      Moves s { s with app := .post rst, bandwidth := setBandwidth rst }
  | answered {rst : Int32} (h : s.app = .post rst) :
      Moves s { s with app := .python, processed := s.processed + 1, answers := s.answers + 1,
                       answered := rst }
  | entered {d : SendData} {source : PacketSource} {z : Bool} (h : s.part = .lock)
      (hpc : s.sender.pc = .send d source z) (hfree : s.bwLock = none) :
      Moves s { s with bwLock := some .sender, part := .divide }
  | divided {d : SendData} {source : PacketSource} {z : Bool} {x : UInt64} (h : s.part = .divide)
      (hpc : s.sender.pc = .send d source z) (hx : packetSleeptime s.bandwidth d = .ok x) :
      Moves s { s with sleeptime := x, bwLock := none, part := .emit }
  | failed {d : SendData} {e : Fault} (h : s.part = .divide)
      (he : packetSleeptime s.bandwidth d = .error e) : Moves s { s with fault := some e }
  | emitted {sent : Bool} {sender : Sender} (h : s.part = .emit)
      (hs : s.sender.step (.sender sent) = some sender) :
      Moves s { s with sender := sender, part := .lock, sent := s.sent + 1 }
  | queues {a : SenderAction} {sender : Sender} (hs : s.sender.step a = some sender)
      (h : s.part = .lock ∨ ∀ sent, a ≠ .sender sent) : Moves s { s with sender := sender }

variable {s t : Bws}

/-- The two semaphores, with who waits and who has been woken. -/
def turn (s : Bws) : Rendezvous :=
  ⟨s.hasdata, s.processed, s.thread = .wait, s.app.reporting, s.intervals, s.answers⟩

/-- The semaphores move as those of a rendezvous do. -/
theorem Moves.turn (h : s.Moves t) :
    t.turn = s.turn ∨ ∃ e, s.turn.step e = some t.turn := by
  cases h with
  | posted h =>
    refine Or.inr ⟨.ask, ?_⟩
    simp [Rendezvous.step, Bws.turn, h]
  | resumed h hpos =>
    refine Or.inr ⟨.resume, ?_⟩
    simp [Rendezvous.step, Bws.turn, h, hpos]
  | taken h hpos =>
    refine Or.inr ⟨.take, ?_⟩
    simp [Rendezvous.step, Bws.turn, h, hpos, BwsAppPc.reporting]
  | answered h =>
    refine Or.inr ⟨.answer, ?_⟩
    simp [Rendezvous.step, Bws.turn, h, BwsAppPc.reporting]
  | slept h => exact Or.inl (by simp [Bws.turn, h])
  | locked h hfree => exact Or.inl (by simp [Bws.turn, h])
  | unlocked h => exact Or.inl (by simp [Bws.turn, h])
  | called h => exact Or.inl (by simp [Bws.turn, h, BwsAppPc.reporting])
  | bwsSet h rst bwsTime => exact Or.inl (by simp [Bws.turn, h, BwsAppPc.reporting])
  | bandwidth h => exact Or.inl (by simp [Bws.turn, h, BwsAppPc.reporting])
  | _ => exact Or.inl rfl

/-- The lock is held between the pauses of `bws_thread`, and for the division; it is not divided by
what an answer under way has given. -/
structure Locked (s : Bws) : Prop where
  sender : s.sender.Inv
  turn : s.turn.Balanced
  holds : s.bwLock = some .bwsThread ↔ s.thread.holds = true
  divides : s.bwLock = some .sender ↔ s.part = .divide
  place : s.part = .divide ∨ s.part = .emit → ∃ d source z, s.sender.pc = .send d source z
  divisor : s.bandwidth = setBandwidth (s.app.given.getD s.answered)

theorem locked_init (interval : Int32) : (init interval).Locked where
  sender := Sender.inv_init
  turn := ⟨rfl, rfl⟩
  holds := by simp [init, BwsPc.holds]
  divides := by simp [init]
  place := by simp [init]
  divisor := rfl

/-- While the application has a report, `bws_thread` waits with the lock, and the sender thread does
not divide. -/
theorem Locked.stopped (h : s.Locked) (happ : s.app.reporting = true) :
    s.thread = .wait ∧ s.bwLock = some .bwsThread ∧ s.part ≠ .divide := by
  obtain ⟨hwait, -, -⟩ := h.turn.exclusive (show s.turn.serving = true from happ)
  have hthread : s.thread = .wait := of_decide_eq_true hwait
  have hlock : s.bwLock = some .bwsThread := h.holds.mpr (by rw [hthread]; rfl)
  refine ⟨hthread, hlock, fun hpart => ?_⟩
  rw [h.divides.mpr hpart] at hlock
  cases hlock

theorem Locked.moves (h : s.Locked) (hs : s.Moves t) : t.Locked := by
  have hturn : t.turn.Balanced := by
    rcases hs.turn with heq | ⟨e, he⟩
    · rw [heq]
      exact h.turn
    · exact h.turn.step he
  have hholds := h.holds
  have hdivides := h.divides
  have hdivisor := h.divisor
  cases hs with
  | slept hpc =>
    rw [hpc] at hholds
    exact { h with turn := hturn, holds := hholds }
  | locked hpc hfree =>
    refine { h with turn := hturn, holds := by simp [BwsPc.holds], divides := ?_ }
    rw [hfree] at hdivides
    simpa using hdivides
  | posted hpc =>
    rw [hpc] at hholds
    exact { h with turn := hturn, holds := hholds }
  | resumed hpc hpos =>
    rw [hpc] at hholds
    exact { h with turn := hturn, holds := hholds }
  | unlocked hpc =>
    have hlock : s.bwLock = some .bwsThread := hholds.mpr (by rw [hpc]; rfl)
    refine { h with turn := hturn, holds := by simp [BwsPc.holds], divides := ?_ }
    rw [hlock] at hdivides
    simpa using hdivides
  | called hpc | taken hpc _ | bwsSet hpc _ _ =>
    rw [hpc] at hdivisor
    exact { h with turn := hturn, divisor := hdivisor }
  | bandwidth hpc => exact { h with turn := hturn, divisor := rfl }
  | answered hpc =>
    rw [hpc] at hdivisor
    exact { h with turn := hturn, divisor := hdivisor }
  | @entered d source z hpart hpc hfree =>
    refine { h with turn := hturn, holds := ?_, divides := by simp,
                    place := fun _ => ⟨d, source, z, hpc⟩ }
    rw [hfree] at hholds
    simpa using hholds
  | divided hpart _ _ =>
    have hlock : s.bwLock = some .sender := hdivides.mpr hpart
    refine { h with turn := hturn, holds := ?_, divides := by simp,
                    place := fun _ => h.place (Or.inl hpart) }
    rw [hlock] at hholds
    simpa using hholds
  | failed _ _ => exact { h with turn := hturn }
  | emitted hpart hsender =>
    rw [hpart] at hdivides
    refine { h with sender := Sender.inv_step h.sender hsender, turn := hturn,
                    divides := ?_, place := by simp }
    simpa using hdivides
  | queues hsender hfree =>
    refine { h with sender := Sender.inv_step h.sender hsender, turn := hturn, place := ?_ }
    intro hpart
    rcases hfree with hlock | hnot
    · simp [hlock] at hpart
    · rw [(Sender.callers_frame h.sender.valid hnot hsender).1]
      exact h.place hpart

/-- While the application has a report no packet comes past its pause but the one that was there. -/
def Credit (s : Bws) : Prop := s.app.reporting = true → s.sent + s.part.toSend ≤ 1

theorem toSend_le (part : SendPart) : part.toSend ≤ 1 := by cases part <;> decide

theorem Credit.moves (h : s.Credit) (hl : s.Locked) (hs : s.Moves t) : t.Credit := by
  have hpart := toSend_le s.part
  unfold Credit at h ⊢
  cases hs with
  | slept | locked | posted | resumed | unlocked | failed | queues => exact h
  | called hpc | answered hpc => simp [BwsAppPc.reporting]
  | taken hpc hpos =>
    intro
    simpa using hpart
  | bwsSet hpc | bandwidth hpc =>
    rw [hpc] at h
    exact fun _ => h rfl
  | entered _ hpc hfree =>
    intro happ
    have hlock := (hl.stopped happ).2.1
    rw [hfree] at hlock
    cases hlock
  | divided hpart =>
    intro happ
    exact absurd hpart (hl.stopped happ).2.2
  | emitted hpart =>
    rw [hpart] at h
    exact h

variable {interval : Int32}

end Bws

end Bora
