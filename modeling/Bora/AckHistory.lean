import Bora.Accounting

/-! The calls around acknowledgements, one after another, with a log of what was accepted. Every
outstanding packet remembers which call of `append_ack` it comes from. -/
namespace Bora

open Checked Transition

/-- An ack that popped its entry, which the call with the number `place` of `append_ack` had
made; `removed` entries left the list with it as sent before. -/
structure AcceptedAck where
  entry : Ack
  place : ℕ
  ackR : AckReceived
  received : Timeval
  source : SockAddr
  removed : ℕ

def AcceptedAck.store (e : AcceptedAck) : AckStore :=
  ackStoreOf e.entry e.ackR e.received e.source

inductive AckEvent
  | accepted (e : AcceptedAck)
  | released

def AckEvent.ack : AckEvent → Option AcceptedAck
  | .accepted e => some e
  | .released => none

def acceptedAcks (log : List AckEvent) : List AcceptedAck := log.filterMap AckEvent.ack

def acceptedSince (log : List AckEvent) : List AcceptedAck :=
  acceptedAcks (log.takeWhile (fun e => e.ack.isSome))

@[simp] theorem acceptedAcks_accepted (e : AcceptedAck) (log : List AckEvent) :
    acceptedAcks (.accepted e :: log) = e :: acceptedAcks log := rfl
@[simp] theorem acceptedAcks_released (log : List AckEvent) :
    acceptedAcks (.released :: log) = acceptedAcks log := rfl
@[simp] theorem acceptedSince_accepted (e : AcceptedAck) (log : List AckEvent) :
    acceptedSince (.accepted e :: log) = e :: acceptedSince log := rfl
@[simp] theorem acceptedSince_released (log : List AckEvent) :
    acceptedSince (.released :: log) = [] := rfl

theorem mem_acceptedSince {e : AcceptedAck} {log : List AckEvent} (h : e ∈ acceptedSince log) :
    e ∈ acceptedAcks log := by
  unfold acceptedSince acceptedAcks at h
  exact ((List.takeWhile_sublist _).filterMap _).subset h

/-- The entries that the sweep of an ack takes out because they were sent before the popped
one: all such for a peer without a record, otherwise those that are not covered. -/
def AckState.sentEarlier (s : AckState) (ackR : AckReceived) (source : SockAddr) : List Ack :=
  match popAck s.nacks ackR.seq source, s.acks.findPeerByHost source with
  | (nacks, some pop), none => nacks.selected pop.d.dest (sentBefore pop)
  | _, _ => s.overtaken ackR source

theorem AckState.sentEarlier_known {s : AckState} {ackR : AckReceived} {source : SockAddr}
    {nacks : NackTable} {pop : Ack} {peer : PeerAckStore}
    (hpop : popAck s.nacks ackR.seq source = (nacks, some pop))
    (hpeer : s.acks.findPeerByHost source = some peer) :
    s.sentEarlier ackR source =
      (nacks.unselected pop.d.dest (covered pop ackR.cons)).selected pop.d.dest
        (sentBefore pop) := by
  simp only [sentEarlier, overtaken, hpop, hpeer]

/-- The lists of outstanding packets, each with the number of its call. -/
abbrev Places := SockAddr → List (Ack × ℕ)

namespace Places

def append (p : Places) (addr : SockAddr) (a : Ack) (k : ℕ) : Places :=
  Function.update p addr ((a, k) :: p addr)

def pop (p : Places) (seq : UInt16) (source : SockAddr) : Places :=
  Function.update p source ((p source).eraseP (fun x => x.1.seq = seq))

def sweep (p : Places) (addr : SockAddr) (sel : Ack → Bool) : Places :=
  Function.update p addr ((p addr).filter (fun x => !sel x.1))

def find (p : Places) (seq : UInt16) (source : SockAddr) : Option (Ack × ℕ) :=
  (p source).find? (fun x => x.1.seq = seq)

end Places

/-- `issued` counts the calls of `append_ack`. -/
structure AckHistory where
  tables : AckState
  issued : ℕ
  places : Places
  log : List AckEvent

/-- `elsewhere` is what the rest of the program does to the queues and the cookies. -/
inductive AckCall
  | append (d : SendData) (sendtime : Timeval) (sleeptime : UInt32)
  | ack (ackR : AckReceived) (received : Timeval) (source : SockAddr)
  | timeout (now : Timeval)
  | drain
  | release
  | elsewhere (queues : SendQueues) (cookies : Cookies)

namespace AckHistory

def init : AckHistory := ⟨AckState.init, 0, fun _ => [], []⟩

def placesAfter (s : AckHistory) (pop : Ack) (ackR : AckReceived) (source : SockAddr) : Places :=
  match s.tables.acks.findPeerByHost source with
  | none => (s.places.pop ackR.seq source).sweep pop.d.dest (sentBefore pop)
  | some _ =>
    ((s.places.pop ackR.seq source).sweep pop.d.dest (covered pop ackR.cons)).sweep pop.d.dest
      (sentBefore pop)

def acceptance (s : AckHistory) (ackR : AckReceived) (received : Timeval) (source : SockAddr) :
    Option AcceptedAck :=
  match s.tables.popped ackR source, s.places.find ackR.seq source with
  | some pop, some x =>
    some ⟨pop, x.2, ackR, received, source, (s.tables.sentEarlier ackR source).length⟩
  | _, _ => none

/-- An ack whose number is not found changes nothing. -/
def step (s : AckHistory) : AckCall → Option AckHistory
  | .append d sendtime sleeptime =>
    match appendAck s.tables.nacks d sendtime sleeptime with
    | .error _ => none
    | .ok (nacks, _) =>
      some { s with
        tables := { s.tables with nacks := nacks }
        issued := s.issued + 1
        places := s.places.append d.dest ⟨nacks.seqNum, sendtime, sleeptime, d⟩ (s.issued + 1) }
  | .ack ackR received source =>
    match s.acceptance ackR received source with
    | none => some { s with tables := s.tables.acknowledged ackR received source }
    | some e =>
      some { s with
        tables := s.tables.acknowledged ackR received source
        places := s.placesAfter e.entry ackR source
        log := .accepted e :: s.log }
  | .timeout now =>
    some { s with
      tables := s.tables.sweepTimeouts now
      places := fun addr => (s.places addr).filter
        (fun x => !timedOut (timeToUsec now) (s.tables.acks.getTimeoutValue addr) x.1) }
  | .drain => some { s with tables := { s.tables with acks := s.tables.acks.drain } }
  | .release =>
    some { s with tables := { s.tables with acks := s.tables.acks.releaseAckStore }
                  log := .released :: s.log }
  | .elsewhere queues cookies =>
    some { s with tables := { s.tables with queues := queues, cookies := cookies } }

end AckHistory

def ackHistory : System AckHistory AckCall where
  init s := s = AckHistory.init
  step := AckHistory.step

namespace Places

variable {p : Places} {n : NackTable} {seq : UInt16} {source addr : SockAddr}

def Of (p : Places) (n : NackTable) : Prop := ∀ addr, (p addr).map Prod.fst = n.nacksOf addr

theorem Of.sweep (h : p.Of n) (addr : SockAddr) (sel : Ack → Bool) :
    (p.sweep addr sel).Of (n.unselected addr sel) := by
  intro addr'
  rw [NackTable.nacksOf_unselected, Places.sweep]
  by_cases haddr : addr' = addr
  · subst addr'
    rw [Function.update_self, Function.update_self, ← h addr, List.filter_map]
    rfl
  · rw [Function.update_of_ne haddr, Function.update_of_ne haddr]
    exact h addr'

theorem Of.find (h : p.Of n) (seq : UInt16) (source : SockAddr) :
    (n.nacksOf source).find? (fun a => a.seq = seq) = (p.find seq source).map Prod.fst := by
  rw [← h source, List.find?_map]
  rfl

theorem Of.pop (h : p.Of n) {n' : NackTable}
    (hn : n'.nacksOf = Function.update n.nacksOf source
      ((n.nacksOf source).eraseP (fun a => a.seq = seq))) : (p.pop seq source).Of n' := by
  intro addr
  rw [hn, Places.pop]
  by_cases haddr : addr = source
  · subst addr
    rw [Function.update_self, Function.update_self, ← h source, List.eraseP_map]
    rfl
  · rw [Function.update_of_ne haddr, Function.update_of_ne haddr]
    exact h addr

end Places

namespace AckHistory

/-- The places are those of the entries, which stand in the list of their destination, and the
number of an entry is that of its place, in 16 bits. -/
structure Inv (s : AckHistory) : Prop where
  places : s.places.Of s.tables.nacks
  addressed : ∀ addr, ∀ a ∈ s.tables.nacks.nacksOf addr, a.d.dest = addr
  seqNum : s.tables.nacks.seqNum = UInt16.ofNat s.issued
  numbered : ∀ addr, ∀ x ∈ s.places addr, x.1.seq = UInt16.ofNat x.2
  logged : ∀ e ∈ acceptedAcks s.log, e.entry.seq = UInt16.ofNat e.place

variable {s t : AckHistory} {ackR : AckReceived} {received : Timeval} {source : SockAddr}

theorem inv_init : init.Inv where
  places _ := rfl
  addressed := by
    intro addr a ha
    simp [init, AckState.init, NackTable.nacksOf, NackTable.findByHost, NackTable.init] at ha
  seqNum := rfl
  numbered := by simp [init]
  logged := by simp [init, acceptedAcks]

/-- What an ack is: its number is not found and nothing changes, or it pops the entry of a
place and is recorded. -/
inductive AckCase (s : AckHistory) (ackR : AckReceived) (received : Timeval) (source : SockAddr) :
    Prop
  | unfound (hnone : s.acceptance ackR received source = none)
      (hsame : s.tables.acknowledged ackR received source = s.tables)
  | accepted {pop : Ack} {k : ℕ} {nacks : NackTable}
      (hpop : popAck s.tables.nacks ackR.seq source = (nacks, some pop))
      (hplace : s.places.find ackR.seq source = some (pop, k))
      (hsome : s.acceptance ackR received source =
        some ⟨pop, k, ackR, received, source, (s.tables.sentEarlier ackR source).length⟩)
      (hack : s.tables.acknowledged ackR received source =
        ackReceived { s.tables with nacks := nacks } pop ackR received source)
      (hdest : pop.d.dest = source) (hseq : pop.seq = UInt16.ofNat k)

theorem Inv.ack_cases (h : s.Inv) (ackR : AckReceived) (received : Timeval) (source : SockAddr) :
    s.AckCase ackR received source := by
  have hfind := h.places.find ackR.seq source
  rcases hp : popAck s.tables.nacks ackR.seq source with ⟨nacks, _ | pop⟩
  · have hpopped : s.tables.popped ackR source = none := by rw [AckState.popped, hp]
    refine .unfound ?_ ?_
    · simp only [acceptance, hpopped]
    · have hn := popAck_not_found hp
      subst hn
      simp only [AckState.acknowledged, hp]
  · obtain ⟨hpop, -, -⟩ := popAck_some hp
    rw [hpop] at hfind
    obtain ⟨⟨a, k⟩, hx, rfl⟩ := Option.map_eq_some_iff.mp hfind.symm
    have hpopped : s.tables.popped ackR source = some a := by rw [AckState.popped, hp]
    refine .accepted hp hx ?_ ?_ (h.addressed source a (List.mem_of_find?_eq_some hpop))
      (h.numbered source (a, k) (List.mem_of_find?_eq_some hx))
    · simp only [acceptance, hpopped, hx]
    · simp only [AckState.acknowledged, hp]

theorem placesAfter_of (h : s.Inv) {pop : Ack} {nacks : NackTable}
    (hpop : popAck s.tables.nacks ackR.seq source = (nacks, some pop)) :
    (s.placesAfter pop ackR source).Of
      (ackReceived { s.tables with nacks := nacks } pop ackR received source).nacks := by
  have hpopped := h.places.pop (popAck_some hpop).2.2
  rw [placesAfter]
  cases hpeer : s.tables.acks.findPeerByHost source with
  | none =>
    rw [(ackReceived_new { s.tables with nacks := nacks } pop ackR received source hpeer).1]
    exact hpopped.sweep _ _
  | some peer =>
    rw [(ackReceived_known { s.tables with nacks := nacks } pop ackR received source
      (by simp [hpeer])).1]
    exact (hpopped.sweep _ _).sweep _ _

theorem placesAfter_sublist (s : AckHistory) (pop : Ack) (ackR : AckReceived)
    (source addr : SockAddr) : (s.placesAfter pop ackR source addr).Sublist (s.places addr) := by
  have hpop : (s.places.pop ackR.seq source addr).Sublist (s.places addr) := by
    rw [Places.pop]
    by_cases haddr : addr = source
    · subst addr
      rw [Function.update_self]
      exact List.eraseP_sublist
    · rw [Function.update_of_ne haddr]
  have hsweep : ∀ (p : Places) (addr' : SockAddr) (sel : Ack → Bool),
      (p.sweep addr' sel addr).Sublist (p addr) := by
    intro p addr' sel
    rw [Places.sweep]
    by_cases haddr : addr = addr'
    · subst addr
      rw [Function.update_self]
      exact List.filter_sublist
    · rw [Function.update_of_ne haddr]
  rw [placesAfter]
  cases s.tables.acks.findPeerByHost source with
  | none => exact (hsweep _ _ _).trans hpop
  | some peer => exact ((hsweep _ _ _).trans (hsweep _ _ _)).trans hpop

theorem Inv.append (h : s.Inv) {d : SendData} {sendtime : Timeval} {sleeptime : UInt32}
    (hs : s.step (.append d sendtime sleeptime) = some t) : t.Inv := by
  simp only [step] at hs
  split at hs
  · cases hs
  rename_i nacks d' happ
  cases hs
  obtain ⟨hseq, -, -, hnacks⟩ := appendAck_ok happ
  have hnext : nacks.seqNum = UInt16.ofNat (s.issued + 1) := by
    rw [hseq, h.seqNum, UInt16.ofNat_add]
    rfl
  refine ⟨?_, ?_, hnext, ?_, h.logged⟩
  · intro addr
    simp only [hnacks, Places.append]
    by_cases haddr : addr = d.dest
    · subst addr
      rw [Function.update_self, Function.update_self, List.map_cons, h.places d.dest]
    · rw [Function.update_of_ne haddr, Function.update_of_ne haddr]
      exact h.places addr
  · simp only [hnacks]
    exact (Function.forall_update_iff _ (fun addr (l : List Ack) => ∀ a ∈ l, a.d.dest = addr)).mpr
      ⟨List.forall_mem_cons.mpr ⟨rfl, h.addressed d.dest⟩, fun addr _ => h.addressed addr⟩
  · exact (Function.forall_update_iff _ (fun _ (l : List (Ack × ℕ)) =>
      ∀ x ∈ l, x.1.seq = UInt16.ofNat x.2)).mpr
        ⟨List.forall_mem_cons.mpr ⟨hnext, h.numbered d.dest⟩, fun addr _ => h.numbered addr⟩

theorem step_ack_nacks (hs : s.step (.ack ackR received source) = some t) :
    t.tables.nacks.seqNum = s.tables.nacks.seqNum ∧
      ∀ addr, (t.tables.nacks.nacksOf addr).Sublist (s.tables.nacks.nacksOf addr) := by
  have hack := s.tables.acknowledged_sublist ackR received source
  simp only [step] at hs
  split at hs <;>
  · cases hs
    exact ⟨(hack default).1, fun addr => (hack addr).2⟩

theorem Inv.ack (h : s.Inv) (hs : s.step (.ack ackR received source) = some t) : t.Inv := by
  obtain ⟨hseq, hsub⟩ := step_ack_nacks hs
  simp only [step] at hs
  cases h.ack_cases ackR received source with
  | unfound hnone hsame =>
    rw [hnone, hsame] at hs
    cases hs
    exact h
  | @accepted pop k nacks hpop hplace hsome hack hdest hk =>
    rw [hsome, hack] at hs
    cases hs
    refine ⟨placesAfter_of h hpop, ?_, hseq.trans h.seqNum, ?_, ?_⟩
    · exact fun addr a ha => h.addressed addr a ((hsub addr).subset ha)
    · exact fun addr x hx => h.numbered addr x ((placesAfter_sublist s pop ackR source addr).subset hx)
    · exact List.forall_mem_cons.mpr ⟨hk, h.logged⟩

theorem Inv.timeout (h : s.Inv) {now : Timeval} (hs : s.step (.timeout now) = some t) :
    t.Inv := by
  cases hs
  obtain ⟨hseq, -, hnacks⟩ :=
    resendTimeoutNacks_spec s.tables.nacks s.tables.queues s.tables.acks.getTimeoutValue now
  refine ⟨?_, ?_, hseq.trans h.seqNum, ?_, h.logged⟩
  · intro addr
    refine Eq.trans ?_ (hnacks addr).symm
    rw [← h.places addr, List.filter_map]
    rfl
  · intro addr a ha
    exact h.addressed addr a ((AckState.sweepTimeouts_sublist _ _ addr).2.subset ha)
  · exact fun addr x hx => h.numbered addr x (List.mem_filter.mp hx).1

theorem Inv.step (h : s.Inv) {a : AckCall} (hs : s.step a = some t) : t.Inv := by
  cases a with
  | append d sendtime sleeptime => exact h.append hs
  | ack ackR received source => exact h.ack hs
  | timeout now => exact h.timeout hs
  | drain =>
    cases hs
    exact ⟨h.places, h.addressed, h.seqNum, h.numbered, h.logged⟩
  | release =>
    cases hs
    exact ⟨h.places, h.addressed, h.seqNum, h.numbered, h.logged⟩
  | elsewhere queues cookies =>
    cases hs
    exact ⟨h.places, h.addressed, h.seqNum, h.numbered, h.logged⟩

theorem reaches_inv {ok : AckHistory → AckCall → Prop} (h : Reaches ackHistory ok s) : s.Inv := by
  apply h.invariant
  · rintro _ rfl
    exact inv_init
  · intro s a t hi _ hs
    exact hi.step hs

def ackOfSeq (seq : UInt16) : AckReceived := ⟨blkAck, seq, 5, 0, 0⟩

end AckHistory

end Bora
