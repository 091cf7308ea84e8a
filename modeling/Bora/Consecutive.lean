import Bora.DatagramLog

/-! The mark on the second of two packets sent to one host without a pause: in which runs a marked
datagram is a fragment that stands directly behind another of the same host. -/
namespace Bora

open ByteMemory Checked Transition

/-- A packet of `send_data`: it has a first byte, and the mark is not set there. -/
structure Unmarked (d : SendData) : Prop where
  pos : 0 < d.length
  mark : hasBit d.flags blockConsecutive = false

theorem resent_unmarked {d d' : SendData} (h : resent d = some d') : Unmarked d' := by
  obtain ⟨rfl, hbit⟩ := resent_eq h
  have hpos : 0 < d.length := by
    by_contra hlen
    have hnil : d.data = [] := List.eq_nil_of_length_eq_zero (Nat.eq_zero_of_not_pos hlen)
    rw [SendData.flags, hnil] at hbit
    exact absurd hbit (by decide)
  refine ⟨by rw [SendData.setFlags_length]; exact hpos, ?_⟩
  rw [SendData.setFlags_flags d _ hpos]
  exact flags_forall (P := fun f => hasBit (resentFlags f) blockConsecutive = false)
    (by decide +kernel) _

theorem Caller.packet_unmarked {c : Caller} {d : SendData} (h : c.packet = some d) :
    Unmarked d := by
  cases c with
  | sendblock block dest i =>
    simp only [packet] at h
    split at h
    · cases hd : sendPacket block dest i with
      | error e => simp [hd, Except.toOption] at h
      | ok d' =>
        rw [hd] at h
        obtain rfl : d' = d := Option.some.inj h
        obtain ⟨f, -, hdata, -⟩ := sendPacket_ok hd
        refine ⟨?_, by rw [sendPacket_flags hd]; decide⟩
        rw [SendData.length, hdata, fragmentPacket_length]
        unfold headerSize
        omega
    · cases h
  | sendRaw messageString host portNum =>
    have hdata := (sendRaw_some h).2
    have hflags : d.flags = blkEmpty := by rw [SendData.flags, hdata]; rfl
    refine ⟨?_, by rw [hflags]; decide⟩
    rw [SendData.length, hdata]
    exact Nat.succ_pos _
  | sendBwmsg host bw =>
    cases h
    exact ⟨Nat.succ_pos _, show hasBit bwMsg blockConsecutive = false by decide⟩
  | answer seq cons tv source =>
    cases h
    exact ⟨Nat.succ_pos _, show hasBit blkAck blockConsecutive = false by decide⟩
  | resend d' => exact resent_unmarked h

theorem bogusData_unmarked (addr : SockAddr) : Unmarked (bogusData addr) where
  pos := List.length_pos_of_ne_nil (List.cons_ne_nil _ _)
  mark := show hasBit (needAck ||| cookieMsg) blockConsecutive = false by decide

theorem sendD_flags {n n' : NackTable} {d w : SendData} {tEnd : Timeval} {bandwidth : UInt64}
    {z : Bool} {natPort : UInt16} (hpos : 0 < d.length)
    (h : sendD n d tEnd bandwidth z natPort = .ok (n', w)) :
    w.flags = (if z then d.flags ||| blockConsecutive else d.flags) ∧ w.dest = d.dest := by
  obtain ⟨hdata, hdest⟩ := sendD_image hpos h
  refine ⟨?_, hdest⟩
  rw [SendData.flags, hdata, List.append_assoc,
    byteAt_append _ (by rw [wireBody_length]; exact hpos), wireBody_first hpos]

namespace Sender

variable {s t : Sender} {P : SendData → Prop}

/-- Every packet that the callers and the thread have in hand or in a queue. -/
structure Packets (P : SendData → Prop) (s : Sender) : Prop where
  calls : ∀ d ∈ s.calls, P d
  queued : ∀ q, ∀ d ∈ s.queues.queued q, P d
  inHand : ∀ d source z, s.pc = .send d source z → P d

theorem packets_init : init.Packets P where
  calls := by simp [init]
  queued := by simp [init]
  inHand := by simp [init]

theorem Packets.sendData (h : s.Packets P) {d : SendData} (hd : P d)
    (hs : s.step (.sendData d) = some t) : t.Packets P := by
  simp only [step] at hs
  split at hs
  · cases hs
    exact h
  · rename_i queues hq
    cases hs
    refine ⟨List.forall_mem_cons.mpr ⟨hd, h.calls⟩, ?_, h.inHand⟩
    rw [SendQueues.queued_congr (SendQueues.reserve_some hq).1]
    exact h.queued

theorem Packets.insert (h : s.Packets P) (hv : s.queues.Valid) {k : ℕ}
    (hs : s.step (.insert k) = some t) : t.Packets P := by
  simp only [step] at hs
  split at hs
  · cases hs
  rename_i d hd
  have hcalls : ∀ x ∈ s.calls.eraseIdx k, P x :=
    fun x hx => h.calls x ((List.eraseIdx_sublist _ _).subset hx)
  split at hs
  · rename_i queues hq
    cases hs
    refine ⟨hcalls, ?_, h.inHand⟩
    intro q x hx
    rw [(SendQueues.enqueue_true hv hq).2.2.2.2 q] at hx
    rcases List.mem_append.mp hx with hx | hx
    · exact h.queued q x hx
    · split at hx
      · obtain rfl := List.mem_singleton.mp hx
        exact h.calls x (List.mem_of_getElem? hd)
      · cases hx
  · rename_i queues hq
    rw [SendQueues.enqueue_false hq] at hs
    cases hs
    exact ⟨hcalls, h.queued, h.inHand⟩

theorem Packets.post (h : s.Packets P) (hs : s.step .post = some t) : t.Packets P := by
  simp only [step] at hs
  split at hs
  · cases hs
  · cases hs
    exact ⟨h.calls, h.queued, h.inHand⟩

theorem Packets.cookies (h : s.Packets P) {a : CookieAction}
    (hs : s.step (.cookies a) = some t) : t.Packets P := by
  obtain ⟨r, -, rfl⟩ := Option.map_eq_some_iff.mp hs
  exact ⟨h.calls, h.queued, h.inHand⟩

theorem Packets.idle (h : s.Packets P) (hc : t.calls = s.calls)
    (hr : t.queues.ring = s.queues.ring) (hpc : ∀ d source z, t.pc ≠ .send d source z) :
    t.Packets P where
  calls := by rw [hc]; exact h.calls
  queued := by rw [SendQueues.queued_congr hr]; exact h.queued
  inHand d source z hd := absurd hd (hpc d source z)

theorem queued_take (hv : s.queues.Valid) {q : QueueName} (hf : 0 < s.queues.f q) (z : Bool) :
    s.queues.queued q = s.queues.front q :: (s.take q z).queues.queued q ∧
      ∀ q', q' ≠ q → (s.take q z).queues.queued q' = s.queues.queued q' := by
  obtain ⟨-, -, -, -, hself, hother⟩ := SendQueues.dequeue_spec hv hf
  exact ⟨hself, hother⟩

theorem Packets.take (h : s.Packets P) (hv : s.queues.Valid) {q : QueueName}
    (hf : 0 < s.queues.f q) (z : Bool) : (s.take q z).Packets P := by
  obtain ⟨hself, hother⟩ := queued_take hv hf z
  have hq := h.queued q
  rw [hself] at hq
  refine ⟨h.calls, ?_, ?_⟩
  · intro q' d hd
    by_cases hqq : q' = q
    · subst q'
      exact hq d (List.mem_cons_of_mem _ hd)
    · rw [hother q' hqq] at hd
      exact h.queued q' d hd
  · rintro d source z' ⟨⟩
    exact hq _ List.mem_cons_self

end Sender

theorem getCookieData_bogus {c c' : Cookies} {d : SendData}
    (h : c.getCookieData = some (d, c')) : ∃ addr, d = bogusData addr := by
  unfold Cookies.getCookieData at h
  split at h
  · cases h
    exact ⟨_, rfl⟩
  split at h
  · cases h
    exact ⟨_, rfl⟩
  · cases h

/-- The datagram that lets another to the same host follow without a pause: a fragment from the
data queue, sent, and not itself the second of a pair. -/
structure Attempt.Opens (y : Attempt) (host : SockAddr) : Prop where
  source : y.source = .queue .send
  fragment : hasBit y.datagram.flags blkBlock = true
  unmarked : hasBit y.datagram.flags blockConsecutive = false
  sent : y.sent = true
  dest : y.datagram.dest = host

/-- A fragment from the data queue whose predecessor opened the pair. -/
structure Attempt.Follows (x : Attempt) (earlier : List Attempt) : Prop where
  source : x.source = .queue .send
  fragment : hasBit x.datagram.flags blkBlock = true
  pair : ∃ y rest, earlier = y :: rest ∧ y.Opens x.datagram.dest

/-- Every marked datagram of the log closes a pair. -/
def Paired (log : List Attempt) : Prop :=
  ∀ later x earlier, log = later ++ x :: earlier →
    hasBit x.datagram.flags blockConsecutive = true → x.Follows earlier

theorem Paired.cons {log : List Attempt} (h : Paired log) {a : Attempt}
    (ha : hasBit a.datagram.flags blockConsecutive = true → a.Follows log) : Paired (a :: log) := by
  intro later x earlier hsplit hx
  rcases List.cons_eq_append_iff.mp hsplit with ⟨-, heq⟩ | ⟨later', -, heq⟩
  · obtain ⟨rfl, rfl⟩ := List.cons.inj heq
    exact ha hx
  · exact h later' x earlier heq hx

theorem hasBit_marked_fragment (f : UInt8) :
    hasBit (f ||| blockConsecutive) blkBlock = hasBit f blkBlock :=
  flags_forall (P := fun f => hasBit (f ||| blockConsecutive) blkBlock = hasBit f blkBlock)
    (by decide +kernel) f

namespace Emitter

variable {s t : Emitter}

def Opened (s : Emitter) (host : SockAddr) : Prop := ∃ y rest, s.log = y :: rest ∧ y.Opens host

/-- What the place of the thread says about the last attempt: `lasthost` is set only behind a
packet that opens a pair, and with `z` set the packet to be taken, or taken, closes it. -/
def Phase (s : Emitter) : Prop :=
  match s.sender.pc with
  | .look => ∀ host, s.sender.lasthost = some host → s.Opened host
  | .wait false => True
  | .wait true => ∃ d rest, s.sender.queues.queued .send = d :: rest ∧
      hasBit d.flags blkBlock = true ∧ s.Opened d.dest
  | .data true => ∃ d rest, s.sender.queues.queued .send = d :: rest ∧
      hasBit d.flags blkBlock = true ∧ s.Opened d.dest
  | .send d source true => source = .queue .send ∧ hasBit d.flags blkBlock = true ∧ s.Opened d.dest
  | .send d source false => s.sender.lasthost = none ∧
      (source = .cookie → hasBit d.flags blkBlock = false)
  | .underflow => True
  | .exited => True
  | _ => s.sender.lasthost = none

/-- At the head of the data queue the look-ahead for a host finds fragments only. -/
def headIsFragment (s : Emitter) : EmitterAction → Bool
  | .sender _ _ _ _ =>
    match s.sender.pc, s.sender.lasthost with
    | .look, some host =>
      !decide (0 < s.sender.queues.f .send ∧ (s.sender.queues.front .send).dest = host) ||
        hasBit (s.sender.queues.front .send).flags blkBlock
    | _, _ => true
  | _ => true

structure Inv (s : Emitter) : Prop where
  sender : s.sender.Inv
  packets : s.sender.Packets Unmarked
  phase : s.Phase
  pairs : Paired s.log

theorem inv_init : init.Inv where
  sender := Sender.inv_init
  packets := Sender.packets_init
  phase := by simp [Phase, init, Sender.init]
  pairs := by simp [Paired, init]

theorem Phase.frame (h : s.Phase) (hpc : t.sender.pc = s.sender.pc)
    (hlast : t.sender.lasthost = s.sender.lasthost) (hlog : t.log = s.log)
    (hq : ∀ d rest, s.sender.queues.queued .send = d :: rest →
      ∃ rest', t.sender.queues.queued .send = d :: rest') : t.Phase := by
  have hopened : t.Opened = s.Opened := by
    funext host
    simp only [Opened, hlog]
  unfold Phase at h ⊢
  rw [hpc, hlast, hopened]
  split at h
  · exact h
  · trivial
  · obtain ⟨d, rest, hd, hfrag, ho⟩ := h
    obtain ⟨rest', hrest'⟩ := hq d rest hd
    exact ⟨d, rest', hrest', hfrag, ho⟩
  · obtain ⟨d, rest, hd, hfrag, ho⟩ := h
    obtain ⟨rest', hrest'⟩ := hq d rest hd
    exact ⟨d, rest', hrest', hfrag, ho⟩
  · exact h
  · exact h
  · trivial
  · trivial
  · exact h

theorem Phase.callers (h : s.Phase) (hv : s.sender.queues.Valid) {a : SenderAction}
    (ha : ∀ sent, a ≠ .sender sent) {sender : Sender} (hs : s.sender.step a = some sender) :
    (s.setSender sender).Phase := by
  obtain ⟨hpc, hlast, hq⟩ := Sender.callers_frame hv ha hs
  refine h.frame hpc hlast rfl (fun d rest hd => ?_)
  obtain ⟨ds, hds⟩ := hq .send
  exact ⟨rest ++ ds, by rw [setSender_sender, hds, hd, List.cons_append]⟩

theorem Inv.take (h : s.Inv) {q : QueueName} (hf : 0 < s.sender.queues.f q) {z : Bool}
    (hinv : (s.sender.take q z).Inv)
    (hphase : (s.setSender (s.sender.take q z)).Phase) :
    (s.setSender (s.sender.take q z)).Inv :=
  ⟨hinv, h.packets.take h.sender.valid hf z, hphase, h.pairs⟩

/-- Up to the packet that it will send, the thread leaves the log as it is. -/
theorem inv_turn (h : s.Inv) {sent : Bool} {tEnd : Timeval} {bandwidth : UInt64}
    {natPort : UInt16} (hok : s.headIsFragment (.sender sent tEnd bandwidth natPort) = true)
    (hpc : ∀ d source z, s.sender.pc ≠ .send d source z) {sender : Sender}
    (hs : s.sender.senderStep sent = some sender) : (s.setSender sender).Inv := by
  have hinv : sender.Inv := Sender.inv_sender h.sender hs
  have hphase := h.phase
  unfold Phase at hphase
  unfold Sender.senderStep at hs
  cases hp : s.sender.pc with
  | look =>
    simp only [hp] at hs hphase
    split at hs
    · cases hs
      exact ⟨hinv, h.packets.idle rfl rfl (by simp), trivial, h.pairs⟩
    rename_i host hlast
    split at hs
    · rename_i hhead
      cases hs
      have hfront := (Sender.queued_take h.sender.valid hhead.1 true).1
      have hfrag : hasBit (s.sender.queues.front .send).flags blkBlock = true := by
        simpa [headIsFragment, hp, hlast, hhead] using hok
      refine ⟨hinv, h.packets.idle rfl rfl (by simp), ?_, h.pairs⟩
      refine ⟨_, _, hfront, hfrag, ?_⟩
      rw [hhead.2]
      exact hphase host hlast
    · cases hs
      exact ⟨hinv, h.packets.idle rfl rfl (by simp), trivial, h.pairs⟩
  | wait z =>
    simp only [hp] at hs hphase
    split at hs
    · cases hs
    cases z with
    | true =>
      cases hs
      exact ⟨hinv, h.packets.idle rfl rfl (by simp), hphase, h.pairs⟩
    | false =>
      cases hs
      exact ⟨hinv, h.packets.idle rfl rfl (by simp), rfl, h.pairs⟩
  | cookie =>
    simp only [hp] at hs hphase
    split at hs
    · cases hs
      exact ⟨hinv, h.packets.idle rfl rfl (by simp), hphase, h.pairs⟩
    · cases hs
      exact ⟨hinv, h.packets.idle rfl rfl (by simp), hphase, h.pairs⟩
  | getCookie =>
    simp only [hp] at hs hphase
    split at hs
    · cases hs
      exact ⟨hinv, h.packets.idle rfl rfl (by simp), trivial, h.pairs⟩
    · rename_i d c hget
      cases hs
      obtain ⟨addr, rfl⟩ := getCookieData_bogus hget
      refine ⟨hinv, ⟨h.packets.calls, h.packets.queued, ?_⟩, ⟨hphase, fun _ => ?_⟩, h.pairs⟩
      · rintro d source z ⟨⟩
        exact bogusData_unmarked addr
      · show hasBit (needAck ||| cookieMsg) blkBlock = false
        decide
  | prio =>
    simp only [hp] at hs hphase
    split at hs
    · rename_i hf
      cases hs
      exact h.take hf hinv ⟨hphase, by simp⟩
    · cases hs
      exact ⟨hinv, h.packets.idle rfl rfl (by simp), hphase, h.pairs⟩
  | retr =>
    simp only [hp] at hs hphase
    split at hs
    · rename_i hf
      cases hs
      exact h.take hf hinv ⟨hphase, by simp⟩
    · cases hs
      exact ⟨hinv, h.packets.idle rfl rfl (by simp), hphase, h.pairs⟩
  | data z =>
    simp only [hp] at hs hphase
    split at hs
    · rename_i hf
      cases hs
      cases z with
      | true =>
        obtain ⟨d, rest, hd, hfrag, ho⟩ := hphase
        obtain ⟨rfl, -⟩ :=
          List.cons.inj (hd.symm.trans (Sender.queued_take h.sender.valid hf true).1)
        exact h.take hf hinv ⟨rfl, hfrag, ho⟩
      | false => exact h.take hf hinv ⟨hphase, by simp⟩
    · cases hs
      exact ⟨hinv, h.packets.idle rfl rfl (by simp), trivial, h.pairs⟩
  | send d source z => exact absurd hp (hpc d source z)
  | underflow => simp [hp] at hs
  | exited => simp [hp] at hs

theorem inv_attempt (h : s.Inv) {sent : Bool} {tEnd : Timeval} {bandwidth : UInt64}
    {natPort : UInt16} {d w : SendData} {source : PacketSource} {z : Bool} {nacks : NackTable}
    (hpc : s.sender.pc = .send d source z)
    (hsend : sendD s.nacks d tEnd bandwidth z natPort = .ok (nacks, w)) {sender : Sender}
    (hs : s.sender.senderStep sent = some sender) :
    Inv ⟨sender, nacks, ⟨d, source, z, w, sent⟩ :: s.log⟩ := by
  have hinv : sender.Inv := Sender.inv_sender h.sender hs
  have hphase := h.phase
  obtain ⟨hpos, hmark⟩ := h.packets.inHand d source z hpc
  obtain ⟨hflags, hdest⟩ := sendD_flags hpos hsend
  unfold Phase at hphase
  simp only [Sender.senderStep, hpc] at hs hphase
  cases hs
  cases z with
  | true =>
    obtain ⟨rfl, hfrag, y, rest, hlog, ho⟩ := hphase
    refine ⟨hinv, h.packets.idle rfl rfl (by simp), trivial, h.pairs.cons (fun _ => ?_)⟩
    rw [if_pos rfl] at hflags
    exact ⟨rfl, by rw [hflags, hasBit_marked_fragment]; exact hfrag, y, rest, hlog,
      by rw [hdest]; exact ho⟩
  | false =>
    rw [if_neg Bool.false_ne_true] at hflags
    obtain ⟨hlast, hcookie⟩ := hphase
    refine ⟨hinv, h.packets.idle rfl rfl (by simp), ?_, h.pairs.cons (fun hx => ?_)⟩
    · intro host hhost
      simp only [Sender.nextLasthost, hlast] at hhost
      split at hhost
      · cases hhost
      rename_i hdone
      obtain ⟨hsent, hqueue⟩ := not_or.mp hdone
      obtain ⟨hprio, hretr⟩ := not_or.mp hqueue
      split at hhost
      · contradiction
      split at hhost
      · rename_i hfrag
        obtain rfl := Option.some.inj hhost
        have hsource : source = .queue .send := by
          cases source with
          | cookie => exact absurd hfrag (by rw [hcookie rfl]; decide)
          | queue q =>
            cases q with
            | prio => exact absurd rfl hprio
            | retr => exact absurd rfl hretr
            | send => rfl
        exact ⟨_, s.log, rfl, hsource, by rw [hflags]; exact hfrag, by rw [hflags]; exact hmark,
          by simpa using hsent, hdest⟩
      · cases hhost
    · rw [hflags, hmark] at hx
      cases hx

theorem Inv.step (h : s.Inv) {a : EmitterAction} (hok : s.headIsFragment a = true)
    (hs : s.step a = some t) : t.Inv := by
  cases a with
  | call c =>
    obtain ⟨d, hd, hs⟩ := Option.bind_eq_some_iff.mp hs
    obtain ⟨sender, hsender, rfl⟩ := Option.map_eq_some_iff.mp hs
    exact ⟨Sender.inv_step h.sender hsender,
      h.packets.sendData (Caller.packet_unmarked hd) hsender,
      h.phase.callers h.sender.valid (by simp) hsender, h.pairs⟩
  | insert k =>
    obtain ⟨sender, hsender, rfl⟩ := Option.map_eq_some_iff.mp hs
    exact ⟨Sender.inv_step h.sender hsender, h.packets.insert h.sender.valid hsender,
      h.phase.callers h.sender.valid (by simp) hsender, h.pairs⟩
  | post =>
    obtain ⟨sender, hsender, rfl⟩ := Option.map_eq_some_iff.mp hs
    exact ⟨Sender.inv_step h.sender hsender, h.packets.post hsender,
      h.phase.callers h.sender.valid (by simp) hsender, h.pairs⟩
  | cookies a =>
    obtain ⟨sender, hsender, rfl⟩ := Option.map_eq_some_iff.mp hs
    exact ⟨Sender.inv_step h.sender hsender, h.packets.cookies hsender,
      h.phase.callers h.sender.valid (by simp) hsender, h.pairs⟩
  | others nacks =>
    cases hs
    exact ⟨h.sender, h.packets, h.phase.frame rfl rfl rfl (fun d rest hd => ⟨rest, hd⟩), h.pairs⟩
  | sender sent tEnd bandwidth natPort =>
    simp only [Emitter.step] at hs
    split at hs
    · rename_i d source z hpc
      split at hs
      · cases hs
      rename_i nacks w hsend
      obtain ⟨sender, hsender, rfl⟩ := Option.map_eq_some_iff.mp hs
      exact inv_attempt h hpc hsend hsender
    · rename_i hpc
      obtain ⟨sender, hsender, rfl⟩ := Option.map_eq_some_iff.mp hs
      exact inv_turn h hok hpc hsender

end Emitter

/-- In every run in which the look-ahead for the host just served finds at the head of the data
queue only fragments: a marked datagram is a fragment from the data queue, and the attempt right
before it sent an unmarked fragment from the data queue to the same address and port. -/
theorem consecutive_pairs {s : Emitter}
    (h : Reaches emitter (fun s a => s.headIsFragment a = true) s) : Paired s.log := by
  have hinv : s.Inv := by
    apply h.invariant
    · rintro _ rfl
      exact Emitter.inv_init
    · intro s a t hi hok hs
      exact hi.step hok hs
  exact hinv.pairs

def queuedCall (c : Caller) : List EmitterAction := [.call c, .insert 0, .post]

/-- Seven steps of the thread for a packet of the data queue, and four for the second of a pair. -/
def twoSends : List EmitterAction := List.replicate 11 (.sender true ⟨1, 0⟩ 1000000 0)

theorem consecutive_pairs_two :
    ∃ s, emitter.runIf (fun s a => s.headIsFragment a = true) Emitter.init
        (queuedCall (.sendblock (contentBlock ⟨1, 1⟩ [7]) ⟨2, 1⟩ 0) ++
          queuedCall (.sendblock (contentBlock ⟨1, 1⟩ [7]) ⟨2, 1⟩ 0) ++ twoSends) = some s ∧
      s.log.map (fun x => x.datagram.flags) = [0x85, 0x81] ∧ Paired s.log := by
  have hrun : (emitter.runIf (fun s a => s.headIsFragment a = true) Emitter.init
      (queuedCall (.sendblock (contentBlock ⟨1, 1⟩ [7]) ⟨2, 1⟩ 0) ++
        queuedCall (.sendblock (contentBlock ⟨1, 1⟩ [7]) ⟨2, 1⟩ 0) ++ twoSends)).map
      (fun s => s.log.map (fun x => x.datagram.flags)) = some [0x85, 0x81] := by
    decide +kernel
  obtain ⟨s, hs, hlog⟩ := Option.map_eq_some_iff.mp hrun
  have hinit : Reaches emitter (fun s a => s.headIsFragment a = true) Emitter.init := .init rfl
  exact ⟨s, hs, hlog, consecutive_pairs (hinit.runIf hs)⟩

def fragmentThenRaw : List EmitterAction :=
  queuedCall (.sendblock (contentBlock ⟨1, 1⟩ [7]) ⟨2, htons 1⟩ 0) ++
    queuedCall (.sendRaw [7, 8, 9] (some 2) 1) ++ twoSends

/-- The look-ahead compares the address only: the raw message goes out marked, and it is no
fragment. -/
theorem raw_marked :
    ∃ s, Reachable emitter s ∧ ¬ Paired s.log ∧
      s.log.map (fun x => (x.packet.data, x.datagram.data, x.sent)) =
        [([0, 7, 8, 9], [4, 7, 8, 9, 0, 0], true),
          ([0x81, 0, 1, 0, 0, 0, 1, 0, 0, 0, 1, 0, 1, 7],
            [0x81, 0, 1, 0, 0, 0, 1, 0, 0, 0, 1, 0, 1, 7, 1, 0, 0, 0], true)] := by
  have hrun : (emitter.runIf (fun _ _ => True) Emitter.init fragmentThenRaw).map
      (fun s => s.log.map (fun x => (x.packet.data, x.datagram.data, x.sent))) =
        some [([0, 7, 8, 9], [4, 7, 8, 9, 0, 0], true),
          ([0x81, 0, 1, 0, 0, 0, 1, 0, 0, 0, 1, 0, 1, 7],
            [0x81, 0, 1, 0, 0, 0, 1, 0, 0, 0, 1, 0, 1, 7, 1, 0, 0, 0], true)] := by
    decide +kernel
  obtain ⟨s, hs, hlog⟩ := Option.map_eq_some_iff.mp hrun
  have hinit : Reachable emitter Emitter.init := .init rfl
  refine ⟨s, hinit.runIf hs, ?_, hlog⟩
  obtain ⟨x, earlier, hx, hfields, -⟩ := List.map_eq_cons_iff.mp hlog
  have hflags : x.datagram.flags = 4 := by
    rw [SendData.flags, (Prod.mk.inj (Prod.mk.inj hfields).2).1]
    rfl
  intro hpaired
  have hfollows := hpaired [] x earlier hx (by rw [hflags]; decide)
  exact absurd hfollows.fragment (by rw [hflags]; decide)

end Bora
