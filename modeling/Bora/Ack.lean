import Bora.NetEncoder
import Bora.SendQueues
import Bora.Library.Checked
import Bora.Library.FirstMatch
import Mathlib.Data.List.Nodup

/-! The packets that wait for an acknowledgement, of ack.c: for each peer the list of what
was sent to it, the cookie that numbers a packet, and the sweeps that drop or resend. -/
namespace Bora

open ByteMemory Checked FirstMatch

def ackSize : ℕ := 2

structure Ack where
  seq : UInt16
  sendtime : Timeval
  sleeptime : UInt32
  d : SendData
deriving DecidableEq

/-- `Nack_peer`; the latest packet stands first. -/
structure NackPeer where
  addr : SockAddr
  nacks : List Ack

/-- `nacklist` and `seq_num`; a peer is inserted only when it is not found. -/
structure NackTable where
  nacklist : List NackPeer
  seqNum : UInt16
  distinct : (nacklist.map NackPeer.addr).Nodup

namespace NackTable

def init : NackTable := ⟨[], 0, List.nodup_nil⟩

def findByHost (n : NackTable) (addr : SockAddr) : Option NackPeer :=
  n.nacklist.find? (fun p => p.addr = addr)

def modifyNacks (n : NackTable) (addr : SockAddr) (g : List Ack → List Ack) : NackTable where
  nacklist :=
    FirstMatch.modify (fun p => p.addr = addr) (fun p => { p with nacks := g p.nacks }) n.nacklist
  seqNum := n.seqNum
  distinct := by
    rw [FirstMatch.map_modify NackPeer.addr (fun p _ => show { p with nacks := g p.nacks }.addr =
      p.addr from rfl)]
    exact n.distinct

theorem not_mem_of_findByHost {n : NackTable} {addr : SockAddr} (h : n.findByHost addr = none) :
    addr ∉ n.nacklist.map NackPeer.addr := by
  intro hmem
  obtain ⟨p, hp, haddr⟩ := List.mem_map.mp hmem
  have hno := List.find?_eq_none.mp h p hp
  exact hno (by simpa using haddr)

def ensurePeer (n : NackTable) (addr : SockAddr) : NackTable :=
  match h : n.findByHost addr with
  | none =>
    { n with nacklist := ⟨addr, []⟩ :: n.nacklist,
             distinct := List.nodup_cons.mpr ⟨not_mem_of_findByHost h, n.distinct⟩ }
  | some _ => n

/-- What was sent to `addr` and waits for an acknowledgement, latest first. -/
def nacksOf (n : NackTable) (addr : SockAddr) : List Ack :=
  match n.findByHost addr with
  | none => []
  | some peer => peer.nacks

end NackTable

/-- Record the packet as it is, then put its number behind it. -/
def appendAck (n : NackTable) (d : SendData) (sendtime : Timeval) (sleeptime : UInt32) :
    Except Fault (NackTable × SendData) := do
  let seqNum := n.seqNum + 1
  let n := { n with seqNum := seqNum }.ensurePeer d.dest
  let n := n.modifyNacks d.dest (⟨seqNum, sendtime, sleeptime, d⟩ :: ·)
  let d ← d.append (store16 seqNum)
  return (n, d)

def popAck (n : NackTable) (seq : UInt16) (source : SockAddr) : NackTable × Option Ack :=
  match n.findByHost source with
  | none => (n, none)
  | some peer =>
    match peer.nacks.find? (fun a => a.seq = seq) with
    | none => (n, none)
    | some ret => (n.modifyNacks source (List.eraseP (fun a => a.seq = seq)), some ret)

def stripAck (fragment : Bytes) (fsize : ℕ) : UInt16 := load16 fragment (subSize fsize 2)

/-- The loop over one peer's list: what is selected is acted on and leaves the list; the
count is the return value. -/
def sweepLoop {σ : Type} (sel : Ack → Bool) (act : σ → Ack → σ) : σ → List Ack → σ × List Ack × ℕ
  | st, [] => (st, [], 0)
  | st, cur::rest =>
    if sel cur then
      let (st, kept, ret) := sweepLoop sel act (act st cur) rest
      (st, kept, ret + 1)
    else
      let (st, kept, ret) := sweepLoop sel act st rest
      (st, cur :: kept, ret)

def sweepPeer {σ : Type} (n : NackTable) (st : σ) (addr : SockAddr) (sel : Ack → Bool)
    (act : σ → Ack → σ) : NackTable × σ × ℕ :=
  match n.findByHost addr with
  | none => (n, st, 0)
  | some peer =>
    let (st, kept, ret) := sweepLoop sel act st peer.nacks
    (n.modifyNacks addr (fun _ => kept), st, ret)

def sentBefore (ack cur : Ack) : Bool := timerLt cur.sendtime ack.sendtime

/-- The fragments that the acknowledged one, with the `cons` held in front of it, covers. -/
def covered (ack : Ack) (cons : UInt16) (cur : Ack) : Bool :=
  let ackContent := getFragmentId ack.d.data ack.d.length
  let content := getFragmentId cur.d.data cur.d.length
  sentBefore ack cur && content.streamid == ackContent.streamid &&
    content.blockid == ackContent.blockid && decide (content.fragmentid < ackContent.fragmentid) &&
    decide (ackContent.fragmentid.toNat - content.fragmentid.toNat ≤ cons.toNat)

def removeOooNacks (n : NackTable) (ack : Ack) : NackTable × ℕ :=
  let (n, _, ret) := sweepPeer n () ack.d.dest (sentBefore ack) (fun _ _ => ())
  (n, ret)

/-- The return value is never counted up. -/
def removeLostAcks (n : NackTable) (ack : Ack) (cons : UInt16) : NackTable × ℕ :=
  let (n, _, _) := sweepPeer n () ack.d.dest (covered ack cons) (fun _ _ => ())
  (n, 0)

def resent (d : SendData) : Option SendData :=
  let flags := d.flags &&& blockMaskConsecutive
  if hasBit flags blkBlockAck then some (d.setFlags (flags ||| blockRetransmission)) else none

def resendNack (q : SendQueues) (cur : Ack) : SendQueues :=
  match resent cur.d with
  | none => q
  | some d => (q.sendData d).1

def resendOooNacks (n : NackTable) (q : SendQueues) (ack : Ack) : NackTable × SendQueues × ℕ :=
  sweepPeer n q ack.d.dest (sentBefore ack) resendNack

/-- `now_usec > time_to_usec(cur->sendtime) + timeout`, in 64 bits. -/
def timedOut (nowUsec timeout : UInt64) (cur : Ack) : Bool :=
  nowUsec > timeToUsec cur.sendtime + timeout

theorem timedOut_iff_of_lt {nowUsec timeout : UInt64} {cur : Ack}
    (h : (timeToUsec cur.sendtime).toNat + timeout.toNat < 2 ^ 64) :
    timedOut nowUsec timeout cur = true ↔
      (timeToUsec cur.sendtime).toNat + timeout.toNat < nowUsec.toNat := by
  rw [timedOut, decide_eq_true_iff, gt_iff_lt, UInt64.lt_iff_toNat_lt, UInt64.toNat_add,
    Nat.mod_eq_of_lt h]

def resendTimeoutLoop (timeout : SockAddr → UInt64) (nowUsec : UInt64) :
    SendQueues → List NackPeer → SendQueues × List NackPeer × ℕ
  | q, [] => (q, [], 0)
  | q, peer::rest =>
    let (q, kept, ret) := sweepLoop (timedOut nowUsec (timeout peer.addr)) resendNack q peer.nacks
    let (q, peers, ret') := resendTimeoutLoop timeout nowUsec q rest
    (q, { peer with nacks := kept } :: peers, ret + ret')

theorem resendTimeoutLoop_addrs (timeout : SockAddr → UInt64) (nowUsec : UInt64) (q : SendQueues)
    (peers : List NackPeer) :
    (resendTimeoutLoop timeout nowUsec q peers).2.1.map NackPeer.addr =
      peers.map NackPeer.addr := by
  induction peers generalizing q with
  | nil => rfl
  | cons peer rest ih => simp only [resendTimeoutLoop, List.map_cons, ih]

/-- `timeout` is `get_timeout_value`. -/
def resendTimeoutNacks (n : NackTable) (q : SendQueues) (timeout : SockAddr → UInt64)
    (now : Timeval) : NackTable × SendQueues × ℕ :=
  let r := resendTimeoutLoop timeout (timeToUsec now) q n.nacklist
  ({ n with nacklist := r.2.1,
            distinct := by
              rw [resendTimeoutLoop_addrs]
              exact n.distinct }, r.1, r.2.2)

namespace NackTable

variable {n : NackTable} {addr : SockAddr}

theorem nacksOf_of_mem {p : NackPeer} (h : p ∈ n.nacklist) : n.nacksOf p.addr = p.nacks := by
  cases hfind : n.findByHost p.addr with
  | none => exact absurd (List.mem_map_of_mem h) (not_mem_of_findByHost hfind)
  | some q =>
    have haddr : q.addr = p.addr := by simpa using List.find?_some hfind
    have hq : q ∈ n.nacklist := List.mem_of_find?_eq_some hfind
    have hqp : q = p := List.inj_on_of_nodup_map n.distinct hq h haddr
    simp only [nacksOf, hfind, hqp]

theorem flatMap_peer {f : NackPeer → List Ack} {g : List Ack → List Ack} (hg : g [] = [])
    (hother : ∀ p ∈ n.nacklist, p.addr ≠ addr → f p = [])
    (hself : ∀ p ∈ n.nacklist, p.addr = addr → f p = g p.nacks) :
    n.nacklist.flatMap f = g (n.nacksOf addr) := by
  cases hfind : n.findByHost addr with
  | none =>
    have hnil : n.nacksOf addr = [] := by
      rw [nacksOf, hfind]
    rw [hnil, hg, List.flatMap_eq_nil_iff]
    intro p hp
    refine hother p hp (fun haddr => ?_)
    exact not_mem_of_findByHost hfind (List.mem_map.mpr ⟨p, hp, haddr⟩)
  | some p =>
    have haddr : p.addr = addr := by simpa using List.find?_some hfind
    have hmem : p ∈ n.nacklist := List.mem_of_find?_eq_some hfind
    rw [flatMap_key n.distinct hfind hother, hself p hmem haddr, ← haddr, nacksOf_of_mem hmem]

theorem nacksOf_modifyNacks {g : List Ack → List Ack}
    (hg : n.findByHost addr = none → g [] = []) :
    (n.modifyNacks addr g).nacksOf = Function.update n.nacksOf addr (g (n.nacksOf addr)) := by
  funext a
  by_cases ha : a = addr
  · subst a
    have hfind : (n.modifyNacks addr g).findByHost addr =
        (n.findByHost addr).map (fun p => { p with nacks := g p.nacks }) :=
      FirstMatch.find?_modify_same (by simp) n.nacklist
    rw [Function.update_self, nacksOf, nacksOf, hfind]
    cases hpeer : n.findByHost addr with
    | none => exact (hg hpeer).symm
    | some p => rfl
  · have hfind : (n.modifyNacks addr g).findByHost a = n.findByHost a := by
      apply FirstMatch.find?_modify_other
      intro p _ hp
      have haddr : p.addr = addr := by simpa using hp
      simp [haddr, Ne.symm ha]
    rw [Function.update_of_ne ha, nacksOf, nacksOf, hfind]

theorem nacksOf_ensurePeer (n : NackTable) (addr : SockAddr) :
    (n.ensurePeer addr).nacksOf = n.nacksOf := by
  funext a
  unfold ensurePeer
  split
  · rename_i hnone
    by_cases ha : addr = a
    · subst a
      have hnil : n.nacksOf addr = [] := by simp only [nacksOf, hnone]
      rw [hnil]
      simp [nacksOf, findByHost]
    · simp [nacksOf, findByHost, ha]
  · rfl

theorem ensurePeer_find (n : NackTable) (addr : SockAddr) :
    (n.ensurePeer addr).findByHost addr ≠ none := by
  unfold ensurePeer
  split
  · simp [findByHost]
  · rename_i hp
    simp [hp]

theorem ensurePeer_seqNum (n : NackTable) (addr : SockAddr) :
    (n.ensurePeer addr).seqNum = n.seqNum := by
  unfold ensurePeer
  split <;> rfl

theorem modifyNacks_congr {p : NackPeer} {g g' : List Ack → List Ack}
    (h : n.findByHost addr = some p) (hg : g p.nacks = g' p.nacks) :
    n.modifyNacks addr g = n.modifyNacks addr g' := by
  simp only [modifyNacks, mk.injEq, and_true]
  exact FirstMatch.modify_congr h (by rw [hg])

def selected (n : NackTable) (addr : SockAddr) (sel : Ack → Bool) : List Ack :=
  (n.nacksOf addr).filter sel

def unselected (n : NackTable) (addr : SockAddr) (sel : Ack → Bool) : NackTable :=
  n.modifyNacks addr (List.filter (fun a => !sel a))

theorem nacksOf_unselected (n : NackTable) (addr : SockAddr) (sel : Ack → Bool) :
    (n.unselected addr sel).nacksOf =
      Function.update n.nacksOf addr ((n.nacksOf addr).filter (fun a => !sel a)) :=
  nacksOf_modifyNacks (fun _ => rfl)

theorem mem_unselected {sel : Ack → Bool} :
    ∀ addr', ∀ a ∈ (n.unselected addr sel).nacksOf addr', a ∈ n.nacksOf addr' := by
  rw [nacksOf_unselected]
  exact (Function.forall_update_iff _ (fun addr' l => ∀ a ∈ l, a ∈ n.nacksOf addr')).mpr
    ⟨fun _ ha => (List.mem_filter.mp ha).1, fun _ _ _ ha => ha⟩

theorem unselected_or_selected {sel : Ack → Bool} {a : Ack} {addr' : SockAddr}
    (h : a ∈ n.nacksOf addr') :
    a ∈ (n.unselected addr sel).nacksOf addr' ∨ addr' = addr ∧ a ∈ n.selected addr sel := by
  rw [nacksOf_unselected]
  by_cases haddr : addr' = addr
  · subst addr'
    rw [Function.update_self]
    cases hsel : sel a with
    | true => exact Or.inr ⟨rfl, List.mem_filter.mpr ⟨h, hsel⟩⟩
    | false => exact Or.inl (List.mem_filter.mpr ⟨h, by simp [hsel]⟩)
  · rw [Function.update_of_ne haddr]
    exact Or.inl h

end NackTable

theorem appendAck_ok {n n' : NackTable} {d d' : SendData} {sendtime : Timeval}
    {sleeptime : UInt32} (h : appendAck n d sendtime sleeptime = .ok (n', d')) :
    n'.seqNum = n.seqNum + 1 ∧ d'.data = d.data ++ store16 n'.seqNum ∧ d'.dest = d.dest ∧
      n'.nacksOf = Function.update n.nacksOf d.dest
        (⟨n'.seqNum, sendtime, sleeptime, d⟩ :: n.nacksOf d.dest) := by
  obtain ⟨d₁, hd, h⟩ := bind_eq_ok.mp h
  obtain ⟨hdata, hdest⟩ := SendData.append_ok hd
  cases h
  have hseq : (({ n with seqNum := n.seqNum + 1 }.ensurePeer d.dest).modifyNacks d.dest
      (⟨n.seqNum + 1, sendtime, sleeptime, d⟩ :: ·)).seqNum = n.seqNum + 1 :=
    NackTable.ensurePeer_seqNum _ _
  refine ⟨hseq, by rw [hdata, hseq], hdest, ?_⟩
  rw [hseq, NackTable.nacksOf_modifyNacks (fun hnone => absurd hnone (NackTable.ensurePeer_find _ _)),
    NackTable.nacksOf_ensurePeer]
  rfl

/-- A popped entry is the latest with its number at the peer it was sent to; nothing else
leaves. -/
theorem popAck_some {n n' : NackTable} {seq : UInt16} {source : SockAddr} {a : Ack}
    (h : popAck n seq source = (n', some a)) :
    (n.nacksOf source).find? (fun a => a.seq = seq) = some a ∧ n'.seqNum = n.seqNum ∧
      n'.nacksOf = Function.update n.nacksOf source
        ((n.nacksOf source).eraseP (fun a => a.seq = seq)) := by
  unfold popAck at h
  split at h
  · cases h
  · rename_i p hp
    split at h
    · cases h
    · rename_i ret hret
      cases h
      have hnacks : n.nacksOf source = p.nacks := by simp only [NackTable.nacksOf, hp]
      exact ⟨by rw [hnacks]; exact hret, rfl, NackTable.nacksOf_modifyNacks (fun _ => rfl)⟩

theorem popAck_find (n : NackTable) (seq : UInt16) (source : SockAddr) :
    (popAck n seq source).2 = (n.nacksOf source).find? (fun a => a.seq = seq) := by
  unfold popAck NackTable.nacksOf
  cases n.findByHost source with
  | none => rfl
  | some peer =>
    simp only
    cases peer.nacks.find? (fun a => a.seq = seq) with
    | none => rfl
    | some a => rfl

/-- The loop keeps what is not selected and acts on the rest in list order. -/
theorem sweepLoop_eq {σ : Type} (sel : Ack → Bool) (act : σ → Ack → σ) (st : σ) (nacks : List Ack) :
    sweepLoop sel act st nacks =
      ((nacks.filter sel).foldl act st, nacks.filter (fun a => !sel a),
        (nacks.filter sel).length) := by
  induction nacks generalizing st with
  | nil => rfl
  | cons cur rest ih => cases hsel : sel cur <;> simp [sweepLoop, hsel, ih]

theorem sweepPeer_eq {σ : Type} (n : NackTable) (st : σ) (addr : SockAddr) (sel : Ack → Bool)
    (act : σ → Ack → σ) :
    sweepPeer n st addr sel act =
      (n.unselected addr sel, (n.selected addr sel).foldl act st,
        (n.selected addr sel).length) := by
  unfold sweepPeer NackTable.selected NackTable.nacksOf NackTable.unselected
  split
  · rename_i h
    simp [NackTable.modifyNacks, FirstMatch.modify_of_find?_none _ h]
  · rename_i peer h
    have hmod : n.modifyNacks addr (fun _ => peer.nacks.filter (fun a => !sel a)) =
        n.modifyNacks addr (List.filter (fun a => !sel a)) := NackTable.modifyNacks_congr h rfl
    simp only [sweepLoop_eq, hmod]

theorem removeOooNacks_eq (n : NackTable) (ack : Ack) :
    removeOooNacks n ack =
      (n.unselected ack.d.dest (sentBefore ack), (n.selected ack.d.dest (sentBefore ack)).length) := by
  simp only [removeOooNacks, sweepPeer_eq]

theorem removeLostAcks_eq (n : NackTable) (ack : Ack) (cons : UInt16) :
    removeLostAcks n ack cons = (n.unselected ack.d.dest (covered ack cons), 0) := by
  simp only [removeLostAcks, sweepPeer_eq]

theorem resendOooNacks_eq (n : NackTable) (q : SendQueues) (ack : Ack) :
    resendOooNacks n q ack =
      (n.unselected ack.d.dest (sentBefore ack),
        (n.selected ack.d.dest (sentBefore ack)).foldl resendNack q,
        (n.selected ack.d.dest (sentBefore ack)).length) :=
  sweepPeer_eq n q ack.d.dest (sentBefore ack) resendNack

def NackTable.timedOutNacks (n : NackTable) (timeout : SockAddr → UInt64) (nowUsec : UInt64) :
    List Ack :=
  n.nacklist.flatMap (fun p => p.nacks.filter (timedOut nowUsec (timeout p.addr)))

theorem NackTable.mem_timedOutNacks {n : NackTable} {timeout : SockAddr → UInt64}
    {nowUsec : UInt64} {a : Ack} :
    a ∈ n.timedOutNacks timeout nowUsec ↔
      ∃ addr, a ∈ n.nacksOf addr ∧ timedOut nowUsec (timeout addr) a = true := by
  constructor
  · intro h
    obtain ⟨p, hp, ha⟩ := List.mem_flatMap.mp h
    obtain ⟨ha, hout⟩ := List.mem_filter.mp ha
    exact ⟨p.addr, by rwa [nacksOf_of_mem hp], hout⟩
  · rintro ⟨addr, ha, hout⟩
    unfold nacksOf at ha
    split at ha
    · simp at ha
    · rename_i p hfind
      have haddr : p.addr = addr := by simpa using List.find?_some hfind
      subst addr
      exact List.mem_flatMap.mpr
        ⟨p, List.mem_of_find?_eq_some hfind, List.mem_filter.mpr ⟨ha, hout⟩⟩

theorem resendTimeoutLoop_eq (timeout : SockAddr → UInt64) (nowUsec : UInt64) (q : SendQueues)
    (peers : List NackPeer) :
    resendTimeoutLoop timeout nowUsec q peers =
      ((peers.flatMap (fun p => p.nacks.filter (timedOut nowUsec (timeout p.addr)))).foldl
          resendNack q,
        peers.map (fun p => ⟨p.addr,
          p.nacks.filter (fun a => !timedOut nowUsec (timeout p.addr) a)⟩),
        (peers.flatMap (fun p => p.nacks.filter (timedOut nowUsec (timeout p.addr)))).length) := by
  induction peers generalizing q with
  | nil => rfl
  | cons peer rest ih =>
    simp only [resendTimeoutLoop, sweepLoop_eq, ih]
    simp

/-- Resending puts packets behind those of their queue, and nothing but what is resent. -/
theorem resends_spec {q : SendQueues} (hq : q.Valid) (nacks : List Ack) :
    (nacks.foldl resendNack q).Valid ∧
      (∀ name d, d ∈ q.queued name → d ∈ (nacks.foldl resendNack q).queued name) ∧
      ∀ name d, d ∈ (nacks.foldl resendNack q).queued name →
        d ∈ q.queued name ∨ ∃ a ∈ nacks, resent a.d = some d := by
  induction nacks generalizing q with
  | nil => exact ⟨hq, fun _ _ hd => hd, fun _ _ hd => Or.inl hd⟩
  | cons cur rest ih =>
    have hstep : (resendNack q cur).Valid ∧
        (∀ name d, d ∈ q.queued name → d ∈ (resendNack q cur).queued name) ∧
        ∀ name d, d ∈ (resendNack q cur).queued name →
          d ∈ q.queued name ∨ resent cur.d = some d := by
      unfold resendNack
      cases hr : resent cur.d with
      | none => exact ⟨hq, fun _ _ hd => hd, fun _ _ hd => Or.inl hd⟩
      | some x =>
        obtain ⟨hvalid, hqueued⟩ := SendQueues.sendData_spec hq x
        refine ⟨hvalid, ?_, ?_⟩
        · intro name d hd
          rw [hqueued]
          exact List.mem_append_left _ hd
        · intro name d hd
          rw [hqueued] at hd
          rcases List.mem_append.mp hd with hd | hd
          · exact Or.inl hd
          · split at hd
            · rw [List.mem_singleton.mp hd]
              exact Or.inr rfl
            · simp at hd
    obtain ⟨hvalid, hkept, hnew⟩ := hstep
    obtain ⟨hvalid', hkept', hnew'⟩ := ih hvalid
    refine ⟨hvalid', fun name d hd => hkept' name d (hkept name d hd), ?_⟩
    intro name d hd
    rcases hnew' name d hd with hd | ⟨a, ha, hr⟩
    · rcases hnew name d hd with hd | hr
      · exact Or.inl hd
      · exact Or.inr ⟨cur, List.mem_cons_self, hr⟩
    · exact Or.inr ⟨a, List.mem_cons_of_mem _ ha, hr⟩

def resendsAccepted : SendQueues → List Ack → Bool
  | _, [] => true
  | q, cur::rest =>
    (match resent cur.d with
      | none => true
      | some d => (q.sendData d).2) && resendsAccepted (resendNack q cur) rest

theorem resends_accepted {q : SendQueues} (hq : q.Valid) {nacks : List Ack}
    (h : resendsAccepted q nacks = true) {a : Ack} (ha : a ∈ nacks) {d : SendData}
    (hd : resent a.d = some d) : d ∈ (nacks.foldl resendNack q).queued (queueOf d) := by
  induction nacks generalizing q with
  | nil => simp at ha
  | cons cur rest ih =>
    simp only [resendsAccepted, Bool.and_eq_true] at h
    have hvalid : (resendNack q cur).Valid := (resends_spec hq [cur]).1
    rcases List.mem_cons.mp ha with rfl | ha
    · obtain ⟨-, hqueued⟩ := SendQueues.sendData_spec hq d
      have hfirst : d ∈ (resendNack q a).queued (queueOf d) := by
        simp only [hd] at h
        simp [resendNack, hd, hqueued, h.1]
      exact (resends_spec hvalid rest).2.1 _ _ hfirst
    · exact ih hvalid h.2 ha

/-- The timeout sweep resends what it selects and keeps the rest. -/
theorem resendTimeoutNacks_spec (n : NackTable) (q : SendQueues) (timeout : SockAddr → UInt64)
    (now : Timeval) :
    (resendTimeoutNacks n q timeout now).1.seqNum = n.seqNum ∧
      (resendTimeoutNacks n q timeout now).2.1 =
        (n.timedOutNacks timeout (timeToUsec now)).foldl resendNack q ∧
      ∀ addr, (resendTimeoutNacks n q timeout now).1.nacksOf addr =
        (n.nacksOf addr).filter (fun a => !timedOut (timeToUsec now) (timeout addr) a) := by
  refine ⟨rfl, by simp only [resendTimeoutNacks, resendTimeoutLoop_eq]; rfl, fun addr => ?_⟩
  have hfind : (resendTimeoutNacks n q timeout now).1.findByHost addr =
      (n.findByHost addr).map (fun p => ⟨p.addr,
        p.nacks.filter (fun a => !timedOut (timeToUsec now) (timeout p.addr) a)⟩) := by
    simp only [resendTimeoutNacks, resendTimeoutLoop_eq, NackTable.findByHost, List.find?_map]
    rfl
  rw [NackTable.nacksOf, NackTable.nacksOf, hfind]
  cases hpeer : n.findByHost addr with
  | none => rfl
  | some p =>
    have haddr : p.addr = addr := by simpa using List.find?_some hpeer
    simp only [Option.map_some, haddr]

end Bora
