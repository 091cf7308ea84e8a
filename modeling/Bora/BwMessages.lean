import Bora.Fragmentation
import Bora.SendQueues

/-! The bandwidth messages to other peers: `send_bwmsg` of bw_msgs.c and the Python call over it,
which walks over a list of addresses. -/
namespace Bora

open ByteMemory Checked

def sendBwmsg (q : SendQueues) (host : SockAddr) (bw : UInt32) : SendQueues :=
  (q.sendData ((encodeBw bw).setDest host)).1

/-- A Python object as far as the checks tell; an `int` is a C `long`. -/
inductive PyValue
  | int (v : Int64)
  | string (s : String)
  | other

/-- An element of the list: a dictionary with what is found under the three keys. -/
inductive PyItem
  | dict (ip port bw : Option PyValue)
  | other

inductive PyArgument
  | list (items : List PyItem)
  | other

inductive PyReturn
  | none
  | true
  | attributeError (text : String)
deriving DecidableEq

/-- Of what is no string `PyString_AsString` gives NULL, which `inet_pton` would read. -/
def PyValue.asString : PyValue → Except Fault String
  | .string s => .ok s
  | _ => .error (.read 0 1 0)

section Call

variable (inetPton : String → Option UInt32)

/-- The body of the loop over the list. Its last statement returns. -/
def sendBwItem (q : SendQueues) : PyItem → Except Fault (SendQueues × PyReturn)
  | .other => .ok (q, .attributeError "List has no-dict objects")
  | .dict (some ip) (some port) (some bw) => do
    let s ← ip.asString
    match inetPton s with
    | none => return (q, .attributeError "DEST IP: Not in presentation format")
    | some sin_addr =>
      match port with
      | .int port =>
        match bw with
        | .int bw =>
          let addr : SockAddr := ⟨sin_addr, htons (UInt16.ofInt port.toInt)⟩
          return (sendBwmsg q addr (UInt32.ofInt bw.toInt), .true)
        | _ => return (q, .attributeError "BW is not INT")
      | _ => return (q, .attributeError "PORT is not INT")
  | .dict _ _ _ => .ok (q, .attributeError "bad dict entries")

def sendBwItems (q : SendQueues) : List PyItem → Except Fault (SendQueues × PyReturn)
  | [] => .ok (q, .none)
  | dictCur::_ => sendBwItem inetPton q dictCur

/-- `send_bw_msg`; `death` and `sock` are the globals of the module. -/
def boraSendBwMsg (death sock : Bool) (q : SendQueues) (args : List PyArgument) :
    Except Fault (SendQueues × PyReturn) :=
  if death then .ok (q, .none)
  else if ¬ sock then .ok (q, .attributeError "Sock not open")
  else
    match args with
    | [.list items] => sendBwItems inetPton q items
    | [.other] => .ok (q, .attributeError "First argument is not a list")
    | _ => .ok (q, .attributeError "Wrong arguments")

/-- What the dictionary of a peer holds, with `addr` as the address that `ip` stands for. -/
structure BwTarget where
  ip : String
  addr : UInt32
  port : ℕ
  bw : ℕ
  ip_valid : inetPton ip = some addr
  port_pos : 1 ≤ port
  port_le : port ≤ 65535
  bw_lt : bw < 2 ^ 32

variable {inetPton}

namespace BwTarget

def item (t : BwTarget inetPton) : PyItem :=
  .dict (some (.string t.ip)) (some (.int (Int64.ofNat t.port))) (some (.int (Int64.ofNat t.bw)))

/-- A bandwidth packet to the peer that its receiver reads as `bw`. -/
structure SentAs (t : BwTarget inetPton) (d : SendData) : Prop where
  dest : d.dest = ⟨t.addr, htons (UInt16.ofNat t.port)⟩
  valid : validateBw d.data d.length = true
  decoded : (decodeBwmsg d.data d.length).map UInt32.toNat = some t.bw

def packet (t : BwTarget inetPton) : SendData :=
  (encodeBw (UInt32.ofNat t.bw)).setDest ⟨t.addr, htons (UInt16.ofNat t.port)⟩

end BwTarget

theorem ofInt_natCast32 (n : ℕ) : UInt32.ofInt (n : ℤ) = UInt32.ofNat n := by
  apply UInt32.toNat_inj.mp
  rw [UInt32.toNat_ofNat']
  simp [UInt32.ofInt]
  omega

theorem sendBwItem_target (q : SendQueues) (t : BwTarget inetPton) :
    sendBwItem inetPton q t.item = .ok ((q.sendData t.packet).1, .true) := by
  have hport : (Int64.ofNat t.port).toInt = t.port :=
    Int64.toInt_ofNat_of_lt (lt_of_le_of_lt t.port_le (by decide))
  have hbw : (Int64.ofNat t.bw).toInt = t.bw :=
    Int64.toInt_ofNat_of_lt (lt_trans t.bw_lt (by decide))
  simp only [BwTarget.item, sendBwItem, PyValue.asString, ok_bind, t.ip_valid, hport, hbw,
    ofInt_natCast16, ofInt_natCast32, pure_eq_ok]
  rfl

theorem validateBw_packet (bw : UInt32) : validateBw (encodeBw bw).data bwPacketSize = true := by
  simp [validateBw, encodeBw, ackPacket, byteAt]

theorem decodeBwmsg_packet (bw : UInt32) :
    decodeBwmsg (encodeBw bw).data bwPacketSize = some bw := by
  have hload : load32 (encodeBw bw).data 1 = htonl bw := by
    rw [encodeBw, load32_cons _ _ _ (by decide)]
    simpa using load32_store32 (htonl bw) []
  simp [decodeBwmsg, hload]

namespace BwTarget

variable (t : BwTarget inetPton)

theorem packet_length : t.packet.length = bwPacketSize := by
  simp [packet, SendData.length, encodeBw, bwPacketSize]

theorem packet_queue : queueOf t.packet = .prio := by
  have hflags : t.packet.flags = bwMsg := by simp [packet, SendData.flags, encodeBw, byteAt]
  rw [queueOf, hflags]
  decide

theorem packet_sentAs : t.SentAs t.packet where
  dest := rfl
  valid := by
    rw [packet_length]
    exact validateBw_packet _
  decoded := by
    rw [packet_length, show t.packet.data = (encodeBw (UInt32.ofNat t.bw)).data from rfl,
      decodeBwmsg_packet, Option.map_some, UInt32.toNat_ofNat', Nat.mod_eq_of_lt t.bw_lt]

end BwTarget

/-- The call queued one packet for each element, in their order, and nothing else. -/
def QueuedFor (q : SendQueues) (ts : List (BwTarget inetPton)) (q' : SendQueues) : Prop :=
  ∃ ds, List.Forall₂ BwTarget.SentAs ts ds ∧
    ∀ name, q'.queued name = q.queued name ++ if name = .prio then ds else []

variable {q : SendQueues}

theorem boraSendBwMsg_nil (q : SendQueues) :
    boraSendBwMsg inetPton false true q [.list []] = .ok (q, .none) := rfl

theorem boraSendBwMsg_cons (q : SendQueues) (t : BwTarget inetPton)
    (ts : List (BwTarget inetPton)) :
    boraSendBwMsg inetPton false true q [.list ((t :: ts).map BwTarget.item)] =
      .ok ((q.sendData t.packet).1, .true) := sendBwItem_target q t

theorem queuedFor_nil (q : SendQueues) : QueuedFor q ([] : List (BwTarget inetPton)) q :=
  ⟨[], .nil, fun name => by simp⟩

theorem queuedFor_single (hq : q.Valid) (hslot : 0 < q.qEmpty) (hroom : q.f .prio < nPrio)
    (t : BwTarget inetPton) : QueuedFor q [t] (q.sendData t.packet).1 := by
  obtain ⟨q', hsend, -, -, -, hqueued⟩ := q.sendData_room hq (d := t.packet) hslot (by
    rw [t.packet_queue]
    exact hroom)
  refine ⟨[t.packet], .cons t.packet_sentAs .nil, fun name => ?_⟩
  rw [hsend, hqueued name, t.packet_queue]

/-- One call of `send_data` does not queue two packets. -/
theorem not_queuedFor_two (hq : q.Valid) (t t' : BwTarget inetPton)
    (ts : List (BwTarget inetPton)) :
    ¬ QueuedFor q (t :: t' :: ts) (q.sendData t.packet).1 := by
  rintro ⟨ds, hsent, hqueued⟩
  have hlen := congrArg List.length (hqueued .prio)
  rw [(q.sendData_spec hq t.packet).2 .prio] at hlen
  simp only [if_true, List.length_append, ← hsent.length_eq, List.length_cons] at hlen
  split at hlen
  · simp only [List.length_singleton] at hlen
    omega
  · simp only [List.length_nil] at hlen
    omega

/-- With room in the priority queue, every element of the list gets its packet exactly if there
is at most one. -/
theorem boraSendBwMsg_all_iff (inetPton : String → Option UInt32) (q : SendQueues) (hq : q.Valid)
    (hslot : 0 < q.qEmpty) (hroom : q.f .prio < nPrio) (ts : List (BwTarget inetPton)) :
    (∃ q' ret, boraSendBwMsg inetPton false true q [.list (ts.map BwTarget.item)] =
        .ok (q', ret) ∧ QueuedFor q ts q') ↔
      ts.length ≤ 1 := by
  match ts with
  | [] => exact iff_of_true ⟨q, _, boraSendBwMsg_nil q, queuedFor_nil q⟩ (by simp)
  | [t] =>
    exact iff_of_true ⟨_, _, boraSendBwMsg_cons q t [], queuedFor_single hq hslot hroom t⟩
      (by simp)
  | t::t'::ts =>
    refine iff_of_false ?_ (by simp)
    rintro ⟨q', ret, hcall, hall⟩
    rw [boraSendBwMsg_cons] at hcall
    cases hcall
    exact not_queuedFor_two hq t t' ts hall

/-- Two addresses of the documentation range, as a little-endian machine holds them. -/
def twoHosts (s : String) : Option UInt32 :=
  if s = "192.0.2.1" then some 0x010200C0
  else if s = "192.0.2.2" then some 0x020200C0
  else none

def firstTarget : BwTarget twoHosts :=
  ⟨"192.0.2.1", 0x010200C0, 4000, 70000, by decide, by decide, by decide, by decide⟩

def secondTarget : BwTarget twoHosts :=
  ⟨"192.0.2.2", 0x020200C0, 4001, 80000, by decide, by decide, by decide, by decide⟩

theorem boraSendBwMsg_one :
    ∃ q' ret, boraSendBwMsg twoHosts false true .init [.list ([firstTarget].map BwTarget.item)] =
      .ok (q', ret) ∧ QueuedFor .init [firstTarget] q' :=
  (boraSendBwMsg_all_iff twoHosts .init SendQueues.valid_init (by decide) (by decide)
    [firstTarget]).mpr (by decide)

/-- Of two peers the second gets nothing, and the call returns True. -/
theorem boraSendBwMsg_two :
    ∃ q', boraSendBwMsg twoHosts false true .init
        [.list ([firstTarget, secondTarget].map BwTarget.item)] = .ok (q', .true) ∧
      q'.queued .prio = [firstTarget.packet] ∧
      ¬ QueuedFor .init [firstTarget, secondTarget] q' := by
  refine ⟨_, boraSendBwMsg_cons .init firstTarget [secondTarget], ?_,
    not_queuedFor_two SendQueues.valid_init firstTarget secondTarget []⟩
  rw [(SendQueues.init.sendData_spec SendQueues.valid_init firstTarget.packet).2 .prio]
  have hroom : (SendQueues.init.sendData firstTarget.packet).2 = true := by decide
  rw [hroom, firstTarget.packet_queue]
  rfl

end Call

end Bora
