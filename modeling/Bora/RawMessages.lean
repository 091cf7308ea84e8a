import Bora.Consecutive

/-! Raw messages from `send_raw` to the `block_completed` of the receiving node. -/
namespace Bora

open ByteMemory Checked Processing Transition

theorem sendD_raw {n n' : NackTable} {d w : SendData} {tEnd : Timeval} {bandwidth : UInt64}
    {natPort : UInt16} (hpos : 0 < d.length) (hf : d.flags = 0)
    (h : sendD n d tEnd bandwidth false natPort = .ok (n', w)) :
    w.data = d.data ∧ w.dest = d.dest := by
  obtain ⟨hdata, hdest⟩ := sendD_image hpos h
  have hask : hasBit d.flags needAck = false := by rw [hf]; decide
  have hfirst : byteAt (wireBody d false) 0 = 0 := hf
  refine ⟨?_, hdest⟩
  rw [hdata, hask, if_neg Bool.false_ne_true, if_pos hfirst, List.append_nil, List.append_nil]
  rfl

/-- Every datagram of the log comes out of `packet_send` for its packet. -/
theorem Emitter.log_sendD {s : Emitter} (h : Reachable emitter s) :
    ∀ x ∈ s.log, ∃ n n' tEnd bandwidth natPort,
      sendD n x.packet tEnd bandwidth x.z natPort = .ok (n', x.datagram) := by
  apply h.invariant
  · rintro _ rfl x hx
    simp [Emitter.init] at hx
  · intro s a t hlog _ hs
    cases a with
    | call c =>
      obtain ⟨d, hd, hs⟩ := Option.bind_eq_some_iff.mp hs
      obtain ⟨sender, hsender, rfl⟩ := Option.map_eq_some_iff.mp hs
      exact hlog
    | insert k =>
      obtain ⟨sender, hsender, rfl⟩ := Option.map_eq_some_iff.mp hs
      exact hlog
    | post =>
      obtain ⟨sender, hsender, rfl⟩ := Option.map_eq_some_iff.mp hs
      exact hlog
    | cookies a =>
      obtain ⟨sender, hsender, rfl⟩ := Option.map_eq_some_iff.mp hs
      exact hlog
    | others nacks =>
      cases hs
      exact hlog
    | sender sent tEnd bandwidth natPort =>
      simp only [emitter, Emitter.step] at hs
      split at hs
      · rename_i d source z hpc
        split at hs
        · cases hs
        rename_i nacks w hsend
        obtain ⟨sender, hsender, rfl⟩ := Option.map_eq_some_iff.mp hs
        exact List.forall_mem_cons.mpr
          ⟨⟨s.nacks, nacks, tEnd, bandwidth, natPort, hsend⟩, hlog⟩
      · obtain ⟨sender, hsender, rfl⟩ := Option.map_eq_some_iff.mp hs
        exact hlog

theorem stages_unflagged {p : Processing} (hf : p.data.flags = 0) (junk : UInt16) :
    ((((p.andThen needAckStage).andThen ackStage).andThen bwStage).andThen (blockStage junk)) =
      p := by
  have hbits : ∀ b, hasBit p.data.flags b = false := by
    intro b
    rw [hf]
    exact flags_forall (P := fun b => hasBit 0 b = false) (by decide +kernel) b
  have hask : p.needAckStage = p := by simp only [needAckStage, hbits, Bool.false_eq_true, if_false]
  have hack : p.ackStage = p := by simp only [ackStage, hbits, Bool.false_eq_true, if_false]
  have hbw : p.bwStage = p := by simp only [bwStage, hbits, Bool.false_eq_true, if_false]
  have hblock : p.blockStage junk = p := by
    simp only [blockStage, hbits, Bool.false_eq_true, if_false]
  rw [andThen_unmoved hask, andThen_unmoved hack, andThen_unmoved hbw, andThen_unmoved hblock]

/-- A datagram without flags is reported if it has more than three bytes, and nothing else is done
with it. -/
theorem packetProcessor_unflagged (node : Node) {data : IncomingData} (hf : data.flags = 0)
    (junk : UInt16) :
    (packetProcessor node data junk).fault = none ∧
      (packetProcessor node data junk).node.cache = node.cache ∧
      (packetProcessor node data junk).node.completed =
        node.completed ++ if 3 < data.buflen then [.raw data] else [] := by
  have hport : (⟨node, data, [], none⟩ : Processing).portStage =
      if 3 < data.buflen then (⟨node, data, [], none⟩ : Processing).complete (.raw data)
      else ⟨node, data, [], none⟩ := if_pos hf
  simp only [packetProcessor]
  by_cases hlen : 3 < data.buflen
  · rw [if_pos hlen] at hport
    rw [if_pos (show 1 < data.buflen by omega), hport, stages_unflagged hf, if_pos hlen]
    exact ⟨rfl, rfl, rfl⟩
  · rw [if_neg hlen] at hport
    rw [hport, stages_unflagged hf, ite_self, if_neg hlen, List.append_nil]
    exact ⟨rfl, rfl, rfl⟩

/-- In every run, a raw message that is not sent as the second of a pair goes out as it is, without
number and port, and whoever receives it reports a message of at least three bytes once, with these
bytes behind the first, and reports nothing else. -/
theorem raw_intact {s : Emitter} (h : Reachable emitter s) {x : Attempt} (hx : x ∈ s.log)
    {messageString : Bytes} {host : Option UInt32} {portNum : ℤ}
    (hraw : sendRaw messageString host portNum = some x.packet) (hz : x.z = false) :
    x.datagram.data = blkEmpty :: messageString ∧ x.datagram.dest = x.packet.dest ∧
      ∀ (node : Node) (data : IncomingData) (junk : UInt16), Carries data x.datagram →
        (packetProcessor node data junk).fault = none ∧
          (packetProcessor node data junk).node.completed =
            node.completed ++ (if 3 ≤ messageString.length then [.raw data] else []) ∧
          (data.buf.take data.buflen).tail = messageString := by
  obtain ⟨n, n', tEnd, bandwidth, natPort, hsend⟩ := Emitter.log_sendD h x hx
  rw [hz] at hsend
  obtain ⟨-, hpacket⟩ := sendRaw_some hraw
  have hpos : 0 < x.packet.length := by rw [SendData.length, hpacket]; exact Nat.succ_pos _
  have hflags : x.packet.flags = 0 := by rw [SendData.flags, hpacket]; rfl
  obtain ⟨hdata, hdest⟩ := sendD_raw hpos hflags hsend
  have hwire : x.datagram.data = blkEmpty :: messageString := hdata.trans hpacket
  refine ⟨hwire, hdest, ?_⟩
  rintro node data junk ⟨hlen, rest, hbuf⟩
  rw [hwire, List.length_cons] at hlen
  rw [hwire] at hbuf
  have hfirst : data.flags = 0 := by
    rw [IncomingData.flags, hbuf]
    rfl
  obtain ⟨hfault, -, hcompleted⟩ := packetProcessor_unflagged node hfirst junk
  refine ⟨hfault, ?_, ?_⟩
  · have hiff : 3 < data.buflen ↔ 3 ≤ messageString.length := by omega
    rw [hcompleted]
    simp only [hiff]
  · rw [hbuf, hlen]
    show (List.take (blkEmpty :: messageString).length _).tail = _
    rw [List.take_left]
    rfl

theorem raw_intact_first :
    ∃ s, emitter.runIf (fun _ _ => True) Emitter.init
        (queuedCall (.sendRaw [7, 8, 9] (some 2) 1) ++
          List.replicate 7 (.sender true ⟨1, 0⟩ 1000000 0)) = some s ∧
      ∃ x, s.log = [x] ∧ x.datagram.data = [0, 7, 8, 9] ∧
        ∀ data, Carries data x.datagram →
          (packetProcessor Node.init data 0).node.completed = [.raw data] := by
  have hrun : (emitter.runIf (fun _ _ => True) Emitter.init
      (queuedCall (.sendRaw [7, 8, 9] (some 2) 1) ++
        List.replicate 7 (.sender true ⟨1, 0⟩ 1000000 0))).map
      (fun s => s.log.map (fun x => (some x.packet, x.z))) =
        some [(sendRaw [7, 8, 9] (some 2) 1, false)] := by
    decide +kernel
  obtain ⟨s, hs, hlog⟩ := Option.map_eq_some_iff.mp hrun
  obtain ⟨x, hx, hfields⟩ := List.map_eq_singleton_iff.mp hlog
  obtain ⟨hraw, hz⟩ := Prod.mk.inj hfields
  have hinit : Reachable emitter Emitter.init := .init rfl
  obtain ⟨hwire, -, hreceive⟩ := raw_intact (hinit.runIf hs)
    (by rw [hx]; exact List.mem_singleton_self x)
    hraw.symm hz
  exact ⟨s, hs, x, hx, hwire, fun data hdata => (hreceive Node.init data 0 hdata).2.1⟩

/-- Right behind a fragment to the same host a message goes out marked and with a port, and is not
reported; and a message of two bytes is not reported either. -/
theorem raw_not_intact :
    (∃ s x, Reachable emitter s ∧ x ∈ s.log ∧ sendRaw [7, 8, 9] (some 2) 1 = some x.packet ∧
      x.sent = true ∧ x.datagram.data ≠ [0, 7, 8, 9] ∧ ∃ data, Carries data x.datagram ∧
        (packetProcessor Node.init data 0).node.completed = []) ∧
    ∃ data, Carries data ((sendRaw [7, 8] (some 2) 1).getD default) ∧ data.buflen = 3 ∧
      (packetProcessor Node.init data 0).node.completed = [] := by
  have hmessage : sendRaw [7, 8] (some 2) 1 = some ⟨[0, 7, 8], ⟨2, htons 1⟩, by decide⟩ := rfl
  constructor
  · have hrun : (emitter.runIf (fun _ _ => True) Emitter.init fragmentThenRaw).map
        (fun s => s.log.head?.map (fun x => (some x.packet, x.sent, x.datagram.data))) =
          some (some (sendRaw [7, 8, 9] (some 2) 1, true, [4, 7, 8, 9, 0, 0])) := by
      decide +kernel
    obtain ⟨s, hs, hhead⟩ := Option.map_eq_some_iff.mp hrun
    obtain ⟨x, hx, hfields⟩ := Option.map_eq_some_iff.mp hhead
    obtain ⟨hraw, hrest⟩ := Prod.mk.inj hfields
    obtain ⟨hsent, hdata⟩ := Prod.mk.inj hrest
    have hinit : Reachable emitter Emitter.init := .init rfl
    refine ⟨s, x, hinit.runIf hs, List.mem_of_head? hx, hraw.symm, hsent, by rw [hdata]; decide,
      slotOf [4, 7, 8, 9, 0, 0] (by decide), ⟨by rw [hdata]; rfl, _, by rw [hdata]; rfl⟩, ?_⟩
    decide +kernel
  · rw [hmessage]
    exact ⟨slotOf [0, 7, 8] (by decide), ⟨rfl, _, rfl⟩, rfl, by decide +kernel⟩

end Bora
