import Bora.FragmentPartition
import Bora.ReceivePath
import Bora.Relay

/-! From the notice of a completed block to its content: what `get_block_content` returns for the
numbers that `biter.next()` returned is what was once given to `add_block`. -/
namespace Bora

open ByteMemory Checked Processing Simulation Transition

/-- The `int`s of Python as the numbers of a block: one is cut to 16 bits, one read unsigned. -/
def blockID (sId bId : Int32) : BlockID := ⟨UInt16.ofInt sId.toInt, bId.toUInt32⟩

def getBlockContent (cache : Cache) (sId bId : Int32) : Except Fault (Option Bytes) :=
  getBlockData cache (blockID sId bId)

theorem blockID_item (id : BlockID) :
    blockID (Completion.block id).item.s (Completion.block id).item.b = id := by
  have hlt := id.streamid.toNat_lt
  have hs : UInt16.ofInt (Int32.ofNat id.streamid.toNat).toInt = id.streamid := by
    rw [Int32.toInt_ofNat_of_lt (by omega)]
    simp [UInt16.ofInt, ← UInt16.toNat_inj]
    omega
  have hb : (id.blockid.toInt32).toUInt32 = id.blockid := by simp
  show BlockID.mk (UInt16.ofInt (Int32.ofNat id.streamid.toNat).toInt)
    (id.blockid.toInt32).toUInt32 = id
  rw [hs, hb]

/-- Of the content `c` the block holds what was received. Its length is that of `c`, or that of
full fragments. -/
structure PartOf (id : BlockID) (c : Bytes) (b : Block) : Prop where
  copy : CopyOf (contentBlock id c) b
  length : b.content.length.toNat = c.length ∨
    b.content.length.toNat = mtu * fragmentCount c.length
  fits : b.content.length.toNat ≤ b.content.data.length

abbrev FragmentOf (id : BlockID) (c : Bytes) (f : FragmentData) : Prop :=
  IsFragment (contentBlock id c) f

/-- What `get_block_content` may return of a complete block: the content, and behind it at most
what fills the last fragment. -/
def Delivers (c d : Bytes) : Prop :=
  c <+: d ∧ (d.length = c.length ∨ d.length = mtu * fragmentCount c.length)

section Content

variable {id : BlockID} {c : Bytes} {cache : Cache}

theorem toNat_length {n : ℕ} (h : n ≤ 65535 * mtu) : (UInt32.ofNat n).toNat = n := by
  rw [UInt32.toNat_ofNat', Nat.mod_eq_of_lt]
  unfold mtu at h
  omega

theorem partOf_contentBlock (hc : c.length ≤ 65535 * mtu) : PartOf id c (contentBlock id c) := by
  have hlen : (contentBlock id c).content.length.toNat = c.length := toNat_length hc
  exact ⟨contentBlock_copyOf id c, Or.inl hlen, hlen.le⟩

theorem partOf_addfragment (h0 : 0 < c.length) (hc : c.length ≤ 65535 * mtu)
    (hpart : ∀ b, findblock cache id = some b → PartOf id c b) {f : FragmentData}
    (hf : FragmentOf id c f) {host : SockAddr} {ts : Timeval} {junk : UInt16} {cache' : Cache}
    {r : AddResult} (hadd : addfragment cache f host ts junk = .ok (cache', r)) :
    ∃ b', findblock cache' id = some b' ∧ PartOf id c b' ∧
      ∀ b, findblock cache id = some b → ∀ i, b.heldAt i = true → b'.heldAt i = true := by
  obtain ⟨i, hi, hf⟩ := hf
  have hs : (contentBlock id c).Sendable := contentBlock_sendable id (by unfold mtu at hc; omega)
  have hfn : (contentBlock id c).fs.fn.toNat = fragmentCount c.length := contentBlock_fn hc
  have hid : f.id = id := (sendFragment_fields hi hf).1
  have hfull : (UInt32.ofNat (mtu * fragmentCount c.length)).toNat =
      mtu * fragmentCount c.length := by
    refine toNat_length ?_
    unfold fragmentCount mtu at *
    omega
  cases hb : findblock cache id with
  | none =>
    obtain ⟨b', hcreate, hcopy, -, hlen, hsize⟩ := createBlock_copy cache hs hi hf host ts junk
    rw [addfragment, hid, hb] at hadd
    obtain ⟨rfl, rfl⟩ := Prod.mk.inj (Except.ok.inj (hcreate.symm.trans hadd))
    rw [hfn] at hlen hsize
    rw [← hlen] at hfull
    refine ⟨b', ?_, ⟨hcopy, Or.inr hfull, by rw [hfull, hsize]⟩, fun b hb' => by cases hb'⟩
    rw [findblock_cons]
    exact if_pos hcopy.id_eq
  | some b =>
    have hp := hpart b hb
    rw [addfragment, hid, hb] at hadd
    cases hheld : b.heldAt i with
    | true =>
      have hdup := updateBlock_held cache hp.copy hi hf hheld host ts
      obtain ⟨rfl, rfl⟩ := Prod.mk.inj (Except.ok.inj (hdup.symm.trans hadd))
      refine ⟨b, hb, hp, fun b₀ hb₀ j hj => ?_⟩
      obtain rfl := Option.some.inj hb₀
      exact hj
    | false =>
      obtain ⟨b', hstore, hcopy, hheld', hlen, hsize⟩ :=
        updateBlock_missing cache hs hp.copy hi hf hheld host ts
      obtain ⟨rfl, rfl⟩ := Prod.mk.inj (Except.ok.inj (hstore.symm.trans hadd))
      obtain ⟨hfind, -⟩ := storeBlock_find hb hcopy.id_eq
      rw [hfn] at hlen hsize
      have hlength : b'.content.length.toNat = c.length ∨
          b'.content.length.toNat = mtu * fragmentCount c.length := by
        rw [hlen]
        split
        · refine Or.inl ?_
          have hlast : (fragmentCount c.length - 1) * mtu +
              (contentBlock id c).fs.lastlen.toNat = c.length := (calcfragments_exact h0 hc).2.2
          rw [hlast]
          exact toNat_length hc
        · exact hp.length
      refine ⟨b', hfind, ⟨hcopy, hlength, ?_⟩, fun b₀ hb₀ j hj => ?_⟩
      · rw [hsize]
        unfold fragmentCount mtu at *
        omega
      · obtain rfl := Option.some.inj hb₀
        rw [hheld', hj, Bool.or_true]

theorem PartOf.delivers (h0 : 0 < c.length) (hc : c.length ≤ 65535 * mtu) {b : Block}
    (h : PartOf id c b) (hb : findblock cache id = some b) (hcomplete : blockComplete b = true) :
    ∃ d, getBlockData cache id = .ok (some d) ∧ Delivers c d := by
  have hfn : b.fs.fn.toNat = fragmentCount c.length := by
    rw [h.copy.fn_eq]
    exact contentBlock_fn hc
  have hall := (blockComplete_iff b).mp hcomplete
  rw [hfn] at hall
  have hcontent := content_of_copy h0 hc h.copy hall
  have hle : c.length ≤ b.content.length.toNat := by
    have hlength := h.length
    unfold fragmentCount mtu at *
    omega
  refine ⟨b.content.data.take b.content.length.toNat, ?_, ?_, ?_⟩
  · simp only [getBlockData, hb, h.fits, if_true]
  · have hprefix := List.take_prefix_take_left (l := b.content.data) hle
    rw [hcontent] at hprefix
    exact hprefix
  · rw [List.length_take, Nat.min_eq_left h.fits]
    exact h.length

end Content

/-- What a stage leaves of a datagram. The node has no part in it. -/
def Stage.left (st : Stage) (data : IncomingData) : IncomingData :=
  (st.run 0 ⟨Node.init, data, [], none⟩).data

/-- The fragment that is decoded at the stage for it, if the stages of `todo` before it are still
to come. -/
def carried (todo : List Stage) (data : IncomingData) : Option FragmentData :=
  Processing.fragment
    ⟨Node.init, (todo.takeWhile (· ≠ .block)).foldl (fun d st => st.left d) data, [], none⟩

def Stage.front (st : Stage) : Prop := st ≠ .block ∧ st ≠ .count

instance (st : Stage) : Decidable st.front := inferInstanceAs (Decidable (_ ∧ _))

section Front

variable {p : Processing} {st : Stage} {junk : UInt16}

theorem sub_data {q : Processing} (h : q.data = p.data) (k : ℕ) :
    (q.sub k).data = (p.sub k).data := by
  simp only [Processing.sub, noteSub, h]

theorem setPort_data {q : Processing} (h : q.data = p.data) (port : UInt16) :
    (q.setPort port).data = (p.setPort port).data := by
  simp only [Processing.setPort, h]

theorem portStage_data {q : Processing} (h : q.data = p.data) :
    q.portStage.data = p.portStage.data := by
  have hport : (q.sub 2).portByte = (p.sub 2).portByte := by
    show byteAt q.data.buf (subSize q.data.buflen 2) = byteAt p.data.buf (subSize p.data.buflen 2)
    rw [h]
  unfold portStage
  rw [h]
  split
  · split <;> exact h
  · simp only
    rw [hport]
    split
    · exact sub_data (setPort_data (sub_data h 2) _) 2
    · exact sub_data h 2

theorem needAckStage_data {q : Processing} (h : q.data = p.data) :
    q.needAckStage.data = p.needAckStage.data := by
  unfold needAckStage
  rw [h]
  split
  · simp only
    rw [show (q.noteSub ackSize).data = (p.noteSub ackSize).data from h]
    split
    · rw [(answer_frame _).1, (answer_frame _).1]
      exact sub_data h ackSize
    · show q.data.clearFlags = p.data.clearFlags
      rw [h]
  · exact h

theorem ackStage_data {q : Processing} (h : q.data = p.data) :
    q.ackStage.data = p.ackStage.data := by
  have hsame : ∀ p : Processing, p.ackStage.data =
      if hasBit p.data.flags blkAck = true ∧ validateAck p.data.buf p.data.buflen = false then
        p.data.clearFlags else p.data := by
    intro p
    unfold ackStage
    split
    · rename_i hbit
      split
      · rename_i hvalid
        rw [if_neg (by simp [hvalid])]
        simp only
        split
        · rfl
        · split <;> rfl
      · rename_i hvalid
        rw [if_pos ⟨hbit, by simpa using hvalid⟩]
        rfl
    · rename_i hbit
      rw [if_neg (fun hboth => hbit hboth.1)]
  rw [hsame, hsame, h]

theorem bwStage_data {q : Processing} (h : q.data = p.data) : q.bwStage.data = p.bwStage.data := by
  unfold bwStage
  rw [h]
  split
  · split
    · split
      · show q.data.clearFlags = p.data.clearFlags
        rw [h]
      · rfl
    · show q.data.clearFlags = p.data.clearFlags
      rw [h]
  · exact h

/-- What is left of the datagram depends on the datagram alone. -/
theorem Stage.front_data (h : st.front) (junk : UInt16) (p : Processing) :
    (st.run junk p).data = st.left p.data := by
  cases st with
  | port => exact portStage_data rfl
  | needAck => exact needAckStage_data rfl
  | ack => exact ackStage_data rfl
  | bw => exact bwStage_data rfl
  | block => exact absurd rfl h.1
  | count => exact absurd rfl h.2

theorem Stage.front_run (h : st.front) (junk : UInt16) (p : Processing) :
    (st.run junk p).node.cache = p.node.cache ∧
      ∀ id, Completion.block id ∈ (st.run junk p).node.completed →
        Completion.block id ∈ p.node.completed := by
  cases st with
  | port =>
    refine ⟨portStage_frame.1.1, fun id hid => ?_⟩
    have hid : Completion.block id ∈ p.portStage.node.completed := hid
    unfold portStage at hid
    split at hid
    · split at hid
      · rcases List.mem_append.mp hid with hid | hid
        · exact hid
        · cases List.mem_singleton.mp hid
      · exact hid
    · simp only at hid
      split at hid <;> exact hid
  | needAck => exact ⟨needAckStage_keeps.cache, fun id hid => needAckStage_keeps.completed ▸ hid⟩
  | ack => exact ⟨ackStage_keeps.cache, fun id hid => ackStage_keeps.completed ▸ hid⟩
  | bw => exact ⟨bwStage_keeps.cache, fun id hid => bwStage_keeps.completed ▸ hid⟩
  | block => exact absurd rfl h.1
  | count => exact absurd rfl h.2

theorem fragmentAdded_block (p : Processing) (f : FragmentData) (r : AddResult) (id : BlockID)
    (hid : Completion.block id ∈ (p.fragmentAdded f r).node.completed) :
    Completion.block id ∈ p.node.completed ∨ f.id = id ∧ iscomplete p.node.cache id = true := by
  cases r with
  | added =>
    simp only [fragmentAdded] at hid
    split at hid
    · rename_i hcomplete
      rcases List.mem_append.mp hid with hid | hid
      · exact Or.inl hid
      · cases List.mem_singleton.mp hid
        exact Or.inr ⟨rfl, hcomplete⟩
    · exact Or.inl hid
  | _ => exact Or.inl hid

theorem blockStage_cases (hfault : (p.blockStage junk).fault = none) :
    (∃ f cache r, p.fragment = some f ∧
      addfragment p.node.cache f p.data.source p.data.tv junk = .ok (cache, r) ∧
      (p.blockStage junk).node.cache = cache ∧
      ∀ id, Completion.block id ∈ (p.blockStage junk).node.completed →
        Completion.block id ∈ p.node.completed ∨ f.id = id ∧ iscomplete cache id = true) ∨
    (p.blockStage junk).node.cache = p.node.cache ∧
      (p.blockStage junk).node.completed = p.node.completed := by
  by_cases hbit : hasBit p.data.flags blkBlock = true
  · by_cases hvalid : Bora.validateBlock p.data.buf p.data.buflen = true
    · cases hdecode : decodeFragment p.data.buf p.data.buflen with
      | none =>
        have hstage : p.blockStage junk = p.reject := by
          simp only [blockStage, hbit, hvalid, if_true, hdecode]
        rw [hstage]
        exact Or.inr ⟨rfl, rfl⟩
      | some f =>
        have hf : p.fragment = some f := by
          simp only [Processing.fragment, hbit, hvalid, Bool.and_self, if_true, hdecode]
        cases hadd : addfragment p.node.cache f p.data.source p.data.tv junk with
        | error e =>
          have hstage : p.blockStage junk = p.fail e := by
            simp only [blockStage, hbit, hvalid, if_true, hdecode, hadd]
          rw [hstage] at hfault
          cases hfault
        | ok result =>
          obtain ⟨cache, r⟩ := result
          have hstage : p.blockStage junk =
              fragmentAdded { p with node := { p.node with cache := cache } } f r := by
            simp only [blockStage, hbit, hvalid, if_true, hdecode, hadd]
          rw [hstage]
          exact Or.inl ⟨f, cache, r, hf, hadd, (fragmentAdded_frame _ f r).1,
            fragmentAdded_block _ f r⟩
    · have hstage : p.blockStage junk = p.reject := by
        simp only [blockStage, hbit, hvalid, if_true, if_false, Bool.false_eq_true]
      rw [hstage]
      exact Or.inr ⟨rfl, rfl⟩
  · have hstage : p.blockStage junk = p := by
      simp only [blockStage, hbit, if_false, Bool.false_eq_true]
    rw [hstage]
    exact Or.inr ⟨rfl, rfl⟩

end Front

theorem carried_front {st : Stage} (h : st.front) (todo : List Stage) (data : IncomingData) :
    carried (st :: todo) data = carried todo (st.left data) := by
  rw [carried, List.takeWhile_cons_of_pos (by simpa using h.1)]
  rfl

theorem carried_stages {data : IncomingData} (h : .block ∈ data.stages) :
    carried data.stages data = receivedFragment Node.init data := by
  have hl : 1 < data.buflen := by
    by_contra hl
    simp [IncomingData.stages, hl] at h
  have hfault : (beforeBlock Node.init data).fault = none :=
    beforeBlock_safe hl (fun f _ => ⟨0, rfl⟩)
  have hstripped := (stripped_frame Node.init data).2.1
  have hanswered : (stripped Node.init data).needAckStage.fault = none := by
    rw [← beforeBlock_fault]
    exact hfault
  have hbefore : beforeBlock Node.init data =
      ((stripped Node.init data).needAckStage.ackStage).bwStage := by
    show (((stripped Node.init data).andThen needAckStage).andThen ackStage).andThen bwStage = _
    rw [andThen_none hstripped, andThen_none hanswered,
      andThen_none (ackStage_fault.trans hanswered)]
  have hdata : (beforeBlock Node.init data).data =
      Stage.bw.left (Stage.ack.left (Stage.needAck.left (Stage.port.left data))) := by
    rw [hbefore]
    exact bwStage_data (ackStage_data (needAckStage_data rfl))
  rw [receivedFragment, if_pos hl, IncomingData.stages, if_pos hl]
  show Processing.fragment ⟨Node.init, _, [], none⟩ = _
  unfold Processing.fragment
  rw [hdata]
  rfl

/-- The fragments of the block that arrive are cut from the content, and nobody else changes what
the cache holds of it, but for `add_block` with this content. Of other blocks nothing is asked. -/
def Honest (id : BlockID) (c : Bytes) : FreshAction → Prop
  | .arrive x tv =>
    ∀ f, receivedFragment Node.init (x.fresh tv) = some f → f.id = id → FragmentOf id c f
  | .elsewhere f =>
    ∀ node : Node, findblock (f node).cache id = findblock node.cache id ∨
      findblock node.cache id = none ∧ findblock (f node).cache id = some (contentBlock id c)
  | _ => True

/-- The block is a part of the content, all of it once it was reported, and so are the fragments on
the way. -/
structure Delivered (id : BlockID) (c : Bytes) (t : FreshPath) : Prop where
  part : ∀ b, findblock t.node.cache id = some b → PartOf id c b
  reported : Completion.block id ∈ t.node.completed →
    ∃ b, findblock t.node.cache id = some b ∧ blockComplete b = true
  waiting : ∀ y ∈ t.waiting, Honest id c (.arrive y.1 y.2)
  ordered : t.todo.Pairwise (fun st st' => st' = .block → st.front)
  current : .block ∈ t.todo → ∀ f, carried t.todo t.data = some f → f.id = id → FragmentOf id c f

namespace Delivered

variable {id : BlockID} {c : Bytes} {t t' : FreshPath}

theorem setNode (h : Delivered id c t) (node : Node)
    (hcache : findblock node.cache id = findblock t.node.cache id)
    (hcompleted : Completion.block id ∈ node.completed → Completion.block id ∈ t.node.completed) :
    (∀ b, findblock node.cache id = some b → PartOf id c b) ∧
      (Completion.block id ∈ node.completed →
        ∃ b, findblock node.cache id = some b ∧ blockComplete b = true) := by
  rw [hcache]
  exact ⟨h.part, fun hid => h.reported (hcompleted hid)⟩

theorem block (h0 : 0 < c.length) (hc : c.length ≤ 65535 * mtu) (h : Delivered id c t)
    {todo : List Stage} (htodo : t.todo = .block :: todo) {junk : UInt16} {p : Processing}
    (hp : p = blockStage junk ⟨t.node, t.data, [], none⟩) (hfault : p.fault = none) :
    (∀ b, findblock p.node.cache id = some b → PartOf id c b) ∧
      (Completion.block id ∈ p.node.completed →
        ∃ b, findblock p.node.cache id = some b ∧ blockComplete b = true) := by
  subst hp
  rcases blockStage_cases hfault with ⟨f, cache, r, hf, hadd, hcache, hcompleted⟩ |
    ⟨hcache, hcompleted⟩
  · rw [hcache]
    by_cases hid : f.id = id
    · have hcut : FragmentOf id c f := by
        refine h.current (by rw [htodo]; exact List.mem_cons_self) f ?_ hid
        rw [htodo]
        exact hf
      obtain ⟨b', hb', hpart, hkeeps⟩ := partOf_addfragment h0 hc h.part hcut hadd
      refine ⟨fun b hb => ?_, fun hmem => ⟨b', hb', ?_⟩⟩
      · rw [hb'] at hb
        exact Option.some.inj hb ▸ hpart
      · rcases hcompleted id hmem with hold | ⟨-, hcomplete⟩
        · obtain ⟨b, hb, hall⟩ := h.reported hold
          have hall := (blockComplete_iff b).mp hall
          refine (blockComplete_iff b').mpr (fun i hi => hkeeps b hb i (hall i ?_))
          rw [(h.part b hb).copy.fn_eq, ← hpart.copy.fn_eq]
          exact hi
        · rw [iscomplete, hb'] at hcomplete
          exact hcomplete
    · have hfind : findblock cache id = findblock t.node.cache id :=
        addfragment_other hadd (fun heq => hid heq.symm)
      rw [hfind]
      refine ⟨h.part, fun hmem => ?_⟩
      rcases hcompleted id hmem with hold | ⟨hnew, -⟩
      · exact h.reported hold
      · exact absurd hnew hid
  · rw [hcache, hcompleted]
    exact ⟨h.part, h.reported⟩

theorem step (h0 : 0 < c.length) (hc : c.length ≤ 65535 * mtu) (h : Delivered id c t)
    {a : FreshAction} (ha : Honest id c a) (hs : freshPath.step t a = some t') :
    Delivered id c t' := by
  cases a with
  | arrive x tv =>
    cases hs
    refine ⟨h.part, h.reported, fun y hy => ?_, h.ordered, h.current⟩
    rcases List.mem_append.mp hy with hy | hy
    · exact h.waiting y hy
    · cases List.mem_singleton.mp hy
      exact ha
  | take =>
    simp only [freshPath, FreshPath.step] at hs
    split at hs
    · rename_i x tv waiting _ hwaiting
      cases hs
      have hx : Honest id c (.arrive x tv) := h.waiting (x, tv) (by rw [hwaiting]; simp)
      refine ⟨h.part, h.reported, fun y hy => h.waiting y (by rw [hwaiting]; simp [hy]), ?_, ?_⟩
      · show (x.fresh tv).stages.Pairwise _
        unfold IncomingData.stages
        split <;> decide
      · intro hblock f hf
        rw [carried_stages hblock] at hf
        exact hx f hf
    · cases hs
  | stage junk =>
    simp only [freshPath, FreshPath.step] at hs
    split at hs
    · cases hs
    · rename_i st todo htodo
      split at hs
      · rename_i hfault
        cases hs
        have hordered := h.ordered
        rw [htodo] at hordered
        obtain ⟨hfront, hordered⟩ := List.pairwise_cons.mp hordered
        by_cases hst : st.front
        · obtain ⟨hcache, hcompleted⟩ := Stage.front_run hst junk ⟨t.node, t.data, [], none⟩
          obtain ⟨hpart, hreported⟩ := h.setNode _ (congrArg (fun k => findblock k id) hcache)
            (hcompleted id)
          refine ⟨hpart, hreported, h.waiting, hordered, fun hblock f hf => ?_⟩
          refine h.current (by rw [htodo]; exact List.mem_cons_of_mem _ hblock) f ?_
          rw [htodo, carried_front hst, ← hf]
          exact congrArg (carried todo) (Stage.front_data hst junk ⟨t.node, t.data, [], none⟩).symm
        · have hlast : .block ∉ todo := fun hblock => hst (hfront _ hblock rfl)
          have hnode : (∀ b, findblock (st.run junk ⟨t.node, t.data, [], none⟩).node.cache id =
                some b → PartOf id c b) ∧
              (Completion.block id ∈ (st.run junk ⟨t.node, t.data, [], none⟩).node.completed →
                ∃ b, findblock (st.run junk ⟨t.node, t.data, [], none⟩).node.cache id = some b ∧
                  blockComplete b = true) := by
            cases st with
            | block => exact h.block h0 hc htodo rfl hfault
            | count => exact ⟨h.part, h.reported⟩
            | _ => exact absurd (by decide) hst
          exact ⟨hnode.1, hnode.2, h.waiting, hordered, fun hblock => absurd hblock hlast⟩
      · cases hs
  | elsewhere f =>
    cases hs
    rcases ha { t.node with completed := [] } with hsame | ⟨hnone, hadded⟩
    · obtain ⟨hpart, hreported⟩ := h.setNode (t.node.elsewhere f) hsame (fun hid => hid)
      exact ⟨hpart, hreported, h.waiting, h.ordered, h.current⟩
    · refine ⟨fun b hb => ?_, fun hid => ?_, h.waiting, h.ordered, h.current⟩
      · rw [Node.elsewhere, hadded] at hb
        exact Option.some.inj hb ▸ partOf_contentBlock hc
      · obtain ⟨b, hb, -⟩ := h.reported hid
        exact absurd (hnone.symm.trans hb) (by simp)

end Delivered

theorem delivered_init (id : BlockID) (c : Bytes) (data : IncomingData) :
    Delivered id c (FreshPath.init data) where
  part b hb := by cases hb
  reported hid := by cases hid
  waiting y hy := by cases hy
  ordered := List.Pairwise.nil
  current hblock := by cases hblock

theorem Delivered.run {id : BlockID} {c : Bytes} (h0 : 0 < c.length)
    (hc : c.length ≤ 65535 * mtu) {as : List FreshAction} (ha : ∀ a ∈ as, Honest id c a)
    {t t' : FreshPath} (h : Delivered id c t) (hrun : freshPath.run t as = some t') :
    Delivered id c t' := by
  induction as generalizing t with
  | nil =>
    cases hrun
    exact h
  | cons a as ih =>
    rw [System.run_cons] at hrun
    obtain ⟨u, hu, hrun⟩ := Option.bind_eq_some_iff.mp hrun
    exact ih (fun b hb => ha b (List.mem_cons_of_mem _ hb))
      (h.step h0 hc (ha a List.mem_cons_self) hu) hrun

theorem tuple_block {x : Completion} {id : BlockID}
    (h : x.item.tuple = (Completion.block id).item.tuple) : x = .block id := by
  cases x with
  | raw data => cases congrArg BiterTuple.incomingDict h
  | block id' =>
    have hs : (Completion.block id').item.s = (Completion.block id).item.s := congrArg BiterTuple.s h
    have hb : (Completion.block id').item.b = (Completion.block id).item.b := congrArg BiterTuple.b h
    rw [← blockID_item id', ← blockID_item id, hs, hb]

/-- In every interleaving of both rings: when `biter.next()` has returned the numbers of a block of
which all fragments that arrived were honest, `get_block_content` of these numbers returns the
content that was given to `add_block`, from then on as long as the block is not deleted. -/
theorem content_delivered {id : BlockID} {c : Bytes} (h0 : 0 < c.length)
    (hc : c.length ≤ 65535 * mtu) {buffer : ℕ → IncomingData} {slots : ℕ → BiterSlot}
    {as : List PathAction} {s : ReceivePath}
    (hrun : receivePath.run (ReceivePath.init buffer slots) as = some s)
    (honest : ∀ a ∈ freshActions buffer slots as, Honest id c a) {x : BiterItem}
    (hx : x ∈ s.completion.seen) (hblock : x.d = none) (hid : blockID x.s x.b = id) :
    ∃ d, getBlockContent s.node.cache x.s x.b = .ok (some d) ∧ Delivers c d := by
  obtain ⟨t, ht, hfollows⟩ :=
    receivePath_simulates.run (follows_init buffer slots (buffer 0)) hrun
  have hdelivered := (delivered_init id c (buffer 0)).run h0 hc honest ht
  have hseen := (CompletionRing.lossless hfollows.completion).seen.subset hx
  obtain ⟨y, hy, rfl⟩ := List.mem_map.mp hseen
  obtain ⟨id', rfl⟩ : ∃ id', y = .block id' := by
    cases y with
    | raw data => cases hblock
    | block id' => exact ⟨id', rfl⟩
  rw [blockID_item] at hid
  subst id'
  have hcalled : Completion.block id ∈ s.node.completed :=
    hfollows.calls.subset (List.mem_append_left _ hy)
  have hreported : Completion.block id ∈ t.node.completed := by
    have htuple := List.mem_map_of_mem (f := fun c => c.item.tuple) hcalled
    rw [hfollows.node.completed] at htuple
    obtain ⟨z, hz, heq⟩ := List.mem_map.mp htuple
    exact tuple_block heq ▸ hz
  obtain ⟨b, hb, hcomplete⟩ := hdelivered.reported hreported
  obtain ⟨d, hd, hdelivers⟩ := (hdelivered.part b hb).delivers h0 hc hb hcomplete
  refine ⟨d, ?_, hdelivers⟩
  rw [getBlockContent, blockID_item, hfollows.node.cache]
  exact hd

theorem receivedFragment_packet {node : Node} {data : IncomingData} {flags : UInt8}
    {f : FragmentData} {seq : UInt16} (hf : AckFlags flags)
    (h : Arrives data (fragmentPacket flags f ++ store16 seq)) :
    receivedFragment node data = some f := by
  obtain ⟨hfrag, hask, hmask, -, -⟩ := ackFlags_bits hf
  have hblk := (fragmentFlags_bits hfrag).1
  obtain ⟨hflags, hbuflen, hport, hlen, rest, hbuf⟩ := h.numbered hf node
  have hstripped : stripped node data = (⟨node, data, [], none⟩ : Processing).sub 2 := hport
  have hbuf' : (stripped node data).data.buf =
      fragmentPacket flags f ++ (store16 seq ++ (store16 0 ++ rest)) := by
    rw [hstripped]
    exact hbuf
  have hsub : subSize (stripped node data).data.buflen ackSize = headerSize + f.length.toNat := by
    rw [hstripped, hlen, subSize_of_le (by simp [ackSize])]
    rfl
  obtain ⟨g, hg, hdecode⟩ := @receivedFragment_asked node data
    hbuflen (by rw [hflags]; exact hask) (by rw [hflags]; exact hblk)
    (by rw [hsub, hbuf']; exact validateBlock_packet hmask f _)
  rw [hsub, hbuf', decodeFragment_packet hblk] at hdecode
  rw [hg, ← hdecode]

/-- The two fragments of a content of 1401 bytes, and their packets. -/
def pairContent : Bytes := List.replicate 1401 6

def pairFragment (last : Bool) : FragmentData :=
  if last then ⟨256, 1, 1, 2, 1, [6], rfl⟩
  else ⟨256, 1, 0, 2, 1400, List.replicate 1400 6, List.length_replicate⟩

def pairDatagram (last : Bool) : Datagram where
  source := ⟨9, 1⟩
  bytes := fragmentPacket blkBlockAck (pairFragment last) ++ store16 6 ++ store16 0
  fits := by
    rw [List.length_append, List.length_append, fragmentPacket_length]
    cases last <;> decide

theorem pairFragment_of (last : Bool) :
    FragmentOf ⟨256, 1⟩ pairContent (pairFragment last) := by
  cases last
  · exact ⟨0, by decide +kernel, by decide +kernel⟩
  · exact ⟨1, by decide +kernel, by decide +kernel⟩

/-- Both packets arrive, that of the last fragment first. -/
def pairReceived : List PathAction :=
  let arrive (last : Bool) : List PathAction :=
    List.replicate 7 (.receiver (some (pairDatagram last)) ⟨1, 0⟩)
  let stages (n : ℕ) : List PathAction := .wait :: List.replicate n (.stage 0)
  let completed : List PathAction := .blockCompleted :: List.replicate 5 .producer
  let next : List PathAction := List.replicate 5 .iternext
  arrive true ++ arrive false ++ stages 6 ++ [.advance, .post] ++ stages 5 ++ completed ++
    [.stage 0, .advance, .post] ++ next

/-- Nothing arrives but the two packets, and nobody else is there. -/
def FreshAction.ofPair : FreshAction → Bool
  | .arrive x _ => ∃ last, x.bytes = (pairDatagram last).bytes
  | .elsewhere _ => false
  | _ => true

theorem ofPair_honest {a : FreshAction} (h : a.ofPair = true) : Honest ⟨256, 1⟩ pairContent a := by
  cases a with
  | arrive x tv =>
    obtain ⟨source, bytes, fits⟩ := x
    obtain ⟨last, rfl⟩ : ∃ last, bytes = (pairDatagram last).bytes := of_decide_eq_true h
    intro f hf _
    have harrives : Arrives (Datagram.fresh ⟨source, (pairDatagram last).bytes, fits⟩ tv)
        (fragmentPacket blkBlockAck (pairFragment last) ++ store16 6) :=
      ⟨by simp [Datagram.fresh, slotOf, pairDatagram],
        List.replicate (packetSize - (pairDatagram last).bytes.length) 0,
        by simp only [Datagram.fresh, slotOf, pairDatagram, List.append_assoc]⟩
    rw [receivedFragment_packet (by decide) harrives] at hf
    obtain rfl := Option.some.inj hf
    exact pairFragment_of last
  | elsewhere f => cases h
  | take => trivial
  | stage junk => trivial

theorem content_delivered_pair :
    ∃ s : ReceivePath, s.completion.seen.map (fun x => (x.s, x.b)) = [(256, 1)] ∧
      ∃ d, getBlockContent s.node.cache 256 1 = .ok (some d) ∧ Delivers pairContent d := by
  have hstart : (receivePath.run (ReceivePath.init (fun _ => sevens) (fun _ => ⟨0, 0, sevens⟩))
      pairReceived).map (fun s => s.completion.seen.map (fun x => (x.s, x.b, x.d.isSome))) =
        some [(256, 1, false)] := by
    decide +kernel
  have hactions : (freshActions (fun _ => sevens) (fun _ => ⟨0, 0, sevens⟩) pairReceived).all
      FreshAction.ofPair = true := by decide +kernel
  obtain ⟨s, hs, hseen⟩ := Option.map_eq_some_iff.mp hstart
  obtain ⟨x, hx⟩ : ∃ x, s.completion.seen = [x] := by
    refine List.length_eq_one_iff.mp ?_
    simpa using congrArg List.length hseen
  rw [hx] at hseen
  obtain ⟨hxs, hxb, hxd⟩ : x.s = 256 ∧ x.b = 1 ∧ x.d.isSome = false := by simpa using hseen
  have honest : ∀ a ∈ freshActions (fun _ => sevens) (fun _ => ⟨0, 0, sevens⟩) pairReceived,
      Honest ⟨256, 1⟩ pairContent a :=
    fun a ha => ofPair_honest (List.all_eq_true.mp hactions a ha)
  have hlen : pairContent.length = 1401 := List.length_replicate
  obtain ⟨d, hd, hdelivers⟩ := content_delivered (by omega) (by rw [hlen]; decide) hs honest
    (x := x) (by rw [hx]; simp) (by simpa using hxd) (by rw [hxs, hxb]; decide)
  rw [hxs, hxb] at hd
  exact ⟨s, by rw [hx]; simp [hxs, hxb], d, hd, hdelivers⟩

end Bora
