import Bora.ReceiveRing
import Bora.GlobalLock

/-! The ring between `block_completed` and the iterator `biter`: one step for each semaphore
operation, each write and read of a field of a slot and each advance of an index. -/
namespace Bora

open Transition

def nextBiter (c : ℕ) : ℕ := (c + 1) % nBiter

/-- One slot: `b_biter_s[i]`, `b_biter_b[i]` and `b_biter_d[i]`. -/
structure BiterSlot where
  s : Int32
  b : Int32
  d : IncomingData

/-- What `biter.next()` returns: the two numbers, with a message if both are -1. -/
structure BiterItem where
  s : Int32
  b : Int32
  d : Option IncomingData

namespace Completion

def streamid : Completion → Int32
  | .raw _ => -1
  | .block id => Int32.ofNat id.streamid.toNat

def blockid : Completion → Int32
  | .raw _ => -1
  | .block id => id.blockid.toInt32

def data : Completion → Option IncomingData
  | .raw data => some data
  | .block _ => none

def item (c : Completion) : BiterItem := ⟨c.streamid, c.blockid, c.data⟩

end Completion

inductive CompletedPc
  | wait
  | writeS (c : Completion)
  | writeB (c : Completion)
  | writeD (c : Completion)
  | post (c : Completion)
  | advance

inductive IternextPc
  | wait
  | readS
  | readB (s : Int32)
  | readD (s b : Int32)
  | advance (item : BiterItem)
  | post (item : BiterItem)

/-- The last two fields record the run: the calls of `block_completed` that posted, and what the
iterator returned. -/
structure CompletionRing where
  slots : ℕ → BiterSlot
  full : ℕ
  empty : ℕ
  producer : CompletedPc
  producerC : ℕ
  consumer : IternextPc
  consumerC : ℕ
  produced : List Completion
  seen : List BiterItem

/-- `blockCompleted` begins a call, with its wait; the other steps are those of the call under way
and of `biter.next()`. -/
inductive BiterAction
  | blockCompleted (c : Completion)
  | producer
  | iternext

namespace CompletionRing

def init (slots : ℕ → BiterSlot) : CompletionRing :=
  ⟨slots, 0, nBiter, .wait, 0, .wait, 0, [], []⟩

def fill (s : CompletionRing) (f : BiterSlot → BiterSlot) : CompletionRing :=
  { s with slots := Function.update s.slots s.producerC (f (s.slots s.producerC)) }

def producerStep (s : CompletionRing) : Option CompletionRing :=
  match s.producer with
  | .wait => none
  | .writeS c => some { s.fill (fun x => { x with s := c.streamid }) with producer := .writeB c }
  | .writeB c => some { s.fill (fun x => { x with b := c.blockid }) with producer := .writeD c }
  | .writeD c =>
    match c.data with
    | none => some { s with producer := .post c }
    | some data => some { s.fill (fun x => { x with d := data }) with producer := .post c }
  | .post c =>
    some { s with full := s.full + 1, produced := s.produced ++ [c], producer := .advance }
  | .advance => some { s with producerC := nextBiter s.producerC, producer := .wait }

def iternextStep (s : CompletionRing) : Option CompletionRing :=
  match s.consumer with
  | .wait => if s.full = 0 then none else some { s with full := s.full - 1, consumer := .readS }
  | .readS => some { s with consumer := .readB (s.slots s.consumerC).s }
  | .readB x =>
    if x = -1 ∧ (s.slots s.consumerC).b = -1 then
      some { s with consumer := .readD x (s.slots s.consumerC).b }
    else some { s with consumer := .advance ⟨x, (s.slots s.consumerC).b, none⟩ }
  | .readD x b => some { s with consumer := .advance ⟨x, b, some (s.slots s.consumerC).d⟩ }
  | .advance item => some { s with consumerC := nextBiter s.consumerC, consumer := .post item }
  | .post item =>
    some { s with empty := s.empty + 1, seen := s.seen ++ [item], consumer := .wait }

def step (s : CompletionRing) : BiterAction → Option CompletionRing
  | .blockCompleted c =>
    match s.producer with
    | .wait =>
      if s.empty = 0 then none else some { s with empty := s.empty - 1, producer := .writeS c }
    | _ => none
  | .producer => s.producerStep
  | .iternext => s.iternextStep

end CompletionRing

def completionRing : System CompletionRing BiterAction where
  init s := ∃ slots, s = CompletionRing.init slots
  step := CompletionRing.step

namespace BiterSlot

/-- The slot holds the arguments of a call; without a message the old one is left there. -/
structure Holds (x : BiterSlot) (c : Completion) : Prop where
  s : x.s = c.streamid
  b : x.b = c.blockid
  d : ∀ data, c.data = some data → x.d = data

end BiterSlot

namespace CompletedPc

def writing : CompletedPc → Bool
  | .wait | .advance => false
  | _ => true

def writes : CompletedPc → Bool
  | .writeS _ | .writeB _ | .writeD _ => true
  | _ => false

def behind : CompletedPc → ℕ
  | .advance => 1
  | _ => 0

def Filled (x : BiterSlot) : CompletedPc → Prop
  | .writeB c => x.s = c.streamid
  | .writeD c => x.s = c.streamid ∧ x.b = c.blockid
  | .post c => x.Holds c
  | _ => True

theorem writing_of_writes {pc : CompletedPc} (h : pc.writes = true) :
    pc.writing = true ∧ pc.behind = 0 := by
  cases pc with
  | writeS c => exact ⟨rfl, rfl⟩
  | writeB c => exact ⟨rfl, rfl⟩
  | writeD c => exact ⟨rfl, rfl⟩
  | _ => cases h

end CompletedPc

namespace IternextPc

def reading : IternextPc → Bool
  | .wait => false
  | _ => true

def ahead : IternextPc → ℕ
  | .post _ => 1
  | _ => 0

/-- What the consumer has read so far of the slot with the arguments of a call. -/
def Read (c : Completion) : IternextPc → Prop
  | .readB s => s = c.streamid
  | .readD s b => s = c.streamid ∧ b = c.blockid ∧ s = -1 ∧ b = -1
  | .advance item => item = c.item
  | .post item => item = c.item
  | _ => True

end IternextPc

namespace CompletionRing

variable {s t : CompletionRing} {r : SlotRing.State BiterSlot}

/-- The slots with their semaphores, as a ring; the consumer changes nothing. -/
structure Refines (s : CompletionRing) (r : SlotRing.State BiterSlot) : Prop where
  slots : r.slots = s.slots
  empty : r.empty = s.empty
  full : r.full = s.full
  writing : r.writing = s.producer.writing
  reading : r.reading = s.consumer.reading
  changes : r.changes = id
  holds : List.Forall₂ BiterSlot.Holds r.produced s.produced
  producerC : (s.producerC + s.producer.behind) % nBiter = r.produced.length % nBiter
  producerC_lt : s.producerC < nBiter
  consumerC : s.consumerC = (r.released + s.consumer.ahead) % nBiter
  filled : s.producer.Filled (r.slots (r.head nBiter))
  seen : s.seen = (s.produced.take r.released).map Completion.item
  read : ∀ c, s.produced[r.released]? = some c → s.consumer.Read c

theorem refines_init (slots : ℕ → BiterSlot) :
    (init slots).Refines (SlotRing.State.init nBiter slots) where
  slots := rfl
  empty := rfl
  full := rfl
  writing := rfl
  reading := rfl
  changes := rfl
  holds := List.Forall₂.nil
  producerC := rfl
  producerC_lt := show 0 < nBiter by decide
  consumerC := rfl
  filled := trivial
  seen := rfl
  read := by simp [init]

theorem Refines.producer_head (h : s.Refines r) (hb : s.producer.behind = 0) :
    s.producerC = r.head nBiter := by
  have hc := h.producerC
  rw [hb, Nat.add_zero, Nat.mod_eq_of_lt h.producerC_lt] at hc
  exact hc

theorem Refines.fill (h : s.Refines r) (f : BiterSlot → BiterSlot) (pc : CompletedPc)
    (hw : s.producer.writes = true) (hw' : pc.writing = true) (hb' : pc.behind = 0)
    (hfilled : pc.Filled (f (r.slots (r.head nBiter)))) :
    ∃ r', r.step nBiter (.write f) = some r' ∧ Refines { s.fill f with producer := pc } r' := by
  obtain ⟨hwriting, hb⟩ := CompletedPc.writing_of_writes hw
  have hc := h.producer_head hb
  refine ⟨_, if_pos (h.writing.trans hwriting), ?_⟩
  refine ⟨?_, h.empty, h.full, h.writing.trans (hwriting.trans hw'.symm), h.reading, h.changes,
    h.holds, ?_, h.producerC_lt, h.consumerC, ?_, h.seen, h.read⟩
  · simp only [CompletionRing.fill, hc, h.slots]
  · have hpc := h.producerC
    rw [hb] at hpc
    simp only [CompletionRing.fill, hb', hpc]
  · simp only [SlotRing.State.head, Function.update_self]
    exact hfilled

theorem Refines.read_waiting (h : s.Refines r) (hr : r.reading = false) (c : Completion) :
    s.consumer.Read c := by
  rw [h.reading] at hr
  cases hpc : s.consumer with
  | wait => trivial
  | _ => rw [hpc] at hr; cases hr

theorem Refines.produced (h : s.Refines r) (hinv : r.Inv nBiter) (c : Completion) :
    s.seen = ((s.produced ++ [c]).take r.released).map Completion.item ∧
      ∀ c', (s.produced ++ [c])[r.released]? = some c' → s.consumer.Read c' := by
  have hfilled := hinv.filled
  rw [h.holds.length_eq] at hfilled
  refine ⟨?_, fun c' hc' => ?_⟩
  · rw [List.take_append_of_le_length (by omega)]
    exact h.seen
  · by_cases hr : r.reading = true
    · rw [hr, Bool.toNat_true] at hfilled
      rw [List.getElem?_append_left (by omega)] at hc'
      exact h.read c' hc'
    · exact h.read_waiting (by simpa using hr) c'

theorem refines_producer (h : s.Refines r) (hinv : r.Inv nBiter) (hs : s.producerStep = some t) :
    ∃ r', r.Moves nBiter r' ∧ t.Refines r' := by
  have hfilled := h.filled
  have hwriting := h.writing
  have hproducerC := h.producerC
  unfold producerStep at hs
  cases hpc : s.producer with
  | wait => simp [hpc] at hs
  | writeS c =>
    simp only [hpc] at hs
    cases hs
    obtain ⟨r', hr, href⟩ := h.fill (fun x => { x with s := c.streamid }) (.writeB c)
      (by rw [hpc]; rfl) rfl rfl rfl
    exact ⟨r', Or.inr ⟨_, hr⟩, href⟩
  | writeB c =>
    simp only [hpc] at hs hfilled
    cases hs
    obtain ⟨r', hr, href⟩ := h.fill (fun x => { x with b := c.blockid }) (.writeD c)
      (by rw [hpc]; rfl) rfl rfl ⟨hfilled, rfl⟩
    exact ⟨r', Or.inr ⟨_, hr⟩, href⟩
  | writeD c =>
    simp only [hpc] at hs hfilled
    split at hs
    · rename_i hnone
      cases hs
      refine ⟨r, Or.inl rfl, h.slots, h.empty, h.full, ?_, h.reading, h.changes, h.holds, ?_,
        h.producerC_lt, h.consumerC, ⟨hfilled.1, hfilled.2, ?_⟩, h.seen, h.read⟩
      · rw [hwriting, hpc]
        rfl
      · rw [← hproducerC, hpc]
        rfl
      · intro data hdata
        rw [hnone] at hdata
        cases hdata
    · rename_i data hdata
      cases hs
      obtain ⟨r', hr, href⟩ := h.fill (fun x => { x with d := data }) (.post c)
        (by rw [hpc]; rfl) rfl rfl ⟨hfilled.1, hfilled.2, fun data' hdata' =>
          Option.some.inj (hdata.symm.trans hdata')⟩
      exact ⟨r', Or.inr ⟨_, hr⟩, href⟩
  | post c =>
    simp only [hpc] at hs hfilled hwriting hproducerC
    cases hs
    obtain ⟨hseen, hread⟩ := h.produced hinv c
    refine ⟨_, Or.inr ⟨.publish, if_pos hwriting⟩, h.slots, h.empty, ?_, rfl, h.reading,
      h.changes, ?_, ?_, h.producerC_lt, h.consumerC, trivial, hseen, hread⟩
    · rw [h.full]
    · exact List.rel_append h.holds (List.Forall₂.cons hfilled List.Forall₂.nil)
    · rw [List.length_append]
      exact Nat.add_mod_eq_add_mod_right 1 hproducerC
  | advance =>
    simp only [hpc] at hs hwriting hproducerC
    cases hs
    refine ⟨r, Or.inl rfl, h.slots, h.empty, h.full, hwriting, h.reading, h.changes, h.holds, ?_,
      Nat.mod_lt _ (by decide), h.consumerC, trivial, h.seen, h.read⟩
    exact (Nat.mod_mod _ _).trans hproducerC

theorem item_eq (c : Completion) :
    (c.streamid = -1 ∧ c.blockid = -1 → ∃ data, c.data = some data) ∧
      (¬ (c.streamid = -1 ∧ c.blockid = -1) → c.data = none) := by
  cases c with
  | raw data => exact ⟨fun _ => ⟨data, rfl⟩, fun h => absurd ⟨rfl, rfl⟩ h⟩
  | block id =>
    refine ⟨fun h => ?_, fun _ => rfl⟩
    have hlt := id.streamid.toNat_lt
    have hnum : (Int32.ofNat id.streamid.toNat).toInt = id.streamid.toNat :=
      Int32.toInt_ofNat_of_lt (by omega)
    rw [show Int32.ofNat id.streamid.toNat = -1 from h.1] at hnum
    have hneg : (-1 : Int32).toInt = -1 := by decide
    omega

theorem Refines.found (h : s.Refines r) (hinv : r.Inv nBiter) (hr : s.consumer.reading = true)
    (ha : s.consumer.ahead = 0) :
    ∃ c, s.produced[r.released]? = some c ∧ (s.slots s.consumerC).Holds c := by
  have hc : s.consumerC = r.tail nBiter := by
    rw [h.consumerC, ha]
    rfl
  obtain ⟨x, hx, hslot⟩ := hinv.found (h.reading.trans hr)
  obtain ⟨hlt, hget⟩ := List.getElem?_eq_some_iff.mp hx
  have hlt' : r.released < s.produced.length := by
    rw [← h.holds.length_eq]
    exact hlt
  refine ⟨s.produced[r.released], List.getElem?_eq_getElem hlt', ?_⟩
  rw [hc, ← h.slots, hslot, h.changes, ← hget]
  exact h.holds.get hlt hlt'

theorem Refines.reads (h : s.Refines r) {pc : IternextPc} (hr : s.consumer.reading = true)
    (hr' : pc.reading = true) (ha : s.consumer.ahead = 0) (ha' : pc.ahead = 0)
    (hread : ∀ c, s.produced[r.released]? = some c → pc.Read c) :
    Refines { s with consumer := pc } r :=
  ⟨h.slots, h.empty, h.full, h.writing, h.reading.trans (hr.trans hr'.symm), h.changes, h.holds,
    h.producerC, h.producerC_lt, by rw [h.consumerC, ha, ha'], h.filled, h.seen, hread⟩

theorem refines_iternext (h : s.Refines r) (hinv : r.Inv nBiter) (hs : s.iternextStep = some t) :
    ∃ r', r.Moves nBiter r' ∧ t.Refines r' := by
  have hreading := h.reading
  have hconsumerC := h.consumerC
  have hread := h.read
  unfold iternextStep at hs
  cases hpc : s.consumer with
  | wait =>
    simp only [hpc] at hs hreading hconsumerC
    split at hs
    · cases hs
    · rename_i hfull
      cases hs
      have hr := SlotRing.State.step_take (N := nBiter) hreading (by rw [h.full]; exact hfull)
      refine ⟨_, Or.inr ⟨_, hr⟩, h.slots, h.empty, ?_, h.writing, rfl, rfl, h.holds,
        h.producerC, h.producerC_lt, hconsumerC, h.filled, h.seen, fun c _ => trivial⟩
      rw [h.full]
  | readS =>
    obtain ⟨c, hc, hholds⟩ := h.found hinv (by rw [hpc]; rfl) (by rw [hpc]; rfl)
    simp only [hpc] at hs
    cases hs
    refine ⟨r, Or.inl rfl, h.reads (by rw [hpc]; rfl) rfl (by rw [hpc]; rfl) rfl ?_⟩
    intro c' hc'
    obtain rfl := Option.some.inj (hc.symm.trans hc')
    exact hholds.s
  | readB x =>
    obtain ⟨c, hc, hholds⟩ := h.found hinv (by rw [hpc]; rfl) (by rw [hpc]; rfl)
    rw [hpc] at hread
    have hx : x = c.streamid := hread c hc
    simp only [hpc] at hs
    split at hs
    · rename_i hboth
      cases hs
      refine ⟨r, Or.inl rfl, h.reads (by rw [hpc]; rfl) rfl (by rw [hpc]; rfl) rfl ?_⟩
      intro c' hc'
      obtain rfl := Option.some.inj (hc.symm.trans hc')
      exact ⟨hx, hholds.b, hboth.1, hboth.2⟩
    · rename_i hboth
      cases hs
      refine ⟨r, Or.inl rfl, h.reads (by rw [hpc]; rfl) rfl (by rw [hpc]; rfl) rfl ?_⟩
      intro c' hc'
      obtain rfl := Option.some.inj (hc.symm.trans hc')
      rw [hx, hholds.b] at hboth
      show BiterItem.mk x _ none = _
      rw [hx, hholds.b, Completion.item, (item_eq c).2 hboth]
  | readD x b =>
    obtain ⟨c, hc, hholds⟩ := h.found hinv (by rw [hpc]; rfl) (by rw [hpc]; rfl)
    rw [hpc] at hread
    obtain ⟨hx, hb, hx1, hb1⟩ := hread c hc
    obtain ⟨data, hdata⟩ := (item_eq c).1 ⟨hx ▸ hx1, hb ▸ hb1⟩
    simp only [hpc] at hs
    cases hs
    refine ⟨r, Or.inl rfl, h.reads (by rw [hpc]; rfl) rfl (by rw [hpc]; rfl) rfl ?_⟩
    intro c' hc'
    obtain rfl := Option.some.inj (hc.symm.trans hc')
    show BiterItem.mk x b (some _) = _
    rw [hx, hb, hholds.d data hdata, Completion.item, hdata]
  | advance item =>
    simp only [hpc] at hs hreading hconsumerC hread
    cases hs
    refine ⟨r, Or.inl rfl, h.slots, h.empty, h.full, h.writing, hreading, h.changes, h.holds,
      h.producerC, h.producerC_lt, ?_, h.filled, h.seen, hread⟩
    rw [nextBiter, hconsumerC]
    exact Nat.mod_add_mod _ _ _
  | post item =>
    simp only [hpc] at hs hreading hconsumerC hread
    cases hs
    refine ⟨_, Or.inr ⟨.release, if_pos hreading⟩, h.slots, ?_, h.full, h.writing, rfl, h.changes,
      h.holds, h.producerC, h.producerC_lt, hconsumerC, h.filled, ?_, fun c _ => trivial⟩
    · rw [h.empty]
    · have hfilled := hinv.filled
      rw [hreading, h.holds.length_eq] at hfilled
      have hlt : r.released < s.produced.length := by
        rw [← hfilled]
        exact Nat.lt_add_of_pos_left (Nat.succ_pos _)
      have hc := List.getElem?_eq_getElem hlt
      have hitem : item = s.produced[r.released].item := hread _ hc
      rw [List.take_add_one, hc, Option.toList_some, List.map_append, ← h.seen, hitem]
      rfl

theorem refines_step (h : s.Refines r) (hinv : r.Inv nBiter) {a : BiterAction}
    (hs : s.step a = some t) :
    ∃ r', r.Moves nBiter r' ∧ t.Refines r' := by
  cases a with
  | blockCompleted c =>
    have hwriting := h.writing
    have hproducerC := h.producerC
    simp only [step] at hs
    split at hs
    · rename_i hpc
      split at hs
      · cases hs
      · rename_i hempty
        cases hs
        rw [hpc] at hwriting hproducerC
        have hr := SlotRing.State.step_acquire (N := nBiter) hwriting
          (by rw [h.empty]; exact hempty)
        refine ⟨_, Or.inr ⟨_, hr⟩, h.slots, ?_, h.full, rfl, h.reading, h.changes, h.holds,
          hproducerC, h.producerC_lt, h.consumerC, trivial, h.seen, h.read⟩
        rw [h.empty]
    · cases hs
  | producer => exact refines_producer h hinv hs
  | iternext => exact refines_iternext h hinv hs

theorem refines_reachable (h : Reachable completionRing s) :
    ∃ slots r, Reachable (SlotRing.ring nBiter slots) r ∧ s.Refines r := by
  apply h.invariant
  · rintro _ ⟨slots, rfl⟩
    exact ⟨slots, _, .init rfl, refines_init slots⟩
  · rintro s a t ⟨slots, r, hr, href⟩ _ hs
    obtain ⟨r', hmove, href'⟩ := refines_step href (SlotRing.State.inv_reachable hr) hs
    exact ⟨slots, r', hmove.reachable hr, href'⟩

/-- The iterator returns the calls of `block_completed` in order, each once and none lost, and no
slot is written that it is not done with. -/
structure Lossless (s : CompletionRing) : Prop where
  seen : s.seen <+: s.produced.map Completion.item
  kept : s.full + s.consumer.reading.toNat + s.seen.length = s.produced.length
  free : s.producer.writes = true → ∀ k, s.seen.length ≤ k → k < s.produced.length →
    k % nBiter ≠ s.producerC

theorem lossless (h : Reachable completionRing s) : s.Lossless := by
  obtain ⟨slots, r, hr, href⟩ := refines_reachable h
  have hinv := SlotRing.State.inv_reachable hr
  have hfilled := hinv.filled
  rw [href.full, href.reading, href.holds.length_eq] at hfilled
  have hseen : s.seen.length = r.released := by
    rw [href.seen, List.length_map, List.length_take]
    omega
  refine ⟨?_, by rw [hseen]; exact hfilled, ?_⟩
  · rw [href.seen, List.map_take]
    exact List.take_prefix _ _
  · intro hw k hk hlt
    obtain ⟨hwriting, hb⟩ := CompletedPc.writing_of_writes hw
    rw [href.producer_head hb]
    refine hinv.head_ne (href.writing.trans hwriting) (by omega) ?_
    rw [href.holds.length_eq]
    exact hlt

end CompletionRing

/-- In every interleaving, of runs of any length: the processor finds the received datagrams and
the iterator the completed blocks and messages, in order, each once and none lost, and no slot is
written before its reader has posted for it. -/
theorem rings_lossless :
    (∀ s, Reachable receiveRing s → s.Lossless) ∧ (∀ s, Reachable completionRing s → s.Lossless) :=
  ⟨fun _ => ReceiveRing.lossless, fun _ => CompletionRing.lossless⟩

/-- Two datagrams received while the processor works on the first. -/
def overlapped : List ReceiveAction :=
  List.replicate 7 (.receiver (some ⟨⟨2, 1⟩, [7, 8], by decide⟩) ⟨1, 0⟩) ++
    [.wait, .read, .change (fun data => data.setBuflen 1)] ++
    List.replicate 4 (.receiver (some ⟨⟨3, 1⟩, [9], by decide⟩) ⟨2, 0⟩) ++
    [.read, .advance, .post]

def twoCompletions : List BiterAction :=
  .blockCompleted (.raw (slotOf [0, 7, 8, 9] (by decide))) :: List.replicate 5 .producer ++
    [.iternext, .iternext, .blockCompleted (.block ⟨1, 2⟩), .producer] ++
    List.replicate 4 .iternext ++ List.replicate 4 .producer ++ List.replicate 5 .iternext

theorem rings_lossless_overlapped :
    (∃ s, receiveRing.runIf (fun _ _ => True)
        (ReceiveRing.init (fun _ => slotOf [] (by decide))) overlapped = some s ∧
      s.reads.map (fun o => (o.iteration, o.found.buflen)) = [(0, 1), (0, 2)] ∧ s.Lossless) ∧
    ∃ s, completionRing.runIf (fun _ _ => True)
        (CompletionRing.init (fun _ => ⟨0, 0, slotOf [] (by decide)⟩)) twoCompletions = some s ∧
      s.seen.map (fun x => (x.s, x.b, x.d.map IncomingData.buflen)) =
        [(-1, -1, some 4), (1, 2, none)] ∧ s.Lossless := by
  constructor
  · have hrun : (receiveRing.runIf (fun _ _ => True)
        (ReceiveRing.init (fun _ => slotOf [] (by decide))) overlapped).map
        (fun s => s.reads.map (fun o => (o.iteration, o.found.buflen))) =
          some [(0, 1), (0, 2)] := by
      decide +kernel
    obtain ⟨s, hs, hreads⟩ := Option.map_eq_some_iff.mp hrun
    have hinit : Reachable receiveRing (ReceiveRing.init (fun _ => slotOf [] (by decide))) :=
      .init ⟨_, rfl⟩
    exact ⟨s, hs, hreads, rings_lossless.1 s (hinit.runIf hs)⟩
  · have hrun : (completionRing.runIf (fun _ _ => True)
        (CompletionRing.init (fun _ => ⟨0, 0, slotOf [] (by decide)⟩)) twoCompletions).map
        (fun s => s.seen.map (fun x => (x.s, x.b, x.d.map IncomingData.buflen))) =
          some [(-1, -1, some 4), (1, 2, none)] := by
      decide +kernel
    obtain ⟨s, hs, hseen⟩ := Option.map_eq_some_iff.mp hrun
    have hinit : Reachable completionRing
        (CompletionRing.init (fun _ => ⟨0, 0, slotOf [] (by decide)⟩)) := .init ⟨_, rfl⟩
    exact ⟨s, hs, hseen, rings_lossless.2 s (hinit.runIf hs)⟩

end Bora
