import Bora.SenderThread

/-! What the invariant of the sender thread gives: the queues are FIFOs that never run
empty under a take, the accounts of the two semaphores, and the supply of cookies. -/
namespace Bora

open Transition

namespace Sender

variable {s t : Sender}

/-- In every reachable state: no take from an empty queue, indices in range, and each ring
holds the packets accepted into its queue that were not taken, in order. -/
theorem queues_fifo (h : Reachable sender s) :
    s.pc ≠ .underflow ∧ (∀ z, s.pc = .data z → 0 < s.queues.f .send) ∧
      ∀ q, s.queues.f q ≤ q.capacity ∧ (s.queues.ring q).c < q.capacity ∧
        s.taken q <+: s.accepted q ∧ s.accepted q = s.taken q ++ s.queues.queued q := by
  have hinv := inv_reaches h
  have hready := hinv.ready
  unfold Ready at hready
  refine ⟨?_, ?_, ?_⟩
  · intro hpc
    rw [hpc] at hready
    exact hready
  · intro z hpc
    rw [hpc] at hready
    exact hready
  · intro q
    have hvalid := hinv.valid q
    have hfifo := hinv.fifo q
    exact ⟨hvalid.f_le, hvalid.c_lt, ⟨s.queues.queued q, hfifo.symm⟩, hfifo⟩

theorem queues_fifo_run :
    ∃ s, sender.runIf (fun _ _ => True) init
        [.sendData ⟨[blkBlockAck], ⟨1, 1⟩, by decide⟩, .sendData ⟨[blkAck], ⟨2, 1⟩, by decide⟩,
          .insert 1, .post, .sender true, .sender true, .insert 0, .sender true, .sender true] =
          some s ∧
      s.taken .prio = [⟨[blkAck], ⟨2, 1⟩, by decide⟩] ∧ s.pc ≠ .underflow ∧
      s.accepted .send = s.taken .send ++ s.queues.queued .send := by
  have hrun : (sender.runIf (fun _ _ => True) init
      [.sendData ⟨[blkBlockAck], ⟨1, 1⟩, by decide⟩, .sendData ⟨[blkAck], ⟨2, 1⟩, by decide⟩,
        .insert 1, .post, .sender true, .sender true, .insert 0, .sender true, .sender true]).map
          (fun s => s.taken .prio) = some [⟨[blkAck], ⟨2, 1⟩, by decide⟩] := by
    decide +kernel
  obtain ⟨s, hs, htaken⟩ := Option.map_eq_some_iff.mp hrun
  obtain ⟨hpc, -, hqueues⟩ := queues_fifo ((Reaches.init rfl).runIf hs)
  exact ⟨s, hs, htaken, hpc, (hqueues .send).2.2.2⟩

/-- No `send_data` is between its insertion and its post, and no `packet_send` between its
wait and its post. -/
def Quiescent (s : Sender) : Prop := s.posting = 0 ∧ (s.pc = .look ∨ ∃ z, s.pc = .wait z)

/-- Both semaphores agree with the fill counters, so the thread does not block on `sFull`
while a packet is queued and `qEmpty` stays within its initial value. -/
structure Accounted (s : Sender) : Prop where
  full : s.queues.sFull = s.queues.fill
  empty : s.queues.qEmpty = 3 * nSend - s.queues.fill
  awake : 0 < s.queues.fill → 0 < s.queues.sFull
  bounded : s.queues.qEmpty ≤ 3 * nSend

theorem Quiescent.pc (h : s.Quiescent) : s.pc.holds = 0 ∧ s.pc.carries = 0 := by
  obtain ⟨-, hpc | ⟨z, hpc⟩⟩ := h <;> rw [hpc] <;> exact ⟨rfl, rfl⟩

/-- The accounts between two rounds: one packet too many for each cookie taken, and one slot
too few for each call that reserved one. -/
theorem Quiescent.accounts (hq : s.Quiescent) (h : s.Inv) :
    s.queues.fill = s.queues.sFull + s.cookiesTaken ∧
      s.queues.qEmpty + s.calls.length + s.queues.fill = 3 * nSend + s.cookiesTaken := by
  have htokens := h.tokens
  have hroom := h.room
  obtain ⟨hholds, hcarries⟩ := hq.pc
  rw [hq.1, hholds] at htokens
  rw [hcarries] at hroom
  exact ⟨htokens, hroom⟩

theorem Inv.fill_le (h : s.Inv) : s.queues.fill ≤ 3 * nSend := by
  have hprio : s.queues.f .prio ≤ nSend := (h.valid .prio).f_le
  have hretr : s.queues.f .retr ≤ nSend := (h.valid .retr).f_le
  have hsend : s.queues.f .send ≤ nSend := (h.valid .send).f_le
  unfold SendQueues.fill
  omega

/-- Between two rounds the accounts are right exactly when no cookie was taken in the run so
far and no caller holds a slot it has not filled; and without cookies `qEmpty` never exceeds
its initial value, at whatever point of the round. -/
theorem accounted_iff (h : Reachable sender s) :
    (s.Quiescent → (s.Accounted ↔ s.cookiesTaken = 0 ∧ s.calls = [])) ∧
      (s.cookiesTaken = 0 → s.queues.qEmpty ≤ 3 * nSend) := by
  have hinv := inv_reaches h
  constructor
  · intro hq
    obtain ⟨htokens, hroom⟩ := hq.accounts hinv
    have hle := hinv.fill_le
    constructor
    · intro hacc
      have hfull := hacc.full
      have hempty := hacc.empty
      refine ⟨by omega, ?_⟩
      apply List.eq_nil_of_length_eq_zero
      omega
    · rintro ⟨hcookies, hcalls⟩
      rw [hcalls, List.length_nil] at hroom
      exact ⟨by omega, by omega, by omega, by omega⟩
  · intro hcookies
    have hroom := hinv.room
    omega

theorem accounted_queued :
    ∃ s, sender.runIf (fun _ _ => True) init
        [.sendData ⟨[blkBlockAck], ⟨1, 1⟩, by decide⟩, .insert 0, .post, .sender true] = some s ∧
      s.queues.fill = 1 ∧ s.Accounted := by
  have hrun : (sender.runIf (fun _ _ => True) init
      [.sendData ⟨[blkBlockAck], ⟨1, 1⟩, by decide⟩, .insert 0, .post, .sender true]).map
        (fun s => (s.queues.fill, s.posting, s.pc, s.cookiesTaken, s.calls)) =
      some (1, 0, .wait false, 0, []) := by
    decide +kernel
  obtain ⟨s, hs, hstate⟩ := Option.map_eq_some_iff.mp hrun
  simp only [Prod.mk.injEq] at hstate
  obtain ⟨hfill, hposting, hpc, hcookies, hcalls⟩ := hstate
  exact ⟨s, hs, hfill, ((accounted_iff ((Reaches.init rfl).runIf hs)).1
    ⟨hposting, Or.inr ⟨false, hpc⟩⟩).mpr ⟨hcookies, hcalls⟩⟩

/-- A cookie sent with the token of a data packet: the packet stays queued, `sFull` is 0 and
`qEmpty` counts all slots as free. -/
theorem accounts_lose_packet :
    ∃ s, Reachable sender s ∧ s.Quiescent ∧ s.calls = [] ∧ s.queues.fill = 1 ∧
      s.queues.sFull = 0 ∧ s.queues.qEmpty = 3 * nSend ∧ ¬ s.Accounted := by
  have hrun : (sender.runIf (fun _ _ => True) init
      [.cookies (.enter ⟨1, 1⟩ ⟨2, 1⟩), .cookies (.write 0), .cookies .postFirst,
        .cookies .postSecond, .sendData ⟨[blkBlockAck], ⟨1, 1⟩, by decide⟩, .insert 0, .post,
        .sender true, .sender true, .sender true, .sender true, .sender true]).map
        (fun s => ((s.queues.fill, s.queues.sFull, s.queues.qEmpty), s.posting, s.pc, s.calls)) =
      some ((1, 0, 3 * nSend), 0, .look, []) := by
    decide +kernel
  obtain ⟨s, hs, hstate⟩ := Option.map_eq_some_iff.mp hrun
  simp only [Prod.mk.injEq] at hstate
  obtain ⟨⟨hfill, hfull, hempty⟩, hposting, hpc, hcalls⟩ := hstate
  refine ⟨s, (Reaches.init rfl).runIf hs, ⟨hposting, Or.inl hpc⟩, hcalls, hfill, hfull, hempty, ?_⟩
  intro hacc
  have hsame := hacc.full
  omega

/-- The thread has taken a cookie's token and not yet looked for the cookie. -/
def fetching (s : Sender) : ℕ := if s.pc = .getCookie then 1 else 0

/-- Tokens for cookies: posted, about to be posted, or in the hand of the thread. -/
def outstanding (s : Sender) : ℕ := s.rounds.tokens + s.fetching

/-- The flags are written, by a new call or by a clean-up, only when no token is outstanding. -/
def CookiesSettled (s : Sender) : SenderAction → Prop
  | .cookies a => CookieRounds.WritesFlags a = true → s.outstanding = 0
  | _ => True

instance (s : Sender) : (a : SenderAction) → Decidable (CookiesSettled s a)
  | .cookies a =>
    inferInstanceAs (Decidable (CookieRounds.WritesFlags a = true → s.outstanding = 0))
  | .sendData _ => .isTrue trivial
  | .insert _ => .isTrue trivial
  | .post => .isTrue trivial
  | .sender _ => .isTrue trivial

/-- Every outstanding token has a cookie marked for it. -/
structure Supplied (s : Sender) : Prop where
  marked : s.outstanding = s.rounds.cookies.marked
  running : s.pc ≠ .exited

theorem fetching_of_ne (h : s.pc ≠ .getCookie) : s.fetching = 0 := if_neg h

theorem Supplied.of_rounds (h : s.Supplied) (hr : t.rounds = s.rounds) (hpc : t.pc = s.pc) :
    t.Supplied where
  marked := by
    have hmarked := h.marked
    simp only [outstanding, fetching, hr, hpc] at hmarked ⊢
    exact hmarked
  running := by rw [hpc]; exact h.running

theorem senderStep_rounds {sent : Bool} (hs : s.senderStep sent = some t)
    (hcookie : s.pc ≠ .cookie) (hget : s.pc ≠ .getCookie) :
    t.rounds = s.rounds ∧ t.pc ≠ .getCookie ∧ t.pc ≠ .exited := by
  unfold senderStep at hs
  cases hpc : s.pc with
  | look =>
    simp only [hpc] at hs
    split at hs
    · cases hs
      exact ⟨rfl, by simp, by simp⟩
    split at hs
    · cases hs
      exact ⟨rfl, by simp, by simp⟩
    · cases hs
      exact ⟨rfl, by simp, by simp⟩
  | wait z =>
    simp only [hpc] at hs
    split at hs
    · cases hs
    split at hs
    · cases hs
      exact ⟨rfl, by simp, by simp⟩
    · cases hs
      exact ⟨rfl, by simp, by simp⟩
  | cookie => exact absurd hpc hcookie
  | getCookie => exact absurd hpc hget
  | prio =>
    simp only [hpc] at hs
    split at hs <;> cases hs <;> exact ⟨rfl, by simp [take], by simp [take]⟩
  | retr =>
    simp only [hpc] at hs
    split at hs <;> cases hs <;> exact ⟨rfl, by simp [take], by simp [take]⟩
  | data z =>
    simp only [hpc] at hs
    split at hs <;> cases hs <;> exact ⟨rfl, by simp [take], by simp [take]⟩
  | send d source z =>
    simp only [hpc] at hs
    cases hs
    cases z <;> exact ⟨rfl, by simp, by simp⟩
  | underflow => simp [hpc] at hs
  | exited => simp [hpc] at hs

theorem supplied_sender (h : s.Supplied) {sent : Bool} (hs : s.senderStep sent = some t) :
    t.Supplied := by
  have hmarked := h.marked
  by_cases hcookie : s.pc = .cookie
  · rw [outstanding, fetching_of_ne (by simp [hcookie])] at hmarked
    simp only [senderStep, hcookie] at hs
    split at hs
    · cases hs
      exact ⟨by simpa [outstanding, fetching] using hmarked, by simp⟩
    · rename_i c hc
      obtain ⟨hfull, hsame⟩ := Cookies.tryFull_some hc
      cases hs
      refine ⟨?_, by simp⟩
      simp only [outstanding, fetching, CookieRounds.tokens, hsame, if_true] at hmarked ⊢
      omega
  by_cases hget : s.pc = .getCookie
  · have hfetch : s.fetching = 1 := if_pos hget
    rw [outstanding, hfetch] at hmarked
    simp only [senderStep, hget] at hs
    split at hs
    · -- A token in hand has a marked cookie, so the search does not fail.
      rename_i hnone
      have hzero := Cookies.getCookieData_none hnone
      omega
    · rename_i d c hc
      obtain ⟨hfull, hsame⟩ := Cookies.getCookieData_some hc
      cases hs
      refine ⟨?_, by simp⟩
      simp only [CookieRounds.tokens] at hmarked
      simp [outstanding, fetching, CookieRounds.tokens, hfull]
      omega
  · obtain ⟨hr, hpc, hexit⟩ := senderStep_rounds hs hcookie hget
    refine ⟨?_, hexit⟩
    rw [outstanding, fetching_of_ne hget] at hmarked
    rw [outstanding, fetching_of_ne hpc, hr]
    exact hmarked

theorem supplied_cookies (h : s.Supplied) {a : CookieAction} (ha : CookiesSettled s (.cookies a))
    (hs : s.step (.cookies a) = some t) : t.Supplied := by
  have hmarked := h.marked
  obtain ⟨r, hr, rfl⟩ := Option.map_eq_some_iff.mp hs
  refine ⟨?_, h.running⟩
  have hfetch : ({ s with rounds := r } : Sender).fetching = s.fetching := rfl
  rw [outstanding, hfetch]
  cases hw : CookieRounds.WritesFlags a with
  | false =>
    obtain ⟨htokens, hsame⟩ := CookieRounds.step_frame hr hw
    rw [htokens, hsame]
    exact hmarked
  | true =>
    have hzero := ha hw
    rw [outstanding] at hzero
    cases a with
    | write k =>
      obtain ⟨htokens, hsame⟩ := CookieRounds.step_write hr
      rw [htokens, hsame]
      omega
    | timeout =>
      obtain ⟨htokens, hsame⟩ := CookieRounds.step_timeout hr
      rw [htokens, hsame]
      exact hzero
    | enter addr1 addr2 => cases hw
    | postFirst => cases hw
    | postSecond => cases hw
    | succeed => cases hw
    | finish => cases hw
    | finishCleanup => cases hw
    | answer ack => cases hw

theorem supplied_step (h : s.Supplied) {a : SenderAction} (ha : CookiesSettled s a)
    (hs : s.step a = some t) : t.Supplied := by
  cases a with
  | cookies a => exact supplied_cookies h ha hs
  | sender sent => exact supplied_sender h hs
  | sendData d =>
    simp only [step] at hs
    split at hs <;> cases hs <;> exact h.of_rounds rfl rfl
  | insert k =>
    simp only [step] at hs
    split at hs
    · cases hs
    split at hs <;> cases hs <;> exact h.of_rounds rfl rfl
  | post =>
    simp only [step] at hs
    split at hs
    · cases hs
    · cases hs
      exact h.of_rounds rfl rfl

/-- In a run that writes the flags only with no token outstanding, a token taken from
`ckFull` always finds a cookie, and the process never exits. -/
theorem cookie_supplied (h : Reaches sender CookiesSettled s) :
    (s.pc = .getCookie →
      s.rounds.cookies.havecookie0 = true ∨ s.rounds.cookies.havecookie1 = true) ∧
      s.pc ≠ .exited := by
  have hsupplied : s.Supplied := by
    apply h.invariant
    · rintro _ rfl
      exact ⟨rfl, by simp [init]⟩
    · intro s a t hi ha hs
      exact supplied_step hi ha hs
  refine ⟨?_, hsupplied.running⟩
  intro hpc
  have hmarked := hsupplied.marked
  have hfetch : s.fetching = 1 := if_pos hpc
  rw [outstanding, hfetch, Cookies.marked] at hmarked
  by_contra hnone
  simp only [not_or, Bool.not_eq_true] at hnone
  rw [hnone.1, hnone.2] at hmarked
  simp at hmarked

theorem cookie_supplied_round :
    ∃ s, sender.runIf CookiesSettled init
        [.sendData ⟨[blkBlockAck], ⟨1, 1⟩, by decide⟩, .insert 0, .post,
          .cookies (.enter ⟨1, 1⟩ ⟨2, 1⟩), .cookies (.write 0), .cookies .postFirst,
          .cookies .postSecond, .sender true, .sender true, .sender true] = some s ∧
      s.pc = .getCookie ∧
      (s.rounds.cookies.havecookie0 = true ∨ s.rounds.cookies.havecookie1 = true) := by
  have hrun : (sender.runIf CookiesSettled init
      [.sendData ⟨[blkBlockAck], ⟨1, 1⟩, by decide⟩, .insert 0, .post,
        .cookies (.enter ⟨1, 1⟩ ⟨2, 1⟩), .cookies (.write 0), .cookies .postFirst,
        .cookies .postSecond, .sender true, .sender true, .sender true]).map Sender.pc =
      some .getCookie := by
    decide +kernel
  obtain ⟨s, hs, hpc⟩ := Option.map_eq_some_iff.mp hrun
  exact ⟨s, hs, hpc, (cookie_supplied ((Reaches.init rfl).runIf hs)).1 hpc⟩

/-- No packet is queued, so the cookies wait; the call times out and clears their flags; the
next data packet wakes the thread, which finds two tokens and no cookie. -/
theorem cookie_timeout_exits : ∃ s, Reachable sender s ∧ s.pc = .exited := by
  have hrun : (sender.runIf (fun _ _ => True) init
      [.cookies (.enter ⟨1, 1⟩ ⟨2, 1⟩), .cookies (.write 0), .cookies .postFirst,
        .cookies .postSecond, .cookies .timeout, .cookies .finishCleanup,
        .sendData ⟨[blkBlockAck], ⟨1, 1⟩, by decide⟩, .insert 0, .post,
        .sender true, .sender true, .sender true, .sender true]).map Sender.pc = some .exited := by
    decide +kernel
  obtain ⟨s, hs, hpc⟩ := Option.map_eq_some_iff.mp hrun
  exact ⟨s, (Reaches.init rfl).runIf hs, hpc⟩

end Sender

end Bora
