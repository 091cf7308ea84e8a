import Bora.CookieSender
import Bora.Library.Transition
import Mathlib.Data.List.Nodup
import Mathlib.Data.List.Perm.Basic

/-! Rounds of `bora_send_cookie`, one after the other, among the transmissions of their cookies
and the acks of these, which come at any time. A cookie carries the number of its round. -/
namespace Bora

open Transition

namespace Cookies

/-- The two halves of `havecookie` and `ckData`, by index. -/
def unsent (c : Cookies) : Fin 2 → Bool
  | 0 => c.havecookie0
  | 1 => c.havecookie1

def dest (c : Cookies) : Fin 2 → SockAddr
  | 0 => c.to0
  | 1 => c.to1

/-- The cookie that `get_cookie_data` takes. -/
def nextSlot (c : Cookies) : Fin 2 := if c.havecookie0 then 0 else 1

theorem getCookieData_slot {c c' : Cookies} {d : SendData} (h : c.getCookieData = some (d, c')) :
    c.unsent c.nextSlot = true ∧ d = bogusData (c.dest c.nextSlot) ∧
      (c' = { c with havecookie0 := false } ∨ c' = { c with havecookie1 := false }) ∧
      c'.unsent c.nextSlot = false ∧ ∀ i, c'.unsent i = true → c.unsent i = true := by
  unfold getCookieData at h
  split at h
  · rename_i h₀
    cases h
    simp [nextSlot, h₀, unsent, dest, Fin.forall_fin_two]
  split at h
  · rename_i h₀ h₁
    cases h
    simp [nextSlot, h₀, h₁, unsent, dest, Fin.forall_fin_two]
  · cases h

theorem halves_same {c c' : Cookies} (h₀ : c'.havecookie0 = c.havecookie0)
    (h₁ : c'.havecookie1 = c.havecookie1) (ht₀ : c'.to0 = c.to0) (ht₁ : c'.to1 = c.to1) (i : Fin 2) :
    (c'.unsent i = true → c.unsent i = true) ∧ c'.dest i = c.dest i := by
  revert i
  refine Fin.forall_fin_two.mpr ⟨⟨fun h => ?_, ht₀⟩, ⟨fun h => ?_, ht₁⟩⟩
  · exact h₀.symm.trans h
  · exact h₁.symm.trans h

end Cookies

structure SentCookie where
  round : ℕ
  slot : Fin 2
  dest : SockAddr
deriving DecidableEq

/-- What was last written to a half of `ckResult`, and the cookie that was acked with it. -/
structure CookieAnswer where
  cookie : SentCookie
  store : AckStore
deriving DecidableEq

/-- The place of the call of `bora_send_cookie`, with its two addresses; as in `CookieRounds`. -/
inductive RoundPc
  | idle
  | entered (addr1 addr2 : SockAddr)
  | written (addr1 addr2 : SockAddr)
  | posted (addr1 addr2 : SockAddr)
  | waiting (addr1 addr2 : SockAddr)
  | succeeded (addr1 addr2 : SockAddr)
  | cleaned
deriving DecidableEq

namespace RoundPc

def asked : RoundPc → Option (SockAddr × SockAddr)
  | .written addr1 addr2 => some (addr1, addr2)
  | .posted addr1 addr2 => some (addr1, addr2)
  | .waiting addr1 addr2 => some (addr1, addr2)
  | .succeeded addr1 addr2 => some (addr1, addr2)
  | _ => none

end RoundPc

inductive CookieSenderPc
  | look
  | get
  | send (cookie : SentCookie)

namespace CookieSenderPc

def hand : CookieSenderPc → List SentCookie
  | .send cookie => [cookie]
  | _ => []

end CookieSenderPc

/-- `round` counts the rounds that wrote their cookies. The last three fields record the run; the
answers are those since the cookies of the round were written. -/
structure Exchange where
  cookies : Cookies
  pc : RoundPc
  sender : CookieSenderPc
  round : ℕ
  unacked : List SentCookie
  transmitted : List SentCookie
  answer0 : Option CookieAnswer
  answer1 : Option CookieAnswer

inductive ExchangeAction
  | enter (addr1 addr2 : SockAddr)
  | write
  | postFirst
  | postSecond
  | succeed
  | timeout
  | finish
  | tryFull
  | get
  | transmit
  | ack (k : ℕ) (store : AckStore)

namespace Exchange

def init : Exchange := ⟨Cookies.init, .idle, .look, 0, [], [], none, none⟩

/-- `cookie_received` with the ack of the cookie at `k`, which was popped from the list. -/
def answered (s : Exchange) (k : ℕ) (cookie : SentCookie) (store : AckStore) : Exchange :=
  let c := (s.cookies.cookieReceived store).1
  { s with cookies := c, unacked := s.unacked.eraseIdx k
           answer0 := if c.gotcookie0 = s.cookies.gotcookie0 then s.answer0
             else some ⟨cookie, store⟩
           answer1 := if c.gotcookie1 = s.cookies.gotcookie1 then s.answer1
             else some ⟨cookie, store⟩ }

def step (s : Exchange) : ExchangeAction → Option Exchange
  | .enter addr1 addr2 =>
    match s.pc with
    | .idle => s.cookies.waitEmpty.map (fun c => { s with cookies := c, pc := .entered addr1 addr2 })
    | _ => none
  | .write =>
    match s.pc with
    | .entered addr1 addr2 =>
      some { s with cookies := s.cookies.send addr1 addr2, pc := .written addr1 addr2
                    round := s.round + 1, answer0 := none, answer1 := none }
    | _ => none
  | .postFirst =>
    match s.pc with
    | .written addr1 addr2 =>
      some { s with cookies := s.cookies.postFull, pc := .posted addr1 addr2 }
    | _ => none
  | .postSecond =>
    match s.pc with
    | .posted addr1 addr2 =>
      some { s with cookies := s.cookies.postFull, pc := .waiting addr1 addr2 }
    | _ => none
  | .succeed =>
    match s.pc with
    | .waiting addr1 addr2 =>
      s.cookies.waitEmpty.map (fun c => { s with cookies := c, pc := .succeeded addr1 addr2 })
    | _ => none
  -- The timed wait fails only while the semaphore cannot be taken.
  | .timeout =>
    match s.pc with
    | .waiting _ _ =>
      if s.cookies.ckEmpty = 0 then some { s with cookies := s.cookies.cleanup, pc := .cleaned }
      else none
    | _ => none
  | .finish =>
    match s.pc with
    | .succeeded _ _ => some { s with cookies := s.cookies.postEmpty, pc := .idle }
    | .cleaned => some { s with cookies := s.cookies.postEmpty, pc := .idle }
    | _ => none
  | .tryFull =>
    match s.sender with
    | .look => s.cookies.tryFull.map (fun c => { s with cookies := c, sender := .get })
    | _ => none
  -- Without a cookie the program exits.
  | .get =>
    match s.sender with
    | .get =>
      s.cookies.getCookieData.map (fun (d, c) =>
        { s with cookies := c, sender := .send ⟨s.round, s.cookies.nextSlot, d.dest⟩ })
    | _ => none
  | .transmit =>
    match s.sender with
    | .send cookie =>
      some { s with sender := .look, unacked := cookie :: s.unacked
                    transmitted := cookie :: s.transmitted }
    | _ => none
  | .ack k store =>
    match s.unacked[k]? with
    | none => none
    | some cookie => if store.addr = cookie.dest then some (s.answered k cookie store) else none

end Exchange

def exchange : System Exchange ExchangeAction where
  init s := s = Exchange.init
  step := Exchange.step

namespace Exchange

variable {s t : Exchange}

inductive Moves (s : Exchange) : ExchangeAction → Exchange → Prop
  | enter {addr1 addr2 : SockAddr} {c : Cookies} (hpc : s.pc = .idle)
      (hwait : s.cookies.waitEmpty = some c) :
      Moves s (.enter addr1 addr2) { s with cookies := c, pc := .entered addr1 addr2 }
  | write {addr1 addr2 : SockAddr} (hpc : s.pc = .entered addr1 addr2) :
      Moves s .write { s with cookies := s.cookies.send addr1 addr2, pc := .written addr1 addr2
                              round := s.round + 1, answer0 := none, answer1 := none }
  | postFirst {addr1 addr2 : SockAddr} (hpc : s.pc = .written addr1 addr2) :
      Moves s .postFirst { s with cookies := s.cookies.postFull, pc := .posted addr1 addr2 }
  | postSecond {addr1 addr2 : SockAddr} (hpc : s.pc = .posted addr1 addr2) :
      Moves s .postSecond { s with cookies := s.cookies.postFull, pc := .waiting addr1 addr2 }
  | succeed {addr1 addr2 : SockAddr} {c : Cookies} (hpc : s.pc = .waiting addr1 addr2)
      (hwait : s.cookies.waitEmpty = some c) :
      Moves s .succeed { s with cookies := c, pc := .succeeded addr1 addr2 }
  | timeout {addr1 addr2 : SockAddr} (hpc : s.pc = .waiting addr1 addr2)
      (hzero : s.cookies.ckEmpty = 0) :
      Moves s .timeout { s with cookies := s.cookies.cleanup, pc := .cleaned }
  | finish {addr1 addr2 : SockAddr} (hpc : s.pc = .succeeded addr1 addr2) :
      Moves s .finish { s with cookies := s.cookies.postEmpty, pc := .idle }
  | finishCleanup (hpc : s.pc = .cleaned) :
      Moves s .finish { s with cookies := s.cookies.postEmpty, pc := .idle }
  | tryFull {c : Cookies} (hsender : s.sender = .look) (htake : s.cookies.tryFull = some c) :
      Moves s .tryFull { s with cookies := c, sender := .get }
  | get {d : SendData} {c : Cookies} (hsender : s.sender = .get)
      (hget : s.cookies.getCookieData = some (d, c)) :
      Moves s .get { s with cookies := c, sender := .send ⟨s.round, s.cookies.nextSlot, d.dest⟩ }
  | transmit {cookie : SentCookie} (hsender : s.sender = .send cookie) :
      Moves s .transmit { s with sender := .look, unacked := cookie :: s.unacked
                                 transmitted := cookie :: s.transmitted }
  | ack {k : ℕ} {store : AckStore} {cookie : SentCookie} (hk : s.unacked[k]? = some cookie)
      (haddr : store.addr = cookie.dest) : Moves s (.ack k store) (s.answered k cookie store)

theorem step_moves {a : ExchangeAction} (h : s.step a = some t) : Moves s a t := by
  cases a with
  | enter addr1 addr2 =>
    simp only [step] at h
    split at h
    · rename_i hpc
      obtain ⟨c, hwait, rfl⟩ := Option.map_eq_some_iff.mp h
      exact .enter hpc hwait
    · cases h
  | write =>
    simp only [step] at h
    split at h
    · rename_i hpc
      cases h
      exact .write hpc
    · cases h
  | postFirst =>
    simp only [step] at h
    split at h
    · rename_i hpc
      cases h
      exact .postFirst hpc
    · cases h
  | postSecond =>
    simp only [step] at h
    split at h
    · rename_i hpc
      cases h
      exact .postSecond hpc
    · cases h
  | succeed =>
    simp only [step] at h
    split at h
    · rename_i hpc
      obtain ⟨c, hwait, rfl⟩ := Option.map_eq_some_iff.mp h
      exact .succeed hpc hwait
    · cases h
  | timeout =>
    simp only [step] at h
    split at h
    · rename_i hpc
      split at h
      · rename_i hzero
        cases h
        exact .timeout hpc hzero
      · cases h
    · cases h
  | finish =>
    simp only [step] at h
    split at h
    all_goals rename_i hpc
    · cases h
      exact .finish hpc
    · cases h
      exact .finishCleanup hpc
    · cases h
  | tryFull =>
    simp only [step] at h
    split at h
    · rename_i hsender
      obtain ⟨c, htake, rfl⟩ := Option.map_eq_some_iff.mp h
      exact .tryFull hsender htake
    · cases h
  | get =>
    simp only [step] at h
    split at h
    · rename_i hsender
      obtain ⟨⟨d, c⟩, hget, rfl⟩ := Option.map_eq_some_iff.mp h
      exact .get hsender hget
    · cases h
  | transmit =>
    simp only [step] at h
    split at h
    · rename_i cookie hsender
      cases h
      exact .transmit hsender
    · cases h
  | ack k store =>
    simp only [step] at h
    split at h
    · cases h
    · rename_i cookie hk
      split at h
      · rename_i haddr
        cases h
        exact .ack hk haddr
      · cases h

/-- The cookies in the sender's hand, in the list of `append_ack` and behind the answers. -/
def live (s : Exchange) : List SentCookie :=
  s.sender.hand ++ s.unacked ++ (s.answer0.map CookieAnswer.cookie).toList ++
    (s.answer1.map CookieAnswer.cookie).toList

/-- A cookie of the present round was taken from its half of `ckData`, which is marked as sent. -/
structure Placed (s : Exchange) : Prop where
  nodup : s.live.Nodup
  own : ∀ c ∈ s.live, c.round ≤ s.round ∧
    (c.round = s.round → s.cookies.unsent c.slot = false ∧ c.dest = s.cookies.dest c.slot)
  sent : ∀ c ∈ s.live, c ∈ s.sender.hand ∨ c ∈ s.transmitted

theorem Placed.move (h : s.Placed) (hlive : ∀ c, t.live.count c ≤ s.live.count c)
    (hround : s.round ≤ t.round)
    (hflags : t.round = s.round → ∀ i, (t.cookies.unsent i = true → s.cookies.unsent i = true) ∧
      t.cookies.dest i = s.cookies.dest i)
    (hsent : ∀ c, c ∈ s.sender.hand ∨ c ∈ s.transmitted → c ∈ t.sender.hand ∨ c ∈ t.transmitted) :
    t.Placed := by
  have hmem : ∀ c ∈ t.live, c ∈ s.live := by
    intro c hc
    exact List.count_pos_iff.mp ((List.count_pos_iff.mpr hc).trans_le (hlive c))
  refine ⟨?_, ?_, fun c hc => hsent c (h.sent c (hmem c hc))⟩
  · rw [List.nodup_iff_count_le_one]
    exact fun c => (hlive c).trans (List.nodup_iff_count_le_one.mp h.nodup c)
  · intro c hc
    obtain ⟨hle, heq⟩ := h.own c (hmem c hc)
    refine ⟨hle.trans hround, fun hc => ?_⟩
    have hsame : t.round = s.round := le_antisymm (hc ▸ hle) hround
    obtain ⟨hunsent, hdest⟩ := heq (hc.trans hsame)
    obtain ⟨hkept, hdest'⟩ := hflags hsame c.slot
    refine ⟨?_, hdest.trans hdest'.symm⟩
    cases hu : t.cookies.unsent c.slot with
    | false => rfl
    | true => rw [hkept hu] at hunsent; cases hunsent

theorem Placed.frame (h : s.Placed) (hsender : t.sender.hand = s.sender.hand)
    (hunacked : t.unacked = s.unacked) (htransmitted : t.transmitted = s.transmitted)
    (h₀ : t.answer0 = s.answer0) (h₁ : t.answer1 = s.answer1) (hround : t.round = s.round)
    (hflags : ∀ i, (t.cookies.unsent i = true → s.cookies.unsent i = true) ∧
      t.cookies.dest i = s.cookies.dest i) : t.Placed := by
  refine h.move (fun c => ?_) hround.ge (fun _ => hflags) (fun c hc => ?_)
  · rw [live, live, hsender, hunacked, h₀, h₁]
  · rwa [hsender, htransmitted]

theorem placed_get (h : s.Placed) {d : SendData} {c : Cookies} (hs : s.sender = .get)
    (hget : s.cookies.getCookieData = some (d, c)) :
    Placed { s with cookies := c, sender := .send ⟨s.round, s.cookies.nextSlot, d.dest⟩ } := by
  obtain ⟨hwas, hd, hc, hnow, hkept⟩ := Cookies.getCookieData_slot hget
  have hlive : live { s with cookies := c, sender := .send ⟨s.round, s.cookies.nextSlot, d.dest⟩ } =
      ⟨s.round, s.cookies.nextSlot, d.dest⟩ :: s.live := by
    simp [live, hs, CookieSenderPc.hand]
  have hdest : ∀ i, c.dest i = s.cookies.dest i := by
    rcases hc with rfl | rfl <;> exact Fin.forall_fin_two.mpr ⟨rfl, rfl⟩
  refine ⟨?_, ?_, ?_⟩
  · rw [hlive]
    refine List.nodup_cons.mpr ⟨fun hmem => ?_, h.nodup⟩
    -- The half was still marked, so no cookie of this round was taken from it.
    obtain ⟨hunsent, -⟩ := (h.own _ hmem).2 rfl
    rw [hwas] at hunsent
    cases hunsent
  · rw [hlive]
    intro x hx
    rcases List.mem_cons.mp hx with rfl | hx
    · refine ⟨le_rfl, fun _ => ⟨hnow, ?_⟩⟩
      rw [hdest, hd]
      rfl
    · obtain ⟨hle, heq⟩ := h.own x hx
      refine ⟨hle, fun hround => ?_⟩
      obtain ⟨hunsent, hx'⟩ := heq hround
      refine ⟨?_, hx'.trans (hdest _).symm⟩
      cases hu : c.unsent x.slot with
      | false => rfl
      | true => rw [hkept _ hu] at hunsent; cases hunsent
  · rw [hlive]
    intro x hx
    rcases List.mem_cons.mp hx with rfl | hx
    · exact .inl (List.mem_singleton_self _)
    · rcases h.sent x hx with hhand | hsent
      · rw [hs] at hhand
        cases hhand
      · exact .inr hsent

theorem live_answered {k : ℕ} {cookie : SentCookie} (hk : s.unacked[k]? = some cookie)
    (store : AckStore) (c : SentCookie) :
    (s.answered k cookie store).live.count c ≤ s.live.count c := by
  obtain ⟨hlt, hget⟩ := List.getElem?_eq_some_iff.mp hk
  have hperm : (cookie :: s.unacked.eraseIdx k).Perm s.unacked :=
    hget ▸ List.getElem_cons_eraseIdx_perm hlt
  have hunacked := hperm.count_eq c
  rw [List.count_cons] at hunacked
  rcases s.cookies.cookieReceived_cases store with ⟨hgot, -, hc⟩ | ⟨hgot, -, hc⟩ | ⟨-, -, hc⟩
  · simp only [live, answered, hc, hgot, List.count_append, Bool.true_eq_false, if_false, if_true,
      Option.map_some, Option.toList_some, List.count_singleton]
    omega
  · simp only [live, answered, hc, hgot, List.count_append, Bool.true_eq_false, if_false, if_true,
      Option.map_some, Option.toList_some, List.count_singleton]
    omega
  · simp only [live, answered, hc, List.count_append, if_true]
    omega

theorem Placed.step (h : s.Placed) {a : ExchangeAction} (hs : s.step a = some t) : t.Placed := by
  have hempty : ∀ {c}, s.cookies.waitEmpty = some c → ∀ i,
      (c.unsent i = true → s.cookies.unsent i = true) ∧ c.dest i = s.cookies.dest i := by
    intro c hc
    rw [(Cookies.waitEmpty_eq hc).2]
    exact Cookies.halves_same rfl rfl rfl rfl
  cases step_moves hs with
  | enter hpc hwait => exact h.frame rfl rfl rfl rfl rfl rfl (hempty hwait)
  | write =>
    refine h.move (fun c => ?_) (Nat.le_succ _) (fun hround => absurd hround (Nat.succ_ne_self _))
      (fun c hc => hc)
    simp only [live, Option.map_none, Option.toList_none, List.append_nil, List.count_append]
    omega
  | postFirst =>
    exact h.frame rfl rfl rfl rfl rfl rfl (Cookies.halves_same rfl rfl rfl rfl)
  | postSecond =>
    exact h.frame rfl rfl rfl rfl rfl rfl (Cookies.halves_same rfl rfl rfl rfl)
  | succeed hpc hwait => exact h.frame rfl rfl rfl rfl rfl rfl (hempty hwait)
  | timeout =>
    exact h.frame rfl rfl rfl rfl rfl rfl (Fin.forall_fin_two.mpr ⟨⟨nofun, rfl⟩, ⟨nofun, rfl⟩⟩)
  | finish =>
    exact h.frame rfl rfl rfl rfl rfl rfl (Cookies.halves_same rfl rfl rfl rfl)
  | finishCleanup =>
    exact h.frame rfl rfl rfl rfl rfl rfl (Cookies.halves_same rfl rfl rfl rfl)
  | tryFull hsender htake =>
    refine h.frame (by rw [hsender]; rfl) rfl rfl rfl rfl rfl ?_
    rw [Cookies.tryFull_eq htake]
    exact Cookies.halves_same rfl rfl rfl rfl
  | get hsender hget => exact placed_get h hsender hget
  | transmit hsender =>
    refine h.move (fun c => ?_) le_rfl (fun _ => Cookies.halves_same rfl rfl rfl rfl)
      (fun c hc => ?_)
    · simp [live, hsender, CookieSenderPc.hand]
    · rw [hsender] at hc
      rcases hc with hc | hc
      · exact .inr (List.mem_singleton.mp hc ▸ List.mem_cons_self)
      · exact .inr (List.mem_cons_of_mem _ hc)
  | @ack k store cookie hk haddr =>
    refine h.move (live_answered hk store) le_rfl (fun _ => ?_) (fun c hc => hc)
    show ∀ i, ((s.cookies.cookieReceived store).1.unsent i = true → _) ∧
      (s.cookies.cookieReceived store).1.dest i = _
    rcases s.cookies.cookieReceived_cases store with ⟨-, -, hc⟩ | ⟨-, -, hc⟩ | ⟨-, -, hc⟩ <;>
      · rw [hc]
        exact Cookies.halves_same rfl rfl rfl rfl

theorem placed_reachable {ok : Exchange → ExchangeAction → Prop} (h : Reaches exchange ok s) :
    s.Placed := by
  apply h.invariant
  · rintro _ rfl
    exact ⟨List.nodup_nil, nofun, nofun⟩
  · intro s a t hp _ hs
    exact hp.step hs

/-- An address that `cookie_received` takes an ack from, and one from which it takes the second
of two. -/
def Awaited (c : Cookies) (addr : SockAddr) : Prop :=
  c.gotcookie0 = false ∧ addr = c.to0 ∨ c.gotcookie1 = false ∧ addr = c.to1

def Completes (c : Cookies) (addr : SockAddr) : Prop :=
  c.gotcookie0 = false ∧ c.gotcookie1 = true ∧ addr = c.to0 ∨
    c.gotcookie0 = true ∧ c.gotcookie1 = false ∧ addr = c.to1

/-- An ack whose round is over is not taken by a later round, nor as the second answer while no
round is on. -/
def NoLateAnswer (s : Exchange) : ExchangeAction → Prop
  | .ack k _ => ∀ cookie ∈ s.unacked[k]?,
      if s.pc.asked = none then ¬ Completes s.cookies cookie.dest
      else cookie.round = s.round ∨ ¬ Awaited s.cookies cookie.dest
  | _ => True

def tokens (s : Exchange) : ℕ :=
  match s.pc with
  | .idle => 1
  | .written _ _ => (s.cookies.gotcookie0 && s.cookies.gotcookie1).toNat
  | .posted _ _ => (s.cookies.gotcookie0 && s.cookies.gotcookie1).toNat
  | .waiting _ _ => (s.cookies.gotcookie0 && s.cookies.gotcookie1).toNat
  | _ => 0

/-- One half of `gotcookie` and `ckResult`, in a round: it has an answer when a cookie of the
round was acked, and from the address of that half. -/
structure AnswerOf (round : ℕ) (gotcookie : Bool) (addr : SockAddr) (ckResult : AckStore)
    (answer : Option CookieAnswer) : Prop where
  got : gotcookie = answer.isSome
  cookie : ∀ a ∈ answer, a.cookie.round = round ∧ a.cookie.dest = addr
  store : ∀ a ∈ answer, a.store = ckResult ∧ a.store.addr = addr

theorem answerOf_none (round : ℕ) (addr : SockAddr) (ckResult : AckStore) :
    AnswerOf round false addr ckResult none where
  got := rfl
  cookie _ h := absurd h (Option.not_mem_none _)
  store _ h := absurd h (Option.not_mem_none _)

structure Apart (s : Exchange) : Prop where
  tokens : s.cookies.ckEmpty = s.tokens
  dests : ∀ addr1 addr2, s.pc.asked = some (addr1, addr2) →
    s.cookies.to0 = addr1 ∧ s.cookies.to1 = addr2
  both : ∀ addr1 addr2, s.pc = .succeeded addr1 addr2 →
    s.cookies.gotcookie0 = true ∧ s.cookies.gotcookie1 = true
  first : s.pc.asked ≠ none →
    AnswerOf s.round s.cookies.gotcookie0 s.cookies.to0 s.cookies.ckResult0 s.answer0
  second : s.pc.asked ≠ none →
    AnswerOf s.round s.cookies.gotcookie1 s.cookies.to1 s.cookies.ckResult1 s.answer1

theorem apart_init : init.Apart where
  tokens := rfl
  dests := nofun
  both := nofun
  first := fun h => absurd rfl h
  second := fun h => absurd rfl h

theorem apart_of_not_asked (hpc : s.pc.asked = none) (htokens : s.cookies.ckEmpty = s.tokens) :
    s.Apart where
  tokens := htokens
  dests := fun _ _ h => by rw [hpc] at h; cases h
  both := fun _ _ h => by rw [h] at hpc; cases hpc
  first := fun h => absurd hpc h
  second := fun h => absurd hpc h

/-- An ack when no round is on: it must not be the second answer. -/
theorem Apart.answered_over (h : s.Apart) (hpc : s.pc.asked = none) {k : ℕ} {cookie : SentCookie}
    {store : AckStore} (hnot : ¬ Completes s.cookies store.addr) :
    (s.answered k cookie store).Apart := by
  have htokens : s.tokens = (s.answered k cookie store).tokens := by
    unfold Exchange.tokens
    cases hcase : s.pc with
    | written addr1 addr2 => rw [hcase] at hpc; cases hpc
    | posted addr1 addr2 => rw [hcase] at hpc; cases hpc
    | waiting addr1 addr2 => rw [hcase] at hpc; cases hpc
    | idle => simp [answered, hcase]
    | entered addr1 addr2 => simp [answered, hcase]
    | succeeded addr1 addr2 => simp [answered, hcase]
    | cleaned => simp [answered, hcase]
  refine apart_of_not_asked hpc ?_
  rw [← htokens, ← h.tokens]
  show (s.cookies.cookieReceived store).1.ckEmpty = _
  rcases s.cookies.cookieReceived_cases store with
    ⟨hgot, haddr, hc⟩ | ⟨hgot, haddr, hc⟩ | ⟨-, -, hc⟩ <;> rw [hc]
  · cases h₁ : s.cookies.gotcookie1 with
    | false => rfl
    | true => exact absurd (.inl ⟨hgot, h₁, haddr⟩) hnot
  · cases h₀ : s.cookies.gotcookie0 with
    | false => rfl
    | true => exact absurd (.inr ⟨h₀, hgot, haddr⟩) hnot

theorem tokens_asked (hasked : s.pc.asked ≠ none)
    (hnot : ∀ addr1 addr2, s.pc ≠ .succeeded addr1 addr2) :
    s.tokens = (s.cookies.gotcookie0 && s.cookies.gotcookie1).toNat := by
  unfold tokens
  cases hcase : s.pc with
  | idle => rw [hcase] at hasked; exact absurd rfl hasked
  | entered addr1 addr2 => rw [hcase] at hasked; exact absurd rfl hasked
  | cleaned => rw [hcase] at hasked; exact absurd rfl hasked
  | succeeded addr1 addr2 => exact absurd hcase (hnot addr1 addr2)
  | written addr1 addr2 => rfl
  | posted addr1 addr2 => rfl
  | waiting addr1 addr2 => rfl

theorem Apart.answered_on (h : s.Apart) (hpc : s.pc.asked ≠ none) {k : ℕ} {cookie : SentCookie}
    {store : AckStore} (hround : cookie.round = s.round) (haddr : store.addr = cookie.dest) :
    (s.answered k cookie store).Apart := by
  have hfirst := h.first hpc
  have hsecond := h.second hpc
  have htokens := h.tokens
  rcases s.cookies.cookieReceived_cases store with
    ⟨hgot, hto, hc⟩ | ⟨hgot, hto, hc⟩ | ⟨-, -, hc⟩
  · have hnot : ∀ addr1 addr2, s.pc ≠ .succeeded addr1 addr2 := by
      intro addr1 addr2 hs
      rw [(h.both addr1 addr2 hs).1] at hgot
      cases hgot
    rw [tokens_asked hpc hnot, hgot, Bool.false_and] at htokens
    refine ⟨?_, ?_, fun addr1 addr2 hs => absurd hs (hnot addr1 addr2), fun _ => ?_, fun _ => ?_⟩
    · rw [tokens_asked (s := s.answered k cookie store) hpc hnot]
      simp only [answered, hc, Bool.true_and, htokens, Bool.toNat_false, Nat.zero_add]
    · simpa only [answered, hc] using h.dests
    · simp only [answered, hc, hgot, Bool.true_eq_false, if_false]
      refine ⟨rfl, ?_, ?_⟩ <;> rintro _ ⟨⟩
      · exact ⟨hround, haddr.symm.trans hto⟩
      · exact ⟨rfl, hto⟩
    · simpa only [answered, hc, if_true] using hsecond
  · have hnot : ∀ addr1 addr2, s.pc ≠ .succeeded addr1 addr2 := by
      intro addr1 addr2 hs
      rw [(h.both addr1 addr2 hs).2] at hgot
      cases hgot
    rw [tokens_asked hpc hnot, hgot, Bool.and_false] at htokens
    refine ⟨?_, ?_, fun addr1 addr2 hs => absurd hs (hnot addr1 addr2), fun _ => ?_, fun _ => ?_⟩
    · rw [tokens_asked (s := s.answered k cookie store) hpc hnot]
      simp only [answered, hc, Bool.and_true, htokens, Bool.toNat_false, Nat.zero_add]
    · simpa only [answered, hc] using h.dests
    · simpa only [answered, hc, if_true] using hfirst
    · simp only [answered, hc, hgot, Bool.true_eq_false, if_false]
      refine ⟨rfl, ?_, ?_⟩ <;> rintro _ ⟨⟩
      · exact ⟨hround, haddr.symm.trans hto⟩
      · exact ⟨rfl, hto⟩
  · refine ⟨?_, ?_, ?_, fun _ => ?_, fun _ => ?_⟩
    · simpa only [answered, hc, Exchange.tokens] using htokens
    · simpa only [answered, hc] using h.dests
    · simpa only [answered, hc] using h.both
    · simpa only [answered, hc, if_true] using hfirst
    · simpa only [answered, hc, if_true] using hsecond

theorem Apart.answered_rejected (h : s.Apart) {k : ℕ} {cookie : SentCookie} {store : AckStore}
    (hnot : ¬ Awaited s.cookies store.addr) : (s.answered k cookie store).Apart := by
  rcases s.cookies.cookieReceived_cases store with
    ⟨hgot, hto, -⟩ | ⟨hgot, hto, -⟩ | ⟨-, -, hc⟩
  · exact absurd (.inl ⟨hgot, hto⟩) hnot
  · exact absurd (.inr ⟨hgot, hto⟩) hnot
  · refine ⟨?_, ?_, ?_, ?_, ?_⟩
    · simpa only [answered, hc, Exchange.tokens] using h.tokens
    · simpa only [answered, hc] using h.dests
    · simpa only [answered, hc] using h.both
    · simpa only [answered, hc, if_true] using h.first
    · simpa only [answered, hc, if_true] using h.second

theorem Apart.step (h : s.Apart) {a : ExchangeAction} (ha : NoLateAnswer s a)
    (hs : s.step a = some t) : t.Apart := by
  have htokens := h.tokens
  cases step_moves hs with
  | @enter addr1 addr2 c hpc hwait =>
    refine apart_of_not_asked rfl ?_
    simp only [Exchange.tokens, hpc] at htokens
    have hone := (Cookies.waitEmpty_eq hwait).1
    show c.ckEmpty = 0
    omega
  | write hpc =>
    simp only [Exchange.tokens, hpc] at htokens
    refine ⟨htokens, ?_, nofun, fun _ => answerOf_none _ _ _, fun _ => answerOf_none _ _ _⟩
    rintro _ _ ⟨⟩
    exact ⟨rfl, rfl⟩
  | postFirst hpc =>
    simp only [Exchange.tokens, hpc] at htokens
    have hasked : s.pc.asked ≠ none := by rw [hpc]; exact Option.some_ne_none _
    exact ⟨htokens, fun _ _ hd => h.dests _ _ (by rw [hpc]; exact hd), nofun,
      fun _ => h.first hasked, fun _ => h.second hasked⟩
  | postSecond hpc =>
    simp only [Exchange.tokens, hpc] at htokens
    have hasked : s.pc.asked ≠ none := by rw [hpc]; exact Option.some_ne_none _
    exact ⟨htokens, fun _ _ hd => h.dests _ _ (by rw [hpc]; exact hd), nofun,
      fun _ => h.first hasked, fun _ => h.second hasked⟩
  | @succeed addr1 addr2 c hpc hwait =>
    obtain ⟨hone, hc⟩ := Cookies.waitEmpty_eq hwait
    simp only [Exchange.tokens, hpc] at htokens
    have hasked : s.pc.asked ≠ none := by rw [hpc]; exact Option.some_ne_none _
    -- There was a token, so both flags are set, and it is gone now.
    have hboth : (s.cookies.gotcookie0 && s.cookies.gotcookie1) = true := by
      cases hb : s.cookies.gotcookie0 && s.cookies.gotcookie1 with
      | true => rfl
      | false => rw [hb, Bool.toNat_false] at htokens; omega
    rw [hboth, Bool.toNat_true] at htokens
    have hzero : c.ckEmpty = 0 := by omega
    rw [hc]
    exact ⟨hzero, fun _ _ hd => h.dests _ _ (by rw [hpc]; exact hd),
      fun _ _ _ => by simpa using hboth, fun _ => h.first hasked, fun _ => h.second hasked⟩
  | timeout hpc hzero => exact apart_of_not_asked rfl hzero
  | finish hpc =>
    simp only [Exchange.tokens, hpc] at htokens
    exact apart_of_not_asked rfl (congrArg (· + 1) htokens)
  | finishCleanup hpc =>
    simp only [Exchange.tokens, hpc] at htokens
    exact apart_of_not_asked rfl (congrArg (· + 1) htokens)
  | tryFull hsender htake =>
    rw [Cookies.tryFull_eq htake]
    exact ⟨h.tokens, h.dests, h.both, h.first, h.second⟩
  | get hsender hget =>
    obtain ⟨-, -, rfl | rfl, -, -⟩ := Cookies.getCookieData_slot hget <;>
      exact ⟨h.tokens, h.dests, h.both, h.first, h.second⟩
  | transmit => exact ⟨h.tokens, h.dests, h.both, h.first, h.second⟩
  | @ack k store cookie hk haddr =>
    have hnot := ha cookie hk
    rw [← haddr] at hnot
    split at hnot
    · rename_i hpc
      exact h.answered_over hpc hnot
    · rename_i hpc
      rcases hnot with hround | hnot
      · exact h.answered_on hpc hround haddr
      · exact h.answered_rejected hnot

theorem apart_reaches (h : Reaches exchange NoLateAnswer s) : s.Apart := by
  apply h.invariant
  · rintro _ rfl
    exact apart_init
  · intro s a t hp ha hs
    exact hp.step ha hs

/-- Both halves of `ckResult` were written in the present round, by acks of its two cookies. Where
these went to one address the first ack answers the first half. -/
def Fresh (s : Exchange) (addr1 addr2 : SockAddr) : Prop :=
  ∃ a₀ ∈ s.answer0, ∃ a₁ ∈ s.answer1,
    a₀.store = s.cookies.ckResult0 ∧ a₀.store.addr = addr1 ∧ a₀.cookie ∈ s.transmitted ∧
    a₁.store = s.cookies.ckResult1 ∧ a₁.store.addr = addr2 ∧ a₁.cookie ∈ s.transmitted ∧
    (a₀.cookie = ⟨s.round, 0, addr1⟩ ∧ a₁.cookie = ⟨s.round, 1, addr2⟩ ∨
      a₀.cookie = ⟨s.round, 1, addr2⟩ ∧ a₁.cookie = ⟨s.round, 0, addr1⟩)

theorem tokens_le (s : Exchange) : s.tokens ≤ 1 := by
  unfold tokens
  split
  · exact le_rfl
  · exact Bool.toNat_le _
  · exact Bool.toNat_le _
  · exact Bool.toNat_le _
  · exact Nat.zero_le _

theorem Placed.answer_cookie (h : s.Placed) {addr1 addr2 : SockAddr}
    (hto : s.cookies.to0 = addr1 ∧ s.cookies.to1 = addr2) {c : SentCookie} (hc : c ∈ s.live)
    (hround : c.round = s.round) :
    c = ⟨s.round, 0, addr1⟩ ∨ c = ⟨s.round, 1, addr2⟩ := by
  obtain ⟨-, hdest⟩ := (h.own c hc).2 hround
  obtain ⟨rfl, rfl⟩ := hto
  obtain ⟨round, slot, dest⟩ := c
  obtain rfl : round = s.round := hround
  obtain rfl : dest = s.cookies.dest slot := hdest
  revert slot
  exact Fin.forall_fin_two.mpr ⟨fun _ => .inl rfl, fun _ => .inr rfl⟩

theorem fresh_of_succeeded (hp : s.Placed) (ha : s.Apart) {addr1 addr2 : SockAddr}
    (hpc : s.pc = .succeeded addr1 addr2) : s.Fresh addr1 addr2 := by
  have hasked : s.pc.asked = some (addr1, addr2) := by rw [hpc]; rfl
  have hsome : s.pc.asked ≠ none := by rw [hasked]; exact Option.some_ne_none _
  have hto := ha.dests addr1 addr2 hasked
  obtain ⟨hgot₀, hgot₁⟩ := ha.both addr1 addr2 hpc
  obtain ⟨hhas₀, hcookie₀, hstore₀⟩ := ha.first hsome
  obtain ⟨hhas₁, hcookie₁, hstore₁⟩ := ha.second hsome
  obtain ⟨a₀, ha₀⟩ := Option.isSome_iff_exists.mp (hhas₀.symm.trans hgot₀)
  obtain ⟨a₁, ha₁⟩ := Option.isSome_iff_exists.mp (hhas₁.symm.trans hgot₁)
  have hlive : s.live = s.sender.hand ++ s.unacked ++ [a₀.cookie] ++ [a₁.cookie] := by
    simp [live, ha₀, ha₁]
  have hmem₀ : a₀.cookie ∈ s.live := by simp [hlive]
  have hmem₁ : a₁.cookie ∈ s.live := by simp [hlive]
  have hnodup := hlive ▸ hp.nodup
  -- A cookie behind an answer is not in the sender's hand any more, so it was transmitted.
  have hsent : ∀ c, c ∈ s.live → c ∉ s.sender.hand → c ∈ s.transmitted :=
    fun c hc hhand => (hp.sent c hc).resolve_left hhand
  have hhand₀ : a₀.cookie ∉ s.sender.hand := by
    intro hmem
    simp only [List.append_assoc] at hnodup
    exact (List.nodup_append.mp hnodup).2.2 _ hmem _ (by simp) rfl
  have hhand₁ : a₁.cookie ∉ s.sender.hand := by
    intro hmem
    simp only [List.append_assoc] at hnodup
    exact (List.nodup_append.mp hnodup).2.2 _ hmem _ (by simp) rfl
  have hne : a₀.cookie ≠ a₁.cookie :=
    (List.nodup_append.mp hnodup).2.2 _ (by simp) _ (List.mem_singleton_self _)
  obtain ⟨hst₀, haddr₀⟩ := hstore₀ a₀ ha₀
  obtain ⟨hst₁, haddr₁⟩ := hstore₁ a₁ ha₁
  refine ⟨a₀, ha₀, a₁, ha₁, hst₀, haddr₀.trans hto.1, hsent _ hmem₀ hhand₀, hst₁,
    haddr₁.trans hto.2, hsent _ hmem₁ hhand₁, ?_⟩
  rcases hp.answer_cookie hto hmem₀ (hcookie₀ a₀ ha₀).1 with h₀ | h₀ <;>
    rcases hp.answer_cookie hto hmem₁ (hcookie₁ a₁ ha₁).1 with h₁ | h₁
  · exact absurd (h₀.trans h₁.symm) hne
  · exact .inl ⟨h₀, h₁⟩
  · exact .inr ⟨h₀, h₁⟩
  · exact absurd (h₀.trans h₁.symm) hne

/-- In every run in which no late ack is taken by a later round or completes the pair while no
round is on, `ckEmpty` never exceeds 1 and a round that succeeds has the answers to its own two
cookies. -/
theorem rounds_apart (h : Reaches exchange NoLateAnswer s) :
    s.cookies.ckEmpty ≤ 1 ∧
      ∀ addr1 addr2, s.pc = .succeeded addr1 addr2 → s.Fresh addr1 addr2 := by
  have ha := apart_reaches h
  refine ⟨?_, fun addr1 addr2 hpc => fresh_of_succeeded (placed_reachable h) ha hpc⟩
  rw [ha.tokens]
  exact tokens_le s

/-- The first step that does not meet the condition leaves a token too many, or an answer to a
cookie of another round. -/
theorem late_answer_mixes (h : Reaches exchange NoLateAnswer s) {a : ExchangeAction}
    (ha : ¬ NoLateAnswer s a) (hs : s.step a = some t) :
    t.cookies.ckEmpty = t.tokens + 1 ∨
      ∃ answer, (t.answer0 = some answer ∨ t.answer1 = some answer) ∧
        answer.cookie.round ≠ t.round := by
  have hapart := apart_reaches h
  cases a with
  | ack k store =>
    obtain ⟨cookie, hcookie⟩ := not_forall.mp ha
    obtain ⟨hk, hlate⟩ := Classical.not_imp.mp hcookie
    have hk : s.unacked[k]? = some cookie := hk
    simp only [step, hk] at hs
    split at hs
    · rename_i haddr
      cases hs
      rw [← haddr] at hlate
      split at hlate
      · rename_i hpc
        left
        have htokens : (s.answered k cookie store).tokens = s.tokens := by
          cases hcase : s.pc <;> simp_all [Exchange.tokens, answered, RoundPc.asked]
        rw [htokens, ← hapart.tokens]
        show (s.cookies.cookieReceived store).1.ckEmpty = _
        rcases not_not.mp hlate with ⟨h₀, h₁, hto⟩ | ⟨h₀, h₁, hto⟩ <;>
          simp [Cookies.cookieReceived, Cookies.checkAnswers, Cookies.postEmpty, h₀, h₁, hto]
      · right
        obtain ⟨hround, hawaited⟩ := not_or.mp hlate
        have hawaited := not_not.mp hawaited
        refine ⟨⟨cookie, store⟩, ?_, hround⟩
        rcases s.cookies.cookieReceived_cases store with
          ⟨hgot, -, hc⟩ | ⟨hgot, -, hc⟩ | ⟨hno₀, hno₁, -⟩
        · exact .inl (by simp [answered, hc, hgot])
        · exact .inr (by simp [answered, hc, hgot])
        · rcases hawaited with ⟨hgot, hto⟩ | ⟨hgot, hto⟩
          · exact absurd hto (hno₀ hgot)
          · exact absurd hto (hno₁ hgot)
    · cases hs
  | enter addr1 addr2 => exact absurd trivial ha
  | write => exact absurd trivial ha
  | postFirst => exact absurd trivial ha
  | postSecond => exact absurd trivial ha
  | succeed => exact absurd trivial ha
  | timeout => exact absurd trivial ha
  | finish => exact absurd trivial ha
  | tryFull => exact absurd trivial ha
  | get => exact absurd trivial ha
  | transmit => exact absurd trivial ha

instance (c : Cookies) (addr : SockAddr) : Decidable (Awaited c addr) :=
  inferInstanceAs (Decidable (_ ∨ _))

instance (c : Cookies) (addr : SockAddr) : Decidable (Completes c addr) :=
  inferInstanceAs (Decidable (_ ∨ _))

instance (s : Exchange) (a : ExchangeAction) : Decidable (NoLateAnswer s a) := by
  unfold NoLateAnswer
  split <;> infer_instance

/-- A round up to its timed wait, and the transmission of both its cookies. -/
def callTo (addr1 addr2 : SockAddr) : List ExchangeAction :=
  [.enter addr1 addr2, .write, .postFirst, .postSecond]

def sendBoth : List ExchangeAction := [.tryFull, .get, .transmit, .tryFull, .get, .transmit]

def ackFrom (addr : SockAddr) : AckStore := { (default : AckStore) with addr := addr }

/-- A round times out, one of its acks comes late, and the next round has its own two answers. -/
theorem rounds_apart_run :
    ∃ s, exchange.runIf NoLateAnswer init (callTo ⟨1, 1⟩ ⟨2, 1⟩ ++ sendBoth ++
        [.timeout, .finish, .ack 1 (ackFrom ⟨1, 1⟩)] ++ callTo ⟨3, 1⟩ ⟨4, 1⟩ ++ sendBoth ++
        [.ack 1 (ackFrom ⟨3, 1⟩), .ack 0 (ackFrom ⟨4, 1⟩), .succeed]) = some s ∧
      s.pc = .succeeded ⟨3, 1⟩ ⟨4, 1⟩ ∧ s.cookies.ckEmpty ≤ 1 ∧ s.Fresh ⟨3, 1⟩ ⟨4, 1⟩ := by
  have hrun : (exchange.runIf NoLateAnswer init (callTo ⟨1, 1⟩ ⟨2, 1⟩ ++ sendBoth ++
      [.timeout, .finish, .ack 1 (ackFrom ⟨1, 1⟩)] ++ callTo ⟨3, 1⟩ ⟨4, 1⟩ ++ sendBoth ++
      [.ack 1 (ackFrom ⟨3, 1⟩), .ack 0 (ackFrom ⟨4, 1⟩), .succeed])).map (fun s => s.pc) =
        some (.succeeded ⟨3, 1⟩ ⟨4, 1⟩) := by
    decide +kernel
  obtain ⟨s, hs, hpc⟩ := Option.map_eq_some_iff.mp hrun
  obtain ⟨hempty, hfresh⟩ := rounds_apart ((Reaches.init rfl).runIf hs)
  exact ⟨s, hs, hpc, hempty, hfresh _ _ hpc⟩

/-- A round times out, then both its acks come: two tokens are left, and the next round succeeds
before anything of it was sent. -/
theorem rounds_mixed :
    (∃ s, Reachable exchange s ∧ s.pc = .idle ∧ s.cookies.ckEmpty = 2) ∧
      ∃ s, Reachable exchange s ∧ s.pc = .succeeded ⟨3, 1⟩ ⟨4, 1⟩ ∧ ¬ s.Fresh ⟨3, 1⟩ ⟨4, 1⟩ := by
  have hlate : (exchange.runIf (fun _ _ => True) init (callTo ⟨1, 1⟩ ⟨2, 1⟩ ++ sendBoth ++
      [.timeout, .finish, .ack 1 (ackFrom ⟨1, 1⟩), .ack 0 (ackFrom ⟨2, 1⟩)])).map
        (fun s => (s.pc, s.cookies.ckEmpty)) = some (.idle, 2) := by
    decide +kernel
  have hstale : (exchange.runIf (fun _ _ => True) init (callTo ⟨1, 1⟩ ⟨2, 1⟩ ++ sendBoth ++
      [.timeout, .finish, .ack 1 (ackFrom ⟨1, 1⟩), .ack 0 (ackFrom ⟨2, 1⟩)] ++
      callTo ⟨3, 1⟩ ⟨4, 1⟩ ++ [.succeed])).map (fun s => (s.pc, s.answer0)) =
        some (.succeeded ⟨3, 1⟩ ⟨4, 1⟩, none) := by
    decide +kernel
  obtain ⟨s, hs, hstate⟩ := Option.map_eq_some_iff.mp hlate
  obtain ⟨hpc, hempty⟩ := Prod.mk.inj hstate
  obtain ⟨t, ht, htstate⟩ := Option.map_eq_some_iff.mp hstale
  obtain ⟨htpc, hanswer⟩ := Prod.mk.inj htstate
  refine ⟨⟨s, (Reaches.init rfl).runIf hs, hpc, hempty⟩, t, (Reaches.init rfl).runIf ht, htpc, ?_⟩
  rintro ⟨a₀, ha₀, -⟩
  rw [hanswer] at ha₀
  cases ha₀

end Exchange

end Bora
