import Bora.NetEncoder

/-! The cookie exchange of cookie_sender.c: two marked packets, the flags that say which of
them are still to be sent and which were answered, and the two semaphores around them. -/
namespace Bora

open ByteMemory

/-- `AckStore` of ack_received.h; `addr` is what its pointer refers to. -/
structure AckStore where
  addr : SockAddr
  sent : Timeval
  RTT : Timeval
  STT : Timeval
  seq : UInt16
  sleeptime : UInt32
deriving DecidableEq

instance : Inhabited AckStore := ⟨⟨default, default, default, default, 0, 0⟩⟩

def bogusData (addr : SockAddr) : SendData where
  data := (needAck ||| cookieMsg) :: List.replicate (mtu + headerSize - 1) 1
  dest := addr
  fits := by rw [List.length_cons, List.length_replicate]; decide

/-- `to0` and `to1` are the destinations in `ckData`. -/
structure Cookies where
  to0 : SockAddr
  to1 : SockAddr
  havecookie0 : Bool
  havecookie1 : Bool
  gotcookie0 : Bool
  gotcookie1 : Bool
  ckResult0 : AckStore
  ckResult1 : AckStore
  ckFull : ℕ
  ckEmpty : ℕ

namespace Cookies

def init : Cookies :=
  ⟨default, default, false, false, false, false, default, default, 0, 1⟩

/-- What `send_cookie` writes between its wait and its posts. -/
def send (c : Cookies) (addr1 addr2 : SockAddr) : Cookies :=
  { c with to0 := addr1, to1 := addr2, havecookie0 := true, havecookie1 := true,
           gotcookie0 := false, gotcookie1 := false }

def postFull (c : Cookies) : Cookies := { c with ckFull := c.ckFull + 1 }
def postEmpty (c : Cookies) : Cookies := { c with ckEmpty := c.ckEmpty + 1 }

/-- `sem_trywait(&ckFull)`, and a wait on `ckEmpty` that returns. -/
def tryFull (c : Cookies) : Option Cookies :=
  if c.ckFull = 0 then none else some { c with ckFull := c.ckFull - 1 }
def waitEmpty (c : Cookies) : Option Cookies :=
  if c.ckEmpty = 0 then none else some { c with ckEmpty := c.ckEmpty - 1 }

def checkAnswers (c : Cookies) : Cookies :=
  if c.gotcookie1 && c.gotcookie0 then c.postEmpty else c

/-- `get_cookie_data`; `none` is the exit after NO COOKIES TO SEND. -/
def getCookieData (c : Cookies) : Option (SendData × Cookies) :=
  if c.havecookie0 then some (bogusData c.to0, { c with havecookie0 := false })
  else if c.havecookie1 then some (bogusData c.to1, { c with havecookie1 := false })
  else none

def cookieReceived (c : Cookies) (ack : AckStore) : Cookies × Bool :=
  if c.gotcookie0 = false ∧ ack.addr = c.to0 then
    ({ c with gotcookie0 := true, ckResult0 := ack }.checkAnswers, true)
  else if c.gotcookie1 = false ∧ ack.addr = c.to1 then
    ({ c with gotcookie1 := true, ckResult1 := ack }.checkAnswers, true)
  else (c, false)

def cleanup (c : Cookies) : Cookies := { c with havecookie0 := false, havecookie1 := false }

def marked (c : Cookies) : ℕ := c.havecookie0.toNat + c.havecookie1.toNat

@[simp] theorem marked_send (c : Cookies) (addr1 addr2 : SockAddr) :
    (c.send addr1 addr2).marked = 2 := rfl

@[simp] theorem marked_cleanup (c : Cookies) : c.cleanup.marked = 0 := rfl

theorem tryFull_some {c c' : Cookies} (h : c.tryFull = some c') :
    c'.ckFull + 1 = c.ckFull ∧ c'.marked = c.marked := by
  unfold tryFull at h
  split at h
  · cases h
  · rename_i hpos
    cases h
    exact ⟨Nat.sub_add_cancel (Nat.pos_of_ne_zero hpos), rfl⟩

theorem tryFull_eq {c c' : Cookies} (h : c.tryFull = some c') :
    c' = { c with ckFull := c'.ckFull } := by
  unfold tryFull at h
  split at h
  · cases h
  · cases h
    rfl

theorem waitEmpty_eq {c c' : Cookies} (h : c.waitEmpty = some c') :
    c.ckEmpty = c'.ckEmpty + 1 ∧ c' = { c with ckEmpty := c'.ckEmpty } := by
  unfold waitEmpty at h
  split at h
  · cases h
  · rename_i hpos
    cases h
    exact ⟨(Nat.sub_add_cancel (Nat.pos_of_ne_zero hpos)).symm, rfl⟩

theorem waitEmpty_some {c c' : Cookies} (h : c.waitEmpty = some c') :
    c'.ckFull = c.ckFull ∧ c'.marked = c.marked := by
  obtain ⟨-, hc⟩ := waitEmpty_eq h
  rw [hc]
  exact ⟨rfl, rfl⟩

theorem getCookieData_some {c c' : Cookies} {d : SendData}
    (h : c.getCookieData = some (d, c')) : c'.ckFull = c.ckFull ∧ c'.marked + 1 = c.marked := by
  unfold getCookieData at h
  split at h
  · rename_i h₀
    cases h
    simp [marked, h₀, Nat.add_comm]
  split at h
  · rename_i h₀ h₁
    cases h
    simp [marked, h₀, h₁]
  · cases h

theorem getCookieData_none {c : Cookies} (h : c.getCookieData = none) : c.marked = 0 := by
  unfold getCookieData at h
  split at h
  · cases h
  split at h
  · cases h
  · rename_i h₀ h₁
    simp [marked, h₀, h₁]

theorem cookieReceived_frame (c : Cookies) (ack : AckStore) :
    (c.cookieReceived ack).1.ckFull = c.ckFull ∧ (c.cookieReceived ack).1.marked = c.marked := by
  have hcheck : ∀ c : Cookies, c.checkAnswers.ckFull = c.ckFull ∧
      c.checkAnswers.marked = c.marked := by
    intro c
    unfold checkAnswers
    split <;> exact ⟨rfl, rfl⟩
  unfold cookieReceived
  split
  · exact hcheck _
  split
  · exact hcheck _
  · exact ⟨rfl, rfl⟩

/-- An ack answers the first cookie that waits for its address, or none; the second answer posts. -/
theorem cookieReceived_cases (c : Cookies) (ack : AckStore) :
    (c.gotcookie0 = false ∧ ack.addr = c.to0 ∧ (c.cookieReceived ack).1 =
      { c with gotcookie0 := true, ckResult0 := ack, ckEmpty := c.ckEmpty + c.gotcookie1.toNat }) ∨
    (c.gotcookie1 = false ∧ ack.addr = c.to1 ∧ (c.cookieReceived ack).1 =
      { c with gotcookie1 := true, ckResult1 := ack, ckEmpty := c.ckEmpty + c.gotcookie0.toNat }) ∨
    ((c.gotcookie0 = false → ack.addr ≠ c.to0) ∧ (c.gotcookie1 = false → ack.addr ≠ c.to1) ∧
      (c.cookieReceived ack).1 = c) := by
  unfold cookieReceived
  split
  · rename_i h₀
    refine .inl ⟨h₀.1, h₀.2, ?_⟩
    cases hgot : c.gotcookie1 <;> simp [checkAnswers, postEmpty]
  split
  · rename_i h₁
    refine .inr (.inl ⟨h₁.1, h₁.2, ?_⟩)
    cases hgot : c.gotcookie0 <;> simp [checkAnswers, postEmpty]
  · rename_i h₀ h₁
    exact .inr (.inr ⟨fun hgot haddr => h₀ ⟨hgot, haddr⟩, fun hgot haddr => h₁ ⟨hgot, haddr⟩, rfl⟩)

end Cookies

/-- The calls in progress, by the place they have reached. -/
structure CookieRounds where
  cookies : Cookies
  /-- past the wait of `send_cookie`, nothing written yet -/
  entered : List (SockAddr × SockAddr)
  /-- both posts on `ckFull` are ahead, and one of them -/
  written : ℕ
  posted : ℕ
  /-- in the timed wait -/
  waiting : ℕ
  /-- the timed wait returned, or the clean-up wrote: the post on `ckEmpty` is ahead -/
  succeeded : ℕ
  cleaned : ℕ

inductive CookieAction
  | enter (addr1 addr2 : SockAddr)
  | write (k : ℕ)
  | postFirst
  | postSecond
  | succeed
  | timeout
  | finish
  | finishCleanup
  | answer (ack : AckStore)

namespace CookieRounds

def init : CookieRounds := ⟨Cookies.init, [], 0, 0, 0, 0, 0⟩

def step (r : CookieRounds) : CookieAction → Option CookieRounds
  | .enter addr1 addr2 =>
    r.cookies.waitEmpty.map (fun c => { r with cookies := c, entered := (addr1, addr2) :: r.entered })
  | .write k =>
    match r.entered[k]? with
    | none => none
    | some (addr1, addr2) =>
      some { r with cookies := r.cookies.send addr1 addr2, entered := r.entered.eraseIdx k,
                    written := r.written + 1 }
  | .postFirst =>
    if r.written = 0 then none
    else some { r with cookies := r.cookies.postFull, written := r.written - 1,
                       posted := r.posted + 1 }
  | .postSecond =>
    if r.posted = 0 then none
    else some { r with cookies := r.cookies.postFull, posted := r.posted - 1,
                       waiting := r.waiting + 1 }
  | .succeed =>
    if r.waiting = 0 then none
    else r.cookies.waitEmpty.map
      (fun c => { r with cookies := c, waiting := r.waiting - 1, succeeded := r.succeeded + 1 })
  | .timeout =>
    if r.waiting = 0 then none
    else some { r with cookies := r.cookies.cleanup, waiting := r.waiting - 1,
                       cleaned := r.cleaned + 1 }
  | .finish =>
    if r.succeeded = 0 then none
    else some { r with cookies := r.cookies.postEmpty, succeeded := r.succeeded - 1 }
  | .finishCleanup =>
    if r.cleaned = 0 then none
    else some { r with cookies := r.cookies.postEmpty, cleaned := r.cleaned - 1 }
  | .answer ack => some { r with cookies := (r.cookies.cookieReceived ack).1 }

/-- Tokens of `ckFull`, posted or about to be posted. -/
def tokens (r : CookieRounds) : ℕ := r.cookies.ckFull + 2 * r.written + r.posted

def WritesFlags : CookieAction → Bool
  | .write _ => true
  | .timeout => true
  | _ => false

theorem step_frame {r r' : CookieRounds} {a : CookieAction} (h : r.step a = some r')
    (ha : WritesFlags a = false) :
    r'.tokens = r.tokens ∧ r'.cookies.marked = r.cookies.marked := by
  cases a with
  | enter addr1 addr2 =>
    obtain ⟨c, hc, rfl⟩ := Option.map_eq_some_iff.mp h
    obtain ⟨hfull, hmarked⟩ := Cookies.waitEmpty_some hc
    exact ⟨by simp only [tokens, hfull], hmarked⟩
  | write k => cases ha
  | postFirst =>
    simp only [step] at h
    split at h
    · cases h
    · cases h
      refine ⟨?_, rfl⟩
      simp only [tokens, Cookies.postFull]
      omega
  | postSecond =>
    simp only [step] at h
    split at h
    · cases h
    · cases h
      refine ⟨?_, rfl⟩
      simp only [tokens, Cookies.postFull]
      omega
  | succeed =>
    simp only [step] at h
    split at h
    · cases h
    · obtain ⟨c, hc, rfl⟩ := Option.map_eq_some_iff.mp h
      obtain ⟨hfull, hmarked⟩ := Cookies.waitEmpty_some hc
      exact ⟨by simp only [tokens, hfull], hmarked⟩
  | timeout => cases ha
  | finish =>
    simp only [step] at h
    split at h
    · cases h
    · cases h
      exact ⟨rfl, rfl⟩
  | finishCleanup =>
    simp only [step] at h
    split at h
    · cases h
    · cases h
      exact ⟨rfl, rfl⟩
  | answer ack =>
    cases h
    obtain ⟨hfull, hmarked⟩ := Cookies.cookieReceived_frame r.cookies ack
    exact ⟨by simp only [tokens, hfull], hmarked⟩

theorem step_write {r r' : CookieRounds} {k : ℕ} (h : r.step (.write k) = some r') :
    r'.tokens = r.tokens + 2 ∧ r'.cookies.marked = 2 := by
  simp only [step] at h
  split at h
  · cases h
  · cases h
    refine ⟨?_, rfl⟩
    simp only [tokens, Cookies.send]
    omega

theorem step_timeout {r r' : CookieRounds} (h : r.step .timeout = some r') :
    r'.tokens = r.tokens ∧ r'.cookies.marked = 0 := by
  simp only [step] at h
  split at h
  · cases h
  · cases h
    exact ⟨rfl, rfl⟩

end CookieRounds

end Bora
