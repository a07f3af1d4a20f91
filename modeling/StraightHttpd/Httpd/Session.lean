import StraightHttpd.Utils

/-! # Sessions (`http_session.c`)

A slot of the session table is live when its token is not empty. The tick arguments are what
`LWIP_GetTickCount` returns, so they are below 2^32; the tick of `SessionCheck` is the 64-bit one
and taken as unbounded.
-/

set_option autoImplicit false

namespace StraightHttpd
open CMemory

def maxSessions : ℕ := 5 -- MAX_SESSIONS

/-- `SESSION` -/
structure Session where
  token : Bytes
  tLastReceived : ℕ
  tLastSent : ℕ
  nLoginIP : ℕ
  deriving DecidableEq, Repr

/-- A cleared slot. -/
def Session.free : Session := { token := [], tLastReceived := 0, tLastSent := 0, nLoginIP := 0 }

def Session.Live (s : Session) : Prop := s.token ≠ []

instance (s : Session) : Decidable s.Live := inferInstanceAs (Decidable (s.token ≠ []))

/-- `g_httpSessions` -/
abbrev SessionTable := Fin maxSessions → Session

/-- A tick that was read as 0 is stored as 1. -/
def stamp (tick : ℕ) : ℕ := if tick = 0 then 1 else tick

theorem stamp_eq (tick : ℕ) : stamp tick = max tick 1 := by
  unfold stamp
  split_ifs <;> omega

/-- `SessionCreate`: the cookie and the slot taken, if there is a free one. The cookie is made from
one reading of the tick counter and the slot stamped with the next. -/
def sessionCreate (t : SessionTable) (cookieTick tick remoteIP : ℕ) :
    SessionTable × Option (Fin maxSessions × Bytes) :=
  match Fin.find? fun i => (t i).token = [] with
  | none => (t, none)
  | some i =>
    let cookie := bytes "SID=" ++ hex8Text cookieTick
    let session : Session :=
      { token := cookie, tLastReceived := stamp tick, tLastSent := 0, nLoginIP := remoteIP }
    (Function.update t i session, some (i, cookie))

/-- `SessionKill` -/
def sessionKill (t : SessionTable) (i : Fin maxSessions) : SessionTable :=
  if (t i).Live then Function.update t i .free else t

/-- `SessionTypes`: static file types need no session. -/
def sessionTypes (extension : Bytes) : Bool :=
  !([("css", 3), ("jpg", 3), ("png", 3), ("ico", 3), ("bmp", 3), ("svg", 3), ("gif", 3),
    ("woff", 4), ("ttf", 3), ("otf", 3), ("tiff", 4)].any fun (e, n) =>
      strnicmp extension (bytes e) n == 0)

/-- `GetSession`: the first live slot whose token occurs in the text. -/
def getSession (t : SessionTable) (token : Bytes) : Option (Fin maxSessions) :=
  if cstr token = [] then none
  else Fin.find? fun i => (t i).Live && (strstr token (t i).token).isSome

/-- Time since the stamp `last`, 0 when there is none. -/
def elapsed (tick last : ℕ) : ℕ :=
  if last = 0 then 0
  else if stamp tick ≥ last then stamp tick - last
  else stamp tick + (0xFFFFFFFF - last)

/-- The decision of `SessionCheck` about a live slot. -/
def sessionExpired (s : Session) (tick : ℕ) (timeout : ℤ) : Bool :=
  let recvElapsed := elapsed tick s.tLastReceived
  let sendElapsed := elapsed tick s.tLastSent
  decide (timeout > 0) &&
    decide ((if sendElapsed < recvElapsed then sendElapsed else recvElapsed) > u32 timeout)

/-- `SessionCheck` -/
def sessionCheck (t : SessionTable) (tick : ℕ) (timeout : ℤ) : SessionTable := fun i =>
  if (t i).Live ∧ sessionExpired (t i) tick timeout then .free else t i

/-- `SessionClearAll` -/
def sessionClearAll : SessionTable := fun _ => .free

/-- `SessionReceived` -/
def sessionReceived (t : SessionTable) (i : Fin maxSessions) (tick : ℕ) : SessionTable :=
  if (t i).Live then Function.update t i { t i with tLastReceived := stamp tick } else t

/-- `SessionSent` -/
def sessionSent (t : SessionTable) (i : Fin maxSessions) (tick : ℕ) : SessionTable :=
  if (t i).Live then Function.update t i { t i with tLastSent := stamp tick } else t

/-! ## Slots that a call does not touch -/

theorem Session.not_live_free : ¬ Session.free.Live := fun h => h rfl

theorem sessionReceived_of_ne {i j : Fin maxSessions} (h : j ≠ i) (t : SessionTable) (tick : ℕ) :
    sessionReceived t i tick j = t j := by
  unfold sessionReceived
  split
  · exact Function.update_of_ne h _ _
  · rfl

theorem sessionSent_of_ne {i j : Fin maxSessions} (h : j ≠ i) (t : SessionTable) (tick : ℕ) :
    sessionSent t i tick j = t j := by
  unfold sessionSent
  split
  · exact Function.update_of_ne h _ _
  · rfl

theorem sessionKill_of_ne {i j : Fin maxSessions} (h : j ≠ i) (t : SessionTable) :
    sessionKill t i j = t j := by
  unfold sessionKill
  split
  · exact Function.update_of_ne h _ _
  · rfl

theorem sessionKill_self (t : SessionTable) (i : Fin maxSessions) : ¬ (sessionKill t i i).Live := by
  unfold sessionKill
  split
  · rw [Function.update_self]
    exact Session.not_live_free
  next h => exact h

end StraightHttpd
