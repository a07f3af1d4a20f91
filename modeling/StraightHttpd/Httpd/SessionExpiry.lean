import StraightHttpd.Lib.Runs
import StraightHttpd.Httpd.Session

/-! # Session expiry over the whole uptime

The session table on a true clock: a millisecond counter without bound, of which
`LWIP_GetTickCount` returns the low 32 bits, while `AppThread` passes all of it to `SessionCheck`.
Next to each slot stands when its session was really created or last received, and last sent.

`session_expiry_iff` says when a check decides as the idle time says. It does not when nothing was
ever sent for the session, since a missing send stamp counts as sent just now, nor once the stamps
have wrapped and are subtracted from a tick that has not.
-/

set_option autoImplicit false

namespace StraightHttpd
namespace Expiry

/-- `LWIP_GetTickCount` at true time `t`. -/
def tickCount (t : ℕ) : ℕ := t % 2 ^ 32

/-- When a session was created or last received, and when it was last sent. -/
structure Touched where
  received : ℕ
  sent : Option ℕ
  deriving DecidableEq, Repr

def Touched.latest (x : Touched) : ℕ :=
  match x.sent with
  | none => x.received
  | some u => max x.received u

/-- The session table on the true clock. -/
structure Clocked where
  now : ℕ
  table : SessionTable
  touched : Fin maxSessions → Touched

/-- A call of `http_session.c`; `create` also tells when the tick was read for the cookie. -/
inductive Event
  | create (cookieTime remoteIP : ℕ)
  | received (i : Fin maxSessions)
  | sent (i : Fin maxSessions)
  | check (timeout : ℤ)
  | kill (i : Fin maxSessions)
  | clearAll

/-- What a call at true time `t` does. -/
def fire (s : Clocked) (t : ℕ) : Event → Clocked
  | .create cookieTime remoteIP =>
    match sessionCreate s.table (tickCount cookieTime) (tickCount t) remoteIP with
    | (table, none) => { s with now := t, table := table }
    | (table, some (i, _)) =>
      { now := t, table := table, touched := Function.update s.touched i ⟨t, none⟩ }
  | .received i =>
    { now := t
      table := sessionReceived s.table i (tickCount t)
      touched := Function.update s.touched i { s.touched i with received := t } }
  | .sent i =>
    { now := t
      table := sessionSent s.table i (tickCount t)
      touched := Function.update s.touched i { s.touched i with sent := some t } }
  | .check timeout => { s with now := t, table := sessionCheck s.table t timeout }
  | .kill i => { s with now := t, table := sessionKill s.table i }
  | .clearAll => { s with now := t, table := sessionClearAll }

/-- Calls come at true times that never go back. -/
def runs : RunSystem Clocked Event where
  init s := s.table = sessionClearAll
  step s e s' := ∃ t, s.now ≤ t ∧ s' = fire s t e

/-! ## What the stamps of a live slot say -/

/-- The stamps of a session are the readings of its true times. -/
structure Stamped (now : ℕ) (s : Session) (x : Touched) : Prop where
  received_le : x.received ≤ now
  received : s.tLastReceived = stamp (tickCount x.received)
  sent_le : ∀ u, x.sent = some u → u ≤ now
  sent : s.tLastSent = (x.sent.map fun u => stamp (tickCount u)).getD 0

theorem Stamped.mono {n n' : ℕ} {s : Session} {x : Touched} (h : Stamped n s x) (hn : n ≤ n') :
    Stamped n' s x :=
  ⟨h.received_le.trans hn, h.received, fun u hu => (h.sent_le u hu).trans hn, h.sent⟩

def TableStamped (s : Clocked) : Prop := ∀ i, (s.table i).Live → Stamped s.now (s.table i) (s.touched i)

theorem fire_stamped {s : Clocked} (h : TableStamped s) {t : ℕ} (ht : s.now ≤ t) (e : Event) :
    TableStamped (fire s t e) := by
  intro j hj
  cases e with
  | create cookieTime remoteIP =>
    unfold fire sessionCreate at hj ⊢
    cases hf : Fin.find? fun i => decide ((s.table i).token = []) with
    | none =>
      rw [hf] at hj
      exact (h j hj).mono ht
    | some i =>
      rw [hf] at hj
      simp only at hj ⊢
      by_cases hij : j = i
      · subst hij
        simp only [Function.update_self] at hj ⊢
        exact ⟨Nat.le_refl t, rfl, nofun, rfl⟩
      · simp only [Function.update_of_ne hij] at hj ⊢
        exact (h j hj).mono ht
  | received i =>
    simp only [fire] at hj ⊢
    by_cases hij : j = i
    · subst hij
      by_cases hl : (s.table j).Live
      · have hs := h j hl
        simp only [sessionReceived, if_pos hl, Function.update_self]
        exact ⟨Nat.le_refl t, rfl, fun u hu => (hs.sent_le u hu).trans ht, hs.sent⟩
      · rw [sessionReceived, if_neg hl] at hj
        exact absurd hj hl
    · rw [sessionReceived_of_ne hij] at hj ⊢
      rw [Function.update_of_ne hij]
      exact (h j hj).mono ht
  | sent i =>
    simp only [fire] at hj ⊢
    by_cases hij : j = i
    · subst hij
      by_cases hl : (s.table j).Live
      · have hs := h j hl
        simp only [sessionSent, if_pos hl, Function.update_self]
        refine ⟨hs.received_le.trans ht, hs.received, ?_, rfl⟩
        intro u hu
        exact (Option.some.inj hu).symm.le
      · rw [sessionSent, if_neg hl] at hj
        exact absurd hj hl
    · rw [sessionSent_of_ne hij] at hj ⊢
      rw [Function.update_of_ne hij]
      exact (h j hj).mono ht
  | check timeout =>
    simp only [fire, sessionCheck] at hj ⊢
    split at hj
    · exact absurd hj Session.not_live_free
    next hc =>
      rw [if_neg hc]
      exact (h j hj).mono ht
  | kill i =>
    simp only [fire] at hj ⊢
    by_cases hij : j = i
    · subst hij
      exact absurd hj (sessionKill_self _ _)
    · rw [sessionKill_of_ne hij] at hj ⊢
      exact (h j hj).mono ht
  | clearAll => exact absurd hj Session.not_live_free

theorem reach_stamped {s : Clocked} (h : runs.Reach s) : TableStamped s := by
  refine h.invariant ?_ ?_
  · intro s hs i hi
    rw [show s.table = _ from hs] at hi
    exact absurd hi Session.not_live_free
  · rintro s e s' hs ⟨t, ht, rfl⟩
    exact fire_stamped hs ht e

/-! ## Elapsed time -/

theorem elapsed_stamp {k t : ℕ} (h : k ≤ t) : elapsed t (stamp k) = max t 1 - max k 1 := by
  simp only [elapsed, stamp_eq]
  rw [if_neg (by omega), if_pos (by omega)]

/-- A stamp from before the first wrap gives the true distance, up to the substitution of 0. -/
theorem elapsed_early {r t : ℕ} (h : r ≤ t) (hr : r < 2 ^ 32) :
    elapsed t (stamp (tickCount r)) = max t 1 - max r 1 := by
  rw [show tickCount r = r from Nat.mod_eq_of_lt hr, elapsed_stamp h]

/-- A stamp that has wrapped gives at least a whole turn of the counter too much. -/
theorem elapsed_wrapped {r t : ℕ} (h : r ≤ t) (hr : 2 ^ 32 ≤ r) :
    t - r + (2 ^ 32 - 1) ≤ elapsed t (stamp (tickCount r)) := by
  have hm : tickCount r + 2 ^ 32 ≤ r := by
    unfold tickCount
    omega
  rw [elapsed_stamp (by omega)]
  omega

/-! ## When a check is right -/

/-- A check at `t` clears slot `i` if and only if its session was idle for more than `T` ms, up to
the one that the substitution of tick 0 can hide. -/
def ExactAt (s : Clocked) (t : ℕ) (T : ℤ) (i : Fin maxSessions) : Prop :=
  (T + 1 < (t : ℤ) - (s.touched i).latest → sessionCheck s.table t T i = .free) ∧
    (sessionCheck s.table t T i = .free → T < (t : ℤ) - (s.touched i).latest)

/-- A session that never sent may not be idle yet. Else its stamps must be from before the first
wrap, or it is idle anyway, or its earlier stamp alone keeps it. -/
def KeptInStep (x : Touched) (t : ℕ) (T : ℤ) : Prop :=
  match x.sent with
  | none => (t : ℤ) - x.received ≤ T + 1
  | some u =>
    max x.received u < 2 ^ 32 ∨ T < (t : ℤ) - (max x.received u : ℕ) ∨
      (min x.received u < 2 ^ 32 ∧ (t : ℤ) - (max (min x.received u) 1 : ℕ) ≤ T)

theorem check_free_iff {t : SessionTable} {tick : ℕ} {T : ℤ} {i : Fin maxSessions}
    (hl : (t i).Live) (h0 : 0 < T) (hT : T < 2 ^ 31) :
    sessionCheck t tick T i = .free ↔
      T < (min (elapsed tick (t i).tLastSent) (elapsed tick (t i).tLastReceived) : ℕ) := by
  have hu : u32 T = T.toNat := by
    unfold u32
    omega
  have hmin : ∀ a b : ℕ, (if a < b then a else b) = min a b := by
    intro a b
    split_ifs <;> omega
  simp only [sessionCheck, hl, true_and, sessionExpired, hu, hmin, Bool.and_eq_true,
    decide_eq_true_eq]
  constructor
  · intro h
    split at h
    · omega
    · exact absurd (h ▸ hl) Session.not_live_free
  · intro h
    rw [if_pos ⟨h0, by omega⟩]

/-- Of every session in every run, a check decides by its idle time exactly when the condition
holds of its times. -/
theorem session_expiry_iff {s : Clocked} (h : runs.Reach s) {t : ℕ} (ht : s.now ≤ t) {T : ℤ}
    (h0 : 0 < T) (hT : T < 2 ^ 31) {i : Fin maxSessions} (hl : (s.table i).Live) :
    ExactAt s t T i ↔ KeptInStep (s.touched i) t T := by
  have hs := reach_stamped h i hl
  have hr : (s.touched i).received ≤ t := hs.received_le.trans ht
  have hfree := @check_free_iff s.table t T i hl h0 hT
  rw [hs.received, hs.sent] at hfree
  unfold ExactAt KeptInStep Touched.latest
  rw [hfree]
  cases hu : (s.touched i).sent with
  | none =>
    have hz : elapsed t 0 = 0 := rfl
    simp only [Option.map_none, Option.getD_none, hz]
    omega
  | some u =>
    have hut : u ≤ t := (hs.sent_le u hu).trans ht
    simp only [Option.map_some, Option.getD_some]
    generalize (s.touched i).received = r at hr
    rcases Nat.lt_or_ge r (2 ^ 32) with hr' | hr' <;> rcases Nat.lt_or_ge u (2 ^ 32) with hu' | hu'
    · rw [elapsed_early hr hr', elapsed_early hut hu']
      omega
    · have hw := elapsed_wrapped hut hu'
      rw [elapsed_early hr hr']
      omega
    · have hw := elapsed_wrapped hr hr'
      rw [elapsed_early hut hu']
      omega
    · have hw := elapsed_wrapped hr hr'
      have hw' := elapsed_wrapped hut hu'
      omega

/-! ## A session that never sends -/

def firstSlot : Fin maxSessions := ⟨0, by decide⟩

def booted : Clocked := { now := 0, table := sessionClearAll, touched := fun _ => ⟨0, none⟩ }

/-- The table after a login at one second of uptime. -/
def loggedIn : Clocked := fire booted 1000 (.create 1000 0)

theorem loggedIn_reach : runs.Reach loggedIn := by
  have h : runs.init booted := rfl
  exact .step (.create 1000 0) (.init h) ⟨1000, by decide, rfl⟩

/-- Something was sent for the session half a second later. -/
def sentOnce : Clocked := fire loggedIn 1500 (.sent firstSlot)

theorem sentOnce_reach : runs.Reach sentOnce := loggedIn_reach.step (.sent firstSlot) ⟨1500, by decide, rfl⟩

/-- It is kept for three minutes and freed after them. -/
theorem session_expiry_iff_sentOnce : sessionCheck sentOnce.table 181500 180000 firstSlot ≠ .free ∧
    sessionCheck sentOnce.table 181502 180000 firstSlot = .free := by
  have hkept : KeptInStep (sentOnce.touched firstSlot) 181500 180000 := .inl (by decide)
  have hlate : KeptInStep (sentOnce.touched firstSlot) 181502 180000 := .inl (by decide)
  constructor
  · intro hfree
    have hidle := ((session_expiry_iff sentOnce_reach (by decide) (by decide) (by decide) (by decide)).mpr hkept).2 hfree
    exact absurd hidle (by decide)
  · exact ((session_expiry_iff sentOnce_reach (by decide) (by decide) (by decide) (by decide)).mpr hlate).1 (by decide)

/-- It is still there after an hour, with a timeout of three minutes. -/
theorem session_expiry_fails :
    ¬ ∀ s : Clocked, runs.Reach s → ∀ t : ℕ, s.now ≤ t → ∀ T : ℤ, 0 < T → T < 2 ^ 31 →
      ∀ i : Fin maxSessions, (s.table i).Live → ExactAt s t T i := by
  intro h
  have hx := h loggedIn loggedIn_reach 3600000 (by decide) 180000 (by decide)
    (by decide) firstSlot (by decide)
  exact absurd (hx.1 (by decide)) (by decide)

end Expiry
end StraightHttpd
