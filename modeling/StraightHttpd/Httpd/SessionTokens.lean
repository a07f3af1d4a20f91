import StraightHttpd.Httpd.SessionExpiry

/-! # Session tokens

A token is made from the tick at which the session is created, so two sessions that are created in
the same millisecond, or a whole number of turns of the tick counter apart, have the same one.
`GetSession` finds the first of them.
-/

set_option autoImplicit false

namespace StraightHttpd
namespace Tokens

open CMemory Expiry

/-- The cookie of a session whose tick was read at true time `t`. -/
def cookie (t : ℕ) : Bytes := bytes "SID=" ++ hex8Text (tickCount t)

/-- The session table on the true clock, with the times at which the ticks of the cookies were read,
and all tokens that were ever issued. -/
structure Issuer extends Clocked where
  cookieTime : Fin maxSessions → ℕ
  issued : List Bytes

/-- A call at a true time. -/
structure Call where
  time : ℕ
  event : Event

def fire (s : Issuer) (c : Call) : Issuer :=
  let clocked := Expiry.fire s.toClocked c.time c.event
  match c.event with
  | .create cookieTime remoteIP =>
    match (sessionCreate s.table (tickCount cookieTime) (tickCount c.time) remoteIP).2 with
    | some (i, token) =>
      { toClocked := clocked
        cookieTime := Function.update s.cookieTime i cookieTime
        issued := token :: s.issued }
    | none => { s with toClocked := clocked }
  | _ => { s with toClocked := clocked }

/-- The clock never goes back, between two calls nor between the two readings of a call. -/
def Timely (s : Issuer) (c : Call) : Prop :=
  match c.event with
  | .create cookieTime _ => s.now ≤ cookieTime ∧ cookieTime ≤ c.time
  | _ => s.now ≤ c.time

def runs : RunSystem Issuer Call where
  init s := s.table = sessionClearAll ∧ s.issued = []
  step s c s' := Timely s c ∧ s' = fire s c

/-! ## Cookies -/

theorem hexDigit_inj {a b : ℕ} (ha : a < 16) (hb : b < 16) (h : hexDigit a = hexDigit b) : a = b := by
  have hall : ∀ a b : Fin 16, hexDigit a = hexDigit b → a = b := by decide
  have hfin := hall ⟨a, ha⟩ ⟨b, hb⟩ h
  exact Fin.mk.inj_iff.mp hfin

/-- Eight hexadecimal digits tell 32-bit numbers apart. -/
theorem hex8Text_inj {a b : ℕ} (ha : a < 2 ^ 32) (hb : b < 2 ^ 32) (h : hex8Text a = hex8Text b) :
    a = b := by
  have hdigit : ∀ i < 8, a / 16 ^ i % 16 = b / 16 ^ i % 16 := by
    intro i hi
    have hmem : i ∈ (List.range 8).reverse := List.mem_reverse.mpr (List.mem_range.mpr hi)
    have heq := List.map_inj_left.mp h i hmem
    exact hexDigit_inj (Nat.mod_lt _ (by decide)) (Nat.mod_lt _ (by decide)) heq
  have h0 := hdigit 0 (by decide)
  have h1 := hdigit 1 (by decide)
  have h2 := hdigit 2 (by decide)
  have h3 := hdigit 3 (by decide)
  have h4 := hdigit 4 (by decide)
  have h5 := hdigit 5 (by decide)
  have h6 := hdigit 6 (by decide)
  have h7 := hdigit 7 (by decide)
  norm_num at h0 h1 h2 h3 h4 h5 h6 h7
  omega

theorem cookie_eq_iff (t u : ℕ) : cookie t = cookie u ↔ tickCount t = tickCount u := by
  constructor
  · intro h
    have hlt : ∀ t, tickCount t < 2 ^ 32 := fun t => Nat.mod_lt t (by decide)
    exact hex8Text_inj (hlt t) (hlt u) (List.append_cancel_left h)
  · intro h
    rw [cookie, h, cookie]

theorem cookie_ne_nil (t : ℕ) : cookie t ≠ [] := fun h => absurd (List.append_eq_nil_iff.mp h).1 (by decide)

/-! ## What a call does to a slot -/

/-- The session in a slot was there before. -/
def KeptIn (s s' : Issuer) (j : Fin maxSessions) : Prop :=
  (s.table j).Live ∧ (s'.table j).token = (s.table j).token ∧ s'.cookieTime j = s.cookieTime j

/-- The session in slot `j` was created by the call. -/
structure CreatedIn (s s' : Issuer) (c : Call) (j : Fin maxSessions) (t : ℕ) : Prop where
  event : ∃ ip, c.event = .create t ip
  free : ¬ (s.table j).Live
  token : (s'.table j).token = cookie t
  time : s'.cookieTime j = t
  issued : s'.issued = cookie t :: s.issued
  others : ∀ k, k ≠ j → s'.table k = s.table k

/-- Where the session in a slot comes from. -/
theorem fire_slot {s : Issuer} {c : Call} {j : Fin maxSessions} (hj : ((fire s c).table j).Live) :
    KeptIn s (fire s c) j ∨ ∃ t, CreatedIn s (fire s c) c j t := by
  obtain ⟨time, event⟩ := c
  cases event with
  | create t ip =>
    simp only [fire, Expiry.fire, sessionCreate] at hj ⊢
    cases hf : Fin.find? fun i => decide ((s.table i).token = []) with
    | none =>
      rw [hf] at hj
      exact .inl ⟨hj, rfl, rfl⟩
    | some i =>
      rw [hf] at hj
      simp only at hj ⊢
      have hfree : (s.table i).token = [] := of_decide_eq_true (Fin.eq_true_of_find?_eq_some hf)
      by_cases hij : j = i
      · subst hij
        refine .inr ⟨t, ⟨ip, rfl⟩, fun hl => hl hfree, ?_, ?_, rfl, fun k hk => ?_⟩
        · simp only [Function.update_self]
          rfl
        · simp only [Function.update_self]
        · simp only [Function.update_of_ne hk]
      · simp only [Function.update_of_ne hij] at hj
        refine .inl ⟨hj, ?_, ?_⟩
        · simp only [Function.update_of_ne hij]
        · simp only [Function.update_of_ne hij]
  | received i =>
    simp only [fire, Expiry.fire] at hj
    by_cases hij : j = i
    · subst hij
      by_cases hl : (s.table j).Live
      · refine .inl ⟨hl, ?_, rfl⟩
        simp only [fire, Expiry.fire, sessionReceived, if_pos hl, Function.update_self]
      · rw [sessionReceived, if_neg hl] at hj
        exact absurd hj hl
    · rw [sessionReceived_of_ne hij] at hj
      exact .inl ⟨hj, congrArg Session.token (sessionReceived_of_ne hij _ _), rfl⟩
  | sent i =>
    simp only [fire, Expiry.fire] at hj
    by_cases hij : j = i
    · subst hij
      by_cases hl : (s.table j).Live
      · refine .inl ⟨hl, ?_, rfl⟩
        simp only [fire, Expiry.fire, sessionSent, if_pos hl, Function.update_self]
      · rw [sessionSent, if_neg hl] at hj
        exact absurd hj hl
    · rw [sessionSent_of_ne hij] at hj
      exact .inl ⟨hj, congrArg Session.token (sessionSent_of_ne hij _ _), rfl⟩
  | check timeout =>
    simp only [fire, Expiry.fire, sessionCheck] at hj
    split at hj
    · exact absurd hj Session.not_live_free
    next hc =>
      refine .inl ⟨hj, ?_, rfl⟩
      simp only [fire, Expiry.fire, sessionCheck, if_neg hc]
  | kill i =>
    simp only [fire, Expiry.fire] at hj
    by_cases hij : j = i
    · subst hij
      exact absurd hj (sessionKill_self _ _)
    · rw [sessionKill_of_ne hij] at hj
      exact .inl ⟨hj, congrArg Session.token (sessionKill_of_ne hij _), rfl⟩
  | clearAll => exact absurd hj Session.not_live_free

/-- A token stays issued. -/
theorem mem_issued_fire {s : Issuer} (c : Call) {token : Bytes} (h : token ∈ s.issued) :
    token ∈ (fire s c).issued := by
  unfold fire
  split
  · split
    · exact List.mem_cons_of_mem _ h
    · exact h
  · exact h

/-! ## Tokens that tell sessions apart -/

/-- The token of a live slot is the cookie of its time, and was issued. -/
def Marked (s : Issuer) : Prop :=
  ∀ i, (s.table i).Live → (s.table i).token = cookie (s.cookieTime i) ∧ (s.table i).token ∈ s.issued

theorem reach_marked {s : Issuer} (h : runs.Reach s) : Marked s := by
  refine h.invariant ?_ ?_
  · intro s hs i hi
    rw [show s.table = _ from hs.1] at hi
    exact absurd hi Session.not_live_free
  · rintro s c s' hs ⟨-, rfl⟩ j hj
    rcases fire_slot hj with ⟨hl, htoken, htime⟩ | ⟨t, hcreated⟩
    · rw [htoken, htime]
      exact ⟨(hs j hl).1, mem_issued_fire c (hs j hl).2⟩
    · rw [hcreated.token, hcreated.time, hcreated.issued]
      exact ⟨rfl, List.mem_cons_self⟩

/-- Live sessions have different tokens, and `GetSession` finds a session by a text with its token
and no other one. -/
structure Identified (s : Issuer) : Prop where
  different : ∀ i j, (s.table i).Live → (s.table j).Live →
    (s.table i).token = (s.table j).token → i = j
  found : ∀ i, (s.table i).Live → ∀ text, (strstr text (s.table i).token).isSome = true →
    (∀ token ∈ s.issued, token ≠ (s.table i).token → (strstr text token).isSome = false) →
    getSession s.table text = some i

theorem strstr_empty {text token : Bytes} (h : cstr text = []) (ht : token ≠ []) :
    (strstr text token).isSome = false := by
  rw [strstr, h, find, if_neg ht]
  rfl

/-- When the tokens are different, `GetSession` finds the right session. -/
theorem identified {s : Issuer} (hm : Marked s)
    (h : ∀ i j, (s.table i).Live → (s.table j).Live →
      (s.table i).token = (s.table j).token → i = j) : Identified s := by
  refine ⟨h, fun i hi text hin hout => ?_⟩
  have hempty : cstr text ≠ [] := by
    intro he
    rw [strstr_empty he hi] at hin
    cases hin
  unfold getSession
  rw [if_neg hempty]
  have hfound : ((s.table i).Live && (strstr text (s.table i).token).isSome) = true := by
    rw [Bool.and_eq_true, decide_eq_true_iff]
    exact ⟨hi, hin⟩
  cases hf : Fin.find? fun i => (s.table i).Live && (strstr text (s.table i).token).isSome with
  | none =>
    rw [Fin.find?_eq_none_iff] at hf
    rw [hf i] at hfound
    cases hfound
  | some j =>
    have hj := Fin.eq_true_of_find?_eq_some hf
    rw [Bool.and_eq_true, decide_eq_true_iff] at hj
    -- the token of `j` is in the text, so it is the one of `i`
    have hsame : (s.table j).token = (s.table i).token := by
      by_contra hne
      rw [hout _ (hm j hj.1).2 hne] at hj
      cases hj.2
    rw [h j i hj.1 hi hsame]

/-- A call that creates a session does it at a tick that is in no live token. -/
def FreshAt (s : Issuer) (c : Call) : Prop :=
  ∀ t ip, c.event = .create t ip → (∃ i, ¬ (s.table i).Live) →
    ∀ j, (s.table j).Live → tickCount (s.cookieTime j) ≠ tickCount t

theorem fire_identified {s : Issuer} {c : Call} (hm' : Marked (fire s c)) (hm : Marked s)
    (h : Identified s) (hfresh : FreshAt s c) : Identified (fire s c) := by
  refine identified hm' fun i j hi hj htokens => ?_
  have hother {j k : Fin maxSessions} {t : ℕ} (hcreated : CreatedIn s (fire s c) c j t)
      (hk : (s.table k).Live) : (s.table k).token ≠ cookie t := by
    obtain ⟨ip, he⟩ := hcreated.event
    rw [(hm k hk).1, Ne, cookie_eq_iff]
    exact hfresh t ip he ⟨j, hcreated.free⟩ k hk
  rcases fire_slot hi with ⟨hi', hti, -⟩ | ⟨t, hci⟩
  · rcases fire_slot hj with ⟨hj', htj, -⟩ | ⟨u, hcj⟩
    · exact h.different i j hi' hj' (hti.symm.trans (htokens.trans htj))
    · exact absurd (hti.symm.trans (htokens.trans hcj.token)) (hother hcj hi')
  · rcases fire_slot hj with ⟨hj', htj, -⟩ | ⟨u, hcj⟩
    · exact absurd (htj.symm.trans (htokens.symm.trans hci.token)) (hother hci hj')
    · -- one call fills one slot
      by_contra hij
      rw [hcj.others i hij] at hi
      exact hci.free hi

/-- A call that is not fresh would leave two live sessions with one token. -/
theorem fresh_of_identified {s : Issuer} {c : Call} (hm : Marked s) (h : Identified (fire s c)) :
    FreshAt s c := by
  intro t ip he ⟨i, hi⟩ j hj hticks
  obtain ⟨time, event⟩ := c
  obtain rfl : event = .create t ip := he
  have hdifferent := h.different
  simp only [fire, Expiry.fire, sessionCreate] at hdifferent
  cases hf : Fin.find? fun i => decide ((s.table i).token = []) with
  | none =>
    rw [Fin.find?_eq_none_iff] at hf
    exact hi (of_decide_eq_false (hf i))
  | some k =>
    rw [hf] at hdifferent
    have hfree : (s.table k).token = [] := of_decide_eq_true (Fin.eq_true_of_find?_eq_some hf)
    have hjk : j ≠ k := fun hjk => hj (hjk ▸ hfree)
    have hsame := hdifferent j k
    simp only [Function.update_self, Function.update_of_ne hjk] at hsame
    refine hjk (hsame hj (cookie_ne_nil t) ?_)
    rw [(hm j hj).1]
    exact (cookie_eq_iff _ _).mpr hticks

/-- As long as no session is created at a tick that is in a live token, tokens identify sessions, and
the first creation at such a tick ends that. -/
theorem session_tokens {s : Issuer} (h : (runs.restrict FreshAt).Reach s) :
    Identified s ∧ ∀ c s', runs.step s c s' → (Identified s' ↔ FreshAt s c) := by
  have hidentified : Identified s := by
    induction h with
    | init h0 =>
      refine identified (reach_marked (.init h0)) fun i j hi _ _ => ?_
      rw [h0.1] at hi
      exact absurd hi Session.not_live_free
    | step c hr hstep ih =>
      obtain ⟨hfresh, htimely, rfl⟩ := hstep
      have hm := reach_marked hr.of_restrict
      exact fire_identified (reach_marked (hr.of_restrict.step c ⟨htimely, rfl⟩)) hm ih hfresh
  refine ⟨hidentified, ?_⟩
  rintro c s' ⟨htimely, rfl⟩
  have hm := reach_marked h.of_restrict
  have hm' : Marked (fire s c) := reach_marked (h.of_restrict.step c ⟨htimely, rfl⟩)
  exact ⟨fresh_of_identified hm, fire_identified hm' hm hidentified⟩

/-! ## Two logins in one millisecond -/

def booted : Issuer :=
  { now := 0, table := sessionClearAll, touched := fun _ => ⟨0, none⟩, cookieTime := fun _ => 0,
    issued := [] }

/-- A login at one second of uptime. -/
def login (remoteIP : ℕ) : Call := { time := 1000, event := .create 1000 remoteIP }

/-- Another login, a second later. -/
def laterLogin : Call := { time := 2000, event := .create 2000 2 }

theorem session_tokens_later : Identified (fire (fire booted (login 1)) laterLogin) ∧
    ∀ c s', runs.step (fire (fire booted (login 1)) laterLogin) c s' →
      (Identified s' ↔ FreshAt (fire (fire booted (login 1)) laterLogin) c) := by
  have hfirst : (runs.restrict FreshAt).Reach (fire booted (login 1)) := by
    have hfresh : FreshAt booted (login 1) := fun _ _ _ _ j hj => absurd hj Session.not_live_free
    exact .step (login 1) (.init ⟨rfl, rfl⟩) ⟨hfresh, ⟨by decide, by decide⟩, rfl⟩
  have hfresh : FreshAt (fire booted (login 1)) laterLogin := by
    intro t ip he _ j hj
    obtain ⟨rfl, -⟩ := Expiry.Event.create.inj he
    revert hj
    revert j
    decide
  exact session_tokens (hfirst.step laterLogin ⟨hfresh, ⟨by decide, by decide⟩, rfl⟩)

theorem session_tokens_fails : ¬ ∀ s : Issuer, runs.Reach s → Identified s := by
  intro h
  have hfirst : runs.Reach (fire booted (login 1)) :=
    .step (login 1) (.init ⟨rfl, rfl⟩) ⟨⟨by decide, by decide⟩, rfl⟩
  have hsecond : runs.Reach (fire (fire booted (login 1)) (login 2)) :=
    hfirst.step (login 2) ⟨⟨by decide, by decide⟩, rfl⟩
  have hsame := (h _ hsecond).different ⟨0, by decide⟩ ⟨1, by decide⟩
  exact absurd (hsame (by decide) (by decide) (by decide)) (by decide)

end Tokens
end StraightHttpd
