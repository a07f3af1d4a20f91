import StraightHttpd.Httpd.Server
import StraightHttpd.Lib.Monitor

/-! # Who keeps a session alive

`_session` is a pointer to a slot of the session table. It is set when a header section is complete
and by a login, and read by `SessionReceived`, `SessionSent` and the logout, whatever has become of
the slot and of the context in the meantime. What a connection notes about its sessions is all that
happens to live ones, the session check apart.
-/

set_option autoImplicit false

namespace StraightHttpd
open CMemory

/-- The same session at two times: the stamps may differ. -/
def Session.SameAs (s s' : Session) : Prop := s.token = s'.token ∧ s.nLoginIP = s'.nLoginIP

instance (s s' : Session) : Decidable (s.SameAs s') := inferInstanceAs (Decidable (_ ∧ _))

/-! ## What a connection has shown since it was accepted -/

/-- A session that the pointer of the connection was set to; `covered` when the connection comes from
the address of its login. -/
structure Holding where
  slot : Fin maxSessions
  session : Session
  covered : Bool

/-- The last complete header section, the logins, and where the pointer was set to last. -/
structure Tenure where
  gate : Option Gate
  logins : List (Fin maxSessions × Session)
  holding : Option Holding

def Tenure.none : Tenure := ⟨Option.none, [], Option.none⟩

/-- The session that `GetSession` finds for a header section. -/
def Gate.holding (g : Gate) : Option Holding :=
  (getSession g.sessions g.token).map fun i =>
    ⟨i, g.sessions i, (g.sessions i).nLoginIP == g.ipRemote⟩

def tenure : Monitor Tenure Obs where
  start := .none
  next t o :=
    match o with
    | .accepted => .none
    | .headers g => { t with gate := some g, holding := g.holding }
    | .login i session =>
      { t with logins := (i, session) :: t.logins, holding := some ⟨i, session, true⟩ }
    | _ => t

/-- The slot and the session that an entry is about. -/
def Obs.touch : Obs → Option (Fin maxSessions × Session)
  | .touched i session => some (i, session)
  | _ => none

/-- A session is touched by its owner: a connection from the address of its login, whose last header
section presented its token, or that made it by a login. -/
def Obs.Owned (t : Tenure) (o : Obs) : Prop :=
  ∀ x ∈ o.touch, ∃ g ∈ t.gate, x.2.nLoginIP = g.ipRemote ∧
    ((strstr g.token x.2.token).isSome ∨ ∃ login ∈ t.logins, login.1 = x.1 ∧ x.2.SameAs login.2)

/-- A session is touched through a pointer that was set since the connection was accepted, to the
session that is still in the slot, and from the address of its login. -/
def Obs.Rightful (t : Tenure) (o : Obs) : Prop :=
  ∀ x ∈ o.touch, ∃ h ∈ t.holding, h.slot = x.1 ∧ h.covered = true ∧ x.2.SameAs h.session

instance (t : Tenure) (o : Obs) : Decidable (o.Owned t) := inferInstanceAs (Decidable (∀ _ ∈ _, _))
instance (t : Tenure) (o : Obs) : Decidable (o.Rightful t) := inferInstanceAs (Decidable (∀ _ ∈ _, _))

/-- All sessions that the connection touched were its own. -/
def TouchedOwn (hist : List Obs) : Prop := tenure.Along (fun t o => o.Owned t) hist

/-- All of them were touched through a pointer that may be used. -/
def TouchedRightly (hist : List Obs) : Prop := tenure.Along (fun t o => o.Rightful t) hist

instance (hist : List Obs) : Decidable (TouchedOwn hist) := Monitor.decidableAlong _ _ hist
instance (hist : List Obs) : Decidable (TouchedRightly hist) := Monitor.decidableAlong _ _ hist

/-- A login comes from the connection that its header section came from. -/
def Obs.Logged (t : Tenure) : Obs → Prop
  | .login _ session => ∃ g ∈ t.gate, session.nLoginIP = g.ipRemote
  | _ => True

/-- What a pointer that may be used is known to point to. -/
def Tenure.Fair (t : Tenure) : Prop :=
  ∀ h ∈ t.holding, h.covered = true → ∃ g ∈ t.gate, h.session.nLoginIP = g.ipRemote ∧
    ((strstr g.token h.session.token).isSome ∨ (h.slot, h.session) ∈ t.logins)

/-- `GetSession` finds a session whose token is in the text. -/
theorem getSession_token {table : SessionTable} {text : Bytes} {i : Fin maxSessions}
    (h : getSession table text = some i) : (strstr text (table i).token).isSome = true := by
  unfold getSession at h
  split_ifs at h
  have hfound := Fin.eq_true_of_find?_eq_some h
  rw [Bool.and_eq_true] at hfound
  exact hfound.2

theorem Tenure.Fair.next {t : Tenure} {o : Obs} (h : t.Fair) (ho : o.Logged t) :
    (tenure.next t o).Fair := by
  cases o with
  | accepted => exact nofun
  | headers g =>
    intro held hheld hcovered
    obtain ⟨i, hi, rfl⟩ := Option.map_eq_some_iff.mp hheld
    exact ⟨g, rfl, eq_of_beq hcovered, .inl (getSession_token hi)⟩
  | login i session =>
    intro held hheld _
    obtain rfl := Option.some.inj hheld
    obtain ⟨g, hg, hip⟩ := ho
    exact ⟨g, hg, hip, .inr List.mem_cons_self⟩
  | _ => exact h

/-- The owner's pointer is used by the owner. -/
theorem Obs.Rightful.owned {t : Tenure} {o : Obs} (h : o.Rightful t) (ht : t.Fair) : o.Owned t := by
  intro x hx
  obtain ⟨held, hheld, hslot, hcovered, htoken, hip⟩ := h x hx
  obtain ⟨g, hg, hfrom, hown⟩ := ht held hheld hcovered
  refine ⟨g, hg, hip.trans hfrom, ?_⟩
  rcases hown with hin | hlogin
  · exact .inl (htoken.symm ▸ hin)
  · exact .inr ⟨_, hlogin, hslot, htoken, hip⟩

/-- Along a history in which the logins are its own. -/
theorem owned_of_rightful {hist : List Obs} (hlogged : tenure.Along (fun t o => o.Logged t) hist)
    (h : TouchedRightly hist) : TouchedOwn hist :=
  hlogged.imp (I := Tenure.Fair) nofun (fun _ _ ht ho => ht.next ho)
    (fun _ _ ht _ ho => ho.owned ht) h

/-! ## Logins are a connection's own -/

/-- The invariant of a connection. -/
structure Tended (s : Sys) : Prop where
  logged : tenure.Along (fun t o => o.Logged t) s.core.hist
  gate : s.core.state.PastHeaders → ∃ g ∈ (tenure.after s.core.hist).gate, g.ipRemote = s.core.ipRemote

/-- A step back behind the headers, with notes that are no logins. -/
theorem Tended.before {s t : Sys} (h : Tended s) (hstate : ¬ t.core.state.PastHeaders) {new : List Obs}
    (hnew : ∀ o ∈ new, ∀ t, Obs.Logged t o) (hhist : t.core.hist = new ++ s.core.hist) : Tended t :=
  ⟨by rw [hhist]; exact h.logged.append fun o ho t => hnew o ho t, fun hp => absurd hp hstate⟩

theorem within_gate {s : Sys} {new hist : List Obs} (hnew : ∀ o ∈ new, Obs.Within s o) :
    (tenure.after (new ++ hist)).gate = (tenure.after hist).gate := by
  induction new with
  | nil => rfl
  | cons o new ih =>
    have hrest := ih fun o' ho' => hnew o' (List.mem_cons_of_mem _ ho')
    have hw := hnew o List.mem_cons_self
    cases o <;> first | exact hrest | exact hw.elim

theorem Tended.goesOn {s t : Sys} (h : Tended s) (hgoes : s.GoesOn t) : Tended t := by
  obtain ⟨-, hip, hpast, new, hnew, hhist⟩ := hgoes
  have hgate (hp : s.core.state.PastHeaders) :
      ∃ g ∈ (tenure.after t.core.hist).gate, g.ipRemote = s.core.ipRemote := by
    rw [hhist, within_gate hnew]
    exact h.gate hp
  refine ⟨?_, fun hp => hip.symm ▸ hgate (hpast.mp hp)⟩
  clear hgate
  rw [hhist]
  clear hhist
  induction new with
  | nil => exact h.logged
  | cons o new ih =>
    have hrest : ∀ o ∈ new, Obs.Within s o := fun o' ho' => hnew o' (List.mem_cons_of_mem _ ho')
    refine ⟨?_, ih hrest⟩
    have hw := hnew o List.mem_cons_self
    cases o with
    | login i session =>
      obtain ⟨g, hg, hfrom⟩ := h.gate hw.1
      have hgates : (tenure.after (new ++ s.core.hist)).gate = _ := within_gate hrest
      exact ⟨g, hgates.symm ▸ hg, hw.2.trans hfrom.symm⟩
    | _ => trivial

theorem Tended.afterHeaders {env : Env} {s : Sys} (h : Tended s) : Tended (s.afterHeaders env) := by
  obtain ⟨tLastSent, called, hcore, hcalled, -⟩ := @Sys.afterHeaders_core env s
  have hlate := @Sys.afterHeaders_pastHeaders env s
  generalize s.afterHeaders env = t at hcore hlate ⊢
  have hbegun : Tended { t with core := { t.core with hist := .headers s.gate :: s.core.hist } } := by
    refine ⟨⟨trivial, h.logged⟩, fun _ => ⟨s.gate, rfl, ?_⟩⟩
    rw [hcore]
    rfl
  refine hbegun.goesOn ⟨rfl, rfl, Iff.rfl, (if t.app.result < 0 then [.refused] else []) ++ called,
    fun o ho => ?_, by rw [hcore, List.append_assoc]⟩
  rcases List.mem_append.mp ho with ho | ho
  · split_ifs at ho
    · rw [List.mem_singleton.mp ho]
      trivial
    · cases ho
  · rcases hcalled with rfl | ⟨m, rfl⟩
    · cases ho
    · rw [List.mem_singleton.mp ho]
      exact hlate

theorem Micro.tended {env : Env} {s t : Sys} (hstep : Micro env s t) (h : Tended s) : Tended t := by
  have hone {o : Obs} (ho : ∀ t, o.Logged t) : ∀ o' ∈ [o], ∀ t, Obs.Logged t o' := by
    intro o' ho'
    rw [List.mem_singleton.mp ho']
    exact ho
  cases hstep.stage with
  | begin =>
    exact h.before (by decide : ¬ HttpState.headerReceiving.PastHeaders)
      (hone (o := .begin) fun _ => trivial) rfl
  | line mem n hs =>
    have hkept := @Sys.headerLine_kept env s mem n
    have hstate : ¬ (s.headerLine env mem n).core.state.PastHeaders := by
      rw [hkept.state, hs]
      decide
    rcases hkept.hist with he | ⟨line, he⟩
    · exact @Tended.before s _ h hstate [] nofun he
    · exact h.before hstate (hone (o := .line s.core.handler line) fun _ => trivial) he
  | headers => exact h.afterHeaders
  | within _ hgoes => exact h.goesOn hgoes
  | reset =>
    exact h.before (by decide : ¬ HttpState.idle.PastHeaders) (hone (o := .reset) fun _ => trivial) rfl
  | close =>
    obtain ⟨closed, hclosed, hhist⟩ := @Sys.closeHttpContext_hist env s
    refine h.before (by decide : ¬ HttpState.idle.PastHeaders) (fun o ho t => ?_) hhist
    rcases List.mem_cons.mp ho with rfl | ho
    · trivial
    · obtain ⟨pcb, ok, rfl⟩ := hclosed o ho
      trivial

theorem ConnReach.tended {env : Env} {sid : ℕ} {s : Sys} (h : ConnReach env sid s) : Tended s := by
  refine h.invariant ⟨trivial, nofun⟩ (fun _ _ hm hs => hm.tended hs)
    (fun s pcb ipRemote https hs => ?_) (fun s hs => ?_) fun _ _ hs => ⟨hs.logged, hs.gate⟩
  · exact ⟨⟨trivial, trivial, hs.logged⟩, nofun⟩
  · refine ⟨?_, nofun⟩
    rw [show s.onHttpError.core.hist = _ from s.freeHttpContext_hist]
    exact ⟨trivial, hs.logged⟩

/-! ## Nothing is touched that is not noted -/

/-- Every live session that changed was noted, with what it was. -/
def Sys.Noted (s t : Sys) (new : List Obs) : Prop :=
  ∀ i, (s.app.world.sessions i).Live → t.app.world.sessions i ≠ s.app.world.sessions i →
    .touched i (s.app.world.sessions i) ∈ new

theorem Sys.Noted.same {s t : Sys} (h : t.app.world.sessions = s.app.world.sessions)
    (new : List Obs) : Noted s t new := fun i _ hne => absurd (congrFun h i) hne

theorem Sys.Noted.trans {s t u : Sys} {new new' : List Obs} (h : Noted s t new)
    (h' : Noted t u new') : Noted s u (new' ++ new) := by
  intro i hlive hne
  by_cases he : t.app.world.sessions i = s.app.world.sessions i
  · rw [← he] at hlive hne ⊢
    exact List.mem_append_left _ (h' i hlive hne)
  · exact List.mem_append_right _ (h i hlive he)

/-- `SessionReceived` and `SessionSent` change the slot that they are called with. -/
theorem onSession_noted {s : Sys} {f : SessionTable → Fin maxSessions → SessionTable}
    (hf : ∀ t i j, j ≠ i → f t i j = t j) (hdead : ∀ t i, ¬ (t i).Live → f t i = t) {new : List Obs}
    (hhist : (s.onSession f).core.hist = new ++ s.core.hist) : s.Noted (s.onSession f) new := by
  unfold Sys.onSession at hhist ⊢
  split at hhist
  next i hi =>
    simp only at hhist ⊢
    by_cases hlive : (s.app.world.sessions i).Live
    · rw [if_pos hlive] at hhist ⊢
      obtain rfl : [.touched i (s.app.world.sessions i)] = new := List.append_cancel_right hhist
      intro j _ hne
      by_cases hj : j = i
      · subst hj
        exact List.mem_singleton_self _
      · exact absurd (hf _ i j hj) hne
    · rw [if_neg hlive]
      exact .same (hdead _ i hlive) new
  next => exact .same rfl new

theorem requestDone_noted {env : Env} {s : Sys} {new : List Obs}
    (hhist : (s.requestDone env).core.hist = new ++ s.core.hist) : s.Noted (s.requestDone env) new := by
  have hend := @Sys.cgiRequestReceived_end env s
  unfold Sys.requestDone at hhist ⊢
  simp only at hhist ⊢
  have hcall (hcalled : (s.cgiRequestReceived env).core.hist = new ++ s.core.hist) :
      s.Noted (s.cgiRequestReceived env) new := by
    generalize s.cgiRequestReceived env = t at hend hcalled ⊢
    cases hend with
    | called m f hm hf =>
      have hstep : Work.SessionStep s.core s.app.toWork (f env s.core s.app).toWork :=
        Cgi.onRequestReceived_sessions hf s.app
      let u := (s.note (.call .requestReceived m)).onApp (f env s.core)
      intro i hlive hne
      have htouched : u.touchedSince s = some (i, s.app.world.sessions i) :=
        Sys.mem_touchedSince.mpr ⟨hstep.touched hlive hne, rfl, hlive, hne⟩
      let notes := ((u.loginSince s).toList.map fun x => Obs.login x.1 x.2) ++
        (u.touchedSince s).toList.map fun x => .touched x.1 x.2
      have hnew : notes ++ [.call .requestReceived m] = new := by
        have hlists : (notes ++ [.call .requestReceived m]) ++ s.core.hist = new ++ s.core.hist := by
          rw [← hcalled, List.append_assoc]
          rfl
        exact List.append_cancel_right hlists
      have hmem : .touched i (s.app.world.sessions i) ∈ notes := by
        refine List.mem_append_right _ ?_
        rw [htouched]
        exact List.mem_singleton_self _
      exact hnew ▸ List.mem_append_left _ hmem
    | ignored => exact .same rfl new
  split_ifs at hhist ⊢
  · exact hcall hhist
  · exact hcall hhist

theorem Micro.noted {env : Env} {s t : Sys} (hstep : Micro env s t) {new : List Obs}
    (hhist : t.core.hist = new ++ s.core.hist) : s.Noted t new := by
  have hlocal (h : Sys.Local ⟨false, true⟩ s t) : s.Noted t new := .same (h.world.sessions rfl) new
  cases hstep with
  | background hb =>
    cases hb with
    | received tick =>
      exact onSession_noted (fun t i j hj => sessionReceived_of_ne hj t tick)
        (fun t i hdead => if_neg hdead) hhist
    | sent tick =>
      exact onSession_noted (fun t i j hj => sessionSent_of_ne hj t tick)
        (fun t i hdead => if_neg hdead) hhist
    | _ => exact .same rfl new
  | requestDone => exact requestDone_noted hhist
  | requestLine _ line _ _ hl => exact hlocal (Sys.requestLine_local hl)
  | headerLine mem n => exact hlocal (Sys.headerLine_local s mem n nofun)
  | afterHeaders => exact hlocal (Sys.afterHeaders_local s nofun)
  | chunk => exact hlocal ((Sys.receiveChunkLine_local s).trans (Sys.receiveContent_local _ _ nofun))
  | content => exact hlocal (Sys.receiveContent_local s _ nofun)
  | flush => exact hlocal (Sys.sendOrEnd_local s)
  | sendHeader => exact hlocal (Sys.sendHeader_local s)
  | headerSent =>
    refine .same ?_ new
    unfold Sys.headerSent
    split_ifs <;> rfl
  | sendBody caller => exact hlocal (Sys.sendBody_local s caller)
  | reset => exact hlocal (Sys.resetHttpContext_local s)
  | close => exact hlocal ((Sys.closePcb_local s).trans (Sys.freeHttpContext_local _))
  | _ => exact .same rfl new

theorem Steps.noted {env : Env} {s t : Sys} (h : Steps env s t) {new : List Obs}
    (hhist : t.core.hist = new ++ s.core.hist) : s.Noted t new := by
  induction h generalizing new with
  | refl => exact .same rfl new
  | @tail u t hsteps hstep ih =>
    obtain ⟨older, -, hu⟩ := Steps.grows hsteps
    obtain ⟨newer, -, ht⟩ := hstep.grows
    obtain rfl : newer ++ older = new := by
      rw [ht, hu, ← List.append_assoc] at hhist
      exact List.append_cancel_right hhist
    exact (ih hu).trans (hstep.noted ht)

namespace Server

variable {env : Env}

/-- A live session changes by the session check, or by an event of a connection that notes it. -/
theorem handle_noted {s : Server} (h : (runs env).Reach s) (e : Event) (k : Fin maxSessions)
    (hlive : (s.world.sessions k).Live)
    (hne : (s.handle env e).world.sessions k ≠ s.world.sessions k) :
    (∃ tick, e = .sessionCheck tick) ∨
      ∃ i, s.Reaches i e ∧ .touched k (s.world.sessions k) ∈ s.noted env i e := by
  have hconnected : Connected env { s with world := s.world.asked } :=
    Connected.globals (fun j => reach_conn h j) rfl
  have hreaches {i : Fin maxConnections} (he : Reaches i s e) :
      ∃ i, s.Reaches i e ∧ .touched k (s.world.sessions k) ∈ s.noted env i e := by
    refine ⟨i, he, ?_⟩
    have he' : Reaches i { s with world := s.world.asked } e := by cases e <;> exact he
    rcases fire_served hconnected he' with heq | ⟨t, hserved, heq⟩
    · exact absurd (congrArg (fun t : Server => t.world.sessions k) heq) hne
    have hput : s.handle env e = { s with world := s.world.asked }.put i t := heq
    have hctx : (s.handle env e).ctx i = t := by
      rw [hput]
      exact Function.update_self ..
    have hsessions : (s.handle env e).world.sessions = t.app.world.sessions := by
      rw [hput]
      rfl
    rw [hsessions] at hne
    cases hserved with
    | steps hsteps =>
      obtain ⟨new, -, hhist⟩ := hsteps.grows
      rw [noted, hctx, Sys.notesSince_eq (s := s.ctx i) hhist]
      exact hsteps.noted hhist k hlive hne
    | accept pcb ipRemote https =>
      have hlocal := (@Sys.onHttpAccept_local env ⟨false, true⟩
        ({ s with world := s.world.asked }.conn i) pcb ipRemote https).world.sessions rfl
      exact absurd (congrFun hlocal k) hne
    | error =>
      have hlocal := (@Sys.freeHttpContext_local ⟨false, true⟩
        ({ s with world := s.world.asked }.conn i)).world.sessions rfl
      exact absurd (congrFun hlocal k) hne
  cases e with
  | accept pcb ipRemote https =>
    cases hfind : Fin.find? fun j => decide ((s.ctx j).core.pcb = none) with
    | some i => exact .inr (hreaches (i := i) hfind)
    | none =>
      refine absurd ?_ hne
      simp only [handle, fire, hfind]
      rfl
  | receive i p => exact .inr (hreaches (i := i) rfl)
  | poll i => exact .inr (hreaches (i := i) rfl)
  | sent i len => exact .inr (hreaches (i := i) rfl)
  | error i => exact .inr (hreaches (i := i) rfl)
  | sessionCheck tick => exact .inl ⟨tick, rfl⟩
  | _ => exact absurd rfl hne

end Server

/-- In every run of the server in which sessions are touched only through pointers that were set since
the accept, from the address of the login, to the session that is still there, every session is touched
by its owner; and a live session changes by the session check or where the connection notes it. -/
theorem session_owners (env : Env) {s : Server} (h : (Server.runs env).Reach s)
    (hrightly : ∀ i, TouchedRightly (s.ctx i).core.hist) :
    (∀ i, TouchedOwn (s.ctx i).core.hist) ∧
      ∀ (e : Event) (k : Fin maxSessions), (s.world.sessions k).Live →
        (s.handle env e).world.sessions k ≠ s.world.sessions k → (∃ tick, e = .sessionCheck tick) ∨
          ∃ i, s.Reaches i e ∧ .touched k (s.world.sessions k) ∈ s.noted env i e := by
  refine ⟨fun i => ?_, fun e k hlive hne => Server.handle_noted h e k hlive hne⟩
  have htended : Tended (s.conn i) := (Server.reach_conn h i).tended
  exact owned_of_rightful htended.logged (hrightly i)

/-- A login from address 1, after which the connection is lost. -/
def loginAndLeave : List Event :=
  [.accept 0 1 false,
    .data 0 (bytes "POST /auth/login.html HTTP/1.1\r\nContent-Length: 25\r\n\r\n"),
    .data 0 (bytes "username=admin&password=x"), .error 0]

/-- The client comes back with its cookie. -/
@[irreducible] def cameBack : Server :=
  Server.boot.play (Env.calm (bytes "page")) (loginAndLeave ++
    [.accept 1 1 false,
      .data 0 (bytes "GET /app/index.shtml HTTP/1.1\r\nCookie: SID=000003E8\r\n\r\n")])

theorem session_owners_cameBack : (cameBack.world.sessions ⟨0, by decide⟩).Live ∧
    ∀ i, TouchedOwn (cameBack.ctx i).core.hist := by
  have hrun : Server.Sane (Env.calm (bytes "page")) Server.boot (loginAndLeave ++
      [.accept 1 1 false,
        .data 0 (bytes "GET /app/index.shtml HTTP/1.1\r\nCookie: SID=000003E8\r\n\r\n")]) ∧
      (cameBack.world.sessions ⟨0, by decide⟩).Live ∧ ∀ i, TouchedRightly (cameBack.ctx i).core.hist := by
    decide +kernel
  obtain ⟨hsane, hlive, hrightly⟩ := hrun
  have hreach : (Server.runs (Env.calm (bytes "page"))).Reach cameBack := by
    unfold cameBack
    exact Server.reach_boot _ hsane
  exact ⟨hlive, (@session_owners _ cameBack hreach hrightly).1⟩

/-- Another client is accepted from address 2 and has sent one byte. -/
@[irreducible] def strangerByte : Server :=
  Server.boot.play (Env.calm (bytes "page")) (loginAndLeave ++ [.accept 1 2 false, .data 0 (bytes "G")])

theorem session_owners_fails :
    ¬ ∀ (env : Env) (s : Server) (i : Fin maxConnections), (Server.runs env).Reach s →
      TouchedOwn (s.ctx i).core.hist := by
  intro h
  have hrun : Server.Sane (Env.calm (bytes "page")) Server.boot
      (loginAndLeave ++ [.accept 1 2 false, .data 0 (bytes "G")]) ∧
      ¬ TouchedOwn (strangerByte.ctx 0).core.hist := by
    decide +kernel
  obtain ⟨hsane, hstolen⟩ := hrun
  have hreach : (Server.runs (Env.calm (bytes "page"))).Reach strangerByte := by
    unfold strangerByte
    exact Server.reach_boot _ hsane
  exact hstolen (h _ strangerByte 0 hreach)

end StraightHttpd
