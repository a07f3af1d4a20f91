import StraightHttpd.Httpd.Server
import StraightHttpd.Lib.Monitor

/-! # Access rules

Whether a mapping may be used by a request is decided when the headers are complete. A request that
is denied is answered with an error or a redirect. The error ends with its header; the redirect goes
on to the body of the response, and there `ReadContent` of the denied mapping is called.
-/

set_option autoImplicit false

namespace StraightHttpd
open CMemory

namespace Gate

/-- No live session that was made from the address of the request has its token in the token of the
request. -/
def NoSession (g : Gate) : Prop :=
  ∀ i, (g.sessions i).Live → (strstr g.token (g.sessions i).token).isSome = true →
    (g.sessions i).nLoginIP ≠ g.ipRemote

/-- The mapping asks for a session, the type of the file does too, and there is none. -/
def LoginDenied (g : Gate) (m : Cgi) : Prop :=
  m.mapping.optionsAllowed.authRequired = true ∧ sessionTypes g.extension = true ∧ g.NoSession

/-- The method is not enabled in the options of the mapping. -/
def MethodDenied (g : Gate) (m : Cgi) : Prop :=
  ¬ (g.method = some .get ∧ m.mapping.optionsAllowed.getEnabled = true ∨
    g.method = some .post ∧ m.mapping.optionsAllowed.postEnabled = true)

def Denied (g : Gate) (m : Cgi) : Prop := g.LoginDenied m ∨ g.MethodDenied m

/-- The session that `GetSession` finds was made from the address of the request. -/
def covered (g : Gate) : Bool :=
  (getSession g.sessions g.token).any fun i => (g.sessions i).nLoginIP == g.ipRemote

/-- The request is redirected, to the login page or to the secure port. -/
def Redirected (g : Gate) (m : Cgi) : Prop :=
  m.mapping.optionsAllowed.authRequired = true ∧ sessionTypes g.extension = true ∧
      g.covered = false ∨
    g.MethodDenied m ∧ g.httpsListening = true ∧ g.https = false

variable (g : Gate) (m : Cgi)

instance : Decidable g.NoSession := inferInstanceAs (Decidable (∀ _, _))
instance : Decidable (g.LoginDenied m) := inferInstanceAs (Decidable (_ ∧ _))
instance : Decidable (g.MethodDenied m) := inferInstanceAs (Decidable (¬ _))
instance : Decidable (g.Denied m) := inferInstanceAs (Decidable (_ ∨ _))
instance : Decidable (g.Redirected m) := inferInstanceAs (Decidable (_ ∨ _))

theorem NoSession.not_covered {g : Gate} (h : g.NoSession) : g.covered = false := by
  unfold covered
  cases hs : getSession g.sessions g.token with
  | none => rfl
  | some i =>
    unfold getSession at hs
    split at hs
    · cases hs
    · have hfound := Fin.eq_true_of_find?_eq_some hs
      rw [Bool.and_eq_true, decide_eq_true_iff] at hfound
      rw [Option.any_some, beq_eq_false_iff_ne]
      exact h i hfound.1 hfound.2

end Gate

/-! ## Histories -/

/-- The gate of the present request, once its headers are complete. -/
def gates : Monitor (Option Gate) Obs where
  start := none
  next g
    | .headers g => some g
    | .begin => none
    | _ => g

/-- A callback belongs to a request whose gate satisfies `P`. -/
def Obs.CallOf (P : Gate → Callback → Cgi → Prop) (gate : Option Gate) : Obs → Prop
  | .call cb m => ∃ g ∈ gate, P g cb m
  | _ => True

instance (P : Gate → Callback → Cgi → Prop) [∀ g cb m, Decidable (P g cb m)] (gate : Option Gate)
    (o : Obs) : Decidable (o.CallOf P gate) := by
  cases o <;> simp only [Obs.CallOf] <;> infer_instance

/-- No callback of a mapping is called for a request that the mapping denies. -/
def Guarded (hist : List Obs) : Prop :=
  gates.Along (Obs.CallOf fun g _ m => g.handler = some m ∧ ¬ g.Denied m) hist

instance (hist : List Obs) : Decidable (Guarded hist) := Monitor.decidableAlong _ _ hist

/-- A mapping that is denied, has content to read, and is redirected. -/
def Gate.Leaks (g : Gate) (m : Cgi) : Prop :=
  g.Denied m ∧ m.mapping.readContent.isSome = true ∧ g.Redirected m

instance (g : Gate) (m : Cgi) : Decidable (g.Leaks m) := inferInstanceAs (Decidable (_ ∧ _))

/-- A request that arrives at a gate is not both denied and redirected at a mapping that has content
to read. -/
def Obs.Tight : Obs → Prop
  | .headers g => ∀ m ∈ g.handler, ¬ g.Leaks m
  | _ => True

instance (o : Obs) : Decidable o.Tight := by
  cases o <;> simp only [Obs.Tight] <;> infer_instance

/-- All requests are so. -/
def NoLeak (hist : List Obs) : Prop := gates.Along (fun _ o => o.Tight) hist

instance (hist : List Obs) : Decidable (NoLeak hist) := Monitor.decidableAlong _ _ hist

/-- What is known of a callback: its mapping matched, and if that denies the request, the callback
is the `ReadContent` of a redirect. -/
def Accounted (hist : List Obs) : Prop :=
  gates.Along
    (Obs.CallOf fun g cb m => g.handler = some m ∧ (g.Denied m → cb = .readContent ∧ g.Leaks m)) hist

theorem Accounted.guarded {hist : List Obs} (h : Accounted hist) (hn : NoLeak hist) :
    Guarded hist := by
  have hkeep (gate : Option Gate) (o : Obs) (hg : ∀ g ∈ gate, ∀ m ∈ g.handler, ¬ g.Leaks m)
      (ho : o.Tight) : ∀ g ∈ gates.next gate o, ∀ m ∈ g.handler, ¬ g.Leaks m := by
    cases o with
    | headers g =>
      intro g' hg'
      rw [← Option.some.inj hg']
      exact ho
    | begin => exact fun g hg' => by cases hg'
    | _ => exact hg
  refine Monitor.Along.imp (I := fun gate => ∀ g ∈ gate, ∀ m ∈ g.handler, ¬ g.Leaks m) nofun hkeep ?_
    hn h
  intro gate o hg _ hcall
  cases o with
  | call cb m =>
    obtain ⟨g, hmem, hm, hdenied⟩ := hcall
    exact ⟨g, hmem, hm, fun hd => hg g hmem m hm (hdenied hd).2⟩
  | _ => trivial

theorem gates_append {new : List Obs} (h : ∀ o ∈ new, Obs.Aside o) (hist : List Obs) :
    gates.after (new ++ hist) = gates.after hist := by
  refine Monitor.after_append fun o ho gate => ?_
  have ha := h o ho
  cases o <;> first | rfl | exact ha.elim

theorem Accounted.append {new hist : List Obs} (h : ∀ o ∈ new, Obs.Aside o) (ha : Accounted hist) :
    Accounted (new ++ hist) := by
  refine Monitor.Along.append (fun o ho gate => ?_) ha
  have hn := h o ho
  cases o <;> trivial

/-! ## What is decided is kept -/

/-- What the gate has decided about the request: a denied one is answered with an error, and gets
to the body of the response as a redirect only. -/
structure Decided (g : Gate) (s : Sys) : Prop where
  handler : g.handler = s.core.handler
  denied : ∀ m, g.handler = some m → g.Denied m → s.app.result < 0 ∧ s.core.state.Answering ∧
    (s.app.result = codeRedirect ∨ s.core.state = .sendingBody → g.Redirected m)

/-- The invariant of a connection. -/
structure Admitted (s : Sys) : Prop where
  access : ∀ m, s.core.handler = some m →
    s.app.options.access = m.mapping.optionsAllowed.access
  gate : s.core.state.PastHeaders → ∃ g ∈ gates.after s.core.hist, Decided g s
  calls : Accounted s.core.hist

/-- Before the response is made, nothing is denied. -/
theorem Decided.not_denied {g : Gate} {s : Sys} (h : Decided g s) (hs : ¬ s.core.state.Answering)
    {m : Cgi} (hm : g.handler = some m) : ¬ g.Denied m :=
  fun hd => hs (h.denied m hm hd).2.1

/-- A request that is not denied is decided whatever becomes of it. -/
theorem Decided.allowed {g : Gate} {s : Sys} (hhandler : g.handler = s.core.handler)
    (h : ∀ m, g.handler = some m → ¬ g.Denied m) : Decided g s :=
  ⟨hhandler, fun m hm hd => absurd hd (h m hm)⟩

namespace Admitted

variable {env : Env} {s t : Sys}

/-- Steps that access does not depend on. -/
theorem same (h : Admitted s) (hstate : t.core.state = s.core.state)
    (hhandler : t.core.handler = s.core.handler) (haccess : t.app.options.access = s.app.options.access)
    (hresult : t.app.result = s.app.result) (hhist : t.core.hist = s.core.hist) : Admitted t where
  access m hm := haccess.trans (h.access m (hhandler.symm.trans hm))
  gate hp := by
    obtain ⟨g, hg, hd⟩ := h.gate (hstate ▸ hp)
    refine ⟨g, hhist ▸ hg, hd.handler.trans hhandler.symm, ?_⟩
    rw [hstate, hresult]
    exact hd.denied
  calls := hhist ▸ h.calls

/-- States in which nothing has been decided yet. -/
theorem before (st : HttpState) (hstate : t.core.state = st) (hst : ¬ st.PastHeaders)
    (haccess : ∀ m, t.core.handler = some m →
      t.app.options.access = m.mapping.optionsAllowed.access)
    (hcalls : Accounted t.core.hist) : Admitted t where
  access := haccess
  gate hp := absurd (hstate ▸ hp) hst
  calls := hcalls

/-! ## The gate -/

theorem needsLogin_iff {m : Cgi} (h : s.app.options.access = m.mapping.optionsAllowed.access) :
    s.needsLogin = true ↔ m.mapping.optionsAllowed.authRequired = true ∧
      sessionTypes s.gate.extension = true ∧ s.gate.covered = false := by
  have hauth : s.app.options.authRequired = m.mapping.optionsAllowed.authRequired :=
    congrArg (fun a : Bool × Bool × Bool => a.1) h
  simp only [Sys.needsLogin, Bool.and_eq_true, Bool.not_eq_true', hauth]
  exact ⟨fun ⟨⟨hc, ha⟩, ht⟩ => ⟨ha, ht, hc⟩, fun ⟨ha, ht, hc⟩ => ⟨⟨hc, ha⟩, ht⟩⟩

theorem methodEnabled_iff {m : Cgi} (h : s.app.options.access = m.mapping.optionsAllowed.access) :
    s.methodEnabled = false ↔ s.gate.MethodDenied m := by
  have hget : s.app.options.getEnabled = m.mapping.optionsAllowed.getEnabled :=
    congrArg (fun a : Bool × Bool × Bool => a.2.1) h
  have hpost : s.app.options.postEnabled = m.mapping.optionsAllowed.postEnabled :=
    congrArg (fun a : Bool × Bool × Bool => a.2.2) h
  rw [← Bool.not_eq_true]
  simp only [Sys.methodEnabled, Bool.or_eq_true, Bool.and_eq_true, decide_eq_true_iff, hget, hpost]
  rfl

theorem atGate_methodEnabled {u : Sys} (h : Sys.AtGate s u) : u.methodEnabled = s.methodEnabled := by
  simp only [Sys.methodEnabled, h.method, h.options]

/-- A request that the mapping lets through is not denied. -/
theorem atGate_not_denied {u : Sys} (hu : Sys.AtGate s u) {m : Cgi}
    (h : s.app.options.access = m.mapping.optionsAllowed.access)
    (hauth : ¬ (u.app.options.authRequired = true ∧ u.app.authorized ≠ codeOk))
    (hmethod : u.methodEnabled = true) : ¬ s.gate.Denied m := by
  rintro (⟨hreq, htype, hnone⟩ | hdenied)
  · have hlogin : s.needsLogin = true := (needsLogin_iff h).mpr ⟨hreq, htype, hnone.not_covered⟩
    rcases hu.login with ⟨-, -, ha⟩ | ⟨hno, -, -⟩
    · refine hauth ⟨?_, by rw [ha]; decide⟩
      rw [hu.options]
      exact (congrArg (fun a : Bool × Bool × Bool => a.1) h).trans hreq
    · rw [hlogin] at hno
      cases hno
  · rw [atGate_methodEnabled hu, (methodEnabled_iff h).mpr hdenied] at hmethod
    cases hmethod

/-- A redirect by `CGI_HeadersReceived` of a request for a mapping is one that the gate foresees. -/
theorem atGate_refused {u : Sys} (hu : Sys.AtGate s u) {m : Cgi} (hm : s.core.handler = some m)
    (h : s.app.options.access = m.mapping.optionsAllowed.access) (hresult : 0 ≤ s.app.result)
    (hmethod : u.methodEnabled = false) (hr : u.cgiRefuse.app.result = codeRedirect) :
    s.gate.Redirected m := by
  have hdenied : s.gate.MethodDenied m := (methodEnabled_iff h).mp (atGate_methodEnabled hu ▸ hmethod)
  rcases hu.login with ⟨hlogin, -, -⟩ | ⟨-, hsame, -⟩
  · exact .inl ((needsLogin_iff h).mp hlogin)
  rw [← hsame] at hresult
  unfold Sys.cgiRefuse at hr
  split_ifs at hr with hneg hsecure htype
  · exact absurd hneg (not_lt.mpr hresult)
  · refine .inr ⟨hdenied, hu.listening.symm.trans hsecure.1, ?_⟩
    rw [← Bool.not_eq_true]
    exact fun hhttps => hsecure.2.1 (hu.https.trans hhttps)
  · rw [hu.handler, hm] at htype
    exact absurd htype.2 (Option.some_ne_none m)
  · exact absurd hr (by decide : ((-404 : ℤ) ≠ codeRedirect))
  · exact absurd hr (by decide : ((-500 : ℤ) ≠ codeRedirect))

/-- How `CGI_HeadersReceived` leaves the connection. -/
theorem atGate_end (h : Admitted s) (hresult : 0 ≤ s.app.result) {u t : Sys} (hu : Sys.AtGate s u)
    (hend : Sys.HeadersEnd env u t) :
    t.core.handler = s.core.handler ∧ t.app.options.access = s.app.options.access ∧
      gates.after t.core.hist = some s.gate ∧ Accounted t.core.hist ∧
      ∀ m, s.core.handler = some m → s.gate.Denied m →
        t.app.result < 0 ∧ (t.app.result = codeRedirect → s.gate.Redirected m) := by
  have hgate : gates.after u.core.hist = some s.gate := by rw [hu.hist]; rfl
  have hcalls : Accounted u.core.hist := by rw [hu.hist]; exact ⟨trivial, h.calls⟩
  have hoptions : u.app.options.access = s.app.options.access := by rw [hu.options]
  cases hend with
  | called m f hm hf hauth henabled =>
    have hm' : s.core.handler = some m := hu.handler.symm.trans hm
    have hno : ¬ s.gate.Denied m := atGate_not_denied hu (h.access m hm') hauth henabled
    have hkept : Work.Kept .nothing u.core.sid u.app.toWork (f env u.core u.app).toWork :=
      @Cgi.onHeadersReceived_kept .nothing _ _ _ nofun _ hf u.app
    refine ⟨hu.handler, hkept.access.trans hoptions, hgate,
      ⟨⟨s.gate, hgate, hm', fun hd => absurd hd hno⟩, hcalls⟩, fun m' hm'' hd => ?_⟩
    rw [hm'] at hm''
    exact absurd hd (Option.some.inj hm'' ▸ hno)
  | accepted m hm _ hauth henabled =>
    have hm' : s.core.handler = some m := hu.handler.symm.trans hm
    have hno : ¬ s.gate.Denied m := atGate_not_denied hu (h.access m hm') hauth henabled
    refine ⟨hu.handler, hoptions, hgate, hcalls, fun m' hm'' hd => ?_⟩
    rw [hm'] at hm''
    exact absurd hd (Option.some.inj hm'' ▸ hno)
  | unauthorized m hm hreq hne =>
    refine ⟨hu.handler, hoptions, hgate, hcalls, fun m' hm' _ => ?_⟩
    rcases hu.login with ⟨hlogin, -, ha⟩ | ⟨-, -, ha⟩
    · refine ⟨?_, fun _ => .inl ((needsLogin_iff (h.access m' hm')).mp hlogin)⟩
      change u.app.authorized < 0
      rw [ha]
      decide
    · exact absurd ha hne
  | refused hwhy =>
    have hkept : u.cgiRefuse.app.options = u.app.options := by
      unfold Sys.cgiRefuse
      split_ifs <;> rfl
    rw [u.cgiRefuse_core, hkept]
    refine ⟨hu.handler, hoptions, hgate, hcalls, fun m hm _ => ⟨u.cgiRefuse_result, fun hr => ?_⟩⟩
    rcases hwhy with hnone | hmethod
    · rw [hu.handler, hm] at hnone
      cases hnone
    · exact atGate_refused hu hm (h.access m hm) hresult hmethod hr

theorem afterHeaders (h : Admitted s) (hresult : 0 ≤ s.app.result) : Admitted (s.afterHeaders env) := by
  obtain ⟨hhandler, haccess, hgate, hcalls, hdenied⟩ :=
    h.atGate_end hresult (@Sys.atGate env s) (@Sys.cgiHeadersReceived_end env _)
  unfold Sys.afterHeaders
  simp only
  generalize ((s.note (.headers s.gate)).authorize.expectBody env).cgiHeadersReceived env = t
    at hhandler haccess hgate hcalls hdenied ⊢
  split_ifs with hneg
  · refine ⟨fun m hm => haccess.trans (h.access m (hhandler.symm.trans hm)), fun _ => ?_,
      trivial, hcalls⟩
    refine ⟨s.gate, hgate, hhandler.symm, fun m hm hd => ⟨hneg, ?_, ?_⟩⟩
    · exact (by decide : HttpState.sendingHeader.Answering)
    · rintro (hr | hbody)
      · exact (hdenied m hm hd).2 hr
      · cases hbody
  · refine ⟨fun m hm => haccess.trans (h.access m (hhandler.symm.trans hm)), fun _ => ?_, hcalls⟩
    exact ⟨s.gate, hgate, hhandler.symm, fun m hm hd => absurd (hdenied m hm hd).1 hneg⟩

/-! ## The other steps -/

theorem noteAll (h : Admitted s) {new : List Obs} (hnew : ∀ o ∈ new, Obs.Aside o) :
    Admitted (s.noteAll new) where
  access := h.access
  gate hp := by
    obtain ⟨g, hg, hd⟩ := h.gate hp
    exact ⟨g, (gates_append hnew _).symm ▸ hg, hd.handler, hd.denied⟩
  calls := h.calls.append hnew

theorem noteSession (h : Admitted s) (before : Sys) : Admitted (s.noteSession before) := by
  obtain ⟨new, hnew, he⟩ := s.noteSession_eq before
  rw [he]
  exact h.noteAll hnew

/-- Steps of a request whose mapping lets it through. -/
theorem received (h : Admitted s) (hp : s.core.state.PastHeaders) (ha : ¬ s.core.state.Answering)
    (hhandler : t.core.handler = s.core.handler)
    (haccess : t.app.options.access = s.app.options.access)
    (hgate : gates.after t.core.hist = gates.after s.core.hist) (hcalls : Accounted t.core.hist) :
    Admitted t where
  access m hm := haccess.trans (h.access m (hhandler.symm.trans hm))
  gate _ := by
    obtain ⟨g, hg, hd⟩ := h.gate hp
    exact ⟨g, hgate ▸ hg, .allowed (hd.handler.trans hhandler.symm) fun m hm => hd.not_denied ha hm⟩
  calls := hcalls

/-- A callback of such a request. -/
theorem call (h : Admitted s) (hp : s.core.state.PastHeaders) (ha : ¬ s.core.state.Answering)
    {m : Cgi} (hm : s.core.handler = some m) (cb : Callback) :
    Accounted (.call cb m :: s.core.hist) := by
  obtain ⟨g, hg, hd⟩ := h.gate hp
  have hgm : g.handler = some m := hd.handler.trans hm
  exact ⟨⟨g, hg, hgm, fun hdenied => absurd hdenied (hd.not_denied ha hgm)⟩, h.calls⟩

theorem receiveChunkLine (h : Admitted s) (hs : s.core.state = .chunkLenReceiving) :
    Admitted s.receiveChunkLine := by
  unfold Sys.receiveChunkLine
  split
  · exact h
  · exact h.received (by rw [hs]; decide) (by rw [hs]; decide) rfl rfl rfl ⟨trivial, h.calls⟩

theorem receiveContent (h : Admitted s) (size : ℤ)
    (hs : s.core.state = .chunkReceiving ∨ s.core.state = .bodyReceiving) :
    Admitted (s.receiveContent env size).1 := by
  have hp : s.core.state.PastHeaders := by rcases hs with h | h <;> rw [h] <;> decide
  have ha : ¬ s.core.state.Answering := by rcases hs with h | h <;> rw [h] <;> decide
  have hend := @Sys.cgiContentReceived_end env s size
  have haccess := (@Sys.ContentEnd.kept _ .nothing _ _ _ hend nofun).access
  unfold Sys.receiveContent
  generalize s.cgiContentReceived env size = r at hend haccess ⊢
  obtain ⟨t, consumed⟩ := r
  have ht : t.core.handler = s.core.handler ∧ gates.after t.core.hist = gates.after s.core.hist ∧
      Accounted t.core.hist := by
    cases hend with
    | called m f u a consumed hm hf hu he =>
      subst hu
      exact ⟨rfl, rfl, h.call hp ha hm _⟩
    | ignored => exact ⟨rfl, rfl, h.calls⟩
  obtain ⟨hhandler, hgate, hcalls⟩ := ht
  obtain ⟨hhandler', hhist, hoptions⟩ := @Sys.contentTaken_frame env t consumed
  simp only at haccess ⊢
  split_ifs
  · exact h.received hp ha hhandler haccess hgate hcalls
  · refine h.received hp ha (hhandler'.trans hhandler) ?_ ?_ ?_
    · rw [hoptions]
      exact haccess
    · rw [hhist]
      exact hgate
    · rw [hhist]
      exact ⟨trivial, hcalls⟩

theorem requestDone (h : Admitted s) (hs : s.core.state = .bodyDone) :
    Admitted (s.requestDone env) := by
  have hp : s.core.state.PastHeaders := by rw [hs]; decide
  have ha : ¬ s.core.state.Answering := by rw [hs]; decide
  have hend := @Sys.cgiRequestReceived_end env s
  unfold Sys.requestDone
  simp only
  generalize s.cgiRequestReceived env = t at hend ⊢
  have ht : Admitted t := by
    cases hend with
    | called m f hm hf =>
      have hkept : Work.Kept .nothing s.core.sid s.app.toWork (f env s.core s.app).toWork :=
        @Cgi.onRequestReceived_kept .nothing _ _ _ nofun nofun _ hf s.app
      have hcalled : Admitted ((s.note (.call .requestReceived m)).onApp (f env s.core)) :=
        h.received hp ha rfl hkept.access rfl (h.call hp ha hm _)
      exact hcalled.noteSession s
    | ignored => exact h
  have hstate : t.core.state = s.core.state := by cases hend <;> rfl
  split_ifs
  · exact ht.received (hstate ▸ hp) (hstate ▸ ha) rfl rfl rfl ht.calls
  · exact ht

/-! ## The response -/

theorem sends (h : Admitted s) (hsends : Sys.Sends s t) : Admitted t := by
  obtain ⟨new, _, _, _, _, _, hnew, rfl⟩ := hsends
  exact (h.noteAll fun o ho => (hnew o ho).aside).same rfl rfl rfl rfl rfl

/-- The end of a request whose response failed. -/
theorem failed (h : Admitted s) (hs : s.core.state.Received) :
    Admitted ((s.setResult (-500)).setState .requestEnd) where
  access := h.access
  gate _ := by
    have hp : s.core.state.PastHeaders := lt_of_lt_of_le (by decide) hs
    obtain ⟨g, hg, hd⟩ := h.gate hp
    refine ⟨g, hg, hd.handler, fun m hm hdenied => ⟨?_, ?_, ?_⟩⟩
    · exact (by decide : (-500 : ℤ) < 0)
    · exact (by decide : HttpState.requestEnd.Answering)
    · rintro (hr | hr)
      · exact absurd hr (by decide : (-500 : ℤ) ≠ codeRedirect)
      · cases hr
  calls := h.calls

theorem sendOrEnd (h : Admitted s) (hs : s.core.state.Received) :
    Admitted (s.sendOrEnd env).1 := by
  have hend := @Sys.sendOrEnd_end env s
  generalize s.sendOrEnd env = r at hend ⊢
  cases hend with
  | sent t ht => exact h.sends ht
  | failed t ht =>
    have hsends := h.sends ht
    obtain ⟨_, _, _, _, _, _, -, rfl⟩ := ht
    exact hsends.failed hs

theorem prepareHeader (h : Admitted s) : Admitted (s.prepareHeader env) := by
  let c := { s.core with tLastSent := s.app.stampNow env, sendMaxBlock := maxSendBufSize }
  let a := { s.app with dwOperStage := 0, dwOperIndex := 0 }
  have hkept := @cgiSetResponseHeaders_kept .nothing env c a (codeInfo a.result)
  have hresult := cgiSetResponseHeaders_result env c a (codeInfo a.result)
  have hcalls : Accounted ((s.prepareHeader env).core.hist) := ⟨trivial, h.calls⟩
  refine ⟨fun m hm => hkept.access.trans (h.access m hm), fun hp => ?_, hcalls⟩
  obtain ⟨g, hg, hd⟩ := h.gate hp
  refine ⟨g, hg, hd.handler, ?_⟩
  rw [show (s.prepareHeader env).app.result = s.app.result from hresult]
  exact hd.denied

/-- From the header to the body: a denied request gets there as a redirect only. -/
theorem headerOut (h : Admitted s) (hs : s.core.state.Received) : Admitted s.headerOut where
  access := h.access
  gate _ := by
    have hp : s.core.state.PastHeaders := lt_of_lt_of_le (by decide) hs
    obtain ⟨g, hg, hd⟩ := h.gate hp
    refine ⟨g, hg, hd.handler, fun m hm hdenied => ?_⟩
    obtain ⟨hneg, -, hredirect⟩ := hd.denied m hm hdenied
    refine ⟨hneg, ?_, ?_⟩
    · simp only [Sys.headerOut, Sys.setState_state]
      split_ifs <;> decide
    · simp only [Sys.headerOut, Sys.setState_state]
      split_ifs with hr
      · exact fun _ => hredirect (.inl hr)
      · rintro (hr' | hr')
        · exact absurd hr' hr
        · cases hr'
  calls := h.calls

theorem sendHeader (h : Admitted s) (hs : s.core.state.Received) :
    Admitted (s.sendHeader env).1 := by
  have hsend : Admitted ((s.prepareHeader env).sendOrEnd env).1 := h.prepareHeader.sendOrEnd hs
  have hst : ((s.prepareHeader env).sendOrEnd env).1.core.state.Received := Sys.sendOrEnd_received hs
  unfold Sys.sendHeader
  generalize (s.prepareHeader env).sendOrEnd env = r at hsend hst ⊢
  obtain ⟨t, b⟩ := r
  cases b
  · exact hsend
  · exact hsend.headerOut hst

theorem endResponse (h : Admitted s) (hp : s.core.state.PastHeaders) : Admitted s.endResponse where
  access := h.access
  gate _ := by
    obtain ⟨g, hg, hd⟩ := h.gate hp
    refine ⟨g, hg, hd.handler, fun m hm hdenied => ?_⟩
    obtain ⟨hneg, -, hredirect⟩ := hd.denied m hm hdenied
    refine ⟨hneg, (by decide : HttpState.requestEnd.Answering), ?_⟩
    rintro (hr | hr)
    · exact hredirect (.inl hr)
    · cases hr
  calls := ⟨trivial, h.calls⟩

theorem headerSent (h : Admitted s) (hs : s.core.state = .sendingHeader) : Admitted s.headerSent := by
  have hp : s.core.state.PastHeaders := by rw [hs]; decide
  unfold Sys.headerSent
  split_ifs with hneg
  · exact h.endResponse hp
  · obtain ⟨g, hg, hd⟩ := h.gate hp
    refine ⟨h.access, fun _ => ⟨g, hg, .allowed hd.handler fun m hm hdenied => ?_⟩, h.calls⟩
    exact hneg (hd.denied m hm hdenied).1

/-- Reading content in the body of a response. -/
theorem read (h : Admitted s) (hs : s.core.state = .sendingBody) {m : Cgi}
    (hm : s.core.handler = some m) (hread : m.mapping.readContent.isSome = true) :
    Accounted (.call .readContent m :: s.core.hist) := by
  obtain ⟨g, hg, hd⟩ := h.gate (by rw [hs]; decide)
  have hgm : g.handler = some m := hd.handler.trans hm
  refine ⟨⟨g, hg, hgm, fun hdenied => ⟨rfl, hdenied, hread, ?_⟩⟩, h.calls⟩
  exact (hd.denied m hgm hdenied).2.2 (.inr hs)

theorem cgiLoadContentToSend (h : Admitted s) (caller : Caller) (hs : s.core.state = .sendingBody) :
    Admitted (s.cgiLoadContentToSend env caller).1 := by
  have hend := @Sys.cgiLoadContentToSend_end env s caller
  have hkept := @Sys.LoadEnd.kept _ .nothing _ _ hend
  have hanswered := hend.answered
  have hstate := @Sys.cgiLoadContentToSend_state env s caller
  generalize s.cgiLoadContentToSend env caller = r at hend hkept hanswered hstate ⊢
  have ht : r.1.core.handler = s.core.handler ∧
      gates.after r.1.core.hist = gates.after s.core.hist ∧ Accounted r.1.core.hist := by
    cases hend with
    | read m f a size hm hf hstage ha =>
      exact ⟨rfl, rfl, trivial, h.read hs hm (by rw [hf]; rfl)⟩
    | _ => exact ⟨rfl, rfl, h.calls⟩
  obtain ⟨hhandler, hgate, hcalls⟩ := ht
  refine ⟨fun m hm => hkept.access.trans (h.access m (hhandler.symm.trans hm)), fun _ => ?_, hcalls⟩
  obtain ⟨g, hg, hd⟩ := h.gate (by rw [hs]; decide)
  refine ⟨g, hgate ▸ hg, hd.handler.trans hhandler.symm, fun m hm hdenied => ?_⟩
  obtain ⟨hneg, hanswering, hredirect⟩ := hd.denied m hm hdenied
  rw [hstate]
  refine ⟨?_, hanswering, fun _ => hredirect (.inr hs)⟩
  rcases hanswered with hr | hr
  · exact hr.trans_lt hneg
  · rw [hr]
    decide

theorem sendBody (h : Admitted s) (caller : Caller) (hs : s.core.state = .sendingBody) :
    Admitted (s.sendBody env caller) := by
  have hload : Admitted (s.cgiLoadContentToSend env caller).1 := h.cgiLoadContentToSend caller hs
  have hstate := @Sys.cgiLoadContentToSend_state env s caller
  unfold Sys.sendBody
  generalize s.cgiLoadContentToSend env caller = r at hload hstate ⊢
  obtain ⟨t, n⟩ := r
  simp only at hload hstate ⊢
  split_ifs
  · exact hload.sendOrEnd (by rw [hstate, hs]; decide)
  · exact hload.endResponse (by rw [hstate, hs]; decide)
  · exact hload

/-! ## All steps -/

theorem requestLine (h : Admitted s) {line : Bytes} (hs : s.core.state = .headerReceiving)
    (ht : s.requestLine line = some t) : Admitted t := by
  have hstate := Sys.requestLine_state ht
  obtain ⟨method, m, q, rfl⟩ := Sys.requestLine_eq ht
  refine ⟨fun cgi hm => ?_, fun hp => ?_, ?_⟩
  · unfold Sys.cgiSetCgiHandler at hm ⊢
    split at hm
    · cases hm
      rfl
    · cases hm
  · rw [hstate, hs] at hp
    exact absurd hp (by decide)
  · unfold Sys.cgiSetCgiHandler
    split <;> exact h.calls

theorem headerLine (h : Admitted s) (hs : s.core.state = .headerReceiving) (mem : Bytes) (n : ℕ) :
    Admitted (s.headerLine env mem n) := by
  have hkept := @Sys.headerLine_kept env s mem n
  refine .before .headerReceiving (hkept.state.trans hs) (by decide) (fun m hm => ?_) ?_
  · exact hkept.access.trans (h.access m (hkept.handler.symm.trans hm))
  · rcases hkept.hist with he | ⟨line, he⟩
    · rw [he]
      exact h.calls
    · rw [he]
      exact ⟨trivial, h.calls⟩

end Admitted

/-- Every step of a connection keeps the invariant. -/
theorem Micro.admitted {env : Env} {s t : Sys} (hstep : Micro env s t) (h : Admitted s) :
    Admitted t := by
  cases hstep with
  | background hb =>
    obtain ⟨_, _, _, _, _, _, _, _, hnew, rfl⟩ := hb.aside
    exact (h.noteAll fun o ho => (hnew o ho).aside).same rfl rfl rfl rfl rfl
  | begin => exact .before .headerReceiving rfl (by decide) h.access ⟨trivial, h.calls⟩
  | requestLine _ line hs _ ht => exact h.requestLine hs ht
  | headerLine mem n hs => exact h.headerLine hs mem n
  | emptyLine => exact .before .headerDone rfl (by decide) h.access h.calls
  | consumeHeader k hs =>
    refine ⟨h.access, fun hp => ?_, trivial, h.calls⟩
    rcases hs with hs | hs <;> rw [Sys.consume_state, hs] at hp <;> exact absurd hp (by decide)
  | abort hs =>
    refine ⟨h.access, fun hp => ?_, h.calls⟩
    have ha : ¬ s.core.state.Answering := fun ha => hs (Nat.le_trans (by decide) ha)
    obtain ⟨g, hg, hd⟩ := h.gate hp
    exact ⟨g, hg, .allowed hd.handler fun m hm => hd.not_denied ha hm⟩
  | afterHeaders _ hr => exact h.afterHeaders hr
  | chunk hs hline => exact (h.receiveChunkLine hs).receiveContent _ (.inl hline)
  | content hs _ => exact h.receiveContent _ hs
  | requestDone hs _ => exact h.requestDone hs
  | flush hs _ => exact h.sendOrEnd hs
  | sendHeader hs _ _ => exact h.sendHeader hs
  | headerSent hs _ => exact h.headerSent hs
  | sendBody caller hs _ => exact h.sendBody caller hs
  | reset => exact .before .idle rfl (by decide) nofun ⟨trivial, h.calls⟩
  | close =>
    have hclosed : Accounted (s.closePcb env).core.hist := by
      unfold Sys.closePcb
      split
      · exact h.calls
      · exact ⟨trivial, h.calls⟩
    exact .before .idle rfl (by decide) nofun
      ((s.closePcb env).freeHttpContext_hist ▸ ⟨trivial, hclosed⟩)

theorem ConnReach.admitted {env : Env} {sid : ℕ} {s : Sys} (h : ConnReach env sid s) : Admitted s :=
  h.invariant (P := Admitted) (.before .idle rfl (by decide) nofun trivial)
    (fun _ _ hstep hs => hstep.admitted hs)
    (fun _ _ _ _ hs => .before .idle rfl (by decide) nofun ⟨trivial, trivial, hs.calls⟩)
    (fun s hs => .before .idle rfl (by decide) nofun (s.freeHttpContext_hist ▸ ⟨trivial, hs.calls⟩))
    fun _ _ hs => hs.same rfl rfl rfl rfl rfl

/-! ## The access rules -/

/-- In every run of the server in which no denied request is redirected at a mapping with content to
read, no callback of a mapping is called for a request that the mapping denies. -/
theorem access_gate (env : Env) {s : Server} (h : (Server.runs env).Reach s) (i : Fin maxConnections)
    (hn : NoLeak (s.ctx i).core.hist) : Guarded (s.ctx i).core.hist := by
  have hadmitted : Admitted (s.conn i) := (Server.reach_conn h i).admitted
  exact hadmitted.calls.guarded hn

/-- A request that its mapping denies. -/
def Obs.denied : Obs → Bool
  | .headers g => g.handler.any fun m => decide (g.Denied m)
  | _ => false

def Obs.isWrote : Obs → Bool
  | .wrote _ => true
  | _ => false

/-- After an upload by a client that has not logged in, which is answered with a redirect. -/
@[irreducible] def refusedUpload : Server :=
  Server.boot.play (Env.calm (bytes "login"))
    [.accept 0 1 false, .data 0 (bytes "POST /api/upload.cgi HTTP/1.1\r\nContent-Length: 5\r\n\r\nHello"), .sent 0 150]

theorem access_gate_refusedUpload : Guarded (refusedUpload.ctx 0).core.hist ∧
    (refusedUpload.ctx 0).core.hist.any Obs.denied = true ∧
    (refusedUpload.ctx 0).core.hist.any Obs.isWrote = true := by
  have hreach : (Server.runs (Env.calm (bytes "login"))).Reach refusedUpload := by
    unfold refusedUpload
    exact Server.reach_boot _ (by decide +kernel)
  have hn : NoLeak (refusedUpload.ctx 0).core.hist := by decide +kernel
  exact ⟨@access_gate _ refusedUpload hreach 0 hn, by decide +kernel, by decide +kernel⟩

/-- After a request for the application by a client that has not logged in. -/
@[irreducible] def strangerPage : Server :=
  Server.boot.play (Env.calm (bytes "page"))
    [.accept 0 1 false, .data 0 (bytes "GET /app/index.shtml HTTP/1.1\r\n\r\n")]

theorem access_gate_fails :
    ¬ ∀ (env : Env) (s : Server) (i : Fin maxConnections), (Server.runs env).Reach s →
      Guarded (s.ctx i).core.hist := by
  intro h
  have hreach : (Server.runs (Env.calm (bytes "page"))).Reach strangerPage := by
    unfold strangerPage
    exact Server.reach_boot _ (by decide +kernel)
  have hleaks : ¬ Guarded (strangerPage.ctx 0).core.hist := by decide +kernel
  exact hleaks (h _ strangerPage 0 hreach)

end StraightHttpd
