import StraightHttpd.Httpd.Handlers
import StraightHttpd.Httpd.HttpCore

/-! # What the engine does, step by step

`Micro` lists the steps that the event handlers are made of, each with what the control flow of
`http_core.c` guarantees where the step is taken. Every handler is a sequence of such steps, so what
every step keeps, every event keeps.
-/

set_option autoImplicit false

namespace StraightHttpd
open CMemory Relation

/-- `context->_state >= HTTP_STATE_BODY_DONE` -/
def HttpState.Received (st : HttpState) : Prop := HttpState.bodyDone.code ≤ st.code

instance (st : HttpState) : Decidable st.Received := inferInstanceAs (Decidable (_ ≤ _))

/-- Behind the headers. -/
def HttpState.PastHeaders (st : HttpState) : Prop := HttpState.headerDone.code < st.code

/-- The response is made. -/
def HttpState.Answering (st : HttpState) : Prop := HttpState.sendingHeader.code ≤ st.code

instance (st : HttpState) : Decidable st.PastHeaders := inferInstanceAs (Decidable (_ < _))
instance (st : HttpState) : Decidable st.Answering := inferInstanceAs (Decidable (_ ≤ _))

/-- A step that the request does not depend on. -/
inductive Background (env : Env) : Sys → Sys → Prop
  | asked (s : Sys) : Background env s (s.onWork fun w => { w with world := w.world.asked })
  | fault (s : Sys) : Background env s (s.onWork Work.faulted)
  | touch (s : Sys) : Background env s (s.touch env)
  | peerClosing (s : Sys) (b : Bool) :
      Background env s { s with core := { s.core with peerClosing := b } }
  | received (s : Sys) (tick : ℕ) :
      Background env s (s.onSession fun t i => sessionReceived t i tick)
  | sent (s : Sys) (tick : ℕ) : Background env s (s.onSession fun t i => sessionSent t i tick)
  | acknowledged (s : Sys) (len : ℕ) :
      Background env s { s with core := { s.core with totalSent := s.core.totalSent + len } }
  | receive (s : Sys) (p : List Pbuf) : s.core.pcb ≠ none →
      Background env s { s with core := { s.core with rx := s.core.rx.receive p } }
  | dequeue (s : Sys) : Background env s s.dequeue

/-- A step of the engine on one connection. -/
inductive Micro (env : Env) : Sys → Sys → Prop
  | background {s t : Sys} : Background env s t → Micro env s t
  | begin (s : Sys) : s.core.state = .idle → 0 < s.core.rx.requestLength →
      Micro env s (s.beginRequest env)
  | requestLine (s s' : Sys) (line : Bytes) : s.core.state = .headerReceiving →
      s.core.requestMethod = none → s.requestLine line = some s' → Micro env s s'
  | headerLine (s : Sys) (mem : Bytes) (n : ℕ) : s.core.state = .headerReceiving →
      Micro env s (s.headerLine env mem n)
  | emptyLine (s : Sys) : s.core.state = .headerReceiving → Micro env s s.emptyLine
  | consumeHeader (s : Sys) (k : ℤ) : s.core.state = .headerReceiving ∨ s.core.state = .headerDone →
      Micro env s (s.consume .header k)
  | abort (s : Sys) : ¬ s.core.state.Received → Micro env s (s.setResult (-500))
  | afterHeaders (s : Sys) : s.core.state = .headerDone → 0 ≤ s.app.result →
      Micro env s (s.afterHeaders env)
  | chunk (s : Sys) : s.core.state = .chunkLenReceiving →
      s.receiveChunkLine.core.state = .chunkReceiving → 0 ≤ s.app.result →
      Micro env s (s.receiveChunkLine.receiveContent env s.core.rx.requestLength).1
  | content (s : Sys) : s.core.state = .chunkReceiving ∨ s.core.state = .bodyReceiving →
      0 ≤ s.app.result → Micro env s (s.receiveContent env s.core.rx.requestLength).1
  | requestDone (s : Sys) : s.core.state = .bodyDone → s.app.result = 0 →
      Micro env s (s.requestDone env)
  | flush (s : Sys) : s.core.state.Received → s.app.result ≠ 0 → Micro env s (s.sendOrEnd env).1
  | sendHeader (s : Sys) : s.core.state.Received → s.app.result ≠ 0 → s.core.sending = false →
      Micro env s (s.sendHeader env).1
  | headerSent (s : Sys) : s.core.state = .sendingHeader → s.core.sending = true →
      Micro env s s.headerSent
  | sendBody (s : Sys) (caller : Caller) : s.core.state = .sendingBody → s.core.sending = true →
      Micro env s (s.sendBody env caller)
  | reset (s : Sys) : s.core.state = .requestEnd → s.core.keepalive = true →
      Micro env s (s.resetHttpContext env)
  | close (s : Sys) : Micro env s (s.closeHttpContext env)

/-- Any number of steps. -/
def Steps (env : Env) : Sys → Sys → Prop := ReflTransGen (Micro env)

namespace Steps

variable {env : Env} {s t u : Sys}

theorem refl (s : Sys) : Steps env s s := ReflTransGen.refl

theorem one (h : Micro env s t) : Steps env s t := ReflTransGen.single h

theorem trans (h : Steps env s t) (h' : Steps env t u) : Steps env s u := ReflTransGen.trans h h'

theorem tail (h : Steps env s t) (h' : Micro env t u) : Steps env s u := ReflTransGen.tail h h'

/-- What every step keeps, any number of steps keep. -/
theorem keep {P : Sys → Prop} (hP : ∀ s t, Micro env s t → P s → P t) (h : Steps env s t) (hs : P s) :
    P t := by
  induction h with
  | refl => exact hs
  | tail _ hstep ih => exact hP _ _ hstep ih

end Steps

/-- A step of a request that waits for its answer, or one that no request depends on. -/
def Intake (env : Env) (s t : Sys) : Prop :=
  Micro env s t ∧
    (Background env s t ∨ ¬ s.core.state.Received ∨ s.core.state = .bodyDone ∧ s.app.result = 0)

/-- Any number of them. -/
def Intakes (env : Env) : Sys → Sys → Prop := ReflTransGen (Intake env)

namespace Intakes

variable {env : Env} {s t u : Sys}

theorem refl (s : Sys) : Intakes env s s := ReflTransGen.refl

theorem one (h : Micro env s t) (hs : ¬ s.core.state.Received) : Intakes env s t :=
  ReflTransGen.single ⟨h, .inr (.inl hs)⟩

theorem background (h : Background env s t) : Intakes env s t :=
  ReflTransGen.single ⟨.background h, .inl h⟩

theorem requestDone (s : Sys) (hs : s.core.state = .bodyDone) (hr : s.app.result = 0) :
    Intakes env s (s.requestDone env) :=
  ReflTransGen.single ⟨.requestDone s hs hr, .inr (.inr ⟨hs, hr⟩)⟩

theorem trans (h : Intakes env s t) (h' : Intakes env t u) : Intakes env s u := ReflTransGen.trans h h'

theorem steps (h : Intakes env s t) : Steps env s t := by
  induction h with
  | refl => exact .refl _
  | tail _ hstep ih => exact ih.tail hstep.1

/-- What every one of them keeps, any number of them keep. -/
theorem keep {P : Sys → Prop} (hP : ∀ s t, Intake env s t → P s → P t) (h : Intakes env s t)
    (hs : P s) : P t := by
  induction h with
  | refl => exact hs
  | tail _ hstep ih => exact hP _ _ hstep ih

end Intakes

/-! ## Steps and notes that the request does not depend on -/

/-- Entries that say nothing about the progress of a request. -/
def Obs.Aside : Obs → Prop
  | .touched _ _ | .login _ _ | .wrote _ | .writeFailed => True
  | _ => False

/-- Those of them that no callback makes. -/
def Obs.Routine : Obs → Prop
  | .touched _ _ | .wrote _ | .writeFailed => True
  | _ => False

theorem Obs.Routine.aside {o : Obs} (h : o.Routine) : o.Aside := by
  cases o <;> trivial

/-- What background steps may change. -/
def Sys.Aside (s t : Sys) : Prop :=
  ∃ new rx peerClosing totalSent tLastReceived calls sessions fault, (∀ o ∈ new, Obs.Routine o) ∧ t =
    { core := { s.core with
        rx := rx
        peerClosing := peerClosing
        totalSent := totalSent
        hist := new ++ s.core.hist }
      app := { s.app with
        tLastReceived := tLastReceived
        world := { s.app.world with calls := calls, sessions := sessions, fault := fault } } }

theorem Sys.onSession_aside (s : Sys) (f : SessionTable → Fin maxSessions → SessionTable) :
    s.Aside (s.onSession f) := by
  unfold Sys.onSession
  split
  next i hi =>
    simp only
    split_ifs
    · refine ⟨[.touched i (s.app.world.sessions i)], _, _, _, _, _, f s.app.world.sessions i, _,
        fun o ho => ?_, rfl⟩
      rw [List.mem_singleton.mp ho]
      trivial
    · exact ⟨[], _, _, _, _, _, f s.app.world.sessions i, _, nofun, rfl⟩
  next => exact ⟨[], _, _, _, _, _, _, _, nofun, rfl⟩

theorem Background.aside {env : Env} {s t : Sys} (h : Background env s t) : s.Aside t := by
  cases h with
  | received tick => exact s.onSession_aside _
  | sent tick => exact s.onSession_aside _
  | _ => exact ⟨[], _, _, _, _, _, _, _, nofun, rfl⟩

namespace Sys

variable {env : Env}

theorem noteSession_eq (s before : Sys) :
    ∃ new, (∀ o ∈ new, Obs.Aside o) ∧ s.noteSession before = s.noteAll new := by
  refine ⟨_, fun o ho => ?_, rfl⟩
  rcases List.mem_append.mp ho with ho | ho <;>
    obtain ⟨_, -, rfl⟩ := List.mem_map.mp ho <;> trivial

theorem mem_loginSince {s before : Sys} {i : Fin maxSessions} {session : Session} :
    s.loginSince before = some (i, session) ↔ s.app.session = some i ∧
      s.app.world.sessions i = session ∧ session.Live ∧ ¬ (before.app.world.sessions i).Live := by
  simp only [loginSince, Option.filter_eq_some_iff, Option.map_eq_some_iff, Prod.mk.injEq,
    decide_eq_true_eq]
  constructor
  · rintro ⟨⟨_, hi, rfl, he⟩, hlive, hfree⟩
    exact ⟨hi, he, hlive, hfree⟩
  · rintro ⟨hi, he, hlive, hfree⟩
    exact ⟨⟨i, hi, rfl, he⟩, hlive, hfree⟩

theorem mem_touchedSince {s before : Sys} {i : Fin maxSessions} {session : Session} :
    s.touchedSince before = some (i, session) ↔ before.app.session = some i ∧
      before.app.world.sessions i = session ∧ session.Live ∧ s.app.world.sessions i ≠ session := by
  simp only [touchedSince, Option.filter_eq_some_iff, Option.map_eq_some_iff, Prod.mk.injEq,
    decide_eq_true_eq]
  constructor
  · rintro ⟨⟨_, hi, rfl, he⟩, hlive, hne⟩
    exact ⟨hi, he, hlive, hne⟩
  · rintro ⟨hi, he, hlive, hne⟩
    exact ⟨⟨i, hi, rfl, he⟩, hlive, hne⟩

@[simp] theorem noteSession_app (s before : Sys) : (s.noteSession before).app = s.app := rfl

@[simp] theorem noteSession_state (s before : Sys) :
    (s.noteSession before).core.state = s.core.state := rfl

/-! ## The states that steps leave behind -/

@[simp] theorem note_app (s : Sys) (o : Obs) : (s.note o).app = s.app := rfl

@[simp] theorem note_state (s : Sys) (o : Obs) : (s.note o).core.state = s.core.state := rfl

@[simp] theorem onWork_core (s : Sys) (f : Work → Work) : (s.onWork f).core = s.core := rfl

@[simp] theorem onApp_core (s : Sys) (f : App → App) : (s.onApp f).core = s.core := rfl

@[simp] theorem consume_app (s : Sys) (what : Span) (k : ℤ) : (s.consume what k).app = s.app := rfl

@[simp] theorem consume_state (s : Sys) (what : Span) (k : ℤ) :
    (s.consume what k).core.state = s.core.state := rfl

@[simp] theorem setState_state (s : Sys) (st : HttpState) : (s.setState st).core.state = st := rfl

@[simp] theorem setState_app (s : Sys) (st : HttpState) : (s.setState st).app = s.app := rfl

@[simp] theorem cgiFinish_core (s : Sys) : s.cgiFinish.core = s.core := by
  unfold cgiFinish
  split <;> rfl

theorem freeHttpContext_hist (s : Sys) : s.freeHttpContext.core.hist = .freed :: s.core.hist := by
  change Obs.freed :: (cgiFinish _).core.hist = _
  rw [cgiFinish_core]
  rfl

theorem closeHttpContext_hist (s : Sys) : ∃ closed, (∀ o ∈ closed, ∃ pcb ok, o = Obs.closed pcb ok) ∧
    (s.closeHttpContext env).core.hist = .freed :: closed ++ s.core.hist := by
  have hfreed := (s.closePcb env).freeHttpContext_hist
  rw [closeHttpContext, hfreed]
  unfold closePcb
  split
  · exact ⟨[], nofun, rfl⟩
  · exact ⟨[.closed _ _], fun o ho => ⟨_, _, List.mem_singleton.mp ho⟩, rfl⟩

theorem cgiSetCgiHandler_state (s : Sys) : s.cgiSetCgiHandler.core.state = s.core.state := by
  unfold cgiSetCgiHandler
  split <;> rfl

/-- What the first line of a request does. -/
theorem requestLine_eq {s s' : Sys} {line : Bytes} (h : s.requestLine line = some s') :
    ∃ method m q, s' = (s.setTarget method m q).cgiSetCgiHandler := by
  obtain ⟨⟨method, iSkip⟩, -, he⟩ := Option.map_eq_some_iff.mp h
  exact ⟨method, _, _, he.symm⟩

theorem requestLine_state {s s' : Sys} {line : Bytes} (h : s.requestLine line = some s') :
    s'.core.state = s.core.state := by
  obtain ⟨method, m, q, rfl⟩ := requestLine_eq h
  exact cgiSetCgiHandler_state _

/-- A mapping is set, and its options; nothing else of the connection changes. -/
theorem cgiSetCgiHandler_core (s : Sys) : ∃ handler,
    s.cgiSetCgiHandler.core = { s.core with handler := handler } := by
  unfold cgiSetCgiHandler
  split <;> exact ⟨_, rfl⟩

theorem requestLine_hist {s s' : Sys} {line : Bytes} (h : s.requestLine line = some s') :
    s'.core.hist = s.core.hist := by
  obtain ⟨method, m, q, rfl⟩ := requestLine_eq h
  obtain ⟨handler, hcore⟩ := (s.setTarget method m q).cgiSetCgiHandler_core
  rw [hcore]
  rfl

theorem cgiSetCgiHandler_result (s : Sys) : s.cgiSetCgiHandler.app.result = s.app.result := by
  unfold cgiSetCgiHandler
  split <;> rfl

theorem requestLine_result {s s' : Sys} {line : Bytes} (h : s.requestLine line = some s') :
    s'.app.result = s.app.result := by
  obtain ⟨method, m, q, rfl⟩ := requestLine_eq h
  exact cgiSetCgiHandler_result _

theorem cgiHeaderReceived_core (s : Sys) (line : Bytes) :
    (s.cgiHeaderReceived line).core = s.core.note (.line s.core.handler line) := by
  simp only [cgiHeaderReceived]
  split <;> rfl

theorem cgiHeaderReceived_result (s : Sys) (line : Bytes) :
    (s.cgiHeaderReceived line).app.result = s.app.result := by
  simp only [cgiHeaderReceived]
  split
  next f hf =>
    obtain ⟨m, -, hm⟩ := Option.bind_eq_some_iff.mp hf
    cases m <;> cases hm
    simp only [onWork, onApp, App.onWork, uploadOnHeaderReceived]
    split_ifs <;> rfl
  next => rfl

/-- What a header line leaves alone, and what it notes. -/
structure LineKept (s t : Sys) : Prop where
  sid : t.core.sid = s.core.sid
  rx : t.core.rx = s.core.rx
  state : t.core.state = s.core.state
  pcb : t.core.pcb = s.core.pcb
  handler : t.core.handler = s.core.handler
  requestPath : t.core.requestPath = s.core.requestPath
  received : s.core.contentReceived = 0 → t.core.contentReceived = 0
  hist : t.core.hist = s.core.hist ∨ ∃ line, t.core.hist = .line s.core.handler line :: s.core.hist
  result : t.app.result = s.app.result
  extension : t.app.extension = s.app.extension
  fileHandle : t.app.fileHandle = s.app.fileHandle
  access : t.app.options.access = s.app.options.access
  world : ∀ F : Spares, (F.device = true → ∀ m line, t.core.hist = .line (some m) line :: s.core.hist →
    m.spares.device = true) → World.Grown F s.core.sid s.app.world t.app.world

theorem cgiHeaderReceived_kept (s : Sys) (line : Bytes) : LineKept s (s.cgiHeaderReceived line) := by
  have hcore := s.cgiHeaderReceived_core line
  have hframe : (s.cgiHeaderReceived line).app.extension = s.app.extension ∧
      (s.cgiHeaderReceived line).app.fileHandle = s.app.fileHandle ∧
      ∀ F : Spares, (F.device = true → ∀ m, s.core.handler = some m → m.spares.device = true) →
        Work.Kept F s.core.sid s.app.toWork (s.cgiHeaderReceived line).app.toWork := by
    simp only [cgiHeaderReceived]
    split
    next f hf =>
      obtain ⟨m, hhandler, hm⟩ := Option.bind_eq_some_iff.mp hf
      refine ⟨?_, ?_, fun F hd => ?_⟩
      case refine_3 =>
        exact Cgi.onHeaderReceived_kept (c := (s.note (.line s.core.handler line)).core)
          (fun ht => hd ht m hhandler) hm s.app.toWork line
      all_goals
        cases m <;> cases hm
        simp only [onWork, onApp, App.onWork, uploadOnHeaderReceived]
        split_ifs <;> rfl
    next => exact ⟨rfl, rfl, fun _ _ => .refl _⟩
  have hhist : (s.cgiHeaderReceived line).core.hist = .line s.core.handler line :: s.core.hist := by
    rw [hcore]
    rfl
  refine ⟨by rw [hcore]; rfl, by rw [hcore]; rfl, by rw [hcore]; rfl, by rw [hcore]; rfl,
    by rw [hcore]; rfl, by rw [hcore]; rfl, fun h => by rw [hcore]; exact h, .inr ⟨line, hhist⟩,
    cgiHeaderReceived_result s line, hframe.1, hframe.2.1, (hframe.2.2 .nothing fun hF => by cases hF).access,
    fun F hd => (hframe.2.2 F fun ht m hm => ?_).world⟩
  exact hd ht m line (by rw [hhist, hm])

theorem headerLine_kept (s : Sys) (mem : Bytes) (n : ℕ) : LineKept s (s.headerLine env mem n) := by
  unfold headerLine
  split_ifs
  · exact ⟨rfl, rfl, rfl, rfl, rfl, rfl, fun _ => rfl, .inl rfl, rfl, rfl, rfl, rfl, fun _ _ => .refl _⟩
  · exact ⟨rfl, rfl, rfl, rfl, rfl, rfl, id, .inl rfl, rfl, rfl, rfl, rfl, fun _ _ => .refl _⟩
  · exact ⟨rfl, rfl, rfl, rfl, rfl, rfl, id, .inl rfl, rfl, rfl, rfl, rfl, fun _ _ => .refl _⟩
  · exact ⟨rfl, rfl, rfl, rfl, rfl, rfl, id, .inl rfl, rfl, rfl, rfl, rfl, fun _ _ => .refl _⟩
  · exact ⟨rfl, rfl, rfl, rfl, rfl, rfl, id, .inl rfl, rfl, rfl, rfl, rfl, fun _ _ => .refl _⟩
  · exact ⟨rfl, rfl, rfl, rfl, rfl, rfl, id, .inl rfl, rfl, rfl, rfl, rfl, fun _ _ => .refl _⟩
  · exact ⟨rfl, rfl, rfl, rfl, rfl, rfl, id, .inl rfl, rfl, rfl, rfl, rfl, fun _ _ => .refl _⟩
  · exact cgiHeaderReceived_kept s _

/-! ## The header -/

/-- The state that the parsing of header lines leaves. -/
def HeaderState (s : Sys) (done : Bool) : Prop :=
  s.core.state = if done then .headerDone else .headerReceiving

theorem HeaderState.cases {s : Sys} {done : Bool} (h : s.HeaderState done) :
    s.core.state = .headerReceiving ∨ s.core.state = .headerDone := by
  cases done
  · exact .inl h
  · exact .inr h

/-- The lines in the buffer are taken step by step, and the header is done exactly when the empty
line was among them. -/
theorem headerLines_intakes (n : ℕ) (s : Sys) (nLinePos : ℕ) (hs : s.HeaderState false) :
    Intakes env s (s.headerLines env n nLinePos).1 ∧
      (s.headerLines env n nLinePos).1.HeaderState (s.headerLines env n nLinePos).2.2 := by
  have hearly (u : Sys) (hu : u.HeaderState false) : ¬ u.core.state.Received := by
    rw [show u.core.state = .headerReceiving from hu]
    decide
  induction n generalizing s nLinePos with
  | zero => exact ⟨.refl s, hs⟩
  | succ n ih =>
    simp only [headerLines]
    split
    · exact ⟨.refl s, hs⟩
    · exact ⟨.one (.emptyLine s hs) (hearly s hs), rfl⟩
    next k hk =>
      split_ifs with hm
      · split
        · exact ⟨.one (.abort s (hearly s hs)) (hearly s hs), hs⟩
        next s' hs' =>
          obtain ⟨hsteps, hdone⟩ := ih s' (nLinePos + k + 3) ((requestLine_state hs').trans hs)
          exact ⟨(Intakes.one (.requestLine s s' _ hs hm hs') (hearly s hs)).trans hsteps, hdone⟩
      · obtain ⟨hsteps, hdone⟩ := ih _ (nLinePos + k + 3) ((headerLine_kept s _ (k + 1)).state.trans hs)
        exact ⟨(Intakes.one (.headerLine s _ (k + 1) hs) (hearly s hs)).trans hsteps, hdone⟩

theorem receiveHeader_intakes (s : Sys) (hs : s.HeaderState false) :
    Intakes env s (s.receiveHeader env).1 ∧
      (s.receiveHeader env).1.HeaderState (s.receiveHeader env).2 := by
  obtain ⟨hsteps, hdone⟩ :=
    @headerLines_intakes env (s.core.rx.requestLength.toNat + 1) s 0 hs
  simp only [receiveHeader]
  generalize s.headerLines env (s.core.rx.requestLength.toNat + 1) 0 = r at hsteps hdone ⊢
  obtain ⟨s', nLinePos, afterHeader⟩ := r
  simp only
  have hconsume (k : ℤ) : Intakes env s' (s'.consume .header k) :=
    .one (.consumeHeader s' k hdone.cases) (by rcases hdone.cases with he | he <;> rw [he] <;> decide)
  split_ifs
  · exact ⟨hsteps.trans (hconsume _), hdone⟩
  · exact ⟨hsteps, hdone⟩
  · exact ⟨hsteps.trans (hconsume _), hdone⟩
  · exact ⟨.refl s, hs⟩

/-! ## The callbacks that decide about the request -/

/-- How `CGI_HeadersReceived` ends. -/
inductive HeadersEnd (env : Env) (s : Sys) : Sys → Prop
  | called (m : Cgi) (f : Env → Core → App → App) : s.core.handler = some m →
      m.mapping.onHeadersReceived = some f →
      ¬ (s.app.options.authRequired = true ∧ s.app.authorized ≠ codeOk) → s.methodEnabled = true →
      HeadersEnd env s ((s.note (.call .headersReceived m)).onApp (f env s.core))
  | accepted (m : Cgi) : s.core.handler = some m → m.mapping.onHeadersReceived = none →
      ¬ (s.app.options.authRequired = true ∧ s.app.authorized ≠ codeOk) → s.methodEnabled = true →
      HeadersEnd env s s
  | unauthorized (m : Cgi) : s.core.handler = some m → s.app.options.authRequired = true →
      s.app.authorized ≠ codeOk → HeadersEnd env s (s.setResult s.app.authorized)
  | refused : s.core.handler = none ∨ s.methodEnabled = false → HeadersEnd env s s.cgiRefuse

theorem cgiHeadersReceived_end (s : Sys) : HeadersEnd env s (s.cgiHeadersReceived env) := by
  unfold cgiHeadersReceived
  split
  next hm => exact .refused (.inl hm)
  next m hm =>
    split
    next ha => exact .unauthorized m hm ha.1 ha.2
    next ha =>
      split
      next he =>
        split
        next f hf => exact .called m f hm hf ha he
        next hf => exact .accepted m hm hf ha he
      next he => exact .refused (.inr (Bool.eq_false_iff.mpr he))

theorem cgiRefuse_core (s : Sys) : s.cgiRefuse.core = s.core := by
  unfold cgiRefuse
  split_ifs <;> rfl

theorem cgiRefuse_result (s : Sys) : s.cgiRefuse.app.result < 0 := by
  unfold cgiRefuse
  split_ifs with h
  · exact h
  · exact (by decide : codeRedirect < 0)
  · exact (by decide : codeRedirect < 0)
  · exact (by decide : (-404 : ℤ) < 0)
  · exact (by decide : (-500 : ℤ) < 0)

/-- A headers callback leaves the result alone or makes it an error. -/
theorem onHeadersReceived_result {m : Cgi} {f : Env → Core → App → App}
    (h : m.mapping.onHeadersReceived = some f) (c : Core) (a : App) :
    (f env c a).result = a.result ∨ (f env c a).result < 0 := by
  cases m <;> cases h
  · exact .inl rfl
  · exact .inl rfl
  · simp only [App.onWork, uploadOnHeadersReceived]
    split
    · exact .inr (by decide : (-404 : ℤ) < 0)
    · split
      · exact .inr (by decide : (-500 : ℤ) < 0)
      · exact .inl rfl
    · exact .inl rfl

theorem authorize_core (s : Sys) : s.authorize.core = s.core := by
  unfold authorize
  simp only
  split_ifs <;> rfl

/-- What `authorize` decides. -/
theorem authorize_result (s : Sys) :
    s.needsLogin = true ∧ s.authorize.app.result = codeRedirect ∧
        s.authorize.app.authorized = codeRedirect ∨
      s.needsLogin = false ∧ s.authorize.app.result = s.app.result ∧
        s.authorize.app.authorized = codeOk := by
  unfold authorize
  simp only
  split_ifs with h
  · exact .inl ⟨h, rfl, rfl⟩
  · exact .inr ⟨Bool.eq_false_iff.mpr h, rfl, rfl⟩

theorem expectBody_app (s : Sys) : (s.expectBody env).app = s.app := by
  unfold expectBody
  split_ifs <;> rfl

/-- The state in which the body of a request is received. -/
def bodyState (s : Sys) : HttpState :=
  if s.core.chunked then .chunkLenReceiving
  else if s.core.contentLength > 0 then .bodyReceiving
  else .bodyDone

theorem bodyState_pastHeaders (s : Sys) : s.bodyState.PastHeaders := by
  unfold bodyState
  split_ifs <;> decide

/-- The connection when `CGI_HeadersReceived` is called. -/
structure AtGate (s u : Sys) : Prop where
  core : ∃ tLastSent, u.core =
    { s.core with
      state := s.bodyState
      tLastSent := tLastSent
      hist := .headers s.gate :: s.core.hist }
  listening : u.app.world.httpsListening = s.app.world.httpsListening
  options : u.app.options = s.app.options
  login : s.needsLogin = true ∧ u.app.result = codeRedirect ∧ u.app.authorized = codeRedirect ∨
    s.needsLogin = false ∧ u.app.result = s.app.result ∧ u.app.authorized = codeOk

theorem atGate (s : Sys) : AtGate s ((s.note (.headers s.gate)).authorize.expectBody env) := by
  have hlogin := (s.note (.headers s.gate)).authorize_result
  have hcore := (s.note (.headers s.gate)).authorize_core
  have hlistening : (s.note (.headers s.gate)).authorize.app.world.httpsListening =
      s.app.world.httpsListening ∧ (s.note (.headers s.gate)).authorize.app.options = s.app.options := by
    unfold authorize
    simp only
    split_ifs <;> exact ⟨rfl, rfl⟩
  generalize (s.note (.headers s.gate)).authorize = u at hlogin hcore hlistening ⊢
  obtain ⟨c, a⟩ := u
  obtain rfl : c = s.core.note (.headers s.gate) := hcore
  refine ⟨?_, ?_, ?_, ?_⟩
  · unfold expectBody bodyState
    simp only
    split_ifs with h1 h2 h3 h4
    all_goals first | exact ⟨_, rfl⟩ | contradiction
  · rw [expectBody_app]
    exact hlistening.1
  · rw [expectBody_app]
    exact hlistening.2
  · rw [expectBody_app]
    exact hlogin

section

variable {s u : Sys} (h : AtGate s u)

include h

theorem AtGate.hist : u.core.hist = .headers s.gate :: s.core.hist := by
  obtain ⟨_, hcore⟩ := h.core
  rw [hcore]

theorem AtGate.handler : u.core.handler = s.core.handler := by
  obtain ⟨_, hcore⟩ := h.core
  rw [hcore]

theorem AtGate.method : u.core.requestMethod = s.core.requestMethod := by
  obtain ⟨_, hcore⟩ := h.core
  rw [hcore]

theorem AtGate.https : u.core.https = s.core.https := by
  obtain ⟨_, hcore⟩ := h.core
  rw [hcore]

end

/-- A request that goes on behind its headers had its headers callback called, if there is one. -/
theorem HeadersEnd.core {s u t : Sys} (hu : AtGate s u) (h : HeadersEnd env u t) :
    ∃ called, t.core = { u.core with hist := called ++ u.core.hist } ∧
      (called = [] ∨ ∃ m, called = [.call .headersReceived m]) ∧
      (0 ≤ t.app.result → ∀ m, u.core.handler = some m →
        m.mapping.onHeadersReceived.isSome = true → called ≠ []) := by
  cases h with
  | called m f hm hf _ _ => exact ⟨[.call .headersReceived m], rfl, .inr ⟨m, rfl⟩, fun _ _ _ _ => nofun⟩
  | accepted m hm hf _ _ =>
    refine ⟨[], rfl, .inl rfl, fun _ m' hm' hsome => ?_⟩
    obtain rfl := Option.some.inj (hm.symm.trans hm')
    rw [hf] at hsome
    cases hsome
  | unauthorized m _ _ hne =>
    refine ⟨[], rfl, .inl rfl, fun hr => ?_⟩
    rcases hu.login with ⟨-, -, ha⟩ | ⟨-, -, ha⟩
    · rw [show (u.setResult u.app.authorized).app.result = codeRedirect from ha] at hr
      exact absurd hr (by decide)
    · exact absurd ha hne
  | refused _ =>
    rw [cgiRefuse_core]
    exact ⟨[], rfl, .inl rfl, fun hr => absurd u.cgiRefuse_result (not_lt.mpr hr)⟩

/-- What the block behind the header does to the connection. -/
theorem afterHeaders_core (s : Sys) : ∃ tLastSent called,
    (s.afterHeaders env).core =
      { s.core with
        state := if (s.afterHeaders env).app.result < 0 then .sendingHeader else s.bodyState
        tLastSent := tLastSent
        hist := (if (s.afterHeaders env).app.result < 0 then [.refused] else []) ++
          (called ++ .headers s.gate :: s.core.hist) } ∧
      (called = [] ∨ ∃ m, called = [.call .headersReceived m]) ∧
      (0 ≤ (s.afterHeaders env).app.result → ∀ m, s.core.handler = some m →
        m.mapping.onHeadersReceived.isSome = true → called ≠ []) := by
  have hu := @atGate env s
  have hend := @cgiHeadersReceived_end env ((s.note (.headers s.gate)).authorize.expectBody env)
  obtain ⟨called, hcore, hcalled, hsome⟩ := hend.core hu
  obtain ⟨tLastSent, hu'⟩ := hu.core
  rw [hu'] at hcore hsome
  unfold afterHeaders
  simp only
  generalize ((s.note (.headers s.gate)).authorize.expectBody env).cgiHeadersReceived env = t
    at hcore hsome ⊢
  refine ⟨tLastSent, called, ?_, hcalled, ?_⟩
  · by_cases hneg : t.app.result < 0
    · simp only [if_pos hneg, note_app, setState_app]
      change { t.core with state := .sendingHeader, hist := .refused :: t.core.hist } = _
      rw [hcore]
      rfl
    · simp only [if_neg hneg]
      exact hcore
  · by_cases hneg : t.app.result < 0
    · simp only [if_pos hneg, note_app, setState_app]
      exact fun hr => absurd hneg (not_lt.mpr hr)
    · simp only [if_neg hneg]
      exact hsome

theorem afterHeaders_app (s : Sys) : (s.afterHeaders env).app =
    (((s.note (.headers s.gate)).authorize.expectBody env).cgiHeadersReceived env).app := by
  unfold afterHeaders
  simp only
  split_ifs <;> rfl

theorem afterHeaders_pastHeaders (s : Sys) : (s.afterHeaders env).core.state.PastHeaders := by
  obtain ⟨_, _, hcore, -⟩ := @afterHeaders_core env s
  rw [hcore]
  simp only
  split_ifs
  · decide
  · exact s.bodyState_pastHeaders

/-- Before the handler has seen the whole request, the result is no success. -/
theorem afterHeaders_result {s : Sys} (h : s.app.result ≤ 0) : (s.afterHeaders env).app.result ≤ 0 := by
  have hauth := (s.note (.headers s.gate)).authorize_result
  have happ := @expectBody_app env (s.note (.headers s.gate)).authorize
  have hend := @cgiHeadersReceived_end env ((s.note (.headers s.gate)).authorize.expectBody env)
  unfold afterHeaders
  simp only
  generalize ((s.note (.headers s.gate)).authorize.expectBody env).cgiHeadersReceived env = t at hend ⊢
  have ht : t.app.result ≤ 0 := by
    have hr : ((s.note (.headers s.gate)).authorize.expectBody env).app.result ≤ 0 := by
      rw [happ]
      rcases hauth with ⟨-, hr, -⟩ | ⟨-, hr, -⟩
      · rw [hr]; decide
      · rw [hr]; exact h
    cases hend with
    | called m f _ hf _ _ =>
      rcases @onHeadersReceived_result env m f hf
        ((s.note (.headers s.gate)).authorize.expectBody env).core
        ((s.note (.headers s.gate)).authorize.expectBody env).app with he | hlt
      · exact he.trans_le hr
      · exact hlt.le
    | accepted => exact hr
    | unauthorized m _ _ hne =>
      rcases hauth with ⟨-, -, ha⟩ | ⟨-, -, ha⟩
      · change ((s.note (.headers s.gate)).authorize.expectBody env).app.authorized ≤ 0
        rw [happ, ha]
        decide
      · exact absurd (happ ▸ ha) hne
    | refused _ => exact (cgiRefuse_result _).le
  split_ifs
  · exact ht
  · exact ht

/-! ## The body -/

/-- The mapping has a callback for content. -/
def TakesContent (s : Sys) : Prop :=
  ∃ m f, s.core.handler = some m ∧ m.mapping.onContentReceived = some f

/-- How `CGI_ContentReceived` ends. -/
inductive ContentEnd (env : Env) (s : Sys) (size : ℤ) : Sys × ℤ → Prop
  | called (m : Cgi) (f : Env → Core → App → Bytes → ℤ → App × ℤ) (t : Sys) (a : App) (consumed : ℤ) :
      s.core.handler = some m → m.mapping.onContentReceived = some f →
      t = s.note (.call (.contentReceived size (s.core.contentLength - s.core.contentReceived)
        s.core.rx.requestLength) m) →
      f env t.core s.app s.core.rx.httpRequestBuffer size = (a, consumed) →
      ContentEnd env s size ({ t with app := a }, consumed)
  | ignored : ¬ s.TakesContent → ContentEnd env s size (s, 0)

theorem cgiContentReceived_end (s : Sys) (size : ℤ) :
    ContentEnd env s size (s.cgiContentReceived env size) := by
  unfold cgiContentReceived
  split
  next hm =>
    refine .ignored ?_
    rintro ⟨m, -, hm', -⟩
    rw [hm] at hm'
    cases hm'
  next m hm =>
    split
    next f hf => exact .called m f _ _ _ hm hf rfl rfl
    next hf =>
      refine .ignored ?_
      rintro ⟨m', f, hm', hf'⟩
      obtain rfl := Option.some.inj (hm.symm.trans hm')
      rw [hf] at hf'
      cases hf'

theorem ContentEnd.kept {F : Spares} {s : Sys} {size : ℤ} {r : Sys × ℤ} (h : ContentEnd env s size r)
    (hd : F.device = true → ∀ size remaining held m,
      r.1.core.hist = .call (.contentReceived size remaining held) m :: s.core.hist →
      m.spares.device = true) :
    Work.Kept F s.core.sid s.app.toWork r.1.app.toWork := by
  cases h with
  | called m f t a consumed hm hf ht he =>
    have hspared (hF : F.device = true) : m.spares.device = true := by
      subst ht
      exact hd hF _ _ _ m rfl
    have hkept : Work.Kept F t.core.sid s.app.toWork
        (f env t.core s.app s.core.rx.httpRequestBuffer size).1.toWork :=
      Cgi.onContentReceived_kept hspared hf _ _ _
    rw [he, ht] at hkept
    exact hkept
  | ignored => exact .refl _

/-- How `CGI_RequestReceived` ends. -/
inductive RequestEnd (env : Env) (s : Sys) : Sys → Prop
  | called (m : Cgi) (f : Env → Core → App → App) : s.core.handler = some m →
      m.mapping.onRequestReceived = some f →
      RequestEnd env s (((s.note (.call .requestReceived m)).onApp (f env s.core)).noteSession s)
  | ignored : RequestEnd env s s

theorem cgiRequestReceived_end (s : Sys) : RequestEnd env s (s.cgiRequestReceived env) := by
  unfold cgiRequestReceived
  split
  · exact .ignored
  next m hm =>
    split
    next f hf => exact .called m f hm hf
    next => exact .ignored

/-- The log after a request is complete is the one that its callback leaves. -/
theorem requestDone_log {s : Sys} {m : Cgi} (hm : s.core.handler = some m)
    {f : Env → Core → App → App} (hf : m.mapping.onRequestReceived = some f) :
    (s.requestDone env).app.world.files.log = (f env s.core s.app).world.files.log := by
  have hcall : (s.cgiRequestReceived env).app = f env s.core s.app := by
    unfold cgiRequestReceived
    simp only [hm, hf]
    rfl
  rw [← hcall]
  unfold requestDone
  simp only
  split_ifs <;> rfl

/-- A content callback leaves the result alone or makes it an error that ends the connection. -/
theorem cgiContentReceived_result (s : Sys) (size : ℤ) :
    (s.cgiContentReceived env size).1.app.result = s.app.result ∨
      (s.cgiContentReceived env size).1.app.result = -500 := by
  unfold cgiContentReceived
  split
  · exact .inl rfl
  next m hm =>
    cases m <;> simp only [Cgi.mapping, cgiAppend, Mapping.empty, note_app]
    case auth =>
      simp only [authOnPostData]
      split_ifs <;> exact .inl rfl
    case form =>
      simp only [webOnFormReceived]
      split_ifs <;> first | exact .inl rfl | exact .inr rfl
    case upload =>
      simp only [uploadOnContentReceived]
      split_ifs <;> first | exact .inl rfl | exact .inr rfl
    all_goals exact Or.inl trivial

@[simp] theorem startSending_app (s : Sys) : (s.startSending env).app = s.app := rfl

theorem contentDone_app (s : Sys) : (s.contentDone env).app = s.app := by
  unfold contentDone
  split_ifs <;> rfl

theorem contentTaken_app (s : Sys) (consumed : ℤ) : (s.contentTaken env consumed).app = s.app := by
  simp only [contentTaken, contentDone_app, consume_app]

/-- The kind of the bytes that a content callback takes. -/
def contentSpan (s : Sys) : Span := if s.core.state = .chunkReceiving then .chunk else .body

theorem contentDone_frame (s : Sys) : (s.contentDone env).core.handler = s.core.handler ∧
    (s.contentDone env).core.hist = s.core.hist := by
  unfold contentDone
  split_ifs <;> exact ⟨rfl, rfl⟩

/-- What `contentTaken` leaves alone, and what it notes. -/
theorem contentTaken_frame (s : Sys) (consumed : ℤ) :
    (s.contentTaken env consumed).core.handler = s.core.handler ∧
      (s.contentTaken env consumed).core.hist = .consumed s.contentSpan consumed :: s.core.hist ∧
      (s.contentTaken env consumed).app.options = s.app.options := by
  simp only [contentTaken, contentDone_frame, contentDone_app]
  exact ⟨rfl, rfl, rfl⟩

/-- What taking bytes does to the connection: the body or chunk goes on, the chunk ends, or the body
ends. -/
theorem contentTaken_core (s : Sys) (consumed : ℤ) : ∃ state length received tLastSent,
    (s.contentTaken env consumed).core =
      { s.core with
        rx := s.core.rx.shift consumed
        state := state
        contentLength := length
        contentReceived := received
        tLastSent := tLastSent
        hist := .consumed s.contentSpan consumed :: s.core.hist } ∧
      (s.core.contentReceived + consumed < s.core.contentLength ∧ state = s.core.state ∧
          length = s.core.contentLength ∧ received = s.core.contentReceived + consumed ∨
        s.core.contentLength ≤ s.core.contentReceived + consumed ∧ s.core.chunked = true ∧
          state = (if s.core.contentLength = 2 then .bodyDone else .chunkLenReceiving) ∧
          length = 0 ∧ received = 0 ∨
        s.core.contentLength ≤ s.core.contentReceived + consumed ∧ s.core.chunked = false ∧
          state = .bodyDone ∧ length = s.core.contentLength ∧
          received = s.core.contentReceived + consumed) := by
  let c := { s.core with contentReceived := s.core.contentReceived + consumed }
  let t := { s with core := c }.consume s.contentSpan consumed
  have ht : t.core = { s.core with
      rx := s.core.rx.shift consumed
      contentReceived := s.core.contentReceived + consumed
      hist := .consumed s.contentSpan consumed :: s.core.hist } := rfl
  change ∃ state length received tLastSent, (t.contentDone env).core = _ ∧ _
  generalize t = u at ht ⊢
  obtain ⟨core, a⟩ := u
  subst ht
  by_cases h1 : s.core.contentReceived + consumed < s.core.contentLength
  · refine ⟨_, _, _, s.core.tLastSent, ?_, .inl ⟨h1, rfl, rfl, rfl⟩⟩
    simp only [contentDone, if_pos h1]
  by_cases h2 : s.core.chunked = true
  · by_cases h3 : s.core.contentLength = 2
    · refine ⟨_, _, _, a.stampNow env, ?_, .inr (.inl ⟨not_lt.mp h1, h2, (if_pos h3).symm, rfl, rfl⟩)⟩
      simp only [contentDone, if_neg h1, if_pos h2, if_pos h3]
      rfl
    · refine ⟨_, _, _, s.core.tLastSent, ?_, .inr (.inl ⟨not_lt.mp h1, h2, (if_neg h3).symm, rfl, rfl⟩)⟩
      simp only [contentDone, if_neg h1, if_pos h2, if_neg h3]
      rfl
  · refine ⟨_, _, _, a.stampNow env, ?_, .inr (.inr ⟨not_lt.mp h1, Bool.eq_false_iff.mpr h2, rfl, rfl, rfl⟩)⟩
    simp only [contentDone, if_neg h1, if_neg h2]
    rfl

theorem receiveContent_result (s : Sys) (size : ℤ) :
    (s.receiveContent env size).1.app.result = s.app.result ∨
      (s.receiveContent env size).1.app.result = -500 := by
  have hres := @cgiContentReceived_result env s size
  simp only [receiveContent]
  generalize s.cgiContentReceived env size = r at hres ⊢
  obtain ⟨s', consumed⟩ := r
  simp only at hres ⊢
  split
  · exact hres
  · rw [contentTaken_app]
    exact hres

theorem receiveContent_nonpos {s : Sys} (h : s.app.result ≤ 0) (size : ℤ) :
    (s.receiveContent env size).1.app.result ≤ 0 := by
  rcases @receiveContent_result env s size with he | he
  · exact he.trans_le h
  · rw [he]
    decide

theorem receiveChunkLine_app (s : Sys) : s.receiveChunkLine.app = s.app := by
  unfold receiveChunkLine
  split <;> rfl

theorem receiveChunkLine_cases (s : Sys) :
    s.receiveChunkLine = s ∨ s.receiveChunkLine.core.state = .chunkReceiving := by
  unfold receiveChunkLine
  split
  · exact .inl rfl
  · exact .inr rfl

theorem bodyRound_intakes (s : Sys) (hr : s.app.result = 0) :
    Intakes env s (s.bodyRound env s.core.rx.requestLength).1 := by
  simp only [bodyRound]
  generalize hsize : s.core.rx.requestLength = size
  -- the size line of a chunk
  have hline : (if s.core.state = .chunkLenReceiving ∧ size > 2 then s.receiveChunkLine else s) = s ∨
      (if s.core.state = .chunkLenReceiving ∧ size > 2 then s.receiveChunkLine else s) =
        s.receiveChunkLine ∧ s.core.state = .chunkLenReceiving ∧
        s.receiveChunkLine.core.state = .chunkReceiving := by
    split_ifs with hc
    · rcases receiveChunkLine_cases s with he | hst
      · exact .inl he
      · exact .inr ⟨rfl, hc.1, hst⟩
    · exact .inl rfl
  generalize (if s.core.state = .chunkLenReceiving ∧ size > 2 then s.receiveChunkLine else s) = s₁
    at hline ⊢
  have hr₁ : s₁.app.result = 0 := by
    rcases hline with rfl | ⟨rfl, -⟩
    · exact hr
    · rw [receiveChunkLine_app]
      exact hr
  by_cases hb : s₁.core.state = .chunkReceiving ∨ s₁.core.state = .bodyReceiving
  · have hstep : Intakes env s (s₁.receiveContent env size).1 := by
      subst hsize
      rcases hline with rfl | ⟨rfl, hs, hst⟩
      · exact .one (.content s₁ hb hr.ge) (by rcases hb with he | he <;> rw [he] <;> decide)
      · exact .one (.chunk s hs hst hr.ge) (by rw [hs]; decide)
    have hres := @receiveContent_result env s₁ size
    simp only [if_pos hb]
    generalize s₁.receiveContent env size = r at hstep hres ⊢
    obtain ⟨s₂, consumed⟩ := r
    simp only at hstep hres ⊢
    by_cases he : s₂.app.result ≤ -500
    · simp only [if_pos he]
      exact hstep
    · simp only [if_neg he]
      by_cases hc : consumed ≤ 0
      · simp only [if_pos hc]
        exact hstep
      · simp only [if_neg hc]
        split_ifs with hd
        · exact hstep.trans (.requestDone s₂ hd (by omega))
        · exact hstep
        · exact hstep
  · obtain rfl : s₁ = s := by
      rcases hline with he | ⟨rfl, -, hst⟩
      · exact he
      · exact absurd (.inl hst) hb
    simp only [if_neg hb]
    split_ifs with hd
    · exact .requestDone s₁ hd hr
    · exact .refl s₁
    · exact .refl s₁

/-! ## States that are left -/

theorem requestDone_state (s : Sys) : (s.requestDone env).core.state = s.core.state := by
  have hcall : (s.cgiRequestReceived env).core.state = s.core.state := by
    unfold cgiRequestReceived
    split
    · rfl
    · split <;> rfl
  unfold requestDone
  simp only
  split_ifs
  · exact hcall
  · exact hcall

/-- How `CGI_LoadContentToSend` ends. -/
inductive LoadEnd (env : Env) (s : Sys) : Sys × ℤ → Prop
  | allSent (m : Cgi) (f : Core → Work → Work) : s.core.handler = some m →
      m.mapping.onAllSent = some f → LoadEnd env s (s.onWork (f s.core), -1)
  | faulted : LoadEnd env s (s.onWork Work.faulted, -1)
  | ended : LoadEnd env s (s, -1)
  | waiting : LoadEnd env s (s, 0)
  | read (m : Cgi) (f : Env → Core → Work → ℤ → Work × Bytes × ℤ) (a : App) (size : ℤ) :
      s.core.handler = some m → m.mapping.readContent = some f → s.app.dwOperStage < stageEnd →
      loadBlock (f env (s.note (.call .readContent m)).core) s.core.sendMaxBlock s.app = (a, size) →
      LoadEnd env s ({ s.note (.call .readContent m) with app := a }.noteContent s.app,
        if size < 0 then -1 else if size = 0 then 0 else 1)

theorem cgiLoadContentToSend_end (s : Sys) (caller : Caller) :
    LoadEnd env s (s.cgiLoadContentToSend env caller) := by
  unfold cgiLoadContentToSend
  split
  · split
    · exact .faulted
    next m hm =>
      split
      next f hf => exact .allSent m f hm hf
      next => exact .ended
  · split
    · exact .ended
    next m hm =>
      split
      · exact .ended
      next f hf =>
        split
        · exact .waiting
        next hstage => exact .read m f _ _ hm hf (Nat.not_le.mp hstage) rfl

theorem LoadEnd.kept {F : Spares} {s : Sys} {r : Sys × ℤ} (h : LoadEnd env s r) :
    Work.Kept F s.core.sid s.app.toWork r.1.app.toWork := by
  cases h with
  | allSent m f hm hf => exact Cgi.onAllSent_kept hf s.app.toWork
  | faulted => exact .same rfl rfl
  | ended => exact .refl _
  | waiting => exact .refl _
  | read m f a size hm hf hstage ha =>
    have hload : Work.Kept F s.core.sid s.app.toWork
        (loadBlock (f env (s.note (.call .readContent m)).core) s.core.sendMaxBlock s.app).1.toWork :=
      loadBlock_kept (fun w n => Cgi.readContent_kept (c := (s.note (.call .readContent m)).core) hf w n)
        _ _
    rw [ha] at hload
    exact hload

theorem LoadEnd.answered {s : Sys} {r : Sys × ℤ} (h : LoadEnd env s r) :
    Work.Answered s.app.toWork r.1.app.toWork := by
  cases h with
  | allSent m f hm hf => exact .inl (Cgi.onAllSent_result hf s.core s.app.toWork)
  | faulted => exact .inl rfl
  | ended => exact .inl rfl
  | waiting => exact .inl rfl
  | read m f a size hm hf hstage ha =>
    have hload : Work.Answered s.app.toWork
        (loadBlock (f env (s.note (.call .readContent m)).core) s.core.sendMaxBlock s.app).1.toWork :=
      loadBlock_answered (Cgi.readContent_answered hf _) _ _
    rw [ha] at hload
    exact hload

theorem cgiLoadContentToSend_state (s : Sys) (caller : Caller) :
    (s.cgiLoadContentToSend env caller).1.core.state = s.core.state := by
  have hend := @cgiLoadContentToSend_end env s caller
  generalize s.cgiLoadContentToSend env caller = r at hend ⊢
  cases hend <;> rfl

/-- What sending does: it writes, and leaves everything else about the request alone. -/
def Sends (s t : Sys) : Prop :=
  ∃ new total2Send tLastSent bytesLeft sendBuffer calls, (∀ o ∈ new, Obs.Routine o) ∧ t =
    { core := { s.core with
        total2Send := total2Send
        tLastSent := tLastSent
        hist := new ++ s.core.hist }
      app := { s.app with
        bytesLeft := bytesLeft
        sendBuffer := sendBuffer
        world := { s.app.world with calls := calls } } }

theorem sendBuffered_sends (n : ℕ) (s : Sys) : Sends s (s.sendBuffered env n).1 := by
  induction n generalizing s with
  | zero => exact ⟨[], _, _, _, _, _, nofun, rfl⟩
  | succ n ih =>
    simp only [sendBuffered]
    split_ifs
    · exact ⟨[], _, _, _, _, _, nofun, rfl⟩
    · let k := (min s.app.bytesLeft (env.sndbuf s.app.world.calls)).toNat
      obtain ⟨new, total2Send, tLastSent, bytesLeft, sendBuffer, calls, hnew, he⟩ :=
        ih (s.sentBlock env k)
      refine ⟨new ++ [.wrote (s.app.sendBuffer.take k)], total2Send, tLastSent, bytesLeft, sendBuffer,
        calls, fun o ho => ?_, ?_⟩
      · rcases List.mem_append.mp ho with ho | ho
        · exact hnew o ho
        · rw [List.mem_singleton.mp ho]
          trivial
      · rw [he, List.append_assoc]
        rfl
    · refine ⟨[.writeFailed], _, _, _, _, _, fun o ho => ?_, rfl⟩
      rw [List.mem_singleton.mp ho]
      trivial
    · exact ⟨[], _, _, _, _, _, nofun, rfl⟩

theorem sendBuffered_state (n : ℕ) (s : Sys) :
    (s.sendBuffered env n).1.core.state = s.core.state := by
  obtain ⟨_, _, _, _, _, _, -, he⟩ := @sendBuffered_sends env n s
  rw [he]

/-- How `sendOrEnd` ends. -/
inductive SendEnd (s : Sys) : Sys × Bool → Prop
  | sent (t : Sys) : Sends s t → SendEnd s (t, true)
  | failed (t : Sys) : Sends s t → SendEnd s ((t.setResult (-500)).setState .requestEnd, false)

theorem sendOrEnd_end (s : Sys) : SendEnd s (s.sendOrEnd env) := by
  have hsends := @sendBuffered_sends env s.app.bytesLeft.toNat s
  unfold sendOrEnd
  generalize s.sendBuffered env s.app.bytesLeft.toNat = r at hsends ⊢
  obtain ⟨t, b⟩ := r
  cases b
  · exact .failed t hsends
  · exact .sent t hsends

theorem sendOrEnd_received {s : Sys} (h : s.core.state.Received) :
    (s.sendOrEnd env).1.core.state.Received := by
  unfold sendOrEnd
  have hs := @sendBuffered_state env s.app.bytesLeft.toNat s
  generalize s.sendBuffered env s.app.bytesLeft.toNat = r at hs ⊢
  obtain ⟨s', b⟩ := r
  cases b
  · exact (by decide : HttpState.requestEnd.Received)
  · rw [hs]
    exact h

theorem sendHeader_received {s : Sys} (h : s.core.state.Received) :
    (s.sendHeader env).1.core.state.Received := by
  have hs : ((s.prepareHeader env).sendOrEnd env).1.core.state.Received := sendOrEnd_received h
  unfold sendHeader
  generalize (s.prepareHeader env).sendOrEnd env = r at hs ⊢
  obtain ⟨s', b⟩ := r
  cases b
  · exact hs
  · simp only [headerOut, setState_state]
    split_ifs <;> decide

theorem sendBody_received {s : Sys} (caller : Caller) (h : s.core.state.Received) :
    (s.sendBody env caller).core.state.Received := by
  have hs := @cgiLoadContentToSend_state env s caller
  unfold sendBody
  generalize s.cgiLoadContentToSend env caller = r at hs ⊢
  obtain ⟨s', n⟩ := r
  have h' : s'.core.state.Received := by rw [hs]; exact h
  simp only
  split_ifs
  · exact sendOrEnd_received h'
  · exact (by decide : HttpState.requestEnd.Received)
  · exact h'

/-- Until the request is complete, its result is no success. -/
def Unanswered (s : Sys) : Prop := ¬ s.core.state.Received → s.app.result ≤ 0

end Sys

open Sys in
theorem Micro.unanswered {env : Env} {s t : Sys} (h : Micro env s t) (hs : s.Unanswered) :
    t.Unanswered := by
  cases h with
  | background h =>
    obtain ⟨_, _, _, _, _, _, _, _, -, rfl⟩ := h.aside
    exact hs
  | begin hi _ => exact fun _ => hs (by rw [hi]; decide)
  | requestLine _ line hi _ hl =>
    exact fun _ => (requestLine_result hl).trans_le (hs (by rw [hi]; decide))
  | headerLine mem n hi =>
    exact fun _ => (Sys.headerLine_kept s mem n).result.trans_le (hs (by rw [hi]; decide))
  | emptyLine hi =>
    have hr : s.app.result ≤ 0 := hs (by rw [hi]; decide)
    intro _
    change (if s.core.requestMethod = none then -500 else s.app.result) ≤ 0
    split_ifs
    · decide
    · exact hr
  | consumeHeader => exact hs
  | abort => exact fun _ => (by decide : (-500 : ℤ) ≤ 0)
  | afterHeaders hd hr => exact fun _ => afterHeaders_result (hs (by rw [hd]; decide))
  | chunk hi _ _ =>
    have hr' : s.receiveChunkLine.app.result ≤ 0 := by
      rw [receiveChunkLine_app]
      exact hs (by rw [hi]; decide)
    exact fun _ => receiveContent_nonpos hr' _
  | content hi _ =>
    have hr' : s.app.result ≤ 0 := hs (by rcases hi with h | h <;> rw [h] <;> decide)
    exact fun _ => receiveContent_nonpos hr' _
  | requestDone hd hr =>
    refine fun h => absurd ?_ h
    rw [requestDone_state, hd]
    decide
  | flush hd hr => exact fun h => absurd (sendOrEnd_received hd) h
  | sendHeader hd hr _ => exact fun h => absurd (sendHeader_received hd) h
  | headerSent hi _ =>
    refine fun h => absurd ?_ h
    unfold Sys.headerSent
    split_ifs
    · exact (by decide : HttpState.requestEnd.Received)
    · exact (by decide : HttpState.sendingBody.Received)
  | sendBody caller hi _ =>
    exact fun h => absurd (sendBody_received caller (by rw [hi]; decide)) h
  | reset => exact fun _ => le_rfl
  | close => exact fun _ => le_rfl

/-! ## What the steps note -/

/-- Notes of an open connection. -/
def Obs.Open : Obs → Prop
  | .accepted | .closed _ _ | .freed => False
  | _ => True

/-- Notes that neither begin nor end anything. Callbacks are only called behind the headers, and a
session is made for the address of the connection. -/
def Obs.Within (s : Sys) : Obs → Prop
  | .begin | .line _ _ | .headers _ | .reset => False
  | .call _ _ => s.core.state.PastHeaders
  | .login _ session => s.core.state.PastHeaders ∧ session.nLoginIP = s.core.ipRemote
  | o => o.Open

theorem Obs.Within.open {s : Sys} {o : Obs} (h : o.Within s) : o.Open := by
  cases o <;> trivial

theorem Obs.Routine.within {s : Sys} {o : Obs} (h : o.Routine) : o.Within s := by
  cases o <;> trivial

/-- The pcb stays, the request stays on its side of the headers, and only its history grows. -/
structure Sys.GoesOn (s t : Sys) : Prop where
  pcb : t.core.pcb = s.core.pcb
  ipRemote : t.core.ipRemote = s.core.ipRemote
  past : t.core.state.PastHeaders ↔ s.core.state.PastHeaders
  notes : ∃ new, (∀ o ∈ new, Obs.Within s o) ∧ t.core.hist = new ++ s.core.hist

namespace Sys.GoesOn

variable {env : Env} {s t u : Sys}

theorem same (hown : (t.core.pcb, t.core.ipRemote) = (s.core.pcb, s.core.ipRemote))
    (hpast : t.core.state.PastHeaders ↔ s.core.state.PastHeaders)
    (hhist : t.core.hist = s.core.hist) : GoesOn s t := by
  rw [Prod.mk.injEq] at hown
  exact ⟨hown.1, hown.2, hpast, [], nofun, hhist⟩

theorem note {o : Obs} (ho : o.Within s)
    (hown : (t.core.pcb, t.core.ipRemote) = (s.core.pcb, s.core.ipRemote))
    (hpast : t.core.state.PastHeaders ↔ s.core.state.PastHeaders)
    (hhist : t.core.hist = o :: s.core.hist) : GoesOn s t := by
  rw [Prod.mk.injEq] at hown
  refine ⟨hown.1, hown.2, hpast, [o], fun o' ho' => ?_, hhist⟩
  rw [List.mem_singleton.mp ho']
  exact ho

theorem trans (h : GoesOn s t) (h' : GoesOn t u) : GoesOn s u := by
  obtain ⟨hpcb, hip, hpast, new, hnew, hhist⟩ := h
  obtain ⟨hpcb', hip', hpast', new', hnew', hhist'⟩ := h'
  refine ⟨hpcb'.trans hpcb, hip'.trans hip, hpast'.trans hpast, new' ++ new, fun o ho => ?_, ?_⟩
  · rcases List.mem_append.mp ho with ho | ho
    · have hw := hnew' o ho
      cases o with
      | call cb m => exact hpast.mp hw
      | login i session => exact ⟨hpast.mp hw.1, hw.2.trans hip⟩
      | _ => exact hw
    · exact hnew o ho
  · rw [hhist', hhist, List.append_assoc]

theorem noteAll (s : Sys) {new : List Obs} (hnew : ∀ o ∈ new, Obs.Within s o) :
    GoesOn s (s.noteAll new) := ⟨rfl, rfl, Iff.rfl, new, hnew, rfl⟩

theorem sends (h : Sends s t) : GoesOn s t := by
  obtain ⟨new, _, _, _, _, _, hnew, rfl⟩ := h
  exact ⟨rfl, rfl, Iff.rfl, new, fun o ho => (hnew o ho).within, rfl⟩

theorem sendOrEnd (hp : s.core.state.PastHeaders) : GoesOn s (s.sendOrEnd env).1 := by
  have hend := @sendOrEnd_end env s
  generalize s.sendOrEnd env = r at hend ⊢
  cases hend with
  | sent t ht => exact sends ht
  | failed t ht =>
    obtain ⟨hpcb, hip, -, hhist⟩ := sends ht
    exact ⟨hpcb, hip, iff_of_true (by decide : HttpState.requestEnd.PastHeaders) hp, hhist⟩

theorem requestLine {line : Bytes} (ht : s.requestLine line = some t) : GoesOn s t := by
  have hstate := requestLine_state ht
  obtain ⟨method, m, q, rfl⟩ := requestLine_eq ht
  obtain ⟨handler, hcore⟩ := (s.setTarget method m q).cgiSetCgiHandler_core
  exact same (by rw [hcore]; rfl) (by rw [hstate]) (by rw [hcore]; rfl)

theorem receiveChunkLine (hs : s.core.state = .chunkLenReceiving) : GoesOn s s.receiveChunkLine := by
  unfold Sys.receiveChunkLine
  split
  · exact same rfl Iff.rfl rfl
  · refine note (o := .consumed .chunkLine _) trivial rfl (iff_of_true ?_ (by rw [hs]; decide)) rfl
    exact (by decide : HttpState.chunkReceiving.PastHeaders)

theorem receiveContent (hs : s.core.state = .chunkReceiving ∨ s.core.state = .bodyReceiving)
    (size : ℤ) : GoesOn s (s.receiveContent env size).1 := by
  have hp : s.core.state.PastHeaders := by rcases hs with hs | hs <;> rw [hs] <;> decide
  have hend := @cgiContentReceived_end env s size
  unfold Sys.receiveContent
  generalize s.cgiContentReceived env size = r at hend ⊢
  obtain ⟨t, consumed⟩ := r
  have hcall : GoesOn s t ∧ t.core.state = s.core.state := by
    cases hend with
    | called m f u a consumed hm hf hu he =>
      subst hu
      exact ⟨note (o := .call (.contentReceived size _ _) m) hp rfl Iff.rfl rfl, rfl⟩
    | ignored => exact ⟨same rfl Iff.rfl rfl, rfl⟩
  obtain ⟨hgoes, hstate⟩ := hcall
  simp only
  split_ifs
  · exact hgoes
  · obtain ⟨state, _, _, _, hcore, hcases⟩ := @contentTaken_core env t consumed
    refine hgoes.trans (note (o := .consumed t.contentSpan consumed) trivial (by rw [hcore]) ?_
      (by rw [hcore]))
    have hlate : state.PastHeaders := by
      rcases hcases with ⟨-, hst, -⟩ | ⟨-, -, hst, -⟩ | ⟨-, -, hst, -⟩
      · rw [hst, hstate]
        exact hp
      · rw [hst]
        split_ifs <;> decide
      · rw [hst]
        decide
    rw [hcore, hstate]
    exact iff_of_true hlate hp

theorem requestDone (hs : s.core.state = .bodyDone) : GoesOn s (s.requestDone env) := by
  have hp : s.core.state.PastHeaders := by rw [hs]; decide
  have hend := @cgiRequestReceived_end env s
  unfold Sys.requestDone
  simp only
  generalize s.cgiRequestReceived env = t at hend ⊢
  have hcall : GoesOn s t := by
    cases hend with
    | called m f hm hf =>
      let u := (s.note (.call .requestReceived m)).onApp (f env s.core)
      have hcalled : GoesOn s u := note (o := .call .requestReceived m) hp rfl Iff.rfl rfl
      have hstep : Work.SessionStep s.core s.app.toWork u.app.toWork :=
        Cgi.onRequestReceived_sessions hf s.app
      refine hcalled.trans (noteAll u fun o ho => ?_)
      rcases List.mem_append.mp ho with ho | ho <;>
        obtain ⟨⟨i, session⟩, hsome, rfl⟩ := List.mem_map.mp ho
      · rw [Option.mem_toList] at hsome
        obtain ⟨hi, rfl, hlive, hfree⟩ := mem_loginSince.mp hsome
        exact ⟨hp, hstep.login hi hlive hfree⟩
      · trivial
    | ignored => exact same rfl Iff.rfl rfl
  split_ifs
  · exact hcall.trans (same rfl Iff.rfl rfl)
  · exact hcall

theorem sendHeader (hp : s.core.state.PastHeaders) : GoesOn s (s.sendHeader env).1 := by
  have hprepared : GoesOn s (s.prepareHeader env) := note (o := .response _) trivial rfl Iff.rfl rfl
  have hsend : GoesOn s ((s.prepareHeader env).sendOrEnd env).1 := hprepared.trans (sendOrEnd hp)
  unfold Sys.sendHeader
  generalize (s.prepareHeader env).sendOrEnd env = r at hsend ⊢
  obtain ⟨t, b⟩ := r
  cases b
  · exact hsend
  · obtain ⟨hpcb, hip, -, hhist⟩ := hsend
    have hlate : t.headerOut.core.state.PastHeaders := by
      simp only [Sys.headerOut, Sys.setState_state]
      split_ifs <;> decide
    exact ⟨hpcb, hip, iff_of_true hlate hp, hhist⟩

theorem endResponse (hp : s.core.state.PastHeaders) : GoesOn s s.endResponse :=
  note (o := .requestEnd _) trivial rfl
    (iff_of_true (by decide : HttpState.requestEnd.PastHeaders) hp) rfl

theorem headerSent (hp : s.core.state.PastHeaders) : GoesOn s s.headerSent := by
  unfold Sys.headerSent
  split_ifs
  · exact endResponse hp
  · exact same rfl (iff_of_true (by decide : HttpState.sendingBody.PastHeaders) hp) rfl

theorem sendBody (hp : s.core.state.PastHeaders) (caller : Caller) :
    GoesOn s (s.sendBody env caller) := by
  have hend := @cgiLoadContentToSend_end env s caller
  have hstate := @cgiLoadContentToSend_state env s caller
  unfold Sys.sendBody
  generalize s.cgiLoadContentToSend env caller = r at hend hstate ⊢
  obtain ⟨t, n⟩ := r
  have hload : GoesOn s t := by
    cases hend with
    | read m f a size hm hf hstage ha =>
      have hcalled : GoesOn s (s.note (.call .readContent m)) :=
        note (o := .call .readContent m) hp rfl Iff.rfl rfl
      exact hcalled.trans (note (o := .content _) trivial rfl Iff.rfl rfl)
    | _ => exact same rfl Iff.rfl rfl
  have hp' : t.core.state.PastHeaders := by
    rw [show t.core.state = s.core.state from hstate]
    exact hp
  simp only
  split_ifs
  · exact hload.trans (sendOrEnd hp')
  · exact hload.trans (endResponse hp')
  · exact hload

end Sys.GoesOn

/-- The steps that begin or end something, the lines of the header, and all other steps. -/
inductive Stage (env : Env) (s : Sys) : Sys → Prop
  | begin : s.core.state = .idle → Stage env s (s.beginRequest env)
  | line (mem : Bytes) (n : ℕ) : s.core.state = .headerReceiving →
      Stage env s (s.headerLine env mem n)
  | headers : s.core.state = .headerDone → 0 ≤ s.app.result → Stage env s (s.afterHeaders env)
  | within (t : Sys) : s.GoesOn t → Stage env s t
  | reset : Stage env s (s.resetHttpContext env)
  | close : Stage env s (s.closeHttpContext env)

theorem Micro.stage {env : Env} {s t : Sys} (h : Micro env s t) : Stage env s t := by
  have hlate (hs : s.core.state.Received) : s.core.state.PastHeaders :=
    Nat.lt_of_lt_of_le (by decide) hs
  cases h with
  | background h =>
    obtain ⟨new, _, _, _, _, _, _, _, hnew, rfl⟩ := h.aside
    exact .within _ ⟨rfl, rfl, Iff.rfl, new, fun o ho => (hnew o ho).within, rfl⟩
  | begin hs _ => exact .begin hs
  | requestLine _ line _ _ hl => exact .within _ (.requestLine hl)
  | headerLine mem n hs => exact .line mem n hs
  | emptyLine hs =>
    refine .within _ (.same rfl (iff_of_false ?_ (by rw [hs]; decide)) rfl)
    exact (by decide : ¬ HttpState.headerDone.PastHeaders)
  | consumeHeader k => exact .within _ (.note (o := .consumed .header k) trivial rfl Iff.rfl rfl)
  | abort => exact .within _ (.same rfl Iff.rfl rfl)
  | afterHeaders hs hr => exact .headers hs hr
  | chunk hs hline => exact .within _ ((Sys.GoesOn.receiveChunkLine hs).trans (.receiveContent (.inl hline) _))
  | content hs => exact .within _ (.receiveContent hs _)
  | requestDone hs => exact .within _ (.requestDone hs)
  | flush hs => exact .within _ (.sendOrEnd (hlate hs))
  | sendHeader hs => exact .within _ (.sendHeader (hlate hs))
  | headerSent hs => exact .within _ (.headerSent (by rw [hs]; decide))
  | sendBody caller hs => exact .within _ (.sendBody (by rw [hs]; decide) caller)
  | reset => exact .reset
  | close => exact .close

/-- The pcb stays, and only the history of an open connection grows. -/
def Sys.StaysOpen (s t : Sys) : Prop :=
  t.core.pcb = s.core.pcb ∧ ∃ new, (∀ o ∈ new, Obs.Open o) ∧ t.core.hist = new ++ s.core.hist

theorem Sys.StaysOpen.afterHeaders {env : Env} (s : Sys) : s.StaysOpen (s.afterHeaders env) := by
  obtain ⟨tLastSent, called, hcore, hcalled, -⟩ := @Sys.afterHeaders_core env s
  generalize s.afterHeaders env = t at hcore ⊢
  refine ⟨by rw [hcore], (if t.app.result < 0 then [.refused] else []) ++ called ++ [.headers s.gate],
    fun o ho => ?_, by rw [hcore, List.append_assoc, List.append_assoc]; rfl⟩
  rw [List.mem_append, List.mem_append, List.mem_singleton] at ho
  rcases ho with (ho | ho) | rfl
  · split_ifs at ho
    · rw [List.mem_singleton.mp ho]
      trivial
    · cases ho
  · rcases hcalled with rfl | ⟨m, rfl⟩
    · cases ho
    · rw [List.mem_singleton.mp ho]
      trivial
  · trivial

/-- A step closes the connection, or it stays open. -/
theorem Micro.staysOpen {env : Env} {s t : Sys} (h : Micro env s t) :
    t = s.closeHttpContext env ∨ s.StaysOpen t := by
  have hnote {o : Obs} (ho : o.Open) : ∀ o' ∈ [o], Obs.Open o' := fun o' ho' => by
    rw [List.mem_singleton.mp ho']
    exact ho
  cases h.stage with
  | begin => exact .inr ⟨rfl, [.begin], hnote trivial, rfl⟩
  | line mem n =>
    have hkept := @Sys.headerLine_kept env s mem n
    rcases hkept.hist with he | ⟨line, he⟩
    · exact .inr ⟨hkept.pcb, [], nofun, he⟩
    · exact .inr ⟨hkept.pcb, [.line s.core.handler line], hnote trivial, he⟩
  | headers => exact .inr (.afterHeaders s)
  | within _ hgoes =>
    obtain ⟨hpcb, -, -, new, hnew, hhist⟩ := hgoes
    exact .inr ⟨hpcb, new, fun o ho => (hnew o ho).open, hhist⟩
  | reset => exact .inr ⟨rfl, [.reset], hnote trivial, rfl⟩
  | close => exact .inl rfl

/-- A connection forgets nothing. -/
theorem Micro.grows {env : Env} {s t : Sys} (h : Micro env s t) :
    ∃ new, (∀ o ∈ new, o ≠ Obs.accepted) ∧ t.core.hist = new ++ s.core.hist := by
  rcases h.staysOpen with rfl | ⟨-, new, hnew, hhist⟩
  · obtain ⟨closed, hclosed, hhist⟩ := @Sys.closeHttpContext_hist env s
    refine ⟨.freed :: closed, fun o ho => ?_, hhist⟩
    rcases List.mem_cons.mp ho with rfl | ho
    · nofun
    · obtain ⟨pcb, ok, rfl⟩ := hclosed o ho
      nofun
  · refine ⟨new, fun o ho => ?_, hhist⟩
    rintro rfl
    exact hnew _ ho

theorem Steps.grows {env : Env} {s t : Sys} (h : Steps env s t) :
    ∃ new, (∀ o ∈ new, o ≠ Obs.accepted) ∧ t.core.hist = new ++ s.core.hist := by
  refine h.keep (P := fun u => ∃ new, (∀ o ∈ new, o ≠ Obs.accepted) ∧ u.core.hist = new ++ s.core.hist)
    ?_ ⟨[], nofun, rfl⟩
  rintro u v hstep ⟨new, hnew, hhist⟩
  obtain ⟨new', hnew', hhist'⟩ := hstep.grows
  refine ⟨new' ++ new, fun o ho => ?_, by rw [hhist', hhist, List.append_assoc]⟩
  rcases List.mem_append.mp ho with ho | ho
  · exact hnew' o ho
  · exact hnew o ho

namespace Sys

variable {env : Env}

/-! ## The rounds -/

theorem headerRound_intakes (s : Sys) (afterHeader : Bool) (hs : ¬ s.core.state.Received)
    (hr : s.app.result ≤ 0) (hd : afterHeader = true → s.core.state = .headerDone) :
    Intakes env s (s.headerRound env afterHeader).1 := by
  simp only [headerRound]
  by_cases hneg : s.app.result < 0
  · rw [if_pos hneg]
    exact .refl s
  rw [if_neg hneg]
  split
  · exact .one (.abort s hs) hs
  split
  · exact .refl s
  cases afterHeader with
  | false =>
    rw [if_neg Bool.false_ne_true, if_neg hneg]
    exact bodyRound_intakes s (by omega)
  | true =>
    have hstep : Intakes env s (s.afterHeaders env) := .one (.afterHeaders s (hd rfl) (by omega)) hs
    have hr' : (s.afterHeaders env).app.result ≤ 0 := afterHeaders_result hr
    rw [if_pos rfl]
    split
    · exact hstep
    · exact hstep.trans (bodyRound_intakes _ (by omega))

/-- The header is parsed, and the round goes on from there. -/
theorem receiveHeader_headerRound_intakes {s : Sys} (hs : s.Unanswered) (hh : s.HeaderState false) :
    Intakes env s ((s.receiveHeader env).1.headerRound env (s.receiveHeader env).2).1 := by
  obtain ⟨hsteps, hdone⟩ := @receiveHeader_intakes env s hh
  have hst : ¬ (s.receiveHeader env).1.core.state.Received := by
    rcases hdone.cases with h | h <;> rw [h] <;> decide
  have hr : (s.receiveHeader env).1.app.result ≤ 0 := hsteps.steps.keep (fun _ _ => Micro.unanswered) hs hst
  exact hsteps.trans (headerRound_intakes _ _ hst hr fun h => by rw [h] at hdone; exact hdone)

/-- One round of the loop of `HttpRequestProc`. -/
theorem requestRound_intakes (s : Sys) (hs : s.Unanswered) (hst : ¬ s.core.state.Received) :
    Intakes env s (s.requestRound env).1 := by
  have hdequeue : Intakes env s s.dequeue := .background (.dequeue s)
  simp only [requestRound]
  by_cases hz : s.dequeue.core.rx.requestLength = 0
  · rw [if_pos hz]
    exact hdequeue
  rw [if_neg hz]
  by_cases hb : s.dequeue.core.rx.requestLength > 0 ∧ s.dequeue.core.state = .idle
  · have hbegin : Intakes env s (s.dequeue.beginRequest env) := hdequeue.trans (.one (.begin _ hb.2 hb.1) (by rw [hb.2]; decide))
    have hh : (s.dequeue.beginRequest env).core.state = .headerReceiving := rfl
    rw [if_pos hb, if_pos hh]
    exact hbegin.trans (receiveHeader_headerRound_intakes (fun _ => hs hst) hh)
  · rw [if_neg hb]
    split_ifs with hh
    · exact hdequeue.trans (receiveHeader_headerRound_intakes (fun _ => hs hst) hh)
    · exact hdequeue.trans (headerRound_intakes s.dequeue false hst (hs hst) nofun)

theorem requestLoop_intakes (n : ℕ) (s : Sys) (hs : s.Unanswered) :
    Intakes env s (s.requestLoop env n).1 := by
  induction n generalizing s with
  | zero => exact .background (.fault s)
  | succ n ih =>
    rw [requestLoop]
    split_ifs with hst
    · have hround : Intakes env s (s.requestRound env).1 :=
        requestRound_intakes s hs (Nat.not_le.mpr hst)
      have hs' := hround.steps.keep (fun _ _ => Micro.unanswered) hs
      generalize s.requestRound env = r at hround hs' ⊢
      obtain ⟨s', e⟩ := r
      cases e
      · exact hround.trans (ih s' hs')
      · exact hround
      · exact hround
    · exact .refl s

/-! ## The response -/

theorem remaining_steps (s : Sys) :
    Steps env s (s.remaining env).1 ∧ (s.remaining env).1.core = s.core ∧
      (s.remaining env).1.app.result = s.app.result := by
  unfold remaining
  split_ifs
  · exact ⟨.refl s, rfl, rfl⟩
  · exact ⟨.refl s, rfl, rfl⟩
  · exact ⟨.one (.background (.asked s)), rfl, rfl⟩

theorem sendHeader_sending (s : Sys) (h : (s.sendHeader env).2 = true) :
    (s.sendHeader env).1.core.sending = true := by
  unfold sendHeader at h ⊢
  generalize (s.prepareHeader env).sendOrEnd env = r at h ⊢
  obtain ⟨s', b⟩ := r
  cases b
  · cases h
  · rfl

theorem httpResponseProc_steps (s : Sys) (caller : Caller) :
    Steps env s (s.httpResponseProc env caller) := by
  simp only [httpResponseProc]
  split_ifs with h0
  · exact .refl s
  have hs : s.core.state.Received := Nat.not_lt.mp fun h => h0 (.inl h)
  have hr : s.app.result ≠ 0 := fun h => h0 (.inr h)
  obtain ⟨hsteps, hcore, hresult⟩ := @remaining_steps env s
  generalize s.remaining env = r at hsteps hcore hresult ⊢
  obtain ⟨s₁, b⟩ := r
  simp only at hsteps hcore hresult
  rw [← hcore] at hs
  rw [← hresult] at hr
  refine hsteps.trans ?_
  cases b with
  | true => exact .one (.flush s₁ hs hr)
  | false =>
    simp only
    by_cases hsend : s₁.core.sending = true
    · rw [if_neg (not_not.mpr hsend)]
      by_cases hh : s₁.core.state = .sendingHeader ∧ caller = .sent
      · rw [if_pos hh]
        have hstep : Micro env s₁ s₁.headerSent := .headerSent s₁ hh.1 hsend
        have hsend' : s₁.headerSent.core.sending = true := by
          unfold headerSent
          split_ifs <;> exact hsend
        split_ifs with hb
        · exact (Steps.one hstep).tail (.sendBody _ caller hb.2 hsend')
        · exact .one hstep
      · rw [if_neg hh]
        split_ifs with hb
        · exact .one (.sendBody s₁ caller hb.2 hsend)
        · exact .refl s₁
    · rw [if_pos hsend]
      have hstep : Micro env s₁ (s₁.sendHeader env).1 :=
        .sendHeader s₁ hs hr (Bool.eq_false_iff.mpr hsend)
      have hsent := @sendHeader_sending env s₁
      generalize s₁.sendHeader env = r at hstep hsent ⊢
      obtain ⟨s₂, ok⟩ := r
      simp only at hstep hsent ⊢
      split_ifs with hb
      · exact (Steps.one hstep).tail (.sendBody s₂ caller hb.2 (hsent hb.1))
      · exact .one hstep

/-! ## Closing, and the events -/

theorem closeHttpContext_steps (s : Sys) : Steps env s (s.closeHttpContext env) := .one (.close s)

theorem respond_steps (s : Sys) (caller : Caller) : Steps env s (s.respond env caller) := by
  simp only [respond]
  split_ifs with hs hend hp
  · refine (httpResponseProc_steps s caller).trans ?_
    unfold finishRequest
    split_ifs with hp hk
    · exact closeHttpContext_steps _
    · exact .one (.reset _ hend hk)
    · exact closeHttpContext_steps _
  · exact httpResponseProc_steps s caller
  · exact .one (.abort s hs)
  · exact .refl s

theorem httpRequestProc_steps (s : Sys) (caller : Caller) (hs : s.Unanswered) :
    Steps env s (s.httpRequestProc env caller) := by
  simp only [httpRequestProc]
  generalize hn : s.core.rx.requestLength.toNat + (chainBytes s.core.rx.reqBufList).length + 2 = n
  have hloop := (@requestLoop_intakes env n s hs).steps
  generalize s.requestLoop env n = r at hloop ⊢
  obtain ⟨s', b⟩ := r
  cases b
  · exact hloop
  · exact hloop.trans (respond_steps s' caller)

theorem closeOnError_steps (s : Sys) : Steps env s (s.closeOnError env) := by
  unfold closeOnError
  split_ifs
  · exact closeHttpContext_steps s
  · exact .refl s

/-- What `OnHttpReceive` does first, unless it closes the connection. -/
theorem beforeReceive_steps {s t : Sys} {p : Option (List Pbuf)} (hp : s.core.pcb ≠ none)
    (h : s.beforeReceive env p = some t) : Steps env s t ∧ s.Aside t := by
  cases p with
  | none =>
    simp only [beforeReceive] at h
    split_ifs at h
    obtain rfl := Option.some.inj h
    exact ⟨(Steps.one (.background (.peerClosing s true))).tail (.background (.touch _)),
      [], _, _, _, _, _, _, _, nofun, rfl⟩
  | some p =>
    obtain rfl := Option.some.inj h
    exact ⟨(Steps.one (.background (.touch s))).tail (.background (.receive _ p hp)),
      [], _, _, _, _, _, _, _, nofun, rfl⟩

theorem afterReceive_steps (s : Sys) : Steps env s (s.afterReceive env) := by
  unfold afterReceive
  split_ifs
  · exact closeHttpContext_steps s
  · exact .refl s
  · exact .one (.background (.received s _))

theorem onHttpReceive_steps (s : Sys) (p : Option (List Pbuf)) (hs : s.Unanswered)
    (hp : s.core.pcb ≠ none) : Steps env s (s.onHttpReceive env p) := by
  unfold onHttpReceive
  split
  next t ht =>
    obtain ⟨hsteps, -⟩ := beforeReceive_steps hp ht
    have hanswered := hsteps.keep (fun _ _ => Micro.unanswered) hs
    exact hsteps.trans ((httpRequestProc_steps t .recv hanswered).trans (afterReceive_steps _))
  next => exact closeHttpContext_steps s

theorem onHttpPoll_steps (s : Sys) (hs : s.Unanswered) : Steps env s (s.onHttpPoll env) := by
  unfold onHttpPoll
  split_ifs
  · exact closeHttpContext_steps s
  · exact (httpRequestProc_steps s .poll hs).trans (closeOnError_steps _)

/-- What `OnHttpSent` does first. -/
theorem beforeSent_steps (s : Sys) (len : ℕ) : Steps env s (s.beforeSent env len) := by
  have hsession : Steps env s (if s.core.checkAlive then s
      else s.onSession fun t i => sessionSent t i (s.app.world.tickCount env)) := by
    split_ifs
    · exact .refl s
    · exact .one (.background (.sent s _))
  exact hsession.tail (.background (.acknowledged _ len))

theorem onHttpSent_steps (s : Sys) (len : ℕ) (hs : s.Unanswered) :
    Steps env s (s.onHttpSent env len) := by
  have hbefore := @beforeSent_steps env s len
  have hs' := hbefore.keep (fun _ _ => Micro.unanswered) hs
  exact hbefore.trans ((httpRequestProc_steps _ .sent hs').trans (closeOnError_steps _))

end Sys

end StraightHttpd
