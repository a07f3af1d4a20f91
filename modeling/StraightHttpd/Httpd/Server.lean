import StraightHttpd.Httpd.Steps

/-! # The server: all connections, and the events that reach them

lwIP calls the handlers one after another, each with the context of its connection. Between two
calls other parts of the program touch the globals: the session check of the main thread, and the
network interface when it gets its addresses. What one connection sees of all this is a run of its
own steps (`Micro`), between which the globals change.
-/

set_option autoImplicit false

namespace StraightHttpd
open CMemory Relation

instance : NeZero maxConnections := ⟨by decide⟩

/-- `g_httpContext`, and the globals. The `world` of a stored context is out of date. -/
structure Server where
  ctx : Fin maxConnections → Sys
  world : World

/-- What may happen next. -/
inductive Event
  | accept (pcb ipRemote : ℕ) (https : Bool)
  | receive (i : Fin maxConnections) (p : Option RecvChain)
  | poll (i : Fin maxConnections)
  | sent (i : Fin maxConnections) (len : ℕ)
  | error (i : Fin maxConnections)
  | sessionCheck (tick : ℕ)
  | setMyIP (addr : ℕ)
  | setGateway (addr : ℕ)
  | setSubnet (addr : ℕ)
  | listenHttps (on : Bool)

/-- Bytes that arrive in one pbuf, or the end of what the peer sends. -/
def Event.data (i : Fin maxConnections) (b : Bytes) : Event :=
  .receive i (if h : b = [] then none else some {
    pbufs := [{ payload := b, totLen := b.length }]
    ne := List.cons_ne_nil _ _
    consistent := ⟨h, by rw [chainBytes_cons, chainBytes_nil, List.append_nil], trivial⟩ })

def Sys.withWorld (s : Sys) (w : World) : Sys := s.onWork fun x => { x with world := w }

namespace Server

variable (env : Env)

/-- A context with the globals as they are. -/
def conn (s : Server) (i : Fin maxConnections) : Sys := (s.ctx i).withWorld s.world

def put (s : Server) (i : Fin maxConnections) (t : Sys) : Server :=
  { ctx := Function.update s.ctx i t, world := t.app.world }

/-- An event for a context reaches it as long as its pcb is attached. -/
def onConn (s : Server) (i : Fin maxConnections) (f : Sys → Sys) : Server :=
  if (s.ctx i).core.pcb = none then s else s.put i (f (s.conn i))

def onDevice (s : Server) (f : Device → Device) : Server :=
  { s with world := { s.world with device := f s.world.device } }

/-- The effect of an event. -/
def fire (s : Server) : Event → Server
  | .accept pcb ipRemote https =>
    match Fin.find? fun i => decide ((s.ctx i).core.pcb = none) with
    | some i => s.put i ((s.conn i).onHttpAccept env pcb ipRemote https)
    | none => s
  | .receive i p => s.onConn i fun c => c.onHttpReceive env (p.map fun p => p.pbufs)
  | .poll i => s.onConn i fun c => c.onHttpPoll env
  | .sent i len => s.onConn i fun c => c.onHttpSent env len
  | .error i => s.onConn i fun c => c.onHttpError
  | .sessionCheck tick =>
    let sessions := sessionCheck s.world.sessions tick s.world.device.getSessionTimeout
    { s with world := { s.world with sessions := sessions } }
  | .setMyIP addr => s.onDevice fun d => d.setMyIPLong addr
  | .setGateway addr => s.onDevice fun d => d.setGatewayLong addr
  | .setSubnet addr => s.onDevice fun d => d.setSubnetLong addr
  | .listenHttps on => { s with world := { s.world with httpsListening := on } }

/-- Time passes before an event. -/
def handle (s : Server) (e : Event) : Server := { s with world := s.world.asked }.fire env e

/-- After `SetupHttpContext`. -/
def boot : Server := { ctx := fun i => Sys.zero i World.boot, world := World.boot }

/-- Runs of the server. They end at a fault, since what follows it is not modelled. -/
def runs : RunSystem Server Event where
  init s := s = boot
  step s e s' := s.world.fault = false ∧ s' = s.handle env e

/-- The events in order. -/
def play (s : Server) (es : List Event) : Server := es.foldl (handle env) s

/-- No event but the last makes a fault. -/
def Sane (s : Server) : List Event → Prop
  | [] => True
  | e :: es => s.world.fault = false ∧ Sane (s.handle env e) es

instance decidableSane (s : Server) (es : List Event) : Decidable (Sane env s es) :=
  match es with
  | [] => isTrue trivial
  | e :: es =>
    let _ := decidableSane (s.handle env e) es
    inferInstanceAs (Decidable (_ ∧ _))

theorem reach_play {s : Server} {es : List Event} (h : (runs env).Reach s) (hs : Sane env s es) :
    (runs env).Reach (s.play env es) := by
  induction es generalizing s with
  | nil => exact h
  | cons e es ih => exact ih (h.step e ⟨hs.1, rfl⟩) hs.2

/-- A sane sequence of events from the start is a run. -/
theorem reach_boot {es : List Event} (hs : Sane env boot es) : (runs env).Reach (boot.play env es) :=
  reach_play env (.init rfl) hs

end Server

namespace Sys

/-- What was noted since `before`. -/
def notesSince (s before : Sys) : List Obs :=
  s.core.hist.take (s.core.hist.length - before.core.hist.length)

theorem notesSince_eq {s t : Sys} {new : List Obs} (h : t.core.hist = new ++ s.core.hist) :
    t.notesSince s = new := by
  rw [notesSince, h, List.length_append, Nat.add_sub_cancel, List.take_left]

end Sys

namespace Server

variable (env : Env) (i : Fin maxConnections)

/-- The event is one of connection `i`, or makes it. -/
def Reaches (s : Server) : Event → Prop
  | .accept _ _ _ => (Fin.find? fun j => decide ((s.ctx j).core.pcb = none)) = some i
  | .receive j _ | .poll j | .sent j _ | .error j => j = i
  | _ => False

/-- What an event notes about connection `i`. -/
def noted (s : Server) (e : Event) : List Obs :=
  ((s.handle env e).ctx i).notesSince (s.ctx i)

/-- Every event of a run satisfies `P` in the state that it finds. -/
def Along (P : Server → Event → Prop) (s : Server) : List Event → Prop
  | [] => True
  | e :: es => P s e ∧ Along P (s.handle env e) es

end Server

/-! ## What one connection sees -/

/-- The events of a connection in the log. -/
def FileEvent.ofConn (sid : ℕ) (log : List FileEvent) : List FileEvent := log.filter (·.sid == sid)

/-- A step of the connection, the start of one, an error that has already ended one, or a change of
the globals that keeps its part of the file log. -/
inductive ConnStep (env : Env) : Sys → Sys → Prop
  | own {s t : Sys} : Micro env s t → ConnStep env s t
  | accept (s : Sys) (pcb ipRemote : ℕ) (https : Bool) : s.core.pcb = none →
      ConnStep env s (s.onHttpAccept env pcb ipRemote https)
  | error (s : Sys) : ConnStep env s s.onHttpError
  | others (s : Sys) (w : World) :
      FileEvent.ofConn s.core.sid w.files.log = FileEvent.ofConn s.core.sid s.app.world.files.log →
      s.app.world.files.opened ≤ w.files.opened → ConnStep env s (s.withWorld w)

/-- What a connection may have become since the start. -/
def ConnReach (env : Env) (sid : ℕ) (s : Sys) : Prop :=
  ReflTransGen (ConnStep env) (Sys.zero sid World.boot) s

/-! ## Steps of one connection leave the others alone -/

/-- No note of a callback that may change the settings or the disk. -/
def Obs.Spared : Obs → Prop
  | .line (some m) _ => m.spares.device = true
  | .call .readContent _ => True
  | .call _ m => m.spares.device = true
  | _ => True

namespace Sys

variable {env : Env}

/-- Nothing was noted since `s` that may have changed the settings or the disk. -/
def SparedSince (s t : Sys) : Prop := ∀ new, t.core.hist = new ++ s.core.hist → ∀ o ∈ new, o.Spared

/-- The connection is the same, it used the file system in its own name, and it left alone what `F`
says. -/
structure Local (F : Spares) (s t : Sys) : Prop where
  sid : t.core.sid = s.core.sid
  world : World.Grown F s.core.sid s.app.world t.app.world

variable {F : Spares}

theorem Local.refl (s : Sys) : Local F s s := ⟨rfl, .refl _⟩

theorem Local.trans {s t u : Sys} (h : Local F s t) (h' : Local F t u) : Local F s u :=
  ⟨h'.sid.trans h.sid, h.world.trans (h.sid ▸ h'.world)⟩

theorem Local.same {s t : Sys} (hsid : t.core.sid = s.core.sid)
    (hworld : (t.app.world.files.log, t.app.world.files.opened, t.app.world.device,
      t.app.world.sessions) = (s.app.world.files.log, s.app.world.files.opened, s.app.world.device,
      s.app.world.sessions)) : Local F s t := ⟨hsid, .same hworld⟩

/-- The same since a later moment. -/
theorem SparedSince.behind {s t u : Sys} (h : SparedSince s u)
    (ht : ∃ new, t.core.hist = new ++ s.core.hist) : SparedSince t u := by
  obtain ⟨old, hold⟩ := ht
  intro new hnew o ho
  refine h (new ++ old) ?_ o (List.mem_append_left _ ho)
  rw [hnew, hold, List.append_assoc]

theorem requestLine_local {s s' : Sys} {line : Bytes} (h : s.requestLine line = some s') :
    Local F s s' := by
  obtain ⟨method, m, q, rfl⟩ := requestLine_eq h
  have htarget : Local F s (s.setTarget method m q) := .same rfl rfl
  refine htarget.trans ?_
  unfold cgiSetCgiHandler
  split <;> exact .same rfl rfl

theorem headerLine_local (s : Sys) (mem : Bytes) (n : ℕ)
    (hd : F.device = true → SparedSince s (s.headerLine env mem n)) : Local F s (s.headerLine env mem n) := by
  have hkept := @headerLine_kept env s mem n
  refine ⟨hkept.sid, hkept.world F fun ht m line hhist => ?_⟩
  exact hd ht [.line (some m) line] hhist _ List.mem_cons_self

theorem cgiRefuse_local (s : Sys) : Local F s s.cgiRefuse := by
  unfold cgiRefuse
  split_ifs <;> exact .same rfl rfl

theorem afterHeaders_local (s : Sys) (hd : F.device = true → SparedSince s (s.afterHeaders env)) :
    Local F s (s.afterHeaders env) := by
  have hbody : Local F s ((s.note (.headers s.gate)).authorize.expectBody env) := by
    unfold authorize expectBody
    simp only
    split_ifs <;> exact .same rfl rfl
  have hu := @atGate env s
  have hend := @cgiHeadersReceived_end env ((s.note (.headers s.gate)).authorize.expectBody env)
  unfold afterHeaders at hd ⊢
  simp only at hd ⊢
  generalize ((s.note (.headers s.gate)).authorize.expectBody env) = u at hbody hu hend hd ⊢
  have hcall : Local F s (u.cgiHeadersReceived env) := by
    generalize u.cgiHeadersReceived env = t at hend hd ⊢
    cases hend with
    | called m f _ hf _ _ =>
      refine hbody.trans ⟨rfl, (Cgi.onHeadersReceived_kept (fun ht => ?_) hf u.app).world⟩
      specialize hd ht
      split_ifs at hd with hneg
      · exact hd [.refused, .call .headersReceived m, .headers s.gate]
          (congrArg (fun l => Obs.refused :: .call .headersReceived m :: l) hu.hist)
          (.call .headersReceived m) (by simp)
      · exact hd [.call .headersReceived m, .headers s.gate]
          (congrArg (fun l => Obs.call .headersReceived m :: l) hu.hist)
          (.call .headersReceived m) (by simp)
    | accepted => exact hbody
    | unauthorized => exact hbody.trans (.same rfl rfl)
    | refused => exact hbody.trans (cgiRefuse_local u)
  split_ifs
  · exact hcall.trans (.same rfl rfl)
  · exact hcall

theorem cgiContentReceived_local (s : Sys) (size : ℤ)
    (hd : F.device = true → ∀ size' remaining held m, (s.cgiContentReceived env size).1.core.hist =
      .call (.contentReceived size' remaining held) m :: s.core.hist → m.spares.device = true) : Local F s (s.cgiContentReceived env size).1 := by
  have hend := @cgiContentReceived_end env s size
  refine ⟨?_, (hend.kept hd).world⟩
  generalize s.cgiContentReceived env size = r at hend ⊢
  cases hend with
  | called m f t a consumed hm hf ht he =>
    rw [ht]
    rfl
  | ignored => rfl

theorem contentDone_local (s : Sys) : Local F s (s.contentDone env) := by
  unfold contentDone
  split_ifs <;> exact .same rfl rfl

theorem receiveChunkLine_local (s : Sys) : Local F s s.receiveChunkLine := by
  unfold receiveChunkLine
  split <;> exact .same rfl rfl

theorem receiveChunkLine_hist (s : Sys) :
    ∃ new, s.receiveChunkLine.core.hist = new ++ s.core.hist := by
  unfold receiveChunkLine
  split
  · exact ⟨[], rfl⟩
  · exact ⟨[.consumed .chunkLine _], rfl⟩

theorem receiveContent_local (s : Sys) (size : ℤ)
    (hd : F.device = true → SparedSince s (s.receiveContent env size).1) :
    Local F s (s.receiveContent env size).1 := by
  have hcall : Local F s (s.cgiContentReceived env size).1 := by
    refine cgiContentReceived_local s size fun ht size' remaining held m hhist => ?_
    specialize hd ht
    unfold receiveContent at hd
    generalize s.cgiContentReceived env size = r at hd hhist
    obtain ⟨s', consumed⟩ := r
    simp only at hd hhist
    let call : Obs := .call (.contentReceived size' remaining held) m
    split_ifs at hd
    · exact hd [call] hhist call (by simp)
    · refine hd [.consumed s'.contentSpan consumed, call] ?_ call (by simp)
      rw [(contentTaken_frame s' consumed).2.1, hhist]
      rfl
  unfold receiveContent
  generalize s.cgiContentReceived env size = r at hcall ⊢
  obtain ⟨s', consumed⟩ := r
  simp only
  split_ifs
  · exact hcall
  · refine hcall.trans ?_
    unfold contentTaken
    refine Local.trans ?_ (contentDone_local _)
    exact .same rfl rfl

theorem requestDone_local (hs : F.sessions = false) (s : Sys)
    (hd : F.device = true → SparedSince s (s.requestDone env)) :
    Local F s (s.requestDone env) := by
  have hend := @cgiRequestReceived_end env s
  unfold requestDone at hd ⊢
  simp only at hd ⊢
  have hcall : Local F s (s.cgiRequestReceived env) := by
    generalize s.cgiRequestReceived env = t at hend hd ⊢
    cases hend with
    | called m f hm hf =>
      have hsessions {P : Prop} (ht : F.sessions = true) : P := by
        rw [hs] at ht
        cases ht
      refine ⟨rfl, (Cgi.onRequestReceived_kept (fun ht => ?_) hsessions hf s.app).world⟩
      specialize hd ht
      let u := (s.note (.call .requestReceived m)).onApp (f env s.core)
      obtain ⟨new, hnew, he⟩ := u.noteSession_eq s
      have hhist : (u.noteSession s).core.hist = (new ++ [.call .requestReceived m]) ++ s.core.hist := by
        rw [he, List.append_assoc]
        rfl
      split_ifs at hd
      · exact hd _ hhist (.call .requestReceived m) (by simp)
      · exact hd _ hhist (.call .requestReceived m) (by simp)
    | ignored => exact .refl s
  split_ifs
  · exact hcall.trans (.same rfl rfl)
  · exact hcall

theorem sendBuffered_local (n : ℕ) (s : Sys) : Local F s (s.sendBuffered env n).1 := by
  induction n generalizing s with
  | zero => exact .refl s
  | succ n ih =>
    simp only [sendBuffered]
    split_ifs
    · exact .same rfl rfl
    · refine Local.trans ?_ (ih _)
      exact .same rfl rfl
    · exact .same rfl rfl
    · exact .refl s

theorem sendOrEnd_local (s : Sys) : Local F s (s.sendOrEnd env).1 := by
  have hsend := @sendBuffered_local env F s.app.bytesLeft.toNat s
  unfold sendOrEnd
  generalize s.sendBuffered env s.app.bytesLeft.toNat = r at hsend ⊢
  obtain ⟨s', b⟩ := r
  cases b
  · exact hsend.trans (.same rfl rfl)
  · exact hsend

theorem prepareHeader_local (s : Sys) : Local F s (s.prepareHeader env) := by
  let c := { s.core with tLastSent := s.app.stampNow env, sendMaxBlock := maxSendBufSize }
  let a := { s.app with dwOperStage := 0, dwOperIndex := 0 }
  exact ⟨rfl, (cgiSetResponseHeaders_kept env c a (codeInfo a.result)).world⟩

theorem sendHeader_local (s : Sys) : Local F s (s.sendHeader env).1 := by
  have hsend : Local F s ((s.prepareHeader env).sendOrEnd env).1 :=
    (prepareHeader_local s).trans (sendOrEnd_local _)
  unfold sendHeader
  generalize (s.prepareHeader env).sendOrEnd env = r at hsend ⊢
  obtain ⟨s', b⟩ := r
  cases b
  · exact hsend
  · exact hsend.trans (.same rfl rfl)

theorem cgiLoadContentToSend_local (s : Sys) (caller : Caller) :
    Local F s (s.cgiLoadContentToSend env caller).1 := by
  have hend := @cgiLoadContentToSend_end env s caller
  refine ⟨?_, hend.kept.world⟩
  generalize s.cgiLoadContentToSend env caller = r at hend ⊢
  cases hend <;> rfl

theorem sendBody_local (s : Sys) (caller : Caller) : Local F s (s.sendBody env caller) := by
  have hload := @cgiLoadContentToSend_local env F s caller
  unfold sendBody
  generalize s.cgiLoadContentToSend env caller = r at hload ⊢
  obtain ⟨s', n⟩ := r
  simp only
  split_ifs
  · exact hload.trans (sendOrEnd_local s')
  · exact hload.trans (.same rfl rfl)
  · exact hload

theorem closeFileHandle_local (s : Sys) : Local F s s.closeFileHandle := by
  refine ⟨rfl, ?_⟩
  simp only [closeFileHandle, onWork, onApp, App.onWork]
  split_ifs
  · exact .refl _
  · exact World.webFclose_grown _ _

theorem resetHttpContext_local (s : Sys) : Local F s (s.resetHttpContext env) := by
  let t := s.onWork fun w => w.logFile (.resetting s.core.sid w.ssiCtx.fp w.fileHandle)
  have hlog : Local F s t := ⟨rfl, World.logFile_grown _ rfl fun _ => trivial⟩
  have hclear : Local F t (t.clearRequest.touch env) := .same rfl rfl
  have hclose := @closeFileHandle_local F (t.clearRequest.touch env)
  exact ((hlog.trans hclear).trans hclose).trans ⟨rfl, World.logFile_grown _ rfl fun _ => trivial⟩

theorem cgiFinish_local (s : Sys) : Local F s s.cgiFinish := by
  unfold cgiFinish
  split
  next f hf =>
    obtain ⟨m, -, hm⟩ := Option.bind_eq_some_iff.mp hf
    exact ⟨rfl, (Cgi.onFinished_kept hm _).world⟩
  next => exact .refl s

theorem freeHttpContext_local (s : Sys) : Local F s s.freeHttpContext := by
  let finish := (s.core.handler.bind fun m => m.mapping.onFinished).isSome
  let t := s.onWork fun w => w.logFile (.freeing s.core.sid finish w.ssiCtx.fp w.fileHandle)
  have hlog : Local F s t := ⟨rfl, World.logFile_grown _ rfl fun _ => trivial⟩
  have hclear : Local F t.cgiFinish t.cgiFinish.clearRequest := .same rfl rfl
  have hclose := @closeFileHandle_local F t.cgiFinish.clearRequest
  have hall := ((hlog.trans (cgiFinish_local t)).trans hclear).trans hclose
  exact hall.trans ⟨rfl, World.logFile_grown _ rfl fun _ => trivial⟩

theorem onHttpAccept_local (s : Sys) (pcb ipRemote : ℕ) (https : Bool) :
    Local F s (s.onHttpAccept env pcb ipRemote https) := by
  have hget : Local F s (s.getHttpContext env) := by
    refine Local.trans ?_ (resetHttpContext_local _)
    exact .same rfl rfl
  exact hget.trans (.same rfl rfl)

theorem closePcb_local (s : Sys) : Local F s (s.closePcb env) := by
  unfold closePcb
  split
  · exact .refl s
  · exact .same rfl rfl

end Sys

/-- Every step of a connection is its own, and leaves the settings and the disk alone unless a
callback was noted that may change them. -/
theorem Micro.isLocal {d : Bool} {env : Env} {s t : Sys} (h : Micro env s t)
    (hd : d = true → s.SparedSince t) : Sys.Local ⟨d, false⟩ s t := by
  cases h with
  | background h =>
    obtain ⟨_, _, _, _, _, _, _, _, -, rfl⟩ := h.aside
    exact ⟨rfl, ⟨[], rfl, nofun⟩, le_rfl, fun _ => rfl, nofun⟩
  | begin => exact .same rfl rfl
  | requestLine _ line _ _ hl => exact Sys.requestLine_local hl
  | headerLine mem n => exact Sys.headerLine_local s mem n hd
  | emptyLine => exact .same rfl rfl
  | consumeHeader => exact .same rfl rfl
  | abort => exact .same rfl rfl
  | afterHeaders => exact Sys.afterHeaders_local s hd
  | chunk =>
    refine (Sys.receiveChunkLine_local s).trans (Sys.receiveContent_local _ _ fun ht => ?_)
    exact (hd ht).behind s.receiveChunkLine_hist
  | content => exact Sys.receiveContent_local s _ hd
  | requestDone => exact Sys.requestDone_local rfl s hd
  | flush => exact Sys.sendOrEnd_local s
  | sendHeader => exact Sys.sendHeader_local s
  | headerSent =>
    unfold Sys.headerSent
    split_ifs <;> exact .same rfl rfl
  | sendBody caller => exact Sys.sendBody_local s caller
  | reset => exact Sys.resetHttpContext_local s
  | close => exact (Sys.closePcb_local s).trans (Sys.freeHttpContext_local _)

theorem Steps.isLocal {env : Env} {s t : Sys} (h : Steps env s t) : Sys.Local .nothing s t :=
  h.keep (P := fun u => Sys.Local .nothing s u) (fun _ _ hm hu => hu.trans (hm.isLocal nofun)) (.refl s)

/-! ## Runs of the server are runs of its connections -/

theorem ConnReach.step {env : Env} {sid : ℕ} {s t : Sys} (h : ConnReach env sid s)
    (hstep : ConnStep env s t) : ConnReach env sid t := ReflTransGen.tail h hstep

theorem ConnReach.steps {env : Env} {sid : ℕ} {s t : Sys} (h : ConnReach env sid s)
    (hsteps : Steps env s t) : ConnReach env sid t := by
  induction hsteps with
  | refl => exact h
  | tail _ hstep ih => exact ih.step (.own hstep)

/-- What holds at the start and is kept by the steps of a connection, by an accept, by an error and by
any change of the globals holds whatever happens. -/
theorem ConnReach.invariant {env : Env} {sid : ℕ} {P : Sys → Prop} (h0 : P (Sys.zero sid World.boot))
    (hown : ∀ s t, Micro env s t → P s → P t)
    (haccept : ∀ s pcb ipRemote https, P s → P (s.onHttpAccept env pcb ipRemote https))
    (herror : ∀ s, P s → P s.onHttpError)
    (hothers : ∀ s w, P s → P (s.withWorld w)) {s : Sys} (h : ConnReach env sid s) : P s := by
  induction h with
  | refl => exact h0
  | tail _ hstep ih =>
    cases hstep with
    | own hm => exact hown _ _ hm ih
    | accept pcb ipRemote https hp => exact haccept _ pcb ipRemote https ih
    | error => exact herror _ ih
    | others w _ _ => exact hothers _ w ih

theorem ConnReach.sid_eq {env : Env} {sid : ℕ} {s : Sys} (h : ConnReach env sid s) :
    s.core.sid = sid :=
  h.invariant (P := fun s => s.core.sid = sid) rfl (fun _ _ hm hs => (@Micro.isLocal false _ _ _ hm nofun).sid.trans hs)
    (fun s pcb ipRemote https hs => (@Sys.onHttpAccept_local _ .nothing s pcb ipRemote https).sid.trans hs)
    (fun s hs => (@Sys.freeHttpContext_local .nothing s).sid.trans hs) fun _ _ hs => hs

theorem ConnReach.unanswered {env : Env} {sid : ℕ} {s : Sys} (h : ConnReach env sid s) :
    s.Unanswered :=
  h.invariant (fun _ => le_rfl) (fun _ _ hm hs => hm.unanswered hs) (fun _ _ _ _ _ _ => le_rfl)
    (fun _ _ _ => le_rfl) fun _ _ hs => hs

/-- What others log does not show in the part of the log that belongs to a connection. -/
theorem World.Grown.ofConn {sid sid' : ℕ} {w w' : World} (h : World.Grown .nothing sid' w w')
    (hne : sid ≠ sid') : FileEvent.ofConn sid w'.files.log = FileEvent.ofConn sid w.files.log := by
  obtain ⟨new, hlog, hsid⟩ := h.log
  have hnone : FileEvent.ofConn sid new = [] := by
    refine List.filter_eq_nil_iff.mpr fun e he => ?_
    rw [(hsid e he).1, beq_iff_eq]
    exact hne.symm
  rw [hlog, FileEvent.ofConn, List.filter_append]
  exact (congrArg (· ++ _) hnone).trans (List.nil_append _)

namespace Server

variable {env : Env}

/-- All connections of a server are where their own runs can have brought them. -/
def Connected (env : Env) (s : Server) : Prop := ∀ i : Fin maxConnections, ConnReach env i (s.conn i)

/-- A change of the globals that leaves the files alone. -/
theorem Connected.globals {s : Server} (h : Connected env s) {w : World}
    (hfiles : w.files = s.world.files) : Connected env { s with world := w } := by
  intro i
  refine (h i).step (.others (s.conn i) w ?_ ?_)
  · exact congrArg (fun f : Files => FileEvent.ofConn _ f.log) hfiles
  · exact (congrArg Files.opened hfiles).ge

/-- One connection goes on by itself. -/
theorem Connected.put {s : Server} (h : Connected env s) (j : Fin maxConnections) {t : Sys}
    (ht : ConnReach env j t) (hlocal : Sys.Local .nothing (s.conn j) t) : Connected env (s.put j t) := by
  intro i
  by_cases hij : i = j
  · subst hij
    have hconn : (s.put i t).conn i = t := by
      simp only [conn, Server.put, Function.update_self]
      rfl
    rw [hconn]
    exact ht
  · have hconn : (s.put j t).conn i = (s.conn i).withWorld t.app.world := by
      simp only [conn, Server.put, Function.update_of_ne hij]
      rfl
    rw [hconn]
    refine (h i).step (.others _ _ ?_ hlocal.world.opened)
    refine hlocal.world.ofConn ?_
    rw [(h i).sid_eq, (h j).sid_eq]
    exact fun he => hij (Fin.ext he)

theorem Connected.onConn {s : Server} (h : Connected env s) (j : Fin maxConnections) {f : Sys → Sys}
    (hf : ∀ t : Sys, t.Unanswered → t.core.pcb ≠ none → Steps env t (f t)) :
    Connected env (s.onConn j f) := by
  unfold Server.onConn
  split_ifs with hp
  · exact h
  · have hsteps := hf (s.conn j) (h j).unanswered hp
    exact h.put j ((h j).steps hsteps) hsteps.isLocal

theorem Connected.fire {s : Server} (h : Connected env s) (e : Event) :
    Connected env (s.fire env e) := by
  cases e with
  | accept pcb ipRemote https =>
    simp only [Server.fire]
    split
    next i hi =>
      have hfree : (s.conn i).core.pcb = none := of_decide_eq_true (Fin.eq_true_of_find?_eq_some hi)
      exact h.put i ((h i).step (.accept _ pcb ipRemote https hfree))
        (Sys.onHttpAccept_local _ pcb ipRemote https)
    next => exact h
  | receive i p => exact h.onConn i fun t ht hp => Sys.onHttpReceive_steps t _ ht hp
  | poll i => exact h.onConn i fun t ht _ => Sys.onHttpPoll_steps t ht
  | sent i len => exact h.onConn i fun t ht _ => Sys.onHttpSent_steps t len ht
  | error i =>
    simp only [Server.fire, Server.onConn]
    split_ifs
    · exact h
    · exact h.put i ((h i).step (.error _)) (Sys.freeHttpContext_local _)
  | sessionCheck tick => exact h.globals rfl
  | setMyIP addr => exact h.globals rfl
  | setGateway addr => exact h.globals rfl
  | setSubnet addr => exact h.globals rfl
  | listenHttps on => exact h.globals rfl

theorem Connected.handle {s : Server} (h : Connected env s) (e : Event) :
    Connected env (s.handle env e) :=
  (h.globals rfl : Connected env { s with world := s.world.asked }).fire e

/-- What an event makes of the connection that it reaches. -/
inductive Served (env : Env) (s : Sys) : Sys → Prop
  | steps {t : Sys} : Steps env s t → Served env s t
  | accept (pcb ipRemote : ℕ) (https : Bool) :
      Served env s (s.onHttpAccept env pcb ipRemote https)
  | error : Served env s s.onHttpError

theorem onConn_served {s : Server} {i : Fin maxConnections} {f : Sys → Sys}
    (hf : (s.ctx i).core.pcb ≠ none → Served env (s.conn i) (f (s.conn i))) :
    s.onConn i f = s ∨ ∃ t, Served env (s.conn i) t ∧ s.onConn i f = s.put i t := by
  unfold onConn
  split_ifs with hp
  · exact .inl rfl
  · exact .inr ⟨_, hf hp, rfl⟩

/-- An event of connection `i` changes nothing but its context and the globals. -/
theorem fire_served {s : Server} (hs : Connected env s) {e : Event} {i : Fin maxConnections}
    (he : s.Reaches i e) :
    s.fire env e = s ∨ ∃ t, Served env (s.conn i) t ∧ s.fire env e = s.put i t := by
  have hunanswered : (s.conn i).Unanswered := (hs i).unanswered
  cases e with
  | accept pcb ipRemote https =>
    have hfind : (Fin.find? fun j => decide ((s.ctx j).core.pcb = none)) = some i := he
    simp only [fire, hfind]
    exact .inr ⟨_, .accept pcb ipRemote https, rfl⟩
  | receive j p =>
    obtain rfl : j = i := he
    simp only [fire]
    exact onConn_served fun hp => .steps (Sys.onHttpReceive_steps _ _ hunanswered hp)
  | poll j =>
    obtain rfl : j = i := he
    exact onConn_served fun _ => .steps (Sys.onHttpPoll_steps _ hunanswered)
  | sent j len =>
    obtain rfl : j = i := he
    simp only [fire]
    exact onConn_served fun _ => .steps (Sys.onHttpSent_steps _ len hunanswered)
  | error j =>
    obtain rfl : j = i := he
    exact onConn_served fun _ => .error
  | _ => exact he.elim

/-- Whatever the server does, each of its connections goes through steps of its own. -/
theorem reach_conn {s : Server} (h : (runs env).Reach s) (i : Fin maxConnections) :
    ConnReach env i (s.conn i) := by
  have hall : Connected env s := by
    refine h.invariant (P := Connected env) ?_ ?_
    · rintro s rfl
      exact fun i => ReflTransGen.refl
    · rintro s e s' hs ⟨-, rfl⟩
      exact hs.handle e
  exact hall i

end Server

end StraightHttpd
