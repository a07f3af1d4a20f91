import StraightHttpd.Httpd.Server

/-! # Connections and contexts

lwIP gives a handler the argument that was set for the pcb, and the context remembers its pcb. Here
the server stands next to what lwIP holds: which pcbs live, and with which argument. The runs of both
together are runs of the server alone, since an event with a context always finds its pcb attached.
-/

set_option autoImplicit false

namespace StraightHttpd
open CMemory Relation

/-- An application pcb of lwIP: it is not allocated, or it has a callback argument, which is NULL or
a context. -/
inductive Pcb
  | dead
  | live (arg : Option (Fin maxConnections))
  deriving DecidableEq

/-- The server and lwIP. -/
structure Stack where
  server : Server
  pcbs : ℕ → Pcb

/-- What may happen next. -/
inductive StackEvent
  | accept (pcb ipRemote : ℕ) (https : Bool)
  | receive (pcb : ℕ) (p : Option RecvChain)
  | poll (pcb : ℕ)
  | sent (pcb len : ℕ)
  | error (pcb : ℕ)
  | sessionCheck (tick : ℕ)
  | setMyIP (addr : ℕ)
  | setGateway (addr : ℕ)
  | setSubnet (addr : ℕ)
  | listenHttps (on : Bool)

/-- What `CloseHttpContext` does to a pcb: the argument becomes NULL, and if `altcp_close` succeeds
the pcb is freed. -/
def closing (pcbs : ℕ → Pcb) : Obs → ℕ → Pcb
  | .closed pcb ok => Function.update pcbs pcb (if ok then .dead else .live none)
  | _ => pcbs

/-- The same for all that was noted, newest first. -/
def closings (pcbs : ℕ → Pcb) : List Obs → ℕ → Pcb
  | [] => pcbs
  | o :: hist => closing (closings pcbs hist) o

namespace Stack

variable (env : Env)

def onServer (s : Stack) (f : Server → Server) : Stack := { s with server := f s.server }

def setPcb (s : Stack) (pcb : ℕ) (p : Pcb) : Stack := { s with pcbs := Function.update s.pcbs pcb p }

/-- Time passes before an event. -/
def wait (s : Stack) : Stack := s.onServer fun x => { x with world := x.world.asked }

/-- The call of a handler with context `i`. -/
def call (s : Stack) (i : Fin maxConnections) (f : Sys → Sys) : Stack :=
  let t := f (s.server.conn i)
  { server := s.server.put i t
    pcbs := closings s.pcbs (t.notesSince (s.server.conn i)) }

/-- `OnHttpAccept`. Without a context the pcb is closed, or aborted if that fails. -/
def accept (s : Stack) (pcb ipRemote : ℕ) (https : Bool) : Stack :=
  match Fin.find? fun i => decide ((s.server.ctx i).core.pcb = none) with
  | some i => (s.call i fun t => t.onHttpAccept env pcb ipRemote https).setPcb pcb (.live (some i))
  | none => s

/-- A callback with the argument of the pcb. With NULL, `OnHttpReceive` drops the data, while
`OnHttpPoll` and `OnHttpSent` close the pcb once more and abort it if that fails. -/
def callback (s : Stack) (pcb : ℕ) (detached : Pcb) (f : Sys → Sys) : Stack :=
  match s.pcbs pcb with
  | .live (some i) => s.call i f
  | .live none => s.setPcb pcb detached
  | .dead => s

/-- The effect of an event. -/
def fire (s : Stack) : StackEvent → Stack
  | .accept pcb ipRemote https => s.accept env pcb ipRemote https
  | .receive pcb p =>
    s.callback pcb (.live none) fun t => t.onHttpReceive env (p.map fun p => p.pbufs)
  | .poll pcb => s.callback pcb .dead fun t => t.onHttpPoll env
  | .sent pcb len => s.callback pcb .dead fun t => t.onHttpSent env len
  | .error pcb => (s.callback pcb .dead fun t => t.onHttpError).setPcb pcb .dead
  | .sessionCheck tick => s.onServer fun x => x.fire env (.sessionCheck tick)
  | .setMyIP addr => s.onServer fun x => x.fire env (.setMyIP addr)
  | .setGateway addr => s.onServer fun x => x.fire env (.setGateway addr)
  | .setSubnet addr => s.onServer fun x => x.fire env (.setSubnet addr)
  | .listenHttps on => s.onServer fun x => x.fire env (.listenHttps on)

/-- lwIP accepts with a new pcb and calls back for live ones. -/
def Possible (s : Stack) : StackEvent → Prop
  | .accept pcb _ _ => s.pcbs pcb = .dead
  | .receive pcb _ | .poll pcb | .sent pcb _ | .error pcb => s.pcbs pcb ≠ .dead
  | _ => True

/-- After `HttpdInit`. -/
def boot : Stack := { server := Server.boot, pcbs := fun _ => .dead }

/-- Runs of both. -/
def runs : RunSystem Stack StackEvent where
  init s := s = boot
  step s e s' := s.server.world.fault = false ∧ s.Possible e ∧ s' = s.wait.fire env e

end Stack

/-! ## Contexts without a connection -/

/-- Nothing is left in the context. -/
structure Sys.Vacant (s : Sys) : Prop where
  queue : s.core.rx.reqBufList = []
  length : s.core.rx.requestLength = 0
  handler : s.core.handler = none
  fileHandle : s.app.fileHandle = .null

/-- The invariant of a context. -/
def Sys.VacantUnlessOpen (s : Sys) : Prop :=
  s.core.pcb = none → s.Vacant ∧ s.core.state = .idle

namespace Sys

variable {env : Env} {s t : Sys}

theorem freeHttpContext_vacant (s : Sys) : s.freeHttpContext.VacantUnlessOpen :=
  fun _ => ⟨⟨rfl, rfl, rfl, rfl⟩, rfl⟩

/-- A context without a connection stays as it is. -/
theorem VacantUnlessOpen.same (h : s.VacantUnlessOpen) (hpcb : t.core.pcb = s.core.pcb)
    (hrx : t.core.rx = s.core.rx) (hhandler : t.core.handler = s.core.handler)
    (hfile : t.app.fileHandle = s.app.fileHandle) (hstate : t.core.state = s.core.state) :
    t.VacantUnlessOpen := by
  intro hp
  obtain ⟨⟨hqueue, hlength, hnone, hnull⟩, hidle⟩ := h (hpcb.symm.trans hp)
  exact ⟨⟨hrx ▸ hqueue, hrx ▸ hlength, hhandler.trans hnone, hfile.trans hnull⟩, hstate.trans hidle⟩

/-- Steps of a connection that is not idle. -/
theorem VacantUnlessOpen.busy (h : s.VacantUnlessOpen) (hstate : s.core.state ≠ .idle)
    (hpcb : t.core.pcb = s.core.pcb) : t.VacantUnlessOpen :=
  fun hp => absurd (h (hpcb.symm.trans hp)).2 hstate

theorem VacantUnlessOpen.onSession (h : s.VacantUnlessOpen)
    (f : SessionTable → Fin maxSessions → SessionTable) : (s.onSession f).VacantUnlessOpen := by
  unfold Sys.onSession
  split
  · simp only
    split_ifs <;> exact h.same rfl rfl rfl rfl rfl
  · exact h

theorem VacantUnlessOpen.background (h : s.VacantUnlessOpen) (hstep : Background env s t) :
    t.VacantUnlessOpen := by
  cases hstep with
  | asked => exact h.same rfl rfl rfl rfl rfl
  | fault => exact h.same rfl rfl rfl rfl rfl
  | touch => exact h.same rfl rfl rfl rfl rfl
  | peerClosing => exact h.same rfl rfl rfl rfl rfl
  | received tick => exact h.onSession _
  | sent tick => exact h.onSession _
  | acknowledged => exact h.same rfl rfl rfl rfl rfl
  | receive p hp => exact fun hnone => absurd hnone hp
  | dequeue =>
    intro hp
    obtain ⟨⟨hqueue, hlength, hhandler, hfile⟩, hidle⟩ := h hp
    have hrx : s.dequeue.core.rx = s.core.rx := by
      change s.core.rx.dequeue = _
      rw [Rx.dequeue, if_pos hqueue]
    exact ⟨⟨hrx ▸ hqueue, hrx ▸ hlength, hhandler, hfile⟩, hidle⟩

end Sys

theorem Micro.vacant {env : Env} {s t : Sys} (hstep : Micro env s t) (h : s.VacantUnlessOpen) :
    t.VacantUnlessOpen := by
  rcases hstep.staysOpen with rfl | ⟨hpcb, -⟩
  · exact Sys.freeHttpContext_vacant _
  have hlate (hs : s.core.state.Received) : t.VacantUnlessOpen :=
    h.busy (fun hi => absurd (hi ▸ hs) (by decide)) hpcb
  cases hstep with
  | background hb => exact h.background hb
  | begin hs hlength =>
    refine fun hp => absurd (h (hpcb.symm.trans hp)).1.length ?_
    exact hlength.ne'
  | requestLine _ _ hs => exact h.busy (by rw [hs]; nofun) hpcb
  | headerLine _ _ hs => exact h.busy (by rw [hs]; nofun) hpcb
  | emptyLine hs => exact h.busy (by rw [hs]; nofun) hpcb
  | consumeHeader _ hs => exact h.busy (by rcases hs with hs | hs <;> rw [hs] <;> nofun) hpcb
  | abort => exact h.same rfl rfl rfl rfl rfl
  | afterHeaders hs => exact h.busy (by rw [hs]; nofun) hpcb
  | chunk hs => exact h.busy (by rw [hs]; nofun) hpcb
  | content hs => exact h.busy (by rcases hs with hs | hs <;> rw [hs] <;> nofun) hpcb
  | requestDone hs => exact h.busy (by rw [hs]; nofun) hpcb
  | flush hs => exact hlate hs
  | sendHeader hs => exact hlate hs
  | headerSent hs => exact h.busy (by rw [hs]; nofun) hpcb
  | sendBody _ hs => exact h.busy (by rw [hs]; nofun) hpcb
  | reset hs => exact h.busy (by rw [hs]; nofun) hpcb
  | close => exact Sys.freeHttpContext_vacant _

theorem ConnReach.vacant {env : Env} {sid : ℕ} {s : Sys} (h : ConnReach env sid s) :
    s.VacantUnlessOpen := by
  refine h.invariant (P := Sys.VacantUnlessOpen) ?_ (fun _ _ hstep hs => hstep.vacant hs) ?_ ?_ ?_
  · exact fun _ => ⟨⟨rfl, rfl, rfl, rfl⟩, rfl⟩
  · exact fun _ _ _ _ _ hp => by cases hp
  · exact fun s _ => s.freeHttpContext_vacant
  · exact fun _ _ hs => hs.same rfl rfl rfl rfl rfl

/-! ## What a handler does to the pcb -/

theorem closings_append (pcbs : ℕ → Pcb) (new hist : List Obs) :
    closings pcbs (new ++ hist) = closings (closings pcbs hist) new := by
  induction new with
  | nil => rfl
  | cons o new ih => exact congrArg (closing · o) ih

theorem closings_open (pcbs : ℕ → Pcb) {new : List Obs} (h : ∀ o ∈ new, Obs.Open o) :
    closings pcbs new = pcbs := by
  induction new with
  | nil => rfl
  | cons o new ih =>
    have ho := h o List.mem_cons_self
    have hnew := ih fun o' ho' => h o' (List.mem_cons_of_mem _ ho')
    rw [closings, hnew]
    cases o <;> first | rfl | exact ho.elim

/-- A connection with pcb `p` goes on, or it was closed. -/
def Fate (p : ℕ) (s t : Sys) : Prop :=
  ∃ new, t.core.hist = new ++ s.core.hist ∧
    (t.core.pcb = some p ∧ (∀ pcbs, closings pcbs new = pcbs) ∨
      t.core.pcb = none ∧ ∃ q, (∀ i, q ≠ .live (some i)) ∧
        ∀ pcbs, closings pcbs new = Function.update pcbs p q)

theorem Fate.close {env : Env} {p : ℕ} {s t : Sys} (h : Fate p s t) :
    Fate p s (t.closeHttpContext env) := by
  obtain ⟨new, hhist, hcases⟩ := h
  have hfreed := (t.closePcb env).freeHttpContext_hist
  rcases hcases with ⟨hpcb, hopen⟩ | ⟨hpcb, q, hq, hclosed⟩
  · let ok := env.closePcb t.app.world.calls
    have hnoted : (t.closePcb env).core.hist = .closed p ok :: t.core.hist := by
      unfold Sys.closePcb
      rw [hpcb]
      rfl
    refine ⟨.freed :: .closed p ok :: new, ?_, .inr ⟨rfl, if ok then .dead else .live none, ?_, ?_⟩⟩
    · change (t.closePcb env).freeHttpContext.core.hist = _
      rw [hfreed, hnoted, hhist]
      rfl
    · intro i
      split_ifs <;> nofun
    · intro pcbs
      exact congrArg (closing · (.closed p ok)) (hopen pcbs)
  · have hnoted : (t.closePcb env).core.hist = t.core.hist := by
      unfold Sys.closePcb
      rw [hpcb]
    refine ⟨.freed :: new, ?_, .inr ⟨rfl, q, hq, hclosed⟩⟩
    change (t.closePcb env).freeHttpContext.core.hist = _
    rw [hfreed, hnoted, hhist]
    rfl

theorem Fate.staysOpen {p : ℕ} {s t u : Sys} (h : Fate p s t) (hu : t.StaysOpen u) : Fate p s u := by
  obtain ⟨new, hhist, hcases⟩ := h
  obtain ⟨hpcb, new', hopen', hhist'⟩ := hu
  refine ⟨new' ++ new, by rw [hhist', hhist, List.append_assoc], ?_⟩
  have hsame (pcbs : ℕ → Pcb) : closings pcbs (new' ++ new) = closings pcbs new := by
    rw [closings_append, closings_open _ hopen']
  rcases hcases with ⟨hp, hopen⟩ | ⟨hp, q, hq, hclosed⟩
  · exact .inl ⟨hpcb.trans hp, fun pcbs => (hsame pcbs).trans (hopen pcbs)⟩
  · exact .inr ⟨hpcb.trans hp, q, hq, fun pcbs => (hsame pcbs).trans (hclosed pcbs)⟩

theorem Steps.fate {env : Env} {p : ℕ} {s t : Sys} (h : Steps env s t) (hp : s.core.pcb = some p) :
    Fate p s t := by
  refine h.keep (P := Fate p s) (fun u v hstep hu => ?_) ?_
  · rcases hstep.staysOpen with rfl | hopen
    · exact hu.close
    · exact hu.staysOpen hopen
  · exact ⟨[], rfl, .inl ⟨hp, fun _ => rfl⟩⟩

/-! ## The pairing -/

/-- Every live pcb has NULL or its own context for an argument, every context with a pcb is the
argument of exactly that one, and nothing is left in a context without. -/
structure Paired (s : Stack) : Prop where
  arg : ∀ pcb i, s.pcbs pcb = .live (some i) → (s.server.ctx i).core.pcb = some pcb
  context : ∀ i pcb, (s.server.ctx i).core.pcb = some pcb → s.pcbs pcb = .live (some i)
  unshared : ∀ pcb pcb' i, s.pcbs pcb = .live (some i) → s.pcbs pcb' = .live (some i) → pcb = pcb'
  vacant : ∀ i, (s.server.ctx i).core.pcb = none → (s.server.ctx i).Vacant

namespace Stack

variable {env : Env} {s : Stack}

/-- The pcbs and the contexts point at each other. -/
def Linked (s : Stack) : Prop :=
  ∀ pcb i, s.pcbs pcb = .live (some i) ↔ (s.server.ctx i).core.pcb = some pcb

theorem Linked.paired (h : s.Linked) (hr : (Server.runs env).Reach s.server) : Paired s where
  arg pcb i := (h pcb i).mp
  context i pcb := (h pcb i).mpr
  unshared pcb pcb' i hp hp' :=
    Option.some.inj (((h pcb i).mp hp).symm.trans ((h pcb' i).mp hp'))
  vacant i hp := by
    obtain ⟨hqueue, hlength, hhandler, hfile⟩ := ((Server.reach_conn hr i).vacant hp).1
    exact ⟨hqueue, hlength, hhandler, hfile⟩

/-- A pcb that no context has may live with NULL or be freed. -/
theorem Linked.setPcb (h : s.Linked) {pcb : ℕ} {q : Pcb} (hq : ∀ i, q ≠ .live (some i))
    (hp : ∀ i, (s.server.ctx i).core.pcb ≠ some pcb) : (s.setPcb pcb q).Linked := by
  intro pcb' i
  simp only [Stack.setPcb]
  by_cases he : pcb' = pcb
  · subst he
    rw [Function.update_self]
    exact ⟨fun hl => absurd hl (hq i), fun hl => absurd hl (hp i)⟩
  · rw [Function.update_of_ne he]
    exact h pcb' i

/-- The call of a handler for an attached pcb. -/
theorem Linked.call (h : s.Linked) {pcb : ℕ} {i : Fin maxConnections}
    (hp : s.pcbs pcb = .live (some i)) {f : Sys → Sys}
    (hfate : Fate pcb (s.server.conn i) (f (s.server.conn i))) : (s.call i f).Linked := by
  have hpcb := (h pcb i).mp hp
  obtain ⟨new, hhist, hcases⟩ := hfate
  intro pcb' j
  simp only [Stack.call, Server.put, Sys.notesSince_eq hhist]
  by_cases hj : j = i
  · subst hj
    rw [Function.update_self]
    rcases hcases with ⟨hpcb', hopen⟩ | ⟨hpcb', q, hq, hclosed⟩
    · rw [hopen, hpcb']
      exact (h pcb' j).trans (by rw [hpcb])
    · rw [hclosed, hpcb']
      by_cases he : pcb' = pcb
      · subst he
        rw [Function.update_self]
        exact ⟨fun hl => absurd hl (hq j), fun he => by cases he⟩
      · rw [Function.update_of_ne he, h pcb' j, hpcb]
        exact ⟨fun hl => absurd (Option.some.inj hl).symm he, fun hl => (by cases hl)⟩
  · rw [Function.update_of_ne hj]
    rcases hcases with ⟨-, hopen⟩ | ⟨-, q, hq, hclosed⟩
    · rw [hopen]
      exact h pcb' j
    · rw [hclosed]
      by_cases he : pcb' = pcb
      · subst he
        rw [Function.update_self]
        refine ⟨fun hl => absurd hl (hq j), fun hl => ?_⟩
        have hboth := ((h pcb' j).mpr hl).symm.trans hp
        cases hboth
        exact absurd rfl hj
      · rw [Function.update_of_ne he]
        exact h pcb' j

/-- A pcb that is dead or has no context is not the pcb of any context. -/
theorem Linked.not_attached (h : s.Linked) {pcb : ℕ} (hp : ∀ i, s.pcbs pcb ≠ .live (some i))
    (i : Fin maxConnections) : (s.server.ctx i).core.pcb ≠ some pcb :=
  fun hpcb => hp i ((h pcb i).mpr hpcb)

theorem Linked.callback (h : s.Linked) {pcb : ℕ} {q : Pcb} (hq : ∀ i, q ≠ .live (some i))
    {f : Sys → Sys}
    (hf : ∀ i, s.pcbs pcb = .live (some i) → Fate pcb (s.server.conn i) (f (s.server.conn i))) :
    (s.callback pcb q f).Linked := by
  unfold Stack.callback
  split
  next i hp => exact h.call hp (hf i hp)
  next hp => exact h.setPcb hq (h.not_attached fun i => by rw [hp]; exact fun he => by cases he)
  next => exact h

theorem Linked.accept (h : s.Linked) {pcb : ℕ} (hp : s.pcbs pcb = .dead) (ipRemote : ℕ)
    (https : Bool) : (s.accept env pcb ipRemote https).Linked := by
  unfold Stack.accept
  split
  next i hi =>
    have hfree : (s.server.ctx i).core.pcb = none := of_decide_eq_true (Fin.eq_true_of_find?_eq_some hi)
    have hhist : ((s.server.conn i).onHttpAccept env pcb ipRemote https).core.hist =
        [.accepted, .reset] ++ (s.server.conn i).core.hist := rfl
    intro pcb' j
    simp only [Stack.call, Stack.setPcb, Server.put, Sys.notesSince_eq hhist]
    change Function.update s.pcbs pcb (.live (some i)) pcb' = _ ↔ _
    by_cases hj : j = i
    · subst hj
      rw [Function.update_self]
      by_cases he : pcb' = pcb
      · subst he
        rw [Function.update_self]
        exact ⟨fun _ => rfl, fun _ => rfl⟩
      · rw [Function.update_of_ne he, h pcb' j, hfree]
        exact ⟨fun hl => (by cases hl), fun hl => absurd (Option.some.inj hl).symm he⟩
    · rw [Function.update_of_ne hj]
      by_cases he : pcb' = pcb
      · subst he
        rw [Function.update_self]
        refine ⟨fun hl => ?_, fun hl => absurd hl ?_⟩
        · cases hl
          exact absurd rfl hj
        · exact h.not_attached (fun i => by rw [hp]; exact fun he => by cases he) j
      · rw [Function.update_of_ne he]
        exact h pcb' j
  next => exact h

/-- lwIP frees the pcb after `OnHttpError`. -/
theorem Linked.error (h : s.Linked) (pcb : ℕ) :
    ((s.callback pcb .dead fun t => t.onHttpError).setPcb pcb .dead).Linked := by
  have hdead (i : Fin maxConnections) : Pcb.dead ≠ .live (some i) := fun he => by cases he
  unfold Stack.callback
  split
  next i hp =>
    have hpcb := (h pcb i).mp hp
    have hhist : (s.server.conn i).onHttpError.core.hist = [.freed] ++ (s.server.conn i).core.hist :=
      (s.server.conn i).freeHttpContext_hist
    intro pcb' j
    simp only [Stack.call, Stack.setPcb, Server.put, Sys.notesSince_eq hhist]
    change Function.update s.pcbs pcb .dead pcb' = _ ↔ _
    by_cases hj : j = i
    · subst hj
      rw [Function.update_self]
      refine ⟨fun hl => absurd hl ?_, fun he => by cases he⟩
      by_cases he : pcb' = pcb
      · subst he
        rw [Function.update_self]
        exact hdead j
      · rw [Function.update_of_ne he, h pcb' j, hpcb]
        exact fun hl => he (Option.some.inj hl).symm
    · rw [Function.update_of_ne hj]
      by_cases he : pcb' = pcb
      · subst he
        rw [Function.update_self]
        refine ⟨fun hl => absurd hl (hdead j), fun hl => ?_⟩
        have hboth := ((h pcb' j).mpr hl).symm.trans hp
        cases hboth
        exact absurd rfl hj
      · rw [Function.update_of_ne he]
        exact h pcb' j
  next hp =>
    have hfree := h.not_attached fun i => by rw [hp]; exact fun he => by cases he
    exact (h.setPcb hdead hfree).setPcb hdead hfree
  next hp => exact h.setPcb hdead (h.not_attached fun i => by rw [hp]; exact hdead i)

/-- Nothing but time passes for the server. -/
theorem handle_idle (s : Server) :
    s.handle env (.listenHttps s.world.httpsListening) = { s with world := s.world.asked } := rfl

/-- What a callback does to the server is what the event does to it, or nothing. -/
theorem callback_server (h : s.Linked) (pcb : ℕ) (q : Pcb) (f : Sys → Sys) :
    (∃ i, (s.callback pcb q f).server = s.server.onConn i f) ∨
      (s.callback pcb q f).server = s.server := by
  unfold Stack.callback
  split
  next i hp =>
    have hpcb := (h pcb i).mp hp
    refine .inl ⟨i, ?_⟩
    rw [Server.onConn, if_neg (by rw [hpcb]; exact Option.some_ne_none _)]
    rfl
  next => exact .inr rfl
  next => exact .inr rfl

theorem accept_server (s : Stack) (pcb ipRemote : ℕ) (https : Bool) :
    (s.accept env pcb ipRemote https).server = s.server.fire env (.accept pcb ipRemote https) := by
  simp only [Stack.accept, Server.fire]
  generalize (Fin.find? fun i => decide ((s.server.ctx i).core.pcb = none)) = r
  cases r <;> rfl

theorem Linked.wait (h : s.Linked) : s.wait.Linked := h

/-- Each event of lwIP is an event of the server. -/
theorem step_server (h : s.Linked) (e : StackEvent) :
    ∃ e', (s.wait.fire env e).server = s.server.handle env e' := by
  have hcall (pcb : ℕ) (q : Pcb) (f : Sys → Sys) (event : Fin maxConnections → Event)
      (hevent : ∀ i, s.server.handle env (event i) = s.wait.server.onConn i f) :
      ∃ e', (s.wait.callback pcb q f).server = s.server.handle env e' := by
    rcases callback_server h.wait pcb q f with ⟨i, hi⟩ | hi
    · exact ⟨event i, hi.trans (hevent i).symm⟩
    · exact ⟨_, hi.trans (handle_idle s.server).symm⟩
  cases e with
  | accept pcb ipRemote https =>
    exact ⟨.accept pcb ipRemote https, accept_server s.wait pcb ipRemote https⟩
  | receive pcb p => exact hcall pcb _ _ (fun i => .receive i p) fun _ => rfl
  | poll pcb => exact hcall pcb _ _ .poll fun _ => rfl
  | sent pcb len => exact hcall pcb _ _ (fun i => .sent i len) fun _ => rfl
  | error pcb => exact hcall pcb _ _ .error fun _ => rfl
  | sessionCheck tick => exact ⟨.sessionCheck tick, rfl⟩
  | setMyIP addr => exact ⟨.setMyIP addr, rfl⟩
  | setGateway addr => exact ⟨.setGateway addr, rfl⟩
  | setSubnet addr => exact ⟨.setSubnet addr, rfl⟩
  | listenHttps on => exact ⟨.listenHttps on, rfl⟩

/-- The handlers that lwIP calls with a context close its pcb or leave it. -/
theorem step_linked (h : s.Linked) (hr : (Server.runs env).Reach s.server) {e : StackEvent}
    (hp : s.Possible e) : (s.wait.fire env e).Linked := by
  have hunanswered (i : Fin maxConnections) : (s.wait.server.conn i).Unanswered :=
    (Server.reach_conn hr i).unanswered
  have hpcb {pcb : ℕ} {i : Fin maxConnections} (hi : s.wait.pcbs pcb = .live (some i)) :
      (s.wait.server.conn i).core.pcb = some pcb := (h pcb i).mp hi
  have hdead (i : Fin maxConnections) : Pcb.dead ≠ .live (some i) := fun he => by cases he
  cases e with
  | accept pcb ipRemote https => exact h.wait.accept hp ipRemote https
  | receive pcb p =>
    have hdetached (i : Fin maxConnections) : Pcb.live none ≠ .live (some i) := fun he => by cases he
    refine h.wait.callback hdetached fun i hi => ?_
    have hattached := hpcb hi
    exact (Sys.onHttpReceive_steps _ _ (hunanswered i) (by rw [hattached]; exact Option.some_ne_none _)).fate hattached
  | poll pcb =>
    exact h.wait.callback hdead fun i hi => (Sys.onHttpPoll_steps _ (hunanswered i)).fate (hpcb hi)
  | sent pcb len =>
    exact h.wait.callback hdead fun i hi =>
      (Sys.onHttpSent_steps _ len (hunanswered i)).fate (hpcb hi)
  | error pcb => exact h.wait.error pcb
  | sessionCheck tick => exact h
  | setMyIP addr => exact h
  | setGateway addr => exact h
  | setSubnet addr => exact h
  | listenHttps on => exact h

theorem reach_linked (h : (runs env).Reach s) :
    s.Linked ∧ (Server.runs env).Reach s.server := by
  refine h.invariant (P := fun s => s.Linked ∧ (Server.runs env).Reach s.server) ?_ ?_
  · rintro s rfl
    exact ⟨fun _ _ => ⟨fun he => (by cases he), fun he => (by cases he)⟩, .init rfl⟩
  · rintro s e s' ⟨hlinked, hreach⟩ ⟨hfault, hp, rfl⟩
    obtain ⟨e', he'⟩ := @step_server env s hlinked e
    refine ⟨step_linked hlinked hreach hp, ?_⟩
    rw [he']
    exact hreach.step e' ⟨hfault, rfl⟩

/-- In every run, connections and contexts are paired one to one. -/
theorem pairing (env : Env) {s : Stack} (h : (runs env).Reach s) : Paired s :=
  have hlinked := reach_linked h
  hlinked.1.paired hlinked.2

/-- Surroundings in which no pcb can be closed at once. -/
def stubborn : Env := { Env.calm [] with closePcb := fun _ => false }

def accepted : Stack := boot.wait.fire stubborn (.accept 7 1 false)

/-- The peer has closed, and the context is detached. -/
def detached : Stack := accepted.wait.fire stubborn (.receive 7 none)

theorem pairing_detached : Paired detached := by
  have haccepted : (runs stubborn).Reach accepted :=
    .step (.accept 7 1 false) (.init rfl) ⟨rfl, rfl, rfl⟩
  have hlive : accepted.pcbs 7 ≠ .dead := by decide +kernel
  have hfault : accepted.server.world.fault = false := by decide +kernel
  exact pairing stubborn (haccepted.step (.receive 7 none) ⟨hfault, hlive, rfl⟩)

end Stack

end StraightHttpd
