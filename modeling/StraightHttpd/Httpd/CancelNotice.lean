import StraightHttpd.Httpd.AccessGate

/-! # The cancel notification

`CGI_Cancel` tells the mapping of a request that the connection is lost to it. Four events call it:
a timeout and an error of the connection do so before they close it, and all events but the error
look at the result that `HttpRequestProc` leaves. A result from -500 down closes the connection in
the same event. A 404 does not: its header is still to be delivered.
-/

set_option autoImplicit false

namespace StraightHttpd
open CMemory

/-! ## `CGI_Cancel` -/

/-- The mappings with an `OnCancel`. -/
def Cgi.onCancel : Cgi → Bool
  | .upload => true
  | _ => false

/-- Why `CGI_Cancel` is called. -/
inductive CancelCause
  | timeout
  | error
  | result (r : ℤ)
  deriving DecidableEq, Repr

/-- The request is given up. -/
def CancelCause.Fatal : CancelCause → Prop
  | .timeout | .error => True
  | .result r => r ≤ -500

instance (c : CancelCause) : Decidable c.Fatal := by
  cases c <;> simp only [CancelCause.Fatal] <;> infer_instance

/-- A call of `OnCancel`, in the request of that number. -/
structure CancelCall where
  request : ℕ
  cause : CancelCause
  deriving DecidableEq, Repr

def Obs.isBegin : Obs → Bool
  | .begin => true
  | _ => false

/-- The requests that a history has seen begin. -/
def begun (hist : List Obs) : ℕ := hist.countP Obs.isBegin

namespace Sys

variable (env : Env)

/-- `CGI_Cancel` -/
def cgiCancel (s : Sys) (cause : CancelCause) : List CancelCall :=
  match s.core.handler with
  | some m => if m.onCancel then [⟨begun s.core.hist, cause⟩] else []
  | none => []

/-- The call of `CGI_Cancel` behind `HttpRequestProc`, for results from `bound` down. -/
def cancelFrom (s : Sys) (bound : ℤ) : List CancelCall :=
  if s.app.result ≤ bound then s.cgiCancel (.result s.app.result) else []

/-- `OnHttpReceive`, its calls of `OnCancel`. -/
def cancelInReceive (s : Sys) (p : Option (List Pbuf)) : List CancelCall :=
  match s.beforeReceive env p with
  | some s => (s.httpRequestProc env .recv).cancelFrom (-400)
  | none => []

/-- `OnHttpPoll`, its calls of `OnCancel`. -/
def cancelInPoll (s : Sys) : List CancelCall :=
  if s.isContextTimeout env then s.cgiCancel .timeout
  else (s.httpRequestProc env .poll).cancelFrom (-1)

/-- `OnHttpSent`, its calls of `OnCancel`. -/
def cancelInSent (s : Sys) (len : ℕ) : List CancelCall :=
  ((s.beforeSent env len).httpRequestProc env .sent).cancelFrom (-1)

end Sys

namespace Server

variable (env : Env) (i : Fin maxConnections)

/-- The calls that an event for connection `j` makes on connection `i`. -/
def tell (s : Server) (j : Fin maxConnections) (f : Sys → List CancelCall) : List CancelCall :=
  if j ≠ i ∨ (s.ctx j).core.pcb = none then [] else f (s.conn j)

/-- The calls of `OnCancel` on connection `i` in an event. -/
def fireCancels (s : Server) : Event → List CancelCall
  | .receive j p => s.tell i j fun c => c.cancelInReceive env (p.map fun p => p.pbufs)
  | .poll j => s.tell i j fun c => c.cancelInPoll env
  | .sent j len => s.tell i j fun c => c.cancelInSent env len
  | .error j => s.tell i j fun c => c.cgiCancel .error
  | _ => []

/-- Time passes before an event. -/
def cancels (s : Server) (e : Event) : List CancelCall :=
  { s with world := s.world.asked }.fireCancels env i e

end Server

/-- A server, and the calls of `OnCancel` so far with the server that the event left behind, latest
first. -/
structure Watched where
  server : Server
  cancels : List (CancelCall × Server)

namespace Watched

variable (env : Env) (i : Fin maxConnections)

def handle (w : Watched) (e : Event) : Watched :=
  let after := w.server.handle env e
  ⟨after, (w.server.cancels env i e).map (fun c => (c, after)) ++ w.cancels⟩

/-- Runs of the server, with the calls of `OnCancel` on connection `i`. -/
def runs : RunSystem Watched Event where
  init w := w = ⟨Server.boot, []⟩
  step w e w' := w.server.world.fault = false ∧ w' = w.handle env i e

/-- No request has more than one call, and every call is one for a request that is given up: the
event closes the connection. -/
def OneTimeFatal (w : Watched) : Prop :=
  w.cancels.Pairwise (fun c d => c.1.request ≠ d.1.request) ∧
    ∀ c ∈ w.cancels, c.1.cause.Fatal ∧ (c.2.ctx i).core.pcb = none

instance (w : Watched) : Decidable (w.OneTimeFatal i) := inferInstanceAs (Decidable (_ ∧ _))

/-- After `SetupHttpContext`, and after the events in order. -/
def play (es : List Event) : Watched := es.foldl (handle env i) ⟨Server.boot, []⟩

end Watched

/-- A `GET` for the upload mapping that is not redirected. It is answered with a 404. -/
def Gate.GetsUpload (g : Gate) : Prop :=
  g.handler = some .upload ∧ g.method = some .get ∧ ¬ g.Redirected .upload

instance (g : Gate) : Decidable g.GetsUpload := inferInstanceAs (Decidable (_ ∧ _))

def Obs.GetsUpload : Obs → Prop
  | .headers g => g.GetsUpload
  | _ => False

def Obs.getsUpload : Obs → Bool
  | .headers g => decide g.GetsUpload
  | _ => false

theorem Obs.getsUpload_iff (o : Obs) : o.getsUpload = true ↔ o.GetsUpload := by
  cases o <;> simp [Obs.getsUpload, Obs.GetsUpload]

instance (o : Obs) : Decidable o.GetsUpload := decidable_of_iff _ o.getsUpload_iff

/-- No request of the history is one of those. -/
def NoGetsUpload (hist : List Obs) : Prop := ∀ o ∈ hist, ¬ o.GetsUpload

instance (hist : List Obs) : Decidable (NoGetsUpload hist) := inferInstanceAs (Decidable (∀ _ ∈ _, _))

namespace Sys

variable {env : Env}

/-! ## The loop sends nothing -/

/-- Nothing has begun to be sent since `s`. -/
def Quiet (s t : Sys) : Prop := t.core.sending = true → s.core.sending = true

theorem Quiet.refl (s : Sys) : Quiet s s := id

theorem Quiet.trans {s t u : Sys} (h : Quiet s t) (h' : Quiet t u) : Quiet s u := fun hu => h (h' hu)

theorem Quiet.of_eq {s t : Sys} (h : t.core.sending = s.core.sending) : Quiet s t := fun ht => h ▸ ht

theorem requestLine_sending {s s' : Sys} {line : Bytes} (h : s.requestLine line = some s') :
    s'.core.sending = s.core.sending := by
  obtain ⟨method, m, q, rfl⟩ := requestLine_eq h
  obtain ⟨handler, hcore⟩ := (s.setTarget method m q).cgiSetCgiHandler_core
  rw [hcore]
  rfl

theorem headerLine_sending (s : Sys) (mem : Bytes) (n : ℕ) :
    (s.headerLine env mem n).core.sending = s.core.sending := by
  unfold headerLine
  split_ifs
  case neg => rw [cgiHeaderReceived_core]; rfl
  all_goals rfl

theorem headerLines_quiet (n : ℕ) (s : Sys) (nLinePos : ℕ) :
    Quiet s (s.headerLines env n nLinePos).1 := by
  induction n generalizing s nLinePos with
  | zero => exact .refl s
  | succ n ih =>
    simp only [headerLines]
    split
    · exact .refl s
    · exact fun h => by cases h
    next k hk =>
      split_ifs with hm
      · split
        · exact .of_eq rfl
        next s' hs' => exact (Quiet.of_eq (requestLine_sending hs')).trans (ih s' _)
      · exact (Quiet.of_eq (headerLine_sending s _ _)).trans (ih _ _)

theorem receiveHeader_quiet (s : Sys) : Quiet s (s.receiveHeader env).1 := by
  have hlines := @headerLines_quiet env (s.core.rx.requestLength.toNat + 1) s 0
  simp only [receiveHeader]
  generalize s.headerLines env (s.core.rx.requestLength.toNat + 1) 0 = r at hlines ⊢
  obtain ⟨t, nLinePos, afterHeader⟩ := r
  split_ifs
  · exact hlines
  · exact hlines
  · exact hlines
  · exact .refl s

theorem afterHeaders_sending (s : Sys) : (s.afterHeaders env).core.sending = s.core.sending := by
  obtain ⟨tLastSent, called, hcore, -⟩ := @afterHeaders_core env s
  rw [hcore]

/-- The mapping and the path of the request, and whether its response has begun to be sent. -/
def target (s : Sys) : Option Cgi × Bytes × Bool := (s.core.handler, s.core.requestPath, s.core.sending)

theorem target_handler {s t : Sys} (h : t.target = s.target) : t.core.handler = s.core.handler :=
  congrArg (fun x : Option Cgi × Bytes × Bool => x.1) h

theorem target_sending {s t : Sys} (h : t.target = s.target) : t.core.sending = s.core.sending :=
  congrArg (fun x : Option Cgi × Bytes × Bool => x.2.2) h

theorem receiveChunkLine_target (s : Sys) : s.receiveChunkLine.target = s.target := by
  unfold receiveChunkLine
  split <;> rfl

theorem receiveContent_target (s : Sys) (size : ℤ) : (s.receiveContent env size).1.target = s.target := by
  have hend := @cgiContentReceived_end env s size
  have hcall : (s.cgiContentReceived env size).1.target = s.target := by
    generalize s.cgiContentReceived env size = r at hend ⊢
    cases hend with
    | called m f t a consumed hm hf ht he =>
      rw [ht]
      rfl
    | ignored => rfl
  unfold receiveContent
  generalize s.cgiContentReceived env size = r at hcall ⊢
  obtain ⟨t, consumed⟩ := r
  simp only at hcall ⊢
  split_ifs
  · exact hcall
  · obtain ⟨state, length, received, tLastSent, hcore, -⟩ := @contentTaken_core env t consumed
    rw [target, hcore]
    exact hcall

theorem requestDone_target (s : Sys) : (s.requestDone env).target = s.target := by
  have hend := @cgiRequestReceived_end env s
  have hcall : (s.cgiRequestReceived env).target = s.target := by
    generalize s.cgiRequestReceived env = t at hend ⊢
    cases hend <;> rfl
  unfold requestDone
  simp only
  split_ifs
  · exact hcall
  · exact hcall

/-! ## The rounds -/

/-- What a round says of the connection that it leaves behind: it has sent nothing, an error ends the
loop, and only one that ends the connection ends the function. -/
structure RoundLeft (s : Sys) (r : Sys × Round) : Prop where
  quiet : Quiet s r.1
  again : r.2 = .again → 0 ≤ r.1.app.result
  leave : r.2 = .leave → r.1.app.result ≤ -500

theorem RoundLeft.stop {s t : Sys} (h : Quiet s t) : RoundLeft s (t, .stop) := ⟨h, nofun, nofun⟩

theorem RoundLeft.behind {s t : Sys} {r : Sys × Round} (h : Quiet s t) (h' : RoundLeft t r) :
    RoundLeft s r := ⟨h.trans h'.quiet, h'.again, h'.leave⟩

theorem bodyRound_left {s : Sys} (hr : 0 ≤ s.app.result) (size : ℤ) :
    RoundLeft s (s.bodyRound env size) := by
  simp only [bodyRound]
  have hline : Quiet s (if s.core.state = .chunkLenReceiving ∧ size > 2 then s.receiveChunkLine else s) ∧
      (if s.core.state = .chunkLenReceiving ∧ size > 2 then s.receiveChunkLine else s).app = s.app := by
    split_ifs
    · exact ⟨.of_eq (target_sending s.receiveChunkLine_target), s.receiveChunkLine_app⟩
    · exact ⟨.refl s, rfl⟩
  generalize (if s.core.state = .chunkLenReceiving ∧ size > 2 then s.receiveChunkLine else s) = s₁
    at hline ⊢
  obtain ⟨hquiet, happ⟩ := hline
  refine RoundLeft.behind hquiet ?_
  rw [← happ] at hr
  by_cases hb : s₁.core.state = .chunkReceiving ∨ s₁.core.state = .bodyReceiving
  · have hsending := target_sending (@receiveContent_target env s₁ size)
    have hres := @receiveContent_result env s₁ size
    simp only [if_pos hb]
    generalize s₁.receiveContent env size = r at hsending hres ⊢
    obtain ⟨s₂, consumed⟩ := r
    simp only at hsending hres ⊢
    by_cases he : s₂.app.result ≤ -500
    · simp only [if_pos he]
      refine ⟨.of_eq hsending, fun hagain => ?_, fun _ => he⟩
      cases hagain
    simp only [if_neg he]
    by_cases hc : consumed ≤ 0
    · simp only [if_pos hc]
      exact .stop (.of_eq hsending)
    simp only [if_neg hc]
    split_ifs
    · exact .stop (.of_eq ((target_sending (requestDone_target s₂)).trans hsending))
    · exact .stop (.of_eq hsending)
    · refine ⟨.of_eq hsending, fun _ => ?_, fun hleave => ?_⟩
      · simp only
        omega
      · cases hleave
  · simp only [if_neg hb]
    split_ifs
    · exact .stop (.of_eq (target_sending (requestDone_target s₁)))
    · exact .stop (.refl s₁)
    · refine ⟨.refl s₁, fun _ => hr, fun hleave => ?_⟩
      cases hleave

theorem headerRound_left (s : Sys) (afterHeader : Bool) : RoundLeft s (s.headerRound env afterHeader) := by
  unfold headerRound
  by_cases hneg : s.app.result < 0
  · rw [if_pos hneg]
    exact .stop (.refl s)
  rw [if_neg hneg]
  split
  · exact .stop (.of_eq rfl)
  split
  · split_ifs
    · exact ⟨.refl s, fun _ => not_lt.mp hneg, nofun⟩
    · exact .stop (.refl s)
  · have hquiet : Quiet s (if afterHeader = true then s.afterHeaders env else s) := by
      split_ifs
      · exact .of_eq (afterHeaders_sending s)
      · exact .refl s
    simp only
    generalize (if afterHeader = true then s.afterHeaders env else s) = t at hquiet ⊢
    split_ifs with ht
    · exact .stop hquiet
    · exact .behind hquiet (bodyRound_left (not_lt.mp ht) _)

theorem requestRound_left (s : Sys) : RoundLeft s (s.requestRound env) := by
  have hparse (t : Sys) (ht : Quiet s t) :
      RoundLeft s ((t.receiveHeader env).1.headerRound env (t.receiveHeader env).2) :=
    .behind (ht.trans (receiveHeader_quiet t)) (headerRound_left _ _)
  simp only [requestRound]
  have hdequeue : Quiet s s.dequeue := .of_eq rfl
  have hbegin : Quiet s (s.dequeue.beginRequest env) := .of_eq rfl
  split_ifs
  · exact .stop hdequeue
  · exact hparse _ hbegin
  · exact .behind hbegin (headerRound_left _ _)
  · exact hparse _ hdequeue
  · exact .behind hdequeue (headerRound_left _ _)

/-- Without a response, the result is no error, or it ends the connection. -/
theorem requestLoop_end (n : ℕ) (s : Sys) (hn : n = 0 → 0 ≤ s.app.result) :
    Quiet s (s.requestLoop env n).1 ∧ ((s.requestLoop env n).2 = false →
      0 ≤ (s.requestLoop env n).1.app.result ∨ (s.requestLoop env n).1.app.result ≤ -500) := by
  induction n generalizing s with
  | zero => exact ⟨.of_eq rfl, fun _ => .inl (hn rfl)⟩
  | succ n ih =>
    have hround := @requestRound_left env s
    rw [requestLoop]
    split_ifs
    · generalize s.requestRound env = r at hround ⊢
      obtain ⟨t, e⟩ := r
      cases e with
      | again =>
        obtain ⟨hquiet, hleft⟩ := ih t fun _ => hround.again rfl
        exact ⟨hround.quiet.trans hquiet, hleft⟩
      | stop => exact ⟨hround.quiet, fun hb => by cases hb⟩
      | leave => exact ⟨hround.quiet, fun _ => .inr (hround.leave rfl)⟩
    · exact ⟨.refl s, fun hb => by cases hb⟩

theorem requestLoop_received {s : Sys} (hs : s.core.state.Received) (n : ℕ) :
    s.requestLoop env (n + 1) = (s, true) := by
  rw [requestLoop, if_neg (Nat.not_lt.mpr hs)]

/-! ## Sending -/

theorem Sends.target {s t : Sys} (h : Sends s t) : t.target = s.target := by
  obtain ⟨new, total2Send, tLastSent, bytesLeft, sendBuffer, calls, -, rfl⟩ := h
  rfl

theorem Sends.result {s t : Sys} (h : Sends s t) : t.app.result = s.app.result := by
  obtain ⟨new, total2Send, tLastSent, bytesLeft, sendBuffer, calls, -, rfl⟩ := h
  rfl

theorem sendOrEnd_target (s : Sys) : (s.sendOrEnd env).1.target = s.target := by
  have hend := @sendOrEnd_end env s
  generalize s.sendOrEnd env = r at hend ⊢
  cases hend with
  | sent t hsends => exact hsends.target
  | failed t hsends => exact hsends.target

/-- There is nothing to send. -/
theorem sendOrEnd_done {s : Sys} (h : s.app.bytesLeft ≤ 0) : s.sendOrEnd env = (s, true) := by
  rw [sendOrEnd, Int.toNat_of_nonpos h, sendBuffered]

theorem cgiLoadContentToSend_target (s : Sys) (caller : Caller) :
    (s.cgiLoadContentToSend env caller).1.target = s.target := by
  have hend := @cgiLoadContentToSend_end env s caller
  generalize s.cgiLoadContentToSend env caller = r at hend ⊢
  cases hend <;> rfl

theorem sendBody_target (s : Sys) (caller : Caller) : (s.sendBody env caller).target = s.target := by
  have hload := @cgiLoadContentToSend_target env s caller
  unfold sendBody
  generalize s.cgiLoadContentToSend env caller = r at hload ⊢
  obtain ⟨t, n⟩ := r
  simp only at hload ⊢
  split_ifs
  · exact (sendOrEnd_target t).trans hload
  · exact hload
  · exact hload

end Sys

/-! ## The upload mapping -/

theorem cons_of_strnicmpText {s t : Bytes} {b : UInt8} {n : ℕ} (h : strnicmpText s (b :: t) (n + 1) = 0) :
    ∃ a r, s = a :: r ∧ toUpper a = toUpper b := by
  cases s with
  | nil => exact absurd h (by simp only [strnicmpText]; decide)
  | cons a r =>
    refine ⟨a, r, rfl, ?_⟩
    rw [strnicmpText] at h
    split_ifs at h with hlt hgt
    · exact absurd h (by decide)
    · exact UInt8.le_antisymm (UInt8.not_lt.mp hgt) (UInt8.not_lt.mp hlt)

/-- The path of the mapping is not that of the device description. -/
theorem upload_path {path : Bytes} (h : Cgi.upload.mapping.matches path = true) :
    strnicmp path (bytes "upnp_device.xml") 15 ≠ 0 := by
  rw [Mapping.matches, Bool.and_eq_true, beq_iff_eq] at h
  have hown : cstr Cgi.upload.mapping.path = 47 :: bytes "api/upload.cgi" := by decide +kernel
  have hlength : strlen Cgi.upload.mapping.path = 14 + 1 := by decide +kernel
  have hother : cstr (bytes "upnp_device.xml") = 117 :: bytes "pnp_device.xml" := by decide +kernel
  have hfirst := h.2
  intro hsame
  rw [strnicmp, hown, hlength] at hfirst
  rw [strnicmp, hother] at hsame
  obtain ⟨a, r, ha, hslash⟩ := cons_of_strnicmpText hfirst
  obtain ⟨a', r', ha', hletter⟩ := cons_of_strnicmpText hsame
  obtain ⟨rfl, -⟩ := List.cons.inj (ha.symm.trans ha')
  exact absurd (hslash.symm.trans hletter) (by decide)

theorem cgiSetCgiHandler_matches {s : Sys} {m : Cgi} (h : s.cgiSetCgiHandler.core.handler = some m) :
    m.mapping.matches s.cgiSetCgiHandler.core.requestPath = true := by
  unfold Sys.cgiSetCgiHandler at h ⊢
  cases hfind : cgiMappings.find? fun m => m.mapping.matches s.core.requestPath with
  | none =>
    rw [hfind] at h
    cases h
  | some m' =>
    simp only [hfind] at h ⊢
    obtain rfl := Option.some.inj h
    have hmatches := List.find?_some hfind
    exact hmatches

/-- What is known of the result. It is no error, or it ends the connection, or it is that of a
redirect, which has sent its header or is about to. -/
structure OnCourse (s : Sys) : Prop where
  idle : s.core.state = .idle → s.core.handler = none
  path : s.core.handler = some .upload → Cgi.upload.mapping.matches s.core.requestPath = true
  early : ¬ s.core.state.PastHeaders → 0 ≤ s.app.result ∨ s.app.result ≤ -500
  fresh : s.core.state = .headerDone → s.app.bytesLeft ≤ 0
  unsent : ¬ s.core.state.Received → s.core.sending = false
  result : s.core.handler = some .upload → 0 ≤ s.app.result ∨ s.app.result ≤ -500 ∨
    s.app.result = codeRedirect ∧
      (s.core.sending = true ∨ s.core.state = .sendingHeader ∧ s.app.bytesLeft ≤ 0)

namespace OnCourse

variable {env : Env} {s t : Sys}

/-- Steps that change nothing that this depends on. -/
theorem same (h : OnCourse s)
    (he : (t.core.state, t.core.handler, t.core.requestPath, t.core.sending, t.app.result,
        t.app.bytesLeft) =
      (s.core.state, s.core.handler, s.core.requestPath, s.core.sending, s.app.result,
        s.app.bytesLeft)) : OnCourse t := by
  simp only [Prod.mk.injEq] at he
  obtain ⟨hstate, hhandler, hpath, hsending, hresult, hleft⟩ := he
  refine ⟨?_, ?_, ?_, ?_, ?_, ?_⟩ <;> simp only [hstate, hhandler, hpath, hsending, hresult, hleft]
  · exact h.idle
  · exact h.path
  · exact h.early
  · exact h.fresh
  · exact h.unsent
  · exact h.result

/-- A context between two requests. -/
theorem between (hstate : t.core.state = .idle) (hhandler : t.core.handler = none)
    (hsending : t.core.sending = false) (hresult : t.app.result = 0) : OnCourse t where
  idle _ := hhandler
  path hm := by rw [hhandler] at hm; cases hm
  early _ := .inl hresult.ge
  fresh hd := by rw [hstate] at hd; cases hd
  unsent _ := hsending
  result hm := by rw [hhandler] at hm; cases hm

/-- A request in its header. -/
theorem reading (hstate : t.core.state = .headerReceiving ∨ t.core.state = .headerDone)
    (hpath : t.core.handler = some .upload → Cgi.upload.mapping.matches t.core.requestPath = true)
    (hresult : 0 ≤ t.app.result ∨ t.app.result ≤ -500)
    (hfresh : t.core.state = .headerDone → t.app.bytesLeft ≤ 0)
    (hsending : t.core.sending = false) : OnCourse t where
  idle hi := by rw [hi] at hstate; rcases hstate with h | h <;> cases h
  path := hpath
  early _ := hresult
  fresh := hfresh
  unsent _ := hsending
  result _ := hresult.imp_right Or.inl

/-- A request behind its header. -/
theorem behind (hp : t.core.state.PastHeaders)
    (hpath : t.core.handler = some .upload → Cgi.upload.mapping.matches t.core.requestPath = true)
    (hunsent : ¬ t.core.state.Received → t.core.sending = false)
    (hresult : t.core.handler = some .upload → 0 ≤ t.app.result ∨ t.app.result ≤ -500 ∨
      t.app.result = codeRedirect ∧
        (t.core.sending = true ∨ t.core.state = .sendingHeader ∧ t.app.bytesLeft ≤ 0)) :
    OnCourse t where
  idle hi := by rw [hi] at hp; exact absurd hp (by decide)
  path := hpath
  early hn := absurd hp hn
  fresh hd := by rw [hd] at hp; exact absurd hp (by decide)
  unsent := hunsent
  result := hresult

theorem path_of (h : OnCourse s) (he : t.target = s.target) (hm : t.core.handler = some .upload) :
    Cgi.upload.mapping.matches t.core.requestPath = true := by
  rw [show t.core.requestPath = s.core.requestPath from
    congrArg (fun x : Option Cgi × Bytes × Bool => x.2.1) he]
  exact h.path (Sys.target_handler he ▸ hm)

/-- Until the response begins, an error of the upload mapping is one that ends the connection. -/
theorem receiving (h : OnCourse s) (hs : ¬ s.core.state.Received)
    (hm : s.core.handler = some .upload) : 0 ≤ s.app.result ∨ s.app.result ≤ -500 := by
  rcases h.result hm with hr | hr | ⟨-, hsend | ⟨hst, -⟩⟩
  · exact .inl hr
  · exact .inr hr
  · rw [h.unsent hs] at hsend
    cases hsend
  · rw [hst] at hs
    exact absurd (by decide) hs

/-! ## The header -/

theorem requestLine (h : OnCourse s) {line : Bytes} (hs : s.core.state = .headerReceiving)
    (ht : s.requestLine line = some t) : OnCourse t := by
  have hp : ¬ s.core.state.PastHeaders := by rw [hs]; decide
  have hstate := (Sys.requestLine_state ht).trans hs
  refine reading (.inl hstate) (fun hm => ?_) ?_ (fun hd => ?_) ?_
  · obtain ⟨method, m, q, rfl⟩ := Sys.requestLine_eq ht
    exact cgiSetCgiHandler_matches hm
  · rw [Sys.requestLine_result ht]
    exact h.early hp
  · rw [hstate] at hd
    cases hd
  · rw [Sys.requestLine_sending ht]
    exact h.unsent (by rw [hs]; decide)

theorem headerLine (h : OnCourse s) (hs : s.core.state = .headerReceiving) (mem : Bytes) (n : ℕ) :
    OnCourse (s.headerLine env mem n) := by
  have hkept := @Sys.headerLine_kept env s mem n
  have hstate := hkept.state.trans hs
  refine reading (.inl hstate) ?_ ?_ (fun hd => ?_) ?_
  · rw [hkept.handler, hkept.requestPath]
    exact h.path
  · rw [hkept.result]
    exact h.early (by rw [hs]; decide)
  · rw [hstate] at hd
    cases hd
  · rw [Sys.headerLine_sending]
    exact h.unsent (by rw [hs]; decide)

theorem emptyLine (h : OnCourse s) (hs : s.core.state = .headerReceiving) : OnCourse s.emptyLine := by
  refine reading (.inr rfl) h.path ?_ (fun _ => le_rfl) rfl
  change 0 ≤ (if s.core.requestMethod = none then -500 else s.app.result) ∨
    (if s.core.requestMethod = none then -500 else s.app.result) ≤ -500
  split_ifs
  · exact .inr le_rfl
  · exact h.early (by rw [hs]; decide)

/-! ## The gate -/

/-- What `CGI_HeadersReceived` makes of a request for the upload mapping. -/
theorem atGate_result (h : OnCourse s) (ha : Admitted s) (hr : 0 ≤ s.app.result)
    (hm : s.core.handler = some .upload) (hg : ¬ s.gate.GetsUpload) {u : Sys} (hu : Sys.AtGate s u)
    (hend : Sys.HeadersEnd env u t) :
    0 ≤ t.app.result ∨ t.app.result ≤ -500 ∨ t.app.result = codeRedirect := by
  have haccess := ha.access .upload hm
  have hum : u.core.handler = some .upload := hu.handler.trans hm
  have hur : 0 ≤ u.app.result ∨ u.app.result = codeRedirect := by
    rcases hu.login with ⟨-, he, -⟩ | ⟨-, he, -⟩
    · exact .inr he
    · exact .inl (hr.trans he.ge)
  cases hend with
  | called m f hm' hf hauth henabled =>
    obtain rfl := Option.some.inj (hum.symm.trans hm')
    have hallowed : ¬ s.gate.Denied .upload := Admitted.atGate_not_denied hu haccess hauth henabled
    have hget : u.core.requestMethod ≠ some .get := by
      rw [hu.method]
      intro hget
      refine hallowed (.inr ?_)
      rintro (⟨-, hopt⟩ | ⟨hpost, -⟩)
      · exact absurd hopt (by decide)
      · rw [show s.gate.method = some .get from hget] at hpost
        cases hpost
    cases hf
    simp only [Sys.onApp, App.onWork, uploadOnHeadersReceived]
    split
    next hmethod => exact absurd hmethod hget
    next =>
      split
      · exact .inr (.inl le_rfl)
      · exact hur.imp_right Or.inr
    next => exact hur.imp_right Or.inr
  | accepted m hm' hf _ _ =>
    obtain rfl := Option.some.inj (hum.symm.trans hm')
    cases hf
  | unauthorized m _ _ hne =>
    rcases hu.login with ⟨-, -, hauth⟩ | ⟨-, -, hauth⟩
    · exact .inr (.inr hauth)
    · exact absurd hauth hne
  | refused _ =>
    by_cases hneg : u.app.result < 0
    · rw [Sys.cgiRefuse, if_pos hneg]
      exact hur.imp_right Or.inr
    rw [Sys.cgiRefuse, if_neg hneg]
    split_ifs with hsecure htype hget
    · exact .inr (.inr rfl)
    · rw [hum] at htype
      exact absurd htype.2 (Option.some_ne_none _)
    · refine absurd ⟨hm, hu.method.symm.trans hget, ?_⟩ hg
      rintro (hlogin | ⟨-, hlistening, hplain⟩)
      · have hneeds : s.needsLogin = true := (Admitted.needsLogin_iff haccess).mpr hlogin
        rcases hu.login with ⟨-, he, -⟩ | ⟨hno, -, -⟩
        · exact hneg (by rw [he]; decide)
        · rw [hneeds] at hno
          cases hno
      · refine hsecure ⟨hu.listening.trans hlistening, ?_, ?_⟩
        · rw [hu.https, show s.core.https = false from hplain]
          exact Bool.false_ne_true
        · obtain ⟨tLastSent, hcore⟩ := hu.core
          rw [hcore]
          exact upload_path (h.path hm)
    · exact .inr (.inl le_rfl)

theorem afterHeaders (h : OnCourse s) (ha : Admitted s) (hs : s.core.state = .headerDone)
    (hr : 0 ≤ s.app.result) (hg : ¬ s.gate.GetsUpload) : OnCourse (s.afterHeaders env) := by
  obtain ⟨tLastSent, called, hcore, -⟩ := @Sys.afterHeaders_core env s
  refine behind s.afterHeaders_pastHeaders ?_ (fun _ => ?_) (fun hm => ?_)
  · rw [hcore]
    exact h.path
  · rw [hcore]
    exact h.unsent (by rw [hs]; decide)
  have hm' : s.core.handler = some .upload := by rw [hcore] at hm; exact hm
  have hu := @Sys.atGate env s
  have hleft : ((s.note (.headers s.gate)).authorize.expectBody env).app.bytesLeft ≤ 0 := by
    rw [Sys.expectBody_app]
    refine le_of_eq_of_le ?_ (h.fresh hs)
    unfold Sys.authorize
    simp only
    split_ifs <;> rfl
  have hend := @Sys.cgiHeadersReceived_end env ((s.note (.headers s.gate)).authorize.expectBody env)
  have hresult := h.atGate_result ha hr hm' hg hu hend
  unfold Sys.afterHeaders
  simp only
  generalize ((s.note (.headers s.gate)).authorize.expectBody env) = u at hu hleft hend hresult ⊢
  have hleft' : (u.cgiHeadersReceived env).app.bytesLeft ≤ 0 := by
    generalize u.cgiHeadersReceived env = t at hend ⊢
    cases hend with
    | called m f hm₁ hf _ _ =>
      obtain rfl := Option.some.inj ((hu.handler.trans hm').symm.trans hm₁)
      cases hf
      exact hleft
    | accepted => exact hleft
    | unauthorized => exact hleft
    | refused _ =>
      refine le_of_eq_of_le ?_ hleft
      unfold Sys.cgiRefuse
      split_ifs <;> rfl
  split_ifs with hneg
  · rcases hresult with hr | hr | hr
    · exact .inl hr
    · exact .inr (.inl hr)
    · exact .inr (.inr ⟨hr, .inr ⟨rfl, hleft'⟩⟩)
  · exact .inl (not_lt.mp hneg)

/-! ## The body -/

theorem receiveContent (h : OnCourse s) (hs : s.core.state = .chunkReceiving ∨ s.core.state = .bodyReceiving)
    (size : ℤ) : OnCourse (s.receiveContent env size).1 := by
  have hgoes := @Sys.GoesOn.receiveContent env s hs size
  have hreceiving : ¬ s.core.state.Received := by rcases hs with hs | hs <;> rw [hs] <;> decide
  have htarget := @Sys.receiveContent_target env s size
  refine behind (hgoes.past.mpr (by rcases hs with hs | hs <;> rw [hs] <;> decide)) (h.path_of htarget)
    (fun _ => ?_) (fun hm => ?_)
  · rw [Sys.target_sending htarget]
    exact h.unsent hreceiving
  · have hbefore := h.receiving hreceiving (Sys.target_handler htarget ▸ hm)
    rcases @Sys.receiveContent_result env s size with he | he
    · rw [he]
      exact hbefore.imp_right Or.inl
    · exact .inr (.inl he.le)

theorem chunkLine (h : OnCourse s) (hs : s.core.state = .chunkLenReceiving) :
    OnCourse s.receiveChunkLine := by
  have hgoes := Sys.GoesOn.receiveChunkLine hs
  have htarget := s.receiveChunkLine_target
  have hreceiving : ¬ s.core.state.Received := by rw [hs]; decide
  refine behind (hgoes.past.mpr (by rw [hs]; decide)) (h.path_of htarget) (fun _ => ?_) (fun hm => ?_)
  · rw [Sys.target_sending htarget]
    exact h.unsent hreceiving
  · rw [Sys.receiveChunkLine_app]
    exact (h.receiving hreceiving (Sys.target_handler htarget ▸ hm)).imp_right Or.inl

theorem requestDone (h : OnCourse s) (hs : s.core.state = .bodyDone) (hr : s.app.result = 0) :
    OnCourse (s.requestDone env) := by
  have htarget := @Sys.requestDone_target env s
  have hstate := (@Sys.requestDone_state env s).trans hs
  refine behind (by rw [hstate]; decide) (h.path_of htarget) (fun hn => ?_) (fun hm => .inl ?_)
  · rw [hstate] at hn
    exact absurd (by decide) hn
  have hm' : s.core.handler = some .upload := Sys.target_handler htarget ▸ hm
  have hend := @Sys.cgiRequestReceived_end env s
  have hcall : (s.cgiRequestReceived env).app.result = 0 := by
    generalize s.cgiRequestReceived env = t at hend ⊢
    cases hend with
    | called m f hm₁ hf =>
      obtain rfl := Option.some.inj (hm'.symm.trans hm₁)
      cases hf
      exact hr
    | ignored => exact hr
  unfold Sys.requestDone
  simp only
  rw [if_pos hcall]
  exact (by decide : 0 ≤ codeOk)

/-! ## The response -/

theorem sendOrEnd (h : OnCourse s) (hs : s.core.state.Received) : OnCourse (s.sendOrEnd env).1 := by
  by_cases hleft : s.app.bytesLeft ≤ 0
  · rw [Sys.sendOrEnd_done hleft]
    exact h
  have htarget := @Sys.sendOrEnd_target env s
  have hlate := @Sys.sendOrEnd_received env s hs
  have hp : HttpState.PastHeaders (s.sendOrEnd env).1.core.state := Nat.lt_of_lt_of_le (by decide) hlate
  refine behind hp (h.path_of htarget) (absurd hlate) (fun hm => ?_)
  rw [Sys.target_sending htarget]
  have hresult := h.result (Sys.target_handler htarget ▸ hm)
  have hend := @Sys.sendOrEnd_end env s
  generalize s.sendOrEnd env = r at hend ⊢
  cases hend with
  | sent t hsends =>
    rw [hsends.result]
    rcases hresult with hr | hr | ⟨hr, hsend | ⟨-, hnone⟩⟩
    · exact .inl hr
    · exact .inr (.inl hr)
    · exact .inr (.inr ⟨hr, .inl hsend⟩)
    · exact absurd hnone hleft
  | failed t hsends => exact .inr (.inl le_rfl)

/-- The header of a response leaves the result of the upload mapping alone. -/
theorem prepareHeader_result (hm : s.core.handler = some .upload) :
    (s.prepareHeader env).app.result = s.app.result := by
  simp only [Sys.prepareHeader, Sys.note, cgiSetResponseHeaders, handlerHeaders, hm]
  rfl

theorem sendHeader (h : OnCourse s) (hs : s.core.state.Received) : OnCourse (s.sendHeader env).1 := by
  have hlate := @Sys.sendHeader_received env s hs
  have hp : HttpState.PastHeaders (s.sendHeader env).1.core.state := Nat.lt_of_lt_of_le (by decide) hlate
  have hend := @Sys.sendOrEnd_end env (s.prepareHeader env)
  have htarget := @Sys.sendOrEnd_target env (s.prepareHeader env)
  have hprepared := @prepareHeader_result env s
  unfold Sys.sendHeader at hlate hp ⊢
  generalize (s.prepareHeader env).sendOrEnd env = r at hlate hp hend htarget ⊢
  cases hend with
  | sent t hsends =>
    refine behind hp (fun hm => h.path_of (t := t) htarget hm) (absurd hlate) (fun hm => ?_)
    have hm' : s.core.handler = some .upload := (Sys.target_handler htarget).symm.trans hm
    have he : t.headerOut.app.result = s.app.result := hsends.result.trans (hprepared hm')
    rw [he]
    rcases h.result hm' with hr | hr | ⟨hr, -⟩
    · exact .inl hr
    · exact .inr (.inl hr)
    · exact .inr (.inr ⟨hr, .inl rfl⟩)
  | failed t hsends =>
    exact behind hp (fun hm => h.path_of (t := t) htarget hm) (absurd hlate) fun _ => .inr (.inl le_rfl)

theorem endResponse (h : OnCourse s) (hsend : s.core.sending = true) : OnCourse s.endResponse := by
  have hreceived : HttpState.requestEnd.Received := by decide
  refine behind (by decide : HttpState.requestEnd.PastHeaders) h.path (absurd hreceived) (fun hm => ?_)
  exact (h.result hm).imp_right (Or.imp_right fun hr => ⟨hr.1, .inl hsend⟩)

theorem headerSent (h : OnCourse s) (hsend : s.core.sending = true) : OnCourse s.headerSent := by
  unfold Sys.headerSent
  split_ifs
  · exact h.endResponse hsend
  · have hreceived : HttpState.sendingBody.Received := by decide
    refine behind (by decide : HttpState.sendingBody.PastHeaders) h.path (absurd hreceived) fun hm => ?_
    exact (h.result hm).imp_right (Or.imp_right fun hr => ⟨hr.1, .inl hsend⟩)

/-- The upload mapping has no content: its response ends with the header. -/
theorem sendBody_upload (hm : s.core.handler = some .upload) (caller : Caller) :
    s.sendBody env caller = s.endResponse := by
  have hload : s.cgiLoadContentToSend env caller = (s, -1) := by
    unfold Sys.cgiLoadContentToSend
    simp only [hm]
    split_ifs <;> rfl
  simp only [Sys.sendBody, hload]
  rfl

theorem sendBody (h : OnCourse s) (hs : s.core.state = .sendingBody) (hsend : s.core.sending = true)
    (caller : Caller) : OnCourse (s.sendBody env caller) := by
  by_cases hm : s.core.handler = some .upload
  · rw [sendBody_upload hm]
    exact h.endResponse hsend
  · have hlate : HttpState.Received (s.sendBody env caller).core.state :=
      Sys.sendBody_received caller (by rw [hs]; decide)
    have hother : (s.sendBody env caller).core.handler ≠ some .upload :=
      Sys.target_handler (Sys.sendBody_target s caller) ▸ hm
    exact behind (Nat.lt_of_lt_of_le (by decide) hlate) (fun hm => absurd hm hother) (absurd hlate)
      fun hm => absurd hm hother

end OnCourse

theorem NoGetsUpload.of_append {new hist : List Obs} (h : NoGetsUpload (new ++ hist)) :
    NoGetsUpload hist := fun o ho => h o (List.mem_append_right new ho)

/-- Every step keeps what is known of the result, as long as nobody gets the upload mapping. -/
theorem Micro.onCourse {env : Env} {s t : Sys} (hstep : Micro env s t) (ha : Admitted s)
    (hg : NoGetsUpload t.core.hist) (h : OnCourse s) : OnCourse t := by
  cases hstep with
  | background hb =>
    obtain ⟨_, _, _, _, _, _, _, _, -, rfl⟩ := hb.aside
    exact h.same rfl
  | begin hs _ =>
    have hm : s.core.handler = none := h.idle hs
    have hp : ¬ s.core.state.PastHeaders := by rw [hs]; decide
    refine .reading (.inl rfl) h.path (h.early hp) (fun hd => ?_) (h.unsent (by rw [hs]; decide))
    cases hd
  | requestLine _ line hs _ ht => exact h.requestLine hs ht
  | headerLine mem n hs => exact h.headerLine hs mem n
  | emptyLine hs => exact h.emptyLine hs
  | consumeHeader k hs => exact h.same rfl
  | abort hs =>
    exact ⟨h.idle, h.path, fun _ => .inr le_rfl, h.fresh, h.unsent, fun _ => .inr (.inl le_rfl)⟩
  | afterHeaders hs hr =>
    obtain ⟨tLastSent, called, hcore, -⟩ := @Sys.afterHeaders_core env s
    refine h.afterHeaders ha hs hr (hg (.headers s.gate) ?_)
    rw [hcore]
    exact List.mem_append_right _ (List.mem_append_right _ List.mem_cons_self)
  | chunk hs hline => exact (h.chunkLine hs).receiveContent (.inl hline) _
  | content hs _ => exact h.receiveContent hs _
  | requestDone hs hr => exact h.requestDone hs hr
  | flush hs _ => exact h.sendOrEnd hs
  | sendHeader hs _ _ => exact h.sendHeader hs
  | headerSent _ hsend => exact h.headerSent hsend
  | sendBody caller hs hsend => exact h.sendBody hs hsend caller
  | reset => exact .between rfl rfl rfl rfl
  | close => exact .between rfl rfl rfl rfl

theorem ConnReach.onCourse {env : Env} {sid : ℕ} {s : Sys} (h : ConnReach env sid s)
    (hg : NoGetsUpload s.core.hist) : OnCourse s := by
  induction h with
  | refl => exact .between rfl rfl rfl rfl
  | tail hreach hstep ih =>
    have ha : Admitted _ := ConnReach.admitted hreach
    cases hstep with
    | own hm =>
      obtain ⟨new, -, hhist⟩ := hm.grows
      exact hm.onCourse ha hg (ih (.of_append (hhist ▸ hg)))
    | accept => exact .between rfl rfl rfl rfl
    | error => exact .between rfl rfl rfl rfl
    | others => exact (ih hg).same rfl

/-! ## The end of `HttpRequestProc` -/

namespace Sys

variable {env : Env}

/-- The mapping of the request stays, and if it is the upload mapping, the result stays or sending
failed. -/
def Answers (s t : Sys) : Prop :=
  t.core.handler = s.core.handler ∧
    (s.core.handler = some .upload → t.app.result = s.app.result ∨ t.app.result = -500)

theorem Answers.refl (s : Sys) : Answers s s := ⟨rfl, fun _ => .inl rfl⟩

theorem Answers.trans {s t u : Sys} (h : Answers s t) (h' : Answers t u) : Answers s u := by
  refine ⟨h'.1.trans h.1, fun hm => ?_⟩
  rcases h'.2 (h.1.trans hm) with he | he
  · rw [he]
    exact h.2 hm
  · exact .inr he

theorem remaining_answers (s : Sys) : Answers s (s.remaining env).1 := by
  unfold remaining
  split_ifs <;> exact ⟨rfl, fun _ => .inl rfl⟩

theorem sendOrEnd_answers (s : Sys) : Answers s (s.sendOrEnd env).1 := by
  refine ⟨target_handler (sendOrEnd_target s), fun _ => ?_⟩
  have hend := @sendOrEnd_end env s
  generalize s.sendOrEnd env = r at hend ⊢
  cases hend with
  | sent t hsends => exact .inl hsends.result
  | failed t hsends => exact .inr rfl

theorem sendHeader_answers (s : Sys) : Answers s (s.sendHeader env).1 := by
  have hprepared : Answers s (s.prepareHeader env) := ⟨rfl, fun hm => .inl (OnCourse.prepareHeader_result hm)⟩
  have hsent : Answers s ((s.prepareHeader env).sendOrEnd env).1 :=
    hprepared.trans (sendOrEnd_answers _)
  unfold sendHeader
  generalize (s.prepareHeader env).sendOrEnd env = r at hsent ⊢
  obtain ⟨t, b⟩ := r
  cases b
  · exact hsent
  · exact hsent

theorem headerSent_answers (s : Sys) : Answers s s.headerSent := by
  unfold headerSent
  split_ifs <;> exact ⟨rfl, fun _ => .inl rfl⟩

theorem sendBody_answers (s : Sys) (caller : Caller) : Answers s (s.sendBody env caller) := by
  refine ⟨target_handler (sendBody_target s caller), fun hm => .inl ?_⟩
  rw [OnCourse.sendBody_upload hm]
  rfl

theorem httpResponseProc_answers (s : Sys) (caller : Caller) :
    Answers s (s.httpResponseProc env caller) := by
  simp only [httpResponseProc]
  split_ifs
  · exact .refl s
  have hremaining := @remaining_answers env s
  generalize s.remaining env = r at hremaining ⊢
  obtain ⟨t, b⟩ := r
  cases b with
  | true => exact hremaining.trans (sendOrEnd_answers t)
  | false =>
    simp only
    refine hremaining.trans ?_
    have hhead : Answers t (if ¬t.core.sending = true then t.sendHeader env
        else if t.core.state = .sendingHeader ∧ caller = .sent then (t.headerSent, true)
        else (t, true)).1 := by
      split_ifs
      · exact headerSent_answers t
      · exact .refl t
      · exact sendHeader_answers t
    generalize (if ¬t.core.sending = true then t.sendHeader env
      else if t.core.state = .sendingHeader ∧ caller = .sent then (t.headerSent, true)
      else (t, true)) = r at hhead ⊢
    obtain ⟨u, ok⟩ := r
    simp only at hhead ⊢
    split_ifs
    · exact hhead.trans (sendBody_answers u caller)
    · exact hhead

/-- A redirect of the upload mapping is sent, and its response ends with the header. -/
theorem httpResponseProc_redirect {s : Sys} (hm : s.core.handler = some .upload)
    (hr : s.app.result = codeRedirect) (hs : s.core.state = .sendingHeader)
    (hleft : s.app.bytesLeft ≤ 0) (hsend : s.core.sending = false) (caller : Caller) :
    (s.httpResponseProc env caller).core.state = .requestEnd := by
  have hlate : ¬ (s.core.state.code < HttpState.bodyDone.code ∨ s.app.result = 0) := by
    rw [hs, hr]
    decide
  have hremaining : s.remaining env = (s, false) := by rw [remaining, if_pos hleft]
  have hend := @sendOrEnd_end env (s.prepareHeader env)
  have hprepared := (@OnCourse.prepareHeader_result env s hm).trans hr
  have hunsent : ¬ s.core.sending = true := by rw [hsend]; exact Bool.false_ne_true
  simp only [httpResponseProc, if_neg hlate, hremaining, if_pos hunsent, sendHeader]
  generalize (s.prepareHeader env).sendOrEnd env = r at hend ⊢
  cases hend with
  | sent t hsends =>
    have hredirect : t.app.result = codeRedirect := hsends.result.trans hprepared
    have hhandler : t.headerOut.core.handler = some .upload := (target_handler hsends.target).trans hm
    have hbody : t.headerOut.core.state = .sendingBody := by
      rw [headerOut, setState_state, if_pos hredirect]
    simp only [hbody, and_self, if_true]
    rw [OnCourse.sendBody_upload hhandler]
    rfl
  | failed t hsends => rfl

/-- Between two events, the upload mapping has no error. -/
def Resting (s : Sys) : Prop := s.core.handler = some .upload → 0 ≤ s.app.result

/-- An error that `HttpRequestProc` leaves to the upload mapping is one that ends the connection. -/
def Settled (s : Sys) : Prop :=
  s.core.handler = some .upload → 0 ≤ s.app.result ∨ s.app.result ≤ -500

theorem finishRequest_handler (s : Sys) : (s.finishRequest env).core.handler = none := by
  unfold finishRequest
  split_ifs <;> rfl

theorem respond_settled {s : Sys} (h : OnCourse s) (hsend : s.core.sending = true → s.Resting)
    (caller : Caller) : Settled (s.respond env caller) := by
  have hanswers := @httpResponseProc_answers env s caller
  simp only [respond]
  split_ifs with hs hend hp
  · intro hm
    rw [finishRequest_handler] at hm
    cases hm
  · intro hm
    have hm' : s.core.handler = some .upload := hanswers.1.symm.trans hm
    have hr : 0 ≤ s.app.result ∨ s.app.result ≤ -500 := by
      rcases h.result hm' with hr | hr | ⟨hr, hsent | ⟨hst, hleft⟩⟩
      · exact .inl hr
      · exact .inr hr
      · exact .inl (hsend hsent hm')
      by_cases hsent : s.core.sending = true
      · exact .inl (hsend hsent hm')
      · rw [Bool.not_eq_true] at hsent
        exact absurd (httpResponseProc_redirect hm' hr hst hleft hsent caller) hend
    rcases hanswers.2 hm' with he | he
    · rw [he]
      exact hr
    · exact .inr he.le
  · exact fun _ => .inr le_rfl
  · exact h.receiving hs

theorem httpRequestProc_settled {sid : ℕ} {s : Sys} (hs : ConnReach env sid s) (hrest : s.Resting)
    (caller : Caller) (hg : NoGetsUpload (s.httpRequestProc env caller).core.hist) :
    Settled (s.httpRequestProc env caller) := by
  simp only [httpRequestProc] at hg ⊢
  rw [← Nat.add_assoc _ 1 1] at hg ⊢
  generalize s.core.rx.requestLength.toNat + (chainBytes s.core.rx.reqBufList).length + 1 = n at hg ⊢
  have hsteps := (@requestLoop_intakes env (n + 1) s hs.unanswered).steps
  have hreceived (h : s.core.state.Received) := @requestLoop_received env s h n
  obtain ⟨hquiet, hleft⟩ := @requestLoop_end env (n + 1) s fun h => absurd h (Nat.succ_ne_zero n)
  generalize s.requestLoop env (n + 1) = r at hg hsteps hreceived hquiet hleft ⊢
  obtain ⟨u, b⟩ := r
  cases b with
  | false => exact fun _ => hleft rfl
  | true =>
    obtain ⟨new, -, hhist⟩ := (@respond_steps env u caller).grows
    have hgu : NoGetsUpload u.core.hist := .of_append (hhist ▸ hg)
    obtain ⟨old, -, hhist'⟩ := Steps.grows hsteps
    have hgs : NoGetsUpload s.core.hist := .of_append (hhist' ▸ hgu)
    have hcourse : OnCourse u := (hs.steps hsteps).onCourse hgu
    refine respond_settled hcourse (fun hsend => ?_) caller
    have hlate : s.core.state.Received := by
      by_contra hearly
      have hunsent := (hs.onCourse hgs).unsent hearly
      rw [hquiet hsend] at hunsent
      cases hunsent
    obtain ⟨rfl, -⟩ := Prod.mk.inj (hreceived hlate)
    exact hrest

end Sys

/-! ## Which request it is -/

theorem begun_append (new hist : List Obs) : begun (new ++ hist) = begun new + begun hist :=
  List.countP_append

/-- Request `k` has begun, and if the context is in a request, it is a later one. -/
def Beyond (k : ℕ) (s : Sys) : Prop :=
  k ≤ begun s.core.hist ∧ (s.core.state ≠ .idle → k < begun s.core.hist)

theorem Beyond.idle {k : ℕ} {s t : Sys} (h : Beyond k s) (hstate : t.core.state = .idle)
    (hhist : ∃ new, t.core.hist = new ++ s.core.hist) : Beyond k t := by
  obtain ⟨new, hhist⟩ := hhist
  refine ⟨?_, fun hne => absurd hstate hne⟩
  rw [hhist, begun_append]
  exact le_add_of_le_right h.1

/-- From a context between two requests, only the first bytes of a request lead away. -/
theorem Micro.from_idle {env : Env} {s t : Sys} (h : Micro env s t) (hs : s.core.state = .idle) :
    t = s.beginRequest env ∨ t.core.state = .idle := by
  have hnot {p : Prop} (hr : s.core.state.Received) : p := by
    rw [hs] at hr
    exact absurd hr (by decide)
  cases h with
  | background hb =>
    obtain ⟨_, _, _, _, _, _, _, _, -, rfl⟩ := hb.aside
    exact .inr hs
  | begin => exact .inl rfl
  | requestLine _ line hst => rw [hs] at hst; cases hst
  | headerLine mem n hst => rw [hs] at hst; cases hst
  | emptyLine hst => rw [hs] at hst; cases hst
  | consumeHeader => exact .inr hs
  | abort => exact .inr hs
  | afterHeaders hst => rw [hs] at hst; cases hst
  | chunk hst => rw [hs] at hst; cases hst
  | content hst => rw [hs] at hst; rcases hst with hst | hst <;> cases hst
  | requestDone hst => rw [hs] at hst; cases hst
  | flush hr => exact hnot hr
  | sendHeader hr => exact hnot hr
  | headerSent hst => rw [hs] at hst; cases hst
  | sendBody caller hst => rw [hs] at hst; cases hst
  | reset => exact .inr rfl
  | close => exact .inr rfl

theorem Micro.beyond {env : Env} {s t : Sys} {k : ℕ} (h : Micro env s t) (hs : Beyond k s) :
    Beyond k t := by
  obtain ⟨new, -, hhist⟩ := h.grows
  by_cases ht : t.core.state = .idle
  · exact hs.idle ht ⟨new, hhist⟩
  have hlt : k < begun t.core.hist := by
    by_cases hst : s.core.state = .idle
    · rcases h.from_idle hst with rfl | hidle
      · have hbegun : begun (s.beginRequest env).core.hist = begun s.core.hist + 1 := by
          rw [show (s.beginRequest env).core.hist = [.begin] ++ s.core.hist from rfl, begun_append]
          exact Nat.add_comm 1 _
        rw [hbegun]
        exact Nat.lt_succ_of_le hs.1
      · exact absurd hidle ht
    · rw [hhist, begun_append]
      exact Nat.lt_add_left _ (hs.2 hst)
  exact ⟨hlt.le, fun _ => hlt⟩

theorem Steps.beyond {env : Env} {s t : Sys} {k : ℕ} (h : Steps env s t) (hs : Beyond k s) :
    Beyond k t := h.keep (fun _ _ hstep => hstep.beyond) hs

/-! ## The events -/

/-- The connection is closed. -/
structure Closed (u t : Sys) : Prop where
  state : t.core.state = .idle
  handler : t.core.handler = none
  pcb : t.core.pcb = none
  hist : ∃ new, t.core.hist = new ++ u.core.hist

theorem Closed.close {env : Env} (u : Sys) : Closed u (u.closeHttpContext env) := by
  obtain ⟨closed, -, hhist⟩ := @Sys.closeHttpContext_hist env u
  exact ⟨rfl, rfl, rfl, .freed :: closed, hhist⟩

theorem Closed.free (u : Sys) : Closed u u.freeHttpContext :=
  ⟨rfl, rfl, rfl, [.freed], u.freeHttpContext_hist⟩

theorem Closed.beyond {u t : Sys} {k : ℕ} (h : Closed u t) (hk : Beyond k u) : Beyond k t :=
  hk.idle h.state h.hist

theorem Closed.resting {u t : Sys} (h : Closed u t) : t.Resting := by
  intro hm
  rw [h.handler] at hm
  cases hm

theorem Closed.noGetsUpload {u t : Sys} (h : Closed u t) (hg : NoGetsUpload t.core.hist) :
    NoGetsUpload u.core.hist := by
  obtain ⟨new, hhist⟩ := h.hist
  exact .of_append (hhist ▸ hg)

/-- How an event ends on a connection: the upload mapping is told nothing, and has no error; or it is
told once, in the request that the context is in, and the connection is closed. -/
inductive CancelEnd (s : Sys) : Sys → List CancelCall → Prop
  | silent (t : Sys) : (∀ k, Beyond k s → Beyond k t) → t.Resting → CancelEnd s t []
  | told (u t : Sys) (cause : CancelCause) : (∀ k, Beyond k s → Beyond k u) →
      u.core.state ≠ .idle → cause.Fatal → Closed u t →
      CancelEnd s t [⟨begun u.core.hist, cause⟩]

theorem CancelEnd.behind {s u t : Sys} {calls : List CancelCall} (hu : ∀ k, Beyond k s → Beyond k u)
    (h : CancelEnd u t calls) : CancelEnd s t calls := by
  cases h with
  | silent _ ht hrest => exact .silent t (fun k hk => ht k (hu k hk)) hrest
  | told v _ cause hv hstate hfatal ht =>
    exact .told v t cause (fun k hk => hv k (hu k hk)) hstate hfatal ht

namespace Sys

variable {env : Env}

theorem cgiCancel_cases (s : Sys) (cause : CancelCause) : s.cgiCancel cause = [] ∨
    s.core.handler = some .upload ∧ s.cgiCancel cause = [⟨begun s.core.hist, cause⟩] := by
  unfold cgiCancel
  split
  next m hm =>
    cases m with
    | upload => exact .inr ⟨hm, rfl⟩
    | _ => exact .inl rfl
  next => exact .inl rfl

/-- The mapping is told of an event that closes the connection. -/
theorem cgiCancel_end {s u t : Sys} (hu : ∀ k, Beyond k s → Beyond k u) (hcourse : OnCourse u)
    {cause : CancelCause} (hfatal : cause.Fatal) (ht : Closed u t) :
    CancelEnd s t (u.cgiCancel cause) := by
  rcases u.cgiCancel_cases cause with he | ⟨hm, he⟩
  · rw [he]
    exact .silent t (fun k hk => ht.beyond (hu k hk)) ht.resting
  · rw [he]
    refine .told u t cause hu (fun hidle => ?_) hfatal ht
    rw [hcourse.idle hidle] at hm
    cases hm

/-- An event that looks at the result of `HttpRequestProc`. -/
theorem cancelFrom_end {s u t : Sys} (hu : ∀ k, Beyond k s → Beyond k u) (hcourse : OnCourse u)
    (hsettled : Settled u) (hclose : u.app.result ≤ -500 → Closed u t)
    (hopen : ¬ u.app.result ≤ -500 → (∀ k, Beyond k u → Beyond k t) ∧
      t.core.handler = u.core.handler ∧ t.app.result = u.app.result)
    {bound : ℤ} (hbound : bound < 0) (hbound' : -500 ≤ bound) : CancelEnd s t (u.cancelFrom bound) := by
  have hother (hr : ¬ u.app.result ≤ -500) : CancelEnd s t [] := by
    obtain ⟨hbeyond, hhandler, hresult⟩ := hopen hr
    refine .silent t (fun k hk => hbeyond k (hu k hk)) fun hm => ?_
    rw [hresult]
    exact (hsettled (hhandler ▸ hm)).resolve_right hr
  unfold cancelFrom
  split_ifs with hb
  · by_cases hr : u.app.result ≤ -500
    · exact cgiCancel_end hu hcourse hr (hclose hr)
    · rcases u.cgiCancel_cases (.result u.app.result) with he | ⟨hm, -⟩
      · rw [he]
        exact hother hr
      · rcases hsettled hm with h0 | h0
        · omega
        · exact absurd h0 hr
  · exact hother fun hr => hb (hr.trans hbound')

theorem Resting.aside {s t : Sys} (h : s.Resting) (ha : s.Aside t) : t.Resting := by
  obtain ⟨_, _, _, _, _, _, _, _, -, rfl⟩ := ha
  exact h

variable {sid : ℕ} {s : Sys}

/-- `HttpRequestProc`, and what the event does with its result. -/
theorem httpRequestProc_end (hs : ConnReach env sid s) (hrest : s.Resting) (caller : Caller) {t : Sys}
    (ht : Steps env (s.httpRequestProc env caller) t) (hg : NoGetsUpload t.core.hist)
    (hclose : (s.httpRequestProc env caller).app.result ≤ -500 →
      Closed (s.httpRequestProc env caller) t)
    (hopen : ¬ (s.httpRequestProc env caller).app.result ≤ -500 →
      t.core.handler = (s.httpRequestProc env caller).core.handler ∧
        t.app.result = (s.httpRequestProc env caller).app.result)
    {bound : ℤ} (hbound : bound < 0) (hbound' : -500 ≤ bound) :
    CancelEnd s t ((s.httpRequestProc env caller).cancelFrom bound) := by
  have hsteps := @httpRequestProc_steps env s caller hs.unanswered
  obtain ⟨new, -, hhist⟩ := ht.grows
  have hgu : NoGetsUpload (s.httpRequestProc env caller).core.hist := .of_append (hhist ▸ hg)
  have hsettled := httpRequestProc_settled hs hrest caller hgu
  have hcourse := (hs.steps hsteps).onCourse hgu
  exact cancelFrom_end (fun k hk => hsteps.beyond hk) hcourse hsettled hclose
    (fun hr => ⟨fun k hk => ht.beyond hk, hopen hr⟩) hbound hbound'

theorem afterReceive_end (hs : ConnReach env sid s) (hrest : s.Resting)
    (hg : NoGetsUpload ((s.httpRequestProc env .recv).afterReceive env).core.hist) :
    CancelEnd s ((s.httpRequestProc env .recv).afterReceive env)
      ((s.httpRequestProc env .recv).cancelFrom (-400)) := by
  refine httpRequestProc_end hs hrest .recv (afterReceive_steps _) hg (fun hr => ?_) (fun hr => ?_)
    (by decide) (by decide)
  · rw [afterReceive, if_pos hr]
    exact .close _
  · rw [afterReceive, if_neg hr]
    split_ifs
    · exact ⟨rfl, rfl⟩
    · obtain ⟨_, _, _, _, _, _, _, _, -, he⟩ := (s.httpRequestProc env .recv).onSession_aside
        fun t i => sessionReceived t i ((s.httpRequestProc env .recv).app.world.tickCount env)
      rw [he]
      exact ⟨rfl, rfl⟩

theorem onHttpReceive_end (hs : ConnReach env sid s) (hp : s.core.pcb ≠ none) (hrest : s.Resting)
    (p : Option (List Pbuf)) (hg : NoGetsUpload (s.onHttpReceive env p).core.hist) :
    CancelEnd s (s.onHttpReceive env p) (s.cancelInReceive env p) := by
  unfold onHttpReceive cancelInReceive at *
  cases hbefore : s.beforeReceive env p with
  | some t =>
    rw [hbefore] at hg
    obtain ⟨hsteps, haside⟩ := beforeReceive_steps hp hbefore
    exact (afterReceive_end (hs.steps hsteps) (hrest.aside haside) hg).behind fun k hk => hsteps.beyond hk
  | none =>
    have hclosed : Closed s (s.closeHttpContext env) := .close s
    exact .silent _ (fun k hk => hclosed.beyond hk) hclosed.resting

theorem closeOnError_end (hs : ConnReach env sid s) (hrest : s.Resting) (caller : Caller)
    (hg : NoGetsUpload ((s.httpRequestProc env caller).closeOnError env).core.hist) :
    CancelEnd s ((s.httpRequestProc env caller).closeOnError env)
      ((s.httpRequestProc env caller).cancelFrom (-1)) := by
  refine httpRequestProc_end hs hrest caller (closeOnError_steps _) hg (fun hr => ?_) (fun hr => ?_)
    (by decide) (by decide)
  · rw [closeOnError, if_pos hr]
    exact .close _
  · rw [closeOnError, if_neg hr]
    exact ⟨rfl, rfl⟩

theorem onHttpPoll_end (hs : ConnReach env sid s) (hrest : s.Resting)
    (hg : NoGetsUpload (s.onHttpPoll env).core.hist) :
    CancelEnd s (s.onHttpPoll env) (s.cancelInPoll env) := by
  unfold onHttpPoll cancelInPoll at *
  split_ifs at hg ⊢
  · have hclosed : Closed s (s.closeHttpContext env) := .close s
    exact cgiCancel_end (fun k hk => hk) (hs.onCourse (hclosed.noGetsUpload hg)) trivial hclosed
  · exact closeOnError_end hs hrest .poll hg

theorem onHttpSent_end (hs : ConnReach env sid s) (hrest : s.Resting) (len : ℕ)
    (hg : NoGetsUpload (s.onHttpSent env len).core.hist) :
    CancelEnd s (s.onHttpSent env len) (s.cancelInSent env len) := by
  have hbefore := @beforeSent_steps env s len
  have hrest' : Resting (s.beforeSent env len) := by
    unfold beforeSent
    simp only
    split_ifs
    · exact hrest
    · have hsession : Resting (s.onSession fun t i => sessionSent t i (s.app.world.tickCount env)) :=
        hrest.aside (s.onSession_aside _)
      exact hsession
  exact (closeOnError_end (hs.steps hbefore) hrest' .sent hg).behind fun k hk => hbefore.beyond hk

theorem onHttpError_end (hs : ConnReach env sid s) (hg : NoGetsUpload s.onHttpError.core.hist) :
    CancelEnd s s.onHttpError (s.cgiCancel .error) := by
  have hclosed : Closed s s.onHttpError := .free s
  exact cgiCancel_end (fun k hk => hk) (hs.onCourse (hclosed.noGetsUpload hg)) trivial hclosed

end Sys

namespace Server

variable {env : Env} {i : Fin maxConnections}

/-- A change of the globals. -/
theorem withWorld_end {s : Sys} (hrest : s.Resting) (w : World) : CancelEnd s (s.withWorld w) [] :=
  .silent _ (fun _ hk => hk) hrest

theorem put_conn (s : Server) (j : Fin maxConnections) (t : Sys) :
    (s.put j t).conn i = if i = j then t else (s.conn i).withWorld t.app.world := by
  split_ifs with hij
  · subst hij
    simp only [conn, Server.put, Function.update_self]
    rfl
  · simp only [conn, Server.put, Function.update_of_ne hij]
    rfl

theorem onConn_end {s : Server} (hrest : (s.conn i).Resting) (j : Fin maxConnections) {f : Sys → Sys}
    {calls : Sys → List CancelCall} (hg : NoGetsUpload ((s.onConn j f).conn i).core.hist)
    (h : (s.conn i).core.pcb ≠ none → NoGetsUpload (f (s.conn i)).core.hist →
      CancelEnd (s.conn i) (f (s.conn i)) (calls (s.conn i))) :
    CancelEnd (s.conn i) ((s.onConn j f).conn i) (s.tell i j calls) := by
  unfold onConn tell at *
  by_cases hp : (s.ctx j).core.pcb = none
  · rw [if_pos hp, if_pos (.inr hp)]
    exact withWorld_end hrest s.world
  rw [if_neg hp] at hg ⊢
  rw [put_conn] at hg ⊢
  by_cases hij : i = j
  · subst hij
    rw [if_pos rfl] at hg ⊢
    rw [if_neg (by simp [hp])]
    exact h hp hg
  · rw [if_neg hij, if_pos (.inl (Ne.symm hij))]
    exact withWorld_end hrest _

theorem fire_end {s : Server} (hs : Connected env s) (hrest : (s.conn i).Resting) (e : Event)
    (hg : NoGetsUpload ((s.fire env e).conn i).core.hist) :
    CancelEnd (s.conn i) ((s.fire env e).conn i) (s.fireCancels env i e) := by
  cases e with
  | accept pcb ipRemote https =>
    simp only [fire, fireCancels]
    split
    next j hj =>
      rw [put_conn]
      split_ifs with hij
      · subst hij
        refine .silent _ (fun k hk => hk.idle rfl ⟨[.accepted, .reset], rfl⟩) fun hm => ?_
        cases hm
      · exact withWorld_end hrest _
    next => exact withWorld_end hrest s.world
  | receive j p =>
    simp only [fire, fireCancels] at hg ⊢
    refine onConn_end hrest j hg ?_
    exact fun hp hg => Sys.onHttpReceive_end (hs i) hp hrest _ hg
  | poll j =>
    simp only [fire, fireCancels] at hg ⊢
    refine onConn_end hrest j hg ?_
    exact fun _ hg => Sys.onHttpPoll_end (hs i) hrest hg
  | sent j len =>
    simp only [fire, fireCancels] at hg ⊢
    refine onConn_end hrest j hg ?_
    exact fun _ hg => Sys.onHttpSent_end (hs i) hrest len hg
  | error j =>
    simp only [fire, fireCancels] at hg ⊢
    refine onConn_end hrest j hg ?_
    exact fun _ hg => Sys.onHttpError_end (hs i) hg
  | sessionCheck tick => exact withWorld_end hrest _
  | setMyIP addr => exact withWorld_end hrest _
  | setGateway addr => exact withWorld_end hrest _
  | setSubnet addr => exact withWorld_end hrest _
  | listenHttps on => exact withWorld_end hrest _

theorem handle_end {s : Server} (hs : (runs env).Reach s) (hrest : (s.conn i).Resting) (e : Event)
    (hg : NoGetsUpload ((s.handle env e).conn i).core.hist) :
    CancelEnd (s.conn i) ((s.handle env e).conn i) (s.cancels env i e) := by
  have hconnected : Connected env s := fun i => reach_conn hs i
  have hasked : Connected env { s with world := s.world.asked } := hconnected.globals rfl
  exact .behind (u := Server.conn { s with world := s.world.asked } i) (fun _ hk => hk)
    (fire_end hasked hrest e hg)

theorem onConn_grows {s : Server} (j : Fin maxConnections) {f : Sys → Sys}
    (h : (s.conn i).core.pcb ≠ none → ∃ new, (f (s.conn i)).core.hist = new ++ (s.conn i).core.hist) :
    ∃ new, ((s.onConn j f).conn i).core.hist = new ++ (s.conn i).core.hist := by
  unfold onConn
  split_ifs with hp
  · exact ⟨[], rfl⟩
  rw [put_conn]
  split_ifs with hij
  · subst hij
    exact h hp
  · exact ⟨[], rfl⟩

/-- No event takes anything out of a history. -/
theorem handle_grows {s : Server} (hs : (runs env).Reach s) (e : Event) :
    ∃ new, ((s.handle env e).conn i).core.hist = new ++ (s.conn i).core.hist := by
  have hconnected : Connected env s := fun i => reach_conn hs i
  have hu : ((Server.conn { s with world := s.world.asked } i)).Unanswered := (hconnected i).unanswered
  have hsteps {t : Sys} (ht : Steps env (Server.conn { s with world := s.world.asked } i) t) :
      ∃ new, t.core.hist = new ++ (s.conn i).core.hist := by
    obtain ⟨new, -, hhist⟩ := ht.grows
    exact ⟨new, hhist⟩
  unfold handle
  cases e with
  | accept pcb ipRemote https =>
    simp only [fire]
    split
    · rw [put_conn]
      split_ifs with hij
      · subst hij
        exact ⟨[.accepted, .reset], rfl⟩
      · exact ⟨[], rfl⟩
    · exact ⟨[], rfl⟩
  | receive j p => exact onConn_grows j fun hp => hsteps (Sys.onHttpReceive_steps _ _ hu hp)
  | poll j => exact onConn_grows j fun _ => hsteps (Sys.onHttpPoll_steps _ hu)
  | sent j len => exact onConn_grows j fun _ => hsteps (Sys.onHttpSent_steps _ len hu)
  | error j => exact onConn_grows j fun _ => ⟨[.freed], Sys.freeHttpContext_hist _⟩
  | _ => exact ⟨[], rfl⟩

end Server

/-! ## Runs -/

namespace Watched

variable {env : Env} {i : Fin maxConnections}

/-- The invariant of a run. -/
structure Counted (i : Fin maxConnections) (w : Watched) : Prop where
  resting : (w.server.conn i).Resting
  beyond : ∀ c ∈ w.cancels, Beyond c.1.request (w.server.conn i)
  once : w.OneTimeFatal i

theorem Counted.handle {w : Watched} (h : Counted i w) (hw : (Server.runs env).Reach w.server)
    (e : Event) (hg : NoGetsUpload ((w.server.handle env e).conn i).core.hist) :
    Counted i (w.handle env i e) := by
  have hend := Server.handle_end hw h.resting e hg
  obtain ⟨hrest, hbeyond, hpairs, hfatal⟩ := h
  unfold Watched.handle
  generalize w.server.cancels env i e = calls at hend ⊢
  cases hend with
  | silent _ hkeep hrest' => exact ⟨hrest', fun c hc => hkeep _ (hbeyond c hc), hpairs, hfatal⟩
  | told u _ cause hkeep hstate hcause hclosed =>
    have hlater : ∀ c ∈ w.cancels, c.1.request < begun u.core.hist := fun c hc =>
      (hkeep _ (hbeyond c hc)).2 hstate
    refine ⟨hclosed.resting, fun c hc => ?_, List.pairwise_cons.mpr ⟨fun c hc => ?_, hpairs⟩, ?_⟩
    · rcases List.mem_cons.mp hc with rfl | hc
      · obtain ⟨new, hhist⟩ := hclosed.hist
        refine ⟨?_, fun hne => absurd hclosed.state hne⟩
        rw [hhist, begun_append]
        exact Nat.le_add_left _ _
      · exact hclosed.beyond (hkeep _ (hbeyond c hc))
    · exact (hlater c hc).ne'
    · intro c hc
      rcases List.mem_cons.mp hc with rfl | hc
      · exact ⟨hcause, hclosed.pcb⟩
      · exact hfatal c hc

/-- In every run in which nobody gets the upload mapping on the connection, its `OnCancel` is called at
most once in a request, and only when the request is given up. -/
theorem cancel_once (env : Env) (i : Fin maxConnections) {w : Watched} (h : (runs env i).Reach w)
    (hg : NoGetsUpload (w.server.ctx i).core.hist) : w.OneTimeFatal i := by
  have hcounted : (Server.runs env).Reach w.server ∧
      (NoGetsUpload (w.server.conn i).core.hist → Counted i w) := by
    refine h.invariant (P := fun w => (Server.runs env).Reach w.server ∧
      (NoGetsUpload (w.server.conn i).core.hist → Counted i w)) ?_ ?_
    · rintro w rfl
      refine ⟨.init rfl, fun _ => ⟨fun hm => ?_, fun c hc => ?_, List.Pairwise.nil, fun c hc => ?_⟩⟩
      · cases hm
      · cases hc
      · cases hc
    · rintro w e w' ⟨hw, hcounted⟩ ⟨hfault, rfl⟩
      refine ⟨hw.step e ⟨hfault, rfl⟩, fun hg => ?_⟩
      obtain ⟨new, hhist⟩ := @Server.handle_grows env i _ hw e
      exact (hcounted (.of_append (hhist ▸ hg))).handle hw e hg
  exact (hcounted.2 hg).once

/-- A sane sequence of events is a run. -/
theorem reach_play {es : List Event} (hs : Server.Sane env Server.boot es) :
    (runs env i).Reach (play env i es) := by
  have hall (es : List Event) : ∀ w : Watched, (runs env i).Reach w → Server.Sane env w.server es →
      (runs env i).Reach (es.foldl (Watched.handle env i) w) := by
    induction es with
    | nil => exact fun w hw _ => hw
    | cons e es ih => exact fun w hw hs => ih _ (hw.step e ⟨hs.1, rfl⟩) hs.2
  exact hall es _ (.init rfl) hs

/-- A client logs in from address 1, and comes back with a request. -/
def visit (request : Bytes) : List Event :=
  [.accept 0 1 false,
    .data 0 (bytes "POST /auth/login.html HTTP/1.1\r\nContent-Length: 25\r\n\r\n"),
    .data 0 (bytes "username=admin&password=x"), .error 0, .accept 1 1 false, .data 0 request]

/-- An upload, and an error of the connection before its body arrives. -/
@[irreducible] def uploadLost : List Event := visit (bytes
  "POST /api/upload.cgi HTTP/1.1\r\nCookie: SID=000003E8\r\nContent-Length: 9\r\n\r\n") ++ [.error 0]

theorem cancel_once_uploadLost :
    (play (Env.calm (bytes "page")) 0 uploadLost).cancels.map (fun c => c.1) = [⟨2, .error⟩] ∧
      (play (Env.calm (bytes "page")) 0 uploadLost).OneTimeFatal 0 := by
  have hrun : Server.Sane (Env.calm (bytes "page")) Server.boot uploadLost ∧
      (play (Env.calm (bytes "page")) 0 uploadLost).cancels.map (fun c => c.1) = [⟨2, .error⟩] ∧
      NoGetsUpload ((play (Env.calm (bytes "page")) 0 uploadLost).server.ctx 0).core.hist := by
    decide +kernel
  obtain ⟨hsane, hcalls, hg⟩ := hrun
  exact ⟨hcalls, cancel_once _ 0 (reach_play hsane) hg⟩

/-- A `GET` of the upload mapping, and a poll while the 404 is on its way. -/
@[irreducible] def uploadAsked : List Event :=
  visit (bytes "GET /api/upload.cgi HTTP/1.1\r\nCookie: SID=000003E8\r\n\r\n") ++ [.poll 0]

theorem cancel_once_fails : ¬ ∀ (env : Env) (i : Fin maxConnections) (w : Watched),
    (runs env i).Reach w → w.OneTimeFatal i := by
  intro h
  have hrun : Server.Sane (Env.calm (bytes "page")) Server.boot uploadAsked ∧
      ¬ (play (Env.calm (bytes "page")) 0 uploadAsked).OneTimeFatal 0 := by decide +kernel
  obtain ⟨hsane, htwice⟩ := hrun
  exact htwice (h _ 0 _ (reach_play hsane))

end Watched

end StraightHttpd
