import StraightHttpd.Httpd.Server
import StraightHttpd.Lib.Monitor

/-! # The order of the callbacks of a request

Which callbacks of a mapping are called, in which order and how often, from the first byte of a
request to the reset or the end of its context.
-/

set_option autoImplicit false

namespace StraightHttpd
open CMemory

/-- What has happened to the present request. -/
structure Progress where
  complete : Bool -- the headers are
  headersCalled : Bool
  requestCalled : Bool
  refused : Bool
  answered : Bool -- the response header is made
  declared : ℤ
  accepted : ℤ

def Progress.fresh : Progress where
  complete := false
  headersCalled := false
  requestCalled := false
  refused := false
  answered := false
  declared := 0
  accepted := 0

/-- The length of the body that the headers declare, when it is not chunked. -/
def Gate.declared (g : Gate) : ℤ := if g.chunked then 0 else max g.contentLength 0

def progress : Monitor Progress Obs where
  start := .fresh
  next l
    | .accepted | .begin | .reset | .freed => .fresh
    | .headers g => { l with complete := true, declared := g.declared }
    | .consumed .body k => { l with accepted := l.accepted + k }
    | .refused => { l with refused := true }
    | .call .headersReceived _ => { l with headersCalled := true }
    | .call .requestReceived _ => { l with requestCalled := true }
    | .response _ => { l with answered := true }
    | _ => l

/-- The protocol: when a callback may be called. -/
def Progress.Allows (l : Progress) : Obs → Prop
  | .call .headersReceived _ => l.headersCalled = false
  | .call (.contentReceived _ _ _) _ =>
    l.headersCalled = true ∧ l.requestCalled = false ∧ l.refused = false
  | .call .requestReceived _ =>
    l.requestCalled = false ∧ l.refused = false ∧ l.complete = true ∧ l.declared ≤ l.accepted
  | .call .readContent _ => l.answered = true
  | _ => True

theorem progress_append {new : List Obs} (h : ∀ o ∈ new, Obs.Aside o) (hist : List Obs) :
    progress.after (new ++ hist) = progress.after hist := by
  refine Monitor.after_append fun o ho l => ?_
  have ha := h o ho
  cases o <;> first | rfl | exact ha.elim

theorem allows_append {new hist : List Obs} (h : ∀ o ∈ new, Obs.Aside o)
    (ha : progress.Along Progress.Allows hist) : progress.Along Progress.Allows (new ++ hist) := by
  refine Monitor.Along.append (fun o ho l => ?_) ha
  have hn := h o ho
  cases o <;> trivial

/-! ## The invariant -/

/-- A request that waits for its body. -/
structure Taking (s : Sys) (l : Progress) : Prop where
  complete : l.complete = true
  requestCalled : l.requestCalled = false
  refused : l.refused = false
  headersCalled : ∀ m, s.core.handler = some m → m.mapping.onContentReceived.isSome = true →
    l.headersCalled = true
  missing : l.declared ≤ l.accepted ∨ s.core.state = .bodyReceiving ∧ s.core.chunked = false ∧
    l.declared = s.core.contentLength ∧ l.accepted = s.core.contentReceived
  plain : s.core.state = .bodyReceiving → s.core.chunked = false

/-- A request that `OnRequestReceived` may be called for. -/
structure Progress.Ready (l : Progress) : Prop where
  complete : l.complete = true
  requestCalled : l.requestCalled = false
  refused : l.refused = false
  enough : l.declared ≤ l.accepted

/-- The invariant of a connection. -/
structure InOrder (s : Sys) : Prop where
  order : progress.Along Progress.Allows s.core.hist
  before : ¬ s.core.state.PastHeaders →
    progress.after s.core.hist = .fresh ∧ s.core.contentReceived = 0
  receiving : s.core.state.PastHeaders → ¬ s.core.state.Received →
    Taking s (progress.after s.core.hist)
  done : s.core.state = .bodyDone → s.app.result = 0 → (progress.after s.core.hist).Ready
  sending : s.core.sending = true → (progress.after s.core.hist).answered = true

namespace InOrder

variable {env : Env} {s t : Sys}

/-- Steps that change nothing that the order depends on. -/
theorem same (h : InOrder s)
    (he : (t.core.state, t.core.hist, t.core.contentLength, t.core.contentReceived, t.core.chunked,
        t.core.handler, t.core.sending, t.app.result) =
      (s.core.state, s.core.hist, s.core.contentLength, s.core.contentReceived, s.core.chunked,
        s.core.handler, s.core.sending, s.app.result)) : InOrder t := by
  simp only [Prod.mk.injEq] at he
  obtain ⟨hstate, hhist, hlength, hreceived, hchunked, hhandler, hsending, hresult⟩ := he
  refine ⟨hhist ▸ h.order, fun hp => ?_, fun hp hr => ?_, fun hd hz => ?_, fun hs => ?_⟩
  · rw [hhist, hreceived]
    exact h.before (hstate ▸ hp)
  · obtain ⟨hc, hq, hf, hh, hm, hb⟩ := h.receiving (hstate ▸ hp) (hstate ▸ hr)
    rw [hhist]
    refine ⟨hc, hq, hf, hhandler ▸ hh, ?_, ?_⟩
    · rw [hstate, hchunked, hlength, hreceived]
      exact hm
    · rw [hstate, hchunked]
      exact hb
  · rw [hhist]
    exact h.done (hstate ▸ hd) (hresult ▸ hz)
  · rw [hhist]
    exact h.sending (hsending ▸ hs)

theorem noteAll (h : InOrder s) {new : List Obs} (hnew : ∀ o ∈ new, Obs.Aside o) :
    InOrder (s.noteAll new) where
  order := allows_append hnew h.order
  before hp := by
    rw [show (s.noteAll new).core.hist = new ++ s.core.hist from rfl, progress_append hnew]
    exact h.before hp
  receiving hp hr := by
    rw [show (s.noteAll new).core.hist = new ++ s.core.hist from rfl, progress_append hnew]
    obtain ⟨hc, hq, hf, hh, hm, hb⟩ := h.receiving hp hr
    exact ⟨hc, hq, hf, hh, hm, hb⟩
  done hd hz := by
    rw [show (s.noteAll new).core.hist = new ++ s.core.hist from rfl, progress_append hnew]
    exact h.done hd hz
  sending hs := by
    rw [show (s.noteAll new).core.hist = new ++ s.core.hist from rfl, progress_append hnew]
    exact h.sending hs

/-- A context between two requests. -/
theorem between (hstate : t.core.state = .idle) (hreceived : t.core.contentReceived = 0)
    (hsending : t.core.sending = false) (horder : progress.Along Progress.Allows t.core.hist)
    (hfresh : progress.after t.core.hist = .fresh) : InOrder t where
  order := horder
  before _ := ⟨hfresh, hreceived⟩
  receiving hp := absurd (hstate ▸ hp) (by decide)
  done hd := by rw [hstate] at hd; cases hd
  sending hs := by rw [hsending] at hs; cases hs

/-- A context that has been freed. -/
theorem freed (horder : progress.Along Progress.Allows s.core.hist) : InOrder s.freeHttpContext := by
  have hhist := s.freeHttpContext_hist
  refine between rfl rfl rfl ?_ ?_
  · rw [hhist]
    exact ⟨trivial, horder⟩
  · rw [hhist]
    rfl

/-- A request whose headers are read. -/
theorem reading (st : HttpState) (hstate : t.core.state = st) (hst : ¬ st.PastHeaders)
    (hreceived : t.core.contentReceived = 0) (hsending : t.core.sending = false)
    (horder : progress.Along Progress.Allows t.core.hist)
    (hfresh : progress.after t.core.hist = .fresh) : InOrder t where
  order := horder
  before _ := ⟨hfresh, hreceived⟩
  receiving hp := absurd (hstate ▸ hp) hst
  done hd := by
    rw [hstate] at hd
    exact absurd (hd ▸ (by decide : HttpState.bodyDone.PastHeaders)) hst
  sending hs := by rw [hsending] at hs; cases hs

/-- Before the headers are complete, nothing is being sent. -/
theorem not_sending (h : InOrder s) (hp : ¬ s.core.state.PastHeaders) : s.core.sending = false := by
  rw [← Bool.not_eq_true]
  intro hs
  have ha := h.sending hs
  rw [(h.before hp).1] at ha
  cases ha

/-- A request whose body is complete, with its callback called. -/
theorem answering (hstate : t.core.state.Received)
    (hresult : t.core.state = .bodyDone → t.app.result ≠ 0)
    (horder : progress.Along Progress.Allows t.core.hist)
    (hsending : t.core.sending = true → (progress.after t.core.hist).answered = true) :
    InOrder t where
  order := horder
  before hp := absurd (Nat.lt_of_lt_of_le (by decide) hstate) hp
  receiving _ hr := absurd hstate hr
  done hd hz := absurd hz (hresult hd)
  sending := hsending

/-! ## The header -/

theorem requestLine (h : InOrder s) {line : Bytes} (hs : s.core.state = .headerReceiving)
    (ht : s.requestLine line = some t) : InOrder t := by
  have hp : ¬ s.core.state.PastHeaders := by rw [hs]; decide
  obtain ⟨hfresh, hreceived⟩ := h.before hp
  have hsending := h.not_sending hp
  have hstate := (Sys.requestLine_state ht).trans hs
  obtain ⟨method, m, q, rfl⟩ := Sys.requestLine_eq ht
  have hcore : ∃ handler, ((s.setTarget method m q).cgiSetCgiHandler).core =
      { (s.setTarget method m q).core with handler := handler } := by
    unfold Sys.cgiSetCgiHandler
    split <;> exact ⟨_, rfl⟩
  obtain ⟨handler, hcore⟩ := hcore
  refine reading .headerReceiving hstate (by decide) ?_ ?_ ?_ ?_ <;> rw [hcore]
  · exact hreceived
  · exact hsending
  · exact h.order
  · exact hfresh

theorem headerLine (h : InOrder s) (hs : s.core.state = .headerReceiving) (mem : Bytes) (n : ℕ) :
    InOrder (s.headerLine env mem n) := by
  have hp : ¬ s.core.state.PastHeaders := by rw [hs]; decide
  obtain ⟨hfresh, hreceived⟩ := h.before hp
  have hkept := @Sys.headerLine_kept env s mem n
  have hsending : (s.headerLine env mem n).core.sending = false := by
    rw [← h.not_sending hp]
    unfold Sys.headerLine
    split_ifs <;> first | rfl | (rw [Sys.cgiHeaderReceived_core]; rfl)
  refine reading .headerReceiving (hkept.state.trans hs) (by decide) (hkept.received hreceived)
    hsending ?_ ?_
  · rcases hkept.hist with he | ⟨line, he⟩
    · rw [he]
      exact h.order
    · rw [he]
      exact ⟨trivial, h.order⟩
  · rcases hkept.hist with he | ⟨line, he⟩
    · rw [he]
      exact hfresh
    · rw [he]
      exact hfresh

/-- A mapping that takes content has a headers callback. -/
theorem onHeadersReceived_isSome {m : Cgi} (h : m.mapping.onContentReceived.isSome = true) :
    m.mapping.onHeadersReceived.isSome = true := by
  cases m <;> first | rfl | cases h

end InOrder

/-- The state behind the header, and the length of the body that is waited for in it. -/
theorem bodyState_declared (s : Sys) :
    s.bodyState = .bodyReceiving ∧ s.core.chunked = false ∧ s.gate.declared = s.core.contentLength ∨
      s.bodyState ≠ .bodyReceiving ∧ s.gate.declared = 0 := by
  have hdeclared : s.gate.declared = if s.core.chunked then 0 else max s.core.contentLength 0 := rfl
  rw [hdeclared]
  unfold Sys.bodyState
  by_cases hchunked : s.core.chunked = true
  · rw [if_pos hchunked, if_pos hchunked]
    exact .inr ⟨nofun, rfl⟩
  rw [if_neg hchunked, if_neg hchunked]
  by_cases hlength : s.core.contentLength > 0
  · rw [if_pos hlength]
    exact .inl ⟨rfl, Bool.eq_false_iff.mpr hchunked, max_eq_left hlength.le⟩
  · rw [if_neg hlength]
    exact .inr ⟨nofun, max_eq_right (not_lt.mp hlength)⟩

/-- The progress of a request behind its headers. -/
def Progress.behind (g : Gate) (called : Bool) : Progress :=
  { Progress.fresh with complete := true, headersCalled := called, declared := g.declared }

theorem progress_behind {g : Gate} {called hist : List Obs} (hfresh : progress.after hist = .fresh)
    (hcalled : called = [] ∨ ∃ m, called = [.call .headersReceived m]) :
    progress.after (called ++ .headers g :: hist) = .behind g !called.isEmpty := by
  have hgate : progress.after (.headers g :: hist) = .behind g false := by
    have hnext : progress.after (.headers g :: hist) =
        { progress.after hist with complete := true, declared := g.declared } := rfl
    rw [hnext, hfresh]
    rfl
  rcases hcalled with rfl | ⟨m, rfl⟩
  · exact hgate
  · have hnext : progress.after (.call .headersReceived m :: .headers g :: hist) =
        { progress.after (.headers g :: hist) with headersCalled := true } := rfl
    exact hnext.trans (by rw [hgate]; rfl)

theorem allows_behind {g : Gate} {called hist : List Obs} (hfresh : progress.after hist = .fresh)
    (hcalled : called = [] ∨ ∃ m, called = [.call .headersReceived m])
    (h : progress.Along Progress.Allows hist) :
    progress.Along Progress.Allows (called ++ .headers g :: hist) := by
  rcases hcalled with rfl | ⟨m, rfl⟩
  · exact ⟨trivial, h⟩
  · have hgate : progress.after (.headers g :: hist) = .behind g false :=
      progress_behind hfresh (.inl rfl)
    refine ⟨?_, trivial, h⟩
    change (progress.after (.headers g :: hist)).headersCalled = false
    rw [hgate]
    rfl

namespace InOrder

variable {env : Env} {s t : Sys}

theorem afterHeaders (h : InOrder s) (hs : s.core.state = .headerDone) :
    InOrder (s.afterHeaders env) := by
  have hp : ¬ s.core.state.PastHeaders := by rw [hs]; decide
  obtain ⟨hfresh, hreceived⟩ := h.before hp
  have hsending := h.not_sending hp
  obtain ⟨tLastSent, called, hcore, hcalled, hsome⟩ := @Sys.afterHeaders_core env s
  have hafter := @progress_behind s.gate called _ hfresh hcalled
  have horder := @allows_behind s.gate called _ hfresh hcalled h.order
  generalize s.afterHeaders env = t at hcore hsome ⊢
  have hsending' : t.core.sending = false := by rw [hcore]; exact hsending
  by_cases hneg : t.app.result < 0
  · rw [if_pos hneg, if_pos hneg] at hcore
    refine answering ?_ ?_ ?_ ?_
    · rw [hcore]
      exact (by decide : HttpState.sendingHeader.Received)
    · rw [hcore]
      nofun
    · rw [hcore]
      exact ⟨trivial, horder⟩
    · rw [hsending']
      nofun
  rw [if_neg hneg, if_neg hneg, List.nil_append] at hcore
  have hhist : t.core.hist = called ++ .headers s.gate :: s.core.hist := by rw [hcore]
  have hstate : t.core.state = s.bodyState := by rw [hcore]
  have hpast : t.core.state.PastHeaders := hstate ▸ s.bodyState_pastHeaders
  rw [← hhist] at hafter horder
  have hdeclared := bodyState_declared s
  refine ⟨horder, fun hb => absurd hpast hb, fun _ hr => ?_, fun hd _ => ?_, fun hsend => ?_⟩
  · rw [hafter]
    refine ⟨rfl, rfl, rfl, fun m hm hcontent => ?_, ?_, fun hb => ?_⟩
    · rw [hcore] at hm
      have hne : called ≠ [] := hsome (not_lt.mp hneg) m hm (onHeadersReceived_isSome hcontent)
      change (!called.isEmpty) = true
      rw [Bool.not_eq_true', List.isEmpty_eq_false_iff]
      exact hne
    · rw [hstate, hcore]
      rcases hdeclared with ⟨hb, hchunked, hlength⟩ | ⟨-, hzero⟩
      · exact .inr ⟨hb, hchunked, hlength, hreceived.symm⟩
      · exact .inl hzero.le
    · rw [hcore]
      rcases hdeclared with ⟨-, hchunked, -⟩ | ⟨hb', -⟩
      · exact hchunked
      · exact absurd (hstate.symm.trans hb) hb'
  · rw [hafter]
    refine ⟨rfl, rfl, rfl, ?_⟩
    rcases hdeclared with ⟨hb, -, -⟩ | ⟨-, hzero⟩
    · rw [hstate, hb] at hd
      cases hd
    · exact hzero.le
  · rw [hsending'] at hsend
    cases hsend

/-! ## The body -/

/-- A request that waits for its body goes on waiting. -/
theorem waiting (h : InOrder s) (hst : ¬ t.core.state.Received) (hp : t.core.state.PastHeaders)
    (hsending : t.core.sending = s.core.sending)
    (hanswered : (progress.after t.core.hist).answered = (progress.after s.core.hist).answered)
    (horder : progress.Along Progress.Allows t.core.hist)
    (htaking : Taking t (progress.after t.core.hist)) : InOrder t where
  order := horder
  before hb := absurd hp hb
  receiving _ _ := htaking
  done hd := absurd (hd ▸ (by decide : HttpState.bodyDone.Received)) hst
  sending hs := hanswered.trans (h.sending (hsending.symm.trans hs))

theorem chunkLine (h : InOrder s) (hs : s.core.state = .chunkLenReceiving) :
    InOrder s.receiveChunkLine := by
  unfold Sys.receiveChunkLine
  split
  · exact h
  have htaking := h.receiving (by rw [hs]; decide) (by rw [hs]; decide)
  have hmissing : (progress.after s.core.hist).declared ≤ (progress.after s.core.hist).accepted := by
    rcases htaking.missing with hle | ⟨hb, -⟩
    · exact hle
    · rw [hs] at hb
      cases hb
  refine h.waiting ?_ ?_ rfl rfl ⟨trivial, h.order⟩ ?_
  · exact (by decide : ¬ HttpState.chunkReceiving.Received)
  · exact (by decide : HttpState.chunkReceiving.PastHeaders)
  · exact ⟨htaking.complete, htaking.requestCalled, htaking.refused, htaking.headersCalled,
      .inl hmissing, nofun⟩

/-- The call of a content callback. -/
theorem contentCalled (h : InOrder s) (size : ℤ)
    (hs : s.core.state = .chunkReceiving ∨ s.core.state = .bodyReceiving) :
    InOrder (s.cgiContentReceived env size).1 := by
  have hp : s.core.state.PastHeaders := by rcases hs with h | h <;> rw [h] <;> decide
  have hr : ¬ s.core.state.Received := by rcases hs with h | h <;> rw [h] <;> decide
  have htaking := h.receiving hp hr
  have hend := @Sys.cgiContentReceived_end env s size
  generalize s.cgiContentReceived env size = r at hend ⊢
  cases hend with
  | called m f t a consumed hm hf ht he =>
    subst ht
    have hallowed : (progress.after s.core.hist).headersCalled = true :=
      htaking.headersCalled m hm (by rw [hf]; rfl)
    refine h.waiting hr hp rfl rfl ⟨⟨hallowed, htaking.requestCalled, htaking.refused⟩, h.order⟩ ?_
    exact ⟨htaking.complete, htaking.requestCalled, htaking.refused, htaking.headersCalled,
      htaking.missing, htaking.plain⟩
  | ignored => exact h

/-- Only the bytes of a plain body count. -/
theorem progress_consumed (hist : List Obs) (what : Span) (k : ℤ) :
    progress.after (.consumed what k :: hist) =
      { progress.after hist with
        accepted := (progress.after hist).accepted + if what = .body then k else 0 } := by
  cases what <;> simp only [Monitor.after, progress, reduceCtorEq, if_false, if_true, add_zero]

/-- A request whose body is complete. -/
theorem completed (h : InOrder s) (hstate : t.core.state = .bodyDone)
    (hsending : t.core.sending = s.core.sending)
    (hanswered : (progress.after t.core.hist).answered = (progress.after s.core.hist).answered)
    (horder : progress.Along Progress.Allows t.core.hist)
    (hready : (progress.after t.core.hist).Ready) : InOrder t where
  order := horder
  before hp := absurd (hstate ▸ (by decide : HttpState.bodyDone.PastHeaders)) hp
  receiving _ hr := absurd (hstate ▸ (by decide : HttpState.bodyDone.Received)) hr
  done _ _ := hready
  sending hs := hanswered.trans (h.sending (hsending.symm.trans hs))

/-- What has been accepted after `consumed` more bytes: enough, or as much as has been received. -/
theorem taken_missing {l : Progress} (htaking : Taking s l) {consumed : ℤ} (hpos : 0 < consumed) :
    l.declared ≤ l.accepted + (if s.contentSpan = .body then consumed else 0) ∨
      s.core.state = .bodyReceiving ∧ s.core.chunked = false ∧ l.declared = s.core.contentLength ∧
        l.accepted + (if s.contentSpan = .body then consumed else 0) =
          s.core.contentReceived + consumed := by
  rcases htaking.missing with hle | ⟨hb, hchunked, hdeclared, haccepted⟩
  · left
    split_ifs <;> omega
  · right
    have hspan : s.contentSpan = .body := by
      unfold Sys.contentSpan
      rw [hb]
      rfl
    rw [if_pos hspan, haccepted]
    exact ⟨hb, hchunked, hdeclared, rfl⟩

/-- Bytes are taken, of a chunk or of a body with a declared length. -/
theorem contentTaken (h : InOrder s) {consumed : ℤ} (hpos : 0 < consumed)
    (hs : s.core.state = .chunkReceiving ∨ s.core.state = .bodyReceiving) :
    InOrder (s.contentTaken env consumed) := by
  have hp : s.core.state.PastHeaders := by rcases hs with h | h <;> rw [h] <;> decide
  have hr : ¬ s.core.state.Received := by rcases hs with h | h <;> rw [h] <;> decide
  have htaking := h.receiving hp hr
  have hmissing := taken_missing htaking hpos
  obtain ⟨state, length, received, tLastSent, hcore, hcases⟩ := @Sys.contentTaken_core env s consumed
  generalize s.contentTaken env consumed = t at hcore ⊢
  have hstate : t.core.state = state := by rw [hcore]
  have hsending : t.core.sending = s.core.sending := by rw [hcore]
  have hhist : t.core.hist = .consumed s.contentSpan consumed :: s.core.hist := by rw [hcore]
  have hafter := progress_consumed s.core.hist s.contentSpan consumed
  have horder : progress.Along Progress.Allows (.consumed s.contentSpan consumed :: s.core.hist) :=
    ⟨trivial, h.order⟩
  rw [← hhist] at hafter horder
  have hanswered : (progress.after t.core.hist).answered = (progress.after s.core.hist).answered := by
    rw [hafter]
  rcases hcases with ⟨-, hst, hl, hrec⟩ | ⟨hge, hchunked, hst, -, -⟩ | ⟨hge, -, hst, -, -⟩
  · refine h.waiting (hstate ▸ hst ▸ hr) (hstate ▸ hst ▸ hp) hsending hanswered horder ?_
    rw [hafter]
    refine ⟨htaking.complete, htaking.requestCalled, htaking.refused, ?_, ?_, ?_⟩
    · rw [hcore]
      exact htaking.headersCalled
    · rw [hcore, hst, hl, hrec]
      exact hmissing
    · rw [hcore, hst]
      exact htaking.plain
  · -- only a chunk ends a chunked body
    have henough : (progress.after t.core.hist).declared ≤ (progress.after t.core.hist).accepted := by
      rw [hafter]
      rcases hmissing with hle | ⟨-, hplain, -⟩
      · exact hle
      · rw [hplain] at hchunked
        cases hchunked
    by_cases hlast : s.core.contentLength = 2
    · rw [if_pos hlast] at hst
      refine h.completed (hstate.trans hst) hsending hanswered horder ?_
      rw [hafter] at henough ⊢
      exact ⟨htaking.complete, htaking.requestCalled, htaking.refused, henough⟩
    · rw [if_neg hlast] at hst
      rw [hst] at hstate
      refine h.waiting (by rw [hstate]; decide) (by rw [hstate]; decide) hsending hanswered horder ?_
      refine ⟨?_, ?_, ?_, ?_, .inl henough, fun hb => ?_⟩
      · rw [hafter]
        exact htaking.complete
      · rw [hafter]
        exact htaking.requestCalled
      · rw [hafter]
        exact htaking.refused
      · rw [hafter, hcore]
        exact htaking.headersCalled
      · rw [hstate] at hb
        cases hb
  · refine h.completed (hstate.trans hst) hsending hanswered horder ?_
    rw [hafter]
    refine ⟨htaking.complete, htaking.requestCalled, htaking.refused, ?_⟩
    rcases hmissing with hle | ⟨-, -, hdeclared, haccepted⟩
    · exact hle
    · exact hdeclared.trans_le (hge.trans haccepted.ge)

theorem receiveContent (h : InOrder s) (size : ℤ)
    (hs : s.core.state = .chunkReceiving ∨ s.core.state = .bodyReceiving) :
    InOrder (s.receiveContent env size).1 := by
  have hcalled : InOrder (s.cgiContentReceived env size).1 := h.contentCalled size hs
  have hstate : (s.cgiContentReceived env size).1.core.state = s.core.state := by
    have hend := @Sys.cgiContentReceived_end env s size
    generalize s.cgiContentReceived env size = r at hend ⊢
    cases hend with
    | called m f t a consumed hm hf ht he =>
      subst ht
      rfl
    | ignored => rfl
  unfold Sys.receiveContent
  generalize s.cgiContentReceived env size = r at hcalled hstate ⊢
  obtain ⟨t, consumed⟩ := r
  simp only at hcalled hstate ⊢
  split_ifs with hstop
  · exact hcalled
  · rw [not_or, not_le, not_le] at hstop
    exact hcalled.contentTaken hstop.2 (hstate ▸ hs)

theorem requestDone (h : InOrder s) (hs : s.core.state = .bodyDone) (hz : s.app.result = 0) :
    InOrder (s.requestDone env) := by
  obtain ⟨hcomplete, hcalled, hrefused, henough⟩ := h.done hs hz
  have hend := @Sys.cgiRequestReceived_end env s
  have hresult : (s.requestDone env).app.result ≠ 0 := by
    unfold Sys.requestDone
    simp only
    split_ifs with hzero
    · exact (by decide : codeOk ≠ 0)
    · exact hzero
  have hcore : (s.requestDone env).core = (s.cgiRequestReceived env).core := by
    unfold Sys.requestDone
    simp only
    split_ifs <;> rfl
  have ht : progress.Along Progress.Allows (s.cgiRequestReceived env).core.hist ∧
      (progress.after (s.cgiRequestReceived env).core.hist).answered =
        (progress.after s.core.hist).answered ∧
      (s.cgiRequestReceived env).core.sending = s.core.sending := by
    generalize s.cgiRequestReceived env = t at hend ⊢
    cases hend with
    | called m f hm hf =>
      let u := (s.note (.call .requestReceived m)).onApp (f env s.core)
      obtain ⟨new, hnew, he⟩ := u.noteSession_eq s
      change progress.Along Progress.Allows (u.noteSession s).core.hist ∧
        (progress.after (u.noteSession s).core.hist).answered = _ ∧ _
      rw [he]
      refine ⟨allows_append hnew ⟨⟨hcalled, hrefused, hcomplete, henough⟩, h.order⟩, ?_, rfl⟩
      exact (congrArg Progress.answered (progress_append hnew u.core.hist) :)
    | ignored => exact ⟨h.order, rfl, rfl⟩
  obtain ⟨horder, hanswered, hsending⟩ := ht
  refine answering ?_ (fun _ => hresult) ?_ ?_
  · rw [Sys.requestDone_state, hs]
    decide
  · rw [hcore]
    exact horder
  · rw [hcore, hsending, hanswered]
    exact h.sending

/-! ## The response -/

theorem sends (h : InOrder s) (hsends : Sys.Sends s t) : InOrder t := by
  obtain ⟨new, _, _, _, _, _, hnew, rfl⟩ := hsends
  exact (h.noteAll fun o ho => (hnew o ho).aside).same rfl

theorem sendOrEnd (h : InOrder s) : InOrder (s.sendOrEnd env).1 := by
  have hend := @Sys.sendOrEnd_end env s
  generalize s.sendOrEnd env = r at hend ⊢
  cases hend with
  | sent t ht => exact h.sends ht
  | failed t ht =>
    have hsends := h.sends ht
    exact answering (by decide : HttpState.requestEnd.Received) nofun hsends.order hsends.sending

theorem prepareHeader (h : InOrder s) (hs : s.core.state.Received) (hr : s.app.result ≠ 0) :
    InOrder (s.prepareHeader env) ∧
      (progress.after (s.prepareHeader env).core.hist).answered = true := by
  let c := { s.core with tLastSent := s.app.stampNow env, sendMaxBlock := maxSendBufSize }
  let a := { s.app with dwOperStage := 0, dwOperIndex := 0 }
  have hresult := cgiSetResponseHeaders_result env c a (codeInfo a.result)
  exact ⟨answering hs (fun _ => hresult.trans_ne hr) ⟨trivial, h.order⟩ fun _ => rfl, rfl⟩

theorem sendHeader (h : InOrder s) (hs : s.core.state.Received) (hr : s.app.result ≠ 0) :
    InOrder (s.sendHeader env).1 := by
  obtain ⟨hprepared, hanswered⟩ := @prepareHeader env _ h hs hr
  have hend := @Sys.sendOrEnd_end env (s.prepareHeader env)
  have hsend : InOrder ((s.prepareHeader env).sendOrEnd env).1 := hprepared.sendOrEnd
  unfold Sys.sendHeader
  generalize (s.prepareHeader env).sendOrEnd env = r at hend hsend ⊢
  cases hend with
  | sent t ht =>
    obtain ⟨new, _, _, _, _, _, hnew, rfl⟩ := ht
    refine answering ?_ ?_ hsend.order fun _ => ?_
    · simp only [Sys.headerOut, Sys.setState_state]
      split_ifs <;> decide
    · simp only [Sys.headerOut, Sys.setState_state]
      split_ifs <;> exact fun he => by cases he
    · have hasides : ∀ o ∈ new, Obs.Aside o := fun o ho => (hnew o ho).aside
      exact (congrArg Progress.answered (progress_append hasides _)).trans hanswered
  | failed t ht => exact hsend

theorem endResponse (h : InOrder s) : InOrder s.endResponse :=
  answering (by decide : HttpState.requestEnd.Received) nofun ⟨trivial, h.order⟩ h.sending

theorem headerSent (h : InOrder s) : InOrder s.headerSent := by
  unfold Sys.headerSent
  split_ifs
  · exact h.endResponse
  · exact answering (by decide : HttpState.sendingBody.Received) nofun h.order h.sending

theorem cgiLoadContentToSend (h : InOrder s) (caller : Caller) (hs : s.core.state = .sendingBody)
    (hsend : s.core.sending = true) : InOrder (s.cgiLoadContentToSend env caller).1 := by
  have hend := @Sys.cgiLoadContentToSend_end env s caller
  have hstate := @Sys.cgiLoadContentToSend_state env s caller
  generalize s.cgiLoadContentToSend env caller = r at hend hstate ⊢
  have ht : progress.Along Progress.Allows r.1.core.hist ∧
      (progress.after r.1.core.hist).answered = (progress.after s.core.hist).answered := by
    cases hend with
    | read m f a size hm hf hstage ha => exact ⟨⟨trivial, h.sending hsend, h.order⟩, rfl⟩
    | _ => exact ⟨h.order, rfl⟩
  refine answering ?_ ?_ ht.1 fun _ => ht.2.trans (h.sending hsend)
  · rw [hstate, hs]
    decide
  · rw [hstate, hs]
    nofun

theorem sendBody (h : InOrder s) (caller : Caller) (hs : s.core.state = .sendingBody)
    (hsend : s.core.sending = true) : InOrder (s.sendBody env caller) := by
  have hload : InOrder (s.cgiLoadContentToSend env caller).1 := h.cgiLoadContentToSend caller hs hsend
  unfold Sys.sendBody
  generalize s.cgiLoadContentToSend env caller = r at hload ⊢
  obtain ⟨t, n⟩ := r
  simp only at hload ⊢
  split_ifs
  · exact hload.sendOrEnd
  · exact hload.endResponse
  · exact hload

end InOrder

/-! ## All steps -/

/-- Every step of a connection keeps the invariant. -/
theorem Micro.inOrder {env : Env} {s t : Sys} (hstep : Micro env s t) (h : InOrder s) :
    InOrder t := by
  cases hstep with
  | background hb =>
    obtain ⟨_, _, _, _, _, _, _, _, hnew, rfl⟩ := hb.aside
    exact (h.noteAll fun o ho => (hnew o ho).aside).same rfl
  | begin hs _ =>
    have hp : ¬ s.core.state.PastHeaders := by rw [hs]; decide
    exact .reading .headerReceiving rfl (by decide) (h.before hp).2 (h.not_sending hp)
      ⟨trivial, h.order⟩ rfl
  | requestLine _ line hs _ ht => exact h.requestLine hs ht
  | headerLine mem n hs => exact h.headerLine hs mem n
  | emptyLine hs =>
    have hp : ¬ s.core.state.PastHeaders := by rw [hs]; decide
    exact .reading .headerDone rfl (by decide) (h.before hp).2 rfl h.order (h.before hp).1
  | consumeHeader k hs =>
    have hp : ¬ s.core.state.PastHeaders := by rcases hs with hs | hs <;> rw [hs] <;> decide
    exact .reading s.core.state rfl hp (h.before hp).2 (h.not_sending hp) ⟨trivial, h.order⟩
      (h.before hp).1
  | abort hs =>
    refine ⟨h.order, h.before, fun hp hr => ?_, fun _ hz => ?_, h.sending⟩
    · obtain ⟨hc, hq, hf, hh, hm, hb⟩ := h.receiving hp hr
      exact ⟨hc, hq, hf, hh, hm, hb⟩
    · exact absurd hz (by decide : (-500 : ℤ) ≠ 0)
  | afterHeaders hs _ => exact h.afterHeaders hs
  | chunk hs hline => exact (h.chunkLine hs).receiveContent _ (.inl hline)
  | content hs _ => exact h.receiveContent _ hs
  | requestDone hs hz => exact h.requestDone hs hz
  | flush => exact h.sendOrEnd
  | sendHeader hs hr _ => exact h.sendHeader hs hr
  | headerSent => exact h.headerSent
  | sendBody caller hs hsend => exact h.sendBody caller hs hsend
  | reset => exact .between rfl rfl rfl ⟨trivial, h.order⟩ rfl
  | close =>
    have hclosed : progress.Along Progress.Allows (s.closePcb env).core.hist := by
      unfold Sys.closePcb
      split
      · exact h.order
      · exact ⟨trivial, h.order⟩
    exact .freed hclosed

theorem ConnReach.inOrder {env : Env} {sid : ℕ} {s : Sys} (h : ConnReach env sid s) : InOrder s :=
  h.invariant (P := InOrder) (.between rfl rfl rfl trivial rfl)
    (fun _ _ hstep hs => hstep.inOrder hs)
    (fun _ _ _ _ hs => .between rfl rfl rfl ⟨trivial, trivial, hs.order⟩ rfl)
    (fun _ hs => .freed hs.order) fun _ _ hs => hs.same rfl

/-- In every run of the server, the callbacks of every request on every connection follow the
protocol. -/
theorem callback_order (env : Env) {s : Server} (h : (Server.runs env).Reach s)
    (i : Fin maxConnections) : progress.Along Progress.Allows (s.ctx i).core.hist := by
  have hconn : InOrder (s.conn i) := (Server.reach_conn h i).inOrder
  exact hconn.order

/-- After a login with a body that arrives in two parts. -/
@[irreducible] def loginPost : Server :=
  Server.boot.play (Env.calm (bytes "page"))
    [.accept 0 1 false,
      .data 0 (bytes "POST /auth/login.cgi HTTP/1.1\r\nContent-Length: 13\r\n\r\nuser="),
      .data 0 (bytes "a&pass=b")]

theorem callback_order_loginPost : progress.Along Progress.Allows (loginPost.ctx 0).core.hist := by
  have hreach : (Server.runs (Env.calm (bytes "page"))).Reach loginPost := by
    unfold loginPost
    exact Server.reach_boot _ (by decide +kernel)
  exact @callback_order _ loginPost hreach 0

end StraightHttpd
