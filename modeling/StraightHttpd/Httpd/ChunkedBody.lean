import StraightHttpd.Httpd.Server
import StraightHttpd.Lib.Monitor

/-! # Bodies in chunks

In the round that parses the size line of a chunk, the content callback is offered the bytes behind
the line, but as many of them as the buffer held in front of it. So the first offer for a chunked
request is always for more bytes than there are.
-/

set_option autoImplicit false

namespace StraightHttpd
open CMemory

/-- What is known of the offers to the content callback since the last complete header. -/
structure Offers where
  chunked : Bool
  called : Bool
  excess : Bool

/-- `excess` when an offer was for more bytes than the buffer held. -/
def offers : Monitor Offers Obs where
  start := ⟨false, false, false⟩
  next l o :=
    match o with
    | .headers g => ⟨g.chunked, false, false⟩
    | .call (.contentReceived size _ held) _ =>
      { l with called := true, excess := l.excess || decide (held < size) }
    | _ => l

/-- The number of bytes that a content callback is offered, and how many there are. -/
def Obs.offer : Obs → Option (ℤ × ℤ)
  | .call (.contentReceived size _ held) _ => some (size, held)
  | _ => none

namespace Offers

/-- A callback is offered no more than there is. -/
def Covers (_ : Offers) (o : Obs) : Prop := ∀ x ∈ o.offer, x.1 ≤ x.2

instance (l : Offers) (o : Obs) : Decidable (Covers l o) := inferInstanceAs (Decidable (∀ _ ∈ _, _))

/-- The first offer of a chunked request is for more bytes than there are, and such a request is not
complete without an offer. -/
def Opens (l : Offers) : Obs → Prop
  | .call (.contentReceived size _ held) _ => l.chunked = true → l.called = false → held < size
  | .call .requestReceived _ => l.chunked = true → l.called = true
  | _ => True

/-- A chunked request is complete only after an offer for more bytes than there were. -/
def Exceeds (l : Offers) : Obs → Prop
  | .call (.contentReceived size _ held) _ => l.chunked = true → l.called = false → held < size
  | .call .requestReceived _ => l.chunked = true → l.excess = true
  | _ => True

/-- Offers were made to a chunked request, so one was for too much. -/
def Over (l : Offers) : Prop := l.chunked = true → l.called = true → l.excess = true

theorem Over.next {l : Offers} {o : Obs} (h : l.Over) (ho : l.Opens o) : (offers.next l o).Over := by
  cases o with
  | headers g => exact fun _ hcalled => by cases hcalled
  | call cb m =>
    cases cb with
    | contentReceived size remaining held =>
      intro hchunked _
      change (l.excess || decide (held < size)) = true
      rw [Bool.or_eq_true, decide_eq_true_eq]
      cases hcalled : l.called with
      | false => exact .inr (ho hchunked hcalled)
      | true => exact .inl (h hchunked hcalled)
    | _ => exact h
  | _ => exact h

theorem Opens.exceeds {l : Offers} {o : Obs} (h : l.Opens o) (hl : l.Over) : l.Exceeds o := by
  cases o with
  | call cb m =>
    cases cb with
    | requestReceived => exact fun hchunked => hl hchunked (h hchunked)
    | _ => exact h
  | _ => trivial

theorem exceeds_along {hist : List Obs} (h : offers.Along Opens hist) : offers.Along Exceeds hist :=
  h.imp (I := Over) (fun hchunked => by cases hchunked) (fun _ _ hl ho => hl.next ho)
    (fun _ _ hl ho _ => ho.exceeds hl) h

end Offers

/-! ## The invariant -/

/-- The invariant of a connection. In the state for a chunk an offer has been made already, since the
round that parsed the size line made one. -/
structure Chunking (s : Sys) : Prop where
  order : offers.Along Offers.Opens s.core.hist
  gate : s.core.state.PastHeaders → ¬ s.core.state.Answering →
    (offers.after s.core.hist).chunked = s.core.chunked
  body : s.core.state = .bodyReceiving → s.core.chunked = false
  chunk : s.core.state = .chunkReceiving → s.TakesContent → (offers.after s.core.hist).called = true
  done : s.core.state = .bodyDone → s.core.chunked = true → (offers.after s.core.hist).called = true

/-- Entries that say nothing about headers and offers, or about the end of the request. -/
def Obs.Mute : Obs → Prop
  | .headers _ | .call (.contentReceived _ _ _) _ | .call .requestReceived _ => False
  | _ => True

section

variable {new hist : List Obs} (hnew : ∀ o ∈ new, Obs.Mute o)

include hnew

theorem mute_after : offers.after (new ++ hist) = offers.after hist := by
  refine Monitor.after_append fun o ho l => ?_
  have hm := hnew o ho
  cases o with
  | call cb m =>
    cases cb with
    | contentReceived => exact hm.elim
    | _ => rfl
  | headers g => exact hm.elim
  | _ => rfl

theorem mute_order (h : offers.Along Offers.Opens hist) : offers.Along Offers.Opens (new ++ hist) := by
  refine h.append fun o ho l => ?_
  have hm := hnew o ho
  cases o with
  | call cb m => cases cb <;> trivial
  | _ => trivial

end

theorem Obs.Aside.mute {o : Obs} (h : o.Aside) : o.Mute := by
  cases o <;> trivial


namespace Chunking

variable {env : Env} {s t : Sys}

/-- Steps that leave the receiving alone. -/
theorem same (h : Chunking s) (new : List Obs) (hnew : ∀ o ∈ new, Obs.Mute o)
    (hhist : t.core.hist = new ++ s.core.hist)
    (hcore : (t.core.state, t.core.chunked, t.core.handler) =
      (s.core.state, s.core.chunked, s.core.handler)) : Chunking t := by
  simp only [Prod.mk.injEq] at hcore
  obtain ⟨hstate, hchunked, hhandler⟩ := hcore
  have hafter : offers.after t.core.hist = offers.after s.core.hist := by rw [hhist, mute_after hnew]
  refine ⟨hhist ▸ mute_order hnew h.order, ?_, ?_, ?_, ?_⟩ <;> rw [hstate]
  · rw [hafter, hchunked]
    exact h.gate
  · rw [hchunked]
    exact h.body
  · unfold Sys.TakesContent
    rw [hafter, hhandler]
    exact h.chunk
  · rw [hafter, hchunked]
    exact h.done

/-- States in which nothing is received behind the headers. -/
theorem other (h : Chunking s) (new : List Obs) (hnew : ∀ o ∈ new, Obs.Mute o)
    (hhist : t.core.hist = new ++ s.core.hist) (st : HttpState) (hst : t.core.state = st)
    (hother : st.PastHeaders → st.Answering) : Chunking t := by
  have hstate : t.core.state.PastHeaders → t.core.state.Answering := hst ▸ hother
  have hne {st' : HttpState} (hst' : ¬ (st'.PastHeaders → st'.Answering)) : t.core.state ≠ st' :=
    fun he => hst' (he ▸ hstate)
  exact ⟨hhist ▸ mute_order hnew h.order, fun hp ha => absurd (hstate hp) ha,
    fun he => absurd he (hne (by decide)), fun he => absurd he (hne (by decide)),
    fun he => absurd he (hne (by decide))⟩

theorem mute_one {o : Obs} (ho : o.Mute) : ∀ o' ∈ [o], Obs.Mute o' := by
  intro o' ho'
  rw [List.mem_singleton.mp ho']
  exact ho

theorem sends (h : Chunking s) (hsends : Sys.Sends s t) : Chunking t := by
  obtain ⟨new, _, _, _, _, _, hnew, rfl⟩ := hsends
  exact h.same new (fun o ho => (hnew o ho).aside.mute) rfl rfl

theorem sendOrEnd (h : Chunking s) : Chunking (s.sendOrEnd env).1 := by
  have hend := @Sys.sendOrEnd_end env s
  generalize s.sendOrEnd env = r at hend ⊢
  cases hend with
  | sent t ht => exact h.sends ht
  | failed t ht =>
    exact (h.sends ht).other [] nofun rfl .requestEnd rfl (by decide)

theorem headerLine (h : Chunking s) (hs : s.core.state = .headerReceiving) (mem : Bytes) (n : ℕ) :
    Chunking (s.headerLine env mem n) := by
  have hkept := @Sys.headerLine_kept env s mem n
  have hstate := hkept.state.trans hs
  rcases hkept.hist with he | ⟨line, he⟩
  · exact h.other [] nofun he .headerReceiving hstate (by decide)
  · exact h.other [.line s.core.handler line] (mute_one trivial) he .headerReceiving hstate (by decide)

theorem afterHeaders (h : Chunking s) : Chunking (s.afterHeaders env) := by
  obtain ⟨tLastSent, called, hcore, hcalled, -⟩ := @Sys.afterHeaders_core env s
  generalize s.afterHeaders env = t at hcore ⊢
  let new := (if t.app.result < 0 then [.refused] else []) ++ called
  have hnew : ∀ o ∈ new, Obs.Mute o := by
    intro o ho
    rcases List.mem_append.mp ho with ho | ho
    · split_ifs at ho
      · rw [List.mem_singleton.mp ho]
        trivial
      · cases ho
    · rcases hcalled with rfl | ⟨m, rfl⟩
      · cases ho
      · rw [List.mem_singleton.mp ho]
        trivial
  have hhist : t.core.hist = new ++ .headers s.gate :: s.core.hist := by rw [hcore, List.append_assoc]
  have hchunked : t.core.chunked = s.core.chunked := by rw [hcore]
  have hafter : offers.after t.core.hist = ⟨s.core.chunked, false, false⟩ := by
    rw [hhist, mute_after hnew]
    rfl
  have horder : offers.Along Offers.Opens t.core.hist := by
    rw [hhist]
    exact mute_order hnew ⟨trivial, h.order⟩
  have hstate : t.core.state = if t.app.result < 0 then .sendingHeader else s.bodyState := by rw [hcore]
  refine ⟨horder, fun _ _ => by rw [hafter, hchunked], ?_, ?_, ?_⟩ <;> rw [hstate]
  · unfold Sys.bodyState
    rw [hchunked]
    split_ifs with hneg hc hl <;> intro hb
    · cases hb
    · cases hb
    · exact Bool.eq_false_iff.mpr hc
    · cases hb
  · unfold Sys.bodyState
    split_ifs <;> intro hb <;> cases hb
  · unfold Sys.bodyState
    rw [hchunked]
    split_ifs with hneg hc hl <;> intro hb hchunks
    · cases hb
    · cases hb
    · cases hb
    · exact absurd hchunks hc

/-- Bytes that were offered are taken. -/
theorem contentTaken (h : Chunking s) (hp : s.core.state.PastHeaders) (ha : ¬ s.core.state.Answering)
    (hcalled : (offers.after s.core.hist).called = true) (consumed : ℤ) :
    Chunking (s.contentTaken env consumed) := by
  obtain ⟨state, _, _, _, hcore, hcases⟩ := @Sys.contentTaken_core env s consumed
  generalize s.contentTaken env consumed = t at hcore ⊢
  have hchunked : t.core.chunked = s.core.chunked := by rw [hcore]
  have hafter : offers.after t.core.hist = offers.after s.core.hist := by
    rw [hcore]
    rfl
  refine ⟨by rw [hcore]; exact ⟨trivial, h.order⟩, fun _ _ => ?_, ?_, fun _ _ => ?_, fun _ _ => ?_⟩
  · rw [hafter, hchunked]
    exact h.gate hp ha
  · have hstate : t.core.state = state := by rw [hcore]
    rw [hstate, hchunked]
    rcases hcases with ⟨-, hst, -⟩ | ⟨-, -, hst, -⟩ | ⟨-, hplain, -⟩
    · rw [hst]
      exact h.body
    · rw [hst]
      split_ifs <;> intro hb <;> cases hb
    · exact fun _ => hplain
  · rw [hafter]
    exact hcalled
  · rw [hafter]
    exact hcalled

/-- The offer of `size` bytes, which are too many when it is the first one. -/
theorem receiveContent (horder : offers.Along Offers.Opens s.core.hist)
    (hgate : (offers.after s.core.hist).chunked = s.core.chunked)
    (hs : s.core.state = .chunkReceiving ∨ s.core.state = .bodyReceiving)
    (hbody : s.core.state = .bodyReceiving → s.core.chunked = false) (size : ℤ)
    (hfirst : s.TakesContent → s.core.chunked = true →
      (offers.after s.core.hist).called = false → s.core.rx.requestLength < size) :
    Chunking (s.receiveContent env size).1 := by
  have hne : s.core.state ≠ .bodyDone := by rcases hs with hs | hs <;> rw [hs] <;> decide
  have hend := @Sys.cgiContentReceived_end env s size
  unfold Sys.receiveContent
  generalize s.cgiContentReceived env size = r at hend ⊢
  obtain ⟨t, consumed⟩ := r
  simp only
  cases hend with
  | ignored htakes =>
    rw [if_pos (.inr le_rfl)]
    exact ⟨horder, fun _ _ => hgate, hbody, fun _ ht => absurd ht htakes, fun hd => absurd hd hne⟩
  | called m f u a consumed hm hf hu he =>
    subst hu
    have hopens : (offers.after s.core.hist).Opens
        (.call (.contentReceived size (s.core.contentLength - s.core.contentReceived)
          s.core.rx.requestLength) m) :=
      fun hchunked hcalled => hfirst ⟨m, f, hm, hf⟩ (hgate ▸ hchunked) hcalled
    let called : Obs := .call (.contentReceived size (s.core.contentLength - s.core.contentReceived)
      s.core.rx.requestLength) m
    have hcalled : Chunking { s.note called with app := a } :=
      ⟨⟨hopens, horder⟩, fun _ _ => hgate, hbody, fun _ _ => rfl, fun hd => absurd hd hne⟩
    split_ifs
    · exact hcalled
    · refine hcalled.contentTaken ?_ ?_ rfl consumed
      · rcases hs with hs | hs <;> exact hs ▸ (by decide)
      · rcases hs with hs | hs <;> exact hs ▸ (by decide)

theorem firstOffer (h : Chunking s) (hs : s.core.state = .chunkLenReceiving)
    (hline : s.receiveChunkLine.core.state = .chunkReceiving) :
    Chunking (s.receiveChunkLine.receiveContent env s.core.rx.requestLength).1 := by
  have hgate := h.gate (by rw [hs]; decide) (by rw [hs]; decide)
  unfold Sys.receiveChunkLine at hline ⊢
  split at hline
  · rw [hs] at hline
    cases hline
  next k hk =>
    apply receiveContent
    · exact ⟨trivial, h.order⟩
    · exact hgate
    · exact .inl rfl
    · exact fun hb => by cases hb
    · intro _ _ _
      change s.core.rx.requestLength - ((k : ℤ) + 2) < s.core.rx.requestLength
      omega

theorem content (h : Chunking s) (hs : s.core.state = .chunkReceiving ∨ s.core.state = .bodyReceiving) :
    Chunking (s.receiveContent env s.core.rx.requestLength).1 := by
  have hgate := h.gate (by rcases hs with hs | hs <;> rw [hs] <;> decide)
    (by rcases hs with hs | hs <;> rw [hs] <;> decide)
  refine receiveContent h.order hgate hs h.body _ fun htakes hchunked hfirst => ?_
  rcases hs with hs | hs
  · rw [h.chunk hs htakes] at hfirst
    cases hfirst
  · rw [h.body hs] at hchunked
    cases hchunked

theorem requestDone (h : Chunking s) (hs : s.core.state = .bodyDone) :
    Chunking (s.requestDone env) := by
  have hend := @Sys.cgiRequestReceived_end env s
  unfold Sys.requestDone
  simp only
  generalize s.cgiRequestReceived env = t at hend ⊢
  have ht : Chunking t := by
    cases hend with
    | called m f hm hf =>
      have hgate := h.gate (by rw [hs]; decide) (by rw [hs]; decide)
      have hcalled : Chunking ((s.note (.call .requestReceived m)).onApp (f env s.core)) :=
        ⟨⟨fun hchunked => h.done hs (hgate ▸ hchunked), h.order⟩, h.gate, h.body, h.chunk, h.done⟩
      obtain ⟨new, hnew, he⟩ :=
        ((s.note (.call .requestReceived m)).onApp (f env s.core)).noteSession_eq s
      rw [he]
      exact hcalled.same new (fun o ho => (hnew o ho).mute) rfl rfl
    | ignored => exact h
  split_ifs
  · exact ht.same [] nofun rfl rfl
  · exact ht

/-! ## The response -/

theorem sendHeader (h : Chunking s) : Chunking (s.sendHeader env).1 := by
  have hprepared : Chunking (s.prepareHeader env) :=
    h.same [.response _] (mute_one trivial) rfl rfl
  have hsend : Chunking ((s.prepareHeader env).sendOrEnd env).1 := hprepared.sendOrEnd
  unfold Sys.sendHeader
  generalize (s.prepareHeader env).sendOrEnd env = r at hsend ⊢
  obtain ⟨t, b⟩ := r
  cases b
  · exact hsend
  · refine hsend.other [] nofun rfl _ rfl fun _ => ?_
    simp only [Sys.headerOut, Sys.setState_state]
    split_ifs <;> decide

theorem endResponse (h : Chunking s) : Chunking s.endResponse :=
  h.other [.requestEnd _] (mute_one trivial) rfl .requestEnd rfl (by decide)

theorem headerSent (h : Chunking s) : Chunking s.headerSent := by
  unfold Sys.headerSent
  split_ifs
  · exact h.endResponse
  · exact h.other [] nofun rfl .sendingBody rfl (by decide)

theorem sendBody (h : Chunking s) (caller : Caller) : Chunking (s.sendBody env caller) := by
  have hend := @Sys.cgiLoadContentToSend_end env s caller
  unfold Sys.sendBody
  generalize s.cgiLoadContentToSend env caller = r at hend ⊢
  obtain ⟨t, n⟩ := r
  have hload : Chunking t := by
    cases hend with
    | read m f a size hm hf hstage ha =>
      refine h.same [.content _, .call .readContent m] (fun o ho => ?_) rfl rfl
      rcases List.mem_pair.mp ho with rfl | rfl <;> trivial
    | _ => exact h.same [] nofun rfl rfl
  simp only
  split_ifs
  · exact hload.sendOrEnd
  · exact hload.endResponse
  · exact hload

end Chunking

/-- Every step of a connection keeps the invariant. -/
theorem Micro.chunking {env : Env} {s t : Sys} (hstep : Micro env s t) (h : Chunking s) :
    Chunking t := by
  cases hstep with
  | background hb =>
    obtain ⟨new, _, _, _, _, _, _, _, hnew, rfl⟩ := hb.aside
    exact h.same new (fun o ho => (hnew o ho).aside.mute) rfl rfl
  | begin => exact h.other [.begin] (Chunking.mute_one trivial) rfl .headerReceiving rfl (by decide)
  | requestLine _ line hs _ ht =>
    exact h.other [] nofun (Sys.requestLine_hist ht) .headerReceiving
      ((Sys.requestLine_state ht).trans hs) (by decide)
  | headerLine mem n hs => exact h.headerLine hs mem n
  | emptyLine => exact h.other [] nofun rfl .headerDone rfl (by decide)
  | consumeHeader k hs =>
    refine h.other [.consumed .header k] (Chunking.mute_one trivial) rfl s.core.state rfl ?_
    rcases hs with hs | hs <;> rw [hs] <;> decide
  | abort => exact h.same [] nofun rfl rfl
  | afterHeaders => exact h.afterHeaders
  | chunk hs hline => exact h.firstOffer hs hline
  | content hs => exact h.content hs
  | requestDone hs => exact h.requestDone hs
  | flush => exact h.sendOrEnd
  | sendHeader => exact h.sendHeader
  | headerSent => exact h.headerSent
  | sendBody caller => exact h.sendBody caller
  | reset => exact h.other [.reset] (Chunking.mute_one trivial) rfl .idle rfl (by decide)
  | close =>
    obtain ⟨closed, hclosed, hhist⟩ := @Sys.closeHttpContext_hist env s
    refine h.other (.freed :: closed) (fun o ho => ?_) hhist .idle rfl (by decide)
    rcases List.mem_cons.mp ho with rfl | ho
    · trivial
    · obtain ⟨pcb, ok, rfl⟩ := hclosed o ho
      trivial

theorem ConnReach.chunking {env : Env} {sid : ℕ} {s : Sys} (h : ConnReach env sid s) : Chunking s := by
  refine h.invariant ⟨trivial, nofun, nofun, nofun, nofun⟩ (fun _ _ hm hs => hm.chunking hs)
    (fun s pcb ipRemote https hs => ?_) (fun s hs => ?_) fun s w hs => hs.same [] nofun rfl rfl
  · refine hs.other [.accepted, .reset] (fun o ho => ?_) rfl .idle rfl (by decide)
    rcases List.mem_pair.mp ho with rfl | rfl <;> trivial
  · exact hs.other [.freed] (Chunking.mute_one trivial) s.freeHttpContext_hist .idle rfl (by decide)

/-! ## Chunked requests -/

namespace Sys

variable {env : Env}

/-- A callback that is there is called. -/
theorem receiveContent_called {s : Sys} (h : s.TakesContent) (size : ℤ) : ∃ new remaining m,
    (s.receiveContent env size).1.core.hist =
      new ++ .call (.contentReceived size remaining s.core.rx.requestLength) m :: s.core.hist := by
  have hend := @cgiContentReceived_end env s size
  unfold receiveContent
  generalize s.cgiContentReceived env size = r at hend ⊢
  obtain ⟨t, consumed⟩ := r
  cases hend with
  | ignored hno => exact absurd h hno
  | called m f u a consumed hm hf hu he =>
    subst hu
    simp only
    split_ifs
    · exact ⟨[], _, m, rfl⟩
    · have hframe := (@contentTaken_frame env { s.note (.call (.contentReceived size
        (s.core.contentLength - s.core.contentReceived) s.core.rx.requestLength) m) with app := a }
        consumed).2.1
      exact ⟨[.consumed _ consumed], _, m, hframe⟩

/-- The end of a round keeps what the callback noted. -/
theorem bodyRound_hist {s : Sys} (hs : s.core.state = .chunkLenReceiving)
    (hsize : 2 < s.core.rx.requestLength) (hline : s.receiveChunkLine.core.state = .chunkReceiving) :
    ∃ new, (s.bodyRound env s.core.rx.requestLength).1.core.hist =
      new ++ (s.receiveChunkLine.receiveContent env s.core.rx.requestLength).1.core.hist := by
  simp only [bodyRound, if_pos (show s.core.state = .chunkLenReceiving ∧ s.core.rx.requestLength > 2
    from ⟨hs, hsize⟩), hline, true_or, if_true]
  generalize s.receiveChunkLine.receiveContent env s.core.rx.requestLength = r
  obtain ⟨t, consumed⟩ := r
  simp only
  by_cases he : t.app.result ≤ -500
  · simp only [if_pos he]
    exact ⟨[], rfl⟩
  simp only [if_neg he]
  by_cases hc : consumed ≤ 0
  · simp only [if_pos hc]
    exact ⟨[], rfl⟩
  simp only [if_neg hc]
  split_ifs with hd
  · obtain ⟨-, -, -, new, -, hhist⟩ := @GoesOn.requestDone env t hd
    exact ⟨new, hhist⟩
  · exact ⟨[], rfl⟩
  · exact ⟨[], rfl⟩

/-- The round that finds a size line offers too much. -/
theorem bodyRound_exceeds {s : Sys} (hs : s.core.state = .chunkLenReceiving) (htakes : s.TakesContent)
    (hsize : 2 < s.core.rx.requestLength) (hline : (chunkLineEnd s.core.rx.held).isSome = true) :
    ∃ x ∈ ((s.bodyRound env s.core.rx.requestLength).1.notesSince s).filterMap Obs.offer, x.2 < x.1 := by
  obtain ⟨k, hk⟩ := Option.isSome_iff_exists.mp hline
  have hparsed : s.receiveChunkLine.core.state = .chunkReceiving ∧ s.receiveChunkLine.TakesContent ∧
      s.receiveChunkLine.core.hist = .consumed .chunkLine (k + 2) :: s.core.hist ∧
      s.receiveChunkLine.core.rx.requestLength = s.core.rx.requestLength - (k + 2) := by
    unfold receiveChunkLine
    rw [hk]
    exact ⟨rfl, htakes, rfl, rfl⟩
  obtain ⟨hst, htakes', hhist, hlength⟩ := hparsed
  obtain ⟨newer, hround⟩ := @bodyRound_hist env s hs hsize hst
  obtain ⟨new, remaining, m, hcall⟩ := @receiveContent_called env _ htakes' s.core.rx.requestLength
  rw [hcall, hhist] at hround
  have hnotes : (s.bodyRound env s.core.rx.requestLength).1.notesSince s = newer ++ (new ++
      [.call (.contentReceived s.core.rx.requestLength remaining
        s.receiveChunkLine.core.rx.requestLength) m, .consumed .chunkLine (k + 2)]) := by
    refine notesSince_eq ?_
    rw [hround]
    simp only [List.append_assoc, List.cons_append, List.nil_append]
  rw [hnotes]
  refine ⟨(s.core.rx.requestLength, s.receiveChunkLine.core.rx.requestLength), ?_, ?_⟩
  · rw [List.mem_filterMap]
    exact ⟨_, List.mem_append_right _ (List.mem_append_right _ List.mem_cons_self), rfl⟩
  · rw [hlength]
    change s.core.rx.requestLength - ((k : ℤ) + 2) < s.core.rx.requestLength
    omega

end Sys

/-- In no run of the server is a chunked request decoded: its first offer to the content callback is
for more bytes than the buffer holds, it is complete only after such an offer, and it gets the offer in
the round that finds the first size line in the buffer. -/
theorem chunked_never (env : Env) {s : Server} (h : (Server.runs env).Reach s)
    (i : Fin maxConnections) : offers.Along Offers.Exceeds (s.ctx i).core.hist ∧
      ∀ t : Sys, t.core.state = .chunkLenReceiving → t.TakesContent → 2 < t.core.rx.requestLength →
        (Sys.chunkLineEnd t.core.rx.held).isSome = true →
        ∃ x ∈ ((t.bodyRound env t.core.rx.requestLength).1.notesSince t).filterMap Obs.offer,
          x.2 < x.1 := by
  have hchunking : Chunking (s.conn i) := (Server.reach_conn h i).chunking
  exact ⟨Offers.exceeds_along hchunking.order, fun t => Sys.bodyRound_exceeds⟩

/-- After a login in chunks. -/
@[irreducible] def chunkedLogin : Server :=
  Server.boot.play (Env.calm (bytes "page"))
    [.accept 0 1 false,
      .data 0 (bytes "POST /auth/login.cgi HTTP/1.1\r\nTransfer-Encoding: chunked\r\n\r\n"),
      .data 0 (bytes "5\r\nuser=\r\n0\r\n\r\n")]

theorem chunked_never_login : offers.Along Offers.Exceeds (chunkedLogin.ctx 0).core.hist := by
  have hreach : (Server.runs (Env.calm (bytes "page"))).Reach chunkedLogin := by
    unfold chunkedLogin
    exact Server.reach_boot _ (by decide +kernel)
  exact (@chunked_never _ chunkedLogin hreach 0).1

theorem chunked_fails : ¬ ∀ (env : Env) (s : Server) (i : Fin maxConnections),
    (Server.runs env).Reach s → offers.Along Offers.Covers (s.ctx i).core.hist := by
  intro h
  have hreach : (Server.runs (Env.calm (bytes "page"))).Reach chunkedLogin := by
    unfold chunkedLogin
    exact Server.reach_boot _ (by decide +kernel)
  have hover : ¬ offers.Along Offers.Covers (chunkedLogin.ctx 0).core.hist := by decide +kernel
  exact hover (h _ chunkedLogin 0 hreach)

end StraightHttpd
