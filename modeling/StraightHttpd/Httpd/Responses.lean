import StraightHttpd.Httpd.CancelNotice
import StraightHttpd.Httpd.Exchange
import StraightHttpd.Httpd.Pairing
import StraightHttpd.Httpd.SendBuffer

/-! # Connections follow the exchange

The history of a connection is one of the exchange, in every run: what is missing from a response is in the
send buffer while the response is under way, and between two events a connection waits, takes in a request,
or sends.
-/

set_option autoImplicit false

namespace StraightHttpd
open CMemory Relation

/-! ## A response on its way -/

/-- Nothing waits in the buffer. -/
structure App.Blank (a : App) : Prop where
  left : a.bytesLeft ≤ 0
  room : maxSendBufSize ≤ a.sendBuffer.length

/-- The states in which a connection waits for more bytes of a request. -/
def HttpState.Waits : HttpState → Prop
  | .idle | .headerReceiving | .chunkLenReceiving | .chunkReceiving | .bodyReceiving => True
  | _ => False

namespace Sys

variable {env : Env} {s t : Sys}

/-- What waits to be sent. -/
def unsent (s : Sys) : Bytes := s.app.sendBuffer.take s.app.bytesLeft.toNat

/-- What is missing from the stream is in the send buffer. -/
structure Pending (s : Sys) : Prop where
  spells : exchange.Spells (.owing s.unsent) s.core.hist
  nonneg : 0 ≤ s.app.bytesLeft
  left : s.app.bytesLeft ≤ s.app.sendBuffer.length
  room : maxSendBufSize ≤ s.app.sendBuffer.length

/-- A response has ended. -/
structure Over (s : Sys) : Prop where
  state : s.core.state = .requestEnd
  ended : ∃ rest, exchange.Spells (.ended rest) s.core.hist

theorem Pending.unsent_iff (h : s.Pending) : 0 < s.app.bytesLeft ↔ s.unsent ≠ [] := by
  have hroom : 0 < maxSendBufSize := by decide
  have hleft := h.left
  have hnonneg := h.nonneg
  have hlength := h.room
  rw [← List.length_pos_iff, unsent, List.length_take]
  omega

theorem Pending.same (h : s.Pending) (new : List Obs) (hnew : ∀ o ∈ new, o.Unasked)
    (hhist : t.core.hist = new ++ s.core.hist)
    (he : (t.app.bytesLeft, t.app.sendBuffer) = (s.app.bytesLeft, s.app.sendBuffer)) : t.Pending := by
  rw [Prod.mk.injEq] at he
  obtain ⟨hleft, hbuffer⟩ := he
  refine ⟨?_, hleft ▸ h.nonneg, ?_, hbuffer ▸ h.room⟩
  · rw [unsent, hleft, hbuffer, hhist]
    exact h.spells.keep fun o ho => .aside (hnew o ho)
  · rw [hleft, hbuffer]
    exact h.left

/-- A write takes its bytes off the front of the buffer. -/
theorem Pending.sentBlock (h : s.Pending) {k : ℕ} (hk : k ≤ s.app.bytesLeft) :
    (s.sentBlock env k).Pending := by
  obtain ⟨n, hn⟩ : ∃ n : ℕ, s.app.bytesLeft = k + n := ⟨(s.app.bytesLeft - k).toNat, by omega⟩
  have hleft := h.left
  have hroom := h.room
  have hlength : (slice s.app.sendBuffer k n).length = n := by
    rw [slice, List.length_take, List.length_drop]
    omega
  have hwaiting : s.unsent = s.app.sendBuffer.take k ++ slice s.app.sendBuffer k n := by
    rw [unsent, show s.app.bytesLeft.toNat = k + n by omega, List.take_add]
    rfl
  set m' := if (n : ℤ) > 0 then poke s.app.sendBuffer 0 (slice s.app.sendBuffer k n) else s.app.sendBuffer
    with hm'
  have hfront : m'.take n = slice s.app.sendBuffer k n ∧ s.app.sendBuffer.length ≤ m'.length := by
    by_cases hpos : (n : ℤ) > 0
    · rw [hm', if_pos hpos]
      have htake := take_poke_add (slice s.app.sendBuffer k n) (Nat.zero_le s.app.sendBuffer.length)
      rw [hlength, Nat.zero_add, List.take_zero, List.nil_append] at htake
      exact ⟨htake, length_le_poke_self _ _ _⟩
    · have hz : n = 0 := by omega
      rw [hm', if_neg hpos, hz]
      exact ⟨rfl, le_rfl⟩
  obtain ⟨hfront, hgrown⟩ := hfront
  have hbuffer : (s.sentBlock env k).app.sendBuffer = poke m' n [0] := by
    simp only [Sys.sentBlock, note_app, hn, add_sub_cancel_left, Int.toNat_natCast, ← hm']
  have hbytes : (s.sentBlock env k).app.bytesLeft = n := by
    simp only [Sys.sentBlock, note_app, hn, add_sub_cancel_left]
  have hkeep := length_le_poke_self m' n [0]
  refine ⟨?_, ?_, ?_, ?_⟩
  · rw [unsent, hbuffer, hbytes, Int.toNat_natCast, take_poke _ (by omega), hfront]
    exact (hwaiting ▸ h.spells).step _ .wrote
  · rw [hbytes]
    exact Int.natCast_nonneg n
  · rw [hbytes, hbuffer]
    omega
  · rw [hbuffer]
    omega

theorem sendBuffered_pending (n : ℕ) (h : s.Pending) :
    ((s.sendBuffered env n).2 = true → (s.sendBuffered env n).1.Pending) ∧
      ((s.sendBuffered env n).2 = false → ∃ rest, exchange.Spells (.ended rest) (s.sendBuffered env n).1.core.hist) := by
  induction n generalizing s with
  | zero => exact ⟨fun _ => h, fun hc => by cases hc⟩
  | succ n ih =>
    simp only [sendBuffered]
    split_ifs with hleft hroom hwrite
    · exact ⟨fun _ => h.same [] (by simp) rfl rfl, fun hc => by cases hc⟩
    · exact ih (h.sentBlock (by omega))
    · exact ⟨fun hc => (by cases hc), fun _ => ⟨s.unsent, h.spells.step _ (.writeFailed (h.unsent_iff.mp hleft))⟩⟩
    · exact ⟨fun _ => h, fun hc => by cases hc⟩

theorem sendOrEnd_pending (h : s.Pending) :
    ((s.sendOrEnd env).2 = true → (s.sendOrEnd env).1.Pending) ∧
      ((s.sendOrEnd env).2 = false → (s.sendOrEnd env).1.Over) := by
  have hsend := @sendBuffered_pending env s s.app.bytesLeft.toNat h
  unfold sendOrEnd
  generalize s.sendBuffered env s.app.bytesLeft.toNat = r at hsend ⊢
  obtain ⟨t, b⟩ := r
  cases b with
  | false => exact ⟨fun hc => (by cases hc), fun _ => ⟨rfl, hsend.2 rfl⟩⟩
  | true => exact ⟨fun _ => hsend.1 rfl, fun hc => by cases hc⟩

theorem Pending.endResponse (h : s.Pending) : s.endResponse.Over :=
  ⟨rfl, s.unsent, h.spells.step _ (.requestEnd h.unsent_iff)⟩

/-- A response in the sending states. -/
structure Underway (s : Sys) : Prop extends Pending s where
  sending : s.core.sending = true
  state : s.core.state = .sendingHeader ∨ s.core.state = .sendingBody
  block : s.core.sendMaxBlock = maxSendBufSize

/-- Where the response half of `HttpRequestProc` leaves a response. -/
inductive Answered (s : Sys) : Prop
  | fault : s.app.world.fault = true → Answered s
  | underway : s.Underway → Answered s
  | ended : s.Over → Answered s

/-- What sending leaves alone. -/
def way (s : Sys) : Bool × HttpState × ℤ := (s.core.sending, s.core.state, s.core.sendMaxBlock)

theorem Underway.of_way (h : s.Underway) (ht : t.Pending) (he : t.way = s.way) : t.Underway := by
  simp only [way, Prod.mk.injEq] at he
  obtain ⟨hsending, hstate, hblock⟩ := he
  exact ⟨ht, hsending ▸ h.sending, hstate ▸ h.state, hblock ▸ h.block⟩

theorem sendOrEnd_way (s : Sys) (h : (s.sendOrEnd env).2 = true) : (s.sendOrEnd env).1.way = s.way := by
  have hend := @sendOrEnd_end env s
  generalize s.sendOrEnd env = r at hend h ⊢
  cases hend with
  | sent t ht =>
    obtain ⟨_, _, _, _, _, _, -, rfl⟩ := ht
    rfl
  | failed t ht => cases h

theorem Underway.flush (h : s.Underway) : (s.sendOrEnd env).1.Answered := by
  obtain ⟨hsent, hfailed⟩ := @sendOrEnd_pending env s h.toPending
  cases hr : (s.sendOrEnd env).2 with
  | true => exact .underway (h.of_way (hsent hr) (sendOrEnd_way s hr))
  | false => exact .ended (hfailed hr)

/-- The header of a response, for a request that has its result. -/
theorem prepareHeader_pending (h : exchange.Spells .asked s.core.hist) (hroom : maxSendBufSize ≤ s.app.sendBuffer.length) :
    (s.prepareHeader env).Pending := by
  let c := { s.core with tLastSent := s.app.stampNow env, sendMaxBlock := maxSendBufSize }
  let a := { s.app with dwOperStage := 0, dwOperIndex := 0 }
  have hlength : a.sendBuffer.length ≤ (cgiSetResponseHeaders env c a (codeInfo a.result)).sendBuffer.length :=
    cgiSetResponseHeaders_length env a _
  have hleft : (cgiSetResponseHeaders env c a (codeInfo a.result)).bytesLeft =
      strlen (cgiSetResponseHeaders env c a (codeInfo a.result)).sendBuffer := rfl
  refine ⟨h.step _ (.response _), ?_, ?_, hroom.trans hlength⟩
  · rw [show (s.prepareHeader env).app.bytesLeft = _ from hleft]
    exact Int.natCast_nonneg _
  · rw [show (s.prepareHeader env).app.bytesLeft = _ from hleft]
    exact_mod_cast strlen_le _

theorem sendHeader_answered (h : exchange.Spells .asked s.core.hist)
    (hroom : maxSendBufSize ≤ s.app.sendBuffer.length) :
    ((s.sendHeader env).2 = true → (s.sendHeader env).1.Underway) ∧
      ((s.sendHeader env).2 = false → (s.sendHeader env).1.Over) := by
  obtain ⟨hsent, hfailed⟩ := @sendOrEnd_pending env (s.prepareHeader env) (prepareHeader_pending h hroom)
  have hway := @sendOrEnd_way env (s.prepareHeader env)
  unfold sendHeader
  generalize (s.prepareHeader env).sendOrEnd env = r at hsent hfailed hway ⊢
  obtain ⟨t, b⟩ := r
  cases b with
  | false => exact ⟨fun hc => (by cases hc), fun _ => hfailed rfl⟩
  | true =>
    have hway' := hway rfl
    simp only [way, Prod.mk.injEq] at hway'
    obtain ⟨-, -, hblock⟩ := hway'
    refine ⟨fun _ => ⟨(hsent rfl).same [] (by simp) rfl rfl, rfl, ?_, hblock⟩, fun hc => by cases hc⟩
    simp only [headerOut, setState_state]
    split_ifs
    · exact .inr rfl
    · exact .inl rfl

theorem Underway.headerSent (h : s.Underway) : s.headerSent.Over ∨ s.headerSent.Underway := by
  unfold Sys.headerSent
  split_ifs
  · exact .inl h.endResponse
  · exact .inr ⟨h.toPending.same [] (by simp) rfl rfl, h.sending, .inr rfl, h.block⟩

/-- The next block joins what waits. -/
theorem Underway.load (h : s.Underway) (caller : Caller) :
    (s.cgiLoadContentToSend env caller).1.app.world.fault = true ∨
      (s.cgiLoadContentToSend env caller).1.Underway := by
  have hend := @cgiLoadContentToSend_end env s caller
  generalize s.cgiLoadContentToSend env caller = r at hend ⊢
  cases hend with
  | allSent m f => exact .inr (h.of_way (h.toPending.same [] (by simp) rfl rfl) rfl)
  | faulted => exact .inl rfl
  | ended => exact .inr h
  | waiting => exact .inr h
  | read m f a size hm hf hstage ha =>
    let u := s.note (.call .readContent m)
    have happends := @loadBlock_appends (f env u.core) s.app (Cgi.readContent_size hf env s.app.toWork)
      h.nonneg h.left h.room
    rw [h.block] at ha
    rw [ha] at happends
    simp only at happends
    by_cases hfault : a.world.fault = true
    · exact .inl hfault
    obtain ⟨hkept, hgrown, hleft, hroom⟩ := happends (Bool.eq_false_iff.mpr hfault)
    refine .inr (h.of_way ⟨?_, h.nonneg.trans hgrown, hleft, hroom⟩ rfl)
    have hcalled : exchange.Spells (.owing s.unsent) u.core.hist := h.spells.step _ (.read m)
    have hspells := hcalled.step _ (.content (slice a.sendBuffer s.app.bytesLeft.toNat (a.bytesLeft - s.app.bytesLeft).toNat))
    have hnonneg := h.nonneg
    have hsplit : a.sendBuffer.take a.bytesLeft.toNat = s.unsent ++
        slice a.sendBuffer s.app.bytesLeft.toNat (a.bytesLeft - s.app.bytesLeft).toNat := by
      rw [show a.bytesLeft.toNat = s.app.bytesLeft.toNat + (a.bytesLeft - s.app.bytesLeft).toNat by omega,
        List.take_add, hkept]
      rfl
    rw [← hsplit] at hspells
    exact hspells

theorem sendOrEnd_fault (s : Sys) : (s.sendOrEnd env).1.app.world.fault = s.app.world.fault := by
  have hend := @sendOrEnd_end env s
  generalize s.sendOrEnd env = r at hend ⊢
  cases hend with
  | sent t ht =>
    obtain ⟨_, _, _, _, _, _, -, rfl⟩ := ht
    rfl
  | failed t ht =>
    obtain ⟨_, _, _, _, _, _, -, rfl⟩ := ht
    rfl

theorem Underway.sendBody (h : s.Underway) (caller : Caller) : (s.sendBody env caller).Answered := by
  have hload := @Underway.load env s h caller
  unfold Sys.sendBody
  generalize s.cgiLoadContentToSend env caller = r at hload ⊢
  obtain ⟨t, n⟩ := r
  simp only at hload ⊢
  rcases hload with hfault | ht
  · split_ifs
    · exact .fault ((sendOrEnd_fault t).trans hfault)
    · exact .fault hfault
    · exact .fault hfault
  · split_ifs
    · exact ht.flush
    · exact .ended ht.endResponse
    · exact .underway ht

/-- A response that has not ended goes on with its content. -/
theorem Underway.next (h : s.Over ∨ s.Underway) (caller : Caller) :
    (if s.core.state = .sendingBody then s.sendBody env caller else s).Answered := by
  rcases h with h | h
  · rw [h.state, if_neg (by decide)]
    exact .ended h
  · split_ifs
    · exact h.sendBody caller
    · exact .underway h

theorem Underway.httpResponseProc (h : s.Underway) (caller : Caller) :
    (s.httpResponseProc env caller).Answered := by
  have hremaining : (s.remaining env).1.Underway := by
    unfold remaining
    split_ifs
    · exact h
    · exact h
    · exact h.of_way (h.toPending.same [] (by simp) rfl rfl) rfl
  simp only [Sys.httpResponseProc]
  split_ifs
  · exact .underway h
  generalize s.remaining env = r at hremaining ⊢
  obtain ⟨u, b⟩ := r
  simp only at hremaining
  cases b with
  | true => exact hremaining.flush
  | false =>
    simp only [hremaining.sending, not_true_eq_false, if_false]
    by_cases hsent : u.core.state = .sendingHeader ∧ caller = .sent
    · simp only [if_pos hsent, true_and]
      exact Underway.next hremaining.headerSent caller
    · simp only [if_neg hsent, true_and]
      exact Underway.next (.inr hremaining) caller

/-- The response to a request that has its result is begun. -/
theorem httpResponseProc_begins (h : exchange.Spells .asked s.core.hist) (hquiet : s.core.sending = false)
    (hblank : s.app.Blank) (hs : s.core.state.Received) (hr : s.app.result ≠ 0)
    (caller : Caller) : (s.httpResponseProc env caller).Answered := by
  have hremaining : s.remaining env = (s, false) := by
    unfold remaining
    rw [if_pos hblank.left]
  obtain ⟨hsent, hfailed⟩ := @sendHeader_answered env s h hblank.room
  simp only [Sys.httpResponseProc]
  rw [if_neg (not_or.mpr ⟨Nat.not_lt.mpr hs, hr⟩), hremaining]
  simp only [hquiet, Bool.false_eq_true, not_false_eq_true, if_true]
  generalize s.sendHeader env = r at hsent hfailed ⊢
  obtain ⟨t, b⟩ := r
  cases b with
  | false =>
    simp only [Bool.false_eq_true, false_and, if_false]
    exact .ended (hfailed rfl)
  | true =>
    simp only [true_and]
    exact Underway.next (.inr (hsent rfl)) caller

/-! ## Between two responses -/

/-- Where the exchange is as long as no response is made. -/
def phase (s : Sys) : Phase := if s.core.state = .idle then .waiting else .asked

/-- A connection of which no response is under way. -/
structure Balanced (s : Sys) : Prop where
  spells : exchange.Spells s.phase s.core.hist
  quiet : s.core.sending = false
  running : s.core.state ≠ .requestEnd
  room : ¬ s.core.state.PastHeaders → maxSendBufSize ≤ s.app.sendBuffer.length
  begun : s.core.state.code ≤ HttpState.headerDone.code → s.app.result = 0 ∨ s.app.result ≤ -500
  fresh : s.core.state = .headerDone → s.app.bytesLeft ≤ 0
  blank : s.core.state.PastHeaders → s.core.handler ≠ some .form → s.app.Blank
  ready : s.core.state.Received → s.app.result ≠ 0 → s.app.Blank

/-- Where the handling of an event leaves a connection: it waits for more bytes, is going to be closed, or
sends. -/
inductive Flows (s : Sys) : Prop
  | fault : s.app.world.fault = true → Flows s
  | balanced : s.Balanced → s.core.state.Waits ∨ s.app.result ≤ -500 → Flows s
  | underway : s.Underway → Flows s

theorem Flows.idle (h : s.Balanced) (hs : s.core.state = .idle) : s.Flows :=
  .balanced h (.inl (by rw [hs]; trivial))

theorem Balanced.asked (h : s.Balanced) (hs : s.core.state ≠ .idle) : exchange.Spells .asked s.core.hist := by
  have hspells := h.spells
  rw [phase, if_neg hs] at hspells
  exact hspells

theorem Balanced.waiting (h : s.Balanced) (hs : s.core.state = .idle) :
    exchange.Spells .waiting s.core.hist := by
  have hspells := h.spells
  rw [phase, if_pos hs] at hspells
  exact hspells

theorem Balanced.idle (h : exchange.Spells .waiting s.core.hist) (hquiet : s.core.sending = false)
    (hs : s.core.state = .idle) (hresult : s.app.result = 0)
    (hroom : maxSendBufSize ≤ s.app.sendBuffer.length) : s.Balanced where
  spells := by
    rw [phase, if_pos hs]
    exact h
  quiet := hquiet
  running := by rw [hs]; decide
  room _ := hroom
  begun _ := .inl hresult
  fresh hd := by rw [hs] at hd; cases hd
  blank hp := by rw [hs] at hp; exact absurd hp (by decide)
  ready hr := by rw [hs] at hr; exact absurd hr (by decide)

theorem freeHttpContext_balanced {phase : Phase} (h : exchange.Spells phase s.core.hist) :
    s.freeHttpContext.Balanced := by
  refine .idle ?_ rfl rfl rfl ?_
  · rw [freeHttpContext_hist]
    exact h.step _ .freed
  · exact (List.length_replicate ..).ge

theorem closeHttpContext_balanced {phase : Phase} (h : exchange.Spells phase s.core.hist) :
    (s.closeHttpContext env).Balanced := by
  have hclosed : exchange.Spells phase (s.closePcb env).core.hist := by
    unfold closePcb
    split
    · exact h
    · exact h.step _ (.aside trivial)
  exact freeHttpContext_balanced hclosed

theorem resetHttpContext_balanced (h : exchange.Spells .waiting (.reset :: s.core.hist)) :
    (s.resetHttpContext env).Balanced :=
  .idle h rfl rfl rfl (List.length_replicate ..).ge

theorem Over.finishRequest (h : s.Over) : (s.finishRequest env).Flows := by
  obtain ⟨rest, hended⟩ := h.ended
  unfold Sys.finishRequest
  split_ifs
  · exact .idle (closeHttpContext_balanced hended) rfl
  · exact .idle (resetHttpContext_balanced (hended.step _ .next)) rfl
  · exact .idle (closeHttpContext_balanced hended) rfl

/-! ## Receiving -/

/-- What the responses depend on. -/
def shown (s : Sys) : (HttpState × Bool × Option Cgi × ℤ) × ℤ × ℤ × Bytes :=
  ((s.core.state, s.core.sending, s.core.handler, s.core.sendMaxBlock), s.app.result, s.app.bytesLeft,
    s.app.sendBuffer)

/-- Nothing happened to the exchange. -/
structure Aloof (s t : Sys) : Prop where
  shown : t.shown = s.shown
  notes : ∃ new, (∀ o ∈ new, Obs.Unasked o) ∧ t.core.hist = new ++ s.core.hist

theorem Aloof.none (hshown : t.shown = s.shown) (hhist : t.core.hist = s.core.hist) : Aloof s t :=
  ⟨hshown, [], by simp, hhist⟩

theorem Balanced.aloof (h : s.Balanced) (ht : Aloof s t) : t.Balanced := by
  obtain ⟨hshown, new, hnew, hhist⟩ := ht
  simp only [Sys.shown, Prod.mk.injEq] at hshown
  obtain ⟨⟨hstate, hsending, hhandler, -⟩, hresult, hleft, hbuffer⟩ := hshown
  have hblank (hb : s.app.Blank) : t.app.Blank := ⟨hleft ▸ hb.left, hbuffer ▸ hb.room⟩
  refine ⟨?_, hsending.trans h.quiet, ?_, fun hp => ?_, fun hc => ?_, fun hd => ?_, fun hp hm => ?_,
    fun hr hz => ?_⟩
  · rw [phase, hstate, hhist]
    exact h.spells.keep fun o ho => .aside (hnew o ho)
  · rw [hstate]
    exact h.running
  · rw [hbuffer]
    exact h.room (hstate ▸ hp)
  · rw [hresult]
    exact h.begun (hstate ▸ hc)
  · rw [hleft]
    exact h.fresh (hstate ▸ hd)
  · exact hblank (h.blank (hstate ▸ hp) (hhandler ▸ hm))
  · exact hblank (h.ready (hstate ▸ hr) (hresult ▸ hz))

theorem Underway.aloof (h : s.Underway) (ht : Aloof s t) : t.Underway := by
  obtain ⟨hshown, new, hnew, hhist⟩ := ht
  simp only [Sys.shown, Prod.mk.injEq] at hshown
  obtain ⟨⟨hstate, hsending, -, hblock⟩, -, hleft, hbuffer⟩ := hshown
  exact h.of_way (h.toPending.same _ hnew hhist (by rw [hleft, hbuffer]))
    (by rw [way, way, hsending, hstate, hblock])

theorem onSession_aloof (s : Sys) (f : SessionTable → Fin maxSessions → SessionTable) :
    Aloof s (s.onSession f) := by
  unfold onSession
  split
  · simp only
    split_ifs
    · exact ⟨rfl, [.touched _ _], fun o ho => List.mem_singleton.mp ho ▸ trivial, rfl⟩
    · exact .none rfl rfl
  · exact .none rfl rfl

theorem background_aloof (h : Background env s t) : Aloof s t := by
  cases h with
  | received tick => exact onSession_aloof s _
  | sent tick => exact onSession_aloof s _
  | _ => exact .none rfl rfl

theorem Balanced.reading (h : s.Balanced) (ht : t.core.state = .headerReceiving)
    (hs : ¬ s.core.state.PastHeaders) (hquiet : t.core.sending = s.core.sending)
    (hspells : exchange.Spells .asked t.core.hist) (hresult : t.app.result = s.app.result)
    (hbuffer : t.app.sendBuffer = s.app.sendBuffer) : t.Balanced := by
  have hbegun := h.begun (Nat.le_of_not_lt hs)
  refine ⟨?_, hquiet.trans h.quiet, ?_, fun _ => hbuffer ▸ h.room hs, fun _ => hresult ▸ hbegun, fun hd => ?_,
    fun hp => ?_, fun hr => ?_⟩
  · rw [phase, ht, if_neg (by decide)]
    exact hspells
  · rw [ht]
    decide
  · rw [ht] at hd
    cases hd
  · rw [ht] at hp
    exact absurd hp (by decide)
  · rw [ht] at hr
    exact absurd hr (by decide)

theorem requestLine_buffer {line : Bytes} (h : s.requestLine line = some t) :
    t.app.sendBuffer = s.app.sendBuffer := by
  obtain ⟨method, m, q, rfl⟩ := requestLine_eq h
  unfold cgiSetCgiHandler
  split <;> rfl

theorem headerLine_buffer (s : Sys) (mem : Bytes) (n : ℕ) :
    (s.headerLine env mem n).app.sendBuffer = s.app.sendBuffer := by
  unfold headerLine
  split_ifs
  all_goals try rfl
  simp only [cgiHeaderReceived]
  split <;> rfl

theorem Balanced.emptyLine (h : s.Balanced) (hs : s.core.state = .headerReceiving) :
    s.emptyLine.Balanced where
  spells := h.asked (by rw [hs]; decide)
  quiet := rfl
  running := by
    change HttpState.headerDone ≠ .requestEnd
    decide
  room _ := (h.room (by rw [hs]; decide)).trans (length_le_poke_self _ _ _)
  begun _ := by
    change (if s.core.requestMethod = none then -500 else s.app.result) = 0 ∨
      (if s.core.requestMethod = none then -500 else s.app.result) ≤ -500
    split_ifs
    · exact .inr le_rfl
    · exact h.begun (by rw [hs]; decide)
  fresh _ := le_rfl
  blank hp := absurd hp (by decide : ¬ HttpState.headerDone.PastHeaders)
  ready hr := absurd hr (by decide : ¬ HttpState.headerDone.Received)

/-- A request behind its headers that no response is made for yet. -/
theorem Balanced.behind (h : s.Balanced) (hp : t.core.state.PastHeaders) (hrunning : t.core.state ≠ .requestEnd)
    (hquiet : t.core.sending = s.core.sending) (hspells : exchange.Spells .asked t.core.hist)
    (hblank : t.core.handler ≠ some .form → t.app.Blank)
    (hready : t.core.state.Received → t.app.result ≠ 0 → t.app.Blank) : t.Balanced := by
  refine ⟨?_, hquiet.trans h.quiet, hrunning, fun hp' => absurd hp hp', fun hc => absurd hp (Nat.not_lt.mpr hc),
    fun hd => ?_, fun _ => hblank, hready⟩
  · rw [phase, if_neg fun hi => by rw [hi] at hp; exact absurd hp (by decide)]
    exact hspells
  · rw [hd] at hp
    exact absurd hp (by decide)

/-- The headers callbacks leave an empty buffer empty. -/
theorem onHeadersReceived_blank {m : Cgi} {f : Env → Core → App → App}
    (h : m.mapping.onHeadersReceived = some f) (c : Core) {a : App} (ha : a.Blank) : (f env c a).Blank := by
  cases m <;> cases h
  · exact ⟨ha.left, ha.room⟩
  · exact ⟨le_rfl, (List.length_replicate ..).ge⟩
  · exact ⟨ha.left, ha.room⟩

theorem afterHeaders_blank (h : s.app.Blank) : (s.afterHeaders env).app.Blank := by
  have hend := @cgiHeadersReceived_end env ((s.note (.headers s.gate)).authorize.expectBody env)
  have hblank : ((s.note (.headers s.gate)).authorize.expectBody env).app.Blank := by
    rw [expectBody_app]
    unfold authorize
    simp only
    split_ifs <;> exact ⟨h.left, h.room⟩
  rw [afterHeaders_app]
  generalize ((s.note (.headers s.gate)).authorize.expectBody env) = u at hend hblank ⊢
  generalize u.cgiHeadersReceived env = t at hend ⊢
  cases hend with
  | called m f _ hf _ _ => exact onHeadersReceived_blank hf _ hblank
  | accepted => exact hblank
  | unauthorized => exact ⟨hblank.left, hblank.room⟩
  | refused _ =>
    unfold cgiRefuse
    split_ifs <;> exact ⟨hblank.left, hblank.room⟩

theorem Balanced.afterHeaders (h : s.Balanced) (hs : s.core.state = .headerDone) :
    (s.afterHeaders env).Balanced := by
  have hblank : (s.afterHeaders env).app.Blank := afterHeaders_blank ⟨h.fresh hs, h.room (by rw [hs]; decide)⟩
  obtain ⟨tLastSent, called, hcore, hcalled, -⟩ := @afterHeaders_core env s
  refine h.behind s.afterHeaders_pastHeaders ?_ (by rw [hcore]) ?_ (fun _ => hblank) fun _ _ => hblank
  · rw [hcore]
    simp only [bodyState]
    split_ifs <;> decide
  · have hhist : (s.afterHeaders env).core.hist =
        ((if (s.afterHeaders env).app.result < 0 then [.refused] else []) ++ called ++ [.headers s.gate]) ++
          s.core.hist := by
      rw [hcore]
      simp
    rw [hhist]
    refine (h.asked (by rw [hs]; decide)).keep fun o ho => .asks ?_
    rw [List.mem_append, List.mem_append, List.mem_singleton] at ho
    rcases ho with (ho | ho) | rfl
    · split_ifs at ho
      · rw [List.mem_singleton.mp ho]
        trivial
      · cases ho
    · rcases hcalled with rfl | ⟨m, rfl⟩
      · cases ho
      · rw [List.mem_singleton.mp ho]
        exact Callback.noConfusion
    · trivial

/-- Only the form is kept in the send buffer. -/
theorem onContentReceived_blank {m : Cgi} {f : Env → Core → App → Bytes → ℤ → App × ℤ}
    (h : m.mapping.onContentReceived = some f) (hm : m ≠ .form) {c : Core} {a : App} (ha : a.Blank)
    (buffer : Bytes) (size : ℤ) : (f env c a buffer size).1.Blank := by
  cases m <;> cases h
  · exact ⟨ha.left, ha.room⟩
  · exact absurd rfl hm
  · exact ⟨ha.left, ha.room⟩

theorem Balanced.receiveContent (h : s.Balanced)
    (hs : s.core.state = .chunkReceiving ∨ s.core.state = .bodyReceiving) (hr : s.app.result = 0)
    (size : ℤ) : (s.receiveContent env size).1.Balanced := by
  have hp : s.core.state.PastHeaders := by rcases hs with hs | hs <;> rw [hs] <;> decide
  have hearly : ¬ s.core.state.Received := by rcases hs with hs | hs <;> rw [hs] <;> decide
  have hasked := h.asked (by rcases hs with hs | hs <;> rw [hs] <;> decide)
  have hcall : ∃ t consumed, s.cgiContentReceived env size = (t, consumed) ∧ t.core.handler = s.core.handler ∧
      t.core.state = s.core.state ∧ t.core.sending = s.core.sending ∧
      exchange.Spells .asked t.core.hist ∧ (s.core.handler ≠ some .form → t.app.Blank) := by
    have hend := @cgiContentReceived_end env s size
    generalize s.cgiContentReceived env size = r at hend ⊢
    cases hend with
    | called m f u a consumed hm hf hu he =>
      subst hu
      refine ⟨_, consumed, rfl, rfl, rfl, rfl, hasked.step _ (.asks Callback.noConfusion), fun hne => ?_⟩
      change (a, consumed).1.Blank
      rw [← he]
      exact onContentReceived_blank hf (fun hm' => hne (hm' ▸ hm)) (h.blank hp hne) _ _
    | ignored => exact ⟨s, 0, rfl, rfl, rfl, rfl, hasked, h.blank hp⟩
  obtain ⟨t, consumed, hcall, hhandler, hstate, hquiet, hspells, hblank⟩ := hcall
  have hres := @receiveContent_result env s size
  unfold Sys.receiveContent at hres ⊢
  rw [hcall] at hres ⊢
  simp only at hres ⊢
  split_ifs at hres ⊢ with htaken
  · refine h.behind (hstate ▸ hp) (fun he => hearly ?_) hquiet hspells (hhandler ▸ hblank)
      fun hr' => absurd (hstate ▸ hr') hearly
    rw [← hstate, he]
    decide
  · obtain ⟨state, length, received, tLastSent, hcore, hcases⟩ := @contentTaken_core env t consumed
    have hkept := @contentTaken_app env t consumed
    have hlate : state.PastHeaders ∧ state ≠ .requestEnd := by
      rcases hcases with ⟨-, hst, -⟩ | ⟨-, -, hst, -⟩ | ⟨-, -, hst, -⟩
      · rw [hst, hstate]
        rcases hs with hs | hs <;> rw [hs] <;> decide
      · rw [hst]
        split_ifs <;> decide
      · rw [hst]
        decide
    have hz : (t.contentTaken env consumed).app.result = 0 := by
      rcases hres with hres | hres
      · exact hres.trans hr
      · rw [hkept] at hres
        exact absurd (.inl hres.le) htaken
    refine h.behind (by rw [hcore]; exact hlate.1) (by rw [hcore]; exact hlate.2) (by rw [hcore]; exact hquiet)
      (by rw [hcore]; exact hspells.step _ (.asks trivial)) (fun hne => ?_) fun _ hnz => absurd hz hnz
    rw [hcore] at hne
    have hb := hblank (hhandler ▸ hne)
    rw [hkept]
    exact hb

theorem Balanced.chunkLine (h : s.Balanced) (hs : s.core.state = .chunkLenReceiving) :
    s.receiveChunkLine.Balanced := by
  unfold receiveChunkLine
  split
  · exact h
  · refine h.behind (by decide : HttpState.chunkReceiving.PastHeaders) (by decide : HttpState.chunkReceiving ≠ .requestEnd)
      rfl ((h.asked (by rw [hs]; decide)).step _ (.asks trivial)) ?_ ?_
    · exact h.blank (by rw [hs]; decide)
    · exact fun hr => absurd hr (by decide : ¬ HttpState.chunkReceiving.Received)

/-- The completed request has an empty buffer. -/
theorem onRequestReceived_blank {m : Cgi} {f : Env → Core → App → App}
    (h : m.mapping.onRequestReceived = some f) (c : Core) {a : App} (ha : m ≠ .form → a.Blank) :
    (f env c a).Blank := by
  by_cases hm : m = .form
  · subst hm
    cases h
    exact ⟨le_rfl, (List.length_replicate ..).ge⟩
  · obtain ⟨hleft, hroom⟩ := ha hm
    cases m <;> cases h
    · exact ⟨hleft, hroom⟩
    · exact absurd rfl hm
    · exact ⟨hleft, hroom⟩
    · exact ⟨hleft, hroom⟩
    · exact ⟨hleft, hroom⟩

theorem noteSession_asked (h : exchange.Spells .asked s.core.hist) (before : Sys) :
    exchange.Spells .asked (s.noteSession before).core.hist := by
  refine h.keep fun o ho => ?_
  rcases List.mem_append.mp ho with ho | ho <;> obtain ⟨_, -, rfl⟩ := List.mem_map.mp ho
  · exact .asks trivial
  · exact .aside trivial

theorem Balanced.requestDone (h : s.Balanced) (hs : s.core.state = .bodyDone) : (s.requestDone env).Balanced := by
  have hp : s.core.state.PastHeaders := by rw [hs]; decide
  have hasked := h.asked (by rw [hs]; decide)
  have hstate := @requestDone_state env s
  have hcall : (s.cgiRequestReceived env).core.sending = s.core.sending ∧
      exchange.Spells .asked (s.cgiRequestReceived env).core.hist ∧ (s.cgiRequestReceived env).app.Blank := by
    unfold cgiRequestReceived
    split
    next hm => exact ⟨rfl, hasked, h.blank hp (by rw [hm]; nofun)⟩
    next m hm =>
      have hblank : m ≠ .form → s.app.Blank := fun hne => h.blank hp fun he => hne (Option.some.inj (hm.symm.trans he))
      split
      next f hf =>
        exact ⟨rfl, noteSession_asked (hasked.step _ (.asks Callback.noConfusion)) s,
          onRequestReceived_blank hf s.core hblank⟩
      next hf => exact ⟨rfl, hasked, hblank fun he => by rw [he] at hf; cases hf⟩
  obtain ⟨hquiet, hspells, hblank⟩ := hcall
  have hkept : (s.requestDone env).core = (s.cgiRequestReceived env).core ∧ (s.requestDone env).app.Blank := by
    unfold Sys.requestDone
    simp only
    split_ifs
    · exact ⟨rfl, hblank.left, hblank.room⟩
    · exact ⟨rfl, hblank⟩
  refine h.behind (hstate ▸ hp) (by rw [hstate, hs]; decide) (by rw [hkept.1]; exact hquiet)
    (by rw [hkept.1]; exact hspells) (fun _ => hkept.2) fun _ _ => hkept.2

theorem Balanced.abort (h : s.Balanced) (hs : ¬ s.core.state.Received) : (s.setResult (-500)).Balanced := by
  refine ⟨h.spells, h.quiet, h.running, h.room, fun _ => .inr le_rfl, h.fresh, fun hp hm => ?_,
    fun hr => absurd hr hs⟩
  obtain ⟨hleft, hroom⟩ := h.blank hp hm
  exact ⟨hleft, hroom⟩

theorem Balanced.consumed (h : s.Balanced) (hs : s.core.state ≠ .idle) (k : ℤ) :
    (s.consume .header k).Balanced := by
  refine ⟨?_, h.quiet, h.running, h.room, h.begun, h.fresh, fun hp hm => ?_, fun hr hz => ?_⟩
  · rw [phase, if_neg (show (s.consume .header k).core.state ≠ .idle from hs)]
    exact (h.asked hs).step _ (.asks trivial)
  · obtain ⟨hleft, hroom⟩ := h.blank hp hm
    exact ⟨hleft, hroom⟩
  · obtain ⟨hleft, hroom⟩ := h.ready hr hz
    exact ⟨hleft, hroom⟩

/-- A request is taken in before its response is made. -/
theorem Balanced.intake (h : s.Balanced) (hu : s.Unanswered) (ht : Intake env s t) : t.Balanced := by
  obtain ⟨hstep, hb | hearly⟩ := ht
  · exact h.aloof (background_aloof hb)
  have hwaits (hs : s.core.state.Received) : s.app.result = 0 := by
    rcases hearly with hn | ⟨-, hz⟩
    · exact absurd hs hn
    · exact hz
  have hsending {P : Prop} (hs : s.core.sending = true) : P := by
    rw [h.quiet] at hs
    cases hs
  cases hstep with
  | background hb => exact h.aloof (background_aloof hb)
  | begin hs _ =>
    exact h.reading rfl (by rw [hs]; decide) rfl ((h.waiting hs).step _ .begin) rfl rfl
  | requestLine _ line hs _ hl =>
    refine h.reading ((requestLine_state hl).trans hs) (by rw [hs]; decide) (requestLine_sending hl) ?_
      (requestLine_result hl) (requestLine_buffer hl)
    rw [requestLine_hist hl]
    exact h.asked (by rw [hs]; decide)
  | headerLine mem n hs =>
    have hkept := @headerLine_kept env s mem n
    have hasked := h.asked (by rw [hs]; decide)
    refine h.reading (hkept.state.trans hs) (by rw [hs]; decide) (headerLine_sending s mem n) ?_
      hkept.result (headerLine_buffer s mem n)
    rcases hkept.hist with he | ⟨line, he⟩ <;> rw [he]
    · exact hasked
    · exact hasked.step _ (.asks trivial)
  | emptyLine hs => exact h.emptyLine hs
  | consumeHeader k hs => exact h.consumed (by rcases hs with hs | hs <;> rw [hs] <;> decide) k
  | abort hs => exact h.abort hs
  | afterHeaders hs _ => exact h.afterHeaders hs
  | chunk hs hline hr =>
    have hz : s.app.result = 0 := le_antisymm (hu (by rw [hs]; decide)) hr
    exact (h.chunkLine hs).receiveContent (.inl hline) (by rw [receiveChunkLine_app]; exact hz) _
  | content hs hr =>
    have hz : s.app.result = 0 := le_antisymm (hu (by rcases hs with hs | hs <;> rw [hs] <;> decide)) hr
    exact h.receiveContent hs hz _
  | requestDone hs _ => exact h.requestDone hs
  | flush hs hr => exact absurd (hwaits hs) hr
  | sendHeader hs hr _ => exact absurd (hwaits hs) hr
  | headerSent _ hsend => exact hsending hsend
  | sendBody caller _ hsend => exact hsending hsend
  | reset hs _ => exact absurd hs h.running
  | close => exact closeHttpContext_balanced h.spells

/-! ## Faults stay -/

theorem webFclose_fault {w : World} (h : w.fault = true) (sid : ℕ) (f : Fp) : (w.webFclose sid f).fault = true := by
  cases f with
  | handle _ => exact h
  | null => rfl
  | wild _ => rfl

theorem closeFileHandle_fault (h : s.app.world.fault = true) : s.closeFileHandle.app.world.fault = true := by
  simp only [closeFileHandle, onWork, onApp, App.onWork]
  split_ifs
  · exact h
  · exact webFclose_fault h _ _

theorem cgiFinish_fault (h : s.app.world.fault = true) : s.cgiFinish.app.world.fault = true := by
  have hfile (w : Work) (hw : w.world.fault = true) : (closeCtxFile s.core w).world.fault = true := by
    unfold closeCtxFile
    split_ifs
    · exact webFclose_fault hw _ _
    · exact hw
  unfold cgiFinish
  split
  next f hf =>
    obtain ⟨m, -, hm⟩ := Option.bind_eq_some_iff.mp hf
    cases m <;> cases hm <;> exact hfile _ h
  next => exact h

theorem closeHttpContext_fault (h : s.app.world.fault = true) : (s.closeHttpContext env).app.world.fault = true := by
  have hclosed : (s.closePcb env).app.world.fault = true := by
    unfold closePcb
    split <;> exact h
  let finish := ((s.closePcb env).core.handler.bind fun m => m.mapping.onFinished).isSome
  let t := (s.closePcb env).onWork fun w => w.logFile (.freeing (s.closePcb env).core.sid finish w.ssiCtx.fp w.fileHandle)
  have hcleared : t.cgiFinish.clearRequest.app.world.fault = true := cgiFinish_fault (s := t) hclosed
  exact closeFileHandle_fault hcleared

theorem finishRequest_fault (h : s.app.world.fault = true) : (s.finishRequest env).app.world.fault = true := by
  unfold finishRequest
  split_ifs
  · exact closeHttpContext_fault h
  · let t := s.onWork fun w => w.logFile (.resetting s.core.sid w.ssiCtx.fp w.fileHandle)
    exact closeFileHandle_fault (s := t.clearRequest.touch env) h
  · exact closeHttpContext_fault h

/-! ## Rounds -/

/-- A loop over the received bytes ends with a connection that waits for more, or with a result. -/
def Resolved (s : Sys) : Prop := s.core.state.Waits ∨ s.app.result ≠ 0

structure RoundResolved (r : Sys × Round) : Prop where
  resolved : r.1.Resolved
  again : r.2 = .again → r.1.core.state.Waits

theorem cgiContentReceived_state (s : Sys) (size : ℤ) :
    (s.cgiContentReceived env size).1.core.state = s.core.state := by
  have hend := @cgiContentReceived_end env s size
  generalize s.cgiContentReceived env size = r at hend ⊢
  cases hend with
  | called m f u a consumed hm hf hu he =>
    rw [hu]
    rfl
  | ignored => rfl

theorem receiveContent_waits (hs : s.core.state = .chunkReceiving ∨ s.core.state = .bodyReceiving) (size : ℤ) :
    (s.receiveContent env size).1.core.state.Waits ∨ (s.receiveContent env size).1.core.state = .bodyDone := by
  have hcalled := @cgiContentReceived_state env s size
  have hkept : s.core.state.Waits := by rcases hs with hs | hs <;> rw [hs] <;> trivial
  unfold Sys.receiveContent
  generalize s.cgiContentReceived env size = r at hcalled ⊢
  obtain ⟨t, consumed⟩ := r
  simp only at hcalled ⊢
  split_ifs
  · rw [hcalled]
    exact .inl hkept
  · obtain ⟨state, length, received, tLastSent, hcore, hcases⟩ := @contentTaken_core env t consumed
    rw [hcore]
    change state.Waits ∨ state = .bodyDone
    rcases hcases with ⟨-, hst, -⟩ | ⟨-, -, hst, -⟩ | ⟨-, -, hst, -⟩ <;> rw [hst]
    · rw [hcalled]
      exact .inl hkept
    · split_ifs
      · exact .inr rfl
      · exact .inl trivial
    · exact .inr rfl

/-- A handler that takes nothing leaves the state as it is. -/
theorem receiveContent_stays (hs : s.core.state = .chunkReceiving ∨ s.core.state = .bodyReceiving) (size : ℤ)
    (hn : (s.receiveContent env size).2 ≤ 0) : (s.receiveContent env size).1.core.state.Waits := by
  have hcalled : (s.cgiContentReceived env size).1.core.state = s.core.state := cgiContentReceived_state s size
  unfold Sys.receiveContent at hn ⊢
  generalize s.cgiContentReceived env size = r at hcalled hn ⊢
  obtain ⟨t, consumed⟩ := r
  simp only at hcalled hn ⊢
  have htaken : consumed ≤ 0 := by split_ifs at hn <;> exact hn
  rw [if_pos (.inr htaken), hcalled]
  rcases hs with hs | hs <;> rw [hs] <;> trivial

theorem requestDone_resolved (s : Sys) : (s.requestDone env).Resolved := by
  refine .inr ?_
  unfold Sys.requestDone
  simp only
  split_ifs with hz
  · exact (by decide : codeOk ≠ 0)
  · exact hz

theorem receiveChunkLine_waits (hs : s.core.state = .chunkLenReceiving) : s.receiveChunkLine.core.state.Waits := by
  unfold receiveChunkLine
  split
  · rw [hs]
    trivial
  · exact (trivial : HttpState.chunkReceiving.Waits)

theorem bodyRound_resolved (hs : s.core.state.Waits ∨ s.core.state = .bodyDone) (size : ℤ) :
    RoundResolved (s.bodyRound env size) := by
  simp only [bodyRound]
  have hline : (if s.core.state = .chunkLenReceiving ∧ size > 2 then s.receiveChunkLine else s).core.state.Waits ∨
      (if s.core.state = .chunkLenReceiving ∧ size > 2 then s.receiveChunkLine else s).core.state = .bodyDone := by
    split_ifs with hc
    · exact .inl (receiveChunkLine_waits hc.1)
    · exact hs
  generalize (if s.core.state = .chunkLenReceiving ∧ size > 2 then s.receiveChunkLine else s) = u at hline ⊢
  by_cases hb : u.core.state = .chunkReceiving ∨ u.core.state = .bodyReceiving
  · have hwaits := @receiveContent_waits env u hb size
    have hstays := @receiveContent_stays env u hb size
    simp only [if_pos hb]
    generalize u.receiveContent env size = r at hwaits hstays ⊢
    obtain ⟨v, consumed⟩ := r
    simp only at hwaits hstays ⊢
    by_cases hleave : v.app.result ≤ -500
    · simp only [if_pos hleave]
      refine ⟨.inr ?_, fun hc => by cases hc⟩
      simp only
      omega
    by_cases htaken : consumed ≤ 0
    · simp only [if_neg hleave, if_pos htaken]
      exact ⟨.inl (hstays htaken), fun hc => by cases hc⟩
    simp only [if_neg hleave, if_neg htaken]
    split_ifs with hdone
    · exact ⟨requestDone_resolved v, fun hc => by cases hc⟩
    · exact ⟨.inl (hwaits.resolve_right hdone), fun hc => by cases hc⟩
    · exact ⟨.inl (hwaits.resolve_right hdone), fun _ => hwaits.resolve_right hdone⟩
  · simp only [if_neg hb]
    split_ifs with hdone
    · exact ⟨requestDone_resolved u, fun hc => by cases hc⟩
    · exact ⟨.inl (hline.resolve_right hdone), fun hc => by cases hc⟩
    · exact ⟨.inl (hline.resolve_right hdone), fun _ => hline.resolve_right hdone⟩

theorem headerRound_resolved {afterHeader : Bool}
    (hs : if afterHeader then s.core.state = .headerDone else s.core.state.Waits) :
    RoundResolved (s.headerRound env afterHeader) := by
  unfold headerRound
  by_cases hneg : s.app.result < 0
  · rw [if_pos hneg]
    exact ⟨.inr hneg.ne, fun hc => by cases hc⟩
  rw [if_neg hneg]
  split
  · exact ⟨.inr (by decide : (-500 : ℤ) ≠ 0), fun hc => by cases hc⟩
  split
  next hearly =>
    have hwaits : s.core.state.Waits := by
      cases hst : s.core.state <;> rw [hst] at hearly <;> trivial
    split_ifs <;> exact ⟨.inl hwaits, fun _ => hwaits⟩
  · have hbody : (if afterHeader = true then s.afterHeaders env else s).app.result < 0 ∨
        (if afterHeader = true then s.afterHeaders env else s).core.state.Waits ∨
        (if afterHeader = true then s.afterHeaders env else s).core.state = .bodyDone := by
      cases afterHeader with
      | false => exact .inr (.inl hs)
      | true =>
        obtain ⟨tLastSent, called, hcore, -⟩ := @afterHeaders_core env s
        simp only [if_true, hcore]
        by_cases hr : (s.afterHeaders env).app.result < 0
        · exact .inl hr
        · refine .inr ?_
          rw [if_neg hr, bodyState]
          split_ifs
          · exact .inl trivial
          · exact .inl trivial
          · exact .inr rfl
    simp only
    generalize (if afterHeader = true then s.afterHeaders env else s) = t at hbody ⊢
    split_ifs with hr
    · exact ⟨.inr hr.ne, fun hc => by cases hc⟩
    · exact bodyRound_resolved (hbody.resolve_left hr) _

theorem requestRound_resolved (hs : s.core.state.Waits) : RoundResolved (s.requestRound env) := by
  have hparse (t : Sys) (ht : t.core.state = .headerReceiving) :
      RoundResolved ((t.receiveHeader env).1.headerRound env (t.receiveHeader env).2) := by
    have hheader := (@receiveHeader_intakes env t ht).2
    refine headerRound_resolved ?_
    generalize t.receiveHeader env = r at hheader ⊢
    obtain ⟨u, afterHeader⟩ := r
    cases afterHeader with
    | true => exact hheader
    | false =>
      change u.core.state.Waits
      rw [show u.core.state = .headerReceiving from hheader]
      trivial
  simp only [requestRound]
  split_ifs with hempty hbegin hreceiving hreceiving
  · exact ⟨.inl hs, fun hc => by cases hc⟩
  · exact hparse _ rfl
  · exact absurd rfl hreceiving
  · exact hparse _ hreceiving
  · exact headerRound_resolved hs

/-- The function goes on to the response with a connection that waits or has its result, and returns before
it only with a fault or an error that ends the connection. -/
theorem requestLoop_resolved (n : ℕ) (hs : s.core.state.Waits) :
    ((s.requestLoop env n).2 = false →
      (s.requestLoop env n).1.app.world.fault = true ∨ (s.requestLoop env n).1.app.result ≤ -500) ∧
    ((s.requestLoop env n).2 = true → (s.requestLoop env n).1.Resolved) := by
  induction n generalizing s with
  | zero => exact ⟨fun _ => .inl rfl, fun hc => by cases hc⟩
  | succ n ih =>
    have hround := @requestRound_resolved env s hs
    have hleft := @requestRound_left env s
    rw [requestLoop]
    split_ifs
    · generalize s.requestRound env = r at hround hleft ⊢
      obtain ⟨t, e⟩ := r
      cases e with
      | again => exact ih (hround.again rfl)
      | stop => exact ⟨fun hc => (by cases hc), fun _ => hround.resolved⟩
      | leave => exact ⟨fun _ => .inr (hleft.leave rfl), fun hc => by cases hc⟩
    · exact ⟨fun hc => (by cases hc), fun _ => .inl hs⟩

/-! ## The events -/

/-- Where an event leaves a connection: it waits for more bytes, or sends. -/
def Steady (s : Sys) : Prop := s.Balanced ∧ s.core.state.Waits ∨ s.Underway

theorem Aloof.unanswered (h : Aloof s t) (hu : s.Unanswered) : t.Unanswered := by
  have hshown := h.shown
  simp only [Sys.shown, Prod.mk.injEq] at hshown
  obtain ⟨⟨hstate, -⟩, hresult, -⟩ := hshown
  rw [Unanswered, hstate, hresult]
  exact hu

theorem Steady.aloof (h : s.Steady) (ht : Aloof s t) : t.Steady := by
  rcases h with ⟨h, hw⟩ | h
  · have hshown := ht.shown
    simp only [Sys.shown, Prod.mk.injEq] at hshown
    exact .inl ⟨h.aloof ht, hshown.1.1.symm ▸ hw⟩
  · exact .inr (h.aloof ht)

theorem Steady.idle (h : s.Balanced) (hs : s.core.state = .idle) : s.Steady :=
  .inl ⟨h, by rw [hs]; trivial⟩

theorem Steady.spells (h : s.Steady) : ∃ phase, exchange.Spells phase s.core.hist := by
  rcases h with ⟨h, -⟩ | h
  · exact ⟨_, h.spells⟩
  · exact ⟨_, h.spells⟩

theorem Steady.close (h : s.Steady) : (s.closeHttpContext env).Steady := by
  obtain ⟨phase, hspells⟩ := h.spells
  exact .idle (closeHttpContext_balanced hspells) rfl

theorem Flows.close (h : s.Flows) :
    (s.closeHttpContext env).app.world.fault = true ∨ (s.closeHttpContext env).Steady := by
  cases h with
  | fault hf => exact .inl (closeHttpContext_fault hf)
  | balanced hs _ => exact .inr (.idle (closeHttpContext_balanced hs.spells) rfl)
  | underway hs => exact .inr (.idle (closeHttpContext_balanced hs.spells) rfl)

/-- A connection that is going to be closed has not been closed yet. -/
theorem Flows.steady (h : s.Flows) (hr : ¬ s.app.result ≤ -500) : s.app.world.fault = true ∨ s.Steady := by
  cases h with
  | fault hf => exact .inl hf
  | balanced hb hw => exact .inr (.inl ⟨hb, hw.resolve_right hr⟩)
  | underway hu => exact .inr (.inr hu)

theorem Flows.closeOnError (h : s.Flows) :
    (s.closeOnError env).app.world.fault = true ∨ (s.closeOnError env).Steady := by
  unfold Sys.closeOnError
  split_ifs with hr
  · exact h.close
  · exact h.steady hr

theorem onSession_fault (s : Sys) (f : SessionTable → Fin maxSessions → SessionTable) :
    (s.onSession f).app.world.fault = s.app.world.fault := by
  unfold Sys.onSession
  split
  · simp only
    split_ifs <;> rfl
  · rfl

theorem Answered.respond {t : Sys} (h : t.Answered) :
    (if t.core.state = .requestEnd then t.finishRequest env else t).Flows := by
  cases h with
  | fault hf =>
    split_ifs
    · exact .fault (finishRequest_fault hf)
    · exact .fault hf
  | underway hu =>
    rw [if_neg fun he => by rcases hu.state with hs | hs <;> rw [hs] at he <;> cases he]
    exact .underway hu
  | ended ho =>
    rw [if_pos ho.state]
    exact ho.finishRequest

theorem Underway.received (h : s.Underway) : s.core.state.Received := by
  rcases h.state with hs | hs <;> rw [hs] <;> decide

theorem Underway.respond (h : s.Underway) (caller : Caller) : (s.respond env caller).Flows := by
  have hs : s.core.state.code ≥ HttpState.bodyDone.code := h.received
  simp only [Sys.respond]
  rw [if_pos hs]
  exact (h.httpResponseProc caller).respond

theorem Balanced.respond (h : s.Balanced) (ht : s.Resolved) (caller : Caller) : (s.respond env caller).Flows := by
  simp only [Sys.respond]
  by_cases hs : s.core.state.code ≥ HttpState.bodyDone.code
  · rw [if_pos hs]
    have hstate : ¬ s.core.state.Waits := fun hw => by
      cases hst : s.core.state <;> rw [hst] at hs hw <;> first | exact hw | exact absurd hs (by decide)
    have hr := ht.resolve_left hstate
    have hasked := h.asked fun hi => hstate (by rw [hi]; trivial)
    exact (httpResponseProc_begins hasked h.quiet (h.ready hs hr) hs hr caller).respond
  · have hearly : s.core.state.Waits ∨ s.app.result ≤ -500 := by
      rcases ht with hw | hr
      · exact .inl hw
      · by_cases hw : s.core.state.Waits
        · exact .inl hw
        · refine .inr ((h.begun ?_).resolve_left hr)
          cases hst : s.core.state <;> rw [hst] at hs hw <;> first | exact absurd trivial hw | exact absurd (by decide) hs
    rw [if_neg hs]
    split_ifs
    · exact .balanced (h.abort hs) (.inr le_rfl)
    · exact .balanced h hearly

theorem httpRequestProc_flows (hu : s.Unanswered) (h : s.Steady) (caller : Caller) :
    (s.httpRequestProc env caller).Flows := by
  simp only [httpRequestProc]
  rcases h with ⟨h, hw⟩ | h
  · generalize s.core.rx.requestLength.toNat + (chainBytes s.core.rx.reqBufList).length + 2 = n
    have hloop := @requestLoop_intakes env n s hu
    have hkept := hloop.keep (P := fun t => t.Balanced ∧ t.Unanswered)
      (fun _ _ ht hs => ⟨hs.1.intake hs.2 ht, ht.1.unanswered hs.2⟩) ⟨h, hu⟩
    have hresolved := @requestLoop_resolved env s n hw
    generalize s.requestLoop env n = r at hkept hresolved ⊢
    obtain ⟨t, b⟩ := r
    cases b with
    | false =>
      rcases hresolved.1 rfl with hf | hr
      · exact .fault hf
      · exact .balanced hkept.1 (.inr hr)
    | true => exact hkept.1.respond (hresolved.2 rfl) caller
  · rw [requestLoop_received h.received]
    exact h.respond caller

theorem onHttpReceive_steady (hu : s.Unanswered) (h : s.Steady) (p : Option (List Pbuf)) :
    (s.onHttpReceive env p).app.world.fault = true ∨ (s.onHttpReceive env p).Steady := by
  have hproc (t : Sys) (ht : Aloof s t) :
      ((t.httpRequestProc env .recv).afterReceive env).app.world.fault = true ∨
        ((t.httpRequestProc env .recv).afterReceive env).Steady := by
    have hflows := @httpRequestProc_flows env t (ht.unanswered hu) (h.aloof ht) .recv
    unfold afterReceive
    split_ifs with hr
    · exact hflows.close
    · exact hflows.steady hr
    · rcases hflows.steady hr with hf | hs
      · exact .inl ((onSession_fault _ _).trans hf)
      · exact .inr (hs.aloof (onSession_aloof _ _))
  unfold onHttpReceive beforeReceive
  cases p with
  | none =>
    simp only
    split_ifs
    · exact .inr h.close
    · exact hproc _ (.none rfl rfl)
  | some p => exact hproc _ (.none rfl rfl)

theorem onHttpPoll_steady (hu : s.Unanswered) (h : s.Steady) :
    (s.onHttpPoll env).app.world.fault = true ∨ (s.onHttpPoll env).Steady := by
  unfold onHttpPoll
  split_ifs
  · exact .inr h.close
  · exact (httpRequestProc_flows hu h .poll).closeOnError

theorem onHttpSent_steady (hu : s.Unanswered) (h : s.Steady) (len : ℕ) :
    (s.onHttpSent env len).app.world.fault = true ∨ (s.onHttpSent env len).Steady := by
  have hbefore : Aloof s (s.beforeSent env len) := by
    unfold beforeSent
    simp only
    split_ifs
    · exact .none rfl rfl
    · exact ⟨(onSession_aloof s _).shown, (onSession_aloof s _).notes⟩
  exact (httpRequestProc_flows (hbefore.unanswered hu) (h.aloof hbefore) .sent).closeOnError

theorem onHttpError_steady (h : s.Steady) : s.onHttpError.Steady := by
  obtain ⟨phase, hspells⟩ := h.spells
  exact .idle (freeHttpContext_balanced hspells) rfl

/-- A context that is accepted on has nothing under way. -/
theorem onHttpAccept_steady (h : s.Steady) (hidle : s.core.state = .idle) (pcb ipRemote : ℕ) (https : Bool) :
    (s.onHttpAccept env pcb ipRemote https).Steady := by
  have hwaiting : exchange.Spells .waiting s.core.hist := by
    rcases h with ⟨h, -⟩ | h
    · exact h.waiting hidle
    · rcases h.state with hs | hs <;> rw [hidle] at hs <;> cases hs
  have haccepted := (hwaiting.step _ .prepare).step _ .accepted
  exact .idle (.idle haccepted rfl rfl rfl (List.length_replicate ..).ge) rfl

end Sys

/-! ## Runs of the server -/

namespace Server

variable {env : Env}

def Flowing (s : Server) : Prop := s.world.fault = true ∨ ∀ i, (s.conn i).Steady

theorem Flowing.globals {s : Server} (h : s.Flowing) {w : World} (hfault : w.fault = s.world.fault) :
    Flowing { s with world := w } := by
  rcases h with h | h
  · exact .inl (hfault.trans h)
  · exact .inr fun i => (h i).aloof (.none rfl rfl)

/-- One connection goes on. -/
theorem Flowing.put {s : Server} (h : ∀ i, (s.conn i).Steady) (j : Fin maxConnections) {t : Sys}
    (ht : t.app.world.fault = true ∨ t.Steady) : (s.put j t).Flowing := by
  rcases ht with hf | ht
  · exact .inl hf
  · refine .inr fun i => ?_
    rw [put_conn]
    split_ifs
    · exact ht
    · exact (h i).aloof (.none rfl rfl)

theorem Flowing.onConn {s : Server} (h : ∀ i, (s.conn i).Steady) (j : Fin maxConnections) {f : Sys → Sys}
    (hf : (f (s.conn j)).app.world.fault = true ∨ (f (s.conn j)).Steady) : (s.onConn j f).Flowing := by
  unfold Server.onConn
  split_ifs
  · exact .inr h
  · exact .put h j hf

theorem Flowing.fire {s : Server} (hs : Connected env s) (h : ∀ i, (s.conn i).Steady) (e : Event) :
    (s.fire env e).Flowing := by
  have hall : s.Flowing := .inr h
  cases e with
  | accept pcb ipRemote https =>
    simp only [Server.fire]
    split
    next j hj =>
      have hfree : (s.conn j).core.pcb = none := of_decide_eq_true (Fin.eq_true_of_find?_eq_some hj)
      exact .put h j (.inr (Sys.onHttpAccept_steady (h j) ((hs j).vacant hfree).2 pcb ipRemote https))
    next => exact hall
  | receive j p => exact .onConn h j (Sys.onHttpReceive_steady (hs j).unanswered (h j) _)
  | poll j => exact .onConn h j (Sys.onHttpPoll_steady (hs j).unanswered (h j))
  | sent j len => exact .onConn h j (Sys.onHttpSent_steady (hs j).unanswered (h j) len)
  | error j => exact .onConn h j (.inr (Sys.onHttpError_steady (h j)))
  | sessionCheck tick => exact hall.globals rfl
  | setMyIP addr => exact hall.globals rfl
  | setGateway addr => exact hall.globals rfl
  | setSubnet addr => exact hall.globals rfl
  | listenHttps on => exact hall.globals rfl

theorem reach_flowing {s : Server} (h : (runs env).Reach s) : s.Flowing := by
  induction h with
  | init h0 =>
    subst h0
    exact .inr fun i => .idle (.idle (.init rfl) rfl rfl rfl (List.length_replicate ..).ge) rfl
  | @step s s' e hs hstep ih =>
    obtain ⟨hfault, rfl⟩ := hstep
    have hconnected : Connected env s := fun i => reach_conn hs i
    have hasked : Connected env { s with world := s.world.asked } := hconnected.globals rfl
    rcases ih with hf | hall
    · rw [hfault] at hf
      cases hf
    · exact .fire hasked (fun i => (hall i).aloof (.none rfl rfl)) e

/-- What a phase of the exchange says about the state of the connection between two events. -/
def At (t : Sys) : Phase → Prop
  | .waiting => t.core.state = .idle ∧ t.core.sending = false
  | .asked => t.core.state ≠ .idle ∧ t.core.state.Waits ∧ t.core.sending = false
  | .owing rest => (t.core.state = .sendingHeader ∨ t.core.state = .sendingBody) ∧ t.core.sending = true ∧
      rest = t.app.sendBuffer.take t.app.bytesLeft.toNat ∧ t.app.bytesLeft = rest.length
  | .ended _ => False

theorem at_of_steady {t : Sys} (h : t.Steady) : ∃ phase, exchange.Spells phase t.core.hist ∧ At t phase := by
  rcases h with ⟨h, hw⟩ | h
  · refine ⟨t.phase, h.spells, ?_⟩
    by_cases hs : t.core.state = .idle
    · rw [Sys.phase, if_pos hs]
      exact ⟨hs, h.quiet⟩
    · rw [Sys.phase, if_neg hs]
      exact ⟨hs, hw, h.quiet⟩
  · have hleft := h.left
    have hnonneg := h.nonneg
    refine ⟨.owing t.unsent, h.spells, h.state, h.sending, rfl, ?_⟩
    rw [Sys.unsent, List.length_take]
    omega

/-- As long as no buffer is overrun, the history of every connection is one of the exchange, and between
two events a connection waits for a request or for more of it, or has the rest of its response in the send
buffer. -/
theorem exchange_followed (env : Env) {s : Server} (h : (runs env).Reach s) (hfault : s.world.fault = false)
    (i : Fin maxConnections) :
    ∃ phase, exchange.Spells phase (s.ctx i).core.hist ∧ At (s.ctx i) phase := by
  rcases reach_flowing h with hf | hall
  · rw [hfault] at hf
    cases hf
  · obtain ⟨phase, hspells, hat⟩ := at_of_steady (hall i)
    refine ⟨phase, hspells, ?_⟩
    cases phase <;> exact hat

@[irreducible] def twoRequests : List Event :=
  [.accept 0 1 false, .data 0 (bytes "GET /x HTTP/1.1\r\nConnection: keep-alive\r\n\r\n"),
    .data 0 (bytes "GET /y HTTP/1.1\r\nConnection: keep-alive\r\n\r\n")]

/-- Behind the first of two requests. -/
theorem exchange_followed_page : ∃ phase,
    exchange.Spells phase ((boot.play (Env.calm (bytes "page")) (twoRequests.take 2)).ctx 0).core.hist ∧
      At ((boot.play (Env.calm (bytes "page")) (twoRequests.take 2)).ctx 0) phase := by
  have hrun : Sane (Env.calm (bytes "page")) boot (twoRequests.take 2) ∧
      (boot.play (Env.calm (bytes "page")) (twoRequests.take 2)).world.fault = false := by
    decide +kernel
  exact exchange_followed _ (reach_boot _ hrun.1) hrun.2 0

end Server

end StraightHttpd
