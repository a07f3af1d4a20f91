import StraightHttpd.Httpd.HeaderSection
import StraightHttpd.Lib.Loop

/-! # The loop of `HttpRequestProc` (`http_core.c`)

The loop with any callback for the content in place of those of the mappings. A round that is followed
by another leaves room in the request buffer and bytes in the queue, so the next one takes some of
them: the queue is the measure of the loop.
-/

set_option autoImplicit false

namespace StraightHttpd
open CMemory

/-- `OnContentReceived` of every mapping. -/
abbrev ContentCallbacks : Type := Cgi → Option (Env → Core → App → Bytes → ℤ → App × ℤ)

/-- The callbacks that the mappings have. -/
def mappedContent : ContentCallbacks := fun m => m.mapping.onContentReceived

namespace Sys

variable (env : Env) (content : ContentCallbacks)

/-- `CGI_ContentReceived`, with the callbacks given. -/
def contentReceivedBy (s : Sys) (size : ℤ) : Sys × ℤ :=
  match s.core.handler with
  | none => (s, 0)
  | some m =>
    match content m with
    | some f =>
      let remaining := s.core.contentLength - s.core.contentReceived
      let s := s.note (.call (.contentReceived size remaining s.core.rx.requestLength) m)
      let (a, consumed) := f env s.core s.app s.core.rx.httpRequestBuffer size
      ({ s with app := a }, consumed)
    | none => (s, 0)

def receiveContentBy (s : Sys) (size : ℤ) : Sys × ℤ :=
  match s.contentReceivedBy env content size with
  | (s, consumed) =>
    if s.app.result ≤ -500 ∨ consumed ≤ 0 then (s, consumed)
    else (s.contentTaken env consumed, consumed)

def bodyRoundBy (s : Sys) (size : ℤ) : Sys × Round :=
  let s := if s.core.state = .chunkLenReceiving ∧ size > 2 then s.receiveChunkLine else s
  let (s, consumed, left) : Sys × ℤ × Option Round :=
    if s.core.state = .chunkReceiving ∨ s.core.state = .bodyReceiving then
      match s.receiveContentBy env content size with
      | (s, consumed) =>
        (s, consumed,
          if s.app.result ≤ -500 then some .leave else if consumed ≤ 0 then some .stop else none)
    else (s, 0, none)
  match left with
  | some r => (s, r)
  | none =>
    if s.core.state = .bodyDone then (s.requestDone env, .stop)
    else if s.core.rx.reqBufList = [] ∨ consumed ≤ 0 then (s, .stop)
    else (s, .again)

def headerRoundBy (s : Sys) (afterHeader : Bool) : Sys × Round :=
  if s.app.result < 0 then (s, .stop)
  else if s.core.state = .headerReceiving ∧ s.core.rx.requestLength ≥ maxReqBufSize then
    (s.setResult (-500), .stop)
  else if s.core.state.code < HttpState.headerDone.code then
    (s, if s.core.rx.reqBufList ≠ [] then .again else .stop)
  else
    let s := if afterHeader then s.afterHeaders env else s
    if s.app.result < 0 then (s, .stop) else bodyRoundBy env content s s.core.rx.requestLength

/-- One round of the loop of `HttpRequestProc`, with the callbacks given. -/
def requestRoundBy (s : Sys) : Sys × Round :=
  let s := s.dequeue
  if s.core.rx.requestLength = 0 then (s, .stop)
  else
    let s := if s.core.rx.requestLength > 0 ∧ s.core.state = .idle then s.beginRequest env else s
    if s.core.state = .headerReceiving then
      match s.receiveHeader env with
      | (s, afterHeader) => s.headerRoundBy env content afterHeader
    else s.headerRoundBy env content false

/-- The loop, round by round. -/
def loopRound (s : Sys) : Sys ⊕ (Sys × Bool) :=
  if s.core.state.code < HttpState.bodyDone.code then
    match s.requestRoundBy env content with
    | (s, .again) => .inl s
    | (s, .stop) => .inr (s, true)
    | (s, .leave) => .inr (s, false)
  else .inr (s, true)

variable {env}

/-- With the callbacks of the mappings this is the round of the model. -/
theorem requestRoundBy_mapped (s : Sys) : s.requestRoundBy env mappedContent = s.requestRound env := rfl

/-- The loop of the model does what the loop does that ends. -/
theorem requestLoop_of_run {n : ℕ} {s : Sys} {r : Sys × Bool}
    (h : Loop.run (loopRound env mappedContent) n s = some r) : s.requestLoop env n = r := by
  induction n generalizing s with
  | zero => cases h
  | succ n ih =>
    rw [Loop.run, loopRound, requestRoundBy_mapped] at h
    rw [requestLoop]
    by_cases hstate : s.core.state.code < HttpState.bodyDone.code
    · rw [if_pos hstate] at h ⊢
      generalize s.requestRound env = t at h ⊢
      obtain ⟨t, round⟩ := t
      cases round with
      | again => exact ih h
      | stop => exact Option.some.inj h
      | leave => exact Option.some.inj h
    · rw [if_neg hstate] at h ⊢
      exact Option.some.inj h

end Sys

/-! ## The queue -/

/-- Every `tot_len` is the length of the chain from there on. -/
def TotLens : List Pbuf → Prop
  | [] => True
  | p :: c => p.totLen = (chainBytes (p :: c)).length ∧ TotLens c

theorem TotLens.headTotLen_eq {c : List Pbuf} (h : TotLens c) : headTotLen c = (chainBytes c).length := by
  cases c with
  | nil => rfl
  | cons p c => exact h.1

namespace Rx

/-- The queue is empty, or a chain that is read up to an offset in it. Its `tot_len` fields are 16 bits
wide. -/
structure Queued (s : Rx) : Prop where
  chain : TotLens s.reqBufList
  small : headTotLen s.reqBufList < 65536
  offset : s.reqBufList ≠ [] → s.bufOffset < headTotLen s.reqBufList

theorem queued_length (s : Rx) : s.queued.length = (chainBytes s.reqBufList).length - s.bufOffset := by
  rw [queued, List.length_drop]

/-- Unlinking keeps what is not read. -/
theorem unlinkRead_left (c : List Pbuf) (tot off recved : ℕ) (hc : TotLens c)
    (htot : tot = (chainBytes c).length) (hs : tot < 65536) (ho : off < tot) :
    TotLens (unlinkRead c tot off recved).1 ∧
      headTotLen (unlinkRead c tot off recved).1 < 65536 ∧
      (unlinkRead c tot off recved).2.1 + (tot - off) = headTotLen (unlinkRead c tot off recved).1 := by
  induction c generalizing tot off recved with
  | nil =>
    simp only [chainBytes_nil, List.length_nil] at htot
    omega
  | cons p c ih =>
    have hp : p.payload.length = p.len := rfl
    simp only [chainBytes_cons, List.length_append] at htot
    unfold unlinkRead
    split
    next h =>
      refine ⟨⟨?_, hc.2⟩, hs, ?_⟩
      · rw [htot, chainBytes_cons, List.length_append]
      · show off + (tot - off) = tot
        omega
    next h =>
      have hu : u16 (tot + 65536 - p.len) = (chainBytes c).length := by
        rw [show tot + 65536 - p.len = (chainBytes c).length + 65536 by omega]
        unfold u16
        omega
      obtain ⟨h1, h2, h3⟩ := ih (u16 (tot + 65536 - p.len)) (off - p.len) (recved + p.len) hc.2 hu
        (by omega) (by omega)
      refine ⟨h1, h2, ?_⟩
      rw [← h3, hu]
      omega

/-- Refilling the buffer moves bytes from the queue, as many as fit. -/
structure Refilled (s t : Rx) : Prop where
  queued : Queued t
  maxLevel : t.maxLevel = s.maxLevel
  grown : s.requestLength ≤ t.requestLength
  level : t.requestLength ≤ t.maxLevel
  left : t.queued.length ≤ s.queued.length
  taken : s.reqBufList ≠ [] → s.requestLength < s.maxLevel → t.queued.length < s.queued.length

theorem dequeue_refilled {s : Rx} (h : Queued s) (hlevel : s.requestLength ≤ s.maxLevel) :
    Refilled s s.dequeue := by
  have htot := h.chain.headTotLen_eq
  have hsmall := h.small
  unfold dequeue
  by_cases hne : s.reqBufList = []
  · rw [if_pos hne]
    exact ⟨h, rfl, le_refl _, hlevel, le_refl _, fun h' => absurd hne h'⟩
  rw [if_neg hne]
  have hoff := h.offset hne
  have hspace : s.nSpace = min (s.maxLevel - s.requestLength) (headTotLen s.reqBufList - s.bufOffset) := by
    unfold nSpace
    simp only
    split_ifs <;> omega
  by_cases hpos : s.nSpace > 0
  swap
  · rw [if_neg hpos]
    exact ⟨h, rfl, le_refl _, hlevel, le_refl _, fun _ hroom => by omega⟩
  rw [if_pos hpos]
  simp only
  generalize hn : s.nSpace.toNat = n at *
  have hdata : (pbufCopyPartial s.reqBufList (u16 n) (u16 s.bufOffset)).length = n := by
    rw [pbufCopyPartial_eq, u16_of_lt (by omega), u16_of_lt (by omega), slice, List.length_take,
      List.length_drop]
    omega
  have hqueued := s.queued_length
  have hlength : (s.append (pbufCopyPartial s.reqBufList (u16 n) (u16 s.bufOffset))).requestLength =
      s.requestLength + n := by
    rw [append, hdata]
  by_cases hend : s.bufOffset + n = headTotLen s.reqBufList
  · rw [if_pos hend]
    refine ⟨⟨trivial, Nat.zero_lt_succ _, fun h' => absurd rfl h'⟩, rfl, ?_, ?_, Nat.zero_le _, fun _ _ => ?_⟩
    · show s.requestLength ≤ (s.append _).requestLength
      omega
    · show (s.append _).requestLength ≤ s.maxLevel
      omega
    · show 0 < s.queued.length
      omega
  · rw [if_neg hend]
    obtain ⟨hchain, hlow, hleft⟩ := unlinkRead_left s.reqBufList (headTotLen s.reqBufList) (s.bufOffset + n)
      s.recved h.chain htot hsmall (by omega)
    generalize unlinkRead s.reqBufList (headTotLen s.reqBufList) (s.bufOffset + n) s.recved = u
      at hchain hlow hleft ⊢
    obtain ⟨rest, off, recved⟩ := u
    simp only at hchain hlow hleft ⊢
    have hrest := hchain.headTotLen_eq
    have hqueued' : ∀ t : Rx, t.reqBufList = rest → t.bufOffset = off →
        t.queued.length = headTotLen s.reqBufList - (s.bufOffset + n) := by
      intro t hlist hoff'
      rw [t.queued_length, hlist, hoff', ← hrest]
      omega
    refine ⟨⟨hchain, hlow, fun _ => ?_⟩, rfl, ?_, ?_, ?_, fun _ _ => ?_⟩
    · show off < headTotLen rest
      omega
    · show s.requestLength ≤ (s.append _).requestLength
      omega
    · show (s.append _).requestLength ≤ s.maxLevel
      omega
    · rw [hqueued' _ rfl rfl]
      omega
    · rw [hqueued' _ rfl rfl]
      omega

/-- What a round does to the buffer behind the refill: bytes are shifted out. -/
structure Shifted (s t : Rx) : Prop where
  list : t.reqBufList = s.reqBufList
  offset : t.bufOffset = s.bufOffset
  maxLevel : t.maxLevel = s.maxLevel
  nonneg : 0 ≤ t.requestLength
  level : t.requestLength ≤ s.requestLength

theorem Shifted.of_eq {s t : Rx} (h : t = s) (h0 : 0 ≤ s.requestLength) : Shifted s t := by
  subst h
  exact ⟨rfl, rfl, rfl, h0, le_refl _⟩

theorem Shifted.trans {s t u : Rx} (h : Shifted s t) (h' : Shifted t u) : Shifted s u :=
  ⟨h'.list.trans h.list, h'.offset.trans h.offset, h'.maxLevel.trans h.maxLevel, h'.nonneg,
    h'.level.trans h.level⟩

theorem shift_shifted {s : Rx} {k : ℤ} (h0 : 0 ≤ k) (hk : k ≤ s.requestLength) : Shifted s (s.shift k) := by
  refine ⟨rfl, rfl, rfl, ?_, ?_⟩
  · show 0 ≤ s.requestLength - k
    omega
  · show s.requestLength - k ≤ s.requestLength
    omega

end Rx

open Rx (Queued Shifted)

/-! ## One round -/

namespace Sys

variable {env : Env} {content : ContentCallbacks}

/-- A callback that takes no more than it is offered. -/
def TakesAtMost (content : ContentCallbacks) : Prop :=
  ∀ m f, content m = some f → ∀ env c a buffer size, 0 ≤ size → (f env c a buffer size).2 ≤ size

/-- The callbacks of the mappings take no more than they are offered. -/
theorem mappedContent_takesAtMost : TakesAtMost mappedContent := by
  intro m f hf env c a buffer size hsize
  cases m <;> cases hf
  case auth =>
    show (authOnPostData a.toWork buffer size).2 ≤ size
    unfold authOnPostData
    split_ifs
    · exact le_refl _
    · exact le_refl _
  case form =>
    have hmissing : min (c.contentLength - c.contentReceived) size ≤ size := min_le_right _ _
    unfold webOnFormReceived
    by_cases hpost : min (c.contentLength - c.contentReceived) size > 0 ∧ c.requestMethod = some .post
    · by_cases hkilling : a.killing = true
      · simp only [if_pos hpost, if_pos hkilling]
        exact hsize
      · simp only [if_pos hpost, if_neg hkilling]
        split
        · exact (min_le_left _ _).trans hmissing
        · exact (min_le_left _ _).trans hmissing
    · simp only [if_neg hpost]
      exact hmissing
  case upload =>
    show (uploadOnContentReceived env c a.toWork buffer size).2 ≤ size
    unfold uploadOnContentReceived
    simp only
    split_ifs
    · exact hsize
    · exact min_le_right _ _
    · exact hsize
    · exact hsize

/-- The parsing of the header shifts out lines, or half of a full buffer. -/
theorem receiveHeader_shifted {s : Sys} (h0 : 0 ≤ s.core.rx.requestLength) :
    Shifted s.core.rx (s.receiveHeader env).1.core.rx ∧
      (2 ≤ s.core.rx.requestLength → s.core.rx.maxLevel ≤ s.core.rx.requestLength →
        (s.receiveHeader env).1.core.rx.requestLength < s.core.rx.requestLength) := by
  have hscan := @headerLines_scanned env [] (s.core.rx.requestLength.toNat + 1) s 0 (.inl rfl) (Nat.zero_le _)
  have hheld : s.core.rx.held.length ≤ s.core.rx.requestLength.toNat := by
    rw [Rx.held]
    exact List.length_take_le _ _
  by_cases hsize : s.core.rx.requestLength ≥ 2
  · unfold receiveHeader
    simp only [if_pos hsize]
    generalize s.headerLines env (s.core.rx.requestLength.toNat + 1) 0 = r at hscan ⊢
    obtain ⟨t, pos, done⟩ := r
    have hrx : t.core.rx = s.core.rx := hscan.rx
    have hpos : pos ≤ s.core.rx.held.length := hscan.stop_le
    have hshift : ∀ k : ℤ, (t.consume .header k).core.rx = s.core.rx.shift k := fun k => by
      rw [← hrx]
      rfl
    have hlength : ∀ k : ℤ, (s.core.rx.shift k).requestLength = s.core.rx.requestLength - k := fun k => rfl
    simp only [hrx]
    split_ifs with hzero hfull
    · rw [hshift, hlength]
      exact ⟨Rx.shift_shifted (by omega) (by omega), fun _ _ => by omega⟩
    · exact ⟨.of_eq hrx h0, fun _ hlevel => absurd hlevel hfull⟩
    · rw [hshift, hlength]
      exact ⟨Rx.shift_shifted (by omega) (by omega), fun _ _ => by omega⟩
  · unfold receiveHeader
    simp only [if_neg hsize]
    exact ⟨.of_eq rfl h0, fun h => absurd h hsize⟩

/-- What becomes of the bytes in the buffer when they are offered. -/
structure Offered (s : Sys) (r : Sys × ℤ) : Prop where
  shifted : Shifted s.core.rx r.1.core.rx
  less : 0 < r.2 → ¬ r.1.app.result ≤ -500 → r.1.core.rx.requestLength < s.core.rx.requestLength
  state : r.1.core.state = s.core.state ∨ r.1.core.state = .bodyDone ∨
    s.core.chunked = true ∧ r.1.core.state = .chunkLenReceiving

/-- What is offered to the callback is in the buffer, so it can be shifted out. -/
theorem receiveContentBy_offered (hcontent : TakesAtMost content) {s : Sys}
    (h0 : 0 ≤ s.core.rx.requestLength) :
    Offered s (s.receiveContentBy env content s.core.rx.requestLength) := by
  have htaken : ∀ t : Sys, t.core.rx = s.core.rx → t.core.chunked = s.core.chunked →
      t.core.state = s.core.state → ∀ consumed : ℤ, consumed ≤ s.core.rx.requestLength →
      Offered s (if t.app.result ≤ -500 ∨ consumed ≤ 0 then (t, consumed)
        else (t.contentTaken env consumed, consumed)) := by
    intro t hrx hchunked hstate consumed hle
    split_ifs with hnone
    · refine ⟨.of_eq hrx h0, fun hpos hres => ?_, .inl hstate⟩
      rcases hnone with hres' | hneg
      · exact absurd hres' hres
      · exact absurd hneg (not_le.mpr hpos)
    · obtain ⟨state, _, _, _, hcore, hend⟩ := @contentTaken_core env t consumed
      have hlength : (s.core.rx.shift consumed).requestLength = s.core.rx.requestLength - consumed := rfl
      have hpos : 0 < consumed := by
        by_contra hneg
        exact hnone (.inr (not_lt.mp hneg))
      have hshifted := @Rx.shift_shifted s.core.rx consumed (le_of_lt hpos) hle
      refine ⟨?_, fun _ _ => ?_, ?_⟩
      · simp only [hcore, hrx]
        exact hshifted
      · simp only [hcore, hrx, hlength]
        omega
      · simp only [hcore]
        rcases hend with ⟨-, he, -⟩ | ⟨-, hc, he, -⟩ | ⟨-, -, he, -⟩
        · exact .inl (he.trans hstate)
        · by_cases hlast : t.core.contentLength = 2
          · exact .inr (.inl (he.trans (if_pos hlast)))
          · exact .inr (.inr ⟨hchunked.symm.trans hc, he.trans (if_neg hlast)⟩)
        · exact .inr (.inl he)
  refine htaken (s.contentReceivedBy env content s.core.rx.requestLength).1 ?_ ?_ ?_
    (s.contentReceivedBy env content s.core.rx.requestLength).2 ?_
  all_goals
    unfold contentReceivedBy
    split
    · first | rfl | exact h0
    next m hm =>
      split
      next f hf => first | rfl | exact hcontent m f hf _ _ _ _ _ h0
      next hf => first | rfl | exact h0

/-- What the part of a round behind the refill comes to. When another round follows, there is room in
the buffer and the queue is not empty. -/
structure RoundEnd (s : Sys) (r : Sys × Round) : Prop where
  shifted : Shifted s.core.rx r.1.core.rx
  again : r.2 = .again → r.1.core.rx.reqBufList ≠ [] ∧
    r.1.core.rx.requestLength < r.1.core.rx.maxLevel ∧
    (s.core.chunked = false → r.1.core.state ≠ .chunkLenReceiving) ∧
    r.1.core.state.code < HttpState.bodyDone.code

theorem requestDone_core (s : Sys) : (s.requestDone env).core.rx = s.core.rx ∧
    (s.requestDone env).core.chunked = s.core.chunked := by
  have hdone : (s.cgiRequestReceived env).core.rx = s.core.rx ∧
      (s.cgiRequestReceived env).core.chunked = s.core.chunked := by
    unfold cgiRequestReceived
    split
    · exact ⟨rfl, rfl⟩
    · split
      · exact ⟨rfl, rfl⟩
      · exact ⟨rfl, rfl⟩
  unfold requestDone
  simp only
  split_ifs
  · exact hdone
  · exact hdone

/-- The body is offered to the handler, and the bytes taken are shifted out. -/
theorem bodyRoundBy_end (hcontent : TakesAtMost content) {s : Sys} (h0 : 0 ≤ s.core.rx.requestLength)
    (hlevel : s.core.rx.requestLength ≤ s.core.rx.maxLevel) (hstate : s.core.state ≠ .chunkLenReceiving) :
    RoundEnd s (s.bodyRoundBy env content s.core.rx.requestLength) := by
  unfold bodyRoundBy
  simp only [if_neg (fun h : s.core.state = .chunkLenReceiving ∧ _ => hstate h.1)]
  by_cases hbody : s.core.state = .chunkReceiving ∨ s.core.state = .bodyReceiving
  · simp only [if_pos hbody]
    have hoffered := @receiveContentBy_offered env content hcontent s h0
    generalize s.receiveContentBy env content s.core.rx.requestLength = r at hoffered ⊢
    obtain ⟨t, consumed⟩ := r
    obtain ⟨hshifted, hless, hend⟩ := hoffered
    simp only at hshifted hless hend ⊢
    by_cases hres : t.app.result ≤ -500
    · simp only [if_pos hres]
      exact ⟨hshifted, fun h => by cases h⟩
    by_cases hneg : consumed ≤ 0
    · simp only [if_neg hres, if_pos hneg]
      exact ⟨hshifted, fun h => by cases h⟩
    simp only [if_neg hres, if_neg hneg]
    by_cases hdone : t.core.state = .bodyDone
    · simp only [if_pos hdone]
      refine ⟨?_, fun h => by cases h⟩
      show Shifted _ (t.requestDone env).core.rx
      rw [(@requestDone_core env t).1]
      exact hshifted
    simp only [if_neg hdone]
    by_cases hempty : t.core.rx.reqBufList = [] ∨ consumed ≤ 0
    · simp only [if_pos hempty]
      exact ⟨hshifted, fun h => by cases h⟩
    · simp only [if_neg hempty]
      refine ⟨hshifted, fun _ => ⟨fun h => hempty (.inl h), ?_, ?_, ?_⟩⟩
      · have hlt := hless (not_le.mp hneg) hres
        have hmax := hshifted.maxLevel
        show t.core.rx.requestLength < t.core.rx.maxLevel
        omega
      · intro hplain
        rcases hend with he | he | ⟨hc, -⟩
        · exact fun h => hstate (he.symm.trans h)
        · exact absurd he hdone
        · rw [hplain] at hc
          cases hc
      · show t.core.state.code < HttpState.bodyDone.code
        rcases hend with he | he | ⟨-, he⟩
        · rw [he]
          rcases hbody with hb | hb
          · rw [hb]
            decide
          · rw [hb]
            decide
        · exact absurd he hdone
        · rw [he]
          decide
  · simp only [if_neg hbody]
    by_cases hdone : s.core.state = .bodyDone
    · simp only [if_pos hdone]
      exact ⟨.of_eq (@requestDone_core env s).1 h0, fun h => by cases h⟩
    · simp only [if_neg hdone, le_refl, or_true, if_true]
      exact ⟨.of_eq rfl h0, fun h => by cases h⟩

/-- Behind the header nothing says again whether the body is chunked. -/
theorem receiveContentBy_chunked (s : Sys) (size : ℤ) :
    (s.receiveContentBy env content size).1.core.chunked = s.core.chunked := by
  have hoffered : (s.contentReceivedBy env content size).1.core.chunked = s.core.chunked := by
    unfold contentReceivedBy
    split
    · rfl
    · split
      · rfl
      · rfl
  unfold receiveContentBy
  generalize s.contentReceivedBy env content size = r at hoffered ⊢
  obtain ⟨t, consumed⟩ := r
  simp only at hoffered ⊢
  split_ifs
  · exact hoffered
  · obtain ⟨_, _, _, _, hcore, -⟩ := @contentTaken_core env t consumed
    simp only [hcore]
    exact hoffered

theorem bodyRoundBy_chunked (s : Sys) (size : ℤ) :
    (s.bodyRoundBy env content size).1.core.chunked = s.core.chunked := by
  have hline : (if s.core.state = .chunkLenReceiving ∧ size > 2 then s.receiveChunkLine
      else s).core.chunked = s.core.chunked := by
    split_ifs
    · unfold receiveChunkLine
      split
      · rfl
      · rfl
    · rfl
  unfold bodyRoundBy
  simp only
  generalize (if s.core.state = .chunkLenReceiving ∧ size > 2 then s.receiveChunkLine else s) = t at hline ⊢
  have hcontent := @receiveContentBy_chunked env content t size
  by_cases hbody : t.core.state = .chunkReceiving ∨ t.core.state = .bodyReceiving
  · simp only [if_pos hbody]
    generalize t.receiveContentBy env content size = r at hcontent ⊢
    obtain ⟨u, consumed⟩ := r
    simp only at hcontent ⊢
    have hu := hcontent.trans hline
    by_cases hres : u.app.result ≤ -500
    · simp only [if_pos hres]
      exact hu
    by_cases hneg : consumed ≤ 0
    · simp only [if_neg hres, if_pos hneg]
      exact hu
    simp only [if_neg hres, if_neg hneg]
    split_ifs
    · exact (@requestDone_core env u).2.trans hu
    · exact hu
    · exact hu
  · simp only [if_neg hbody]
    split_ifs
    · exact (@requestDone_core env t).2.trans hline
    · exact hline
    · exact hline

theorem headerRoundBy_chunked (s : Sys) (afterHeader : Bool) :
    (s.headerRoundBy env content afterHeader).1.core.chunked = s.core.chunked := by
  have hrest : ∀ t : Sys, t.core.chunked = s.core.chunked →
      (if t.app.result < 0 then (t, Round.stop)
        else bodyRoundBy env content t t.core.rx.requestLength).1.core.chunked = s.core.chunked := by
    intro t ht
    split_ifs
    · exact ht
    · exact (bodyRoundBy_chunked t _).trans ht
  unfold headerRoundBy
  by_cases hres : s.app.result < 0
  · rw [if_pos hres]
  rw [if_neg hres]
  by_cases hfull : s.core.state = .headerReceiving ∧ s.core.rx.requestLength ≥ maxReqBufSize
  · rw [if_pos hfull]
    rfl
  rw [if_neg hfull]
  by_cases hheader : s.core.state.code < HttpState.headerDone.code
  · rw [if_pos hheader]
  rw [if_neg hheader]
  cases afterHeader with
  | true =>
    obtain ⟨_, _, hcore, -⟩ := @afterHeaders_core env s
    exact hrest (s.afterHeaders env) (by rw [hcore])
  | false => exact hrest s rfl

/-- Where the part of a round behind the parsing of the header begins. -/
def RoundState (s : Sys) : Bool → Prop
  | true => s.core.state = .headerDone
  | false => s.core.state = .headerReceiving ∧ s.core.rx.requestLength < s.core.rx.maxLevel ∨
    HttpState.headerDone.code ≤ s.core.state.code ∧ s.core.state ≠ .chunkLenReceiving

theorem headerRoundBy_end (hcontent : TakesAtMost content) {s : Sys} {afterHeader : Bool}
    (h0 : 0 ≤ s.core.rx.requestLength) (hlevel : s.core.rx.requestLength ≤ s.core.rx.maxLevel)
    (hchunked : s.core.chunked = false) (hstate : s.RoundState afterHeader) :
    RoundEnd s (s.headerRoundBy env content afterHeader) := by
  unfold headerRoundBy
  by_cases hres : s.app.result < 0
  · rw [if_pos hres]
    exact ⟨.of_eq rfl h0, fun h => by cases h⟩
  rw [if_neg hres]
  by_cases hfull : s.core.state = .headerReceiving ∧ s.core.rx.requestLength ≥ maxReqBufSize
  · rw [if_pos hfull]
    exact ⟨.of_eq rfl h0, fun h => by cases h⟩
  rw [if_neg hfull]
  by_cases hheader : s.core.state.code < HttpState.headerDone.code
  · rw [if_pos hheader]
    refine ⟨.of_eq rfl h0, fun hagain => ?_⟩
    have hlist : s.core.rx.reqBufList ≠ [] := by
      intro hempty
      simp only [hempty, ne_eq, not_true_eq_false, if_false] at hagain
      cases hagain
    cases afterHeader with
    | true =>
      rw [show s.core.state = .headerDone from hstate] at hheader
      exact absurd hheader (by decide)
    | false =>
      rcases hstate with ⟨hst, hroom⟩ | ⟨hpast, -⟩
      · refine ⟨hlist, hroom, fun _ => ?_, ?_⟩
        · show s.core.state ≠ .chunkLenReceiving
          rw [hst]
          decide
        · show s.core.state.code < HttpState.bodyDone.code
          rw [hst]
          decide
      · exact absurd hheader (not_lt.mpr hpast)
  rw [if_neg hheader]
  -- the body
  have hbody : (if afterHeader then s.afterHeaders env else s).core.rx = s.core.rx ∧
      (if afterHeader then s.afterHeaders env else s).core.chunked = s.core.chunked ∧
      (if afterHeader then s.afterHeaders env else s).core.state ≠ .chunkLenReceiving := by
    cases afterHeader with
    | true =>
      obtain ⟨_, _, hcore, -⟩ := @afterHeaders_core env s
      simp only [if_true, hcore]
      refine ⟨trivial, trivial, ?_⟩
      simp only [bodyState, hchunked, Bool.false_eq_true, if_false]
      split_ifs <;> decide
    | false =>
      refine ⟨rfl, rfl, ?_⟩
      rcases hstate with ⟨hst, -⟩ | ⟨-, hst⟩
      · rw [hst] at hheader
        exact absurd (by decide) hheader
      · exact hst
  generalize (if afterHeader then s.afterHeaders env else s) = t at hbody ⊢
  obtain ⟨hrx, hchunked', hst⟩ := hbody
  simp only
  split_ifs
  · exact ⟨.of_eq hrx h0, fun h => by cases h⟩
  · rw [← hrx] at h0 hlevel
    obtain ⟨hshifted, hagain⟩ := @bodyRoundBy_end env content hcontent t h0 hlevel hst
    refine ⟨hrx ▸ hshifted, fun h => ?_⟩
    obtain ⟨hlist, hroom, hplain, hcode⟩ := hagain h
    exact ⟨hlist, hroom, fun hc => hplain (hchunked'.trans hc), hcode⟩

/-! ## The loop -/

/-- Where a round may begin, in a request without chunks. -/
structure RoundStart (s : Sys) : Prop where
  queue : Queued s.core.rx
  level : 0 ≤ s.core.rx.requestLength ∧ s.core.rx.requestLength ≤ s.core.rx.maxLevel
  receiving : s.core.state.code < HttpState.bodyDone.code
  plain : s.core.state ≠ .chunkLenReceiving

/-- What a round comes to. It takes bytes out of the queue if there are any and the buffer has room for
them, and it is followed by another only in such a state. -/
structure RoundKept (s : Sys) (r : Sys × Round) : Prop where
  queue : Queued r.1.core.rx
  level : 0 ≤ r.1.core.rx.requestLength ∧ r.1.core.rx.requestLength ≤ r.1.core.rx.maxLevel
  maxLevel : r.1.core.rx.maxLevel = s.core.rx.maxLevel
  taken : s.core.rx.reqBufList ≠ [] → s.core.rx.requestLength < s.core.rx.maxLevel →
    r.1.core.rx.queued.length < s.core.rx.queued.length
  again : r.2 = .again → r.1.RoundStart ∧ r.1.core.rx.reqBufList ≠ [] ∧
    r.1.core.rx.requestLength < r.1.core.rx.maxLevel

theorem RoundEnd.kept {s t u : Sys} {r : Sys × Round} (hfill : Rx.Refilled s.core.rx t.core.rx)
    (hshifted : Shifted t.core.rx u.core.rx) (hplain : u.core.chunked = false) (h : RoundEnd u r) :
    RoundKept s r := by
  obtain ⟨hlist, hoffset, hmax, h0, hle⟩ := hshifted.trans h.shifted
  have hlevel := hfill.level
  have hqueued : r.1.core.rx.queued = t.core.rx.queued := by rw [Rx.queued, Rx.queued, hlist, hoffset]
  have hqueue : Queued r.1.core.rx := by
    refine ⟨?_, ?_, ?_⟩
    · rw [hlist]
      exact hfill.queued.chain
    · rw [hlist]
      exact hfill.queued.small
    · rw [hlist, hoffset]
      exact hfill.queued.offset
  have hbounds : 0 ≤ r.1.core.rx.requestLength ∧ r.1.core.rx.requestLength ≤ r.1.core.rx.maxLevel := by omega
  refine ⟨hqueue, hbounds, hmax.trans hfill.maxLevel, ?_, fun he => ?_⟩
  · rw [hqueued]
    exact hfill.taken
  · obtain ⟨hne, hroom, hstate, hcode⟩ := h.again he
    exact ⟨⟨hqueue, hbounds, hcode, hstate hplain⟩, hne, hroom⟩

/-- One round, when no header line says that the body is chunked. -/
theorem requestRoundBy_kept (hcontent : TakesAtMost content) {s : Sys} (hs : s.RoundStart)
    (hone : s.core.rx.maxLevel ≠ 1) (hplain : (s.requestRoundBy env content).1.core.chunked = false) :
    RoundKept s (s.requestRoundBy env content) := by
  obtain ⟨hqueue, ⟨h0, hlevel⟩, hreceiving, hstate⟩ := hs
  have hfill : Rx.Refilled s.core.rx s.dequeue.core.rx := Rx.dequeue_refilled hqueue hlevel
  have hgrown := hfill.grown
  have hmax := hfill.maxLevel
  have hlevel' := hfill.level
  have hst : s.dequeue.core.state = s.core.state := rfl
  unfold requestRoundBy at hplain ⊢
  simp only at hplain ⊢
  generalize s.dequeue = t at hfill hgrown hmax hlevel' hst hplain ⊢
  by_cases hzero : t.core.rx.requestLength = 0
  · rw [if_pos hzero] at hplain ⊢
    have hsame : Shifted t.core.rx t.core.rx := .of_eq rfl (by omega)
    exact RoundEnd.kept hfill hsame hplain ⟨hsame, fun h => by cases h⟩
  rw [if_neg hzero] at hplain ⊢
  -- the first bytes of a request set the state only
  have hbegin : ∃ u : Sys, (if t.core.rx.requestLength > 0 ∧ t.core.state = .idle then t.beginRequest env
      else t) = u ∧ u.core.rx = t.core.rx ∧ u.core.state.code < HttpState.bodyDone.code ∧
      u.core.state ≠ .chunkLenReceiving ∧ u.core.state ≠ .idle := by
    by_cases hidle : t.core.rx.requestLength > 0 ∧ t.core.state = .idle
    · have hbegun : (t.beginRequest env).core.state = .headerReceiving := rfl
      rw [if_pos hidle]
      refine ⟨_, rfl, rfl, ?_⟩
      rw [hbegun]
      decide
    · rw [if_neg hidle]
      refine ⟨t, rfl, rfl, ?_, ?_, fun hi => hidle ⟨by omega, hi⟩⟩
      · rw [hst]
        exact hreceiving
      · rw [hst]
        exact hstate
  obtain ⟨u, hu, hrx, hcode, hchunk, hidle⟩ := hbegin
  rw [hu] at hplain ⊢
  rw [← hrx] at hfill hgrown hmax hlevel' hzero
  by_cases hheader : u.core.state = .headerReceiving
  · rw [if_pos hheader] at hplain ⊢
    have hu0 : 0 ≤ u.core.rx.requestLength := by omega
    obtain ⟨hshifted, hless⟩ := @receiveHeader_shifted env u hu0
    have hdone := (@receiveHeader_intakes env u hheader).2
    generalize u.receiveHeader env = r at hplain hshifted hless hdone ⊢
    obtain ⟨v, afterHeader⟩ := r
    simp only at hplain hshifted hless hdone ⊢
    rw [headerRoundBy_chunked] at hplain
    have hvlevel := hshifted.level
    have hvmax := hshifted.maxLevel
    refine RoundEnd.kept hfill hshifted hplain (headerRoundBy_end hcontent hshifted.nonneg (by omega) hplain ?_)
    cases afterHeader with
    | true => exact hdone
    | false =>
      refine .inl ⟨hdone, ?_⟩
      show v.core.rx.requestLength < v.core.rx.maxLevel
      omega
  · rw [if_neg hheader] at hplain ⊢
    rw [headerRoundBy_chunked] at hplain
    refine RoundEnd.kept hfill (.of_eq rfl (by omega)) hplain
      (headerRoundBy_end hcontent (by omega) hlevel' hplain (.inr ⟨?_, hchunk⟩))
    cases hu : u.core.state with
    | idle => exact absurd hu hidle
    | headerReceiving => exact absurd hu hheader
    | _ => decide

/-- A request without chunked transfer coding: no chunk is awaited, and no header line that a round of the
loop reads asks for chunks. -/
def WithoutChunks (env : Env) (content : ContentCallbacks) (s : Sys) : Prop :=
  s.core.state ≠ .chunkLenReceiving ∧
    ∀ t, Loop.Visits (loopRound env content) s t → (t.requestRoundBy env content).1.core.chunked = false

/-- Where the loop is in a request without chunks. -/
structure Looping (env : Env) (content : ContentCallbacks) (s : Sys) : Prop extends RoundStart s where
  level_ne : s.core.rx.maxLevel ≠ 1
  chunked : ∀ t, Loop.Visits (loopRound env content) s t →
    (t.requestRoundBy env content).1.core.chunked = false

theorem again_round {s t : Sys} (h : Loop.Again (loopRound env content) s t) :
    s.requestRoundBy env content = (t, .again) := by
  unfold Loop.Again loopRound at h
  split_ifs at h
  generalize s.requestRoundBy env content = r at h ⊢
  obtain ⟨u, round⟩ := r
  cases round with
  | again => rw [Sum.inl.inj h]
  | stop => cases h
  | leave => cases h

theorem ended_round {s : Sys} {r : Sys × Bool} (hs : s.core.state.code < HttpState.bodyDone.code)
    (h : loopRound env content s = .inr r) : r.1 = (s.requestRoundBy env content).1 := by
  unfold loopRound at h
  rw [if_pos hs] at h
  generalize s.requestRoundBy env content = r at h ⊢
  obtain ⟨u, round⟩ := r
  cases round with
  | again => cases h
  | stop => rw [← Sum.inr.inj h]
  | leave => rw [← Sum.inr.inj h]

/-- Another round begins with room in the buffer and bytes in the queue. -/
theorem Looping.again (hcontent : TakesAtMost content) {s t : Sys} (hs : Looping env content s)
    (h : Loop.Again (loopRound env content) s t) : Looping env content t ∧
      t.core.rx.reqBufList ≠ [] ∧ t.core.rx.requestLength < t.core.rx.maxLevel := by
  have hkept := requestRoundBy_kept hcontent hs.toRoundStart hs.level_ne (hs.chunked s (.refl s))
  rw [again_round h] at hkept
  obtain ⟨hstart, hroom⟩ := hkept.again rfl
  refine ⟨⟨hstart, ?_, fun u hu => hs.chunked u ((Loop.Visits.refl s).tail h |>.trans hu)⟩, hroom⟩
  show t.core.rx.maxLevel ≠ 1
  rw [show t.core.rx.maxLevel = s.core.rx.maxLevel from hkept.maxLevel]
  exact hs.level_ne

theorem Looping.taken (hcontent : TakesAtMost content) {s : Sys} (hs : Looping env content s)
    (hroom : s.core.rx.reqBufList ≠ [] ∧ s.core.rx.requestLength < s.core.rx.maxLevel) :
    (s.requestRoundBy env content).1.core.rx.queued.length < s.core.rx.queued.length :=
  (requestRoundBy_kept hcontent hs.toRoundStart hs.level_ne (hs.chunked s (.refl s))).taken hroom.1 hroom.2

theorem Looping.visits (hcontent : TakesAtMost content) {s t : Sys} (hs : Looping env content s)
    (h : Loop.Visits (loopRound env content) s t) : Looping env content t :=
  h.keep (fun _ _ hu hagain => (hu.again hcontent hagain).1) hs

theorem Looping.ends (hcontent : TakesAtMost content) {s : Sys} (hs : Looping env content s) :
    ∃ r, Loop.Ends (loopRound env content) s r := by
  cases hround : loopRound env content s with
  | inr r => exact ⟨r, s, .refl s, hround⟩
  | inl t =>
    -- from the second round on the queue gets shorter
    obtain ⟨r, hr⟩ := @Loop.ends_of_measure _ _ (loopRound env content)
      (fun u => Looping env content u ∧ u.core.rx.reqBufList ≠ [] ∧
        u.core.rx.requestLength < u.core.rx.maxLevel)
      (fun u => u.core.rx.queued.length)
      (fun u v hu hagain => by
        have hless := hu.1.taken hcontent hu.2
        rw [again_round hagain] at hless
        exact ⟨hu.1.again hcontent hagain, hless⟩)
      t (hs.again hcontent hround)
    exact ⟨r, hr.again hround⟩

/-- The request loop ends, every round but the first takes bytes out of the queue, and the length of the
buffer stays in its bounds. -/
theorem request_loop (hcontent : TakesAtMost content) {s : Sys}
    (hlevel : 0 ≤ s.core.rx.requestLength ∧ s.core.rx.requestLength ≤ s.core.rx.maxLevel)
    (hone : s.core.rx.maxLevel ≠ 1) (hqueue : Queued s.core.rx)
    (hstate : s.core.state.code < HttpState.bodyDone.code) (hplain : WithoutChunks env content s) :
    (∃ r, Loop.Ends (loopRound env content) s r ∧
      0 ≤ r.1.core.rx.requestLength ∧ r.1.core.rx.requestLength ≤ r.1.core.rx.maxLevel) ∧
    ∀ t u, Loop.Visits (loopRound env content) s t → Loop.Again (loopRound env content) t u →
      u.core.state.code < HttpState.bodyDone.code ∧
        (u.requestRoundBy env content).1.core.rx.queued.length < u.core.rx.queued.length := by
  have hs : Looping env content s := ⟨⟨hqueue, hlevel, hstate, hplain.1⟩, hone, hplain.2⟩
  constructor
  · obtain ⟨r, t, hvisits, hend⟩ := hs.ends hcontent
    have ht := hs.visits hcontent hvisits
    refine ⟨r, ⟨t, hvisits, hend⟩, ?_⟩
    rw [ended_round ht.receiving hend]
    exact (requestRoundBy_kept hcontent ht.toRoundStart ht.level_ne (ht.chunked t (.refl t))).level
  · intro t u hvisits hagain
    obtain ⟨hu, hroom⟩ := (hs.visits hcontent hvisits).again hcontent hagain
    exact ⟨hu.receiving, hu.taken hcontent hroom⟩

/-- A context in which the body of a request is received, with bytes of it in the queue. -/
def bodyAwaited : Sys :=
  let s := Sys.zero 0 World.boot
  { s with
    core := { s.core with
      rx := { s.core.rx with
        reqBufList := [⟨bytes "name=value", 10⟩]
        maxLevel := 8
        httpRequestBuffer := List.replicate 12 0 }
      state := .bodyReceiving
      requestMethod := some .post
      contentLength := 20
      handler := some .upload }
    app := { s.app with fileHandle := .handle 0 } }

/-- Eight bytes are taken in the first round and two in the second. -/
theorem bodyAwaited_withoutChunks : WithoutChunks (Env.calm []) mappedContent bodyAwaited := by
  refine ⟨by decide, fun t hvisits => ?_⟩
  rcases hvisits.cases_head with rfl | ⟨u, hu, hvisits⟩
  · decide +kernel
  obtain rfl : (bodyAwaited.requestRoundBy (Env.calm []) mappedContent).1 = u := by rw [again_round hu]
  rcases hvisits.cases_head with rfl | ⟨v, hv, -⟩
  · decide +kernel
  · have hstop : (requestRoundBy (Env.calm []) mappedContent
        (bodyAwaited.requestRoundBy (Env.calm []) mappedContent).1).2 = .stop := by
      decide +kernel
    rw [again_round hv] at hstop
    cases hstop

theorem request_loop_body : ∃ n, 0 ≤ (bodyAwaited.requestLoop (Env.calm []) n).1.core.rx.requestLength ∧
    (bodyAwaited.requestLoop (Env.calm []) n).1.core.rx.requestLength ≤
      (bodyAwaited.requestLoop (Env.calm []) n).1.core.rx.maxLevel := by
  have hqueue : Queued bodyAwaited.core.rx := by
    refine ⟨?_, by decide, fun _ => by decide⟩
    exact ⟨rfl, trivial⟩
  obtain ⟨⟨r, hends, hbounds⟩, -⟩ := request_loop mappedContent_takesAtMost (by decide) (by decide) hqueue (by decide)
    bodyAwaited_withoutChunks
  obtain ⟨n, hn⟩ := hends.run
  refine ⟨n, ?_⟩
  rw [requestLoop_of_run hn]
  exact hbounds

/-- A buffer of one byte, full, while more is in the queue. -/
def oneByte : Sys :=
  let s := Sys.zero 0 World.boot
  { s with core := { s.core with
    rx := { s.core.rx with
      reqBufList := [⟨bytes "E", 1⟩]
      requestLength := 1
      maxLevel := 1
      httpRequestBuffer := bytes "G" ++ [0, 0, 0] }
    state := .headerReceiving } }

/-- The buffer stays full: no line fits into it, and it is never cut in half. -/
theorem request_loop_one : ¬ ∀ (env : Env) (content : ContentCallbacks), TakesAtMost content → ∀ s : Sys,
    0 ≤ s.core.rx.requestLength ∧ s.core.rx.requestLength ≤ s.core.rx.maxLevel → Queued s.core.rx →
    s.core.state.code < HttpState.bodyDone.code → WithoutChunks env content s →
    ∃ r, Loop.Ends (loopRound env content) s r := by
  intro h
  have hagain : Loop.Again (loopRound (Env.calm []) mappedContent) oneByte oneByte := rfl
  have hqueue : Queued oneByte.core.rx := by
    refine ⟨?_, by decide, fun _ => by decide⟩
    exact ⟨rfl, trivial⟩
  have hvisits : ∀ t, Loop.Visits (loopRound (Env.calm []) mappedContent) oneByte t → t = oneByte := fun t ht =>
    ht.keep (P := fun t => t = oneByte)
      (fun u v hu hv => by
        subst hu
        exact Sum.inl.inj (hv.symm.trans hagain)) rfl
  refine Loop.not_ends_of_kept (P := fun t => t = oneByte) (fun t ht => ⟨oneByte, ht ▸ hagain, rfl⟩) rfl
    (h (Env.calm []) mappedContent mappedContent_takesAtMost oneByte (by decide) hqueue (by decide) ⟨by decide, ?_⟩)
  intro t ht
  rw [hvisits t ht]
  decide +kernel

end Sys

end StraightHttpd
