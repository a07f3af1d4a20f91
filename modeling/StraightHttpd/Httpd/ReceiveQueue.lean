import StraightHttpd.Lib.Runs
import StraightHttpd.Port.Pbuf

/-! # The receive path of a connection (`http_core.c`)

Received pbufs are copied straight into the request buffer when they fit, and queued otherwise.
`HttpRequestProc` refills the buffer from the queue and shifts out what it has processed. The queue
keeps a read offset into its first pbuf; pbufs that are read completely are unlinked one by one,
with their `tot_len` fields repaired by hand and the TCP window moved for each.

`Rx` is the part of `REQUEST_CONTEXT` these steps work on. `rx_stream` says that, over any
interleaving of them, no byte is lost, duplicated or reordered.
-/

set_option autoImplicit false

namespace StraightHttpd
open CMemory

def maxReqBufSize : ℕ := 800 -- MAX_REQ_BUF_SIZE = TCP_MSS

/-- The receiving fields of `REQUEST_CONTEXT`. `recved` counts what was given to `altcp_recved`. -/
structure Rx where
  reqBufList : List Pbuf
  bufOffset : ℕ
  requestLength : ℤ
  maxLevel : ℤ
  httpRequestBuffer : Bytes
  recved : ℕ
  deriving DecidableEq, Repr

namespace Rx

/-- Append `data` at `request_length` and terminate it with two NULs. -/
def append (s : Rx) (data : Bytes) : Rx :=
  let buf := poke s.httpRequestBuffer s.requestLength.toNat data
  let len := s.requestLength + data.length
  { s with httpRequestBuffer := poke buf len.toNat [0, 0], requestLength := len }

/-- `OnHttpReceive`: enqueue the chain, or copy it into the request buffer. -/
def receive (s : Rx) (p : List Pbuf) : Rx :=
  if s.reqBufList ≠ [] then { s with reqBufList := pbufCat s.reqBufList p }
  else if (headTotLen p : ℤ) > s.maxLevel - s.requestLength then { s with reqBufList := p }
  else
    let s' := s.append (pbufCopyPartial p (headTotLen p) 0)
    { s' with recved := s.recved + headTotLen p }

/-- The loop that frees the pbufs before the read offset. `tot` is the `tot_len` that the head has
by now; the result is the remaining chain, the offset into it and the bytes acknowledged. -/
def unlinkRead : List Pbuf → (tot off recved : ℕ) → List Pbuf × ℕ × ℕ
  | [], _, off, recved => ([], off, recved)
  | p :: c, tot, off, recved =>
    if off < p.len then ({ p with totLen := tot } :: c, off, recved)
    else unlinkRead c (u16 (tot + 65536 - p.len)) (off - p.len) (recved + p.len)

/-- How many queued bytes fit into the buffer. -/
def nSpace (s : Rx) : ℤ :=
  let space := s.maxLevel - s.requestLength
  let queued : ℤ := headTotLen s.reqBufList - s.bufOffset
  if space > queued then queued else space

/-- `HttpRequestProc`, the block at the head of its loop: refill the buffer from the queue. -/
def dequeue (s : Rx) : Rx :=
  if s.reqBufList = [] then s
  else if s.nSpace > 0 then
    let n := s.nSpace.toNat
    let s' := s.append (pbufCopyPartial s.reqBufList (u16 n) (u16 s.bufOffset))
    let off := s.bufOffset + n
    if off = headTotLen s.reqBufList then
      { s' with reqBufList := [], bufOffset := 0, recved := s.recved + headTotLen s.reqBufList }
    else
      let (rest, off', recved') := unlinkRead s.reqBufList (headTotLen s.reqBufList) off s.recved
      { s' with reqBufList := rest, bufOffset := off', recved := recved' }
  else s

/-- Shift the first `k` bytes out of the request buffer. -/
def shift (s : Rx) (k : ℤ) : Rx :=
  let len := s.requestLength - k
  { s with
    requestLength := len
    httpRequestBuffer :=
      if len > 0 then poke s.httpRequestBuffer 0 (slice s.httpRequestBuffer k.toNat len.toNat)
      else s.httpRequestBuffer }

/-- The bytes in the request buffer. -/
def held (s : Rx) : Bytes := s.httpRequestBuffer.take s.requestLength.toNat

/-- The bytes in the queue that are not yet in the buffer. -/
def queued (s : Rx) : Bytes := (chainBytes s.reqBufList).drop s.bufOffset

/-- An empty context. -/
def Empty (s : Rx) : Prop :=
  s.reqBufList = [] ∧ s.bufOffset = 0 ∧ s.requestLength = 0 ∧ s.maxLevel = maxReqBufSize ∧
    s.httpRequestBuffer.length = maxReqBufSize + 4 ∧ s.recved = 0

/-- The read offset lies in the first pbuf, and is 0 when nothing is queued. -/
def OffsetOk : List Pbuf → ℕ → Prop
  | [], off => off = 0
  | p :: _, off => off < p.len

/-- What every step of the receive path keeps. -/
structure Valid (s : Rx) : Prop where
  chain : Consistent s.reqBufList
  small : (chainBytes s.reqBufList).length < 65536
  offset : OffsetOk s.reqBufList s.bufOffset
  nonneg : 0 ≤ s.requestLength
  level : s.requestLength ≤ s.maxLevel
  room : s.maxLevel + 2 ≤ s.httpRequestBuffer.length

theorem Valid.of_empty {s : Rx} (h : s.Empty) : s.Valid := by
  obtain ⟨hl, ho, hn, hm, hb, -⟩ := h
  refine ⟨by rw [hl]; trivial, by rw [hl]; simp, by rw [hl, ho]; rfl, by omega, ?_, ?_⟩
  · rw [hn, hm]; decide
  · rw [hm, hb]; decide

/-! ## Copying into the buffer -/

theorem append_held {s : Rx} (data : Bytes) (h0 : 0 ≤ s.requestLength)
    (hr : s.requestLength + data.length + 2 ≤ s.httpRequestBuffer.length) :
    (s.append data).held = s.held ++ data := by
  have hi : s.requestLength.toNat ≤ s.httpRequestBuffer.length := by omega
  have he : (s.requestLength + data.length).toNat = s.requestLength.toNat + data.length := by omega
  simp only [append, held, he]
  have hlen : s.requestLength.toNat + data.length ≤
      (poke s.httpRequestBuffer s.requestLength.toNat data).length := length_le_poke hi
  rw [take_poke_of_le _ (Nat.le_refl _) hlen, take_poke_add _ hi]

theorem append_length {s : Rx} (data : Bytes) (h0 : 0 ≤ s.requestLength)
    (hr : s.requestLength + data.length + 2 ≤ s.httpRequestBuffer.length) :
    (s.append data).httpRequestBuffer.length = s.httpRequestBuffer.length := by
  have hb : (poke s.httpRequestBuffer s.requestLength.toNat data).length =
      s.httpRequestBuffer.length := poke_length (by omega)
  simp only [append]
  rw [poke_length (by simp only [List.length_cons, List.length_nil, hb]; omega), hb]

/-! ## Unlinking -/

/-- The loop keeps the unread bytes, and acknowledges exactly what it unlinks. -/
theorem unlinkRead_spec (c : List Pbuf) (tot off recved : ℕ) (p : Pbuf) (rest : List Pbuf)
    (hc : c = p :: rest) (hp : p.payload ≠ []) (hrest : Consistent rest)
    (htot : tot = (chainBytes c).length) (hs : tot < 65536) (ho : off < tot) :
    Consistent (unlinkRead c tot off recved).1 ∧
      OffsetOk (unlinkRead c tot off recved).1 (unlinkRead c tot off recved).2.1 ∧
      (chainBytes (unlinkRead c tot off recved).1).drop (unlinkRead c tot off recved).2.1 =
        (chainBytes c).drop off ∧
      (unlinkRead c tot off recved).2.2 + (chainBytes (unlinkRead c tot off recved).1).length =
        recved + tot := by
  induction c generalizing tot off recved p rest with
  | nil => cases hc
  | cons q c ih =>
    obtain ⟨rfl, rfl⟩ := List.cons.inj hc
    unfold unlinkRead
    split
    next h =>
      have hb : chainBytes ({ q with totLen := tot } :: c) = chainBytes (q :: c) := rfl
      exact ⟨⟨hp, by rw [hb, htot], hrest⟩, h, rfl, by rw [hb, htot]⟩
    next h =>
      simp only [chainBytes_cons, List.length_append] at htot
      have hlen : q.payload.length = q.len := rfl
      have hu : u16 (tot + 65536 - q.len) = (chainBytes c).length := by
        rw [show tot + 65536 - q.len = (chainBytes c).length + 65536 by omega]
        unfold u16
        omega
      -- bytes are left, so another pbuf follows
      cases c with
      | nil => simp only [chainBytes_nil, List.length_nil] at htot; omega
      | cons r c =>
        obtain ⟨hr, -, hc'⟩ := hrest
        obtain ⟨h1, h2, h3, h4⟩ := ih (u16 (tot + 65536 - q.len)) (off - q.len) (recved + q.len) r c
          rfl hr hc' hu (by omega) (by omega)
        refine ⟨h1, h2, ?_, ?_⟩
        · rw [h3, chainBytes_drop_cons (r :: c) (Nat.le_of_not_lt h)]
        · rw [h4, hu]
          omega

theorem le_unlinkRead (c : List Pbuf) (tot off recved : ℕ) :
    recved ≤ (unlinkRead c tot off recved).2.2 := by
  induction c generalizing tot off recved with
  | nil => exact Nat.le_refl _
  | cons p c ih =>
    unfold unlinkRead
    split
    · exact Nat.le_refl _
    · exact Nat.le_trans (Nat.le_add_right _ _) (ih _ _ _)

theorem Valid.offset_le {s : Rx} (h : s.Valid) : s.bufOffset ≤ (chainBytes s.reqBufList).length := by
  have ho := h.offset
  cases hc : s.reqBufList with
  | nil => rw [hc] at ho; simp [show s.bufOffset = 0 from ho]
  | cons p c =>
    rw [hc] at ho
    have hlt : s.bufOffset < p.payload.length := ho
    simp only [chainBytes_cons, List.length_append]
    omega

theorem Valid.offset_lt {s : Rx} (h : s.Valid) (hc : s.reqBufList ≠ []) :
    s.bufOffset < (chainBytes s.reqBufList).length := by
  have ho := h.offset
  cases hq : s.reqBufList with
  | nil => exact absurd hq hc
  | cons p c =>
    rw [hq] at ho
    have hlt : s.bufOffset < p.payload.length := ho
    simp only [chainBytes_cons, List.length_append]
    omega

/-! ## The three steps -/

theorem receive_spec {s : Rx} (h : s.Valid) (p : RecvChain)
    (hq : (chainBytes s.reqBufList).length + (chainBytes p.pbufs).length < 65536) :
    (s.receive p.pbufs).Valid ∧
      (s.receive p.pbufs).held ++ (s.receive p.pbufs).queued =
        s.held ++ s.queued ++ chainBytes p.pbufs ∧
      (s.receive p.pbufs).recved + (chainBytes (s.receive p.pbufs).reqBufList).length =
        s.recved + (chainBytes s.reqBufList).length + (chainBytes p.pbufs).length := by
  have hcat := chainBytes_pbufCat s.reqBufList p.pbufs
  have htot := p.consistent.headTotLen_eq
  unfold receive
  split
  next hne =>
    have ho : OffsetOk (pbufCat s.reqBufList p.pbufs) s.bufOffset := by
      have := h.offset
      cases hc : s.reqBufList with
      | nil => exact absurd hc hne
      | cons q c => rw [hc] at this; exact this
    refine ⟨⟨pbufCat_consistent h.chain p.consistent hq, ?_, ho, h.nonneg, h.level, h.room⟩, ?_, ?_⟩
    · rw [hcat, List.length_append]
      exact hq
    · simp only [held, queued, hcat]
      rw [List.drop_append_of_le_length h.offset_le, List.append_assoc]
    · simp only [hcat, List.length_append]
      omega
  next hnil =>
    have hnil : s.reqBufList = [] := not_not.mp hnil
    have hoff : s.bufOffset = 0 := by have := h.offset; rw [hnil] at this; exact this
    have hempty : s.queued = [] := by rw [queued, hnil]; simp
    have hno : (chainBytes s.reqBufList).length = 0 := by rw [hnil]; rfl
    split
    next hbig =>
      have ho : OffsetOk p.pbufs s.bufOffset := by
        have hc := p.consistent
        cases hp : p.pbufs with
        | nil => exact absurd hp p.ne
        | cons q c =>
          rw [hp] at hc
          exact hoff ▸ List.length_pos_iff.mpr hc.1
      have hp : (chainBytes p.pbufs).length < 65536 := by omega
      refine ⟨⟨p.consistent, hp, ho, h.nonneg, h.level, h.room⟩, ?_, ?_⟩
      · rw [hempty, List.append_nil]
        simp only [held, queued, hoff, List.drop_zero]
      · simp only [hno]
        omega
    next hfit =>
      have hcopy : pbufCopyPartial p.pbufs (headTotLen p.pbufs) 0 = chainBytes p.pbufs := by
        rw [pbufCopyPartial_eq, slice, List.drop_zero, htot, List.take_length]
      have hroom := h.room
      have hr : s.requestLength + (chainBytes p.pbufs).length + 2 ≤ s.httpRequestBuffer.length := by
        omega
      have hh := append_held (chainBytes p.pbufs) h.nonneg hr
      have hl := append_length (chainBytes p.pbufs) h.nonneg hr
      have h0 := h.nonneg
      simp only [hcopy]
      refine ⟨⟨h.chain, h.small, h.offset, ?_, ?_, ?_⟩, ?_, ?_⟩
      · simp only [append]; omega
      · simp only [append]; omega
      · show s.maxLevel + 2 ≤ _
        rw [hl]
        exact hroom
      · rw [hempty, List.append_nil, ← hh]
        show (s.append (chainBytes p.pbufs)).held ++ s.queued = _
        rw [hempty, List.append_nil]
      · simp only [append, htot]
        omega

theorem nSpace_le (s : Rx) :
    s.nSpace ≤ s.maxLevel - s.requestLength ∧
      s.nSpace ≤ (headTotLen s.reqBufList : ℤ) - s.bufOffset := by
  simp only [nSpace]
  split <;> omega

theorem dequeue_spec {s : Rx} (h : s.Valid) :
    s.dequeue.Valid ∧ s.dequeue.held ++ s.dequeue.queued = s.held ++ s.queued ∧
      s.dequeue.recved + (chainBytes s.dequeue.reqBufList).length =
        s.recved + (chainBytes s.reqBufList).length := by
  have h0 := h.nonneg
  have hroom := h.room
  have hsmall := h.small
  have htot := h.chain.headTotLen_eq
  obtain ⟨hle, hle'⟩ := s.nSpace_le
  unfold dequeue
  generalize s.nSpace = n at hle hle'
  by_cases hne : s.reqBufList = []
  · rw [if_pos hne]
    exact ⟨h, rfl, rfl⟩
  by_cases hpos : n > 0
  swap
  · rw [if_neg hne, if_neg hpos]
    exact ⟨h, rfl, rfl⟩
  rw [if_neg hne, if_pos hpos]
  -- `n` bytes move from the queue to the buffer
  have hlt := h.offset_lt hne
  have hdata : pbufCopyPartial s.reqBufList (u16 n.toNat) (u16 s.bufOffset) =
      s.queued.take n.toNat := by
    rw [pbufCopyPartial_eq, u16_of_lt (by omega), u16_of_lt (by omega)]
    rfl
  have hqlen : s.queued.length = (chainBytes s.reqBufList).length - s.bufOffset := by
    rw [queued, List.length_drop]
  have hdlen : (s.queued.take n.toNat).length = n.toNat := by
    rw [List.length_take, hqlen]
    omega
  have hr : s.requestLength + (s.queued.take n.toNat).length + 2 ≤
      s.httpRequestBuffer.length := by
    rw [hdlen]
    omega
  have hh := append_held _ h0 hr
  have hl := append_length _ h0 hr
  have hrl : (s.append (s.queued.take n.toNat)).requestLength = s.requestLength + n.toNat := by
    rw [append, hdlen]
  have hsplit : s.queued = s.queued.take n.toNat ++
      (chainBytes s.reqBufList).drop (s.bufOffset + n.toNat) := by
    rw [queued, ← List.drop_drop, List.take_append_drop]
  simp only [hdata]
  split
  next hend =>
    have hrest : (chainBytes s.reqBufList).drop (s.bufOffset + n.toNat) = [] :=
      List.drop_eq_nil_of_le (by omega)
    refine ⟨⟨trivial, by simp, rfl, ?_, ?_, ?_⟩, ?_, ?_⟩
    · show 0 ≤ (s.append _).requestLength
      omega
    · show (s.append _).requestLength ≤ s.maxLevel
      omega
    · show s.maxLevel + 2 ≤ ((s.append _).httpRequestBuffer.length : ℤ)
      omega
    · show (s.append _).held ++ [] = _
      rw [hh, List.append_nil]
      nth_rewrite 2 [hsplit]
      rw [hrest, List.append_nil]
    · simp only [chainBytes_nil, List.length_nil]
      omega
  next hmore =>
    obtain ⟨p, c, hc⟩ := List.exists_cons_of_ne_nil hne
    have hcc := h.chain
    rw [hc] at hcc
    obtain ⟨h1, h2, h3, h4⟩ := unlinkRead_spec s.reqBufList (headTotLen s.reqBufList)
      (s.bufOffset + n.toNat) s.recved p c hc hcc.1 hcc.2.2 htot (by omega) (by omega)
    have h5 := le_unlinkRead s.reqBufList (headTotLen s.reqBufList) (s.bufOffset + n.toNat) s.recved
    have h6 : (chainBytes (unlinkRead s.reqBufList (headTotLen s.reqBufList)
        (s.bufOffset + n.toNat) s.recved).1).length < 65536 := by omega
    refine ⟨⟨h1, h6, h2, ?_, ?_, ?_⟩, ?_, ?_⟩
    · show 0 ≤ (s.append _).requestLength
      omega
    · show (s.append _).requestLength ≤ s.maxLevel
      omega
    · show s.maxLevel + 2 ≤ ((s.append _).httpRequestBuffer.length : ℤ)
      omega
    · show (s.append _).held ++ (chainBytes _).drop _ = _
      rw [hh, h3, List.append_assoc, ← hsplit]
    · show _ + (chainBytes _).length = _
      rw [h4, htot]

theorem shift_spec {s : Rx} (h : s.Valid) {k : ℕ} (hk : (k : ℤ) ≤ s.requestLength) :
    (s.shift k).Valid ∧ s.held.take k ++ (s.shift k).held = s.held ∧
      (s.shift k).reqBufList = s.reqBufList ∧ (s.shift k).bufOffset = s.bufOffset ∧
      (s.shift k).recved = s.recved := by
  have h0 := h.nonneg
  have hl := h.level
  have hr := h.room
  have hkeep : (s.shift k).httpRequestBuffer.length = s.httpRequestBuffer.length := by
    unfold shift
    simp only []
    split
    · exact poke_length (by simp [slice])
    · rfl
  refine ⟨⟨h.chain, h.small, h.offset, ?_, ?_, ?_⟩, ?_, rfl, rfl, rfl⟩
  · show 0 ≤ s.requestLength - k
    omega
  · show s.requestLength - k ≤ s.maxLevel
    omega
  · rw [hkeep]
    exact hr
  · have hheld : (s.shift k).held = s.held.drop k := by
      simp only [held, shift]
      split
      next hp =>
        have hlen : (slice s.httpRequestBuffer k (s.requestLength - k).toNat).length =
            (s.requestLength - k).toNat := by
          simp only [slice, List.length_take, List.length_drop]
          omega
        have hs := take_poke_add (slice s.httpRequestBuffer k (s.requestLength - k).toNat)
          (Nat.zero_le s.httpRequestBuffer.length)
        rw [Nat.zero_add, hlen, List.take_zero, List.nil_append] at hs
        rw [Int.toNat_natCast, hs, slice, List.drop_take]
        congr 1
        omega
      next hp =>
        have hz : (s.requestLength - k).toNat = 0 := by omega
        rw [hz, List.take_zero, List.drop_eq_nil_of_le (by simp; omega)]
    rw [hheld, List.take_append_drop]

/-! ## Runs of the receive path -/

/-- What can happen to the receive path: a chain arrives, the processing loop refills the buffer,
or it removes the `k` bytes it has processed. -/
inductive Event
  | receive (p : RecvChain)
  | dequeue
  | remove (k : ℕ)

/-- The receive path with all bytes that came in and all bytes that were processed. -/
structure History where
  rx : Rx
  received : Bytes
  removed : Bytes

/-- The window keeps the queue below 64 KiB; only bytes in the buffer can be removed. -/
def Step (s : History) : Event → History → Prop
  | .receive p, s' =>
    (chainBytes s.rx.reqBufList).length + (chainBytes p.pbufs).length < 65536 ∧
      s' = { s with
        rx := s.rx.receive p.pbufs
        received := s.received ++ chainBytes p.pbufs }
  | .dequeue, s' => s' = { s with rx := s.rx.dequeue }
  | .remove k, s' =>
    (k : ℤ) ≤ s.rx.requestLength ∧
      s' = { s with rx := s.rx.shift k, removed := s.removed ++ s.rx.held.take k }

def runs : RunSystem History Event where
  init s := s.rx.Empty ∧ s.received = [] ∧ s.removed = []
  step := Step

/-- The receive path is sound, and what came in is what was removed, is held or is queued. -/
structure Accounted (s : History) : Prop where
  valid : s.rx.Valid
  stream : s.removed ++ s.rx.held ++ s.rx.queued = s.received
  window : s.rx.recved + (chainBytes s.rx.reqBufList).length = s.received.length

theorem Accounted.init {s : History} (h : runs.init s) : Accounted s := by
  obtain ⟨he, hin, hout⟩ := h
  obtain ⟨hl, ho, hn, -, -, hw⟩ := id he
  refine ⟨.of_empty he, ?_, ?_⟩
  · simp [held, queued, hl, hn, hin, hout]
  · simp [hl, hin, hw]

theorem Accounted.step {s s' : History} {e : Event} (h : Accounted s) (hs : Step s e s') :
    Accounted s' := by
  cases e with
  | receive p =>
    obtain ⟨hq, rfl⟩ := hs
    obtain ⟨hv, hb, hw⟩ := receive_spec h.valid p hq
    refine ⟨hv, ?_, ?_⟩
    · show s.removed ++ (s.rx.receive p.pbufs).held ++ (s.rx.receive p.pbufs).queued = _
      rw [List.append_assoc, hb, ← List.append_assoc, ← List.append_assoc, h.stream]
    · show _ = (s.received ++ chainBytes p.pbufs).length
      rw [hw, h.window, List.length_append]
  | dequeue =>
    obtain rfl := hs
    obtain ⟨hv, hb, hw⟩ := dequeue_spec h.valid
    refine ⟨hv, ?_, hw.trans h.window⟩
    show s.removed ++ s.rx.dequeue.held ++ s.rx.dequeue.queued = _
    rw [List.append_assoc, hb, ← List.append_assoc, h.stream]
  | remove k =>
    obtain ⟨hk, rfl⟩ := hs
    obtain ⟨hv, hb, hl, ho, hw⟩ := shift_spec h.valid hk
    refine ⟨hv, ?_, ?_⟩
    · have hq : (s.rx.shift k).queued = s.rx.queued := by rw [queued, hl, ho, queued]
      show s.removed ++ s.rx.held.take k ++ (s.rx.shift k).held ++ (s.rx.shift k).queued = _
      rw [hq, List.append_assoc s.removed, hb, h.stream]
    · show (s.rx.shift k).recved + (chainBytes (s.rx.shift k).reqBufList).length = _
      rw [hl, hw, h.window]

/-- Over any interleaving of arrivals, refills and removals, the receive path loses, duplicates and
reorders nothing, keeps its fields in range, and accounts for the window. -/
theorem rx_stream {s : History} (h : runs.Reach s) :
    s.removed ++ s.rx.held ++ s.rx.queued = s.received ∧
      0 ≤ s.rx.requestLength ∧ s.rx.requestLength ≤ s.rx.maxLevel ∧
      OffsetOk s.rx.reqBufList s.rx.bufOffset ∧
      s.rx.recved + headTotLen s.rx.reqBufList = s.received.length := by
  have hacc : Accounted s := h.invariant (fun _ => Accounted.init) fun _ _ _ => Accounted.step
  have hv := hacc.valid
  refine ⟨hacc.stream, hv.nonneg, hv.level, hv.offset, ?_⟩
  rw [hv.chain.headTotLen_eq]
  exact hacc.window

/-- A context right after `SetupHttpContext`. -/
def fresh : Rx where
  reqBufList := []
  bufOffset := 0
  requestLength := 0
  maxLevel := maxReqBufSize
  httpRequestBuffer := List.replicate (maxReqBufSize + 4) 0
  recved := 0

theorem fresh_empty : fresh.Empty := by
  refine ⟨rfl, rfl, rfl, rfl, ?_, rfl⟩
  rw [fresh, List.length_replicate]

/-- The chain of one segment that carries the three bytes of `GET`. -/
def getChain : RecvChain where
  pbufs := [{ payload := bytes "GET", totLen := 3 }]
  ne := by decide
  consistent := ⟨by decide, by decide, trivial⟩

/-- A chain of two segments, of 500 and of 400 bytes. -/
def twoSegments : RecvChain where
  pbufs := [⟨List.replicate 500 97, 900⟩, ⟨List.replicate 400 98, 400⟩]
  ne := List.cons_ne_nil _ _
  consistent := by
    refine ⟨?_, ?_, ?_, ?_, trivial⟩ <;> decide +kernel

theorem receive_reach {s : History} (h : runs.Reach s) (p : RecvChain)
    (hq : (chainBytes s.rx.reqBufList).length + (chainBytes p.pbufs).length < 65536) :
    runs.Reach { s with
      rx := s.rx.receive p.pbufs
      received := s.received ++ chainBytes p.pbufs } := h.step (.receive p) ⟨hq, rfl⟩

theorem dequeue_reach {s : History} (h : runs.Reach s) :
    runs.Reach { s with rx := s.rx.dequeue } := h.step .dequeue rfl

theorem remove_reach {s : History} (h : runs.Reach s) (k : ℕ) (hk : (k : ℤ) ≤ s.rx.requestLength) :
    runs.Reach { s with
      rx := s.rx.shift k
      removed := s.removed ++ s.rx.held.take k } := h.step (.remove k) ⟨hk, rfl⟩

/-- `GET` goes into the buffer, and the two segments wait in the queue, since they do not fit beside
it. The first refill fills the buffer and unlinks the first segment; after 53 bytes are processed,
the second one moves the read offset on within the other segment. -/
theorem rx_stream_refilled :
    ∃ s : History, runs.Reach s ∧ s.received = bytes "GET" ++ chainBytes twoSegments.pbufs ∧
      s.removed.length = 253 ∧ s.rx.held.length = 600 ∧ s.rx.queued.length = 50 ∧
      s.rx.bufOffset = 350 ∧ s.removed ++ s.rx.held ++ s.rx.queued = s.received ∧
      0 ≤ s.rx.requestLength ∧ s.rx.requestLength ≤ s.rx.maxLevel ∧
      OffsetOk s.rx.reqBufList s.rx.bufOffset ∧
      s.rx.recved + headTotLen s.rx.reqBufList = s.received.length := by
  have start : runs.Reach ⟨fresh, [], []⟩ := .init ⟨fresh_empty, rfl, rfl⟩
  have got := receive_reach start getChain (by decide)
  have full := dequeue_reach (receive_reach got twoSegments (by decide +kernel))
  have again := dequeue_reach (remove_reach full 53 (by decide +kernel))
  have last := remove_reach again 200 (by decide +kernel)
  exact ⟨_, last, rfl, by decide +kernel, by decide +kernel, by decide +kernel, by decide +kernel,
    rx_stream last⟩

end Rx

end StraightHttpd
