import StraightHttpd.Httpd.SendBuffer
import StraightHttpd.Lib.Chunked

/-! # Chunked responses (`http_cgi.c`)

`CGI_LoadContentToSend` ends a chunk in front of the next one, which it knows by the counters
`_dwOperStage` and `_dwOperIndex`, and ends the body behind a block that sets `STAGE_END`.
-/

set_option autoImplicit false

namespace StraightHttpd
open CMemory
open Chunked (Spells chunkText chunksText chunksText_snoc spells_chunks_iff)

/-! ## What is appended -/

/-- What a call of `ReadContent` wrote and returned, and where it left the counters. -/
structure ReadResult where
  data : Bytes
  size : ℤ
  dwOperStage : ℕ
  dwOperIndex : ℤ

namespace ReadResult

/-- The answer of the handler to the call that `loadBlock` makes. -/
def of (read : Work → ℤ → Work × Bytes × ℤ) (a : App) : ReadResult where
  data := (read a.toWork a.maxSize).2.1
  size := (read a.toWork a.maxSize).2.2
  dwOperStage := (read a.toWork a.maxSize).1.dwOperStage
  dwOperIndex := (read a.toWork a.maxSize).1.dwOperIndex

/-- A block of the size that was returned, no longer than allowed, or nothing. -/
structure Fits (r : ReadResult) (a : App) : Prop where
  size : 0 ≤ r.size → r.size = r.data.length
  room : (r.data.length : ℤ) ≤ max 0 a.maxSize
  stage : r.dwOperStage ≤ stageEnd

end ReadResult

/-- The bytes that `loadBlock` appends to the send buffer. -/
def appended (read : Work → ℤ → Work × Bytes × ℤ) (a : App) : Bytes :=
  slice (loadBlock read maxSendBufSize a).1.sendBuffer a.bytesLeft.toNat
    ((loadBlock read maxSendBufSize a).1.bytesLeft - a.bytesLeft).toNat

variable {read : Work → ℤ → Work × Bytes × ℤ} {a : App}

theorem poke_split {m l r : Bytes} {k : ℕ} (hm : m = l ++ r) (hk : k = l.length) (data : Bytes) :
    poke m k data = l ++ (data ++ r.drop data.length) := by
  rw [hm, hk, poke, List.take_left, ← List.drop_drop, List.drop_left, List.append_assoc]

/-- The size line, the block and the tail are moved down to the end of what is there. -/
theorem slice_putChunk {m line data tail : Bytes} {i : ℕ} (hline : line.length ≤ 10)
    (hroom : i + 10 ≤ m.length) : slice (putChunk m i line data tail data.length) i
      (line ++ (data ++ tail)).length = line ++ (data ++ tail) := by
  have hdata := drop_poke data hroom
  have hlength : i + 10 ≤ (poke m (i + 10) data).length := by
    have hle := @length_le_poke m data (i + 10) hroom
    omega
  have hhead : i + 10 - line.length + line.length = i + 10 := by omega
  unfold putChunk
  simp only
  generalize poke m (i + 10) data = m₁ at hdata hlength ⊢
  generalize m.drop (i + 10 + data.length) = rest at hdata
  generalize hk : i + 10 - line.length = k at hhead ⊢
  have hleft : (m₁.take k).length = k := by
    rw [List.length_take]
    omega
  have hline₂ : poke m₁ k line = (m₁.take k ++ (line ++ data)) ++ rest := by
    rw [poke, hhead, hdata]
    simp only [List.append_assoc]
  have hplace : k + (line.length + data.length) = (m₁.take k ++ (line ++ data)).length := by
    rw [List.length_append, hleft, List.length_append]
  have htail := poke_split hline₂ hplace tail
  rw [htail]
  have hmoved : slice ((m₁.take k ++ (line ++ data)) ++ (tail ++ rest.drop tail.length)) k
      (line.length + data.length + tail.length) = line ++ (data ++ tail) := by
    have hsplit : (m₁.take k ++ (line ++ data)) ++ (tail ++ rest.drop tail.length) =
        m₁.take k ++ ((line ++ (data ++ tail)) ++ rest.drop tail.length) := by
      simp only [List.append_assoc]
    have hcount : line.length + data.length + tail.length = (line ++ (data ++ tail)).length := by
      simp only [List.length_append, Nat.add_assoc]
    rw [slice, hsplit, hcount]
    nth_rewrite 1 [← hleft]
    rw [List.drop_left, List.take_left]
  rw [hmoved]
  refine slice_poke _ ?_
  rw [List.length_append, ← hplace]
  omega

theorem appended_block (hchunk : a.options.chunkEnabled = true) (hleft : 0 ≤ a.bytesLeft)
    (hbuffer : a.sendBuffer.length = maxSendBufSize) (hfits : (ReadResult.of read a).Fits a)
    (hsize : 0 < (ReadResult.of read a).size) : appended read a =
      sizeLine a (ReadResult.of read a).size ++ ((ReadResult.of read a).data ++
        if (ReadResult.of read a).dwOperStage = stageEnd then chunkTail else []) := by
  have hmax : a.maxSize = maxSendBufSize - a.bytesLeft - 2 - 10 := by simp [App.maxSize, hchunk]
  have hroom := hfits.room
  have hdata := hfits.size (Int.le_of_lt hsize)
  have hcap : (maxSendBufSize : ℤ) = 1600 := rfl
  obtain ⟨hsend, hbytes⟩ := @loadBlock_chunk read a hchunk _ _ _ rfl hsize
  change _ = putChunk _ _ (sizeLine a (ReadResult.of read a).size) (ReadResult.of read a).data
    (if (ReadResult.of read a).dwOperStage = stageEnd then chunkTail else []) (ReadResult.of read a).size.toNat at hsend
  change _ = a.bytesLeft + ((sizeLine a (ReadResult.of read a).size).length + (ReadResult.of read a).size.toNat +
    (if (ReadResult.of read a).dwOperStage = stageEnd then chunkTail else []).length) at hbytes
  generalize ReadResult.of read a = r at *
  have hcount : r.size.toNat = r.data.length := by omega
  have hline : (sizeLine a r.size).length ≤ 7 := sizeLine_length (by omega)
  rw [hcount] at hsend hbytes
  have hnew : ((loadBlock read maxSendBufSize a).1.bytesLeft - a.bytesLeft).toNat = (sizeLine a r.size ++
      (r.data ++ if r.dwOperStage = stageEnd then chunkTail else [])).length := by
    rw [hbytes, List.length_append, List.length_append]
    omega
  rw [appended, hnew, hsend]
  exact slice_putChunk (by omega) (by omega)

theorem appended_nothing (hchunk : a.options.chunkEnabled = true)
    (hsize : (ReadResult.of read a).size ≤ 0) : appended read a = [] := by
  have hkept := (@loadBlock_empty_chunk read a hchunk _ _ _ rfl hsize).2
  rw [appended, hkept, Int.sub_self]
  rfl

theorem Work.sendBufferTo_fields (w : Work) (n : ℕ) : (w.sendBufferTo n).dwOperStage = w.dwOperStage ∧
    (w.sendBufferTo n).dwOperIndex = w.dwOperIndex ∧ (w.sendBufferTo n).options = w.options := by
  unfold Work.sendBufferTo
  split_ifs <;> exact ⟨rfl, rfl, rfl⟩

/-- The handler alone moves the counters. -/
theorem loadBlock_work (hchunk : a.options.chunkEnabled = true) :
    (loadBlock read maxSendBufSize a).1.dwOperStage = (ReadResult.of read a).dwOperStage ∧
      (loadBlock read maxSendBufSize a).1.dwOperIndex = (ReadResult.of read a).dwOperIndex ∧
      (loadBlock read maxSendBufSize a).1.options = (read a.toWork a.maxSize).1.options := by
  have hmax : a.maxSize = maxSendBufSize - a.bytesLeft - 2 - 10 := by simp [App.maxSize, hchunk]
  unfold ReadResult.of loadBlock
  simp only [hchunk, not_true_eq_false, if_false, ← hmax]
  generalize read a.toWork a.maxSize = r
  obtain ⟨w, data, size⟩ := r
  have hread := w.sendBufferTo_fields (a.bytesLeft.toNat + 10 + data.length)
  simp only
  by_cases hsize : size > 0
  · simp only [if_pos hsize]
    obtain ⟨hstage, hindex, hoptions⟩ := Work.sendBufferTo_fields
      (w.sendBufferTo (a.bytesLeft.toNat + 10 + data.length)) _
    exact ⟨hstage.trans hread.1, hindex.trans hread.2.1, hoptions.trans hread.2.2⟩
  · simp only [if_neg hsize]
    exact hread

/-- Without a tail the block stays inside of the buffer. -/
theorem loadBlock_buffer (hchunk : a.options.chunkEnabled = true) (hleft : 0 ≤ a.bytesLeft)
    (hbuffer : a.sendBuffer.length = maxSendBufSize) (hfits : (ReadResult.of read a).Fits a) :
    0 ≤ (loadBlock read maxSendBufSize a).1.bytesLeft ∧ ((ReadResult.of read a).dwOperStage < stageEnd →
      (loadBlock read maxSendBufSize a).1.sendBuffer.length = maxSendBufSize) := by
  have hmax : a.maxSize = maxSendBufSize - a.bytesLeft - 2 - 10 := by simp [App.maxSize, hchunk]
  have hcap : (maxSendBufSize : ℤ) = 1600 := rfl
  have hroom := hfits.room
  by_cases hsize : 0 < (ReadResult.of read a).size
  · have hdata := hfits.size (Int.le_of_lt hsize)
    obtain ⟨hsend, hbytes⟩ := @loadBlock_chunk read a hchunk _ _ _ rfl hsize
    constructor
    · rw [hbytes]
      omega
    · intro hgo
      have hline : (sizeLine a (ReadResult.of read a).size).length ≤ 7 := sizeLine_length (by omega)
      change _ = putChunk _ _ (sizeLine a (ReadResult.of read a).size) (ReadResult.of read a).data
        (if (ReadResult.of read a).dwOperStage = stageEnd then chunkTail else [])
        (ReadResult.of read a).size.toNat at hsend
      rw [if_neg (Nat.ne_of_lt hgo)] at hsend
      rw [hsend, putChunk_length [] (by omega) (by omega) (by omega), List.length_nil]
      omega
  · obtain ⟨hsend, hbytes⟩ := @loadBlock_empty_chunk read a hchunk _ _ _ rfl (not_lt.mp hsize)
    rw [hbytes]
    refine ⟨hleft, fun _ => ?_⟩
    rw [hsend]
    change (poke a.sendBuffer (a.bytesLeft.toNat + 10) (ReadResult.of read a).data).length = _
    by_cases hnil : (ReadResult.of read a).data = []
    · rw [hnil, poke_nil, hbuffer]
    · have hpos := List.length_pos_iff.mpr hnil
      rw [poke_length (by omega), hbuffer]

/-! ## Runs -/

/-- The counters after the calls that gave `rs`. -/
def counters (c : ℕ × ℤ) (rs : List ReadResult) : ℕ × ℤ :=
  (rs.getLast?.map fun r => (r.dwOperStage, r.dwOperIndex)).getD c

/-- The blocks that are not empty. -/
def blocks (rs : List ReadResult) : List Bytes := (rs.filter fun r => decide (0 < r.size)).map ReadResult.data

/-- A response whose counters were `c` before the first call: `ReadContent` has answered `rs`, and `out`
has been appended. Between the calls, what was appended is sent. -/
inductive Emitted (c : ℕ × ℤ) : List ReadResult → App → Bytes → Prop
  | start {a : App} (hchunk : a.options.chunkEnabled = true) (hc : (a.dwOperStage, a.dwOperIndex) = c)
      (hleft : 0 ≤ a.bytesLeft) (hbuffer : a.sendBuffer.length = maxSendBufSize) : Emitted c [] a []
  | sent {rs : List ReadResult} {a b : App} {out : Bytes} (h : Emitted c rs a out)
      (hstage : b.dwOperStage = a.dwOperStage) (hindex : b.dwOperIndex = a.dwOperIndex)
      (hoptions : b.options = a.options) (hleft : 0 ≤ b.bytesLeft)
      (hbuffer : b.sendBuffer.length = a.sendBuffer.length) : Emitted c rs b out
  | load {rs : List ReadResult} {a : App} {out : Bytes} (h : Emitted c rs a out)
      (hstage : a.dwOperStage < stageEnd) (hmore : ∀ r ∈ rs, 0 ≤ r.size)
      (read : Work → ℤ → Work × Bytes × ℤ) (hfits : (ReadResult.of read a).Fits a)
      (hoptions : (read a.toWork a.maxSize).1.options = a.options) :
      Emitted c (rs ++ [ReadResult.of read a]) (loadBlock read maxSendBufSize a).1 (out ++ appended read a)

/-- The last answer says that there is no more. -/
def Complete (rs : List ReadResult) : Prop := ∃ r, rs.getLast? = some r ∧ (r.size < 0 ∨ r.dwOperStage = stageEnd)

/-- The last answer is a block that sets `STAGE_END`. -/
def EndsInBlock (rs : List ReadResult) : Prop := ∃ r, rs.getLast? = some r ∧ 0 < r.size ∧ r.dwOperStage = stageEnd

/-- Whenever a block is read, the counters are zero exactly when it is the first. -/
def Aligned (c : ℕ × ℤ) (rs : List ReadResult) : Prop :=
  ∀ before r after, rs = before ++ r :: after → 0 < r.size → (blocks before = [] ↔ counters c before = (0, 0))

theorem counters_snoc (c : ℕ × ℤ) (rs : List ReadResult) (r : ReadResult) :
    counters c (rs ++ [r]) = (r.dwOperStage, r.dwOperIndex) := by
  rw [counters, List.getLast?_concat]
  rfl

theorem blocks_snoc_of_pos (rs : List ReadResult) {r : ReadResult} (h : 0 < r.size) :
    blocks (rs ++ [r]) = blocks rs ++ [r.data] := by
  unfold blocks
  rw [List.filter_append, List.map_append, List.filter_cons_of_pos (by simpa using h)]
  rfl

theorem blocks_snoc_of_not_pos (rs : List ReadResult) {r : ReadResult} (h : ¬ 0 < r.size) :
    blocks (rs ++ [r]) = blocks rs := by
  unfold blocks
  rw [List.filter_append, List.map_append, List.filter_cons_of_neg (by simpa using h)]
  exact List.append_nil _

theorem aligned_snoc_iff (c : ℕ × ℤ) (rs : List ReadResult) (r : ReadResult) : Aligned c (rs ++ [r]) ↔
    Aligned c rs ∧ (0 < r.size → (blocks rs = [] ↔ counters c rs = (0, 0))) := by
  constructor
  · intro h
    refine ⟨fun before q after hrs hq => ?_, fun hr => h rs r [] rfl hr⟩
    refine h before q (after ++ [r]) ?_ hq
    rw [hrs, List.append_assoc, List.cons_append]
  · rintro ⟨h, hr⟩ before q after hrs hq
    rcases List.eq_nil_or_concat after with rfl | ⟨after, r', rfl⟩
    · obtain ⟨rfl, hlast⟩ := List.append_inj' hrs rfl
      obtain rfl := List.singleton_injective hlast
      exact hr hq
    · rw [List.concat_eq_append, ← List.cons_append, ← List.append_assoc] at hrs
      obtain ⟨hinit, -⟩ := List.append_inj' hrs rfl
      exact h before q after hinit hq

/-- What the calls have left behind. -/
structure Loading (c : ℕ × ℤ) (rs : List ReadResult) (a : App) : Prop where
  chunk : a.options.chunkEnabled = true
  left : 0 ≤ a.bytesLeft
  buffer : a.dwOperStage < stageEnd → a.sendBuffer.length = maxSendBufSize
  counters : (a.dwOperStage, a.dwOperIndex) = counters c rs

theorem Emitted.loading {c : ℕ × ℤ} {rs : List ReadResult} {a : App} {out : Bytes} (h : Emitted c rs a out) :
    Loading c rs a := by
  induction h with
  | start hchunk hc hleft hbuffer => exact ⟨hchunk, hleft, fun _ => hbuffer, hc⟩
  | sent _ hstage hindex hoptions hleft hbuffer ih =>
    refine ⟨hoptions ▸ ih.chunk, hleft, fun hgo => ?_, ?_⟩
    · rw [hbuffer]
      exact ih.buffer (hstage ▸ hgo)
    · rw [hstage, hindex]
      exact ih.counters
  | @load rs a out h hstage hmore read hfits hoptions ih =>
    obtain ⟨hstage', hindex', hoptions'⟩ := @loadBlock_work read a ih.chunk
    obtain ⟨hleft, hbuffer⟩ := loadBlock_buffer ih.chunk ih.left (ih.buffer hstage) hfits
    refine ⟨?_, hleft, fun hgo => hbuffer (hstage' ▸ hgo), ?_⟩
    · rw [hoptions', hoptions]
      exact ih.chunk
    · rw [hstage', hindex', counters_snoc]

/-! ## Framing -/

theorem hexText_head (n : ℕ) (u : Bytes) : ∃ b v, hexText n ++ u = b :: v ∧ b ≠ 13 := by
  obtain ⟨hne, hvalue⟩ := hexText_numeral n
  obtain ⟨b, v, hb⟩ := List.exists_cons_of_ne_nil hne
  have hcr : (13 : UInt8) ∉ hexText n := not_mem_hexNumber rfl hvalue
  exact ⟨b, v ++ u, by rw [hb]; rfl, fun h => hcr (hb ▸ h ▸ List.mem_cons_self)⟩

/-- Nothing that follows makes a body of it. -/
def Spoilt (out : Bytes) : Prop := ∀ u y, ¬ Spells (out ++ u) y

theorem Spoilt.append {out : Bytes} (h : Spoilt out) (more : Bytes) : Spoilt (out ++ more) := by
  intro u y hy
  rw [List.append_assoc] at hy
  exact h (more ++ u) y hy

theorem blocks_ne_nil {rs : List ReadResult} (hrs : ∀ r ∈ rs, 0 ≤ r.size → r.size = r.data.length) :
    ∀ d ∈ blocks rs, d ≠ [] := by
  intro d hd
  obtain ⟨r, hr, rfl⟩ := List.mem_map.mp hd
  obtain ⟨hmem, hpos⟩ := List.mem_filter.mp hr
  have hpos : 0 < r.size := by simpa using hpos
  have hlength := hrs r hmem (Int.le_of_lt hpos)
  intro hnil
  rw [hnil, List.length_nil] at hlength
  omega

/-- The block that comes next, behind blocks that have been framed. -/
theorem chunksText_next {ds : List Bytes} {a : App} {d : Bytes}
    (haligned : ds = [] ↔ (a.dwOperStage, a.dwOperIndex) = (0, 0)) :
    chunksText ds ++ (sizeLine a d.length ++ d) = chunksText (ds ++ [d]) := by
  rw [Prod.mk.injEq] at haligned
  by_cases hds : ds = []
  · rw [hds, sizeLine, if_pos (haligned.mp hds), Int.toNat_natCast, List.append_assoc, List.append_assoc]
    rfl
  · rw [chunksText_snoc hds, sizeLine, if_neg (mt haligned.mpr hds), Int.toNat_natCast, chunkText]
    simp only [List.append_assoc]
    rfl

/-- A line end in front of the first block, or none in front of another. -/
theorem spoilt_next {ds : List Bytes} (hds : ∀ d ∈ ds, d ≠ []) {a : App} {d : Bytes}
    (hne : ¬ (ds = [] ↔ (a.dwOperStage, a.dwOperIndex) = (0, 0))) :
    Spoilt (chunksText ds ++ (sizeLine a d.length ++ d)) := by
  rw [Prod.mk.injEq] at hne
  intro u y hy
  by_cases hnil : ds = []
  · have hcounters : ¬ (a.dwOperStage = 0 ∧ a.dwOperIndex = 0) := fun h => hne (iff_of_true hnil h)
    rw [hnil, sizeLine, if_neg hcounters] at hy
    obtain ⟨b, v, hb, hcr⟩ := hy.head
    exact hcr (List.cons.inj hb).1.symm
  · have hcounters : a.dwOperStage = 0 ∧ a.dwOperIndex = 0 :=
      by_contra fun h => hne (iff_of_false hnil h)
    rw [sizeLine, if_pos hcounters, List.nil_append, List.append_assoc, spells_chunks_iff hds hnil] at hy
    obtain ⟨t, -, ht, -, -⟩ := hy
    obtain ⟨b, v, hb, hcr⟩ := hexText_head (d.length : ℤ).toNat (crlf ++ (d ++ u))
    rw [List.append_assoc, List.append_assoc, hb] at ht
    exact hcr (List.cons.inj ht).1

/-- As long as the counters tell the first block from the others, the stream is made of chunks; from
then on it is none. -/
structure Stream (c : ℕ × ℤ) (rs : List ReadResult) (out : Bytes) : Prop where
  data : ∀ r ∈ rs, 0 ≤ r.size → r.size = r.data.length
  going : Aligned c rs → ¬ EndsInBlock rs → out = chunksText (blocks rs)
  ended : Aligned c rs → EndsInBlock rs → out = chunksText (blocks rs) ++ chunkTail
  spoilt : ¬ Aligned c rs → Spoilt out

theorem Emitted.stream {c : ℕ × ℤ} {rs : List ReadResult} {a : App} {out : Bytes} (h : Emitted c rs a out) :
    Stream c rs out := by
  induction h with
  | start =>
    refine ⟨fun r hr => ?_, fun _ _ => rfl, fun _ hend => ?_, fun h => ?_⟩
    · cases hr
    · obtain ⟨r, hr, -⟩ := hend
      cases hr
    · refine absurd (fun before r after hrs => ?_) h
      cases before <;> cases hrs
  | sent _ _ _ _ _ _ ih => exact ih
  | @load rs a out h hstage hmore read hfits hoptions ih =>
    have hload := h.loading
    have hcounters := hload.counters
    have hopen : ¬ EndsInBlock rs := by
      rintro ⟨r, hr, -, hend⟩
      rw [counters, hr] at hcounters
      have hat : a.dwOperStage = r.dwOperStage := congrArg Prod.fst hcounters
      omega
    have hlast : EndsInBlock (rs ++ [ReadResult.of read a]) ↔
        0 < (ReadResult.of read a).size ∧ (ReadResult.of read a).dwOperStage = stageEnd := by
      unfold EndsInBlock
      rw [List.getLast?_concat]
      constructor
      · rintro ⟨r, hr, hend⟩
        obtain rfl := Option.some.inj hr
        exact hend
      · intro hend
        exact ⟨_, rfl, hend⟩
    have hall : ∀ r ∈ rs ++ [ReadResult.of read a], 0 ≤ r.size → r.size = r.data.length := by
      intro r hr
      rcases List.mem_append.mp hr with hr | hr
      · exact ih.data r hr
      · obtain rfl := List.mem_singleton.mp hr
        exact hfits.size
    by_cases hsize : 0 < (ReadResult.of read a).size
    swap
    · -- nothing is appended
      have hnothing := appended_nothing hload.chunk (not_lt.mp hsize)
      have hkept : Aligned c (rs ++ [ReadResult.of read a]) ↔ Aligned c rs :=
        (aligned_snoc_iff c rs _).trans (and_iff_left fun hpos => absurd hpos hsize)
      rw [hnothing, List.append_nil]
      refine ⟨hall, fun haligned _ => ?_, fun _ hend => absurd (hlast.mp hend).1 hsize,
        fun hnot => ih.spoilt (mt hkept.mpr hnot)⟩
      rw [blocks_snoc_of_not_pos rs hsize]
      exact ih.going (hkept.mp haligned) hopen
    · have hblock := appended_block hload.chunk hload.left (hload.buffer hstage) hfits hsize
      have hlength := hfits.size (Int.le_of_lt hsize)
      have hiff := aligned_snoc_iff c rs (ReadResult.of read a)
      have hmore := blocks_snoc_of_pos rs hsize
      have hds := blocks_ne_nil ih.data
      rw [← hcounters] at hiff
      rw [hlength] at hblock
      generalize ReadResult.of read a = r at *
      generalize htail : (if r.dwOperStage = stageEnd then chunkTail else []) = tail at hblock
      have hout : out ++ appended read a = (out ++ (sizeLine a r.data.length ++ r.data)) ++ tail := by
        rw [hblock, List.append_assoc, List.append_assoc]
      rw [hout]
      by_cases hbefore : Aligned c rs
      swap
      · have hnot : ¬ Aligned c (rs ++ [r]) := fun h => hbefore (hiff.mp h).1
        have hspoilt : Spoilt ((out ++ (sizeLine a r.data.length ++ r.data)) ++ tail) :=
          ((ih.spoilt hbefore).append _).append _
        exact ⟨hall, fun h => absurd h hnot, fun h => absurd h hnot, fun _ => hspoilt⟩
      rw [ih.going hbefore hopen]
      by_cases hnext : blocks rs = [] ↔ (a.dwOperStage, a.dwOperIndex) = (0, 0)
      swap
      · have hnot : ¬ Aligned c (rs ++ [r]) := fun h => hnext ((hiff.mp h).2 hsize)
        exact ⟨hall, fun h => absurd h hnot, fun h => absurd h hnot, fun _ => (spoilt_next hds hnext).append _⟩
      have haligned : Aligned c (rs ++ [r]) := hiff.mpr ⟨hbefore, fun _ => hnext⟩
      rw [chunksText_next hnext, ← hmore]
      refine ⟨hall, fun _ hend => ?_, fun _ hend => ?_, fun h => absurd haligned h⟩
      · rw [← htail, if_neg fun h => hend (hlast.mpr ⟨hsize, h⟩), List.append_nil]
      · rw [← htail, if_pos (hlast.mp hend).2]

/-! ## Bodies -/

theorem spells_tail {ds : List Bytes} (hds : ∀ d ∈ ds, d ≠ []) (hne : ds ≠ []) :
    Spells (chunksText ds ++ chunkTail) ds.flatten := by
  refine (spells_chunks_iff hds hne).mpr ⟨[48] ++ (Chunked.lineEnd ++ Chunked.lineEnd), [], rfl, ?_, ?_⟩
  · exact (List.append_nil _).symm
  · exact .last ⟨List.cons_ne_nil _ _, rfl⟩

/-- Without the last chunk there is no body. -/
theorem not_spells_open {ds : List Bytes} (hds : ∀ d ∈ ds, d ≠ []) (y : Bytes) : ¬ Spells (chunksText ds) y := by
  intro h
  by_cases hne : ds = []
  · rw [hne] at h
    obtain ⟨b, u, hb, -⟩ := h.head
    cases hb
  · rw [← List.append_nil (chunksText ds), spells_chunks_iff hds hne] at h
    obtain ⟨t, -, ht, -, -⟩ := h
    cases ht

theorem EndsInBlock.blocks_ne {rs : List ReadResult} (h : EndsInBlock rs) : blocks rs ≠ [] := by
  obtain ⟨r, hr, hpos, -⟩ := h
  have hmem : r.data ∈ blocks rs :=
    List.mem_map_of_mem (List.mem_filter.mpr ⟨List.mem_of_getLast? hr, by simpa using hpos⟩)
  exact List.ne_nil_of_mem hmem

/-- What has been appended is a chunked body of the blocks that `ReadContent` gave exactly when the
counters told the first block from the others and the last block set `STAGE_END`. -/
theorem chunked_reply {c : ℕ × ℤ} {rs : List ReadResult} {a : App} {out : Bytes} (h : Emitted c rs a out) :
    Spells out (blocks rs).flatten ↔ Aligned c rs ∧ EndsInBlock rs := by
  have hstream := h.stream
  have hds := blocks_ne_nil hstream.data
  constructor
  · intro hbody
    have haligned : Aligned c rs := by
      by_contra hnot
      exact hstream.spoilt hnot [] _ ((List.append_nil out).symm ▸ hbody)
    refine ⟨haligned, ?_⟩
    by_contra hopen
    rw [hstream.going haligned hopen] at hbody
    exact not_spells_open hds _ hbody
  · rintro ⟨haligned, hend⟩
    rw [hstream.ended haligned hend]
    exact spells_tail hds hend.blocks_ne

theorem emitted_start : Emitted (0, 0) [] chunkedApp [] :=
  .start rfl rfl (le_refl _) List.length_replicate

/-- A block, which may be the last one. -/
def readPart (part : Bytes) (last : Bool) (w : Work) (_ : ℤ) : Work × Bytes × ℤ :=
  ({ w with dwOperStage := if last then stageEnd else 0, dwOperIndex := w.dwOperIndex + part.length }, part, part.length)

/-- The first of two blocks was loaded and sent. -/
def firstSent : App :=
  { (loadBlock (readPart (bytes "Hello") false) maxSendBufSize chunkedApp).1 with bytesLeft := 0 }

/-- The second chunk is told from the first by the index, and ends the first one. -/
theorem chunked_reply_twice : Spells (([] ++ appended (readPart (bytes "Hello") false) chunkedApp) ++
      appended (readPart (bytes ", world") true) firstSent) (bytes "Hello, world") ∧
    appended (readPart (bytes ", world") true) firstSent = bytes "\r\n7\r\n, world\r\n0\r\n\r\n" := by
  have hfits : (ReadResult.of (readPart (bytes "Hello") false) chunkedApp).Fits chunkedApp :=
    ⟨fun _ => rfl, by decide +kernel, by decide⟩
  have hfirst := Emitted.load emitted_start (by decide) (fun _ h => by cases h) (readPart (bytes "Hello") false) hfits rfl
  have hsent := hfirst.sent (b := firstSent) rfl rfl rfl (le_refl _) rfl
  have hfits' : (ReadResult.of (readPart (bytes ", world") true) firstSent).Fits firstSent :=
    ⟨fun _ => rfl, by decide +kernel, by decide⟩
  have hrun := hsent.load (by decide +kernel) (fun r hr => by
    obtain rfl := List.mem_singleton.mp hr
    exact Int.natCast_nonneg _) (readPart (bytes ", world") true) hfits' rfl
  refine ⟨(chunked_reply hrun).mpr ⟨?_, ?_⟩, by decide +kernel⟩
  · have haligned : Aligned (0, 0) [ReadResult.of (readPart (bytes "Hello") false) chunkedApp] := by
      refine (aligned_snoc_iff _ [] _).mpr ⟨fun before r after hrs => ?_, fun _ => iff_of_true rfl rfl⟩
      cases before <;> cases hrs
    exact (aligned_snoc_iff _ _ _).mpr ⟨haligned, fun _ => iff_of_false (by decide +kernel) (by decide +kernel)⟩
  · exact ⟨_, rfl, by decide, rfl⟩

/-- There was nothing to read. -/
def readNothing (w : Work) (_ : ℤ) : Work × Bytes × ℤ := ({ w with dwOperStage := stageEnd }, [], -1)

theorem chunked_reply_fails : ¬ ∀ (rs : List ReadResult) (a : App) (out : Bytes),
    Emitted (0, 0) rs a out → Complete rs → Spells out (blocks rs).flatten := by
  intro h
  have hfits : (ReadResult.of readNothing chunkedApp).Fits chunkedApp :=
    ⟨fun hneg => absurd hneg (by decide), by decide, le_refl _⟩
  have hrun := Emitted.load emitted_start (by decide) (fun _ h => by cases h) readNothing hfits rfl
  have hempty : appended readNothing chunkedApp = [] := appended_nothing rfl (by decide)
  have hbody := h _ _ _ hrun ⟨_, rfl, .inl (by decide)⟩
  rw [hempty] at hbody
  exact @not_spells_open [] (fun _ h => by cases h) _ hbody

end StraightHttpd
