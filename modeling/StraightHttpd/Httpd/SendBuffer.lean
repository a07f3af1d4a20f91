import StraightHttpd.Httpd.HttpCgi

/-! # Room in the send buffer (`http_cgi.c`)

`CGI_LoadContentToSend` appends a block to what is left in `_sendBuffer`. It keeps 2 bytes free, and 10
more for the size line of a chunk; the last chunk has 7 bytes behind it.
-/

set_option autoImplicit false

namespace StraightHttpd
open CMemory

/-- The size that `ReadContent` is called with. -/
def App.maxSize (a : App) : ℤ :=
  if a.options.chunkEnabled then maxSendBufSize - a.bytesLeft - 2 - 10 else maxSendBufSize - a.bytesLeft - 2

/-- `ReadContent` writes no more than the size it is given, and returns no more. -/
def WritesAtMost (read : Work → ℤ → Work × Bytes × ℤ) : Prop :=
  ∀ w n, 0 ≤ n → ((read w n).2.1.length : ℤ) ≤ n ∧ (read w n).2.2 ≤ n

/-- Loading a block stays inside `_sendBuffer` and leaves a byte for the zero of `sendBuffered`. -/
structure LoadFits (read : Work → ℤ → Work × Bytes × ℤ) (a : App) : Prop where
  room : 0 ≤ a.maxSize
  inside : (loadBlock read maxSendBufSize a).1.sendBuffer.length = maxSendBufSize
  left : (loadBlock read maxSendBufSize a).1.bytesLeft < maxSendBufSize

/-- No more is left over than the reserve allows, and the last chunk leaves 5 bytes unused. -/
def LeavesRoom (read : Work → ℤ → Work × Bytes × ℤ) (a : App) : Prop :=
  if a.options.chunkEnabled then
    a.bytesLeft ≤ maxSendBufSize - 12 ∧
      (0 < (read a.toWork a.maxSize).2.2 → (read a.toWork a.maxSize).1.dwOperStage = stageEnd →
        (read a.toWork a.maxSize).2.2 ≤ a.maxSize - 5)
  else a.bytesLeft ≤ maxSendBufSize - 2

variable {read : Work → ℤ → Work × Bytes × ℤ} {a : App}

/-! ## Plain blocks -/

theorem loadBlock_plain (hplain : a.options.chunkEnabled = false) :
    (loadBlock read maxSendBufSize a).1.sendBuffer =
        poke a.sendBuffer a.bytesLeft.toNat (read a.toWork a.maxSize).2.1 ∧
      (loadBlock read maxSendBufSize a).1.bytesLeft = a.bytesLeft + max 0 (read a.toWork a.maxSize).2.2 := by
  have hmax : a.maxSize = maxSendBufSize - a.bytesLeft - 2 := by simp [App.maxSize, hplain]
  rw [hmax]
  unfold loadBlock
  simp only [hplain, Bool.false_eq_true, not_false_eq_true, if_true]
  generalize read a.toWork (maxSendBufSize - a.bytesLeft - 2) = r
  obtain ⟨w, data, size⟩ := r
  simp only
  split_ifs with hsize
  · exact ⟨rfl, by simp only; omega⟩
  · exact ⟨rfl, by simp only; omega⟩

/-! ## Chunks -/

/-- The line in front of a chunk, with the end of the chunk before it. -/
def sizeLine (a : App) (size : ℤ) : Bytes :=
  (if a.dwOperStage = 0 ∧ a.dwOperIndex = 0 then [] else crlf) ++ hexText size.toNat ++ crlf

theorem hexText_length {n : ℕ} (h : n < 16 ^ 3) : (hexText n).length ≤ 3 := by
  unfold hexText
  split_ifs with h0
  · decide
  · rw [List.length_map, List.length_reverse]
    exact (Nat.digits_length_le_iff (by decide) n).mpr h

theorem sizeLine_length {size : ℤ} (h : size ≤ maxSendBufSize) : (sizeLine a size).length ≤ 7 := by
  have hmax : (maxSendBufSize : ℤ) < 16 ^ 3 := by decide
  have hhex : (hexText size.toNat).length ≤ 3 := hexText_length (by omega)
  have hcrlf : crlf.length = 2 := rfl
  unfold sizeLine
  rw [List.length_append, List.length_append, hcrlf]
  split_ifs
  · rw [List.length_nil]
    omega
  · omega

/-- The writes for a chunk of `size` bytes with its size line and tail, to offset `i` of the buffer. -/
def putChunk (m : Bytes) (i : ℕ) (line data tail : Bytes) (size : ℕ) : Bytes :=
  let head := i + 10 - line.length
  let n := line.length + size
  let m := poke (poke (poke m (i + 10) data) head line) (head + n) tail
  poke m i (slice m head (n + tail.length))

theorem poke_length_max {m : Bytes} {i : ℕ} (data : Bytes) (h : i ≤ m.length) :
    (poke m i data).length = max m.length (i + data.length) := by
  simp only [poke, List.length_append, List.length_take, List.length_drop]
  omega

/-- The tail is the only part that can go past the end. -/
theorem putChunk_length {m line data : Bytes} {i size : ℕ} (tail : Bytes) (hline : line.length ≤ 10)
    (hdata : i + 10 + data.length ≤ m.length) (hsize : i + 10 + size ≤ m.length) :
    (putChunk m i line data tail size).length = max m.length (i + 10 + size + tail.length) := by
  have hhead : i + 10 - line.length + (line.length + size) = i + 10 + size := by omega
  unfold putChunk
  simp only [hhead]
  set m₁ := poke m (i + 10) data with hm₁
  set m₂ := poke m₁ (i + 10 - line.length) line with hm₂
  set m₃ := poke m₂ (i + 10 + size) tail with hm₃
  have h₁ : m₁.length = m.length := poke_length hdata
  have h₂ : m₂.length = m.length := (poke_length (by omega)).trans h₁
  have h₃ : m₃.length = max m.length (i + 10 + size + tail.length) := by
    rw [hm₃, poke_length_max _ (by omega), h₂]
  rw [poke_length, h₃]
  rw [slice, List.length_take, List.length_drop]
  omega

/-- A block that is not empty goes behind its size line, and the last one has the tail. -/
theorem loadBlock_chunk (hchunk : a.options.chunkEnabled = true) {w : Work} {data : Bytes} {size : ℤ}
    (hread : read a.toWork a.maxSize = (w, data, size)) (hsize : 0 < size) :
    (loadBlock read maxSendBufSize a).1.sendBuffer =
        putChunk a.sendBuffer a.bytesLeft.toNat (sizeLine a size) data
          (if w.dwOperStage = stageEnd then chunkTail else []) size.toNat ∧
      (loadBlock read maxSendBufSize a).1.bytesLeft = a.bytesLeft +
        ((sizeLine a size).length + size.toNat +
          (if w.dwOperStage = stageEnd then chunkTail else []).length) := by
  have hmax : a.maxSize = maxSendBufSize - a.bytesLeft - 2 - 10 := by simp [App.maxSize, hchunk]
  rw [hmax] at hread
  unfold loadBlock
  simp only [hchunk, not_true_eq_false, if_false, hread, if_pos hsize]
  have hstage : (w.sendBufferTo (a.bytesLeft.toNat + 10 + data.length)).dwOperStage = w.dwOperStage := by
    unfold Work.sendBufferTo
    split_ifs <;> rfl
  simp only [hstage]
  refine ⟨rfl, ?_⟩
  simp only [App.onWork, sizeLine]
  push_cast
  ring

theorem loadBlock_empty_chunk (hchunk : a.options.chunkEnabled = true) {w : Work} {data : Bytes} {size : ℤ}
    (hread : read a.toWork a.maxSize = (w, data, size)) (hsize : size ≤ 0) :
    (loadBlock read maxSendBufSize a).1.sendBuffer = poke a.sendBuffer (a.bytesLeft.toNat + 10) data ∧
      (loadBlock read maxSendBufSize a).1.bytesLeft = a.bytesLeft := by
  have hmax : a.maxSize = maxSendBufSize - a.bytesLeft - 2 - 10 := by simp [App.maxSize, hchunk]
  rw [hmax] at hread
  unfold loadBlock
  simp only [hchunk, not_true_eq_false, if_false, hread, if_neg (not_lt.mpr hsize), and_self]

/-! ## What is appended -/

/-- What loading a block leaves of the bytes that wait to be sent. -/
structure Appends (a b : App) : Prop where
  kept : b.sendBuffer.take a.bytesLeft.toNat = a.sendBuffer.take a.bytesLeft.toNat
  grown : a.bytesLeft ≤ b.bytesLeft
  left : b.bytesLeft ≤ b.sendBuffer.length
  room : maxSendBufSize ≤ b.sendBuffer.length

/-- A chunk is put behind the first `i` bytes, within the buffer. -/
theorem putChunk_appends {m line data : Bytes} {i size : ℕ} (tail : Bytes) (hline : line.length ≤ 10)
    (hdata : i + 10 + data.length ≤ m.length) (hsize : size ≤ data.length) :
    (putChunk m i line data tail size).take i = m.take i ∧
      i + (line.length + size + tail.length) ≤ (putChunk m i line data tail size).length ∧
      m.length ≤ (putChunk m i line data tail size).length := by
  have hhead : i + 10 - line.length + (line.length + size) = i + 10 + size := by omega
  have hlength := @putChunk_length m line data i size tail hline hdata (by omega)
  refine ⟨?_, by omega, by omega⟩
  unfold putChunk
  simp only [hhead]
  have h₁ : (poke m (i + 10) data).length = m.length := poke_length hdata
  have h₂ : (poke (poke m (i + 10) data) (i + 10 - line.length) line).length = m.length :=
    (poke_length (by omega)).trans h₁
  have h₃ := length_le_poke_self (poke (poke m (i + 10) data) (i + 10 - line.length) line) (i + 10 + size) tail
  rw [take_poke _ (by omega), take_poke_of_le tail (by omega) (by omega), take_poke_of_le line (by omega) (by omega),
    take_poke_of_le data (by omega) (by omega)]

theorem sendBufferTo_fault {w : Work} {n : ℕ} (h : (w.sendBufferTo n).world.fault = false) : n ≤ maxSendBufSize := by
  unfold Work.sendBufferTo at h
  split_ifs at h with hn
  · cases h
  · exact not_lt.mp hn

/-- A chunk that leaves the buffer is a fault. -/
theorem loadBlock_inside (hchunk : a.options.chunkEnabled = true) {w : Work} {data : Bytes}
    {size : ℤ} (hread : read a.toWork a.maxSize = (w, data, size))
    (hfault : (loadBlock read maxSendBufSize a).1.world.fault = false) :
    a.bytesLeft.toNat + 10 + data.length ≤ maxSendBufSize := by
  have hmax : a.maxSize = maxSendBufSize - a.bytesLeft - 2 - 10 := by simp [App.maxSize, hchunk]
  have hkeep (v : Work) (n : ℕ) (h : (v.sendBufferTo n).world.fault = false) : v.world.fault = false := by
    unfold Work.sendBufferTo at h
    split_ifs at h
    · cases h
    · exact h
  rw [hmax] at hread
  refine @sendBufferTo_fault w _ ?_
  unfold loadBlock at hfault
  simp only [hchunk, not_true_eq_false, if_false, hread] at hfault
  by_cases hsize : size > 0
  · simp only [if_pos hsize] at hfault
    exact hkeep _ _ hfault
  · simp only [if_neg hsize] at hfault
    exact hfault

theorem loadBlock_appends (hsize : ∀ n, (read a.toWork n).2.2 ≤ (read a.toWork n).2.1.length)
    (h0 : 0 ≤ a.bytesLeft) (hleft : a.bytesLeft ≤ a.sendBuffer.length)
    (hroom : maxSendBufSize ≤ a.sendBuffer.length) (hfault : (loadBlock read maxSendBufSize a).1.world.fault = false) :
    Appends a (loadBlock read maxSendBufSize a).1 := by
  have hle : a.bytesLeft.toNat ≤ a.sendBuffer.length := by omega
  specialize hsize a.maxSize
  cases hchunk : a.options.chunkEnabled with
  | false =>
    obtain ⟨hbuffer, hbytes⟩ := @loadBlock_plain read a hchunk
    generalize (read a.toWork a.maxSize).2.1 = data at hsize hbuffer
    have hgrown := @length_le_poke a.sendBuffer data _ hle
    have hkeep := length_le_poke_self a.sendBuffer a.bytesLeft.toNat data
    refine ⟨?_, ?_, ?_, ?_⟩
    · rw [hbuffer]
      exact take_poke data hle
    · rw [hbytes]
      omega
    · rw [hbytes, hbuffer]
      omega
    · rw [hbuffer]
      exact hroom.trans hkeep
  | true =>
    obtain ⟨w, data, size, hread⟩ : ∃ w data size, read a.toWork a.maxSize = (w, data, size) := ⟨_, _, _, rfl⟩
    have hin := loadBlock_inside hchunk hread hfault
    rw [hread] at hsize
    simp only at hsize
    by_cases hpos : 0 < size
    · obtain ⟨hbuffer, hbytes⟩ := loadBlock_chunk hchunk hread hpos
      have hline : (sizeLine a size).length ≤ 7 := sizeLine_length (by omega)
      obtain ⟨hkept, hend, hkeep⟩ := @putChunk_appends a.sendBuffer (sizeLine a size) data a.bytesLeft.toNat
        size.toNat (if w.dwOperStage = stageEnd then chunkTail else []) (by omega) (by omega)
        (by omega)
      rw [← hbuffer] at hkept hend hkeep
      exact ⟨hkept, by omega, by omega, hroom.trans hkeep⟩
    · obtain ⟨hbuffer, hbytes⟩ := loadBlock_empty_chunk hchunk hread (not_lt.mp hpos)
      have hkeep := length_le_poke_self a.sendBuffer (a.bytesLeft.toNat + 10) data
      refine ⟨?_, hbytes.ge, ?_, ?_⟩
      · rw [hbuffer]
        exact take_poke_of_le data (Nat.le_add_right _ _) (by omega)
      · rw [hbuffer, hbytes]
        omega
      · rw [hbuffer]
        exact hroom.trans hkeep

/-! ## Headers and contents of the mappings -/

section

variable {c : Core} {m x y : Bytes}

theorem length_le_ite {p : Prop} [Decidable p] (hx : m.length ≤ x.length) (hy : m.length ≤ y.length) :
    m.length ≤ (if p then x else y).length := by
  split_ifs
  · exact hx
  · exact hy

theorem length_le_strcat (m s : Bytes) : m.length ≤ (strcat m s).length := length_le_poke_self _ _ _

theorem length_le_sprintfAt (m : Bytes) (i : ℕ) (text : Bytes) : m.length ≤ (sprintfAt m i text).length :=
  length_le_poke_self _ _ _

theorem webAppendHeaders_length (a : App) (info : Bytes) :
    a.sendBuffer.length ≤ (webAppendHeaders c a info).sendBuffer.length := by
  simp only [webAppendHeaders]
  refine le_trans ?_ (length_le_ite (length_le_strcat _ _) le_rfl)
  refine le_trans ?_ (length_le_ite (length_le_strcat _ _) (length_le_strcat _ _))
  refine le_trans ?_ (length_le_ite (length_le_strcat _ _) le_rfl)
  by_cases hrange : a.rangeTo > c.rangeFrom
  · simp only [if_pos hrange]
    exact length_le_ite (length_le_sprintfAt _ _ _) le_rfl
  · simp only [if_neg hrange]
    exact length_le_ite (length_le_sprintfAt _ _ _) le_rfl

/-- A mapping adds its headers to the buffer. -/
theorem Cgi.setResponseHeaders_length {k : Cgi} {f : Core → App → Bytes → App}
    (h : k.mapping.setResponseHeaders = some f) (a : App) (info : Bytes) :
    a.sendBuffer.length ≤ (f c a info).sendBuffer.length := by
  cases k <;> cases h
  · unfold ssdpSendHeader
    simp only
    split_ifs
    · exact length_le_sprintfAt _ _ _
    · exact le_rfl
  · simp only [authSetResponseHeaders]
    split_ifs
    · refine le_trans ?_ (webAppendHeaders_length _ info)
      exact length_le_sprintfAt _ _ _
    · refine le_trans ?_ (webAppendHeaders_length _ info)
      exact length_le_sprintfAt _ _ _
    · exact webAppendHeaders_length a info
  · exact webAppendHeaders_length a info
  · unfold filesSetResponseHeader
    simp only
    split_ifs
    · exact length_le_sprintfAt _ _ _
    · exact le_rfl
  · exact webAppendHeaders_length a info

theorem cgiSetResponseHeaders_length (env : Env) (a : App) (info : Bytes) :
    a.sendBuffer.length ≤ (cgiSetResponseHeaders env c a info).sendBuffer.length := by
  have hstart : a.sendBuffer.length ≤ (startHeaders a).sendBuffer.length := by
    simp only [startHeaders]
    exact length_le_ite ((length_le_poke_self _ _ _).trans (length_le_sprintfAt _ _ _)) (length_le_poke_self _ _ _)
  have hhandler : a.sendBuffer.length ≤ (handlerHeaders c (startHeaders a) info).sendBuffer.length := by
    refine hstart.trans ?_
    unfold handlerHeaders
    split
    next f hf =>
      obtain ⟨k, -, hk⟩ := Option.bind_eq_some_iff.mp hf
      exact Cgi.setResponseHeaders_length hk _ info
    next => exact le_rfl
  simp only [cgiSetResponseHeaders]
  refine hhandler.trans ?_
  refine le_trans ?_ (length_le_ite (length_le_strcat _ _) le_rfl)
  refine le_trans ?_ (length_le_strcat _ _)
  exact length_le_ite (length_le_sprintfAt _ _ _) le_rfl

/-- `ReadContent` returns no more than it writes. -/
theorem Cgi.readContent_size {k : Cgi} {f : Env → Core → Work → ℤ → Work × Bytes × ℤ}
    (h : k.mapping.readContent = some f) (env : Env) (w : Work) (n : ℤ) :
    (f env c w n).2.2 ≤ (f env c w n).2.1.length := by
  have hpage : (webReadContent env c w n).2.2 ≤ (webReadContent env c w n).2.1.length := by
    simp only [webReadContent, readPage]
    split_ifs
    · exact (by decide : (-1 : ℤ) ≤ 0)
    · simp only [flushCache, List.length_append, List.length_take, List.length_replicate]
      omega
    · exact (by decide : (-1 : ℤ) ≤ 0)
    · exact (by decide : (0 : ℤ) ≤ 0)
    · split
      · exact (by decide : (0 : ℤ) ≤ 0)
      · exact le_rfl
    · split
      · exact (by decide : (0 : ℤ) ≤ 0)
      · exact le_rfl
  cases k <;> cases h
  · simp only [ssdpSending]
    split_ifs
    · exact (by decide : (-1 : ℤ) ≤ 0)
    · exact le_rfl
    · exact (by decide : (0 : ℤ) ≤ 0)
  · exact hpage
  · exact hpage
  · simp only [filesReadOneFileInfo]
    split_ifs
    · exact (by decide : (-1 : ℤ) ≤ 0)
    · exact (by decide : (-1 : ℤ) ≤ 0)
    · exact (by decide : (-1 : ℤ) ≤ 0)
    · exact le_rfl
    · exact le_trans (by decide : (-1 : ℤ) ≤ 0) (Int.natCast_nonneg _)
  · exact hpage

end

/-! ## Blocks that fit -/

theorem plain_fits_iff (hread : WritesAtMost read) (hplain : a.options.chunkEnabled = false)
    (h0 : 0 ≤ a.bytesLeft) (hbuffer : a.sendBuffer.length = maxSendBufSize) :
    LoadFits read a ↔ a.bytesLeft ≤ maxSendBufSize - 2 := by
  have hmax : a.maxSize = maxSendBufSize - a.bytesLeft - 2 := by simp [App.maxSize, hplain]
  constructor
  · intro h
    have hroom := h.room
    omega
  · intro hleft
    have hroom : 0 ≤ a.maxSize := by omega
    obtain ⟨hdata, hsize⟩ := hread a.toWork a.maxSize hroom
    obtain ⟨hsend, hbytes⟩ := @loadBlock_plain read a hplain
    refine ⟨hroom, ?_, ?_⟩
    · rw [hsend, poke_length (by omega), hbuffer]
    · rw [hbytes]
      omega

theorem chunk_fits_iff (hread : WritesAtMost read) (hchunk : a.options.chunkEnabled = true)
    (h0 : 0 ≤ a.bytesLeft) (hbuffer : a.sendBuffer.length = maxSendBufSize) {w : Work} {data : Bytes}
    {size : ℤ} (hr : read a.toWork a.maxSize = (w, data, size)) :
    LoadFits read a ↔ a.bytesLeft ≤ maxSendBufSize - 12 ∧
      (0 < size → w.dwOperStage = stageEnd → size ≤ a.maxSize - 5) := by
  have hmax : a.maxSize = maxSendBufSize - a.bytesLeft - 2 - 10 := by simp [App.maxSize, hchunk]
  by_cases hroom : 0 ≤ a.maxSize
  swap
  · exact iff_of_false (fun h => hroom h.room) (fun h => by omega)
  obtain ⟨hdata, hsize⟩ := hread a.toWork a.maxSize hroom
  rw [hr] at hdata hsize
  simp only at hdata hsize
  by_cases hpos : 0 < size
  · obtain ⟨hsend, hbytes⟩ := loadBlock_chunk hchunk hr hpos
    have hline : (sizeLine a size).length ≤ 7 := sizeLine_length (by omega)
    have hlength := @putChunk_length a.sendBuffer (sizeLine a size) data a.bytesLeft.toNat size.toNat
      (if w.dwOperStage = stageEnd then chunkTail else []) (by omega) (by omega) (by omega)
    rw [← hsend, hbuffer] at hlength
    have htail : chunkTail.length = 7 := rfl
    by_cases hend : w.dwOperStage = stageEnd
    · rw [if_pos hend, htail] at hlength hbytes
      constructor
      · intro h
        have hinside := h.inside
        exact ⟨by omega, fun _ _ => by omega⟩
      · rintro ⟨-, hlast⟩
        have hle := hlast hpos hend
        exact ⟨hroom, by omega, by omega⟩
    · rw [if_neg hend, List.length_nil] at hlength hbytes
      constructor
      · intro h
        exact ⟨by omega, fun _ he => absurd he hend⟩
      · intro h
        exact ⟨hroom, by omega, by omega⟩
  · obtain ⟨hsend, hbytes⟩ := loadBlock_empty_chunk hchunk hr (not_lt.mp hpos)
    constructor
    · intro h
      exact ⟨by omega, fun hp => absurd hp hpos⟩
    · intro h
      refine ⟨hroom, ?_, by omega⟩
      rw [hsend, poke_length (by omega), hbuffer]

/-- Loading a block stays inside the send buffer exactly when no more is left over than the reserve
allows and the last chunk leaves 5 bytes unused. -/
theorem load_fits_iff (hread : WritesAtMost read) (h0 : 0 ≤ a.bytesLeft)
    (hbuffer : a.sendBuffer.length = maxSendBufSize) : LoadFits read a ↔ LeavesRoom read a := by
  unfold LeavesRoom
  cases hchunk : a.options.chunkEnabled with
  | false =>
    rw [plain_fits_iff hread hchunk h0 hbuffer]
    rfl
  | true =>
    rw [chunk_fits_iff hread hchunk h0 hbuffer rfl]
    rfl

/-- A response of chunks before the first one: the counters are zero, and the send buffer is empty. -/
def chunkedApp : App :=
  { (App.zero World.boot).onWork fun w => { w with options := { w.options with chunkEnabled := true } } with
    bytesLeft := 0 }

/-- The last block, of `n` bytes or as many as there may be. -/
def readLast (n : ℤ) (w : Work) (maxSize : ℤ) : Work × Bytes × ℤ :=
  ({ w with dwOperStage := stageEnd }, List.replicate (min maxSize n).toNat 97, min maxSize n)

theorem readLast_writes (n : ℤ) : WritesAtMost (readLast n) := by
  intro w maxSize hmax
  refine ⟨?_, min_le_left _ _⟩
  show ((List.replicate (min maxSize n).toNat (97 : UInt8)).length : ℤ) ≤ maxSize
  rw [List.length_replicate]
  omega

/-- One more byte behind 1597, and a last chunk that leaves five bytes. -/
theorem load_fits_full : LoadFits (readLast 1) { App.zero World.boot with bytesLeft := 1597 } ∧
    LoadFits (readLast 1583) chunkedApp := by
  constructor
  · refine (load_fits_iff (readLast_writes _) ?_ ?_).mpr ?_
    · exact (by decide : (0 : ℤ) ≤ 1597)
    · exact List.length_replicate
    · exact (by decide : (1597 : ℤ) ≤ 1600 - 2)
  · refine (load_fits_iff (readLast_writes _) (le_refl _) List.length_replicate).mpr ?_
    show _ ∧ _
    exact ⟨by decide, fun _ _ => by decide⟩

/-- A chunk as long as `ReadContent` may make it, which is the last one. -/
theorem load_fits_fails : ¬ ∀ (read : Work → ℤ → Work × Bytes × ℤ) (a : App), WritesAtMost read →
    0 ≤ a.bytesLeft → a.bytesLeft ≤ maxSendBufSize → a.sendBuffer.length = maxSendBufSize →
      LoadFits read a := by
  intro h
  have hread : WritesAtMost (readLast 1600) := readLast_writes _
  have hbuffer : chunkedApp.sendBuffer.length = maxSendBufSize := List.length_replicate
  have hfits := h (readLast 1600) chunkedApp hread (le_refl _) (by decide) hbuffer
  have hlast := ((chunk_fits_iff hread rfl (le_refl _) hbuffer rfl).mp hfits).2 (by decide) rfl
  exact absurd hlast (by decide)

end StraightHttpd
