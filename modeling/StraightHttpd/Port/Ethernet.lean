import StraightHttpd.Port.FrameQueue
import StraightHttpd.Port.Pbuf

/-! # Frames between the adapter and the stack (`ethernetif.c`, `straight-httpd.c`, `tcpip.c`)

The lwip thread copies a captured frame to a chain of pool pbufs and posts that to itself; the stack gets it
with the message. A chain that the stack sends is copied to one buffer, which goes to the adapter.
-/

set_option autoImplicit false

namespace StraightHttpd
open CMemory

/-! ## Copying -/

def memAlignSize (size : ℕ) : ℕ := (size + 3) / 4 * 4 -- LWIP_MEM_ALIGN_SIZE

/-- `PBUF_POOL_BUFSIZE`, with a `TCP_MSS` of 800. -/
def pbufPoolBufsize : ℕ := memAlignSize (800 + 20 + 20 + 0 + 14)

/-- The loop of `pbuf_alloc` for a chain of pool pbufs, of which `room` can be had: the `tot_len` and the
`len` of each pbuf, `none` when the pool is empty. -/
def allocPool : (room remLen : ℕ) → Option (List (ℕ × ℕ))
  | 0, _ => none
  | room + 1, remLen =>
    let qlen := min remLen pbufPoolBufsize
    if remLen - qlen > 0 then (allocPool room (remLen - qlen)).map ((remLen, qlen) :: ·)
    else some [(remLen, qlen)]

/-- The loop of `low_level_input`. -/
def copyIn (buffer : Bytes) : (l : ℕ) → List (ℕ × ℕ) → List Pbuf
  | _, [] => []
  | l, (totLen, len) :: q => ⟨slice buffer l len, totLen⟩ :: copyIn buffer (l + len) q

/-- `low_level_input` of a packet; `pbuf_alloc` takes its length as a `u16_t`. -/
def lowLevelInput (room : ℕ) (buffer : Bytes) : Option (List Pbuf) :=
  (allocPool room (u16 buffer.length)).map (copyIn buffer 0)

/-- The loop of `low_level_output`. -/
def copyOut : List Pbuf → (buffer : Bytes) → (l : ℕ) → Bytes × ℕ
  | [], buffer, l => (buffer, l)
  | q :: p, buffer, l => copyOut p (poke buffer l q.payload) (l + q.len)

def nicBufferSize : ℕ := 1600 -- NIC_GetBuffer(1600)

/-- `low_level_output`: what `NIC_Send` gets, and whether the buffer was overrun. -/
def lowLevelOutput (p : List Pbuf) : Bytes × Bool :=
  let r := copyOut p (List.replicate nicBufferSize 0) 0
  (r.1.take r.2, decide (nicBufferSize < r.1.length))

theorem allocPool_some (room remLen : ℕ) :
    (allocPool room remLen).isSome ↔ 0 < room ∧ remLen ≤ room * pbufPoolBufsize := by
  induction room generalizing remLen with
  | zero => simp [allocPool]
  | succ room ih =>
    have hpos : 0 < pbufPoolBufsize := by decide
    unfold allocPool
    simp only
    split_ifs with hmore
    · rw [Option.isSome_map, ih, Nat.succ_mul]
      have hroom : remLen - min remLen pbufPoolBufsize ≤ room * pbufPoolBufsize → 0 < room := by
        intro h
        by_contra hzero
        simp only [Nat.eq_zero_of_not_pos hzero, Nat.zero_mul] at h
        omega
      omega
    · rw [Nat.succ_mul]
      simp only [Option.isSome_some, true_iff]
      omega

theorem slice_split (m : Bytes) (i n k : ℕ) : slice m i n ++ slice m (i + n) k = slice m i (n + k) := by
  simp only [slice]
  rw [← List.drop_drop, ← List.take_add]

/-- What a chain made of a packet holds. -/
structure Holds (buffer : Bytes) (p : List Pbuf) : Prop where
  bytes : chainBytes p = buffer
  consistent : buffer ≠ [] → Consistent p
  sizes : ∀ q ∈ p, q.len ≤ pbufPoolBufsize

theorem copyIn_holds {room remLen : ℕ} {q : List (ℕ × ℕ)} (h : allocPool room remLen = some q)
    {buffer : Bytes} {l : ℕ} (hfit : l + remLen ≤ buffer.length) :
    Holds (slice buffer l remLen) (copyIn buffer l q) := by
  induction room generalizing remLen q l with
  | zero => simp [allocPool] at h
  | succ room ih =>
    unfold allocPool at h
    simp only at h
    split_ifs at h with hmore
    · -- a full pbuf in front of the rest
      obtain ⟨q', hrest, rfl⟩ := Option.map_eq_some_iff.mp h
      have hlen : min remLen pbufPoolBufsize = pbufPoolBufsize := by omega
      have hmore : pbufPoolBufsize < remLen := by omega
      rw [hlen] at hrest ⊢
      have htail := ih hrest (l := l + pbufPoolBufsize) (by omega)
      have hbytes : slice buffer l pbufPoolBufsize ++
          slice buffer (l + pbufPoolBufsize) (remLen - pbufPoolBufsize) = slice buffer l remLen := by
        rw [slice_split, Nat.add_sub_cancel' hmore.le]
      have hhead : (slice buffer l pbufPoolBufsize).length = pbufPoolBufsize := by
        simp only [slice, List.length_take, List.length_drop]
        omega
      have hpos : 0 < pbufPoolBufsize := by decide
      have hchain : chainBytes (copyIn buffer l ((remLen, pbufPoolBufsize) :: q')) =
          slice buffer l remLen := by
        rw [copyIn, chainBytes_cons, htail.bytes, hbytes]
      refine ⟨hchain, fun _ => ⟨?_, ?_, htail.consistent ?_⟩, ?_⟩
      · intro hnil
        change slice buffer l pbufPoolBufsize = [] at hnil
        rw [hnil] at hhead
        exact hpos.ne hhead
      · change remLen = (chainBytes (copyIn buffer l ((remLen, pbufPoolBufsize) :: q'))).length
        rw [hchain]
        simp only [slice, List.length_take, List.length_drop]
        omega
      · intro hnil
        have hzero := congrArg List.length hnil
        simp only [slice, List.length_take, List.length_drop, List.length_nil] at hzero
        omega
      · intro x hx
        rcases List.mem_cons.mp hx with rfl | hx
        · exact hhead.le
        · exact htail.sizes x hx
    · obtain rfl := Option.some.inj h
      have hlen : min remLen pbufPoolBufsize = remLen := by omega
      rw [hlen]
      refine ⟨by simp [copyIn], fun hne => ⟨hne, ?_, trivial⟩, ?_⟩
      · simp only [chainBytes_cons, chainBytes_nil, List.append_nil, copyIn, slice, List.length_take,
          List.length_drop]
        omega
      · intro x hx
        rcases List.mem_cons.mp hx with rfl | hx
        · simp only [Pbuf.len, slice, List.length_take]
          omega
        · cases hx

/-- A packet that is received as a chain is in it as a whole, unless its length does not fit 16 bits. -/
theorem lowLevelInput_holds {room : ℕ} {buffer : Bytes} {p : List Pbuf}
    (h : lowLevelInput room buffer = some p) : Holds (buffer.take (u16 buffer.length)) p := by
  obtain ⟨q, hq, rfl⟩ := Option.map_eq_some_iff.mp h
  have hfit : 0 + u16 buffer.length ≤ buffer.length := by
    rw [Nat.zero_add]
    exact Nat.mod_le _ _
  exact copyIn_holds hq hfit

theorem copyOut_eq (p : List Pbuf) {buffer : Bytes} {l : ℕ} (hl : l ≤ buffer.length) :
    (copyOut p buffer l).2 = l + (chainBytes p).length ∧
      (copyOut p buffer l).1.take (l + (chainBytes p).length) = buffer.take l ++ chainBytes p ∧
      (copyOut p buffer l).1.length = max buffer.length (l + (chainBytes p).length) := by
  induction p generalizing buffer l with
  | nil => simp [copyOut, hl]
  | cons q p ih =>
    have hgrown : (poke buffer l q.payload).length = max buffer.length (l + q.len) := by
      simp only [poke, Pbuf.len, List.length_append, List.length_take, List.length_drop]
      omega
    obtain ⟨hend, hbytes, hlength⟩ := @ih (poke buffer l q.payload) (l + q.len) (by omega)
    have htaken : (poke buffer l q.payload).take (l + q.len) = buffer.take l ++ q.payload :=
      take_poke_add q.payload hl
    have hsum : l + (chainBytes (q :: p)).length = l + q.len + (chainBytes p).length := by
      rw [chainBytes_cons, List.length_append, Pbuf.len]
      omega
    rw [hsum, copyOut, chainBytes_cons, ← List.append_assoc, ← htaken]
    exact ⟨hend, hbytes, by omega⟩

/-- The frame that is sent is the chain, and the buffer has room for it up to 1600 bytes. -/
theorem lowLevelOutput_eq (p : List Pbuf) :
    lowLevelOutput p = (chainBytes p, decide (nicBufferSize < (chainBytes p).length)) := by
  obtain ⟨hend, hbytes, hlength⟩ :=
    @copyOut_eq p (List.replicate nicBufferSize 0) 0 (Nat.zero_le _)
  rw [Nat.zero_add] at hend hbytes hlength
  unfold lowLevelOutput
  simp only [hend, hbytes, hlength, List.length_replicate, List.take_zero, List.nil_append, lt_sup_iff,
    lt_irrefl, false_or]

end StraightHttpd
