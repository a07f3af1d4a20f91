import StraightHttpd.Lib.CMemory

/-! # Packet buffer chains (`lwip/src/core/pbuf.c`)

What the receive path uses of lwIP's pbufs. A chain is the list of its pbufs, head first, and the
NULL chain is empty. `totLen` is the 16-bit `tot_len` field as it is stored; that it equals the
length of the chain from its pbuf on is the invariant `Consistent`.
-/

set_option autoImplicit false

namespace StraightHttpd
open CMemory

/-- `struct pbuf`: `payload` holds its `len` bytes. -/
structure Pbuf where
  payload : Bytes
  totLen : ℕ
  deriving DecidableEq, Repr

def Pbuf.len (p : Pbuf) : ℕ := p.payload.length

/-- Conversion to `u16_t`. -/
def u16 (n : ℕ) : ℕ := n % 65536

/-- `tot_len` of a chain's first pbuf. -/
def headTotLen : List Pbuf → ℕ
  | [] => 0
  | p :: _ => p.totLen

/-- `pbuf_cat`: every `tot_len` of the first chain grows by the second's. -/
def pbufCat (h t : List Pbuf) : List Pbuf :=
  h.map (fun p => { p with totLen := u16 (p.totLen + headTotLen t) }) ++ t

/-- `pbuf_copy_partial`: `len` bytes of the chain from `offset` on, pbuf by pbuf. -/
def pbufCopyPartial : List Pbuf → (len offset : ℕ) → Bytes
  | [], _, _ => []
  | p :: c, len, offset =>
    if len = 0 then []
    else if offset ≠ 0 ∧ p.len ≤ offset then pbufCopyPartial c len (offset - p.len)
    else
      let n := min (p.len - offset) len
      slice p.payload offset n ++ pbufCopyPartial c (len - n) 0

/-- The bytes of a chain. -/
def chainBytes (c : List Pbuf) : Bytes := c.flatMap Pbuf.payload

/-- Segments are not empty and every `tot_len` is the length of the chain from there on. -/
def Consistent : List Pbuf → Prop
  | [] => True
  | p :: c => p.payload ≠ [] ∧ p.totLen = (chainBytes (p :: c)).length ∧ Consistent c

/-- A chain as the stack hands it to the receive callback. -/
structure RecvChain where
  pbufs : List Pbuf
  ne : pbufs ≠ []
  consistent : Consistent pbufs

@[simp] theorem chainBytes_nil : chainBytes [] = [] := rfl

@[simp] theorem chainBytes_cons (p : Pbuf) (c : List Pbuf) :
    chainBytes (p :: c) = p.payload ++ chainBytes c := rfl

@[simp] theorem chainBytes_append (h t : List Pbuf) :
    chainBytes (h ++ t) = chainBytes h ++ chainBytes t := List.flatMap_append

theorem u16_of_lt {n : ℕ} (h : n < 65536) : u16 n = n := Nat.mod_eq_of_lt h

theorem Consistent.headTotLen_eq {c : List Pbuf} (h : Consistent c) :
    headTotLen c = (chainBytes c).length := by
  cases c with
  | nil => rfl
  | cons p c => exact h.2.1

/-- An offset past the head counts from the rest of the chain. -/
theorem chainBytes_drop_cons {p : Pbuf} {off : ℕ} (c : List Pbuf) (h : p.len ≤ off) :
    (chainBytes (p :: c)).drop off = (chainBytes c).drop (off - p.len) := by
  rw [chainBytes_cons, List.drop_append, List.drop_eq_nil_of_le h, List.nil_append]
  rfl

theorem pbufCopyPartial_eq (c : List Pbuf) (len offset : ℕ) :
    pbufCopyPartial c len offset = slice (chainBytes c) offset len := by
  induction c generalizing len offset with
  | nil => simp [pbufCopyPartial, slice]
  | cons p c ih =>
    unfold pbufCopyPartial
    split
    next h => simp [slice, h]
    next hlen =>
      split
      next h =>
        rw [ih, slice, slice, chainBytes_drop_cons c h.2]
      next h =>
        have ho : offset ≤ p.payload.length := by
          simp only [Pbuf.len] at h
          omega
        have hz : offset - p.payload.length = 0 := by omega
        have hd : (p.payload.drop offset).length = p.payload.length - offset := List.length_drop
        simp only [ih, slice, chainBytes_cons, List.drop_append, List.take_append, Pbuf.len, hz, hd,
          List.drop_zero]
        rcases Nat.le_total len (p.payload.length - offset) with hl | hl
        · rw [Nat.min_eq_right hl, Nat.sub_self, Nat.sub_eq_zero_of_le hl]
        · have hlong : (p.payload.drop offset).take len = p.payload.drop offset :=
            List.take_of_length_le (by omega)
          have hall : (p.payload.drop offset).take (p.payload.length - offset) =
              p.payload.drop offset := List.take_of_length_le (by omega)
          rw [Nat.min_eq_left hl, hlong, hall]

/-! ## Concatenation -/

theorem pbufCat_cons (p : Pbuf) (h t : List Pbuf) :
    pbufCat (p :: h) t = { p with totLen := u16 (p.totLen + headTotLen t) } :: pbufCat h t := rfl

theorem chainBytes_pbufCat (h t : List Pbuf) :
    chainBytes (pbufCat h t) = chainBytes h ++ chainBytes t := by
  induction h with
  | nil => rfl
  | cons p h ih => rw [pbufCat_cons, chainBytes_cons, ih, chainBytes_cons, List.append_assoc]

theorem pbufCat_consistent {h t : List Pbuf} (hh : Consistent h) (ht : Consistent t)
    (hl : (chainBytes h).length + (chainBytes t).length < 65536) :
    Consistent (pbufCat h t) := by
  induction h with
  | nil => exact ht
  | cons p h ih =>
    obtain ⟨hne, htot, hrest⟩ := hh
    simp only [chainBytes_cons, List.length_append] at hl htot
    rw [pbufCat_cons]
    refine ⟨hne, ?_, ih hrest (by omega)⟩
    rw [chainBytes_cons, chainBytes_pbufCat, ht.headTotLen_eq, htot, u16_of_lt (by omega)]
    simp only [List.length_append]
    omega

end StraightHttpd
