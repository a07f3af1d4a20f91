import StraightHttpd.Lib.CMemory

/-! # Base64

Three bytes are spelled by four characters of six bits each. What is left at the end of a text is
spelled by two or three characters, and `=` fills up the group.
-/

set_option autoImplicit false

namespace Base64

open CMemory

def alphabet : Bytes := bytes "ABCDEFGHIJKLMNOPQRSTUVWXYZabcdefghijklmnopqrstuvwxyz0123456789+/"

/-- The character of six bits. -/
def letter (d : ℕ) : UInt8 := peek alphabet d

/-- A text in pieces of six bits, the last of them filled up with zeros. -/
def sextets : Bytes → List ℕ
  | a :: b :: c :: x => a.toNat / 4 :: (a.toNat % 4 * 16 + b.toNat / 16) ::
      (b.toNat % 16 * 4 + c.toNat / 64) :: c.toNat % 64 :: sextets x
  | [a, b] => [a.toNat / 4, a.toNat % 4 * 16 + b.toNat / 16, b.toNat % 16 * 4]
  | [a] => [a.toNat / 4, a.toNat % 4 * 16]
  | [] => []

def encode (x : Bytes) : Bytes :=
  (sextets x).map letter ++ List.replicate ((3 - x.length % 3) % 3) 61

/-- The pieces put one behind the other. -/
def word (vs : List ℕ) : ℕ := vs.foldl (fun w v => w * 64 + v) 0

/-- The bytes of less than four pieces, without the bits that fill no byte. -/
def tailBytes (vs : List ℕ) : Bytes :=
  match vs.length with
  | 3 => [UInt8.ofNat (word vs / 1024), UInt8.ofNat (word vs / 4)]
  | 2 => [UInt8.ofNat (word vs / 16)]
  | _ => []

/-- The bytes of four pieces. -/
def groupBytes (vs : List ℕ) : Bytes :=
  [UInt8.ofNat (word vs / 65536), UInt8.ofNat (word vs / 256), UInt8.ofNat (word vs)]

def unpack : List ℕ → Bytes
  | a :: b :: c :: d :: vs => groupBytes [a, b, c, d] ++ unpack vs
  | vs => tailBytes vs

example : unpack (sextets (bytes "a.txt")) = bytes "a.txt" := by decide +kernel

theorem word_snoc (vs : List ℕ) (v : ℕ) : word (vs ++ [v]) = word vs * 64 + v := by
  unfold word
  rw [List.foldl_append]
  rfl

theorem unpack_of_short {vs : List ℕ} (h : vs.length < 4) : unpack vs = tailBytes vs := by
  match vs, h with
  | [], _ => rfl
  | [_], _ => rfl
  | [_, _], _ => rfl
  | [_, _, _], _ => rfl
  | _ :: _ :: _ :: _ :: _, h =>
    simp only [List.length_cons] at h
    omega

/-- Four pieces in front of others. -/
theorem unpack_append {part : List ℕ} (h : part.length = 4) (vs : List ℕ) :
    unpack (part ++ vs) = groupBytes part ++ unpack vs := by
  match part, h with
  | [_, _, _, _], _ => rfl

theorem tailBytes_length (vs : List ℕ) : (tailBytes vs).length ≤ vs.length := by
  unfold tailBytes
  split
  · rw [List.length_cons, List.length_singleton]
    omega
  · rw [List.length_singleton]
    omega
  · exact Nat.zero_le _

theorem unpack_eq_nil_iff (vs : List ℕ) : unpack vs = [] ↔ vs.length < 2 := by
  match vs with
  | [] => exact iff_of_true rfl (by decide)
  | [_] => exact iff_of_true rfl (by decide : 1 < 2)
  | [_, _] => exact iff_of_false (List.cons_ne_nil _ _) (by decide : ¬ 2 < 2)
  | [_, _, _] => exact iff_of_false (List.cons_ne_nil _ _) (by decide : ¬ 3 < 2)
  | _ :: _ :: _ :: _ :: _ =>
    refine iff_of_false (List.cons_ne_nil _ _) ?_
    simp only [List.length_cons]
    omega

theorem sextets_lt {x : Bytes} : ∀ d ∈ sextets x, d < 64 := by
  induction x using sextets.induct with
  | case1 a b c x ih =>
    have ha := a.toNat_lt
    have hb := b.toNat_lt
    have hc := c.toNat_lt
    intro d hd
    simp only [sextets, List.mem_cons] at hd
    rcases hd with rfl | rfl | rfl | rfl | hd
    · omega
    · omega
    · omega
    · omega
    · exact ih d hd
  | case2 a b =>
    have ha := a.toNat_lt
    have hb := b.toNat_lt
    intro d hd
    simp only [sextets, List.mem_cons, List.not_mem_nil, or_false] at hd
    omega
  | case3 a =>
    have ha := a.toNat_lt
    intro d hd
    simp only [sextets, List.mem_cons, List.not_mem_nil, or_false] at hd
    omega
  | case4 =>
    intro d hd
    cases hd

theorem ofNat_eq {n : ℕ} {b : UInt8} (h : n % 256 = b.toNat) : UInt8.ofNat n = b := by
  rw [← UInt8.toNat_inj, UInt8.toNat_ofNat']
  exact h

/-- The pieces of a text give the text back. -/
theorem unpack_sextets (x : Bytes) : unpack (sextets x) = x := by
  induction x using sextets.induct with
  | case1 a b c x ih =>
    have ha := a.toNat_lt
    have hb := b.toNat_lt
    have hc := c.toNat_lt
    have hgroup : groupBytes [a.toNat / 4, a.toNat % 4 * 16 + b.toNat / 16, b.toNat % 16 * 4 + c.toNat / 64,
        c.toNat % 64] = [a, b, c] := by
      simp only [groupBytes, word, List.foldl_cons, List.foldl_nil]
      rw [@ofNat_eq _ a (by omega), @ofNat_eq _ b (by omega), @ofNat_eq _ c (by omega)]
    rw [sextets, unpack, hgroup, ih]
    rfl
  | case2 a b =>
    have ha := a.toNat_lt
    have hb := b.toNat_lt
    have htail : tailBytes [a.toNat / 4, a.toNat % 4 * 16 + b.toNat / 16, b.toNat % 16 * 4] = [a, b] := by
      simp only [tailBytes, word, List.length_cons, List.length_nil, List.foldl_cons, List.foldl_nil]
      rw [@ofNat_eq _ a (by omega), @ofNat_eq _ b (by omega)]
    exact htail
  | case3 a =>
    have ha := a.toNat_lt
    have htail : tailBytes [a.toNat / 4, a.toNat % 4 * 16] = [a] := by
      simp only [tailBytes, word, List.length_cons, List.length_nil, List.foldl_cons, List.foldl_nil]
      rw [@ofNat_eq _ a (by omega)]
    exact htail
  | case4 => rfl

/-! ## Piece by piece -/

/-- What has been unpacked, and the pieces of the group that is not complete. -/
structure Unpacking where
  done : Bytes
  part : List ℕ

namespace Unpacking

/-- The next piece. -/
def push (a : Unpacking) (d : ℕ) : Unpacking :=
  if a.part.length = 3 then ⟨a.done ++ groupBytes (a.part ++ [d]), []⟩ else ⟨a.done, a.part ++ [d]⟩

/-- What it will be with the pieces still to come. -/
def total (a : Unpacking) (vs : List ℕ) : Bytes := a.done ++ unpack (a.part ++ vs)

theorem push_total (a : Unpacking) (d : ℕ) (vs : List ℕ) : (a.push d).total vs = a.total (d :: vs) := by
  unfold push total
  split_ifs with h
  · have hlength : (a.part ++ [d]).length = 4 := by
      rw [List.length_append, h]
      rfl
    rw [List.append_cons a.part d vs, unpack_append hlength, List.append_assoc]
    rfl
  · rw [List.append_cons a.part d vs]

end Unpacking
end Base64
