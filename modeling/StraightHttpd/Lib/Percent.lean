import StraightHttpd.Lib.CMemory

/-! # Percent decoding

`%` and two hexadecimal digits stand for a byte; everything else stands for itself.
-/

set_option autoImplicit false

namespace CMemory

def hexValue (c : UInt8) : Option ℕ :=
  if 48 ≤ c && c ≤ 57 then some (c.toNat - 48)
  else if 65 ≤ c && c ≤ 70 then some (c.toNat - 55)
  else if 97 ≤ c && c ≤ 102 then some (c.toNat - 87)
  else none

/-- The byte that three bytes stand for together, if they do. -/
def escaped (a b c : UInt8) : Option UInt8 :=
  if a = 37 then
    match hexValue b, hexValue c with
    | some x, some y => some (UInt8.ofNat (16 * x + y))
    | _, _ => none
  else none

def percentDecode : Bytes → Bytes
  | a :: b :: c :: t =>
    match escaped a b c with
    | some v => v :: percentDecode t
    | none => a :: percentDecode (b :: c :: t)
  | t => t

attribute [grind =] percentDecode

@[simp] theorem percentDecode_nil : percentDecode [] = [] := rfl

theorem percentDecode_escape {a b c v : UInt8} (h : escaped a b c = some v) (t : Bytes) :
    percentDecode (a :: b :: c :: t) = v :: percentDecode t := by
  rw [percentDecode, h]

/-- A byte that does not begin an escape. -/
theorem percentDecode_cons {a : UInt8} {t : Bytes}
    (h : ∀ b c u, t = b :: c :: u → escaped a b c = none) :
    percentDecode (a :: t) = a :: percentDecode t := by
  match t, h with
  | [], _ => rfl
  | [_], _ => rfl
  | b :: c :: u, h => rw [percentDecode, h b c u rfl]

theorem escaped_of_ne {a : UInt8} (h : a ≠ 37) (b c : UInt8) : escaped a b c = none := if_neg h

theorem escaped_of_left {b : UInt8} (h : hexValue b = none) (a c : UInt8) : escaped a b c = none := by
  unfold escaped
  split_ifs
  · rw [h]
  · rfl

theorem escaped_of_right {c : UInt8} (h : hexValue c = none) (a b : UInt8) : escaped a b c = none := by
  unfold escaped
  split_ifs
  · cases hexValue b <;> rw [h]
  · rfl

theorem percentDecode_cons_of_ne {a : UInt8} (h : a ≠ 37) (t : Bytes) :
    percentDecode (a :: t) = a :: percentDecode t :=
  percentDecode_cons fun b c _ _ => escaped_of_ne h b c

/-- A byte that is no part of an escape stands between what is decoded on either side. -/
theorem percentDecode_append {d : UInt8} (hd : d ≠ 37) (hhex : hexValue d = none) (t u : Bytes) :
    percentDecode (t ++ d :: u) = percentDecode t ++ d :: percentDecode u := by
  induction t using percentDecode.induct with
  | case1 a b c t v h ih =>
    rw [List.cons_append, List.cons_append, List.cons_append, percentDecode_escape h, ih,
      percentDecode_escape h, List.cons_append]
  | case2 a b c t h ih =>
    have hcut : percentDecode (a :: (b :: c :: t ++ d :: u)) = a :: percentDecode (b :: c :: t ++ d :: u) :=
      percentDecode_cons fun b' c' u' he => by
        obtain ⟨rfl, rfl, -⟩ : b = b' ∧ c = c' ∧ _ := by simpa using he
        exact h
    rw [List.cons_append, hcut, ih, percentDecode, h, List.cons_append]
  | case3 t h =>
    have hdu : percentDecode (d :: u) = d :: percentDecode u := percentDecode_cons_of_ne hd u
    match t, h with
    | [], _ => exact hdu
    | [a], _ =>
      have ha : percentDecode (a :: d :: u) = a :: percentDecode (d :: u) :=
        percentDecode_cons fun b c u' he => by
          obtain ⟨rfl, -⟩ := List.cons.inj he
          exact escaped_of_left hhex a c
      rw [List.cons_append, List.nil_append, ha, hdu]
      rfl
    | [a, b], _ =>
      have hb : percentDecode (b :: d :: u) = b :: percentDecode (d :: u) :=
        percentDecode_cons fun b' c u' he => by
          obtain ⟨rfl, -⟩ := List.cons.inj he
          exact escaped_of_left hhex b c
      have ha : percentDecode (a :: b :: d :: u) = a :: percentDecode (b :: d :: u) :=
        percentDecode_cons fun b' c u' he => by
          obtain ⟨rfl, hdu'⟩ := List.cons.inj he
          obtain ⟨rfl, -⟩ := List.cons.inj hdu'
          exact escaped_of_right hhex a b
      rw [List.cons_append, List.cons_append, List.nil_append, ha, hb, hdu]
      rfl
    | a :: b :: c :: t, h => exact absurd rfl (h a b c t)

/-- A byte that is no part of an escape is decoded to itself. -/
theorem mem_percentDecode {d : UInt8} (hd : d ≠ 37) (hhex : hexValue d = none) {t : Bytes} (h : d ∈ t) :
    d ∈ percentDecode t := by
  obtain ⟨u, v, rfl⟩ := List.append_of_mem h
  rw [percentDecode_append hd hhex]
  simp

theorem percentDecode_length_le (t : Bytes) : (percentDecode t).length ≤ t.length := by
  induction t using percentDecode.induct with
  | case1 a b c t v h ih =>
    rw [percentDecode_escape h]
    simp only [List.length_cons]
    omega
  | case2 a b c t h ih =>
    rw [percentDecode, h]
    simp only [List.length_cons] at ih ⊢
    omega
  | case3 t h => rw [percentDecode.eq_2 t h]

theorem percentDecode_short {t : Bytes} (h : t.length < 3) : percentDecode t = t := by
  match t, h with
  | [], _ => rfl
  | [_], _ => rfl
  | [_, _], _ => rfl

theorem percentDecode_eq_nil_iff (t : Bytes) : percentDecode t = [] ↔ t = [] := by
  match t with
  | [] => exact iff_of_true rfl rfl
  | [_] => simp [percentDecode]
  | [_, _] => simp [percentDecode]
  | a :: b :: c :: t =>
    rw [percentDecode]
    cases escaped a b c <;> simp

/-- What is decoded from the beginning of a text is decoded from the text, but for `%` and digits. -/
theorem mem_percentDecode_take {x : UInt8} (hx : x ≠ 37) (hhex : hexValue x = none) {t : Bytes} {k : ℕ}
    (h : x ∈ percentDecode (t.take k)) : x ∈ percentDecode t := by
  induction t using percentDecode.induct generalizing k with
  | case1 a b c t v he ih =>
    by_cases hk : 3 ≤ k
    · obtain ⟨k, rfl⟩ := Nat.exists_eq_add_of_le' hk
      rw [List.take_succ_cons, List.take_succ_cons, List.take_succ_cons, percentDecode_escape he] at h
      rw [percentDecode_escape he]
      rcases List.mem_cons.mp h with rfl | h
      · exact List.mem_cons_self
      · exact List.mem_cons_of_mem _ (ih h)
    · -- the escape is cut, so that what remains of it stands for itself
      rw [percentDecode_short (by rw [List.length_take]; omega)] at h
      have ha : a = 37 := by
        by_contra ha
        rw [escaped_of_ne ha] at he
        cases he
      have hb : x ≠ b := by
        rintro rfl
        rw [escaped_of_left hhex] at he
        cases he
      have hmem : x ∈ (a :: b :: c :: t).take 2 := List.take_subset_take_left _ (by omega) h
      have hmem : x ∈ [a, b] := hmem
      simp [ha, hx, hb] at hmem
  | case2 a b c t he ih =>
    cases k with
    | zero => cases h
    | succ k =>
      rw [List.take_succ_cons, percentDecode_cons] at h
      · rw [percentDecode, he]
        rcases List.mem_cons.mp h with rfl | h
        · exact List.mem_cons_self
        · exact List.mem_cons_of_mem _ (ih h)
      · intro b' c' u hu
        have hb : (b :: c :: t).take k <+: b :: c :: t := List.take_prefix _ _
        rw [hu, List.cons_prefix_cons, List.cons_prefix_cons] at hb
        obtain ⟨rfl, rfl, -⟩ := hb
        exact he
  | case3 t ht =>
    have hlength : t.length < 3 := by
      match t, ht with
      | [], _ => decide
      | [_], _ => exact (by decide : 1 < 3)
      | [_, _], _ => exact (by decide : 2 < 3)
      | a :: b :: c :: t, ht => exact absurd rfl (ht a b c t)
    rw [percentDecode_short (by rw [List.length_take]; omega)] at h
    rw [percentDecode_short hlength]
    exact List.mem_of_mem_take h

/-- Every reserved byte becomes `%` and its two digits. -/
def percentEncode (reserved : UInt8 → Bool) (t : Bytes) : Bytes :=
  t.flatMap fun b => if reserved b then [37, hexDigit (b.toNat / 16), hexDigit (b.toNat % 16)] else [b]

theorem percentEncode_plain {reserved : UInt8 → Bool} {t : Bytes} (h : ∀ b ∈ t, reserved b = false) :
    percentEncode reserved t = t := by
  induction t with
  | nil => rfl
  | cons b t ih =>
    have hb := h b List.mem_cons_self
    have ht := ih fun c hc => h c (List.mem_cons_of_mem _ hc)
    unfold percentEncode at ht ⊢
    rw [List.flatMap_cons, ht, hb]
    rfl

/-! ## Encodings -/

/-- A text spells `x` when every byte of `x` is escaped or, unless it is `%`, stands for itself. -/
inductive Encodes : Bytes → Bytes → Prop
  | nil : Encodes [] []
  | plain {b : UInt8} {x t : Bytes} (hb : b ≠ 37) (h : Encodes x t) : Encodes (b :: x) (b :: t)
  | escape {a b v : UInt8} {x t : Bytes} (hv : escaped 37 a b = some v) (h : Encodes x t) :
      Encodes (v :: x) (37 :: a :: b :: t)

theorem Encodes.decode {x t : Bytes} (h : Encodes x t) : percentDecode t = x := by
  induction h with
  | nil => rfl
  | plain hb _ ih => rw [percentDecode_cons_of_ne hb, ih]
  | escape hv _ ih => rw [percentDecode_escape hv, ih]

theorem Encodes.no_nul {x t : Bytes} (h : Encodes x t) (hx : (0 : UInt8) ∉ x) : (0 : UInt8) ∉ t := by
  induction h with
  | nil => exact hx
  | plain hb _ ih =>
    obtain ⟨hne, hrest⟩ := not_or.mp (mt List.mem_cons.mpr hx)
    exact List.not_mem_cons_of_ne_of_not_mem hne (ih hrest)
  | @escape a b v x t hv _ ih =>
    have ha : (0 : UInt8) ≠ a := by
      rintro rfl
      rw [escaped_of_left rfl] at hv
      cases hv
    have hb : (0 : UInt8) ≠ b := by
      rintro rfl
      rw [escaped_of_right rfl] at hv
      cases hv
    have hrest := ih fun h0 => hx (List.mem_cons_of_mem _ h0)
    exact List.not_mem_cons_of_ne_of_not_mem (by decide) (List.not_mem_cons_of_ne_of_not_mem ha
      (List.not_mem_cons_of_ne_of_not_mem hb hrest))

theorem hexValue_hexDigit {d : ℕ} (h : d < 16) : hexValue (hexDigit d) = some d := by
  interval_cases d <;> rfl

theorem escaped_hexDigits (v : UInt8) :
    escaped 37 (hexDigit (v.toNat / 16)) (hexDigit (v.toNat % 16)) = some v := by
  have hlt : v.toNat < 256 := v.toNat_lt
  have hvalue : 16 * (v.toNat / 16) + v.toNat % 16 = v.toNat := Nat.div_add_mod _ _
  rw [escaped, if_pos rfl, hexValue_hexDigit (by omega), hexValue_hexDigit (Nat.mod_lt _ (by decide))]
  simp only [hvalue, UInt8.ofNat_toNat]

theorem encodes_percentEncode {reserved : UInt8 → Bool} (h37 : reserved 37 = true) (x : Bytes) :
    Encodes x (percentEncode reserved x) := by
  induction x with
  | nil => exact .nil
  | cons b x ih =>
    unfold percentEncode at ih ⊢
    rw [List.flatMap_cons]
    split_ifs with hb
    · exact .escape (escaped_hexDigits b) ih
    · refine .plain ?_ ih
      rintro rfl
      exact hb h37

end CMemory
