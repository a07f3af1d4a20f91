import StraightHttpd.Lib.CMemory

/-! # Searches and numbers in C text

What `find` finds in a text that is cut at a character, and what `atol` reads from a text that begins
with a numeral. A checked access fails outside of its region.
-/

set_option autoImplicit false

namespace CMemory

/-- What holds of all 256 bytes. -/
theorem forall_byte {P : UInt8 → Prop} (h : ∀ n < 256, P (UInt8.ofNat n)) (c : UInt8) : P c := by
  have hc := h c.toNat c.toNat_lt
  rwa [UInt8.ofNat_toNat] at hc

/-! ## Stores and C strings -/

/-- A byte in the middle is replaced. -/
theorem poke_append (l r : Bytes) (b c : UInt8) : poke (l ++ b :: r) l.length [c] = l ++ c :: r := by
  simp [poke]

/-- Bytes behind the written block keep their places and values. -/
theorem drop_poke_of_le {m bs : Bytes} {i k : ℕ} (hi : i ≤ m.length) (hk : i + bs.length ≤ k) :
    (poke m i bs).drop k = m.drop k := by
  obtain ⟨d, rfl⟩ : ∃ d, k = i + (bs.length + d) := ⟨k - i - bs.length, by omega⟩
  rw [← List.drop_drop, ← List.drop_drop, drop_poke bs hi, List.drop_left, List.drop_drop, Nat.add_assoc]

/-- A block that is written over the end of another. -/
theorem poke_poke (s w : Bytes) {u v : Bytes} (h : u.length ≤ v.length) :
    poke (poke s 0 (w ++ u)) w.length v = poke s 0 (w ++ v) := by
  have hmem (x : Bytes) : poke s 0 (w ++ x) = w ++ (x ++ s.drop (w.length + x.length)) := by
    rw [poke, List.take_zero, List.nil_append, List.append_assoc, Nat.zero_add, List.length_append]
  obtain ⟨d, hd⟩ := Nat.exists_eq_add_of_le h
  rw [hmem u, hmem v, poke, List.take_left, ← List.drop_drop, List.drop_left, hd, ← List.drop_drop,
    List.drop_left, List.drop_drop, List.append_assoc, Nat.add_assoc]

theorem not_mem_cstr (m : Bytes) : (0 : UInt8) ∉ cstr m := by
  intro h
  have hne := List.mem_takeWhile_imp h
  exact absurd hne (by decide)

theorem cstr_append {t : Bytes} (h : (0 : UInt8) ∉ t) (z : Bytes) : cstr (t ++ z) = t ++ cstr z := by
  induction t with
  | nil => rfl
  | cons b t ih =>
    have hb : b ≠ 0 := fun hb => h (by simp [hb])
    rw [List.cons_append, cstr_cons hb, ih fun h0 => h (List.mem_cons_of_mem _ h0), List.cons_append]

/-! ## Checked accesses -/

/-- A load from a region of `size` bytes. -/
def load (size : ℕ) (m : Bytes) (i : ℕ) : Option UInt8 := if i < size then some (peek m i) else none

/-- A store to a region of `size` bytes. -/
def store (size : ℕ) (m : Bytes) (i : ℕ) (bs : Bytes) : Option Bytes :=
  if i + bs.length ≤ size then some (poke m i bs) else none

/-- `memmove` within a region of `size` bytes. -/
def move (size : ℕ) (m : Bytes) (dst src n : ℕ) : Option Bytes :=
  if dst + n ≤ size ∧ src + n ≤ size then some (poke m dst (slice m src n)) else none

theorem load_eq {size i : ℕ} (h : i < size) (m : Bytes) : load size m i = some (peek m i) := if_pos h

theorem store_eq {size i : ℕ} {bs : Bytes} (h : i + bs.length ≤ size) (m : Bytes) :
    store size m i bs = some (poke m i bs) := if_pos h

theorem move_eq {size dst src n : ℕ} (hdst : dst + n ≤ size) (hsrc : src + n ≤ size) (m : Bytes) :
    move size m dst src n = some (poke m dst (slice m src n)) := if_pos ⟨hdst, hsrc⟩

/-! ## Searches -/

theorem find_none {c : UInt8} {t : Bytes} (h : c ∉ t) : find [c] t = none := by
  induction t with
  | nil => rfl
  | cons b t ih =>
    obtain ⟨hb, ht⟩ := not_or.mp (mt List.mem_cons.mpr h)
    have hp : [c].isPrefixOf (b :: t) = false := by simpa [List.isPrefixOf] using hb
    rw [find, hp, ih ht]
    rfl

/-- The first place of a character is behind the text that does not contain it. -/
theorem find_append {c : UInt8} {t : Bytes} (h : c ∉ t) (u : Bytes) :
    find [c] (t ++ c :: u) = some t.length := by
  induction t with
  | nil => simp [find]
  | cons b t ih =>
    obtain ⟨hb, ht⟩ := not_or.mp (mt List.mem_cons.mpr h)
    have hp : [c].isPrefixOf (b :: (t ++ c :: u)) = false := by simpa [List.isPrefixOf] using hb
    rw [List.cons_append, find, hp, ih ht]
    rfl

/-- A place that was found has the text there. -/
theorem prefix_of_find {n t : Bytes} {i : ℕ} (h : find n t = some i) : n <+: t.drop i := by
  induction t generalizing i with
  | nil =>
    rw [find] at h
    split_ifs at h with hn
    rw [hn]
    exact List.nil_prefix
  | cons b t ih =>
    rw [find] at h
    split_ifs at h with hp
    · obtain rfl := Option.some.inj h
      exact List.isPrefixOf_iff_prefix.mp hp
    · obtain ⟨j, hj, rfl⟩ := Option.map_eq_some_iff.mp h
      exact ih hj

theorem find_le {n t : Bytes} {i : ℕ} (h : find n t = some i) (hn : n ≠ []) :
    i + n.length ≤ t.length := by
  have hl := (prefix_of_find h).length_le
  have hpos := List.length_pos_iff.mpr hn
  rw [List.length_drop] at hl
  omega

/-- What is searched for is not found where it does not occur. -/
theorem find_eq_none_iff {n : Bytes} (hn : n ≠ []) (t : Bytes) : find n t = none ↔ ¬ n <:+: t := by
  induction t with
  | nil =>
    rw [find, if_neg hn, List.infix_nil]
    exact ⟨fun _ => hn, fun _ => rfl⟩
  | cons b t ih =>
    rw [find, List.infix_cons_iff, not_or]
    by_cases hp : n <+: b :: t
    · rw [if_pos (List.isPrefixOf_iff_prefix.mpr hp)]
      exact ⟨(fun h => by cases h), fun h => absurd hp h.1⟩
    · rw [if_neg fun h => hp (List.isPrefixOf_iff_prefix.mp h), Option.map_eq_none_iff, ih]
      exact ⟨fun h => ⟨hp, h⟩, fun h => h.2⟩

theorem strstr_isSome_iff {n : Bytes} (hn : n ≠ []) (m : Bytes) : (strstr m n).isSome ↔ n <:+: cstr m := by
  have hnone := find_eq_none_iff hn (cstr m)
  rw [strstr, ← not_iff_not, ← hnone, Bool.not_eq_true, Option.isSome_eq_false_iff, Option.isNone_iff_eq_none]

/-- What is found in a text is found in a longer one. -/
theorem find_append_left {n t : Bytes} {i : ℕ} (h : find n t = some i) (hn : n ≠ []) (u : Bytes) :
    find n (t ++ u) = some i := by
  induction t generalizing i with
  | nil =>
    rw [find, if_neg hn] at h
    cases h
  | cons b t ih =>
    rw [find] at h
    rw [List.cons_append, find]
    split_ifs at h with hp
    · have hpu : n <+: b :: (t ++ u) :=
        (List.isPrefixOf_iff_prefix.mp hp).trans (List.prefix_append (b :: t) u)
      rw [if_pos (List.isPrefixOf_iff_prefix.mpr hpu)]
      exact h
    · obtain ⟨j, hj, rfl⟩ := Option.map_eq_some_iff.mp h
      have hfit := find_le hj hn
      have hpu : ¬ n <+: b :: (t ++ u) := fun hpu =>
        hp (List.isPrefixOf_iff_prefix.mpr (List.prefix_of_prefix_length_le hpu
          (List.prefix_append (b :: t) u) (by rw [List.length_cons]; omega)))
      rw [if_neg (mt List.isPrefixOf_iff_prefix.mp hpu), ih hj]
      rfl

/-! ## Numbers -/

theorem digits_of_not_digit {b : UInt8} (hb : isDigit b = false) (acc : ℕ) (m : Bytes) :
    digits acc (b :: m) = acc := by
  rw [digits, hb]
  rfl

theorem digits_of_digit {b : UInt8} (hb : isDigit b = true) (acc : ℕ) (m : Bytes) :
    digits acc (b :: m) = digits (10 * acc + (b.toNat - 48)) m := by
  rw [digits, hb]
  rfl

/-- A numeral ends at the first byte that is no digit. -/
theorem digits_append {t : Bytes} (ht : ∀ b ∈ t, isDigit b = true) {b : UInt8}
    (hb : isDigit b = false) (acc : ℕ) (m : Bytes) : digits acc (t ++ b :: m) = digits acc t := by
  induction t generalizing acc with
  | nil => exact digits_of_not_digit hb acc m
  | cons c t ih =>
    have hc := ht c List.mem_cons_self
    rw [List.cons_append, digits_of_digit hc, digits_of_digit hc]
    exact ih (fun b hb => ht b (List.mem_cons_of_mem _ hb)) _

/-- Digits in front count with their place. -/
theorem digits_acc {t : Bytes} (ht : ∀ b ∈ t, isDigit b = true) (acc : ℕ) :
    digits acc t = acc * 10 ^ t.length + digits 0 t := by
  induction t generalizing acc with
  | nil => simp [digits]
  | cons c t ih =>
    have hc := ht c List.mem_cons_self
    have ih := ih fun b hb => ht b (List.mem_cons_of_mem _ hb)
    rw [digits_of_digit hc, digits_of_digit hc, ih, ih (10 * 0 + _), List.length_cons, pow_succ]
    ring

theorem not_space_of_digit {b : UInt8} (hb : isDigit b = true) : isSpace b = false := by
  have h : 48 ≤ b.toNat ∧ b.toNat ≤ 57 := by simpa [isDigit, UInt8.le_iff_toNat_le] using hb
  have hne : b ≠ 32 := by
    rintro rfl
    exact absurd h (by decide)
  have hgt : ¬ b ≤ 13 := by
    rw [UInt8.le_iff_toNat_le]
    change ¬ b.toNat ≤ 13
    omega
  simp [isSpace, hne, hgt]

/-- The numeral that `atol` finds behind blanks and a plus sign. -/
def leading (t : Bytes) : ℕ :=
  match t.dropWhile isSpace with
  | 43 :: r => digits 0 r
  | r => digits 0 r

theorem atol_of_minus {blanks : Bytes} (h : ∀ b ∈ blanks, isSpace b = true) (r : Bytes) :
    atol (blanks ++ 45 :: r) = max (-(digits 0 r : ℤ)) (-2147483648) ∧ leading (blanks ++ 45 :: r) = 0 := by
  have hdrop : (blanks ++ 45 :: r).dropWhile isSpace = 45 :: r := by
    rw [List.dropWhile_append_of_pos h]
    rfl
  constructor
  · rw [atol, hdrop]
    rfl
  · rw [leading, hdrop]
    exact digits_of_not_digit rfl 0 r

/-- Without a minus sign behind the blanks, the numeral itself is read, as far as it fits. -/
theorem atol_of_no_minus {t : Bytes} (h : ∀ r, t.dropWhile isSpace ≠ 45 :: r) :
    atol t = min (leading t : ℤ) 2147483647 := by
  unfold atol leading
  generalize t.dropWhile isSpace = u at h
  simp only
  split
  next r => exact absurd rfl (h r)
  next => rfl
  next hplus =>
    split
    next => exact absurd rfl (hplus _)
    next => rfl

theorem atol_cases (t : Bytes) :
    (∃ blanks r, t = blanks ++ 45 :: r ∧ ∀ b ∈ blanks, isSpace b = true) ∨
      atol t = min (leading t : ℤ) 2147483647 := by
  by_cases h : ∃ r, t.dropWhile isSpace = 45 :: r
  · obtain ⟨r, hr⟩ := h
    refine .inl ⟨t.takeWhile isSpace, r, ?_, fun b hb => List.mem_takeWhile_imp hb⟩
    rw [← hr, List.takeWhile_append_dropWhile]
  · exact .inr (atol_of_no_minus fun r hr => h ⟨r, hr⟩)

theorem atol_of_digit {b : UInt8} (hb : isDigit b = true) (m : Bytes) :
    atol (b :: m) = min (digits 0 (b :: m) : ℤ) 2147483647 := by
  have hdrop : (b :: m).dropWhile isSpace = b :: m :=
    List.dropWhile_cons_of_neg (by simp [not_space_of_digit hb])
  have hminus : b ≠ 45 := by
    rintro rfl
    cases hb
  have hplus : b ≠ 43 := by
    rintro rfl
    cases hb
  rw [atol_of_no_minus fun r hr => hminus (List.cons.inj (hdrop.symm.trans hr)).1, leading, hdrop]
  split
  next r hr => exact absurd (List.cons.inj hr).1 hplus
  next => rfl

/-! ## Reading up to a NUL -/

theorem dropWhile_append_zero {p : UInt8 → Bool} (hp : p 0 = false) (t r : Bytes) :
    (t ++ 0 :: r).dropWhile p = t.dropWhile p ++ 0 :: r := by
  induction t with
  | nil => simp [hp]
  | cons b t ih =>
    rw [List.cons_append, List.dropWhile_cons, List.dropWhile_cons, ih]
    split_ifs
    · rfl
    · rfl

theorem digits_append_zero (acc : ℕ) (t r : Bytes) : digits acc (t ++ 0 :: r) = digits acc t := by
  induction t generalizing acc with
  | nil => rfl
  | cons b t ih =>
    rw [List.cons_append, digits, digits, ih]

/-- `atol` reads no further than a NUL. -/
theorem atol_append_zero (t r : Bytes) : atol (t ++ 0 :: r) = atol t := by
  have hdrop := dropWhile_append_zero (p := isSpace) rfl t r
  unfold atol
  simp only [hdrop]
  generalize t.dropWhile isSpace = u
  cases u with
  | nil => rfl
  | cons c u =>
    have hall := digits_append_zero 0 (c :: u) r
    have htail := digits_append_zero 0 u r
    rw [List.cons_append] at hall ⊢
    by_cases h45 : c = 45
    · rw [h45]
      simp only [htail]
    by_cases h43 : c = 43
    · rw [h43]
      simp only [htail]
    simp [h45, h43, hall]

theorem peek_append_zero {t : Bytes} {i : ℕ} (h : i ≤ t.length) (r : Bytes) :
    peek (t ++ 0 :: r) i = peek t i := by
  unfold peek
  rcases Nat.lt_or_eq_of_le h with h | rfl
  · rw [List.getD_append _ _ _ _ h]
  · rw [List.getD_append_right _ _ _ _ (le_refl _), Nat.sub_self, List.getD_cons_zero,
      List.getD_eq_default _ _ (le_refl _)]

end CMemory
