import StraightHttpd.Utils
import StraightHttpd.Lib.CText

/-! # Numbers written and read (`utils.c`)

What `%d` writes is what `ston` reads, up to the 32 bits of a `long`, and it is what `ntos` writes.
-/

set_option autoImplicit false

namespace CMemory

/-! ## Decimal digits -/

theorem isDigit_ofNat {d : ℕ} (h : d < 10) : isDigit (UInt8.ofNat (48 + d)) = true := by
  interval_cases d <;> rfl

theorem digit_value {d : ℕ} (h : d < 10) : (UInt8.ofNat (48 + d)).toNat - 48 = d := by
  interval_cases d <;> rfl

theorem natText_small {n : ℕ} (h : n < 10) : natText n = [UInt8.ofNat (48 + n)] := by
  interval_cases n <;> rfl

theorem natText_step {n : ℕ} (h : 10 ≤ n) : natText n = natText (n / 10) ++ [UInt8.ofNat (48 + n % 10)] := by
  have hn : n ≠ 0 := by omega
  have hq : n / 10 ≠ 0 := by omega
  rw [natText, if_neg hn, natText, if_neg hq, Nat.digits_def' (by decide) (Nat.pos_of_ne_zero hn),
    List.reverse_cons, List.map_append]
  rfl

theorem natText_isDigit (n : ℕ) : ∀ b ∈ natText n, isDigit b = true := by
  induction n using Nat.strong_induction_on with
  | _ n ih =>
    intro b hb
    by_cases h : n < 10
    · rw [natText_small h] at hb
      obtain rfl := List.mem_singleton.mp hb
      exact isDigit_ofNat h
    · rw [natText_step (by omega)] at hb
      rcases List.mem_append.mp hb with hb | hb
      · exact ih (n / 10) (by omega) b hb
      · obtain rfl := List.mem_singleton.mp hb
        exact isDigit_ofNat (Nat.mod_lt n (by decide))

theorem natText_ne_nil (n : ℕ) : natText n ≠ [] := by
  by_cases h : n < 10
  · rw [natText_small h]
    exact List.cons_ne_nil _ _
  · rw [natText_step (by omega)]
    exact List.append_ne_nil_of_right_ne_nil _ (List.cons_ne_nil _ _)

theorem natText_length_le {n k : ℕ} (h : n < 10 ^ (k + 1)) : (natText n).length ≤ k + 1 := by
  unfold natText
  split_ifs
  · rw [List.length_singleton]
    omega
  · rw [List.length_map, List.length_reverse]
    exact (Nat.digits_length_le_iff (by decide) n).mpr h

theorem natText_length {n : ℕ} (h : n < 1000) : (natText n).length ≤ 3 := natText_length_le h

/-- Digits are no other bytes. -/
theorem not_mem_digits {t : Bytes} (ht : ∀ b ∈ t, isDigit b = true) {c : UInt8} (hc : isDigit c = false) :
    c ∉ t := by
  intro h
  exact absurd (ht c h) (by simp [hc])

theorem digits_snoc {t : Bytes} (ht : ∀ b ∈ t, isDigit b = true) (acc : ℕ) (b : UInt8) (hb : isDigit b = true) :
    digits acc (t ++ [b]) = 10 * digits acc t + (b.toNat - 48) := by
  induction t generalizing acc with
  | nil =>
    rw [List.nil_append, digits_of_digit hb]
    rfl
  | cons c t ih =>
    have hc := ht c List.mem_cons_self
    rw [List.cons_append, digits_of_digit hc, digits_of_digit hc]
    exact ih (fun d hd => ht d (List.mem_cons_of_mem _ hd)) _

/-- The value of a numeral is bounded by its length. -/
theorem digits_lt {t : Bytes} (ht : ∀ b ∈ t, isDigit b = true) (acc : ℕ) :
    digits acc t < (acc + 1) * 10 ^ t.length := by
  induction t generalizing acc with
  | nil =>
    rw [List.length_nil, pow_zero, mul_one]
    exact Nat.lt_succ_self acc
  | cons b t ih =>
    have hb := ht b List.mem_cons_self
    have hnine : b.toNat - 48 ≤ 9 := by
      have hd : 48 ≤ b.toNat ∧ b.toNat ≤ 57 := by simpa [isDigit, UInt8.le_iff_toNat_le] using hb
      omega
    rw [digits_of_digit hb, List.length_cons]
    calc digits (10 * acc + (b.toNat - 48)) t
        < (10 * acc + (b.toNat - 48) + 1) * 10 ^ t.length := ih (fun c hc => ht c (List.mem_cons_of_mem _ hc)) _
      _ ≤ (10 * (acc + 1)) * 10 ^ t.length := Nat.mul_le_mul_right _ (by omega)
      _ = (acc + 1) * 10 ^ (t.length + 1) := by ring

/-- What is written of a number is read as the number. -/
theorem digits_natText (n : ℕ) : digits 0 (natText n) = n := by
  induction n using Nat.strong_induction_on with
  | _ n ih =>
    by_cases h : n < 10
    · rw [natText_small h, digits_of_digit (isDigit_ofNat h), digit_value h]
      exact Nat.zero_add n
    · rw [natText_step (by omega), digits_snoc (natText_isDigit _) _ _ (isDigit_ofNat (Nat.mod_lt n (by decide))),
        ih (n / 10) (by omega), digit_value (Nat.mod_lt n (by decide))]
      omega

/-! ## Texts of integers -/

/-- An optional minus sign and some digits. -/
def DecimalText (n : ℤ) (t : Bytes) : Prop :=
  ∃ ds : Bytes, ds ≠ [] ∧ (∀ b ∈ ds, isDigit b = true) ∧
    ((t = ds ∧ n = digits 0 ds) ∨ (t = 45 :: ds ∧ n = -digits 0 ds))

/-- A decimal text of which there is no shorter one. -/
structure ShortestText (n : ℤ) (t : Bytes) : Prop where
  decimal : DecimalText n t
  shortest : ∀ u, DecimalText n u → t.length ≤ u.length

/-- No numeral for a number is shorter than `natText`. -/
theorem natText_length_le_digits {ds : Bytes} (hne : ds ≠ []) (hds : ∀ b ∈ ds, isDigit b = true) :
    (natText (digits 0 ds)).length ≤ ds.length := by
  obtain ⟨k, hk⟩ := Nat.exists_eq_succ_of_ne_zero (mt List.length_eq_zero_iff.mp hne)
  have hlt := digits_lt hds 0
  rw [hk, Nat.zero_add, one_mul] at hlt
  rw [hk]
  exact natText_length_le hlt

theorem intText_shortest (n : ℤ) : ShortestText n (intText n) := by
  have hvalue := digits_natText n.natAbs
  constructor
  · refine ⟨natText n.natAbs, natText_ne_nil _, natText_isDigit _, ?_⟩
    unfold intText
    split_ifs with hn
    · refine .inr ⟨rfl, ?_⟩
      omega
    · refine .inl ⟨rfl, ?_⟩
      omega
  · rintro u ⟨ds, hne, hds, ⟨rfl, hn⟩ | ⟨rfl, hn⟩⟩
    · have hle := natText_length_le_digits hne hds
      have habs : n.natAbs = digits 0 u := by omega
      rw [intText, if_neg (by omega), habs]
      exact hle
    · have hle := natText_length_le_digits hne hds
      have habs : n.natAbs = digits 0 ds := by omega
      unfold intText
      rw [habs]
      split_ifs <;> simp only [List.length_cons] <;> omega

theorem intText_length {z : ℤ} (h : -2147483648 ≤ z ∧ z < 2147483648) : (intText z).length ≤ 11 := by
  have hlen : (natText z.natAbs).length ≤ 9 + 1 := natText_length_le (by omega)
  unfold intText
  split_ifs
  · rw [List.length_cons]
    omega
  · omega

/-! ## Digits from the highest on -/

/-- The last `k` decimal digits. -/
def fixedText : ℕ → ℕ → Bytes
  | 0, _ => []
  | k + 1, m => UInt8.ofNat (48 + m / 10 ^ k % 10) :: fixedText k m

theorem fixedText_snoc (k m : ℕ) :
    fixedText (k + 1) m = fixedText k (m / 10) ++ [UInt8.ofNat (48 + m % 10)] := by
  induction k with
  | zero => exact congrArg (fun d => [UInt8.ofNat (48 + d % 10)]) (Nat.div_one m)
  | succ k ih =>
    have hquot : m / 10 ^ (k + 1) = m / 10 / 10 ^ k := by rw [Nat.div_div_eq_div_mul, pow_succ']
    rw [fixedText, ih, hquot]
    rfl

theorem natText_eq_fixedText {k m : ℕ} (hlow : 0 < m / 10 ^ k) (hm : m < 10 ^ (k + 1)) :
    natText m = fixedText (k + 1) m := by
  induction k generalizing m with
  | zero =>
    have hm : m < 10 := hm
    rw [natText_small hm, fixedText_snoc, Nat.mod_eq_of_lt hm]
    rfl
  | succ k ih =>
    have hquot : m / 10 ^ (k + 1) = m / 10 / 10 ^ k := by rw [Nat.div_div_eq_div_mul, pow_succ']
    have hten : 10 ≤ m := by
      by_contra hlt
      have hzero : m / 10 = 0 := by omega
      rw [hquot, hzero, Nat.zero_div] at hlow
      exact lt_irrefl 0 hlow
    rw [fixedText_snoc, natText_step hten, ih (hquot ▸ hlow) (by omega)]

/-! ## Two's complement -/

theorem wrap32_of_range {n : ℤ} (h : -2147483648 ≤ n ∧ n < 2147483648) : wrap32 n = n := by
  unfold wrap32
  rw [Int.bmod_def]
  split_ifs <;> omega

theorem wrap32_range (n : ℤ) : -2147483648 ≤ wrap32 n ∧ wrap32 n < 2147483648 := by
  unfold wrap32
  rw [Int.bmod_def]
  split_ifs <;> omega

/-- Numbers that agree in their last 32 bits. -/
theorem wrap32_congr {m n : ℤ} (h : m % 2 ^ 32 = n % 2 ^ 32) : wrap32 m = wrap32 n := by
  unfold wrap32
  rw [Int.bmod_def, Int.bmod_def]
  push_cast at h ⊢
  rw [h]

theorem wrap32_emod (n : ℤ) : wrap32 n % 2 ^ 32 = n % 2 ^ 32 := by
  unfold wrap32
  rw [Int.bmod_def]
  split_ifs <;> omega

end CMemory

namespace StraightHttpd
open CMemory

/-! ## `ston` -/

/-- The accumulator of `ston` keeps the last 32 bits. -/
theorem stonDigits_wrap (t : Bytes) (n : ℕ) : stonDigits (wrap32 n) t = wrap32 (digits n t) := by
  induction t generalizing n with
  | nil => rfl
  | cons b t ih =>
    by_cases hb : isDigit b = true
    · have h48 : 48 ≤ b.toNat := by
        have hd : 48 ≤ b.toNat ∧ b.toNat ≤ 57 := by simpa [isDigit, UInt8.le_iff_toNat_le] using hb
        exact hd.1
      have hstep : wrap32 (wrap32 n * 10 + ((b.toNat : ℤ) - 48)) = wrap32 ((10 * n + (b.toNat - 48) : ℕ) : ℤ) := by
        have hn := wrap32_emod n
        refine wrap32_congr ?_
        omega
      rw [stonDigits, if_pos hb, hstep, ih, digits_of_digit hb]
    · rw [stonDigits, if_neg hb, digits_of_not_digit (by simpa using hb)]

theorem stonDigits_zero (t : Bytes) : stonDigits 0 t = wrap32 (digits 0 t) := stonDigits_wrap t 0

/-- A text that begins with a digit. -/
theorem ston_of_digit {b : UInt8} (hb : isDigit b = true) (t : Bytes) : ston (b :: t) = wrap32 (digits 0 (b :: t)) := by
  have hblank : (b == 32 || b == 9) = false := by
    have h32 : b ≠ 32 := by
      rintro rfl
      cases hb
    have h9 : b ≠ 9 := by
      rintro rfl
      cases hb
    simp [h32, h9]
  have hminus : b ≠ 45 := by
    rintro rfl
    cases hb
  have hplus : b ≠ 43 := by
    rintro rfl
    cases hb
  have hdrop : (b :: t).dropWhile (fun c => c == 32 || c == 9) = b :: t := by
    rw [List.dropWhile_cons, hblank]
    rfl
  unfold ston
  simp only [hdrop]
  have hvalue : wrap32 (1 * stonDigits 0 (b :: t)) = wrap32 (digits 0 (b :: t)) := by
    rw [one_mul, stonDigits_zero, wrap32_of_range (wrap32_range _)]
  simpa [hminus, hplus] using hvalue

/-- A numeral is read up to the first byte that is no digit. -/
theorem ston_append {t : Bytes} (ht : ∀ b ∈ t, isDigit b = true) (hne : t ≠ []) {b : UInt8} (hb : isDigit b = false)
    (m : Bytes) : ston (t ++ b :: m) = wrap32 (digits 0 t) := by
  obtain ⟨c, t, rfl⟩ := List.exists_cons_of_ne_nil hne
  rw [List.cons_append, ston_of_digit (ht c List.mem_cons_self), ← List.cons_append, digits_append ht hb]

theorem ston_digits {t : Bytes} (ht : ∀ b ∈ t, isDigit b = true) : ston t = wrap32 (digits 0 t) := by
  cases t with
  | nil => rfl
  | cons b t => exact ston_of_digit (ht b List.mem_cons_self) t

theorem ston_natText (n : ℕ) : ston (natText n) = wrap32 n := by
  rw [ston_digits (natText_isDigit n), digits_natText]

theorem ston_natText_append (n : ℕ) {b : UInt8} (hb : isDigit b = false) (m : Bytes) :
    ston (natText n ++ b :: m) = wrap32 n := by
  rw [ston_append (natText_isDigit n) (natText_ne_nil n) hb, digits_natText]

/-! ## Up to a NUL -/

theorem stonDigits_append_zero (n : ℤ) (t r : Bytes) : stonDigits n (t ++ 0 :: r) = stonDigits n t := by
  induction t generalizing n with
  | nil => rfl
  | cons b t ih =>
    rw [List.cons_append, stonDigits, stonDigits, ih]

theorem ston_append_zero (t r : Bytes) : ston (t ++ 0 :: r) = ston t := by
  have hdrop := dropWhile_append_zero (p := fun c => c == 32 || c == 9) rfl t r
  unfold ston
  simp only [hdrop]
  generalize t.dropWhile (fun c => c == 32 || c == 9) = u
  cases u with
  | nil => rfl
  | cons c u =>
    by_cases h45 : c = 45
    · rw [h45]
      cases u with
      | nil => rfl
      | cons d v =>
        by_cases h43 : d = 43
        · rw [h43]
          exact congrArg (fun n => wrap32 (-1 * n)) (stonDigits_append_zero 0 v r)
        · have hall := stonDigits_append_zero 0 (d :: v) r
          rw [List.cons_append] at hall
          simp [h43, hall]
    by_cases h43 : c = 43
    · rw [h43]
      exact congrArg (fun n => wrap32 (1 * n)) (stonDigits_append_zero 0 u r)
    · have hall := stonDigits_append_zero 0 (c :: u) r
      rw [List.cons_append] at hall ⊢
      simp [h45, h43, hall]

/-! ## `ntos` -/

theorem u32_wrap32 (n : ℤ) : u32 (wrap32 n) = u32 n := congrArg Int.toNat (wrap32_emod n)

theorem peek_digits {d : ℕ} (h : d < 10) : peek (bytes "0123456789") d = UInt8.ofNat (48 + d) := by
  interval_cases d <;> decide +kernel

/-- The text `w` stands in the memory, with `u` behind it, and the next byte goes behind `w`. -/
structure Printed (s w u : Bytes) (v : Ntos) : Prop where
  memory : v.s = poke s 0 (w ++ u)
  place : v.i = w.length

theorem ntosRound_skip {div : ℕ} {v : Ntos} (hfirst : v.first = true) (hn : u32 v.n < div) :
    ntosRound div v = v := by
  unfold ntosRound
  simp only [Nat.div_eq_of_lt hn, if_true, hfirst]

theorem u32_sub {n : ℤ} {c : ℕ} (h : c ≤ u32 n) : u32 (n - c) = u32 n - c := by
  unfold u32 at h ⊢
  omega

theorem ntosRound_write {div : ℕ} {v : Ntos} {s w u : Bytes} (h : Printed s w u v) (hu : u.length ≤ 1)
    (hdigit : u32 v.n / div < 10) (hwrite : v.first = false ∨ 0 < u32 v.n / div) :
    Printed s (w ++ [UInt8.ofNat (48 + u32 v.n / div)]) [0] (ntosRound div v) ∧
      (ntosRound div v).first = false ∧ u32 (ntosRound div v).n = u32 v.n % div := by
  have hmemory := poke_poke s w (u := u) (v := [peek (bytes "0123456789") (u32 v.n / div), 0])
    (Nat.le_succ_of_le hu)
  rw [peek_digits hdigit, ← h.memory, ← h.place] at hmemory
  have hplace : (w ++ [UInt8.ofNat (48 + u32 v.n / div)]).length = v.i + 1 := by
    rw [List.length_append, h.place]
    rfl
  have hrest : u32 v.n % div = u32 v.n - div * (u32 v.n / div) := Nat.mod_eq_sub _ _
  rcases Nat.eq_zero_or_pos (u32 v.n / div) with hzero | hpos
  · have hfirst : v.first = false := hwrite.resolve_right (by omega)
    have hround : ntosRound div v =
        { v with s := poke v.s v.i [UInt8.ofNat (48 + u32 v.n / div), 0], i := v.i + 1 } := by
      unfold ntosRound
      simp only [peek_digits hdigit, if_pos hzero, hfirst]
      rfl
    rw [hround]
    refine ⟨⟨?_, hplace.symm⟩, hfirst, ?_⟩
    · rw [List.append_assoc]
      exact hmemory
    · rw [hrest, hzero, Nat.mul_zero, Nat.sub_zero]
  · have hround : ntosRound div v = ⟨wrap32 (v.n - (div * (u32 v.n / div) : ℕ)), false, v.i + 1,
        poke v.s v.i [UInt8.ofNat (48 + u32 v.n / div), 0]⟩ := by
      unfold ntosRound
      simp only [peek_digits hdigit, if_neg (Nat.pos_iff_ne_zero.mp hpos)]
      rfl
    rw [hround]
    refine ⟨⟨?_, hplace.symm⟩, rfl, ?_⟩
    · rw [List.append_assoc]
      exact hmemory
    · rw [hrest, u32_wrap32, u32_sub (Nat.mul_div_le _ _)]

/-- From the first digit on, every digit is written. -/
theorem ntosLoop_digits {k m : ℕ} {v : Ntos} {s w u : Bytes} (h : Printed s w u v) (hu : u.length ≤ 1)
    (hfirst : v.first = false) (hn : u32 v.n = m % 10 ^ (k + 1)) :
    (ntosLoop k v).s = poke s 0 (w ++ fixedText (k + 1) m ++ [0]) := by
  induction k generalizing v w u with
  | zero =>
    have hdigit : u32 v.n / 1 = m / 10 ^ 0 % 10 := by
      rw [hn, pow_zero, Nat.div_one, Nat.div_one]
      rfl
    have hten : u32 v.n / 1 < 10 := by omega
    obtain ⟨hprinted, -, -⟩ := ntosRound_write h hu hten (.inl hfirst)
    rw [hdigit] at hprinted
    exact hprinted.memory
  | succ k ih =>
    have hdigit : u32 v.n / 10 ^ (k + 1) = m / 10 ^ (k + 1) % 10 := by
      rw [hn, pow_succ _ (k + 1), Nat.mod_mul_right_div_self]
    have hten : u32 v.n / 10 ^ (k + 1) < 10 := by omega
    obtain ⟨hprinted, hfirst, hrest⟩ := ntosRound_write h hu hten (.inl hfirst)
    rw [hn, Nat.mod_mod_of_dvd m (pow_dvd_pow 10 (Nat.le_succ _))] at hrest
    rw [hdigit] at hprinted
    rw [ntosLoop, ih hprinted (Nat.le_refl 1) hfirst hrest, List.append_assoc w]
    rfl

/-- Zeros before the first digit are not written. -/
theorem ntosLoop_text {k : ℕ} {v : Ntos} {s w : Bytes} (h : Printed s w [] v) (hfirst : v.first = true)
    (hpos : 0 < u32 v.n) (hn : u32 v.n < 10 ^ (k + 1)) :
    (ntosLoop k v).s = poke s 0 (w ++ natText (u32 v.n) ++ [0]) := by
  induction k with
  | zero =>
    have hdigit : u32 v.n / 1 = u32 v.n := Nat.div_one _
    have hten : u32 v.n < 10 := hn
    obtain ⟨hprinted, -, -⟩ := ntosRound_write h (Nat.zero_le 1) (hdigit.trans_lt hten) (.inr (hpos.trans_eq hdigit.symm))
    rw [hdigit] at hprinted
    rw [natText_small hten]
    exact hprinted.memory
  | succ k ih =>
    rcases Nat.eq_zero_or_pos (u32 v.n / 10 ^ (k + 1)) with hzero | hlow
    · have hlt : u32 v.n < 10 ^ (k + 1) := Nat.lt_of_div_eq_zero (by positivity) hzero
      rw [ntosLoop, ntosRound_skip hfirst hlt]
      exact ih hlt
    · have hdigit : u32 v.n / 10 ^ (k + 1) < 10 := Nat.div_lt_of_lt_mul hn
      obtain ⟨hprinted, hfirst, hrest⟩ := ntosRound_write h (Nat.zero_le 1) hdigit (.inr hlow)
      have htext := natText_eq_fixedText hlow hn
      rw [fixedText, Nat.mod_eq_of_lt hdigit] at htext
      rw [ntosLoop, ntosLoop_digits hprinted (Nat.le_refl 1) hfirst hrest, htext, List.append_assoc w]
      rfl

/-- `ntos` writes what `%d` writes. -/
theorem ntos_eq {n : ℤ} (hn : -2147483648 ≤ n ∧ n < 2147483648) (s : Bytes) :
    ntos n s = poke s 0 (intText n ++ [0]) := by
  have hsmall : n.natAbs < 10 ^ (9 + 1) := by omega
  unfold ntos intText
  rcases eq_or_ne n 0 with rfl | hzero
  · rfl
  rw [if_neg hzero]
  split_ifs with hneg
  · have hvalue : u32 (wrap32 (n * -1)) = n.natAbs := by
      rw [u32_wrap32, u32]
      omega
    have hprinted : Printed s [45] [] ⟨wrap32 (n * -1), true, 1, poke s 0 [45]⟩ := ⟨rfl, rfl⟩
    rw [ntosLoop_text hprinted rfl (by rw [hvalue]; omega) (hvalue.trans_lt hsmall), hvalue]
    rfl
  · have hvalue : u32 n = n.natAbs := by
      rw [u32]
      omega
    have hprinted : Printed s [] [] ⟨n, true, 0, s⟩ := ⟨(poke_nil s 0).symm, rfl⟩
    rw [ntosLoop_text hprinted rfl (by rw [hvalue]; omega) (hvalue.trans_lt hsmall), hvalue]
    rfl

theorem ston_intText {n : ℤ} (hn : -2147483648 ≤ n ∧ n < 2147483648) : ston (intText n) = n := by
  unfold intText
  split_ifs with hneg
  · obtain ⟨b, t, ht⟩ := List.exists_cons_of_ne_nil (natText_ne_nil n.natAbs)
    have hb : isDigit b = true := natText_isDigit n.natAbs b (ht ▸ List.mem_cons_self)
    have hplus : b ≠ 43 := by
      rintro rfl
      cases hb
    have hvalue : wrap32 (-1 * wrap32 (n.natAbs : ℕ)) = n := by
      have hmod := wrap32_emod (n.natAbs : ℕ)
      have hlast : wrap32 (-1 * wrap32 (n.natAbs : ℕ)) = wrap32 n := by
        refine wrap32_congr ?_
        omega
      rw [hlast, wrap32_of_range hn]
    have hdigits : stonDigits 0 (b :: t) = wrap32 (n.natAbs : ℕ) := by
      rw [stonDigits_zero, ← ht, digits_natText]
    rw [ht]
    unfold ston
    simpa [hplus, hdigits] using hvalue
  · rw [ston_natText, Int.natAbs_of_nonneg (by omega), wrap32_of_range hn]

/-- `ston` undoes `ntos`. -/
theorem ston_ntos {n : ℤ} (hn : -2147483648 ≤ n ∧ n < 2147483648) (s : Bytes) :
    ∃ t, ntos n s = poke s 0 (t ++ [0]) ∧ ShortestText n t ∧ t.length ≤ 11 ∧ ston (ntos n s) = n := by
  refine ⟨intText n, ntos_eq hn s, intText_shortest n, intText_length hn, ?_⟩
  have hmemory : poke s 0 (intText n ++ [0]) = intText n ++ 0 :: s.drop ((intText n).length + 1) := by
    rw [poke, List.take_zero, List.nil_append, List.append_assoc, Nat.zero_add, List.length_append]
    rfl
  rw [ntos_eq hn, hmemory, ston_append_zero, ston_intText hn]

/-- The number that has no counterpart without sign. -/
theorem ston_ntos_lowest : ∃ t, ntos (-2147483648) [] = poke [] 0 (t ++ [0]) ∧
    ShortestText (-2147483648) t ∧ t.length ≤ 11 ∧ ston (ntos (-2147483648) []) = -2147483648 :=
  ston_ntos (by decide) []

end StraightHttpd
