import Mathlib

/-! # Substitution of marked names

A text with names between an opening and a closing mark, each to be replaced by a value. `expand`
replaces them from left to right. Its first argument is the name read so far when the text starts
inside a mark, so that an expansion can be cut anywhere and resumed.
-/

set_option autoImplicit false

/-- An opening and a closing mark. -/
structure Marks (α : Type) where
  opening : List α
  closing : List α
  opening_ne : opening ≠ []
  closing_ne : closing ≠ []

namespace Marks

variable {α : Type} (M : Marks α)

/-! ## Well-marked texts -/

/-- Every opening mark is followed by a name of at most `n` letters and the closing mark. -/
def Closed (n : ℕ) (s : List α) : Prop :=
  ∀ pre post, s = pre ++ M.opening ++ post →
    ∃ name rest, post = name ++ M.closing ++ rest ∧ name.length ≤ n ∧ ¬ M.closing <:+: name

/-- The text starts inside a mark, and at most `n` letters lie before the closing one. -/
def Inside (n : ℕ) (s : List α) : Prop :=
  ∃ name rest, s = name ++ M.closing ++ rest ∧ name.length ≤ n ∧ ¬ M.closing <:+: name

variable {M}

theorem Closed.tail {n : ℕ} {b : α} {s : List α} (h : M.Closed n (b :: s)) : M.Closed n s := by
  rintro pre post rfl
  exact h (b :: pre) post rfl

theorem Closed.of_append {n : ℕ} {p s : List α} (h : M.Closed n (p ++ s)) : M.Closed n s := by
  rintro pre post rfl
  exact h (p ++ pre) post (by simp only [List.append_assoc])

theorem Closed.inside {n : ℕ} {s : List α} (h : M.Closed n (M.opening ++ s)) : M.Inside n s :=
  h [] s rfl

/-- Inside a mark, either the name ends here or its next letter follows. -/
theorem Inside.cons {n : ℕ} {b : α} {s : List α} (h : M.Inside n (b :: s))
    (hb : ¬ M.closing <+: b :: s) : 0 < n ∧ M.Inside (n - 1) s := by
  obtain ⟨name, rest, he, hn, hc⟩ := h
  cases name with
  | nil =>
    rw [List.nil_append] at he
    exact absurd (he ▸ List.prefix_append _ _) hb
  | cons c name =>
    obtain ⟨rfl, rfl⟩ := List.cons.inj he
    rw [List.length_cons] at hn
    exact ⟨by omega, name, rest, rfl, by omega,
      fun hi => hc (hi.trans (List.infix_cons (List.infix_refl name)))⟩

/-- It is enough to look at every position of the text. -/
theorem closed_of_positions {n : ℕ} {s : List α}
    (h : ∀ i < s.length, M.opening <+: s.drop i → M.Inside n (s.drop (i + M.opening.length))) :
    M.Closed n s := by
  rintro pre post rfl
  have hpos : 0 < M.opening.length := List.length_pos_iff.mpr M.opening_ne
  have hd : (pre ++ M.opening ++ post).drop pre.length = M.opening ++ post := by
    rw [List.append_assoc, List.drop_left]
  have hd' : (pre ++ M.opening ++ post).drop (pre.length + M.opening.length) = post := by
    rw [← List.drop_drop, hd, List.drop_left]
  have hi := h pre.length (by simp only [List.length_append]; omega)
    (by rw [hd]; exact List.prefix_append _ _)
  rwa [hd'] at hi

theorem drop_pred_length {m s : List α} (hm : m ≠ []) (b : α) :
    s.drop (m.length - 1) = (b :: s).drop m.length := by
  obtain ⟨c, m, rfl⟩ := List.exists_cons_of_ne_nil hm
  rw [List.length_cons, Nat.add_sub_cancel, List.drop_succ_cons]

/-! ## Expansion -/

section Expand

variable (M) [DecidableEq α] (value : List α → List α)

/-- The text with every marked name replaced; `name` is the part of a name already read. -/
def expand : (name : Option (List α)) → List α → List α
  | _, [] => []
  | none, b :: s =>
    if M.opening <+: b :: s then expand (some []) (s.drop (M.opening.length - 1))
    else b :: expand none s
  | some name, b :: s =>
    if M.closing <+: b :: s then value name ++ expand none (s.drop (M.closing.length - 1))
    else expand (some (name ++ [b])) s
termination_by _ s => s.length
decreasing_by all_goals (simp only [List.length_cons, List.length_drop]; omega)

variable {M value}

@[simp] theorem expand_nil (name : Option (List α)) : M.expand value name [] = [] := by
  rw [expand]

theorem expand_opening (s : List α) :
    M.expand value none (M.opening ++ s) = M.expand value (some []) s := by
  obtain ⟨b, t, h⟩ := List.exists_cons_of_ne_nil
    (List.append_ne_nil_of_left_ne_nil M.opening_ne s)
  rw [h, expand, ← h, if_pos (List.prefix_append _ _), drop_pred_length M.opening_ne b, ← h,
    List.drop_left]

theorem expand_closing (name s : List α) :
    M.expand value (some name) (M.closing ++ s) = value name ++ M.expand value none s := by
  obtain ⟨b, t, h⟩ := List.exists_cons_of_ne_nil
    (List.append_ne_nil_of_left_ne_nil M.closing_ne s)
  rw [h, expand, ← h, if_pos (List.prefix_append _ _), drop_pred_length M.closing_ne b, ← h,
    List.drop_left]

theorem expand_cons {b : α} {s : List α} (h : ¬ M.opening <+: b :: s) :
    M.expand value none (b :: s) = b :: M.expand value none s := by
  rw [expand, if_neg h]

theorem expand_name_cons {b : α} {s name : List α} (h : ¬ M.closing <+: b :: s) :
    M.expand value (some name) (b :: s) = M.expand value (some (name ++ [b])) s := by
  rw [expand, if_neg h]

/-- A text without an opening mark expands to itself. -/
theorem expand_of_no_opening {s : List α} (h : ¬ M.opening <:+: s) :
    M.expand value none s = s := by
  induction s with
  | nil => exact expand_nil none
  | cons b s ih =>
    rw [expand_cons fun hp => h hp.isInfix, ih fun hi => h (hi.trans (List.infix_cons (List.infix_refl s)))]

/-! ### Texts that are no expansion of themselves

When no value has the letter `z` of the closing mark, an expansion has fewer of them than its text
had, one for each mark that was replaced.
-/

variable {z : α}

theorem count_expand_le (hv : ∀ name, z ∉ value name) (name : Option (List α)) (s : List α) :
    (M.expand value name s).count z ≤ s.count z := by
  induction name, s using expand.induct M with
  | case1 name =>
    rw [expand_nil]
  | case2 b s hb ih =>
    rw [expand, if_pos hb]
    exact ih.trans (((List.drop_sublist _ s).cons b).count_le z)
  | case3 b s hb ih =>
    rw [expand_cons hb, List.count_cons, List.count_cons]
    omega
  | case4 name b s hb ih =>
    rw [expand, if_pos hb, List.count_append, List.count_eq_zero.mpr (hv name), Nat.zero_add]
    exact ih.trans (((List.drop_sublist _ s).cons b).count_le z)
  | case5 name b s hb ih =>
    rw [expand_name_cons hb]
    exact ih.trans ((List.sublist_cons_self b s).count_le z)

/-- The closing mark is taken out. -/
theorem count_expand_closing (hz : z ∈ M.closing) (hv : ∀ name, z ∉ value name) (name : List α)
    {s : List α} (h : M.closing <:+: s) : (M.expand value (some name) s).count z < s.count z := by
  induction s generalizing name with
  | nil => exact absurd (List.infix_nil.mp h) M.closing_ne
  | cons b s ih =>
    by_cases hb : M.closing <+: b :: s
    · obtain ⟨rest, hrest⟩ := hb
      have hle := count_expand_le (M := M) hv none rest
      have hpos := List.count_pos_iff.mpr hz
      rw [← hrest, expand_closing, List.count_append, List.count_append,
        List.count_eq_zero.mpr (hv name)]
      omega
    · rw [expand_name_cons hb]
      have hs := (List.infix_cons_iff.mp h).resolve_left hb
      exact Nat.lt_of_lt_of_le (ih _ hs) ((List.sublist_cons_self b s).count_le z)

theorem count_expand_opening (hz : z ∈ M.closing) (hv : ∀ name, z ∉ value name) {n : ℕ} {s : List α}
    (hs : M.Closed n s) (h : M.opening <:+: s) : (M.expand value none s).count z < s.count z := by
  induction s with
  | nil => exact absurd (List.infix_nil.mp h) M.opening_ne
  | cons b s ih =>
    by_cases hb : M.opening <+: b :: s
    · obtain ⟨post, hpost⟩ := hb
      rw [← hpost] at hs ⊢
      obtain ⟨name, rest, hend, -⟩ := hs.inside
      have hclosing : M.closing <:+: post := ⟨name, rest, hend.symm⟩
      have hlt := count_expand_closing hz hv [] hclosing
      rw [expand_opening, List.count_append]
      omega
    · have hlt := ih hs.tail ((List.infix_cons_iff.mp h).resolve_left hb)
      rw [expand_cons hb, List.count_cons, List.count_cons]
      omega

/-- Inside a mark a text expands to another one. -/
theorem Inside.expand_ne (hz : z ∈ M.closing) (hv : ∀ name, z ∉ value name) {n : ℕ} {name s : List α}
    (h : M.Inside n s) : M.expand value (some name) s ≠ s := by
  obtain ⟨letters, rest, hs, -⟩ := h
  intro he
  have hlt := count_expand_closing hz hv name ⟨letters, rest, hs.symm⟩
  rw [he] at hlt
  exact Nat.lt_irrefl _ hlt

/-- So does a text with a mark. -/
theorem Closed.expand_ne (hz : z ∈ M.closing) (hv : ∀ name, z ∉ value name) {n : ℕ} {s : List α}
    (hs : M.Closed n s) (h : M.opening <:+: s) : M.expand value none s ≠ s := by
  intro he
  have hlt := count_expand_opening hz hv hs h
  rw [he] at hlt
  exact Nat.lt_irrefl _ hlt

end Expand

end Marks
