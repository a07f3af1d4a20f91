import StraightHttpd.Lib.Percent

/-! # Chunked bodies

A chunk is its size in hexadecimal, a line end, its bytes and a line end. A chunk of size zero and an
empty line end the body.
-/

set_option autoImplicit false

namespace CMemory

/-! ## Hexadecimal numerals -/

/-- The value of a numeral behind another of value `acc`. -/
def hexNumber (acc : ℕ) : Bytes → Option ℕ
  | [] => some acc
  | b :: t => (hexValue b).bind fun d => hexNumber (16 * acc + d) t

/-- One digit or more, leading zeros allowed. -/
def HexNumeral (s : Bytes) (n : ℕ) : Prop := s ≠ [] ∧ hexNumber 0 s = some n

theorem hexNumber_snoc (acc : ℕ) (s : Bytes) (b : UInt8) : hexNumber acc (s ++ [b]) =
    (hexNumber acc s).bind fun n => (hexValue b).map fun d => 16 * n + d := by
  induction s generalizing acc with
  | nil =>
    simp only [List.nil_append, hexNumber, Option.bind_some]
    cases hexValue b <;> rfl
  | cons c s ih =>
    rw [List.cons_append, hexNumber, hexNumber]
    cases hexValue c with
    | none => rfl
    | some d => exact ih (16 * acc + d)

/-- A byte that is no digit is in no numeral. -/
theorem not_mem_hexNumber {c : UInt8} (hc : hexValue c = none) {s : Bytes} {acc n : ℕ}
    (h : hexNumber acc s = some n) : c ∉ s := by
  induction s generalizing acc with
  | nil => exact List.not_mem_nil
  | cons b s ih =>
    rw [hexNumber] at h
    cases hb : hexValue b with
    | none =>
      rw [hb] at h
      cases h
    | some d =>
      rw [hb] at h
      have hne : c ≠ b := by
        rintro rfl
        rw [hc] at hb
        cases hb
      exact List.not_mem_cons_of_ne_of_not_mem hne (ih h)

theorem hexText_small {n : ℕ} (h : n < 16) : hexText n = [hexDigit n] := by
  interval_cases n <;> rfl

theorem hexText_step {n : ℕ} (h : 16 ≤ n) : hexText n = hexText (n / 16) ++ [hexDigit (n % 16)] := by
  have hn : n ≠ 0 := by omega
  have hq : n / 16 ≠ 0 := by omega
  rw [hexText, if_neg hn, hexText, if_neg hq, Nat.digits_def' (by decide) (Nat.pos_of_ne_zero hn),
    List.reverse_cons, List.map_append]
  rfl

/-- `%X` writes a numeral of the number. -/
theorem hexText_numeral (n : ℕ) : HexNumeral (hexText n) n := by
  induction n using Nat.strong_induction_on with
  | _ n ih =>
    by_cases h : n < 16
    · rw [hexText_small h]
      refine ⟨List.cons_ne_nil _ _, ?_⟩
      rw [hexNumber, hexValue_hexDigit h]
      exact congrArg some (Nat.zero_add n)
    · obtain ⟨-, hvalue⟩ := ih (n / 16) (by omega)
      rw [hexText_step (by omega)]
      refine ⟨List.append_ne_nil_of_right_ne_nil _ (List.cons_ne_nil _ _), ?_⟩
      rw [hexNumber_snoc, hvalue, hexValue_hexDigit (Nat.mod_lt n (by decide))]
      exact congrArg some (Nat.div_add_mod n 16)

end CMemory

/-! ## Bodies -/

namespace Chunked

open CMemory

def lineEnd : Bytes := [13, 10]

/-- The text `t` is a chunked body of the bytes `x`. -/
inductive Spells : Bytes → Bytes → Prop
  | last {s : Bytes} (hs : HexNumeral s 0) : Spells (s ++ (lineEnd ++ lineEnd)) []
  | chunk {s d t x : Bytes} (hs : HexNumeral s d.length) (hd : d ≠ []) (ht : Spells t x) :
      Spells (s ++ (lineEnd ++ (d ++ (lineEnd ++ t)))) (d ++ x)

/-- The size of a chunk and its bytes, without the line end behind it. -/
def chunkText (d : Bytes) : Bytes := hexText d.length ++ (lineEnd ++ d)

/-- Chunks with line ends between them. -/
def chunksText : List Bytes → Bytes
  | [] => []
  | [d] => chunkText d
  | d :: ds => chunkText d ++ (lineEnd ++ chunksText ds)

theorem chunksText_cons (d : Bytes) {ds : List Bytes} (h : ds ≠ []) :
    chunksText (d :: ds) = chunkText d ++ (lineEnd ++ chunksText ds) := by
  cases ds with
  | nil => exact absurd rfl h
  | cons e ds => rfl

theorem chunksText_snoc {ds : List Bytes} (h : ds ≠ []) (d : Bytes) :
    chunksText (ds ++ [d]) = chunksText ds ++ (lineEnd ++ chunkText d) := by
  induction ds with
  | nil => exact absurd rfl h
  | cons e ds ih =>
    by_cases hds : ds = []
    · rw [hds]
      rfl
    · have hmore : ds ++ [d] ≠ [] := List.append_ne_nil_of_left_ne_nil hds _
      rw [List.cons_append, chunksText_cons e hmore, chunksText_cons e hds, ih hds, List.append_assoc,
        List.append_assoc]

/-- Texts that are equal are cut alike at the first `c`. -/
theorem cut_eq {c : UInt8} {s s' r r' : Bytes} (hs : c ∉ s) (hs' : c ∉ s') (h : s ++ c :: r = s' ++ c :: r') :
    s = s' ∧ r = r' := by
  induction s generalizing s' with
  | nil =>
    cases s' with
    | nil => exact ⟨rfl, (List.cons.inj h).2⟩
    | cons b s' => exact absurd ((List.cons.inj h).1 ▸ List.mem_cons_self) hs'
  | cons b s ih =>
    cases s' with
    | nil => exact absurd ((List.cons.inj h).1 ▸ List.mem_cons_self) hs
    | cons b' s' =>
      obtain ⟨rfl, hrest⟩ := List.cons.inj h
      obtain ⟨rfl, hr⟩ := ih (fun hc => hs (List.mem_cons_of_mem _ hc))
        (fun hc => hs' (List.mem_cons_of_mem _ hc)) hrest
      exact ⟨rfl, hr⟩

/-- A numeral is told from the line end behind it. -/
theorem numeral_split {s s' r r' : Bytes} {n n' : ℕ} (hs : HexNumeral s n) (hs' : HexNumeral s' n')
    (h : s ++ (lineEnd ++ r) = s' ++ (lineEnd ++ r')) : s = s' ∧ n = n' ∧ r = r' := by
  have hcr : (13 : UInt8) ∉ s := not_mem_hexNumber rfl hs.2
  have hcr' : (13 : UInt8) ∉ s' := not_mem_hexNumber rfl hs'.2
  obtain ⟨rfl, hrest⟩ := cut_eq hcr hcr' h
  have hvalue := hs.2.symm.trans hs'.2
  exact ⟨rfl, Option.some.inj hvalue, (List.cons.inj hrest).2⟩

theorem Spells.head {t x : Bytes} (h : Spells t x) : ∃ b u, t = b :: u ∧ b ≠ 13 := by
  have hnumeral {s : Bytes} {n : ℕ} (hs : HexNumeral s n) (r : Bytes) : ∃ b u, s ++ r = b :: u ∧ b ≠ 13 := by
    obtain ⟨hne, hvalue⟩ := hs
    obtain ⟨b, s, rfl⟩ := List.exists_cons_of_ne_nil hne
    have hcr : (13 : UInt8) ∉ b :: s := not_mem_hexNumber rfl hvalue
    exact ⟨b, s ++ r, rfl, fun hb => hcr (hb ▸ List.mem_cons_self)⟩
  cases h with
  | last hs => exact hnumeral hs _
  | chunk hs _ _ => exact hnumeral hs _

/-- Behind the bytes of a chunk there is a line end and another body. -/
theorem spells_chunk_iff {d u y : Bytes} (hd : d ≠ []) : Spells (chunkText d ++ u) y ↔
    ∃ t x, u = lineEnd ++ t ∧ y = d ++ x ∧ Spells t x := by
  have hs := hexText_numeral d.length
  constructor
  · intro h
    generalize htext : chunkText d ++ u = text at h
    rw [chunkText, List.append_assoc, List.append_assoc] at htext
    cases h with
    | last hs' =>
      obtain ⟨-, hzero, -⟩ := numeral_split hs hs' htext
      exact absurd (List.length_eq_zero_iff.mp hzero) hd
    | @chunk s' d' t x hs' _ ht =>
      obtain ⟨-, hlength, hrest⟩ := numeral_split hs hs' htext
      obtain ⟨rfl, rfl⟩ := List.append_inj hrest hlength
      exact ⟨t, x, rfl, rfl, ht⟩
  · rintro ⟨t, x, rfl, rfl, ht⟩
    rw [chunkText, List.append_assoc, List.append_assoc]
    exact .chunk hs hd ht

/-- Behind some chunks there is a line end and another body. -/
theorem spells_chunks_iff {ds : List Bytes} (hds : ∀ d ∈ ds, d ≠ []) (hne : ds ≠ []) {u y : Bytes} :
    Spells (chunksText ds ++ u) y ↔ ∃ t x, u = lineEnd ++ t ∧ y = ds.flatten ++ x ∧ Spells t x := by
  induction ds generalizing y with
  | nil => exact absurd rfl hne
  | cons d ds ih =>
    have hd := hds d List.mem_cons_self
    have hrest := fun e he => hds e (List.mem_cons_of_mem _ he)
    by_cases hlast : ds = []
    · rw [hlast, chunksText, spells_chunk_iff hd, List.flatten_singleton]
    rw [chunksText_cons d hlast, List.append_assoc, List.append_assoc, spells_chunk_iff hd, List.flatten_cons]
    constructor
    · rintro ⟨t, x, ht, rfl, h⟩
      rw [← List.append_cancel_left ht] at h
      obtain ⟨t', x', rfl, rfl, hbody⟩ := (ih hrest hlast).mp h
      exact ⟨t', x', rfl, (List.append_assoc _ _ _).symm, hbody⟩
    · rintro ⟨t, x, rfl, rfl, h⟩
      have hbody := (ih hrest hlast).mpr ⟨t, x, rfl, rfl, h⟩
      exact ⟨chunksText ds ++ (lineEnd ++ t), ds.flatten ++ x, rfl, List.append_assoc _ _ _, hbody⟩

end Chunked
