import StraightHttpd.Lib.CText
import StraightHttpd.Lib.Percent
import StraightHttpd.Utils

/-! # What `URLDecode` computes

The text shrinks in place: what stands before the position of the loop is decoded, what follows it up
to the length is not yet.
-/

set_option autoImplicit false

namespace StraightHttpd
open CMemory

theorem slice_cons {m : Bytes} {i : ℕ} (n : ℕ) (hi : i < m.length) :
    slice m i (n + 1) = peek m i :: slice m (i + 1) n := by
  unfold slice peek
  rw [List.drop_eq_getElem_cons hi, List.take_succ_cons, List.getD_eq_getElem _ _ hi]

theorem take_succ_peek {m : Bytes} {i : ℕ} (hi : i < m.length) :
    m.take (i + 1) = m.take i ++ [peek m i] := by
  rw [List.take_succ_eq_append_getElem hi, peek, List.getD_eq_getElem _ _ hi]

/-- Bytes behind the written block keep their values. -/
theorem slice_poke_of_le {m : Bytes} {i k : ℕ} (data : Bytes) (n : ℕ) (hi : i ≤ m.length)
    (hk : i + data.length ≤ k) : slice (poke m i data) k n = slice m k n := by
  unfold slice
  rw [drop_poke_of_le hi hk]

/-- The text between `i` and `len` has been decoded to the position `r.2`. -/
structure Decoded (url : Bytes) (i len : ℕ) (r : Bytes × ℕ) : Prop where
  length : r.1.length = url.length
  stop : r.2 = i + (percentDecode (slice url i (len - i))).length
  text : r.1.take r.2 = url.take i ++ percentDecode (slice url i (len - i))

/-- The memory after an escape at `i` has become the byte `v`. -/
def shrunk (url : Bytes) (i len : ℕ) (v : UInt8) : Bytes :=
  poke (poke url i [v]) (i + 1) (slice (poke url i [v]) (i + 3) (len - i - 3))

theorem shrunk_spec {url : Bytes} {i len : ℕ} (hlen : len ≤ url.length) (hroom : i + 2 < len) (v : UInt8) :
    (shrunk url i len v).length = url.length ∧
      slice (shrunk url i len v) (i + 1) (len - 2 - (i + 1)) = slice url (i + 3) (len - i - 3) ∧
      (shrunk url i len v).take (i + 1) = url.take i ++ [v] := by
  have hrest : slice (poke url i [v]) (i + 3) (len - i - 3) = slice url (i + 3) (len - i - 3) :=
    slice_poke_of_le [v] _ (by omega) (by rw [List.length_singleton]; omega)
  have hlength : (slice url (i + 3) (len - i - 3)).length = len - i - 3 := by
    rw [slice, List.length_take, List.length_drop]
    omega
  have hlength₁ : (poke url i [v]).length = url.length :=
    poke_length (by rw [List.length_singleton]; omega)
  unfold shrunk
  rw [hrest]
  refine ⟨?_, ?_, ?_⟩
  · rw [poke_length (by rw [hlength]; omega), hlength₁]
  · have hpoke := slice_poke (m := poke url i [v]) (i := i + 1) (slice url (i + 3) (len - i - 3)) (by omega)
    rw [hlength] at hpoke
    rw [show len - 2 - (i + 1) = len - i - 3 by omega, hpoke]
  · rw [take_poke _ (by omega)]
    exact take_poke_add [v] (by omega)

namespace Decoded

variable {url : Bytes} {i len : ℕ} {r : Bytes × ℕ}

theorem refl (url : Bytes) (i : ℕ) : Decoded url i i (url, i) := by
  refine ⟨rfl, ?_, ?_⟩ <;> rw [Nat.sub_self] <;> simp [slice]

/-- A byte that stands for itself. -/
theorem keep (h : Decoded url (i + 1) len r) (hi : i < len) (hlen : len ≤ url.length)
    (hescaped : ∀ b c u, slice url (i + 1) (len - (i + 1)) = b :: c :: u →
      escaped (peek url i) b c = none) : Decoded url i len r := by
  have hsplit : slice url i (len - i) = peek url i :: slice url (i + 1) (len - (i + 1)) := by
    rw [show len - i = len - (i + 1) + 1 by omega, slice_cons _ (by omega)]
  have hdecode := percentDecode_cons hescaped
  refine ⟨h.length, ?_, ?_⟩
  · rw [hsplit, hdecode, h.stop, List.length_cons]
    omega
  · rw [hsplit, hdecode, h.text, take_succ_peek (by omega), List.append_assoc]
    rfl

/-- Three bytes that stand for the byte `v`. -/
theorem escape {v : UInt8} (hlen : len ≤ url.length) (hroom : i + 2 < len)
    (hescaped : escaped (peek url i) (peek url (i + 1)) (peek url (i + 2)) = some v)
    (h : Decoded (shrunk url i len v) (i + 1) (len - 2) r) : Decoded url i len r := by
  obtain ⟨hlength, hslice, htake⟩ := shrunk_spec hlen hroom v
  have hsplit : slice url i (len - i) = peek url i :: peek url (i + 1) :: peek url (i + 2) ::
      slice url (i + 3) (len - i - 3) := by
    rw [show len - i = len - i - 3 + 1 + 1 + 1 by omega, slice_cons _ (by omega), slice_cons _ (by omega),
      slice_cons _ (by omega)]
    rfl
  have hdecode := percentDecode_escape hescaped (slice url (i + 3) (len - i - 3))
  refine ⟨h.length.trans hlength, ?_, ?_⟩
  · rw [hsplit, hdecode, h.stop, hslice, List.length_cons]
    omega
  · rw [hsplit, hdecode, h.text, hslice, htake, List.append_assoc]
    rfl

end Decoded

theorem not_mem_slice_succ {m : Bytes} {i len : ℕ} (hi : i < len) (hlen : len ≤ m.length)
    (h : (0 : UInt8) ∉ slice m i (len - i)) :
    peek m i ≠ 0 ∧ (0 : UInt8) ∉ slice m (i + 1) (len - (i + 1)) := by
  rw [show len - i = len - (i + 1) + 1 by omega, slice_cons _ (by omega)] at h
  exact ⟨fun h0 => h (by simp [h0]), fun h0 => h (List.mem_cons_of_mem _ h0)⟩

/-- The loop decodes a text without NUL. -/
theorem urlDecodeLoop_decoded {n : ℕ} {url : Bytes} {i len : ℕ} (hlen : len ≤ url.length) (hi : i ≤ len)
    (hn : len - i ≤ n) (h0 : (0 : UInt8) ∉ slice url i (len - i)) :
    Decoded url i len (urlDecodeLoop n url i len) := by
  induction n generalizing url i len with
  | zero =>
    obtain rfl : i = len := by omega
    exact .refl url i
  | succ n ih =>
    by_cases hend : i = len
    · subst hend
      rw [urlDecodeLoop, if_neg (by omega)]
      exact .refl url i
    obtain ⟨hne, hrest⟩ := not_mem_slice_succ (by omega) hlen h0
    have hnext : Decoded url (i + 1) len (urlDecodeLoop n url (i + 1) len) :=
      ih hlen (by omega) (by omega) hrest
    rw [urlDecodeLoop, if_pos ⟨by omega, hne⟩]
    split_ifs with hpercent
    · obtain ⟨ha, hroom⟩ := hpercent
      have hpair : slice url (i + 1) (len - (i + 1)) =
          peek url (i + 1) :: peek url (i + 2) :: slice url (i + 3) (len - i - 3) := by
        rw [show len - (i + 1) = len - i - 3 + 1 + 1 by omega, slice_cons _ (by omega),
          slice_cons _ (by omega)]
      have hkeep (h : escaped (peek url i) (peek url (i + 1)) (peek url (i + 2)) = none) :
          Decoded url i len (urlDecodeLoop n url (i + 1) len) := by
        refine hnext.keep (by omega) hlen fun b c u hu => ?_
        rw [hpair] at hu
        injection hu with hb hu
        injection hu with hc hu
        rw [← hb, ← hc]
        exact h
      cases hb : hexValue (peek url (i + 1)) with
      | none =>
        have hb' : hex2Int (peek url (i + 1)) = none := hb
        rw [hb']
        exact hkeep (escaped_of_left hb _ _)
      | some x =>
        have hb' : hex2Int (peek url (i + 1)) = some x := hb
        cases hc : hexValue (peek url (i + 2)) with
        | none =>
          have hc' : hex2Int (peek url (i + 2)) = none := hc
          rw [hb', hc']
          exact hkeep (escaped_of_right hc _ _)
        | some y =>
          have hc' : hex2Int (peek url (i + 2)) = some y := hc
          rw [hb', hc']
          have hescaped : escaped (peek url i) (peek url (i + 1)) (peek url (i + 2)) =
              some (UInt8.ofNat (16 * x + y)) := by rw [escaped, if_pos ha, hb, hc]
          obtain ⟨hlength, hslice, -⟩ := shrunk_spec hlen hroom (UInt8.ofNat (16 * x + y))
          refine .escape hlen hroom hescaped (ih (by omega) (by omega) (by omega) ?_)
          rw [hslice]
          intro h0
          rw [hpair] at hrest
          exact hrest (List.mem_cons_of_mem _ (List.mem_cons_of_mem _ h0))
    · refine hnext.keep (by omega) hlen fun b c u hu => ?_
      by_cases ha : peek url i = 37
      · have hshort : ¬ i + 2 < len := fun hroom => hpercent ⟨ha, hroom⟩
        have hlong := congrArg List.length hu
        simp only [slice, List.length_take, List.length_drop, List.length_cons] at hlong
        omega
      · exact escaped_of_ne ha b c

/-- `URLDecode` decodes the C string in place, and returns the length of what it has decoded. -/
theorem urlDecode_spec (t rest : Bytes) (h0 : (0 : UInt8) ∉ t) :
    (urlDecode (t ++ 0 :: rest)).2 = (percentDecode t).length ∧
      (urlDecode (t ++ 0 :: rest)).1.take (percentDecode t).length = percentDecode t ∧
      (urlDecode (t ++ 0 :: rest)).1.length = (t ++ 0 :: rest).length := by
  have hlen : strlen (t ++ 0 :: rest) = t.length := by
    rw [strlen, cstr_append_zero, cstr_of_no_nul h0]
  have hslice : slice (t ++ 0 :: rest) 0 (t.length - 0) = t := by
    rw [slice, List.drop_zero, Nat.sub_zero, List.take_left]
  have h : Decoded (t ++ 0 :: rest) 0 t.length (urlDecode (t ++ 0 :: rest)) := by
    rw [urlDecode, hlen]
    refine urlDecodeLoop_decoded ?_ (Nat.zero_le _) (by omega) (by rwa [hslice])
    rw [List.length_append]
    omega
  have hstop := h.stop
  have htext := h.text
  rw [hslice, Nat.zero_add] at hstop
  rw [hslice, List.take_zero, List.nil_append, hstop] at htext
  exact ⟨hstop, htext, h.length⟩

/-- A text without `%` stays as it is. -/
theorem urlDecode_plain {url : Bytes} (h : (37 : UInt8) ∉ cstr url) : (urlDecode url).1 = url := by
  have hpeek (i : ℕ) (hi : i < strlen url) : peek url i ≠ 37 := by
    intro h37
    have hi' : i < (cstr url).length := hi
    have hget : (cstr url)[i] = peek url i := by
      have hp : cstr url <+: url := List.takeWhile_prefix _
      rw [hp.getElem hi', peek, List.getD_eq_getElem _ _ (Nat.lt_of_lt_of_le hi (strlen_le url))]
    exact h (h37 ▸ hget ▸ List.getElem_mem hi')
  have hloop (n i : ℕ) : (urlDecodeLoop n url i (strlen url)).1 = url := by
    induction n generalizing i with
    | zero => rfl
    | succ n ih =>
      rw [urlDecodeLoop]
      by_cases hi : i < strlen url ∧ peek url i ≠ 0
      · rw [if_pos hi, if_neg fun hp => hpeek i hi.1 hp.1]
        exact ih (i + 1)
      · rw [if_neg hi]
  exact hloop _ 0

/-! ## Accesses -/

/-- The loop of `URLDecode` in a region of `size` bytes; `none` for an access outside. -/
def urlDecodeWithin (size : ℕ) : ℕ → Bytes → (i len : ℕ) → Option (Bytes × ℕ)
  | 0, url, i, _ => some (url, i)
  | n + 1, url, i, len =>
    if i < len then do
      let c ← load size url i
      if c = 0 then some (url, i)
      else if c = 37 ∧ i + 2 < len then do
        let a ← load size url (i + 1)
        let b ← load size url (i + 2)
        match hex2Int a, hex2Int b with
        | some a, some b => do
          let url ← store size url i [UInt8.ofNat (16 * a + b)]
          let url ← move size url (i + 1) (i + 3) (len - i - 3)
          urlDecodeWithin size n url (i + 1) (len - 2)
        | _, _ => urlDecodeWithin size n url (i + 1) len
      else urlDecodeWithin size n url (i + 1) len
    else some (url, i)

/-- No access is outside of the text. -/
theorem urlDecodeWithin_eq {size : ℕ} (n : ℕ) (url : Bytes) (i : ℕ) {len : ℕ} (hlen : len ≤ size) :
    urlDecodeWithin size n url i len = some (urlDecodeLoop n url i len) := by
  induction n generalizing url i len with
  | zero => rfl
  | succ n ih =>
    rw [urlDecodeWithin, urlDecodeLoop]
    by_cases hi : i < len
    · rw [if_pos hi, load_eq (by omega), Option.bind_eq_bind, Option.bind_some]
      by_cases hnul : peek url i = 0
      · rw [if_pos hnul, if_neg fun h => h.2 hnul]
      have hgo : i < len ∧ peek url i ≠ 0 := ⟨hi, hnul⟩
      rw [if_neg hnul, if_pos hgo]
      by_cases hpercent : peek url i = 37 ∧ i + 2 < len
      · rw [if_pos hpercent, if_pos hpercent, Option.bind_eq_bind, load_eq (by omega), load_eq (by omega), Option.bind_some, Option.bind_some]
        cases hex2Int (peek url (i + 1)) with
        | none => exact ih url (i + 1) hlen
        | some a =>
          cases hex2Int (peek url (i + 2)) with
          | none => exact ih url (i + 1) hlen
          | some b =>
            have hone : i + [UInt8.ofNat (16 * a + b)].length ≤ size := by
              rw [List.length_singleton]
              omega
            have hto : i + 1 + (len - i - 3) ≤ size := by omega
            have hfrom : i + 3 + (len - i - 3) ≤ size := by omega
            simp only [store_eq hone, move_eq hto hfrom]
            exact ih _ (i + 1) (by omega)
      · rw [if_neg hpercent, if_neg hpercent]
        exact ih url (i + 1) hlen
    · rw [if_neg hi, if_neg fun h => hi h.1]

/-- `URLDecode` decodes every text once, takes every encoding back, and stays within the text. -/
theorem urlDecode_decodes :
    (∀ t rest : Bytes, (0 : UInt8) ∉ t →
      (urlDecode (t ++ 0 :: rest)).2 = (percentDecode t).length ∧
      (urlDecode (t ++ 0 :: rest)).1.take (percentDecode t).length = percentDecode t ∧
      urlDecodeWithin t.length t.length (t ++ 0 :: rest) 0 t.length = some (urlDecode (t ++ 0 :: rest))) ∧
    (∀ x t rest : Bytes, (0 : UInt8) ∉ x → Encodes x t →
      (urlDecode (t ++ 0 :: rest)).2 = x.length ∧ (urlDecode (t ++ 0 :: rest)).1.take x.length = x) := by
  constructor
  · intro t rest h0
    obtain ⟨hcount, htext, -⟩ := urlDecode_spec t rest h0
    have hlen : strlen (t ++ 0 :: rest) = t.length := by
      rw [strlen, cstr_append_zero, cstr_of_no_nul h0]
    refine ⟨hcount, htext, ?_⟩
    rw [urlDecodeWithin_eq _ _ _ (Nat.le_refl _), urlDecode, hlen]
  · intro x t rest hx hencodes
    obtain ⟨hcount, htext, -⟩ := urlDecode_spec t rest (hencodes.no_nul hx)
    rw [hencodes.decode] at hcount htext
    exact ⟨hcount, htext⟩

/-- A cut escape, and a percent sign that is decoded in front of two digits. -/
theorem urlDecode_decodes_percent :
    ((urlDecode (bytes "%2x%41" ++ [0])).2 = (percentDecode (bytes "%2x%41")).length ∧
      (urlDecode (bytes "%2x%41" ++ [0])).1.take (percentDecode (bytes "%2x%41")).length =
        percentDecode (bytes "%2x%41") ∧
      urlDecodeWithin 6 6 (bytes "%2x%41" ++ [0]) 0 6 = some (urlDecode (bytes "%2x%41" ++ [0]))) ∧
    (urlDecode (bytes "%2541" ++ [0])).2 = 3 ∧ (urlDecode (bytes "%2541" ++ [0])).1.take 3 = bytes "%41" :=
  ⟨urlDecode_decodes.1 (bytes "%2x%41") [] (by decide +kernel),
    urlDecode_decodes.2 (bytes "%41") (bytes "%2541") [] (by decide +kernel)
      (@encodes_percentEncode (fun b => b == 37) rfl (bytes "%41"))⟩

end StraightHttpd
