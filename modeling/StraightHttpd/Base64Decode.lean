import StraightHttpd.Lib.Base64
import StraightHttpd.Lib.CText
import StraightHttpd.Lib.Loop
import StraightHttpd.Utils

/-! # What `DecodeB64` computes

Every complete group is written over the beginning of the text. The text is read faster than it is
written, so that the part not yet read stays as it was.
-/

set_option autoImplicit false

namespace StraightHttpd
open CMemory
open Base64 (Unpacking letter sextets tailBytes unpack word)

/-! ## The loop round by round -/

/-- The variables of `DecodeB64`. -/
structure B64 where
  data : Bytes
  i : ℕ
  resultCount : ℕ
  validCount : ℕ
  convered : ℕ

namespace B64

def start (data : Bytes) : B64 := ⟨data, 0, 0, 0, 0⟩

/-- What the loop leaves behind. -/
def left (v : B64) : Bytes × Option (ℕ × ℕ × ℕ) := (v.data, some (v.resultCount, v.validCount, v.convered))

/-- The next six bits. -/
def push (v : B64) (value : ℕ) : B64 :=
  let convered := v.convered * 64 + value
  if (v.validCount + 1) % 4 = 0 then
    { data := poke v.data v.resultCount [UInt8.ofNat (convered / 65536), UInt8.ofNat (convered / 256),
        UInt8.ofNat convered]
      i := v.i + 1
      resultCount := v.resultCount + 3
      validCount := v.validCount + 1
      convered := 0 }
  else { v with i := v.i + 1, validCount := v.validCount + 1, convered := convered }

/-- A round of the loop of `DecodeB64`. -/
def round (v : B64) : B64 ⊕ (Bytes × Option (ℕ × ℕ × ℕ)) :=
  let c := peek v.data v.i
  if c = 0 then .inr v.left
  else if c = 13 ∨ c = 10 ∨ c = 61 then .inl { v with i := v.i + 1 }
  else match b64Value c with
    | none => .inr (v.data, none)
    | some value => .inl (v.push value)

/-- The loop is what its rounds make of it. -/
theorem decodeB64Loop_of_run {n : ℕ} {v : B64} {r : Bytes × Option (ℕ × ℕ × ℕ)}
    (h : Loop.run round n v = some r) :
    decodeB64Loop n v.data v.i v.resultCount v.validCount v.convered = r := by
  induction n generalizing v with
  | zero => cases h
  | succ n ih =>
    rw [Loop.run] at h
    rw [decodeB64Loop]
    unfold round at h
    by_cases hend : peek v.data v.i = 0
    · simp only [if_pos hend] at h ⊢
      exact Option.some.inj h
    simp only [if_neg hend] at h ⊢
    by_cases hskip : peek v.data v.i = 13 ∨ peek v.data v.i = 10 ∨ peek v.data v.i = 61
    · simp only [if_pos hskip] at h ⊢
      exact ih h
    simp only [if_neg hskip] at h ⊢
    cases hvalue : b64Value (peek v.data v.i) with
    | none =>
      simp only [hvalue] at h ⊢
      exact Option.some.inj h
    | some value =>
      simp only [hvalue] at h ⊢
      have hnext := ih h
      unfold push at hnext
      split_ifs at hnext ⊢ with hgroup
      · exact hnext
      · exact hnext

end B64

/-! ## Values -/

/-- Line ends and padding are passed over. -/
def Ignored (c : UInt8) : Prop := c = 13 ∨ c = 10 ∨ c = 61

instance (c : UInt8) : Decidable (Ignored c) := inferInstanceAs (Decidable (_ ∨ _ ∨ _))

/-- The bits of the characters of a text, unless there is a bad one. -/
def b64Values (t : Bytes) : Option (List ℕ) := (t.filter fun c => !decide (Ignored c)).mapM b64Value

theorem b64Values_ignored {c : UInt8} (hc : Ignored c) (t : Bytes) : b64Values (c :: t) = b64Values t := by
  unfold b64Values
  rw [List.filter_cons_of_neg (by simpa using hc)]

theorem b64Values_cons {c : UInt8} (hc : ¬ Ignored c) (t : Bytes) :
    b64Values (c :: t) = (b64Value c).bind fun d => (b64Values t).map (d :: ·) := by
  unfold b64Values
  rw [List.filter_cons_of_pos (by simpa using hc), List.mapM_cons]
  cases b64Value c with
  | none => rfl
  | some d =>
    cases (t.filter fun c => !decide (Ignored c)).mapM b64Value <;> rfl

/-! ## What is read and what is written -/

/-- The text `q` is still to be read, what was read before has been unpacked to `a`. -/
structure Unread (v : B64) (a : Unpacking) (q rest : Bytes) : Prop where
  unread : v.data.drop v.i = q ++ 0 :: rest
  written : v.data.take v.resultCount = a.done
  count : v.resultCount = a.done.length
  valid : v.validCount % 4 = a.part.length
  bits : v.convered = word a.part
  room : v.resultCount + a.part.length ≤ v.i

namespace Unread

variable {v : B64} {a : Unpacking} {c : UInt8} {q rest : Bytes}

theorem start (t rest : Bytes) : Unread (.start (t ++ 0 :: rest)) ⟨[], []⟩ t rest :=
  ⟨rfl, rfl, rfl, rfl, rfl, Nat.le_refl 0⟩

theorem lt_length (h : Unread v a q rest) : v.i < v.data.length := by
  have hlength := congrArg List.length h.unread
  simp only [List.length_drop, List.length_append, List.length_cons] at hlength
  omega

theorem part_lt (h : Unread v a q rest) : a.part.length < 4 := by
  have hvalid := h.valid
  omega

theorem peek_eq (h : Unread v a (c :: q) rest) : peek v.data v.i = c := by
  have hhead : (v.data.drop v.i)[0]? = some c := by rw [h.unread]; rfl
  rw [List.getElem?_drop, Nat.add_zero] at hhead
  rw [peek, List.getD_eq_getElem?_getD, hhead]
  rfl

theorem peek_end (h : Unread v a [] rest) : peek v.data v.i = 0 := by
  have hhead : (v.data.drop v.i)[0]? = some 0 := by rw [h.unread]; rfl
  rw [List.getElem?_drop, Nat.add_zero] at hhead
  rw [peek, List.getD_eq_getElem?_getD, hhead]
  rfl

theorem drop_succ (h : Unread v a (c :: q) rest) : v.data.drop (v.i + 1) = q ++ 0 :: rest := by
  rw [← List.drop_drop, h.unread]
  rfl

theorem skip (h : Unread v a (c :: q) rest) : Unread { v with i := v.i + 1 } a q rest :=
  ⟨h.drop_succ, h.written, h.count, h.valid, h.bits, Nat.le_succ_of_le h.room⟩

theorem push (h : Unread v a (c :: q) rest) (d : ℕ) : Unread (v.push d) (a.push d) q rest := by
  have hplace := h.lt_length
  have hcount := h.count
  have hvalid := h.valid
  have hroom := h.room
  have hword : v.convered * 64 + d = word (a.part ++ [d]) := by rw [h.bits, Base64.word_snoc]
  by_cases hfull : a.part.length = 3
  · -- the group is complete, and the characters of it have been read
    have hgroup : (v.validCount + 1) % 4 = 0 := by omega
    have hv : v.push d = ⟨poke v.data v.resultCount (Base64.groupBytes (a.part ++ [d])), v.i + 1,
        v.resultCount + 3, v.validCount + 1, 0⟩ := by
      unfold B64.push
      simp only [if_pos hgroup, hword]
      rfl
    have ha : a.push d = ⟨a.done ++ Base64.groupBytes (a.part ++ [d]), []⟩ := if_pos hfull
    have hlength : (Base64.groupBytes (a.part ++ [d])).length = 3 := rfl
    have hbehind : v.resultCount + (Base64.groupBytes (a.part ++ [d])).length ≤ v.i + 1 := by
      rw [hlength]
      omega
    rw [hv, ha]
    refine ⟨?_, ?_, ?_, hgroup, rfl, ?_⟩
    · exact (drop_poke_of_le (by omega) hbehind).trans h.drop_succ
    · rw [← hlength, take_poke_add _ (by omega), h.written]
    · rw [List.length_append, hlength, hcount]
    · rw [hfull] at hroom
      exact Nat.le_succ_of_le hroom
  · have hlt := h.part_lt
    have hgroup : ¬ (v.validCount + 1) % 4 = 0 := by omega
    have hmore : (v.validCount + 1) % 4 = a.part.length + 1 := by omega
    have hnext : v.resultCount + (a.part.length + 1) ≤ v.i + 1 := by omega
    have hlength : (a.part ++ [d]).length = a.part.length + 1 := by
      rw [List.length_append, List.length_singleton]
    have hv : v.push d = { v with i := v.i + 1, validCount := v.validCount + 1, convered := word (a.part ++ [d]) } := by
      unfold B64.push
      simp only [if_neg hgroup, hword]
    have ha : a.push d = ⟨a.done, a.part ++ [d]⟩ := if_neg hfull
    rw [hv, ha]
    exact ⟨h.drop_succ, h.written, hcount, hmore.trans hlength.symm, rfl, hlength ▸ hnext⟩

/-- What a round does with the next character. -/
theorem round_ignored (h : Unread v a (c :: q) rest) (h0 : c ≠ 0) (hc : Ignored c) :
    v.round = .inl { v with i := v.i + 1 } := by
  unfold B64.round
  simp only [h.peek_eq, if_neg h0]
  exact if_pos hc

theorem round_value (h : Unread v a (c :: q) rest) (h0 : c ≠ 0) (hc : ¬ Ignored c) {d : ℕ}
    (hd : b64Value c = some d) : v.round = .inl (v.push d) := by
  unfold B64.round
  simp only [h.peek_eq, if_neg h0, hd]
  exact if_neg hc

theorem round_bad (h : Unread v a (c :: q) rest) (h0 : c ≠ 0) (hc : ¬ Ignored c)
    (hd : b64Value c = none) : v.round = .inr (v.data, none) := by
  unfold B64.round
  simp only [h.peek_eq, if_neg h0, hd]
  exact if_neg hc

theorem round_end (h : Unread v a [] rest) : v.round = .inr v.left := by
  unfold B64.round
  simp only [h.peek_end, if_true]

/-- A round keeps the account of what is written and what is read. -/
theorem again (h : Unread v a q rest) (h0 : (0 : UInt8) ∉ q) {w : B64} (hw : Loop.Again B64.round v w) :
    ∃ b c u, q = c :: u ∧ Unread w b u rest := by
  have hw : v.round = .inl w := hw
  cases q with
  | nil =>
    rw [h.round_end] at hw
    cases hw
  | cons c q =>
    have hne : c ≠ 0 := fun hc => h0 (by simp [hc])
    by_cases hc : Ignored c
    · rw [h.round_ignored hne hc] at hw
      obtain rfl := Sum.inl.inj hw
      exact ⟨a, c, q, rfl, h.skip⟩
    · cases hd : b64Value c with
      | none =>
        rw [h.round_bad hne hc hd] at hw
        cases hw
      | some d =>
        rw [h.round_value hne hc hd] at hw
        obtain rfl := Sum.inl.inj hw
        exact ⟨a.push d, c, q, rfl, h.push d⟩

/-- Wherever the loop gets, it has not written more than it has read. -/
theorem visits (h : Unread v a q rest) (h0 : (0 : UInt8) ∉ q) {w : B64} (hw : Loop.Visits B64.round v w) :
    w.resultCount ≤ w.i := by
  have hkept : ∃ b u, (0 : UInt8) ∉ u ∧ Unread w b u rest := by
    refine hw.keep (P := fun s => ∃ b u, (0 : UInt8) ∉ u ∧ Unread s b u rest) ?_ ⟨a, q, h0, h⟩
    rintro s t ⟨b, u, hu, hs⟩ hst
    obtain ⟨b', c, u', rfl, ht⟩ := hs.again hu hst
    exact ⟨b', u', fun hmem => hu (List.mem_cons_of_mem _ hmem), ht⟩
  obtain ⟨b, u, -, hunread⟩ := hkept
  have hroom := hunread.room
  omega

/-- A bad character ends the loop. -/
theorem run_bad {n : ℕ} (h : Unread v a q rest) (h0 : (0 : UInt8) ∉ q) (hn : q.length < n)
    (hbad : b64Values q = none) : ∃ m, Loop.run B64.round n v = some (m, none) := by
  induction q generalizing v a n with
  | nil => cases hbad
  | cons c q ih =>
    have hne : c ≠ 0 := fun hc => h0 (by simp [hc])
    have hrest : (0 : UInt8) ∉ q := fun hmem => h0 (List.mem_cons_of_mem _ hmem)
    cases n with
    | zero => exact absurd hn (Nat.not_lt_zero _)
    | succ n =>
      have hn : q.length < n := Nat.lt_of_succ_lt_succ hn
      rw [Loop.run]
      by_cases hc : Ignored c
      · rw [h.round_ignored hne hc]
        rw [b64Values_ignored hc] at hbad
        exact ih h.skip hrest hn hbad
      · rw [b64Values_cons hc] at hbad
        cases hd : b64Value c with
        | none =>
          rw [h.round_bad hne hc hd]
          exact ⟨v.data, rfl⟩
        | some d =>
          rw [h.round_value hne hc hd]
          rw [hd, Option.bind_some, Option.map_eq_none_iff] at hbad
          exact ih (h.push d) hrest hn hbad

/-- The loop unpacks the values that it reads. -/
theorem run_values {n : ℕ} {vs : List ℕ} (h : Unread v a q rest) (h0 : (0 : UInt8) ∉ q) (hn : q.length < n)
    (hvs : b64Values q = some vs) : ∃ w b, Loop.run B64.round n v = some w.left ∧
      Unread w b [] rest ∧ b.total [] = a.total vs ∧ w.i = v.i + q.length := by
  induction q generalizing v a n vs with
  | nil =>
    obtain rfl := Option.some.inj hvs
    cases n with
    | zero => exact absurd hn (Nat.not_lt_zero _)
    | succ n =>
      refine ⟨v, a, ?_, h, rfl, rfl⟩
      rw [Loop.run, h.round_end]
  | cons c q ih =>
    have hne : c ≠ 0 := fun hc => h0 (by simp [hc])
    have hrest : (0 : UInt8) ∉ q := fun hmem => h0 (List.mem_cons_of_mem _ hmem)
    cases n with
    | zero => exact absurd hn (Nat.not_lt_zero _)
    | succ n =>
      have hn : q.length < n := Nat.lt_of_succ_lt_succ hn
      rw [Loop.run]
      by_cases hc : Ignored c
      · rw [h.round_ignored hne hc]
        rw [b64Values_ignored hc] at hvs
        obtain ⟨w, b, hrun, hw, htotal, hi⟩ := ih h.skip hrest hn hvs
        have hplace : v.i + 1 + q.length = v.i + (q.length + 1) := by omega
        exact ⟨w, b, hrun, hw, htotal, hi.trans hplace⟩
      · rw [b64Values_cons hc] at hvs
        cases hd : b64Value c with
        | none =>
          rw [hd] at hvs
          cases hvs
        | some d =>
          rw [h.round_value hne hc hd]
          rw [hd, Option.bind_some, Option.map_eq_some_iff] at hvs
          obtain ⟨us, hus, rfl⟩ := hvs
          obtain ⟨w, b, hrun, hw, htotal, hi⟩ := ih (h.push d) hrest hn hus
          have hread : (v.push d).i = v.i + 1 := by
            unfold B64.push
            split_ifs <;> rfl
          have hplace : (v.push d).i + q.length = v.i + (q.length + 1) := by omega
          exact ⟨w, b, hrun, hw, htotal.trans (a.push_total d us), hi.trans hplace⟩

end Unread

/-! ## The result -/

theorem decodeB64_bad {t : Bytes} (h0 : (0 : UInt8) ∉ t) (hbad : b64Values t = none) (rest : Bytes) :
    (decodeB64 (t ++ 0 :: rest)).2 = 0 := by
  have hfuel : t.length < (t ++ 0 :: rest).length := by
    rw [List.length_append, List.length_cons]
    omega
  obtain ⟨m, hrun⟩ := (Unread.start t rest).run_bad h0 hfuel hbad
  have hloop : decodeB64Loop (t ++ 0 :: rest).length (t ++ 0 :: rest) 0 0 0 0 = (m, none) :=
    B64.decodeB64Loop_of_run hrun
  rw [decodeB64, hloop]

/-- The bytes of the values, and a NUL. -/
theorem decodeB64_values {t : Bytes} {vs : List ℕ} (h0 : (0 : UInt8) ∉ t) (hvs : b64Values t = some vs)
    (rest : Bytes) : (decodeB64 (t ++ 0 :: rest)).2 = (unpack vs).length ∧
      (decodeB64 (t ++ 0 :: rest)).1.take ((unpack vs).length + 1) = unpack vs ++ [0] ∧
      (unpack vs).length ≤ t.length := by
  have hfuel : t.length < (t ++ 0 :: rest).length := by
    rw [List.length_append, List.length_cons]
    omega
  obtain ⟨w, b, hrun, hw, htotal, hi⟩ := (Unread.start t rest).run_values h0 hfuel hvs
  have hloop : decodeB64Loop (t ++ 0 :: rest).length (t ++ 0 :: rest) 0 0 0 0 = w.left :=
    B64.decodeB64Loop_of_run hrun
  have htail : b.done ++ tailBytes b.part = unpack vs := by
    have hb : b.total [] = b.done ++ tailBytes b.part := by
      rw [Unpacking.total, List.append_nil, Base64.unpack_of_short hw.part_lt]
    rw [← hb, htotal]
    rfl
  have hresult : decodeB64 (t ++ 0 :: rest) = (poke w.data w.resultCount (tailBytes b.part ++ [0]),
      w.resultCount + (tailBytes b.part).length) := by
    rw [decodeB64, hloop]
    simp only [B64.left, hw.valid, hw.bits]
    rfl
  have hcount : w.resultCount + (tailBytes b.part).length = (unpack vs).length := by
    rw [hw.count, ← htail, List.length_append]
  have hplace := hw.lt_length
  have hroom := hw.room
  have hpart := Base64.tailBytes_length b.part
  have hstart : w.i = t.length := hi.trans (Nat.zero_add _)
  rw [hresult]
  refine ⟨hcount, ?_, ?_⟩
  · have htake := @take_poke_add w.data w.resultCount (tailBytes b.part ++ [0]) (by omega)
    rw [List.length_append, List.length_singleton, ← Nat.add_assoc, hcount] at htake
    rw [htake, hw.written, ← List.append_assoc, htail]
  · omega

/-! ## Encoded texts -/

theorem b64Value_letter {d : ℕ} (h : d < 64) : b64Value (letter d) = some d := by
  have hall : ∀ e < 64, b64Value (letter e) = some e := by decide +kernel
  exact hall d h

theorem letter_not_ignored {d : ℕ} (h : d < 64) : ¬ Ignored (letter d) ∧ letter d ≠ 0 := by
  have hall : ∀ e < 64, ¬ Ignored (letter e) ∧ letter e ≠ 0 := by decide +kernel
  exact hall d h

theorem mapM_letter {vs : List ℕ} (h : ∀ d ∈ vs, d < 64) : (vs.map letter).mapM b64Value = some vs := by
  induction vs with
  | nil => rfl
  | cons d vs ih =>
    rw [List.map_cons, List.mapM_cons, b64Value_letter (h d List.mem_cons_self),
      ih fun e he => h e (List.mem_cons_of_mem _ he)]
    rfl

/-- A text with the line ends taken out. -/
def withoutLineEnds (t : Bytes) : Bytes := t.filter fun c => !(c == 13 || c == 10)

/-- The characters of an encoded text, without padding, have the values that were encoded. -/
theorem b64Values_encode {t x : Bytes} (ht : withoutLineEnds t = Base64.encode x) : b64Values t = some (sextets x) := by
  have hsplit : (t.filter fun c => !decide (Ignored c)) = (withoutLineEnds t).filter (fun c => c != 61) := by
    rw [withoutLineEnds, List.filter_filter]
    congr 1
    funext c
    rw [Bool.eq_iff_iff, Bool.not_eq_true', decide_eq_false_iff_not]
    simp only [Ignored, Bool.not_eq_true', Bool.and_eq_true, bne_iff_ne, Bool.or_eq_false_iff,
      beq_eq_false_iff_ne]
    tauto
  have hletters : ((sextets x).map letter).filter (fun c => c != 61) = (sextets x).map letter := by
    refine List.filter_eq_self.mpr fun c hc => ?_
    obtain ⟨d, hd, rfl⟩ := List.mem_map.mp hc
    have hkept := (letter_not_ignored (Base64.sextets_lt d hd)).1
    exact bne_iff_ne.mpr fun h61 => hkept (.inr (.inr h61))
  have hpadding (k : ℕ) : (List.replicate k (61 : UInt8)).filter (fun c => c != 61) = [] := by
    refine List.filter_eq_nil_iff.mpr fun c hc => ?_
    rw [List.eq_of_mem_replicate hc]
    decide
  rw [b64Values, hsplit, ht, Base64.encode, List.filter_append, hletters, hpadding, List.append_nil,
    mapM_letter Base64.sextets_lt]

theorem no_nul_of_encode {t x : Bytes} (ht : withoutLineEnds t = Base64.encode x) : (0 : UInt8) ∉ t := by
  intro h0
  have hkept : (0 : UInt8) ∈ withoutLineEnds t := List.mem_filter.mpr ⟨h0, rfl⟩
  rw [ht, Base64.encode] at hkept
  rcases List.mem_append.mp hkept with h | h
  · obtain ⟨d, hd, hzero⟩ := List.mem_map.mp h
    exact (letter_not_ignored (Base64.sextets_lt d hd)).2 hzero
  · exact absurd (List.eq_of_mem_replicate h) (by decide)

/-- The text of `x` is decoded to `x`, wherever the line ends stand. -/
theorem decodeB64_encode {t x : Bytes} (ht : withoutLineEnds t = Base64.encode x) (rest : Bytes) :
    (decodeB64 (t ++ 0 :: rest)).2 = x.length ∧
      (decodeB64 (t ++ 0 :: rest)).1.take (x.length + 1) = x ++ [0] ∧ x.length ≤ t.length ∧
      ∀ v, Loop.Visits B64.round (.start (t ++ 0 :: rest)) v → v.resultCount ≤ v.i := by
  have h0 := no_nul_of_encode ht
  obtain ⟨hcount, htext, hle⟩ := decodeB64_values h0 (b64Values_encode ht) rest
  rw [Base64.unpack_sextets] at hcount htext hle
  exact ⟨hcount, htext, hle, fun v hv => (Unread.start t rest).visits h0 hv⟩

/-- A line end within a group. -/
theorem decodeB64_encode_folded : (decodeB64 (bytes "YS5\r\n0eHQ=" ++ [0])).2 = 5 ∧
    (decodeB64 (bytes "YS5\r\n0eHQ=" ++ [0])).1.take 6 = bytes "a.txt" ++ [0] ∧ 5 ≤ 10 ∧
    ∀ v, Loop.Visits B64.round (.start (bytes "YS5\r\n0eHQ=" ++ [0])) v → v.resultCount ≤ v.i :=
  decodeB64_encode (t := bytes "YS5\r\n0eHQ=") (x := bytes "a.txt") (by decide +kernel) []

/-! ## Other characters -/

/-- Letters, digits, `+` and `/`. -/
def B64Char (c : UInt8) : Prop := (65 ≤ c ∧ c ≤ 90) ∨ (97 ≤ c ∧ c ≤ 122) ∨ (48 ≤ c ∧ c ≤ 57) ∨ c = 43 ∨ c = 47

instance (c : UInt8) : Decidable (B64Char c) := inferInstanceAs (Decidable (_ ∨ _ ∨ _ ∨ _ ∨ _))

/-- The characters that may stand in an encoded text. -/
def B64Legal (c : UInt8) : Prop := B64Char c ∨ Ignored c

instance (c : UInt8) : Decidable (B64Legal c) := inferInstanceAs (Decidable (_ ∨ _))

theorem b64Value_eq_none_iff (c : UInt8) : b64Value c = none ↔ c < 47 ∧ c ≠ 43 :=
  forall_byte (P := fun c => b64Value c = none ↔ c < 47 ∧ c ≠ 43) (by decide +kernel) c

theorem B64Char.not_ignored {c : UInt8} : B64Char c → ¬ Ignored c :=
  forall_byte (P := fun c => B64Char c → ¬ Ignored c) (by decide +kernel) c

theorem B64Char.not_low {c : UInt8} : B64Char c → ¬ (c < 47 ∧ c ≠ 43) :=
  forall_byte (P := fun c => B64Char c → ¬ (c < 47 ∧ c ≠ 43)) (by decide +kernel) c

theorem b64Values_eq_none_iff (t : Bytes) :
    b64Values t = none ↔ ∃ c ∈ t, ¬ Ignored c ∧ c < 47 ∧ c ≠ 43 := by
  induction t with
  | nil => simp [b64Values]
  | cons c t ih =>
    simp only [List.mem_cons, exists_eq_or_imp]
    rw [← ih]
    by_cases hc : Ignored c
    · rw [b64Values_ignored hc]
      exact (or_iff_right fun h => h.1 hc).symm
    · rw [b64Values_cons hc, ← b64Value_eq_none_iff]
      cases b64Value c with
      | none => simp [hc]
      | some d => simp

theorem b64Values_length {t : Bytes} {vs : List ℕ} (h : b64Values t = some vs) :
    vs.length = (t.filter fun c => !decide (Ignored c)).length := by
  induction t generalizing vs with
  | nil =>
    obtain rfl := Option.some.inj h
    rfl
  | cons c t ih =>
    by_cases hc : Ignored c
    · rw [b64Values_ignored hc] at h
      rw [List.filter_cons_of_neg (by simpa using hc)]
      exact ih h
    · rw [b64Values_cons hc] at h
      obtain ⟨d, -, h⟩ := Option.bind_eq_some_iff.mp h
      obtain ⟨us, hus, rfl⟩ := Option.map_eq_some_iff.mp h
      rw [List.filter_cons_of_pos (by simpa using hc), List.length_cons, List.length_cons, ih hus]

/-- A text of legal characters is read by those that have a value. -/
theorem filter_legal {t : Bytes} (ht : ∀ c ∈ t, B64Legal c) :
    (t.filter fun c => !decide (Ignored c)) = t.filter fun c => decide (B64Char c) := by
  refine List.filter_congr fun c hc => ?_
  rcases ht c hc with h | h
  · simp [h, h.not_ignored]
  · have hchar : ¬ B64Char c := fun hc => hc.not_ignored h
    simp [h, hchar]

/-- A text with another character is refused, and what is read of others are the characters that
stand for bits. -/
def AcceptsAlphabet (t : Bytes) : Prop :=
  ((∃ c ∈ t, ¬ B64Legal c) → ∀ rest, (decodeB64 (t ++ 0 :: rest)).2 = 0) ∧
    ((∀ c ∈ t, B64Legal c) → ∀ u, (∀ c ∈ u, B64Legal c) →
      (u.filter fun c => decide (B64Char c)) = (t.filter fun c => decide (B64Char c)) → ∀ rest rest',
        (decodeB64 (u ++ 0 :: rest)).2 = (decodeB64 (t ++ 0 :: rest')).2 ∧
        (decodeB64 (u ++ 0 :: rest)).1.take (decodeB64 (u ++ 0 :: rest)).2 =
          (decodeB64 (t ++ 0 :: rest')).1.take (decodeB64 (t ++ 0 :: rest')).2)

theorem not_mem_legal {t : Bytes} (ht : ∀ c ∈ t, B64Legal c) : (0 : UInt8) ∉ t := by
  intro h0
  exact absurd (ht 0 h0) (by decide)

theorem decodeB64_legal {t u : Bytes} (ht : ∀ c ∈ t, B64Legal c) (hu : ∀ c ∈ u, B64Legal c)
    (hchars : (u.filter fun c => decide (B64Char c)) = (t.filter fun c => decide (B64Char c))) (rest rest' : Bytes) :
    (decodeB64 (u ++ 0 :: rest)).2 = (decodeB64 (t ++ 0 :: rest')).2 ∧
      (decodeB64 (u ++ 0 :: rest)).1.take (decodeB64 (u ++ 0 :: rest)).2 =
        (decodeB64 (t ++ 0 :: rest')).1.take (decodeB64 (t ++ 0 :: rest')).2 := by
  have hsome : b64Values t ≠ none := by
    intro hnone
    obtain ⟨c, hc, hkept, hlow⟩ := (b64Values_eq_none_iff t).mp hnone
    rcases ht c hc with h | h
    · exact h.not_low hlow
    · exact hkept h
  obtain ⟨vs, hvs⟩ := Option.ne_none_iff_exists'.mp hsome
  have hus : b64Values u = some vs := by
    rw [← hvs, b64Values, b64Values, filter_legal hu, filter_legal ht, hchars]
  have htake {s r : Bytes} (hs : (0 : UInt8) ∉ s) (hvalues : b64Values s = some vs) :
      (decodeB64 (s ++ 0 :: r)).2 = (unpack vs).length ∧
        (decodeB64 (s ++ 0 :: r)).1.take (unpack vs).length = unpack vs := by
    obtain ⟨hcount, htext, -⟩ := decodeB64_values hs hvalues r
    refine ⟨hcount, ?_⟩
    have hless := congrArg (List.take (unpack vs).length) htext
    rwa [List.take_take, Nat.min_eq_left (Nat.le_succ _), List.take_left] at hless
  obtain ⟨hcount, htext⟩ := @htake u rest (not_mem_legal hu) hus
  obtain ⟨hcount', htext'⟩ := @htake t rest' (not_mem_legal ht) hvs
  rw [hcount, hcount', htext, htext']
  exact ⟨rfl, rfl⟩

/-- Every byte from `/` on is taken for `/`, so that only others are refused. -/
theorem acceptsAlphabet_iff {t : Bytes} (h0 : (0 : UInt8) ∉ t) : AcceptsAlphabet t ↔
    (∀ c ∈ t, B64Legal c) ∨ (∃ c ∈ t, ¬ Ignored c ∧ c < 47 ∧ c ≠ 43) ∨
      (t.filter fun c => !decide (Ignored c)).length < 2 := by
  constructor
  · rintro ⟨hrefused, -⟩
    by_cases hlegal : ∃ c ∈ t, ¬ B64Legal c
    swap
    · exact .inl fun c hc => by_contra fun hillegal => hlegal ⟨c, hc, hillegal⟩
    have hzero := hrefused hlegal []
    cases hvs : b64Values t with
    | none => exact .inr (.inl ((b64Values_eq_none_iff t).mp hvs))
    | some vs =>
      rw [(decodeB64_values h0 hvs []).1, List.length_eq_zero_iff, Base64.unpack_eq_nil_iff,
        b64Values_length hvs] at hzero
      exact .inr (.inr hzero)
  · intro h
    refine ⟨?_, fun hlegal u hu hchars rest rest' => decodeB64_legal hlegal hu hchars rest rest'⟩
    rintro ⟨c, hc, hillegal⟩ rest
    cases hvs : b64Values t with
    | none => exact decodeB64_bad h0 hvs rest
    | some vs =>
      rcases h with hlegal | hbad | hshort
      · exact absurd (hlegal c hc) hillegal
      · rw [(b64Values_eq_none_iff t).mpr hbad] at hvs
        cases hvs
      · rw [(decodeB64_values h0 hvs rest).1, List.length_eq_zero_iff, Base64.unpack_eq_nil_iff,
          b64Values_length hvs]
        exact hshort

theorem acceptsAlphabet_minus : AcceptsAlphabet (bytes "YS-0") :=
  (acceptsAlphabet_iff (t := bytes "YS-0") (by decide +kernel)).mpr (.inr (.inl (by decide +kernel)))

/-- A colon counts as a slash. -/
theorem acceptsAlphabet_colon : ¬ ∀ t : Bytes, (0 : UInt8) ∉ t → AcceptsAlphabet t := by
  intro h
  have hrefused := (h (bytes "a:b:") (by decide +kernel)).1 (by decide +kernel) []
  revert hrefused
  decide +kernel

end StraightHttpd
