import StraightHttpd.Lib.CText
import StraightHttpd.Httpd.HttpCore

/-! # Range headers (`http_core.c`)

The numbers of a `Range` header are read from one byte behind `bytes=`, so that the first digit is
lost. What is read right and what is taken for no range follows from the text of the line.
-/

set_option autoImplicit false

namespace StraightHttpd
open CMemory

/-- `Range: bytes=a-b`, or `Range: bytes=a-` when `b` is empty, by the digits of the numbers. -/
structure RangeLine (line a b : Bytes) : Prop where
  text : line.drop 6 = bytes " bytes=" ++ a ++ 45 :: b
  nonempty : a ≠ []
  start : ∀ c ∈ a, isDigit c = true
  stop : ∀ c ∈ b, isDigit c = true
  start_lt : digits 0 a < 2147483647
  stop_lt : digits 0 b < 2147483647
  ordered : b ≠ [] → digits 0 a ≤ digits 0 b

/-- The fields for the range from `a` to `b`. -/
def rangeFields (a b : Bytes) : ℤ × ℤ :=
  (digits 0 a, if b = [] then 0x7FFFFFFF else digits 0 b + 1)

/-- `_rangeFrom` and `_rangeTo` -/
def Sys.range (s : Sys) : ℤ × ℤ := (s.core.rangeFrom, s.app.rangeTo)

/-- The fields are what the line says: the range it asks for, or else no range. -/
def ReadsRange (line : Bytes) (range : ℤ × ℤ) : Prop :=
  (∀ a b, RangeLine line a b → range = rangeFields a b) ∧
    ((¬ ∃ a b, RangeLine line a b) → range = (0, 0))

/-- No range begins in the text behind `bytes=` and one more byte: there is no `-`, or the number
behind it does not fit or is smaller than the one in front. -/
def EmptyRange (t : Bytes) : Prop :=
  match strstr t [45] with
  | none => True
  | some d =>
    if isDigit (peek t (d + 1)) then
      2147483647 ≤ digits 0 (t.drop (d + 1)) ∨ digits 0 (t.drop (d + 1)) < leading t
    else 2147483647 ≤ leading t

def NoRange (value : Bytes) : Prop :=
  match strstr value (bytes "bytes=") with
  | none => True
  | some p => EmptyRange (value.drop (p + 7))

/-- The lost digit is a zero, and it was not the only one unless the range ends where it starts. A line
that is no range reads as none. -/
def RangeKept (line mem : Bytes) : Prop :=
  (∀ a b, RangeLine line a b → a.head? = some 48 ∧ (b = [] ∨ 2 ≤ a.length ∨ digits 0 b = 0)) ∧
    ((¬ ∃ a b, RangeLine line a b) → NoRange (mem.drop 6))

/-! ## The numbers -/

/-- What is read from the text behind the lost byte. -/
def rangeBounds (t : Bytes) : ℤ × ℤ :=
  (atol t,
    match strstr t [45] with
    | none => 0
    | some d => if isDigit (peek t (d + 1)) then wrap32 (atol (t.drop (d + 1)) + 1) else 0x7FFFFFFF)

theorem parseRange_some {value : Bytes} {p : ℕ} (h : strstr value (bytes "bytes=") = some p) :
    parseRange value = if (rangeBounds (value.drop (p + 7))).1 < (rangeBounds (value.drop (p + 7))).2
      then rangeBounds (value.drop (p + 7)) else (0, 0) := by
  simp only [parseRange, h]
  rfl

theorem kept_eq_zero_iff (r : ℤ × ℤ) : (if r.1 < r.2 then r else (0, 0)) = (0, 0) ↔ r.2 ≤ r.1 := by
  split_ifs with h
  · constructor
    · rintro rfl
      exact le_refl _
    · intro hle
      omega
  · exact ⟨fun _ => not_lt.mp h, fun _ => rfl⟩

/-- The number behind the `-`, one more. -/
theorem last_eq {t : Bytes} (h : isDigit (peek t 0) = true) :
    wrap32 (atol t + 1) =
      if digits 0 t < 2147483647 then (digits 0 t : ℤ) + 1 else -2147483648 := by
  cases t with
  | nil => cases h
  | cons c t =>
    have hc : isDigit c = true := h
    rw [atol_of_digit hc]
    generalize digits 0 (c :: t) = y
    unfold wrap32
    split_ifs with hy
    · rw [min_eq_left (by omega)]
      exact Int.bmod_eq_of_le (by omega) (by omega)
    · rw [min_eq_right (by omega)]
      rfl

theorem peek_drop (t : Bytes) (i : ℕ) : peek (t.drop i) 0 = peek t i := by
  simp [peek, List.getD_eq_getElem?_getD]

theorem rangeBounds_empty_iff (t : Bytes) :
    (rangeBounds t).2 ≤ (rangeBounds t).1 ↔ EmptyRange t := by
  unfold rangeBounds EmptyRange
  rcases atol_cases t with ⟨blanks, r, rfl, hblanks⟩ | hatol
  · -- the first `-` is the sign of the first number
    obtain ⟨hatol, hleading⟩ := atol_of_minus hblanks r
    have hcstr : cstr (blanks ++ 45 :: r) = blanks ++ 45 :: cstr r := by
      have hnul : ∀ b ∈ blanks, (b != 0) = true := by
        intro b hb
        rw [bne_iff_ne]
        rintro rfl
        cases hblanks 0 hb
      rw [cstr, List.takeWhile_append_of_pos hnul]
      rfl
    have hfind : strstr (blanks ++ 45 :: r) [45] = some blanks.length := by
      rw [strstr, hcstr]
      refine find_append (fun h => ?_) _
      cases hblanks 45 h
    have hdrop : (blanks ++ 45 :: r).drop (blanks.length + 1) = r := by
      rw [← List.drop_drop, List.drop_left]
      rfl
    have hpeek := peek_drop (blanks ++ 45 :: r) (blanks.length + 1)
    rw [hdrop] at hpeek
    simp only [hfind, hdrop, hatol, hleading, ← hpeek]
    by_cases hd : isDigit (peek r 0) = true
    · rw [if_pos hd, if_pos hd, last_eq hd]
      split_ifs <;> omega
    · rw [if_neg hd, if_neg hd]
      omega
  · cases hfind : strstr t [45] with
    | none =>
      simp only [hatol, iff_true]
      omega
    | some d =>
      simp only [hatol]
      have hpeek := peek_drop t (d + 1)
      rw [← hpeek]
      by_cases hd : isDigit (peek (t.drop (d + 1)) 0) = true
      · rw [if_pos hd, if_pos hd, last_eq hd]
        split_ifs <;> omega
      · rw [if_neg hd, if_neg hd]
        omega

/-- A value is taken for no range exactly when it reads as none. -/
theorem parseRange_zero_iff (value : Bytes) : parseRange value = (0, 0) ↔ NoRange value := by
  unfold NoRange
  cases h : strstr value (bytes "bytes=") with
  | none => simp [parseRange, h]
  | some p => rw [parseRange_some h, kept_eq_zero_iff, rangeBounds_empty_iff]

/-! ## Well-formed lines -/

theorem no_nul_of_digits {t : Bytes} (h : ∀ c ∈ t, isDigit c = true) : (0 : UInt8) ∉ t := by
  intro h0
  cases h 0 h0

/-- Where the numbers are read in a line from `d :: a` to `b`. -/
theorem RangeLine.parse {line rest a b : Bytes} {d : UInt8} (h : RangeLine line (d :: a) b) :
    parseRange ((line ++ 0 :: rest).drop 6) =
      if (rangeBounds (a ++ 45 :: (b ++ 0 :: rest))).1 < (rangeBounds (a ++ 45 :: (b ++ 0 :: rest))).2
      then rangeBounds (a ++ 45 :: (b ++ 0 :: rest)) else (0, 0) := by
  have hlength : 6 ≤ line.length := by
    by_contra hlt
    have hnil := h.text
    rw [List.drop_of_length_le (by omega)] at hnil
    cases hnil
  have hvalue : (line ++ 0 :: rest).drop 6 =
      bytes " bytes=" ++ d :: (a ++ 45 :: (b ++ 0 :: rest)) := by
    rw [List.drop_append_of_le_length hlength, h.text]
    simp
  have hstart := no_nul_of_digits h.start
  have hnul : (0 : UInt8) ∉ bytes " bytes=" ++ (d :: a ++ 45 :: b) := by
    simp only [List.mem_append, List.mem_cons]
    rintro (h0 | (h0 | h0) | h0 | h0)
    · exact absurd h0 (by decide)
    · exact hstart (by simp [h0])
    · exact hstart (by simp [h0])
    · cases h0
    · exact no_nul_of_digits h.stop h0
  have hfind : strstr ((line ++ 0 :: rest).drop 6) (bytes "bytes=") = some 1 := by
    have hsplit : bytes " bytes=" ++ d :: (a ++ 45 :: (b ++ 0 :: rest)) =
        (bytes " bytes=" ++ (d :: a ++ 45 :: b)) ++ 0 :: rest := by simp
    rw [hvalue, strstr, hsplit, cstr_append_zero, cstr_of_no_nul hnul]
    rfl
  rw [parseRange_some hfind, hvalue]
  rfl

/-- The number behind the `-` is read as it stands; the one in front only if it has two digits. -/
theorem RangeLine.bounds {line rest a b : Bytes} {d : UInt8} (h : RangeLine line (d :: a) b) :
    rangeBounds (a ++ 45 :: (b ++ 0 :: rest)) =
      (if a = [] then -(digits 0 b : ℤ) else digits 0 a, (rangeFields (d :: a) b).2) := by
  have ha : ∀ c ∈ a, isDigit c = true := fun c hc => h.start c (List.mem_cons_of_mem _ hc)
  have hb : digits 0 (b ++ 0 :: rest) = digits 0 b := digits_append h.stop rfl 0 rest
  have hle := h.start_lt
  have hlt := h.stop_lt
  rw [digits_of_digit (h.start d List.mem_cons_self), digits_acc ha] at hle
  have hfind : strstr (a ++ 45 :: (b ++ 0 :: rest)) [45] = some a.length := by
    have hnul : ∀ c ∈ a, (c != 0) = true := by
      intro c hc
      rw [bne_iff_ne]
      rintro rfl
      cases ha 0 hc
    rw [strstr, cstr, List.takeWhile_append_of_pos hnul]
    refine find_append (fun h45 => ?_) _
    cases ha 45 h45
  have hdrop : (a ++ 45 :: (b ++ 0 :: rest)).drop (a.length + 1) = b ++ 0 :: rest := by
    rw [← List.drop_drop, List.drop_left]
    rfl
  have hpeek := peek_drop (a ++ 45 :: (b ++ 0 :: rest)) (a.length + 1)
  rw [hdrop] at hpeek
  unfold rangeBounds rangeFields
  simp only [hfind, hdrop, ← hpeek, Prod.mk.injEq]
  constructor
  · split_ifs with hnil
    · rw [hnil]
      have hatol := (@atol_of_minus [] (by simp) (b ++ 0 :: rest)).1
      rw [List.nil_append] at hatol
      rw [List.nil_append, hatol, hb]
      omega
    · obtain ⟨c, a, rfl⟩ := List.exists_cons_of_ne_nil hnil
      have hdigits := digits_append ha (b := 45) rfl 0 (b ++ 0 :: rest)
      rw [List.cons_append] at hdigits ⊢
      rw [atol_of_digit (ha c List.mem_cons_self), hdigits]
      omega
  · cases b with
    | nil => rfl
    | cons c b =>
      have hc : isDigit (peek (c :: b ++ 0 :: rest) 0) = true := h.stop c List.mem_cons_self
      rw [if_pos hc, last_eq hc, hb, if_pos hlt]
      rfl

/-- A range is read right exactly when the lost digit does not matter. -/
theorem RangeLine.fields_iff {line rest a b : Bytes} (h : RangeLine line a b) :
    parseRange ((line ++ 0 :: rest).drop 6) = rangeFields a b ↔
      a.head? = some 48 ∧ (b = [] ∨ 2 ≤ a.length ∨ digits 0 b = 0) := by
  obtain ⟨d, a, rfl⟩ := List.exists_cons_of_ne_nil h.nonempty
  have hd := h.start d List.mem_cons_self
  have ha : ∀ c ∈ a, isDigit c = true := fun c hc => h.start c (List.mem_cons_of_mem _ hc)
  have hvalue : digits 0 (d :: a) = (d.toNat - 48) * 10 ^ a.length + digits 0 a := by
    rw [digits_of_digit hd, digits_acc ha]
    simp
  have hzero : d = 48 ↔ digits 0 a = digits 0 (d :: a) := by
    rw [hvalue]
    constructor
    · rintro rfl
      simp
    · intro he
      have hplace : 0 < 10 ^ a.length := by positivity
      have hd' : 48 ≤ d.toNat ∧ d.toNat ≤ 57 := by simpa [isDigit, UInt8.le_iff_toNat_le] using hd
      have hmul : (d.toNat - 48) * 10 ^ a.length = 0 := by omega
      have hsub : d.toNat - 48 = 0 := (Nat.mul_eq_zero.mp hmul).resolve_right hplace.ne'
      apply UInt8.toNat_inj.mp
      change d.toNat = 48
      omega
  have hlast : (digits 0 (d :: a) : ℤ) < (rangeFields (d :: a) b).2 := by
    have hlt := h.start_lt
    unfold rangeFields
    simp only
    split_ifs with hb
    · omega
    · have hle := h.ordered hb
      omega
  have hle : digits 0 a ≤ digits 0 (d :: a) := by omega
  rw [h.parse, h.bounds, List.head?_cons, Option.some.injEq, hzero]
  have hfields : rangeFields (d :: a) b = ((digits 0 (d :: a) : ℤ), (rangeFields (d :: a) b).2) := rfl
  generalize (rangeFields (d :: a) b).2 = last at hlast hfields
  rw [hfields]
  by_cases hnil : a = []
  · -- the `-` is taken for the sign of the first number
    subst hnil
    have hb : b = [] → digits 0 b = 0 := fun hb => by rw [hb]; rfl
    have h0 : digits 0 ([] : Bytes) = 0 := rfl
    rw [if_pos rfl, if_pos (by simp only; omega), Prod.mk.injEq, h0]
    simp only [and_true, List.length_singleton]
    constructor
    · intro he
      exact ⟨by omega, .inr (.inr (by omega))⟩
    · rintro ⟨ha0, hb0 | hb0 | hb0⟩
      · have := hb hb0
        omega
      · omega
      · omega
  · have hlength : 2 ≤ (d :: a).length := by
      have hpos := List.length_pos_iff.mpr hnil
      rw [List.length_cons]
      omega
    rw [if_neg hnil, if_pos (by simp only; omega), Prod.mk.injEq]
    simp only [and_true, hlength, true_or, or_true]
    omega

/-! ## The parser -/

/-- A line begins with the letter that the name begins with. -/
theorem head_of_isHeader {mem name : Bytes} {c : UInt8} (hc : c ≠ 0)
    (h : isHeader mem (c :: name) = true) : ∃ b m, cstr mem = b :: m ∧ toUpper b = toUpper c := by
  rw [isHeader, strnicmp, cstr_cons hc, List.length_cons, beq_iff_eq] at h
  cases hmem : cstr mem with
  | nil =>
    rw [hmem] at h
    cases h
  | cons b m =>
    rw [hmem, strnicmpText] at h
    by_cases hlt : toUpper b < toUpper c
    · rw [if_pos hlt] at h
      cases h
    by_cases hgt : toUpper c < toUpper b
    · rw [if_neg hlt, if_pos hgt] at h
      cases h
    exact ⟨b, m, rfl, UInt8.le_antisymm (UInt8.not_lt.mp hgt) (UInt8.not_lt.mp hlt)⟩

theorem not_isHeader {mem name : Bytes} {c : UInt8} (h : isHeader mem (bytes "Range:") = true)
    (hc : c ≠ 0) (hne : toUpper c ≠ 82) : isHeader mem (c :: name) = false := by
  by_contra hname
  obtain ⟨b, m, hb, hup⟩ := head_of_isHeader (c := 82) (by decide) h
  obtain ⟨b', m', hb', hup'⟩ := head_of_isHeader hc (Bool.of_not_eq_false hname)
  rw [hb] at hb'
  obtain rfl := (List.cons.inj hb').1
  exact hne (hup'.symm.trans hup)

theorem headerLine_range (env : Env) (s : Sys) {mem : Bytes} (n : ℕ)
    (h : isHeader mem (bytes "Range:") = true) :
    (s.headerLine env mem n).range = parseRange (mem.drop 6) := by
  have hlength : isHeader mem (bytes "Content-Length:") = false :=
    not_isHeader (c := 67) h (by decide) (by decide)
  have hconnection : isHeader mem (bytes "Connection:") = false :=
    not_isHeader (c := 67) h (by decide) (by decide)
  have hencoding : isHeader mem (bytes "Transfer-Encoding:") = false :=
    not_isHeader (c := 84) h (by decide) (by decide)
  have hexpect : isHeader mem (bytes "Expect:") = false :=
    not_isHeader (c := 69) h (by decide) (by decide)
  have hmodified : isHeader mem (bytes "If-Modified-Since:") = false :=
    not_isHeader (c := 73) h (by decide) (by decide)
  unfold Sys.headerLine
  rw [hlength, hconnection, hencoding, hexpect, hmodified, h]
  rfl

/-- The fields are what a `Range` line says exactly when the lost digit does not matter, or when the line
is no range and reads as none. -/
theorem range_header_iff (env : Env) (s : Sys) (line rest : Bytes)
    (h : isHeader (line ++ 0 :: rest) (bytes "Range:") = true) :
    ReadsRange line (s.headerLine env (line ++ 0 :: rest) line.length).range ↔
      RangeKept line (line ++ 0 :: rest) := by
  rw [headerLine_range env s _ h]
  unfold ReadsRange RangeKept
  refine and_congr ?_ ?_
  · exact forall₂_congr fun a b => forall_congr' fun hline => hline.fields_iff
  · exact imp_congr_right fun _ => parseRange_zero_iff _

/-- The bytes up to the ninth, with a zero in front of the first number. -/
theorem zeroNine_line : RangeLine (bytes "Range: bytes=00-9") (bytes "00") (bytes "9") :=
  ⟨by decide, by decide, List.all_eq_true.mp (by decide), List.all_eq_true.mp (by decide), by decide, by decide,
    fun _ => by decide⟩

theorem zeroNine_kept (mem : Bytes) : RangeKept (bytes "Range: bytes=00-9") mem := by
  refine ⟨fun a b hline => ?_, fun hnone => absurd ⟨_, _, zeroNine_line⟩ hnone⟩
  have htext : bytes " bytes=" ++ bytes "00-9" = bytes " bytes=" ++ (a ++ 45 :: b) :=
    (by decide : _ = (bytes "Range: bytes=00-9").drop 6).trans (hline.text.trans (List.append_assoc _ _ _))
  have hbounds : bytes "00-9" = a ++ 45 :: b := List.append_cancel_left htext
  -- the bounds of this line are the only ones it can be split into
  match a, hbounds, hline.nonempty with
  | [c], he, _ => exact absurd (List.cons.inj (List.cons.inj he).2).1 (by decide)
  | c :: d :: a, he, _ =>
    refine ⟨?_, .inr (.inl (Nat.le_add_left 2 _))⟩
    rw [← (List.cons.inj he).1]
    rfl

theorem range_header_zero : ReadsRange (bytes "Range: bytes=00-9")
    ((Sys.zero 0 World.boot).headerLine (Env.calm []) (bytes "Range: bytes=00-9" ++ 0 :: []) 17).range :=
  (range_header_iff (Env.calm []) _ _ [] (by decide)).mpr (zeroNine_kept _)

/-- The first 500 bytes. -/
theorem range_header_fails : ¬ ∀ (env : Env) (s : Sys) (line rest : Bytes),
    isHeader (line ++ 0 :: rest) (bytes "Range:") = true →
      ReadsRange line (s.headerLine env (line ++ 0 :: rest) line.length).range := by
  intro h
  have hheader : isHeader (bytes "Range: bytes=0-499" ++ 0 :: []) (bytes "Range:") = true := by decide
  have hstart : digits 0 (bytes "0") = 0 := by decide
  have hstop : digits 0 (bytes "499") = 499 := by decide
  have hline : RangeLine (bytes "Range: bytes=0-499") (bytes "0") (bytes "499") :=
    ⟨by decide, by decide, List.all_eq_true.mp (by decide), List.all_eq_true.mp (by decide),
      by omega, by omega, by omega⟩
  have hreads := (h (Env.calm []) (Sys.zero 0 World.boot) _ [] hheader).1 _ _ hline
  rw [headerLine_range (Env.calm []) _ _ hheader] at hreads
  obtain ⟨-, hkept⟩ := hline.fields_iff.mp hreads
  exact absurd hkept (by decide)

end StraightHttpd
