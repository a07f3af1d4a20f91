import StraightHttpd.Ssdp.Listener

/-! # Which datagrams are answered (`ssdp/ssdp.c`)

The scan of a datagram that is not empty keeps to the buffer and takes at most one step for each byte. On
CRLF-terminated lines it comes to the lines taken one after another, so a reply is sent when the parts of
a search are there, in whatever order. An empty datagram is scanned up to 2^32 - 1.
-/

set_option autoImplicit false

namespace StraightHttpd
open CMemory

namespace Ssdp

def lineEnd : Bytes := [13, 10]

/-! ## Searches -/

/-- One of the lines has the name, and a value like that. -/
def HasLine (lines : List Bytes) (name : Bytes) (value : Bytes → Prop) : Prop :=
  ∃ l ∈ lines, Begins l name ∧ value (l.drop name.length)

/-- The search target names all devices, or root devices. -/
def NamesTarget (value : Bytes) : Prop := bytes "ssdp:all" <:+: value ∨ bytes "upnp:rootdevice" <:+: value

/-- The parts of a search other than the number in its MX line. -/
structure Asks (first : Bytes) (rest : List Bytes) : Prop where
  search : Begins first (bytes "M-SEARCH")
  host : HasLine rest (bytes "Host:") fun _ => True
  target : HasLine rest (bytes "ST:") NamesTarget
  man : HasLine rest (bytes "Man:") fun value => bytes "\"ssdp:discover\"" <:+: value

/-- What is behind the name in the last MX line. -/
def lastMx : List Bytes → Option Bytes
  | [] => none
  | l :: lines => lastMx lines <|> if Begins l (bytes "MX:") then some (l.drop 3) else none

/-- The number at the start of a text, behind blanks and a sign. -/
def number (t : Bytes) : ℤ :=
  let p := t.dropWhile fun c => c == 32 || c == 9
  let (sign, p) : ℤ × Bytes := match p with
    | 45 :: q => (-1, q)
    | _ => (1, p)
  let p := match p with
    | 43 :: q => q
    | _ => p
  sign * digits 0 p

/-- A search with a positive number in its last MX line. -/
def Searches (lines : List Bytes) : Prop :=
  ∃ first rest value, lines = first :: rest ∧ Asks first rest ∧ lastMx rest = some value ∧ 0 < number value

/-- The datagram consists of these lines, is copied whole and is no notification. -/
structure Lines (lines : List Bytes) (d : Bytes) : Prop where
  whole : d = lines.flatMap (· ++ lineEnd)
  size : d.length ≤ bufferSize - 4
  plain : ∀ l ∈ lines, (0 : UInt8) ∉ l ∧ ¬ lineEnd <:+: l
  search : ¬ bytes "NOTIFY " <:+: d

/-! ## Names -/

theorem strnicmp_iff {l name : Bytes} (hl : (0 : UInt8) ∉ l) (hname : (0 : UInt8) ∉ name) (r : Bytes) :
    strnicmp (l ++ 0 :: r) name name.length = 0 ↔ Begins l name := by
  rw [← strnicmp_begins_iff hl hname, strnicmp, strnicmp, cstr_append_zero, cstr_of_no_nul hl]

theorem ston_eq (t : Bytes) : ston t = wrap32 (number t) := by
  have hwrap : ∀ (sign : ℤ) (p : Bytes), wrap32 (sign * stonDigits 0 p) = wrap32 (sign * digits 0 p) := by
    intro sign p
    rw [stonDigits_zero]
    refine wrap32_congr ?_
    rw [Int.mul_emod, wrap32_emod, ← Int.mul_emod]
  exact hwrap _ _

/-! ## The lines, one after another -/

/-- What a header line adds. -/
structure Told (s : Search) (l : Bytes) (t : Search) : Prop where
  line : t.line = s.line + 1
  host : t.gotHost = true ↔ s.gotHost = true ∨ Begins l (bytes "Host:")
  target : t.gotSt = true ↔ s.gotSt = true ∨ Begins l (bytes "ST:") ∧ NamesTarget (l.drop 3)
  man : t.gotMan = true ↔
    s.gotMan = true ∨ Begins l (bytes "Man:") ∧ bytes "\"ssdp:discover\"" <:+: l.drop 4
  mx : t.gotMx = true ↔ s.gotMx = true ∨ Begins l (bytes "MX:")
  mxMin : t.mxMin = if Begins l (bytes "MX:") then ston (l.drop 3) else s.mxMin

theorem strstr_drop_iff {l needle : Bytes} {n : ℕ} (hl : (0 : UInt8) ∉ l) (hn : n ≤ l.length) (hneedle : needle ≠ [])
    (r : Bytes) : (strstr ((l ++ 0 :: r).drop n) needle).isSome ↔ needle <:+: l.drop n := by
  have hdrop : (l ++ 0 :: r).drop n = l.drop n ++ 0 :: r := List.drop_append_of_le_length hn
  have hnul : (0 : UInt8) ∉ l.drop n := fun h => hl (List.mem_of_mem_drop h)
  rw [strstr_isSome_iff hneedle, hdrop, cstr_append_zero, cstr_of_no_nul hnul]

theorem headerLine_told {s : Search} (hs : s.line ≠ 0) {l : Bytes} (hl : (0 : UInt8) ∉ l) (r : Bytes) :
    ∃ t, takeLine s (l ++ 0 :: r) = some t ∧ Told s l t := by
  have hhost : strnicmp (l ++ 0 :: r) (bytes "Host:") 5 = 0 ↔ Begins l (bytes "Host:") := strnicmp_iff hl (by decide) r
  have hst : strnicmp (l ++ 0 :: r) (bytes "ST:") 3 = 0 ↔ Begins l (bytes "ST:") := strnicmp_iff hl (by decide) r
  have hman : strnicmp (l ++ 0 :: r) (bytes "Man:") 4 = 0 ↔ Begins l (bytes "Man:") := strnicmp_iff hl (by decide) r
  have hmx : strnicmp (l ++ 0 :: r) (bytes "MX:") 3 = 0 ↔ Begins l (bytes "MX:") := strnicmp_iff hl (by decide) r
  refine ⟨_, by rw [takeLine, if_neg hs], ?_⟩
  by_cases h1 : Begins l (bytes "Host:")
  · have h2 : ¬ Begins l (bytes "ST:") := h1.ne (by decide) (by decide) (by decide)
    have h3 : ¬ Begins l (bytes "Man:") := h1.ne (by decide) (by decide) (by decide)
    have h4 : ¬ Begins l (bytes "MX:") := h1.ne (by decide) (by decide) (by decide)
    rw [headerLine, if_pos (hhost.mpr h1)]
    exact ⟨rfl, by simp [h1], by simp [h2], by simp [h3], by simp [h4], by simp [h4]⟩
  by_cases h2 : Begins l (bytes "ST:")
  · have h3 : ¬ Begins l (bytes "Man:") := h2.ne (by decide) (by decide) (by decide)
    have h4 : ¬ Begins l (bytes "MX:") := h2.ne (by decide) (by decide) (by decide)
    have hall := @strstr_drop_iff l (bytes "ssdp:all") 3 hl h2.length (by decide) r
    have hroot := @strstr_drop_iff l (bytes "upnp:rootdevice") 3 hl h2.length (by decide) r
    rw [headerLine, if_neg fun h => h1 (hhost.mp h), if_pos (hst.mpr h2)]
    simp only [hall, hroot]
    by_cases hnames : NamesTarget (l.drop 3)
    · have hset : (if bytes "ssdp:all" <:+: l.drop 3 then { s with gotSt := true }
          else if bytes "upnp:rootdevice" <:+: l.drop 3 then { s with gotSt := true } else s) =
          { s with gotSt := true } := by
        rcases hnames with h | h
        · rw [if_pos h]
        · split_ifs <;> rfl
      rw [hset]
      exact ⟨rfl, by simp [h1], by simp [h2, hnames], by simp [h3], by simp [h4], by simp [h4]⟩
    · have hkept : (if bytes "ssdp:all" <:+: l.drop 3 then { s with gotSt := true }
          else if bytes "upnp:rootdevice" <:+: l.drop 3 then { s with gotSt := true } else s) = s := by
        rw [if_neg fun h => hnames (.inl h), if_neg fun h => hnames (.inr h)]
      rw [hkept]
      exact ⟨rfl, by simp [h1], by simp [hnames], by simp [h3], by simp [h4], by simp [h4]⟩
  by_cases h3 : Begins l (bytes "Man:")
  · have h4 : ¬ Begins l (bytes "MX:") := h3.ne (by decide) (by decide) (by decide)
    have hquoted := @strstr_drop_iff l (bytes "\"ssdp:discover\"") 4 hl h3.length (by decide) r
    rw [headerLine, if_neg fun h => h1 (hhost.mp h), if_neg fun h => h2 (hst.mp h), if_pos (hman.mpr h3)]
    by_cases hnames : bytes "\"ssdp:discover\"" <:+: l.drop 4
    · rw [if_pos (hquoted.mpr hnames)]
      exact ⟨rfl, by simp [h1], by simp [h2], by simp [h3, hnames], by simp [h4], by simp [h4]⟩
    · rw [if_neg fun h => hnames (hquoted.mp h)]
      exact ⟨rfl, by simp [h1], by simp [h2], by simp [hnames], by simp [h4], by simp [h4]⟩
  by_cases h4 : Begins l (bytes "MX:")
  · have hdrop : (l ++ 0 :: r).drop 3 = l.drop 3 ++ 0 :: r := List.drop_append_of_le_length h4.length
    rw [headerLine, if_neg fun h => h1 (hhost.mp h), if_neg fun h => h2 (hst.mp h),
      if_neg fun h => h3 (hman.mp h), if_pos (hmx.mpr h4), hdrop, ston_append_zero]
    exact ⟨rfl, by simp [h1], by simp [h2], by simp [h3], by simp [h4], by simp [h4]⟩
  · rw [headerLine, if_neg fun h => h1 (hhost.mp h), if_neg fun h => h2 (hst.mp h),
      if_neg fun h => h3 (hman.mp h), if_neg fun h => h4 (hmx.mp h)]
    exact ⟨rfl, by simp [h1], by simp [h2], by simp [h3], by simp [h4], by simp [h4]⟩

theorem firstLine {l : Bytes} (hl : (0 : UInt8) ∉ l) (r : Bytes) :
    takeLine Search.start (l ++ 0 :: r) =
      if Begins l (bytes "M-SEARCH") then some { Search.start with line := 1 } else none := by
  have hsearch : strnicmp (l ++ 0 :: r) (bytes "M-SEARCH") 8 = 0 ↔ Begins l (bytes "M-SEARCH") :=
    strnicmp_iff hl (by decide) r
  rw [takeLine, if_pos (show Search.start.line = 0 from rfl)]
  by_cases h : Begins l (bytes "M-SEARCH")
  · rw [if_pos h, if_neg fun hne => hne (hsearch.mpr h)]
  · rw [if_neg h, if_pos fun he => h (hsearch.mp he)]

/-- The lines behind the first. -/
def takeLines (s : Search) (lines : List Bytes) : Option Search :=
  lines.foldlM (fun s l => takeLine s (l ++ [0])) s

theorem HasLine.cons_iff {l name : Bytes} {lines : List Bytes} {value : Bytes → Prop} :
    HasLine (l :: lines) name value ↔ Begins l name ∧ value (l.drop name.length) ∨ HasLine lines name value := by
  constructor
  · rintro ⟨k, hk, h⟩
    rcases List.mem_cons.mp hk with rfl | hk
    · exact .inl h
    · exact .inr ⟨k, hk, h⟩
  · rintro (h | ⟨k, hk, h⟩)
    · exact ⟨l, List.mem_cons_self, h⟩
    · exact ⟨k, List.mem_cons_of_mem _ hk, h⟩

/-- What the lines have told, taken together. -/
structure Heeded (s : Search) (lines : List Bytes) (t : Search) : Prop where
  host : t.gotHost = true ↔ s.gotHost = true ∨ HasLine lines (bytes "Host:") fun _ => True
  target : t.gotSt = true ↔ s.gotSt = true ∨ HasLine lines (bytes "ST:") NamesTarget
  man : t.gotMan = true ↔
    s.gotMan = true ∨ HasLine lines (bytes "Man:") fun value => bytes "\"ssdp:discover\"" <:+: value
  mx : t.gotMx = true ↔ s.gotMx = true ∨ (lastMx lines).isSome = true
  mxMin : t.mxMin = ((lastMx lines).map ston).getD s.mxMin

theorem takeLines_heeded {s : Search} (hs : s.line ≠ 0) {lines : List Bytes} (hlines : ∀ l ∈ lines, (0 : UInt8) ∉ l) :
    ∃ t, takeLines s lines = some t ∧ Heeded s lines t := by
  induction lines generalizing s with
  | nil =>
    have hno : ∀ name value, ¬ HasLine [] name value := by
      rintro name value ⟨l, hl, -⟩
      cases hl
    exact ⟨s, rfl, by simp [hno], by simp [hno], by simp [hno], by simp [lastMx], rfl⟩
  | cons l lines ih =>
    obtain ⟨t, ht, htold⟩ := headerLine_told hs (hlines l List.mem_cons_self) []
    have hline : t.line ≠ 0 := by
      rw [htold.line]
      exact Nat.succ_ne_zero _
    obtain ⟨u, hu, hheeded⟩ := ih hline fun k hk => hlines k (List.mem_cons_of_mem _ hk)
    refine ⟨u, ?_, ?_, ?_, ?_, ?_, ?_⟩
    · rw [takeLines, List.foldlM_cons, ht]
      exact hu
    · rw [hheeded.host, htold.host, HasLine.cons_iff, and_true, or_assoc]
    · rw [hheeded.target, htold.target, HasLine.cons_iff, or_assoc]
      rfl
    · rw [hheeded.man, htold.man, HasLine.cons_iff, or_assoc]
      rfl
    · rw [hheeded.mx, htold.mx, lastMx, or_assoc]
      cases lastMx lines with
      | some v => simp
      | none =>
        by_cases h : Begins l (bytes "MX:")
        · simp [h]
        · simp [h]
    · rw [hheeded.mxMin, htold.mxMin, lastMx]
      cases lastMx lines with
      | some v => rfl
      | none =>
        by_cases h : Begins l (bytes "MX:")
        · simp [h]
        · simp [h]

/-- All parts of a search were among the lines exactly when they ask, up to the 32 bits of the number. -/
theorem complete_iff {first : Bytes} {rest : List Bytes} (hfirst : Begins first (bytes "M-SEARCH"))
    {t : Search} (h : Heeded { Search.start with line := 1 } rest t) :
    t.complete = true ↔ Asks first rest ∧ ∃ value, lastMx rest = some value ∧ 0 < wrap32 (number value) := by
  obtain ⟨hhost, htarget, hman, hmx, hmin⟩ := h
  have hno : ∀ b : Prop, (false = true ∨ b) ↔ b := fun b => ⟨fun h => h.resolve_left (by decide), .inr⟩
  have hhost := hhost.trans (hno _)
  have htarget := htarget.trans (hno _)
  have hman := hman.trans (hno _)
  have hmx := hmx.trans (hno _)
  unfold Search.complete
  rw [Bool.and_eq_true, Bool.and_eq_true, Bool.and_eq_true, Bool.and_eq_true, decide_eq_true_eq, hhost, htarget, hman,
    hmx, hmin]
  constructor
  · rintro ⟨⟨⟨⟨h1, h2⟩, h3⟩, h4⟩, h5⟩
    obtain ⟨value, hvalue⟩ := Option.isSome_iff_exists.mp h4
    rw [hvalue] at h5
    refine ⟨⟨hfirst, h1, h2, h3⟩, value, hvalue, ?_⟩
    rw [← ston_eq]
    exact h5
  · rintro ⟨⟨-, h1, h2, h3⟩, value, hvalue, hpos⟩
    rw [hvalue]
    refine ⟨⟨⟨⟨h1, h2⟩, h3⟩, rfl⟩, ?_⟩
    show ston value > 0
    rw [ston_eq]
    exact hpos

/-! ## The scan -/

theorem Told.unique {s t u : Search} {l : Bytes} (ht : Told s l t) (hu : Told s l u) : t = u := by
  have hline := ht.line.trans hu.line.symm
  have hhost := Bool.eq_iff_iff.mpr (ht.host.trans hu.host.symm)
  have htarget := Bool.eq_iff_iff.mpr (ht.target.trans hu.target.symm)
  have hman := Bool.eq_iff_iff.mpr (ht.man.trans hu.man.symm)
  have hmx := Bool.eq_iff_iff.mpr (ht.mx.trans hu.mx.symm)
  have hmin := ht.mxMin.trans hu.mxMin.symm
  cases t
  cases u
  simp only at hline hhost htarget hman hmx hmin
  rw [hline, hhost, htarget, hman, hmx, hmin]

/-- What is behind a line in memory is not looked at. -/
theorem takeLine_append (s : Search) {l : Bytes} (hl : (0 : UInt8) ∉ l) (r : Bytes) :
    takeLine s (l ++ 0 :: r) = takeLine s (l ++ [0]) := by
  by_cases hs : s.line = 0
  · have hr := @strnicmp_iff l (bytes "M-SEARCH") hl (by decide) r
    have hnil := @strnicmp_iff l (bytes "M-SEARCH") hl (by decide) []
    have heq : strnicmp (l ++ 0 :: r) (bytes "M-SEARCH") 8 = 0 ↔ strnicmp (l ++ [0]) (bytes "M-SEARCH") 8 = 0 :=
      hr.trans hnil.symm
    rw [takeLine, takeLine, if_pos hs, if_pos hs]
    simp only [ne_eq, heq]
  · obtain ⟨t, ht, htold⟩ := headerLine_told hs hl r
    obtain ⟨u, hu, hutold⟩ := headerLine_told hs hl []
    rw [ht, hu, htold.unique hutold]

/-- An end of the scan, with one step more. -/
def counted (r : ℕ × ScanEnd) : ℕ × ScanEnd := (r.1 + 1, r.2)

theorem scan_stop {bound i : ℕ} (h : ¬ i < bound) (n start : ℕ) (buff : Bytes) (s : Search) :
    scanLines bound n i start buff s = (0, .ended s) := by
  cases n with
  | zero => rfl
  | succ n => rw [scanLines, if_neg h]

/-- Off a line's end the scan goes on to the next byte. -/
theorem scan_move {bound i : ℕ} {buff : Bytes} (hi : i < bound) (hbound : bound < buff.length)
    (h : ¬ (peek buff i = 13 ∧ peek buff (i + 1) = 10)) (n start : ℕ) (s : Search) :
    scanLines bound (n + 1) i start buff s = counted (scanLines bound n (i + 1) start buff s) := by
  have h1 : ¬ buff.length ≤ i := by omega
  have h2 : ¬ buff.length ≤ i + 1 := by omega
  rw [scanLines, if_pos hi, if_neg h1]
  by_cases hcr : peek buff i = 13
  · rw [if_pos hcr, if_neg h2, if_neg fun hlf => h ⟨hcr, hlf⟩]
    rfl
  · rw [if_neg hcr]
    rfl

/-- At a line's end the line is cut and taken. -/
theorem scan_cut {bound i start : ℕ} {buff : Bytes} (hi : i < bound) (hbound : bound < buff.length)
    (hstart : start ≤ i) (hcr : peek buff i = 13) (hlf : peek buff (i + 1) = 10) (n : ℕ) (s : Search) :
    scanLines bound (n + 1) i start buff s =
      (takeLine s ((poke buff i [0]).drop start)).elim (1, .returned) fun t =>
        counted (scanLines bound n (i + 2) (i + 2) (poke buff i [0]) t) := by
  have h1 : ¬ buff.length ≤ i := by omega
  have h2 : ¬ buff.length ≤ i + 1 := by omega
  have hnul : ¬ (0 : UInt8) ∉ (poke buff i [0]).drop start := by
    have htake : start ≤ (buff.take i).length := by
      rw [List.length_take]
      omega
    rw [not_not, poke, List.append_assoc, List.drop_append_of_le_length htake]
    exact List.mem_append_right _ (List.mem_append_left _ List.mem_cons_self)
  rw [scanLines, if_pos hi, if_neg h1, if_pos hcr, if_neg h2, if_pos hlf]
  simp only [if_neg hnul]
  cases takeLine s ((poke buff i [0]).drop start) with
  | none => rfl
  | some t => rfl

/-- Below the end of the buffer the scan reads inside it, and takes a step for each byte at most. -/
theorem scan_safe {bound : ℕ} (n : ℕ) {i start : ℕ} {buff : Bytes} (s : Search) (hbound : bound < buff.length)
    (hstart : start ≤ i) :
    (scanLines bound n i start buff s).1 ≤ bound - i ∧ (scanLines bound n i start buff s).2 ≠ .outside := by
  induction n generalizing i start buff s with
  | zero => exact ⟨Nat.zero_le _, fun h => by cases h⟩
  | succ n ih =>
    by_cases hi : i < bound
    · by_cases hcrlf : peek buff i = 13 ∧ peek buff (i + 1) = 10
      · have hlen : (poke buff i [0]).length = buff.length := poke_length (by show i + 1 ≤ _; omega)
        rw [scan_cut hi hbound hstart hcrlf.1 hcrlf.2]
        cases takeLine s ((poke buff i [0]).drop start) with
        | none => exact ⟨by show 1 ≤ bound - i; omega, fun h => by cases h⟩
        | some t =>
          obtain ⟨hsteps, hend⟩ := @ih (i + 2) (i + 2) (poke buff i [0]) t (by omega) le_rfl
          refine ⟨?_, hend⟩
          show (scanLines bound n (i + 2) (i + 2) (poke buff i [0]) t).1 + 1 ≤ bound - i
          omega
      · obtain ⟨hsteps, hend⟩ := @ih (i + 1) start buff s hbound (by omega)
        rw [scan_move hi hbound hcrlf]
        refine ⟨?_, hend⟩
        show (scanLines bound n (i + 1) start buff s).1 + 1 ≤ bound - i
        omega
    · rw [scan_stop hi]
      exact ⟨Nat.zero_le _, fun h => by cases h⟩

theorem peek_append (l r : Bytes) (b : UInt8) : peek (l ++ b :: r) l.length = b := by
  simp [peek]

theorem peek_append_next (l r : Bytes) (b c : UInt8) : peek (l ++ b :: c :: r) (l.length + 1) = c := by
  simp [peek]

/-- Inside a line the scan moves up to its end. -/
theorem scan_within {bound : ℕ} {done rest : Bytes} (v : Bytes) {u : Bytes} (n : ℕ) (s : Search)
    (hline : ¬ lineEnd <:+: u ++ v) (hbound : done.length + (u ++ v).length < bound)
    (hbuff : bound < (done ++ (u ++ v) ++ lineEnd ++ rest).length) :
    (scanLines bound (v.length + (n + 1)) (done.length + u.length) done.length (done ++ (u ++ v) ++ lineEnd ++ rest) s).2 =
      (takeLine s (u ++ v ++ 0 :: 10 :: rest)).elim .returned fun t =>
        (scanLines bound n (done ++ (u ++ v) ++ [0, 10]).length (done ++ (u ++ v) ++ [0, 10]).length
          (done ++ (u ++ v) ++ [0, 10] ++ rest) t).2 := by
  induction v generalizing u with
  | nil =>
    have hat : done.length + u.length = (done ++ u).length := (List.length_append).symm
    have hmem : done ++ u ++ lineEnd ++ rest = (done ++ u) ++ 13 :: 10 :: rest := by simp [lineEnd]
    have hnext : (done ++ u ++ [0, 10]).length = (done ++ u).length + 2 := by rw [List.length_append]; rfl
    have hcut : done ++ u ++ [0, 10] ++ rest = (done ++ u) ++ 0 :: 10 :: rest := by simp
    have htext : ((done ++ u) ++ 0 :: 10 :: rest).drop done.length = u ++ 0 :: 10 :: rest := by
      rw [List.append_assoc, List.drop_left]
    simp only [List.append_nil] at hbound hbuff ⊢
    rw [hat, List.length_nil, Nat.zero_add, hmem, hnext, hcut]
    rw [hmem] at hbuff
    rw [scan_cut (hat ▸ hbound) hbuff (hat ▸ Nat.le_add_right _ _) (peek_append _ _ _) (peek_append_next _ _ _ _),
      poke_append, htext]
    cases takeLine s (u ++ 0 :: 10 :: rest) with
    | none => rfl
    | some t => rfl
  | cons b v ih =>
    have hmem : done ++ (u ++ b :: v) ++ lineEnd ++ rest = (done ++ u) ++ b :: (v ++ lineEnd ++ rest) := by simp
    have hat : done.length + u.length = (done ++ u).length := (List.length_append).symm
    have hin : (done ++ u).length < bound := by
      rw [← hat]
      rw [List.length_append, List.length_cons] at hbound
      omega
    have hno : ¬ (peek ((done ++ u) ++ b :: (v ++ lineEnd ++ rest)) (done ++ u).length = 13 ∧
        peek ((done ++ u) ++ b :: (v ++ lineEnd ++ rest)) ((done ++ u).length + 1) = 10) := by
      rintro ⟨hcr, hlf⟩
      rw [peek_append] at hcr
      cases v with
      | nil =>
        have h13 : (13 : UInt8) = 10 := (peek_append_next (done ++ u) (10 :: rest) b 13).symm.trans hlf
        cases h13
      | cons c v =>
        have h10 : c = 10 := (peek_append_next (done ++ u) (v ++ lineEnd ++ rest) b c).symm.trans hlf
        refine hline ⟨u, v, ?_⟩
        rw [hcr, h10, lineEnd, List.append_assoc]
        rfl
    have hshift : u ++ b :: v = (u ++ [b]) ++ v := by simp
    have hfar : (done ++ u).length + 1 = done.length + (u ++ [b]).length := by simp; omega
    have hlen : (b :: v).length + (n + 1) = v.length + (n + 1) + 1 := by rw [List.length_cons]; omega
    rw [hlen, hat, hmem, scan_move hin (hmem ▸ hbuff) hno]
    show (scanLines bound (v.length + (n + 1)) ((done ++ u).length + 1) done.length _ s).2 = _
    rw [← hmem, hfar]
    rw [hshift] at hline hbound hbuff ⊢
    exact ih hline hbound hbuff

/-- The scan of lines comes to the lines taken one after another. -/
theorem scan_lines {bound : ℕ} (zeros : Bytes) {lines : List Bytes} {done : Bytes} {n : ℕ} (s : Search)
    (hlines : ∀ l ∈ lines, (0 : UInt8) ∉ l ∧ ¬ lineEnd <:+: l)
    (hbound : bound + 1 = done.length + (lines.flatMap (· ++ lineEnd)).length) (hn : bound ≤ n + done.length) :
    (scanLines bound n done.length done.length (done ++ lines.flatMap (· ++ lineEnd) ++ zeros) s).2 =
      (takeLines s lines).elim .returned .ended := by
  induction lines generalizing done n s with
  | nil =>
    have hout : ¬ done.length < bound := by
      rw [List.flatMap_nil, List.length_nil] at hbound
      omega
    rw [scan_stop hout]
    rfl
  | cons l lines ih =>
    obtain ⟨hl, hcrlf⟩ := hlines l List.mem_cons_self
    have hflat : (l :: lines).flatMap (· ++ lineEnd) = l ++ lineEnd ++ lines.flatMap (· ++ lineEnd) := List.flatMap_cons
    have hlen : ((l :: lines).flatMap (· ++ lineEnd)).length =
        l.length + 2 + (lines.flatMap (· ++ lineEnd)).length := by
      rw [hflat, List.length_append, List.length_append]
      rfl
    rw [hlen] at hbound
    obtain ⟨m, rfl⟩ : ∃ m, n = l.length + (m + 1) := ⟨n - (l.length + 1), by omega⟩
    have hmem : done ++ (l :: lines).flatMap (· ++ lineEnd) ++ zeros =
        done ++ ([] ++ l) ++ lineEnd ++ (lines.flatMap (· ++ lineEnd) ++ zeros) := by
      rw [hflat]
      simp
    have hfits : bound < (done ++ ([] ++ l) ++ lineEnd ++ (lines.flatMap (· ++ lineEnd) ++ zeros)).length := by
      simp only [List.length_append, List.length_nil]
      rw [show lineEnd.length = 2 from rfl]
      omega
    have hwithin := scan_within l m s (by rw [List.nil_append]; exact hcrlf)
      (show done.length + ([] ++ l).length < bound by rw [List.nil_append]; omega) hfits
    rw [hmem]
    refine hwithin.trans ?_
    rw [List.nil_append, takeLine_append s hl, takeLines, List.foldlM_cons]
    cases takeLine s (l ++ [0]) with
    | none => rfl
    | some t =>
      have hdone : (done ++ l ++ [0, 10]).length = done.length + l.length + 2 := by
        rw [List.length_append, List.length_append]
        rfl
      have hnext := @ih (done ++ l ++ [0, 10]) m t (fun k hk => hlines k (List.mem_cons_of_mem _ hk))
        (by omega) (by omega)
      rw [List.append_assoc (done ++ l ++ [0, 10])] at hnext
      exact hnext

/-! ## The listener -/

theorem copied_eq (p : List Pbuf) : copied p = (chainBytes p).take (bufferSize - 4) := by
  rw [copied, pbufCopyPartial_eq, slice, List.drop_zero]

theorem copied_length (p : List Pbuf) : (copied p).length ≤ bufferSize - 4 := by
  rw [copied_eq, List.length_take]
  exact Nat.min_le_left _ _

theorem scanBound_eq {p : List Pbuf} (h : copied p ≠ []) : scanBound p + 1 = (copied p).length := by
  have hpos := List.length_pos_iff.mpr h
  have hlen : (copied p).length ≤ 252 := copied_length p
  unfold scanBound u32
  omega

theorem szBuffer_length (p : List Pbuf) : (szBuffer p).length = bufferSize := by
  have hlen := copied_length p
  have hsize : bufferSize = 256 := rfl
  rw [szBuffer, List.length_append, List.length_replicate]
  omega

theorem copied_ne_nil {p : List Pbuf} (h : chainBytes p ≠ []) : copied p ≠ [] := by
  intro hnil
  rw [copied_eq, List.take_eq_nil_iff] at hnil
  exact hnil.elim (by decide) h

/-- The reads of an empty datagram go far behind the buffer. -/
theorem empty_outside {p : List Pbuf} (h : chainBytes p = []) : (ssdpListener p).inBounds = false := by
  have hcopied : copied p = [] := by rw [copied_eq, h, List.take_nil]
  unfold ssdpListener scanBound szBuffer
  rw [hcopied]
  decide +kernel

theorem reply_fields {r : ℕ × ScanEnd} (h : r.2 ≠ .outside) : (reply r).inBounds = true ∧ (reply r).steps = r.1 := by
  obtain ⟨steps, e⟩ := r
  cases e with
  | ended s => exact ⟨rfl, rfl⟩
  | returned => exact ⟨rfl, rfl⟩
  | outside => exact absurd rfl h

theorem listener_safe {p : List Pbuf} (h : chainBytes p ≠ []) :
    (ssdpListener p).inBounds = true ∧ (ssdpListener p).steps ≤ (copied p).length := by
  have hbound := scanBound_eq (copied_ne_nil h)
  have hin : scanBound p < (szBuffer p).length := by
    have hlen : (copied p).length ≤ 252 := copied_length p
    have hsize : (szBuffer p).length = 256 := szBuffer_length p
    omega
  obtain ⟨hsteps, hend⟩ := scan_safe (scanBound p) Search.start hin (Nat.zero_le 0)
  unfold ssdpListener
  by_cases hnotify : (strstr (szBuffer p) (bytes "NOTIFY ")).isSome
  · rw [if_pos hnotify]
    exact ⟨rfl, Nat.zero_le _⟩
  · rw [if_neg hnotify]
    obtain ⟨hread, hcount⟩ := reply_fields hend
    refine ⟨hread, ?_⟩
    rw [hcount]
    omega

theorem Lines.noNul {lines : List Bytes} {d : Bytes} (h : Lines lines d) : (0 : UInt8) ∉ d := by
  intro hmem
  rw [h.whole] at hmem
  obtain ⟨l, hl, hin⟩ := List.mem_flatMap.mp hmem
  rcases List.mem_append.mp hin with hin | hin
  · exact (h.plain l hl).1 hin
  · exact absurd hin (by decide)

theorem Lines.copied {lines : List Bytes} {p : List Pbuf} (h : Lines lines (chainBytes p)) : copied p = chainBytes p := by
  rw [copied_eq, List.take_of_length_le h.size]

/-- The scan of such a datagram takes its lines. -/
theorem listener_lines {lines : List Bytes} {p : List Pbuf} (h : Lines lines (chainBytes p)) (hne : chainBytes p ≠ []) :
    (ssdpListener p).reply = ((takeLines Search.start lines).map Search.complete).getD false := by
  have hcopied := h.copied
  have hbound := scanBound_eq (copied_ne_nil hne)
  rw [hcopied] at hbound
  have hlen : (chainBytes p).length ≤ 252 := h.size
  obtain ⟨z, hz⟩ : ∃ z, List.replicate (bufferSize - (chainBytes p).length) (0 : UInt8) = 0 :: z := by
    obtain ⟨k, hk⟩ : ∃ k, bufferSize - (chainBytes p).length = k + 1 :=
      ⟨bufferSize - (chainBytes p).length - 1, by rw [show bufferSize = 256 from rfl]; omega⟩
    exact ⟨List.replicate k 0, by rw [hk, List.replicate_succ]⟩
  have hmem : szBuffer p = [] ++ lines.flatMap (· ++ lineEnd) ++ 0 :: z := by
    rw [szBuffer, hcopied, hz, List.nil_append, ← h.whole]
  have hnotify : ¬ (strstr (szBuffer p) (bytes "NOTIFY ")).isSome := by
    rw [strstr_isSome_iff (by decide), szBuffer, hcopied, hz, cstr_append_zero, cstr_of_no_nul h.noNul]
    exact h.search
  have hscan := @scan_lines (scanBound p) (0 :: z) lines [] (scanBound p) Search.start h.plain
    (by rw [hbound, ← h.whole, List.length_nil, Nat.zero_add]) le_rfl
  unfold ssdpListener
  rw [if_neg hnotify]
  rw [← hmem, List.length_nil] at hscan
  rw [reply, hscan]
  cases takeLines Search.start lines with
  | none => rfl
  | some t => rfl

theorem takeLines_search {first : Bytes} {rest : List Bytes} (hlines : ∀ l ∈ first :: rest, (0 : UInt8) ∉ l) :
    ((takeLines Search.start (first :: rest)).map Search.complete).getD false = true ↔
      Asks first rest ∧ ∃ value, lastMx rest = some value ∧ 0 < wrap32 (number value) := by
  rw [takeLines, List.foldlM_cons, firstLine (hlines first List.mem_cons_self) []]
  by_cases hfirst : Begins first (bytes "M-SEARCH")
  · obtain ⟨t, ht, hheeded⟩ := @takeLines_heeded { Search.start with line := 1 } (by decide) rest
      fun l hl => hlines l (List.mem_cons_of_mem _ hl)
    rw [if_pos hfirst, ← complete_iff hfirst hheeded]
    show ((takeLines { Search.start with line := 1 } rest).map Search.complete).getD false = true ↔ _
    rw [ht]
    exact Iff.rfl
  · rw [if_neg hfirst]
    exact iff_of_false Bool.false_ne_true fun h => hfirst h.1.search

/-- A datagram is scanned inside the buffer, in a step for each byte copied at most, and answered exactly when
its lines are a search, as long as it is not empty and the 32 bits of the number in the last MX line keep its
sign. -/
theorem m_search (p : List Pbuf) :
    ((ssdpListener p).inBounds = true ∧ (ssdpListener p).steps ≤ (copied p).length ∧
      ∀ lines, Lines lines (chainBytes p) → ((ssdpListener p).reply = true ↔ Searches lines)) ↔
    chainBytes p ≠ [] ∧
      ∀ first rest value, Lines (first :: rest) (chainBytes p) → Asks first rest → lastMx rest = some value →
        (0 < wrap32 (number value) ↔ 0 < number value) := by
  constructor
  · rintro ⟨hin, -, hreply⟩
    have hne : chainBytes p ≠ [] := by
      intro hnil
      rw [empty_outside hnil] at hin
      cases hin
    refine ⟨hne, ?_⟩
    intro first rest value hlines hasks hmx
    have hiff := hreply _ hlines
    rw [listener_lines hlines hne, takeLines_search fun l hl => (hlines.plain l hl).1] at hiff
    constructor
    · intro hpos
      obtain ⟨f, r, v, heq, -, hv, hnumber⟩ := hiff.mp ⟨hasks, value, hmx, hpos⟩
      cases heq
      rw [hmx] at hv
      cases hv
      exact hnumber
    · intro hpos
      obtain ⟨-, v, hv, hnumber⟩ := hiff.mpr ⟨first, rest, value, rfl, hasks, hmx, hpos⟩
      rw [hmx] at hv
      cases hv
      exact hnumber
  · rintro ⟨hne, hsign⟩
    obtain ⟨hin, hsteps⟩ := listener_safe hne
    refine ⟨hin, hsteps, ?_⟩
    intro lines hlines
    rw [listener_lines hlines hne]
    cases lines with
    | nil => exact absurd hlines.whole hne
    | cons first rest =>
      rw [takeLines_search fun l hl => (hlines.plain l hl).1]
      constructor
      · rintro ⟨hasks, value, hmx, hpos⟩
        exact ⟨first, rest, value, rfl, hasks, hmx, (hsign first rest value hlines hasks hmx).mp hpos⟩
      · rintro ⟨f, r, value, heq, hasks, hmx, hpos⟩
        cases heq
        exact ⟨hasks, value, hmx, (hsign first rest value hlines hasks hmx).mpr hpos⟩

/-- A datagram without payload, in its one pbuf. -/
def emptyDatagram : List Pbuf := [⟨[], 0⟩]

theorem m_search_empty :
    ¬ ((ssdpListener emptyDatagram).inBounds = true ∧
      (ssdpListener emptyDatagram).steps ≤ (copied emptyDatagram).length ∧
      ∀ lines, Lines lines (chainBytes emptyDatagram) →
        ((ssdpListener emptyDatagram).reply = true ↔ Searches lines)) := by
  rintro ⟨hin, -⟩
  rw [empty_outside rfl] at hin
  cases hin

end Ssdp

end StraightHttpd
