import StraightHttpd.Httpd.SsiExpansion

/-! # The counters of the SSI engine (`http_web.c`, `cgi/cgi_ssi.c`)

The scanner of an SSI page stores tag names without a bound, tests the output limit behind a byte only,
and leaves room for 50 bytes behind a value without a look at how much room there is. `CallFits` says
which calls this does no harm to.
-/

set_option autoImplicit false

namespace StraightHttpd
namespace SsiPage
open CMemory

/-- Text for which nothing is put out outside a tag: no text, a tag, or what could begin one at the end
of the file. -/
def Quiet (s : Bytes) : Prop :=
  s = [] ∨ tagStart <+: s ∨ s.head? = some 60 ∧ s.length < tagStart.length

/-- The bytes at the end of the file that could begin a `-->` and are not taken for the name. -/
def unfinished (s : Bytes) : ℕ :=
  if s.dropLast.getLast? = some 45 then 2 else if s.getLast? = some 45 then 1 else 0

/-- Behind the part `name` of a tag name the text is `s`: the rest of the name finds room, and so does
the value, or what comes behind it when there is no value. -/
structure TagFits (value : Bytes → Bytes) (maxSize : ℤ) (name s : Bytes) : Prop where
  closed : ∀ n r, s = n ++ tagEnd ++ r → (∀ k < n.length, ¬ tagEnd <+: s.drop k) →
    name.length + n.length ≤ 63 ∧ (value (cstr (name ++ n)) = [] → 1 ≤ maxSize ∨ Quiet r) ∧
      (value (cstr (name ++ n)) ≠ [] → 50 ≤ maxSize)
  unclosed : (∀ k, ¬ tagEnd <+: s.drop k) → name.length + s.length ≤ 63 + unfinished s

/-- A call has room for what it is going to put out: all text still to come when the file is read, and
before that a byte outside a tag, or the tag that it begins in. -/
def CallFits (value : Bytes → Bytes) (text : Bytes) (w : Work) (maxSize : ℤ) : Prop :=
  if w.dwOperIndex = w.dwTotal then (pending text w w.ssiCtx).length ≤ maxSize.toNat
  else match tagSoFar w.ssiCtx with
    | none => 1 ≤ maxSize ∨ Quiet (pending text w w.ssiCtx)
    | some name => TagFits value maxSize name (pending text w w.ssiCtx)

/-- The counters are in bounds. A copy of negative length and a tag name that is too long count as
faults. -/
structure InBounds (w : Work) : Prop where
  noFault : w.world.fault = false
  tagLength : 0 ≤ w.ssiCtx.tagLength ∧ w.ssiCtx.tagLength ≤ 63
  cacheOffset : 0 ≤ w.ssiCtx.cacheOffset ∧ w.ssiCtx.cacheOffset ≤ cacheSize

/-! ## Tag names -/

theorem unfinished_le (s : Bytes) : unfinished s ≤ s.length := by
  match s with
  | [] => exact le_refl _
  | [a] =>
    unfold unfinished
    split_ifs with h
    · cases h
    · exact le_refl _
    · exact Nat.zero_le _
  | a :: b :: s =>
    unfold unfinished
    rw [List.length_cons, List.length_cons]
    split_ifs <;> omega

/-- A byte that is no part of the unfinished end. -/
theorem unfinished_cons {b : UInt8} {s : Bytes} (h : ¬ (b = 45 ∧ (b :: s).length < tagEnd.length)) :
    unfinished (b :: s) = unfinished s := by
  match s, h with
  | [], h =>
    have hb : b ≠ 45 := fun hb => h ⟨hb, Nat.lt_of_sub_eq_succ rfl⟩
    simp [unfinished, hb]
  | [c], h =>
    have hb : b ≠ 45 := fun hb => h ⟨hb, Nat.lt_of_sub_eq_succ rfl⟩
    simp [unfinished, hb]
  | c :: d :: s, _ => simp [unfinished]

theorem tagEnd_first {s : Bytes} (h : ∃ k, tagEnd <+: s.drop k) :
    ∃ n r, s = n ++ tagEnd ++ r ∧ ∀ k < n.length, ¬ tagEnd <+: s.drop k := by
  classical
  obtain ⟨r, hr⟩ := Nat.find_spec h
  refine ⟨s.take (Nat.find h), r, ?_, ?_⟩
  · rw [List.append_assoc, hr, List.take_append_drop]
  · intro k hk
    exact Nat.find_min h (Nat.lt_of_lt_of_le hk (List.length_take_le _ _))

/-- Behind the part `name` of a tag name the text is `s`: the rest of the name finds room, and `Q` holds of
the whole name and of what is behind its end. -/
structure NameEnds (Q : Bytes → Bytes → Prop) (name s : Bytes) : Prop where
  closed : ∀ n r, s = n ++ tagEnd ++ r → (∀ k < n.length, ¬ tagEnd <+: s.drop k) →
    name.length + n.length ≤ 63 ∧ Q (name ++ n) r
  unclosed : (∀ k, ¬ tagEnd <+: s.drop k) → name.length + s.length ≤ 63 + unfinished s

/-- A letter of the name. -/
theorem NameEnds.letter {Q : Bytes → Bytes → Prop} {name s : Bytes} {b : UInt8} (h : NameEnds Q name (b :: s))
    (hb : ¬ tagEnd <+: b :: s) (hfinished : ¬ (b = 45 ∧ (b :: s).length < tagEnd.length)) :
    name.length < 63 ∧ NameEnds Q (name ++ [b]) s := by
  have hlength : (name ++ [b]).length = name.length + 1 := by rw [List.length_append, List.length_singleton]
  have hclosed : ∀ n r, s = n ++ tagEnd ++ r → (∀ k < n.length, ¬ tagEnd <+: s.drop k) →
      (name ++ [b]).length + n.length ≤ 63 ∧ Q (name ++ [b] ++ n) r := by
    intro n r hs hfirst
    have hall := h.closed (b :: n) r (by rw [hs]; rfl) ?_
    · rw [hlength, List.append_assoc]
      rw [List.length_cons] at hall
      exact ⟨by omega, hall.2⟩
    · intro k hk
      cases k with
      | zero => exact hb
      | succ k => exact hfirst k (Nat.lt_of_succ_lt_succ hk)
  have hunclosed : (∀ k, ¬ tagEnd <+: s.drop k) → (name ++ [b]).length + s.length ≤ 63 + unfinished s := by
    intro hno
    have hall := h.unclosed fun k => by
      cases k with
      | zero => exact hb
      | succ k => exact hno k
    rw [unfinished_cons hfinished, List.length_cons] at hall
    omega
  refine ⟨?_, hclosed, hunclosed⟩
  by_cases hex : ∃ k, tagEnd <+: s.drop k
  · obtain ⟨n, r, hs, hfirst⟩ := tagEnd_first hex
    have hroom := (hclosed n r hs hfirst).1
    omega
  · have hroom := hunclosed (not_exists.mp hex)
    have hle := unfinished_le s
    omega

theorem NameEnds.of_letter {Q : Bytes → Bytes → Prop} {name s : Bytes} {b : UInt8}
    (h : NameEnds Q (name ++ [b]) s) (hb : ¬ tagEnd <+: b :: s)
    (hfinished : ¬ (b = 45 ∧ (b :: s).length < tagEnd.length)) : NameEnds Q name (b :: s) := by
  have hlength : (name ++ [b]).length = name.length + 1 := by rw [List.length_append, List.length_singleton]
  constructor
  · intro n r hs hfirst
    cases n with
    | nil => exact absurd ⟨r, hs.symm⟩ hb
    | cons c n =>
      obtain ⟨rfl, htail⟩ := List.cons.inj (show b :: s = c :: (n ++ tagEnd ++ r) from hs)
      have hall := h.closed n r htail fun k hk => hfirst (k + 1) (Nat.succ_lt_succ hk)
      rw [List.append_assoc, hlength] at hall
      rw [List.length_cons]
      exact ⟨by omega, hall.2⟩
  · intro hno
    have hall := h.unclosed fun k => hno (k + 1)
    rw [unfinished_cons hfinished, List.length_cons]
    omega

theorem NameEnds.stop {Q : Bytes → Bytes → Prop} {name r : Bytes} (h : NameEnds Q name (tagEnd ++ r)) : Q name r := by
  have hall := h.closed [] r rfl fun k hk => absurd hk (Nat.not_lt_zero k)
  rw [List.append_nil] at hall
  exact hall.2

theorem NameEnds.of_stop {Q : Bytes → Bytes → Prop} {name r : Bytes} (hname : name.length ≤ 63) (h : Q name r) :
    NameEnds Q name (tagEnd ++ r) := by
  constructor
  · intro n t hs hfirst
    cases n with
    | nil =>
      rw [List.nil_append] at hs
      rw [← List.append_cancel_left hs, List.append_nil]
      exact ⟨hname, h⟩
    | cons c n => exact absurd (List.prefix_append tagEnd r) (hfirst 0 (Nat.zero_lt_succ _))
  · intro hno
    exact absurd (List.prefix_append tagEnd r) (hno 0)

/-- The first `-->` decides. -/
theorem NameEnds.of_first {Q : Bytes → Bytes → Prop} {name s : Bytes} (i : ℕ)
    (hfirst : ∀ k < i, ¬ tagEnd <+: s.drop k) (hend : tagEnd <+: s.drop i)
    (hroom : name.length + i ≤ 63) (hQ : Q (name ++ s.take i) (s.drop (i + tagEnd.length))) :
    NameEnds Q name s := by
  refine ⟨fun n r hs hno => ?_, fun hno => absurd hend (hno i)⟩
  have hdrop : s.drop n.length = tagEnd ++ r := by
    rw [hs, List.append_assoc, List.drop_left]
  have hi : n.length = i := by
    rcases Nat.lt_trichotomy n.length i with hlt | heq | hgt
    · exact absurd ⟨r, hdrop.symm⟩ (hfirst n.length hlt)
    · exact heq
    · exact absurd hend (hno i hgt)
  have hname : s.take i = n := by
    rw [hs, List.append_assoc, ← hi, List.take_left]
  have hrest : s.drop (i + tagEnd.length) = r := by
    rw [← List.drop_drop, ← hi, hdrop, List.drop_left]
  rw [hname, hrest] at hQ
  exact ⟨by omega, hQ⟩

theorem tagFits_iff {value : Bytes → Bytes} {maxSize : ℤ} {name s : Bytes} :
    TagFits value maxSize name s ↔ NameEnds (fun n r =>
      (value (cstr n) = [] → 1 ≤ maxSize ∨ Quiet r) ∧ (value (cstr n) ≠ [] → 50 ≤ maxSize)) name s :=
  ⟨fun h => ⟨h.closed, h.unclosed⟩, fun h => ⟨h.closed, h.unclosed⟩⟩

theorem TagFits.letter {value : Bytes → Bytes} {maxSize : ℤ} {name s : Bytes} {b : UInt8}
    (h : TagFits value maxSize name (b :: s)) (hb : ¬ tagEnd <+: b :: s)
    (hfinished : ¬ (b = 45 ∧ (b :: s).length < tagEnd.length)) :
    name.length < 63 ∧ TagFits value maxSize (name ++ [b]) s := by
  rw [tagFits_iff] at h ⊢
  exact h.letter hb hfinished

theorem TagFits.stop {value : Bytes → Bytes} {maxSize : ℤ} {name r : Bytes}
    (h : TagFits value maxSize name (tagEnd ++ r)) :
    (value (cstr name) = [] → 1 ≤ maxSize ∨ Quiet r) ∧ (value (cstr name) ≠ [] → 50 ≤ maxSize) :=
  (tagFits_iff.mp h).stop

/-! ## Parsing the cache -/

/-- The scanner between two calls. -/
structure Scanner (x : SsiContext) : Prop where
  state : x.ssiState = 0 ∨ x.ssiState = 1 ∨ x.ssiState = 2
  outside : x.ssiState ≠ 2 → x.tagLength = 0 ∧ x.tagName = []
  inside : x.ssiState = 2 → Named x ∧ x.tagLength ≤ 63

/-- The scanner in a call, with the text `s` before it and `out` put out. -/
structure Scanning (value : Bytes → Bytes) (maxSize : ℤ) (x : SsiContext) (out s : Bytes) : Prop
    extends Scanner x where
  output : out.length ≤ maxSize.toNat
  room : x.ssiState ≠ 2 → (out.length : ℤ) < maxSize ∨ Quiet s
  tag : x.ssiState = 2 → out = [] ∧ TagFits value maxSize (x.tagName.take x.tagLength.toNat) s

/-- What parsing the bytes `p` of the cache, with `u` still unread, comes to. -/
structure Scanned (value : Bytes → Bytes) (maxSize : ℤ) (x : SsiContext) (p u : Bytes)
    (r : Bytes × SsiContext × Bytes × ScanEnd) : Prop where
  scanner : Scanner r.2.1
  output : r.2.2.1.length ≤ maxSize.toNat
  source : r.2.1.fp = x.fp ∧ r.2.1.ssi = x.ssi
  noFault : r.2.2.2 ≠ .fault
  more : r.2.2.2 = .more → r.1.length < tagStart.length ∧
    Scanning value maxSize r.2.1 r.2.2.1 (r.1 ++ u)
  block : r.2.2.2 = .ready2Send → r.1.length < p.length

section Parse

variable {value : Bytes → Bytes} {maxSize : ℤ}

theorem Scanned.step {x y : SsiContext} {p q u : Bytes} {r : Bytes × SsiContext × Bytes × ScanEnd}
    (h : Scanned value maxSize y q u r) (hsource : y.fp = x.fp ∧ y.ssi = x.ssi)
    (hlen : q.length ≤ p.length) : Scanned value maxSize x p u r :=
  ⟨h.scanner, h.output, ⟨h.source.1.trans hsource.1, h.source.2.trans hsource.2⟩, h.noFault, h.more,
    fun he => Nat.lt_of_lt_of_le (h.block he) hlen⟩

/-- The scan stops for more text with the scanner as it is. -/
theorem Scanning.more {x : SsiContext} {out p u : Bytes} (h : Scanning value maxSize x out (p ++ u))
    (hshort : p.length < tagStart.length) : Scanned value maxSize x p u (p, x, out, .more) :=
  ⟨h.toScanner, h.output, ⟨rfl, rfl⟩, (fun he => by cases he), fun _ => ⟨hshort, h⟩,
    (fun he => by cases he)⟩

theorem Scanner.search {x : SsiContext} (h : Scanner x) (hx : x.ssiState ≠ 2) :
    Scanner { x with ssiState := 1 } :=
  ⟨.inr (.inl rfl), fun _ => h.outside hx, fun h2 => absurd h2 (show (1 : ℤ) ≠ 2 by decide)⟩

theorem Scanning.search {x : SsiContext} {out s : Bytes} (h : Scanning value maxSize x out s)
    (hx : x.ssiState ≠ 2) : Scanning value maxSize { x with ssiState := 1 } out s :=
  ⟨h.toScanner.search hx, h.output, fun _ => h.room hx, fun h2 => absurd h2 (show (1 : ℤ) ≠ 2 by decide)⟩

/-- Behind `<!--#` a name begins. -/
theorem Scanner.start {x : SsiContext} (h : Scanner x) (hx : x.ssiState ≠ 2) :
    Scanner { x with ssiState := 2 } := by
  obtain ⟨hl, hn⟩ := h.outside hx
  refine ⟨.inr (.inr rfl), fun h2 => absurd rfl h2, fun _ => ⟨?_, ?_⟩⟩
  · exact ⟨by rw [hl], [], [], by rw [hl]; rfl, hn, .inl rfl⟩
  · rw [hl]
    decide

/-- A byte outside a tag is put out only where there is room for it. -/
theorem Scanning.copied {x : SsiContext} {out rest u : Bytes} {b : UInt8}
    (h : Scanning value maxSize x out (b :: (rest ++ u))) (hx : x.ssiState ≠ 2)
    (hshort : ¬ (b = 60 ∧ (b :: rest).length < tagStart.length))
    (hno : ¬ (b = 60 ∧ strnicmp (b :: rest) tagStart tagStart.length = 0)) :
    (out.length : ℤ) < maxSize := by
  rcases h.room hx with hroom | hnil | hstart | ⟨hhead, hlen⟩
  · exact hroom
  · cases hnil
  · exact absurd hstart (no_tagStart hshort hno)
  · rw [List.head?_cons, Option.some.injEq] at hhead
    refine absurd ⟨hhead, ?_⟩ hshort
    rw [List.length_cons, List.length_append] at hlen
    rw [List.length_cons]
    omega

/-- What `ReplaceTag` puts out for a tag for which there is room. -/
theorem replaceTag_fits {x : SsiContext} {r : Bytes} {text : Bytes} {nAppend : ℤ} (hn : Named x)
    (h : TagFits value maxSize (x.tagName.take x.tagLength.toNat) (tagEnd ++ r))
    (hrep : replaceTag value x.tagName (maxSize - ([] : Bytes).length - 50) = (text, nAppend)) :
    0 ≤ nAppend ∧ text.length ≤ maxSize.toNat ∧ ((text.length : ℤ) < maxSize ∨ Quiet r) := by
  obtain ⟨hempty, hvalue⟩ := h.stop
  rw [← hn.cstr_eq] at hempty hvalue
  unfold replaceTag at hrep
  simp only [List.length_nil] at hrep
  by_cases hv : value (cstr x.tagName) = []
  · rw [if_pos hv] at hrep
    obtain ⟨rfl, rfl⟩ := Prod.mk.inj hrep
    refine ⟨le_refl _, Nat.zero_le _, (hempty hv).imp_left fun h1 => ?_⟩
    rw [List.length_nil]
    omega
  · rw [if_neg hv] at hrep
    have hroom := hvalue hv
    obtain ⟨rfl, rfl⟩ := Prod.mk.inj hrep
    rw [List.length_take]
    refine ⟨?_, ?_, .inl ?_⟩ <;> split_ifs <;> omega

theorem Named.length_eq {x : SsiContext} (h : Named x) :
    (x.tagName.take x.tagLength.toNat).length = x.tagLength.toNat := by
  obtain ⟨-, name, junk, hl, hn, -⟩ := h
  rw [hn, ← hl, List.take_left]

/-- A letter of a name finds room in the name buffer. -/
theorem Scanning.letter {x : SsiContext} {out s : Bytes} {b : UInt8}
    (h : Scanning value maxSize x out (b :: s)) (hx : x.ssiState = 2) (hb : ¬ tagEnd <+: b :: s)
    (hfinished : ¬ (b = 45 ∧ (b :: s).length < tagEnd.length)) :
    0 ≤ x.tagLength ∧ x.tagLength < 63 ∧ Scanning value maxSize (x.pushName b) out s := by
  obtain ⟨hnamed, -⟩ := h.inside hx
  obtain ⟨hout, htag⟩ := h.tag hx
  obtain ⟨hlt, htag⟩ := htag.letter hb hfinished
  have h0 := hnamed.1
  rw [hnamed.length_eq] at hlt
  obtain ⟨hpush, hname⟩ := hnamed.push b
  have hlength : (x.pushName b).tagLength = x.tagLength + 1 := rfl
  refine ⟨h0, by omega, ⟨.inr (.inr hx), fun h2 => absurd hx h2, fun _ => ⟨hpush, by omega⟩⟩, h.output,
    fun h2 => absurd hx h2, fun _ => ⟨hout, ?_⟩⟩
  rw [hname]
  exact htag

/-- A byte that the cache tells to be finished is finished in the text. -/
theorem finished_of_cache {b : UInt8} {rest : Bytes}
    (h : ¬ (b = 45 ∧ (b :: rest).length < tagEnd.length)) (u : Bytes) :
    ¬ (b = 45 ∧ (b :: (rest ++ u)).length < tagEnd.length) := by
  rintro ⟨hb, hlen⟩
  refine h ⟨hb, ?_⟩
  rw [List.length_cons, List.length_append] at hlen
  rw [List.length_cons]
  omega

/-- Parsing keeps the counters in bounds when there is room for what comes. -/
theorem ssiScan_scanned (u : Bytes) (x : SsiContext) (out p : Bytes)
    (hx : Scanning value maxSize x out (p ++ u)) :
    Scanned value maxSize x p u (ssiScan value maxSize x out p) := by
  fun_induction ssiScan value maxSize x out p with
  | case1 x out => exact hx.more (Nat.zero_lt_succ _)
  | case2 x out b rest state hs y hshort =>
    have h2 := outside_of_search hs
    exact ((hx.search h2).more hshort.2).step ⟨rfl, rfl⟩ (le_refl _)
  | case3 x out b rest state hs y hshort hfound =>
    have h2 := outside_of_search hs
    refine ⟨hx.toScanner.start h2, hx.output, ⟨rfl, rfl⟩, (fun he => by cases he),
      (fun he => by cases he), ?_⟩
    intro _
    simp only [List.length_drop, List.length_cons]
    omega
  | case4 x out b rest state hs y hshort hno hfull =>
    have h2 := outside_of_search hs
    have hroom := hx.copied h2 hshort hno
    refine ⟨hx.toScanner.search h2, ?_, ⟨rfl, rfl⟩, (fun he => by cases he), (fun he => by cases he),
      fun _ => Nat.lt_succ_self _⟩
    simp only [List.length_append, List.length_singleton]
    omega
  | case5 x out b rest state hs y hshort hno hfull ih =>
    have h2 := outside_of_search hs
    have hroom := hx.copied h2 hshort hno
    have hlen : (out ++ [b]).length = out.length + 1 := by rw [List.length_append, List.length_singleton]
    refine (ih ⟨hx.toScanner.search h2, by omega, fun _ => .inl (not_le.mp hfull), ?_⟩).step ⟨rfl, rfl⟩
      (Nat.le_succ _)
    exact fun h2 => absurd h2 (show (1 : ℤ) ≠ 2 by decide)
  | case6 x out b rest state hs hs2 hshort =>
    exact hx.more (Nat.lt_trans hshort.2 (by decide))
  | case7 x out b state hs hs2 y z rest hfound text nAppend hrep hneg hshort =>
    have h2 := inside_of_name hs2
    obtain ⟨rfl, htag⟩ := hx.tag h2
    have he : [b, y, z] = tagEnd := (((tagEnd_iff _).mp hfound.2).eq_of_length rfl).symm
    have hp : b :: y :: z :: rest ++ u = tagEnd ++ (rest ++ u) := by
      rw [← he]
      rfl
    rw [hp] at htag
    have hpos := (replaceTag_fits (hx.inside h2).1 htag hrep).1
    omega
  | case8 x out b state hs hs2 y z rest hfound text nAppend hrep hneg x' hshort ih =>
    have h2 := inside_of_name hs2
    obtain ⟨rfl, htag⟩ := hx.tag h2
    have he : [b, y, z] = tagEnd := (((tagEnd_iff _).mp hfound.2).eq_of_length rfl).symm
    have hp : b :: y :: z :: rest ++ u = tagEnd ++ (rest ++ u) := by
      rw [← he]
      rfl
    rw [hp] at htag
    obtain ⟨-, houtput, hroom⟩ := replaceTag_fits (hx.inside h2).1 htag hrep
    refine (ih ⟨⟨.inl rfl, fun _ => ⟨rfl, rfl⟩, ?_⟩, houtput, fun _ => hroom, ?_⟩).step ⟨rfl, rfl⟩ ?_
    · exact fun h2 => absurd h2 (show (0 : ℤ) ≠ 2 by decide)
    · exact fun h2 => absurd h2 (show (0 : ℤ) ≠ 2 by decide)
    · simp only [List.length_cons]
      omega
  | case9 x out b state hs hs2 y z rest hno hfull hshort =>
    have h2 := inside_of_name hs2
    have hfinished : ¬ (b = 45 ∧ (b :: (y :: z :: rest ++ u)).length < tagEnd.length) := by
      rintro ⟨-, hlen⟩
      exact absurd hlen (not_lt.mpr (Nat.le_add_left _ _))
    have hletter := hx.letter h2 (no_tagEnd hno) hfinished
    omega
  | case10 x out b state hs hs2 y z rest hno hfull hshort ih =>
    have h2 := inside_of_name hs2
    have hfinished : ¬ (b = 45 ∧ (b :: (y :: z :: rest ++ u)).length < tagEnd.length) := by
      rintro ⟨-, hlen⟩
      exact absurd hlen (not_lt.mpr (Nat.le_add_left _ _))
    exact (ih (hx.letter h2 (no_tagEnd hno) hfinished).2.2).step ⟨rfl, rfl⟩ (Nat.le_succ _)
  | case11 x out b state hs hs2 rest hrest hfull hshort =>
    have h2 := inside_of_name hs2
    have hletter := hx.letter h2 (no_tagEnd_short hrest hshort) (finished_of_cache hshort u)
    omega
  | case12 x out b state hs hs2 rest hrest hfull hshort ih =>
    have h2 := inside_of_name hs2
    have hletter := hx.letter h2 (no_tagEnd_short hrest hshort) (finished_of_cache hshort u)
    exact (ih hletter.2.2).step ⟨rfl, rfl⟩ (Nat.le_succ _)
  | case13 x out b rest state hs hs2 =>
    exact absurd (search_or_name hx.state) (not_or.mpr ⟨hs, hs2⟩)

/-! ## Filling the cache -/

/-- What the refill loop leaves. -/
structure Refilled (maxSize : ℤ) (h base : ℕ) (text : Bytes) (w : Work) (x : SsiContext) (w' : Work)
    (x' : SsiContext) (out' : Bytes) : Prop where
  fetching : Fetching h base text w' x'
  scanner : Scanner x'
  output : out'.length ≤ maxSize.toNat
  fault : w'.world.fault = w.world.fault
  source : x'.ssi = x.ssi

theorem Scanner.of_eq {x y : SsiContext} (h : Scanner x) (hstate : y.ssiState = x.ssiState)
    (hname : y.tagName = x.tagName) (hlength : y.tagLength = x.tagLength) : Scanner y := by
  refine ⟨by rw [hstate]; exact h.state, ?_, ?_⟩
  · rw [hstate, hname, hlength]
    exact h.outside
  · unfold Named
    rw [hstate, hname, hlength]
    exact h.inside

theorem Scanning.of_eq {x y : SsiContext} {out s : Bytes} (h : Scanning value maxSize x out s)
    (hstate : y.ssiState = x.ssiState) (hname : y.tagName = x.tagName)
    (hlength : y.tagLength = x.tagLength) : Scanning value maxSize y out s := by
  refine ⟨h.toScanner.of_eq hstate hname hlength, h.output, ?_, ?_⟩
  · rw [hstate]
    exact h.room
  · rw [hstate, hname, hlength]
    exact h.tag

theorem ssiLoop_bounded {env : Env} {h base : ℕ} {text : Bytes} (hs : Serves env h base text) (n : ℕ)
    (w : Work) (x : SsiContext) (out : Bytes) (hn : (w.dwTotal - w.dwOperIndex).toNat < n)
    (hf : Fetching h base text w x) (hx : Scanning value maxSize x out (pending text w x)) :
    ∃ w' x' out', ssiLoop env value maxSize n w x out = (w', x', some out') ∧
      Refilled maxSize h base text w x w' x' out' := by
  induction n generalizing w x out with
  | zero => exact absurd hn (Nat.not_lt_zero _)
  | succ n ih =>
    by_cases hlt : w.dwOperIndex < w.dwTotal
    swap
    · refine ⟨w, x, out, by rw [ssiLoop, if_neg hlt], hf, hx.toScanner, hx.output, rfl, rfl⟩
    obtain ⟨world, data, hread, hpos, hfault, hdpos, hdle, hdrop, hplen⟩ := hf.refill hs hlt
    have h0 := hf.nonneg
    have htake : x.cache.take x.cacheOffset.toNat = x.cache := by
      rw [hf.offset, Int.toNat_natCast, List.take_length]
    have hscan : Scanning value maxSize x out
        ((x.cache ++ data) ++ text.drop (w.dwOperIndex + data.length).toNat) := by
      rw [List.append_assoc, hdrop]
      exact hx
    have hp := ssiScan_scanned _ x out (x.cache ++ data) hscan
    rw [ssiLoop, if_pos hlt, hf.fp]
    simp only [hread, htake]
    -- the scanner's result, with what is left of the cache put back
    generalize ssiScan value maxSize x out (x.cache ++ data) = r at hp
    obtain ⟨rest, x', out', e⟩ := r
    let w1 : Work := { w with world := world, dwOperIndex := w.dwOperIndex + data.length }
    let x1 : SsiContext := { x' with cache := rest, cacheOffset := rest.length }
    have hrest : rest.length < cacheSize := by
      cases e with
      | more => exact Nat.lt_trans (hp.more rfl).1 (by decide)
      | ready2Send => exact Nat.lt_of_lt_of_le (hp.block rfl) hplen
      | fault => exact absurd rfl hp.noFault
    have hf1 : Fetching h base text w1 x1 := by
      refine ⟨hp.source.1.trans hf.fp, hf.total, ?_, hdle, hpos, rfl, hrest⟩
      show 0 ≤ w.dwOperIndex + (data.length : ℤ)
      omega
    cases e with
    | fault => exact absurd rfl hp.noFault
    | ready2Send =>
      exact ⟨w1, x1, out', rfl, hf1, hp.scanner.of_eq rfl rfl rfl, hp.output, hfault, hp.source.2⟩
    | more =>
      have hn1 : (w1.dwTotal - w1.dwOperIndex).toNat < n := by
        show (w.dwTotal - (w.dwOperIndex + (data.length : ℤ))).toNat < n
        omega
      obtain ⟨w2, x2, out2, hl2, hr⟩ := ih w1 x1 out' hn1 hf1 ((hp.more rfl).2.of_eq rfl rfl rfl)
      exact ⟨w2, x2, out2, hl2, hr.fetching, hr.scanner, hr.output, hr.fault.trans hfault,
        hr.source.trans hp.source.2⟩

/-! ## One call -/

/-- An SSI page while there are calls to come. -/
structure Sending (h base : ℕ) (text : Bytes) (w : Work) : Prop where
  ssi : w.ssiCtx.ssi > 0
  noFault : w.world.fault = false
  fetching : Fetching h base text w w.ssiCtx
  scanner : Scanner w.ssiCtx

theorem Scanner.tagLength {x : SsiContext} (h : Scanner x) : 0 ≤ x.tagLength ∧ x.tagLength ≤ 63 := by
  by_cases hx : x.ssiState = 2
  · obtain ⟨hnamed, hle⟩ := h.inside hx
    exact ⟨hnamed.1, hle⟩
  · rw [(h.outside hx).1]
    decide

theorem Sending.inBounds {h base : ℕ} {text : Bytes} {w : Work} (hw : Sending h base text w) :
    InBounds w := by
  have hoffset := hw.fetching.offset
  have hsmall := hw.fetching.small
  exact ⟨hw.noFault, hw.scanner.tagLength, by omega, by omega⟩

theorem Sending.scanning {h base : ℕ} {text : Bytes} {w : Work} (hw : Sending h base text w)
    (hne : w.dwOperIndex ≠ w.dwTotal) (hfits : CallFits value text w maxSize) :
    Scanning value maxSize w.ssiCtx [] (pending text w w.ssiCtx) := by
  unfold CallFits at hfits
  rw [if_neg hne] at hfits
  refine ⟨hw.scanner, Nat.zero_le _, fun hx => ?_, fun hx => ?_⟩
  · rw [tagSoFar_outside hx] at hfits
    exact hfits.imp_left fun h1 => by
      rw [List.length_nil]
      omega
  · rw [tagSoFar_inside hx] at hfits
    exact ⟨rfl, hfits⟩

/-- A call with enough room writes no more than it may, and leaves the counters in bounds. -/
theorem readPage_bounded {env : Env} {h base : ℕ} {text : Bytes} (hs : Serves env h base text) {c : Core}
    {w : Work} (hw : Sending h base text w) (hfits : CallFits value text w maxSize) :
    (readPage env value c w maxSize).2.1.length ≤ maxSize.toNat ∧
      InBounds (readPage env value c w maxSize).1 ∧
      ((readPage env value c w maxSize).1.dwOperStage ≠ stageEnd →
        Sending h base text (readPage env value c w maxSize).1) := by
  have hssi := hw.ssi
  have hoffset := hw.fetching.offset
  unfold readPage
  simp only
  by_cases hc : c.requestMethod = none
  · rw [if_pos hc]
    exact ⟨Nat.zero_le _, hw.inBounds, fun _ => hw⟩
  rw [if_neg hc]
  by_cases hend : w.dwOperIndex = w.dwTotal
  · have hzero : w.dwTotal - w.dwOperIndex = 0 := by omega
    unfold CallFits at hfits
    rw [if_pos hend, pending, List.length_append] at hfits
    rw [if_pos hzero]
    by_cases hleft : w.ssiCtx.ssi > 0 ∧ w.ssiCtx.cacheOffset > 0
    · rw [if_pos hleft]
      refine ⟨?_, ⟨hw.noFault, hw.scanner.tagLength, le_refl _, Int.natCast_nonneg _⟩,
        fun hstage => absurd rfl hstage⟩
      simp only [flushCache, List.length_append, List.length_take, List.length_replicate]
      omega
    · rw [if_neg hleft]
      have hb := hw.inBounds
      exact ⟨Nat.zero_le _, ⟨hb.noFault, hb.tagLength, hb.cacheOffset⟩, fun hstage => absurd rfl hstage⟩
  · have hscan := hw.scanning hend hfits
    obtain ⟨w1, x1, out, hloop, hr⟩ := ssiLoop_bounded hs
      (env.patience + (w.dwTotal - w.dwOperIndex).toNat + 1) w w.ssiCtx [] (by omega) hw.fetching hscan
    rw [if_neg (by omega), if_neg (by omega), hloop]
    have hsent : Sending h base text
        { w1.setSsi x1 with dwOperStage := stageAfterBlock (w1.setSsi x1) x1 } := by
      have hf := hr.fetching
      refine ⟨?_, hr.fault.trans hw.noFault, ?_, hr.scanner⟩
      · show x1.ssi > 0
        rw [hr.source]
        exact hssi
      · exact ⟨hf.fp, hf.total, hf.nonneg, hf.le, hf.position, hf.offset, hf.small⟩
    exact ⟨hr.output, hsent.inBounds, fun _ => hsent⟩

end Parse

/-! ## The calls of one response -/

/-- An SSI page that was opened to be sent from position `base` of its file on. -/
structure OpenedAt (h base : ℕ) (text : Bytes) (w : Work) : Prop where
  ctx : w.appContext = .ssi { SsiContext.zero with ssi := 1, fp := .handle h }
  index : w.dwOperIndex = 0
  total : w.dwTotal = text.length
  position : w.world.files.position h = base
  noFault : w.world.fault = false

theorem OpenedAt.sending {h base : ℕ} {text : Bytes} {w : Work} (ho : OpenedAt h base text w) :
    Sending h base text w := by
  have hx : w.ssiCtx = { SsiContext.zero with ssi := 1, fp := .handle h } := by
    rw [Work.ssiCtx, ho.ctx]
    rfl
  have hstate : w.ssiCtx.ssiState = 0 := by rw [hx]; rfl
  refine ⟨by rw [hx]; exact Int.one_pos, ho.noFault, ?_, .inl hstate, fun _ => ?_, fun h2 => ?_⟩
  · rw [hx]
    refine ⟨rfl, ho.total, by rw [ho.index], by rw [ho.index, ho.total]; omega, ?_, rfl,
      Nat.zero_lt_succ _⟩
    rw [ho.position, ho.index]
    rfl
  · rw [hx]
    exact ⟨rfl, rfl⟩
  · rw [hstate] at h2
    exact absurd h2 (by decide)

/-- Every call before the `n`th has room for what it puts out. -/
def AllFit (env : Env) (value : Bytes → Bytes) (c : Core) (text : Bytes) (w : Work) (sizes : ℕ → ℤ)
    (n : ℕ) : Prop :=
  ∀ k < n, (readPages env value c w sizes k).1.dwOperStage ≠ stageEnd →
    CallFits value text (readPages env value c w sizes k).1 (sizes k)

theorem readPages_state {env : Env} {value : Bytes → Bytes} {c : Core} {w : Work} {sizes : ℕ → ℤ} (n : ℕ) :
    (readPages env value c w sizes (n + 1)).1 =
      if (readPages env value c w sizes n).1.dwOperStage = stageEnd then (readPages env value c w sizes n).1
      else (readPage env value c (readPages env value c w sizes n).1 (sizes n)).1 := by
  rw [readPages_succ]
  split_ifs
  · rfl
  · rfl

theorem readPages_sending {env : Env} {value : Bytes → Bytes} {c : Core} {h base : ℕ} {text : Bytes}
    (hs : Serves env h base text) {w : Work} (ho : OpenedAt h base text w) {sizes : ℕ → ℤ} (n : ℕ)
    (hfits : AllFit env value c text w sizes n) :
    InBounds (readPages env value c w sizes n).1 ∧
      ((readPages env value c w sizes n).1.dwOperStage ≠ stageEnd →
        Sending h base text (readPages env value c w sizes n).1) := by
  induction n with
  | zero => exact ⟨ho.sending.inBounds, fun _ => ho.sending⟩
  | succ n ih =>
    obtain ⟨hbounds, hsending⟩ := ih fun k hk => hfits k (Nat.lt_succ_of_lt hk)
    rw [readPages_state]
    by_cases hstage : (readPages env value c w sizes n).1.dwOperStage = stageEnd
    · rw [if_pos hstage]
      exact ⟨hbounds, fun hne => absurd hstage hne⟩
    · rw [if_neg hstage]
      exact (readPage_bounded hs (hsending hstage) (hfits n (Nat.lt_succ_self n) hstage)).2

/-- While every call of a response has room for what it puts out, the counters stay in bounds and no
call writes more than it may. -/
theorem ssi_bounds_hold {env : Env} {value : Bytes → Bytes} {c : Core} {h base : ℕ} {text : Bytes}
    (hs : Serves env h base text) {w : Work} (ho : OpenedAt h base text w) {sizes : ℕ → ℤ} {n : ℕ}
    (hfits : AllFit env value c text w sizes n) :
    (∀ k ≤ n, InBounds (readPages env value c w sizes k).1) ∧
      ∀ k < n, (readPages env value c w sizes k).1.dwOperStage ≠ stageEnd →
        (readPage env value c (readPages env value c w sizes k).1 (sizes k)).2.1.length ≤
          (sizes k).toNat := by
  have hstart : ∀ k ≤ n, AllFit env value c text w sizes k :=
    fun k hk i hi => hfits i (Nat.lt_of_lt_of_le hi hk)
  constructor
  · intro k hk
    exact (readPages_sending hs ho k (hstart k hk)).1
  · intro k hk hstage
    have hsending := (readPages_sending hs ho k (hstart k (Nat.le_of_lt hk))).2 hstage
    exact (readPage_bounded hs hsending (hfits k hk hstage)).1

/-- A page whose four blocks begin outside a tag, in a tag with a value, in one without, and with the
file read. -/
theorem ssi_bounds_hold_tagPage :
    (∀ k ≤ 4, InBounds (readPages (Env.calm tagPage) (tagValue Device.initDevInfo) getCore
        (openedPage tagPage) (fun _ => 128) k).1) ∧
      ∀ k < 4, (readPage (Env.calm tagPage) (tagValue Device.initDevInfo) getCore
        (readPages (Env.calm tagPage) (tagValue Device.initDevInfo) getCore (openedPage tagPage)
          (fun _ => 128) k).1 128).2.1.length ≤ 128 := by
  have hserves : Serves (Env.calm tagPage) 0 0 tagPage := Stable.serves fun _ _ _ => rfl
  have hfits : AllFit (Env.calm tagPage) (tagValue Device.initDevInfo) getCore tagPage
      (openedPage tagPage) (fun _ => 128) 4 := by
    intro k hk _
    unfold CallFits
    interval_cases k
    · rw [if_neg (by decide +kernel), tagSoFar_outside (by decide +kernel)]
      exact .inl (by decide)
    · rw [if_neg (by decide +kernel), tagSoFar_inside (by decide +kernel)]
      refine tagFits_iff.mpr (.of_first 8 (by decide +kernel) (by decide +kernel) (by decide +kernel) ?_)
      exact ⟨fun _ => .inl (by decide), fun _ => by decide⟩
    · rw [if_neg (by decide +kernel), tagSoFar_inside (by decide +kernel)]
      refine tagFits_iff.mpr (.of_first 2 (by decide +kernel) (by decide +kernel) (by decide +kernel) ?_)
      exact ⟨fun _ => .inl (by decide), fun _ => by decide⟩
    · rw [if_pos (by decide +kernel)]
      decide +kernel
  have h := @ssi_bounds_hold (Env.calm tagPage) (tagValue Device.initDevInfo) getCore 0 0 _ hserves _
    ⟨rfl, rfl, rfl, rfl, rfl⟩ (fun _ => 128) 4 hfits
  have hstage : ∀ k < 4, (readPages (Env.calm tagPage) (tagValue Device.initDevInfo) getCore
      (openedPage tagPage) (fun _ => 128) k).1.dwOperStage ≠ stageEnd := by
    decide +kernel
  exact ⟨h.1, fun k hk => h.2 k hk (hstage k hk)⟩

/-! ## A tag that does not end -/

/-- The sizes that `CGI_LoadContentToSend` asks for with `left` bytes of the buffer still to be sent. -/
def Asked (maxSize : ℤ) : Prop :=
  ∃ left : ℤ, 0 ≤ left ∧ left ≤ maxSendBufSize ∧
    (maxSize = maxSendBufSize - left - 2 ∨ maxSize = maxSendBufSize - left - 2 - 10)

/-- A `<!--#` with more letters behind it than a name has room for. -/
def longTag : Bytes := tagStart ++ List.replicate 70 97

/-- The letters of its name go past the end of the name buffer. -/
theorem ssi_bounds_hold_fails :
    ¬ ∀ (env : Env) (value : Bytes → Bytes), (∀ name, (value name).length ≤ 63) →
      ∀ (c : Core) (h base : ℕ) (text : Bytes), Serves env h base text →
      ∀ (w : Work), OpenedAt h base text w → ∀ (sizes : ℕ → ℤ), (∀ n, Asked (sizes n)) → ∀ n,
        (∀ k ≤ n, InBounds (readPages env value c w sizes k).1) ∧
          ∀ k < n, (readPages env value c w sizes k).1.dwOperStage ≠ stageEnd →
            (readPage env value c (readPages env value c w sizes k).1 (sizes k)).2.1.length ≤
              (sizes k).toNat := by
  intro h
  have hall := (h (Env.calm longTag) (fun _ => []) (fun _ => Nat.zero_le _) getCore 0 0 longTag
    (Stable.serves fun _ _ _ => rfl) (openedPage longTag) ⟨rfl, rfl, rfl, rfl, rfl⟩ (fun _ => 1588)
    (fun _ => ⟨0, by decide, by decide, .inr (by decide)⟩) 2).1 2 (le_refl _)
  have hfault : (readPages (Env.calm longTag) (fun _ => []) getCore (openedPage longTag)
      (fun _ => 1588) 2).1.world.fault = true := by
    decide +kernel
  rw [hall.noFault] at hfault
  cases hfault

end SsiPage
end StraightHttpd
