import StraightHttpd.Httpd.SsiBounds
import StraightHttpd.Lib.Loop

/-! # When the SSI engine comes to an end (`http_web.c`)

A round of the loop in `WEB_ReadContent` refills the cache and parses it. The loop ends unless a read that
is short of the announced size delivers nothing, again and again, while the bytes in the cache are not
enough to decide on a mark.
-/

set_option autoImplicit false

namespace StraightHttpd
namespace SsiPage
open CMemory

/-! ## Parsing the cache -/

/-- The bytes in the cache are not enough to go on. -/
def Undecided (x : SsiContext) (p : Bytes) : Prop :=
  p = [] ∨ (x.ssiState = 1 ∧ p.head? = some 60 ∧ p.length < tagStart.length) ∨
    x.ssiState = 2 ∧ p.head? = some 45 ∧ p.length < tagEnd.length

/-- The rest of a tag name and the value behind it find room, when `out` is put out already. -/
def NameFits (value : Bytes → Bytes) (maxSize : ℤ) (out name p : Bytes) : Prop :=
  NameEnds (fun n _ => value (cstr n) ≠ [] → (out.length : ℤ) + 50 ≤ maxSize) name p

section Parse

variable {value : Bytes → Bytes} {maxSize : ℤ}

/-- What parsing the bytes `p` leaves. -/
structure Left (x : SsiContext) (p : Bytes) (r : Bytes × SsiContext × Bytes × ScanEnd) : Prop where
  source : r.2.1.fp = x.fp ∧ r.2.1.ssi = x.ssi
  scanner : r.2.2.2 ≠ .fault → Scanner r.2.1
  more : r.2.2.2 = .more → Undecided r.2.1 r.1
  block : r.2.2.2 = .ready2Send → r.1.length < p.length

theorem Left.step {x y : SsiContext} {p q : Bytes} {r : Bytes × SsiContext × Bytes × ScanEnd} (h : Left y q r)
    (hsource : y.fp = x.fp ∧ y.ssi = x.ssi) (hlen : q.length ≤ p.length) : Left x p r :=
  ⟨⟨h.source.1.trans hsource.1, h.source.2.trans hsource.2⟩, h.scanner, h.more,
    fun he => Nat.lt_of_lt_of_le (h.block he) hlen⟩

theorem Scanner.push {x : SsiContext} (h : Scanner x) (hx : x.ssiState = 2) (b : UInt8) (hroom : ¬ 63 ≤ x.tagLength) :
    Scanner (x.pushName b) := by
  obtain ⟨hnamed, -⟩ := h.inside hx
  have hlength : (x.pushName b).tagLength = x.tagLength + 1 := rfl
  exact ⟨.inr (.inr hx), fun h2 => absurd hx h2, fun _ => ⟨(hnamed.push b).1, by omega⟩⟩

theorem Scanner.stop (x : SsiContext) : Scanner { x with ssiState := 0, tagLength := 0, tagName := [] } :=
  ⟨.inl rfl, fun _ => ⟨rfl, rfl⟩, fun h2 => absurd h2 (show (0 : ℤ) ≠ 2 by decide)⟩

theorem ssiScan_left (x : SsiContext) (out p : Bytes) (hx : Scanner x) :
    Left x p (ssiScan value maxSize x out p) := by
  fun_induction ssiScan value maxSize x out p with
  | case1 x out => exact ⟨⟨rfl, rfl⟩, fun _ => hx, fun _ => .inl rfl, fun he => by cases he⟩
  | case2 x out b rest state hs y hshort =>
    have h2 := outside_of_search hs
    refine ⟨⟨rfl, rfl⟩, fun _ => hx.search h2, fun _ => .inr (.inl ⟨rfl, ?_, hshort.2⟩), fun he => by cases he⟩
    rw [hshort.1]
    rfl
  | case3 x out b rest state hs y hshort hfound =>
    have h2 := outside_of_search hs
    refine ⟨⟨rfl, rfl⟩, fun _ => hx.start h2, (fun he => by cases he), fun _ => ?_⟩
    simp only [List.length_drop, List.length_cons]
    omega
  | case4 x out b rest state hs y hshort hno hfull =>
    have h2 := outside_of_search hs
    exact ⟨⟨rfl, rfl⟩, fun _ => hx.search h2, (fun he => by cases he), fun _ => Nat.lt_succ_self _⟩
  | case5 x out b rest state hs y hshort hno hfull ih =>
    have h2 := outside_of_search hs
    exact (ih (hx.search h2)).step ⟨rfl, rfl⟩ (Nat.le_succ _)
  | case6 x out b rest state hs hs2 hshort =>
    have h2 := inside_of_name hs2
    refine ⟨⟨rfl, rfl⟩, fun _ => hx, fun _ => .inr (.inr ⟨h2, ?_, hshort.2⟩), fun he => by cases he⟩
    rw [hshort.1]
    rfl
  | case7 x out b state hs hs2 y z rest hfound text nAppend hrep hneg hshort =>
    exact ⟨⟨rfl, rfl⟩, (fun he => absurd rfl he), (fun he => by cases he), fun he => by cases he⟩
  | case8 x out b state hs hs2 y z rest hfound text nAppend hrep hneg x' hshort ih =>
    refine (ih (Scanner.stop x)).step ⟨rfl, rfl⟩ ?_
    simp only [List.length_cons]
    omega
  | case9 x out b state hs hs2 y z rest hno hfull hshort =>
    exact ⟨⟨rfl, rfl⟩, (fun he => absurd rfl he), (fun he => by cases he), fun he => by cases he⟩
  | case10 x out b state hs hs2 y z rest hno hfull hshort ih =>
    have h2 := inside_of_name hs2
    exact (ih (hx.push h2 b fun h => hfull (.inr h))).step ⟨rfl, rfl⟩ (Nat.le_succ _)
  | case11 x out b state hs hs2 rest hrest hfull hshort =>
    exact ⟨⟨rfl, rfl⟩, (fun he => absurd rfl he), (fun he => by cases he), fun he => by cases he⟩
  | case12 x out b state hs hs2 rest hrest hfull hshort ih =>
    have h2 := inside_of_name hs2
    exact (ih (hx.push h2 b fun h => hfull (.inr h))).step ⟨rfl, rfl⟩ (Nat.le_succ _)
  | case13 x out b rest state hs hs2 =>
    exact absurd (search_or_name hx.state) (not_or.mpr ⟨hs, hs2⟩)

/-- Undecided bytes stay as they are. -/
theorem ssiScan_undecided {x : SsiContext} {p : Bytes} (h : Undecided x p) (out : Bytes) :
    ssiScan value maxSize x out p = (p, x, out, .more) := by
  cases p with
  | nil => rw [ssiScan]
  | cons b rest =>
    rcases h with hnil | ⟨hstate, hhead, hlen⟩ | ⟨hstate, hhead, hlen⟩
    · cases hnil
    · obtain rfl : b = 60 := Option.some.inj hhead
      have hs : (if x.ssiState = 0 then (1 : ℤ) else x.ssiState) = 1 := by
        rw [hstate]
        rfl
      unfold ssiScan
      simp only [hs, if_true]
      rw [if_pos ⟨trivial, hlen⟩, ← hstate]
    · obtain rfl : b = 45 := Option.some.inj hhead
      have hs : (if x.ssiState = 0 then (1 : ℤ) else x.ssiState) = 2 := by
        rw [hstate]
        rfl
      have hne : ¬ (2 : ℤ) = 1 := by decide
      unfold ssiScan
      simp only [hs, if_neg hne, if_true]
      rw [if_pos ⟨trivial, hlen⟩]

/-- Where a tag name does not end, its letters but for an unfinished end are stored. -/
theorem NameFits.short {out name p : Bytes} (hname : name.length ≤ 63) (hhead : p.head? = some 45)
    (hlen : p.length < tagEnd.length) : NameFits value maxSize out name p := by
  constructor
  · intro n r hp _
    rw [hp, List.length_append, List.length_append] at hlen
    omega
  · intro _
    have hall : p.length ≤ unfinished p := by
      match p, hhead, hlen with
      | [b], hhead, _ =>
        obtain rfl : b = 45 := Option.some.inj hhead
        decide
      | [b, c], hhead, _ =>
        obtain rfl : b = 45 := Option.some.inj hhead
        exact le_of_eq rfl
      | b :: c :: d :: p, _, hlen => exact absurd hlen (not_lt.mpr (Nat.le_add_left _ _))
    omega

theorem Scanner.letter_fits {x : SsiContext} (hx : Scanner x) {out s : Bytes} {b : UInt8} (h2 : x.ssiState = 2)
    (hb : ¬ tagEnd <+: b :: s) (hfinished : ¬ (b = 45 ∧ (b :: s).length < tagEnd.length)) :
    NameFits value maxSize out (x.tagName.take x.tagLength.toNat) (b :: s) ↔
      x.tagLength < 63 ∧
        NameFits value maxSize out ((x.pushName b).tagName.take (x.pushName b).tagLength.toNat) s := by
  obtain ⟨hnamed, -⟩ := hx.inside h2
  have hlen := hnamed.length_eq
  have hpos := hnamed.1
  rw [(hnamed.push b).2]
  constructor
  · intro h
    obtain ⟨hroom, hrest⟩ := NameEnds.letter h hb hfinished
    exact ⟨by omega, hrest⟩
  · intro h
    exact NameEnds.of_letter h.2 hb hfinished

/-- Only a value that there is no room for comes to a negative length. -/
theorem replaceTag_neg_iff {x : SsiContext} {out text : Bytes} {nAppend : ℤ} (hn : Named x)
    (hrep : replaceTag value x.tagName (maxSize - out.length - 50) = (text, nAppend)) :
    nAppend < 0 ↔
      ¬ (value (cstr (x.tagName.take x.tagLength.toNat)) ≠ [] → (out.length : ℤ) + 50 ≤ maxSize) := by
  rw [← hn.cstr_eq]
  unfold replaceTag at hrep
  simp only at hrep
  by_cases hv : value (cstr x.tagName) = []
  · rw [if_pos hv] at hrep
    obtain ⟨-, rfl⟩ := Prod.mk.inj hrep
    exact iff_of_false (lt_irrefl _) (not_not.mpr fun h => absurd hv h)
  · rw [if_neg hv] at hrep
    obtain ⟨-, rfl⟩ := Prod.mk.inj hrep
    simp only [ne_eq, hv, not_false_eq_true, true_implies]
    split_ifs <;> omega

/-- The scan stays in the name buffer, and leaves room behind a value, exactly when there is enough. -/
theorem ssiScan_fits (x : SsiContext) (out p : Bytes) (hx : Scanner x) :
    (ssiScan value maxSize x out p).2.2.2 ≠ .fault ↔
      (x.ssiState = 2 → NameFits value maxSize out (x.tagName.take x.tagLength.toNat) p) := by
  fun_induction ssiScan value maxSize x out p with
  | case1 x out =>
    refine iff_of_true (fun he => by cases he) fun h2 => ?_
    obtain ⟨hnamed, hle⟩ := hx.inside h2
    have hlen := hnamed.length_eq
    refine ⟨fun n r hs _ => ?_, fun _ => ?_⟩
    · have hnil := congrArg List.length hs
      rw [List.length_append, List.length_append, List.length_nil] at hnil
      exact absurd hnil.symm (by rw [show tagEnd.length = 3 from rfl]; omega)
    · rw [hlen, List.length_nil]
      omega
  | case2 x out b rest state hs y hshort =>
    have h2 := outside_of_search hs
    exact iff_of_true (fun he => by cases he) fun h => absurd h h2
  | case3 x out b rest state hs y hshort hfound =>
    have h2 := outside_of_search hs
    exact iff_of_true (fun he => by cases he) fun h => absurd h h2
  | case4 x out b rest state hs y hshort hno hfull =>
    have h2 := outside_of_search hs
    exact iff_of_true (fun he => by cases he) fun h => absurd h h2
  | case5 x out b rest state hs y hshort hno hfull ih =>
    have h2 := outside_of_search hs
    refine iff_of_true ((ih (hx.search h2)).mpr fun h => ?_) fun h => absurd h h2
    exact absurd h (show (1 : ℤ) ≠ 2 by decide)
  | case6 x out b rest state hs hs2 hshort =>
    refine iff_of_true (fun he => by cases he) fun h2 => ?_
    obtain ⟨hnamed, hle⟩ := hx.inside h2
    refine NameFits.short ?_ (by rw [hshort.1]; rfl) hshort.2
    rw [hnamed.length_eq]
    omega
  | case7 x out b state hs hs2 y z rest hfound text nAppend hrep hneg hshort =>
    have h2 := inside_of_name hs2
    have he : [b, y, z] = tagEnd := (((tagEnd_iff _).mp hfound.2).eq_of_length rfl).symm
    have hstop := replaceTag_neg_iff (hx.inside h2).1 hrep
    have hp : b :: y :: z :: rest = tagEnd ++ rest := by
      rw [← he]
      rfl
    rw [hp]
    exact iff_of_false (not_not.mpr rfl) fun hfits => hstop.mp hneg (NameEnds.stop (hfits h2))
  | case8 x out b state hs hs2 y z rest hfound text nAppend hrep hneg x' hshort ih =>
    have h2 := inside_of_name hs2
    obtain ⟨hnamed, hle⟩ := hx.inside h2
    have he : [b, y, z] = tagEnd := (((tagEnd_iff _).mp hfound.2).eq_of_length rfl).symm
    have hstop := replaceTag_neg_iff hnamed hrep
    refine iff_of_true ((ih (Scanner.stop x)).mpr fun h => ?_) fun _ => ?_
    · exact absurd h (show (0 : ℤ) ≠ 2 by decide)
    · have hlen := hnamed.length_eq
      have hfits : NameFits value maxSize out (x.tagName.take x.tagLength.toNat) (tagEnd ++ rest) :=
        NameEnds.of_stop (by omega) (not_not.mp fun h => hneg (hstop.mpr h))
      rw [← he] at hfits
      exact hfits
  | case9 x out b state hs hs2 y z rest hno hfull hshort =>
    have h2 := inside_of_name hs2
    have hb := @no_tagEnd b y z rest [] hno
    rw [List.append_nil] at hb
    refine iff_of_false (not_not.mpr rfl) fun hfits => ?_
    have hroom := (hx.letter_fits h2 hb hshort).mp (hfits h2)
    have hpos := (hx.inside h2).1.1
    omega
  | case10 x out b state hs hs2 y z rest hno hfull hshort ih =>
    have h2 := inside_of_name hs2
    have hb := @no_tagEnd b y z rest [] hno
    rw [List.append_nil] at hb
    have hroom : ¬ 63 ≤ x.tagLength := fun h => hfull (.inr h)
    have hletter := @hx.letter_fits value maxSize x out _ b h2 hb hshort
    rw [ih (hx.push h2 b hroom)]
    exact ⟨fun h _ => hletter.mpr ⟨not_le.mp hroom, h h2⟩, fun h _ => (hletter.mp (h h2)).2⟩
  | case11 x out b state hs hs2 rest hrest hfull hshort =>
    have h2 := inside_of_name hs2
    have hb := @no_tagEnd_short b rest [] hrest hshort
    rw [List.append_nil] at hb
    refine iff_of_false (not_not.mpr rfl) fun hfits => ?_
    have hroom := (hx.letter_fits h2 hb hshort).mp (hfits h2)
    have hpos := (hx.inside h2).1.1
    omega
  | case12 x out b state hs hs2 rest hrest hfull hshort ih =>
    have h2 := inside_of_name hs2
    have hb := @no_tagEnd_short b rest [] hrest hshort
    rw [List.append_nil] at hb
    have hroom : ¬ 63 ≤ x.tagLength := fun h => hfull (.inr h)
    have hletter := @hx.letter_fits value maxSize x out _ b h2 hb hshort
    rw [ih (hx.push h2 b hroom)]
    exact ⟨fun h _ => hletter.mpr ⟨not_le.mp hroom, h h2⟩, fun h _ => (hletter.mp (h h2)).2⟩
  | case13 x out b rest state hs hs2 =>
    exact absurd (search_or_name hx.state) (not_or.mpr ⟨hs, hs2⟩)

end Parse

/-! ## A round of the loop -/

/-- Where the loop of `WEB_ReadContent` begins a round: the context, and what is put out so far. -/
abbrev Fill := Work × SsiContext × Bytes

section Rounds

variable (env : Env) (value : Bytes → Bytes) (maxSize : ℤ)

/-- What a round asks the file for. -/
def toRead (s : Fill) : ℤ := min (s.1.dwTotal - s.1.dwOperIndex) ((cacheSize : ℤ) - s.2.1.cacheOffset)

/-- The read of a round. -/
def refill (s : Fill) : Work × Option Bytes :=
  readInto env s.1 s.2.1.fp (toRead s) ((cacheSize : ℤ) - s.2.1.cacheOffset)

/-- A round behind its read, with what parsing the cache came to. -/
def parsedRound (w : Work) (r : Bytes × SsiContext × Bytes × ScanEnd) : Fill ⊕ (Work × SsiContext × Option Bytes) :=
  let x := { r.2.1 with cache := r.1, cacheOffset := r.1.length }
  match r.2.2.2 with
  | .more => .inl (w, x, r.2.2.1)
  | .ready2Send => .inr (w, x, some r.2.2.1)
  | .fault => .inr (w.faulted, x, some r.2.2.1)

/-- A round of the loop of `WEB_ReadContent`. -/
def ssiRound (s : Fill) : Fill ⊕ (Work × SsiContext × Option Bytes) :=
  if s.1.dwOperIndex < s.1.dwTotal then
    match refill env s with
    | (w, none) => .inr ({ w with result := -500 }, s.2.1, none)
    | (w, some data) =>
      parsedRound { w with dwOperIndex := w.dwOperIndex + data.length }
        (ssiScan value maxSize s.2.1 s.2.2 (s.2.1.cache.take s.2.1.cacheOffset.toNat ++ data))
  else .inr (s.1, s.2.1, some s.2.2)

variable {env value maxSize}

/-- The loop with a bound on its rounds. -/
theorem ssiLoop_succ (n : ℕ) (s : Fill) :
    ssiLoop env value maxSize (n + 1) s.1 s.2.1 s.2.2 =
      (ssiRound env value maxSize s).elim (fun t => ssiLoop env value maxSize n t.1 t.2.1 t.2.2) id := by
  rw [ssiLoop, ssiRound]
  by_cases hlt : s.1.dwOperIndex < s.1.dwTotal
  · rw [if_pos hlt, if_pos hlt]
    simp only [refill, toRead]
    generalize readInto env s.1 s.2.1.fp _ _ = r
    obtain ⟨w, data⟩ := r
    cases data with
    | none => rfl
    | some data =>
      simp only
      generalize ssiScan value maxSize s.2.1 s.2.2 _ = q
      obtain ⟨rest, x, out, e⟩ := q
      cases e with
      | more => rfl
      | ready2Send => rfl
      | fault => rfl
  · rw [if_neg hlt, if_neg hlt]
    rfl

theorem ssiLoop_patience (p n : ℕ) (s : Fill) :
    ssiLoop { env with patience := p } value maxSize n s.1 s.2.1 s.2.2 =
      ssiLoop env value maxSize n s.1 s.2.1 s.2.2 := by
  induction n generalizing s with
  | zero => rfl
  | succ n ih =>
    rw [ssiLoop_succ, ssiLoop_succ]
    show (ssiRound env value maxSize s).elim _ id = _
    cases ssiRound env value maxSize s with
    | inl t => exact ih t
    | inr r => rfl

theorem ssiLoop_of_run {n : ℕ} {s : Fill} {r : Work × SsiContext × Option Bytes}
    (h : Loop.run (ssiRound env value maxSize) n s = some r) : ssiLoop env value maxSize n s.1 s.2.1 s.2.2 = r := by
  induction n generalizing s with
  | zero => cases h
  | succ n ih =>
    rw [ssiLoop_succ]
    rw [Loop.run] at h
    cases hs : ssiRound env value maxSize s with
    | inl t =>
      rw [hs] at h
      exact ih h
    | inr c =>
      rw [hs] at h
      exact Option.some.inj h

theorem ssiLoop_of_none {n : ℕ} {s : Fill} (h : Loop.run (ssiRound env value maxSize) n s = none) :
    (ssiLoop env value maxSize n s.1 s.2.1 s.2.2).1.world.fault = true := by
  induction n generalizing s with
  | zero => rfl
  | succ n ih =>
    rw [ssiLoop_succ]
    rw [Loop.run] at h
    cases hs : ssiRound env value maxSize s with
    | inl t =>
      rw [hs] at h
      exact ih h
    | inr c =>
      rw [hs] at h
      cases h

/-! ## What holds at the start of every round -/

structure Filling (s : Fill) : Prop where
  noFault : s.1.world.fault = false
  handle : ∃ h, s.2.1.fp = .handle h
  ssi : s.2.1.ssi > 0
  scanner : Scanner s.2.1
  offset : s.2.1.cacheOffset = s.2.1.cache.length
  small : s.2.1.cache.length < cacheSize

/-- A page between two calls, with the context `x`. -/
structure Between (w : Work) (x : SsiContext) : Prop where
  noFault : w.world.fault = false
  handle : ∃ h, x.fp = .handle h
  ssi : x.ssi > 0
  scanner : Scanner x
  cache : w.dwOperIndex < w.dwTotal → x.cacheOffset = x.cache.length ∧ x.cache.length < cacheSize

/-- The tag name in the cache, or the value of the tag, is too long for where it goes. -/
def Overruns (env : Env) (value : Bytes → Bytes) (maxSize : ℤ) (s : Fill) : Prop :=
  s.1.dwOperIndex < s.1.dwTotal ∧ s.2.1.ssiState = 2 ∧ ∃ data, (refill env s).2 = some data ∧
    ¬ NameFits value maxSize s.2.2 (s.2.1.tagName.take s.2.1.tagLength.toNat) (s.2.1.cache ++ data)

/-- From now on the reads deliver nothing, but less than announced was read, and the cache is undecided. -/
structure DriesUp (env : Env) (s : Fill) : Prop where
  unread : s.1.dwOperIndex < s.1.dwTotal
  undecided : Undecided s.2.1 s.2.1.cache
  dry : ∀ h, s.2.1.fp = .handle h → ∀ k,
    env.fread (s.1.world.calls + k) h (s.1.world.files.position h) (toRead s).toNat = some []

theorem Filling.toRead_pos {s : Fill} (hs : Filling s) (hlt : s.1.dwOperIndex < s.1.dwTotal) :
    0 < toRead s ∧ toRead s ≤ (cacheSize : ℤ) - s.2.1.cacheOffset ∧ s.1.dwOperIndex + toRead s ≤ s.1.dwTotal := by
  have hoffset := hs.offset
  have hsmall : s.2.1.cache.length < 64 := hs.small
  have hcache : (cacheSize : ℤ) = 64 := rfl
  unfold toRead
  omega

/-- The world after a read of `n` bytes. -/
def afterRead (w : World) (h n : ℕ) : World :=
  { w.asked with files :=
    { w.files with position := Function.update w.files.position h (w.files.position h + n) } }

/-- A read that delivers nothing only counts. -/
theorem afterRead_zero (w : World) (h : ℕ) : afterRead w h 0 = w.asked := by
  unfold afterRead
  rw [Nat.add_zero, Function.update_eq_self]
  rfl

/-- What the refill comes to, by the answer of `WEB_fread`. -/
theorem Filling.refill_eq {s : Fill} (hs : Filling s) (hlt : s.1.dwOperIndex < s.1.dwTotal) {h : ℕ}
    (hh : s.2.1.fp = .handle h) :
    env.fread s.1.world.calls h (s.1.world.files.position h) (toRead s).toNat = none ∧
        refill env s = ({ s.1 with world := s.1.world.asked }, none) ∨
      ∃ data, env.fread s.1.world.calls h (s.1.world.files.position h) (toRead s).toNat = some data ∧
        refill env s = ({ s.1 with world := afterRead s.1.world h (data.take (toRead s).toNat).length },
          some (data.take (toRead s).toNat)) := by
  obtain ⟨hpos, hroom, -⟩ := hs.toRead_pos hlt
  have hsmall : (cacheSize : ℤ) = 64 := rfl
  have hoffset := hs.offset
  have hu : u32 (toRead s) = (toRead s).toNat := by
    unfold u32
    omega
  unfold refill readInto
  rw [hh, hu]
  simp only [World.webFread]
  cases hread : env.fread s.1.world.calls h (s.1.world.files.position h) (toRead s).toNat with
  | none => exact .inl ⟨rfl, rfl⟩
  | some data =>
    have hlen : (data.take (toRead s).toNat).length ≤ (toRead s).toNat := List.length_take_le _ _
    have hfit : ¬ ((data.take (toRead s).toNat).length : ℤ) > (cacheSize : ℤ) - s.2.1.cacheOffset := by omega
    refine .inr ⟨data, rfl, ?_⟩
    simp only [if_neg hfit]
    rfl

theorem Filling.take {s : Fill} (hs : Filling s) : s.2.1.cache.take s.2.1.cacheOffset.toNat = s.2.1.cache := by
  rw [hs.offset, Int.toNat_natCast, List.take_length]

/-- The round, behind a read. -/
theorem Filling.round_eq {s : Fill} (hs : Filling s) (hlt : s.1.dwOperIndex < s.1.dwTotal) {w : Work} {data : Bytes}
    (hread : refill env s = (w, some data)) :
    ssiRound env value maxSize s = parsedRound { w with dwOperIndex := w.dwOperIndex + data.length }
      (ssiScan value maxSize s.2.1 s.2.2 (s.2.1.cache ++ data)) := by
  unfold ssiRound
  rw [if_pos hlt, hread, hs.take]

/-- A round that is followed by another. -/
theorem Filling.again {s t : Fill} (hs : Filling s) (h : Loop.Again (ssiRound env value maxSize) s t) :
    Filling t ∧ Undecided t.2.1 t.2.1.cache ∧ t.1.dwTotal = s.1.dwTotal ∧ s.1.dwOperIndex < s.1.dwTotal ∧
      s.1.dwOperIndex ≤ t.1.dwOperIndex := by
  have hlt : s.1.dwOperIndex < s.1.dwTotal := by
    by_contra hge
    rw [Loop.Again, ssiRound, if_neg hge] at h
    cases h
  obtain ⟨f, hf⟩ := hs.handle
  rcases @hs.refill_eq env _ hlt f hf with ⟨-, hread⟩ | ⟨data, -, hread⟩
  · rw [Loop.Again, ssiRound, if_pos hlt, hread] at h
    cases h
  · have hleft := @ssiScan_left value maxSize s.2.1 s.2.2 (s.2.1.cache ++ data.take (toRead s).toNat) hs.scanner
    rw [Loop.Again, hs.round_eq hlt hread] at h
    generalize ssiScan value maxSize s.2.1 s.2.2 _ = r at h hleft
    obtain ⟨rest, x, out, e⟩ := r
    cases e with
    | ready2Send => cases h
    | fault => cases h
    | more =>
      cases h
      have hundecided := hleft.more rfl
      have hshort : rest.length < cacheSize := by
        rcases hundecided with hnil | ⟨-, -, hlen⟩ | ⟨-, -, hlen⟩
        · rw [show rest = [] from hnil]
          decide
        · exact Nat.lt_trans hlen (by decide)
        · exact Nat.lt_trans hlen (by decide)
      refine ⟨⟨hs.noFault, ⟨f, hleft.source.1.trans hf⟩, ?_, ?_, rfl, hshort⟩, ?_, rfl, hlt, ?_⟩
      · rw [hleft.source.2]
        exact hs.ssi
      · exact (hleft.scanner (fun he => by cases he)).of_eq rfl rfl rfl
      · exact hundecided
      · exact Int.le_add_of_nonneg_right (Int.natCast_nonneg _)

/-- A read that delivers nothing to an undecided cache changes nothing. -/
theorem Filling.dry_round {s : Fill} (hs : Filling s) (hlt : s.1.dwOperIndex < s.1.dwTotal)
    (hundecided : Undecided s.2.1 s.2.1.cache) {f : ℕ}
    (hread : refill env s = ({ s.1 with world := afterRead s.1.world f 0 }, some [])) :
    ssiRound env value maxSize s = .inl ({ s.1 with world := s.1.world.asked }, s.2) := by
  have hsame : { s.2.1 with cache := s.2.1.cache, cacheOffset := s.2.1.cache.length } = s.2.1 := by
    rw [← hs.offset]
  rw [hs.round_eq hlt hread, List.append_nil, ssiScan_undecided hundecided, afterRead_zero, parsedRound]
  simp only [List.length_nil, hsame, Nat.cast_zero, add_zero]

/-- Only such a round stands still. -/
theorem Filling.stall {s t : Fill} (hs : Filling s) (hundecided : Undecided s.2.1 s.2.1.cache)
    (hagain : Loop.Again (ssiRound env value maxSize) s t) (hstill : t.1.dwOperIndex = s.1.dwOperIndex) {f : ℕ}
    (hf : s.2.1.fp = .handle f) :
    env.fread s.1.world.calls f (s.1.world.files.position f) (toRead s).toNat = some [] ∧
      t = ({ s.1 with world := s.1.world.asked }, s.2) := by
  obtain ⟨-, -, -, hlt, -⟩ := hs.again hagain
  rcases @hs.refill_eq env _ hlt f hf with ⟨-, hread⟩ | ⟨data, hdata, hread⟩
  · rw [Loop.Again, ssiRound, if_pos hlt, hread] at hagain
    cases hagain
  have hnone : data.take (toRead s).toNat = [] := by
    rw [Loop.Again, hs.round_eq hlt hread] at hagain
    generalize ssiScan value maxSize s.2.1 s.2.2 _ = r at hagain
    obtain ⟨rest, x, out, e⟩ := r
    cases e with
    | ready2Send => cases hagain
    | fault => cases hagain
    | more =>
      cases hagain
      have hsum : s.1.dwOperIndex + ((data.take (toRead s).toNat).length : ℤ) = s.1.dwOperIndex := hstill
      exact List.length_eq_zero_iff.mp (by omega)
  have hempty : data = [] := by
    have hpos := (hs.toRead_pos hlt).1
    exact (List.take_eq_nil_iff.mp hnone).resolve_left (by omega)
  rw [hnone] at hread
  refine ⟨by rw [hdata, hempty], ?_⟩
  rw [Loop.Again, hs.dry_round hlt hundecided hread] at hagain
  exact (Sum.inl.inj hagain).symm

/-- A dry page goes on for ever. -/
theorem DriesUp.again {s : Fill} (hs : Filling s) (h : DriesUp env s) :
    ∃ t, Loop.Again (ssiRound env value maxSize) s t ∧ Filling t ∧ DriesUp env t := by
  obtain ⟨f, hf⟩ := hs.handle
  have hread : refill env s = ({ s.1 with world := afterRead s.1.world f 0 }, some []) := by
    have hdry : env.fread s.1.world.calls f (s.1.world.files.position f) (toRead s).toNat = some [] := h.dry f hf 0
    rcases @hs.refill_eq env _ h.unread f hf with ⟨hnone, -⟩ | ⟨data, hdata, hread⟩
    · rw [hdry] at hnone
      cases hnone
    · rw [hdry] at hdata
      obtain rfl := Option.some.inj hdata
      rw [hread, List.take_nil]
      rfl
  have hround : Loop.Again (ssiRound env value maxSize) s ({ s.1 with world := s.1.world.asked }, s.2) :=
    hs.dry_round h.unread h.undecided hread
  refine ⟨_, hround, (hs.again hround).1, h.unread, h.undecided, ?_⟩
  intro g hg k
  have hnext := h.dry g hg (k + 1)
  rw [← Nat.add_assoc, Nat.add_right_comm] at hnext
  exact hnext

/-- A page that does not end dries up. -/
theorem Filling.dries_up {s : Fill} (hs : Filling s) (h : ¬ ∃ r, Loop.Ends (ssiRound env value maxSize) s r) :
    ∃ t, Loop.Visits (ssiRound env value maxSize) s t ∧ DriesUp env t := by
  have hagain := Loop.again_after h
  have hfilling : ∀ n, Filling (Loop.after (ssiRound env value maxSize) n s) := fun n =>
    (Loop.visits_after n s).keep (fun _ _ hu ha => (hu.again ha).1) hs
  obtain ⟨k, hk⟩ := Loop.stalls (fun t : Fill => (t.1.dwTotal - t.1.dwOperIndex).toNat)
    (fun u v hu ha => ⟨(hu.again ha).1, by
      obtain ⟨-, -, htotal, -, hle⟩ := hu.again ha
      omega⟩) hs h
  -- the state behind the first round that read nothing
  let t := Loop.after (ssiRound env value maxSize) (k + 1) s
  have hundecided : ∀ n, Undecided (Loop.after (ssiRound env value maxSize) (n + 1) s).2.1
      (Loop.after (ssiRound env value maxSize) (n + 1) s).2.1.cache := fun n => ((hfilling n).again (hagain n)).2.1
  obtain ⟨f, hf⟩ := (hfilling (k + 1)).handle
  have hstill : ∀ n, (Loop.after (ssiRound env value maxSize) (k + n + 1) s).1.dwOperIndex =
      (Loop.after (ssiRound env value maxSize) (k + n) s).1.dwOperIndex := by
    intro n
    have hn := (hk (n + 1)).trans (hk n).symm
    obtain ⟨-, -, htotal, hlt, -⟩ := (hfilling (k + n)).again (hagain (k + n))
    obtain ⟨-, -, -, hlt', -⟩ := (hfilling (k + n + 1)).again (hagain (k + n + 1))
    rw [← Nat.add_assoc] at hn
    omega
  have hstate : ∀ n, Loop.after (ssiRound env value maxSize) (k + (n + 1)) s =
      ({ t.1 with world := { t.1.world with calls := t.1.world.calls + n } }, t.2) := by
    intro n
    induction n with
    | zero => rfl
    | succ n ih =>
      have hfp : (Loop.after (ssiRound env value maxSize) (k + (n + 1)) s).2.1.fp = .handle f := by
        rw [ih]
        exact hf
      obtain ⟨-, hnext⟩ := (hfilling (k + (n + 1))).stall (hundecided (k + n)) (hagain _) (hstill (n + 1)) hfp
      rw [ih] at hnext
      exact hnext
  refine ⟨t, Loop.visits_after _ s, ((hfilling (k + 1)).again (hagain (k + 1))).2.2.2.1, hundecided k, ?_⟩
  intro g hg n
  rw [hf] at hg
  obtain rfl := Fp.handle.inj hg
  have hfp : (Loop.after (ssiRound env value maxSize) (k + (n + 1)) s).2.1.fp = .handle f := by
    rw [hstate n]
    exact hf
  have hdry := ((hfilling (k + (n + 1))).stall (hundecided (k + n)) (hagain _) (hstill (n + 1)) hfp).1
  rw [hstate n] at hdry
  exact hdry

/-- How the last round leaves the page. -/
theorem Filling.last {s : Fill} (hs : Filling s) {r : Work × SsiContext × Option Bytes}
    (h : ssiRound env value maxSize s = .inr r) :
    (r.1.world.fault = false ↔ ¬ Overruns env value maxSize s) ∧ (r.1.world.fault = false → Between r.1 r.2.1) := by
  by_cases hlt : s.1.dwOperIndex < s.1.dwTotal
  swap
  · rw [ssiRound, if_neg hlt] at h
    cases h
    refine ⟨iff_of_true hs.noFault fun hover => hlt hover.1, fun _ => ?_⟩
    exact ⟨hs.noFault, hs.handle, hs.ssi, hs.scanner, fun _ => ⟨hs.offset, hs.small⟩⟩
  obtain ⟨f, hf⟩ := hs.handle
  rcases @hs.refill_eq env _ hlt f hf with ⟨-, hread⟩ | ⟨data, -, hread⟩
  · rw [ssiRound, if_pos hlt, hread] at h
    cases h
    refine ⟨iff_of_true hs.noFault ?_, fun _ => ?_⟩
    · rintro ⟨-, -, data, hdata, -⟩
      rw [hread] at hdata
      cases hdata
    · exact ⟨hs.noFault, hs.handle, hs.ssi, hs.scanner, fun _ => ⟨hs.offset, hs.small⟩⟩
  · obtain ⟨hpos, hroom, -⟩ := hs.toRead_pos hlt
    have hlen : (data.take (toRead s).toNat).length ≤ (toRead s).toNat := List.length_take_le _ _
    have hleft := @ssiScan_left value maxSize s.2.1 s.2.2 (s.2.1.cache ++ data.take (toRead s).toNat) hs.scanner
    have hfits := @ssiScan_fits value maxSize s.2.1 s.2.2 (s.2.1.cache ++ data.take (toRead s).toNat) hs.scanner
    have hover : Overruns env value maxSize s ↔
        ¬ (s.2.1.ssiState = 2 → NameFits value maxSize s.2.2 (s.2.1.tagName.take s.2.1.tagLength.toNat)
          (s.2.1.cache ++ data.take (toRead s).toNat)) := by
      rw [Classical.not_imp, Overruns, hread]
      constructor
      · rintro ⟨-, hstate, d, hd, hno⟩
        obtain rfl := Option.some.inj hd
        exact ⟨hstate, hno⟩
      · rintro ⟨hstate, hno⟩
        exact ⟨hlt, hstate, _, rfl, hno⟩
    rw [hover, not_not, ← hfits]
    rw [hs.round_eq hlt hread] at h
    have hplen : (s.2.1.cache ++ data.take (toRead s).toNat).length ≤ cacheSize := by
      have hoffset := hs.offset
      rw [List.length_append]
      omega
    generalize ssiScan value maxSize s.2.1 s.2.2 _ = q at h hleft
    obtain ⟨rest, x, out, e⟩ := q
    cases e with
    | more => cases h
    | fault =>
      cases h
      exact ⟨iff_of_false (fun he => by cases he) (not_not.mpr rfl), fun he => by cases he⟩
    | ready2Send =>
      cases h
      refine ⟨iff_of_true hs.noFault (fun he => by cases he), fun _ => ⟨hs.noFault, ?_, ?_, ?_, fun _ => ?_⟩⟩
      · exact ⟨f, hleft.source.1.trans hf⟩
      · rw [hleft.source.2]
        exact hs.ssi
      · exact (hleft.scanner (fun he => by cases he)).of_eq rfl rfl rfl
      · exact ⟨rfl, Nat.lt_of_lt_of_le (hleft.block rfl) hplen⟩

theorem Overruns.round {s : Fill} (hs : Filling s) (h : Overruns env value maxSize s) :
    ∃ r, ssiRound env value maxSize s = .inr r := by
  obtain ⟨hlt, hstate, data, hdata, hno⟩ := h
  have hread : refill env s = ((refill env s).1, some data) := Prod.ext rfl hdata
  have hfault : (ssiScan value maxSize s.2.1 s.2.2 (s.2.1.cache ++ data)).2.2.2 = .fault := by
    by_contra hne
    exact hno ((ssiScan_fits s.2.1 s.2.2 _ hs.scanner).mp hne hstate)
  rw [hs.round_eq hlt hread, parsedRound, hfault]
  exact ⟨_, rfl⟩

theorem Between.filling {w : Work} {x : SsiContext} (h : Between w x) (hlt : w.dwOperIndex < w.dwTotal) :
    Filling (w, x, []) :=
  ⟨h.noFault, h.handle, h.ssi, h.scanner, (h.cache hlt).1, (h.cache hlt).2⟩

/-- A loop that ends in bounds leaves the page as it was between two calls. -/
theorem Between.loop {w : Work} {x : SsiContext} (h : Between w x) {n : ℕ}
    (hfault : (ssiLoop env value maxSize n w x []).1.world.fault = false) :
    Between (ssiLoop env value maxSize n w x []).1 (ssiLoop env value maxSize n w x []).2.1 := by
  cases hrun : Loop.run (ssiRound env value maxSize) n (w, x, []) with
  | none =>
    have hfaulted := ssiLoop_of_none hrun
    rw [show (ssiLoop env value maxSize n w x []).1.world.fault = true from hfaulted] at hfault
    cases hfault
  | some r =>
    have hloop : ssiLoop env value maxSize n w x [] = r := ssiLoop_of_run hrun
    rw [hloop] at hfault ⊢
    obtain ⟨t, ht, hlast⟩ := Loop.ends_of_run hrun
    by_cases hlt : w.dwOperIndex < w.dwTotal
    · have hfilling : Filling t := ht.keep (fun _ _ hu ha => (hu.again ha).1) (h.filling hlt)
      exact (hfilling.last hlast).2 hfault
    · have hround : ssiRound env value maxSize (w, x, []) = .inr (w, x, some []) := by rw [ssiRound, if_neg hlt]
      obtain rfl := (Loop.ends_of_run hrun).last hround
      exact h

/-- The loop ends in bounds, after enough rounds, exactly when no round finds the page dry or a tag too long. -/
theorem Between.ends_iff {w : Work} {x : SsiContext} (h : Between w x) (least : ℕ) :
    (∃ n, (ssiLoop env value maxSize (n + least) w x []).1.world.fault = false) ↔
      ∀ s, Loop.Visits (ssiRound env value maxSize) (w, x, []) s → ¬ DriesUp env s ∧ ¬ Overruns env value maxSize s := by
  by_cases hlt : w.dwOperIndex < w.dwTotal
  swap
  · have hround : ssiRound env value maxSize (w, x, []) = .inr (w, x, some []) := by rw [ssiRound, if_neg hlt]
    refine iff_of_true ⟨1, ?_⟩ fun s hs => ?_
    · rw [Nat.add_comm, ssiLoop, if_neg hlt]
      exact h.noFault
    · obtain rfl | ⟨t, ht, -⟩ := hs.cases_head
      · exact ⟨fun hdry => hlt hdry.unread, fun hover => hlt hover.1⟩
      · rw [Loop.Again, hround] at ht
        cases ht
  have hfilling : ∀ s, Loop.Visits (ssiRound env value maxSize) (w, x, []) s → Filling s := fun s hs =>
    hs.keep (fun _ _ hu ha => (hu.again ha).1) (h.filling hlt)
  constructor
  · rintro ⟨n, hn⟩ s hs
    cases hrun : Loop.run (ssiRound env value maxSize) (n + least) (w, x, []) with
    | none =>
      rw [show (ssiLoop env value maxSize (n + least) w x []).1.world.fault = true from ssiLoop_of_none hrun] at hn
      cases hn
    | some r =>
      rw [show ssiLoop env value maxSize (n + least) w x [] = r from ssiLoop_of_run hrun] at hn
      have hends : Loop.Ends (ssiRound env value maxSize) s r := (Loop.ends_of_run hrun).of_visits hs
      constructor
      · intro hdry
        refine Loop.not_ends_of_kept (fun u (hu : Filling u ∧ DriesUp env u) => ?_) ⟨hfilling s hs, hdry⟩ ⟨r, hends⟩
        obtain ⟨v, hv, hkept⟩ := hu.2.again hu.1
        exact ⟨v, hv, hkept⟩
      · intro hover
        obtain ⟨q, hq⟩ := hover.round (hfilling s hs)
        obtain rfl := hends.last hq
        exact ((hfilling s hs).last hq).1.mp hn hover
  · intro hall
    have hends : ∃ r, Loop.Ends (ssiRound env value maxSize) (w, x, []) r := by
      by_contra hno
      obtain ⟨t, ht, hdry⟩ := (h.filling hlt).dries_up hno
      exact (hall t ht).1 hdry
    obtain ⟨r, hends⟩ := hends
    obtain ⟨n, hn⟩ := hends.run
    obtain ⟨t, ht, hlast⟩ := hends
    refine ⟨n, ?_⟩
    rw [show ssiLoop env value maxSize (n + least) w x [] = r from ssiLoop_of_run (Loop.run_add hn least)]
    exact ((hfilling t ht).last hlast).1.mpr (hall t ht).2

end Rounds

/-! ## The calls of one response -/

/-- The call comes back, whatever the number of rounds it takes. -/
def Returns (env : Env) (value : Bytes → Bytes) (c : Core) (w : Work) (maxSize : ℤ) : Prop :=
  ∃ patience, (readPage { env with patience := patience } value c w maxSize).1.world.fault = false

/-- What happens to an SSI page: a call that comes back, and what other connections do in between. -/
inductive PageEvent
  | call (env : Env) (value : Bytes → Bytes) (c : Core) (maxSize : ℤ)
  | others (world : World)

/-- The calls of a response. A page was opened, and its size is what was announced then. -/
def calls : RunSystem Work PageEvent where
  init w := w.world.fault = false ∧
    ∃ h line, w.ssiCtx = { SsiContext.zero with ssi := 1, fp := .handle h, lastModified := line }
  step w e w' := match e with
    | .call env value c maxSize => w' = (readPage env value c w maxSize).1 ∧ w'.world.fault = false
    | .others world => w' = { w with world := world } ∧ world.fault = false

theorem webFopen_fp (env : Env) (sid : ℕ) (w : World) (szFile mode : Bytes) :
    (w.webFopen env sid szFile mode).2 = .null ∨ ∃ h, (w.webFopen env sid szFile mode).2 = .handle h := by
  unfold World.webFopen
  by_cases hopen : env.fopen w.calls (webPath szFile) mode
  · exact .inr ⟨w.files.opened, by simp only [if_pos hopen]⟩
  · exact .inl (by simp only [if_neg hopen])

theorem sniffGzip_extension (env : Env) (w : Work) (fp : Fp) : (sniffGzip env w fp).extension = w.extension := by
  unfold sniffGzip
  generalize w.world.webFread env fp 3 = r
  obtain ⟨world, data⟩ := r
  cases data with
  | none => rfl
  | some data => rfl

/-- An SSI page that `WEB_RequestReceived` opened. -/
theorem webRequestReceived_opened {env : Env} {c : Core} {w : Work}
    (hssi : isSsi (chunkSsi c (defaultPage w)).extension = true)
    (hfp : (webRequestReceived env c w).ssiCtx.fp ≠ .null)
    (hfault : (webRequestReceived env c w).world.fault = false) : calls.init (webRequestReceived env c w) := by
  refine ⟨hfault, ?_⟩
  clear hfault
  unfold webRequestReceived at hfp ⊢
  simp only at hfp ⊢
  generalize chunkSsi c (defaultPage w) = w at hssi hfp ⊢
  have hopened := webFopen_fp env c.sid w.world w.responsePath (bytes "rb")
  generalize w.world.webFopen env c.sid w.responsePath (bytes "rb") = r at hfp hopened ⊢
  obtain ⟨world, fp⟩ := r
  rcases hopened with hnull | ⟨h, hhandle⟩
  · obtain rfl : fp = .null := hnull
    exact absurd rfl hfp
  · obtain rfl : fp = .handle h := hhandle
    have hext : isSsi (sniffGzip env { w with world := world } (.handle h)).extension = true := by
      rw [sniffGzip_extension]
      exact hssi
    refine ⟨h, [], ?_⟩
    simp only [pageOpened, lastModifiedLine, if_pos hext]
    show pageContext (sniffGzip env { w with world := world } (.handle h)) (.handle h) [] = _
    rw [pageContext, if_pos hext]

theorem opened_between {w : Work} (hw : calls.init w) : Between w w.ssiCtx := by
  obtain ⟨hfault, h, line, hx⟩ := hw
  rw [hx]
  refine ⟨hfault, ⟨h, rfl⟩, Int.one_pos, ⟨.inl rfl, fun _ => ⟨rfl, rfl⟩, fun h2 => ?_⟩, fun _ => ?_⟩
  · exact absurd h2 (show (0 : ℤ) ≠ 2 by decide)
  · exact ⟨rfl, Nat.zero_lt_succ _⟩

/-- A call either runs the loop or leaves the file where it is. -/
theorem readPage_between {env : Env} {value : Bytes → Bytes} {c : Core} {maxSize : ℤ} {w : Work}
    (hw : Between w w.ssiCtx) (hfault : (readPage env value c w maxSize).1.world.fault = false) :
    Between (readPage env value c w maxSize).1 (readPage env value c w maxSize).1.ssiCtx := by
  unfold readPage at hfault ⊢
  simp only at hfault ⊢
  by_cases hc : c.requestMethod = none
  · rw [if_pos hc]
    exact hw
  rw [if_neg hc] at hfault ⊢
  by_cases hend : w.dwTotal - w.dwOperIndex = 0
  · rw [if_pos hend]
    have hread : ¬ w.dwOperIndex < w.dwTotal := by omega
    by_cases hleft : w.ssiCtx.ssi > 0 ∧ w.ssiCtx.cacheOffset > 0
    · rw [if_pos hleft]
      exact ⟨hw.noFault, hw.handle, hw.ssi, hw.scanner.of_eq rfl rfl rfl, fun hlt => absurd hlt hread⟩
    · rw [if_neg hleft]
      exact ⟨hw.noFault, hw.handle, hw.ssi, hw.scanner, fun hlt => absurd hlt hread⟩
  have hssi : ¬ w.ssiCtx.ssi = 0 := by
    have hpos := hw.ssi
    omega
  rw [if_neg hend, if_neg hssi] at hfault ⊢
  have hloop := @Between.loop env value maxSize w w.ssiCtx hw (env.patience + (w.dwTotal - w.dwOperIndex).toNat + 1)
  generalize ssiLoop env value maxSize (env.patience + (w.dwTotal - w.dwOperIndex).toNat + 1) w w.ssiCtx [] = r
    at hfault hloop ⊢
  obtain ⟨w', x, out⟩ := r
  cases out with
  | none =>
    obtain ⟨hnone, hhandle, hpos, hscanner, hcache⟩ := hloop hfault
    exact ⟨hnone, hhandle, hpos, hscanner, hcache⟩
  | some out =>
    obtain ⟨hnone, hhandle, hpos, hscanner, hcache⟩ := hloop hfault
    exact ⟨hnone, hhandle, hpos, hscanner, hcache⟩

theorem calls_between {w : Work} (hw : calls.Reach w) : Between w w.ssiCtx := by
  refine hw.invariant (fun _ => opened_between) ?_
  intro w e w' hw hstep
  cases e with
  | call env value c maxSize =>
    obtain ⟨rfl, hfault⟩ := hstep
    exact readPage_between hw hfault
  | others world =>
    obtain ⟨rfl, hfault⟩ := hstep
    exact ⟨hfault, hw.handle, hw.ssi, hw.scanner, hw.cache⟩

/-- When a call comes back. -/
theorem returns_iff {w : Work} (hw : Between w w.ssiCtx) (env : Env) (value : Bytes → Bytes) (c : Core) (maxSize : ℤ) :
    Returns env value c w maxSize ↔ c.requestMethod = none ∨
      ∀ s, Loop.Visits (ssiRound env value maxSize) (w, w.ssiCtx, []) s →
        ¬ DriesUp env s ∧ ¬ Overruns env value maxSize s := by
  by_cases hc : c.requestMethod = none
  · refine iff_of_true ⟨0, ?_⟩ (.inl hc)
    rw [readPage, if_pos hc]
    exact hw.noFault
  have hends := @Between.ends_iff env value maxSize w w.ssiCtx hw ((w.dwTotal - w.dwOperIndex).toNat + 1)
  have hssi : ¬ w.ssiCtx.ssi = 0 := by
    have hpos := hw.ssi
    omega
  rw [or_iff_right hc, ← hends]
  by_cases hend : w.dwTotal - w.dwOperIndex = 0
  · have hread : ¬ w.dwOperIndex < w.dwTotal := by omega
    refine iff_of_true ⟨0, ?_⟩ ⟨0, ?_⟩
    · rw [readPage, if_neg hc, if_pos hend]
      split_ifs
      · exact hw.noFault
      · exact hw.noFault
    · rw [Nat.zero_add, ssiLoop, if_neg hread]
      exact hw.noFault
  refine exists_congr fun n => ?_
  rw [readPage, if_neg hc, if_neg hend, if_neg hssi]
  have hpatience := @ssiLoop_patience env value maxSize n (n + (w.dwTotal - w.dwOperIndex).toNat + 1) (w, w.ssiCtx, [])
  simp only [hpatience]
  show _ ↔ (ssiLoop env value maxSize (n + (w.dwTotal - w.dwOperIndex).toNat + 1) w w.ssiCtx []).1.world.fault = false
  generalize ssiLoop env value maxSize (n + (w.dwTotal - w.dwOperIndex).toNat + 1) w w.ssiCtx [] = r
  obtain ⟨w', x, out⟩ := r
  cases out with
  | none => exact Iff.rfl
  | some out => exact Iff.rfl

/-- A call comes back exactly when the method is none that has content, or in no round the file has dried up
before its announced end, and no tag is too long for its buffer or for the block. -/
theorem ssi_terminates {w : Work} (hw : calls.Reach w) (env : Env) (value : Bytes → Bytes) (c : Core) (maxSize : ℤ) :
    Returns env value c w maxSize ↔ c.requestMethod = none ∨
      ∀ s, Loop.Visits (ssiRound env value maxSize) (w, w.ssiCtx, []) s →
        ¬ DriesUp env s ∧ ¬ Overruns env value maxSize s :=
  returns_iff (calls_between hw) env value c maxSize

/-- From `WEB_RequestReceived` on: the same after any calls for the SSI page that it opened. -/
theorem requested_returns_iff {env : Env} {c : Core} {w v : Work} {es : List PageEvent}
    (hssi : isSsi (chunkSsi c (defaultPage w)).extension = true)
    (hfp : (webRequestReceived env c w).ssiCtx.fp ≠ .null)
    (hfault : (webRequestReceived env c w).world.fault = false)
    (hcalls : calls.Trace (webRequestReceived env c w) es v) (env' : Env) (value : Bytes → Bytes) (c' : Core)
    (maxSize : ℤ) :
    Returns env' value c' v maxSize ↔ c'.requestMethod = none ∨
      ∀ s, Loop.Visits (ssiRound env' value maxSize) (v, v.ssiCtx, []) s →
        ¬ DriesUp env' s ∧ ¬ Overruns env' value maxSize s := by
  have hopened : calls.Reach (webRequestReceived env c w) := .init (webRequestReceived_opened hssi hfp hfault)
  exact returns_iff (calls_between (hcalls.reach hopened)) env' value c' maxSize

/-- Reads that deliver ten bytes at most. -/
def haltingReads : Env :=
  { Env.calm tagPage with fread := fun _ _ pos count => some (slice tagPage pos (min count 10)) }

/-- The page after its first block. -/
def tagBegun : Work :=
  (readPage haltingReads (tagValue Device.initDevInfo) getCore (openedPage tagPage) 128).1

/-- The second block begins in a tag that is read in pieces, and ends at the next tag. -/
theorem ssi_terminates_tagPage :
    tagBegun.ssiCtx.ssiState = 2 ∧
      Returns haltingReads (tagValue Device.initDevInfo) getCore tagBegun 128 ∧
      ∀ s, Loop.Visits (ssiRound haltingReads (tagValue Device.initDevInfo) 128)
          (tagBegun, tagBegun.ssiCtx, []) s →
        ¬ DriesUp haltingReads s ∧ ¬ Overruns haltingReads (tagValue Device.initDevInfo) 128 s := by
  have hopened : calls.Reach (openedPage tagPage) := .init ⟨rfl, 0, [], rfl⟩
  have hw : calls.Reach tagBegun :=
    hopened.step (.call haltingReads (tagValue Device.initDevInfo) getCore 128) ⟨rfl, by decide +kernel⟩
  have hreturns : Returns haltingReads (tagValue Device.initDevInfo) getCore tagBegun 128 :=
    ⟨0, by decide +kernel⟩
  refine ⟨by decide +kernel, hreturns, ?_⟩
  exact ((ssi_terminates hw haltingReads (tagValue Device.initDevInfo) getCore 128).mp
    hreturns).resolve_left (by decide)

/-! ## A file that became shorter -/

/-- Reads that deliver nothing: the file was truncated. -/
def truncated : Env := { Env.calm [] with fread := fun _ _ _ _ => some [] }

/-- A page of five bytes, of which none can be read any more. -/
theorem ssi_terminates_fails :
    ¬ ∀ w, calls.Reach w → ∀ (env : Env) (value : Bytes → Bytes) (c : Core) (maxSize : ℤ),
      Returns env value c w maxSize := by
  intro h
  have hw : calls.Reach (openedPage (bytes "Hello")) := .init ⟨rfl, 0, [], rfl⟩
  have hreturns := h _ hw truncated (fun _ => []) getCore 128
  rw [returns_iff (calls_between hw)] at hreturns
  have hvisited := (hreturns.resolve_left (by decide)) _ (.refl _)
  exact hvisited.1 ⟨by decide, .inl rfl, fun _ _ _ => rfl⟩

end SsiPage
end StraightHttpd
