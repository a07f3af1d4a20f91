import StraightHttpd.Lib.Substitution
import StraightHttpd.Httpd.Web

/-! # What an SSI page expands to

The blocks of an SSI page, put together, against the file with every tag replaced. `ssiScan_spec`
says what the parsing of the cache preserves: what is put out, followed by the expansion of what is
left, does not change. The refill loop and the sequence of calls keep it too, up to the last call,
which writes out what is left in the cache as it is.
-/

set_option autoImplicit false

namespace StraightHttpd
namespace SsiPage
open CMemory

/-- `<!--#` and `-->` -/
def marks : Marks UInt8 where
  opening := tagStart
  closing := tagEnd
  opening_ne := by decide
  closing_ne := by decide

/-- A tag name is looked up as a C string. -/
def lookup (value : Bytes → Bytes) (name : Bytes) : Bytes := value (cstr name)

/-- The tag name read so far, when the scanner is inside a tag. -/
def tagSoFar (x : SsiContext) : Option Bytes :=
  if x.ssiState = 2 then some (x.tagName.take x.tagLength.toNat) else none

/-- What the text `s` expands to for the scanner. -/
def expansion (value : Bytes → Bytes) (x : SsiContext) (s : Bytes) : Bytes :=
  marks.expand (lookup value) (tagSoFar x) s

/-- The tag name in its buffer: the letters read, then nothing or a NUL. -/
def Named (x : SsiContext) : Prop :=
  0 ≤ x.tagLength ∧ ∃ name junk, name.length = x.tagLength.toNat ∧ x.tagName = name ++ junk ∧
    (junk = [] ∨ ∃ j, junk = 0 :: j)

/-- The scanner with the text `s` still before it. -/
structure Ready (x : SsiContext) (s : Bytes) : Prop where
  closed : marks.Closed 63 s
  state : x.ssiState = 0 ∨ x.ssiState = 1 ∨ x.ssiState = 2
  outside : x.ssiState ≠ 2 → x.tagLength = 0 ∧ x.tagName = []
  inside : x.ssiState = 2 → x.tagLength ≤ 63 ∧ Named x ∧ marks.Inside (63 - x.tagLength.toNat) s

/-- There is room in the block, and a tag that is still open came first in it. -/
def Room (maxSize : ℤ) (x : SsiContext) (out : Bytes) : Prop :=
  (out.length : ℤ) < maxSize ∧ (x.ssiState = 2 → out = [])

/-! ## Marks in the cache -/

theorem tagStart_length : tagStart.length = 5 := rfl

set_option maxRecDepth 4096 in
theorem mark_signs : (∀ b ∈ tagStart, Sign b) ∧ ∀ b ∈ tagEnd, Sign b := by decide

theorem tagStart_iff (s : Bytes) : strnicmp s tagStart tagStart.length = 0 ↔ tagStart <+: s :=
  strnicmp_sign_iff mark_signs.1 s

theorem tagEnd_iff (s : Bytes) : strnicmp s tagEnd tagEnd.length = 0 ↔ tagEnd <+: s :=
  strnicmp_sign_iff mark_signs.2 s

/-- A mark that would fit and is not at the start of `p` is not at the start of a longer text. -/
theorem not_prefix_append {m p : Bytes} (u : Bytes) (hl : m.length ≤ p.length) (h : ¬ m <+: p) :
    ¬ m <+: p ++ u :=
  fun hp => h (List.prefix_of_prefix_length_le hp (List.prefix_append p u) hl)

theorem not_prefix_of_head {m b : UInt8} {ms s : Bytes} (h : b ≠ m) : ¬ m :: ms <+: b :: s :=
  fun hp => h (List.cons_prefix_cons.mp hp).1.symm

/-- Where the scanner finds no `<!--#`, none starts there. -/
theorem no_tagStart {b : UInt8} {s u : Bytes}
    (hshort : ¬ (b = 60 ∧ (b :: s).length < tagStart.length))
    (hno : ¬ (b = 60 ∧ strnicmp (b :: s) tagStart tagStart.length = 0)) :
    ¬ marks.opening <+: b :: (s ++ u) := by
  by_cases hb : b = 60
  · rw [tagStart_iff] at hno
    exact not_prefix_append u (Nat.le_of_not_lt fun h => hshort ⟨hb, h⟩) fun h => hno ⟨hb, h⟩
  · exact not_prefix_of_head hb

/-- The scanner compares three bytes for `-->`. -/
theorem three_iff {b y z : UInt8} {s : Bytes} :
    strnicmp [b, y, z] tagEnd tagEnd.length = 0 ↔ tagEnd <+: b :: y :: z :: s := by
  rw [tagEnd_iff]
  exact ⟨fun h => h.trans (List.prefix_append [b, y, z] s),
    fun h => List.prefix_of_prefix_length_le h (List.prefix_append [b, y, z] s) (Nat.le_refl 3)⟩

/-- Where the scanner finds no `-->`, none starts there. -/
theorem no_tagEnd {b y z : UInt8} {s u : Bytes}
    (hno : ¬ (b = 45 ∧ strnicmp [b, y, z] tagEnd tagEnd.length = 0)) :
    ¬ marks.closing <+: b :: (y :: z :: s ++ u) := by
  by_cases hb : b = 45
  · exact fun hp => hno ⟨hb, three_iff.mpr hp⟩
  · exact not_prefix_of_head hb

/-- Nor does one where the cache is too short for it and the scanner goes on. -/
theorem no_tagEnd_short {b : UInt8} {s u : Bytes} (hs : ∀ y z s', s = y :: z :: s' → False)
    (hno : ¬ (b = 45 ∧ (b :: s).length < tagEnd.length)) : ¬ marks.closing <+: b :: (s ++ u) := by
  have hlen : (b :: s).length < tagEnd.length := by
    match s with
    | [] => exact Nat.lt_of_sub_eq_succ rfl
    | [_] => exact Nat.lt_of_sub_eq_succ rfl
    | y :: z :: s' => exact (hs y z s' rfl).elim
  exact not_prefix_of_head fun h => hno ⟨h, hlen⟩

/-! ## The tag name -/

theorem Named.cstr_eq {x : SsiContext} (h : Named x) :
    cstr x.tagName = cstr (x.tagName.take x.tagLength.toNat) := by
  obtain ⟨-, name, junk, hl, hn, hj⟩ := h
  rw [hn, ← hl, List.take_left]
  rcases hj with rfl | ⟨j, rfl⟩
  · rw [List.append_nil]
  · exact cstr_append_zero name j

theorem Named.push {x : SsiContext} (h : Named x) (b : UInt8) :
    Named (x.pushName b) ∧ (x.pushName b).tagName.take (x.pushName b).tagLength.toNat =
      x.tagName.take x.tagLength.toNat ++ [b] := by
  obtain ⟨h0, name, junk, hl, hn, hj⟩ := h
  have hlen : (x.tagLength + 1).toNat = name.length + 1 := by omega
  have htake : x.tagName.take x.tagLength.toNat = name := by rw [hn, ← hl, List.take_left]
  have hnew : (x.pushName b).tagName =
      (name ++ [b]) ++ 0 :: x.tagName.drop (x.tagLength.toNat + 2) := by
    simp only [SsiContext.pushName, poke, htake, List.append_assoc, List.cons_append,
      List.nil_append, List.length_cons, List.length_nil]
  refine ⟨⟨by simp only [SsiContext.pushName]; omega, name ++ [b], _, ?_, hnew, .inr ⟨_, rfl⟩⟩, ?_⟩
  · rw [List.length_append]
    exact hlen.symm
  · rw [hnew, htake, show (x.pushName b).tagLength.toNat = (name ++ [b]).length by
      rw [List.length_append]
      exact hlen, List.take_left]

/-! ## One step of the scanner -/

theorem tagSoFar_outside {x : SsiContext} (h : x.ssiState ≠ 2) : tagSoFar x = none := if_neg h

theorem tagSoFar_inside {x : SsiContext} (h : x.ssiState = 2) :
    tagSoFar x = some (x.tagName.take x.tagLength.toNat) := if_pos h

theorem Ready.search {x : SsiContext} {s : Bytes} (h : Ready x s) (hx : x.ssiState ≠ 2) :
    Ready { x with ssiState := 1 } s :=
  ⟨h.closed, .inr (.inl rfl), fun _ => h.outside hx,
    fun h2 => absurd h2 (show (1 : ℤ) ≠ 2 by decide)⟩

/-- A byte outside a tag is copied. -/
theorem Ready.copy {x : SsiContext} {b : UInt8} {s : Bytes} (h : Ready x (b :: s))
    (hx : x.ssiState ≠ 2) : Ready { x with ssiState := 1 } s :=
  ⟨h.closed.tail, .inr (.inl rfl), fun _ => h.outside hx,
    fun h2 => absurd h2 (show (1 : ℤ) ≠ 2 by decide)⟩

/-- Behind `<!--#` a name begins. -/
theorem Ready.start {x : SsiContext} {s : Bytes} (h : Ready x (tagStart ++ s))
    (hx : x.ssiState ≠ 2) : Ready { x with ssiState := 2 } s := by
  obtain ⟨hl, hn⟩ := h.outside hx
  refine ⟨h.closed.of_append, .inr (.inr rfl), fun h2 => absurd rfl h2, fun _ => ?_⟩
  have hin : marks.Inside 63 s := h.closed.inside
  refine ⟨by rw [hl]; decide, ⟨by rw [hl], [], [], by rw [hl]; rfl, hn, .inl rfl⟩, ?_⟩
  rw [hl]
  exact hin

/-- Behind `-->` text follows again. -/
theorem Ready.stop {x : SsiContext} {s : Bytes} (h : Ready x (tagEnd ++ s)) :
    Ready { x with ssiState := 0, tagLength := 0, tagName := [] } s :=
  ⟨h.closed.of_append, .inl rfl, fun _ => ⟨rfl, rfl⟩,
    fun h2 => absurd h2 (show (0 : ℤ) ≠ 2 by decide)⟩

/-- A letter of a name finds room in the name buffer. -/
theorem Ready.letter {x : SsiContext} {b : UInt8} {s : Bytes} (h : Ready x (b :: s))
    (hx : x.ssiState = 2) (hb : ¬ marks.closing <+: b :: s) :
    0 ≤ x.tagLength ∧ x.tagLength < 63 ∧ Ready (x.pushName b) s := by
  obtain ⟨hlen, hnamed, hin⟩ := h.inside hx
  obtain ⟨hpos, hin⟩ := hin.cons hb
  have h0 := hnamed.1
  refine ⟨h0, by omega, h.closed.tail, .inr (.inr hx), fun h2 => absurd hx h2, fun _ => ?_⟩
  refine ⟨?_, (hnamed.push b).1, ?_⟩
  · simp only [SsiContext.pushName]
    omega
  · have he : 63 - (x.pushName b).tagLength.toNat = 63 - x.tagLength.toNat - 1 := by
      simp only [SsiContext.pushName]
      omega
    rw [he]
    exact hin

theorem expansion_copy {value : Bytes → Bytes} {x : SsiContext} {b : UInt8} {s : Bytes}
    (hx : x.ssiState ≠ 2) (hb : ¬ marks.opening <+: b :: s) :
    expansion value x (b :: s) = b :: expansion value { x with ssiState := 1 } s := by
  rw [expansion, expansion, tagSoFar_outside hx, tagSoFar_outside (show (1 : ℤ) ≠ 2 by decide),
    Marks.expand_cons hb]

theorem expansion_start {value : Bytes → Bytes} {x : SsiContext} {s : Bytes} (hx : x.ssiState ≠ 2)
    (hl : x.tagLength = 0) :
    expansion value x (tagStart ++ s) = expansion value { x with ssiState := 2 } s := by
  have hopen : marks.expand (lookup value) none (tagStart ++ s) =
      marks.expand (lookup value) (some []) s := Marks.expand_opening s
  rw [expansion, expansion, tagSoFar_outside hx, tagSoFar_inside rfl, hl]
  exact hopen

theorem expansion_stop {value : Bytes → Bytes} {x : SsiContext} {s : Bytes} (hx : x.ssiState = 2)
    (hn : Named x) :
    expansion value x (tagEnd ++ s) = value (cstr x.tagName) ++
      expansion value { x with ssiState := 0, tagLength := 0, tagName := [] } s := by
  rw [expansion, expansion, tagSoFar_inside hx, tagSoFar_outside (show (0 : ℤ) ≠ 2 by decide),
    hn.cstr_eq]
  exact Marks.expand_closing _ s

theorem expansion_letter {value : Bytes → Bytes} {x : SsiContext} {b : UInt8} {s : Bytes}
    (hx : x.ssiState = 2) (hn : Named x) (hb : ¬ marks.closing <+: b :: s) :
    expansion value x (b :: s) = expansion value (x.pushName b) s := by
  have hx' : (x.pushName b).ssiState = 2 := hx
  rw [expansion, expansion, tagSoFar_inside hx, tagSoFar_inside hx', Marks.expand_name_cons hb,
    (hn.push b).2]

/-! ## Parsing the cache -/

/-- What parsing the bytes `p` of the cache, with `u` still unread, comes to. -/
structure Parsed (value : Bytes → Bytes) (maxSize : ℤ) (x : SsiContext) (out p u : Bytes)
    (r : Bytes × SsiContext × Bytes × ScanEnd) : Prop where
  same : r.2.2.1 ++ expansion value r.2.1 (r.1 ++ u) = out ++ expansion value x (p ++ u)
  ready : Ready r.2.1 (r.1 ++ u)
  source : r.2.1.fp = x.fp ∧ r.2.1.ssi = x.ssi
  inModel : r.2.2.2 ≠ .fault
  more : r.2.2.2 = .more → r.1.length < tagStart.length ∧ Room maxSize r.2.1 r.2.2.1
  block : r.2.2.2 = .ready2Send → r.1.length < p.length

/-- Parsing goes on from a state with the same text to come. -/
theorem Parsed.step {value : Bytes → Bytes} {maxSize : ℤ} {x y : SsiContext} {out out' p q u : Bytes}
    {r : Bytes × SsiContext × Bytes × ScanEnd} (h : Parsed value maxSize y out' q u r)
    (hsame : out' ++ expansion value y (q ++ u) = out ++ expansion value x (p ++ u))
    (hsource : y.fp = x.fp ∧ y.ssi = x.ssi) (hlen : q.length ≤ p.length) :
    Parsed value maxSize x out p u r :=
  ⟨h.same.trans hsame, h.ready, ⟨h.source.1.trans hsource.1, h.source.2.trans hsource.2⟩, h.inModel,
    h.more, fun he => Nat.lt_of_lt_of_le (h.block he) hlen⟩

theorem ssiScan_spec {value : Bytes → Bytes} (hv : ∀ name, (value name).length ≤ 63) {maxSize : ℤ}
    (hm : 128 ≤ maxSize) (u : Bytes) (x : SsiContext) (out p : Bytes) (hx : Ready x (p ++ u))
    (hroom : Room maxSize x out) :
    Parsed value maxSize x out p u (ssiScan value maxSize x out p) := by
  fun_induction ssiScan value maxSize x out p with
  | case1 x out =>
    exact ⟨rfl, hx, ⟨rfl, rfl⟩, (fun he => by cases he), fun _ => ⟨Nat.zero_lt_succ _, hroom⟩, fun he => by cases he⟩
  | case2 x out b rest state hs y hshort =>
    have h2 := outside_of_search hs
    refine ⟨?_, hx.search h2, ⟨rfl, rfl⟩, (fun he => by cases he), (fun _ => ⟨hshort.2, hroom.1, ?_⟩),
      fun he => by cases he⟩
    · simp only [expansion, tagSoFar_outside h2]
      rfl
    · exact fun h2 => absurd h2 (show (1 : ℤ) ≠ 2 by decide)
  | case3 x out b rest state hs y hshort hfound =>
    have h2 := outside_of_search hs
    obtain ⟨s, he⟩ := (tagStart_iff _).mp hfound.2
    rw [← he] at hx ⊢
    have hd : (tagStart ++ s).drop tagStart.length = s := List.drop_left
    have hx' : Ready x (tagStart ++ (s ++ u)) := by rw [← List.append_assoc]; exact hx
    rw [tagStart_length] at hd
    rw [hd]
    refine ⟨?_, hx'.start h2, ⟨rfl, rfl⟩, (fun he => by cases he), (fun he => by cases he), fun _ => ?_⟩
    · rw [List.append_assoc, expansion_start h2 (hx.outside h2).1]
    · rw [List.length_append]
      exact Nat.lt_add_of_pos_left (Nat.zero_lt_succ _)
  | case4 x out b rest state hs y hshort hno hfull =>
    have h2 := outside_of_search hs
    refine ⟨?_, hx.copy h2, ⟨rfl, rfl⟩, (fun he => by cases he), (fun he => by cases he),
      fun _ => Nat.lt_succ_self _⟩
    rw [List.cons_append, expansion_copy h2 (no_tagStart hshort hno), List.append_assoc]
    rfl
  | case5 x out b rest state hs y hshort hno hfull ih =>
    have h2 := outside_of_search hs
    have ih := ih (hx.copy h2) ⟨Int.not_le.mp hfull, fun h2 => absurd h2 (show (1 : ℤ) ≠ 2 by decide)⟩
    refine ih.step ?_ ⟨rfl, rfl⟩ (Nat.le_succ _)
    rw [List.cons_append, expansion_copy h2 (no_tagStart hshort hno), List.append_assoc]
    rfl
  | case6 x out b rest state hs hs2 hshort =>
    exact ⟨rfl, hx, ⟨rfl, rfl⟩, (fun he => by cases he), fun _ => ⟨Nat.lt_trans hshort.2 (by decide), hroom⟩,
      fun he => by cases he⟩
  | case7 x out b state hs hs2 y z rest hfound text nAppend hrep hneg hshort =>
    have h2 := inside_of_name hs2
    have hfit : ((value (cstr x.tagName)).length : ℤ) < maxSize - out.length - 50 := by
      have := hv (cstr x.tagName)
      rw [hroom.2 h2]
      simp only [List.length_nil]
      omega
    rw [replaceTag_of_fits hfit] at hrep
    have := (Prod.mk.inj hrep).2
    omega
  | case8 x out b state hs hs2 y z rest hfound text nAppend hrep hneg x' hshort ih =>
    have h2 := inside_of_name hs2
    have hfit : ((value (cstr x.tagName)).length : ℤ) < maxSize - out.length - 50 := by
      have := hv (cstr x.tagName)
      rw [hroom.2 h2]
      simp only [List.length_nil]
      omega
    rw [replaceTag_of_fits hfit] at hrep
    obtain ⟨rfl, -⟩ := Prod.mk.inj hrep
    have he : [b, y, z] = tagEnd := by
      have hp := (tagEnd_iff _).mp hfound.2
      exact (hp.eq_of_length rfl).symm
    have hp : b :: y :: z :: (rest ++ u) = tagEnd ++ (rest ++ u) := by
      rw [← he]
      rfl
    have hx' : Ready x (tagEnd ++ (rest ++ u)) := hp ▸ hx
    have hv' := hv (cstr x.tagName)
    have hnext : Room maxSize x' (out ++ value (cstr x.tagName)) := by
      refine ⟨?_, fun h2 => absurd h2 (show (0 : ℤ) ≠ 2 by decide)⟩
      rw [hroom.2 h2, List.nil_append]
      omega
    have ih := ih hx'.stop hnext
    refine ih.step ?_ ⟨rfl, rfl⟩ (by simp only [List.length_cons]; omega)
    rw [List.cons_append, List.cons_append, List.cons_append, hp,
      expansion_stop h2 (hx.inside h2).2.1, List.append_assoc]
  | case9 x out b state hs hs2 y z rest hno hfull hshort =>
    have h2 := inside_of_name hs2
    have := hx.letter h2 (no_tagEnd hno)
    omega
  | case10 x out b state hs hs2 y z rest hno hfull hshort ih =>
    have h2 := inside_of_name hs2
    have hb := no_tagEnd (s := rest) (u := u) hno
    refine (ih (hx.letter h2 hb).2.2 hroom).step ?_ ⟨rfl, rfl⟩ (Nat.le_succ _)
    exact congrArg (out ++ ·) (expansion_letter h2 (hx.inside h2).2.1 hb).symm
  | case11 x out b state hs hs2 rest hrest hfull hshort =>
    have h2 := inside_of_name hs2
    have := hx.letter h2 (no_tagEnd_short hrest hshort)
    omega
  | case12 x out b state hs hs2 rest hrest hfull hshort ih =>
    have h2 := inside_of_name hs2
    have hb := no_tagEnd_short (u := u) hrest hshort
    refine (ih (hx.letter h2 hb).2.2 hroom).step ?_ ⟨rfl, rfl⟩ (Nat.le_succ _)
    exact congrArg (out ++ ·) (expansion_letter h2 (hx.inside h2).2.1 hb).symm
  | case13 x out b rest state hs hs2 =>
    exact absurd (search_or_name hx.state) (not_or.mpr ⟨hs, hs2⟩)

/-! ## Filling the cache -/

/-- The file behind handle `h` does not change while it is read. -/
def Stable (env : Env) (h : ℕ) (file : Bytes) : Prop :=
  ∀ n pos count, env.fread n h pos count = some (slice file pos count)

/-- What `WEB_fread` finds from position `base` of a file on is `text`. -/
def Serves (env : Env) (h base : ℕ) (text : Bytes) : Prop :=
  ∀ n pos count, pos + count ≤ text.length →
    env.fread n h (base + pos) count = some (slice text pos count)

theorem Stable.serves {env : Env} {h : ℕ} {file : Bytes} (hs : Stable env h file) :
    Serves env h 0 file := by
  intro n pos count _
  rw [Nat.zero_add]
  exact hs n pos count

theorem readInto_serves {env : Env} {h base : ℕ} {text : Bytes} (hs : Serves env h base text) (w : Work)
    {index : ℕ} {maxRead room : ℤ} (h0 : 0 ≤ maxRead) (hr : maxRead ≤ room) (hroom : room < 2 ^ 32)
    (hpos : w.world.files.position h = base + index) (htext : index + maxRead.toNat ≤ text.length) :
    ∃ world : World,
      readInto env w (.handle h) maxRead room =
        ({ w with world := world }, some (slice text index maxRead.toNat)) ∧
      world.files.position h = base + index + (slice text index maxRead.toNat).length ∧
      world.fault = w.world.fault := by
  have hu : u32 maxRead = maxRead.toNat := by
    unfold u32
    omega
  have hlen : (slice text index maxRead.toNat).length ≤ maxRead.toNat := List.length_take_le _ _
  have htake : (slice text index maxRead.toNat).take maxRead.toNat = slice text index maxRead.toNat :=
    List.take_of_length_le hlen
  obtain ⟨world, hread, hpos', hfault⟩ : ∃ world : World, w.world.webFread env (.handle h) maxRead.toNat =
      (world, some (slice text index maxRead.toNat)) ∧
        world.files.position h = base + index + (slice text index maxRead.toNat).length ∧
        world.fault = w.world.fault := by
    simp only [World.webFread, hpos, hs w.world.calls index maxRead.toNat htext, htake]
    exact ⟨_, rfl, Function.update_self _ _ _, rfl⟩
  refine ⟨world, ?_, hpos', hfault⟩
  simp only [readInto, hu, hread]
  rw [if_neg (by omega)]

/-- A text is being read through handle `h`, from position `base` of the file on. -/
structure Fetching (h base : ℕ) (text : Bytes) (w : Work) (x : SsiContext) : Prop where
  fp : x.fp = .handle h
  total : w.dwTotal = text.length
  nonneg : 0 ≤ w.dwOperIndex
  le : w.dwOperIndex ≤ w.dwTotal
  position : w.world.files.position h = base + w.dwOperIndex.toNat
  offset : x.cacheOffset = x.cache.length
  small : x.cache.length < cacheSize

/-- The next bytes of the text go into the cache. -/
theorem Fetching.refill {env : Env} {h base : ℕ} {text : Bytes} (hs : Serves env h base text) {w : Work}
    {x : SsiContext} (hf : Fetching h base text w x) (hlt : w.dwOperIndex < w.dwTotal) :
    ∃ (world : World) (data : Bytes),
      readInto env w (.handle h) (min (w.dwTotal - w.dwOperIndex) ((cacheSize : ℤ) - x.cacheOffset))
          ((cacheSize : ℤ) - x.cacheOffset) = ({ w with world := world }, some data) ∧
        world.files.position h = base + (w.dwOperIndex + data.length).toNat ∧
        world.fault = w.world.fault ∧ 0 < data.length ∧ w.dwOperIndex + data.length ≤ w.dwTotal ∧
        data ++ text.drop (w.dwOperIndex + data.length).toNat = text.drop w.dwOperIndex.toNat ∧
        (x.cache ++ data).length ≤ cacheSize := by
  have h0 := hf.nonneg
  have htot := hf.total
  have hoff := hf.offset
  have hsmall : x.cache.length < 64 := hf.small
  have hcache : (cacheSize : ℤ) = 64 := rfl
  obtain ⟨world, hread, hpos, hfault⟩ := @readInto_serves env h base text hs w w.dwOperIndex.toNat
    (min (w.dwTotal - w.dwOperIndex) ((cacheSize : ℤ) - x.cacheOffset))
    ((cacheSize : ℤ) - x.cacheOffset) (by omega) (min_le_right _ _) (by omega) hf.position (by omega)
  generalize hd : slice text w.dwOperIndex.toNat
    (min (w.dwTotal - w.dwOperIndex) ((cacheSize : ℤ) - x.cacheOffset)).toNat = data at hread hpos
  have hdlen : (data.length : ℤ) =
      min (w.dwTotal - w.dwOperIndex) ((cacheSize : ℤ) - x.cacheOffset) := by
    rw [← hd, slice, List.length_take, List.length_drop]
    omega
  have hnext : (w.dwOperIndex + data.length).toNat = w.dwOperIndex.toNat + data.length := by omega
  refine ⟨world, data, hread, ?_, hfault, by omega, by omega, ?_, ?_⟩
  · rw [hpos, hnext, Nat.add_assoc]
  · rw [hnext, ← hd]
    exact slice_append_drop _ _ _
  · rw [List.length_append]
    omega

/-- The file is being read as handle `h`, with the scanner ready for the rest. -/
structure Reading (h : ℕ) (file : Bytes) (w : Work) (x : SsiContext) : Prop
    extends Fetching h 0 file w x where
  ready : Ready x (x.cache ++ file.drop w.dwOperIndex.toNat)

/-- What the scanner of a context still has before it. -/
def pending (file : Bytes) (w : Work) (x : SsiContext) : Bytes :=
  x.cache ++ file.drop w.dwOperIndex.toNat

/-- What one run of the refill loop comes to. -/
structure Filled (value : Bytes → Bytes) (h : ℕ) (file : Bytes) (w : Work) (x : SsiContext)
    (out : Bytes) (w' : Work) (x' : SsiContext) (out' : Bytes) : Prop where
  same : out' ++ expansion value x' (pending file w' x') =
    out ++ expansion value x (pending file w x)
  reading : Reading h file w' x'
  source : x'.ssi = x.ssi
  stage : w'.dwOperStage = w.dwOperStage
  forward : w.dwOperIndex ≤ w'.dwOperIndex ∧
    (w.dwOperIndex < w.dwTotal → w.dwOperIndex < w'.dwOperIndex)

theorem ssiLoop_spec {env : Env} {value : Bytes → Bytes} (hv : ∀ name, (value name).length ≤ 63)
    {maxSize : ℤ} (hm : 128 ≤ maxSize) {h : ℕ} {file : Bytes} (hs : Stable env h file) (n : ℕ)
    (w : Work) (x : SsiContext) (out : Bytes) (hn : (w.dwTotal - w.dwOperIndex).toNat < n)
    (hr : Reading h file w x) (hroom : Room maxSize x out) :
    ∃ w' x' out', ssiLoop env value maxSize n w x out = (w', x', some out') ∧
      Filled value h file w x out w' x' out' := by
  induction n generalizing w x out with
  | zero => exact absurd hn (Nat.not_lt_zero _)
  | succ n ih =>
    have h0 := hr.nonneg
    have hoff := hr.offset
    have hsmall : x.cache.length < 64 := hr.small
    by_cases hlt : w.dwOperIndex < w.dwTotal
    swap
    · refine ⟨w, x, out, by rw [ssiLoop, if_neg hlt], rfl, hr, rfl, rfl, Int.le_refl _, ?_⟩
      exact fun h => absurd h hlt
    obtain ⟨world, data, hread, hpos, -, hdpos, hdle, hdrop, hplen⟩ := hr.toFetching.refill hs.serves hlt
    have htot := hr.total
    have htake : x.cache.take x.cacheOffset.toNat = x.cache := by
      rw [hoff, Int.toNat_natCast, List.take_length]
    have hready : Ready x ((x.cache ++ data) ++ file.drop (w.dwOperIndex + data.length).toNat) := by
      rw [List.append_assoc, hdrop]
      exact hr.ready
    have hp := ssiScan_spec hv hm _ x out (x.cache ++ data) hready hroom
    have hplen : (x.cache ++ data).length ≤ 64 := hplen
    rw [ssiLoop, if_pos hlt, hr.fp]
    simp only [hread, htake]
    -- the scanner's result, with what is left of the cache put back
    generalize ssiScan value maxSize x out (x.cache ++ data) = r at hp
    obtain ⟨rest, x', out', e⟩ := r
    let w1 : Work := { w with world := world, dwOperIndex := w.dwOperIndex + data.length }
    let x1 : SsiContext := { x' with cache := rest, cacheOffset := rest.length }
    have hrest : rest.length < 64 := by
      cases e with
      | more => exact Nat.lt_trans (hp.more rfl).1 (by rw [tagStart_length]; omega)
      | ready2Send => exact Nat.lt_of_lt_of_le (hp.block rfl) hplen
      | fault => exact absurd rfl hp.inModel
    have hsame : out' ++ expansion value x1 (pending file w1 x1) =
        out ++ expansion value x (pending file w x) := by
      refine Eq.trans hp.same ?_
      rw [List.append_assoc, hdrop]
      rfl
    have hreading : Reading h file w1 x1 := by
      refine ⟨⟨hp.source.1.trans hr.fp, htot, ?_, ?_, ?_, rfl, hrest⟩, ?_⟩
      · show 0 ≤ w.dwOperIndex + (data.length : ℤ)
        omega
      · show w.dwOperIndex + (data.length : ℤ) ≤ w.dwTotal
        omega
      · exact hpos
      · exact ⟨hp.ready.closed, hp.ready.state, hp.ready.outside, hp.ready.inside⟩
    have hfwd : w.dwOperIndex < w1.dwOperIndex := by
      show w.dwOperIndex < w.dwOperIndex + (data.length : ℤ)
      omega
    cases e with
    | fault => exact absurd rfl hp.inModel
    | ready2Send =>
      exact ⟨w1, x1, out', rfl, hsame, hreading, hp.source.2, rfl, Int.le_of_lt hfwd, fun _ => hfwd⟩
    | more =>
      have hn1 : (w1.dwTotal - w1.dwOperIndex).toNat < n := by
        show (w.dwTotal - (w.dwOperIndex + (data.length : ℤ))).toNat < n
        omega
      obtain ⟨w2, x2, out2, hl2, hf⟩ := ih w1 x1 out' hn1 hreading (hp.more rfl).2
      refine ⟨w2, x2, out2, hl2, hf.same.trans hsame, hf.reading, hf.source.trans hp.source.2,
        hf.stage, ?_⟩
      have := hf.forward.1
      exact ⟨by omega, fun _ => by omega⟩

/-! ## One call -/

/-- What the cache holds. -/
def leftInCache (x : SsiContext) : Bytes := x.cache.take x.cacheOffset.toNat

theorem Reading.leftInCache_eq {h : ℕ} {file : Bytes} {w : Work} {x : SsiContext}
    (hr : Reading h file w x) : leftInCache x = x.cache := by
  rw [leftInCache, hr.offset, Int.toNat_natCast, List.take_length]

/-- An SSI page in the middle of being sent. -/
structure Page (h : ℕ) (file : Bytes) (w : Work) : Prop where
  ssi : w.ssiCtx.ssi > 0
  reading : Reading h file w w.ssiCtx

/-- The call that finds the file read puts out the cache as it is and ends the response. -/
theorem readPage_flush {env : Env} {value : Bytes → Bytes} {c : Core} (hc : c.requestMethod ≠ none)
    {h : ℕ} {file : Bytes} {w : Work} (hp : Page h file w) (maxSize : ℤ)
    (hend : w.dwOperIndex = w.dwTotal) :
    (readPage env value c w maxSize).1.dwOperStage = stageEnd ∧
      (readPage env value c w maxSize).2.1 = leftInCache w.ssiCtx := by
  have hoff := hp.reading.offset
  have hcache := hp.reading.leftInCache_eq
  have hzero : w.dwTotal - w.dwOperIndex = 0 := by omega
  unfold readPage
  simp only [if_neg hc, if_pos hzero]
  by_cases hpos : w.ssiCtx.ssi > 0 ∧ w.ssiCtx.cacheOffset > 0
  · rw [if_pos hpos]
    refine ⟨rfl, ?_⟩
    show flushCache w.ssiCtx = _
    have hn : w.ssiCtx.cacheOffset.toNat - w.ssiCtx.cache.length = 0 := by omega
    rw [flushCache, hn, List.replicate_zero, List.append_nil]
    rfl
  · rw [if_neg hpos]
    have hnil : leftInCache w.ssiCtx = [] := by
      rw [hcache]
      refine List.eq_nil_of_length_eq_zero ?_
      have := hp.ssi
      omega
    exact ⟨rfl, hnil.symm⟩

/-- Any other call keeps what was put out and what is left together equal to the expansion. -/
theorem readPage_block {env : Env} {value : Bytes → Bytes} (hv : ∀ name, (value name).length ≤ 63)
    {c : Core} (hc : c.requestMethod ≠ none) {h : ℕ} {file : Bytes} (hs : Stable env h file)
    {w : Work} (hp : Page h file w) {maxSize : ℤ} (hm : 128 ≤ maxSize)
    (hlt : w.dwOperIndex < w.dwTotal) :
    ∃ w' out, readPage env value c w maxSize = (w', out, (out.length : ℤ)) ∧ Page h file w' ∧
      out ++ expansion value w'.ssiCtx (pending file w' w'.ssiCtx) =
        expansion value w.ssiCtx (pending file w w.ssiCtx) ∧
      w.dwOperIndex < w'.dwOperIndex ∧
      (w'.dwOperStage = nextStage w.dwOperStage ∨ w'.dwOperStage = stageEnd ∧
        w'.dwOperIndex = w'.dwTotal ∧ leftInCache w'.ssiCtx = []) := by
  have hssi := hp.ssi
  have hroom : Room maxSize w.ssiCtx [] := ⟨by simp only [List.length_nil]; omega, fun _ => rfl⟩
  obtain ⟨w1, x1, out, hloop, hf⟩ := ssiLoop_spec hv hm hs
    (env.patience + (w.dwTotal - w.dwOperIndex).toNat + 1) w w.ssiCtx [] (by omega) hp.reading hroom
  have hr := hf.reading
  let w' : Work := { w1.setSsi x1 with dwOperStage := stageAfterBlock (w1.setSsi x1) x1 }
  have hx : w'.ssiCtx = x1 := rfl
  refine ⟨w', out, ?_, ⟨?_, ?_⟩, ?_, hf.forward.2 hlt, ?_⟩
  · unfold readPage
    simp only [if_neg hc]
    rw [if_neg (by omega), if_neg (by omega), hloop]
    rfl
  · rw [hx, hf.source]
    exact hssi
  · exact ⟨⟨hr.fp, hr.total, hr.nonneg, hr.le, hr.position, hr.offset, hr.small⟩, hr.ready⟩
  · have hsame := hf.same
    rw [List.nil_append] at hsame
    exact hsame
  · by_cases hdone : w1.dwOperIndex ≥ w1.dwTotal ∧ ¬ (x1.ssi > 0 ∧ x1.cacheOffset > 0)
    · have hle := hr.le
      have hoff := hr.offset
      refine .inr ⟨if_pos hdone, by show w1.dwOperIndex = w1.dwTotal; omega, ?_⟩
      rw [hx, hr.leftInCache_eq]
      refine List.eq_nil_of_length_eq_zero ?_
      have hx1 : x1.ssi > 0 := hf.source ▸ hssi
      have hno := hdone.2
      omega
    · refine .inl ?_
      show stageAfterBlock (w1.setSsi x1) x1 = _
      refine (if_neg hdone).trans ?_
      exact congrArg nextStage hf.stage

/-! ## The calls of one response -/

/-- The state and all output after `n` calls with the block sizes `sizes`, or fewer if the response
ended before. -/
def readPages (env : Env) (value : Bytes → Bytes) (c : Core) (w : Work) (sizes : ℕ → ℤ) :
    ℕ → Work × Bytes
  | 0 => (w, [])
  | n + 1 =>
    let (w', out) := readPages env value c w sizes n
    if w'.dwOperStage = stageEnd then (w', out)
    else
      let (w'', block, _) := readPage env value c w' (sizes n)
      (w'', out ++ block)

/-- A call that finds the file read finds no part of a tag in the cache. -/
def FlushClear (w : Work) : Prop :=
  w.dwOperStage ≠ stageEnd → w.dwOperIndex = w.dwTotal →
    w.ssiCtx.ssiState ≠ 2 ∧ ¬ marks.opening <:+: leftInCache w.ssiCtx

instance (w : Work) : Decidable (FlushClear w) :=
  inferInstanceAs (Decidable (w.dwOperStage ≠ stageEnd → w.dwOperIndex = w.dwTotal →
    w.ssiCtx.ssiState ≠ 2 ∧ ¬ marks.opening <:+: leftInCache w.ssiCtx))

theorem Page.pending_eq {h : ℕ} {file : Bytes} {w : Work} (hp : Page h file w)
    (hend : w.dwOperIndex = w.dwTotal) : pending file w w.ssiCtx = leftInCache w.ssiCtx := by
  rw [pending, hp.reading.leftInCache_eq, hend, hp.reading.total, Int.toNat_natCast, List.drop_length,
    List.append_nil]

/-- What holds no part of a tag expands to itself. -/
theorem expansion_of_clear {value : Bytes → Bytes} {x : SsiContext} {s : Bytes} (hx : x.ssiState ≠ 2)
    (hs : ¬ marks.opening <:+: s) : expansion value x s = s := by
  rw [expansion, tagSoFar_outside hx]
  exact Marks.expand_of_no_opening hs

/-- What holds part of a tag does not, when the values have no `>`. -/
theorem clear_of_expansion {value : Bytes → Bytes} (hv : ∀ name, 62 ∉ value name) {x : SsiContext}
    {s : Bytes} (hr : Ready x s) (h : expansion value x s = s) :
    x.ssiState ≠ 2 ∧ ¬ marks.opening <:+: s := by
  have hz : (62 : UInt8) ∈ marks.closing := by decide
  have hlookup : ∀ name, 62 ∉ lookup value name := fun name => hv _
  have hx : x.ssiState ≠ 2 := by
    intro h2
    rw [expansion, tagSoFar_inside h2] at h
    exact (hr.inside h2).2.2.expand_ne hz hlookup h
  refine ⟨hx, fun hs => ?_⟩
  rw [expansion, tagSoFar_outside hx] at h
  exact hr.closed.expand_ne hz hlookup hs h

/-- An SSI page that was opened and not read yet. -/
structure Opened (h : ℕ) (file : Bytes) (w : Work) : Prop where
  ctx : w.appContext = .ssi { SsiContext.zero with ssi := 1, fp := .handle h }
  index : w.dwOperIndex = 0
  total : w.dwTotal = file.length
  position : w.world.files.position h = 0
  stage : w.dwOperStage = 0

theorem Opened.page {h : ℕ} {file : Bytes} {w : Work} (ho : Opened h file w)
    (hc : marks.Closed 63 file) : Page h file w := by
  have hx : w.ssiCtx = { SsiContext.zero with ssi := 1, fp := .handle h } := by
    rw [Work.ssiCtx, ho.ctx]
    rfl
  refine ⟨by rw [hx]; exact Int.one_pos, ?_⟩
  rw [hx]
  refine ⟨⟨rfl, ho.total, by rw [ho.index], by rw [ho.index, ho.total]; omega, ?_, rfl,
    Nat.zero_lt_succ _⟩, ?_⟩
  · rw [ho.position, ho.index]
    rfl
  · rw [ho.index]
    exact ⟨hc, .inl rfl, fun _ => ⟨rfl, rfl⟩, fun h2 => absurd h2 (show (0 : ℤ) ≠ 2 by decide)⟩

theorem Opened.expansion_eq {h : ℕ} {file : Bytes} {w : Work} (ho : Opened h file w)
    (value : Bytes → Bytes) :
    expansion value w.ssiCtx (pending file w w.ssiCtx) = marks.expand (lookup value) none file := by
  have hx : w.ssiCtx = { SsiContext.zero with ssi := 1, fp := .handle h } := by
    rw [Work.ssiCtx, ho.ctx]
    rfl
  rw [pending, ho.index, hx]
  rfl

/-- What `n` calls come to, while the response goes on and once it has ended. -/
inductive Progress (value : Bytes → Bytes) (h : ℕ) (file : Bytes) (states : ℕ → Work × Bytes)
    (n : ℕ) : Prop
  | going (page : Page h file (states n).1) (stage : (states n).1.dwOperStage = n)
      (index : (n : ℤ) ≤ (states n).1.dwOperIndex)
      (clear : ∀ k < n, FlushClear (states k).1)
      (same : (states n).2 ++
          expansion value (states n).1.ssiCtx (pending file (states n).1 (states n).1.ssiCtx) =
        marks.expand (lookup value) none file)
  | ended (stage : (states n).1.dwOperStage = stageEnd)
      (same : (∀ k < n, FlushClear (states k).1) → (states n).2 = marks.expand (lookup value) none file)
      (only : (∀ name, 62 ∉ value name) → (states n).2 = marks.expand (lookup value) none file →
        ∀ k < n, FlushClear (states k).1)

theorem forall_lt_succ {P : ℕ → Prop} {n : ℕ} : (∀ k < n + 1, P k) ↔ (∀ k < n, P k) ∧ P n :=
  ⟨fun h => ⟨fun k hk => h k (Nat.lt_succ_of_lt hk), h n (Nat.lt_succ_self n)⟩,
    fun ⟨h, hn⟩ k hk => (Nat.lt_succ_iff_lt_or_eq.mp hk).elim (h k) fun he => he ▸ hn⟩

theorem readPages_succ {env : Env} {value : Bytes → Bytes} {c : Core} {w : Work} {sizes : ℕ → ℤ} (n : ℕ) :
    readPages env value c w sizes (n + 1) =
      if (readPages env value c w sizes n).1.dwOperStage = stageEnd then readPages env value c w sizes n
      else
        ((readPage env value c (readPages env value c w sizes n).1 (sizes n)).1,
          (readPages env value c w sizes n).2 ++
            (readPage env value c (readPages env value c w sizes n).1 (sizes n)).2.1) := rfl

theorem readPages_progress {env : Env} {value : Bytes → Bytes}
    (hv : ∀ name, (value name).length ≤ 63) {c : Core} (hc : c.requestMethod ≠ none) {h : ℕ}
    {file : Bytes} (hs : Stable env h file) (hclosed : marks.Closed 63 file)
    (hlen : file.length < 2 ^ 31) {w : Work} (ho : Opened h file w) {sizes : ℕ → ℤ}
    (hsz : ∀ n, 128 ≤ sizes n) (n : ℕ) :
    Progress value h file (readPages env value c w sizes) n := by
  induction n with
  | zero =>
    refine .going (ho.page hclosed) ho.stage ?_ (fun k hk => absurd hk (Nat.not_lt_zero k)) ?_
    · exact ho.index.symm.le
    · exact ho.expansion_eq value
  | succ n ih =>
    have hstep := @readPages_succ env value c w sizes n
    cases ih with
    | ended stage same only =>
      rw [if_pos stage] at hstep
      have hlast : FlushClear (readPages env value c w sizes n).1 := fun hne => absurd stage hne
      refine .ended (by rw [hstep]; exact stage) ?_ ?_
      · rw [hstep]
        exact fun hk => same (forall_lt_succ.mp hk).1
      · rw [hstep]
        exact fun hplain he => forall_lt_succ.mpr ⟨only hplain he, hlast⟩
    | going page stage index clear same =>
      have htot := page.reading.total
      have hle := page.reading.le
      have hidx := page.reading.nonneg
      have hne : (readPages env value c w sizes n).1.dwOperStage ≠ stageEnd := by
        rw [stage]
        unfold stageEnd
        omega
      rw [if_neg hne] at hstep
      by_cases hend : (readPages env value c w sizes n).1.dwOperIndex =
          (readPages env value c w sizes n).1.dwTotal
      · obtain ⟨hstage, hout⟩ := @readPage_flush env value c hc h file _ page (sizes n) hend
        have hready := page.reading.ready
        rw [← pending, page.pending_eq hend] at hready
        rw [page.pending_eq hend] at same
        refine .ended (by rw [hstep]; exact hstage) ?_ ?_
        · rw [hstep]
          simp only [hout]
          intro hk
          obtain ⟨hx, hno⟩ := hk n (Nat.lt_succ_self n) hne hend
          rw [← same, expansion_of_clear hx hno]
        · rw [hstep]
          simp only [hout]
          intro hplain he
          rw [← same, List.append_cancel_left_eq] at he
          exact forall_lt_succ.mpr ⟨clear, fun _ _ => clear_of_expansion hplain hready he.symm⟩
      · obtain ⟨w', block, hblock, hpage, hsame, hfwd, hstage⟩ := readPage_block hv hc hs page
          (hsz n) (by omega)
        rw [hblock] at hstep
        have hout : (readPages env value c w sizes n).2 ++ block ++
            expansion value w'.ssiCtx (pending file w' w'.ssiCtx) =
              marks.expand (lookup value) none file := by
          rw [List.append_assoc, hsame, same]
        have hall : ∀ k < n + 1, FlushClear (readPages env value c w sizes k).1 :=
          forall_lt_succ.mpr ⟨clear, fun _ he => absurd he hend⟩
        rcases hstage with hstage | ⟨hstage, hdone, hleft⟩
        · refine .going ?_ ?_ ?_ hall ?_
          · rw [hstep]
            exact hpage
          · rw [hstep]
            refine hstage.trans ?_
            rw [stage]
            unfold nextStage
            omega
          · rw [hstep]
            show ((n + 1 : ℕ) : ℤ) ≤ w'.dwOperIndex
            omega
          · rw [hstep]
            exact hout
        · rw [hpage.pending_eq hdone, hleft, expansion, Marks.expand_nil, List.append_nil] at hout
          refine .ended (by rw [hstep]; exact hstage) ?_ fun _ _ => hall
          rw [hstep]
          exact fun _ => hout

/-- The response of an SSI page ends, and its blocks together are the file with every tag replaced when
no call finds the file read with part of a tag in the cache; with values that have no `>` only then. -/
theorem ssi_expansion_iff {env : Env} {value : Bytes → Bytes}
    (hv : ∀ name, (value name).length ≤ 63) {c : Core} (hc : c.requestMethod ≠ none) {h : ℕ}
    {file : Bytes} (hs : Stable env h file) (hclosed : marks.Closed 63 file)
    (hlen : file.length < 2 ^ 31) {w : Work} (ho : Opened h file w) {sizes : ℕ → ℤ}
    (hsz : ∀ n, 128 ≤ sizes n) :
    (∃ n, (readPages env value c w sizes n).1.dwOperStage = stageEnd) ∧
      ∀ n, (readPages env value c w sizes n).1.dwOperStage = stageEnd →
        ((∀ k < n, FlushClear (readPages env value c w sizes k).1) →
          (readPages env value c w sizes n).2 = marks.expand (lookup value) none file) ∧
        ((∀ name, 62 ∉ value name) →
          (readPages env value c w sizes n).2 = marks.expand (lookup value) none file →
          ∀ k < n, FlushClear (readPages env value c w sizes k).1) := by
  have hp := readPages_progress hv hc hs hclosed hlen ho hsz
  constructor
  · refine ⟨file.length + 1, ?_⟩
    cases hp (file.length + 1) with
    | ended stage _ _ => exact stage
    | going page _ index _ _ =>
      have := page.reading.le
      have := page.reading.total
      omega
  · intro n hn
    cases hp n with
    | ended _ same only => exact ⟨same, only⟩
    | going page stage index _ _ =>
      have := page.reading.le
      have := page.reading.total
      rw [stage] at hn
      unfold stageEnd at hn
      omega

/-! ## A tag at the end of the file -/

/-- A page that `file` was opened for. -/
def openedPage (file : Bytes) : Work :=
  { Work.zero World.boot with
    appContext := .ssi { SsiContext.zero with ssi := 1, fp := .handle 0 }
    dwTotal := file.length }

def getCore : Core := { Core.zero 0 with requestMethod := some .get }

theorem openedPage_opened (file : Bytes) : Opened 0 file (openedPage file) :=
  ⟨rfl, rfl, rfl, rfl, rfl⟩

/-- A page with a tag across the end of the first 64 bytes, and one that the device has no value for. -/
def tagPage : Bytes :=
  List.replicate 60 120 ++ bytes "<!--#DEV_NAME-->" ++ List.replicate 70 121 ++ bytes "<!--#XX-->" ++
    List.replicate 145 122

theorem tagPage_closed : marks.Closed 63 tagPage := by
  refine Marks.closed_of_positions fun i hi hp => ?_
  have htags : ∀ i < tagPage.length, marks.opening <+: tagPage.drop i → i = 60 ∨ i = 146 := by
    decide +kernel
  rcases htags i hi hp with rfl | rfl
  · exact ⟨bytes "DEV_NAME", tagPage.drop 76, by decide +kernel, by decide, by decide⟩
  · exact ⟨bytes "XX", tagPage.drop 156, by decide +kernel, by decide, by decide⟩

/-- Its four blocks: two that a tag ends, one that is full, and the rest of the cache. -/
theorem ssi_expansion_iff_tagPage :
    (∃ n, (readPages (Env.calm tagPage) (tagValue Device.initDevInfo) getCore (openedPage tagPage)
        (fun _ => 128) n).1.dwOperStage = stageEnd) ∧
      (readPages (Env.calm tagPage) (tagValue Device.initDevInfo) getCore (openedPage tagPage)
          (fun _ => 128) 4).2 =
        List.replicate 60 120 ++ bytes "Virtual Device" ++ List.replicate 70 121 ++
          List.replicate 145 122 := by
  have h := @ssi_expansion_iff (Env.calm tagPage) (tagValue Device.initDevInfo) (tagValue_length _)
    getCore (by decide) 0 _ (fun _ _ _ => rfl) tagPage_closed (by decide +kernel) _
    (openedPage_opened _) (fun _ => 128) (fun _ => Int.le_refl _)
  have hexp : marks.expand (lookup (tagValue Device.initDevInfo)) none tagPage =
      List.replicate 60 120 ++ bytes "Virtual Device" ++ List.replicate 70 121 ++
        List.replicate 145 122 := by
    decide +kernel
  refine ⟨h.1, ?_⟩
  rw [← hexp]
  exact (h.2 4 (by decide +kernel)).1 (by decide +kernel)

/-- The file that is one tag and nothing else. -/
def tagFile : Bytes := tagStart ++ (bytes "DEV_NAME" ++ tagEnd)

theorem tagFile_closed : marks.Closed 63 tagFile := by
  refine Marks.closed_of_positions fun i hi hp => ?_
  have hzero : ∀ i < tagFile.length, marks.opening <+: tagFile.drop i → i = 0 := by decide
  obtain rfl := hzero i hi hp
  exact ⟨bytes "DEV_NAME", [], rfl, by decide, by decide⟩

/-- Its tag is found in the cache with the whole file read, and what follows is put out as it is. -/
theorem ssi_expansion_fails :
    ¬ ∀ (env : Env) (value : Bytes → Bytes), (∀ name, (value name).length ≤ 63) →
      ∀ (c : Core), c.requestMethod ≠ none → ∀ (h : ℕ) (file : Bytes), Stable env h file →
      marks.Closed 63 file → file.length < 2 ^ 31 → ∀ (w : Work), Opened h file w →
      ∀ (sizes : ℕ → ℤ), (∀ n, 128 ≤ sizes n) → ∀ n,
        (readPages env value c w sizes n).1.dwOperStage = stageEnd →
        (readPages env value c w sizes n).2 = marks.expand (lookup value) none file := by
  intro h
  have hx := h (Env.calm tagFile) (tagValue Device.initDevInfo) (tagValue_length _) getCore
    (by decide) 0 tagFile (fun _ _ _ => rfl) tagFile_closed (by decide) (openedPage tagFile)
    (openedPage_opened _) (fun _ => 128) (fun _ => Int.le_refl _) 2 (by decide)
  have hout : (readPages (Env.calm tagFile) (tagValue Device.initDevInfo) getCore
      (openedPage tagFile) (fun _ => 128) 2).2 = bytes "DEV_NAME-->" := by decide
  have hexp : marks.expand (lookup (tagValue Device.initDevInfo)) none tagFile =
      bytes "Virtual Device" := by
    decide +kernel
  rw [hout, hexp] at hx
  exact absurd hx (by decide)

end SsiPage
end StraightHttpd
