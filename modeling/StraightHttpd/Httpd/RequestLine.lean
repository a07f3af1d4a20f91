import StraightHttpd.Lib.CText
import StraightHttpd.UrlDecode
import StraightHttpd.Httpd.HttpCore

/-! # The request line (`http_core.c`)

The target is cut to 126 bytes, then decoded as a whole, then split at the first question mark of what
came out. The extension is collected on the way, without `#`, in a field for seven characters.
-/

set_option autoImplicit false

namespace StraightHttpd
open CMemory

/-! ## Extensions -/

/-- The text behind the last `c`, all of it if there is none. -/
def behindLast (c : UInt8) (t : Bytes) : Bytes := (t.reverse.takeWhile (· != c)).reverse

/-- The text behind the last dot of the last segment of a path. -/
def fileExtension (path : Bytes) : Bytes :=
  if 46 ∈ behindLast 47 path then behindLast 46 (behindLast 47 path) else []

/-- A dot with 8 or more characters behind it in its segment, `#` not counted. -/
def LongExtension (path : Bytes) : Prop :=
  ∃ t u v, path = t ++ 46 :: (u ++ v) ∧ 46 ∉ u ∧ 47 ∉ u ∧ 8 ≤ (u.filter (· != 35)).length

/-- What one byte of a path does to the extension, which is `none` while there is no dot. -/
def stepExtension (e : Option Bytes) (b : UInt8) : Option Bytes :=
  if b = 46 then some [] else if b = 47 then none else if b = 35 then e else e.map (· ++ [b])

@[simp] theorem behindLast_nil (c : UInt8) : behindLast c [] = [] := rfl

theorem behindLast_concat (c : UInt8) (t : Bytes) (b : UInt8) :
    behindLast c (t ++ [b]) = if b = c then [] else behindLast c t ++ [b] := by
  unfold behindLast
  rw [List.reverse_append, List.reverse_singleton, List.singleton_append, List.takeWhile_cons]
  by_cases hb : b = c
  · simp [hb]
  · rw [if_neg hb, if_pos (bne_iff_ne.mpr hb), List.reverse_cons]

/-- The extension that the steps collect is the one of the path, without `#`. -/
theorem foldl_stepExtension (path : Bytes) :
    path.foldl stepExtension none = if 46 ∈ behindLast 47 path then
      some ((behindLast 46 (behindLast 47 path)).filter (· != 35)) else none := by
  induction path using List.reverseRecOn with
  | nil => rfl
  | append_singleton path b ih =>
    rw [List.foldl_append, ih, List.foldl_cons, List.foldl_nil, behindLast_concat]
    unfold stepExtension
    by_cases hdot : b = 46
    · subst hdot
      simp [behindLast_concat]
    by_cases hslash : b = 47
    · subst hslash
      simp
    rw [if_neg hdot, if_neg hslash, if_neg hslash]
    have hmem : 46 ∈ behindLast 47 path ++ [b] ↔ 46 ∈ behindLast 47 path := by
      simp [Ne.symm hdot]
    rw [behindLast_concat, if_neg hdot]
    by_cases hhash : b = 35
    · subst hhash
      simp [hmem]
    · rw [if_neg hhash]
      by_cases hm : 46 ∈ behindLast 47 path
      · rw [if_pos hm, if_pos (hmem.mpr hm), List.filter_append]
        simp [hhash]
      · rw [if_neg hm, if_neg (hm ∘ hmem.mp)]
        rfl

theorem getD_foldl_stepExtension (path : Bytes) :
    (path.foldl stepExtension none).getD [] = (fileExtension path).filter (· != 35) := by
  rw [foldl_stepExtension, fileExtension]
  split_ifs <;> rfl

/-- The steps from `e` on come to an extension of 8 bytes. -/
def Overflows (e : Option Bytes) : Bytes → Prop
  | [] => False
  | b :: t => 8 ≤ ((stepExtension e b).getD []).length ∨ Overflows (stepExtension e b) t

/-- Enough bytes follow in the segment to make 8 out of the extension `x`. -/
def Fills (x t : Bytes) : Prop :=
  ∃ u v, t = u ++ v ∧ 46 ∉ u ∧ 47 ∉ u ∧ 8 ≤ (x ++ u.filter (· != 35)).length

theorem not_fills_nil {x : Bytes} (hx : x.length < 8) : ¬ Fills x [] := by
  rintro ⟨u, v, he, -, -, hlong⟩
  obtain ⟨rfl, -⟩ := List.append_eq_nil_iff.mp he.symm
  rw [List.filter_nil, List.append_nil] at hlong
  omega

/-- Only what comes behind the first byte makes a short extension long. -/
theorem fills_cons_iff {x : Bytes} (hx : x.length < 8) (b : UInt8) (t : Bytes) :
    Fills x (b :: t) ↔ b ≠ 46 ∧ b ≠ 47 ∧ Fills (if b = 35 then x else x ++ [b]) t := by
  have hfilter (u : Bytes) : x ++ (b :: u).filter (· != 35) =
      (if b = 35 then x else x ++ [b]) ++ u.filter (· != 35) := by
    by_cases hb : b = 35 <;> simp [hb]
  constructor
  · rintro ⟨u, v, he, hdot, hslash, hlong⟩
    cases u with
    | nil =>
      rw [List.filter_nil, List.append_nil] at hlong
      omega
    | cons a u =>
      obtain ⟨rfl, rfl⟩ := List.cons.inj he
      rw [hfilter] at hlong
      obtain ⟨hdot, hdots⟩ := not_or.mp (mt List.mem_cons.mpr hdot)
      obtain ⟨hslash, hslashes⟩ := not_or.mp (mt List.mem_cons.mpr hslash)
      exact ⟨Ne.symm hdot, Ne.symm hslash, u, v, rfl, hdots, hslashes, hlong⟩
  · rintro ⟨hdot, hslash, u, v, rfl, hdots, hslashes, hlong⟩
    rw [← hfilter] at hlong
    refine ⟨b :: u, v, rfl, ?_, ?_, hlong⟩
    · exact mt List.mem_cons.mp (not_or.mpr ⟨Ne.symm hdot, hdots⟩)
    · exact mt List.mem_cons.mp (not_or.mpr ⟨Ne.symm hslash, hslashes⟩)

theorem longExtension_cons_iff (b : UInt8) (t : Bytes) :
    LongExtension (b :: t) ↔ b = 46 ∧ Fills [] t ∨ LongExtension t := by
  constructor
  · rintro ⟨r, u, v, he, h⟩
    cases r with
    | nil =>
      obtain ⟨rfl, rfl⟩ := List.cons.inj he
      exact .inl ⟨rfl, u, v, rfl, h⟩
    | cons a r =>
      obtain ⟨rfl, rfl⟩ := List.cons.inj he
      exact .inr ⟨r, u, v, rfl, h⟩
  · rintro (⟨rfl, u, v, rfl, h⟩ | ⟨r, u, v, rfl, h⟩)
    · exact ⟨[], u, v, rfl, h⟩
    · exact ⟨b :: r, u, v, rfl, h⟩

/-- From an extension that is not full, the steps overflow when the segment fills it, or at a later
dot. -/
theorem overflows_iff (e : Option Bytes) (t : Bytes) (he : (e.getD []).length < 8) :
    Overflows e t ↔ (∃ x, e = some x ∧ Fills x t) ∨ LongExtension t := by
  induction t generalizing e with
  | nil =>
    constructor
    · exact False.elim
    · rintro (⟨x, rfl, hx⟩ | ⟨r, u, v, hnil, -⟩)
      · exact not_fills_nil he hx
      · cases r <;> cases hnil
  | cons b t ih =>
    rw [Overflows, longExtension_cons_iff]
    have hfills : (∃ x, e = some x ∧ Fills x (b :: t)) ↔
        ∃ x, e = some x ∧ b ≠ 46 ∧ b ≠ 47 ∧ Fills (if b = 35 then x else x ++ [b]) t := by
      refine exists_congr fun x => and_congr_right fun hx => ?_
      subst hx
      exact fills_cons_iff he b t
    rw [hfills]
    unfold stepExtension
    by_cases hdot : b = 46
    · rw [if_pos hdot, ih (some []) (by decide : 0 < 8)]
      simp [hdot]
    by_cases hslash : b = 47
    · rw [if_neg hdot, if_pos hslash, ih none (by decide : 0 < 8)]
      simp [hslash]
    by_cases hhash : b = 35
    · rw [if_neg hdot, if_neg hslash, if_pos hhash, ih e he]
      simp [hhash, he]
    rw [if_neg hdot, if_neg hslash, if_neg hhash]
    cases e with
    | none =>
      rw [Option.map_none, ih none (by decide : 0 < 8)]
      simp [hdot]
    | some x =>
      rw [Option.map_some, Option.getD_some]
      by_cases hfull : 8 ≤ (x ++ [b]).length
      · refine iff_of_true (.inl hfull) (.inl ⟨x, rfl, hdot, hslash, ?_⟩)
        rw [if_neg hhash]
        exact ⟨[], t, rfl, List.not_mem_nil, List.not_mem_nil, by simpa using hfull⟩
      · rw [or_iff_right hfull, ih (some (x ++ [b])) (not_le.mp hfull)]
        simp [hdot, hslash, hhash]

theorem overflows_none_iff (t : Bytes) : Overflows none t ↔ LongExtension t := by
  rw [overflows_iff none t (by decide : 0 < 8)]
  simp

instance decidableOverflows (e : Option Bytes) (t : Bytes) : Decidable (Overflows e t) :=
  match t with
  | [] => isFalse id
  | b :: t =>
    let _ := decidableOverflows (stepExtension e b) t
    inferInstanceAs (Decidable (_ ∨ _))

instance (path : Bytes) : Decidable (LongExtension path) := decidable_of_iff _ (overflows_none_iff path)

/-! ## The scan -/

/-- What `ParseQueryString` knows in front of the question mark. -/
def scanState (e : Option Bytes) : QueryScan :=
  { extension := e.getD [], iDot := e.isSome, iQuestion := none }

theorem scanQuery_step {e : Option Bytes} (he : (e.getD []).length < 8) {b : UInt8} (hb : b ≠ 63)
    (i : ℕ) (rest : Bytes) :
    scanQuery (scanState e) i (b :: rest) =
      if 8 ≤ ((stepExtension e b).getD []).length then (scanState (stepExtension e b), false)
      else scanQuery (scanState (stepExtension e b)) (i + 1) rest := by
  unfold stepExtension
  rw [scanQuery]
  by_cases hdot : b = 46
  · simp [hdot, scanState]
  by_cases hslash : b = 47
  · simp [hslash, scanState]
  by_cases hhash : b = 35
  · simp only [if_neg hdot, if_neg hslash, if_pos hhash, if_neg hb, if_neg (not_le.mpr he)]
  simp only [hdot, hslash, hb, hhash, if_false]
  cases e with
  | none => simp [scanState]
  | some x =>
    rw [Option.getD_some] at he
    have hfull : (x ++ [b]).length = 8 ↔ 8 ≤ (x ++ [b]).length := by
      rw [List.length_append, List.length_singleton]
      omega
    simp only [scanState, Option.isSome_some, true_and, if_true, Option.map_some, Option.getD_some, hfull]

/-- Behind a question mark nothing changes any more. -/
theorem scanQuery_behind {q : QueryScan} (hq : q.iQuestion ≠ none) (i : ℕ) (t : Bytes) :
    scanQuery q i t = (q, true) := by
  induction t generalizing i with
  | nil => rfl
  | cons b t ih =>
    obtain ⟨k, hk⟩ := Option.ne_none_iff_exists'.mp hq
    have hmark : ({ q with iQuestion := q.iQuestion <|> some i } : QueryScan) = q := by
      rw [hk]
      obtain ⟨extension, iDot, iQuestion⟩ := q
      simp only at hk
      rw [hk]
      rfl
    rw [scanQuery, hmark]
    simp only [hk, ih, and_false, if_false, reduceCtorEq, ite_self]

theorem scanQuery_path {p : Bytes} (hp : 63 ∉ p) {e : Option Bytes} (he : (e.getD []).length < 8)
    (i : ℕ) (rest : Bytes) :
    (Overflows e p → (scanQuery (scanState e) i (p ++ rest)).2 = false ∧
        (scanQuery (scanState e) i (p ++ rest)).1.iQuestion = none) ∧
      (¬ Overflows e p → scanQuery (scanState e) i (p ++ rest) =
        scanQuery (scanState (p.foldl stepExtension e)) (i + p.length) rest) := by
  induction p generalizing e i with
  | nil => exact ⟨False.elim, fun _ => rfl⟩
  | cons b p ih =>
    obtain ⟨hb, hp⟩ := not_or.mp (mt List.mem_cons.mpr hp)
    rw [List.cons_append, scanQuery_step he (Ne.symm hb), Overflows]
    split_ifs with hfull
    · exact ⟨fun _ => ⟨rfl, rfl⟩, fun h => absurd (.inl hfull) h⟩
    · rw [or_iff_right hfull, List.foldl_cons, List.length_cons, ← Nat.add_assoc, Nat.add_right_comm]
      exact ih hp (not_le.mp hfull) (i + 1)

/-! ## The target -/

/-- A target without blanks is copied up to the version, as far as it fits. -/
theorem pathText_target {target : Bytes} (hblank : 32 ∉ target) (more : Bytes) {path : Bytes}
    (hpath : path.length ≤ 126) :
    pathText path (target ++ bytes " HTTP/1." ++ more) = (path ++ target).take 126 := by
  induction target generalizing path with
  | nil =>
    rw [List.append_nil, List.take_of_length_le hpath]
    rfl
  | cons b target ih =>
    obtain ⟨hb, hblank⟩ := not_or.mp (mt List.mem_cons.mpr hblank)
    have hversion : (bytes " HTTP/1.").isPrefixOf (b :: (target ++ bytes " HTTP/1." ++ more)) = false := by
      have hhead : bytes " HTTP/1." = 32 :: bytes "HTTP/1." := rfl
      rw [hhead, List.isPrefixOf]
      simp [hb]
    rw [List.cons_append, List.cons_append, pathText, hversion]
    simp only [Bool.false_eq_true, if_false, Ne.symm hb, and_false]
    split_ifs with hroom
    · rw [ih hblank (by rw [List.length_append, List.length_singleton]; omega), List.append_assoc]
      rfl
    · rw [ih hblank hpath, List.take_append_of_le_length (by omega), List.take_append_of_le_length (by omega)]

/-- The target in `_requestPath` after decoding, in front of the scan. -/
theorem requestTarget_eq (m : Bytes) {text p : Bytes} (hp : pathText [] text = p) (h0 : (0 : UInt8) ∉ p) :
    ∃ rest, requestTarget m text =
      match scanQuery (scanState none) 0 (cstr (percentDecode p ++ 0 :: rest)) with
      | (q, kept) =>
        let m := if kept then percentDecode p ++ 0 :: rest else poke (percentDecode p ++ 0 :: rest) 0 [0]
        match q.iQuestion with
        | some i => (poke m i [0], q)
        | none => (m, q) := by
  subst hp
  have hpoke : poke m 0 (pathText [] text ++ [0]) =
      pathText [] text ++ 0 :: m.drop ((pathText [] text).length + 1) := by
    simp [poke]
  obtain ⟨hlen, htext, -⟩ := urlDecode_spec (pathText [] text) (m.drop ((pathText [] text).length + 1)) h0
  rw [← hpoke] at hlen htext
  refine ⟨(urlDecode (poke m 0 (pathText [] text ++ [0]))).1.drop
    ((percentDecode (pathText [] text)).length + 1), ?_⟩
  have hdone : poke (urlDecode (poke m 0 (pathText [] text ++ [0]))).1
      (urlDecode (poke m 0 (pathText [] text ++ [0]))).2 [0] =
      percentDecode (pathText [] text) ++ 0 ::
        (urlDecode (poke m 0 (pathText [] text ++ [0]))).1.drop
          ((percentDecode (pathText [] text)).length + 1) := by
    rw [hlen, poke, htext, List.append_assoc]
    rfl
  rw [← hdone]
  rfl

/-- A target whose path has a long extension is lost. -/
theorem requestTarget_lost (m : Bytes) {text p P R : Bytes} (hp : pathText [] text = p)
    (h0 : (0 : UInt8) ∉ p) (hT : percentDecode p = P ++ R) (hT0 : (0 : UInt8) ∉ percentDecode p)
    (hP : 63 ∉ P) (hlong : LongExtension P) :
    cstr (requestTarget m text).1 = [] ∧ (requestTarget m text).2.iQuestion = none := by
  obtain ⟨rest, htarget⟩ := requestTarget_eq m hp h0
  obtain ⟨hkept, hquestion⟩ := (scanQuery_path hP (e := none) (by decide : 0 < 8) 0 R).1
    ((overflows_none_iff P).mpr hlong)
  rw [htarget, cstr_append_zero, cstr_of_no_nul hT0, hT]
  simp only [hkept, hquestion, Bool.false_eq_true, if_false, and_true]
  rfl

/-- A target without a question mark. -/
theorem requestTarget_plain (m : Bytes) {text p : Bytes} (hp : pathText [] text = p)
    (h0 : (0 : UInt8) ∉ p) (hT0 : (0 : UInt8) ∉ percentDecode p)
    (hP : 63 ∉ percentDecode p) (hshort : ¬ LongExtension (percentDecode p)) :
    cstr (requestTarget m text).1 = percentDecode p ∧ (requestTarget m text).2.iQuestion = none ∧
      (requestTarget m text).2.extension = (fileExtension (percentDecode p)).filter (· != 35) := by
  obtain ⟨rest, htarget⟩ := requestTarget_eq m hp h0
  have hscan := (scanQuery_path hP (e := none) (by decide : 0 < 8) 0 []).2
    (mt (overflows_none_iff _).mp hshort)
  rw [List.append_nil] at hscan
  rw [htarget, cstr_append_zero, cstr_of_no_nul hT0, hscan]
  refine ⟨?_, rfl, getD_foldl_stepExtension _⟩
  exact (cstr_append_zero _ _).trans (cstr_of_no_nul hT0)

/-- A target with a question mark is cut there. -/
theorem requestTarget_query (m : Bytes) {text p P R : Bytes} (hp : pathText [] text = p)
    (h0 : (0 : UInt8) ∉ p) (hT : percentDecode p = P ++ 63 :: R) (hT0 : (0 : UInt8) ∉ percentDecode p)
    (hP : 63 ∉ P) (hshort : ¬ LongExtension P) :
    cstr (requestTarget m text).1 = P ∧ (requestTarget m text).2.iQuestion = some P.length ∧
      cstr ((requestTarget m text).1.drop (P.length + 1)) = R ∧
      (requestTarget m text).2.extension = (fileExtension P).filter (· != 35) := by
  obtain ⟨rest, htarget⟩ := requestTarget_eq m hp h0
  have hscan := (scanQuery_path hP (e := none) (by decide : 0 < 8) 0 (63 :: R)).2
    (mt (overflows_none_iff _).mp hshort)
  have hmark (e : Option Bytes) (i : ℕ) : scanQuery (scanState e) i (63 :: R) =
      ({ scanState e with iQuestion := some i }, true) := by
    rw [scanQuery]
    exact scanQuery_behind (by simp) _ _
  rw [hmark, Nat.zero_add] at hscan
  rw [hT] at hT0
  have hP0 : (0 : UInt8) ∉ P := fun h => hT0 (by simp [h])
  have hR0 : (0 : UInt8) ∉ R := fun h => hT0 (by simp [h])
  have hcut : poke (P ++ 63 :: R ++ 0 :: rest) P.length [0] = P ++ 0 :: (R ++ 0 :: rest) := by
    simp [poke, List.drop_append]
  rw [htarget, hT, cstr_append_zero, cstr_of_no_nul hT0, hscan]
  simp only [if_true, hcut]
  refine ⟨?_, trivial, ?_, getD_foldl_stepExtension _⟩
  · rw [cstr_append_zero, cstr_of_no_nul hP0]
  · have hdrop : (P ++ 0 :: (R ++ 0 :: rest)).drop (P.length + 1) = R ++ 0 :: rest := by
      rw [← List.drop_drop, List.drop_left]
      rfl
    rw [hdrop, cstr_append_zero, cstr_of_no_nul hR0]

/-! ## The request line -/

def methodText : Method → Bytes
  | .get => bytes "GET "
  | .post => bytes "POST "

/-- The target in front of its question mark. -/
def beforeMark (target : Bytes) : Bytes := target.takeWhile (· != 63)

/-- The target behind its question mark, if there is one. -/
def behindMark (target : Bytes) : Option Bytes :=
  match target.dropWhile (· != 63) with
  | [] => none
  | _ :: rest => some rest

/-- The context has method, path, query and extension of the request line. -/
structure TargetRead (method : Method) (target : Bytes) (s : Sys) : Prop where
  method : s.core.requestMethod = some method
  path : cstr s.core.requestPath = percentDecode (beforeMark target)
  query : match behindMark target with
    | none => s.core.posQuestion = -1
    | some rest => 0 ≤ s.core.posQuestion ∧
        cstr (s.core.requestPath.drop (s.core.posQuestion.toNat + 1)) = percentDecode rest
  extension : s.app.extension = fileExtension (percentDecode (beforeMark target))

/-- A request line whose target fits `_requestPath` is read, another one is rejected. -/
def RequestLineRead (method : Method) (target : Bytes) (r : Option Sys) : Prop :=
  if (percentDecode target).length < 128 then ∃ s, r = some s ∧ TargetRead method target s else r = none

/-- Nothing is decoded from the target behind its first 126 bytes, its path does not decode to a question
mark or to a long extension, and no `#` is in the extension. -/
structure TargetKept (target : Bytes) : Prop where
  cut : percentDecode (target.take 126) = percentDecode target
  mark : 63 ∉ percentDecode (beforeMark target)
  short : ¬ LongExtension (percentDecode (beforeMark target))
  hash : 35 ∉ fileExtension (percentDecode (beforeMark target))

theorem mark_cases (t : Bytes) :
    63 ∉ t ∧ beforeMark t = t ∧ behindMark t = none ∨
      ∃ rest, t = beforeMark t ++ 63 :: rest ∧ 63 ∉ beforeMark t ∧ behindMark t = some rest := by
  have hsplit : beforeMark t ++ t.dropWhile (· != 63) = t := List.takeWhile_append_dropWhile
  have hbefore : 63 ∉ beforeMark t := fun h => by
    have h63 := List.mem_takeWhile_imp h
    cases h63
  unfold behindMark
  cases hrest : t.dropWhile (· != 63) with
  | nil =>
    rw [hrest, List.append_nil] at hsplit
    rw [hsplit] at hbefore
    exact .inl ⟨hbefore, hsplit, rfl⟩
  | cons b rest =>
    have hb : b = 63 := by
      have hhead := List.head_dropWhile_not (p := fun c : UInt8 => c != 63) (l := t) (by simp [hrest])
      simpa [hrest] using hhead
    rw [hrest, hb] at hsplit
    exact .inr ⟨rest, hsplit.symm, hbefore, rfl⟩

theorem requestMethod_text (method : Method) (t : Bytes) :
    requestMethod (methodText method ++ t) = some (method, (methodText method).length) := by
  cases method <;> rfl

/-- What the first line leaves in the context. -/
theorem requestLine_target (s : Sys) (method : Method) (t : Bytes) :
    ∃ s', s.requestLine (methodText method ++ t) = some s' ∧ s'.core.requestMethod = some method ∧
      s'.core.requestPath = (requestTarget s.core.requestPath t).1 ∧
      s'.core.posQuestion = (match (requestTarget s.core.requestPath t).2.iQuestion with
        | some i => (i : ℤ)
        | none => -1) ∧
      s'.app.extension = (requestTarget s.core.requestPath t).2.extension := by
  unfold Sys.requestLine
  rw [requestMethod_text, Option.map_some]
  simp only [List.drop_left]
  refine ⟨_, rfl, ?_⟩
  unfold Sys.cgiSetCgiHandler
  split <;> exact ⟨rfl, rfl, rfl, rfl⟩

theorem percentDecode_mark (t u : Bytes) :
    percentDecode (t ++ 63 :: u) = percentDecode t ++ 63 :: percentDecode u :=
  percentDecode_append (by decide) (by decide) t u

theorem no_hash_of_filter {t : Bytes} (h : t.filter (· != 35) = t) : 35 ∉ t := by
  intro hmem
  rw [← h] at hmem
  cases (List.mem_filter.mp hmem).2

theorem filter_of_no_hash {t : Bytes} (h : 35 ∉ t) : t.filter (· != 35) = t := by
  rw [List.filter_eq_self]
  intro b hb
  rw [bne_iff_ne]
  rintro rfl
  exact h hb

variable {m : Bytes} {target text : Bytes}

/-- What `requestTarget` has to come to. -/
structure Splits (target : Bytes) (r : Bytes × QueryScan) : Prop where
  path : cstr r.1 = percentDecode (beforeMark target)
  plain : behindMark target = none → r.2.iQuestion = none
  query : ∀ rest, behindMark target = some rest →
    ∃ i, r.2.iQuestion = some i ∧ cstr (r.1.drop (i + 1)) = percentDecode rest
  extension : r.2.extension = fileExtension (percentDecode (beforeMark target))

/-- A target that is kept is split where it should be. -/
theorem TargetKept.splits (h : TargetKept target) (htext : pathText [] text = target.take 126)
    (h0 : (0 : UInt8) ∉ target.take 126) (hT0 : (0 : UInt8) ∉ percentDecode (target.take 126)) :
    Splits target (requestTarget m text) := by
  have hhash := filter_of_no_hash h.hash
  obtain ⟨-, hbefore, hbehind⟩ | ⟨rest, htarget, -, hbehind⟩ := mark_cases target
  · have hmark := h.mark
    have hshort := h.short
    rw [hbefore, ← h.cut] at hmark hshort hhash
    obtain ⟨hpath, hquestion, hextension⟩ := requestTarget_plain m htext h0 hT0 hmark hshort
    refine ⟨?_, fun _ => hquestion, ?_, ?_⟩
    · rw [hpath, h.cut, hbefore]
    · intro rest hrest
      rw [hbehind] at hrest
      cases hrest
    · rw [hextension, hbefore, ← h.cut, hhash]
  · have hdecode : percentDecode (target.take 126) =
        percentDecode (beforeMark target) ++ 63 :: percentDecode rest := by
      rw [h.cut, ← percentDecode_mark, ← htarget]
    obtain ⟨hpath, hquestion, hquery, hextension⟩ :=
      requestTarget_query m htext h0 hdecode hT0 h.mark h.short
    refine ⟨hpath, ?_, ?_, hextension.trans hhash⟩
    · intro hnone
      rw [hbehind] at hnone
      cases hnone
    · intro rest' hrest
      rw [hbehind] at hrest
      obtain rfl := Option.some.inj hrest
      exact ⟨_, hquestion, hquery⟩

/-- Nothing is lost of a target that comes out empty and without a question mark. -/
theorem nil_of_splits {r : Bytes × QueryScan} (h : Splits target r) (hpath : cstr r.1 = [])
    (hquestion : r.2.iQuestion = none) : target = [] := by
  have hdecode := h.path
  rw [hpath] at hdecode
  have hbefore := (percentDecode_eq_nil_iff _).mp hdecode.symm
  obtain ⟨-, hall, -⟩ | ⟨rest, -, -, hbehind⟩ := mark_cases target
  · rw [← hall, hbefore]
  · obtain ⟨i, hi, -⟩ := h.query rest hbehind
    rw [hquestion] at hi
    cases hi

/-- A target that is split where it should be was kept. -/
theorem Splits.kept (h : Splits target (requestTarget m text)) (htext : pathText [] text = target.take 126)
    (h0 : (0 : UInt8) ∉ target.take 126) (hT0 : (0 : UInt8) ∉ percentDecode (target.take 126)) :
    TargetKept target := by
  have hlost {P R : Bytes} (hT : percentDecode (target.take 126) = P ++ R) (hP : 63 ∉ P) :
      ¬ LongExtension P := by
    intro hlong
    obtain ⟨hpath, hquestion⟩ := requestTarget_lost m htext h0 hT hT0 hP hlong
    have htarget := nil_of_splits h hpath hquestion
    rw [htarget, List.take_nil, percentDecode_nil] at hT
    obtain ⟨rfl, -⟩ := List.append_eq_nil_iff.mp hT.symm
    obtain ⟨t, u, v, hnil, -⟩ := hlong
    cases t <;> cases hnil
  have hpathEq := h.path
  have hextensionEq := h.extension
  obtain ⟨hmark, -, -⟩ | ⟨R, hT, hmark, -⟩ := mark_cases (percentDecode (target.take 126))
  · have hshort := hlost (List.append_nil _).symm hmark
    obtain ⟨hpath, hquestion, hextension⟩ := requestTarget_plain m htext h0 hT0 hmark hshort
    obtain ⟨-, hbefore, -⟩ | ⟨rest, -, -, hbehind⟩ := mark_cases target
    · rw [hpath] at hpathEq
      rw [hextension, ← hpathEq] at hextensionEq
      rw [hbefore] at hpathEq
      refine ⟨hpathEq, ?_, ?_, ?_⟩ <;> rw [hbefore, ← hpathEq]
      · exact hmark
      · exact hshort
      · exact no_hash_of_filter hextensionEq
    · obtain ⟨i, hi, -⟩ := h.query rest hbehind
      rw [hquestion] at hi
      cases hi
  · have hshort := hlost hT hmark
    obtain ⟨hpath, hquestion, hquery, hextension⟩ := requestTarget_query m htext h0 hT hT0 hmark hshort
    obtain ⟨-, -, hbehind⟩ | ⟨rest, htarget, -, hbehind⟩ := mark_cases target
    · rw [h.plain hbehind] at hquestion
      cases hquestion
    · obtain ⟨i, hi, hrest⟩ := h.query rest hbehind
      rw [hquestion] at hi
      obtain rfl := Option.some.inj hi
      rw [hquery] at hrest
      rw [hpath] at hpathEq
      rw [hextension, ← hpathEq] at hextensionEq
      rw [hpathEq] at hT hmark hshort hextensionEq
      refine ⟨?_, hmark, hshort, no_hash_of_filter hextensionEq⟩
      rw [hT, hrest, ← percentDecode_mark, ← htarget]

theorem targetRead_iff {s : Sys} {method : Method} {r : Bytes × QueryScan}
    (hmethod : s.core.requestMethod = some method) (hpath : s.core.requestPath = r.1)
    (hquestion : s.core.posQuestion = match r.2.iQuestion with
      | some i => (i : ℤ)
      | none => -1)
    (hextension : s.app.extension = r.2.extension) :
    TargetRead method target s ↔ Splits target r := by
  constructor
  · intro h
    have hquery := h.query
    have hread := h.path
    rw [hpath] at hread
    refine ⟨hread, ?_, ?_, hextension.symm.trans h.extension⟩
    · intro hnone
      rw [hnone, hquestion] at hquery
      cases hi : r.2.iQuestion with
      | none => rfl
      | some i =>
        rw [hi] at hquery
        simp only at hquery
        omega
    · intro rest hrest
      rw [hrest, hquestion] at hquery
      obtain ⟨hpos, hcstr⟩ := hquery
      cases hi : r.2.iQuestion with
      | none =>
        rw [hi] at hpos
        simp only at hpos
        omega
      | some i =>
        rw [hi, hpath] at hcstr
        exact ⟨i, rfl, hcstr⟩
  · intro h
    have hread := h.path
    rw [← hpath] at hread
    refine ⟨hmethod, hread, ?_, hextension.trans h.extension⟩
    cases hbehind : behindMark target with
    | none =>
      rw [hquestion, h.plain hbehind]
    | some rest =>
      obtain ⟨i, hi, hcstr⟩ := h.query rest hbehind
      rw [hquestion, hi, hpath]
      exact ⟨Int.natCast_nonneg i, hcstr⟩

/-- A request line is read, or rejected, as it should be exactly when its target is kept. -/
theorem request_line_iff (s : Sys) (method : Method) (d : UInt8) (hblank : 32 ∉ target)
    (h0 : (0 : UInt8) ∉ percentDecode target) :
    RequestLineRead method target (s.requestLine (methodText method ++ (target ++ bytes " HTTP/1." ++ [d]))) ↔
      TargetKept target := by
  have htext : pathText [] (target ++ bytes " HTTP/1." ++ [d]) = target.take 126 :=
    pathText_target hblank [d] (Nat.zero_le _)
  have hp0 : (0 : UInt8) ∉ target.take 126 := fun h =>
    h0 (mem_percentDecode (by decide) (by decide) (List.mem_of_mem_take h))
  have hT0 : (0 : UInt8) ∉ percentDecode (target.take 126) := fun h =>
    h0 (mem_percentDecode_take (by decide) (by decide) h)
  obtain ⟨s', hs', hmethod, hpath, hquestion, hextension⟩ :=
    requestLine_target s method (target ++ bytes " HTTP/1." ++ [d])
  have hread : TargetRead method target s' ↔ _ := targetRead_iff hmethod hpath hquestion hextension
  unfold RequestLineRead
  rw [hs']
  constructor
  · intro h
    split_ifs at h
    obtain ⟨s'', hs'', htarget⟩ := h
    obtain rfl := Option.some.inj hs''
    exact (hread.mp htarget).kept htext hp0 hT0
  · intro h
    have hfits : (percentDecode target).length < 128 := by
      have hle := percentDecode_length_le (target.take 126)
      have htake := List.length_take_le 126 target
      rw [h.cut] at hle
      omega
    rw [if_pos hfits]
    exact ⟨s', rfl, hread.mpr (h.splits htext hp0 hT0)⟩

/-- A path with an encoded blank, and a query. -/
theorem request_line_index : RequestLineRead .get (bytes "/app/my%20page.shtml?c=%20d")
    ((Sys.zero 0 World.boot).requestLine
      (methodText .get ++ (bytes "/app/my%20page.shtml?c=%20d" ++ bytes " HTTP/1." ++ [49]))) := by
  refine (request_line_iff _ .get 49 (by decide) (by decide)).mpr ?_
  exact ⟨by decide +kernel, by decide +kernel, by decide +kernel, by decide +kernel⟩

/-- An encoded question mark in the path. -/
theorem request_line_fails : ¬ ∀ (s : Sys) (method : Method) (target : Bytes) (d : UInt8), 32 ∉ target →
    (0 : UInt8) ∉ percentDecode target → RequestLineRead method target
      (s.requestLine (methodText method ++ (target ++ bytes " HTTP/1." ++ [d]))) := by
  intro h
  have hread := h (Sys.zero 0 World.boot) .get (bytes "/a%3Fb") 49 (by decide) (by decide)
  unfold RequestLineRead at hread
  rw [if_pos (by decide)] at hread
  obtain ⟨s, hs, hread⟩ := hread
  obtain ⟨s', hs', -, hpath, -⟩ := requestLine_target (Sys.zero 0 World.boot) .get
    (bytes "/a%3Fb" ++ bytes " HTTP/1." ++ [49])
  rw [hs'] at hs
  obtain rfl := Option.some.inj hs
  have hlost := hread.path
  rw [hpath] at hlost
  exact absurd hlost (by decide +kernel)

end StraightHttpd
