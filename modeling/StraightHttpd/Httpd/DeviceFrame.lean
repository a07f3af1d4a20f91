import StraightHttpd.Httpd.AccessGate
import StraightHttpd.Httpd.Pairing

/-! # What requests without a session do to the device

A request that presents no session gets no callback that changes settings or writes, except one: the
header lines of an upload are looked at while they arrive, and the folders on the way to the file are
made before anybody asks for a session.
-/

set_option autoImplicit false

namespace StraightHttpd
open CMemory Relation

/-! ## The type of an exact path

A mapping without `*` is matched by its own path only, up to case, so the extension of the request is
known up to case, and it is not one of a static file.
-/

attribute [grind =] upper strnicmpText scanQuery

/-- Texts that compare equal over their whole length are equal up to case. -/
theorem upper_of_strnicmpText {s t : Bytes} (hl : s.length = t.length)
    (h : strnicmpText s t t.length = 0) : upper s = upper t := by
  induction s generalizing t with
  | nil => rw [List.length_eq_zero_iff.mp hl.symm]
  | cons a s ih =>
    cases t with
    | nil => cases hl
    | cons b t =>
      rw [List.length_cons, strnicmpText] at h
      by_cases hlt : toUpper a < toUpper b
      · rw [if_pos hlt] at h
        cases h
      by_cases hgt : toUpper b < toUpper a
      · rw [if_neg hlt, if_pos hgt] at h
        cases h
      rw [if_neg hlt, if_neg hgt] at h
      have hab : toUpper a = toUpper b := UInt8.le_antisymm (UInt8.not_lt.mp hgt) (UInt8.not_lt.mp hlt)
      have hst : upper s = upper t := ih (Nat.succ.inj hl) h
      rw [upper, List.map_cons, hab]
      exact congrArg (_ :: ·) hst

theorem strnicmpText_upper (s t : Bytes) (n : ℕ) : strnicmpText (upper s) t n = strnicmpText s t n := by
  induction n generalizing s t with
  | zero => cases s <;> cases t <;> rfl
  | succ n ih =>
    cases s with
    | nil => rfl
    | cons a s =>
      cases t with
      | nil => rfl
      | cons b t =>
        have ih := ih s t
        simp only [upper, List.map_cons, strnicmpText, toUpper_toUpper] at ih ⊢
        rw [ih]

theorem toUpper_eq_zero {a : UInt8} : toUpper a = 0 ↔ a = 0 := by
  constructor
  · intro h
    by_contra ha
    by_cases hl : 97 ≤ a ∧ a ≤ 122
    · obtain ⟨hge, -⟩ := toUpper_lower hl.1 hl.2
      rw [h] at hge
      exact absurd hge (by decide)
    · exact ha (toUpper_of_not_lower hl ▸ h)
  · rintro rfl
    rfl

theorem cstr_upper (s : Bytes) : cstr (upper s) = upper (cstr s) := by
  induction s with
  | nil => rfl
  | cons a s ih =>
    by_cases ha : a = 0
    · rw [ha]
      rfl
    · have hu : toUpper a ≠ 0 := fun h => ha (toUpper_eq_zero.mp h)
      rw [cstr_cons ha, upper, List.map_cons, cstr_cons hu]
      exact congrArg (_ :: ·) ih

theorem sessionTypes_upper (e : Bytes) : sessionTypes (upper e) = sessionTypes e := by
  simp only [sessionTypes, strnicmp, cstr_upper, strnicmpText_upper]

/-- A scan of the path in upper case. -/
def QueryScan.upper (q : QueryScan) : QueryScan := { q with extension := StraightHttpd.upper q.extension }

theorem scanQuery_upper (q : QueryScan) (i : ℕ) (text : Bytes) :
    scanQuery q.upper i (upper text) = ((scanQuery q i text).1.upper, (scanQuery q i text).2) := by
  have hsign (a b : UInt8) (hb : Sign b) : toUpper a = b ↔ a = b := by
    have hiff := @Sign.toUpper_eq_iff a b hb
    rwa [toUpper_of_not_lower hb.2.2] at hiff
  induction text generalizing q i with
  | nil => rfl
  | cons a text ih =>
    have hdot := hsign a 46 (by decide)
    have hask := hsign a 63 (by decide)
    have hhash := hsign a 35 (by decide)
    have hslash := hsign a 47 (by decide)
    simp only [upper, List.map_cons, scanQuery, hdot, hask, hhash, hslash] at ih ⊢
    have hq : q.upper.iQuestion = q.iQuestion := rfl
    have hd : q.upper.iDot = q.iDot := rfl
    have hpush : q.upper.extension ++ [toUpper a] = StraightHttpd.upper (q.extension ++ [a]) := by
      rw [StraightHttpd.upper, List.map_append]
      rfl
    have hlength : (StraightHttpd.upper (q.extension ++ [a])).length = (q.extension ++ [a]).length :=
      List.length_map _
    simp only [hq, hd, hpush, hlength]
    split_ifs
    · exact ih { q with iDot := true, extension := [] } (i + 1)
    · exact ih q (i + 1)
    · exact ih { q with iQuestion := q.iQuestion <|> some i } (i + 1)
    · exact ih q (i + 1)
    · exact ih { q with iDot := false, extension := [] } (i + 1)
    · exact ih q (i + 1)
    · rfl
    · exact ih { q with extension := q.extension ++ [a] } (i + 1)
    · exact ih q (i + 1)

/-- Behind a question mark nothing changes. -/
theorem scanQuery_asked {q : QueryScan} {k : ℕ} (h : q.iQuestion = some k) (i : ℕ) (text : Bytes) :
    scanQuery q i text = (q, true) := by
  induction text generalizing i with
  | nil => rfl
  | cons b text ih =>
    have hsame : { q with iQuestion := q.iQuestion <|> some i } = q := by rw [h]; cases q; cases h; rfl
    have hne : q.iQuestion ≠ none := by rw [h]; nofun
    simp only [scanQuery, hne, and_false, if_false, hsame]
    split_ifs <;> exact ih (i + 1)

/-- A scan that finds a question mark has the extension of the text before it. -/
theorem scanQuery_question {q q' : QueryScan} {i k : ℕ} {text : Bytes} (hq : q.iQuestion = none)
    (h : scanQuery q i text = (q', true)) (hk : q'.iQuestion = some k) :
    ∃ n, k = i + n ∧ n < text.length ∧ (scanQuery q i (text.take n)).1.extension = q'.extension := by
  induction text generalizing q i with
  | nil =>
    cases h
    rw [hq] at hk
    cases hk
  | cons b text ih =>
    have hnext {p : QueryScan} (hp : p.iQuestion = none) (hstep : scanQuery p (i + 1) text = (q', true))
        (hsame : ∀ n, scanQuery q i (b :: text.take n) = scanQuery p (i + 1) (text.take n)) :
        ∃ n, k = i + n ∧ n < (b :: text).length ∧
          (scanQuery q i ((b :: text).take n)).1.extension = q'.extension := by
      obtain ⟨n, hn, hlt, hext⟩ := ih hp hstep
      refine ⟨n + 1, by omega, Nat.succ_lt_succ hlt, ?_⟩
      rw [List.take_succ_cons, hsame]
      exact hext
    simp only [scanQuery] at h
    split_ifs at h with h46 h63 h35 h47 hin hfull
    · refine hnext (p := { q with iDot := true, extension := [] }) hq h fun n => ?_
      rw [scanQuery, if_pos h46, if_pos hq]
    · rw [scanQuery_asked (k := i) (by rw [hq]; rfl)] at h
      cases h
      obtain rfl : i = k := by
        rw [hq] at hk
        exact Option.some.inj hk
      exact ⟨0, rfl, Nat.succ_pos _, rfl⟩
    · refine hnext hq h fun n => ?_
      rw [scanQuery, if_neg h46, if_neg h63, if_pos h35]
    · refine hnext (p := { q with iDot := false, extension := [] }) hq h fun n => ?_
      rw [scanQuery, if_neg h46, if_neg h63, if_neg h35, if_pos h47, if_pos hq]
    · cases h
    · refine hnext (p := { q with extension := q.extension ++ [b] }) hq h fun n => ?_
      rw [scanQuery, if_neg h46, if_neg h63, if_neg h35, if_neg h47, if_pos hin]
      exact if_neg hfull
    · refine hnext hq h fun n => ?_
      rw [scanQuery, if_neg h46, if_neg h63, if_neg h35, if_neg h47, if_neg hin]

/-- A string that is cut in place. -/
theorem cstr_poke_zero {m : Bytes} {n : ℕ} (hn : n ≤ strlen m) : cstr (poke m n [0]) = (cstr m).take n := by
  have htake : m.take n = (cstr m).take n := by
    have hcstr : cstr m = m.take (strlen m) := List.prefix_iff_eq_take.mp (List.takeWhile_prefix _)
    rw [hcstr, List.take_take, Nat.min_eq_left hn]
  rw [poke, List.append_assoc, List.singleton_append, cstr_append_zero, htake]
  refine cstr_of_no_nul fun h => ?_
  have hmem := List.mem_takeWhile_imp (List.mem_of_mem_take h)
  exact absurd hmem (by decide)

theorem strlen_zero_cons (m : Bytes) : strlen (0 :: m) = 0 := rfl

/-- The path that a request is matched by, and its extension. -/
theorem requestTarget_spec (m text : Bytes) :
    strlen (requestTarget m text).1 = 0 ∨
      (requestTarget m text).2.extension =
        (scanQuery ⟨[], false, none⟩ 0 (cstr (requestTarget m text).1)).1.extension := by
  unfold requestTarget
  generalize urlDecode (poke m 0 (pathText [] text ++ [0])) = r
  obtain ⟨m', len⟩ := r
  simp only
  generalize poke m' len [0] = m
  cases hscan : scanQuery ⟨[], false, none⟩ 0 (cstr m) with
  | mk q kept =>
    simp only
    cases kept with
    | false =>
      left
      have hlost : poke m 0 [0] = 0 :: m.drop 1 := rfl
      simp only [Bool.false_eq_true, if_false, hlost]
      cases q.iQuestion with
      | none => exact strlen_zero_cons _
      | some i => cases i <;> exact strlen_zero_cons _
    | true =>
      right
      simp only [if_true]
      cases hq : q.iQuestion with
      | some k =>
        obtain ⟨n, hn, hlt, hext⟩ := scanQuery_question rfl hscan hq
        rw [Nat.zero_add] at hn
        subst hn
        simp only
        rw [cstr_poke_zero hlt.le, hext]
      | none =>
        simp only
        rw [hscan]

/-- A mapping that has a path of its own. -/
def Cgi.Exact (m : Cgi) : Prop := m.mapping.optionsAllowed.prefixWildcard = false

instance (m : Cgi) : Decidable m.Exact := inferInstanceAs (Decidable (_ = _))

/-- The extension of such a path is not one of a static file. -/
theorem exact_extension {m : Cgi} (hm : m.Exact) {path : Bytes} (h : m.mapping.matches path = true) :
    sessionTypes (scanQuery ⟨[], false, none⟩ 0 (cstr path)).1.extension = true ∧ strlen path ≠ 0 := by
  rw [Mapping.matches, show m.mapping.optionsAllowed.prefixWildcard = false from hm, Bool.and_eq_true,
    if_neg Bool.false_ne_true, decide_eq_true_iff, beq_iff_eq] at h
  obtain ⟨hlength, hcmp⟩ := h
  have hupper : upper (cstr path) = upper (cstr m.mapping.path) :=
    upper_of_strnicmpText hlength.symm hcmp
  have hscan := scanQuery_upper ⟨[], false, none⟩ 0 (cstr path)
  have hscan' := scanQuery_upper ⟨[], false, none⟩ 0 (cstr m.mapping.path)
  rw [hupper] at hscan
  have hext : upper (scanQuery ⟨[], false, none⟩ 0 (cstr path)).1.extension =
      upper (scanQuery ⟨[], false, none⟩ 0 (cstr m.mapping.path)).1.extension :=
    congrArg (fun r : QueryScan × Bool => r.1.extension) (hscan.symm.trans hscan')
  rw [← sessionTypes_upper, hext, sessionTypes_upper, ← hlength]
  cases m <;> first | exact absurd hm (by decide) | exact ⟨by decide, by decide⟩

/-- A request that is matched by such a path has an extension that needs a session. -/
theorem requestLine_extension {s s' : Sys} {line : Bytes} (h : s.requestLine line = some s') {m : Cgi}
    (hm : s'.core.handler = some m) (he : m.Exact) : sessionTypes s'.app.extension = true := by
  obtain ⟨⟨method, iSkip⟩, -, rfl⟩ := Option.map_eq_some_iff.mp h
  have hspec := requestTarget_spec s.core.requestPath (line.drop iSkip)
  simp only at hm ⊢
  generalize requestTarget s.core.requestPath (line.drop iSkip) = r at hm hspec ⊢
  obtain ⟨path, q⟩ := r
  unfold Sys.cgiSetCgiHandler at hm ⊢
  cases hfind : cgiMappings.find? fun m => m.mapping.matches (s.setTarget method path q).core.requestPath with
  | none =>
    rw [hfind] at hm
    cases hm
  | some m' =>
    rw [hfind] at hm
    obtain rfl : m' = m := Option.some.inj hm
    have hmatch := List.find?_some hfind
    obtain ⟨hext, hne⟩ := exact_extension he hmatch
    rcases hspec with hzero | hscan
    · exact absurd hzero hne
    · change sessionTypes q.extension = true
      rw [show q.extension = _ from hscan]
      exact hext

/-! ## The visit of a client -/

/-- The gates of all requests since the connection was accepted, the last one first. -/
def visit : Monitor (List Gate) Obs where
  start := []
  next gates
    | .accepted => []
    | .headers g => g :: gates
    | _ => gates

/-- A callback belongs to a request of the visit, and if its mapping denies that request, the callback
is `ReadContent`. -/
def InVisit (visited : List Gate) : Obs → Prop
  | .call cb m => ∃ g ∈ visited, g.handler = some m ∧ (g.Denied m → cb = .readContent)
  | _ => True

/-- A request for a path of its own has an extension that needs a session. -/
def Obs.Typed : Obs → Prop
  | .headers g => ∀ m, g.handler = some m → m.Exact → sessionTypes g.extension = true
  | _ => True

/-- What the extension is known to be while the headers are read. -/
def Sys.TypedPath (s : Sys) : Prop :=
  ¬ s.core.state.PastHeaders → ∀ m, s.core.handler = some m → m.Exact →
    sessionTypes s.app.extension = true

theorem Sys.TypedPath.same {s t : Sys} (h : s.TypedPath) (hs : ¬ s.core.state.PastHeaders)
    (hhandler : t.core.handler = s.core.handler) (hextension : t.app.extension = s.app.extension) :
    t.TypedPath := by
  intro _ m hm he
  rw [hextension]
  exact h hs m (hhandler.symm.trans hm) he

theorem Micro.typedPath {env : Env} {s t : Sys} (hstep : Micro env s t) (h : s.TypedPath) :
    t.TypedPath := by
  have hearly {st : HttpState} (hs : s.core.state = st) (hst : ¬ st.PastHeaders) :
      ¬ s.core.state.PastHeaders := hs ▸ hst
  have hlate (hgoes : s.GoesOn t) (hp : s.core.state.PastHeaders) : t.TypedPath :=
    fun ht => absurd (hgoes.past.mpr hp) ht
  have hreceived (hs : s.core.state.Received) : s.core.state.PastHeaders :=
    Nat.lt_of_lt_of_le (by decide) hs
  cases hstep with
  | background hb =>
    obtain ⟨_, _, _, _, _, _, _, _, -, rfl⟩ := hb.aside
    exact h
  | begin hs _ => exact h.same (hearly hs (by decide)) rfl rfl
  | requestLine _ line hs _ hl => exact fun _ m hm he => requestLine_extension hl hm he
  | headerLine mem n hs =>
    have hkept := @Sys.headerLine_kept env s mem n
    exact h.same (hearly hs (by decide)) hkept.handler hkept.extension
  | emptyLine hs => exact h.same (hearly hs (by decide)) rfl rfl
  | consumeHeader k hs =>
    refine h.same ?_ rfl rfl
    rcases hs with hs | hs <;> exact hearly hs (by decide)
  | abort => exact h
  | afterHeaders => exact fun ht => absurd (@Sys.afterHeaders_pastHeaders env s) ht
  | chunk hs hline =>
    exact hlate ((Sys.GoesOn.receiveChunkLine hs).trans (.receiveContent (.inl hline) _)) (by rw [hs]; decide)
  | content hs =>
    exact hlate (.receiveContent hs _) (by rcases hs with hs | hs <;> rw [hs] <;> decide)
  | requestDone hs => exact hlate (.requestDone hs) (by rw [hs]; decide)
  | flush hs => exact hlate (.sendOrEnd (hreceived hs)) (hreceived hs)
  | sendHeader hs => exact hlate (.sendHeader (hreceived hs)) (hreceived hs)
  | headerSent hs =>
    have hp : s.core.state.PastHeaders := by rw [hs]; decide
    exact hlate (.headerSent hp) hp
  | sendBody caller hs =>
    have hp : s.core.state.PastHeaders := by rw [hs]; decide
    exact hlate (.sendBody hp caller) hp
  | reset => exact nofun
  | close => exact nofun

/-- The invariant of a connection. -/
structure Visited (s : Sys) : Prop where
  path : s.TypedPath
  typed : ∀ o ∈ s.core.hist, o.Typed
  present : s.core.state.PastHeaders → ∀ g ∈ gates.after s.core.hist, g ∈ visit.after s.core.hist
  calls : visit.Along InVisit s.core.hist

section

variable {s : Sys} {new hist : List Obs} (hnew : ∀ o ∈ new, Obs.Within s o)

include hnew

theorem within_gates : gates.after (new ++ hist) = gates.after hist := by
  refine Monitor.after_append fun o ho gate => ?_
  have hw := hnew o ho
  cases o <;> first | rfl | exact hw.elim

theorem within_visit : visit.after (new ++ hist) = visit.after hist := by
  refine Monitor.after_append fun o ho gate => ?_
  have hw := hnew o ho
  cases o <;> first | rfl | exact hw.elim

theorem within_typed (h : ∀ o ∈ hist, o.Typed) : ∀ o ∈ new ++ hist, Obs.Typed o := by
  intro o ho
  rcases List.mem_append.mp ho with ho | ho
  · have hw := hnew o ho
    cases o <;> trivial
  · exact h o ho

/-- The callbacks of a request whose gate is in the visit. -/
theorem within_calls (hp : s.core.state.PastHeaders → ∀ g ∈ gates.after hist, g ∈ visit.after hist)
    (hacc : Accounted (new ++ hist)) (h : visit.Along InVisit hist) :
    visit.Along InVisit (new ++ hist) := by
  induction new with
  | nil => exact h
  | cons o new ih =>
    have hrest : ∀ o ∈ new, Obs.Within s o := fun o' ho' => hnew o' (List.mem_cons_of_mem _ ho')
    refine ⟨?_, ih hrest hacc.2⟩
    have hw := hnew o List.mem_cons_self
    cases o with
    | call cb m =>
      obtain ⟨g, hg, hm, hd⟩ := hacc.1
      change ∃ g ∈ visit.after (new ++ hist), _
      have hgates : gates.after (new ++ hist) = gates.after hist := within_gates hrest
      replace hg : g ∈ gates.after hist := hgates ▸ hg
      rw [within_visit hrest]
      exact ⟨g, hp hw g hg, hm, fun hdenied => (hd hdenied).1⟩
    | _ => trivial

end

theorem Visited.goesOn {s t : Sys} (h : Visited s) (ha : Admitted t) (ht : t.TypedPath)
    (hgoes : s.GoesOn t) : Visited t := by
  obtain ⟨-, -, hpast, new, hnew, hhist⟩ := hgoes
  have hacc := ha.calls
  rw [hhist] at hacc
  refine ⟨ht, ?_, fun hp => ?_, ?_⟩ <;> rw [hhist]
  · exact within_typed hnew h.typed
  · rw [within_gates hnew, within_visit hnew]
    exact h.present (hpast.mp hp)
  · exact within_calls hnew h.present hacc h.calls

theorem Visited.afterHeaders {env : Env} {s : Sys} (h : Visited s) (hs : s.core.state = .headerDone)
    (ha : Admitted (s.afterHeaders env)) (ht : (s.afterHeaders env).TypedPath) :
    Visited (s.afterHeaders env) := by
  obtain ⟨tLastSent, called, hcore, hcalled, -⟩ := @Sys.afterHeaders_core env s
  have hlate := @Sys.afterHeaders_pastHeaders env s
  generalize s.afterHeaders env = t at hcore ha ht hlate ⊢
  obtain ⟨new, hnew, hhist⟩ : ∃ new, (∀ o ∈ new, Obs.Within t o) ∧
      t.core.hist = new ++ (.headers s.gate :: s.core.hist) := by
    refine ⟨(if t.app.result < 0 then [.refused] else []) ++ called, fun o ho => ?_, ?_⟩
    · rw [List.mem_append] at ho
      rcases ho with ho | ho
      · split_ifs at ho
        · rw [List.mem_singleton.mp ho]
          trivial
        · cases ho
      · rcases hcalled with rfl | ⟨m, rfl⟩
        · cases ho
        · rw [List.mem_singleton.mp ho]
          exact hlate
    · rw [hcore, List.append_assoc]
  have hpresent : ∀ g ∈ gates.after (.headers s.gate :: s.core.hist),
      g ∈ visit.after (.headers s.gate :: s.core.hist) := by
    intro g hg
    rw [← Option.some.inj hg]
    exact List.mem_cons_self
  have hacc := ha.calls
  rw [hhist] at hacc
  refine ⟨ht, ?_, fun _ => ?_, ?_⟩ <;> rw [hhist]
  · refine within_typed hnew fun o ho => ?_
    rcases List.mem_cons.mp ho with rfl | ho
    · exact h.path (by rw [hs]; decide)
    · exact h.typed o ho
  · rw [within_gates hnew, within_visit hnew]
    exact hpresent
  · exact within_calls hnew (fun _ => hpresent) hacc ⟨trivial, h.calls⟩

/-- A step without callbacks, back before the headers. -/
theorem Visited.back {s t : Sys} (h : Visited s) (ht : t.TypedPath)
    (hstate : ¬ t.core.state.PastHeaders) {l : List Obs}
    (hl : ∀ o ∈ l, o.Typed ∧ ∀ cb m, o ≠ .call cb m) (hhist : t.core.hist = l ++ s.core.hist) :
    Visited t := by
  refine ⟨ht, ?_, fun hp => absurd hp hstate, ?_⟩ <;> rw [hhist]
  · intro o ho
    rcases List.mem_append.mp ho with ho | ho
    · exact (hl o ho).1
    · exact h.typed o ho
  · refine Monitor.Along.append (fun o ho _ => ?_) h.calls
    have hno := (hl o ho).2
    cases o <;> first | trivial | exact absurd rfl (hno _ _)

/-- One note that is no callback. -/
theorem Visited.noted {s t : Sys} (h : Visited s) (ht : t.TypedPath)
    (hstate : ¬ t.core.state.PastHeaders) {o : Obs} (ho : o.Typed) (hcall : ∀ cb m, o ≠ .call cb m)
    (hhist : t.core.hist = o :: s.core.hist) : Visited t := by
  refine h.back (l := [o]) ht hstate (fun o' ho' => ?_) hhist
  rw [List.mem_singleton.mp ho']
  exact ⟨ho, hcall⟩

theorem Visited.closed {env : Env} {s : Sys} (h : Visited s) : Visited (s.closeHttpContext env) := by
  obtain ⟨closed, hclosed, hhist⟩ := @Sys.closeHttpContext_hist env s
  refine h.back (fun _ => nofun) (by decide : ¬ HttpState.idle.PastHeaders) (fun o ho => ?_) hhist
  rcases List.mem_cons.mp ho with rfl | ho
  · exact ⟨trivial, nofun⟩
  · obtain ⟨pcb, ok, rfl⟩ := hclosed o ho
    exact ⟨trivial, nofun⟩

theorem Micro.visited {env : Env} {s t : Sys} (hstep : Micro env s t) (ha : Admitted t)
    (h : Visited s) : Visited t := by
  have ht := hstep.typedPath h.path
  have hidle : ¬ HttpState.idle.PastHeaders := by decide
  cases hstep.stage with
  | begin =>
    have hstate : ¬ HttpState.headerReceiving.PastHeaders := by decide
    exact h.noted (o := .begin) ht hstate trivial nofun rfl
  | line mem n hs =>
    have hkept := @Sys.headerLine_kept env s mem n
    have hstate : ¬ (s.headerLine env mem n).core.state.PastHeaders := by
      rw [hkept.state, hs]
      decide
    rcases hkept.hist with he | ⟨line, he⟩
    · exact h.back (l := []) ht hstate nofun he
    · exact h.noted (o := .line s.core.handler line) ht hstate trivial nofun he
  | headers hs _ => exact h.afterHeaders hs ha ht
  | within _ hgoes => exact h.goesOn ha ht hgoes
  | reset => exact h.noted (o := .reset) ht hidle trivial nofun rfl
  | close => exact h.closed

theorem ConnReach.visited {env : Env} {sid : ℕ} {s : Sys} (h : ConnReach env sid s) : Visited s := by
  have hidle : ¬ HttpState.idle.PastHeaders := by decide
  induction h with
  | refl => exact ⟨fun _ => nofun, nofun, nofun, trivial⟩
  | @tail s t hs hstep ih =>
    have ht : ConnReach env sid t := ConnReach.step hs hstep
    cases hstep with
    | own hm => exact hm.visited ht.admitted ih
    | accept pcb ipRemote https _ =>
      refine ih.back (l := [.accepted, .reset]) (fun _ => nofun) hidle (fun o ho => ?_) rfl
      rcases List.mem_pair.mp ho with rfl | rfl <;> exact ⟨trivial, nofun⟩
    | error => exact ih.noted (o := .freed) (fun _ => nofun) hidle trivial nofun s.freeHttpContext_hist
    | others w _ _ => exact ⟨ih.path, ih.typed, ih.present, ih.calls⟩

/-! ## The disk -/

/-- What is on the disk: folders, files with their content, and which file a handle writes; and the folders
that `_mkdir` does not succeed in making. -/
structure Disk where
  folders : Set Bytes
  refused : Set Bytes
  files : Bytes → Option Bytes
  writing : ℕ → Bytes

/-- The folders that `MakeDeepPath` makes: what stands in front of each slash, in the 255 bytes of the
path that it copies. -/
def deepPaths (path : Bytes) : List Bytes :=
  let szTemp := ((cstr path).take 255).map fun b => if b = 92 then 47 else b
  (((List.range szTemp.length).filter fun i => szTemp.getD i 0 = 47).map szTemp.take).filter (· ≠ [])

namespace Disk

/-- `_mkdir` on the way to all these paths; what exists already stays as it is. -/
def mkdirs (d : Disk) (paths : List Bytes) : Disk :=
  { d with folders := d.folders ∪ {folder | ∃ path ∈ paths, folder ∈ deepPaths path ∧ folder ∉ d.refused} }

/-- What an event does to the disk. -/
def after (d : Disk) : FileEvent → Disk
  | .fopen _ path mode (some h) =>
    if mode = bytes "wb" then
      { d with
        files := Function.update d.files path (some [])
        writing := Function.update d.writing h path }
    else d
  | .fwrite _ (.handle h) data written =>
    let path := d.writing h
    let stored := data.take written.toNat
    { d with files := Function.update d.files path ((d.files path).map (· ++ stored)) }
  | .makeDeepPath _ path => d.mkdirs [path]
  | _ => d

/-- What a log, newest event first, makes of a disk. -/
def run (d : Disk) : List FileEvent → Disk
  | [] => d
  | e :: log => (run d log).after e

theorem after_tame (d : Disk) {e : FileEvent} (h : e.Tame) : d.after e = d := by
  cases e with
  | fopen sid path mode r =>
    cases r with
    | none => rfl
    | some r => exact if_neg h
  | fwrite => exact h.elim
  | makeDeepPath => exact h.elim
  | _ => rfl

theorem run_tame (d : Disk) {new log : List FileEvent} (h : ∀ e ∈ new, e.Tame) :
    d.run (new ++ log) = d.run log := by
  induction new with
  | nil => rfl
  | cons e new ih =>
    have hrest : d.run (new ++ log) = d.run log := ih fun e' he' => h e' (List.mem_cons_of_mem _ he')
    exact (after_tame _ (h e List.mem_cons_self)).trans hrest

@[simp] theorem mkdirs_nil (d : Disk) : d.mkdirs [] = d := by
  simp [mkdirs]

theorem mkdirs_mkdirs (d : Disk) (paths paths' : List Bytes) :
    (d.mkdirs paths).mkdirs paths' = d.mkdirs (paths' ++ paths) := by
  simp only [mkdirs, mk.injEq, and_true]
  ext folder
  simp only [Set.mem_union, Set.mem_ofPred_eq, List.mem_append, or_and_right, exists_or]
  rw [or_assoc, or_comm (a := ∃ path, path ∈ paths ∧ _)]

/-- Nothing is made exactly when all the folders are there or cannot be made. -/
theorem mkdirs_eq_self (d : Disk) (paths : List Bytes) :
    d.mkdirs paths = d ↔
      ∀ path ∈ paths, ∀ folder ∈ deepPaths path, folder ∈ d.folders ∨ folder ∈ d.refused := by
  constructor
  · intro h path hpath folder hfolder
    by_cases hrefused : folder ∈ d.refused
    · exact .inr hrefused
    · refine .inl ?_
      rw [← h]
      exact .inr ⟨path, hpath, hfolder, hrefused⟩
  · intro h
    have hfolders : d.folders ∪ {folder | ∃ path ∈ paths, folder ∈ deepPaths path ∧ folder ∉ d.refused} =
        d.folders := by
      refine Set.union_eq_self_of_subset_right ?_
      rintro folder ⟨path, hpath, hfolder, hmade⟩
      exact (h path hpath folder hfolder).resolve_right hmade
    rw [mkdirs, hfolders]

end Disk

/-- The path of the file that a header line of an upload names. -/
def Obs.uploadPath : Obs → Option Bytes
  | .line (some .upload) bs =>
    if strnicmp bs (bytes "X-File-Name:") 12 = 0 then some (uploadToFolder ++ uploadName bs) else none
  | _ => none

/-! ## What the steps of a stranger do -/

/-- From `s` to `t` the settings stayed as they were, and the disk got the folders of the uploads that
were named. -/
structure Made (s t : Sys) (new : List Obs) : Prop where
  device : t.app.world.device = s.app.world.device
  disk : ∀ d : Disk,
    d.run t.app.world.files.log = (d.run s.app.world.files.log).mkdirs (new.filterMap Obs.uploadPath)

theorem Made.trans {s t u : Sys} {new new' : List Obs} (h : Made s t new) (h' : Made t u new') :
    Made s u (new' ++ new) := by
  refine ⟨h'.device.trans h.device, fun d => ?_⟩
  rw [h'.disk, h.disk, Disk.mkdirs_mkdirs, List.filterMap_append]

/-- Steps that leave the settings and the disk alone, without the name of an upload. -/
theorem Made.local {s t : Sys} {new : List Obs} (h : Sys.Local ⟨true, false⟩ s t)
    (hnew : ∀ o ∈ new, o.uploadPath = none) : Made s t new := by
  obtain ⟨log, hlog, htame⟩ := h.world.log
  refine ⟨h.world.device rfl, fun d => ?_⟩
  rw [hlog, Disk.run_tame d fun e he => (htame e he).2 rfl, List.filterMap_eq_nil_iff.mpr hnew,
    Disk.mkdirs_nil]

theorem cgiHeaderReceived_made (s : Sys) (bs : Bytes) :
    Made s (s.cgiHeaderReceived bs) [.line s.core.handler bs] := by
  simp only [Sys.cgiHeaderReceived]
  split
  next f hf =>
    obtain ⟨m, hhandler, hm⟩ := Option.bind_eq_some_iff.mp hf
    cases m <;> cases hm
    have hname : Obs.uploadPath (.line s.core.handler bs) =
        if strnicmp bs (bytes "X-File-Name:") 12 = 0 then some (uploadToFolder ++ uploadName bs)
        else none := by
      rw [show s.core.handler = some .upload from hhandler]
      rfl
    by_cases hline : strnicmp bs (bytes "X-File-Name:") 12 = 0
    · rw [if_pos hline] at hname
      simp only [Sys.onWork, Sys.onApp, App.onWork, uploadOnHeaderReceived, if_pos hline]
      refine ⟨?_, fun d => ?_⟩
      · split_ifs <;> rfl
      · rw [List.filterMap_cons_some hname, List.filterMap_nil]
        split_ifs <;> rfl
    · rw [if_neg hline] at hname
      simp only [Sys.onWork, Sys.onApp, App.onWork, uploadOnHeaderReceived, if_neg hline]
      refine ⟨rfl, fun d => ?_⟩
      rw [List.filterMap_cons_none hname, List.filterMap_nil, Disk.mkdirs_nil]
      rfl
  next hnone =>
    have hname : Obs.uploadPath (.line s.core.handler bs) = none := by
      cases hhandler : s.core.handler with
      | none => rfl
      | some m =>
        rw [show (s.note (.line s.core.handler bs)).core.handler = some m from hhandler] at hnone
        cases m <;> first | rfl | cases hnone
    refine ⟨rfl, fun d => ?_⟩
    rw [List.filterMap_cons_none hname, List.filterMap_nil, Disk.mkdirs_nil]
    rfl

theorem headerLine_made {env : Env} (s : Sys) (mem : Bytes) (n : ℕ) {new : List Obs}
    (hhist : (s.headerLine env mem n).core.hist = new ++ s.core.hist) :
    Made s (s.headerLine env mem n) new := by
  have hquiet {t : Sys} (hlocal : Sys.Local ⟨true, false⟩ s t) (ht : t.core.hist = new ++ s.core.hist)
      (hsame : t.core.hist = s.core.hist) : Made s t new := by
    obtain rfl : new = [] := List.append_left_eq_self.mp (ht.symm.trans hsame)
    exact .local hlocal nofun
  unfold Sys.headerLine at hhist ⊢
  split_ifs at hhist ⊢
  · exact hquiet (.same rfl rfl) hhist rfl
  · exact hquiet (.same rfl rfl) hhist rfl
  · exact hquiet (.same rfl rfl) hhist rfl
  · exact hquiet (.same rfl rfl) hhist rfl
  · exact hquiet (.same rfl rfl) hhist rfl
  · exact hquiet (.same rfl rfl) hhist rfl
  · exact hquiet (.same rfl rfl) hhist rfl
  · rw [Sys.cgiHeaderReceived_core] at hhist
    obtain rfl : [Obs.line s.core.handler _] = new := List.append_cancel_right hhist
    exact cgiHeaderReceived_made s _

/-- Callbacks that leave the settings and the disk alone. -/
def CallsSpared (new : List Obs) : Prop := ∀ cb m, .call cb m ∈ new → (Obs.call cb m).Spared

def Obs.NoLine : Obs → Prop
  | .line _ _ => False
  | _ => True

/-- A step whose callbacks do so. -/
theorem Micro.made {env : Env} {s t : Sys} (hstep : Micro env s t) {new : List Obs}
    (hhist : t.core.hist = new ++ s.core.hist) (hcalls : CallsSpared new) : Made s t new := by
  have hquiet {l : List Obs} (hl : ∀ o ∈ l, o.NoLine) (hhist' : t.core.hist = l ++ s.core.hist) :
      Made s t new := by
    obtain rfl : l = new := List.append_cancel_right (hhist'.symm.trans hhist)
    refine .local (hstep.isLocal fun _ new hnew o ho => ?_) fun o ho => ?_
    · obtain rfl : new = l := List.append_cancel_right (hnew.symm.trans hhist)
      have hno := hl o ho
      cases o with
      | call cb m => exact hcalls cb m ho
      | line m bs => exact hno.elim
      | _ => trivial
    · have hno := hl o ho
      cases o <;> first | rfl | exact hno.elim
  have hone {o : Obs} (ho : o.NoLine) : ∀ o' ∈ [o], o'.NoLine := by
    intro o' ho'
    rw [List.mem_singleton.mp ho']
    exact ho
  cases hstep.stage with
  | begin => exact hquiet (l := [.begin]) (hone (o := .begin) trivial) rfl
  | line mem n => exact headerLine_made s mem n hhist
  | headers =>
    obtain ⟨_, called, hcore, hcalled, -⟩ := @Sys.afterHeaders_core env s
    refine hquiet (l := (if (s.afterHeaders env).app.result < 0 then [.refused] else []) ++
      (called ++ [.headers s.gate])) (fun o ho => ?_) ?_
    · rcases List.mem_append.mp ho with ho | ho
      · split_ifs at ho
        · exact hone (o := .refused) trivial o ho
        · cases ho
      · rcases List.mem_append.mp ho with ho | ho
        · rcases hcalled with rfl | ⟨m, rfl⟩
          · cases ho
          · exact hone (o := .call .headersReceived m) trivial o ho
        · exact hone (o := .headers s.gate) trivial o ho
    · rw [hcore]
      simp only [List.append_assoc, List.singleton_append]
  | within _ hgoes =>
    obtain ⟨-, -, -, new', hnew', hhist'⟩ := hgoes
    refine hquiet (fun o ho => ?_) hhist'
    have hw := hnew' o ho
    cases o <;> trivial
  | reset => exact hquiet (l := [.reset]) (hone (o := .reset) trivial) rfl
  | close =>
    obtain ⟨closed, hclosed, hhist'⟩ := @Sys.closeHttpContext_hist env s
    refine hquiet (fun o ho => ?_) hhist'
    rcases List.mem_cons.mp ho with rfl | ho
    · trivial
    · obtain ⟨pcb, ok, rfl⟩ := hclosed o ho
      trivial

theorem Steps.made {env : Env} {s t : Sys} (h : Steps env s t) {new : List Obs}
    (hhist : t.core.hist = new ++ s.core.hist) (hcalls : CallsSpared new) : Made s t new := by
  induction h generalizing new with
  | refl =>
    obtain rfl : new = [] := List.append_left_eq_self.mp hhist.symm
    exact .local (.refl s) nofun
  | @tail u t hsteps hstep ih =>
    obtain ⟨older, -, hu⟩ := Steps.grows hsteps
    obtain ⟨newer, -, ht⟩ := hstep.grows
    obtain rfl : newer ++ older = new := by
      rw [ht, hu, ← List.append_assoc] at hhist
      exact List.append_cancel_right hhist
    have holder : Made s u older := ih hu fun cb m hm => hcalls cb m (List.mem_append_right _ hm)
    exact holder.trans (hstep.made ht fun cb m hm => hcalls cb m (List.mem_append_left _ hm))

/-! ## Strangers -/

/-- None of the requests of the visit presents a session that was made from its address. -/
def Stranger (hist : List Obs) : Prop := ∀ g ∈ visit.after hist, g.NoSession

instance (hist : List Obs) : Decidable (Stranger hist) := inferInstanceAs (Decidable (∀ _ ∈ _, _))

theorem mem_visit {hist : List Obs} {g : Gate} (h : g ∈ visit.after hist) : .headers g ∈ hist := by
  induction hist with
  | nil => cases h
  | cons o hist ih =>
    have hrest (hg : g ∈ visit.after hist) : .headers g ∈ o :: hist := List.mem_cons_of_mem o (ih hg)
    cases o with
    | accepted => cases h
    | headers g' =>
      rcases List.mem_cons.mp h with rfl | hg
      · exact List.mem_cons_self
      · exact hrest hg
    | _ => exact hrest h

/-- The callbacks that a stranger gets leave the settings and the disk alone. -/
theorem Stranger.spared {s : Sys} (hv : Visited s) (hs : Stranger s.core.hist) {new old : List Obs}
    (hhist : s.core.hist = new ++ old) (hnew : ∀ o ∈ new, o ≠ Obs.accepted) : CallsSpared new := by
  have hcalls := hv.calls
  have hspared {g : Gate} {cb : Callback} {m : Cgi} (hg : g ∈ visit.after s.core.hist)
      (hm : g.handler = some m) (hd : g.Denied m → cb = .readContent) : (Obs.call cb m).Spared := by
    by_cases hdevice : m.spares.device = true
    · cases cb <;> trivial
    · have hexact : m.mapping.optionsAllowed.authRequired = true ∧ m.Exact := by
        cases m <;> first | exact ⟨rfl, rfl⟩ | exact absurd rfl hdevice
      have htype : sessionTypes g.extension = true := hv.typed _ (mem_visit hg) m hm hexact.2
      rw [hd (.inl ⟨hexact.1, htype, hs g hg⟩)]
      trivial
  rw [hhist] at hcalls hspared
  clear hhist
  induction new with
  | nil => exact nofun
  | cons o new ih =>
    have hne := hnew o List.mem_cons_self
    have hmem {g : Gate} (hg : g ∈ visit.after (new ++ old)) : g ∈ visit.after (o :: new ++ old) := by
      cases o with
      | accepted => exact absurd rfl hne
      | headers g' => exact List.mem_cons_of_mem _ hg
      | _ => exact hg
    intro cb m hcb
    rcases List.mem_cons.mp hcb with rfl | hcb
    · obtain ⟨g, hg, hm, hd⟩ := hcalls.1
      exact hspared hg hm hd
    · exact ih (fun o' ho' => hnew o' (List.mem_cons_of_mem _ ho')) hcalls.2
        (fun hg => hspared (hmem hg)) cb m hcb

namespace Server

variable (env : Env) (d : Disk) (i : Fin maxConnections)

/-- What is on the disk, when it was `d` at the start. -/
def disk (s : Server) : Disk := d.run s.world.files.log

/-- The event leaves the settings and the disk as they are. -/
def Leaves (s : Server) (e : Event) : Prop :=
  (s.handle env e).world.device = s.world.device ∧ (s.handle env e).disk d = s.disk d

/-- All folders of the uploads that the event names for connection `i` are there or cannot be made. -/
def MakesNone (s : Server) (e : Event) : Prop :=
  ∀ path ∈ (s.noted env i e).filterMap Obs.uploadPath, ∀ folder ∈ deepPaths path,
    folder ∈ (s.disk d).folders ∨ folder ∈ (s.disk d).refused

/-- The event finds and leaves a stranger at connection `i`. -/
def ByStranger (s : Server) (e : Event) : Prop := Stranger ((s.handle env e).ctx i).core.hist

instance (s : Server) (e : Event) : Decidable (s.ByStranger env i e) :=
  inferInstanceAs (Decidable (Stranger _))

variable {env d i}

/-- What an event of connection `i` notes, and what it makes. -/
def Makes (d : Disk) (i : Fin maxConnections) (s t : Server) : Prop :=
  ∃ new, (t.ctx i).core.hist = new ++ (s.ctx i).core.hist ∧ t.world.device = s.world.device ∧
    t.disk d = (s.disk d).mkdirs (new.filterMap Obs.uploadPath)

theorem put_makes {s : Server} {t : Sys} {new : List Obs}
    (hhist : t.core.hist = new ++ (s.conn i).core.hist) (hmade : Made (s.conn i) t new) :
    Makes d i s (s.put i t) := by
  refine ⟨new, ?_, hmade.device, hmade.disk d⟩
  rw [put]
  simp only [Function.update_self]
  exact hhist

/-- What an event of connection `i` makes, as long as a stranger is there. -/
theorem fire_makes {s : Server} (hs : Connected env s) {e : Event} (he : s.Reaches i e)
    (hstranger : Stranger ((s.fire env e).ctx i).core.hist) : Makes d i s (s.fire env e) := by
  have hv : Visited ((s.fire env e).conn i) := ((hs.fire e) i).visited
  rcases fire_served hs he with heq | ⟨t, hserved, heq⟩ <;> rw [heq] at hv hstranger ⊢
  · refine ⟨[], rfl, rfl, ?_⟩
    rw [List.filterMap_nil, Disk.mkdirs_nil]
  have hctx : (s.put i t).ctx i = t := Function.update_self ..
  have hconn : (s.put i t).conn i = t := by
    rw [conn, hctx]
    rfl
  rw [hctx] at hstranger
  rw [hconn] at hv
  cases hserved with
  | steps hsteps =>
    obtain ⟨new, hnew, hhist⟩ := hsteps.grows
    exact put_makes hhist (hsteps.made hhist (hstranger.spared hv hhist hnew))
  | accept pcb ipRemote https =>
    refine @put_makes _ _ _ _ [.accepted, .reset] rfl (.local (Sys.onHttpAccept_local _ _ _ _) fun o ho => ?_)
    rcases List.mem_pair.mp ho with rfl | rfl <;> rfl
  | error =>
    refine @put_makes _ _ _ _ [.freed] (Sys.freeHttpContext_hist _)
      (.local (Sys.freeHttpContext_local _) fun o ho => ?_)
    rw [List.mem_singleton.mp ho]
    rfl

/-- An event of a stranger makes the folders of the uploads that it names, and nothing else. -/
theorem handle_makes {s : Server} (hs : (runs env).Reach s) {e : Event} (he : s.Reaches i e)
    (hstranger : s.ByStranger env i e) : (s.handle env e).world.device = s.world.device ∧
      (s.handle env e).disk d = (s.disk d).mkdirs ((s.noted env i e).filterMap Obs.uploadPath) := by
  have hconnected : Connected env { s with world := s.world.asked } :=
    Connected.globals (fun j => reach_conn hs j) rfl
  obtain ⟨new, hhist, hdevice, hdisk⟩ := fire_makes (d := d) hconnected (i := i) he hstranger
  have hnoted : s.noted env i e = new := Sys.notesSince_eq hhist
  rw [hnoted]
  exact ⟨hdevice, hdisk⟩

/-- It leaves the settings and the disk as they are exactly when it makes no folder. -/
theorem leaves_iff {s : Server} (hs : (runs env).Reach s) {e : Event} (he : s.Reaches i e)
    (hstranger : s.ByStranger env i e) : s.Leaves env d e ↔ s.MakesNone env d i e := by
  obtain ⟨hdevice, hdisk⟩ := handle_makes (d := d) hs he hstranger
  rw [Leaves, MakesNone, ← Disk.mkdirs_eq_self, hdisk]
  exact and_iff_right hdevice

/-- Events that all leave the settings and the disk as they are do so together. -/
theorem Along.leaves {s : Server} {es : List Event} (h : Along env (fun s e => s.Leaves env d e) s es) :
    (s.play env es).world.device = s.world.device ∧ (s.play env es).disk d = s.disk d := by
  induction es generalizing s with
  | nil => exact ⟨rfl, rfl⟩
  | cons e es ih =>
    obtain ⟨hdevice, hdisk⟩ := ih h.2
    exact ⟨hdevice.trans h.1.1, hdisk.trans h.1.2⟩

theorem Along.imp₂ {P Q R : Server → Event → Prop} (hR : ∀ s e, P s e → Q s e → R s e) {s : Server}
    {es : List Event} (hP : Along env P s es) (hQ : Along env Q s es) : Along env R s es := by
  induction es generalizing s with
  | nil => trivial
  | cons e es ih => exact ⟨hR s e hP.1 hQ.1, ih hP.2 hQ.2⟩

/-- Along a run in which connection `i` serves strangers. -/
theorem along_leaves_iff {s : Server} (hs : (runs env).Reach s) {es : List Event}
    (hsane : Sane env s es)
    (hstrangers : Along env (fun s e => s.Reaches i e → s.ByStranger env i e) s es) :
    Along env (fun s e => s.Reaches i e → s.Leaves env d e) s es ↔
      Along env (fun s e => s.Reaches i e → s.MakesNone env d i e) s es := by
  induction es generalizing s with
  | nil => exact Iff.rfl
  | cons e es ih =>
    have hrest := ih (hs.step e ⟨hsane.1, rfl⟩) hsane.2 hstrangers.2
    have hone : (s.Reaches i e → s.Leaves env d e) ↔ (s.Reaches i e → s.MakesNone env d i e) :=
      imp_congr_right fun he => leaves_iff hs he (hstrangers.1 he)
    exact and_congr hone hrest

end Server

/-- In every run of the server in which connection `i` serves nobody with a session, its events leave
the settings and the disk as they are exactly when the folders of all uploads that header lines for the
upload mapping name are there or cannot be made. Then the settings and the disk are the same after the run as before it,
unless somebody else changes them. -/
theorem device_frame (env : Env) (d : Disk) (i : Fin maxConnections) {s : Server}
    (h : (Server.runs env).Reach s) {es : List Event} (hsane : Server.Sane env s es)
    (hstrangers : Server.Along env (fun s e => s.Reaches i e → s.ByStranger env i e) s es) :
    (Server.Along env (fun s e => s.Reaches i e → s.Leaves env d e) s es ↔
      Server.Along env (fun s e => s.Reaches i e → s.MakesNone env d i e) s es) ∧
    (Server.Along env (fun s e => s.Reaches i e → s.MakesNone env d i e) s es →
      Server.Along env (fun s e => ¬ s.Reaches i e → s.Leaves env d e) s es →
      (s.play env es).world.device = s.world.device ∧ (s.play env es).disk d = s.disk d) := by
  have hiff := Server.along_leaves_iff (d := d) h hsane hstrangers
  refine ⟨hiff, fun hfolders hothers => Server.Along.leaves ?_⟩
  refine Server.Along.imp₂ (fun s e hown hother => ?_) (hiff.mpr hfolders) hothers
  by_cases he : s.Reaches i e
  · exact hown he
  · exact hother he

/-- The disk before anybody connects: the folders down to the one for uploads. -/
def emptyCache : Disk where
  folders := {folder | folder ∈ deepPaths uploadToFolder}
  refused := ∅
  files _ := none
  writing _ := []

/-- A client that has not logged in asks for the application. -/
def askForPage : List Event :=
  [.accept 0 1 false, .data 0 (bytes "GET /app/index.shtml HTTP/1.1\r\n\r\n")]

instance decidableAlong (env : Env) (P : Server → Event → Prop) [∀ s e, Decidable (P s e)] (s : Server)
    (es : List Event) : Decidable (Server.Along env P s es) :=
  match es with
  | [] => isTrue trivial
  | e :: es =>
    let _ := decidableAlong env P (s.handle env e) es
    inferInstanceAs (Decidable (P s e ∧ Server.Along env P (s.handle env e) es))

theorem device_frame_askForPage :
    (Server.boot.play (Env.calm (bytes "page")) askForPage).world.device = Server.boot.world.device ∧
      (Server.boot.play (Env.calm (bytes "page")) askForPage).disk emptyCache =
        Server.boot.disk emptyCache := by
  have hrun : Server.Sane (Env.calm (bytes "page")) Server.boot askForPage ∧
      Server.Along (Env.calm (bytes "page")) (fun s e => s.ByStranger (Env.calm (bytes "page")) 0 e ∧
        (s.noted (Env.calm (bytes "page")) 0 e).filterMap Obs.uploadPath = []) Server.boot askForPage := by
    decide +kernel
  obtain ⟨hsane, ⟨hstranger, hquiet⟩, ⟨hstranger', hquiet'⟩, -⟩ := hrun
  have hframe := (device_frame (Env.calm (bytes "page")) emptyCache 0 (.init rfl) hsane
    ⟨fun _ => hstranger, fun _ => hstranger', trivial⟩).2
  have hfirst : Server.boot.Reaches 0 (.accept 0 1 false) :=
    (by decide +kernel : (Fin.find? fun j => decide ((Server.boot.ctx j).core.pcb = none)) = some 0)
  have hnone {s : Server} {e : Event}
      (h : (s.noted (Env.calm (bytes "page")) 0 e).filterMap Obs.uploadPath = []) :
      s.MakesNone (Env.calm (bytes "page")) emptyCache 0 e := by
    intro path hpath
    rw [h] at hpath
    cases hpath
  refine hframe ?_ ⟨fun hno => absurd hfirst hno, fun hno => absurd rfl hno, trivial⟩
  exact ⟨fun _ => hnone hquiet, fun _ => hnone hquiet', trivial⟩

/-- A client names a file in a folder `new` for an upload. -/
def nameUpload : Event :=
  .data 0 (bytes "POST /api/upload.cgi HTTP/1.1\r\nX-File-Name: bmV3L2EudHh0\r\n\r\n")

/-- Connection 0 is accepted. -/
@[irreducible] def greeted : Server := Server.boot.handle (Env.calm []) (.accept 0 1 false)

theorem greeted_disk : greeted.disk emptyCache = emptyCache := by
  have hstranger : Server.boot.ByStranger (Env.calm []) 0 (.accept 0 1 false) := by decide +kernel
  have hreaches : Server.boot.Reaches 0 (.accept 0 1 false) :=
    (by decide +kernel : (Fin.find? fun j => decide ((Server.boot.ctx j).core.pcb = none)) = some 0)
  have hnoted : (Server.boot.noted (Env.calm []) 0 (.accept 0 1 false)).filterMap Obs.uploadPath = [] := by
    decide +kernel
  have hmade := (@Server.handle_makes (Env.calm []) emptyCache 0 _ (.init rfl) _ hreaches hstranger).2
  rw [hnoted, Disk.mkdirs_nil] at hmade
  unfold greeted
  exact hmade

theorem device_frame_fails :
    ¬ ∀ (env : Env) (d : Disk) (i : Fin maxConnections) (s : Server) (es : List Event),
      (Server.runs env).Reach s → Server.Sane env s es →
      Server.Along env (fun s e => s.Reaches i e ∧ s.ByStranger env i e) s es →
      (s.play env es).world.device = s.world.device ∧
        ((s.play env es).disk d).folders = (s.disk d).folders ∧
        ((s.play env es).disk d).files = (s.disk d).files := by
  intro h
  have hreach : (Server.runs (Env.calm [])).Reach greeted := by
    unfold greeted
    exact .step _ (.init rfl) ⟨rfl, rfl⟩
  have hrun : Server.Sane (Env.calm []) greeted [nameUpload] ∧
      greeted.ByStranger (Env.calm []) 0 nameUpload := by
    decide +kernel
  obtain ⟨hsane, hstranger⟩ := hrun
  have hreaches : greeted.Reaches 0 nameUpload := by
    unfold nameUpload
    exact rfl
  obtain ⟨-, hfolders, -⟩ :=
    h (Env.calm []) emptyCache 0 greeted [nameUpload] hreach hsane ⟨⟨hreaches, hstranger⟩, trivial⟩
  have hmade := (@Server.handle_makes (Env.calm []) emptyCache 0 greeted hreach _ hreaches hstranger).2
  change ((greeted.handle (Env.calm []) nameUpload).disk emptyCache).folders = _ at hfolders
  rw [hmade, greeted_disk] at hfolders
  have hnew : uploadToFolder ++ bytes "new" ∈ emptyCache.folders := by
    rw [← hfolders]
    exact .inr ⟨uploadToFolder ++ bytes "new/a.txt", by decide +kernel, by decide +kernel, Set.notMem_empty _⟩
  exact absurd hnew (by decide +kernel : uploadToFolder ++ bytes "new" ∉ deepPaths uploadToFolder)

end StraightHttpd
