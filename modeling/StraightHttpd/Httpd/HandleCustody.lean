import StraightHttpd.Httpd.FileHolds

/-! # Who closes the files of a connection

A file may be noted in two places of its context and closed from five functions. Two monitors read the log of a
connection: `custody` follows the handles that are out, and `fates` what gets of the two notes. Every file is
closed exactly once as long as no release finds the notes at odds with what is open.
-/

set_option autoImplicit false

namespace StraightHttpd
open CMemory

/-- What an event does with a handle. -/
def FileEvent.deed : FileEvent → Deed ℕ
  | .fopen _ _ _ (some h) | .firstdir _ _ (some h) => .takes h
  | .fwrite _ (.handle h) _ _ => .uses h
  | .fclose _ (.handle h) | .closedir _ (.handle h) => .returns h
  | .released _ => .settles
  | _ => .nothing

/-- `stale` is whether `_fileHandle` notes a file that was closed, `lost` whether a folder was opened while
another one was noted in `_fp`. -/
structure NoteFate where
  folder : Bool
  lost : Bool
  stale : Bool

def NoteFate.fresh : NoteFate := ⟨false, false, false⟩

def fates : Monitor NoteFate FileEvent where
  start := .fresh
  next t
    | .firstdir _ _ h => { t with folder := h.isSome, lost := t.lost || t.folder }
    | .closedir _ (.handle _) => { t with folder := false }
    | .allSent _ (.handle h) fileHandle => { t with stale := decide (fileHandle = .handle h) }
    | .uploaded _ (.handle _) => { t with stale := true }
    | .released _ => .fresh
    | _ => t

/-- The notes are right: no file is forgotten or closed already, and what `_fp` notes is closed by `CGI_Finish`
or noted in `_fileHandle`, but not both. -/
def NoteFate.Settles (t : NoteFate) (finish : Bool) (fp fileHandle : Fp) : Prop :=
  t.lost = false ∧ t.stale = false ∧ (fp.number = none ∨ (finish = true ↔ fp ≠ fileHandle))

/-- A reset does not call `CGI_Finish`. -/
def NoteFate.Allows (t : NoteFate) : FileEvent → Prop
  | .resetting _ fp fileHandle => t.Settles false fp fileHandle
  | .freeing _ finish fp fileHandle => t.Settles finish fp fileHandle
  | _ => True

instance (t : NoteFate) (e : FileEvent) : Decidable (t.Allows e) :=
  match e with
  | .resetting _ _ _ | .freeing _ _ _ _ => inferInstanceAs (Decidable (_ ∧ _ ∧ (_ ∨ _)))
  | .fopen .. | .fclose .. | .fwrite .. | .firstdir .. | .closedir .. | .makeDeepPath .. | .allSent .. | .uploaded ..
  | .released .. => isTrue trivial

/-- The deeds of a history. -/
def deeds (hist : List FileEvent) : List (Deed ℕ) := hist.map FileEvent.deed

namespace Hold

/-- What has become of the notes. -/
def fate : Hold → NoteFate
  | idle left => ⟨false, decide (left ≠ []), false⟩
  | folder _ left => ⟨true, decide (left ≠ []), false⟩
  | stale _ => ⟨false, false, true⟩
  | done _ noted => ⟨false, false, noted⟩
  | _ => .fresh

/-- A release closes what is open, once, if the notes are right. -/
theorem settles_iff {t : Hold} (ht : t.Resting) {finish : Bool} {fp fileHandle : Fp} (hfp : fp.number = t.fp)
    (hnoted : fileHandle.number = t.noted) : t.fate.Settles finish fp fileHandle ↔
      ((if finish then t.fp.toList else []) ++ t.noted.toList).Perm t.out := by
  unfold NoteFate.Settles
  cases t with
  | idle left =>
    have hnone : fp.number = none := hfp
    cases finish <;> simp [fate, Hold.fp, Hold.noted, Hold.out, hnone, List.nil_perm]
  | upload n =>
    have hnone : fp.number = none := hfp
    cases finish <;> simp [fate, NoteFate.fresh, Hold.fp, Hold.noted, Hold.out, hnone]
  | page n noted =>
    obtain rfl := number_eq_some.mp hfp
    cases noted with
    | true =>
      obtain rfl := number_eq_some.mp hnoted
      cases finish <;> simp [fate, NoteFate.fresh, Hold.fp, Hold.noted, Hold.out]
    | false =>
      have hne : Fp.handle n ≠ fileHandle := by
        rintro rfl
        cases hnoted
      cases finish <;> simp [fate, NoteFate.fresh, Hold.fp, Hold.noted, Hold.out, hne]
  | folder n left =>
    obtain rfl := number_eq_some.mp hfp
    have hne : Fp.handle n ≠ fileHandle := by
      rintro rfl
      cases hnoted
    cases finish <;> simp [fate, Hold.fp, Hold.noted, Hold.out, hne]
  | stale n => cases finish <;> simp [fate, Hold.fp, Hold.noted, Hold.out]
  | done | closing => exact ht.elim

/-- What the monitors have seen when the files are so. -/
def Books (hist : List FileEvent) : Hold → Prop
  | closing handles out => custody.Along Rightful (deeds hist) ∧ custody.after (deeds hist) = out ∧
      (fates.Along NoteFate.Allows hist ↔ handles.Perm out)
  | t => custody.Along Rightful (deeds hist) ∧ fates.Along NoteFate.Allows hist ∧
      custody.after (deeds hist) = t.out ∧ fates.after hist = t.fate

/-- It is over. -/
def Broken (hist : List FileEvent) : Prop :=
  ¬ custody.Along Rightful (deeds hist) ∧ ¬ fates.Along NoteFate.Allows hist

variable {hist : List FileEvent} {t u : Hold} {e : FileEvent}

theorem Broken.cons (h : Broken hist) (e : FileEvent) : Broken (e :: hist) :=
  ⟨fun hc => h.1 hc.2, fun hf => h.2 hf.2⟩

theorem aside_deed (he : e.Aside) :
    e.deed = .nothing ∧ (∀ x, fates.next x e = x) ∧ ∀ x : NoteFate, x.Allows e := by
  cases e with
  | fopen sid path mode h =>
    cases h with
    | none => exact ⟨rfl, fun _ => rfl, fun _ => trivial⟩
    | some n => exact he.elim
  | makeDeepPath => exact ⟨rfl, fun _ => rfl, fun _ => trivial⟩
  | fclose sid fp | closedir sid fp | uploaded sid fp =>
    cases fp with
    | handle n => cases he
    | null | wild => exact ⟨rfl, fun _ => rfl, fun _ => trivial⟩
  | fwrite sid fp data written =>
    cases fp with
    | handle n => cases he
    | null | wild => exact ⟨rfl, fun _ => rfl, fun _ => trivial⟩
  | allSent sid fp fileHandle =>
    cases fp with
    | handle n => cases he
    | null | wild => exact ⟨rfl, fun _ => rfl, fun _ => trivial⟩
  | firstdir | freeing | resetting | released => exact he.elim

/-- Something that the monitors do not see. -/
theorem Books.aside (h : t.Books hist) (he : e.Aside) : t.Books (e :: hist) := by
  obtain ⟨hdeed, hnext, hallows⟩ := aside_deed he
  have hcustody : custody.Along Rightful (deeds (e :: hist)) ↔ custody.Along Rightful (deeds hist) := by
    rw [deeds, List.map_cons, hdeed]
    exact and_iff_right trivial
  have hafter : custody.after (deeds (e :: hist)) = custody.after (deeds hist) := by
    rw [deeds, List.map_cons, hdeed]
    rfl
  have hfates : fates.Along NoteFate.Allows (e :: hist) ↔ fates.Along NoteFate.Allows hist :=
    and_iff_right (hallows _)
  have hfate : fates.after (e :: hist) = fates.after hist := hnext _
  cases t <;> simp only [Books, hcustody, hafter, hfates, hfate] at h ⊢ <;> exact h

/-- The books of files that are not being closed. -/
theorem Books.of_resting (ht : t.Resting) : t.Books hist ↔ custody.Along Rightful (deeds hist) ∧
    fates.Along NoteFate.Allows hist ∧ custody.after (deeds hist) = t.out ∧ fates.after hist = t.fate := by
  cases t <;> first | exact Iff.rfl | exact ht.elim

/-- A release begins. -/
theorem Books.release (h : t.Books hist) (ht : t.Resting) (finish : Bool) {fp fileHandle : Fp}
    (hfp : fp.number = t.fp) (hnoted : fileHandle.number = t.noted) (hdeed : e.deed = .nothing)
    (hallows : ∀ x : NoteFate, x.Allows e ↔ x.Settles finish fp fileHandle) :
    Books (e :: hist) (.closing ((if finish then t.fp.toList else []) ++ t.noted.toList) t.out) := by
  obtain ⟨hcustody, hfates, hout, hfate⟩ := (Books.of_resting ht).mp h
  have hdeeds : deeds (e :: hist) = .nothing :: deeds hist := by
    rw [deeds, List.map_cons, hdeed]
    rfl
  refine ⟨?_, ?_, ?_⟩
  · rw [hdeeds]
    exact ⟨trivial, hcustody⟩
  · rw [hdeeds]
    exact hout
  · rw [← settles_iff ht hfp hnoted, ← hfate, ← hallows]
    exact and_iff_left hfates

/-- The rules keep the books, until a release finds the notes at odds with what is open. -/
theorem Books.step (h : t.Books hist) (hstep : t.Step e u) : u.Books (e :: hist) ∨ Broken (e :: hist) := by
  cases hstep with
  | aside he => exact .inl (h.aside he)
  | @pageOpened sid n path noted =>
    obtain ⟨hcustody, hfates, hout, hfate⟩ := h
    have hnew : n ∉ custody.after (deeds hist) := by
      rw [hout]
      exact List.not_mem_nil
    exact .inl ⟨⟨hnew, hcustody⟩, ⟨trivial, hfates⟩, congrArg (n :: ·) hout, hfate⟩
  | @uploadStarted sid n path =>
    obtain ⟨hcustody, hfates, hout, hfate⟩ := h
    have hnew : n ∉ custody.after (deeds hist) := by
      rw [hout]
      exact List.not_mem_nil
    exact .inl ⟨⟨hnew, hcustody⟩, ⟨trivial, hfates⟩, congrArg (n :: ·) hout, hfate⟩
  | @written sid n data k =>
    obtain ⟨hcustody, hfates, hout, hfate⟩ := h
    have hopen : n ∈ custody.after (deeds hist) := by
      rw [hout]
      exact List.mem_singleton_self n
    exact .inl ⟨⟨hopen, hcustody⟩, ⟨trivial, hfates⟩, hout, hfate⟩
  | @uploaded sid n =>
    obtain ⟨hcustody, hfates, hout, hfate⟩ := h
    refine .inl ⟨⟨trivial, hcustody⟩, ⟨trivial, hfates⟩, hout, ?_⟩
    change NoteFate.mk (fates.after hist).folder (fates.after hist).lost true = _
    rw [hfate]
    rfl
  | @allSent sid n noted fileHandle hnoted =>
    obtain ⟨hcustody, hfates, hout, hfate⟩ := h
    refine .inl ⟨⟨trivial, hcustody⟩, ⟨trivial, hfates⟩, hout, ?_⟩
    change NoteFate.mk (fates.after hist).folder (fates.after hist).lost (decide (fileHandle = Fp.handle n)) = _
    rw [hfate]
    cases noted with
    | true =>
      rw [number_eq_some.mp hnoted]
      simp [fate, NoteFate.fresh]
    | false =>
      have hne : fileHandle ≠ .handle n := by
        rintro rfl
        cases hnoted
      simp [fate, NoteFate.fresh, hne]
  | @fileClosed sid n noted =>
    obtain ⟨hcustody, hfates, hout, hfate⟩ := h
    have hopen : n ∈ custody.after (deeds hist) := by
      rw [hout]
      exact List.mem_singleton_self n
    have hclosed : (custody.after (deeds hist)).erase n = [] := by
      rw [hout]
      exact List.erase_cons_head n []
    cases noted with
    | true => exact .inl ⟨⟨hopen, hcustody⟩, ⟨trivial, hfates⟩, hclosed, hfate⟩
    | false => exact .inl ⟨⟨hopen, hcustody⟩, ⟨trivial, hfates⟩, hclosed, hfate⟩
  | @folderOpened sid n left filter hnew =>
    obtain ⟨hcustody, hfates, hout, hfate⟩ := h
    refine .inl ⟨⟨hout.symm ▸ hnew, hcustody⟩, ⟨trivial, hfates⟩, congrArg (n :: ·) hout, ?_⟩
    change NoteFate.mk true ((fates.after hist).lost || (fates.after hist).folder) (fates.after hist).stale = _
    rw [hfate]
    simp [fate]
  | @folderAbsent sid left filter =>
    obtain ⟨hcustody, hfates, hout, hfate⟩ := h
    refine .inl ⟨⟨trivial, hcustody⟩, ⟨trivial, hfates⟩, hout, ?_⟩
    change NoteFate.mk false ((fates.after hist).lost || (fates.after hist).folder) (fates.after hist).stale = _
    rw [hfate]
    simp [fate]
  | @folderReopened sid n g left filter hnew =>
    obtain ⟨hcustody, hfates, hout, hfate⟩ := h
    refine .inl ⟨⟨hout.symm ▸ hnew, hcustody⟩, ⟨trivial, hfates⟩, congrArg (n :: ·) hout, ?_⟩
    change NoteFate.mk true ((fates.after hist).lost || (fates.after hist).folder) (fates.after hist).stale = _
    rw [hfate]
    simp [fate]
  | @folderLost sid g left filter =>
    obtain ⟨hcustody, hfates, hout, hfate⟩ := h
    refine .inl ⟨⟨trivial, hcustody⟩, ⟨trivial, hfates⟩, hout, ?_⟩
    change NoteFate.mk false ((fates.after hist).lost || (fates.after hist).folder) (fates.after hist).stale = _
    rw [hfate]
    simp [fate]
  | @folderClosed sid n left =>
    obtain ⟨hcustody, hfates, hout, hfate⟩ := h
    have hopen : n ∈ custody.after (deeds hist) := by
      rw [hout]
      exact List.mem_cons_self
    have hclosed : (custody.after (deeds hist)).erase n = left := by
      rw [hout]
      exact List.erase_cons_head n left
    refine .inl ⟨⟨hopen, hcustody⟩, ⟨trivial, hfates⟩, hclosed, ?_⟩
    change NoteFate.mk false (fates.after hist).lost (fates.after hist).stale = _
    rw [hfate]
    rfl
  | resetting ht hfp hnoted => exact .inl (h.release ht false hfp hnoted rfl fun _ => Iff.rfl)
  | freeing ht hfp hnoted => exact .inl (h.release ht _ hfp hnoted rfl fun _ => Iff.rfl)
  | @closed sid n handles out =>
    obtain ⟨hcustody, rfl, hfates⟩ := h
    have hrest := return_all_iff n handles (custody.after (deeds hist))
    have hallows : fates.Along NoteFate.Allows (.fclose sid (.handle n) :: hist) ↔ fates.Along NoteFate.Allows hist :=
      and_iff_right trivial
    by_cases hopen : n ∈ custody.after (deeds hist)
    · refine .inl ⟨⟨hopen, hcustody⟩, rfl, ?_⟩
      rw [hallows, hfates, hrest]
      exact and_iff_right hopen
    · refine .inr ⟨fun hc => hopen hc.1, ?_⟩
      rw [hallows, hfates, hrest]
      exact fun hc => hopen hc.1
  | @released sid out =>
    obtain ⟨hcustody, rfl, hfates⟩ := h
    have hallows : fates.Along NoteFate.Allows (.released sid :: hist) ↔ fates.Along NoteFate.Allows hist :=
      and_iff_right trivial
    by_cases hout : custody.after (deeds hist) = []
    · refine .inl ⟨⟨hout, hcustody⟩, ?_, rfl, rfl⟩
      rw [hallows, hfates, hout]
    · refine .inr ⟨fun hc => hout hc.1, ?_⟩
      rw [hallows, hfates, List.nil_perm]
      exact hout

theorem books_of_spells (h : fileUse.Spells t hist) : t.Books hist ∨ Broken hist := by
  induction h with
  | init h0 =>
    subst h0
    exact .inl ⟨trivial, trivial, rfl, rfl⟩
  | step e _ hstep ih =>
    rcases ih with ih | ih
    · exact ih.step hstep
    · exact .inr (ih.cons e)

/-- Files that are used by the rules are closed once each exactly if no release finds the notes at odds. -/
theorem custody_iff (h : fileUse.Spells t hist) (ht : t.Resting) :
    custody.Along Rightful (deeds hist) ↔ fates.Along NoteFate.Allows hist := by
  rcases books_of_spells h with hb | hb
  · obtain ⟨hcustody, hfates, -⟩ := (Books.of_resting ht).mp hb
    exact iff_of_true hcustody hfates
  · exact iff_of_false hb.1 hb.2

end Hold

namespace Server

/-- In every run, each file that is opened in the name of a connection is written to only while it is open and
closed exactly once before its request is over, exactly as long as no release finds the notes of the context at
odds with what is open. -/
theorem handle_custody (env : Env) {s : Server} (h : (runs env).Reach s) (i : Fin maxConnections) :
    custody.Along Rightful (deeds (FileEvent.ofConn (s.ctx i).core.sid s.world.files.log)) ↔
      fates.Along NoteFate.Allows (FileEvent.ofConn (s.ctx i).core.sid s.world.files.log) := by
  obtain ⟨t, hholds, -⟩ := reach_apart h
  exact Hold.custody_iff (hholds i).held.spells (hholds i).resting

/-- A folder with one file, that is listed to a client with a session. -/
def oneFile : Env :=
  { Env.calm (bytes "login") with firstdir := fun _ _ => some ⟨false, bytes "a.txt", 1, 0⟩, patience := 2 }

@[irreducible] def folderListed : Server :=
  boot.play oneFile
    [.accept 0 1 false, .data 0 (bytes "POST /auth/login.html HTTP/1.1\r\nContent-Length: 25\r\n\r\n"),
      .data 0 (bytes "username=admin&password=x"), .error 0, .accept 1 1 false,
      .data 0 (bytes "GET /api/files.cgi?path=/ HTTP/1.1\r\nCookie: SID=000003E8\r\nConnection: keep-alive\r\n\r\n"),
      .sent 0 300, .sent 0 100]

/-- The connection fails while a page is sent. -/
@[irreducible] def pageLost : Server :=
  boot.play (Env.calm (bytes "login"))
    [.accept 0 1 false, .data 0 (bytes "GET /auth/login.html HTTP/1.1\r\n\r\n"), .error 0]

/-- The folder is opened twice for one listing, and closed each time. The page is noted in both places, and
closed twice. -/
theorem handle_custody_listed :
    (.takes 0 ∈ deeds (FileEvent.ofConn (folderListed.ctx 0).core.sid folderListed.world.files.log) ∧
        .takes 1 ∈ deeds (FileEvent.ofConn (folderListed.ctx 0).core.sid folderListed.world.files.log) ∧
        custody.Along Rightful (deeds (FileEvent.ofConn (folderListed.ctx 0).core.sid folderListed.world.files.log))) ∧
      ¬ custody.Along Rightful
        (deeds (FileEvent.ofConn (pageLost.ctx 0).core.sid pageLost.world.files.log)) := by
  have hlisted : (runs oneFile).Reach folderListed := by
    unfold folderListed
    exact reach_boot _ (by decide +kernel)
  have hlost : (runs (Env.calm (bytes "login"))).Reach pageLost := by
    unfold pageLost
    exact reach_boot _ (by decide +kernel)
  have hright : fates.Along NoteFate.Allows
      (FileEvent.ofConn (folderListed.ctx 0).core.sid folderListed.world.files.log) := by
    decide +kernel
  have hwrong : ¬ fates.Along NoteFate.Allows
      (FileEvent.ofConn (pageLost.ctx 0).core.sid pageLost.world.files.log) := by
    decide +kernel
  refine ⟨⟨by decide +kernel, by decide +kernel, (handle_custody _ hlisted 0).mpr hright⟩, fun h => ?_⟩
  exact hwrong ((handle_custody _ hlost 0).mp h)

end Server

end StraightHttpd
