import StraightHttpd.Httpd.Server
import StraightHttpd.Lib.Custody
import StraightHttpd.Lib.Histories

/-! # The files of a connection

A context notes an open file in two places: `_fp` in its application context, and `_fileHandle`. The protocol
says what may be asked of the file system in the name of a connection, and what the two places note meanwhile.
-/

set_option autoImplicit false

namespace StraightHttpd
open CMemory

/-! ## The protocol -/

/-- The handle, if there is one. -/
def Fp.number : Fp → Option ℕ
  | .handle h => some h
  | _ => none

@[simp] theorem number_handle (h : ℕ) : (Fp.handle h).number = some h := rfl

@[simp] theorem number_null : Fp.null.number = none := rfl

@[simp] theorem number_pointer (m : Bytes) (i : ℕ) : (pointer m i).number = none := by
  unfold pointer
  simp only
  split_ifs <;> rfl

theorem number_eq_some {fp : Fp} {h : ℕ} : fp.number = some h ↔ fp = .handle h := by
  cases fp <;> simp [Fp.number]

/-- What a connection has open. `noted` is whether `_fileHandle` notes the file too, `left` are folders that
are open and noted nowhere, and `stale` is a file that is closed and still noted in `_fileHandle`. A `done`
file is about to be closed, and a `closing` context about to close `handles`. -/
inductive Hold
  | idle (left : List ℕ)
  | upload (h : ℕ)
  | page (h : ℕ) (noted : Bool)
  | folder (h : ℕ) (left : List ℕ)
  | stale (h : ℕ)
  | done (h : ℕ) (noted : Bool)
  | closing (handles out : List ℕ)

namespace Hold

/-- What `_fp` notes. -/
def fp : Hold → Option ℕ
  | page h _ | folder h _ => some h
  | _ => none

/-- What `_fileHandle` notes. -/
def noted : Hold → Option ℕ
  | upload h | stale h | page h true => some h
  | _ => none

/-- What is open. -/
def out : Hold → List ℕ
  | idle left => left
  | upload h | page h _ | done h _ => [h]
  | folder h left => h :: left
  | stale _ => []
  | closing _ out => out

/-- Between two calls of the server. -/
def Resting : Hold → Prop
  | done _ _ | closing _ _ => False
  | _ => True

/-- What a listing has open. -/
def Listing : Hold → Prop
  | idle _ | folder _ _ => True
  | _ => False

end Hold

/-- Events that concern no file that is open or gets open. -/
def FileEvent.Aside : FileEvent → Prop
  | .fopen _ _ _ none | .makeDeepPath _ _ => True
  | .fwrite _ fp _ _ | .fclose _ fp | .closedir _ fp | .allSent _ fp _ | .uploaded _ fp => fp.number = none
  | _ => False

/-- The rules of the use of files. What a release closes is what is noted, and `CGI_Finish` closes what `_fp`
notes before. -/
inductive Hold.Step : Hold → FileEvent → Hold → Prop
  | aside {t : Hold} {e : FileEvent} : e.Aside → Step t e t
  | pageOpened {sid h : ℕ} {path : Bytes} (noted : Bool) :
      Step (.idle []) (.fopen sid path (bytes "rb") (some h)) (.page h noted)
  | uploadStarted {sid h : ℕ} {path : Bytes} :
      Step (.idle []) (.fopen sid path (bytes "wb") (some h)) (.upload h)
  | written {sid h : ℕ} {data : Bytes} {k : ℤ} : Step (.upload h) (.fwrite sid (.handle h) data k) (.upload h)
  | uploaded {sid h : ℕ} : Step (.upload h) (.uploaded sid (.handle h)) (.done h true)
  | allSent {sid h : ℕ} {noted : Bool} {fileHandle : Fp} : fileHandle.number = (Hold.page h noted).noted →
      Step (.page h noted) (.allSent sid (.handle h) fileHandle) (.done h noted)
  | fileClosed {sid h : ℕ} {noted : Bool} :
      Step (.done h noted) (.fclose sid (.handle h)) (if noted then .stale h else .idle [])
  | folderOpened {sid h : ℕ} {left : List ℕ} {filter : Bytes} : h ∉ left →
      Step (.idle left) (.firstdir sid filter (some h)) (.folder h left)
  | folderAbsent {sid : ℕ} {left : List ℕ} {filter : Bytes} :
      Step (.idle left) (.firstdir sid filter none) (.idle left)
  | folderReopened {sid h g : ℕ} {left : List ℕ} {filter : Bytes} : h ∉ g :: left →
      Step (.folder g left) (.firstdir sid filter (some h)) (.folder h (g :: left))
  | folderLost {sid g : ℕ} {left : List ℕ} {filter : Bytes} :
      Step (.folder g left) (.firstdir sid filter none) (.idle (g :: left))
  | folderClosed {sid h : ℕ} {left : List ℕ} : Step (.folder h left) (.closedir sid (.handle h)) (.idle left)
  | resetting {sid : ℕ} {t : Hold} {fp fileHandle : Fp} : t.Resting → fp.number = t.fp →
      fileHandle.number = t.noted →
      Step t (.resetting sid fp fileHandle) (.closing t.noted.toList t.out)
  | freeing {sid : ℕ} {t : Hold} {finish : Bool} {fp fileHandle : Fp} : t.Resting → fp.number = t.fp →
      fileHandle.number = t.noted → Step t (.freeing sid finish fp fileHandle)
        (.closing ((if finish then t.fp.toList else []) ++ t.noted.toList) t.out)
  | closed {sid h : ℕ} {handles out : List ℕ} :
      Step (.closing (h :: handles) out) (.fclose sid (.handle h)) (.closing handles (out.erase h))
  | released {sid : ℕ} {out : List ℕ} : Step (.closing [] out) (.released sid) (.idle [])

/-- The use of files as a protocol. -/
def fileUse : RunSystem Hold FileEvent where
  init t := t = .idle []
  step := Hold.Step

/-! ## What the file system logs -/

section

variable {env : Env} {sid : ℕ} {t t' : Hold}

/-- One more event. -/
theorem spells_event {log log' : List FileEvent} {e : FileEvent}
    (h : fileUse.Spells t (FileEvent.ofConn sid log)) (hlog : log' = e :: log) (he : e.sid = sid)
    (hstep : t.Step e t') : fileUse.Spells t' (FileEvent.ofConn sid log') := by
  have hmine : FileEvent.ofConn sid log' = e :: FileEvent.ofConn sid log := by
    rw [hlog]
    exact List.filter_cons_of_pos (beq_iff_eq.mpr he)
  rw [hmine]
  exact h.step e hstep

namespace World

theorem webFopen_cases (w : World) (szFile mode : Bytes) :
    (w.webFopen env sid szFile mode).2 = .null ∧
        (w.webFopen env sid szFile mode).1.files.opened = w.files.opened ∧
        (w.webFopen env sid szFile mode).1.files.log =
          .fopen sid (webPath szFile) mode none :: w.files.log ∨
      (w.webFopen env sid szFile mode).2 = .handle w.files.opened ∧
        (w.webFopen env sid szFile mode).1.files.opened = w.files.opened + 1 ∧
        (w.webFopen env sid szFile mode).1.files.log =
          .fopen sid (webPath szFile) mode (some w.files.opened) :: w.files.log := by
  simp only [webFopen]
  split_ifs
  · exact .inr ⟨rfl, rfl, rfl⟩
  · exact .inl ⟨rfl, rfl, rfl⟩

theorem webFirstdir_cases (w : World) (filter : Bytes) :
    (w.webFirstdir env sid filter).2 = (.null, none) ∧
        (w.webFirstdir env sid filter).1.files.opened = w.files.opened ∧
        (w.webFirstdir env sid filter).1.files.log = .firstdir sid filter none :: w.files.log ∨
      (∃ e, (w.webFirstdir env sid filter).2 = (.handle w.files.opened, some e)) ∧
        (w.webFirstdir env sid filter).1.files.opened = w.files.opened + 1 ∧
        (w.webFirstdir env sid filter).1.files.log =
          .firstdir sid filter (some w.files.opened) :: w.files.log := by
  unfold webFirstdir
  split
  · exact .inr ⟨⟨_, rfl⟩, rfl, rfl⟩
  · exact .inl ⟨rfl, rfl, rfl⟩

theorem webFclose_files (w : World) (f : Fp) : (w.webFclose sid f).files.log = .fclose sid f :: w.files.log ∧
    (w.webFclose sid f).files.opened = w.files.opened := by
  cases f <;> exact ⟨rfl, rfl⟩

theorem webClosedir_cases (w : World) (f : Fp) : (w.webClosedir sid f).files.opened = w.files.opened ∧
    (f = .null ∧ (w.webClosedir sid f).files.log = w.files.log ∨
      (w.webClosedir sid f).files.log = .closedir sid f :: w.files.log) := by
  cases f with
  | null => exact ⟨rfl, .inl ⟨rfl, rfl⟩⟩
  | handle h => exact ⟨rfl, .inr rfl⟩
  | wild v => exact ⟨rfl, .inr rfl⟩

/-- Neither is anything logged nor a handle given out. -/
def SameFiles (w w' : World) : Prop := w'.files.log = w.files.log ∧ w'.files.opened = w.files.opened

theorem SameFiles.trans {u v w : World} (h : SameFiles u v) (h' : SameFiles v w) : SameFiles u w :=
  ⟨h'.1.trans h.1, h'.2.trans h.2⟩

theorem webFread_files (w : World) (f : Fp) (count : ℕ) : SameFiles w (w.webFread env f count).1 := by
  cases f with
  | handle h =>
    simp only [webFread]
    split <;> exact ⟨rfl, rfl⟩
  | _ => exact ⟨rfl, rfl⟩

theorem webFseek_files (w : World) (f : Fp) (offset : ℤ) : SameFiles w (w.webFseek f offset) := by
  cases f with
  | handle h =>
    simp only [webFseek]
    split <;> exact ⟨rfl, rfl⟩
  | _ => exact ⟨rfl, rfl⟩

theorem webFsize_files (w : World) (f : Fp) : SameFiles w (w.webFsize env f).1 := by
  cases f <;> exact ⟨rfl, rfl⟩

theorem webReaddir_files (w : World) (f : Fp) : SameFiles w (w.webReaddir env f).1 := by
  cases f <;> exact ⟨rfl, rfl⟩

end World

end

/-! ## Steps that leave the files alone -/

/-- The files and what notes them stay. -/
structure Work.Still (w w' : Work) : Prop where
  files : World.SameFiles w.world w'.world
  fp : w'.ssiCtx.fp = w.ssiCtx.fp
  fileHandle : w'.fileHandle = w.fileHandle

namespace Work

variable {env : Env} {c : Core} {sid : ℕ}

theorem Still.refl (w : Work) : Still w w := ⟨⟨rfl, rfl⟩, rfl, rfl⟩

theorem Still.trans {u v w : Work} (h : Still u v) (h' : Still v w) : Still u w :=
  ⟨h.files.trans h'.files, h'.fp.trans h.fp, h'.fileHandle.trans h.fileHandle⟩

theorem Still.same {w w' : Work}
    (h : (w'.world.files, w'.appContext, w'.fileHandle) = (w.world.files, w.appContext, w.fileHandle)) :
    Still w w' := by
  simp only [Prod.mk.injEq] at h
  obtain ⟨hfiles, hctx, hhandle⟩ := h
  exact ⟨⟨congrArg Files.log hfiles, congrArg Files.opened hfiles⟩, congrArg (fun x : AppContext => x.asSsi.fp) hctx,
    hhandle⟩

/-- Only the world changes, and not its files. -/
theorem Still.ofWorld {w : Work} {world : World} (h : World.SameFiles w.world world) :
    Still w { w with world := world } := ⟨h, rfl, rfl⟩

theorem sniffGzip_still (w : Work) (fp : Fp) : Still w (sniffGzip env w fp) := by
  have hread := @World.webFread_files env w.world fp 3
  unfold sniffGzip
  generalize w.world.webFread env fp 3 = r at hread ⊢
  obtain ⟨world, flag⟩ := r
  cases flag with
  | none => exact .ofWorld hread
  | some flag => exact ⟨hread.trans (world.webFseek_files fp 0), rfl, rfl⟩

theorem lastModifiedLine_still (w : Work) : Still w (lastModifiedLine env c w).1 := by
  unfold lastModifiedLine World.webFtime
  simp only
  split_ifs <;> exact .same rfl

theorem readInto_still (w : Work) (fp : Fp) (maxRead room : ℤ) :
    Still w (readInto env w fp maxRead room).1 := by
  have hread := @World.webFread_files env w.world fp (u32 maxRead)
  unfold readInto
  generalize w.world.webFread env fp (u32 maxRead) = r at hread ⊢
  obtain ⟨world, data⟩ := r
  cases data with
  | none => exact .ofWorld hread
  | some data =>
    simp only
    split_ifs
    · exact (Still.ofWorld hread).trans (.same rfl)
    · exact .ofWorld hread

theorem ssiLoop_still {value : Bytes → Bytes} {maxSize : ℤ} (n : ℕ) (w : Work) (x : SsiContext)
    (out : Bytes) : Still w (ssiLoop env value maxSize n w x out).1 ∧
      (ssiLoop env value maxSize n w x out).2.1.fp = x.fp := by
  induction n generalizing w x out with
  | zero => exact ⟨.same rfl, rfl⟩
  | succ n ih =>
    simp only [ssiLoop]
    split_ifs
    · have hread := @readInto_still env w x.fp (min (w.dwTotal - w.dwOperIndex) ((cacheSize : ℤ) - x.cacheOffset))
        ((cacheSize : ℤ) - x.cacheOffset)
      generalize readInto env w x.fp _ _ = r at hread ⊢
      obtain ⟨w', data⟩ := r
      cases data with
      | none => exact ⟨hread.trans (.same rfl), rfl⟩
      | some data =>
        have hindex : Still w { w' with dwOperIndex := w'.dwOperIndex + data.length } := hread.trans (.same rfl)
        have hscan := @ssiScan_fp value maxSize x out (x.cache.take x.cacheOffset.toNat ++ data)
        simp only
        generalize ssiScan value maxSize x out (x.cache.take x.cacheOffset.toNat ++ data) = r at hscan ⊢
        obtain ⟨rest, x', out', e⟩ := r
        cases e with
        | more =>
          obtain ⟨hstill, hfp⟩ := ih { w' with dwOperIndex := w'.dwOperIndex + data.length }
            { x' with cache := rest, cacheOffset := rest.length } out'
          exact ⟨hindex.trans hstill, hfp.trans hscan⟩
        | ready2Send => exact ⟨hindex, hscan⟩
        | fault => exact ⟨hindex.trans (.same rfl), hscan⟩
    · exact ⟨.refl w, rfl⟩

/-- A change of the context that keeps the file in it. -/
theorem Still.setSsi {w w' : Work} (h : Still w w') {x : SsiContext} (hx : x.fp = w.ssiCtx.fp) :
    Still w (w'.setSsi x) := ⟨h.files, hx, h.fileHandle⟩

theorem webReadContent_still (w : Work) (maxSize : ℤ) : Still w (webReadContent env c w maxSize).1 := by
  simp only [webReadContent, readPage]
  split_ifs
  · exact .refl w
  · have hstage : Still w { w with dwOperStage := stageEnd } := .same rfl
    exact hstage.setSsi rfl
  · exact .same rfl
  · exact .same rfl
  · have hread := @readInto_still env w w.ssiCtx.fp (min (w.dwTotal - w.dwOperIndex) maxSize) maxSize
    generalize readInto env w w.ssiCtx.fp _ _ = r at hread ⊢
    obtain ⟨w', data⟩ := r
    cases data with
    | none => exact hread.trans (.same rfl)
    | some data => exact hread.trans (.same rfl)
  · obtain ⟨hloop, hfp⟩ := @ssiLoop_still env (tagValue w.world.device) maxSize
      (env.patience + (w.dwTotal - w.dwOperIndex).toNat + 1) w w.ssiCtx []
    generalize ssiLoop env (tagValue w.world.device) maxSize _ w w.ssiCtx [] = r at hloop hfp ⊢
    obtain ⟨w', x, out⟩ := r
    cases out with
    | none => exact hloop.setSsi hfp
    | some out => exact (hloop.setSsi hfp).trans (.same rfl)

theorem webAppendHeaders_still (a : App) (info : Bytes) : Still a.toWork (webAppendHeaders c a info).toWork := by
  simp only [webAppendHeaders]
  by_cases h : a.rangeTo > c.rangeFrom
  · simp only [if_pos h]
    exact ⟨a.world.webFseek_files _ _, rfl, rfl⟩
  · simp only [if_neg h]
    exact .same rfl

theorem authSetResponseHeaders_still (a : App) (info : Bytes) :
    Still a.toWork (authSetResponseHeaders c a info).toWork := by
  have happend (m : Bytes) : Still a.toWork (webAppendHeaders c { a with sendBuffer := m } info).toWork :=
    webAppendHeaders_still { a with sendBuffer := m } info
  simp only [authSetResponseHeaders]
  split_ifs
  · exact happend _
  · exact happend _
  · exact happend _

theorem ssdpSending_still (w : Work) (maxSize : ℤ) : Still w (ssdpSending c w maxSize).1 := by
  have hloop (w : Work) (out : Bytes) (lines : List Bytes) : Still w (ssdpLoop maxSize w out lines).1 := by
    induction lines generalizing w out with
    | nil => exact .same rfl
    | cons line rest ih =>
      have hstage : Still w { w with dwOperStage := nextStage w.dwOperStage } := .same rfl
      unfold ssdpLoop
      split_ifs
      · exact .refl w
      · exact hstage.trans (ih _ _)
  unfold ssdpSending
  split_ifs
  · exact .refl w
  · exact hloop w [] _
  · exact .refl w

theorem sendBufferTo_still (w : Work) (n : ℕ) : Still w (w.sendBufferTo n) := by
  unfold sendBufferTo
  split_ifs <;> exact .same rfl

end Work

theorem setResponseHeaders_still {m : Cgi} {f : Core → App → Bytes → App}
    (h : m.mapping.setResponseHeaders = some f) (c : Core) (a : App) (info : Bytes) :
    Work.Still a.toWork (f c a info).toWork := by
  cases m <;> cases h
  · unfold ssdpSendHeader
    simp only
    split_ifs <;> exact .same rfl
  · exact Work.authSetResponseHeaders_still a info
  · exact Work.webAppendHeaders_still a info
  · unfold filesSetResponseHeader
    simp only
    split_ifs <;> exact .same rfl
  · exact Work.webAppendHeaders_still a info

theorem cgiSetResponseHeaders_still (env : Env) (c : Core) (a : App) (info : Bytes) :
    Work.Still a.toWork (cgiSetResponseHeaders env c a info).toWork := by
  have hhandler : Work.Still a.toWork (handlerHeaders c (startHeaders a) info).toWork := by
    unfold handlerHeaders
    split
    next f hf =>
      obtain ⟨m, -, hm⟩ := Option.bind_eq_some_iff.mp hf
      exact setResponseHeaders_still hm c (startHeaders a) info
    next => exact .refl _
  exact hhandler.trans (.same rfl)

/-- Loading a block does to the files what the reading of it does. -/
theorem loadBlock_still (read : Work → ℤ → Work × Bytes × ℤ) (sendMaxBlock : ℤ) (a : App) :
    ∃ maxSize, Work.Still (read a.toWork maxSize).1 (loadBlock read sendMaxBlock a).1.toWork := by
  unfold loadBlock
  simp only
  split
  · refine ⟨sendMaxBlock - a.bytesLeft - 2, ?_⟩
    generalize read a.toWork (sendMaxBlock - a.bytesLeft - 2) = r
    obtain ⟨w, data, size⟩ := r
    have hbuffer := Work.sendBufferTo_still w (a.bytesLeft.toNat + data.length)
    simp only
    split
    · exact hbuffer.trans (.same rfl)
    · exact hbuffer
  · refine ⟨sendMaxBlock - a.bytesLeft - 2 - 10, ?_⟩
    generalize read a.toWork (sendMaxBlock - a.bytesLeft - 2 - 10) = r
    obtain ⟨w, data, size⟩ := r
    have hbuffer := Work.sendBufferTo_still w (a.bytesLeft.toNat + 10 + data.length)
    simp only
    split
    · exact hbuffer.trans (Work.sendBufferTo_still _ _)
    · exact hbuffer

theorem Work.closeCtxFile_eq (c : Core) (w : Work) : (closeCtxFile c w).world =
      (if w.ssiCtx.fp = .null then w.world else w.world.webFclose c.sid w.ssiCtx.fp) ∧
    (closeCtxFile c w).fileHandle = w.fileHandle := by
  unfold closeCtxFile
  by_cases hnull : w.ssiCtx.fp = .null
  · rw [if_neg (not_not.mpr hnull), if_pos hnull]
    exact ⟨rfl, rfl⟩
  · rw [if_pos hnull, if_neg hnull]
    exact ⟨rfl, rfl⟩

/-! ## What the handlers do -/

/-- The files of connection `sid` are `t`, and the context notes them. -/
structure Work.Held (sid : ℕ) (w : Work) (t : Hold) : Prop where
  spells : fileUse.Spells t (FileEvent.ofConn sid w.world.files.log)
  fp : w.ssiCtx.fp.number = t.fp
  noted : w.fileHandle.number = t.noted
  issued : ∀ h ∈ t.out, h < w.world.files.opened

/-- From `t` on, only new files were opened. -/
def Hold.Opens (opened : ℕ) (t t' : Hold) : Prop := ∀ h ∈ t'.out, h ∈ t.out ∨ opened ≤ h

namespace Work.Held

variable {env : Env} {c : Core} {sid : ℕ} {w w' : Work} {t : Hold}

theorem still (h : Held sid w t) (hw : Still w w') : Held sid w' t := by
  refine ⟨?_, ?_, ?_, fun n hn => ?_⟩
  · rw [hw.files.1]
    exact h.spells
  · rw [hw.fp]
    exact h.fp
  · rw [hw.fileHandle]
    exact h.noted
  · rw [hw.files.2]
    exact h.issued n hn

/-- A change of the text in the context. -/
theorem text (h : Held sid w t) (ht : t.fp = none) (hfiles : World.SameFiles w.world w'.world)
    (hctx : ∃ m, w'.appContext = .raw m) (hhandle : w'.fileHandle = w.fileHandle) : Held sid w' t := by
  obtain ⟨m, hm⟩ := hctx
  refine ⟨?_, ?_, ?_, fun n hn => ?_⟩
  · rw [hfiles.1]
    exact h.spells
  · rw [Work.ssiCtx, hm, ht]
    exact number_pointer m 4
  · rw [hhandle]
    exact h.noted
  · rw [hfiles.2]
    exact h.issued n hn

/-- `WEB_RequestReceived` opens the page, or not. -/
theorem webRequestReceived (h : Held c.sid w (.idle [])) :
    ∃ t, Held c.sid (webRequestReceived env c w) t ∧ Hold.Opens w.world.files.opened (.idle []) t ∧
      (t = .idle [] ∨ ∃ n noted, t = .page n noted) := by
  have hpage : Still w (chunkSsi c (defaultPage w)) := by
    unfold chunkSsi defaultPage
    split_ifs <;> exact .same rfl
  have hopened := hpage.files.2
  have hw := h.still hpage
  simp only [StraightHttpd.webRequestReceived]
  generalize chunkSsi c (defaultPage w) = w' at hw hopened ⊢
  have hopen := @World.webFopen_cases env c.sid w'.world w'.responsePath (bytes "rb")
  generalize w'.world.webFopen env c.sid w'.responsePath (bytes "rb") = r at hopen ⊢
  obtain ⟨world, fp⟩ := r
  rcases hopen with ⟨hfp, hnum, hlog⟩ | ⟨hfp, hnum, hlog⟩
  · obtain rfl : fp = .null := hfp
    have hspells := spells_event hw.spells hlog rfl (.aside trivial)
    refine ⟨.idle [], ⟨hspells, rfl, hw.noted, ?_⟩, ?_, .inl rfl⟩
    · intro n hn
      cases hn
    · intro n hn
      cases hn
  · obtain rfl : fp = .handle w'.world.files.opened := hfp
    have hspells (noted : Bool) := spells_event hw.spells hlog rfl (.pageOpened noted)
    have hline : Still { w' with world := world }
        (lastModifiedLine env c (sniffGzip env { w' with world := world } (.handle w'.world.files.opened))).1 :=
      (sniffGzip_still _ _).trans (lastModifiedLine_still _)
    have hnew (noted : Bool) : Hold.Opens w.world.files.opened (.idle []) (.page w'.world.files.opened noted) := by
      intro n hn
      rw [List.mem_singleton.mp hn]
      exact .inr hopened.ge
    simp only
    unfold pageOpened
    generalize lastModifiedLine env c (sniffGzip env { w' with world := world } _) = r at hline ⊢
    obtain ⟨w'', line, modified⟩ := r
    have hless (n : ℕ) (hn : n ∈ [w'.world.files.opened]) : n < w''.world.files.opened := by
      rw [List.mem_singleton.mp hn, hline.files.2]
      exact hnum.ge
    have hspells' (noted : Bool) : fileUse.Spells (.page w'.world.files.opened noted)
        (FileEvent.ofConn c.sid w''.world.files.log) := by
      rw [show w''.world.files.log = world.files.log from hline.files.1]
      exact hspells noted
    cases modified with
    | true =>
      obtain ⟨hsizelog, hsizenum⟩ := @World.webFsize_files env w''.world (.handle w'.world.files.opened)
      refine ⟨.page w'.world.files.opened true, ⟨?_, rfl, rfl, fun n hn => ?_⟩, hnew true, .inr ⟨_, _, rfl⟩⟩
      · change fileUse.Spells _ (FileEvent.ofConn c.sid (World.webFsize env w''.world _).1.files.log)
        rw [hsizelog]
        exact hspells' true
      · exact (hless n hn).trans_eq hsizenum.symm
    | false =>
      have hhandle : w''.fileHandle = w'.fileHandle := hline.fileHandle
      refine ⟨.page w'.world.files.opened false, ⟨hspells' false, rfl, ?_, hless⟩, hnew false, .inr ⟨_, _, rfl⟩⟩
      change w''.fileHandle.number = none
      rw [hhandle]
      exact hw.noted

theorem authOnRequestReceived (h : Held c.sid w (.idle [])) :
    ∃ t, Held c.sid (authOnRequestReceived env c w) t ∧ Hold.Opens w.world.files.opened (.idle []) t ∧
      (t = .idle [] ∨ ∃ n noted, t = .page n noted) := by
  have hnone : Hold.Opens w.world.files.opened (.idle []) (.idle []) := fun n hn => .inl hn
  unfold StraightHttpd.authOnRequestReceived
  split
  · exact ⟨_, h.still (.same rfl), hnone, .inl rfl⟩
  split
  · exact ⟨_, h.still (.same rfl), hnone, .inl rfl⟩
  split
  · have hcheck : Still w (authCheck env c w).1 := by
      simp only [authCheck]
      split
      · split_ifs
        · split <;> exact .same rfl
        · exact .refl w
      · exact .refl w
    generalize authCheck env c w = r at hcheck ⊢
    obtain ⟨w', success⟩ := r
    have hclear : Held c.sid (clearLogin w') (.idle []) :=
      (h.still hcheck).text rfl ⟨rfl, rfl⟩ ⟨_, rfl⟩ rfl
    simp only
    split
    · exact ⟨_, hclear.still (.same rfl), hnone, .inl rfl⟩
    · exact ⟨_, hclear.still (.same rfl), hnone, .inl rfl⟩
  · exact h.webRequestReceived

theorem authOnPostData (h : Held sid w (.idle [])) (buffer : Bytes) (size : ℤ) :
    Held sid (authOnPostData w buffer size).1 (.idle []) := by
  simp only [StraightHttpd.authOnPostData]
  split_ifs
  · exact h.text rfl ⟨rfl, rfl⟩ ⟨_, rfl⟩ rfl
  · exact h.text rfl ⟨rfl, rfl⟩ ⟨_, rfl⟩ rfl
  · exact h

/-- A context set up anew, when nothing is open. -/
theorem setUp (h : Held sid w (.idle [])) {x : SsiContext} (hx : x.fp = .null) : Held sid (w.setSsi x) (.idle []) := by
  refine ⟨h.spells, ?_, h.noted, h.issued⟩
  change x.fp.number = none
  rw [hx]
  rfl

/-- The listing is opened to see whether it can be, and closed. -/
theorem filesOnRequestReceived (h : Held c.sid w (.idle [])) :
    Held c.sid (filesOnRequestReceived env c w) (.idle []) := by
  have hw : Held c.sid ((w.setSsi SsiContext.zero).setFilter (listFilter (queryPath c))) (.idle []) := by
    have hfilter (w : Work) (filter : Bytes) : Still w (w.setFilter filter) := by
      unfold setFilter
      split_ifs <;> exact .same rfl
    exact (h.setUp rfl).still (hfilter _ _)
  simp only [StraightHttpd.filesOnRequestReceived]
  generalize (w.setSsi SsiContext.zero).setFilter (listFilter (queryPath c)) = w' at hw ⊢
  have hdir := @World.webFirstdir_cases env c.sid w'.world w'.responsePath
  generalize w'.world.webFirstdir env c.sid w'.responsePath = r at hdir ⊢
  obtain ⟨world, fp, entry⟩ := r
  rcases hdir with ⟨hfp, hnum, hlog⟩ | ⟨⟨e, hfp⟩, hnum, hlog⟩
  · obtain ⟨rfl, -⟩ := Prod.mk.inj hfp
    have hspells := spells_event hw.spells hlog rfl .folderAbsent
    exact ⟨hspells, hw.fp, hw.noted, fun n hn => by cases hn⟩
  · obtain ⟨rfl, -⟩ := Prod.mk.inj hfp
    have hspells := spells_event hw.spells hlog rfl (.folderOpened List.not_mem_nil)
    exact ⟨spells_event hspells rfl rfl .folderClosed, hw.fp, hw.noted, fun n hn => by cases hn⟩

theorem uploadOnHeaderReceived (h : Held c.sid w (.idle [])) (line : Bytes) :
    Held c.sid (uploadOnHeaderReceived c w line).1 (.idle []) := by
  have hpath (path : Bytes) (w' : Work)
      (hw' : (w'.world.files, w'.fileHandle) = (w.world.files, w.fileHandle)) :
      Held c.sid { w' with
        appContext := .raw (sprintfAt w.appContext.asText 0 path)
        world := w'.world.makeDeepPath c.sid path } (.idle []) := by
    obtain ⟨hfiles, hhandle⟩ := Prod.mk.inj hw'
    have hspells : fileUse.Spells (.idle []) (FileEvent.ofConn c.sid w'.world.files.log) := by
      rw [hfiles]
      exact h.spells
    refine ⟨spells_event hspells rfl rfl (.aside trivial), number_pointer _ 4, ?_, fun n hn => by cases hn⟩
    rw [hhandle]
    exact h.noted
  simp only [StraightHttpd.uploadOnHeaderReceived]
  split
  · split
    · exact hpath _ (faulted _) rfl
    · exact hpath _ w rfl
  · exact h

/-- `Upload_Start` opens the file, or not. -/
theorem uploadOnHeadersReceived (h : Held c.sid w (.idle [])) :
    ∃ t, Held c.sid (uploadOnHeadersReceived env c w) t ∧ Hold.Opens w.world.files.opened (.idle []) t ∧
      (t = .idle [] ∨ ∃ n, t = .upload n) := by
  have hnone : Hold.Opens w.world.files.opened (.idle []) (.idle []) := fun n hn => .inl hn
  unfold StraightHttpd.uploadOnHeadersReceived
  split
  · exact ⟨_, h.still (.same rfl), hnone, .inl rfl⟩
  · have hopen := @World.webFopen_cases env c.sid w.world w.appContext.asText (bytes "wb")
    generalize w.world.webFopen env c.sid w.appContext.asText (bytes "wb") = r at hopen ⊢
    obtain ⟨world, fp⟩ := r
    rcases hopen with ⟨hfp, hnum, hlog⟩ | ⟨hfp, hnum, hlog⟩
    · obtain rfl : fp = .null := hfp
      have hspells := spells_event h.spells hlog rfl (.aside trivial)
      exact ⟨_, ⟨hspells, h.fp, rfl, fun n hn => by cases hn⟩, hnone, .inl rfl⟩
    · obtain rfl : fp = .handle w.world.files.opened := hfp
      have hspells := spells_event h.spells hlog rfl .uploadStarted
      refine ⟨_, ⟨hspells, h.fp, rfl, fun n hn => ?_⟩, fun n hn => ?_, .inr ⟨_, rfl⟩⟩
      · rw [List.mem_singleton.mp hn]
        exact hnum.ge
      · rw [List.mem_singleton.mp hn]
        exact .inr le_rfl
  · exact ⟨_, h, hnone, .inl rfl⟩

/-- What arrives is written to the file that is open for it. -/
theorem uploadOnContentReceived (h : Held c.sid w t) (ht : t = .idle [] ∨ ∃ n, t = .upload n) (buffer : Bytes)
    (size : ℤ) : Held c.sid (uploadOnContentReceived env c w buffer size).1 t := by
  have hwrite (data : Bytes) : Held c.sid { w with world := (w.world.webFwrite env c.sid w.fileHandle data).1 } t := by
    have hnoted := h.noted
    cases hfile : w.fileHandle with
    | handle n =>
      rw [hfile] at hnoted
      rcases ht with rfl | ⟨m, rfl⟩
      · cases hnoted
      · obtain rfl := Option.some.inj hnoted
        exact ⟨spells_event h.spells rfl rfl .written, h.fp, rfl, h.issued⟩
    | null => exact hfile ▸ h.still (.same (by rw [hfile]; rfl))
    | wild v => exact hfile ▸ h.still (.same (by rw [hfile]; rfl))
  simp only [StraightHttpd.uploadOnContentReceived]
  split
  · split
    · exact h.still (.same rfl)
    · split
      · exact (hwrite _).still (.same rfl)
      · exact hwrite _
  · exact h

/-- `Upload_AllReceived` closes the file and keeps the note of it. -/
theorem uploadAllReceived (h : Held c.sid w t) (ht : t = .idle [] ∨ ∃ n, t = .upload n) :
    ∃ t', Held c.sid (uploadAllReceived c w) t' ∧ (t' = .idle [] ∨ ∃ n, t = .upload n ∧ t' = .stale n) := by
  have hnoted := h.noted
  rcases ht with rfl | ⟨n, rfl⟩
  · have hspells := spells_event (e := .uploaded c.sid w.fileHandle) h.spells rfl rfl (.aside hnoted)
    obtain ⟨hlog, hnum⟩ := @World.webFclose_files c.sid (w.logFile (.uploaded c.sid w.fileHandle)).world w.fileHandle
    exact ⟨_, ⟨spells_event hspells hlog rfl (.aside hnoted), h.fp, hnoted, fun m hm => by cases hm⟩, .inl rfl⟩
  · have hfile := number_eq_some.mp hnoted
    have hspells := spells_event (e := .uploaded c.sid (.handle n)) h.spells rfl rfl .uploaded
    obtain ⟨hlog, hnum⟩ := @World.webFclose_files c.sid (w.logFile (.uploaded c.sid w.fileHandle)).world w.fileHandle
    refine ⟨.stale n, ⟨spells_event hspells (hlog.trans ?_) rfl .fileClosed, h.fp, hnoted, fun m hm => by cases hm⟩,
      .inr ⟨n, rfl, rfl⟩⟩
    rw [hfile]
    rfl

/-! ### Listings -/

/-- `WEB_closedir` of the file in the context, which is forgotten. -/
theorem closedir (h : Held sid w t) (ht : t.Listing) (x : SsiContext) :
    ∃ t', Held sid ({ w with world := w.world.webClosedir sid w.ssiCtx.fp }.setSsi { x with fp := .null }) t' ∧
      t'.Listing ∧ Hold.Opens w.world.files.opened t t' := by
  have hfp := h.fp
  have hsame (left : List ℕ) : Hold.Opens w.world.files.opened (.idle left) (.idle left) := fun n hn => .inl hn
  obtain ⟨hnum, hlog⟩ := @World.webClosedir_cases sid w.world w.ssiCtx.fp
  cases t with
  | idle left =>
    have hspells : fileUse.Spells (.idle left)
        (FileEvent.ofConn sid (w.world.webClosedir sid w.ssiCtx.fp).files.log) := by
      rcases hlog with ⟨-, hlog⟩ | hlog
      · rw [hlog]
        exact h.spells
      · exact spells_event h.spells hlog rfl (.aside hfp)
    exact ⟨.idle left, ⟨hspells, rfl, h.noted, fun n hn => (h.issued n hn).trans_eq hnum.symm⟩, trivial, hsame left⟩
  | folder g left =>
    have hg := number_eq_some.mp hfp
    rcases hlog with ⟨hnull, -⟩ | hlog
    · rw [hg] at hnull
      cases hnull
    · refine ⟨.idle left, ⟨spells_event h.spells hlog rfl ?_, rfl, h.noted, fun n hn => ?_⟩, trivial, fun n hn => ?_⟩
      · rw [hg]
        exact .folderClosed
      · exact (h.issued n (List.mem_cons_of_mem _ hn)).trans_eq hnum.symm
      · exact .inl (List.mem_cons_of_mem _ hn)
  | _ => exact ht.elim

/-- `WEB_firstdir`, whose handle goes to the context. A handle that is there already gets lost. -/
theorem firstdir (h : Held c.sid w t) (ht : t.Listing) (x : SsiContext) (filter : Bytes) :
    ∃ t', Held c.sid ({ w with world := (w.world.webFirstdir env c.sid filter).1 }.setSsi
        { x with fp := (w.world.webFirstdir env c.sid filter).2.1 }) t' ∧
      t'.Listing ∧ Hold.Opens w.world.files.opened t t' := by
  have hfresh (l : List ℕ) (hl : ∀ n ∈ l, n < w.world.files.opened) : w.world.files.opened ∉ l :=
    fun hn => lt_irrefl _ (hl _ hn)
  rcases @World.webFirstdir_cases env c.sid w.world filter with ⟨hfp, hnum, hlog⟩ | ⟨⟨e, hfp⟩, hnum, hlog⟩
  · -- no folder
    have hissued (l : List ℕ) (hl : l = t.out) : ∀ n ∈ l,
        n < (w.world.webFirstdir env c.sid filter).1.files.opened := by
      intro n hn
      rw [hnum]
      exact h.issued n (hl ▸ hn)
    rw [hfp]
    cases t with
    | idle left =>
      exact ⟨.idle left, ⟨spells_event h.spells hlog rfl .folderAbsent, rfl, h.noted, hissued left rfl⟩, trivial,
        fun n hn => .inl hn⟩
    | folder g left =>
      exact ⟨.idle (g :: left), ⟨spells_event h.spells hlog rfl .folderLost, rfl, h.noted, hissued _ rfl⟩,
        trivial, fun n hn => .inl hn⟩
    | _ => exact ht.elim
  · have hissued (l : List ℕ) (hl : l = t.out) : ∀ n ∈ w.world.files.opened :: l,
        n < (w.world.webFirstdir env c.sid filter).1.files.opened := by
      intro n hn
      rw [hnum]
      rcases List.mem_cons.mp hn with rfl | hn
      · exact Nat.lt_succ_self _
      · exact (h.issued n (hl ▸ hn)).trans (Nat.lt_succ_self _)
    have hopens (l : List ℕ) (hl : l = t.out) :
        ∀ n ∈ w.world.files.opened :: l, n ∈ t.out ∨ w.world.files.opened ≤ n := by
      intro n hn
      rcases List.mem_cons.mp hn with rfl | hn
      · exact .inr le_rfl
      · exact .inl (hl ▸ hn)
    rw [hfp]
    cases t with
    | idle left =>
      exact ⟨.folder _ left, ⟨spells_event h.spells hlog rfl (.folderOpened (hfresh _ h.issued)), rfl, h.noted,
        hissued left rfl⟩, trivial, hopens left rfl⟩
    | folder g left =>
      exact ⟨.folder _ (g :: left), ⟨spells_event h.spells hlog rfl (.folderReopened (hfresh _ h.issued)), rfl,
        h.noted, hissued _ rfl⟩, trivial, hopens _ rfl⟩
    | _ => exact ht.elim

theorem nextEntry (h : Held c.sid w t) (ht : t.Listing) :
    ∃ t', Held c.sid (nextEntry env c w).1 t' ∧ t'.Listing ∧ Hold.Opens w.world.files.opened t t' := by
  unfold StraightHttpd.nextEntry
  simp only
  split
  · have hstage : Held c.sid { w with dwOperStage := 1 } t := h.still (.same rfl)
    obtain ⟨t', ht', hlisting, hopens⟩ := @firstdir env c _ t hstage ht w.ssiCtx w.responsePath
    refine ⟨t', ?_, hlisting, hopens⟩
    generalize w.world.webFirstdir env c.sid w.responsePath = r at ht' ⊢
    obtain ⟨world, fp, entry⟩ := r
    cases entry with
    | some e => exact ht'
    | none => exact ht'.still (.same rfl)
  · have hread := @World.webReaddir_files env w.world w.ssiCtx.fp
    generalize w.world.webReaddir env w.ssiCtx.fp = r at hread ⊢
    obtain ⟨world, entry⟩ := r
    have hw : Held c.sid { w with dwOperStage := nextStage w.dwOperStage, world := world } t :=
      h.still ⟨hread, rfl, rfl⟩
    cases entry with
    | some e => exact ⟨t, hw, ht, fun n hn => .inl hn⟩
    | none =>
      obtain ⟨t', ht', hlisting, hopens⟩ := hw.closedir ht w.ssiCtx
      refine ⟨t', ht'.still (.same rfl), hlisting, fun n hn => ?_⟩
      exact (hopens n hn).imp_right hread.2.ge.trans

theorem filesLoop (maxSize : ℤ) (n : ℕ) (out : Bytes) (h : Held c.sid w t) (ht : t.Listing) :
    ∃ t', Held c.sid (filesLoop env c maxSize n w out).1 t' ∧ t'.Listing ∧ Hold.Opens w.world.files.opened t t' := by
  induction n generalizing w t out with
  | zero => exact ⟨t, h.still (.same rfl), ht, fun n hn => .inl hn⟩
  | succ n ih =>
    simp only [StraightHttpd.filesLoop]
    split
    · obtain ⟨t', ht', hlisting, hopens⟩ := @nextEntry env c w t h ht
      have hle := (@nextEntry_kept .nothing env c w).world.opened
      have hrest {t'' : Hold} (hmore : Hold.Opens (StraightHttpd.nextEntry env c w).1.world.files.opened t' t'') :
          Hold.Opens w.world.files.opened t t'' := by
        intro m hm
        rcases hmore m hm with hm | hm
        · exact hopens m hm
        · exact .inr (hle.trans hm)
      generalize StraightHttpd.nextEntry env c w = r at ht' hrest hopens ⊢
      obtain ⟨w', e | text⟩ := r
      · simp only
        split
        · obtain ⟨t'', ht'', hlisting'', hmore⟩ := ih out ht' hlisting
          exact ⟨t'', ht'', hlisting'', hrest hmore⟩
        · have htotal : Held c.sid { w' with dwTotal := w'.dwTotal + 1 } t' := ht'.still (.same rfl)
          obtain ⟨t'', ht'', hlisting'', hmore⟩ := ih _ htotal hlisting
          exact ⟨t'', ht'', hlisting'', hrest hmore⟩
      · exact ⟨t', ht', hlisting, hopens⟩
    · exact ⟨t, h, ht, fun n hn => .inl hn⟩

theorem filesReadOneFileInfo (maxSize : ℤ) (h : Held c.sid w t) (ht : t.Listing) :
    ∃ t', Held c.sid (filesReadOneFileInfo env c w maxSize).1 t' ∧ t'.Listing ∧
      Hold.Opens w.world.files.opened t t' := by
  have hsame : Hold.Opens w.world.files.opened t t := fun n hn => .inl hn
  unfold StraightHttpd.filesReadOneFileInfo
  simp only
  split
  · exact ⟨t, h, ht, hsame⟩
  split
  · split
    · exact ⟨t, h, ht, hsame⟩
    · exact h.closedir ht w.ssiCtx
  · exact h.filesLoop maxSize _ [] ht

/-! ### Closing -/

theorem clearFp_number (a : AppContext) : a.clearFp.asSsi.fp.number = none := by
  cases a with
  | raw m => exact number_pointer _ 4
  | ssi x => rfl

/-- `WEB_AllSent` closes the page; `_fileHandle` may note it still. -/
theorem webAllSent (h : Held c.sid w t) (ht : t.Resting) (hf : ∀ g left, t ≠ .folder g left) :
    ∃ t', Held c.sid (webAllSent c w) t' ∧
      (t' = t ∨ ∃ n noted, t = .page n noted ∧ t' = if noted then .stale n else .idle []) := by
  unfold StraightHttpd.webAllSent closeCtxFile
  have hfp := h.fp
  have hctx : (w.logFile (.allSent c.sid w.ssiCtx.fp w.fileHandle)).ssiCtx.fp = w.ssiCtx.fp := rfl
  rw [hctx]
  by_cases hnone : t.fp = none
  · rw [hnone] at hfp
    have hspells := spells_event (e := .allSent c.sid w.ssiCtx.fp w.fileHandle) h.spells rfl rfl (.aside hfp)
    refine ⟨t, ?_, .inl rfl⟩
    split_ifs
    · obtain ⟨hlog, hnum⟩ := @World.webFclose_files c.sid (w.logFile (.allSent c.sid w.ssiCtx.fp w.fileHandle)).world
        w.ssiCtx.fp
      refine ⟨spells_event hspells hlog rfl (.aside hfp), ?_, h.noted, fun n hn => ?_⟩
      · exact (clearFp_number _).trans hnone.symm
      · exact (h.issued n hn).trans_eq hnum.symm
    · exact ⟨hspells, h.fp, h.noted, h.issued⟩
  · cases t with
    | page n noted =>
      have hn := number_eq_some.mp hfp
      have hspells := spells_event (e := .allSent c.sid (.handle n) w.fileHandle) h.spells rfl rfl (.allSent h.noted)
      obtain ⟨hlog, hnum⟩ := @World.webFclose_files c.sid (w.logFile (.allSent c.sid w.ssiCtx.fp w.fileHandle)).world
        w.ssiCtx.fp
      refine ⟨if noted then .stale n else .idle [], ?_, .inr ⟨n, noted, rfl, rfl⟩⟩
      rw [if_pos (by rw [hn]; simp)]
      refine ⟨spells_event hspells (hlog.trans ?_) rfl .fileClosed, ?_, ?_, ?_⟩
      · rw [hn]
        rfl
      · cases noted <;> exact clearFp_number _
      · cases noted <;> exact h.noted
      · intro m hm
        cases noted <;> cases hm
    | folder g left => exact absurd rfl (hf g left)
    | _ => exact absurd rfl hnone

/-- A pointer that is closed if it is not NULL. -/
theorem closes {fp : Fp} (world : World) {handles out : List ℕ}
    (h : fileUse.Spells (.closing (fp.number.toList ++ handles) out) (FileEvent.ofConn sid world.files.log)) :
    ∃ out', fileUse.Spells (.closing handles out')
      (FileEvent.ofConn sid (if fp = .null then world else world.webFclose sid fp).files.log) := by
  cases fp with
  | null => exact ⟨out, h⟩
  | handle n => exact ⟨out.erase n, spells_event h rfl rfl .closed⟩
  | wild v => exact ⟨out, spells_event h rfl rfl (.aside rfl)⟩

end Work.Held

/-! ## What the engine does -/

/-- The request is complete and has a result. -/
def Sys.Replying (s : Sys) : Prop := s.core.state.Received ∧ s.app.result ≠ 0

/-- The mappings whose content is a page. -/
def Cgi.servesPages : Cgi → Bool
  | auth | form | webApp => true
  | _ => false

/-- Where a connection is that has these files. -/
def Hold.Place (s : Sys) : Hold → Prop
  | .idle left => left = [] ∨ s.Replying ∧ s.core.handler = some .files
  | .upload _ => s.core.state.PastHeaders ∧ s.core.handler = some .upload
  | .page _ _ => s.Replying ∧ ∃ m, s.core.handler = some m ∧ m.servesPages = true
  | .folder _ _ => s.Replying ∧ s.core.handler = some .files
  | .stale _ => s.Replying ∧ s.core.handler ≠ some .files
  | .done _ _ | .closing _ _ => False

/-- The files of a connection. -/
structure Sys.Holds (s : Sys) (t : Hold) : Prop where
  held : s.app.toWork.Held s.core.sid t
  place : t.Place s
  answering : s.core.state.Answering → s.app.result ≠ 0

/-- The files go on to be held, and those that are new were not given out before. -/
def Sys.Advances (s s' : Sys) (t : Hold) : Prop :=
  ∃ t', s'.Holds t' ∧ Hold.Opens s.app.world.files.opened t t'

theorem HttpState.Received.past {st : HttpState} (h : st.Received) : st.PastHeaders := by
  cases st <;> first | decide | exact absurd h (by decide)

namespace Sys

variable {env : Env} {s s' : Sys} {t : Hold}

namespace Holds

theorem goes (h : s.Holds t)
    (hown : (s'.core.sid, s'.core.handler) = (s.core.sid, s.core.handler))
    (hstill : Work.Still s.app.toWork s'.app.toWork)
    (hpast : s.core.state.PastHeaders → s'.core.state.PastHeaders) (hreply : s.Replying → s'.Replying)
    (hanswering : s'.core.state.Answering → s'.app.result ≠ 0) : s'.Holds t := by
  obtain ⟨hsid, hhandler⟩ := Prod.mk.inj hown
  refine ⟨?_, ?_, hanswering⟩
  · rw [hsid]
    exact h.held.still hstill
  · have hplace := h.place
    cases t with
    | idle left => exact hplace.imp_right fun hp => ⟨hreply hp.1, hhandler.trans hp.2⟩
    | upload n => exact ⟨hpast hplace.1, hhandler.trans hplace.2⟩
    | page n noted => exact ⟨hreply hplace.1, hplace.2.imp fun m hm => ⟨hhandler.trans hm.1, hm.2⟩⟩
    | folder n left => exact ⟨hreply hplace.1, hhandler.trans hplace.2⟩
    | stale n => exact ⟨hreply hplace.1, hhandler.trans_ne hplace.2⟩
    | done | closing => exact hplace

/-- A step of the response that leaves the files alone. -/
theorem replies (h : s.Holds t)
    (hown : (s'.core.sid, s'.core.handler) = (s.core.sid, s.core.handler))
    (hstill : Work.Still s.app.toWork s'.app.toWork) (hreply : s'.Replying) : s'.Holds t :=
  h.goes hown hstill (fun _ => hreply.1.past) (fun _ => hreply) fun _ => hreply.2

theorem advances (h : s'.Holds t) : s.Advances s' t := ⟨t, h, fun _ hn => .inl hn⟩

theorem resting (h : s.Holds t) : t.Resting := by
  have hplace := h.place
  cases t <;> trivial

/-- Before the headers are complete nothing is open. -/
theorem early (h : s.Holds t) (hs : ¬ s.core.state.PastHeaders) : t = .idle [] := by
  have hplace := h.place
  cases t with
  | idle left =>
    rcases hplace with rfl | hp
    · rfl
    · exact absurd hp.1.1.past hs
  | upload n => exact absurd hplace.1 hs
  | page n noted => exact absurd hplace.1.1.past hs
  | folder n left => exact absurd hplace.1.1.past hs
  | stale n => exact absurd hplace.1.1.past hs
  | done | closing => exact hplace.elim

/-- Before the request has its result there is at most the file of an upload. -/
theorem waiting (h : s.Holds t) (hs : ¬ s.Replying) :
    t = .idle [] ∨ s.core.handler = some .upload ∧ ∃ n, t = .upload n := by
  have hplace := h.place
  cases t with
  | idle left =>
    rcases hplace with rfl | hp
    · exact .inl rfl
    · exact absurd hp.1 hs
  | upload n => exact .inr ⟨hplace.2, n, rfl⟩
  | page n noted => exact absurd hplace.1 hs
  | folder n left => exact absurd hplace.1 hs
  | stale n => exact absurd hplace.1 hs
  | done | closing => exact hplace.elim

/-- A step before the headers are complete. -/
theorem begins (h : s.Holds t) (hs : ¬ s.core.state.PastHeaders)
    (hheld : s.app.toWork.Held s.core.sid (.idle []) → s'.app.toWork.Held s'.core.sid (.idle []))
    (hs' : ¬ s'.core.state.Answering) : s.Advances s' t := by
  obtain rfl := h.early hs
  exact ⟨.idle [], ⟨hheld h.held, .inl rfl, fun ha => absurd ha hs'⟩, fun n hn => .inl hn⟩

end Holds

theorem requestLine_held {line : Bytes} (hl : s.requestLine line = some s')
    (h : s.app.toWork.Held s.core.sid (.idle [])) : s'.app.toWork.Held s'.core.sid (.idle []) := by
  obtain ⟨method, m, q, rfl⟩ := requestLine_eq hl
  have htarget : (s.setTarget method m q).app.toWork.Held s.core.sid (.idle []) :=
    h.text rfl ⟨rfl, rfl⟩ ⟨_, rfl⟩ rfl
  unfold cgiSetCgiHandler
  split
  · exact htarget.still (.same rfl)
  · exact htarget

theorem headerLine_held (mem : Bytes) (n : ℕ) (h : s.app.toWork.Held s.core.sid (.idle [])) :
    (s.headerLine env mem n).app.toWork.Held s.core.sid (.idle []) := by
  unfold headerLine
  split_ifs
  · exact h
  · exact h
  · exact h
  · exact h
  · exact h
  · exact h.still (.same rfl)
  · exact h.still (.same rfl)
  · simp only [cgiHeaderReceived]
    split
    next f hf =>
      obtain ⟨m, -, hm⟩ := Option.bind_eq_some_iff.mp hf
      cases m <;> cases hm
      exact Work.Held.uploadOnHeaderReceived (c := (s.note (.line s.core.handler (mem.take n))).core) h _
    next => exact h

/-- The headers callback of an upload opens its file. -/
theorem cgiHeadersReceived_held (h : s.app.toWork.Held s.core.sid (.idle [])) :
    ∃ t, (s.cgiHeadersReceived env).app.toWork.Held s.core.sid t ∧
      Hold.Opens s.app.world.files.opened (.idle []) t ∧
      (t = .idle [] ∨ s.core.handler = some .upload ∧ ∃ n, t = .upload n) := by
  have hnone : Hold.Opens s.app.world.files.opened (.idle []) (.idle []) := fun n hn => .inl hn
  have hend := @cgiHeadersReceived_end env s
  generalize s.cgiHeadersReceived env = u at hend ⊢
  cases hend with
  | called m f hm hf _ _ =>
    cases m <;> cases hf
    · exact ⟨_, h.text rfl ⟨rfl, rfl⟩ ⟨_, rfl⟩ rfl, hnone, .inl rfl⟩
    · exact ⟨_, h.still (.same rfl), hnone, .inl rfl⟩
    · obtain ⟨t, ht, hopens, hcases⟩ := @Work.Held.uploadOnHeadersReceived env s.core _ h
      exact ⟨t, ht, hopens, hcases.imp_right fun hn => ⟨hm, hn⟩⟩
  | accepted => exact ⟨_, h, hnone, .inl rfl⟩
  | unauthorized => exact ⟨_, h.still (.same rfl), hnone, .inl rfl⟩
  | refused =>
    refine ⟨_, h.still ?_, hnone, .inl rfl⟩
    unfold cgiRefuse
    split_ifs <;> exact .same rfl

theorem afterHeaders_holds (hs : ¬ s.core.state.PastHeaders) (h : s.Holds t) :
    s.Advances (s.afterHeaders env) t := by
  obtain rfl := h.early hs
  have hbody : Work.Still s.app.toWork ((s.note (.headers s.gate)).authorize.expectBody env).app.toWork := by
    rw [expectBody_app]
    unfold authorize
    simp only
    split_ifs <;> exact .same rfl
  obtain ⟨tLastSent, hgate⟩ := (@atGate env s).core
  obtain ⟨tLastSent', called, hcore, -, -⟩ := @afterHeaders_core env s
  have happ := @afterHeaders_app env s
  have hopened := hbody.files.2
  have hheld := h.held.still hbody
  generalize (s.note (.headers s.gate)).authorize.expectBody env = u at hgate hheld happ hopened
  rw [show s.core.sid = u.core.sid from (congrArg Core.sid hgate).symm] at hheld
  obtain ⟨t', ht', hopens, hcases⟩ := @cgiHeadersReceived_held env u hheld
  rw [← happ, show u.core.sid = (s.afterHeaders env).core.sid by rw [hgate, hcore]] at ht'
  have hstate : (s.afterHeaders env).core.state =
      if (s.afterHeaders env).app.result < 0 then .sendingHeader else s.bodyState := by rw [hcore]
  refine ⟨t', ⟨ht', ?_, fun ha => ?_⟩, fun n hn => (hopens n hn).imp_right hopened.ge.trans⟩
  · rcases hcases with rfl | ⟨hupload, n, rfl⟩
    · exact .inl rfl
    · refine ⟨afterHeaders_pastHeaders s, ?_⟩
      rw [hcore]
      rw [hgate] at hupload
      exact hupload
  · rw [hstate] at ha
    by_cases hneg : (s.afterHeaders env).app.result < 0
    · exact hneg.ne
    · rw [if_neg hneg] at ha
      unfold bodyState at ha
      split_ifs at ha
      · exact absurd ha (by decide)
      · exact absurd ha (by decide)
      · exact absurd ha (by decide)

theorem cgiContentReceived_held (size : ℤ) (h : s.app.toWork.Held s.core.sid t)
    (ht : t = .idle [] ∨ s.core.handler = some .upload ∧ ∃ n, t = .upload n) :
    (s.cgiContentReceived env size).1.app.toWork.Held s.core.sid t := by
  have hend := @cgiContentReceived_end env s size
  generalize s.cgiContentReceived env size = r at hend ⊢
  cases hend with
  | called m f u a consumed hm hf hu he =>
    have ht' : t = .idle [] ∨ ∃ n, t = .upload n := ht.imp_right And.right
    have hnot (hne : m ≠ .upload) : t = .idle [] := by
      refine ht.resolve_right fun hupload => ?_
      rw [hm] at hupload
      exact hne (Option.some.inj hupload.1)
    have hsid : u.core.sid = s.core.sid := by
      rw [hu]
      rfl
    change a.toWork.Held s.core.sid t
    cases m <;> cases hf
    · obtain rfl := hnot (by decide)
      have ha : (authOnPostData s.app.toWork s.core.rx.httpRequestBuffer size).1 = a.toWork :=
        congrArg (fun r : App × ℤ => r.1.toWork) he
      rw [← ha]
      exact h.authOnPostData _ size
    · obtain rfl : (webOnFormReceived env u.core s.app s.core.rx.httpRequestBuffer size).1 = a := congrArg Prod.fst he
      refine h.still ?_
      simp only [webOnFormReceived]
      split_ifs <;> exact .same rfl
    · obtain ⟨rfl, -⟩ := Prod.mk.inj he
      rw [← hsid] at h ⊢
      exact h.uploadOnContentReceived ht' _ size
  | ignored => exact h

/-- Until the request is complete, the file of an upload stays open. -/
theorem receiveContent_holds {size : ℤ} (hs : s.core.state = .chunkReceiving ∨ s.core.state = .bodyReceiving)
    (h : s.Holds t) : s.Advances (s.receiveContent env size).1 t := by
  have hearly : ¬ s.core.state.Received := by rcases hs with hs | hs <;> rw [hs] <;> decide
  have hwaiting := h.waiting fun hr => hearly hr.1
  have hcall := @cgiContentReceived_held env s t size h.held hwaiting
  have hkeep (s' : Sys) (hheld : s'.app.toWork.Held s.core.sid t)
      (hown : (s'.core.sid, s'.core.handler) = (s.core.sid, s.core.handler)) (hpast : s'.core.state.PastHeaders)
      (hans : ¬ s'.core.state.Answering) : s.Advances s' t := by
    obtain ⟨hsid, hhandler⟩ := Prod.mk.inj hown
    refine ⟨t, ⟨hsid ▸ hheld, ?_, fun ha => absurd ha hans⟩, fun n hn => .inl hn⟩
    rcases hwaiting with rfl | ⟨hupload, n, rfl⟩
    · exact .inl rfl
    · exact ⟨hpast, hhandler.trans hupload⟩
  have hcore : (s.cgiContentReceived env size).1.core.sid = s.core.sid ∧
      (s.cgiContentReceived env size).1.core.handler = s.core.handler ∧
      (s.cgiContentReceived env size).1.core.state = s.core.state := by
    have hend := @cgiContentReceived_end env s size
    generalize s.cgiContentReceived env size = r at hend ⊢
    cases hend with
    | called m f u a consumed hm hf hu he =>
      rw [hu]
      exact ⟨rfl, rfl, rfl⟩
    | ignored => exact ⟨rfl, rfl, rfl⟩
  unfold receiveContent
  generalize s.cgiContentReceived env size = r at hcall hcore ⊢
  obtain ⟨u, consumed⟩ := r
  obtain ⟨hsid, hhandler, hstate⟩ := hcore
  simp only at hcall hsid hhandler hstate ⊢
  split_ifs
  · refine hkeep u hcall (Prod.ext hsid hhandler) ?_ ?_
    · rw [hstate]
      rcases hs with hs | hs <;> rw [hs] <;> decide
    · rw [hstate]
      rcases hs with hs | hs <;> rw [hs] <;> decide
  · obtain ⟨state, length, received, tLastSent, hcore, hend⟩ := @contentTaken_core env u consumed
    have happ : Work.Still u.app.toWork (u.contentTaken env consumed).app.toWork := by
      rw [contentTaken_app]
      exact .same rfl
    have hmoves : state = s.core.state ∨ state = .bodyDone ∨ state = .chunkLenReceiving := by
      rcases hend with ⟨-, he, -⟩ | ⟨-, -, he, -⟩ | ⟨-, -, he, -⟩
      · exact .inl (he.trans hstate)
      · rw [he]
        split_ifs
        · exact .inr (.inl rfl)
        · exact .inr (.inr rfl)
      · exact .inr (.inl he)
    have hplace : state.PastHeaders ∧ ¬ state.Answering := by
      rcases hmoves with rfl | rfl | rfl
      · rcases hs with hs | hs <;> rw [hs] <;> decide
      · decide
      · decide
    refine hkeep _ (hcall.still happ) ?_ ?_ ?_
    · rw [hcore]
      exact Prod.ext hsid hhandler
    · rw [hcore]
      exact hplace.1
    · rw [hcore]
      exact hplace.2

theorem requestDone_result (s : Sys) : (s.requestDone env).app.result ≠ 0 := by
  unfold requestDone
  simp only
  split_ifs with hr
  · exact (by decide : codeOk ≠ 0)
  · exact hr

/-- The callback of a complete request opens a page, or closes the file of an upload. -/
theorem requestDone_holds (hs : s.core.state = .bodyDone) (hr : s.app.result = 0) (h : s.Holds t) :
    s.Advances (s.requestDone env) t := by
  have hstate : (s.requestDone env).core.state = .bodyDone := (requestDone_state s).trans hs
  have hreplying : (s.requestDone env).Replying := ⟨by rw [hstate]; decide, requestDone_result s⟩
  have hcall : (s.requestDone env).core.sid = s.core.sid ∧ (s.requestDone env).core.handler = s.core.handler ∧
      Work.Still (s.cgiRequestReceived env).app.toWork (s.requestDone env).app.toWork := by
    have hcore : (s.cgiRequestReceived env).core.sid = s.core.sid ∧
        (s.cgiRequestReceived env).core.handler = s.core.handler := by
      have hend := @cgiRequestReceived_end env s
      generalize s.cgiRequestReceived env = u at hend ⊢
      cases hend with
      | called m f hm hf => exact ⟨rfl, rfl⟩
      | ignored => exact ⟨rfl, rfl⟩
    unfold requestDone
    simp only
    split_ifs
    · exact ⟨hcore.1, hcore.2, .same rfl⟩
    · exact ⟨hcore.1, hcore.2, .refl _⟩
  have hend := @cgiRequestReceived_end env s
  generalize s.requestDone env = v at hstate hreplying hcall ⊢
  generalize s.cgiRequestReceived env = u at hcall hend
  obtain ⟨hsid, hhandler, hstill⟩ := hcall
  -- what is held after the callback is held in the end
  have hdone (t' : Hold) (hheld : u.app.toWork.Held s.core.sid t') (hopens : Hold.Opens s.app.world.files.opened t t')
      (hplace : t'.Place v) : s.Advances v t := by
    refine ⟨t', ⟨?_, hplace, fun _ => hreplying.2⟩, hopens⟩
    rw [hsid]
    exact hheld.still hstill
  have hwaiting := h.waiting fun hrep => hrep.2 hr
  cases hend with
  | called m f hm hf =>
    have hnot (hne : m ≠ .upload) : t = .idle [] := by
      refine hwaiting.resolve_right fun hupload => ?_
      rw [hm] at hupload
      exact hne (Option.some.inj hupload.1)
    -- a page that is opened
    have hpage (hne : m ≠ .upload) (hserves : m.servesPages = true)
        (hopen : ∃ t', (f env s.core s.app).toWork.Held s.core.sid t' ∧
          Hold.Opens s.app.world.files.opened (.idle []) t' ∧ (t' = .idle [] ∨ ∃ n noted, t' = .page n noted)) :
        s.Advances v t := by
      obtain rfl := hnot hne
      obtain ⟨t', hheld, hopens, rfl | ⟨n, noted, rfl⟩⟩ := hopen
      · exact hdone _ hheld hopens (.inl rfl)
      · exact hdone _ hheld hopens ⟨hreplying, m, hhandler.trans hm, hserves⟩
    have hheld := h.held
    cases m <;> cases hf
    · refine hpage (by decide) rfl ?_
      rw [hnot (by decide)] at hheld
      exact hheld.authOnRequestReceived
    · refine hpage (by decide) rfl ?_
      rw [hnot (by decide)] at hheld
      obtain ⟨t', ht', hrest⟩ := @Work.Held.webRequestReceived env s.core _ hheld
      exact ⟨t', ht'.still (.same rfl), hrest⟩
    · obtain rfl := hnot (by decide)
      exact hdone _ (Work.Held.filesOnRequestReceived hheld) (fun n hn => .inl hn) (.inl rfl)
    · obtain ⟨t', ht', rfl | ⟨n, rfl, rfl⟩⟩ :=
        @Work.Held.uploadAllReceived s.core _ t hheld (hwaiting.imp_right And.right)
      · exact hdone _ ht' (fun n hn => by cases hn) (.inl rfl)
      · refine hdone _ ht' (fun m hm => by cases hm) ⟨hreplying, ?_⟩
        rw [hhandler, hm]
        decide
    · refine hpage (by decide) rfl ?_
      rw [hnot (by decide)] at hheld
      exact hheld.webRequestReceived
  | ignored =>
    refine hdone t h.held (fun n hn => .inl hn) ?_
    rcases hwaiting with rfl | ⟨hupload, n, rfl⟩
    · exact .inl rfl
    · exact ⟨hreplying.1.past, hhandler.trans hupload⟩

theorem sendOrEnd_holds (hs : s.Replying) (h : s.Holds t) :
    (s.sendOrEnd env).1.Holds t ∧ (s.sendOrEnd env).1.Replying := by
  have hend := @sendOrEnd_end env s
  generalize s.sendOrEnd env = r at hend ⊢
  cases hend with
  | sent u hu =>
    obtain ⟨_, _, _, _, _, _, -, rfl⟩ := hu
    exact ⟨h.replies rfl (.same rfl) hs, hs⟩
  | failed u hu =>
    have hreply : ((u.setResult (-500)).setState .requestEnd).Replying :=
      ⟨(by decide : HttpState.requestEnd.Received), (by decide : (-500 : ℤ) ≠ 0)⟩
    obtain ⟨_, _, _, _, _, _, -, rfl⟩ := hu
    exact ⟨h.replies rfl (.same rfl) hreply, hreply⟩

theorem prepareHeader_holds (hs : s.Replying) (h : s.Holds t) :
    (s.prepareHeader env).Holds t ∧ (s.prepareHeader env).Replying := by
  let c := { s.core with tLastSent := s.app.stampNow env, sendMaxBlock := maxSendBufSize }
  let a := { s.app with dwOperStage := 0, dwOperIndex := 0 }
  have hstage : Work.Still s.app.toWork a.toWork := .same rfl
  have hstill : Work.Still s.app.toWork (s.prepareHeader env).app.toWork :=
    hstage.trans (cgiSetResponseHeaders_still env c a (codeInfo a.result))
  have hresult : (s.prepareHeader env).app.result = s.app.result :=
    cgiSetResponseHeaders_result env c a (codeInfo a.result)
  have hreply : (s.prepareHeader env).Replying := ⟨hs.1, hresult.trans_ne hs.2⟩
  exact ⟨h.replies rfl hstill hreply, hreply⟩

theorem sendHeader_holds (hs : s.Replying) (h : s.Holds t) : (s.sendHeader env).1.Holds t := by
  obtain ⟨hprepared, hreply⟩ := @prepareHeader_holds env s t hs h
  obtain ⟨hsent, hreply⟩ := @sendOrEnd_holds env _ t hreply hprepared
  unfold sendHeader
  generalize (s.prepareHeader env).sendOrEnd env = r at hsent hreply ⊢
  obtain ⟨u, b⟩ := r
  cases b with
  | false => exact hsent
  | true =>
    have hout : u.headerOut.core.state.Received := by
      simp only [headerOut, setState_state]
      split_ifs <;> decide
    exact hsent.replies rfl (.same rfl) ⟨hout, hreply.2⟩

theorem headerSent_holds (hs : s.core.state = .sendingHeader) (h : s.Holds t) : s.headerSent.Holds t := by
  have hr := h.answering (by rw [hs]; decide)
  unfold headerSent
  split_ifs
  · exact h.replies rfl (.same rfl) ⟨(by decide : HttpState.requestEnd.Received), hr⟩
  · exact h.replies rfl (.same rfl) ⟨(by decide : HttpState.sendingBody.Received), hr⟩

/-- Content of a listing opens and closes its folder; a page that is sent is closed. -/
theorem cgiLoadContentToSend_holds (caller : Caller) (hs : s.Replying) (h : s.Holds t) :
    s.Advances (s.cgiLoadContentToSend env caller).1 t ∧ (s.cgiLoadContentToSend env caller).1.Replying := by
  have hend := @cgiLoadContentToSend_end env s caller
  have hanswered := hend.answered
  have hcore : (s.cgiLoadContentToSend env caller).1.core.sid = s.core.sid ∧
      (s.cgiLoadContentToSend env caller).1.core.handler = s.core.handler ∧
      (s.cgiLoadContentToSend env caller).1.core.state = s.core.state := by
    generalize s.cgiLoadContentToSend env caller = r at hend ⊢
    cases hend <;> exact ⟨rfl, rfl, rfl⟩
  generalize s.cgiLoadContentToSend env caller = r at hend hanswered hcore ⊢
  obtain ⟨hsid, hhandler, hstate⟩ := hcore
  have hreply : r.1.Replying := by
    refine ⟨by rw [hstate]; exact hs.1, ?_⟩
    rcases hanswered with he | he
    · exact he.trans_ne hs.2
    · rw [show r.1.app.result = -500 from he]
      decide
  refine ⟨?_, hreply⟩
  have hsame (hstill : Work.Still s.app.toWork r.1.app.toWork) : s.Advances r.1 t :=
    (h.replies (Prod.ext hsid hhandler) hstill hreply).advances
  have hmoves (t' : Hold) (hheld : r.1.app.toWork.Held s.core.sid t') (hplace : t'.Place r.1)
      (hopens : Hold.Opens s.app.world.files.opened t t') : s.Advances r.1 t :=
    ⟨t', ⟨hsid ▸ hheld, hplace, fun _ => hreply.2⟩, hopens⟩
  have hlisting (hm : s.core.handler = some .files) : t.Listing := by
    have hplace := h.place
    cases t with
    | idle | folder => trivial
    | upload n => exact absurd (hm.symm.trans hplace.2) (by decide)
    | page n noted =>
      obtain ⟨m, hm', hserves⟩ := hplace.2
      obtain rfl := Option.some.inj (hm.symm.trans hm')
      cases hserves
    | stale n => exact absurd hm hplace.2
    | done | closing => exact hplace
  cases hend with
  | allSent m f hm hf =>
    have hpages : f = webAllSent ∧ m.servesPages = true := by
      cases m <;> cases hf <;> exact ⟨rfl, rfl⟩
    obtain ⟨rfl, hserves⟩ := hpages
    have hnot (g : ℕ) (left : List ℕ) : t ≠ .folder g left := by
      rintro rfl
      have hfiles := h.place.2
      rw [hm] at hfiles
      obtain rfl := Option.some.inj hfiles
      cases hserves
    obtain ⟨t', ht', rfl | ⟨n, noted, rfl, rfl⟩⟩ := h.held.webAllSent h.resting hnot
    · refine hmoves _ ht' ?_ fun n hn => .inl hn
      have hplace := h.place
      cases t' with
      | idle left => exact hplace.imp_right fun hp => ⟨hreply, hp.2⟩
      | upload n => exact hplace
      | page n noted => exact ⟨hreply, hplace.2⟩
      | folder n left => exact ⟨hreply, hplace.2⟩
      | stale n => exact ⟨hreply, hplace.2⟩
      | done | closing => exact hplace
    · refine hmoves _ ht' ?_ fun m hm => ?_
      · cases noted with
        | true =>
          refine ⟨hreply, ?_⟩
          rw [hhandler, hm]
          intro he
          rw [Option.some.inj he] at hserves
          cases hserves
        | false => exact .inl rfl
      · cases noted <;> cases hm
  | faulted => exact hsame (.same rfl)
  | ended => exact hsame (.refl _)
  | waiting => exact hsame (.refl _)
  | read m f a size hm hf hstage ha =>
    obtain ⟨maxSize, hblock⟩ := loadBlock_still (f env (s.note (.call .readContent m)).core) s.core.sendMaxBlock s.app
    rw [ha] at hblock
    by_cases hfiles : m = .files
    · obtain rfl := hfiles
      cases hf
      obtain ⟨t', ht', hlisting', hopens⟩ := @Work.Held.filesReadOneFileInfo env
        (s.note (.call .readContent .files)).core _ t maxSize h.held (hlisting hm)
      refine hmoves t' (ht'.still hblock) ?_ hopens
      cases t' with
      | idle left => exact .inr ⟨hreply, hm⟩
      | folder n left => exact ⟨hreply, hm⟩
      | upload | page | stale | done | closing => exact hlisting'.elim
    · refine hsame (Work.Still.trans ?_ hblock)
      cases m <;> cases hf
      · exact Work.ssdpSending_still _ maxSize
      · exact Work.webReadContent_still _ maxSize
      · exact Work.webReadContent_still _ maxSize
      · exact absurd rfl hfiles
      · exact Work.webReadContent_still _ maxSize

theorem sendBody_holds (caller : Caller) (hs : s.core.state = .sendingBody) (h : s.Holds t) :
    s.Advances (s.sendBody env caller) t := by
  have hreply : s.Replying := ⟨by rw [hs]; decide, h.answering (by rw [hs]; decide)⟩
  obtain ⟨⟨t', ht', hopens⟩, hload⟩ := @cgiLoadContentToSend_holds env s t caller hreply h
  refine ⟨t', ?_, hopens⟩
  unfold sendBody
  generalize s.cgiLoadContentToSend env caller = r at ht' hload ⊢
  obtain ⟨u, n⟩ := r
  simp only at ht' hload ⊢
  split_ifs
  · exact (sendOrEnd_holds hload ht').1
  · exact ht'.replies rfl (.same rfl) ⟨(by decide : HttpState.requestEnd.Received), hload.2⟩
  · exact ht'

/-! ## Releases -/

theorem zero_number : AppContext.zero.asSsi.fp.number = none :=
  number_pointer (List.replicate maxAppContextSize 0) 4

/-- A reset closes what `_fileHandle` notes, whatever `_fp` does. -/
theorem resetHttpContext_holds (h : s.Holds t) : (s.resetHttpContext env).Holds (.idle []) := by
  have hspells := spells_event (e := .resetting s.core.sid s.app.ssiCtx.fp s.app.fileHandle) h.held.spells rfl rfl
    (.resetting h.resting h.held.fp h.held.noted)
  rw [← h.held.noted, ← List.append_nil s.app.fileHandle.number.toList] at hspells
  obtain ⟨out, hclosed⟩ := Work.Held.closes
    (s.app.world.logFile (.resetting s.core.sid s.app.ssiCtx.fp s.app.fileHandle)) hspells
  have hreleased := spells_event (e := .released s.core.sid) hclosed rfl rfl .released
  have hidle : ¬ HttpState.idle.Answering := by decide
  exact ⟨⟨hreleased, zero_number, rfl, fun n hn => by cases hn⟩, .inl rfl, fun ha => absurd ha hidle⟩

/-- A free closes what `_fp` notes if the mapping has a callback for it, and what `_fileHandle` notes. -/
theorem freeHttpContext_holds (h : s.Holds t) : s.freeHttpContext.Holds (.idle []) := by
  let finish := (s.core.handler.bind fun m => m.mapping.onFinished).isSome
  let u := s.onWork fun w => w.logFile (.freeing s.core.sid finish w.ssiCtx.fp w.fileHandle)
  have hspells := spells_event (e := .freeing s.core.sid finish s.app.ssiCtx.fp s.app.fileHandle) h.held.spells rfl
    rfl (.freeing h.resting h.held.fp h.held.noted)
  have hfinish : ∃ out, fileUse.Spells (.closing t.noted.toList out)
      (FileEvent.ofConn s.core.sid u.cgiFinish.app.world.files.log) ∧ u.cgiFinish.app.fileHandle = s.app.fileHandle := by
    unfold cgiFinish
    split
    next f hf =>
      have hfinish : finish = true := Option.isSome_iff_exists.mpr ⟨f, hf⟩
      rw [if_pos hfinish, ← h.held.fp] at hspells
      obtain ⟨m, -, hm⟩ := Option.bind_eq_some_iff.mp hf
      have hwork : f = webFinished := by cases m <;> cases hm <;> rfl
      obtain ⟨out, hclosed⟩ := Work.Held.closes u.app.world hspells
      rw [hwork]
      refine ⟨out, ?_, ?_⟩
      · change fileUse.Spells _ (FileEvent.ofConn _ (closeCtxFile s.core u.app.toWork).world.files.log)
        rw [(Work.closeCtxFile_eq s.core u.app.toWork).1]
        exact hclosed
      · exact (Work.closeCtxFile_eq s.core u.app.toWork).2
    next hf =>
      have hfinish : ¬ finish = true := by
        rw [Bool.not_eq_true, Option.isSome_eq_false_iff, Option.isNone_iff_eq_none]
        exact hf
      rw [if_neg hfinish, List.nil_append] at hspells
      exact ⟨t.out, hspells, rfl⟩
  obtain ⟨out, hnoted, hhandle⟩ := hfinish
  rw [← h.held.noted, ← hhandle, ← List.append_nil u.cgiFinish.app.fileHandle.number.toList] at hnoted
  obtain ⟨out', hclosed⟩ := Work.Held.closes u.cgiFinish.app.world hnoted
  have hreleased := spells_event (e := .released s.core.sid) hclosed rfl rfl .released
  have hsid : u.cgiFinish.core.sid = s.core.sid := by
    rw [cgiFinish_core]
    rfl
  have hidle : ¬ HttpState.idle.Answering := by decide
  refine ⟨⟨?_, zero_number, rfl, fun n hn => by cases hn⟩, .inl rfl, fun ha => absurd ha hidle⟩
  change fileUse.Spells _ (FileEvent.ofConn u.cgiFinish.core.sid (.released u.cgiFinish.core.sid ::
    (if u.cgiFinish.app.fileHandle = .null then u.cgiFinish.app.world
      else u.cgiFinish.app.world.webFclose u.cgiFinish.core.sid u.cgiFinish.app.fileHandle).files.log))
  rw [hsid]
  exact hreleased

end Sys

open Sys in
/-- Whatever the engine does, the files follow the protocol. -/
theorem Micro.advances {env : Env} {s s' : Sys} {t : Hold} (h : Micro env s s') (ht : s.Holds t) :
    s.Advances s' t := by
  cases h with
  | background h =>
    obtain ⟨_, _, _, _, _, _, _, _, -, rfl⟩ := h.aside
    exact ⟨t, ht.goes rfl (.same rfl) id id ht.answering, fun _ hn => .inl hn⟩
  | begin hi _ =>
    exact ht.begins (by rw [hi]; decide) (fun h => h.still (.same rfl)) (by decide : ¬ HttpState.headerReceiving.Answering)
  | requestLine _ line hi _ hl =>
    refine ht.begins (by rw [hi]; decide) (requestLine_held hl) ?_
    rw [requestLine_state hl, hi]
    decide
  | headerLine mem n hi =>
    have hkept := @Sys.headerLine_kept env s mem n
    refine ht.begins (by rw [hi]; decide) (fun h => ?_) ?_
    · rw [hkept.sid]
      exact headerLine_held mem n h
    · rw [hkept.state, hi]
      decide
  | emptyLine hi =>
    exact ht.begins (by rw [hi]; decide) (fun h => h.still (.same rfl)) (by decide : ¬ HttpState.headerDone.Answering)
  | consumeHeader k hi => exact ⟨t, ht.goes rfl (.same rfl) id id ht.answering, fun _ hn => .inl hn⟩
  | abort hs =>
    have hfail : (-500 : ℤ) ≠ 0 := by decide
    exact ⟨t, ht.goes rfl (.same rfl) id (fun hr => absurd hr.1 hs) fun _ => hfail, fun _ hn => .inl hn⟩
  | afterHeaders hd _ => exact afterHeaders_holds (by rw [hd]; decide) ht
  | chunk hi hst _ =>
    have hline : s.receiveChunkLine.Holds t := by
      have hearly : ¬ s.Replying := fun hr => absurd hr.1 (by rw [hi]; decide)
      have hown : (s.receiveChunkLine.core.sid, s.receiveChunkLine.core.handler) = (s.core.sid, s.core.handler) := by
        unfold receiveChunkLine
        split <;> rfl
      refine ht.goes hown ?_ (fun _ => by rw [hst]; decide) (fun hr => absurd hr hearly) fun ha => ?_
      · rw [receiveChunkLine_app]
        exact .refl _
      · rw [hst] at ha
        exact absurd ha (by decide)
    have hcontent := @receiveContent_holds env _ _ s.core.rx.requestLength (.inl hst) hline
    rw [Sys.Advances, receiveChunkLine_app] at hcontent
    exact hcontent
  | content hi _ => exact receiveContent_holds hi ht
  | requestDone hd hr => exact requestDone_holds hd hr ht
  | flush hd hr => exact (sendOrEnd_holds ⟨hd, hr⟩ ht).1.advances
  | sendHeader hd hr _ => exact (sendHeader_holds ⟨hd, hr⟩ ht).advances
  | headerSent hi _ => exact (headerSent_holds hi ht).advances
  | sendBody caller hi _ => exact sendBody_holds caller hi ht
  | reset => exact ⟨_, resetHttpContext_holds ht, fun n hn => by cases hn⟩
  | close =>
    have hclosed : (s.closePcb env).Holds t := by
      unfold closePcb
      split
      · exact ht
      · exact ht.goes rfl (.same rfl) id id ht.answering
    exact ⟨_, freeHttpContext_holds hclosed, fun n hn => by cases hn⟩

theorem Steps.advances {env : Env} {s s' : Sys} {t : Hold} (h : Steps env s s') (ht : s.Holds t) :
    s.Advances s' t := by
  induction h with
  | refl => exact ht.advances
  | tail hsteps hstep ih =>
    obtain ⟨t', ht', hopens⟩ := ih
    obtain ⟨t'', ht'', hmore⟩ := hstep.advances ht'
    refine ⟨t'', ht'', fun n hn => ?_⟩
    rcases hmore n hn with hn | hn
    · exact hopens n hn
    · exact .inr ((Steps.isLocal hsteps).world.opened.trans hn)

namespace Server

variable {env : Env}

theorem Served.advances {s s' : Sys} {t : Hold} (h : Served env s s') (ht : s.Holds t) :
    s.Advances s' t ∧ Sys.Local .nothing s s' := by
  cases h with
  | steps h => exact ⟨h.advances ht, h.isLocal⟩
  | accept pcb ipRemote https =>
    have hfresh : { s with core := { s.core with
        rx := { s.core.rx with reqBufList := [], bufOffset := 0 }
        peerClosing := false } }.Holds t := ht.goes rfl (.same rfl) id id ht.answering
    have hreset := @Sys.resetHttpContext_holds env _ _ hfresh
    refine ⟨⟨.idle [], ?_, fun n hn => by cases hn⟩, Sys.onHttpAccept_local s pcb ipRemote https⟩
    exact hreset.goes rfl (.same rfl) id id hreset.answering
  | error => exact ⟨⟨_, Sys.freeHttpContext_holds ht, fun n hn => by cases hn⟩, Sys.freeHttpContext_local s⟩

/-- Every connection has its files, and no two have the same. -/
def Apart (s : Server) (t : Fin maxConnections → Hold) : Prop :=
  (∀ i, (s.conn i).Holds (t i)) ∧ ∀ i j, i ≠ j → (t i).out.Disjoint (t j).out

theorem Apart.globals {s : Server} {t : Fin maxConnections → Hold} (h : s.Apart t) {w : World}
    (hfiles : w.files = s.world.files) : Apart { s with world := w } t := by
  refine ⟨fun i => ?_, h.2⟩
  have hi := h.1 i
  refine hi.goes rfl (.same ?_) id id hi.answering
  exact congrArg (fun f => (f, (s.ctx i).app.appContext, (s.ctx i).app.fileHandle)) hfiles

/-- One connection goes on. -/
theorem Apart.put {s : Server} {t : Fin maxConnections → Hold} (hs : Connected env s) (h : s.Apart t)
    (j : Fin maxConnections) {u : Sys} (hu : (s.conn j).Advances u (t j)) (hlocal : Sys.Local .nothing (s.conn j) u) :
    ∃ t', (s.put j u).Apart t' := by
  obtain ⟨t', ht', hopens⟩ := hu
  have hothers (i : Fin maxConnections) (hij : i ≠ j) (n : ℕ) (hn : n ∈ (t i).out) : n ∉ t'.out := by
    intro hn'
    rcases hopens n hn' with hn' | hn'
    · exact h.2 i j hij hn hn'
    · exact absurd ((h.1 i).held.issued n hn) (not_lt.mpr hn')
  refine ⟨Function.update t j t', fun i => ?_, fun i k hik => ?_⟩
  · by_cases hij : i = j
    · subst hij
      have hconn : (s.put i u).conn i = u := by
        simp only [conn, Server.put, Function.update_self]
        rfl
      rw [hconn, Function.update_self]
      exact ht'
    · have hconn : (s.put j u).conn i = (s.conn i).withWorld u.app.world := by
        simp only [conn, Server.put, Function.update_of_ne hij]
        rfl
      rw [hconn, Function.update_of_ne hij]
      obtain ⟨⟨hspells, hfp, hnoted, hissued⟩, hplace, hans⟩ := h.1 i
      have hlog : FileEvent.ofConn (s.conn i).core.sid u.app.world.files.log =
          FileEvent.ofConn (s.conn i).core.sid (s.conn i).app.world.files.log := by
        refine hlocal.world.ofConn ?_
        rw [(hs i).sid_eq, (hs j).sid_eq]
        exact fun he => hij (Fin.ext he)
      refine ⟨⟨?_, hfp, hnoted, fun n hn => (hissued n hn).trans_le hlocal.world.opened⟩, ?_, hans⟩
      · change fileUse.Spells (t i) (FileEvent.ofConn (s.conn i).core.sid u.app.world.files.log)
        rw [hlog]
        exact hspells
      · cases ht : t i <;> rw [ht] at hplace <;> exact hplace
  · by_cases hij : i = j
    · subst hij
      rw [Function.update_self, Function.update_of_ne (Ne.symm hik)]
      exact fun n hn hn' => hothers k (Ne.symm hik) n hn' hn
    · rw [Function.update_of_ne hij]
      by_cases hkj : k = j
      · subst hkj
        rw [Function.update_self]
        exact fun n hn hn' => hothers i hij n hn hn'
      · rw [Function.update_of_ne hkj]
        exact h.2 i k hik

theorem Apart.fire {s : Server} {t : Fin maxConnections → Hold} (hs : Connected env s) (h : s.Apart t) (e : Event) :
    ∃ t', (s.fire env e).Apart t' := by
  -- an event is one of a connection, or touches the globals
  have hconn (i : Fin maxConnections) (he : s.Reaches i e) : ∃ t', (s.fire env e).Apart t' := by
    rcases fire_served hs he with hsame | ⟨u, hserved, hput⟩
    · rw [hsame]
      exact ⟨t, h⟩
    · obtain ⟨hadvances, hlocal⟩ := Served.advances hserved (h.1 i)
      rw [hput]
      exact h.put hs i hadvances hlocal
  cases e with
  | accept pcb ipRemote https =>
    cases hfind : Fin.find? fun j => decide ((s.ctx j).core.pcb = none) with
    | some i => exact hconn i hfind
    | none =>
      simp only [Server.fire, hfind]
      exact ⟨t, h⟩
  | receive i p => exact hconn i rfl
  | poll i => exact hconn i rfl
  | sent i len => exact hconn i rfl
  | error i => exact hconn i rfl
  | sessionCheck tick => exact ⟨t, h.globals rfl⟩
  | setMyIP addr => exact ⟨t, h.globals rfl⟩
  | setGateway addr => exact ⟨t, h.globals rfl⟩
  | setSubnet addr => exact ⟨t, h.globals rfl⟩
  | listenHttps on => exact ⟨t, h.globals rfl⟩

theorem reach_apart {s : Server} (h : (runs env).Reach s) : ∃ t, s.Apart t := by
  induction h with
  | init h0 =>
    subst h0
    refine ⟨fun _ => .idle [], fun i => ⟨⟨.init rfl, Sys.zero_number, rfl, fun n hn => by cases hn⟩, .inl rfl, ?_⟩, fun i j _ n hn => ?_⟩
    · intro ha
      exact absurd ha (by decide : ¬ HttpState.idle.Answering)
    · cases hn
  | @step s s' e hs hstep ih =>
    obtain ⟨-, rfl⟩ := hstep
    obtain ⟨t, ht⟩ := ih
    have hconnected : Connected env s := fun i => reach_conn hs i
    have hasked : Connected env { s with world := s.world.asked } := hconnected.globals rfl
    have hheld : Apart { s with world := s.world.asked } t := ht.globals rfl
    exact Apart.fire hasked hheld e

/-- Whatever happens, the use of files in the name of every connection follows the protocol. Between two
events its context notes what is open as the protocol says, a connection that has not received the headers of a
request has nothing open, and no two connections have the same file. -/
theorem files_followed (env : Env) {s : Server} (h : (runs env).Reach s) :
    ∃ t : Fin maxConnections → Hold, (∀ i,
        fileUse.Spells (t i) (FileEvent.ofConn (s.ctx i).core.sid s.world.files.log) ∧
        (s.ctx i).app.ssiCtx.fp.number = (t i).fp ∧ (s.ctx i).app.fileHandle.number = (t i).noted ∧
        (t i).Place (s.ctx i) ∧ (¬ (s.ctx i).core.state.PastHeaders → t i = .idle [])) ∧
      ∀ i j, i ≠ j → (t i).out.Disjoint (t j).out := by
  obtain ⟨t, hholds, hapart⟩ := reach_apart h
  refine ⟨t, fun i => ?_, hapart⟩
  have hi := hholds i
  refine ⟨hi.held.spells, hi.held.fp, hi.held.noted, ?_, hi.early⟩
  have hplace := hi.place
  cases ht : t i <;> rw [ht] at hplace <;> exact hplace

/-- After a request for the login page. -/
@[irreducible] def pageAsked : Server :=
  boot.play (Env.calm (bytes "login")) [.accept 0 1 false, .data 0 (bytes "GET /auth/login.html HTTP/1.1\r\n\r\n")]

theorem files_followed_page : ∃ t : Hold,
    fileUse.Spells t (FileEvent.ofConn (pageAsked.ctx 0).core.sid pageAsked.world.files.log) ∧
      t.fp = some 0 ∧ t.noted = some 0 := by
  have hreach : (runs (Env.calm (bytes "login"))).Reach pageAsked := by
    unfold pageAsked
    exact reach_boot _ (by decide +kernel)
  have hboth : (pageAsked.ctx 0).app.ssiCtx.fp.number = some 0 ∧ (pageAsked.ctx 0).app.fileHandle.number = some 0 := by
    decide +kernel
  obtain ⟨t, hfollowed, -⟩ := files_followed _ hreach
  obtain ⟨hspells, hfp, hnoted, -⟩ := hfollowed 0
  exact ⟨t 0, hspells, hfp.symm.trans hboth.1, hnoted.symm.trans hboth.2⟩

end Server

end StraightHttpd
