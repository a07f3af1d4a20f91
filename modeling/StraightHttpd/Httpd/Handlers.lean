import StraightHttpd.Httpd.HttpCgi

/-! # What every handler keeps

A callback works on its own connection: it does not change which methods are allowed and whether a
session is needed, and what it asks of the file system is asked in the name of its connection.
-/

set_option autoImplicit false

namespace StraightHttpd
open CMemory

/-- The options that the access rules look at. -/
def Options.access (o : Options) : Bool × Bool × Bool := (o.authRequired, o.getEnabled, o.postEnabled)

/-- The connection that asked. -/
def FileEvent.sid : FileEvent → ℕ
  | fopen sid _ _ _ | fclose sid _ | fwrite sid _ _ _ | firstdir sid _ _ | closedir sid _
  | makeDeepPath sid _ | allSent sid _ _ | uploaded sid _ | freeing sid _ _ _ | resetting sid _ _
  | released sid => sid

/-- Events that neither make a folder or a file nor write. -/
def FileEvent.Tame : FileEvent → Prop
  | fopen _ _ mode _ => mode ≠ bytes "wb"
  | fwrite _ _ _ _ | makeDeepPath _ _ => False
  | _ => True

/-- What a callback is known to leave alone, besides what every callback does: the settings and the
disk, and the sessions. -/
structure Spares where
  device : Bool
  sessions : Bool

def Spares.nothing : Spares := ⟨false, false⟩

/-! ## The file system -/

/-- The log grew by events of connection `sid`, and no handle number is used again. -/
structure World.Grown (F : Spares) (sid : ℕ) (w w' : World) : Prop where
  log : ∃ new, w'.files.log = new ++ w.files.log ∧
    ∀ e ∈ new, e.sid = sid ∧ (F.device = true → e.Tame)
  opened : w.files.opened ≤ w'.files.opened
  device : F.device = true → w'.device = w.device
  sessions : F.sessions = true → w'.sessions = w.sessions

namespace World

variable {F : Spares} {sid : ℕ} {env : Env}

theorem Grown.refl (w : World) : Grown F sid w w :=
  ⟨⟨[], rfl, nofun⟩, le_rfl, fun _ => rfl, fun _ => rfl⟩

theorem Grown.trans {u v w : World} (h : Grown F sid u v) (h' : Grown F sid v w) :
    Grown F sid u w := by
  obtain ⟨⟨new, hlog, hsid⟩, hle, hdevice, hsessions⟩ := h
  obtain ⟨⟨new', hlog', hsid'⟩, hle', hdevice', hsessions'⟩ := h'
  refine ⟨⟨new' ++ new, by rw [hlog', hlog, List.append_assoc], fun e he => ?_⟩, hle.trans hle',
    fun hF => (hdevice' hF).trans (hdevice hF), fun hF => (hsessions' hF).trans (hsessions hF)⟩
  exact (List.mem_append.mp he).elim (hsid' e) (hsid e)

/-- A step that leaves the log, the handle numbers, the settings and the sessions alone. -/
theorem Grown.same {w w' : World}
    (h : (w'.files.log, w'.files.opened, w'.device, w'.sessions) =
      (w.files.log, w.files.opened, w.device, w.sessions)) : Grown F sid w w' := by
  simp only [Prod.mk.injEq] at h
  obtain ⟨hlog, hopened, hdevice, hsessions⟩ := h
  exact ⟨⟨[], hlog, nofun⟩, hopened.ge, fun _ => hdevice, fun _ => hsessions⟩

/-- A step that logs one event. -/
theorem Grown.event {w w' : World} {e : FileEvent}
    (h : (w'.files.log, w'.device, w'.sessions) = (e :: w.files.log, w.device, w.sessions))
    (he : e.sid = sid) (htame : F.device = true → e.Tame)
    (hopened : w.files.opened ≤ w'.files.opened) : Grown F sid w w' := by
  simp only [Prod.mk.injEq] at h
  obtain ⟨hlog, hdevice, hsessions⟩ := h
  refine ⟨⟨[e], hlog, fun e' he' => ?_⟩, hopened, fun _ => hdevice, fun _ => hsessions⟩
  rw [List.mem_singleton.mp he']
  exact ⟨he, htame⟩

theorem logFile_grown (w : World) {e : FileEvent} (he : e.sid = sid)
    (htame : F.device = true → e.Tame) : Grown F sid w (w.logFile e) :=
  .event rfl he htame le_rfl

theorem webFopen_grown (w : World) (szFile mode : Bytes)
    (hmode : F.device = true → mode ≠ bytes "wb") :
    Grown F sid w (w.webFopen env sid szFile mode).1 := by
  simp only [webFopen]
  split_ifs
  · exact .event rfl rfl hmode (Nat.le_succ _)
  · exact .event rfl rfl hmode le_rfl

theorem webFread_grown (w : World) (f : Fp) (count : ℕ) : Grown F sid w (w.webFread env f count).1 := by
  unfold webFread
  cases f with
  | handle h =>
    simp only
    split
    · exact .same rfl
    · exact .same rfl
  | null => exact .same rfl
  | wild v => exact .same rfl

theorem webFseek_grown (w : World) (f : Fp) (offset : ℤ) : Grown F sid w (w.webFseek f offset) := by
  unfold webFseek
  cases f with
  | handle h =>
    simp only
    split_ifs
    · exact .refl w
    · exact .same rfl
  | null => exact .refl w
  | wild v => exact .same rfl

theorem webFsize_grown (w : World) (f : Fp) : Grown F sid w (w.webFsize env f).1 := by
  cases f <;> exact .same rfl

theorem webFwrite_grown (w : World) (hF : F.device = false) (f : Fp) (data : Bytes) :
    Grown F sid w (w.webFwrite env sid f data).1 := by
  cases f with
  | handle h => exact .event rfl rfl (fun ht => absurd (hF.symm.trans ht) (by decide)) le_rfl
  | null => exact .refl w
  | wild v => exact .same rfl

theorem webFclose_grown (w : World) (f : Fp) : Grown F sid w (w.webFclose sid f) := by
  cases f <;> exact .event rfl rfl (fun _ => trivial) le_rfl

theorem webFirstdir_grown (w : World) (filter : Bytes) :
    Grown F sid w (w.webFirstdir env sid filter).1 := by
  unfold webFirstdir
  split
  · exact .event rfl rfl (fun _ => trivial) (Nat.le_succ _)
  · exact .event rfl rfl (fun _ => trivial) le_rfl

theorem webReaddir_grown (w : World) (f : Fp) : Grown F sid w (w.webReaddir env f).1 := by
  cases f <;> exact .same rfl

theorem webClosedir_grown (w : World) (f : Fp) : Grown F sid w (w.webClosedir sid f) := by
  cases f with
  | handle h => exact .event rfl rfl (fun _ => trivial) le_rfl
  | null => exact .refl w
  | wild v => exact .event rfl rfl (fun _ => trivial) le_rfl

end World

/-! ## The shared callbacks -/

/-- What every callback keeps. -/
structure Work.Kept (F : Spares) (sid : ℕ) (w w' : Work) : Prop where
  access : w'.options.access = w.options.access
  world : World.Grown F sid w.world w'.world
  session : F.sessions = true → w'.session = w.session ∧ w'.token = w.token

namespace Work

variable {F : Spares} {sid : ℕ} {env : Env} {c : Core}

theorem Kept.refl (w : Work) : Kept F sid w w := ⟨rfl, .refl _, fun _ => ⟨rfl, rfl⟩⟩

theorem Kept.trans {u v w : Work} (h : Kept F sid u v) (h' : Kept F sid v w) : Kept F sid u w := by
  refine ⟨h'.access.trans h.access, h.world.trans h'.world, fun hF => ?_⟩
  obtain ⟨hsession, htoken⟩ := h.session hF
  obtain ⟨hsession', htoken'⟩ := h'.session hF
  exact ⟨hsession'.trans hsession, htoken'.trans htoken⟩

/-- A step that changes only the world of what is kept. -/
theorem Kept.ofWorld {w w' : Work} (hworld : World.Grown F sid w.world w'.world)
    (h : (w'.options.access, w'.session, w'.token) = (w.options.access, w.session, w.token)) :
    Kept F sid w w' := by
  simp only [Prod.mk.injEq] at h
  obtain ⟨haccess, hsession, htoken⟩ := h
  exact ⟨haccess, hworld, fun _ => ⟨hsession, htoken⟩⟩

/-- A step that leaves alone what is kept. -/
theorem Kept.same {w w' : Work}
    (hworld : (w'.world.files.log, w'.world.files.opened, w'.world.device, w'.world.sessions) =
      (w.world.files.log, w.world.files.opened, w.world.device, w.world.sessions))
    (h : (w'.options.access, w'.session, w'.token) = (w.options.access, w.session, w.token)) :
    Kept F sid w w' := .ofWorld (.same hworld) h

/-- A step that changes settings. -/
theorem Kept.settings (hF : F.device = false) {w w' : Work}
    (h : (w'.world.files, w'.world.sessions, w'.options.access, w'.session, w'.token) =
      (w.world.files, w.world.sessions, w.options.access, w.session, w.token)) : Kept F sid w w' := by
  simp only [Prod.mk.injEq] at h
  obtain ⟨hfiles, hsessions, haccess, hsession, htoken⟩ := h
  refine ⟨haccess, ⟨⟨[], congrArg Files.log hfiles, nofun⟩, (congrArg Files.opened hfiles).ge,
    fun ht => ?_, fun _ => hsessions⟩, fun _ => ⟨hsession, htoken⟩⟩
  rw [hF] at ht
  cases ht

/-- A step that changes sessions. -/
theorem Kept.sessions (hF : F.sessions = false) {w w' : Work}
    (h : (w'.world.files, w'.world.device, w'.options.access) =
      (w.world.files, w.world.device, w.options.access)) : Kept F sid w w' := by
  simp only [Prod.mk.injEq] at h
  obtain ⟨hfiles, hdevice, haccess⟩ := h
  refine ⟨haccess, ⟨⟨[], congrArg Files.log hfiles, nofun⟩, (congrArg Files.opened hfiles).ge,
    fun _ => hdevice, fun ht => ?_⟩, fun ht => ?_⟩
  · rw [hF] at ht
    cases ht
  · rw [hF] at ht
    cases ht

theorem logFile_kept (w : Work) {e : FileEvent} (he : e.sid = sid) (htame : F.device = true → e.Tame) :
    Kept F sid w (w.logFile e) := .ofWorld (w.world.logFile_grown he htame) rfl

theorem sniffGzip_kept (w : Work) (fp : Fp) : Kept F sid w (sniffGzip env w fp) := by
  have hread : World.Grown F sid w.world (w.world.webFread env fp 3).1 := w.world.webFread_grown fp 3
  unfold sniffGzip
  generalize w.world.webFread env fp 3 = r at hread ⊢
  obtain ⟨world, flag⟩ := r
  cases flag with
  | none => exact .ofWorld hread rfl
  | some flag =>
    refine .ofWorld (hread.trans (world.webFseek_grown fp 0)) ?_
    simp only
    split_ifs <;> rfl

theorem lastModifiedLine_kept (w : Work) : Kept F sid w (lastModifiedLine env c w).1 := by
  have htime : World.Grown F sid w.world (w.world.webFtime env w.responsePath).1 := .same rfl
  unfold lastModifiedLine
  generalize w.world.webFtime env w.responsePath = r at htime ⊢
  obtain ⟨world, tFile⟩ := r
  simp only
  split
  · exact .refl w
  split
  · exact .ofWorld htime rfl
  split
  · exact .ofWorld htime rfl
  · exact .ofWorld htime rfl

theorem pageOpened_kept (w : Work) (fp : Fp) : Kept F sid w (pageOpened env c w fp) := by
  have hline : Kept F sid w (lastModifiedLine env c (sniffGzip env w fp)).1 :=
    (sniffGzip_kept w fp).trans (lastModifiedLine_kept _)
  unfold pageOpened
  generalize lastModifiedLine env c (sniffGzip env w fp) = r at hline ⊢
  obtain ⟨w', line, modified⟩ := r
  cases modified with
  | true =>
    have hsize : World.Grown F sid w'.world (w'.world.webFsize env fp).1 := w'.world.webFsize_grown fp
    exact hline.trans (.ofWorld hsize rfl)
  | false => exact hline.trans (.same rfl rfl)

theorem webRequestReceived_kept (w : Work) : Kept F c.sid w (webRequestReceived env c w) := by
  have hpage : Kept F c.sid w (chunkSsi c (defaultPage w)) := by
    unfold chunkSsi defaultPage
    split_ifs <;> exact .same rfl rfl
  simp only [webRequestReceived]
  generalize chunkSsi c (defaultPage w) = w' at hpage ⊢
  have hopen : World.Grown F c.sid w'.world (w'.world.webFopen env c.sid w'.responsePath (bytes "rb")).1 :=
    w'.world.webFopen_grown _ _ fun _ => by decide
  generalize w'.world.webFopen env c.sid w'.responsePath (bytes "rb") = r at hopen ⊢
  obtain ⟨world, fp⟩ := r
  have hworld : Kept F c.sid w { w' with world := world } := hpage.trans (.ofWorld hopen rfl)
  cases fp with
  | null => exact hpage.trans (.ofWorld hopen rfl)
  | handle h => exact hworld.trans (pageOpened_kept _ _)
  | wild v => exact hworld.trans (pageOpened_kept _ _)

theorem webAppendHeaders_kept (a : App) (info : Bytes) :
    Kept F sid a.toWork (webAppendHeaders c a info).toWork := by
  simp only [webAppendHeaders]
  by_cases h : a.rangeTo > c.rangeFrom
  · simp only [if_pos h]
    exact .ofWorld (a.world.webFseek_grown _ _) rfl
  · simp only [if_neg h]
    exact .same rfl rfl

theorem readInto_kept (w : Work) (fp : Fp) (maxRead room : ℤ) :
    Kept F sid w (readInto env w fp maxRead room).1 := by
  have hread : World.Grown F sid w.world (w.world.webFread env fp (u32 maxRead)).1 :=
    w.world.webFread_grown _ _
  unfold readInto
  generalize w.world.webFread env fp (u32 maxRead) = r at hread ⊢
  obtain ⟨world, data⟩ := r
  cases data with
  | none => exact .ofWorld hread rfl
  | some data =>
    have hworld : Kept F sid w { w with world := world } := .ofWorld hread rfl
    simp only
    split_ifs
    · exact hworld.trans (.same rfl rfl)
    · exact hworld

theorem ssiLoop_kept {value : Bytes → Bytes} {maxSize : ℤ} (n : ℕ) (w : Work) (x : SsiContext)
    (out : Bytes) : Kept F sid w (ssiLoop env value maxSize n w x out).1 := by
  induction n generalizing w x out with
  | zero => exact .same rfl rfl
  | succ n ih =>
    simp only [ssiLoop]
    split_ifs
    · have hread (maxRead room : ℤ) : Kept F sid w (readInto env w x.fp maxRead room).1 :=
        readInto_kept w x.fp maxRead room
      specialize hread (min (w.dwTotal - w.dwOperIndex) ((cacheSize : ℤ) - x.cacheOffset))
        ((cacheSize : ℤ) - x.cacheOffset)
      generalize readInto env w x.fp _ _ = r at hread ⊢
      obtain ⟨w', data⟩ := r
      cases data with
      | none => exact hread.trans (.same rfl rfl)
      | some data =>
        have hindex : Kept F sid w' { w' with dwOperIndex := w'.dwOperIndex + data.length } :=
          .same rfl rfl
        simp only
        split
        · exact (hread.trans hindex).trans (ih _ _ _)
        · exact hread.trans (.same rfl rfl)
        · exact hread.trans (.same rfl rfl)
    · exact .refl w

theorem webReadContent_kept (w : Work) (maxSize : ℤ) :
    Kept F sid w (webReadContent env c w maxSize).1 := by
  simp only [webReadContent, readPage]
  split_ifs
  · exact .refl w
  · exact .same rfl rfl
  · exact .same rfl rfl
  · exact .same rfl rfl
  · have hread : Kept F sid w
        (readInto env w w.ssiCtx.fp (min (w.dwTotal - w.dwOperIndex) maxSize) maxSize).1 :=
      readInto_kept _ _ _ _
    generalize readInto env w w.ssiCtx.fp _ _ = r at hread ⊢
    obtain ⟨w', data⟩ := r
    cases data with
    | none => exact hread.trans (.same rfl rfl)
    | some data => exact hread.trans (.same rfl rfl)
  · generalize env.patience + (w.dwTotal - w.dwOperIndex).toNat + 1 = n
    have hloop : Kept F sid w (ssiLoop env (tagValue w.world.device) maxSize n w w.ssiCtx []).1 :=
      ssiLoop_kept n w w.ssiCtx []
    generalize ssiLoop env (tagValue w.world.device) maxSize n w w.ssiCtx [] = r at hloop ⊢
    obtain ⟨w', x, out⟩ := r
    cases out with
    | none => exact hloop.trans (.same rfl rfl)
    | some out => exact hloop.trans (.same rfl rfl)

theorem closeCtxFile_kept (w : Work) : Kept F c.sid w (closeCtxFile c w) := by
  unfold closeCtxFile
  split_ifs
  · exact .ofWorld (w.world.webFclose_grown _) rfl
  · exact .refl w

theorem webAllSent_kept (w : Work) : Kept F c.sid w (webAllSent c w) := by
  have hlog : Kept F c.sid w (w.logFile (.allSent c.sid w.ssiCtx.fp w.fileHandle)) :=
    w.logFile_kept rfl fun _ => trivial
  exact hlog.trans (closeCtxFile_kept _)

/-! ## The handlers -/

theorem authCheck_kept (hF : F.sessions = false) (w : Work) :
    Kept F sid w (authCheck env c w).1 := by
  simp only [authCheck]
  split
  · split_ifs
    · split
      · exact .sessions hF rfl
      · exact .sessions hF rfl
    · exact .refl w
  · exact .refl w

theorem authOnPostData_kept (w : Work) (buffer : Bytes) (size : ℤ) :
    Kept F sid w (authOnPostData w buffer size).1 := by
  simp only [authOnPostData]
  split_ifs <;> exact .same rfl rfl

theorem authOnRequestReceived_kept (hF : F.sessions = false) (w : Work) :
    Kept F c.sid w (authOnRequestReceived env c w) := by
  unfold authOnRequestReceived
  split
  · exact .same rfl rfl
  split
  · exact .sessions hF rfl
  split
  · have hcheck : Kept F c.sid w (authCheck env c w).1 := authCheck_kept hF w
    generalize authCheck env c w = r at hcheck ⊢
    obtain ⟨w', success⟩ := r
    have hclear : Kept F c.sid w (clearLogin w') := hcheck.trans (.same rfl rfl)
    simp only
    split
    · exact hclear.trans (.same rfl rfl)
    · exact hclear.trans (.same rfl rfl)
  · exact webRequestReceived_kept w

/-- What a complete request does to the sessions: nothing, a logout, or a login. -/
inductive SessionStep (c : Core) (w w' : Work) : Prop
  | same : w'.world.sessions = w.world.sessions → SessionStep c w w'
  | killed (i : Fin maxSessions) : w.session = some i →
      w'.world.sessions = sessionKill w.world.sessions i → SessionStep c w w'
  | created (i : Fin maxSessions) (session : Session) : w'.session = some i →
      ¬ (w.world.sessions i).Live → session.nLoginIP = c.ipRemote →
      w'.world.sessions = Function.update w.world.sessions i session → SessionStep c w w'

/-- A login makes a session for the address of the connection. -/
theorem SessionStep.login {w w' : Work} (h : SessionStep c w w') {i : Fin maxSessions}
    (hi : w'.session = some i) (hlive : (w'.world.sessions i).Live)
    (hfree : ¬ (w.world.sessions i).Live) : (w'.world.sessions i).nLoginIP = c.ipRemote := by
  cases h with
  | same h =>
    rw [h] at hlive
    exact absurd hlive hfree
  | killed j _ h =>
    rw [h] at hlive
    by_cases hij : i = j
    · subst hij
      exact absurd hlive (sessionKill_self _ _)
    · rw [sessionKill_of_ne hij] at hlive
      exact absurd hlive hfree
  | created j session hj _ hip h =>
    obtain rfl := Option.some.inj (hi.symm.trans hj)
    rw [h, Function.update_self]
    exact hip

/-- Of the live sessions only that of the request changes. -/
theorem SessionStep.touched {w w' : Work} (h : SessionStep c w w') {i : Fin maxSessions}
    (hlive : (w.world.sessions i).Live) (hne : w'.world.sessions i ≠ w.world.sessions i) :
    w.session = some i := by
  cases h with
  | same h => exact absurd (congrFun h i) hne
  | killed j hj h =>
    by_cases hij : i = j
    · rw [hij, hj]
    · rw [h, sessionKill_of_ne hij] at hne
      exact absurd rfl hne
  | created j session _ hfree _ h =>
    have hij : i ≠ j := fun he => hfree (he ▸ hlive)
    rw [h, Function.update_of_ne hij] at hne
    exact absurd rfl hne

theorem authCheck_sessions (w : Work) : SessionStep c w (authCheck env c w).1 := by
  simp only [authCheck, sessionCreate]
  split
  · split_ifs
    · split
      next hcreate =>
        split at hcreate
        · cases hcreate
        next j hj =>
          have hfree := of_decide_eq_true (Fin.eq_true_of_find?_eq_some hj)
          cases hcreate
          exact .created _ _ rfl (not_not.mpr hfree) rfl rfl
      · exact .same rfl
    · exact .same rfl
  · exact .same rfl

theorem authOnRequestReceived_sessions (w : Work) : SessionStep c w (authOnRequestReceived env c w) := by
  unfold authOnRequestReceived
  split
  · exact .same rfl
  split
  · cases hi : w.session with
    | none => exact .same rfl
    | some i => exact .killed i hi rfl
  split
  · have hcheck := @authCheck_sessions env c w
    generalize authCheck env c w = r at hcheck ⊢
    obtain ⟨w', success⟩ := r
    simp only
    split
    · cases hcheck with
      | same h => exact .same h
      | killed i hi h => exact .killed i hi h
      | created i session hi hfree hip h => exact .created i session hi hfree hip h
    · cases hcheck with
      | same h => exact .same h
      | killed i hi h => exact .killed i hi h
      | created i session hi hfree hip h => exact .created i session hi hfree hip h
  · exact .same ((webRequestReceived_kept (F := ⟨true, true⟩) w).world.sessions rfl)

theorem authSetResponseHeaders_kept (a : App) (info : Bytes) :
    Kept F sid a.toWork (authSetResponseHeaders c a info).toWork := by
  have happend (m : Bytes) :
      Kept F sid a.toWork (webAppendHeaders c { a with sendBuffer := m } info).toWork :=
    webAppendHeaders_kept { a with sendBuffer := m } info
  simp only [authSetResponseHeaders]
  split_ifs
  · exact happend _
  · exact happend _
  · exact happend _

theorem onDevice_kept (hF : F.device = false) (w : Work) (f : Device → Device) :
    Kept F sid w (w.onDevice f) := .settings hF rfl

theorem webOnFormReceived_kept (hF : F.device = false) (a : App) (buffer : Bytes) (size : ℤ) :
    Kept F sid a.toWork (webOnFormReceived env c a buffer size).1.toWork := by
  simp only [webOnFormReceived]
  split_ifs <;> exact .settings hF rfl

theorem formOnRequestReceived_kept (hF : F.device = false) (a : App) :
    Kept F c.sid a.toWork (formOnRequestReceived env c a).toWork :=
  (webRequestReceived_kept a.toWork).trans (onDevice_kept hF _ _)

theorem filesOnRequestReceived_kept (w : Work) : Kept F c.sid w (filesOnRequestReceived env c w) := by
  simp only [filesOnRequestReceived]
  have hfilter (filter : Bytes) : Kept F c.sid w ((w.setSsi SsiContext.zero).setFilter filter) := by
    unfold setFilter
    split_ifs <;> exact .same rfl rfl
  specialize hfilter (listFilter (queryPath c))
  generalize (w.setSsi SsiContext.zero).setFilter (listFilter (queryPath c)) = w' at hfilter ⊢
  have hdir : World.Grown F c.sid w'.world (w'.world.webFirstdir env c.sid w'.responsePath).1 :=
    w'.world.webFirstdir_grown _
  generalize w'.world.webFirstdir env c.sid w'.responsePath = r at hdir ⊢
  obtain ⟨world, fp, entry⟩ := r
  refine hfilter.trans (.ofWorld ?_ rfl)
  simp only
  split_ifs
  · exact hdir
  · exact hdir.trans (world.webClosedir_grown fp)

theorem nextEntry_kept (w : Work) : Kept F c.sid w (nextEntry env c w).1 := by
  unfold nextEntry
  simp only
  split
  · have hdir : World.Grown F c.sid w.world (w.world.webFirstdir env c.sid w.responsePath).1 :=
      w.world.webFirstdir_grown _
    generalize w.world.webFirstdir env c.sid w.responsePath = r at hdir ⊢
    obtain ⟨world, fp, entry⟩ := r
    cases entry <;> exact .ofWorld hdir rfl
  · have hdir : World.Grown F c.sid w.world (w.world.webReaddir env w.ssiCtx.fp).1 :=
      w.world.webReaddir_grown _
    generalize w.world.webReaddir env w.ssiCtx.fp = r at hdir ⊢
    obtain ⟨world, entry⟩ := r
    cases entry with
    | none => exact .ofWorld (hdir.trans (world.webClosedir_grown _)) rfl
    | some e => exact .ofWorld hdir rfl

theorem filesLoop_kept {maxSize : ℤ} (n : ℕ) (w : Work) (out : Bytes) :
    Kept F c.sid w (filesLoop env c maxSize n w out).1 := by
  induction n generalizing w out with
  | zero => exact .same rfl rfl
  | succ n ih =>
    simp only [filesLoop]
    split
    · have hentry : Kept F c.sid w (nextEntry env c w).1 := nextEntry_kept w
      generalize nextEntry env c w = r at hentry ⊢
      obtain ⟨w', e | text⟩ := r
      · have htotal : Kept F c.sid w' { w' with dwTotal := w'.dwTotal + 1 } := .same rfl rfl
        simp only
        split
        · exact hentry.trans (ih _ _)
        · exact (hentry.trans htotal).trans (ih _ _)
      · exact hentry
    · exact .refl w

theorem filesReadOneFileInfo_kept (w : Work) (maxSize : ℤ) :
    Kept F c.sid w (filesReadOneFileInfo env c w maxSize).1 := by
  unfold filesReadOneFileInfo
  simp only
  split
  · exact .refl w
  split
  · split
    · exact .refl w
    · exact .ofWorld (w.world.webClosedir_grown _) rfl
  · exact filesLoop_kept _ w []

/-- What is not spared need not be shown to be kept. -/
theorem spare (hF : F.device = false) {P : Prop} : F.device = true → P := fun ht => by
  rw [hF] at ht
  cases ht

theorem uploadOnHeaderReceived_kept (hF : F.device = false) (w : Work) (line : Bytes) :
    Kept F c.sid w (uploadOnHeaderReceived c w line).1 := by
  simp only [uploadOnHeaderReceived]
  split
  · split
    · exact .ofWorld (.event rfl rfl (spare hF) le_rfl) rfl
    · exact .ofWorld (.event rfl rfl (spare hF) le_rfl) rfl
  · exact .refl w

theorem uploadOnHeadersReceived_kept (hF : F.device = false) (w : Work) :
    Kept F c.sid w (uploadOnHeadersReceived env c w) := by
  unfold uploadOnHeadersReceived
  split
  · exact .same rfl rfl
  · have hopen : World.Grown F c.sid w.world
        (w.world.webFopen env c.sid w.appContext.asText (bytes "wb")).1 :=
      w.world.webFopen_grown _ _ (spare hF)
    generalize w.world.webFopen env c.sid w.appContext.asText (bytes "wb") = r at hopen ⊢
    obtain ⟨world, fp⟩ := r
    simp only
    split_ifs
    · exact .ofWorld hopen rfl
    · exact .ofWorld hopen rfl
  · exact .refl w

theorem uploadOnContentReceived_kept (hF : F.device = false) (w : Work) (buffer : Bytes) (size : ℤ) :
    Kept F c.sid w (uploadOnContentReceived env c w buffer size).1 := by
  simp only [uploadOnContentReceived]
  split
  · split
    · exact .same rfl rfl
    · have hwrite (data : Bytes) : World.Grown F c.sid w.world
          (w.world.webFwrite env c.sid w.fileHandle data).1 := w.world.webFwrite_grown hF _ _
      split
      · exact .ofWorld (hwrite _) rfl
      · exact .ofWorld (hwrite _) rfl
  · exact .refl w

theorem uploadAllReceived_log (w : Work) : (uploadAllReceived c w).world.files.log =
    [.fclose c.sid w.fileHandle, .uploaded c.sid w.fileHandle] ++ w.world.files.log := by
  show ((w.world.logFile (.uploaded c.sid w.fileHandle)).webFclose c.sid w.fileHandle).files.log = _
  cases w.fileHandle <;> rfl

theorem uploadAllReceived_kept (w : Work) : Kept F c.sid w (uploadAllReceived c w) := by
  have hlog : Kept F c.sid w (w.logFile (.uploaded c.sid w.fileHandle)) :=
    w.logFile_kept rfl fun _ => trivial
  exact hlog.trans (.ofWorld (World.webFclose_grown _ _) rfl)

theorem ssdpLoop_kept {maxSize : ℤ} (w : Work) (out : Bytes) (lines : List Bytes) :
    Kept F sid w (ssdpLoop maxSize w out lines).1 := by
  induction lines generalizing w out with
  | nil => exact .same rfl rfl
  | cons line rest ih =>
    have hstage : Kept F sid w { w with dwOperStage := nextStage w.dwOperStage } := .same rfl rfl
    unfold ssdpLoop
    split_ifs
    · exact .refl w
    · exact hstage.trans (ih _ _)

theorem ssdpSending_kept (w : Work) (maxSize : ℤ) : Kept F sid w (ssdpSending c w maxSize).1 := by
  unfold ssdpSending
  split_ifs
  · exact .refl w
  · exact ssdpLoop_kept w [] _
  · exact .refl w

end Work

/-! ## The table -/

namespace Cgi

variable {F : Spares} {env : Env} {c : Core}

open Work

/-- What the callbacks of a mapping leave alone. -/
def spares (m : Cgi) : Spares where
  device := m != .form && m != .upload
  sessions := m != .auth

section

variable {m : Cgi} (hd : F.device = true → m.spares.device = true)

include hd

theorem device_eq_false (hm : m.spares.device = false) : F.device = false :=
  Bool.eq_false_iff.mpr fun ht => absurd (hd ht) (Bool.eq_false_iff.mp hm)

theorem onHeaderReceived_kept {f : Core → Work → Bytes → Work × Bool}
    (h : m.mapping.onHeaderReceived = some f) (w : Work) (line : Bytes) :
    Kept F c.sid w (f c w line).1 := by
  have hF := device_eq_false hd
  cases m <;> cases h
  exact uploadOnHeaderReceived_kept (hF rfl) w line

theorem onHeadersReceived_kept {f : Env → Core → App → App}
    (h : m.mapping.onHeadersReceived = some f) (a : App) :
    Kept F c.sid a.toWork (f env c a).toWork := by
  have hF := device_eq_false hd
  cases m <;> cases h
  · exact .same rfl rfl
  · exact .settings (hF rfl) rfl
  · exact uploadOnHeadersReceived_kept (hF rfl) a.toWork

theorem onContentReceived_kept {f : Env → Core → App → Bytes → ℤ → App × ℤ}
    (h : m.mapping.onContentReceived = some f) (a : App) (buffer : Bytes) (size : ℤ) :
    Kept F c.sid a.toWork (f env c a buffer size).1.toWork := by
  have hF := device_eq_false hd
  cases m <;> cases h
  · exact authOnPostData_kept a.toWork buffer size
  · exact webOnFormReceived_kept (hF rfl) a buffer size
  · exact uploadOnContentReceived_kept (hF rfl) a.toWork buffer size

theorem onRequestReceived_kept (hs : F.sessions = true → m.spares.sessions = true)
    {f : Env → Core → App → App} (h : m.mapping.onRequestReceived = some f) (a : App) :
    Kept F c.sid a.toWork (f env c a).toWork := by
  have hF := device_eq_false hd
  cases m <;> cases h
  · exact authOnRequestReceived_kept (Bool.eq_false_iff.mpr fun ht => absurd (hs ht) nofun) a.toWork
  · exact formOnRequestReceived_kept (hF rfl) a
  · exact filesOnRequestReceived_kept a.toWork
  · exact uploadAllReceived_kept a.toWork
  · exact webRequestReceived_kept a.toWork

end

theorem onRequestReceived_sessions {m : Cgi} {f : Env → Core → App → App}
    (h : m.mapping.onRequestReceived = some f) (a : App) :
    SessionStep c a.toWork (f env c a).toWork := by
  by_cases hm : m = .auth
  · subst hm
    cases h
    exact authOnRequestReceived_sessions a.toWork
  · have hkept : Kept ⟨false, true⟩ c.sid a.toWork (f env c a).toWork :=
      onRequestReceived_kept (F := ⟨false, true⟩) nofun (fun _ => bne_iff_ne.mpr hm) h a
    exact .same (hkept.world.sessions rfl)

theorem setResponseHeaders_kept {m : Cgi} {f : Core → App → Bytes → App}
    (h : m.mapping.setResponseHeaders = some f) (a : App) (info : Bytes) :
    Kept F c.sid a.toWork (f c a info).toWork := by
  cases m <;> cases h
  · unfold ssdpSendHeader
    simp only
    split_ifs <;> exact .same rfl rfl
  · exact authSetResponseHeaders_kept a info
  · exact webAppendHeaders_kept a info
  · unfold filesSetResponseHeader
    simp only
    split_ifs <;> exact .same rfl rfl
  · exact webAppendHeaders_kept a info

theorem readContent_kept {m : Cgi} {f : Env → Core → Work → ℤ → Work × Bytes × ℤ}
    (h : m.mapping.readContent = some f) (w : Work) (maxSize : ℤ) :
    Kept F c.sid w (f env c w maxSize).1 := by
  cases m <;> cases h
  · exact ssdpSending_kept w maxSize
  · exact webReadContent_kept w maxSize
  · exact webReadContent_kept w maxSize
  · exact filesReadOneFileInfo_kept w maxSize
  · exact webReadContent_kept w maxSize

theorem onAllSent_kept {m : Cgi} {f : Core → Work → Work} (h : m.mapping.onAllSent = some f)
    (w : Work) : Kept F c.sid w (f c w) := by
  cases m <;> cases h <;> exact webAllSent_kept w

theorem onFinished_kept {m : Cgi} {f : Core → Work → Work} (h : m.mapping.onFinished = some f)
    (w : Work) : Kept F c.sid w (f c w) := by
  cases m <;> cases h <;> exact closeCtxFile_kept w

end Cgi

theorem cgiSetResponseHeaders_kept {F : Spares} (env : Env) (c : Core) (a : App) (info : Bytes) :
    Work.Kept F c.sid a.toWork (cgiSetResponseHeaders env c a info).toWork := by
  have hhandler : Work.Kept F c.sid a.toWork (handlerHeaders c (startHeaders a) info).toWork := by
    unfold handlerHeaders
    split
    next f hf =>
      obtain ⟨m, -, hm⟩ := Option.bind_eq_some_iff.mp hf
      exact Cgi.setResponseHeaders_kept hm (startHeaders a) info
    next => exact .refl _
  exact hhandler.trans (.same rfl rfl)

theorem sendBufferTo_kept {F : Spares} {sid : ℕ} (w : Work) (n : ℕ) : Work.Kept F sid w (w.sendBufferTo n) := by
  unfold Work.sendBufferTo
  split_ifs <;> exact .same rfl rfl

/-- Loading a block keeps what `ReadContent` keeps. -/
theorem loadBlock_kept {F : Spares} {sid : ℕ} {read : Work → ℤ → Work × Bytes × ℤ}
    (h : ∀ w n, Work.Kept F sid w (read w n).1) (sendMaxBlock : ℤ) (a : App) :
    Work.Kept F sid a.toWork (loadBlock read sendMaxBlock a).1.toWork := by
  unfold loadBlock
  simp only
  split
  · have hread := h a.toWork (sendMaxBlock - a.bytesLeft - 2)
    generalize read a.toWork (sendMaxBlock - a.bytesLeft - 2) = r at hread ⊢
    obtain ⟨w, data, size⟩ := r
    have hbuffer := hread.trans (sendBufferTo_kept w (a.bytesLeft.toNat + data.length))
    simp only
    split
    · exact hbuffer.trans (.same rfl rfl)
    · exact hbuffer
  · have hread := h a.toWork (sendMaxBlock - a.bytesLeft - 2 - 10)
    generalize read a.toWork (sendMaxBlock - a.bytesLeft - 2 - 10) = r at hread ⊢
    obtain ⟨w, data, size⟩ := r
    have hbuffer := hread.trans (sendBufferTo_kept w (a.bytesLeft.toNat + 10 + data.length))
    simp only
    split
    · exact hbuffer.trans (sendBufferTo_kept _ _)
    · exact hbuffer

/-! ## The result

The callbacks that make the response leave the result of the request alone, unless reading fails.
-/

namespace Work

variable {env : Env} {c : Core}

/-- The result is the same, or reading failed. -/
def Answered (w w' : Work) : Prop := w'.result = w.result ∨ w'.result = -500

theorem Answered.refl (w : Work) : Answered w w := .inl rfl

theorem Answered.trans {u v w : Work} (h : Answered u v) (h' : Answered v w) : Answered u w := by
  rcases h' with he | he
  · rcases h with hr | hr
    · exact .inl (he.trans hr)
    · exact .inr (he.trans hr)
  · exact .inr he

theorem readInto_result (w : Work) (fp : Fp) (maxRead room : ℤ) :
    (readInto env w fp maxRead room).1.result = w.result := by
  unfold readInto
  split
  · rfl
  · simp only
    split_ifs <;> rfl

theorem ssiLoop_answered {value : Bytes → Bytes} {maxSize : ℤ} (n : ℕ) (w : Work) (x : SsiContext)
    (out : Bytes) : Answered w (ssiLoop env value maxSize n w x out).1 := by
  induction n generalizing w x out with
  | zero => exact .inl rfl
  | succ n ih =>
    simp only [ssiLoop]
    split_ifs
    · have hread := @readInto_result env w x.fp
        (min (w.dwTotal - w.dwOperIndex) ((cacheSize : ℤ) - x.cacheOffset))
        ((cacheSize : ℤ) - x.cacheOffset)
      generalize readInto env w x.fp _ _ = r at hread ⊢
      obtain ⟨w', data⟩ := r
      cases data with
      | none => exact .inr rfl
      | some data =>
        have hindex : Answered w { w' with dwOperIndex := w'.dwOperIndex + data.length } := .inl hread
        simp only
        split
        · exact hindex.trans (ih _ _ _)
        · exact hindex
        · exact hindex
    · exact .refl w

theorem webReadContent_answered (w : Work) (maxSize : ℤ) :
    Answered w (webReadContent env c w maxSize).1 := by
  simp only [webReadContent, readPage]
  split_ifs
  · exact .refl w
  · exact .inl rfl
  · exact .inl rfl
  · exact .inl rfl
  · have hread := @readInto_result env w w.ssiCtx.fp (min (w.dwTotal - w.dwOperIndex) maxSize) maxSize
    generalize readInto env w w.ssiCtx.fp _ _ = r at hread ⊢
    obtain ⟨w', data⟩ := r
    cases data with
    | none => exact .inr rfl
    | some data => exact .inl hread
  · generalize env.patience + (w.dwTotal - w.dwOperIndex).toNat + 1 = n
    have hloop : Answered w (ssiLoop env (tagValue w.world.device) maxSize n w w.ssiCtx []).1 :=
      ssiLoop_answered n w w.ssiCtx []
    generalize ssiLoop env (tagValue w.world.device) maxSize n w w.ssiCtx [] = r at hloop ⊢
    obtain ⟨w', x, out⟩ := r
    cases out with
    | none => exact hloop
    | some out => exact hloop

theorem closeCtxFile_result (w : Work) : (closeCtxFile c w).result = w.result := by
  unfold closeCtxFile
  split_ifs <;> rfl

theorem nextEntry_result (w : Work) : (nextEntry env c w).1.result = w.result := by
  unfold nextEntry
  simp only
  split
  · split <;> rfl
  · split <;> rfl

theorem filesLoop_result {maxSize : ℤ} (n : ℕ) (w : Work) (out : Bytes) :
    (filesLoop env c maxSize n w out).1.result = w.result := by
  induction n generalizing w out with
  | zero => rfl
  | succ n ih =>
    simp only [filesLoop]
    split
    · have hentry := @nextEntry_result env c w
      generalize nextEntry env c w = r at hentry ⊢
      obtain ⟨w', e | text⟩ := r
      · simp only
        split
        · exact (ih _ _).trans hentry
        · exact (ih _ _).trans hentry
      · exact hentry
    · rfl

theorem filesReadOneFileInfo_result (w : Work) (maxSize : ℤ) :
    (filesReadOneFileInfo env c w maxSize).1.result = w.result := by
  unfold filesReadOneFileInfo
  simp only
  split
  · rfl
  split
  · split <;> rfl
  · exact filesLoop_result _ w []

theorem ssdpLoop_result {maxSize : ℤ} (w : Work) (out : Bytes) (lines : List Bytes) :
    (ssdpLoop maxSize w out lines).1.result = w.result := by
  induction lines generalizing w out with
  | nil => rfl
  | cons line rest ih =>
    unfold ssdpLoop
    split_ifs
    · rfl
    · exact ih _ _

theorem ssdpSending_result (w : Work) (maxSize : ℤ) :
    (ssdpSending c w maxSize).1.result = w.result := by
  unfold ssdpSending
  split_ifs
  · rfl
  · exact ssdpLoop_result w [] _
  · rfl

end Work

namespace Cgi

variable {env : Env}

open Work

theorem setResponseHeaders_result {m : Cgi} {f : Core → App → Bytes → App}
    (h : m.mapping.setResponseHeaders = some f) (c : Core) (a : App) (info : Bytes) :
    (f c a info).result = a.result := by
  have happend (a : App) : (webAppendHeaders c a info).result = a.result := by
    simp only [webAppendHeaders]
    split_ifs <;> rfl
  cases m <;> cases h
  · unfold ssdpSendHeader
    simp only
    split_ifs <;> rfl
  · simp only [authSetResponseHeaders]
    split_ifs <;> exact happend _
  · exact happend a
  · unfold filesSetResponseHeader
    simp only
    split_ifs <;> rfl
  · exact happend a

theorem readContent_answered {m : Cgi} {f : Env → Core → Work → ℤ → Work × Bytes × ℤ}
    (h : m.mapping.readContent = some f) (c : Core) (w : Work) (maxSize : ℤ) :
    Answered w (f env c w maxSize).1 := by
  cases m <;> cases h
  · exact .inl (ssdpSending_result w maxSize)
  · exact webReadContent_answered w maxSize
  · exact webReadContent_answered w maxSize
  · exact .inl (filesReadOneFileInfo_result w maxSize)
  · exact webReadContent_answered w maxSize

theorem onAllSent_result {m : Cgi} {f : Core → Work → Work} (h : m.mapping.onAllSent = some f)
    (c : Core) (w : Work) : (f c w).result = w.result := by
  cases m <;> cases h <;> exact closeCtxFile_result _

end Cgi

theorem cgiSetResponseHeaders_result (env : Env) (c : Core) (a : App) (info : Bytes) :
    (cgiSetResponseHeaders env c a info).result = a.result := by
  change (handlerHeaders c (startHeaders a) info).result = a.result
  unfold handlerHeaders
  split
  next f hf =>
    obtain ⟨m, -, hm⟩ := Option.bind_eq_some_iff.mp hf
    exact Cgi.setResponseHeaders_result hm c (startHeaders a) info
  next => rfl

theorem sendBufferTo_result (w : Work) (n : ℕ) : (w.sendBufferTo n).result = w.result := by
  unfold Work.sendBufferTo
  split_ifs <;> rfl

theorem loadBlock_answered {read : Work → ℤ → Work × Bytes × ℤ}
    (h : ∀ w n, Work.Answered w (read w n).1) (sendMaxBlock : ℤ) (a : App) :
    Work.Answered a.toWork (loadBlock read sendMaxBlock a).1.toWork := by
  unfold loadBlock
  simp only
  split
  · have hread := h a.toWork (sendMaxBlock - a.bytesLeft - 2)
    generalize read a.toWork (sendMaxBlock - a.bytesLeft - 2) = r at hread ⊢
    obtain ⟨w, data, size⟩ := r
    have hbuffer := hread.trans (.inl (sendBufferTo_result w (a.bytesLeft.toNat + data.length)))
    simp only
    split
    · exact hbuffer
    · exact hbuffer
  · have hread := h a.toWork (sendMaxBlock - a.bytesLeft - 2 - 10)
    generalize read a.toWork (sendMaxBlock - a.bytesLeft - 2 - 10) = r at hread ⊢
    obtain ⟨w, data, size⟩ := r
    have hbuffer := hread.trans (.inl (sendBufferTo_result w (a.bytesLeft.toNat + 10 + data.length)))
    simp only
    split
    · exact hbuffer.trans (.inl (sendBufferTo_result _ _))
    · exact hbuffer

end StraightHttpd
