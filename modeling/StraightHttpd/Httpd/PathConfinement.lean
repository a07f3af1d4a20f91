import StraightHttpd.Httpd.CancelNotice
import StraightHttpd.Httpd.DeviceFrame
import StraightHttpd.Httpd.FilePaths
import StraightHttpd.Httpd.HeaderFields

/-! # Which files requests reach (`http_fs.c`, `cgi_files.c`, `cgi_upload.c`)

Paths are put together from a root and a text of the client, and the system resolves them when it opens
them. What is opened lies in the root exactly when the text of the client does not lead out of it.
-/

set_option autoImplicit false

namespace StraightHttpd
open CMemory

/-! ## The path of a page -/

/-- The web root with the prefix of a mapping. -/
def webRoot (m : Cgi) : Bytes := localWebroot ++ m.mapping.path.drop 1

/-- When the request for a page stays in the folder of its mapping: what follows the prefix does not lead out
of it. A path with a colon is not put behind the web root, and is taken from the top of the current drive. -/
def PageStays (cwd : Place) (m : Cgi) (path : Bytes) : Prop :=
  if 58 ∈ path then cwd.drive = 68 ∧ (resolve cwd (webRoot m)).names <+: (descent path).down
  else (descent (path.drop m.mapping.path.length)).Stays (resolve cwd (webRoot m)).names

instance (cwd : Place) (m : Cgi) (path : Bytes) : Decidable (PageStays cwd m path) :=
  inferInstanceAs (Decidable (ite _ _ _))

theorem strnicmpText_take (s t : Bytes) (n : ℕ) : strnicmpText (s.take n) t n = strnicmpText s t n := by
  induction n generalizing s t with
  | zero => cases s <;> cases t <;> rfl
  | succ n ih =>
    cases s with
    | nil => rfl
    | cons a s =>
      cases t with
      | nil => rfl
      | cons b t => rw [List.take_succ_cons, strnicmpText, strnicmpText, ih]

/-- The path of a request begins with that of its mapping, up to case. -/
theorem matches_upper {m : Cgi} {path : Bytes} (h : m.mapping.matches path = true) :
    upper ((cstr path).take m.mapping.path.length) = upper m.mapping.path ∧
      (m.Exact → (cstr path).length = m.mapping.path.length) := by
  have hpath : cstr m.mapping.path = m.mapping.path := by cases m <;> decide +kernel
  rw [Mapping.matches, Bool.and_eq_true, beq_iff_eq, strnicmp, strlen, hpath] at h
  obtain ⟨hlength, hcmp⟩ := h
  have hle : m.mapping.path.length ≤ (cstr path).length := strnicmpText_length hcmp
  refine ⟨upper_of_strnicmpText (List.length_take_of_le hle) ?_, fun hm => ?_⟩
  · rw [strnicmpText_take]
    exact hcmp
  · rw [show m.mapping.optionsAllowed.prefixWildcard = false from hm, if_neg Bool.false_ne_true,
      decide_eq_true_iff] at hlength
    exact hlength.symm

/-- It begins with a slash and a letter. -/
theorem matches_slash {m : Cgi} {path : Bytes} (h : m.mapping.matches path = true) :
    ∃ b rest, cstr path = 47 :: b :: rest ∧ b ≠ 58 := by
  have hupper := (matches_upper h).1
  have hm : ∃ c name, m.mapping.path = 47 :: c :: name ∧ toUpper c ≠ 58 := by
    cases m <;> exact ⟨_, _, rfl, by decide⟩
  obtain ⟨c, name, hname, hc⟩ := hm
  rw [hname] at hupper
  cases hpath : cstr path with
  | nil =>
    rw [hpath] at hupper
    cases hupper
  | cons a t =>
    cases t with
    | nil =>
      rw [hpath] at hupper
      cases (List.cons.inj hupper).2
    | cons b rest =>
      rw [hpath, List.length_cons, List.length_cons, List.take_succ_cons, List.take_succ_cons] at hupper
      have ha : toUpper a = toUpper 47 := (List.cons.inj hupper).1
      have hb : toUpper b = toUpper c := (List.cons.inj (List.cons.inj hupper).2).1
      rw [(Sign.toUpper_eq_iff (by decide : Sign 47)).mp ha]
      refine ⟨b, rest, rfl, ?_⟩
      rintro rfl
      exact hc hb.symm

theorem strchr_isNone_iff {t : Bytes} (h : (0 : UInt8) ∉ t) (c : UInt8) : (strchr t c).isNone = true ↔ c ∉ t := by
  rw [Option.isNone_iff_eq_none, strchr, cstr_of_no_nul h, find_eq_none_iff (List.cons_ne_nil c []),
    List.singleton_infix_iff]

/-- A page is in the folder of its mapping exactly when its request stays there. -/
theorem page_inside_iff (cwd : Place) {m : Cgi} (hm : m = .auth ∨ m = .form ∨ m = .webApp) {path : Bytes}
    (h : m.mapping.matches path = true) :
    Inside cwd (webRoot m) (webPath (cstr path)) ↔ PageStays cwd m (cstr path) := by
  obtain ⟨hupper, hexact⟩ := matches_upper h
  obtain ⟨b, rest, ht, hb⟩ := matches_slash h
  have h0 : (0 : UInt8) ∉ cstr path := not_mem_cstr path
  have hnone := strchr_isNone_iff h0 58
  generalize cstr path = t at hupper hexact ht h0 hnone ⊢
  have hdrive : (resolve cwd (webRoot m)).drive = 68 := by cases m <;> rfl
  unfold webPath PageStays
  by_cases hcolon : (58 : UInt8) ∈ t
  · rw [if_neg (by rw [hnone]; exact not_not.mpr hcolon), if_pos hcolon, cstr_of_no_nul h0]
    have hresolve : resolve cwd t = ⟨cwd.drive, (descent t).down⟩ := by
      have hwalk : Segment.walk [] (segments t) = (descent t).down := Descent.walk_top _
      rw [← hwalk, ht]
      unfold resolve
      split
      next he => cases he; exact absurd rfl hb
      next he => cases he; rfl
      next he => cases he
    rw [Inside, hresolve, hdrive]
  · rw [if_pos (hnone.mpr hcolon), if_neg hcolon]
    have hunder : underWebroot t = 68 :: 58 :: (localWebroot.drop 2 ++ t.drop 1) := by
      rw [underWebroot, cstr_of_no_nul h0, ht]
      rfl
    have hroot : webRoot m = 68 :: 58 :: (localWebroot.drop 2 ++ m.mapping.path.drop 1) := rfl
    have hn : 1 ≤ m.mapping.path.length := by cases m <;> decide
    have hsplit : upper (localWebroot.drop 2 ++ t.drop 1) =
        upper (localWebroot.drop 2 ++ m.mapping.path.drop 1 ++ t.drop m.mapping.path.length) := by
      have hlength : (t.take m.mapping.path.length).length = m.mapping.path.length := by
        have hl := congrArg List.length hupper
        rwa [upper, upper, List.length_map, List.length_map] at hl
      have hdrop : t.drop 1 = (t.take m.mapping.path.length).drop 1 ++ t.drop m.mapping.path.length := by
        nth_rewrite 1 [← List.take_append_drop m.mapping.path.length t]
        exact List.drop_append_of_le_length (by omega)
      have hprefix : upper ((t.take m.mapping.path.length).drop 1) = upper (m.mapping.path.drop 1) := by
        have hd := congrArg (List.drop 1) hupper
        rwa [upper, upper, ← List.map_drop, ← List.map_drop] at hd
      rw [hdrop, ← List.append_assoc, upper, List.map_append, List.map_append, upper, List.map_append,
        List.map_append]
      exact congrArg (fun x => List.map toUpper (localWebroot.drop 2) ++ x ++ _) hprefix
    have hpage : resolve cwd (underWebroot t) =
        resolve cwd (68 :: 58 :: (localWebroot.drop 2 ++ m.mapping.path.drop 1) ++ t.drop m.mapping.path.length) := by
      rw [hunder]
      exact resolve_upper cwd 68 hsplit
    have hinside : Inside cwd (webRoot m) (underWebroot t) ↔
        Inside cwd (webRoot m) (68 :: 58 :: (localWebroot.drop 2 ++ m.mapping.path.drop 1) ++
          t.drop m.mapping.path.length) := by
      unfold Inside
      rw [hpage]
    rw [hinside, hroot]
    by_cases he : m.Exact
    · have hnil : t.drop m.mapping.path.length = [] := List.drop_eq_nil_of_le (hexact he).le
      rw [hnil, List.append_nil]
      exact iff_of_true ⟨rfl, List.prefix_rfl⟩ (Descent.stays_of_up_eq_zero rfl _)
    · refine inside_append_iff cwd ?_ _
      rcases hm with rfl | rfl | rfl
      · decide +kernel
      · exact absurd (by decide) he
      · decide +kernel

/-! ## The folder of a listing, and the file of an upload -/

/-- The folder that a filter is for: all but the `*.*`. -/
def listedFolder (filter : Bytes) : Bytes := filter.take (filter.length - 3)

/-- When the path of a listing stays in the folder that may be listed. -/
def ListStays (cwd : Place) (path : Option Bytes) : Prop :=
  ∀ text, path = some text → (descent text).Stays (resolve cwd folderToList).names

theorem segments_cons_slash (t : Bytes) : segments (47 :: t) = segments t :=
  segments_slash [] t (by decide)

theorem segments_snoc_slash (t : Bytes) : segments (t ++ [47]) = segments t := by
  rw [segments_slash t [] (by decide)]
  exact List.append_nil _

theorem listedFolder_append (folder : Bytes) : listedFolder (folder ++ bytes "*.*") = folder := by
  have hlength : (folder ++ bytes "*.*").length = folder.length + 3 := List.length_append
  rw [listedFolder, hlength, Nat.add_sub_cancel, List.take_left]

/-- A folder is listed inside of the one that may be exactly when the path stays there. -/
theorem list_inside_iff (cwd : Place) (path : Option Bytes) :
    Inside cwd folderToList (listedFolder (listFilter path)) ↔ ListStays cwd path := by
  have hroot : (folderToList.drop 2).getLast? = some 47 := by decide +kernel
  unfold listFilter
  simp only
  rw [listedFolder_append]
  cases path with
  | none => exact iff_of_true ⟨rfl, List.prefix_rfl⟩ fun _ h => by cases h
  | some p =>
    have hinside (text : Bytes) (htext : segments text = segments p) :
        Inside cwd folderToList (folderToList ++ text) ↔ ListStays cwd (some p) := by
      have hiff := inside_append_iff cwd (c := 68) hroot text
      have hsame : descent text = descent p := by rw [descent, htext, descent]
      rw [hsame] at hiff
      refine hiff.trans ⟨fun h t ht => ?_, fun h => h p rfl⟩
      rw [← Option.some.inj ht]
      exact h
    simp only
    split
    · rw [segments_cons_slash] at hinside
      split
      · exact hinside _ rfl
      · rw [List.append_assoc]
        exact hinside _ (segments_snoc_slash _)
    · split
      · exact hinside _ rfl
      · rw [List.append_assoc]
        exact hinside _ (segments_snoc_slash _)

theorem upload_inside_iff (cwd : Place) (name : Bytes) : Inside cwd uploadToFolder (uploadToFolder ++ name) ↔
    (descent name).Stays (resolve cwd uploadToFolder).names := by
  have hroot : (uploadToFolder.drop 2).getLast? = some 47 := by decide +kernel
  exact inside_append_iff cwd (c := 68) hroot name

/-- The web root is not in the folder for uploads. -/
theorem webroot_not_inside (cwd : Place) : ¬ Inside cwd uploadToFolder localWebroot := by
  have hany : Inside cwd uploadToFolder localWebroot = Inside ⟨68, []⟩ uploadToFolder localWebroot := rfl
  rw [hany]
  decide +kernel

/-! ## What a request asks for, until it is answered -/

/-- The name of the file of an upload: that of the last header line with one. -/
def fileName : Monitor (Option Bytes) Obs where
  start := none
  next name
    | .begin => none
    | .line (some .upload) bs => if strnicmp bs (bytes "X-File-Name:") 12 = 0 then some (uploadName bs) else name
    | _ => name

/-- The path of the file that an upload with such a name is stored in. -/
def uploadTarget (name : Option Bytes) : Bytes := (name.map fun t => uploadToFolder ++ t).getD []

/-- In the header. -/
def Sys.InHeader (s : Sys) : Prop := s.core.state = .headerReceiving ∨ s.core.state = .headerDone

/-- While the header is read, the path of an upload is made of the name given so far. Until there is a result,
the path of a page is that of the request. -/
structure Asked (s : Sys) : Prop where
  idle : s.core.state = .idle → s.core.handler = none
  early : ¬ s.core.state.PastHeaders → s.core.requestMethod = none → s.core.handler = none
  upload : s.InHeader → s.core.handler = some .upload →
    cstr s.app.appContext.asText = uploadTarget (fileName.after s.core.hist)
  unnamed : s.InHeader → s.core.handler ≠ some .upload → fileName.after s.core.hist = none
  page : ¬ s.core.state.Answering → s.app.result = 0 → ∀ m, s.core.handler = some m →
    m.mapping.matches s.core.requestPath = true ∧ s.app.responsePath = cstr s.core.requestPath

namespace Asked

variable {env : Env} {s t : Sys}

/-- A context between two requests. -/
theorem between (hstate : t.core.state = .idle) (hhandler : t.core.handler = none) : Asked t where
  idle _ := hhandler
  early _ _ := hhandler
  upload hh := by rcases hh with h | h <;> rw [hstate] at h <;> cases h
  unnamed hh := by rcases hh with h | h <;> rw [hstate] at h <;> cases h
  page _ _ m hm := by rw [hhandler] at hm; cases hm

/-- A request behind its header. -/
theorem behind (hp : t.core.state.PastHeaders)
    (hpage : ¬ t.core.state.Answering → t.app.result = 0 → ∀ m, t.core.handler = some m →
      m.mapping.matches t.core.requestPath = true ∧ t.app.responsePath = cstr t.core.requestPath) : Asked t where
  idle hi := by rw [hi] at hp; exact absurd hp (by decide)
  early hn := absurd hp hn
  upload hh := by rcases hh with h | h <;> rw [h] at hp <;> exact absurd hp (by decide)
  unnamed hh := by rcases hh with h | h <;> rw [h] at hp <;> exact absurd hp (by decide)
  page := hpage

/-- A request that is being answered. -/
theorem answering (ha : t.core.state.Answering) : Asked t :=
  behind (Nat.lt_of_lt_of_le (by decide) ha) (absurd ha)

theorem same (h : Asked s)
    (he : (t.core.state, t.core.handler, t.core.requestMethod, t.core.requestPath, t.app.result,
        t.app.appContext, t.app.responsePath) =
      (s.core.state, s.core.handler, s.core.requestMethod, s.core.requestPath, s.app.result,
        s.app.appContext, s.app.responsePath))
    (hname : fileName.after t.core.hist = fileName.after s.core.hist) : Asked t := by
  simp only [Prod.mk.injEq] at he
  obtain ⟨hstate, hhandler, hmethod, hpath, hresult, hcontext, hresponse⟩ := he
  refine ⟨?_, ?_, ?_, ?_, ?_⟩ <;>
    simp only [Sys.InHeader, hstate, hhandler, hmethod, hpath, hresult, hcontext, hresponse, hname]
  · exact h.idle
  · exact h.early
  · exact h.upload
  · exact h.unnamed
  · exact h.page

/-- Notes that neither begin a request nor come from a header line. -/
theorem fileName_open {new hist : List Obs} (h : ∀ o ∈ new, Obs.Routine o) :
    fileName.after (new ++ hist) = fileName.after hist := by
  refine Monitor.after_append fun o ho name => ?_
  have hroutine := h o ho
  cases o <;> first | rfl | exact hroutine.elim

/-! ## The header -/

theorem begin (h : Asked s) (hs : s.core.state = .idle) : Asked (s.beginRequest env) := by
  have hnone : s.core.handler = none := h.idle hs
  exact {
    idle := fun hi => by cases hi
    early := fun _ _ => hnone
    upload := fun _ hm => by cases hnone.symm.trans hm
    unnamed := fun _ _ => rfl
    page := fun _ _ m hm => by cases hnone.symm.trans hm }

theorem requestLine (h : Asked s) {line : Bytes} (hs : s.core.state = .headerReceiving)
    (hmethod : s.core.requestMethod = none) (ht : s.requestLine line = some t) : Asked t := by
  have hstate : t.core.state = .headerReceiving := (Sys.requestLine_state ht).trans hs
  have hhist := Sys.requestLine_hist ht
  have hnone : s.core.handler = none := h.early (by rw [hs]; decide) hmethod
  have hname : fileName.after t.core.hist = none := by
    rw [hhist]
    exact h.unnamed (.inl hs) fun hm => by cases hnone.symm.trans hm
  obtain ⟨method, m, q, rfl⟩ := Sys.requestLine_eq ht
  have hkept : (s.setTarget method m q).cgiSetCgiHandler.app.appContext = .zero ∧
      (s.setTarget method m q).cgiSetCgiHandler.app.responsePath = cstr m ∧
      (s.setTarget method m q).cgiSetCgiHandler.core.requestPath = m ∧
      (s.setTarget method m q).cgiSetCgiHandler.core.requestMethod = some method := by
    unfold Sys.cgiSetCgiHandler
    split <;> exact ⟨rfl, rfl, rfl, rfl⟩
  obtain ⟨hcontext, hresponse, hpath, hasked⟩ := hkept
  exact {
    idle := fun hi => by rw [hstate] at hi; cases hi
    early := fun _ hm => by rw [hasked] at hm; cases hm
    upload := fun _ _ => by rw [hcontext, hname]; rfl
    unnamed := fun _ _ => hname
    page := fun _ _ m' hm' => ⟨cgiSetCgiHandler_matches hm', by rw [hresponse, hpath]⟩ }

/-- Only the mapping for uploads looks at the header lines. -/
theorem cgiHeaderReceived_eq (s : Sys) (bs : Bytes) :
    s.cgiHeaderReceived bs = (s.note (.line s.core.handler bs)).onWork fun w =>
      if s.core.handler = some .upload then (uploadOnHeaderReceived (s.core.note (.line s.core.handler bs)) w bs).1
      else w := by
  unfold Sys.cgiHeaderReceived
  simp only
  have hhandler : (s.note (.line s.core.handler bs)).core.handler = s.core.handler := rfl
  rw [hhandler]
  cases hm : s.core.handler with
  | none => rfl
  | some m => cases m <;> rfl

theorem cstr_uploadTarget (m name : Bytes) (hname : (0 : UInt8) ∉ name) :
    cstr (sprintfAt m 0 (uploadToFolder ++ name)) = uploadToFolder ++ name := by
  have h0 : (0 : UInt8) ∉ uploadToFolder ++ name := by
    rw [List.mem_append, not_or]
    exact ⟨by decide +kernel, hname⟩
  rw [sprintfAt, poke, List.take_zero, List.nil_append, List.append_assoc, List.singleton_append,
    cstr_append_zero, cstr_of_no_nul h0]

theorem cgiHeaderReceived (h : Asked s) (bs : Bytes) :
    Asked (s.cgiHeaderReceived bs) := by
  rw [cgiHeaderReceived_eq]
  by_cases hm : s.core.handler = some .upload
  · simp only [if_pos hm]
    have hfile : fileName.after (.line s.core.handler bs :: s.core.hist) =
        if strnicmp bs (bytes "X-File-Name:") 12 = 0 then some (uploadName bs)
        else fileName.after s.core.hist := by
      rw [hm]
      rfl
    by_cases hx : strnicmp bs (bytes "X-File-Name:") 12 = 0
    · have hnul : (0 : UInt8) ∉ uploadName bs := by
        unfold uploadName
        exact not_mem_cstr _
      have hcontext (w : Work) : ((uploadOnHeaderReceived (s.core.note (.line s.core.handler bs)) w bs).1.appContext,
          (uploadOnHeaderReceived (s.core.note (.line s.core.handler bs)) w bs).1.responsePath,
          (uploadOnHeaderReceived (s.core.note (.line s.core.handler bs)) w bs).1.result) =
            (.raw (sprintfAt w.appContext.asText 0 (uploadToFolder ++ uploadName bs)), w.responsePath, w.result) := by
        unfold uploadOnHeaderReceived
        simp only [if_pos hx]
        split_ifs <;> rfl
      have hw := hcontext s.app.toWork
      simp only [Prod.mk.injEq] at hw
      obtain ⟨hcontext, hresponse, hresult⟩ := hw
      rw [if_pos hx] at hfile
      refine ⟨h.idle, h.early, fun _ _ => ?_, fun _ hne => absurd hm hne, fun ha hr m hm' => ?_⟩
      · show cstr (uploadOnHeaderReceived (s.core.note (.line s.core.handler bs)) s.app.toWork bs).1.appContext.asText =
          uploadTarget (fileName.after (.line s.core.handler bs :: s.core.hist))
        rw [hcontext, hfile]
        exact cstr_uploadTarget _ _ hnul
      · have hpage := h.page ha (hresult ▸ hr) m hm'
        exact ⟨hpage.1, hresponse.trans hpage.2⟩
    · rw [if_neg hx] at hfile
      have hsame : (uploadOnHeaderReceived (s.core.note (.line s.core.handler bs)) s.app.toWork bs).1 = s.app.toWork := by
        unfold uploadOnHeaderReceived
        rw [if_neg hx]
      refine h.same ?_ hfile
      simp only [Sys.onWork, Sys.onApp, App.onWork, Sys.note, hsame]
      rfl
  · simp only [if_neg hm]
    refine h.same rfl ?_
    show fileName.after (.line s.core.handler bs :: s.core.hist) = _
    cases hh : s.core.handler with
    | none => rfl
    | some m =>
      cases m <;> first | rfl | exact absurd hh hm

theorem headerLine (h : Asked s) (mem : Bytes) (n : ℕ) : Asked (s.headerLine env mem n) := by
  unfold Sys.headerLine
  split_ifs
  · exact h.same rfl rfl
  · exact h.same rfl rfl
  · exact h.same rfl rfl
  · exact h.same rfl rfl
  · exact h.same rfl rfl
  · exact h.same rfl rfl
  · exact h.same rfl rfl
  · exact h.cgiHeaderReceived _

theorem emptyLine (h : Asked s) (hs : s.core.state = .headerReceiving) : Asked s.emptyLine where
  idle hi := by cases hi
  early _ := h.early (by rw [hs]; decide)
  upload _ := h.upload (.inl hs)
  unnamed _ := h.unnamed (.inl hs)
  page _ hr m hm := by
    refine h.page (by rw [hs]; decide) ?_ m hm
    change (if s.core.requestMethod = none then -500 else s.app.result) = 0 at hr
    split_ifs at hr
    exact hr

/-! ## Behind the header -/

theorem onHeadersReceived_path {m : Cgi} {f : Env → Core → App → App}
    (h : m.mapping.onHeadersReceived = some f) (c : Core) (a : App) :
    (f env c a).responsePath = a.responsePath := by
  cases m <;> cases h
  · rfl
  · rfl
  · simp only [App.onWork, uploadOnHeadersReceived]
    split
    · rfl
    · split_ifs <;> rfl
    · rfl

/-- A request that is let in was not sent to the login page. -/
theorem letIn {u : Sys} (hu : Sys.AtGate s u) (h : ¬ (u.app.options.authRequired = true ∧ u.app.authorized ≠ codeOk)) :
    s.needsLogin = false := by
  rcases hu.login with ⟨hlogin, -, ha⟩ | ⟨hlogin, -⟩
  · refine absurd ⟨?_, ?_⟩ h
    · rw [hu.options]
      simp only [Sys.needsLogin, Bool.and_eq_true] at hlogin
      exact hlogin.1.2
    · rw [ha]
      decide
  · exact hlogin

/-- The gate leaves the path of a request alone that it has no answer for. -/
theorem afterHeaders_path (s : Sys) (hr : (s.afterHeaders env).app.result = 0) :
    (s.afterHeaders env).app.responsePath = s.app.responsePath := by
  have hu := @Sys.atGate env s
  have hpath : s.needsLogin = false →
      ((s.note (.headers s.gate)).authorize.expectBody env).app.responsePath = s.app.responsePath := by
    intro hlogin
    rw [Sys.expectBody_app]
    have hnote : (s.note (.headers s.gate)).needsLogin = false := hlogin
    unfold Sys.authorize
    simp only [hnote]
    rfl
  have hend := @Sys.cgiHeadersReceived_end env ((s.note (.headers s.gate)).authorize.expectBody env)
  rw [Sys.afterHeaders_app] at hr ⊢
  generalize (s.note (.headers s.gate)).authorize.expectBody env = u at hu hpath hend hr ⊢
  generalize u.cgiHeadersReceived env = t at hend hr ⊢
  cases hend with
  | called m f _ hf hin _ => exact (onHeadersReceived_path hf _ _).trans (hpath (letIn hu hin))
  | accepted m _ _ hin _ => exact hpath (letIn hu hin)
  | unauthorized m _ _ hne =>
    rcases hu.login with ⟨-, -, ha⟩ | ⟨-, -, ha⟩
    · change u.app.authorized = 0 at hr
      rw [ha] at hr
      cases hr
    · exact absurd ha hne
  | refused _ => exact absurd u.cgiRefuse_result (by rw [hr]; decide)

theorem afterHeaders (h : Asked s) (hs : s.core.state = .headerDone) (hz : s.app.result = 0) :
    Asked (s.afterHeaders env) := by
  obtain ⟨tLastSent, called, hcore, -⟩ := @Sys.afterHeaders_core env s
  refine behind s.afterHeaders_pastHeaders fun _ hr m hm => ?_
  have hpage := h.page (by rw [hs]; decide) hz m
  rw [afterHeaders_path s hr]
  rw [hcore] at hm ⊢
  exact hpage hm

theorem onContentReceived_path {m : Cgi} {f : Env → Core → App → Bytes → ℤ → App × ℤ}
    (h : m.mapping.onContentReceived = some f) (c : Core) (a : App) (buffer : Bytes) (size : ℤ) :
    (f env c a buffer size).1.responsePath = a.responsePath := by
  cases m <;> cases h
  · simp only [authOnPostData]
    split_ifs <;> rfl
  · unfold webOnFormReceived
    simp only
    split_ifs <;> rfl
  · simp only [uploadOnContentReceived]
    split_ifs <;> rfl

theorem receiveContent_path (s : Sys) (size : ℤ) :
    (s.receiveContent env size).1.app.responsePath = s.app.responsePath := by
  have hend := @Sys.cgiContentReceived_end env s size
  have hcall : (s.cgiContentReceived env size).1.app.responsePath = s.app.responsePath := by
    generalize s.cgiContentReceived env size = r at hend ⊢
    cases hend with
    | called m f t a consumed hm hf ht he =>
      have hpath := @onContentReceived_path env m f hf t.core s.app s.core.rx.httpRequestBuffer size
      rw [he] at hpath
      exact hpath
    | ignored => rfl
  unfold Sys.receiveContent
  generalize s.cgiContentReceived env size = r at hcall ⊢
  obtain ⟨t, consumed⟩ := r
  simp only at hcall ⊢
  split_ifs
  · exact hcall
  · rw [Sys.contentTaken_app]
    exact hcall

theorem receiveContent (h : Asked s) (hs : s.core.state = .chunkReceiving ∨ s.core.state = .bodyReceiving)
    (size : ℤ) : Asked (s.receiveContent env size).1 := by
  have hgoes := @Sys.GoesOn.receiveContent env s hs size
  have htarget := @Sys.receiveContent_target env s size
  refine behind (hgoes.past.mpr (by rcases hs with hs | hs <;> rw [hs] <;> decide)) fun _ hr m hm => ?_
  have hz : s.app.result = 0 := by
    rcases @Sys.receiveContent_result env s size with he | he
    · exact he.symm.trans hr
    · rw [he] at hr
      cases hr
  have hpage := h.page (by rcases hs with hs | hs <;> rw [hs] <;> decide) hz m (Sys.target_handler htarget ▸ hm)
  have hpath : (s.receiveContent env size).1.core.requestPath = s.core.requestPath :=
    congrArg (fun x : Option Cgi × Bytes × Bool => x.2.1) htarget
  rw [receiveContent_path, hpath]
  exact hpage

theorem chunkLine (h : Asked s) (hs : s.core.state = .chunkLenReceiving)
    (hline : s.receiveChunkLine.core.state = .chunkReceiving) : Asked s.receiveChunkLine := by
  have htarget := s.receiveChunkLine_target
  refine behind (by rw [hline]; decide) fun _ hr m hm => ?_
  rw [Sys.receiveChunkLine_app] at hr ⊢
  have hpage := h.page (by rw [hs]; decide) hr m (Sys.target_handler htarget ▸ hm)
  have hpath : s.receiveChunkLine.core.requestPath = s.core.requestPath :=
    congrArg (fun x : Option Cgi × Bytes × Bool => x.2.1) htarget
  rw [hpath]
  exact hpage

/-- A request that is complete has a result. -/
theorem requestDone_result (s : Sys) : (s.requestDone env).app.result ≠ 0 := by
  unfold Sys.requestDone
  simp only
  split_ifs with hr
  · exact (by decide : codeOk ≠ 0)
  · exact hr

theorem requestDone (hs : s.core.state = .bodyDone) : Asked (s.requestDone env) := by
  have hstate := (@Sys.requestDone_state env s).trans hs
  exact behind (by rw [hstate]; decide) fun _ hr => absurd hr (requestDone_result s)

/-! ## The response -/

theorem sendOrEnd (hs : s.core.state.Received) (hr : s.app.result ≠ 0) :
    Asked (s.sendOrEnd env).1 := by
  have hlate := @Sys.sendOrEnd_received env s hs
  have hend := @Sys.sendOrEnd_end env s
  generalize s.sendOrEnd env = r at hlate hend ⊢
  have hp : HttpState.PastHeaders r.1.core.state := Nat.lt_of_lt_of_le (by decide) hlate
  refine behind hp fun _ hz => absurd hz ?_
  cases hend with
  | sent t hsends => exact hsends.result.symm ▸ hr
  | failed t _ => exact (by decide : (-500 : ℤ) ≠ 0)

theorem sendHeader : Asked (s.sendHeader env).1 := by
  have hend := @Sys.sendOrEnd_end env (s.prepareHeader env)
  unfold Sys.sendHeader
  generalize (s.prepareHeader env).sendOrEnd env = r at hend ⊢
  cases hend with
  | sent t _ =>
    refine answering ?_
    simp only [Sys.headerOut, Sys.setState_state]
    split_ifs <;> decide
  | failed t _ => exact answering (by decide : HttpState.requestEnd.Answering)

theorem headerSent : Asked s.headerSent := by
  unfold Sys.headerSent
  split_ifs
  · exact answering (by decide : HttpState.requestEnd.Answering)
  · exact answering (by decide : HttpState.sendingBody.Answering)

theorem sendBody (hs : s.core.state = .sendingBody) (caller : Caller) : Asked (s.sendBody env caller) := by
  have hstate := @Sys.cgiLoadContentToSend_state env s caller
  unfold Sys.sendBody
  generalize s.cgiLoadContentToSend env caller = r at hstate ⊢
  obtain ⟨t, n⟩ := r
  have ht : t.core.state = .sendingBody := hstate.trans hs
  simp only
  split_ifs
  · refine answering ?_
    have hend := @Sys.sendOrEnd_end env t
    generalize t.sendOrEnd env = r at hend ⊢
    cases hend with
    | sent u hsends =>
      obtain ⟨_, _, _, _, _, _, -, rfl⟩ := hsends
      rw [ht]
      decide
    | failed u _ => exact (by decide : HttpState.requestEnd.Answering)
  · exact answering (by decide : HttpState.requestEnd.Answering)
  · exact answering (by rw [ht]; decide)

end Asked

theorem Micro.asked {env : Env} {s t : Sys} (hstep : Micro env s t) (hs : s.Unanswered) (h : Asked s) : Asked t := by
  cases hstep with
  | background hb =>
    obtain ⟨new, _, _, _, _, _, _, _, hnew, rfl⟩ := hb.aside
    exact h.same rfl (Asked.fileName_open hnew)
  | begin hi _ => exact h.begin hi
  | requestLine _ line hh hmethod ht => exact h.requestLine hh hmethod ht
  | headerLine mem n _ => exact h.headerLine mem n
  | emptyLine hh => exact h.emptyLine hh
  | consumeHeader k _ => exact h.same rfl rfl
  | abort _ => exact ⟨h.idle, h.early, h.upload, h.unnamed, fun _ hr => by cases hr⟩
  | afterHeaders hd hr =>
    have hz : s.app.result ≤ 0 := hs (by rw [hd]; decide)
    exact h.afterHeaders hd (le_antisymm hz hr)
  | chunk hl hline _ => exact (h.chunkLine hl hline).receiveContent (.inl hline) _
  | content hb _ => exact h.receiveContent hb _
  | requestDone hb _ => exact .requestDone hb
  | flush hl hr => exact .sendOrEnd hl hr
  | sendHeader _ _ _ => exact .sendHeader
  | headerSent _ _ => exact .headerSent
  | sendBody caller hb _ => exact .sendBody hb caller
  | reset => exact .between rfl rfl
  | close => exact .between rfl rfl

theorem ConnReach.asked {env : Env} {sid : ℕ} {s : Sys} (h : ConnReach env sid s) : Asked s := by
  induction h with
  | refl => exact .between rfl rfl
  | tail hreach hstep ih =>
    cases hstep with
    | own hm => exact hm.asked (ConnReach.unanswered hreach) ih
    | accept => exact .between rfl rfl
    | error => exact .between rfl rfl
    | others w => exact ih.same rfl rfl

/-! ## The paths that are handed to the system -/

theorem webFopen_log (env : Env) (sid : ℕ) (w : World) (szFile mode : Bytes) : ∃ fp,
    (w.webFopen env sid szFile mode).1.files.log = .fopen sid (webPath szFile) mode fp :: w.files.log := by
  unfold World.webFopen
  simp only
  split_ifs <;> exact ⟨_, rfl⟩

theorem pageOpened_log (env : Env) (c : Core) (w : Work) (fp : Fp) :
    (pageOpened env c w fp).world.files.log = w.world.files.log := by
  have hread (x : World) : (x.webFread env fp 3).1.files.log = x.files.log := by
    unfold World.webFread
    cases fp with
    | handle n =>
      simp only
      split <;> rfl
    | _ => rfl
  have hseek (x : World) : (x.webFseek fp 0).files.log = x.files.log := by
    cases fp <;> rfl
  have hsize (x : World) : (x.webFsize env fp).1.files.log = x.files.log := by
    cases fp <;> rfl
  have hsniff : (sniffGzip env w fp).world.files.log = w.world.files.log := by
    have hr := hread w.world
    unfold sniffGzip
    generalize w.world.webFread env fp 3 = r at hr ⊢
    obtain ⟨world, flag⟩ := r
    cases flag with
    | none => exact hr
    | some flag => exact (hseek world).trans hr
  have hline (x : Work) : (lastModifiedLine env c x).1.world.files.log = x.world.files.log := by
    unfold lastModifiedLine
    simp only
    split_ifs <;> rfl
  have hl := (hline (sniffGzip env w fp)).trans hsniff
  unfold pageOpened
  generalize lastModifiedLine env c (sniffGzip env w fp) = r at hl ⊢
  obtain ⟨x, line, modified⟩ := r
  cases modified with
  | true => exact (hsize x.world).trans hl
  | false => exact hl

/-- A page is opened under the path of its response. -/
theorem webRequestReceived_log (env : Env) (c : Core) (w : Work) (hpath : cstr w.responsePath ≠ [47]) : ∃ fp,
    (webRequestReceived env c w).world.files.log =
      .fopen c.sid (webPath w.responsePath) (bytes "rb") fp :: w.world.files.log := by
  have hpage : (chunkSsi c (defaultPage w)).responsePath = w.responsePath ∧
      (chunkSsi c (defaultPage w)).world = w.world := by
    unfold chunkSsi defaultPage
    rw [if_neg hpath]
    split_ifs <;> exact ⟨rfl, rfl⟩
  unfold webRequestReceived
  simp only
  generalize chunkSsi c (defaultPage w) = x at hpage ⊢
  obtain ⟨hresponse, hworld⟩ := hpage
  obtain ⟨fp, hlog⟩ := webFopen_log env c.sid x.world x.responsePath (bytes "rb")
  rw [← hresponse, ← hworld]
  refine ⟨fp, ?_⟩
  generalize x.world.webFopen env c.sid x.responsePath (bytes "rb") = r at hlog ⊢
  obtain ⟨world, f⟩ := r
  simp only at hlog
  cases f with
  | null => exact hlog
  | handle n => exact (pageOpened_log env c { x with world := world } _).trans hlog
  | wild v => exact (pageOpened_log env c { x with world := world } _).trans hlog

/-- The events of the file system since `s`. -/
def Sys.newEvents (s t : Sys) : List FileEvent :=
  t.app.world.files.log.take (t.app.world.files.log.length - s.app.world.files.log.length)

theorem Sys.newEvents_eq {s t : Sys} (new : List FileEvent)
    (h : t.app.world.files.log = new ++ s.app.world.files.log) : s.newEvents t = new := by
  rw [newEvents, h, List.length_append, Nat.add_sub_cancel, List.take_left]

theorem authCheck_files (env : Env) (c : Core) (w : Work) : (authCheck env c w).1.world.files = w.world.files := by
  unfold authCheck
  simp only
  split
  · split
    · split <;> rfl
    · rfl
  · rfl

/-- A login, a logout and the check of a session open nothing. -/
theorem authOnRequestReceived_log (env : Env) (c : Core) (w : Work) :
    (authOnRequestReceived env c w).world.files.log = w.world.files.log ∨
      authOnRequestReceived env c w = webRequestReceived env c w := by
  have hcheck := authCheck_files env c w
  unfold authOnRequestReceived
  split
  · exact .inl rfl
  split
  · exact .inl rfl
  split
  · generalize authCheck env c w = r at hcheck ⊢
    obtain ⟨x, success⟩ := r
    cases success <;> exact .inl (congrArg Files.log hcheck)
  · exact .inr rfl

/-- A request for a page opens the path of its response and nothing else. -/
theorem page_events {env : Env} {s : Sys} {m : Cgi} (hm : s.core.handler = some m)
    (hpage : m = .auth ∨ m = .form ∨ m = .webApp) (hpath : cstr s.app.responsePath ≠ [47]) {e : FileEvent}
    (he : e ∈ s.newEvents (s.requestDone env)) :
    ∃ fp, e = .fopen s.core.sid (webPath s.app.responsePath) (bytes "rb") fp := by
  obtain ⟨fp, hopened⟩ := webRequestReceived_log env s.core s.app.toWork hpath
  have hone (h : (s.requestDone env).app.world.files.log =
      .fopen s.core.sid (webPath s.app.responsePath) (bytes "rb") fp :: s.app.world.files.log) :
      ∃ fp, e = .fopen s.core.sid (webPath s.app.responsePath) (bytes "rb") fp := by
    rw [Sys.newEvents_eq [_] h] at he
    exact ⟨fp, List.mem_singleton.mp he⟩
  rcases hpage with rfl | rfl | rfl
  · have hlog := @Sys.requestDone_log env _ _ hm _ rfl
    rcases authOnRequestReceived_log env s.core s.app.toWork with hsame | hweb
    · rw [Sys.newEvents_eq [] (hlog.trans hsame)] at he
      cases he
    · refine hone (hlog.trans ?_)
      show (authOnRequestReceived env s.core s.app.toWork).world.files.log = _
      rw [hweb]
      exact hopened
  · exact hone ((@Sys.requestDone_log env _ _ hm _ rfl).trans hopened)
  · exact hone ((@Sys.requestDone_log env _ _ hm _ rfl).trans hopened)

/-- A request for a listing looks into the folder of its filter and nowhere else. -/
theorem list_events {env : Env} {s : Sys} (hm : s.core.handler = some .files) {e : FileEvent}
    (he : e ∈ s.newEvents (s.requestDone env)) :
    (∃ fp, e = .firstdir s.core.sid (listFilter (queryPath s.core)) fp) ∨ ∃ f, e = .closedir s.core.sid f := by
  have hlog := @Sys.requestDone_log env _ _ hm _ rfl
  have hfilter : ∃ new, (filesOnRequestReceived env s.core s.app.toWork).world.files.log =
      new ++ s.app.world.files.log ∧ ∀ e ∈ new,
        (∃ fp, e = .firstdir s.core.sid (listFilter (queryPath s.core)) fp) ∨ ∃ f, e = .closedir s.core.sid f := by
    unfold filesOnRequestReceived
    simp only
    generalize hw : ((s.app.toWork.setSsi SsiContext.zero).setFilter (listFilter (queryPath s.core))) = w
    have hset : w.responsePath = listFilter (queryPath s.core) ∧ w.world.files = s.app.world.files := by
      rw [← hw]
      unfold Work.setFilter
      simp only
      split_ifs <;> exact ⟨rfl, rfl⟩
    obtain ⟨hresponse, hfiles⟩ := hset
    unfold World.webFirstdir
    rw [hresponse]
    split
    · refine ⟨[.closedir s.core.sid (.handle w.world.files.opened),
        .firstdir s.core.sid (listFilter (queryPath s.core)) (some w.world.files.opened)], ?_, ?_⟩
      · rw [← hfiles]
        rfl
      · intro e hmem
        rcases List.mem_cons.mp hmem with rfl | hmem
        · exact .inr ⟨_, rfl⟩
        · exact .inl ⟨_, List.mem_singleton.mp hmem⟩
    · refine ⟨[.firstdir s.core.sid (listFilter (queryPath s.core)) none], ?_, ?_⟩
      · rw [← hfiles]
        rfl
      · exact fun e hmem => .inl ⟨_, List.mem_singleton.mp hmem⟩
  obtain ⟨new, hnew, hall⟩ := hfilter
  rw [Sys.newEvents_eq _ (hlog.trans hnew)] at he
  exact hall _ he

/-- The headers of an upload open the path that is in the context, or nothing. -/
theorem upload_events {env : Env} {s : Sys} (hm : s.core.handler = some .upload) {sid : ℕ} {path mode : Bytes}
    {fp : Option ℕ} (he : .fopen sid path mode fp ∈ s.newEvents (s.afterHeaders env)) :
    path = webPath s.app.appContext.asText := by
  have happ := @Sys.afterHeaders_app env s
  have hgate : ((s.note (.headers s.gate)).authorize.expectBody env).app.world = s.app.world ∧
      ((s.note (.headers s.gate)).authorize.expectBody env).app.appContext = s.app.appContext := by
    rw [Sys.expectBody_app]
    unfold Sys.authorize
    simp only
    split_ifs <;> exact ⟨rfl, rfl⟩
  have hhandler := (@Sys.atGate env s).handler
  have hend := @Sys.cgiHeadersReceived_end env ((s.note (.headers s.gate)).authorize.expectBody env)
  have hopened : ∃ new, (s.afterHeaders env).app.world.files.log = new ++ s.app.world.files.log ∧
      ∀ e ∈ new, ∃ fp, e = FileEvent.fopen s.core.sid (webPath s.app.appContext.asText) (bytes "wb") fp := by
    have hsid : ((s.note (.headers s.gate)).authorize.expectBody env).core.sid = s.core.sid := by
      obtain ⟨_, hcore⟩ := (@Sys.atGate env s).core
      rw [hcore]
    rw [happ]
    generalize (s.note (.headers s.gate)).authorize.expectBody env = u at hgate hhandler hend hsid ⊢
    obtain ⟨hworld, hcontext⟩ := hgate
    generalize u.cgiHeadersReceived env = t at hend ⊢
    have hsame (h : t.app.world.files.log = u.app.world.files.log) :
        ∃ new, t.app.world.files.log = new ++ s.app.world.files.log ∧
          ∀ e ∈ new, ∃ fp, e = FileEvent.fopen s.core.sid (webPath s.app.appContext.asText) (bytes "wb") fp :=
      ⟨[], by rw [h, hworld]; rfl, fun _ he => by cases he⟩
    cases hend with
    | called m f hm' hf _ _ =>
      obtain rfl : m = .upload := Option.some.inj (hm'.symm.trans (hhandler.trans hm))
      cases hf
      cases hmethod : u.core.requestMethod with
      | none =>
        refine hsame ?_
        simp only [Sys.onApp, App.onWork, uploadOnHeadersReceived, hmethod]
        rfl
      | some method =>
        cases method with
        | get =>
          refine hsame ?_
          simp only [Sys.onApp, App.onWork, uploadOnHeadersReceived, hmethod]
          rfl
        | post =>
          obtain ⟨fp, hlog⟩ := webFopen_log env u.core.sid u.app.world u.app.appContext.asText (bytes "wb")
          rw [hcontext, hsid, hworld] at hlog
          refine ⟨[_], ?_, fun e he => ⟨fp, List.mem_singleton.mp he⟩⟩
          refine Eq.trans ?_ hlog
          simp only [Sys.onApp, App.onWork, uploadOnHeadersReceived, hmethod, Sys.note_app, hcontext, hsid, hworld]
          split_ifs <;> rfl
    | accepted => exact hsame rfl
    | unauthorized => exact hsame rfl
    | refused _ =>
      refine hsame ?_
      unfold Sys.cgiRefuse
      split_ifs <;> rfl
  obtain ⟨new, hnew, hall⟩ := hopened
  rw [Sys.newEvents_eq _ hnew] at he
  obtain ⟨_, hevent⟩ := hall _ he
  simp only [FileEvent.fopen.injEq] at hevent
  exact hevent.2.1

/-- The path of an upload behind the folder for uploads, or the web root when the client gave no name. -/
theorem webPath_uploadTarget {m : Bytes} {name : Option Bytes} (h : cstr m = uploadTarget name) :
    webPath m = (name.map fun t => uploadToFolder ++ t).getD localWebroot := by
  have hnone := strchr_isNone_iff (not_mem_cstr m) 58
  rw [strchr, cstr_of_no_nul (not_mem_cstr m)] at hnone
  unfold webPath
  rw [strchr]
  cases name with
  | none =>
    have hnil : cstr m = [] := h
    have habsent : (find [58] (cstr m)).isNone = true := hnone.mpr (by rw [hnil]; exact List.not_mem_nil)
    rw [if_pos habsent, underWebroot, hnil]
    exact List.append_nil _
  | some t =>
    have hpath : cstr m = uploadToFolder ++ t := h
    have hcolon : (58 : UInt8) ∈ cstr m := by
      rw [hpath]
      exact List.mem_append_left _ (by decide +kernel)
    rw [if_neg fun hn => hnone.mp hn hcolon]
    exact hpath

/-- In every run, what a request reaches is in the folder that it is meant for exactly when its text does not
lead out of it: the path of a page, the path of a listing, and the name of an upload, without which the upload
is in no folder. -/
theorem path_confinement (env : Env) (cwd : Place) {sid : ℕ} {s : Sys} (h : ConnReach env sid s) :
    (s.core.state = .bodyDone → s.app.result = 0 →
      (∀ m, s.core.handler = some m → (m = .auth ∨ m = .form ∨ m = .webApp) →
        ∀ id path mode fp, .fopen id path mode fp ∈ s.newEvents (s.requestDone env) →
          (Inside cwd (webRoot m) path ↔ PageStays cwd m (cstr s.core.requestPath))) ∧
      (s.core.handler = some .files →
        ∀ id filter fp, .firstdir id filter fp ∈ s.newEvents (s.requestDone env) →
          (Inside cwd folderToList (listedFolder filter) ↔ ListStays cwd (queryPath s.core)))) ∧
    (s.core.state = .headerDone → s.core.handler = some .upload →
      ∀ id path mode fp, .fopen id path mode fp ∈ s.newEvents (s.afterHeaders env) →
        (Inside cwd uploadToFolder path ↔ ∃ name, fileName.after s.core.hist = some name ∧
          (descent name).Stays (resolve cwd uploadToFolder).names)) := by
  have hasked := ConnReach.asked h
  refine ⟨fun hs hr => ⟨fun m hm hpage id path mode fp he => ?_, fun hm id filter fp he => ?_⟩,
    fun hs hm id path mode fp he => ?_⟩
  · obtain ⟨hmatches, hresponse⟩ := hasked.page (by rw [hs]; decide) hr m hm
    have hslash : cstr s.app.responsePath ≠ [47] := by
      obtain ⟨b, rest, ht, -⟩ := matches_slash hmatches
      rw [hresponse, cstr_of_no_nul (not_mem_cstr _), ht]
      exact fun h => by cases h
    obtain ⟨_, hevent⟩ := page_events hm hpage hslash he
    simp only [FileEvent.fopen.injEq] at hevent
    rw [hevent.2.1, hresponse]
    exact page_inside_iff cwd hpage hmatches
  · rcases list_events hm he with ⟨_, hevent⟩ | ⟨_, hevent⟩
    · simp only [FileEvent.firstdir.injEq] at hevent
      rw [hevent.2.1]
      exact list_inside_iff cwd _
    · cases hevent
  · have hpath := webPath_uploadTarget (hasked.upload (.inr hs) hm)
    rw [upload_events hm he, hpath]
    cases fileName.after s.core.hist with
    | none =>
      refine iff_of_false (webroot_not_inside cwd) ?_
      rintro ⟨_, hname, -⟩
      cases hname
    | some name =>
      refine (upload_inside_iff cwd name).trans ⟨fun hstays => ⟨name, rfl, hstays⟩, ?_⟩
      rintro ⟨name', hname, hstays⟩
      rw [Option.some.inj hname]
      exact hstays

/-- The surroundings of one page. -/
def onePage : Env := Env.calm (bytes "page")

/-- A connection that has received these bytes. -/
def requestArrived (request : Bytes) : Sys :=
  let s := (Sys.zero 0 World.boot).onHttpAccept onePage 7 1 false
  { s with core := { s.core with rx := s.core.rx.receive [⟨request, request.length⟩] } }

/-- It begins with the request. -/
def requestBegun (request : Bytes) : Sys := (requestArrived request).dequeue.beginRequest onePage

theorem requestBegun_reach {request : Bytes} (h : 0 < (requestArrived request).dequeue.core.rx.requestLength) :
    ConnReach onePage 0 (requestBegun request) := by
  let s := (Sys.zero 0 World.boot).onHttpAccept onePage 7 1 false
  have haccept : ConnReach onePage 0 s := .tail .refl (.accept _ 7 1 false rfl)
  have hreceive : ConnReach onePage 0 (requestArrived request) := by
    refine .tail haccept (.own (.background (.receive s _ ?_)))
    exact Option.some_ne_none 7
  have hdequeue : ConnReach onePage 0 (requestArrived request).dequeue := .tail hreceive (.own (.background (.dequeue _)))
  exact .tail hdequeue (.own (.begin _ rfl h))

/-- A request for the login page. -/
def loginBegun : Sys := requestBegun (bytes "GET /auth/login.html HTTP/1.1\r\n\r\n")

/-- It has read the first line. -/
def loginNamed : Sys := (loginBegun.requestLine (bytes "GET /auth/login.html HTTP/1.1")).getD loginBegun

/-- The request is complete. -/
@[irreducible] def loginAsked : Sys := loginNamed.emptyLine.afterHeaders onePage

theorem loginAsked_reach : ConnReach onePage 0 loginAsked := by
  have hbegun : ConnReach onePage 0 loginBegun := by
    unfold loginBegun
    exact requestBegun_reach (by decide +kernel)
  have hline : ConnReach onePage 0 loginNamed := by
    have hmethod : (requestMethod (bytes "GET /auth/login.html HTTP/1.1")).isSome = true := by decide
    obtain ⟨r, hr⟩ := Option.isSome_iff_exists.mp hmethod
    refine .tail hbegun (.own (.requestLine _ _ (bytes "GET /auth/login.html HTTP/1.1") rfl rfl ?_))
    rw [loginNamed, Sys.requestLine, hr]
    rfl
  have hempty : ConnReach onePage 0 loginNamed.emptyLine := .tail hline (.own (.emptyLine _ (by decide +kernel)))
  unfold loginAsked
  exact .tail hempty (.own (.afterHeaders _ rfl (by decide +kernel)))

theorem path_confinement_login : Inside ⟨67, []⟩ (webRoot .auth) (webPath (bytes "/auth/login.html")) := by
  have hcomplete : loginAsked.core.state = .bodyDone ∧ loginAsked.app.result = 0 ∧
      loginAsked.core.handler = some .auth ∧ .fopen 0 (webPath (bytes "/auth/login.html")) (bytes "rb") (some 0) ∈
        loginAsked.newEvents (loginAsked.requestDone onePage) ∧
      PageStays ⟨67, []⟩ .auth (cstr loginAsked.core.requestPath) := by
    decide +kernel
  obtain ⟨hstate, hresult, hhandler, hopened, hstays⟩ := hcomplete
  have hpages := ((path_confinement onePage ⟨67, []⟩ loginAsked_reach).1 hstate hresult).1
  exact (hpages .auth hhandler (.inl rfl) _ _ _ _ hopened).mpr hstays

/-- After a request for a file above the web root, by a client that has not logged in. -/
@[irreducible] def climbed : Server :=
  Server.boot.play onePage [.accept 0 1 false, .data 0 (bytes "GET /auth/../../x.html HTTP/1.1\r\n\r\n")]

theorem path_confinement_fails :
    ¬ ∀ (env : Env) (cwd : Place) (s : Server), (Server.runs env).Reach s →
      ∀ id path fp, .fopen id path (bytes "rb") fp ∈ s.world.files.log → Inside cwd localWebroot path := by
  intro h
  have hreach : (Server.runs onePage).Reach climbed := by
    unfold climbed
    exact Server.reach_boot _ (by decide +kernel)
  have hopened : .fopen 0 (webPath (bytes "/auth/../../x.html")) (bytes "rb") (some 0) ∈ climbed.world.files.log := by
    decide +kernel
  exact absurd (h onePage ⟨67, []⟩ climbed hreach _ _ _ hopened) (by decide +kernel)

end StraightHttpd
