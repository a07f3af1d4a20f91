import StraightHttpd.Httpd.PathConfinement
import StraightHttpd.Httpd.RequestLine

/-! # Strings from a request and their fields

The extension, the filter of a listing, the path of a page and the path of an upload are put together
without a look at the size of the field that they go to.
-/

set_option autoImplicit false

namespace StraightHttpd
open CMemory

/-- The text that `ParseQueryString` scans. -/
def scannedText (m text : Bytes) : Bytes :=
  let (m, len) := urlDecode (poke m 0 (pathText [] text ++ [0]))
  cstr (poke m len [0])

/-- A path without the slash in front. -/
def stripSlash : Bytes → Bytes
  | 47 :: path => path
  | path => path

/-- Where strings that are made from a request go. -/
inductive Field
  | extension
  | filter
  | file
  | upload
  deriving DecidableEq, Repr

def Field.size : Field → ℕ
  | .extension => 8 -- _extension
  | .filter => 128 -- _responsePath
  | .file => 128 -- szTemp in WEB_fopen
  | .upload => maxAppContextSize -- _appContext

/-- In the next step of the connection the string `str`, made from the `text` of the client, goes to a field:
when the first line is read, when a header line is, or when the callback for a complete request looks for a
folder or opens a path behind the web root. -/
inductive Builds (env : Env) (s : Sys) : Field → (text str : Bytes) → Prop
  | extension {line : Bytes} {method : Method} {n : ℕ} {t : Sys} : s.core.state = .headerReceiving →
      s.core.requestMethod = none → requestMethod line = some (method, n) → s.requestLine line = some t →
      Builds env s .extension (beforeMark (scannedText s.core.requestPath (line.drop n))) t.app.extension
  | filter {id : ℕ} {filter : Bytes} {fp : Option ℕ} : s.core.state = .bodyDone → s.app.result = 0 →
      .firstdir id filter fp ∈ s.newEvents (s.requestDone env) →
      Builds env s .filter ((queryPath s.core).getD []) filter
  | file {id : ℕ} {path mode : Bytes} {fp : Option ℕ} : s.core.state = .bodyDone → s.app.result = 0 →
      .fopen id path mode fp ∈ s.newEvents (s.requestDone env) → localWebroot <+: path →
      Builds env s .file (cstr s.core.requestPath) path
  | upload {mem : Bytes} {n id : ℕ} {path : Bytes} : s.core.state = .headerReceiving →
      .makeDeepPath id path ∈ s.newEvents (s.headerLine env mem n) →
      Builds env s .upload (uploadName (mem.take n)) path

/-- The text is short enough for what is put in front of it and behind. -/
def Field.Short : Field → (text : Bytes) → Prop
  | .extension, path => ¬ LongExtension path
  | .filter, path => (stripSlash path).length +
      (if stripSlash path = [] ∨ (stripSlash path).getLast? = some 47 then 0 else 1) ≤ 44
  | .file, path => (stripSlash path).length ≤ 57
  | .upload, name => name.length ≤ 175

/-! ## One field each -/

/-- The extension keeps below its field while it is collected, and fills it when the path is lost. -/
theorem scanQuery_extension {q : QueryScan} (hq : q.extension.length < 8) (i : ℕ) (t : Bytes) :
    (scanQuery q i t).1.extension.length < 8 ↔ (scanQuery q i t).2 = true := by
  fun_induction scanQuery q i t with
  | case1 q i => exact iff_of_true hq rfl
  | case2 q i rest ih =>
    refine ih ?_
    split_ifs
    · exact Nat.zero_lt_succ _
    · exact hq
  | case3 q i rest hdot ih => exact ih hq
  | case4 q i rest hdot hmark ih => exact ih hq
  | case5 q i rest hdot hmark hhash ih =>
    refine ih ?_
    split_ifs
    · exact Nat.zero_lt_succ _
    · exact hq
  | case6 q i b rest hdot hmark hhash hslash hin q' hfull =>
    refine iff_of_false ?_ Bool.false_ne_true
    show ¬ q'.extension.length < 8
    rw [hfull]
    exact Nat.lt_irrefl 8
  | case7 q i b rest hdot hmark hhash hslash hin q' hfull ih =>
    refine ih ?_
    have hlength : q'.extension.length = q.extension.length + 1 := List.length_append
    omega
  | case8 q i b rest hdot hmark hhash hslash hout ih => exact ih hq

theorem scan_kept_iff (t : Bytes) :
    (scanQuery (scanState none) 0 t).2 = true ↔ ¬ LongExtension (beforeMark t) := by
  have hscan (p : Bytes) (hp : 63 ∉ p) (rest : Bytes) (hrest : rest = [] ∨ ∃ r, rest = 63 :: r) :
      (scanQuery (scanState none) 0 (p ++ rest)).2 = true ↔ ¬ LongExtension p := by
    obtain ⟨hlost, hkept⟩ := scanQuery_path hp (e := none) (by decide : 0 < 8) 0 rest
    rw [overflows_none_iff] at hlost hkept
    by_cases hlong : LongExtension p
    · rw [(hlost hlong).1]
      simp [hlong]
    · rw [hkept hlong]
      refine iff_of_true ?_ hlong
      obtain rfl | ⟨r, rfl⟩ := hrest
      · rfl
      · rw [scanQuery]
        exact congrArg Prod.snd (scanQuery_behind (by simp) _ _)
  obtain ⟨hmark, hbefore, -⟩ | ⟨rest, ht, hmark, -⟩ := mark_cases t
  · have h := hscan t hmark [] (.inl rfl)
    rw [hbefore]
    rwa [List.append_nil] at h
  · have h := hscan (beforeMark t) hmark (63 :: rest) (.inr ⟨rest, rfl⟩)
    rwa [← ht] at h

/-- The first line leaves the extension that is found in its target. -/
theorem requestLine_collects {s t : Sys} {line : Bytes} {method : Method} {n : ℕ}
    (hmethod : requestMethod line = some (method, n)) (ht : s.requestLine line = some t) :
    t.app.extension = (scanQuery (scanState none) 0 (scannedText s.core.requestPath (line.drop n))).1.extension := by
  rw [Sys.requestLine, hmethod, Option.map_some, Option.some.injEq] at ht
  have hquery : (requestTarget s.core.requestPath (line.drop n)).2 =
      (scanQuery (scanState none) 0 (scannedText s.core.requestPath (line.drop n))).1 := by
    unfold requestTarget scannedText
    simp only
    split
    next h => rfl
    next h => rfl
  rw [← hquery, ← ht]
  simp only
  generalize requestTarget s.core.requestPath (line.drop n) = r
  obtain ⟨m, q⟩ := r
  show (s.setTarget method m q).cgiSetCgiHandler.app.extension = q.extension
  unfold Sys.cgiSetCgiHandler
  split <;> rfl

theorem underWebroot_length (szFile : Bytes) :
    (underWebroot szFile).length = 70 + (stripSlash (cstr szFile)).length := by
  have hroot : localWebroot.length = 70 := by decide
  unfold underWebroot stripSlash
  exact List.length_append.trans (congrArg (· + _) hroot)

theorem listFilter_length (path : Bytes) : (listFilter (some path)).length = 83 + (stripSlash path).length +
    if stripSlash path = [] ∨ (stripSlash path).getLast? = some 47 then 0 else 1 := by
  have hfolder : folderToList.length = 80 := by decide
  have hlast : folderToList.getLast? = some 47 := by decide
  have hall : (bytes "*.*").length = 3 := rfl
  have hend : (folderToList ++ stripSlash path).getLast? = some 47 ↔
      stripSlash path = [] ∨ (stripSlash path).getLast? = some 47 := by
    rw [List.getLast?_append]
    cases hp : (stripSlash path).getLast? with
    | none =>
      rw [List.getLast?_eq_none_iff] at hp
      simp [hp, hlast]
    | some b =>
      have hne : stripSlash path ≠ [] := by
        intro hnil
        rw [hnil] at hp
        cases hp
      simp [hne]
  have hfilter : listFilter (some path) =
      (if (folderToList ++ stripSlash path).getLast? = some 47 then folderToList ++ stripSlash path
        else folderToList ++ stripSlash path ++ [47]) ++ bytes "*.*" := rfl
  rw [hfilter, List.length_append, hall]
  by_cases h : (folderToList ++ stripSlash path).getLast? = some 47
  · rw [if_pos h, if_pos (hend.mp h), List.length_append, hfolder]
    omega
  · rw [if_neg h, if_neg (mt hend.mpr h), List.length_append, List.length_append, hfolder,
      List.length_singleton]
    omega

theorem filter_fits_iff (path : Option Bytes) :
    (listFilter path).length < Field.filter.size ↔ Field.filter.Short (path.getD []) := by
  cases path with
  | none => exact iff_of_true (by decide) (by rw [Field.Short]; decide)
  | some path =>
    rw [listFilter_length, Field.Short, Field.size, Option.getD_some]
    omega

theorem filesOnRequestReceived_path (env : Env) (c : Core) (w : Work) :
    (filesOnRequestReceived env c w).responsePath = listFilter (queryPath c) := by
  unfold filesOnRequestReceived Work.setFilter
  simp only
  split_ifs <;> rfl

/-- A path with a colon is not put behind the web root. -/
theorem webPath_behind {szFile : Bytes} (hslash : ∃ t, cstr szFile = 47 :: t) (h : localWebroot <+: webPath szFile) :
    webPath szFile = underWebroot szFile := by
  unfold webPath at h ⊢
  split_ifs at h ⊢ with hcolon
  · rfl
  · obtain ⟨t, ht⟩ := hslash
    rw [ht] at h
    obtain ⟨rest, hrest⟩ := h
    have hroot : localWebroot = 68 :: localWebroot.drop 1 := rfl
    rw [hroot] at hrest
    cases hrest

/-- The header lines of an upload make the path of the name that they give. -/
theorem headerLine_path {env : Env} {s : Sys} {mem : Bytes} {n id : ℕ} {path : Bytes}
    (he : .makeDeepPath id path ∈ s.newEvents (s.headerLine env mem n)) :
    path = uploadToFolder ++ uploadName (mem.take n) := by
  have hnone {t : Sys} (ht : t.app.world.files.log = s.app.world.files.log)
      (he : .makeDeepPath id path ∈ s.newEvents t) : path = uploadToFolder ++ uploadName (mem.take n) := by
    rw [Sys.newEvents_eq [] ht] at he
    cases he
  unfold Sys.headerLine at he
  split_ifs at he
  · exact hnone rfl he
  · exact hnone rfl he
  · exact hnone rfl he
  · exact hnone rfl he
  · exact hnone rfl he
  · exact hnone rfl he
  · exact hnone rfl he
  · rw [Asked.cgiHeaderReceived_eq] at he
    by_cases hm : s.core.handler = some .upload
    swap
    · simp only [if_neg hm] at he
      exact hnone rfl he
    simp only [if_pos hm] at he
    by_cases hx : strnicmp (mem.take n) (bytes "X-File-Name:") 12 = 0
    swap
    · refine hnone ?_ he
      simp only [Sys.onWork, Sys.onApp, App.onWork, uploadOnHeaderReceived, if_neg hx]
      rfl
    · rw [Sys.newEvents_eq [.makeDeepPath s.core.sid (uploadToFolder ++ uploadName (mem.take n))] ?_] at he
      · rw [List.mem_singleton, FileEvent.makeDeepPath.injEq] at he
        exact he.2
      · simp only [Sys.onWork, Sys.onApp, App.onWork, uploadOnHeaderReceived, if_pos hx]
        split_ifs <;> rfl

/-- Only the handlers of pages, listings and uploads use the file system when a request is complete. -/
theorem requestDone_events {env : Env} {s : Sys} {e : FileEvent} (he : e ∈ s.newEvents (s.requestDone env)) :
    (∃ m, s.core.handler = some m ∧ (m = .auth ∨ m = .form ∨ m = .webApp)) ∨ s.core.handler = some .files ∨
      s.core.handler = some .upload ∧ ∃ f, e = .uploaded s.core.sid f ∨ e = .fclose s.core.sid f := by
  have hsame (h : (s.requestDone env).app.world.files.log = s.app.world.files.log) : False := by
    rw [Sys.newEvents_eq [] h] at he
    cases he
  cases hm : s.core.handler with
  | none =>
    refine (hsame ?_).elim
    unfold Sys.requestDone Sys.cgiRequestReceived
    simp only [hm]
    split_ifs <;> rfl
  | some m =>
    cases m with
    | ssdp =>
      refine (hsame ?_).elim
      have hnone : Cgi.ssdp.mapping.onRequestReceived = none := rfl
      unfold Sys.requestDone Sys.cgiRequestReceived
      simp only [hm, hnone]
      split_ifs <;> rfl
    | auth => exact .inl ⟨_, rfl, .inl rfl⟩
    | form => exact .inl ⟨_, rfl, .inr (.inl rfl)⟩
    | webApp => exact .inl ⟨_, rfl, .inr (.inr rfl)⟩
    | files => exact .inr (.inl rfl)
    | upload =>
      refine .inr (.inr ⟨rfl, s.app.fileHandle, ?_⟩)
      have hlog := @Sys.requestDone_log env _ _ hm _ rfl
      rw [Sys.newEvents_eq _ (hlog.trans (Work.uploadAllReceived_log s.app.toWork))] at he
      rcases List.mem_cons.mp he with rfl | he
      · exact .inr rfl
      · exact .inl (List.mem_singleton.mp he)

/-! ## Every string of a run -/

/-- In every run, each string that is made from a request fits its field, with the terminating NUL, exactly
when the text it is made from is short enough. -/
theorem string_fields_iff {env : Env} {sid : ℕ} {s : Sys} (h : ConnReach env sid s) {f : Field} {text str : Bytes}
    (hb : Builds env s f text str) : str.length < f.size ↔ f.Short text := by
  cases hb with
  | extension hs hnone hmethod ht =>
    rw [requestLine_collects hmethod ht]
    have hempty : (scanState none).extension.length < 8 := Nat.zero_lt_succ _
    exact (scanQuery_extension hempty 0 _).trans (scan_kept_iff _)
  | filter hs hr he =>
    rcases requestDone_events he with ⟨m, hm, hpage⟩ | hm | ⟨-, _, hevent⟩
    · obtain ⟨hmatches, hresponse⟩ := (ConnReach.asked h).page (by rw [hs]; decide) hr m hm
      obtain ⟨b, rest, hslash, -⟩ := matches_slash hmatches
      obtain ⟨_, hevent⟩ := page_events hm hpage (by rw [hresponse, cstr_of_no_nul (not_mem_cstr _), hslash]; simp) he
      cases hevent
    · rcases list_events hm he with ⟨_, hevent⟩ | ⟨_, hevent⟩
      · simp only [FileEvent.firstdir.injEq] at hevent
        rw [hevent.2.1]
        exact filter_fits_iff _
      · cases hevent
    · rcases hevent with hevent | hevent <;> cases hevent
  | file hs hr he hroot =>
    rcases requestDone_events he with ⟨m, hm, hpage⟩ | hm | ⟨-, _, hevent⟩
    · obtain ⟨hmatches, hresponse⟩ := (ConnReach.asked h).page (by rw [hs]; decide) hr m hm
      obtain ⟨b, rest, hslash, -⟩ := matches_slash hmatches
      have hpath : cstr s.app.responsePath = cstr s.core.requestPath := by
        rw [hresponse, cstr_of_no_nul (not_mem_cstr _)]
      obtain ⟨_, hevent⟩ := page_events hm hpage (by rw [hpath, hslash]; simp) he
      simp only [FileEvent.fopen.injEq] at hevent
      rw [hevent.2.1] at hroot ⊢
      rw [webPath_behind ⟨_, hpath.trans hslash⟩ hroot, underWebroot_length, hpath, Field.Short, Field.size]
      omega
    · rcases list_events hm he with ⟨_, hevent⟩ | ⟨_, hevent⟩ <;> cases hevent
    · rcases hevent with hevent | hevent <;> cases hevent
  | upload hs he =>
    have hfolder : uploadToFolder.length = 80 := by decide
    have hmax : maxAppContextSize = 256 := rfl
    rw [headerLine_path he, List.length_append, hfolder, Field.Short, Field.size, hmax]
    omega

/-- The path of the login page. -/
theorem string_fields_login : (webPath (bytes "/auth/login.html")).length < Field.file.size := by
  have hcomplete : loginAsked.core.state = .bodyDone ∧ loginAsked.app.result = 0 ∧
      .fopen 0 (webPath (bytes "/auth/login.html")) (bytes "rb") (some 0) ∈
        loginAsked.newEvents (loginAsked.requestDone onePage) ∧
      localWebroot <+: webPath (bytes "/auth/login.html") ∧
      (stripSlash (cstr loginAsked.core.requestPath)).length ≤ 57 := by
    decide +kernel
  obtain ⟨hstate, hresult, hopened, hroot, hshort⟩ := hcomplete
  exact (string_fields_iff loginAsked_reach (.file hstate hresult hopened hroot)).mpr hshort

/-- An extension of eight characters. -/
theorem string_fields_fails : ¬ ∀ (env : Env) (sid : ℕ) (s : Sys), ConnReach env sid s →
    ∀ f text str, Builds env s f text str → str.length < f.size := by
  intro h
  have hmethod : requestMethod (bytes "GET /a.download HTTP/1.1") = some (.get, 4) := by decide
  obtain ⟨t, ht⟩ : ∃ t, (requestBegun (bytes "GET /a.download HTTP/1.1\r\n\r\n")).requestLine
      (bytes "GET /a.download HTTP/1.1") = some t := by
    rw [Sys.requestLine, hmethod]
    exact ⟨_, rfl⟩
  have hfits := h onePage 0 _ (requestBegun_reach (by decide +kernel)) _ _ _ (.extension rfl rfl hmethod ht)
  rw [requestLine_collects hmethod ht] at hfits
  exact absurd hfits (by decide +kernel)

end StraightHttpd
