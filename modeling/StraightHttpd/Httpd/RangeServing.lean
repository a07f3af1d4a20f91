import StraightHttpd.Httpd.HttpCgi
import StraightHttpd.Httpd.SsiExpansion
import StraightHttpd.Lib.CText

/-! # Ranges of files (`http_web.c`)

`WEB_AppendHeaders` clips the end of a range to the file, not its start, and takes the length of the
range as what is left to send, whatever the response is. A range that starts inside the file is sent as
announced; any other leaves a length below zero, or announces a byte that is not there.
-/

set_option autoImplicit false

namespace StraightHttpd
open CMemory
open SsiPage (Stable Serves readInto_serves)

/-! ## The text of the headers -/

theorem natText_no_nul (n : ℕ) : (0 : UInt8) ∉ natText n := by
  unfold natText
  split_ifs
  · decide
  · intro h
    obtain ⟨d, hd, h0⟩ := List.mem_map.mp h
    have hlt := Nat.digits_lt_base (by decide : 1 < 10) (List.mem_reverse.mp hd)
    have hval := congrArg UInt8.toNat h0
    rw [UInt8.toNat_ofNat'] at hval
    simp only [UInt8.toNat_zero] at hval
    omega

theorem intText_no_nul (n : ℤ) : (0 : UInt8) ∉ intText n := by
  have h := natText_no_nul n.natAbs
  unfold intText
  split_ifs
  · simp [h]
  · exact h

/-- The fixed texts in the header of a partial response. -/
theorem headerTexts_no_nul : (∀ t ∈ contentTypes, (0 : UInt8) ∉ t.2) ∧
    (0 : UInt8) ∉ bytes "HTTP/1.1 206 Partial Content\r\nContent-Range: bytes " ∧
    (0 : UInt8) ∉ bytes "\r\nContent-type: " ∧ (0 : UInt8) ∉ bytes "\r\nContent-Length: " ∧
    (0 : UInt8) ∉ bytes "\r\nConnection: " ∧ (0 : UInt8) ∉ connectionHeader ∧ (0 : UInt8) ∉ crlf := by
  decide +kernel

theorem getContentType_no_nul (extension : Bytes) : (0 : UInt8) ∉ getContentType extension := by
  unfold getContentType
  split
  next t ht => exact headerTexts_no_nul.1 t (List.mem_of_find?_eq_some ht)
  next => decide

theorem headerRange_no_nul (first last total length : ℤ) (extension : Bytes) :
    (0 : UInt8) ∉ headerRange first last total (getContentType extension) length connectionHeader := by
  obtain ⟨-, h1, h2, h3, h4, h5, h6⟩ := headerTexts_no_nul
  have h7 : (0 : UInt8) ∉ ([45] : Bytes) ∧ (0 : UInt8) ∉ ([47] : Bytes) := by decide
  unfold headerRange
  simp only [List.mem_append, not_or, h1, h2, h3, h4, h5, h6, h7, intText_no_nul, getContentType_no_nul,
    not_false_eq_true, and_self]

theorem take_strlen (m : Bytes) : m.take (strlen m) = cstr m :=
  (List.prefix_iff_eq_take.mp (List.takeWhile_prefix _)).symm

/-- What is written behind a text leaves the text in front. -/
theorem cstr_prefix_poke (m s : Bytes) : cstr m <+: cstr (poke m (strlen m) s) := by
  have hpoke : poke m (strlen m) s = cstr m ++ (s ++ m.drop (strlen m + s.length)) := by
    rw [poke, take_strlen, List.append_assoc]
  rw [hpoke, cstr_append (not_mem_cstr m)]
  exact List.prefix_append _ _

theorem cstr_prefix_strcat (m s : Bytes) : cstr m <+: cstr (strcat m s) := cstr_prefix_poke m _

/-- A text that begins without NULs, written to the front of the memory. -/
theorem prefix_cstr_sprintfAt {p : Bytes} (hp : (0 : UInt8) ∉ p) (m t : Bytes) :
    p <+: cstr (sprintfAt m 0 (p ++ t)) := by
  have hpoke : sprintfAt m 0 (p ++ t) = p ++ (t ++ [0] ++ m.drop (p ++ t ++ [0]).length) := by
    simp [sprintfAt, poke]
  rw [hpoke, cstr_append hp]
  exact List.prefix_append _ _

theorem peek_of_cstr {m : Bytes} (h : cstr m ≠ []) : peek m 0 ≠ 0 := by
  cases m with
  | nil => exact absurd rfl h
  | cons b m =>
    intro h0
    have hb : b = 0 := h0
    rw [hb] at h
    exact h rfl

/-! ## What the headers announce -/

/-- The headers were begun before `WEB_AppendHeaders`: a redirect, or the cookie of a session. -/
def OtherHeader (c : Core) (a : App) : Prop :=
  a.result = codeRedirect ∨ c.handler = some .auth ∧ (asksFor c webLogoutPage = true ∨
    c.requestMethod = some .post ∧ asksFor c webDefaultPage = true ∧ a.authorized = codeOk ∧ cstr a.token ≠ [])

/-- The beginning of a response, as `HttpResponseProc` makes it. -/
def respond (env : Env) (c : Core) (a : App) (httpCodeInfo : Bytes) : App :=
  cgiSetResponseHeaders env c { a with dwOperStage := 0, dwOperIndex := 0 } httpCodeInfo

/-- The first line of a partial response. -/
def partialContent : Bytes := bytes "HTTP/1.1 206"

/-- The first line of a redirect. -/
def redirectStart : Bytes := bytes "HTTP/1.1 200"

/-- The first line of a cookie. -/
def cookieStart : Bytes := bytes "X-Auth-Token"

/-- A cookie behind its first word. -/
def cookieRest (sid : Bytes) : Bytes :=
  bytes ": " ++ (sid ++ (bytes "\r\nSet-Cookie: " ++ (sid ++ bytes "; Path=/; HttpOnly; max-age=3600\r\n")))

/-- The first lines as texts. -/
theorem firstLines : bytes "X-Auth-Token: " = cookieStart ++ bytes ": " ∧
    bytes "HTTP/1.1 " ++ bytes "200 OK" = redirectStart ++ bytes " OK" ∧
    bytes "HTTP/1.1 206 Partial Content\r\nContent-Range: bytes " =
      partialContent ++ bytes " Partial Content\r\nContent-Range: bytes " ∧
    ((0 : UInt8) ∉ redirectStart ∧ (0 : UInt8) ∉ cookieStart) ∧ (redirectStart ≠ [] ∧ cookieStart ≠ []) ∧
    (redirectStart.length = partialContent.length ∧ redirectStart ≠ partialContent) ∧
    cookieStart.length = partialContent.length ∧ cookieStart ≠ partialContent := by
  decide +kernel

theorem cookie_text (sid : Bytes) : bytes "X-Auth-Token: " ++ sid ++ bytes "\r\nSet-Cookie: " ++ sid ++
    bytes "; Path=/; HttpOnly; max-age=3600\r\n" = cookieStart ++ cookieRest sid := by
  rw [firstLines.1, cookieRest]
  simp only [List.append_assoc]

/-- What `WEB_AppendHeaders` finds in the send buffer. -/
def Begun (c : Core) (a : App) (m : Bytes) : Prop :=
  OtherHeader c a ∧ (redirectStart <+: cstr m ∨ cookieStart <+: cstr m) ∨ ¬ OtherHeader c a ∧ strlen m = 0

theorem startHeaders_buffer (a : App) :
    a.result = codeRedirect ∧ redirectStart <+: cstr (startHeaders a).sendBuffer ∨
      a.result ≠ codeRedirect ∧ cstr (startHeaders a).sendBuffer = [] := by
  by_cases hr : a.result = codeRedirect
  · have hm : (startHeaders a).sendBuffer = sprintfAt (poke a.sendBuffer 0 [0]) 0
        (headerGeneric (bytes "200 OK") (bytes "text/html") (redirectPage a).length (bytes "close")) := if_pos hr
    refine .inl ⟨hr, ?_⟩
    have hsplit : headerGeneric (bytes "200 OK") (bytes "text/html") (redirectPage a).length (bytes "close") =
        redirectStart ++ (bytes " OK" ++ (bytes "\r\nContent-Type: " ++ (bytes "text/html" ++
          (bytes "\r\nContent-Length: " ++ (intText (redirectPage a).length ++ (bytes "\r\nConnection: " ++
            (bytes "close" ++ crlf))))))) := by
      unfold headerGeneric
      rw [firstLines.2.1]
      simp only [List.append_assoc]
    rw [hm, hsplit]
    exact prefix_cstr_sprintfAt firstLines.2.2.2.1.1 _ _
  · have hm : (startHeaders a).sendBuffer = poke a.sendBuffer 0 [0] := if_neg hr
    refine .inr ⟨hr, ?_⟩
    rw [hm]
    rfl

/-- A cookie is written behind what the buffer has. -/
theorem cookie_begun {c : Core} {a : App} (hother : OtherHeader c a) (t : Bytes) :
    Begun c a (sprintfAt (startHeaders a).sendBuffer (strlen (startHeaders a).sendBuffer) (cookieStart ++ t)) := by
  refine .inl ⟨hother, ?_⟩
  rcases startHeaders_buffer a with ⟨-, hstart⟩ | ⟨-, hnil⟩
  · exact .inl (hstart.trans (cstr_prefix_poke _ _))
  · have h0 : strlen (startHeaders a).sendBuffer = 0 := by rw [strlen, hnil, List.length_nil]
    rw [h0]
    exact .inr (prefix_cstr_sprintfAt firstLines.2.2.2.1.2 _ _)

theorem start_begun {c : Core} {a : App} (h : a.result = codeRedirect ∨ ¬ OtherHeader c a) :
    Begun c a (startHeaders a).sendBuffer := by
  rcases startHeaders_buffer a with ⟨hr, hstart⟩ | ⟨hr, hnil⟩
  · exact .inl ⟨.inl hr, .inl hstart⟩
  · refine .inr ⟨h.resolve_left hr, ?_⟩
    rw [strlen, hnil, List.length_nil]

/-- The send buffer after the cookie of `Auth_SetResponseHeaders`. -/
def authBuffer (c : Core) (a : App) : Bytes :=
  if asksFor c webLogoutPage then
    sprintfAt a.sendBuffer (strlen a.sendBuffer) (cookieStart ++ cookieRest (bytes "SID="))
  else if c.requestMethod = some .post ∧ asksFor c webDefaultPage ∧ a.authorized = codeOk ∧ cstr a.token ≠ [] then
    sprintfAt a.sendBuffer (strlen a.sendBuffer) (cookieStart ++ cookieRest (cstr a.token))
  else a.sendBuffer

theorem authSetResponseHeaders_append (c : Core) (a : App) (info : Bytes) :
    authSetResponseHeaders c a info = webAppendHeaders c { a with sendBuffer := authBuffer c a } info := by
  simp only [authSetResponseHeaders, authBuffer, ← cookie_text]
  split_ifs <;> rfl

theorem authBuffer_begun {c : Core} (hc : c.handler = some .auth) (a : App) :
    Begun c a (authBuffer c (startHeaders a)) := by
  have hauthorized : (startHeaders a).authorized = a.authorized := rfl
  have htoken : (startHeaders a).token = a.token := rfl
  unfold authBuffer
  split_ifs with hlogout hlogin
  · exact cookie_begun (.inr ⟨hc, .inl hlogout⟩) _
  · rw [hauthorized, htoken] at hlogin
    exact cookie_begun (.inr ⟨hc, .inr hlogin⟩) _
  · rw [hauthorized, htoken] at hlogin
    refine start_begun ?_
    by_cases hr : a.result = codeRedirect
    · exact .inl hr
    · exact .inr fun h => h.elim hr fun h => h.2.elim hlogout hlogin

/-- The handlers of pages end in `WEB_AppendHeaders`. -/
theorem handlerHeaders_append {c : Core} (hc : c.handler = some .auth ∨ c.handler = some .form ∨
    c.handler = some .webApp) (a : App) (info : Bytes) :
    ∃ m, handlerHeaders c (startHeaders a) info = webAppendHeaders c { a with sendBuffer := m } info ∧
      Begun c a m := by
  have hstart : startHeaders a = { a with sendBuffer := (startHeaders a).sendBuffer } := rfl
  have hplain (hno : c.handler ≠ some .auth) : Begun c a (startHeaders a).sendBuffer := by
    refine start_begun ?_
    by_cases hr : a.result = codeRedirect
    · exact .inl hr
    · exact .inr fun h => h.elim hr fun h => hno h.1
  rcases hc with hc | hc | hc
  · refine ⟨authBuffer c (startHeaders a), ?_, authBuffer_begun hc a⟩
    have hauth : handlerHeaders c (startHeaders a) info = authSetResponseHeaders c (startHeaders a) info := by
      unfold handlerHeaders
      rw [hc]
      rfl
    rw [hauth, authSetResponseHeaders_append]
    rfl
  · refine ⟨_, ?_, hplain (by rw [hc]; decide)⟩
    rw [← hstart]
    unfold handlerHeaders
    rw [hc]
    rfl
  · refine ⟨_, ?_, hplain (by rw [hc]; decide)⟩
    rw [← hstart]
    unfold handlerHeaders
    rw [hc]
    rfl

/-- The text that `WEB_AppendHeaders` begins with. -/
def rangeStart (c : Core) (a : App) (m : Bytes) : Bytes :=
  if strlen m = 0 then sprintfAt m 0 (headerRange c.rangeFrom (min a.rangeTo a.dwTotal - 1) a.dwTotal
    (getContentType a.extension) (min a.rangeTo a.dwTotal - c.rangeFrom) connectionHeader) else m

/-- The lines of `WEB_AppendHeaders` behind the first ones. -/
def moreLines (a : App) (m : Bytes) : Bytes :=
  let m := if a.options.gzip then strcat m headerGzip else m
  let m := if cstr a.ssiCtx.lastModified ≠ [] then strcat m a.ssiCtx.lastModified else strcat m headerNocache
  if a.ssiCtx.ssi = 0 ∧ strstr m (bytes "no-cache") = none
    then strcat m (bytes "Cache-Control: max-age=3600\r\n") else m

theorem moreLines_begins (a : App) (m : Bytes) : cstr m <+: cstr (moreLines a m) := by
  have hgzip : cstr m <+: cstr (if a.options.gzip then strcat m headerGzip else m) := by
    split_ifs
    · exact cstr_prefix_strcat _ _
    · exact List.prefix_refl _
  have hmodified (m : Bytes) : cstr m <+: cstr (if cstr a.ssiCtx.lastModified ≠ []
      then strcat m a.ssiCtx.lastModified else strcat m headerNocache) := by
    split_ifs
    · exact cstr_prefix_strcat _ _
    · exact cstr_prefix_strcat _ _
  have hage (m : Bytes) : cstr m <+: cstr (if a.ssiCtx.ssi = 0 ∧ strstr m (bytes "no-cache") = none
      then strcat m (bytes "Cache-Control: max-age=3600\r\n") else m) := by
    split_ifs
    · exact cstr_prefix_strcat _ _
    · exact List.prefix_refl _
  exact hgzip.trans ((hmodified _).trans (hage _))

/-- With a range, the length of what is to send is that of the range, and the file is read from its start. -/
theorem webAppendHeaders_range {c : Core} {a : App} (hrange : c.rangeFrom < a.rangeTo) (info : Bytes) :
    webAppendHeaders c a info = { a with
      rangeTo := min a.rangeTo a.dwTotal
      dwTotal := min a.rangeTo a.dwTotal - c.rangeFrom
      world := a.world.webFseek a.fileHandle c.rangeFrom
      sendBuffer := moreLines a (rangeStart c a a.sendBuffer) } := by
  have hgt : a.rangeTo > c.rangeFrom := hrange
  simp only [webAppendHeaders, if_pos hgt]
  rfl

/-- What `CGI_SetResponseHeaders` writes behind a header that was begun. -/
def closingLines (env : Env) (a : App) : Bytes :=
  let m := strcat a.sendBuffer (closingHeaders (env.gmt (env.time a.world.calls)))
  if a.result = codeRedirect then strcat m (redirectPage a) else m

theorem closingLines_begins (env : Env) (a : App) : cstr a.sendBuffer <+: cstr (closingLines env a) := by
  unfold closingLines
  split_ifs
  · exact (cstr_prefix_strcat _ _).trans (cstr_prefix_strcat _ _)
  · exact cstr_prefix_strcat _ _

theorem cgiSetResponseHeaders_begun {env : Env} {c : Core} {a a' : App} {info : Bytes}
    (h : handlerHeaders c (startHeaders a) info = a') (hbegun : cstr a'.sendBuffer ≠ []) :
    cgiSetResponseHeaders env c a info = { a' with
      sendBuffer := closingLines env a'
      bytesLeft := strlen (closingLines env a')
      world := a'.world.asked } := by
  simp only [cgiSetResponseHeaders, h, if_neg (peek_of_cstr hbegun)]
  rfl

theorem headerRange_start (first last total length : ℤ) (contentType connection : Bytes) :
    partialContent <+: headerRange first last total contentType length connection := by
  unfold headerRange
  rw [firstLines.2.2.1]
  simp only [List.append_assoc]
  exact List.prefix_append _ _

/-- A text begins with one of the first lines only. -/
theorem not_partialContent {m m' : Bytes} (hstart : redirectStart <+: cstr m ∨ cookieStart <+: cstr m)
    (hbegins : cstr m <+: cstr m') : ¬ partialContent <+: cstr m' := by
  intro hpartial
  have hsame (p : Bytes) (hp : p <+: cstr m) (hlength : p.length = partialContent.length) : p = partialContent :=
    (List.prefix_of_prefix_length_le (hp.trans hbegins) hpartial hlength.le).eq_of_length hlength
  obtain ⟨-, -, -, -, -, hredirect, hcookie⟩ := firstLines
  rcases hstart with hp | hp
  · exact absurd (hsame _ hp hredirect.1) hredirect.2
  · exact absurd (hsame _ hp hcookie.1) hcookie.2

/-- What the headers of the response to a request for a range say, and what they leave to be sent. -/
structure Headed (c : Core) (a a' : App) : Prop where
  total : a'.dwTotal = min a.rangeTo a.dwTotal - c.rangeFrom
  index : a'.dwOperIndex = a.dwOperIndex
  stage : a'.dwOperStage = a.dwOperStage
  context : a'.appContext = a.appContext
  files : a'.world.files = (a.world.webFseek a.fileHandle c.rangeFrom).files
  other : OtherHeader c a → ¬ partialContent <+: cstr a'.sendBuffer
  range : ¬ OtherHeader c a → headerRange c.rangeFrom (min a.rangeTo a.dwTotal - 1) a.dwTotal
    (getContentType a.extension) (min a.rangeTo a.dwTotal - c.rangeFrom) connectionHeader <+: cstr a'.sendBuffer

theorem cgiSetResponseHeaders_headed {c : Core}
    (hc : c.handler = some .auth ∨ c.handler = some .form ∨ c.handler = some .webApp)
    {a : App} (hrange : c.rangeFrom < a.rangeTo) (env : Env) (info : Bytes) :
    Headed c a (cgiSetResponseHeaders env c a info) := by
  obtain ⟨m, hhandler, hbegun⟩ := handlerHeaders_append hc a info
  have happend := hhandler.trans (@webAppendHeaders_range c { a with sendBuffer := m } hrange info)
  have hlines := moreLines_begins { a with sendBuffer := m } (rangeStart c a m)
  have hother (h : OtherHeader c a) : (redirectStart <+: cstr m ∨ cookieStart <+: cstr m) ∧ rangeStart c a m = m := by
    obtain ⟨-, hstart⟩ | ⟨hno, -⟩ := hbegun
    · refine ⟨hstart, if_neg fun h0 => ?_⟩
      have hnil : cstr m = [] := List.length_eq_zero_iff.mp h0
      rw [hnil] at hstart
      rcases hstart with hp | hp
      · exact absurd (List.prefix_nil.mp hp) firstLines.2.2.2.2.1.1
      · exact absurd (List.prefix_nil.mp hp) firstLines.2.2.2.2.1.2
    · exact absurd h hno
  have hthis (h : ¬ OtherHeader c a) : headerRange c.rangeFrom (min a.rangeTo a.dwTotal - 1) a.dwTotal
      (getContentType a.extension) (min a.rangeTo a.dwTotal - c.rangeFrom) connectionHeader <+:
      cstr (rangeStart c a m) := by
    obtain ⟨hyes, -⟩ | ⟨-, h0⟩ := hbegun
    · exact absurd hyes h
    · rw [rangeStart, if_pos h0]
      have htext := prefix_cstr_sprintfAt (headerRange_no_nul c.rangeFrom (min a.rangeTo a.dwTotal - 1) a.dwTotal
        (min a.rangeTo a.dwTotal - c.rangeFrom) a.extension) m []
      rwa [List.append_nil] at htext
  have hsome : cstr (rangeStart c a m) ≠ [] := by
    intro hnil
    by_cases h : OtherHeader c a
    · obtain ⟨hstart, hm⟩ := hother h
      rw [← hm, hnil] at hstart
      rcases hstart with hp | hp
      · exact absurd (List.prefix_nil.mp hp) firstLines.2.2.2.2.1.1
      · exact absurd (List.prefix_nil.mp hp) firstLines.2.2.2.2.1.2
    · have hp := (headerRange_start _ _ _ _ _ _).trans (hthis h)
      rw [hnil] at hp
      exact absurd (List.prefix_nil.mp hp) (by decide +kernel)
  have hresponse := @cgiSetResponseHeaders_begun env c _ _ info happend fun hnil => by
    have hmore : cstr (moreLines { a with sendBuffer := m } (rangeStart c a m)) = [] := hnil
    rw [hmore] at hlines
    exact hsome (List.prefix_nil.mp hlines)
  have hclosing := hlines.trans (closingLines_begins env { a with
    rangeTo := min a.rangeTo a.dwTotal
    dwTotal := min a.rangeTo a.dwTotal - c.rangeFrom
    world := a.world.webFseek a.fileHandle c.rangeFrom
    sendBuffer := moreLines { a with sendBuffer := m } (rangeStart c a m) })
  rw [hresponse]
  refine ⟨rfl, rfl, rfl, rfl, rfl, fun h => ?_, fun h => (hthis h).trans hclosing⟩
  obtain ⟨hstart, hm⟩ := hother h
  have hstart' : redirectStart <+: cstr (rangeStart c a m) ∨ cookieStart <+: cstr (rangeStart c a m) := by
    rw [hm]
    exact hstart
  exact not_partialContent hstart' hclosing

/-! ## The body -/

/-- A part of a part. -/
theorem slice_slice {m : Bytes} {i n j k : ℕ} (h : j + k ≤ (slice m i n).length) :
    slice (slice m i n) j k = slice m (i + j) k := by
  have hn : j + k ≤ n := by
    rw [slice, List.length_take] at h
    omega
  rw [slice, slice, slice, List.drop_take, List.drop_drop, List.take_take]
  congr 1
  omega

theorem serves_slice {env : Env} {h : ℕ} {file : Bytes} (hs : Stable env h file) (i n : ℕ) :
    Serves env h i (slice file i n) := by
  intro k pos count hle
  rw [hs k (i + pos) count, slice_slice hle]

/-- The blocks of content that `WEB_ReadContent` reads up to the end. -/
def contentBlocks (env : Env) (c : Core) (w : Work) (sizes : ℕ → ℤ) : ℕ → Work × Bytes
  | 0 => (w, [])
  | n + 1 =>
    let (w', out) := contentBlocks env c w sizes n
    if w'.dwOperStage = stageEnd then (w', out)
    else
      let (w'', block, _) := webReadContent env c w' (sizes n)
      (w'', out ++ block)

/-- After some blocks of a part of a file that begins at `base`. -/
structure Serving (h base : ℕ) (text : Bytes) (w : Work) (out : Bytes) : Prop where
  file : w.ssiCtx.fp = .handle h ∧ w.ssiCtx.ssi = 0
  total : w.dwTotal = text.length
  index : w.dwOperIndex = out.length
  sent : out <+: text
  position : w.world.files.position h = base + out.length

theorem stageAfterBlock_plain {w : Work} {x : SsiContext} (hx : x.ssi = 0) :
    stageAfterBlock w x = if w.dwOperIndex ≥ w.dwTotal then stageEnd else nextStage w.dwOperStage := by
  have hno : ¬ (x.ssi > 0 ∧ x.cacheOffset > 0) := by
    rw [hx]
    exact fun h => absurd h.1 (lt_irrefl 0)
  unfold stageAfterBlock
  simp only [hno, not_false_eq_true, and_true]

/-- One block more: what is there, up to the size asked for. -/
theorem Serving.block {env : Env} {c : Core} (hc : c.requestMethod ≠ none) {h base : ℕ} {text : Bytes}
    (hs : Serves env h base text) {w : Work} {out : Bytes} (hw : Serving h base text w out) {maxSize : ℤ}
    (hsize : 0 ≤ maxSize ∧ maxSize < 2 ^ 31) :
    ∃ w' block n, webReadContent env c w maxSize = (w', block, n) ∧ Serving h base text w' (out ++ block) ∧
      (w'.dwOperStage = stageEnd ∧ out ++ block = text ∨
        w'.dwOperStage = nextStage w.dwOperStage ∧ (block.length : ℤ) = maxSize) := by
  obtain ⟨hfp, hssi⟩ := hw.file
  have htotal := hw.total
  have hindex := hw.index
  have hle := hw.sent.length_le
  by_cases hend : w.dwTotal - w.dwOperIndex = 0
  · -- all is sent
    have hall : out = text := hw.sent.eq_of_length (by omega)
    have hno : ¬ (w.ssiCtx.ssi > 0 ∧ w.ssiCtx.cacheOffset > 0) := by
      rw [hssi]
      exact fun h => absurd h.1 (lt_irrefl 0)
    have hread : webReadContent env c w maxSize = ({ w with dwOperStage := stageEnd }, [], -1) := by
      simp only [webReadContent, readPage, if_neg hc, if_pos hend, if_neg hno]
    refine ⟨_, _, _, hread, ?_, .inl ⟨rfl, by rw [List.append_nil, hall]⟩⟩
    rw [List.append_nil]
    exact ⟨hw.file, hw.total, hw.index, hw.sent, hw.position⟩
  · -- a block of the file
    have hmin : 0 ≤ min (w.dwTotal - w.dwOperIndex) maxSize := by omega
    have hfits : out.length + (min (w.dwTotal - w.dwOperIndex) maxSize).toNat ≤ text.length := by omega
    obtain ⟨world, hread, hposition, -⟩ := readInto_serves hs w hmin (min_le_right _ _) (by omega) hw.position hfits
    generalize hblock : slice text out.length (min (w.dwTotal - w.dwOperIndex) maxSize).toNat = block
      at hread hposition
    have hlength : (block.length : ℤ) = min (w.dwTotal - w.dwOperIndex) maxSize := by
      rw [← hblock, slice, List.length_take, List.length_drop]
      omega
    have hcontent : webReadContent env c w maxSize =
        ({ w with
          world := world
          dwOperIndex := w.dwOperIndex + block.length
          dwOperStage := stageAfterBlock { w with world := world, dwOperIndex := w.dwOperIndex + block.length }
            w.ssiCtx }, block, (block.length : ℤ)) := by
      have hnull : w.ssiCtx.fp ≠ .null := by
        rw [hfp]
        exact Fp.noConfusion
      simp only [webReadContent, readPage, if_neg hc, if_neg hend, if_pos hssi, if_neg hnull]
      rw [hfp, hread]
    obtain ⟨rest, hrest⟩ := hw.sent
    have hsent : out ++ block <+: text := by
      rw [← hblock, slice, ← hrest, List.drop_left, List.prefix_append_right_inj]
      exact List.take_prefix _ _
    refine ⟨_, _, _, hcontent, ⟨hw.file, hw.total, ?_, hsent, ?_⟩, ?_⟩
    · show w.dwOperIndex + block.length = ((out ++ block).length : ℤ)
      rw [List.length_append, hindex]
      push_cast
      rfl
    · rw [List.length_append, ← Nat.add_assoc]
      exact hposition
    · show stageAfterBlock _ _ = stageEnd ∧ _ ∨ stageAfterBlock _ _ = _ ∧ _
      rw [stageAfterBlock_plain hssi]
      by_cases hdone : w.dwOperIndex + block.length ≥ w.dwTotal
      · refine .inl ⟨if_pos hdone, hsent.eq_of_length ?_⟩
        rw [List.length_append]
        omega
      · exact .inr ⟨if_neg hdone, by omega⟩

/-- Blocks of any size bring the body forward; blocks that are not empty bring it to its end. -/
theorem contentBlocks_serving {env : Env} {c : Core} (hc : c.requestMethod ≠ none) {h base : ℕ} {text : Bytes}
    (hs : Serves env h base text) (hsmall : text.length < 2 ^ 31) {w : Work} (hw : Serving h base text w [])
    (hstage : w.dwOperStage = 0) {sizes : ℕ → ℤ} (hsizes : ∀ n, 0 ≤ sizes n ∧ sizes n < 2 ^ 31) (n : ℕ) :
    Serving h base text (contentBlocks env c w sizes n).1 (contentBlocks env c w sizes n).2 ∧
      ((∀ k < n, 0 < sizes k) →
        (contentBlocks env c w sizes n).1.dwOperStage = stageEnd ∧ (contentBlocks env c w sizes n).2 = text ∨
        (contentBlocks env c w sizes n).1.dwOperStage = n ∧ n ≤ (contentBlocks env c w sizes n).2.length) := by
  induction n with
  | zero => exact ⟨hw, fun _ => .inr ⟨hstage, Nat.zero_le _⟩⟩
  | succ n ih =>
    obtain ⟨ih, hprogress⟩ := ih
    have hstep : contentBlocks env c w sizes (n + 1) =
        if (contentBlocks env c w sizes n).1.dwOperStage = stageEnd then contentBlocks env c w sizes n
        else ((webReadContent env c (contentBlocks env c w sizes n).1 (sizes n)).1,
          (contentBlocks env c w sizes n).2 ++
            (webReadContent env c (contentBlocks env c w sizes n).1 (sizes n)).2.1) := rfl
    by_cases hend : (contentBlocks env c w sizes n).1.dwOperStage = stageEnd
    · rw [hstep, if_pos hend]
      refine ⟨ih, fun hpos => ?_⟩
      rcases hprogress fun k hk => hpos k (Nat.lt_succ_of_lt hk) with hall | ⟨hcount, hle⟩
      · exact .inl hall
      · have hlength := ih.sent.length_le
        rw [hend] at hcount
        unfold stageEnd at hcount
        omega
    · obtain ⟨w', block, m, hblock, hserving, hafter⟩ := ih.block hc hs (hsizes n)
      rw [hstep, if_neg hend, hblock]
      refine ⟨hserving, fun hpos => ?_⟩
      rcases hprogress fun k hk => hpos k (Nat.lt_succ_of_lt hk) with hall | ⟨hcount, hle⟩
      · exact absurd hall.1 hend
      · rcases hafter with hall | ⟨hnext, hlength⟩
        · exact .inl hall
        · have hfull := hserving.sent.length_le
          have hmore := hpos n (Nat.lt_succ_self n)
          rw [List.length_append] at hfull
          refine .inr ⟨?_, ?_⟩
          · show w'.dwOperStage = n + 1
            rw [hnext, hcount]
            unfold nextStage
            omega
          · show n + 1 ≤ (_ ++ block).length
            rw [List.length_append]
            omega

/-- Nothing is read when nothing is left to send. -/
theorem contentBlocks_idle {env : Env} {c : Core} {w : Work} (hw : w.dwTotal - w.dwOperIndex = 0) (sizes : ℕ → ℤ)
    (n : ℕ) : (contentBlocks env c w sizes n).1.dwTotal - (contentBlocks env c w sizes n).1.dwOperIndex = 0 := by
  induction n with
  | zero => exact hw
  | succ n ih =>
    have hstep : contentBlocks env c w sizes (n + 1) =
        if (contentBlocks env c w sizes n).1.dwOperStage = stageEnd then contentBlocks env c w sizes n
        else ((webReadContent env c (contentBlocks env c w sizes n).1 (sizes n)).1,
          (contentBlocks env c w sizes n).2 ++
            (webReadContent env c (contentBlocks env c w sizes n).1 (sizes n)).2.1) := rfl
    rw [hstep]
    split_ifs
    · exact ih
    · show (webReadContent env c _ _).1.dwTotal - (webReadContent env c _ _).1.dwOperIndex = 0
      simp only [webReadContent, readPage, if_pos ih]
      split_ifs
      · exact ih
      · exact ih
      · exact ih

/-! ## Ranges -/

/-- The file that a response has to send, or nothing: after a redirect, a 304 or a 404. -/
inductive Page (env : Env) (c : Core) (w : Work) : Bytes → Prop
  | opened {h : ℕ} {file : Bytes} (method : c.requestMethod ≠ none) (ctx : w.ssiCtx.fp = .handle h ∧ w.ssiCtx.ssi = 0)
      (handle : w.fileHandle = .handle h) (total : w.dwTotal = file.length) (stable : Stable env h file)
      (small : file.length < 2 ^ 31) : Page env c w file
  | absent (handle : w.fileHandle = .null) (total : w.dwTotal = 0) : Page env c w []

theorem Page.total {env : Env} {c : Core} {w : Work} {file : Bytes} (h : Page env c w file) :
    w.dwTotal = file.length := by
  cases h with
  | opened _ _ _ total => exact total
  | absent _ total => exact total

/-- The headers of a response, and the blocks behind them. -/
def served (env : Env) (c : Core) (a : App) (info : Bytes) (sizes : ℕ → ℤ) (n : ℕ) : Work × Bytes :=
  contentBlocks env c (respond env c a info).toWork sizes n

/-- A range is announced and sent as the request asked for it, and no length is below zero. -/
structure RangeServed (env : Env) (c : Core) (a : App) (info file : Bytes) (sizes : ℕ → ℤ) : Prop where
  announced : partialContent <+: cstr (respond env c a info).sendBuffer →
    ∃ f t : ℤ, 0 ≤ f ∧ f ≤ t ∧ t < file.length ∧ f = c.rangeFrom ∧ t = min a.rangeTo file.length - 1 ∧
      headerRange f t file.length (getContentType a.extension) (t - f + 1) connectionHeader <+:
        cstr (respond env c a info).sendBuffer ∧
      ∀ n, (served env c a info sizes n).2 <+: slice file f.toNat (t - f + 1).toNat ∧
        ((∀ k < n, 0 < sizes k) →
          (served env c a info sizes n).1.dwOperStage = stageEnd ∨ t - f + 1 ≤ n →
          (served env c a info sizes n).2 = slice file f.toNat (t - f + 1).toNat)
  remaining : ∀ n, 0 ≤ (served env c a info sizes n).1.dwTotal - (served env c a info sizes n).1.dwOperIndex ∧
    0 ≤ min ((served env c a info sizes n).1.dwTotal - (served env c a info sizes n).1.dwOperIndex) (sizes n)

/-- A range that begins inside the file is served. -/
theorem served_inside {env : Env} {c : Core} {a : App} {info : Bytes} (hc : c.requestMethod ≠ none)
    (hheaded : Headed c { a with dwOperStage := 0, dwOperIndex := 0 } (respond env c a info)) {h : ℕ} {file : Bytes}
    (hctx : a.ssiCtx.fp = .handle h ∧ a.ssiCtx.ssi = 0) (hhandle : a.fileHandle = .handle h)
    (htotal : a.dwTotal = file.length) (hs : Stable env h file) (hsmall : file.length < 2 ^ 31)
    (hfrom : 0 ≤ c.rangeFrom) (hto : c.rangeFrom < a.rangeTo) (hinside : c.rangeFrom < a.dwTotal) {sizes : ℕ → ℤ}
    (hsizes : ∀ n, 0 ≤ sizes n ∧ sizes n < 2 ^ 31) (n : ℕ) :
    Serving h c.rangeFrom.toNat (slice file c.rangeFrom.toNat (min a.rangeTo file.length - c.rangeFrom).toNat)
        (served env c a info sizes n).1 (served env c a info sizes n).2 ∧
      ((∀ k < n, 0 < sizes k) →
        (served env c a info sizes n).1.dwOperStage = stageEnd ∨ min a.rangeTo file.length - c.rangeFrom ≤ n →
        (served env c a info sizes n).2 =
          slice file c.rangeFrom.toNat (min a.rangeTo file.length - c.rangeFrom).toNat) := by
  have hlength : (slice file c.rangeFrom.toNat (min a.rangeTo file.length - c.rangeFrom).toNat).length =
      (min a.rangeTo file.length - c.rangeFrom).toNat := by
    rw [slice, List.length_take, List.length_drop]
    omega
  have hcontext : (respond env c a info).ssiCtx = a.ssiCtx := congrArg AppContext.asSsi hheaded.context
  have hposition : (respond env c a info).world.files.position h = c.rangeFrom.toNat := by
    have hseek : (a.world.webFseek a.fileHandle c.rangeFrom).files.position h = c.rangeFrom.toNat := by
      rw [hhandle]
      simp only [World.webFseek, if_neg (not_lt.mpr hfrom), Function.update_self]
    have hfiles := congrArg (fun f : Files => f.position h) hheaded.files
    exact hfiles.trans hseek
  have hstart : Serving h c.rangeFrom.toNat
      (slice file c.rangeFrom.toNat (min a.rangeTo file.length - c.rangeFrom).toNat)
      (respond env c a info).toWork [] := by
    refine ⟨by rw [hcontext]; exact hctx, ?_, hheaded.index, List.nil_prefix, hposition⟩
    have htot : (respond env c a info).dwTotal = min a.rangeTo a.dwTotal - c.rangeFrom := hheaded.total
    rw [hlength, htot, htotal]
    omega
  have hserve := contentBlocks_serving hc (serves_slice hs _ _) (by omega) hstart hheaded.stage hsizes n
  refine ⟨hserve.1, fun hpos hend => ?_⟩
  have hsent : (served env c a info sizes n).2 <+: _ := hserve.1.sent
  rcases hserve.2 hpos with hall | ⟨hstage, hcount⟩
  · exact hall.2
  · have hle := hsent.length_le
    have hcount' : n ≤ (served env c a info sizes n).2.length := hcount
    refine hsent.eq_of_length ?_
    rcases hend with hend | hend
    · have hn : n = stageEnd := hstage.symm.trans hend
      unfold stageEnd at hn
      omega
    · omega

section Ranges

variable {env : Env} {c : Core} {a : App} {file : Bytes} {info : Bytes} {sizes : ℕ → ℤ}

theorem respond_headed (hc : c.handler = some .auth ∨ c.handler = some .form ∨ c.handler = some .webApp)
    (hto : c.rangeFrom < a.rangeTo) :
    Headed c { a with dwOperStage := 0, dwOperIndex := 0 } (respond env c a info) :=
  @cgiSetResponseHeaders_headed c hc { a with dwOperStage := 0, dwOperIndex := 0 } hto env info

/-- What is left to be sent when the headers are made. -/
theorem respond_left (hheaded : Headed c { a with dwOperStage := 0, dwOperIndex := 0 } (respond env c a info)) :
    (respond env c a info).dwTotal - (respond env c a info).dwOperIndex =
      min a.rangeTo a.dwTotal - c.rangeFrom := by
  rw [hheaded.total, hheaded.index]
  exact Int.sub_zero _

/-- A range that is served begins in the file, or at its end with other headers. -/
theorem RangeServed.begins (h : RangeServed env c a info file sizes) (hpage : Page env c a.toWork file)
    (hc : c.handler = some .auth ∨ c.handler = some .form ∨ c.handler = some .webApp)
    (hto : c.rangeFrom < a.rangeTo) :
    c.rangeFrom < a.dwTotal ∨ c.rangeFrom = a.dwTotal ∧ OtherHeader c a := by
  have hheaded := @respond_headed env c a info hc hto
  have htotal := hpage.total
  have hnonneg : 0 ≤ (respond env c a info).dwTotal - (respond env c a info).dwOperIndex := (h.remaining 0).1
  rw [respond_left hheaded] at hnonneg
  by_cases hlt : c.rangeFrom < a.dwTotal
  · exact .inl hlt
  · refine .inr ⟨by omega, ?_⟩
    by_contra hother
    have hrange := hheaded.range hother
    obtain ⟨f, t, -, hft, -, hf, ht, -⟩ := h.announced ((headerRange_start _ _ _ _ _ _).trans hrange)
    omega

/-- A range that begins in the file is announced and sent. -/
theorem rangeServed_inside (hc : c.handler = some .auth ∨ c.handler = some .form ∨ c.handler = some .webApp)
    (hpage : Page env c a.toWork file) (hfrom : 0 ≤ c.rangeFrom) (hto : c.rangeFrom < a.rangeTo)
    (hsizes : ∀ n, 0 ≤ sizes n ∧ sizes n < 2 ^ 31) (hinside : c.rangeFrom < a.dwTotal) :
    RangeServed env c a info file sizes := by
  have hheaded := @respond_headed env c a info hc hto
  cases hpage with
  | absent _ hzero => omega
  | @opened h file method ctx handle total stable small =>
    have hserve (n : ℕ) := @served_inside env c a info method hheaded h file ctx handle total stable small hfrom
      hto hinside sizes hsizes n
    refine ⟨fun hpartial => ?_, fun n => ?_⟩
    · by_cases hother : OtherHeader c a
      · exact absurd hpartial (hheaded.other hother)
      · have hrange := hheaded.range hother
        have hsize : min a.rangeTo file.length - 1 - c.rangeFrom + 1 =
            min a.rangeTo file.length - c.rangeFrom := by omega
        refine ⟨c.rangeFrom, min a.rangeTo file.length - 1, hfrom, by omega, by omega, rfl, rfl, ?_, ?_⟩
        · rw [hsize]
          have htot : a.dwTotal = file.length := total
          simp only [htot] at hrange
          exact hrange
        · intro n
          rw [hsize]
          exact ⟨(hserve n).1.sent, (hserve n).2⟩
    · have hle := (hserve n).1.sent.length_le
      have htot := (hserve n).1.total
      have hindex := (hserve n).1.index
      have hsize := hsizes n
      omega

/-- A range at the end of the file with other headers has nothing to send. -/
theorem rangeServed_end (hc : c.handler = some .auth ∨ c.handler = some .form ∨ c.handler = some .webApp)
    (hto : c.rangeFrom < a.rangeTo) (hsizes : ∀ n, 0 ≤ sizes n ∧ sizes n < 2 ^ 31)
    (hend : c.rangeFrom = a.dwTotal) (hother : OtherHeader c a) : RangeServed env c a info file sizes := by
  have hheaded := @respond_headed env c a info hc hto
  refine ⟨fun hpartial => absurd hpartial (hheaded.other hother), fun n => ?_⟩
  have hzero : (respond env c a info).dwTotal - (respond env c a info).dwOperIndex = 0 := by
    rw [respond_left hheaded]
    omega
  have hidle := @contentBlocks_idle env c _ hzero sizes n
  have hsize := hsizes n
  unfold served
  omega

end Ranges

/-- A range is served exactly when it begins inside the file, or when it begins at the end of the file and the
headers were begun by something else. -/
theorem range_serving (env : Env) {c : Core} (hc : c.handler = some .auth ∨ c.handler = some .form ∨
    c.handler = some .webApp) {a : App} {file : Bytes} (hpage : Page env c a.toWork file) (info : Bytes)
    (hfrom : 0 ≤ c.rangeFrom) (hto : c.rangeFrom < a.rangeTo) {sizes : ℕ → ℤ}
    (hsizes : ∀ n, 0 ≤ sizes n ∧ sizes n < 2 ^ 31) :
    RangeServed env c a info file sizes ↔
      c.rangeFrom < a.dwTotal ∨ c.rangeFrom = a.dwTotal ∧ OtherHeader c a := by
  constructor
  · exact fun h => h.begins hpage hc hto
  · rintro (hinside | ⟨hend, hother⟩)
    · exact rangeServed_inside hc hpage hfrom hto hsizes hinside
    · exact rangeServed_end hc hto hsizes hend hother

/-! ## The page of a request -/

/-- No file changes while the server runs. -/
def StableFiles (env : Env) : Prop :=
  ∀ h, ∃ file : Bytes, Stable env h file ∧ (∀ n, env.fsize n h = file.length) ∧ file.length < 2 ^ 31

/-- What is in front of the open of a page leaves the file of the response alone. -/
theorem chunkSsi_kept (c : Core) (w : Work) : (chunkSsi c (defaultPage w)).fileHandle = w.fileHandle ∧
    (chunkSsi c (defaultPage w)).dwTotal = w.dwTotal := by
  unfold chunkSsi defaultPage
  split_ifs <;> exact ⟨rfl, rfl⟩

theorem sniffGzip_kept (env : Env) (w : Work) (fp : Fp) : (sniffGzip env w fp).fileHandle = w.fileHandle ∧
    (sniffGzip env w fp).dwTotal = w.dwTotal := by
  unfold sniffGzip
  split
  · exact ⟨rfl, rfl⟩
  · exact ⟨rfl, rfl⟩

theorem lastModifiedLine_kept (env : Env) (c : Core) (w : Work) :
    (lastModifiedLine env c w).1.fileHandle = w.fileHandle ∧ (lastModifiedLine env c w).1.dwTotal = w.dwTotal := by
  unfold lastModifiedLine World.webFtime
  simp only
  split_ifs <;> exact ⟨rfl, rfl⟩

/-- After `WEB_RequestReceived` a response that is not an SSI page has the file it opened, or nothing. -/
theorem webRequestReceived_page {env : Env} (hfiles : StableFiles env) {c : Core} (hc : c.requestMethod ≠ none)
    {w : Work} (hhandle : w.fileHandle = .null) (htotal : w.dwTotal = 0)
    (hplain : (webRequestReceived env c w).ssiCtx.ssi = 0) :
    ∃ file, Page env c (webRequestReceived env c w) file := by
  obtain ⟨hkeptHandle, hkeptTotal⟩ := chunkSsi_kept c w
  revert hplain
  unfold webRequestReceived
  simp only
  generalize chunkSsi c (defaultPage w) = w' at hkeptHandle hkeptTotal
  rw [hhandle] at hkeptHandle
  rw [htotal] at hkeptTotal
  rcases hopen : w'.world.webFopen env c.sid w'.responsePath (bytes "rb") with ⟨world, fp⟩
  cases fp with
  | null => exact fun _ => ⟨[], .absent hkeptHandle hkeptTotal⟩
  | wild b =>
    unfold World.webFopen at hopen
    simp only at hopen
    split_ifs at hopen
    · exact absurd (congrArg Prod.snd hopen) Fp.noConfusion
    · exact absurd (congrArg Prod.snd hopen) Fp.noConfusion
  | handle h =>
    intro hplain
    obtain ⟨hsniffHandle, hsniffTotal⟩ := sniffGzip_kept env { w' with world := world } (.handle h)
    obtain ⟨hlineHandle, hlineTotal⟩ :=
      lastModifiedLine_kept env c (sniffGzip env { w' with world := world } (.handle h))
    simp only [pageOpened] at hplain ⊢
    rcases hline : lastModifiedLine env c (sniffGzip env { w' with world := world } (.handle h)) with
      ⟨w₁, line, newer⟩
    rw [hline] at hlineHandle hlineTotal hplain
    cases newer with
    | true =>
      obtain ⟨file, hstable, hsize, hsmall⟩ := hfiles h
      exact ⟨file, .opened hc ⟨rfl, hplain⟩ rfl (hsize _) hstable hsmall⟩
    | false =>
      exact ⟨[], .absent (hlineHandle.trans (hsniffHandle.trans hkeptHandle))
        (hlineTotal.trans (hsniffTotal.trans hkeptTotal))⟩

/-- From `WEB_RequestReceived` on: a plain page that it opened is served like that. -/
theorem requested_range_iff {env : Env} (hfiles : StableFiles env) {c : Core}
    (hc : c.handler = some .auth ∨ c.handler = some .form ∨ c.handler = some .webApp)
    (hmethod : c.requestMethod ≠ none) {a : App} (hhandle : a.fileHandle = .null) (htotal : a.dwTotal = 0)
    (hplain : (webRequestReceived env c a.toWork).ssiCtx.ssi = 0) (info : Bytes) (hfrom : 0 ≤ c.rangeFrom)
    (hto : c.rangeFrom < (webRequestReceived env c a.toWork).rangeTo) {sizes : ℕ → ℤ}
    (hsizes : ∀ n, 0 ≤ sizes n ∧ sizes n < 2 ^ 31) :
    ∃ file, Page env c (webRequestReceived env c a.toWork) file ∧
      (RangeServed env c (a.onWork (webRequestReceived env c)) info file sizes ↔
        c.rangeFrom < (webRequestReceived env c a.toWork).dwTotal ∨
          c.rangeFrom = (webRequestReceived env c a.toWork).dwTotal ∧
            OtherHeader c (a.onWork (webRequestReceived env c))) := by
  obtain ⟨file, hpage⟩ := webRequestReceived_page hfiles hmethod hhandle htotal hplain
  refine ⟨file, hpage, fun h => h.begins hpage hc hto, ?_⟩
  rintro (hinside | ⟨hend, hother⟩)
  · exact rangeServed_inside hc hpage hfrom hto hsizes hinside
  · exact rangeServed_end hc hto hsizes hend hother

/-! ## Two requests -/

/-- A request for bytes of a page, by way of the parser. -/
def askRange (rangeFrom : ℤ) : Core :=
  { Core.zero 0 with requestMethod := some .get, handler := some .webApp, rangeFrom := rangeFrom }

/-- The file that the request gets. -/
def hello : Bytes := bytes "hello"

/-- The page is open. -/
def helloPage (rangeFrom rangeTo : ℤ) : App :=
  (App.zero World.boot).onWork fun w => webRequestReceived (Env.calm hello) (askRange rangeFrom)
    { w with extension := bytes "txt", responsePath := bytes "/app/hello.txt", rangeTo := rangeTo }

theorem helloPage_page (rangeFrom rangeTo : ℤ) :
    Page (Env.calm hello) (askRange rangeFrom) (helloPage rangeFrom rangeTo).toWork hello :=
  @Page.opened _ _ _ 0 hello (Option.some_ne_none _) ⟨rfl, rfl⟩ rfl rfl (fun _ _ _ => rfl) (by decide)

theorem range_serving_hello :
    RangeServed (Env.calm hello) (askRange 1) (helloPage 1 3) (bytes "200 OK") hello fun _ => 1 :=
  (range_serving (Env.calm hello) (.inr (.inr rfl)) (helloPage_page 1 3) (bytes "200 OK") (by decide)
    (by decide +kernel) fun _ => by decide).mpr (.inl (by decide +kernel))

theorem range_serving_fails :
    ¬ ∀ (env : Env) (c : Core) (a : App) (info file : Bytes) (sizes : ℕ → ℤ),
      (c.handler = some .auth ∨ c.handler = some .form ∨ c.handler = some .webApp) → Page env c a.toWork file →
      0 ≤ c.rangeFrom → c.rangeFrom < a.rangeTo → (∀ n, 0 ≤ sizes n ∧ sizes n < 2 ^ 31) →
      RangeServed env c a info file sizes := by
  intro h
  have hserved := h (Env.calm hello) (askRange 10) (helloPage 10 21) (bytes "200 OK") hello (fun _ => 1)
    (.inr (.inr rfl)) (helloPage_page 10 21) (by decide) (by decide +kernel) fun _ => by decide
  have hleft := (hserved.remaining 0).1
  have hless : (served (Env.calm hello) (askRange 10) (helloPage 10 21) (bytes "200 OK") (fun _ => 1) 0).1.dwTotal -
      (served (Env.calm hello) (askRange 10) (helloPage 10 21) (bytes "200 OK") (fun _ => 1) 0).1.dwOperIndex = -5 := by
    decide +kernel
  rw [hless] at hleft
  exact absurd hleft (by decide)

end StraightHttpd
