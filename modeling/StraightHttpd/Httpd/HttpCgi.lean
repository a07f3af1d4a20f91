import StraightHttpd.Httpd.Cgi.Auth
import StraightHttpd.Httpd.Cgi.Files
import StraightHttpd.Httpd.Cgi.Form
import StraightHttpd.Httpd.Cgi.Ssdp
import StraightHttpd.Httpd.Cgi.Upload

/-! # The CGI layer (`http_cgi.c`)

The table of mappings, and the functions through which `http_core.c` calls the handlers. Callbacks
that the access rules guard are noted in the history of the connection.
-/

set_option autoImplicit false

namespace StraightHttpd
open CMemory

/-! ## Mappings -/

/-- `struct CGI_Mapping`. A callback that is NULL is `none`; `OnCancel`, which only logs, is left
out. -/
structure Mapping where
  path : Bytes
  optionsAllowed : Options
  onHeaderReceived : Option (Core → Work → Bytes → Work × Bool)
  onHeadersReceived : Option (Env → Core → App → App)
  onContentReceived : Option (Env → Core → App → Bytes → ℤ → App × ℤ)
  onRequestReceived : Option (Env → Core → App → App)
  setResponseHeaders : Option (Core → App → Bytes → App)
  readContent : Option (Env → Core → Work → ℤ → Work × Bytes × ℤ)
  onAllSent : Option (Core → Work → Work)
  onFinished : Option (Core → Work → Work)

/-- `CGI_Append`: a `*` ends the path and makes it a prefix. -/
def cgiAppend (path : Bytes) (options : Options) (m : Mapping) : Mapping :=
  { m with
    path := path.takeWhile (· != 42)
    optionsAllowed := { options with prefixWildcard := path.contains 42 } }

/-- A mapping without callbacks. -/
def Mapping.empty : Mapping :=
  ⟨[], Options.none, none, none, none, none, none, none, none, none⟩

/-- The mappings, with the paths and options that `CGI_SetupMapping` gives them. -/
def Cgi.mapping : Cgi → Mapping
  | .ssdp => cgiAppend (bytes "/upnp_device.xml")
      { Options.none with getEnabled := true, chunkEnabled := true }
      { Mapping.empty with
        setResponseHeaders := some ssdpSendHeader
        readContent := some fun _ => ssdpSending }
  | .auth => cgiAppend (bytes "/auth/*") { Options.none with getEnabled := true, postEnabled := true }
      { Mapping.empty with
        onHeadersReceived := some fun _ _ a => a.onWork authOnHeaders
        onContentReceived := some fun _ _ a buffer size =>
          let (w, n) := authOnPostData a.toWork buffer size
          ({ a with toWork := w }, n)
        onRequestReceived := some fun env c a => a.onWork (authOnRequestReceived env c)
        setResponseHeaders := some authSetResponseHeaders
        readContent := some webReadContent
        onAllSent := some webAllSent
        onFinished := some webFinished }
  | .form => cgiAppend (bytes "/app/form.shtml")
      { Options.none with authRequired := true, getEnabled := true, postEnabled := true }
      { Mapping.empty with
        onHeadersReceived := some fun _ c a => formOnHeadersReceived c a
        onContentReceived := some webOnFormReceived
        onRequestReceived := some formOnRequestReceived
        setResponseHeaders := some webAppendHeaders
        readContent := some webReadContent
        onAllSent := some formAllSent }
  | .files => cgiAppend (bytes "/api/files.cgi")
      { Options.none with authRequired := true, getEnabled := true, chunkEnabled := true }
      { Mapping.empty with
        onRequestReceived := some fun env c a => a.onWork (filesOnRequestReceived env c)
        setResponseHeaders := some filesSetResponseHeader
        readContent := some filesReadOneFileInfo }
  | .upload => cgiAppend (bytes "/api/upload.cgi")
      { Options.none with authRequired := true, postEnabled := true }
      { Mapping.empty with
        onHeaderReceived := some uploadOnHeaderReceived
        onHeadersReceived := some fun env c a => a.onWork (uploadOnHeadersReceived env c)
        onContentReceived := some fun env c a buffer size =>
          let (w, n) := uploadOnContentReceived env c a.toWork buffer size
          ({ a with toWork := w }, n)
        onRequestReceived := some fun _ c a => a.onWork (uploadAllReceived c) }
  | .webApp => cgiAppend (bytes "/app/*") { Options.none with authRequired := true, getEnabled := true }
      { Mapping.empty with
        onRequestReceived := some fun env c a => a.onWork (webRequestReceived env c)
        setResponseHeaders := some webAppendHeaders
        readContent := some webReadContent
        onAllSent := some webAllSent
        onFinished := some webFinished }

/-- `g_cgiMapping`, in search order. -/
def cgiMappings : List Cgi := [.ssdp, .auth, .form, .files, .upload, .webApp]

/-- A path matches a mapping: as its prefix, or as a whole. -/
def Mapping.matches (m : Mapping) (requestPath : Bytes) : Bool :=
  (if m.optionsAllowed.prefixWildcard then decide (strlen m.path ≤ strlen requestPath)
    else decide (strlen m.path = strlen requestPath)) &&
  strnicmp requestPath m.path (strlen m.path) == 0

/-! ## Calling the handlers -/

namespace Sys

def note (s : Sys) (o : Obs) : Sys := { s with core := s.core.note o }

def onApp (s : Sys) (f : App → App) : Sys := { s with app := f s.app }

def onWork (s : Sys) (f : Work → Work) : Sys := s.onApp fun a => a.onWork f

/-- `CGI_SetCgiHandler`: without a match, `_options` keeps what it was. -/
def cgiSetCgiHandler (s : Sys) : Sys :=
  match cgiMappings.find? fun m => m.mapping.matches s.core.requestPath with
  | some m =>
    { s with core := { s.core with handler := some m } }.onWork
      fun w => { w with options := m.mapping.optionsAllowed }
  | none => { s with core := { s.core with handler := none } }

/-- `CGI_HeaderReceived` -/
def cgiHeaderReceived (s : Sys) (line : Bytes) : Sys :=
  let s := s.note (.line s.core.handler line)
  match s.core.handler.bind fun m => m.mapping.onHeaderReceived with
  | some f => s.onWork fun w => (f s.core w line).1
  | none => s

/-- The method of the request is enabled. -/
def methodEnabled (s : Sys) : Bool :=
  (s.core.requestMethod = some .get && s.app.options.getEnabled) ||
    (s.core.requestMethod = some .post && s.app.options.postEnabled)

/-- `CGI_HeadersReceived`, the requests that no callback takes. -/
def cgiRefuse (s : Sys) : Sys :=
  if s.app.result < 0 then s
  else if s.app.world.httpsListening ∧ ¬ s.core.https ∧
      strnicmp s.core.requestPath (bytes "upnp_device.xml") 15 ≠ 0 then
    s.onWork fun w =>
      let host := Device.dotted w.world.device.getMyIP
      { w with
        responsePath := bytes "https://" ++ host ++ [47]
        authorized := 0
        result := codeRedirect }
  else if sessionTypes s.app.extension ∧ s.core.handler = none then
    s.onWork fun w =>
      { w with responsePath := webDefaultPage, authorized := 0, result := codeRedirect }
  else s.onWork fun w => { w with result := if s.core.requestMethod = some .get then -404 else -500 }

/-- `CGI_HeadersReceived` -/
def cgiHeadersReceived (env : Env) (s : Sys) : Sys :=
  match s.core.handler with
  | none => s.cgiRefuse
  | some m =>
    if s.app.options.authRequired ∧ s.app.authorized ≠ codeOk then
      s.onWork fun w => { w with result := w.authorized }
    else if s.methodEnabled then
      match m.mapping.onHeadersReceived with
      | some f => (s.note (.call .headersReceived m)).onApp (f env s.core)
      | none => s
    else s.cgiRefuse

/-- `CGI_ContentReceived` of the bytes in the request buffer, of which `size` are offered. -/
def cgiContentReceived (env : Env) (s : Sys) (size : ℤ) : Sys × ℤ :=
  match s.core.handler with
  | none => (s, 0)
  | some m =>
    match m.mapping.onContentReceived with
    | some f =>
      let remaining := s.core.contentLength - s.core.contentReceived
      let s := s.note (.call (.contentReceived size remaining s.core.rx.requestLength) m)
      let (a, consumed) := f env s.core s.app s.core.rx.httpRequestBuffer size
      ({ s with app := a }, consumed)
    | none => (s, 0)

/-- More notes. -/
def noteAll (s : Sys) (new : List Obs) : Sys :=
  { s with core := { s.core with hist := new ++ s.core.hist } }

/-- The slot of the session that the request had and what was in it, if the session was live and has
been changed since `before`. -/
def touchedSince (s before : Sys) : Option (Fin maxSessions × Session) :=
  (before.app.session.map fun i => (i, before.app.world.sessions i)).filter fun (i, session) =>
    session.Live ∧ s.app.world.sessions i ≠ session

/-- The slot of the session that the request has and what is in it, if it was made since `before`. -/
def loginSince (s before : Sys) : Option (Fin maxSessions × Session) :=
  (s.app.session.map fun i => (i, s.app.world.sessions i)).filter fun (i, session) =>
    session.Live ∧ ¬ (before.app.world.sessions i).Live

/-- Note what has become of the sessions since `before`. -/
def noteSession (s before : Sys) : Sys :=
  s.noteAll (((s.loginSince before).toList.map fun (i, session) => .login i session) ++
    (s.touchedSince before).toList.map fun (i, session) => .touched i session)

/-- `CGI_RequestReceived` -/
def cgiRequestReceived (env : Env) (s : Sys) : Sys :=
  match s.core.handler with
  | none => s
  | some m =>
    match m.mapping.onRequestReceived with
    | some f => ((s.note (.call .requestReceived m)).onApp (f env s.core)).noteSession s
    | none => s

/-- `CGI_Finish` -/
def cgiFinish (s : Sys) : Sys :=
  match s.core.handler.bind fun m => m.mapping.onFinished with
  | some f => s.onWork (f s.core)
  | none => s

end Sys

/-! ## Response headers -/

def redirectBody1 : Bytes := bytes "<html><head/><body><script>location.href='" -- redirect_body1
def redirectBody2 : Bytes := bytes "';</script></body></html>" -- redirect_body2

/-- The `Date` and `Server` lines and the line that ends the headers. -/
def closingHeaders (date : Bytes) : Bytes :=
  bytes "Date: " ++ (cstr date).take 31 ++ crlf ++ bytes "Server: straight/1.1" ++ crlf ++ crlf

/-- The page that a redirect sends along. -/
def redirectPage (a : App) : Bytes := redirectBody1 ++ cstr a.responsePath ++ redirectBody2

/-- The beginning of `CGI_SetResponseHeaders`: an empty buffer, or the header of a redirect. -/
def startHeaders (a : App) : App :=
  let m := poke a.sendBuffer 0 [0]
  let text := headerGeneric (bytes "200 OK") (bytes "text/html") (redirectPage a).length (bytes "close")
  { a with sendBuffer := if a.result = codeRedirect then sprintfAt m 0 text else m }

/-- `context->handler->SetResponseHeaders` -/
def handlerHeaders (c : Core) (a : App) (httpCodeInfo : Bytes) : App :=
  match c.handler.bind fun m => m.mapping.setResponseHeaders with
  | some f => f c a httpCodeInfo
  | none => a

/-- `CGI_SetResponseHeaders` -/
def cgiSetResponseHeaders (env : Env) (c : Core) (a : App) (httpCodeInfo : Bytes) : App :=
  let a := handlerHeaders c (startHeaders a) httpCodeInfo
  let plain := headerGeneric httpCodeInfo (bytes "text/html") 0 connectionHeader
  let m := if peek a.sendBuffer 0 = 0 then sprintfAt a.sendBuffer 0 plain else a.sendBuffer
  let m := strcat m (closingHeaders (env.gmt (env.time a.world.calls)))
  let m := if a.result = codeRedirect then strcat m (redirectPage a) else m
  { a with sendBuffer := m, bytesLeft := strlen m, world := a.world.asked }

/-! ## Content -/

/-- `\r\n0\r\n\r\n` -/
def chunkTail : Bytes := crlf ++ [48] ++ crlf ++ crlf

/-- A write up to offset `n` of `_sendBuffer`. -/
def Work.sendBufferTo (w : Work) (n : ℕ) : Work := if maxSendBufSize < n then w.faulted else w

/-- The part of `CGI_LoadContentToSend` that asks `ReadContent` for a block. A chunk is read ten
bytes behind the place it goes to, its size line is written in front of it, and the whole is moved
down. The result is what `ReadContent` returned, with the bytes of the chunk format counted in. -/
def loadBlock (read : Work → ℤ → Work × Bytes × ℤ) (sendMaxBlock : ℤ) (a : App) : App × ℤ :=
  let pReadTo := a.bytesLeft.toNat
  let nFreeSize := sendMaxBlock - a.bytesLeft - 2
  if ¬ a.options.chunkEnabled then
    match read a.toWork nFreeSize with
    | (w, data, size) =>
      let w := w.sendBufferTo (pReadTo + data.length)
      let a := { a with toWork := w, sendBuffer := poke a.sendBuffer pReadTo data }
      if size < 0 then ({ a with dwOperStage := stageEnd }, size)
      else ({ a with bytesLeft := a.bytesLeft + size }, size)
  else
    let szCRLF := if a.dwOperStage = 0 ∧ a.dwOperIndex = 0 then [] else crlf
    match read a.toWork (nFreeSize - 10) with
    | (w, data, size) =>
      let w := w.sendBufferTo (pReadTo + 10 + data.length)
      let a := { a with toWork := w, sendBuffer := poke a.sendBuffer (pReadTo + 10) data }
      if size > 0 then
        let szSize := szCRLF ++ hexText size.toNat ++ crlf
        let head := pReadTo + 10 - szSize.length
        let m := poke a.sendBuffer head szSize
        let n := szSize.length + size.toNat
        let tail := if a.dwOperStage = stageEnd then chunkTail else []
        let m := poke m (head + n) tail
        let a := a.onWork fun w => w.sendBufferTo (head + n + tail.length)
        let n := n + tail.length
        ({ a with sendBuffer := poke m pReadTo (slice m head n), bytesLeft := a.bytesLeft + n }, n)
      else (a, size)

namespace Sys

/-- What was appended to the send buffer since `a`. -/
def noteContent (s : Sys) (a : App) : Sys :=
  s.note (.content (slice s.app.sendBuffer a.bytesLeft.toNat (s.app.bytesLeft - a.bytesLeft).toNat))

/-- `CGI_LoadContentToSend`: 1 for data, 0 for none at present, -1 for the end. -/
def cgiLoadContentToSend (env : Env) (s : Sys) (caller : Caller) : Sys × ℤ :=
  if s.core.requestMethod ≠ none ∧ s.app.dwOperStage ≥ stageEnd ∧ caller = .sent ∧
      s.core.totalSent ≥ s.core.total2Send then
    match s.core.handler with
    | none => (s.onWork Work.faulted, -1)
    | some m =>
      match m.mapping.onAllSent with
      | some f => (s.onWork (f s.core), -1)
      | none => (s, -1)
  else
    match s.core.handler with
    | none => (s, -1)
    | some m =>
      match m.mapping.readContent with
      | none => (s, -1)
      | some f =>
        if s.app.dwOperStage ≥ stageEnd then (s, 0)
        else
          let s := s.note (.call .readContent m)
          match loadBlock (f env s.core) s.core.sendMaxBlock s.app with
          | (a, size) =>
            let s' := { s with app := a }.noteContent s.app
            (s', if size < 0 then -1 else if size = 0 then 0 else 1)

end Sys

end StraightHttpd
