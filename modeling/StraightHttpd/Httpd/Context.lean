import StraightHttpd.Port.Device
import StraightHttpd.Httpd.ReceiveQueue
import StraightHttpd.Httpd.Session

/-! # Contexts (`http_core.h`, `http_cgi.h`)

The state of a connection, cut by who writes it. `Core` is written by `http_core.c` only, so the
handlers read it and the types say that they leave it alone. `Work` is what the handlers change
besides the send buffer, together with the `World` that all connections share; `App` adds the send
buffer.

What the program asks of its surroundings (lwIP, the file system, the clock) comes from `Env`: the
answer to the `n`-th question is a function of `n` and of what was asked, so an `Env` is any
behaviour of the surroundings.
-/

set_option autoImplicit false

namespace StraightHttpd
open CMemory

def maxSendBufSize : ℕ := 1600 -- MAX_SEND_BUF_SIZE = 2*TCP_MSS
def maxAppContextSize : ℕ := 256 -- MAX_APP_CONTEXT_SIZE
def maxConnections : ℕ := 4 -- MAX_CONNECTIONS
def toRecv : ℕ := 60 * 1000 -- TO_RECV
def toSent : ℕ := 60 * 1000 -- TO_SENT
def stageEnd : ℕ := 0xFFFFFFFF -- STAGE_END

def codeOk : ℤ := 200 -- CODE_OK
def codeRedirect : ℤ := -307 -- CODE_REDIRECT
def codeUnauthorized : ℤ := -401 -- CODE_UNAUTHORIZED

def webDefaultPage : Bytes := bytes "/auth/login.html"
def webSessionCheck : Bytes := bytes "/auth/session_check.cgi"
def webLogoutPage : Bytes := bytes "/auth/logout.cgi"
def webAppPage : Bytes := bytes "/app/index.shtml"

def crlf : Bytes := [13, 10]

/-- `_requestMethod` once it is known. -/
inductive Method
  | get
  | post
  deriving DecidableEq, Repr

/-- `HTTP_STATE_*`, the two that are never entered left out. -/
inductive HttpState
  | idle
  | headerReceiving
  | headerDone
  | chunkLenReceiving
  | chunkReceiving
  | bodyReceiving
  | bodyDone
  | sendingHeader
  | sendingBody
  | requestEnd
  deriving DecidableEq, Repr

/-- The number of a state, by which the code compares states. -/
def HttpState.code : HttpState → ℕ
  | idle => 0
  | headerReceiving => 1
  | headerDone => 2
  | chunkLenReceiving => 3
  | chunkReceiving => 5
  | bodyReceiving => 7
  | bodyDone => 8
  | sendingHeader => 9
  | sendingBody => 10
  | requestEnd => 11

/-- `HTTP_PROC_CALLER_*` -/
inductive Caller
  | recv
  | poll
  | sent
  deriving DecidableEq, Repr

/-- The registered mappings, in the order of `CGI_SetupMapping`. -/
inductive Cgi
  | ssdp
  | auth
  | form
  | files
  | upload
  | webApp
  deriving DecidableEq, Repr

/-- `CGI_OPT_*` -/
structure Options where
  authRequired : Bool
  prefixWildcard : Bool
  getEnabled : Bool
  postEnabled : Bool
  chunkEnabled : Bool
  gzip : Bool
  deriving DecidableEq, Repr

def Options.none : Options := ⟨false, false, false, false, false, false⟩

/-! ## The application context -/

/-- A `void*` that holds a file: NULL, a handle by its serial number, or bytes that are no handle. -/
inductive Fp
  | null
  | handle (h : ℕ)
  | wild (v : ℕ)
  deriving DecidableEq, Repr

/-- `SSI_Context`. `_source`, `_buffer` and `_options` are always zero. -/
structure SsiContext where
  fp : Fp
  lastModified : Bytes
  ssi : ℤ
  ssiState : ℤ
  tagLength : ℤ
  tagName : Bytes
  cacheOffset : ℤ
  cache : Bytes
  deriving DecidableEq, Repr

/-- After `memset(ctxSSI, 0, sizeof(SSI_Context))`. -/
def SsiContext.zero : SsiContext where
  fp := .null
  lastModified := []
  ssi := 0
  ssiState := 0
  tagLength := 0
  tagName := []
  cacheOffset := 0
  cache := []

/-- `_appContext` holds text of a handler, or an `SSI_Context`. -/
inductive AppContext
  | raw (m : Bytes)
  | ssi (c : SsiContext)
  deriving DecidableEq, Repr

def AppContext.zero : AppContext := .raw (List.replicate maxAppContextSize 0)

/-- A little-endian `short`. -/
def short (m : Bytes) (i : ℕ) : ℤ :=
  Int.bmod ((peek m i).toNat + 256 * (peek m (i + 1)).toNat) 65536

/-- A little-endian pointer. -/
def pointer (m : Bytes) (i : ℕ) : Fp :=
  let v := (peek m i).toNat + 256 * (peek m (i + 1)).toNat + 65536 * (peek m (i + 2)).toNat +
    16777216 * (peek m (i + 3)).toNat
  if v = 0 then .null else .wild v

/-- `(SSI_Context*)context->ctxResponse._appContext`: text is read through the layout of the
structure. -/
def AppContext.asSsi : AppContext → SsiContext
  | .ssi c => c
  | .raw m => {
      fp := pointer m 4
      lastModified := slice m 8 64
      ssi := short m 80
      ssiState := short m 82
      tagLength := short m 84
      tagName := slice m 86 64
      cacheOffset := short m 150
      cache := slice m 152 64 }

/-- `_appContext` as the text it is until a handler sets up an `SSI_Context` in it, which happens
when the request is complete. -/
def AppContext.asText : AppContext → Bytes
  | .raw m => m
  | .ssi _ => []

/-! ## What all connections share -/

/-- What was asked of the file system, newest first; `sid` is the connection that asked. -/
inductive FileEvent
  | fopen (sid : ℕ) (path mode : Bytes) (h : Option ℕ)
  | fclose (sid : ℕ) (fp : Fp)
  | fwrite (sid : ℕ) (fp : Fp) (data : Bytes) (written : ℤ)
  | firstdir (sid : ℕ) (filter : Bytes) (h : Option ℕ)
  | closedir (sid : ℕ) (fp : Fp)
  | makeDeepPath (sid : ℕ) (path : Bytes)
  | allSent (sid : ℕ) (fp fileHandle : Fp)
  | uploaded (sid : ℕ) (fileHandle : Fp)
  | freeing (sid : ℕ) (finish : Bool) (fp fileHandle : Fp)
  | resetting (sid : ℕ) (fp fileHandle : Fp)
  | released (sid : ℕ)
  deriving DecidableEq, Repr

/-- Handles get serial numbers, so no two opens ever return the same one. The four entries before
`released` note the pointers a context holds when it gets to a place that closes files, and
`released` the end of a reset or free. -/
structure Files where
  opened : ℕ
  position : ℕ → ℕ
  log : List FileEvent

/-- The globals. `calls` counts the questions asked of `Env`; `fault` is set where the code would
loop for ever or leave its buffers, and what would follow is not modelled. -/
structure World where
  calls : ℕ
  sessions : SessionTable
  device : Device
  httpsListening : Bool
  files : Files
  fault : Bool

/-- `struct tm`, as far as it is used. -/
structure Tm where
  sec : ℤ
  min : ℤ
  hour : ℤ
  mday : ℤ
  mon : ℤ
  year : ℤ
  deriving DecidableEq, Repr

/-- A directory entry. -/
structure DirEntry where
  isFolder : Bool
  name : Bytes
  size : ℤ
  date : ℤ
  deriving DecidableEq, Repr

/-- The surroundings. `patience` bounds the rounds of a loop that only they could end. -/
structure Env where
  tick : ℕ → ℕ
  sndbuf : ℕ → ℕ
  write : ℕ → Bool
  closePcb : ℕ → Bool
  fopen : ℕ → (path mode : Bytes) → Bool
  fread : ℕ → (h pos count : ℕ) → Option Bytes
  fwrite : ℕ → (h : ℕ) → Bytes → ℤ
  fsize : ℕ → (h : ℕ) → ℤ
  ftime : ℕ → (path : Bytes) → ℕ
  firstdir : ℕ → (filter : Bytes) → Option DirEntry
  readdir : ℕ → (h : ℕ) → Option DirEntry
  time : ℕ → ℕ
  gmt : ℕ → Bytes
  mkgmtime : Tm → ℤ
  patience : ℕ

/-! ## Connections -/

/-- The callbacks of a mapping that are guarded by the access rules. A content callback is offered
`size` bytes when `remaining` are missing and the buffer holds `held`. -/
inductive Callback
  | headersReceived
  | contentReceived (size remaining held : ℤ)
  | requestReceived
  | readContent
  deriving DecidableEq, Repr

/-- What decides about access when the headers of a request are complete. -/
structure Gate where
  handler : Option Cgi
  method : Option Method
  extension : Bytes
  token : Bytes
  ipRemote : ℕ
  sessions : SessionTable
  https : Bool
  httpsListening : Bool
  contentLength : ℤ
  chunked : Bool

/-- What becomes of a byte that leaves the receive buffer. -/
inductive Span
  | header
  | chunkLine
  | chunk
  | body
  deriving DecidableEq, Repr

/-- What happened on a connection. -/
inductive Obs
  | accepted
  | begin
  | line (m : Option Cgi) (bs : Bytes)
  | consumed (what : Span) (k : ℤ)
  | headers (g : Gate)
  | refused
  | call (cb : Callback) (m : Cgi)
  | touched (i : Fin maxSessions) (session : Session)
  | login (i : Fin maxSessions) (session : Session)
  | response (bs : Bytes)
  | content (bs : Bytes)
  | wrote (bs : Bytes)
  | writeFailed
  | requestEnd (bytesLeft : ℤ)
  | reset
  | closed (pcb : ℕ) (ok : Bool)
  | freed

/-- The fields of `REQUEST_CONTEXT` that only `http_core.c` writes, and the history of the
connection, newest first. -/
structure Core where
  sid : ℕ
  rx : Rx
  state : HttpState
  peerClosing : Bool
  ipRemote : ℕ
  https : Bool
  checkAlive : Bool
  pcb : Option ℕ
  requestMethod : Option Method
  contentLength : ℤ
  contentReceived : ℤ
  keepalive : Bool
  chunked : Bool
  ifModified : ℤ
  rangeFrom : ℤ
  handler : Option Cgi
  posQuestion : ℤ
  requestPath : Bytes
  sendMaxBlock : ℤ
  sending : Bool
  total2Send : ℤ
  totalSent : ℤ
  tLastSent : ℕ
  nReceiveTimeout : ℕ
  nSendTimeout : ℕ
  hist : List Obs

/-- What the handlers write, and the globals. -/
structure Work where
  result : ℤ
  session : Option (Fin maxSessions)
  options : Options
  token : Bytes
  authorized : ℤ
  dwOperStage : ℕ
  dwOperIndex : ℤ
  dwTotal : ℤ
  rangeTo : ℤ
  appContext : AppContext
  extension : Bytes
  responsePath : Bytes
  fileHandle : Fp
  killing : Bool
  tLastReceived : ℕ
  world : World

/-- The send buffer and how much of it waits to be sent. -/
structure App extends Work where
  bytesLeft : ℤ
  sendBuffer : Bytes

structure Sys where
  core : Core
  app : App

namespace World

/-- The tick stands still between two questions to the surroundings. -/
def tickCount (env : Env) (w : World) : ℕ := env.tick w.calls % 2 ^ 32

def asked (w : World) : World := { w with calls := w.calls + 1 }

def faulted (w : World) : World := { w with fault := true }

def faultWhen (w : World) (p : Prop) [Decidable p] : World := { w with fault := w.fault || decide p }

def logFile (w : World) (e : FileEvent) : World :=
  { w with files := { w.files with log := e :: w.files.log } }

end World

namespace Work

def stampNow (env : Env) (w : Work) : ℕ := stamp (w.world.tickCount env)

def ssiCtx (w : Work) : SsiContext := w.appContext.asSsi

def setSsi (w : Work) (c : SsiContext) : Work := { w with appContext := .ssi c }

def faulted (w : Work) : Work := { w with world := w.world.faulted }

def faultWhen (w : Work) (p : Prop) [Decidable p] : Work := { w with world := w.world.faultWhen p }

def logFile (w : Work) (e : FileEvent) : Work := { w with world := w.world.logFile e }

end Work

namespace Core

def note (c : Core) (o : Obs) : Core := { c with hist := o :: c.hist }

end Core

/-- Apply a handler's step to the part it works on. -/
def App.onWork (a : App) (f : Work → Work) : App := { a with toWork := f a.toWork }

/-! ## Start -/

/-- The globals after `InitDevInfo`, `SetupSession` and `WEB_fs_init`. -/
def World.boot : World where
  calls := 0
  sessions := sessionClearAll
  device := Device.initDevInfo
  httpsListening := false
  files := { opened := 0, position := fun _ => 0, log := [] }
  fault := false

/-- A context after `SetupHttpContext`. -/
def Core.zero (sid : ℕ) : Core where
  sid := sid
  rx := { Rx.fresh with maxLevel := 0 }
  state := .idle
  peerClosing := false
  ipRemote := 0
  https := false
  checkAlive := false
  pcb := none
  requestMethod := none
  contentLength := 0
  contentReceived := 0
  keepalive := false
  chunked := false
  ifModified := 0
  rangeFrom := 0
  handler := none
  posQuestion := 0
  requestPath := List.replicate 128 0
  sendMaxBlock := 0
  sending := false
  total2Send := 0
  totalSent := 0
  tLastSent := 0
  nReceiveTimeout := 0
  nSendTimeout := 0
  hist := []

def Work.zero (world : World) : Work where
  result := 0
  session := none
  options := Options.none
  token := []
  authorized := 0
  dwOperStage := 0
  dwOperIndex := 0
  dwTotal := 0
  rangeTo := 0
  appContext := AppContext.zero
  extension := []
  responsePath := []
  fileHandle := .null
  killing := false
  tLastReceived := 0
  world := world

def App.zero (world : World) : App :=
  { Work.zero world with bytesLeft := 0, sendBuffer := List.replicate maxSendBufSize 0 }

def Sys.zero (sid : ℕ) (world : World) : Sys := { core := Core.zero sid, app := App.zero world }

/-- Surroundings in which nothing fails: there is always room to send, and every file has the
content `file`. -/
def Env.calm (file : Bytes) : Env where
  tick _ := 1000
  sndbuf _ := 1600
  write _ := true
  closePcb _ := true
  fopen _ _ _ := true
  fread _ _ pos count := some (slice file pos count)
  fwrite _ _ data := data.length
  fsize _ _ := file.length
  ftime _ _ := 0
  firstdir _ _ := none
  readdir _ _ := none
  time _ := 0
  gmt _ := []
  mkgmtime _ := 0
  patience := 0

end StraightHttpd
