import StraightHttpd.Httpd.HttpCgi

/-! # The HTTP engine (`http_core.c`)

One step for each thing the engine does with a connection, and the functions that lwIP calls, put
together from these steps. What a line of the header leaves behind in the request buffer is not
written back, since the line is shifted out next.

The log is left out everywhere. `LogPrint` formats a line, which may hold text of the request, and hands
it to `printf` as a format once more; what a `%` in a request does there is not modelled.
-/

set_option autoImplicit false

namespace StraightHttpd
open CMemory

/-! ## Request line and header lines -/

/-- The path in a request line behind the method: without leading blanks, up to the version, and no
longer than 126 bytes. -/
def pathText (path : Bytes) : Bytes → Bytes
  | [] => path
  | b :: rest =>
    if (bytes " HTTP/1.").isPrefixOf (b :: rest) then path
    else if path = [] ∧ b = 32 then pathText path rest
    else pathText (if path.length < 126 then path ++ [b] else path) rest

/-- What `ParseQueryString` has found: `_extension`, the last dot, the first question mark. -/
structure QueryScan where
  extension : Bytes
  iDot : Bool
  iQuestion : Option ℕ

/-- The loop of `ParseQueryString`. The terminator behind the eighth byte of `_extension` falls on
the first byte of `_requestPath`, which ends the loop: the path is lost then (`false`). -/
def scanQuery (q : QueryScan) (i : ℕ) : Bytes → QueryScan × Bool
  | [] => (q, true)
  | b :: rest =>
    if b = 46 then
      scanQuery (if q.iQuestion = none then { q with iDot := true, extension := [] } else q) (i + 1) rest
    else if b = 63 then
      scanQuery { q with iQuestion := q.iQuestion <|> some i } (i + 1) rest
    else if b = 35 then scanQuery q (i + 1) rest
    else if b = 47 then
      scanQuery (if q.iQuestion = none then { q with iDot := false, extension := [] } else q) (i + 1) rest
    else if q.iDot ∧ q.iQuestion = none then
      let q := { q with extension := q.extension ++ [b] }
      if q.extension.length = 8 then (q, false) else scanQuery q (i + 1) rest
    else scanQuery q (i + 1) rest

/-- Lines whose name is `name`, colon included. -/
def isHeader (line name : Bytes) : Bool := strnicmp line name name.length == 0

/-- One of the two spellings of a header value occurs. -/
def mentions (value lower upper : Bytes) : Bool :=
  (strstr value lower).isSome || (strstr value upper).isSome

def monNames : List Bytes := -- mon_name
  [bytes "Jan", bytes "Feb", bytes "Mar", bytes "Apr", bytes "May", bytes "Jun", bytes "Jul",
    bytes "Aug", bytes "Sep", bytes "Oct", bytes "Nov", bytes "Dec"]

/-- `parseHttpDate` -/
def parseHttpDate (env : Env) (s : Bytes) : ℤ :=
  env.mkgmtime {
    sec := ston (s.drop 23)
    min := ston (s.drop 20)
    hour := ston (s.drop 17)
    mday := ston (s.drop 5)
    mon := match monNames.findIdx? fun m => strnicmp (s.drop 8) m 3 == 0 with
      | some i => i
      | none => -1
    year := ston (s.drop 12) - 1900 }

/-- The range of a `Range` header, from behind its name: the first digit after `bytes=` is
skipped. -/
def parseRange (value : Bytes) : ℤ × ℤ :=
  match strstr value (bytes "bytes=") with
  | none => (0, 0)
  | some p =>
    let t := value.drop (p + 7)
    let first := atol t
    let last := match strstr t [45] with
      | none => 0
      | some d =>
        if isDigit (peek t (d + 1)) then wrap32 (atol (t.drop (d + 1)) + 1) else 0x7FFFFFFF
    if last > first then (first, last) else (0, 0)

/-- The method in a request line, and its length with the blank. -/
def requestMethod (line : Bytes) : Option (Method × ℕ) :=
  if (bytes "GET ").isPrefixOf line then some (.get, 4)
  else if (bytes "POST ").isPrefixOf line then some (.post, 5)
  else none

/-- `_requestPath` and what `ParseQueryString` finds in it, from the path in the request line. -/
def requestTarget (m text : Bytes) : Bytes × QueryScan :=
  let (m, len) := urlDecode (poke m 0 (pathText [] text ++ [0]))
  let m := poke m len [0]
  let (q, kept) := scanQuery { extension := [], iDot := false, iQuestion := none } 0 (cstr m)
  let m := if kept then m else poke m 0 [0]
  match q.iQuestion with
  | some i => (poke m i [0], q)
  | none => (m, q)

namespace Sys

variable (env : Env)

/-- Start a request for a path. -/
def setTarget (s : Sys) (method : Method) (m : Bytes) (q : QueryScan) : Sys :=
  let c := { s.core with
    requestMethod := some method
    posQuestion := match q.iQuestion with
      | some i => i
      | none => -1
    requestPath := m }
  let c := { c with checkAlive := asksFor c webSessionCheck }
  { s with core := c }.onWork fun w =>
    { w with appContext := .zero, extension := q.extension, responsePath := cstr m }

/-- The first line: method, path, extension, handler. `none` for a method that is not allowed. -/
def requestLine (s : Sys) (line : Bytes) : Option Sys :=
  (requestMethod line).map fun (method, iSkip) =>
    let (m, q) := requestTarget s.core.requestPath (line.drop iSkip)
    (s.setTarget method m q).cgiSetCgiHandler

/-- Any other line; `mem` is the memory from the start of the line, of which `n` bytes are the
line. -/
def headerLine (s : Sys) (mem : Bytes) (n : ℕ) : Sys :=
  if isHeader mem (bytes "Content-Length:") then
    { s with core := { s.core with contentLength := atol (mem.drop 15), contentReceived := 0 } }
  else if isHeader mem (bytes "Connection:") then
    { s with core := { s.core with
      keepalive := mentions (mem.drop 11) (bytes "keep-alive") (bytes "Keep-Alive") } }
  else if isHeader mem (bytes "Transfer-Encoding:") then
    { s with core := { s.core with
      chunked := mentions (mem.drop 18) (bytes "chunked") (bytes "Chunked") } }
  else if isHeader mem (bytes "Expect:") then s
  else if isHeader mem (bytes "If-Modified-Since:") then
    { s with core := { s.core with ifModified := parseHttpDate env (mem.drop 19) } }
  else if isHeader mem (bytes "Range:") then
    let (first, last) := parseRange (mem.drop 6)
    { s with core := { s.core with rangeFrom := first } }.onWork fun w => { w with rangeTo := last }
  else if isHeader mem (bytes "X-Auth-Token:") ∨ isHeader mem (bytes "Cookie:") then
    s.onWork fun w => { w with token := (cstr (headerValue (mem.take n))).take 126 }
  else s.cgiHeaderReceived (mem.take n)

/-- The empty line. -/
def emptyLine (s : Sys) : Sys :=
  let app := { s.app with
    result := if s.core.requestMethod = none then -500 else s.app.result
    authorized := 0
    dwOperIndex := 0
    dwOperStage := 0
    bytesLeft := 0
    sendBuffer := poke s.app.sendBuffer 0 [0] }
  let core := { s.core with
    sending := false
    total2Send := 0
    totalSent := 0
    state := .headerDone }
  { core := core, app := app }

/-- The loop over the lines in the buffer from `nLinePos` on. The result has the position behind the
last line, and whether that was the empty line. -/
def headerLines : ℕ → Sys → (nLinePos : ℕ) → Sys × ℕ × Bool
  | 0, s, nLinePos => (s, nLinePos, false)
  | n + 1, s, nLinePos =>
    let text := s.core.rx.held.drop nLinePos
    match find crlf text with
    | none => (s, nLinePos, false)
    | some 0 => (s.emptyLine, nLinePos + 2, true)
    | some (k + 1) =>
      let mem := poke (s.core.rx.httpRequestBuffer.drop nLinePos) (k + 1) [0]
      if s.core.requestMethod = none then
        match s.requestLine (text.take (k + 1)) with
        | none => (s.onWork fun w => { w with result := -500 }, nLinePos, false)
        | some s => headerLines n s (nLinePos + k + 3)
      else headerLines n (s.headerLine env mem (k + 1)) (nLinePos + k + 3)

/-! ## Steps -/

/-- `context->_tLastReceived = LWIP_GetTickCount()` -/
def touch (s : Sys) : Sys := s.onWork fun w => { w with tLastReceived := w.stampNow env }

/-- `context->ctxResponse._tLastSent = LWIP_GetTickCount()` -/
def startSending (s : Sys) : Sys :=
  { s with core := { s.core with tLastSent := s.app.stampNow env } }

def setState (s : Sys) (state : HttpState) : Sys := { s with core := { s.core with state := state } }

def setResult (s : Sys) (result : ℤ) : Sys := s.onWork fun w => { w with result := result }

/-- Shift `k` processed bytes out of the request buffer. -/
def consume (s : Sys) (what : Span) (k : ℤ) : Sys :=
  { s with core := { s.core with rx := s.core.rx.shift k } }.note (.consumed what k)

/-- Bytes of the queue go into the request buffer; with a negative length they go in front of it. -/
def dequeue (s : Sys) : Sys :=
  { s with core := { s.core with rx := s.core.rx.dequeue } }.onWork fun w =>
    w.faultWhen (s.core.rx.requestLength < 0 ∧ s.core.rx.reqBufList ≠ [])

/-- The first bytes of a request. -/
def beginRequest (s : Sys) : Sys :=
  let s := (s.setState .headerReceiving).touch env
  { s with core := { s.core with tLastSent := 0 } }.note .begin

/-- The parsing of the buffer for header lines: whether the header is complete. -/
def receiveHeader (s : Sys) : Sys × Bool :=
  let size := s.core.rx.requestLength
  if size ≥ 2 then
    match s.headerLines env (size.toNat + 1) 0 with
    | (s, nLinePos, afterHeader) =>
      if nLinePos = 0 then
        if size ≥ s.core.rx.maxLevel then (s.consume .header (size / 2), afterHeader)
        else (s, afterHeader)
      else (s.consume .header nLinePos, afterHeader)
  else (s, false)

/-- The session of the request was made from the address that the request comes from. -/
def covered (s : Sys) : Bool :=
  (getSession s.app.world.sessions s.app.token).any fun i =>
    (s.app.world.sessions i).nLoginIP == s.core.ipRemote

/-- The mapping asks for a session, the type of the file does too, and there is none. -/
def needsLogin (s : Sys) : Bool :=
  !s.covered && s.app.options.authRequired && sessionTypes s.app.extension

/-- A request that is not covered by a session goes to the login page. -/
def authorize (s : Sys) : Sys :=
  let session := getSession s.app.world.sessions s.app.token
  if s.needsLogin then
    s.onWork fun w =>
      { w with
        session := session
        result := codeRedirect
        authorized := codeRedirect
        responsePath := webDefaultPage }
  else s.onWork fun w => { w with session := session, authorized := codeOk }

def gate (s : Sys) : Gate where
  handler := s.core.handler
  method := s.core.requestMethod
  extension := s.app.extension
  token := s.app.token
  ipRemote := s.core.ipRemote
  sessions := s.app.world.sessions
  https := s.core.https
  httpsListening := s.app.world.httpsListening
  contentLength := s.core.contentLength
  chunked := s.core.chunked

/-- What comes after the header: which state the body is received in. -/
def expectBody (s : Sys) : Sys :=
  if s.core.chunked then s.setState .chunkLenReceiving
  else if s.core.contentLength > 0 then s.setState .bodyReceiving
  else (s.startSending env).setState .bodyDone

/-- The block after a complete header, and the way out to the response on an error. -/
def afterHeaders (s : Sys) : Sys :=
  let s := ((s.note (.headers s.gate)).authorize.expectBody env).cgiHeadersReceived env
  if s.app.result < 0 then (s.setState .sendingHeader).note .refused else s

/-- Where a chunk-size line ends: at a `\r`, or before a `\n`. -/
def chunkLineEnd : Bytes → Option ℕ
  | a :: b :: rest =>
    if a = 13 ∨ b = 10 then some 0 else (chunkLineEnd (b :: rest)).map (· + 1)
  | _ => none

/-- The size line of a chunk, read as a decimal number. -/
def receiveChunkLine (s : Sys) : Sys :=
  match chunkLineEnd s.core.rx.held with
  | none => s
  | some k =>
    { s with core := { s.core with
      contentLength := atol (poke s.core.rx.httpRequestBuffer k [0]) + 2
      contentReceived := 0
      state := .chunkReceiving } }.consume .chunkLine (k + 2)

/-- The end of a body or of a chunk. -/
def contentDone (s : Sys) : Sys :=
  if s.core.contentReceived < s.core.contentLength then s
  else if s.core.chunked then
    let s := if s.core.contentLength = 2 then (s.startSending env).setState .bodyDone
      else s.setState .chunkLenReceiving
    { s with core := { s.core with contentLength := 0, contentReceived := 0 } }
  else (s.startSending env).setState .bodyDone

/-- Shift out `consumed` bytes that the handler took: more than there are leave a negative length. -/
def contentTaken (s : Sys) (consumed : ℤ) : Sys :=
  let what := if s.core.state = .chunkReceiving then Span.chunk else Span.body
  let c := { s.core with contentReceived := s.core.contentReceived + consumed }
  ({ s with core := c }.consume what consumed).contentDone env

/-- Offer `size` bytes to the handler. The result is 0 or less when it took nothing. -/
def receiveContent (s : Sys) (size : ℤ) : Sys × ℤ :=
  match s.cgiContentReceived env size with
  | (s, consumed) =>
    if s.app.result ≤ -500 ∨ consumed ≤ 0 then (s, consumed)
    else (s.contentTaken env consumed, consumed)

/-- The request is complete. -/
def requestDone (s : Sys) : Sys :=
  let s := s.cgiRequestReceived env
  if s.app.result = 0 then s.setResult codeOk else s

/-! ## Receiving -/

/-- How a round of the loop of `HttpRequestProc` ends: with another round, with the response, or
with a return from the function. -/
inductive Round
  | again
  | stop
  | leave
  deriving DecidableEq, Repr

/-- The part of a round that receives the body; `size` is the length of the buffer when the round
began, less the header. -/
def bodyRound (s : Sys) (size : ℤ) : Sys × Round :=
  let s := if s.core.state = .chunkLenReceiving ∧ size > 2 then s.receiveChunkLine else s
  let (s, consumed, left) : Sys × ℤ × Option Round :=
    if s.core.state = .chunkReceiving ∨ s.core.state = .bodyReceiving then
      match s.receiveContent env size with
      | (s, consumed) =>
        (s, consumed,
          if s.app.result ≤ -500 then some .leave else if consumed ≤ 0 then some .stop else none)
    else (s, 0, none)
  match left with
  | some r => (s, r)
  | none =>
    if s.core.state = .bodyDone then (s.requestDone env, .stop)
    else if s.core.rx.reqBufList = [] ∨ consumed ≤ 0 then (s, .stop)
    else (s, .again)

/-- The part of a round after the parsing of the buffer for header lines. -/
def headerRound (s : Sys) (afterHeader : Bool) : Sys × Round :=
  if s.app.result < 0 then (s, .stop)
  else if s.core.state = .headerReceiving ∧ s.core.rx.requestLength ≥ maxReqBufSize then
    (s.setResult (-500), .stop)
  else if s.core.state.code < HttpState.headerDone.code then
    (s, if s.core.rx.reqBufList ≠ [] then .again else .stop)
  else
    let s := if afterHeader then s.afterHeaders env else s
    if s.app.result < 0 then (s, .stop) else bodyRound env s s.core.rx.requestLength

/-- One round of the loop of `HttpRequestProc`. -/
def requestRound (s : Sys) : Sys × Round :=
  let s := s.dequeue
  if s.core.rx.requestLength = 0 then (s, .stop)
  else
    let s := if s.core.rx.requestLength > 0 ∧ s.core.state = .idle then s.beginRequest env else s
    if s.core.state = .headerReceiving then
      match s.receiveHeader env with
      | (s, afterHeader) => s.headerRound env afterHeader
    else s.headerRound env false

/-- The loop of `HttpRequestProc`: whether the function goes on to the response. -/
def requestLoop : ℕ → Sys → Sys × Bool
  | 0, s => (s.onWork Work.faulted, false)
  | n + 1, s =>
    if s.core.state.code < HttpState.bodyDone.code then
      match s.requestRound env with
      | (s, .again) => requestLoop n s
      | (s, .stop) => (s, true)
      | (s, .leave) => (s, false)
    else (s, true)

end Sys

/-! ## Sending -/

/-- `Response_Status_Lines` -/
def responseStatusLines : List Bytes :=
  ["000 Unknown Error", "100 Continue", "101 Switching Protocols", "200 OK", "201 Created",
    "202 Accepted", "203 Non-Authoritative Information", "204 No Content", "205 Reset Content",
    "206 Partial Content", "300 Multiple Choices", "301 Moved Permanently", "302 Found",
    "303 See Other", "304 Not Modified", "305 Use Proxy", "307 Temporary Redirect",
    "400 Bad Request", "401 Unauthorized", "402 Payment Required", "403 Forbidden", "404 Not Found",
    "405 Method Not Allowed", "406 Not Acceptable", "407 Proxy Authentication Required",
    "408 Request Time-out", "409 Conflict", "410 Gone", "411 Length Required",
    "412 Precondition Failed", "413 Request Entity Too Large", "414 Request-URI Too Large",
    "415 Unsupported Media Type", "416 Requested range not satisfiable", "417 Expectation Failed",
    "500 Internal Server Error", "501 Not Implemented", "502 Bad Gateway",
    "503 Service Unavailable", "504 Gateway Time-out", "505 HTTP Version not supported"].map bytes

/-- The status line of a result: the code alone when it is not in the table. -/
def codeInfo (result : ℤ) : Bytes :=
  let n := result.natAbs % 1000
  let code := (List.range 3).reverse.map fun i => UInt8.ofNat (48 + n / 10 ^ i % 10)
  (responseStatusLines.find? fun line => code.isPrefixOf line).getD code

namespace Sys

variable (env : Env)

/-- A successful `altcp_write` of the first `k` bytes of the send buffer. -/
def sentBlock (s : Sys) (k : ℕ) : Sys :=
  let m := s.app.sendBuffer
  let left := s.app.bytesLeft - k
  let m' := if left > 0 then poke m 0 (slice m k left.toNat) else m
  let a := { s.app with
    bytesLeft := left
    sendBuffer := poke m' left.toNat [0]
    world := s.app.world.asked.asked }
  let c := { s.core with total2Send := s.core.total2Send + k, tLastSent := a.stampNow env }
  Sys.note { core := c, app := a } (.wrote (m.take k))

/-- `sendBuffered`: whether no write failed. -/
def sendBuffered : ℕ → Sys → Sys × Bool
  | 0, s => (s, true)
  | n + 1, s =>
    if s.app.bytesLeft > 0 then
      let maxbuf := env.sndbuf s.app.world.calls
      if maxbuf = 0 then (s.onWork fun w => { w with world := w.world.asked }, true)
      else if env.write (s.app.world.calls + 1) then
        sendBuffered n (s.sentBlock env (min s.app.bytesLeft maxbuf).toNat)
      else ((s.onWork fun w => { w with world := w.world.asked.asked }).note .writeFailed, false)
    else (s, true)

/-- `sendBuffered`, and the end of the request when a write failed. -/
def sendOrEnd (s : Sys) : Sys × Bool :=
  match s.sendBuffered env s.app.bytesLeft.toNat with
  | (s, true) => (s, true)
  | (s, false) => ((s.setResult (-500)).setState .requestEnd, false)

/-- Whether bytes are left that go out before anything else is done: the content is loaded to its
end, or there is no more room to send than for them. -/
def remaining (s : Sys) : Sys × Bool :=
  if s.app.bytesLeft ≤ 0 then (s, false)
  else if s.app.dwOperStage = stageEnd then (s, true)
  else
    (s.onWork fun w => { w with world := w.world.asked },
      decide (s.app.bytesLeft ≥ env.sndbuf s.app.world.calls))

/-- The response header, in the send buffer. -/
def prepareHeader (s : Sys) : Sys :=
  let c := { s.core with tLastSent := s.app.stampNow env, sendMaxBlock := maxSendBufSize }
  let a := { s.app with dwOperStage := 0, dwOperIndex := 0 }
  let a := cgiSetResponseHeaders env c a (codeInfo a.result)
  Sys.note { core := c, app := a } (.response (a.sendBuffer.take a.bytesLeft.toNat))

/-- After the header: a redirect goes on to its content at once. -/
def headerOut (s : Sys) : Sys :=
  { s with core := { s.core with sending := true } }.setState
    (if s.app.result = codeRedirect then .sendingBody else .sendingHeader)

/-- Send the response header. -/
def sendHeader (s : Sys) : Sys × Bool :=
  match (s.prepareHeader env).sendOrEnd env with
  | (s, true) => (s.headerOut, true)
  | (s, false) => (s, false)

/-- The response ends here. -/
def endResponse (s : Sys) : Sys := (s.note (.requestEnd s.app.bytesLeft)).setState .requestEnd

/-- The event that the header was sent. -/
def headerSent (s : Sys) : Sys :=
  if s.app.result < 0 then s.endResponse else s.setState .sendingBody

/-- The next block of the content, or the end of the response. -/
def sendBody (s : Sys) (caller : Caller) : Sys :=
  match s.cgiLoadContentToSend env caller with
  | (s, hasData2Send) =>
    if hasData2Send > 0 then (s.sendOrEnd env).1
    else if hasData2Send < 0 then s.endResponse
    else s

/-- `HttpResponseProc` -/
def httpResponseProc (s : Sys) (caller : Caller) : Sys :=
  if s.core.state.code < HttpState.bodyDone.code ∨ s.app.result = 0 then s
  else match s.remaining env with
  | (s, true) => (s.sendOrEnd env).1
  | (s, false) =>
    let (s, ok) : Sys × Bool :=
      if ¬ s.core.sending then s.sendHeader env
      else if s.core.state = .sendingHeader ∧ caller = .sent then (s.headerSent, true)
      else (s, true)
    if ok ∧ s.core.state = .sendingBody then s.sendBody env caller else s

/-! ## Closing and resetting -/

/-- What `ResetHttpContext` and `FreeHttpContext` clear alike. -/
def clearRequest (s : Sys) : Sys :=
  let core := { s.core with
    state := .idle
    requestMethod := none
    contentLength := -1
    contentReceived := 0
    keepalive := false
    chunked := false
    handler := none
    requestPath := List.replicate 128 0
    sendMaxBlock := 0
    sending := false
    total2Send := 0
    totalSent := 0
    tLastSent := 0 }
  let app := { s.app with
    result := 0
    token := []
    authorized := 0
    dwOperStage := 0
    dwOperIndex := 0
    dwTotal := 0
    appContext := AppContext.zero
    extension := []
    responsePath := []
    bytesLeft := 0
    sendBuffer := List.replicate maxSendBufSize 0 }
  { core := core, app := app }

/-- `if (_fileHandle != NULL) WEB_fclose(_fileHandle); _fileHandle = NULL` -/
def closeFileHandle (s : Sys) : Sys :=
  s.onWork fun w =>
    { w with
      world := if w.fileHandle = .null then w.world else w.world.webFclose s.core.sid w.fileHandle
      fileHandle := .null }

/-- `ResetHttpContext` -/
def resetHttpContext (s : Sys) : Sys :=
  let s := s.onWork fun w => w.logFile (.resetting s.core.sid w.ssiCtx.fp w.fileHandle)
  let s := (s.clearRequest.touch env).closeFileHandle
  let core := { s.core with
    rx := { s.core.rx with maxLevel := maxReqBufSize }
    ifModified := 0
    rangeFrom := 0
    nReceiveTimeout := toRecv
    nSendTimeout := toSent }
  let s := { s with core := core }.onWork fun w =>
    { w.logFile (.released s.core.sid) with rangeTo := 0 }
  s.note .reset

/-- `FreeHttpContext` -/
def freeHttpContext (s : Sys) : Sys :=
  let finish := (s.core.handler.bind fun m => m.mapping.onFinished).isSome
  let s := s.onWork fun w => w.logFile (.freeing s.core.sid finish w.ssiCtx.fp w.fileHandle)
  let s := s.cgiFinish.clearRequest.closeFileHandle
  let rx := { s.core.rx with
    reqBufList := []
    bufOffset := 0
    requestLength := 0
    maxLevel := maxReqBufSize
    httpRequestBuffer := List.replicate (maxReqBufSize + 4) 0 }
  let core := { s.core with rx := rx, pcb := none, nSendTimeout := 0 }
  ({ s with core := core }.onWork fun w => w.logFile (.released s.core.sid)).note .freed

/-- `altcp_close` of the pcb of the context, if it has one. -/
def closePcb (s : Sys) : Sys :=
  match s.core.pcb with
  | none => s
  | some pcb =>
    let closed := env.closePcb s.app.world.calls
    let c := { s.core with peerClosing := if closed then false else s.core.peerClosing }
    let s := { s with core := c }.onWork fun w => { w with world := w.world.asked }
    s.note (.closed pcb closed)

/-- `CloseHttpContext`: a pcb that cannot be closed yet is detached all the same. -/
def closeHttpContext (s : Sys) : Sys := (s.closePcb env).freeHttpContext

/-- The end of `HttpRequestProc`, after the response has ended. -/
def finishRequest (s : Sys) : Sys :=
  if s.core.peerClosing then s.closeHttpContext env
  else if s.core.keepalive then s.resetHttpContext env
  else s.closeHttpContext env

/-- The second half of `HttpRequestProc`. -/
def respond (s : Sys) (caller : Caller) : Sys :=
  if s.core.state.code ≥ HttpState.bodyDone.code then
    let s := s.httpResponseProc env caller
    if s.core.state = .requestEnd then s.finishRequest env else s
  else if s.core.peerClosing then s.setResult (-500)
  else s

/-- `HttpRequestProc`: every round but the last takes at least one byte out of the buffer. -/
def httpRequestProc (s : Sys) (caller : Caller) : Sys :=
  let rounds := s.core.rx.requestLength.toNat + (chainBytes s.core.rx.reqBufList).length + 2
  match s.requestLoop env rounds with
  | (s, true) => s.respond env caller
  | (s, false) => s

/-! ## Events -/

/-- `IsContextTimeout` -/
def isContextTimeout (s : Sys) : Bool :=
  let tick := s.app.world.tickCount env
  if s.core.state.code < HttpState.bodyDone.code then
    decide (elapsed tick s.app.tLastReceived > s.core.nReceiveTimeout)
  else decide (elapsed tick s.core.tLastSent > s.core.nSendTimeout)

/-- Apply a change to the session that the context points to, if it is live. -/
def onSession (s : Sys) (f : SessionTable → Fin maxSessions → SessionTable) : Sys :=
  match s.app.session with
  | some i =>
    let t := s.onWork fun w => { w with world := { w.world with sessions := f w.world.sessions i } }
    let session := s.app.world.sessions i
    if session.Live then t.note (.touched i session) else t
  | none => s

/-- The result is an error that ends the connection. -/
def closeOnError (s : Sys) : Sys :=
  if s.app.result ≤ -500 then s.closeHttpContext env else s

/-- `GetHttpContext`, for a context that is free. -/
def getHttpContext (s : Sys) : Sys :=
  let c := { s.core with
    rx := { s.core.rx with reqBufList := [], bufOffset := 0 }
    peerClosing := false }
  { s with core := c }.resetHttpContext env

/-- The context gets its pcb. -/
def attach (s : Sys) (pcb ipRemote : ℕ) (https : Bool) : Sys :=
  { s with core := { s.core with pcb := some pcb, https := https, ipRemote := ipRemote } }.note .accepted

/-- `OnHttpAccept`, when there is a free context. -/
def onHttpAccept (s : Sys) (pcb ipRemote : ℕ) (https : Bool) : Sys :=
  (s.getHttpContext env).attach pcb ipRemote https

/-- `OnHttpReceive` in front of `HttpRequestProc`: a chain of pbufs, or the end of what the peer sends,
at which an idle connection is closed. -/
def beforeReceive (s : Sys) (p : Option (List Pbuf)) : Option Sys :=
  match p with
  | none =>
    if s.core.state = .idle then none
    else some ({ s with core := { s.core with peerClosing := true } }.touch env)
  | some p => some { s.touch env with core := { s.core with rx := s.core.rx.receive p } }

/-- `OnHttpReceive` behind `HttpRequestProc` -/
def afterReceive (s : Sys) : Sys :=
  if s.app.result ≤ -500 then s.closeHttpContext env
  else if s.core.checkAlive then s
  else s.onSession fun t i => sessionReceived t i (s.app.world.tickCount env)

/-- `OnHttpReceive` -/
def onHttpReceive (s : Sys) (p : Option (List Pbuf)) : Sys :=
  match s.beforeReceive env p with
  | some s => (s.httpRequestProc env .recv).afterReceive env
  | none => s.closeHttpContext env

/-- `OnHttpPoll` -/
def onHttpPoll (s : Sys) : Sys :=
  if s.isContextTimeout env then s.closeHttpContext env
  else (s.httpRequestProc env .poll).closeOnError env

/-- `OnHttpSent` in front of `HttpRequestProc` -/
def beforeSent (s : Sys) (len : ℕ) : Sys :=
  let s := if s.core.checkAlive then s
    else s.onSession fun t i => sessionSent t i (s.app.world.tickCount env)
  { s with core := { s.core with totalSent := s.core.totalSent + len } }

/-- `OnHttpSent` -/
def onHttpSent (s : Sys) (len : ℕ) : Sys :=
  ((s.beforeSent env len).httpRequestProc env .sent).closeOnError env

/-- `OnHttpError` -/
def onHttpError (s : Sys) : Sys := s.freeHttpContext

end Sys

end StraightHttpd
