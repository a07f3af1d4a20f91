import StraightHttpd.Httpd.Cgi.Ssi
import StraightHttpd.Httpd.FileSystem

/-! # Web files, SSI and form bodies (`http_web.c`)

The callbacks that several mappings share. Form bodies are parsed in the send buffer while they
arrive. Pages are read block by block; in an SSI page, tags are cut out of a cache of 64 bytes that
slides over the file.
-/

set_option autoImplicit false

namespace StraightHttpd
open CMemory

def connectionHeader : Bytes := bytes "close" -- CONNECTION_HEADER

def headerNocache : Bytes := -- header_nocache
  bytes "Cache-Control: no-cache, no-store, must-revalidate\r\nPragma: no-cache\r\nExpires: 0\r\n"

def headerGzip : Bytes := bytes "Content-Encoding: gzip\r\n" -- header_gzip

/-- `header_generic` -/
def headerGeneric (code contentType : Bytes) (length : ℤ) (connection : Bytes) : Bytes :=
  bytes "HTTP/1.1 " ++ code ++ bytes "\r\nContent-Type: " ++ contentType ++
    bytes "\r\nContent-Length: " ++ intText length ++ bytes "\r\nConnection: " ++ connection ++ crlf

/-- `header_chunked` -/
def headerChunked (code contentType extra connection : Bytes) : Bytes :=
  bytes "HTTP/1.1 " ++ code ++ bytes "\r\nContent-Type: " ++ contentType ++
    bytes "\r\nTransfer-Encoding: chunked\r\n" ++ extra ++ bytes "Connection: " ++ connection ++ crlf

/-- `header_range` -/
def headerRange (first last total : ℤ) (contentType : Bytes) (length : ℤ) (connection : Bytes) :
    Bytes :=
  bytes "HTTP/1.1 206 Partial Content\r\nContent-Range: bytes " ++ intText first ++ [45] ++
    intText last ++ [47] ++ intText total ++ bytes "\r\nContent-type: " ++ contentType ++
    bytes "\r\nContent-Length: " ++ intText length ++ bytes "\r\nConnection: " ++ connection ++ crlf

/-- `LWIP_sprintf(m + i, ...)` -/
def sprintfAt (m : Bytes) (i : ℕ) (text : Bytes) : Bytes := poke m i (text ++ [0])

/-- `context->_dwOperStage++` -/
def nextStage (stage : ℕ) : ℕ := (stage + 1) % 2 ^ 32

/-! ## Form bodies -/

/-- `WEB_OnFormHeaders` -/
def webOnFormHeaders (a : App) : App :=
  { a with sendBuffer := List.replicate maxSendBufSize 0, bytesLeft := 0 }

/-- `URLDecode(m + i)` -/
def urlDecodeAt (m : Bytes) (i : ℕ) : Bytes := m.take i ++ (urlDecode (m.drop i)).1

/-- `*ne = 0`, decode the name at `p` and the value behind `ne`, and set the tag. -/
def setPair (d : Device) (m : Bytes) (p ne : ℕ) : Device × Bytes :=
  let m := urlDecodeAt (urlDecodeAt m p) (ne + 1)
  (tagSetter d (m.drop p) (m.drop (ne + 1)), m)

/-- The loop of `ExtractFormData` over the pairs that a `&` ends; `ne` is where the last `=` was
found. -/
def extractPairs : ℕ → Device → Bytes → (p : ℕ) → (nSize : ℤ) → Option ℕ →
    Device × Bytes × ℕ × Option ℕ
  | 0, d, m, p, _, ne => (d, m, p, ne)
  | n + 1, d, m, p, nSize, ne =>
    if peek m p ≠ 0 ∧ (p : ℤ) < nSize then
      match strchr (m.drop p) 38, strchr (m.drop p) 61 with
      | some ve, some ne =>
        let (d, m) := setPair d (poke (poke m (p + ne) [0]) (p + ve) [0]) p (p + ne)
        extractPairs n d m (p + ve + 1) nSize (some (p + ne))
      | _, ne => (d, m, p, ne.map (p + ·))
    else (d, m, p, ne)

/-- `ExtractFormData`: the buffer and the number of bytes parsed. -/
def extractFormData (d : Device) (buffer : Bytes) (nSize nTotalRemain : ℤ) : Device × Bytes × ℤ :=
  let (d, m, p, ne) := extractPairs (buffer.length + 1) d buffer 0 nSize none
  if nTotalRemain > 0 then (d, m, p)
  else match ne with
    | some ne =>
      let (d, m) := setPair d (poke m ne [0]) p ne
      (d, m, nSize)
    | none => (d, m, nSize)

/-- `WEB_OnFormReceived` -/
def webOnFormReceived (env : Env) (c : Core) (a : App) (buffer : Bytes) (size : ℤ) : App × ℤ :=
  let consumed := min (c.contentLength - c.contentReceived) size
  if consumed > 0 ∧ c.requestMethod = some .post then
    if a.killing then ({ a with killing := false, result := -500 }, 0)
    else
      let nFree : ℤ := maxSendBufSize - a.bytesLeft - 32
      let consumed := min consumed nFree
      if consumed > 0 then
        let nRemain := c.contentLength - c.contentReceived - consumed
        let a := if a.bytesLeft < 0 then a.onWork Work.faulted else a
        let m := poke a.sendBuffer a.bytesLeft.toNat (slice buffer 0 consumed.toNat)
        let left := a.bytesLeft + consumed
        let (d, m, nParsed) := extractFormData a.world.device m left nRemain
        let left' := if nParsed > 0 then left - nParsed else left
        let m := if nParsed > 0 ∧ left' > 0 then poke m 0 (slice m nParsed.toNat left'.toNat) else m
        ({ a with
            sendBuffer := m
            bytesLeft := left'
            tLastReceived := a.stampNow env
            world := { a.world with device := d } }, consumed)
      else (a, consumed)
  else (a, consumed)

/-! ## Opening a page -/

/-- Which extensions are SSI pages. -/
def isSsi (extension : Bytes) : Bool :=
  strnicmp extension (bytes "shtml") 5 == 0 || strnicmp extension (bytes "shtm") 4 == 0 ||
    strnicmp extension (bytes "ssi") 3 == 0

/-- A request for `/` gets the default page. -/
def defaultPage (w : Work) : Work :=
  if cstr w.responsePath = [47] then
    { w with
      responsePath := webDefaultPage
      extension := match strchr webDefaultPage 46 with
        | some i => webDefaultPage.drop (i + 1)
        | none => w.extension }
  else w

/-- The look at the first three bytes, which tells gzip content. What the read did not fill in
counts as zero. -/
def sniffGzip (env : Env) (w : Work) (fp : Fp) : Work :=
  match w.world.webFread env fp 3 with
  | (world, none) => { w with world := world }
  | (world, some flag) =>
    { w with
      world := world.webFseek fp 0
      options := if peek flag 0 = 0x1F ∧ peek flag 1 = 0x8B ∧ peek flag 2 = 0x08
        then { w.options with gzip := true } else w.options }

/-- An SSI page is sent in chunks. -/
def chunkSsi (c : Core) (w : Work) : Work :=
  if isSsi w.extension ∧ c.handler.isSome then
    { w with options := { w.options with chunkEnabled := true } }
  else w

/-- The `Last-Modified` line of a page, and whether the page is newer than what the client has. -/
def lastModifiedLine (env : Env) (c : Core) (w : Work) : Work × Bytes × Bool :=
  if isSsi w.extension then (w, [], true)
  else
    let (world, tFile) := w.world.webFtime env w.responsePath
    let w := { w with world := world }
    let line := bytes "Last-Modified: " ++ (env.gmt tFile).take 46
    if tFile = 0 then (w, [], true)
    else if c.ifModified ≠ 0 ∧ (tFile : ℤ) ≤ c.ifModified then (w, line, false)
    else (w, line ++ crlf, true)

/-- The context of a page. -/
def pageContext (w : Work) (fp : Fp) (line : Bytes) : SsiContext :=
  { SsiContext.zero with ssi := if isSsi w.extension then 1 else 0, fp := fp, lastModified := line }

/-- The part of `WEB_RequestReceived` that follows a successful open. -/
def pageOpened (env : Env) (c : Core) (w : Work) (fp : Fp) : Work :=
  match lastModifiedLine env c (sniffGzip env w fp) with
  | (w, line, true) =>
    let (world, size) := w.world.webFsize env fp
    { w.setSsi (pageContext w fp line) with world := world, fileHandle := fp, dwTotal := size }
  | (w, line, false) => { w.setSsi (pageContext w fp line) with result := -304 }

/-- `WEB_RequestReceived` -/
def webRequestReceived (env : Env) (c : Core) (w : Work) : Work :=
  let w := chunkSsi c (defaultPage w)
  match w.world.webFopen env c.sid w.responsePath (bytes "rb") with
  | (world, .null) => { w.setSsi (pageContext w .null []) with world := world, result := -404 }
  | (world, fp) => pageOpened env c { w with world := world } fp

/-! ## Response headers -/

/-- `WEB_AppendHeaders` -/
def webAppendHeaders (c : Core) (a : App) (httpCodeInfo : Bytes) : App :=
  let ctxSSI := a.ssiCtx
  let chunkHeader := decide (ctxSSI.ssi > 0) || (c.handler.isSome && a.options.chunkEnabled)
  let start (m text : Bytes) : Bytes := if strlen m = 0 then sprintfAt m 0 text else m
  let contentType := getContentType a.extension
  let a :=
    if a.rangeTo > c.rangeFrom then
      let rangeTo := min a.rangeTo a.dwTotal
      let size := rangeTo - c.rangeFrom
      let text := headerRange c.rangeFrom (rangeTo - 1) a.dwTotal contentType size connectionHeader
      { a with
        rangeTo := rangeTo
        sendBuffer := start a.sendBuffer text
        dwTotal := size
        world := a.world.webFseek a.fileHandle c.rangeFrom }
    else
      let text := if chunkHeader then headerChunked httpCodeInfo contentType [] connectionHeader
        else headerGeneric httpCodeInfo contentType a.dwTotal connectionHeader
      { a with sendBuffer := start a.sendBuffer text }
  let m := if a.options.gzip then strcat a.sendBuffer headerGzip else a.sendBuffer
  let m := if cstr ctxSSI.lastModified ≠ [] then strcat m ctxSSI.lastModified
    else strcat m headerNocache
  let m := if ctxSSI.ssi = 0 ∧ strstr m (bytes "no-cache") = none
    then strcat m (bytes "Cache-Control: max-age=3600\r\n") else m
  { a with sendBuffer := m }

/-! ## Page content -/

def cacheSize : ℕ := 64 -- MAX_TAG_LEN

def tagStart : Bytes := bytes "<!--#"
def tagEnd : Bytes := bytes "-->"

/-- How the parsing of the cache ended: all consumed or an incomplete mark left (`more`), a block to
send (`ready2Send`), or outside what is modelled (`fault`). -/
inductive ScanEnd
  | more
  | ready2Send
  | fault
  deriving DecidableEq, Repr

/-- `_tagName[_tagLength++] = b; _tagName[_tagLength] = 0` -/
def SsiContext.pushName (x : SsiContext) (b : UInt8) : SsiContext :=
  { x with tagName := poke x.tagName x.tagLength.toNat [b, 0], tagLength := x.tagLength + 1 }

/-- The loop of `WEB_ReadContent` over the bytes in the cache, with what is put out so far. The
result has the bytes that are left. -/
def ssiScan (value : Bytes → Bytes) (maxSize : ℤ) (x : SsiContext) (out : Bytes) :
    Bytes → Bytes × SsiContext × Bytes × ScanEnd
  | [] => ([], x, out, .more)
  | b :: rest =>
    let state := if x.ssiState = 0 then 1 else x.ssiState
    if state = 1 then
      let x := { x with ssiState := 1 }
      if b = 60 ∧ (b :: rest).length < tagStart.length then (b :: rest, x, out, .more)
      else if b = 60 ∧ strnicmp (b :: rest) tagStart tagStart.length = 0 then
        ((b :: rest).drop 5, { x with ssiState := 2 }, out, .ready2Send)
      else if ((out ++ [b]).length : ℤ) ≥ maxSize then (rest, x, out ++ [b], .ready2Send)
      else ssiScan value maxSize x (out ++ [b]) rest
    else if state = 2 then
      if b = 45 ∧ (b :: rest).length < tagEnd.length then (b :: rest, x, out, .more)
      else match rest with
        | y :: z :: rest' =>
          if b = 45 ∧ strnicmp [b, y, z] tagEnd tagEnd.length = 0 then
            let (text, nAppend) := replaceTag value x.tagName (maxSize - out.length - 50)
            if nAppend < 0 then (rest', x, out, .fault)
            else
              let x := { x with ssiState := 0, tagLength := 0, tagName := [] }
              ssiScan value maxSize x (out ++ text) rest'
          else if x.tagLength < 0 ∨ 63 ≤ x.tagLength then (b :: rest, x, out, .fault)
          else ssiScan value maxSize (x.pushName b) out (y :: z :: rest')
        | rest =>
          if x.tagLength < 0 ∨ 63 ≤ x.tagLength then (b :: rest, x, out, .fault)
          else ssiScan value maxSize (x.pushName b) out rest
    else (b :: rest, x, out, .fault)

/-- A scan that searches is in no tag. -/
theorem outside_of_search {x : SsiContext} (hs : (if x.ssiState = 0 then 1 else x.ssiState) = 1) :
    x.ssiState ≠ 2 := by
  intro h2
  rw [h2] at hs
  exact absurd hs (by decide)

theorem inside_of_name {x : SsiContext} (hs : (if x.ssiState = 0 then 1 else x.ssiState) = 2) :
    x.ssiState = 2 := by
  split_ifs at hs
  · exact absurd hs (by decide)
  · exact hs

/-- The scan searches or reads a name. -/
theorem search_or_name {x : SsiContext} (h : x.ssiState = 0 ∨ x.ssiState = 1 ∨ x.ssiState = 2) :
    (if x.ssiState = 0 then 1 else x.ssiState) = 1 ∨ (if x.ssiState = 0 then 1 else x.ssiState) = 2 := by
  rcases h with h | h | h
  · exact .inl (if_pos h)
  · rw [h]
    exact .inl rfl
  · rw [h]
    exact .inr rfl

/-- The scan does not touch the file. -/
theorem ssiScan_fp {value : Bytes → Bytes} {maxSize : ℤ} (x : SsiContext) (out p : Bytes) :
    (ssiScan value maxSize x out p).2.1.fp = x.fp := by
  fun_induction ssiScan value maxSize x out p with
  | case5 x out b rest state hs y hshort hno hfull ih => exact ih
  | case8 x out b state hs hs2 y z rest hfound text nAppend hrep hneg x' hshort ih => exact ih
  | case10 => assumption
  | case12 => assumption
  | _ => rfl

/-- `WEB_fread` of `maxRead` bytes into a buffer with room for `room`. -/
def readInto (env : Env) (w : Work) (fp : Fp) (maxRead room : ℤ) : Work × Option Bytes :=
  match w.world.webFread env fp (u32 maxRead) with
  | (world, none) => ({ w with world := world }, none)
  | (world, some data) =>
    let w := { w with world := world }
    (if (data.length : ℤ) > room then w.faulted else w, some data)

/-- The loop of `WEB_ReadContent` that refills the cache and parses it, until a block is ready or
the file is read. `none` is a failed read. -/
def ssiLoop (env : Env) (value : Bytes → Bytes) (maxSize : ℤ) :
    ℕ → Work → SsiContext → Bytes → Work × SsiContext × Option Bytes
  | 0, w, x, out => (w.faulted, x, some out)
  | n + 1, w, x, out =>
    if w.dwOperIndex < w.dwTotal then
      let room := (cacheSize : ℤ) - x.cacheOffset
      match readInto env w x.fp (min (w.dwTotal - w.dwOperIndex) room) room with
      | (w, none) => ({ w with result := -500 }, x, none)
      | (w, some data) =>
        let w := { w with dwOperIndex := w.dwOperIndex + data.length }
        let pCache := x.cache.take x.cacheOffset.toNat ++ data
        match ssiScan value maxSize x out pCache with
        | (rest, x, out, e) =>
          let x := { x with cache := rest, cacheOffset := rest.length }
          match e with
          | .more => ssiLoop env value maxSize n w x out
          | .ready2Send => (w, x, some out)
          | .fault => (w.faulted, x, some out)
    else (w, x, some out)

/-- The flush of the cache when the file is read: `memcpy(buffer, _cache, _cacheOffset)`. -/
def flushCache (x : SsiContext) : Bytes :=
  let n := x.cacheOffset.toNat
  x.cache.take n ++ List.replicate (n - x.cache.length) 0

/-- How the stage moves on after a block. -/
def stageAfterBlock (w : Work) (x : SsiContext) : ℕ :=
  if w.dwOperIndex ≥ w.dwTotal ∧ ¬ (x.ssi > 0 ∧ x.cacheOffset > 0) then stageEnd
  else nextStage w.dwOperStage

/-- `WEB_ReadContent` with the values of the tags given: the block, and what is returned. -/
def readPage (env : Env) (value : Bytes → Bytes) (c : Core) (w : Work) (maxSize : ℤ) :
    Work × Bytes × ℤ :=
  let x := w.ssiCtx
  if c.requestMethod = none then (w, [], -1)
  else if w.dwTotal - w.dwOperIndex = 0 then
    let w' := { w with dwOperStage := stageEnd }
    if x.ssi > 0 ∧ x.cacheOffset > 0 then
      (w'.setSsi { x with cacheOffset := 0 }, flushCache x, x.cacheOffset)
    else (w', [], -1)
  else if x.ssi = 0 then
    let maxRead := min (w.dwTotal - w.dwOperIndex) maxSize
    -- content in memory is never set up, so without a file there is nothing to copy from
    if x.fp = .null then (w.faulted, [], 0)
    else match readInto env w x.fp maxRead maxSize with
      | (w, none) => ({ w with result := -500 }, [], 0)
      | (w, some data) =>
        let w := { w with dwOperIndex := w.dwOperIndex + data.length }
        ({ w with dwOperStage := stageAfterBlock w x }, data, data.length)
  else
    let rounds := env.patience + (w.dwTotal - w.dwOperIndex).toNat + 1
    match ssiLoop env value maxSize rounds w x [] with
    | (w, x, none) => (w.setSsi x, [], 0)
    | (w, x, some out) =>
      ({ w.setSsi x with dwOperStage := stageAfterBlock w x }, out, out.length)

/-- `WEB_ReadContent` -/
def webReadContent (env : Env) (c : Core) (w : Work) (maxSize : ℤ) : Work × Bytes × ℤ :=
  readPage env (tagValue w.world.device) c w maxSize

/-! ## Closing -/

/-- `ctxSSI->_fp = NULL` -/
def AppContext.clearFp : AppContext → AppContext
  | .raw m => .raw (poke m 4 [0, 0, 0, 0])
  | .ssi x => .ssi { x with fp := .null }

/-- Close the file of the context and forget it, but not `_fileHandle`. -/
def closeCtxFile (c : Core) (w : Work) : Work :=
  if w.ssiCtx.fp ≠ .null then
    { w with world := w.world.webFclose c.sid w.ssiCtx.fp, appContext := w.appContext.clearFp }
  else w

/-- `WEB_AllSent` -/
def webAllSent (c : Core) (w : Work) : Work :=
  closeCtxFile c (w.logFile (.allSent c.sid w.ssiCtx.fp w.fileHandle))

/-- `WEB_Finished` -/
def webFinished (c : Core) (w : Work) : Work := closeCtxFile c w

end StraightHttpd
