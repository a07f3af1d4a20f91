import StraightHttpd.Httpd.Web

/-! # File upload (`cgi/cgi_upload.c`)

The name of the file comes base64-coded in the header `X-File-Name`, its content in the body.
-/

set_option autoImplicit false

namespace StraightHttpd
open CMemory

def uploadToFolder : Bytes := -- UPLOAD_TO_FOLDER
  bytes "D:/straight/straight-httpd/straight-httpd/straight-httpd/httpd/cncweb/app/cache/"

/-- The value of a header line: what follows the first `:` and the blanks behind it. -/
def headerValue (line : Bytes) : Bytes :=
  ((line.dropWhile (· != 58)).drop 1).dropWhile (· == 32)

/-- The file name that the header carries. -/
def uploadName (line : Bytes) : Bytes :=
  let (data, len) := decodeB64 (headerValue (cstr line) ++ [0])
  cstr (data.take len)

/-- `Upload_OnHeaderReceived`: `_appContext` has room for 256 bytes. -/
def uploadOnHeaderReceived (c : Core) (w : Work) (line : Bytes) : Work × Bool :=
  if strnicmp line (bytes "X-File-Name:") 12 = 0 then
    let path := uploadToFolder ++ uploadName line
    let w := { w with appContext := .raw (sprintfAt w.appContext.asText 0 path) }
    let w := if maxAppContextSize ≤ path.length then w.faulted else w
    ({ w with world := w.world.makeDeepPath c.sid path }, true)
  else (w, false)

/-- `Upload_OnHeadersReceived`, with `Upload_Start`; the device is never busy. -/
def uploadOnHeadersReceived (env : Env) (c : Core) (w : Work) : Work :=
  match c.requestMethod with
  | some .get => { w with result := -404 }
  | some .post =>
    let (world, fp) := w.world.webFopen env c.sid w.appContext.asText (bytes "wb")
    let w := { w with world := world, fileHandle := fp }
    if fp = .null then { w with result := -500 } else w
  | none => w

/-- `Upload_OnContentReceived`: what is written counts as consumed as a whole. -/
def uploadOnContentReceived (env : Env) (c : Core) (w : Work) (buffer : Bytes) (size : ℤ) :
    Work × ℤ :=
  let maxToConsume := min (c.contentLength - c.contentReceived) size
  if maxToConsume > 0 ∧ c.requestMethod = some .post then
    if w.killing then ({ w with killing := false, result := -500 }, 0)
    else
      let data := slice buffer 0 maxToConsume.toNat
      match w.world.webFwrite env c.sid w.fileHandle data with
      | (world, written) =>
        let w := { w with world := world }
        if written > 0 then ({ w with tLastReceived := w.stampNow env }, maxToConsume) else (w, 0)
  else (w, 0)

/-- `Upload_AllReceived`: `_fileHandle` keeps the handle that is closed. -/
def uploadAllReceived (c : Core) (w : Work) : Work :=
  let w := w.logFile (.uploaded c.sid w.fileHandle)
  { w with world := w.world.webFclose c.sid w.fileHandle }

end StraightHttpd
