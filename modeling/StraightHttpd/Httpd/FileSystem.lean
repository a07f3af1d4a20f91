import StraightHttpd.Httpd.Context

/-! # Files (`http_fs.c` over `port_file.c`, with `LOCAL_FILE_SYSTEM` set)

Paths are made absolute here, and every call is logged with the connection that made it. A call
with bytes that are no handle is a fault.
-/

set_option autoImplicit false

namespace StraightHttpd
open CMemory

def localWebroot : Bytes := -- LOCAL_WEBROOT
  bytes "D:/straight/straight-httpd/straight-httpd/straight-httpd/httpd/cncweb/"

/-- Under the web root, with one slash between. -/
def underWebroot (szFile : Bytes) : Bytes :=
  localWebroot ++ (match cstr szFile with
    | 47 :: rest => rest
    | path => path)

/-- The path that `WEB_fopen` gives to the system: a path with a colon is taken as it is. -/
def webPath (szFile : Bytes) : Bytes :=
  if (strchr szFile 58).isNone then underWebroot szFile else cstr szFile

/-- The path under the web root does not fit `szTemp[128]`. -/
def Overlong (szFile : Bytes) : Prop := 128 ≤ (underWebroot szFile).length

instance (szFile : Bytes) : Decidable (Overlong szFile) :=
  inferInstanceAs (Decidable (128 ≤ (underWebroot szFile).length))

namespace World

variable (env : Env) (sid : ℕ) (w : World)

/-- `WEB_fopen` -/
def webFopen (szFile mode : Bytes) : World × Fp :=
  let path := webPath szFile
  let asked := w.asked.faultWhen ((strchr szFile 58).isNone ∧ Overlong szFile)
  if env.fopen w.calls path mode then
    let h := w.files.opened
    let files : Files := { w.files with
      opened := h + 1
      position := Function.update w.files.position h 0 }
    (({ asked with files := files }).logFile (.fopen sid path mode (some h)), .handle h)
  else (asked.logFile (.fopen sid path mode none), .null)

/-- `WEB_fread`: `none` for a failure. -/
def webFread (f : Fp) (count : ℕ) : World × Option Bytes :=
  match f with
  | .handle h =>
    let pos := w.files.position h
    match env.fread w.calls h pos count with
    | none => (w.asked, none)
    | some data =>
      let data := data.take count
      let files : Files :=
        { w.files with position := Function.update w.files.position h (pos + data.length) }
      ({ w.asked with files := files }, some data)
  | _ => (w.faulted, none)

/-- `WEB_fseek`: a NULL handle and a negative offset change nothing. -/
def webFseek (f : Fp) (offset : ℤ) : World :=
  match f with
  | .handle h =>
    if offset < 0 then w
    else { w with files :=
      { w.files with position := Function.update w.files.position h offset.toNat } }
  | .null => w
  | .wild _ => w.faulted

/-- `WEB_fsize` -/
def webFsize (f : Fp) : World × ℤ :=
  match f with
  | .handle h => (w.asked, env.fsize w.calls h)
  | .null => (w, 0)
  | .wild _ => (w.faulted, 0)

/-- `WEB_ftime`: the time, 0 when there is none. -/
def webFtime (szFile : Bytes) : World × ℕ :=
  (w.asked.faultWhen (Overlong szFile), env.ftime w.calls (underWebroot szFile) % 2 ^ 32)

/-- `WEB_fwrite` -/
def webFwrite (f : Fp) (data : Bytes) : World × ℤ :=
  match f with
  | .handle h =>
    let written := env.fwrite w.calls h data
    (w.asked.logFile (.fwrite sid f data written), written)
  | .null => (w, -1)
  | .wild _ => (w.faulted, -1)

/-- `WEB_fclose` -/
def webFclose (f : Fp) : World :=
  match f with
  | .handle _ => w.logFile (.fclose sid f)
  | _ => (w.logFile (.fclose sid f)).faulted

/-- `WEB_firstdir` -/
def webFirstdir (filter : Bytes) : World × Fp × Option DirEntry :=
  match env.firstdir w.calls filter with
  | some e =>
    let h := w.files.opened
    (({ w.asked with files := { w.files with opened := h + 1 } }).logFile
      (.firstdir sid filter (some h)), .handle h, some { e with name := (cstr e.name).take 127 })
  | none => (w.asked.logFile (.firstdir sid filter none), .null, none)

/-- `WEB_readdir` -/
def webReaddir (f : Fp) : World × Option DirEntry :=
  match f with
  | .handle h =>
    (w.asked, (env.readdir w.calls h).map fun e => { e with name := (cstr e.name).take 127 })
  | .null => (w, none)
  | .wild _ => (w.faulted, none)

/-- `WEB_closedir` -/
def webClosedir (f : Fp) : World :=
  match f with
  | .handle _ => w.logFile (.closedir sid f)
  | .null => w
  | .wild _ => (w.logFile (.closedir sid f)).faulted

/-- `MakeDeepPath` makes the folders on the way to `path`. -/
def makeDeepPath (path : Bytes) : World := w.logFile (.makeDeepPath sid path)

end World

end StraightHttpd
