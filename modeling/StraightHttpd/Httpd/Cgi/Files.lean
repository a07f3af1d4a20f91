import StraightHttpd.Httpd.Web

/-! # Listing of the cache folder (`cgi/cgi_files.c`)

One JSON object per entry; a block ends when fewer than 200 bytes are free.
-/

set_option autoImplicit false

namespace StraightHttpd
open CMemory

def folderToList : Bytes := -- FOLDER_TO_LIST
  bytes "D:/straight/straight-httpd/straight-httpd/straight-httpd/httpd/cncweb/app/cache/"

/-- What stands behind `path=` in the query, if there is a query. -/
def queryPath (c : Core) : Option Bytes :=
  if c.posQuestion ≥ 0 then
    let query := cstr (c.requestPath.drop (c.posQuestion.toNat + 1))
    (strstr query (bytes "path=")).map fun p => query.drop (p + 5)
  else none

/-- The filter that is listed for a path. -/
def listFilter (path : Option Bytes) : Bytes :=
  let folder := match path with
    | none => folderToList
    | some p =>
      let folder := folderToList ++ (match p with
        | 47 :: rest => rest
        | p => p)
      if folder.getLast? = some 47 then folder else folder ++ [47]
  folder ++ bytes "*.*"

/-- The `_responsePath` of the context has room for 128 bytes. -/
def Work.setFilter (w : Work) (filter : Bytes) : Work :=
  let w := { w with responsePath := filter }
  if 128 ≤ filter.length then w.faulted else w

/-- `Files_OnRequestReceived` -/
def filesOnRequestReceived (env : Env) (c : Core) (w : Work) : Work :=
  let w := (w.setSsi SsiContext.zero).setFilter (listFilter (queryPath c))
  let w := { w with options := { w.options with chunkEnabled := true } }
  match w.world.webFirstdir env c.sid w.responsePath with
  | (world, fp, _) =>
    { w with world := if fp = .null then world else world.webClosedir c.sid fp }

/-- `Files_SetResponseHeader` -/
def filesSetResponseHeader (c : Core) (a : App) (httpCodeInfo : Bytes) : App :=
  let text := headerChunked httpCodeInfo (bytes "application/json") [] connectionHeader
  if c.requestMethod = some .get ∧ a.result = codeOk then
    { a with sendBuffer := sprintfAt a.sendBuffer 0 text }
  else a

/-- The text of one entry. -/
def fileItem (first : Bool) (e : DirEntry) : Bytes :=
  (if first then bytes "\x7b\"result\":1, \"data\":[" else [44]) ++
    bytes "\x7b\"folder\":" ++ bytes (if e.isFolder then "1" else "0") ++ bytes ",\"name\":\"" ++
    e.name ++ bytes "\",\"size\":" ++ intText e.size ++ bytes ",\"date\":" ++
    intText (wrap32 e.date) ++ bytes "\x7d"

/-- Entries that are not listed: the folder itself, and the way up from the root of the listing. -/
def skipped (w : Work) (e : DirEntry) : Bool :=
  e.name == [] || e.name == [46] ||
    (e.name == [46, 46] && strlen w.responsePath == folderToList.length + 3)

/-- The next entry, or the text that ends the listing. -/
def nextEntry (env : Env) (c : Core) (w : Work) : Work × (DirEntry ⊕ Bytes) :=
  let x := w.ssiCtx
  if w.dwOperStage = 0 then
    let w := { w with dwOperStage := 1 }
    match w.world.webFirstdir env c.sid w.responsePath with
    | (world, fp, some e) => ({ w with world := world }.setSsi { x with fp := fp }, .inl e)
    | (world, fp, none) =>
      ({ w with world := world, dwOperStage := stageEnd }.setSsi { x with fp := fp },
        .inr (bytes "\x7b\"result\":0, \"data\":[]\x7d"))
  else
    let w := { w with dwOperStage := nextStage w.dwOperStage }
    match w.world.webReaddir env x.fp with
    | (world, some e) => ({ w with world := world }, .inl e)
    | (world, none) =>
      ({ w with world := world.webClosedir c.sid x.fp, dwOperStage := stageEnd }.setSsi
        { x with fp := .null }, .inr (bytes "]\x7d"))

/-- The loop of `Files_ReadOneFileInfo`: the bytes put out. -/
def filesLoop (env : Env) (c : Core) (maxSize : ℤ) : ℕ → Work → Bytes → Work × Bytes
  | 0, w, out => (w.faulted, out)
  | n + 1, w, out =>
    if (out.length : ℤ) < maxSize - 200 then
      match nextEntry env c w with
      | (w, .inr text) => (w, out ++ text)
      | (w, .inl e) =>
        if skipped w e then filesLoop env c maxSize n w out
        else filesLoop env c maxSize n { w with dwTotal := w.dwTotal + 1 }
          (out ++ fileItem (w.dwTotal == 0) e)
    else (w, out)

/-- `Files_ReadOneFileInfo` -/
def filesReadOneFileInfo (env : Env) (c : Core) (w : Work) (maxSize : ℤ) : Work × Bytes × ℤ :=
  if c.requestMethod ≠ some .get then (w, [], -1)
  else if w.dwOperStage = stageEnd then
    let x := w.ssiCtx
    if x.fp = .null then (w, [], -1)
    else ({ w with world := w.world.webClosedir c.sid x.fp }.setSsi { x with fp := .null }, [], -1)
  else
    match filesLoop env c maxSize (env.patience + maxSize.toNat + 1) w [] with
    | (w, out) => (w, out, if out.length > 0 then out.length else -1)

end StraightHttpd
