import StraightHttpd.Httpd.Web

/-! # Login pages (`cgi/cgi_auth.c`)

The form data of a login is collected in `_appContext` and looked at when the request is complete. That
it is also logged, by a `LogPrint` whose text is taken as a format, is left out.
-/

set_option autoImplicit false

namespace StraightHttpd
open CMemory

/-- The path asked for starts with `page`. -/
def asksFor (c : Core) (page : Bytes) : Bool := strnicmp c.requestPath page page.length == 0

/-- `CheckUser`: the password does not count. -/
def checkUser (u : Bytes) : Bool :=
  strnicmp u (bytes "admin") 5 == 0 || strnicmp u (bytes "user") 4 == 0

/-- `AuthCheck` -/
def authCheck (env : Env) (c : Core) (w : Work) : Work × Bool :=
  let m := cstr w.appContext.asText
  match strstr m (bytes "username="), strstr m (bytes "password=") with
  | some u, some _ =>
    if checkUser ((m.drop (u + 9)).takeWhile (· != 38)) then
      let tick := w.world.tickCount env
      match sessionCreate w.world.sessions tick tick c.ipRemote with
      | (sessions, some (i, cookie)) =>
        ({ w with
            session := some i
            token := cookie
            world := { w.world with sessions := sessions } }, true)
      | (_, none) => ({ w with session := none }, false)
    else (w, false)
  | _, _ => (w, false)

/-- `Auth_OnHeaders` -/
def authOnHeaders (w : Work) : Work := { w with appContext := AppContext.zero }

/-- `Auth_OnPostData`: all that is offered counts as consumed, whatever is kept of it. -/
def authOnPostData (w : Work) (buffer : Bytes) (size : ℤ) : Work × ℤ :=
  if size > 0 then
    let m := w.appContext.asText
    let n := min size ((maxAppContextSize : ℤ) - strlen m - 2)
    let w := if n < 0 then w.faulted else w
    ({ w with appContext := .raw (poke m (strlen m) (strncpyBytes buffer n.toNat)) }, size)
  else (w, size)

/-- `memset(ctxSSI, 0, sizeof(SSI_Context))` over the form data. -/
def clearLogin (w : Work) : Work :=
  { w with appContext := .raw (poke w.appContext.asText 0 (List.replicate 216 0)) }

/-- `Auth_OnRequestReceived` -/
def authOnRequestReceived (env : Env) (c : Core) (w : Work) : Work :=
  if asksFor c webSessionCheck then
    { w with result := if w.session = none then codeUnauthorized else codeOk }
  else if asksFor c webLogoutPage then
    let sessions := match w.session with
      | some i => sessionKill w.world.sessions i
      | none => w.world.sessions
    { w with
      world := { w.world with sessions := sessions }
      responsePath := webDefaultPage
      authorized := 0
      token := []
      result := codeRedirect }
  else if c.requestMethod = some .post ∧ asksFor c webDefaultPage then
    let (w, success) := authCheck env c w
    let w := clearLogin w
    if success then { w with responsePath := webAppPage, authorized := codeOk, result := codeRedirect }
    else { w with responsePath := webDefaultPage, authorized := 0, result := codeRedirect }
  else webRequestReceived env c w

/-- `Auth_SetResponseHeaders` -/
def authSetResponseHeaders (c : Core) (a : App) (httpCodeInfo : Bytes) : App :=
  let nSize := strlen a.sendBuffer
  let token := cstr a.token
  let age := bytes "; Path=/; HttpOnly; max-age=3600\r\n"
  let cookie (sid : Bytes) : Bytes :=
    bytes "X-Auth-Token: " ++ sid ++ bytes "\r\nSet-Cookie: " ++ sid ++ age
  let a :=
    if asksFor c webLogoutPage then
      { a with sendBuffer := sprintfAt a.sendBuffer nSize (cookie (bytes "SID=")) }
    else if c.requestMethod = some .post ∧ asksFor c webDefaultPage ∧ a.authorized = codeOk ∧
        token ≠ [] then
      { a with sendBuffer := sprintfAt a.sendBuffer nSize (cookie token) }
    else a
  webAppendHeaders c a httpCodeInfo

end StraightHttpd
