import StraightHttpd.Httpd.Web

/-! # The settings form (`cgi/cgi_form.c`)

A GET loads the settings for editing, a POST applies what its body set.
-/

set_option autoImplicit false

namespace StraightHttpd
open CMemory

/-- What `Form_OnHeadersReceived` does to the settings. -/
def formHeadersDevice (method : Option Method) (d : Device) : Device :=
  if method = some .get then d.loadConfig4Edit else d

/-- What `Form_OnRequestReceived` does to the settings. -/
def formRequestDevice (method : Option Method) (d : Device) : Device :=
  if method = some .post then d.appyConfig else d

/-- Apply a step to the settings. -/
def Work.onDevice (w : Work) (f : Device → Device) : Work :=
  { w with world := { w.world with device := f w.world.device } }

/-- `Form_OnHeadersReceived` -/
def formOnHeadersReceived (c : Core) (a : App) : App :=
  webOnFormHeaders (a.onWork fun w => w.onDevice (formHeadersDevice c.requestMethod))

/-- `Form_OnRequestReceived` -/
def formOnRequestReceived (env : Env) (c : Core) (a : App) : App :=
  let a := a.onWork fun w =>
    (webRequestReceived env c w).onDevice (formRequestDevice c.requestMethod)
  { a with sendBuffer := List.replicate maxSendBufSize 0, bytesLeft := 0 }

/-- `Form_AllSent` -/
def formAllSent (c : Core) (w : Work) : Work := webAllSent c w

end StraightHttpd
