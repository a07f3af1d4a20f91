import StraightHttpd.Httpd.Context
import StraightHttpd.Lib.Histories

/-! # The exchange on a connection

The protocol between requests and responses. A request is taken in from its first byte on; then one response
is made for it, which grows while it is being sent; when that has ended, the connection waits for the next
request. The connection may be given up at any time.
-/

set_option autoImplicit false

namespace StraightHttpd
open CMemory

/-- How far the exchange is: `rest` is what was made of the response and not passed to `altcp_write`. -/
inductive Phase
  | waiting
  | asked
  | owing (rest : Bytes)
  | ended (rest : Bytes)

/-- What may be noted at any time. -/
def Obs.Unasked : Obs → Prop
  | .touched _ _ | .closed _ _ => True
  | _ => False

/-- What is noted while a request is taken in. -/
def Obs.Asks : Obs → Prop
  | .line _ _ | .consumed _ _ | .headers _ | .refused | .login _ _ => True
  | .call cb _ => cb ≠ .readContent
  | _ => False

/-- The rules of the exchange. -/
inductive Phase.Step : Phase → Obs → Phase → Prop
  | aside {t : Phase} {o : Obs} : o.Unasked → Step t o t
  | prepare : Step .waiting .reset .waiting
  | accepted : Step .waiting .accepted .waiting
  | begin : Step .waiting .begin .asked
  | asks {o : Obs} : o.Asks → Step .asked o .asked
  | response (bs : Bytes) : Step .asked (.response bs) (.owing bs)
  | read {rest : Bytes} (m : Cgi) : Step (.owing rest) (.call .readContent m) (.owing rest)
  | content {rest : Bytes} (bs : Bytes) : Step (.owing rest) (.content bs) (.owing (rest ++ bs))
  | wrote {bs rest : Bytes} : Step (.owing (bs ++ rest)) (.wrote bs) (.owing rest)
  | writeFailed {rest : Bytes} : rest ≠ [] → Step (.owing rest) .writeFailed (.ended rest)
  | requestEnd {rest : Bytes} {bytesLeft : ℤ} : (0 < bytesLeft ↔ rest ≠ []) →
      Step (.owing rest) (.requestEnd bytesLeft) (.ended rest)
  | next {rest : Bytes} : Step (.ended rest) .reset .waiting
  | freed {t : Phase} : Step t .freed .waiting

/-- The exchange as a protocol. -/
def exchange : RunSystem Phase Obs where
  init t := t = .waiting
  step := Phase.Step

end StraightHttpd
