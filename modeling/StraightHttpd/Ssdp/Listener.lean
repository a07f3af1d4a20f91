import StraightHttpd.NumberText
import StraightHttpd.Port.Pbuf

/-! # The listener for M-SEARCH (`ssdp/ssdp.c`)

A datagram is copied to a buffer of 256 bytes, and its lines are cut out of the copy in place. Reads
are checked: a read behind the end of the buffer ends the scan.
-/

set_option autoImplicit false

namespace StraightHttpd
open CMemory

namespace Ssdp

def bufferSize : ℕ := 256 -- sizeof(szBuffer)

/-- The line counter and what the lines have told so far. -/
structure Search where
  line : ℕ
  gotHost : Bool
  gotSt : Bool
  gotMan : Bool
  gotMx : Bool
  mxMin : ℤ
  deriving DecidableEq, Repr

def Search.start : Search := ⟨0, false, false, false, false, 0⟩

/-- A header line; `text` is the memory from its start. -/
def headerLine (s : Search) (text : Bytes) : Search :=
  if strnicmp text (bytes "Host:") 5 = 0 then { s with gotHost := true }
  else if strnicmp text (bytes "ST:") 3 = 0 then
    if (strstr (text.drop 3) (bytes "ssdp:all")).isSome then { s with gotSt := true }
    else if (strstr (text.drop 3) (bytes "upnp:rootdevice")).isSome then { s with gotSt := true }
    else s
  else if strnicmp text (bytes "Man:") 4 = 0 then
    if (strstr (text.drop 4) (bytes "\"ssdp:discover\"")).isSome then { s with gotMan := true } else s
  else if strnicmp text (bytes "MX:") 3 = 0 then { s with mxMin := ston (text.drop 3), gotMx := true }
  else s

/-- A line. `none` when the first one is no M-SEARCH: the function returns. -/
def takeLine (s : Search) (text : Bytes) : Option Search :=
  if s.line = 0 then
    if strnicmp text (bytes "M-SEARCH") 8 ≠ 0 then none else some { s with line := 1 }
  else some { headerLine s text with line := s.line + 1 }

/-- How the scan ends: at its bound, with a return, or at a read outside the buffer. -/
inductive ScanEnd
  | ended (s : Search)
  | returned
  | outside
  deriving DecidableEq, Repr

/-- The loop over the bytes up to `bound`, from `i` on, with the number of its steps; `start` is where the
line begins. -/
def scanLines (bound : ℕ) : ℕ → (i start : ℕ) → Bytes → Search → ℕ × ScanEnd
  | 0, _, _, _, s => (0, .ended s)
  | n + 1, i, start, buff, s =>
    if i < bound then
      if buff.length ≤ i then (1, .outside)
      else if peek buff i = 13 then
        if buff.length ≤ i + 1 then (1, .outside)
        else if peek buff (i + 1) = 10 then
          let buff := poke buff i [0]
          let text := buff.drop start
          if (0 : UInt8) ∉ text then (1, .outside)
          else
            match takeLine s text with
            | none => (1, .returned)
            | some s =>
              let r := scanLines bound n (i + 2) (i + 2) buff s
              (r.1 + 1, r.2)
        else
          let r := scanLines bound n (i + 1) start buff s
          (r.1 + 1, r.2)
      else
        let r := scanLines bound n (i + 1) start buff s
        (r.1 + 1, r.2)
    else (0, .ended s)

/-- What comes of a datagram: the steps of the scan, whether all reads were in the buffer, and whether a
reply is sent. -/
structure Heard where
  steps : ℕ
  inBounds : Bool
  reply : Bool
  deriving DecidableEq, Repr

/-- All parts of a search were there. -/
def Search.complete (s : Search) : Bool := s.gotHost && s.gotSt && s.gotMan && s.gotMx && decide (s.mxMin > 0)

/-- The bytes of a datagram that are copied. -/
def copied (p : List Pbuf) : Bytes := pbufCopyPartial p (bufferSize - 4) 0

/-- `len - 1` -/
def scanBound (p : List Pbuf) : ℕ := u32 ((copied p).length - 1)

/-- `szBuffer` behind the copy. -/
def szBuffer (p : List Pbuf) : Bytes := copied p ++ List.replicate (bufferSize - (copied p).length) 0

/-- The rest of the listener, by the end of the scan. -/
def reply (r : ℕ × ScanEnd) : Heard :=
  match r.2 with
  | .ended s => ⟨r.1, true, s.complete⟩
  | .returned => ⟨r.1, true, false⟩
  | .outside => ⟨r.1, false, false⟩

/-- `ssdp_listener` -/
def ssdpListener (p : List Pbuf) : Heard :=
  if (strstr (szBuffer p) (bytes "NOTIFY ")).isSome then ⟨0, true, false⟩
  else reply (scanLines (scanBound p) (scanBound p) 0 0 (szBuffer p) Search.start)

end Ssdp

end StraightHttpd
