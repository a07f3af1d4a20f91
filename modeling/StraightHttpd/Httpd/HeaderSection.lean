import StraightHttpd.Lib.CText
import StraightHttpd.Httpd.Steps

/-! # The lines of a header section (`http_core.c`)

`HttpRequestProc` looks for lines in the part of the header section that is in the request buffer, acts
on each, and shifts them out. When the buffer is full and has no line end in it, half of it is dropped
and what follows is taken for the start of a line. While that does not happen, every line that is acted
on is a line of the section.
-/

set_option autoImplicit false

namespace StraightHttpd
open CMemory

/-- A line of a text: where it begins, and how long it is without its line end. -/
structure Line where
  start : ℕ
  length : ℕ
  deriving DecidableEq, Repr

/-- The places of a text where a line begins. -/
def LineStart (text : Bytes) (i : ℕ) : Prop := i = 0 ∨ ∃ k, i = k + crlf.length ∧ crlf <+: text.drop k

/-- The line lies between two line ends that follow one another, or between the start of the text and
the first line end. -/
structure Line.Complete (text : Bytes) (l : Line) : Prop where
  start : LineStart text l.start
  stop : find crlf (text.drop l.start) = some l.length

/-- The lines with their line ends. -/
def lineText (lines : List Bytes) : Bytes := lines.flatMap (· ++ crlf)

def Line.shift (l : Line) (k : ℕ) : Line := { l with start := k + l.start }

theorem crlf_ne : crlf ≠ [] := List.cons_ne_nil _ _

theorem LineStart.append {text : Bytes} {i : ℕ} (h : LineStart text i) (u : Bytes) :
    LineStart (text ++ u) i := by
  obtain rfl | ⟨k, rfl, hk⟩ := h
  · exact .inl rfl
  · have hpos := List.length_pos_iff.mpr crlf_ne
    have hlen := hk.length_le
    rw [List.length_drop] at hlen
    refine .inr ⟨k, rfl, ?_⟩
    rw [List.drop_append_of_le_length (by omega)]
    exact hk.trans (List.prefix_append _ u)

theorem Line.Complete.append {text : Bytes} {l : Line} (h : l.Complete text) (u : Bytes) :
    l.Complete (text ++ u) := by
  have hfit := find_le h.stop crlf_ne
  have hpos := List.length_pos_iff.mpr crlf_ne
  rw [List.length_drop] at hfit
  refine ⟨h.start.append u, ?_⟩
  rw [List.drop_append_of_le_length (by omega)]
  exact find_append_left h.stop crlf_ne u

/-- Behind the end of a line another begins. -/
theorem Line.Complete.next {text : Bytes} {l : Line} (h : l.Complete text) :
    LineStart text (l.start + l.length + crlf.length) := by
  refine .inr ⟨l.start + l.length, rfl, ?_⟩
  have hfound := prefix_of_find h.stop
  rwa [List.drop_drop] at hfound

namespace Sys

variable (env : Env)

/-! ## The scan -/

/-- What the scan does about the line of `k` bytes at `pos` in the buffer. -/
def actOn (s : Sys) (l : Line) : Sys :=
  if l.length = 0 then s.emptyLine
  else if s.core.requestMethod = none then
    (s.requestLine ((s.core.rx.held.drop l.start).take l.length)).getD (s.setResult (-500))
  else s.headerLine env (poke (s.core.rx.httpRequestBuffer.drop l.start) l.length [0]) l.length

/-- The lines that `headerLines` acts on. -/
def actedLines : ℕ → Sys → ℕ → List Line
  | 0, _, _ => []
  | n + 1, s, pos =>
    match find crlf (s.core.rx.held.drop pos) with
    | none => []
    | some 0 => [⟨pos, 0⟩]
    | some (k + 1) =>
      if s.core.requestMethod = none then
        match s.requestLine ((s.core.rx.held.drop pos).take (k + 1)) with
        | none => [⟨pos, k + 1⟩]
        | some s => ⟨pos, k + 1⟩ :: actedLines n s (pos + k + 3)
      else
        let mem := poke (s.core.rx.httpRequestBuffer.drop pos) (k + 1) [0]
        ⟨pos, k + 1⟩ :: actedLines n (s.headerLine env mem (k + 1)) (pos + k + 3)

/-- The scan does nothing but act on these lines, one after another. -/
theorem headerLines_acts (n : ℕ) (s : Sys) (pos : ℕ) :
    (s.headerLines env n pos).1 = (s.actedLines env n pos).foldl (actOn env) s := by
  induction n generalizing s pos with
  | zero => rfl
  | succ n ih =>
    rw [headerLines, actedLines]
    simp only
    rcases find crlf (s.core.rx.held.drop pos) with _ | _ | k
    · rfl
    · rfl
    · simp only
      by_cases hm : s.core.requestMethod = none
      · rw [if_pos hm, if_pos hm]
        cases hline : s.requestLine ((s.core.rx.held.drop pos).take (k + 1)) with
        | none =>
          rw [List.foldl_cons, List.foldl_nil, actOn, if_neg (Nat.succ_ne_zero k), if_pos hm, hline]
          rfl
        | some s' =>
          simp only
          rw [ih, List.foldl_cons, actOn, if_neg (Nat.succ_ne_zero k), if_pos hm, hline]
          rfl
      · rw [if_neg hm, if_neg hm, ih, List.foldl_cons]
        congr 1
        rw [actOn, if_neg (Nat.succ_ne_zero k), if_neg hm]

theorem requestLine_rx {s s' : Sys} {line : Bytes} (h : s.requestLine line = some s') :
    s'.core.rx = s.core.rx := by
  obtain ⟨method, m, q, rfl⟩ := requestLine_eq h
  obtain ⟨handler, hcore⟩ := (s.setTarget method m q).cgiSetCgiHandler_core
  rw [hcore]
  rfl

/-- The scan leaves the buffer alone, acts on lines of the text in it that lies behind `base`, and stops
at the start of a line. -/
structure Scanned (base : Bytes) (s : Sys) (pos : ℕ) (acted : List Line) (t : Sys) (stop : ℕ) : Prop where
  rx : t.core.rx = s.core.rx
  lines : ∀ l ∈ acted, (l.shift base.length).Complete (base ++ s.core.rx.held)
  start : LineStart (base ++ s.core.rx.held) (base.length + stop)
  pos_le : pos ≤ stop
  stop_le : stop ≤ s.core.rx.held.length

variable {env} {base : Bytes}

/-- The line found at `pos` is complete. -/
theorem complete_of_find {s : Sys} {pos k : ℕ} (hpos : LineStart (base ++ s.core.rx.held) (base.length + pos))
    (hfind : find crlf (s.core.rx.held.drop pos) = some k) :
    (Line.shift ⟨pos, k⟩ base.length).Complete (base ++ s.core.rx.held) ∧
      pos + k + crlf.length ≤ s.core.rx.held.length := by
  have hfit := find_le hfind crlf_ne
  have hlen := List.length_pos_iff.mpr crlf_ne
  rw [List.length_drop] at hfit
  refine ⟨⟨hpos, ?_⟩, by omega⟩
  show find crlf ((base ++ s.core.rx.held).drop (base.length + pos)) = some k
  rw [← List.drop_drop, List.drop_left]
  exact hfind

/-- A line in front of what the scan goes on with. -/
theorem Scanned.cons {s s' t : Sys} {pos k stop : ℕ} {acted : List Line} (hrx : s'.core.rx = s.core.rx)
    (hline : (Line.shift ⟨pos, k⟩ base.length).Complete (base ++ s.core.rx.held))
    (h : Scanned base s' (pos + k + crlf.length) acted t stop) :
    Scanned base s pos (⟨pos, k⟩ :: acted) t stop := by
  obtain ⟨hr, hl, hs, hp, hle⟩ := h
  rw [hrx] at hr hl hs hle
  refine ⟨hr, ?_, hs, by omega, hle⟩
  intro l hmem
  obtain rfl | hmem := List.mem_cons.mp hmem
  · exact hline
  · exact hl l hmem

theorem headerLines_scanned (n : ℕ) (s : Sys) (pos : ℕ)
    (hpos : LineStart (base ++ s.core.rx.held) (base.length + pos)) (hle : pos ≤ s.core.rx.held.length) :
    Scanned base s pos (s.actedLines env n pos) (s.headerLines env n pos).1
      (s.headerLines env n pos).2.1 := by
  induction n generalizing s pos with
  | zero => exact ⟨rfl, fun l hl => absurd hl List.not_mem_nil, hpos, le_refl _, hle⟩
  | succ n ih =>
    have hcrlf : crlf.length = 2 := rfl
    rw [headerLines, actedLines]
    simp only
    rcases hfind : find crlf (s.core.rx.held.drop pos) with _ | _ | k
    · exact ⟨rfl, fun l hl => absurd hl List.not_mem_nil, hpos, le_refl _, hle⟩
    · obtain ⟨hline, hfit⟩ := complete_of_find hpos hfind
      have hnext := hline.next
      refine ⟨rfl, fun l hl => ?_, ?_, Nat.le_add_right _ _, hfit⟩
      · obtain rfl := List.mem_singleton.mp hl
        exact hline
      · rwa [Line.shift, Nat.add_zero, Nat.add_assoc] at hnext
    · obtain ⟨hline, hfit⟩ := complete_of_find hpos hfind
      have hnext : LineStart (base ++ s.core.rx.held) (base.length + (pos + (k + 1) + crlf.length)) := by
        have h := hline.next
        rwa [Line.shift, Nat.add_assoc, Nat.add_assoc, ← Nat.add_assoc pos] at h
      simp only
      -- what is acted on next is in the same buffer
      have hgo : ∀ s' : Sys, s'.core.rx = s.core.rx →
          Scanned base s pos (⟨pos, k + 1⟩ :: s'.actedLines env n (pos + k + 3))
            (s'.headerLines env n (pos + k + 3)).1 (s'.headerLines env n (pos + k + 3)).2.1 := by
        intro s' hrx
        rw [← hrx] at hnext hfit
        exact .cons hrx hline (ih s' (pos + k + 3) hnext hfit)
      by_cases hm : s.core.requestMethod = none
      · rw [if_pos hm, if_pos hm]
        cases hrequest : s.requestLine ((s.core.rx.held.drop pos).take (k + 1)) with
        | none =>
          refine ⟨rfl, fun l hl => ?_, hpos, le_refl _, hle⟩
          obtain rfl := List.mem_singleton.mp hl
          exact hline
        | some s' => exact hgo s' (requestLine_rx hrequest)
      · rw [if_neg hm, if_neg hm]
        exact hgo _ (headerLine_kept s _ (k + 1)).rx

theorem le_headerLines (n : ℕ) (s : Sys) (pos : ℕ) : pos ≤ (s.headerLines env n pos).2.1 := by
  induction n generalizing s pos with
  | zero => exact le_refl _
  | succ n ih =>
    rw [headerLines]
    simp only
    split
    · exact le_refl _
    · exact Nat.le_add_right _ _
    next k hk =>
      have hgo : ∀ s' : Sys, pos ≤ (s'.headerLines env n (pos + k + 3)).2.1 := fun s' =>
        Nat.le_trans (by omega) (ih s' _)
      split
      · split
        · exact le_refl _
        · exact hgo _
      · exact hgo _

/-- A scan that takes no line finds none, or meets a method that is not allowed. -/
theorem headerLines_stop_zero {n : ℕ} {s : Sys} (h : (s.headerLines env (n + 1) 0).2.1 = 0) :
    find crlf s.core.rx.held = none ∨ (s.headerLines env (n + 1) 0).1.app.result < 0 := by
  have hscan (s' : Sys) (k : ℕ) : 0 < (s'.headerLines env n (0 + k + 3)).2.1 :=
    Nat.lt_of_lt_of_le (by omega) (le_headerLines n s' _)
  rw [headerLines, List.drop_zero] at h ⊢
  simp only at h ⊢
  rcases hfind : find crlf s.core.rx.held with _ | _ | k
  · exact .inl rfl
  · rw [hfind] at h
    cases h
  · rw [hfind] at h
    simp only at h ⊢
    split at h
    next hm =>
      split at h
      next =>
        rw [if_pos hm]
        exact .inr (Int.negSucc_lt_zero 499)
      next s' _ => exact absurd h (Nat.pos_iff_ne_zero.mp (hscan s' k))
    next => exact absurd h (Nat.pos_iff_ne_zero.mp (hscan _ k))

end Sys

/-! ## The section as it is received -/

/-- What the parser sets, and the lines it gave to `CGI_HeaderReceived`, newest first. -/
structure HeaderFields where
  requestMethod : Option Method
  requestPath : Bytes
  posQuestion : ℤ
  contentLength : ℤ
  keepalive : Bool
  chunked : Bool
  ifModified : ℤ
  rangeFrom : ℤ
  rangeTo : ℤ
  token : Bytes
  handler : Option Cgi
  given : List Bytes

def Obs.given : Obs → Option Bytes
  | .line _ bs => some bs
  | _ => none

def Sys.headerFields (s : Sys) : HeaderFields where
  requestMethod := s.core.requestMethod
  requestPath := s.core.requestPath
  posQuestion := s.core.posQuestion
  contentLength := s.core.contentLength
  keepalive := s.core.keepalive
  chunked := s.core.chunked
  ifModified := s.core.ifModified
  rangeFrom := s.core.rangeFrom
  rangeTo := s.app.rangeTo
  token := s.app.token
  handler := s.core.handler
  given := s.core.hist.filterMap Obs.given

/-- A header section on its way through the buffer: the connection, its fields when the section began,
what was received since, what was shifted out, and the lines that were acted on. -/
structure Section where
  sys : Sys
  before : HeaderFields
  received : Bytes
  gone : Bytes
  acted : List Line

/-- What can happen while a header section is received: a chain of pbufs arrives, the buffer is
refilled, its lines are parsed, or something happens that has to do with neither the buffer nor the
result nor what the header says. -/
inductive SectionEvent
  | receive (p : RecvChain)
  | dequeue
  | parse
  | other (t : Sys)

namespace Section

variable (env : Env)

/-- The lines that the next parsing acts on. -/
def parsed (x : Section) : List Line :=
  if x.sys.core.rx.requestLength ≥ 2 then
    (x.sys.actedLines env (x.sys.core.rx.requestLength.toNat + 1) 0).map (·.shift x.gone.length)
  else []

/-- After the parsing. -/
def parse (x : Section) : Section :=
  let t := (x.sys.receiveHeader env).1
  { x with
    sys := t
    gone := x.gone ++ x.sys.core.rx.held.take (x.sys.core.rx.requestLength - t.core.rx.requestLength).toNat
    acted := x.acted ++ x.parsed env }

/-- The window keeps the queue below 64 KiB. Nothing is parsed after an error. -/
def Step (x : Section) : SectionEvent → Section → Prop
  | .receive p, x' =>
    (chainBytes x.sys.core.rx.reqBufList).length + (chainBytes p.pbufs).length < 65536 ∧
      x' = { x with
        sys := { x.sys with core := { x.sys.core with rx := x.sys.core.rx.receive p.pbufs } }
        received := x.received ++ chainBytes p.pbufs }
  | .dequeue, x' => x' = { x with sys := x.sys.dequeue }
  | .parse, x' => x.sys.core.state = .headerReceiving ∧ 0 ≤ x.sys.app.result ∧ x' = x.parse env
  | .other t, x' => t.core.rx = x.sys.core.rx ∧ t.core.state = x.sys.core.state ∧
      t.app.result = x.sys.app.result ∧ t.headerFields = x.sys.headerFields ∧ x' = { x with sys := t }

/-- The section begins with what is in the buffer and in the queue. -/
structure Start (x : Section) : Prop where
  state : x.sys.core.state = .headerReceiving
  valid : x.sys.core.rx.Valid
  level : x.sys.core.rx.maxLevel = maxReqBufSize
  before : x.before = x.sys.headerFields
  received : x.received = x.sys.core.rx.held ++ x.sys.core.rx.queued
  gone : x.gone = []
  acted : x.acted = []

def runs : RunSystem Section SectionEvent where
  init := Start
  step := Step env

/-- The parsing does not meet a full buffer without a line end. -/
def Fits (x : Section) : SectionEvent → Prop
  | .parse => x.sys.core.rx.maxLevel ≤ x.sys.core.rx.requestLength → find crlf x.sys.core.rx.held ≠ none
  | _ => True

/-- Only lines of the section were acted on, and what is in the buffer begins with a line. -/
structure Whole (x : Section) : Prop where
  valid : x.sys.core.rx.Valid
  stream : x.gone ++ x.sys.core.rx.held ++ x.sys.core.rx.queued = x.received
  acted : ∀ l ∈ x.acted, l.Complete x.received
  start : 0 ≤ x.sys.app.result → LineStart x.gone x.gone.length

end Section

theorem LineStart.take {text : Bytes} {i : ℕ} (h : LineStart text i) : LineStart (text.take i) i := by
  obtain rfl | ⟨k, rfl, hk⟩ := h
  · exact .inl rfl
  · refine .inr ⟨k, rfl, ?_⟩
    rw [List.drop_take, Nat.add_sub_cancel_left]
    exact List.prefix_take_iff.mpr ⟨hk, le_refl _⟩

namespace Section

variable {env : Env}

theorem held_length {s : Rx} (h : s.Valid) : (s.held.length : ℤ) = s.requestLength := by
  have h0 := h.nonneg
  have hlevel := h.level
  have hroom := h.room
  rw [Rx.held, List.length_take]
  omega

theorem Start.whole {x : Section} (h : Start x) : Whole x := by
  refine ⟨h.valid, ?_, ?_, fun _ => ?_⟩
  · rw [h.gone, h.received]
    rfl
  · rw [h.acted]
    exact fun l hl => absurd hl List.not_mem_nil
  · rw [h.gone]
    exact .inl rfl

/-- Shifting out of the buffer what ends where a line begins. -/
theorem Whole.shifted {x : Section} {t : Sys} {acted : List Line} {k : ℕ} (h : Whole x)
    (hrx : t.core.rx = x.sys.core.rx.shift k) (hk : k ≤ x.sys.core.rx.held.length)
    (hacted : ∀ l ∈ acted, l.Complete x.received)
    (hstart : 0 ≤ t.app.result → LineStart (x.gone ++ x.sys.core.rx.held) (x.gone.length + k)) :
    Whole { x with sys := t, gone := x.gone ++ x.sys.core.rx.held.take k, acted := acted } := by
  have hlength := held_length h.valid
  obtain ⟨hvalid, hheld, hqueue, hoffset, -⟩ := Rx.shift_spec h.valid (k := k) (by omega)
  rw [← hrx] at hvalid hheld hqueue hoffset
  have hqueued : t.core.rx.queued = x.sys.core.rx.queued := by
    rw [Rx.queued, hqueue, hoffset, Rx.queued]
  have htake : (x.gone ++ x.sys.core.rx.held).take (x.gone.length + k) =
      x.gone ++ x.sys.core.rx.held.take k := List.take_length_add_append k
  refine ⟨hvalid, ?_, hacted, fun hresult => ?_⟩
  · show x.gone ++ x.sys.core.rx.held.take k ++ t.core.rx.held ++ t.core.rx.queued = x.received
    rw [List.append_assoc x.gone, hheld, hqueued, h.stream]
  · have hgone := (hstart hresult).take
    rw [htake] at hgone
    show LineStart (x.gone ++ x.sys.core.rx.held.take k) (x.gone ++ x.sys.core.rx.held.take k).length
    rwa [List.length_append, List.length_take, Nat.min_eq_left hk]

theorem Whole.parsed {x : Section} (h : Whole x) (hresult : 0 ≤ x.sys.app.result) :
    ∀ l ∈ x.acted ++ x.parsed env, l.Complete x.received := by
  intro l hl
  rcases List.mem_append.mp hl with hl | hl
  · exact h.acted l hl
  · unfold Section.parsed at hl
    split_ifs at hl
    · obtain ⟨l', hl', rfl⟩ := List.mem_map.mp hl
      have hscan := @Sys.headerLines_scanned env x.gone (x.sys.core.rx.requestLength.toNat + 1) x.sys 0
        ((h.start hresult).append _) (Nat.zero_le _)
      have hline := (hscan.lines l' hl').append x.sys.core.rx.queued
      rwa [h.stream] at hline
    · cases hl

/-- How the parsing of the buffer ends after the scan `r`. -/
inductive HeaderEnd (s : Sys) (r : Sys × ℕ × Bool) : Sys × Bool → Prop
  | kept : r.2.1 = 0 → HeaderEnd s r (r.1, r.2.2)
  | shifted : r.2.1 ≠ 0 → HeaderEnd s r (r.1.consume .header r.2.1, r.2.2)
  | dropped : r.2.1 = 0 → s.core.rx.maxLevel ≤ s.core.rx.requestLength →
      HeaderEnd s r (r.1.consume .header (s.core.rx.requestLength / 2), r.2.2)

theorem receiveHeader_end {s : Sys} (hs : s.core.rx.Valid) :
    HeaderEnd s (s.headerLines env (s.core.rx.requestLength.toNat + 1) 0) (s.receiveHeader env) := by
  have hlength := held_length hs
  have hrx : (s.headerLines env (s.core.rx.requestLength.toNat + 1) 0).1.core.rx = s.core.rx :=
    (@Sys.headerLines_scanned env [] _ s 0 (.inl rfl) (Nat.zero_le _)).rx
  by_cases hsize : s.core.rx.requestLength ≥ 2
  · generalize hlines : s.headerLines env (s.core.rx.requestLength.toNat + 1) 0 = r at hrx
    obtain ⟨t, pos, done⟩ := r
    have hlevel : t.core.rx.maxLevel = s.core.rx.maxLevel := congrArg Rx.maxLevel hrx
    unfold Sys.receiveHeader
    simp only [if_pos hsize, hlines, hlevel]
    split_ifs with hpos hfull
    · exact .dropped hpos hfull
    · exact .kept hpos
    · exact .shifted hpos
  · -- no line end fits
    have hnone : find crlf s.core.rx.held = none := by
      cases hfind : find crlf s.core.rx.held with
      | none => rfl
      | some k =>
        have hfit := find_le hfind crlf_ne
        have hcrlf : crlf.length = 2 := rfl
        omega
    have hscan : s.headerLines env (s.core.rx.requestLength.toNat + 1) 0 = (s, 0, false) := by
      rw [Sys.headerLines, List.drop_zero, hnone]
    have hsame : s.receiveHeader env = (s, false) := by
      unfold Sys.receiveHeader
      simp only [if_neg hsize]
    rw [hscan, hsame]
    exact .kept rfl

/-- Parsing keeps to lines as long as the buffer is not full without one. -/
theorem Whole.parse {x : Section} (h : Whole x) (hresult : 0 ≤ x.sys.app.result)
    (hfits : Fits x .parse) : Whole (x.parse env) := by
  have hlines := @Whole.parsed env x h hresult
  have hstart : LineStart (x.gone ++ x.sys.core.rx.held) x.gone.length := (h.start hresult).append _
  have hlength := held_length h.valid
  have h0 := h.valid.nonneg
  have hscan := @Sys.headerLines_scanned env x.gone (x.sys.core.rx.requestLength.toNat + 1) x.sys 0
    hstart (Nat.zero_le _)
  have hzero := @Sys.headerLines_stop_zero env x.sys.core.rx.requestLength.toNat x.sys
  have hend := @receiveHeader_end env x.sys h.valid
  -- how much of the buffer is shifted out
  have hgo (t : Sys) (k : ℕ) (hrx : t.core.rx = x.sys.core.rx.shift k) (hk : k ≤ x.sys.core.rx.held.length)
      (hbegin : 0 ≤ t.app.result → LineStart (x.gone ++ x.sys.core.rx.held) (x.gone.length + k)) :
      Whole { x with
        sys := t
        gone := x.gone ++
          x.sys.core.rx.held.take (x.sys.core.rx.requestLength - t.core.rx.requestLength).toNat
        acted := x.acted ++ x.parsed env } := by
    have hshift : t.core.rx.requestLength = x.sys.core.rx.requestLength - k := by
      rw [hrx]
      rfl
    have hcount : (x.sys.core.rx.requestLength - t.core.rx.requestLength).toNat = k := by omega
    rw [hcount]
    exact h.shifted hrx hk hlines hbegin
  unfold Section.parse
  simp only
  generalize x.sys.headerLines env (x.sys.core.rx.requestLength.toNat + 1) 0 = r at hscan hzero hend
  have hrx : r.1.core.rx = x.sys.core.rx := hscan.rx
  generalize x.sys.receiveHeader env = e at hend
  cases hend with
  | kept hpos =>
    simp only [hrx, Int.sub_self, Int.toNat_zero, List.take_zero, List.append_nil]
    exact ⟨by rw [hrx]; exact h.valid, by rw [hrx]; exact h.stream, hlines, fun _ => h.start hresult⟩
  | shifted hpos =>
    refine hgo _ r.2.1 ?_ hscan.stop_le fun _ => hscan.start
    show r.1.core.rx.shift _ = _
    rw [hrx]
  | dropped hpos hfull =>
    refine hgo _ (x.sys.core.rx.requestLength / 2).toNat ?_ (by omega) fun hok => ?_
    · show r.1.core.rx.shift _ = _
      rw [hrx, Int.toNat_of_nonneg (by omega)]
    · -- a full buffer has a line end, so the scan stopped at an error
      have herror : r.1.app.result < 0 := (hzero hpos).resolve_left (hfits hfull)
      have hok : 0 ≤ r.1.app.result := hok
      omega

theorem Whole.step {x x' : Section} {e : SectionEvent} (h : Whole x) (hfits : Fits x e)
    (hs : Step env x e x') : Whole x' := by
  cases e with
  | receive p =>
    obtain ⟨hq, rfl⟩ := hs
    obtain ⟨hvalid, hbytes, -⟩ := Rx.receive_spec h.valid p hq
    refine ⟨hvalid, ?_, fun l hl => (h.acted l hl).append _, h.start⟩
    show x.gone ++ (x.sys.core.rx.receive p.pbufs).held ++ (x.sys.core.rx.receive p.pbufs).queued = _
    rw [List.append_assoc, hbytes, ← List.append_assoc, ← List.append_assoc, h.stream]
  | dequeue =>
    obtain rfl := hs
    obtain ⟨hvalid, hbytes, -⟩ := Rx.dequeue_spec h.valid
    refine ⟨hvalid, ?_, h.acted, h.start⟩
    show x.gone ++ x.sys.core.rx.dequeue.held ++ x.sys.core.rx.dequeue.queued = x.received
    rw [List.append_assoc, hbytes, ← List.append_assoc, h.stream]
  | parse =>
    obtain ⟨-, hresult, rfl⟩ := hs
    exact h.parse hresult hfits
  | other t =>
    obtain ⟨hrx, -, hresult, -, rfl⟩ := hs
    refine ⟨by rw [hrx]; exact h.valid, by rw [hrx]; exact h.stream, h.acted, fun hok => h.start ?_⟩
    rwa [← hresult]

/-- In every run in which the parsing does not meet a full buffer without a line end, only complete lines
of the section are acted on; and all that a scan does is to act on its lines. -/
theorem whole_lines {x : Section} (h : ((runs env).restrict Fits).Reach x) :
    (∀ l ∈ x.acted, l.Complete x.received) ∧ ∀ n, (x.sys.headerLines env n 0).1 =
      (x.sys.actedLines env n 0).foldl (Sys.actOn env) x.sys := by
  have hwhole : Whole x := by
    refine h.invariant (fun _ => Start.whole) ?_
    intro x e x' hx hs
    have hstep : Step env x e x' := hs.2
    exact hx.step hs.1 hstep
  exact ⟨hwhole.acted, fun n => Sys.headerLines_acts env n x.sys 0⟩

/-- A connection that waits for the header section of a request. -/
def awaiting : Section where
  sys := { Sys.zero 0 World.boot with
    core := { Core.zero 0 with state := .headerReceiving, rx := Rx.fresh } }
  before := (Sys.zero 0 World.boot).headerFields
  received := []
  gone := []
  acted := []

theorem single_ne (b : Bytes) : [({ payload := b, totLen := b.length } : Pbuf)] ≠ [] := List.cons_ne_nil _ _

theorem single_consistent (b : Bytes) (h : b ≠ []) : Consistent [{ payload := b, totLen := b.length }] :=
  ⟨h, by rw [chainBytes_cons, chainBytes_nil, List.append_nil], trivial⟩

/-- A segment in one pbuf. -/
def segment (b : Bytes) (h : b ≠ []) : RecvChain where
  pbufs := [{ payload := b, totLen := b.length }]
  ne := single_ne b
  consistent := single_consistent b h

/-- The connection after a segment that fits the window. -/
def arrived (x : Section) (b : Bytes) : Section :=
  { x with
    sys := { x.sys with core := { x.sys.core with
      rx := x.sys.core.rx.receive [{ payload := b, totLen := b.length }] } }
    received := x.received ++ b }

theorem arrived_reach {C : Section → SectionEvent → Prop} {x : Section} {b : Bytes}
    (hx : ((runs env).restrict C).Reach x) (hb : b ≠ [])
    (hq : (chainBytes x.sys.core.rx.reqBufList).length + b.length < 65536)
    (hC : C x (.receive (segment b hb))) : ((runs env).restrict C).Reach (x.arrived b) := by
  have hbytes : chainBytes (segment b hb).pbufs = b := by
    rw [segment, chainBytes_cons, chainBytes_nil, List.append_nil]
  have hstep : Step env x (.receive (segment b hb)) (x.arrived b) := by
    refine ⟨by rw [hbytes]; exact hq, ?_⟩
    rw [hbytes]
    rfl
  exact hx.step _ ⟨hC, hstep⟩

theorem parse_reach {C : Section → SectionEvent → Prop} {x : Section}
    (hx : ((runs env).restrict C).Reach x) (hstate : x.sys.core.state = .headerReceiving)
    (hresult : 0 ≤ x.sys.app.result) (hC : C x .parse) : ((runs env).restrict C).Reach (x.parse env) := by
  have hstep : Step env x .parse (x.parse env) := ⟨hstate, hresult, rfl⟩
  exact hx.step _ ⟨hC, hstep⟩

theorem awaiting_reach {C : Section → SectionEvent → Prop} : ((runs env).restrict C).Reach awaiting :=
  .init ⟨rfl, .of_empty Rx.fresh_empty, rfl, rfl, rfl, rfl, rfl⟩

theorem dequeue_reach {C : Section → SectionEvent → Prop} {x : Section}
    (hx : ((runs env).restrict C).Reach x) (hC : C x .dequeue) :
    ((runs env).restrict C).Reach { x with sys := x.sys.dequeue } := by
  have hstep : Step env x .dequeue { x with sys := x.sys.dequeue } := rfl
  exact hx.step _ ⟨hC, hstep⟩

/-- A request for a part of a page, with a line that is nearly as long as the buffer. -/
def partLines : List Bytes :=
  [bytes "GET / HTTP/1.1", bytes "Range: bytes=100-200",
    bytes "If-Modified-Since: Tue, 15 Nov 2022 12:45:26 GMT", bytes "X-Note: " ++ List.replicate 760 97,
    bytes "Connection: keep-alive"]

def partText : Bytes := lineText partLines ++ crlf

/-- The section comes in three segments. The first ends within a line, the second fills the buffer
behind what is left of that line, and the third waits in the queue. -/
def filled : Section :=
  let first := (awaiting.arrived (partText.take 20)).parse (Env.calm [])
  (first.arrived ((partText.drop 20).take 796)).arrived (partText.drop 816)

/-- The full buffer is parsed, refilled and parsed again. -/
def refilled : Section :=
  let lines := filled.parse (Env.calm [])
  { lines with sys := lines.sys.dequeue }.parse (Env.calm [])

theorem refilled_reach : ((runs (Env.calm [])).restrict Fits).Reach refilled := by
  have begun : ((runs (Env.calm [])).restrict Fits).Reach (awaiting.arrived (partText.take 20)) :=
    arrived_reach awaiting_reach (by decide +kernel) (by decide +kernel) trivial
  have first := parse_reach begun rfl (by decide) fun hfull => absurd hfull (by decide +kernel)
  have second := @arrived_reach _ _ _ ((partText.drop 20).take 796) first (by decide +kernel)
    (by decide +kernel) trivial
  have full : ((runs (Env.calm [])).restrict Fits).Reach filled :=
    arrived_reach second (by decide +kernel) (by decide +kernel) trivial
  have lines := parse_reach full (by decide +kernel) (by decide +kernel) fun _ => by decide +kernel
  exact parse_reach (dequeue_reach lines trivial) (by decide +kernel) (by decide +kernel)
    fun _ => by decide +kernel

theorem whole_lines_refilled :
    filled.sys.core.rx.requestLength = maxReqBufSize ∧ filled.sys.core.rx.queued.length = 68 ∧
      refilled.received = partText ∧
      refilled.acted = [⟨0, 14⟩, ⟨16, 20⟩, ⟨38, 48⟩, ⟨88, 768⟩, ⟨858, 22⟩, ⟨882, 0⟩] ∧
      ∀ l ∈ refilled.acted, l.Complete refilled.received :=
  ⟨by decide +kernel, by decide +kernel, by decide +kernel, by decide +kernel,
    (whole_lines refilled_reach).1⟩

/-! ## A line that does not fit -/

def getLine : Bytes := bytes "GET / HTTP/1.1\r\n"

/-- A line of 800 bytes with what looks like another line in the middle. -/
def longLine : Bytes := List.replicate 400 97 ++ bytes "Content-Length: 5" ++ List.replicate 383 97

/-- The section after a request line and the long line, as far as it fits, and the rest of it. -/
def cutInHalf : Section :=
  let x := ((awaiting.arrived (getLine ++ longLine.take 784)).parse (Env.calm [])).arrived (longLine.drop 784)
  (x.parse (Env.calm [])).arrived crlf

theorem cutInHalf_reach : (runs (Env.calm [])).Reach (cutInHalf.parse (Env.calm [])) := by
  have h1 : ((runs (Env.calm [])).restrict fun _ _ => True).Reach
      (awaiting.arrived (getLine ++ longLine.take 784)) :=
    arrived_reach awaiting_reach (by decide) (by decide +kernel) trivial
  have h2 := parse_reach h1 rfl (by decide) trivial
  have h3 := @arrived_reach _ _ _ (longLine.drop 784) h2 (by decide +kernel) (by decide +kernel) trivial
  have h4 := parse_reach h3 (by decide +kernel) (by decide +kernel) trivial
  have h5 := @arrived_reach _ _ _ crlf h4 (by decide) (by decide +kernel) trivial
  exact .of_restrict (parse_reach h5 (by decide +kernel) (by decide +kernel) trivial)

/-- The second half of it is taken for a line. -/
theorem whole_lines_fails :
    ¬ ∀ (env : Env) (x : Section), (runs env).Reach x → ∀ l ∈ x.acted, l.Complete x.received := by
  intro h
  have hline : (⟨416, 400⟩ : Line) ∈ (cutInHalf.parse (Env.calm [])).acted := by decide +kernel
  have hcomplete := h _ _ cutInHalf_reach _ hline
  obtain hzero | ⟨k, hk, hbefore⟩ := hcomplete.start
  · cases hzero
  · have hlen : crlf.length = 2 := rfl
    have hk : 416 = k + crlf.length := hk
    obtain rfl : k = 414 := by omega
    have hno : ¬ crlf <+: (cutInHalf.parse (Env.calm [])).received.drop 414 := by decide +kernel
    exact hno hbefore

end Section

end StraightHttpd
