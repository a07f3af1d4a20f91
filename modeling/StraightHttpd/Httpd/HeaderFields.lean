import StraightHttpd.Httpd.HeaderSection
import StraightHttpd.NumberText

/-! # What the header parser sets (`http_core.c`, `sys_arch.c`)

A line is evaluated where it lies in the buffer, with a NUL in the place of its `\r`. `HeaderFields.evaluate`
is the parser on a copy of the line instead. The two differ where an evaluator reads past the NUL:
`parseHttpDate` looks at fixed offsets, and the range is read from one byte behind `bytes=` on.
-/

set_option autoImplicit false

namespace StraightHttpd
open CMemory

/-! ## The parser on a copy of a line -/

namespace HeaderFields

/-- The request line. -/
def request (f : HeaderFields) (line : Bytes) : Option HeaderFields :=
  (StraightHttpd.requestMethod line).map fun (method, iSkip) =>
    let (m, q) := requestTarget f.requestPath (line.drop iSkip)
    { f with
      requestMethod := some method
      requestPath := m
      posQuestion := match q.iQuestion with
        | some i => i
        | none => -1
      handler := cgiMappings.find? fun c => c.mapping.matches m }

/-- Any other line. -/
def header (env : Env) (f : HeaderFields) (line : Bytes) : HeaderFields :=
  let mem := line ++ [0]
  if isHeader mem (bytes "Content-Length:") then { f with contentLength := atol (mem.drop 15) }
  else if isHeader mem (bytes "Connection:") then
    { f with keepalive := mentions (mem.drop 11) (bytes "keep-alive") (bytes "Keep-Alive") }
  else if isHeader mem (bytes "Transfer-Encoding:") then
    { f with chunked := mentions (mem.drop 18) (bytes "chunked") (bytes "Chunked") }
  else if isHeader mem (bytes "Expect:") then f
  else if isHeader mem (bytes "If-Modified-Since:") then
    { f with ifModified := parseHttpDate env (mem.drop 19) }
  else if isHeader mem (bytes "Range:") then
    { f with rangeFrom := (parseRange (mem.drop 6)).1, rangeTo := (parseRange (mem.drop 6)).2 }
  else if isHeader mem (bytes "X-Auth-Token:") ∨ isHeader mem (bytes "Cookie:") then
    { f with token := (cstr (headerValue line)).take 126 }
  else { f with given := line :: f.given }

/-- A line of the section; the empty line and a request line with another method set nothing. -/
def evaluate (env : Env) (f : HeaderFields) (line : Bytes) : HeaderFields :=
  if line = [] then f
  else if f.requestMethod = none then (f.request line).getD f
  else f.header env line

end HeaderFields

/-- The evaluation of the line looks at no byte behind it: a date is long enough for all its fields, and
something follows `bytes=`. -/
structure OwnBytes (line : Bytes) : Prop where
  date : isHeader line (bytes "If-Modified-Since:") = true → 41 ≤ line.length
  range : isHeader line (bytes "Range:") = true →
    ∀ p, strstr (line.drop 6) (bytes "bytes=") = some p → p + 13 ≤ line.length

/-! ## Reading up to the NUL behind a line -/

theorem strnicmpText_length {s t : Bytes} (h : strnicmpText s t t.length = 0) : t.length ≤ s.length := by
  induction t generalizing s with
  | nil => exact Nat.zero_le _
  | cons b t ih =>
    cases s with
    | nil => cases h
    | cons a s =>
      rw [List.length_cons, strnicmpText] at h
      by_cases hlt : toUpper a < toUpper b
      · rw [if_pos hlt] at h
        cases h
      rw [if_neg hlt] at h
      by_cases hgt : toUpper b < toUpper a
      · rw [if_pos hgt] at h
        cases h
      rw [if_neg hgt] at h
      exact Nat.succ_le_succ (ih h)

theorem isHeader_append_zero (line r name : Bytes) : isHeader (line ++ 0 :: r) name = isHeader line name := by
  unfold isHeader strnicmp
  rw [cstr_append_zero]

theorem isHeader_length {line name : Bytes} (h0 : (0 : UInt8) ∉ name) (h : isHeader line name = true) :
    name.length ≤ line.length := by
  have hcmp : strnicmp line name name.length = 0 := beq_iff_eq.mp h
  rw [strnicmp, cstr_of_no_nul h0] at hcmp
  exact Nat.le_trans (strnicmpText_length hcmp) (strlen_le line)

theorem drop_append_zero {line : Bytes} {n : ℕ} (h : n ≤ line.length) (r : Bytes) :
    (line ++ 0 :: r).drop n = line.drop n ++ 0 :: r := List.drop_append_of_le_length h

theorem mentions_append_zero (t r lower upper : Bytes) :
    mentions (t ++ 0 :: r) lower upper = mentions t lower upper := by
  unfold mentions strstr
  rw [cstr_append_zero]

/-! ## Lines that are evaluated from their own bytes -/

/-- A date that is long enough is read up to the line feed behind it at most. -/
theorem parseHttpDate_own {env : Env} {line : Bytes} (h : 41 ≤ line.length) (rest : Bytes) :
    parseHttpDate env ((line ++ 0 :: 10 :: rest).drop 19) = parseHttpDate env ((line ++ [0]).drop 19) := by
  have hston (i : ℕ) (hi : i ≤ 23) : ston (((line ++ 0 :: 10 :: rest).drop 19).drop i) =
      ston (((line ++ [0]).drop 19).drop i) := by
    rw [List.drop_drop, List.drop_drop]
    by_cases hle : 19 + i ≤ line.length
    · rw [drop_append_zero hle, drop_append_zero hle, ston_append_zero, ston_append_zero]
    · have hi : 19 + i = line.length + 1 := by omega
      rw [hi, ← List.drop_drop, ← List.drop_drop, List.drop_left, List.drop_left]
      rfl
  have hmon (m : Bytes) : strnicmp (((line ++ 0 :: 10 :: rest).drop 19).drop 8) m 3 =
      strnicmp (((line ++ [0]).drop 19).drop 8) m 3 := by
    have hle : 19 + 8 ≤ line.length := by omega
    unfold strnicmp
    rw [List.drop_drop, List.drop_drop, drop_append_zero hle, drop_append_zero hle, cstr_append_zero,
      cstr_append_zero]
  unfold parseHttpDate
  simp only [hston 23 (by decide), hston 20 (by decide), hston 17 (by decide), hston 5 (by decide),
    hston 12 (by decide), hmon]

/-- A range with something behind `bytes=` is read up to the NUL behind the line. -/
theorem parseRange_own {value : Bytes}
    (h : ∀ p, strstr value (bytes "bytes=") = some p → p + 7 ≤ value.length) (rest : Bytes) :
    parseRange (value ++ 0 :: rest) = parseRange (value ++ [0]) := by
  have hfind (t r : Bytes) (n : Bytes) : strstr (t ++ 0 :: r) n = strstr t n := by
    unfold strstr
    rw [cstr_append_zero]
  unfold parseRange
  rw [hfind, hfind]
  cases hp : strstr value (bytes "bytes=") with
  | none => rfl
  | some p =>
    have hle := h p hp
    simp only [drop_append_zero hle, hfind, atol_append_zero]
    cases hd : strstr (value.drop (p + 7)) [45] with
    | none => rfl
    | some d =>
      have hfit := find_le hd (List.cons_ne_nil _ _)
      have hcstr := strlen_le (value.drop (p + 7))
      have hlen : d + 1 ≤ (value.drop (p + 7)).length := Nat.le_trans hfit hcstr
      simp only [peek_append_zero hlen, drop_append_zero hlen, atol_append_zero]

theorem cgiHeaderReceived_fields (s : Sys) (line : Bytes) : (s.cgiHeaderReceived line).headerFields =
    { s.headerFields with given := line :: s.headerFields.given } := by
  have hcore := s.cgiHeaderReceived_core line
  have happ : (s.cgiHeaderReceived line).app.rangeTo = s.app.rangeTo ∧
      (s.cgiHeaderReceived line).app.token = s.app.token := by
    simp only [Sys.cgiHeaderReceived]
    split
    next f hf =>
      obtain ⟨m, -, hm⟩ := Option.bind_eq_some_iff.mp hf
      cases m <;> cases hm
      simp only [Sys.onWork, Sys.onApp, App.onWork, uploadOnHeaderReceived]
      split_ifs <;> exact ⟨rfl, rfl⟩
    next => exact ⟨rfl, rfl⟩
  unfold Sys.headerFields
  rw [hcore, happ.1, happ.2]
  rfl

/-- A header line in the buffer sets what it sets on its own. -/
theorem headerLine_fields {env : Env} {line : Bytes} (h : OwnBytes line) (s : Sys) (rest : Bytes) :
    (s.headerLine env (line ++ 0 :: 10 :: rest) line.length).headerFields =
      s.headerFields.header env line := by
  have htake : (line ++ 0 :: 10 :: rest).take line.length = line := List.take_left
  have hname (r name : Bytes) : isHeader (line ++ 0 :: r) name = isHeader line name :=
    isHeader_append_zero line r name
  have hvalue {name : Bytes} (h0 : (0 : UInt8) ∉ name) (hheader : isHeader line name = true) (r : Bytes) :
      (line ++ 0 :: r).drop name.length = line.drop name.length ++ 0 :: r :=
    drop_append_zero (isHeader_length h0 hheader) r
  unfold Sys.headerLine HeaderFields.header
  simp only [hname]
  split_ifs with hlength hconnection htransfer hexpect hdate hrange htoken
  · have hdrop := hvalue (by decide) hlength
    simp only [show (bytes "Content-Length:").length = 15 from rfl] at hdrop
    rw [hdrop, hdrop, atol_append_zero, atol_append_zero]
    rfl
  · have hdrop := hvalue (by decide) hconnection
    simp only [show (bytes "Connection:").length = 11 from rfl] at hdrop
    rw [hdrop, hdrop, mentions_append_zero, mentions_append_zero]
    rfl
  · have hdrop := hvalue (by decide) htransfer
    simp only [show (bytes "Transfer-Encoding:").length = 18 from rfl] at hdrop
    rw [hdrop, hdrop, mentions_append_zero, mentions_append_zero]
    rfl
  · rfl
  · rw [parseHttpDate_own (h.date hdate)]
    rfl
  · have hdrop := hvalue (by decide) hrange
    simp only [show (bytes "Range:").length = 6 from rfl] at hdrop
    have hown := @parseRange_own (line.drop 6) fun p hp => by
      have hle := h.range hrange p hp
      rw [List.length_drop]
      omega
    rw [hdrop, hdrop, hown]
    rfl
  · rw [htake]
    rfl
  · rw [htake]
    exact cgiHeaderReceived_fields s line

theorem setTarget_fields (s : Sys) (method : Method) (m : Bytes) (q : QueryScan) :
    (s.setTarget method m q).headerFields = { s.headerFields with
      requestMethod := some method
      requestPath := m
      posQuestion := match q.iQuestion with
        | some i => i
        | none => -1 } := rfl

theorem cgiSetCgiHandler_fields (s : Sys) : s.cgiSetCgiHandler.headerFields = { s.headerFields with
    handler := cgiMappings.find? fun c => c.mapping.matches s.core.requestPath } := by
  unfold Sys.cgiSetCgiHandler
  split
  next m hm =>
    rw [hm]
    rfl
  next hm =>
    rw [hm]
    rfl

theorem requestLine_fields (s : Sys) (line : Bytes) :
    (s.requestLine line).map Sys.headerFields = s.headerFields.request line := by
  unfold Sys.requestLine HeaderFields.request
  rw [Option.map_map]
  cases StraightHttpd.requestMethod line with
  | none => rfl
  | some r =>
    rw [Option.map_some, Option.map_some, Function.comp_apply, cgiSetCgiHandler_fields, setTarget_fields]
    rfl

/-! ## The lines of a section -/

/-- A header line or request line: not empty, with no line end in it. -/
structure IsLine (l : Bytes) : Prop where
  ne : l ≠ []
  ends : find crlf (l ++ crlf) = some l.length

theorem lineText_cons (l : Bytes) (lines : List Bytes) : lineText (l :: lines) = l ++ crlf ++ lineText lines :=
  List.flatMap_cons

theorem lineText_append (lines lines' : List Bytes) :
    lineText (lines ++ lines') = lineText lines ++ lineText lines' := List.flatMap_append

/-- The first line end of a part of the text is that of its first line. -/
theorem found_line {held l more : Bytes} {pos k : ℕ} (hl : find crlf (l ++ crlf) = some l.length)
    (hp : held.drop pos <+: l ++ crlf ++ more) (hfind : find crlf (held.drop pos) = some k) :
    k = l.length ∧ held.drop pos = l ++ crlf ++ held.drop (pos + l.length + crlf.length) := by
  obtain ⟨u, hu⟩ := id hp
  have hfound := find_append_left hfind crlf_ne u
  rw [hu, find_append_left hl crlf_ne more, Option.some.injEq] at hfound
  have hfit := find_le hfind crlf_ne
  have hline : l ++ crlf <+: held.drop pos := by
    refine List.prefix_of_prefix_length_le (List.prefix_append _ more) hp ?_
    rw [List.length_append]
    omega
  obtain ⟨v, hv⟩ := hline
  refine ⟨hfound.symm, ?_⟩
  rw [Nat.add_assoc, ← List.drop_drop, ← List.length_append, ← hv, List.drop_left]

/-- The memory in which a line is evaluated. -/
theorem line_memory {s : Sys} {l more : Bytes} {pos : ℕ} (hp : pos ≤ s.core.rx.held.length)
    (h : s.core.rx.held.drop pos = l ++ crlf ++ more) :
    ∃ rest, poke (s.core.rx.httpRequestBuffer.drop pos) l.length [0] = l ++ 0 :: 10 :: rest := by
  have hbuffer : s.core.rx.httpRequestBuffer = s.core.rx.held ++
      s.core.rx.httpRequestBuffer.drop s.core.rx.requestLength.toNat :=
    (List.take_append_drop _ _).symm
  refine ⟨more ++ s.core.rx.httpRequestBuffer.drop s.core.rx.requestLength.toNat, ?_⟩
  rw [hbuffer, List.drop_append_of_le_length hp, h, ← hbuffer]
  have hcrlf : crlf = [13, 10] := rfl
  rw [hcrlf, List.append_assoc, List.append_assoc]
  exact poke_append l _ 13 0

/-- What the scan from `pos` on has evaluated of the lines in front of it. -/
structure Evaluated (env : Env) (lines : List Bytes) (s : Sys) (pos : ℕ) (r : Sys × ℕ × Bool) : Prop where
  going : r.2.2 = false → ∃ i ≤ lines.length,
    r.1.headerFields = (lines.take i).foldl (HeaderFields.evaluate env) s.headerFields ∧
      (0 ≤ r.1.app.result → s.core.rx.held.drop pos = lineText (lines.take i) ++ s.core.rx.held.drop r.2.1)
  ended : r.2.2 = true → r.1.headerFields = lines.foldl (HeaderFields.evaluate env) s.headerFields ∧
    s.core.rx.held.drop pos = lineText lines ++ crlf ++ s.core.rx.held.drop r.2.1

section Scan

variable {env : Env} {following : Bytes}

/-- Nothing is evaluated. -/
theorem Evaluated.none {lines : List Bytes} {s t : Sys} {pos : ℕ} (hfields : t.headerFields = s.headerFields) :
    Evaluated env lines s pos (t, pos, false) :=
  ⟨fun _ => ⟨0, Nat.zero_le _, hfields, fun _ => rfl⟩, fun h => absurd h Bool.false_ne_true⟩

/-- A line in front of what the scan goes on with. -/
theorem Evaluated.cons {l : Bytes} {lines : List Bytes} {s s' : Sys} {pos : ℕ} {r : Sys × ℕ × Bool}
    (hrx : s'.core.rx = s.core.rx) (hfields : s'.headerFields = s.headerFields.evaluate env l)
    (hline : s.core.rx.held.drop pos = l ++ crlf ++ s.core.rx.held.drop (pos + l.length + crlf.length))
    (h : Evaluated env lines s' (pos + l.length + crlf.length) r) : Evaluated env (l :: lines) s pos r := by
  obtain ⟨hgoing, hended⟩ := h
  rw [hrx, hfields] at hgoing hended
  constructor
  · intro hr
    obtain ⟨i, hi, hf, hrest⟩ := hgoing hr
    refine ⟨i + 1, Nat.succ_le_succ hi, ?_, fun hok => ?_⟩
    · rw [List.take_succ_cons, List.foldl_cons]
      exact hf
    · rw [hline, hrest hok, List.take_succ_cons, lineText_cons]
      simp only [List.append_assoc]
  · intro hr
    obtain ⟨hf, hrest⟩ := hended hr
    refine ⟨?_, ?_⟩
    · rw [List.foldl_cons]
      exact hf
    · rw [hline, hrest, lineText_cons]
      simp only [List.append_assoc]

/-- What evaluating a line makes of the connection. -/
theorem line_fields {l : Bytes} (hl : IsLine l) (hown : OwnBytes l) {s : Sys} (rest : Bytes) :
    (s.core.requestMethod = none → ∀ s', s.requestLine l = some s' →
      s'.headerFields = s.headerFields.evaluate env l) ∧
    (s.core.requestMethod ≠ none →
      (s.headerLine env (l ++ 0 :: 10 :: rest) l.length).headerFields = s.headerFields.evaluate env l) := by
  constructor
  · intro hm s' hs'
    have hrequest := requestLine_fields s l
    have hm : s.headerFields.requestMethod = Option.none := hm
    rw [hs', Option.map_some] at hrequest
    rw [HeaderFields.evaluate, if_neg hl.ne, if_pos hm, ← hrequest]
    rfl
  · intro hm
    have hm : s.headerFields.requestMethod ≠ Option.none := hm
    rw [HeaderFields.evaluate, if_neg hl.ne, if_neg hm]
    exact headerLine_fields hown s rest

theorem headerLines_evaluated (n : ℕ) {lines : List Bytes} (hlines : ∀ l ∈ lines, IsLine l ∧ OwnBytes l)
    (s : Sys) (pos : ℕ) (hpos : pos ≤ s.core.rx.held.length)
    (htext : s.core.rx.held.drop pos <+: lineText lines ++ (crlf ++ following)) :
    Evaluated env lines s pos (s.headerLines env n pos) := by
  induction n generalizing lines s pos with
  | zero => exact .none rfl
  | succ n ih =>
    have hcrlf : crlf.length = 2 := rfl
    rw [Sys.headerLines]
    simp only
    cases hfind : find crlf (s.core.rx.held.drop pos) with
    | none => exact .none rfl
    | some k =>
      cases lines with
      | nil =>
        -- only the empty line is left
        obtain ⟨rfl, hline⟩ := @found_line s.core.rx.held [] following pos k rfl htext hfind
        refine ⟨fun h => absurd h.symm Bool.false_ne_true, fun _ => ⟨rfl, hline⟩⟩
      | cons l lines =>
        obtain ⟨hl, hown⟩ := hlines l List.mem_cons_self
        rw [lineText_cons, List.append_assoc] at htext
        obtain ⟨rfl, hline⟩ := found_line hl.ends htext hfind
        have hlen := congrArg List.length hline
        simp only [List.length_append, List.length_drop] at hlen
        have hnext : s.core.rx.held.drop (pos + l.length + crlf.length) <+:
            lineText lines ++ (crlf ++ following) := by
          rw [hline] at htext
          exact (List.prefix_append_right_inj _).mp htext
        obtain ⟨rest, hmem⟩ := line_memory hpos hline
        obtain ⟨hrequest, hheader⟩ := @line_fields env l hl hown s rest
        obtain ⟨k, hk⟩ := Nat.exists_eq_succ_of_ne_zero (List.length_pos_iff.mpr hl.ne).ne'
        have hstop : pos + k + 3 = pos + l.length + crlf.length := by omega
        have hgo (s' : Sys) (hrx : s'.core.rx = s.core.rx)
            (hfields : s'.headerFields = s.headerFields.evaluate env l) :
            Evaluated env (l :: lines) s pos (s'.headerLines env n (pos + k + 3)) := by
          rw [hstop]
          refine .cons hrx hfields hline ?_
          refine ih (fun l hl => hlines l (List.mem_cons_of_mem _ hl)) s' _ ?_ ?_
          · rw [hrx]
            omega
          · rw [hrx]
            exact hnext
        have htake : (s.core.rx.held.drop pos).take l.length = l := by
          rw [hline, List.append_assoc, List.take_left]
        rw [hk] at htake hmem hheader ⊢
        simp only
        by_cases hm : s.core.requestMethod = Option.none
        · rw [if_pos hm, htake]
          cases hs' : s.requestLine l with
          | none => exact .none rfl
          | some s' => exact hgo s' (Sys.requestLine_rx hs') (hrequest hm s' hs')
        · rw [if_neg hm, hmem]
          exact hgo _ (Sys.headerLine_kept s _ _).rx (hheader hm)

/-- A scan with no error goes on to where no line end is found. -/
theorem headerLines_exhausts (n : ℕ) (s : Sys) (pos : ℕ) (hn : s.core.rx.held.length - pos < n)
    (hgoing : (s.headerLines env n pos).2.2 = false) (hok : 0 ≤ (s.headerLines env n pos).1.app.result) :
    find crlf (s.core.rx.held.drop (s.headerLines env n pos).2.1) = none := by
  induction n generalizing s pos with
  | zero => exact absurd hn (Nat.not_lt_zero _)
  | succ n ih =>
    rw [Sys.headerLines] at hgoing hok ⊢
    simp only at hgoing hok ⊢
    cases hfind : find crlf (s.core.rx.held.drop pos) with
    | none => exact hfind
    | some k =>
      rw [hfind] at hgoing hok
      cases k with
      | zero => cases hgoing
      | succ k =>
        have hfit := find_le hfind crlf_ne
        rw [List.length_drop] at hfit
        have hcrlf : crlf.length = 2 := rfl
        simp only at hgoing hok ⊢
        have hgo (s' : Sys) (hrx : s'.core.rx = s.core.rx)
            (hgoing : (s'.headerLines env n (pos + k + 3)).2.2 = false)
            (hok : 0 ≤ (s'.headerLines env n (pos + k + 3)).1.app.result) :
            find crlf (s.core.rx.held.drop (s'.headerLines env n (pos + k + 3)).2.1) = none := by
          rw [← hrx]
          exact ih s' _ (by rw [hrx]; omega) hgoing hok
        by_cases hm : s.core.requestMethod = Option.none
        · rw [if_pos hm] at hgoing hok ⊢
          cases hs' : s.requestLine ((s.core.rx.held.drop pos).take (k + 1)) with
          | none =>
            rw [hs'] at hok
            exact absurd hok (show ¬ (0 : ℤ) ≤ -500 by decide)
          | some s' =>
            rw [hs'] at hgoing hok
            exact hgo s' (Sys.requestLine_rx hs') hgoing hok
        · rw [if_neg hm] at hgoing hok ⊢
          exact hgo _ (Sys.headerLine_kept s _ _).rx hgoing hok

end Scan

/-! ## The section as it is received -/

theorem Rx.receive_maxLevel (s : Rx) (p : List Pbuf) : (s.receive p).maxLevel = s.maxLevel := by
  unfold Rx.receive
  split_ifs
  · rfl
  · rfl
  · rfl

theorem Rx.dequeue_maxLevel (s : Rx) : s.dequeue.maxLevel = s.maxLevel := by
  unfold Rx.dequeue
  simp only
  split_ifs
  · rfl
  · rfl
  · rfl
  · rfl

namespace Section

variable {env : Env} {lines : List Bytes} {following : Bytes}

/-- How far the section has been evaluated, in one of two states. -/
structure Parsed (env : Env) (lines : List Bytes) (x : Section) : Prop extends Whole x where
  level : x.sys.core.rx.maxLevel = maxReqBufSize
  receiving : x.sys.core.state = .headerReceiving → ∃ j ≤ lines.length,
    x.sys.headerFields = (lines.take j).foldl (HeaderFields.evaluate env) x.before ∧
      (0 ≤ x.sys.app.result → x.gone = lineText (lines.take j))
  done : x.sys.core.state = .headerDone →
    x.sys.headerFields = lines.foldl (HeaderFields.evaluate env) x.before

theorem Start.parsed {x : Section} (h : Start x) : Parsed env lines x := by
  refine ⟨h.whole, h.level, fun _ => ⟨0, Nat.zero_le _, h.before.symm, fun _ => h.gone⟩, fun hdone => ?_⟩
  rw [h.state] at hdone
  cases hdone

/-- What is in the buffer begins with the next line. -/
theorem Whole.held_text {x : Section} (h : Whole x) {j : ℕ} (hgone : x.gone = lineText (lines.take j))
    (hp : x.received <+: lineText lines ++ (crlf ++ following)) :
    x.sys.core.rx.held <+: lineText (lines.drop j) ++ (crlf ++ following) := by
  have htext : lineText lines = lineText (lines.take j) ++ lineText (lines.drop j) := by
    rw [← lineText_append, List.take_append_drop]
  rw [← h.stream, hgone, htext, List.append_assoc, List.append_assoc] at hp
  exact (List.prefix_append x.sys.core.rx.held _).trans ((List.prefix_append_right_inj _).mp hp)

/-- A full buffer holds a whole line. -/
theorem fits_of_text {x : Section} (h : Whole x) (hlevel : x.sys.core.rx.maxLevel = maxReqBufSize)
    (hlines : ∀ l ∈ lines, IsLine l ∧ l.length ≤ maxReqBufSize - 2)
    (hp : x.sys.core.rx.held <+: lineText lines ++ (crlf ++ following)) : Fits x .parse := by
  intro hfull
  have hlength := held_length h.valid
  have hmax : (maxReqBufSize : ℤ) = 800 := rfl
  have hcrlf : crlf.length = 2 := rfl
  -- the next line, which may be the empty one
  obtain ⟨l, more, hl, hle, htext⟩ : ∃ l more, find crlf (l ++ crlf) = some l.length ∧ l.length ≤ 798 ∧
      lineText lines ++ (crlf ++ following) = l ++ crlf ++ more := by
    cases lines with
    | nil => exact ⟨[], following, rfl, Nat.zero_le _, rfl⟩
    | cons l lines =>
      obtain ⟨hl, hle⟩ := hlines l List.mem_cons_self
      exact ⟨l, lineText lines ++ (crlf ++ following), hl.ends, hle, by
        rw [lineText_cons]
        simp only [List.append_assoc]⟩
  rw [htext] at hp
  have hline : l ++ crlf <+: x.sys.core.rx.held := by
    refine List.prefix_of_prefix_length_le (List.prefix_append _ more) hp ?_
    rw [List.length_append]
    omega
  obtain ⟨u, hu⟩ := hline
  rw [← hu, find_append_left hl crlf_ne u]
  exact Option.some_ne_none _

theorem HeaderEnd.fields {s : Sys} {r : Sys × ℕ × Bool} {e : Sys × Bool} (h : HeaderEnd s r e) :
    e.1.headerFields = r.1.headerFields ∧ e.1.app = r.1.app ∧ e.2 = r.2.2 := by
  cases h with
  | kept => exact ⟨rfl, rfl, rfl⟩
  | shifted => exact ⟨rfl, rfl, rfl⟩
  | dropped => exact ⟨rfl, rfl, rfl⟩

/-- Without an error, the parsing shifts out what the scan went through. -/
theorem HeaderEnd.gone {x : Section} (hfits : Fits x .parse) {r : Sys × ℕ × Bool} {e : Sys × Bool}
    (hend : HeaderEnd x.sys r e) (hrx : r.1.core.rx = x.sys.core.rx)
    (hzero : r.2.1 = 0 → find crlf x.sys.core.rx.held = none ∨ r.1.app.result < 0)
    (hok : 0 ≤ r.1.app.result) :
    (x.sys.core.rx.requestLength - e.1.core.rx.requestLength).toNat = r.2.1 := by
  cases hend with
  | kept hpos =>
    simp only [hrx, hpos]
    omega
  | shifted hpos =>
    have hshift : (r.1.consume .header r.2.1).core.rx.requestLength = r.1.core.rx.requestLength - r.2.1 := rfl
    simp only [hshift, hrx]
    omega
  | dropped hpos hfull =>
    have herror : r.1.app.result < 0 := (hzero hpos).resolve_left (hfits hfull)
    omega

theorem Parsed.parse {x : Section} (h : Parsed env lines x) (hlines : ∀ l ∈ lines, IsLine l ∧ OwnBytes l)
    (hshort : ∀ l ∈ lines, l.length ≤ maxReqBufSize - 2)
    (hp : x.received <+: lineText lines ++ (crlf ++ following))
    (hstate : x.sys.core.state = .headerReceiving) (hresult : 0 ≤ x.sys.app.result) :
    Parsed env lines (x.parse env) := by
  obtain ⟨j, hj, hfields, hgone⟩ := h.receiving hstate
  have hheld := h.toWhole.held_text (hgone hresult) hp
  have hdrop : ∀ l ∈ lines.drop j, l ∈ lines := fun l hl => List.mem_of_mem_drop hl
  have hfits : Fits x .parse := fits_of_text h.toWhole h.level
    (fun l hl => ⟨(hlines l (hdrop l hl)).1, hshort l (hdrop l hl)⟩) hheld
  have hsteps := @Sys.receiveHeader_intakes env x.sys hstate
  have hend := @receiveHeader_end env x.sys h.valid
  have hscan := @Sys.headerLines_scanned env [] (x.sys.core.rx.requestLength.toNat + 1) x.sys 0 (.inl rfl)
    (Nat.zero_le _)
  have hzero := @Sys.headerLines_stop_zero env x.sys.core.rx.requestLength.toNat x.sys
  have hevaluated := @headerLines_evaluated env following (x.sys.core.rx.requestLength.toNat + 1)
    (lines.drop j) (fun l hl => hlines l (hdrop l hl)) x.sys 0 (Nat.zero_le _) hheld
  generalize x.sys.headerLines env (x.sys.core.rx.requestLength.toNat + 1) 0 = r
    at hend hscan hzero hevaluated
  obtain ⟨hsame, happ, hdone⟩ := hend.fields
  have hlevel : (x.sys.receiveHeader env).1.core.rx.maxLevel = maxReqBufSize := by
    have hrx : r.1.core.rx.maxLevel = x.sys.core.rx.maxLevel := congrArg Rx.maxLevel hscan.rx
    rw [← h.level, ← hrx]
    generalize x.sys.receiveHeader env = e at hend
    cases hend with
    | kept => rfl
    | shifted => rfl
    | dropped => rfl
  have hstate' := hsteps.2
  unfold Sys.HeaderState at hstate'
  rw [hdone] at hstate'
  refine ⟨h.toWhole.parse hresult hfits, hlevel, fun hrec => ?_, fun hend' => ?_⟩
  · have hrec : (x.sys.receiveHeader env).1.core.state = .headerReceiving := hrec
    have hgoing : r.2.2 = false := by
      cases hr : r.2.2 with
      | false => rfl
      | true =>
        rw [hr, if_pos rfl, hrec] at hstate'
        cases hstate'
    obtain ⟨i, hi, hf, hrest⟩ := hevaluated.going hgoing
    have htake : lines.take (j + i) = lines.take j ++ (lines.drop j).take i := List.take_add
    have hle : j + i ≤ lines.length := by
      rw [List.length_drop] at hi
      omega
    refine ⟨j + i, hle, ?_, fun hok => ?_⟩
    · show (x.sys.receiveHeader env).1.headerFields = _
      rw [hsame, hf, hfields, htake, List.foldl_append]
      rfl
    · have hok : 0 ≤ (x.sys.receiveHeader env).1.app.result := hok
      rw [happ] at hok
      have hcount := hend.gone hfits hscan.rx hzero hok
      have hconsumed : x.sys.core.rx.held.take r.2.1 = lineText ((lines.drop j).take i) := by
        have hall := hrest hok
        have hlen := congrArg List.length hall
        have hstop := hscan.stop_le
        rw [List.drop_zero, List.length_append, List.length_drop] at hlen
        rw [List.drop_zero] at hall
        have hn : r.2.1 = (lineText ((lines.drop j).take i)).length := by omega
        rw [hall, List.take_append_of_le_length (by omega), List.take_of_length_le (by omega)]
      show x.gone ++ x.sys.core.rx.held.take _ = _
      rw [hcount, hconsumed, hgone hresult, htake, lineText_append]
  · have hend' : (x.sys.receiveHeader env).1.core.state = .headerDone := hend'
    have hended : r.2.2 = true := by
      cases hr : r.2.2 with
      | true => rfl
      | false =>
        rw [hr, if_neg Bool.false_ne_true, hend'] at hstate'
        cases hstate'
    show (x.sys.receiveHeader env).1.headerFields = _
    rw [hsame, (hevaluated.ended hended).1, hfields, ← List.foldl_append, List.take_append_drop]
    rfl

theorem Parsed.step {x x' : Section} {e : SectionEvent} (h : Parsed env lines x)
    (hlines : ∀ l ∈ lines, IsLine l ∧ OwnBytes l) (hshort : ∀ l ∈ lines, l.length ≤ maxReqBufSize - 2)
    (hp : x.received <+: lineText lines ++ (crlf ++ following)) (hs : Step env x e x') :
    Parsed env lines x' := by
  cases e with
  | receive p =>
    have hwhole := h.toWhole.step (e := .receive p) trivial hs
    obtain ⟨-, rfl⟩ := hs
    exact ⟨hwhole, (Rx.receive_maxLevel _ _).trans h.level, h.receiving, h.done⟩
  | dequeue =>
    have hwhole := h.toWhole.step (e := .dequeue) trivial hs
    obtain rfl := hs
    exact ⟨hwhole, (Rx.dequeue_maxLevel _).trans h.level, h.receiving, h.done⟩
  | parse =>
    obtain ⟨hstate, hresult, rfl⟩ := hs
    exact h.parse hlines hshort hp hstate hresult
  | other t =>
    have hwhole := h.toWhole.step (e := .other t) trivial hs
    obtain ⟨hrx, hstate, hresult, hfields, rfl⟩ := hs
    refine ⟨hwhole, (congrArg Rx.maxLevel hrx).trans h.level, ?_, ?_⟩
    · simp only [hstate, hresult, hfields]
      exact h.receiving
    · simp only [hstate, hfields]
      exact h.done

/-- A parsing that has all that is left of the section before it ends the section, or fails. -/
theorem Parsed.ends {x : Section} (h : Parsed env lines x) (hlines : ∀ l ∈ lines, IsLine l ∧ OwnBytes l)
    (hstate : x.sys.core.state = .headerReceiving) (hresult : 0 ≤ x.sys.app.result) {u : Bytes}
    (hall : x.gone ++ x.sys.core.rx.held = lineText lines ++ (crlf ++ u)) :
    (x.parse env).sys.core.state = .headerDone ∨ (x.parse env).sys.app.result < 0 := by
  obtain ⟨j, hj, -, hgone⟩ := h.receiving hstate
  have htext : lineText lines = lineText (lines.take j) ++ lineText (lines.drop j) := by
    rw [← lineText_append, List.take_append_drop]
  have hheld : x.sys.core.rx.held = lineText (lines.drop j) ++ (crlf ++ u) := by
    rw [hgone hresult, htext, List.append_assoc] at hall
    exact List.append_cancel_left hall
  have hdrop : ∀ l ∈ lines.drop j, l ∈ lines := fun l hl => List.mem_of_mem_drop hl
  have hlength := held_length h.valid
  have hstate' := (@Sys.receiveHeader_intakes env x.sys hstate).2
  unfold Sys.HeaderState at hstate'
  obtain ⟨-, happ, hdone⟩ := (@receiveHeader_end env x.sys h.valid).fields
  have hevaluated := @headerLines_evaluated env u (x.sys.core.rx.requestLength.toNat + 1) (lines.drop j)
    (fun l hl => hlines l (hdrop l hl)) x.sys 0 (Nat.zero_le _) (by rw [List.drop_zero, hheld])
  have hexhausts := @headerLines_exhausts env (x.sys.core.rx.requestLength.toNat + 1) x.sys 0 (by omega)
  rw [hdone] at hstate'
  generalize x.sys.headerLines env (x.sys.core.rx.requestLength.toNat + 1) 0 = r
    at hevaluated hexhausts happ hstate'
  cases hr : r.2.2 with
  | true =>
    rw [hr] at hstate'
    exact .inl hstate'
  | false =>
    by_cases hok : 0 ≤ r.1.app.result
    · -- a line would be left that is not found
      obtain ⟨i, hi, -, hrest⟩ := hevaluated.going hr
      have hleft : x.sys.core.rx.held.drop r.2.1 = lineText ((lines.drop j).drop i) ++ (crlf ++ u) := by
        have hall := hrest hok
        have hsplit : lineText (lines.drop j) =
            lineText ((lines.drop j).take i) ++ lineText ((lines.drop j).drop i) := by
          rw [← lineText_append, List.take_append_drop]
        rw [List.drop_zero] at hall
        nth_rewrite 1 [hheld] at hall
        rw [hsplit, List.append_assoc] at hall
        exact (List.append_cancel_left hall).symm
      have hnone := hexhausts hr hok
      rw [hleft] at hnone
      cases hlast : (lines.drop j).drop i with
      | nil =>
        rw [hlast] at hnone
        have hempty : find crlf (crlf ++ u) = some 0 := find_append_left (t := crlf) rfl crlf_ne u
        exact absurd (hnone.symm.trans hempty) (Option.some_ne_none _).symm
      | cons l ls =>
        have hl : l ∈ lines := hdrop l (List.mem_of_mem_drop (by rw [hlast]; exact List.mem_cons_self))
        have hfound := find_append_left (hlines l hl).1.ends crlf_ne (lineText ls ++ (crlf ++ u))
        rw [hlast, lineText_cons, List.append_assoc] at hnone
        exact absurd (hnone.symm.trans hfound) (Option.some_ne_none _).symm
    · refine .inr ?_
      show (x.sys.receiveHeader env).1.app.result < 0
      rw [happ]
      exact not_le.mp hok

/-- For every way in which a section of lines arrives that are evaluated from their own bytes, the fields
are those that the lines set one by one, and the section ends once it is in the buffer. -/
theorem header_fields (hlines : ∀ l ∈ lines, IsLine l ∧ l.length ≤ maxReqBufSize - 2)
    (hown : ∀ l ∈ lines, OwnBytes l) {x : Section} (h : (runs env).Reach x)
    (hp : x.received <+: lineText lines ++ (crlf ++ following)) :
    (x.sys.core.state = .headerDone →
      x.sys.headerFields = lines.foldl (HeaderFields.evaluate env) x.before) ∧
    (x.sys.core.state = .headerReceiving → ∃ j ≤ lines.length,
      x.sys.headerFields = (lines.take j).foldl (HeaderFields.evaluate env) x.before) ∧
    (x.sys.core.state = .headerReceiving → 0 ≤ x.sys.app.result →
      ∀ u, x.gone ++ x.sys.core.rx.held = lineText lines ++ (crlf ++ u) →
        (x.parse env).sys.core.state = .headerDone ∨ (x.parse env).sys.app.result < 0) := by
  have hboth : ∀ l ∈ lines, IsLine l ∧ OwnBytes l := fun l hl => ⟨(hlines l hl).1, hown l hl⟩
  have hkept : ∀ x e x', Step env x e x' → x'.received <+: lineText lines ++ (crlf ++ following) →
      x.received <+: lineText lines ++ (crlf ++ following) := by
    intro x e x' hs hx'
    cases e with
    | receive p =>
      obtain ⟨-, rfl⟩ := hs
      exact (List.prefix_append _ _).trans hx'
    | dequeue =>
      obtain rfl := hs
      exact hx'
    | parse =>
      obtain ⟨-, -, rfl⟩ := hs
      exact hx'
    | other t =>
      obtain ⟨-, -, -, -, rfl⟩ := hs
      exact hx'
  have hparsed : Parsed env lines x := by
    refine h.invariant_of_kept (fun _ => Start.parsed) hkept ?_ hp
    intro x e x' hx hs hx'
    exact hx.step hboth (fun l hl => (hlines l hl).2) (hkept x e x' hs hx') hs
  refine ⟨hparsed.done, fun hstate => ?_, fun hstate hresult u hall => ?_⟩
  · obtain ⟨j, hj, hfields, -⟩ := hparsed.receiving hstate
    exact ⟨j, hj, hfields⟩
  · exact hparsed.ends hboth hstate hresult hall

theorem arrived_parsed {b : Bytes} (hb : b ≠ []) (hq : b.length < 65536) :
    (runs env).Reach ((awaiting.arrived b).parse env) := by
  have harrived : ((runs env).restrict fun _ _ => True).Reach (awaiting.arrived b) :=
    arrived_reach awaiting_reach hb (by rw [Nat.add_comm]; exact hq) trivial
  exact .of_restrict (parse_reach harrived rfl (le_refl _) trivial)

theorem header_fields_refilled :
    refilled.sys.core.state = .headerDone ∧ refilled.sys.headerFields.rangeTo = 201 ∧
      refilled.sys.headerFields.keepalive = true ∧
      refilled.sys.headerFields = partLines.foldl (HeaderFields.evaluate (Env.calm [])) awaiting.before := by
  have hlines : ∀ l ∈ partLines, IsLine l ∧ l.length ≤ maxReqBufSize - 2 := by
    intro l hl
    have hends : ∀ l ∈ partLines, l ≠ [] ∧ find crlf (l ++ crlf) = some l.length ∧ l.length ≤ 798 := by
      decide +kernel
    obtain ⟨hne, hfind, hle⟩ := hends l hl
    exact ⟨⟨hne, hfind⟩, hle⟩
  have hown : ∀ l ∈ partLines, OwnBytes l := by
    intro l hl
    have hdate : ∀ l ∈ partLines, isHeader l (bytes "If-Modified-Since:") = true → 41 ≤ l.length := by
      decide +kernel
    have hrange : ∀ l ∈ partLines, isHeader l (bytes "Range:") = true →
        strstr (l.drop 6) (bytes "bytes=") = some 1 ∧ 14 ≤ l.length := by
      decide +kernel
    refine ⟨hdate l hl, fun h p hp => ?_⟩
    obtain ⟨hone, hle⟩ := hrange l hl h
    obtain rfl : p = 1 := Option.some.inj (hp.symm.trans hone)
    exact hle
  have hdone : refilled.sys.core.state = .headerDone := by decide +kernel
  have hprefix : refilled.received <+: lineText partLines ++ (crlf ++ []) := by decide +kernel
  exact ⟨hdone, by decide +kernel, by decide +kernel,
    (header_fields hlines hown (.of_restrict refilled_reach) hprefix).1 hdone⟩

/-! ## A range that is read from the next line -/

/-- A range that ends behind `bytes=`, in front of a line that looks like the rest of one. -/
def openRange : List Bytes := [bytes "GET / HTTP/1.1", bytes "Range: bytes=", bytes "5-9"]

theorem header_fields_fails :
    ¬ ∀ (env : Env) (lines : List Bytes) (following : Bytes),
      (∀ l ∈ lines, IsLine l ∧ l.length ≤ maxReqBufSize - 2) → ∀ x, (runs env).Reach x →
      x.received <+: lineText lines ++ (crlf ++ following) → x.sys.core.state = .headerDone →
      x.sys.headerFields = lines.foldl (HeaderFields.evaluate env) x.before := by
  intro h
  have hlines : ∀ l ∈ openRange, IsLine l ∧ l.length ≤ maxReqBufSize - 2 := by
    intro l hl
    simp only [openRange, List.mem_cons, List.not_mem_nil, or_false] at hl
    obtain rfl | rfl | rfl := hl
    · exact ⟨⟨by decide, by decide⟩, by decide⟩
    · exact ⟨⟨by decide, by decide⟩, by decide⟩
    · exact ⟨⟨by decide, by decide⟩, by decide⟩
  have hfields := h (Env.calm []) openRange [] hlines _
    (@arrived_parsed _ (lineText openRange ++ crlf) (by decide) (by decide)) (List.prefix_refl _)
    (by decide +kernel)
  have hread : ((awaiting.arrived (lineText openRange ++ crlf)).parse (Env.calm [])).sys.headerFields.rangeFrom =
      5 := by
    decide +kernel
  have hown : (openRange.foldl (HeaderFields.evaluate (Env.calm [])) awaiting.before).rangeFrom = 0 := by
    decide +kernel
  have hsame := congrArg HeaderFields.rangeFrom hfields
  rw [hread] at hsame
  exact absurd (hsame.trans hown) (by decide)

end Section

end StraightHttpd
