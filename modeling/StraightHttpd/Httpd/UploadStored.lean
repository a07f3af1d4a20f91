import StraightHttpd.Httpd.Steps

/-! # What an upload stores (`cgi/cgi_upload.c`)

An upload as the run of the rounds that receive its body, with bytes arriving and other connections at
work in between. `Upload_Received` reports all bytes as consumed when `WEB_fwrite` has stored any of
them, so the bytes that a write leaves out are lost; without such a write, the file is the body.
-/

set_option autoImplicit false

namespace StraightHttpd
open CMemory

/-- What a write stores: as many bytes as it returns, and none when it fails. -/
def storedBy (write : Bytes × ℤ) : Bytes := write.1.take write.2.toNat

/-- A write that stores some of its bytes, but not all. -/
def Short (write : Bytes × ℤ) : Prop := 0 < write.2 ∧ write.2 < write.1.length

instance (write : Bytes × ℤ) : Decidable (Short write) :=
  inferInstanceAs (Decidable (0 < write.2 ∧ write.2 < write.1.length))

/-! ## What the log says about a file -/

/-- What `WEB_fwrite` was given for the file `h`, with its result. -/
def FileEvent.writeTo (h : ℕ) : FileEvent → Option (Bytes × ℤ)
  | .fwrite _ (.handle g) data written => if g = h then some (data, written) else none
  | _ => none

/-- `Upload_AllReceived` has run for the file `h`. -/
def FileEvent.completes (h : ℕ) : FileEvent → Bool
  | .uploaded _ (.handle g) => g == h
  | _ => false

/-- The writes to a file in a log, oldest first. -/
def writesTo (h : ℕ) (log : List FileEvent) : List (Bytes × ℤ) := (log.filterMap (FileEvent.writeTo h)).reverse

def completed (h : ℕ) (log : List FileEvent) : Bool := log.any (FileEvent.completes h)

/-- The event is no part of an upload to the file `h`. -/
def FileEvent.Spares (h : ℕ) (e : FileEvent) : Prop := e.writeTo h = none ∧ e.completes h = false

instance (h : ℕ) (e : FileEvent) : Decidable (e.Spares h) := inferInstanceAs (Decidable (_ ∧ _))

theorem writesTo_append (h : ℕ) (new log : List FileEvent) :
    writesTo h (new ++ log) = writesTo h log ++ writesTo h new := by
  rw [writesTo, List.filterMap_append, List.reverse_append]
  rfl

theorem completed_append (h : ℕ) (new log : List FileEvent) :
    completed h (new ++ log) = (completed h new || completed h log) := List.any_append

theorem writesTo_spared {h : ℕ} {log : List FileEvent} (hlog : ∀ e ∈ log, e.Spares h) : writesTo h log = [] := by
  rw [writesTo, List.filterMap_eq_nil_iff.mpr fun e he => (hlog e he).1]
  rfl

theorem completed_spared {h : ℕ} {log : List FileEvent} (hlog : ∀ e ∈ log, e.Spares h) :
    completed h log = false := by
  rw [completed, List.any_eq_false]
  intro e he
  rw [(hlog e he).2]
  exact Bool.false_ne_true

/-! ## Uploads -/

/-- An upload to the file `handle`. `arriving` is what the peer has still to send. -/
structure UploadRun where
  sys : Sys
  handle : ℕ
  arriving : Bytes

/-- Bytes get into the request buffer, a round receives the body, or other connections do something. -/
inductive UploadEvent
  | arrive (rx : Rx)
  | round
  | elsewhere (world : World) (killing : Bool)

namespace UploadRun

variable (env : Env)

def log (x : UploadRun) : List FileEvent := x.sys.app.world.files.log

/-- What was given to `WEB_fwrite` for the file, with the results. -/
def writes (x : UploadRun) : List (Bytes × ℤ) := writesTo x.handle x.log

/-- `Upload_AllReceived` has run. -/
def finished (x : UploadRun) : Bool := completed x.handle x.log

/-- The bytes in the file. -/
def stored (x : UploadRun) : Bytes := x.writes.flatMap storedBy

/-- How much is offered and missing. -/
def offered (x : UploadRun) : ℤ :=
  min (x.sys.core.contentLength - x.sys.core.contentReceived) x.sys.core.rx.requestLength

/-- The bytes that are offered and missing. -/
def data (x : UploadRun) : Bytes := slice x.sys.core.rx.httpRequestBuffer 0 x.offered.toNat

def round (x : UploadRun) : UploadRun :=
  { x with sys := (x.sys.bodyRound env x.sys.core.rx.requestLength).1 }

def arrive (x : UploadRun) (rx : Rx) (arriving : Bytes) : UploadRun :=
  { x with sys := { x.sys with core := { x.sys.core with rx := rx } }, arriving := arriving }

def elsewhere (x : UploadRun) (world : World) (killing : Bool) : UploadRun :=
  { x with sys := x.sys.onWork fun w => { w with world := world, killing := killing } }

/-- The header of the request is complete, and `Upload_Start` has opened the file. -/
structure Started (body after : Bytes) (x : UploadRun) : Prop where
  handler : x.sys.core.handler = some .upload
  method : x.sys.core.requestMethod = some .post
  plain : x.sys.core.chunked = false
  length : x.sys.core.contentLength = body.length
  received : x.sys.core.contentReceived = 0
  state : x.sys.core.state = if body = [] then .bodyDone else .bodyReceiving
  handle : x.sys.app.fileHandle = .handle x.handle
  opened : ∃ path earlier, x.log = .fopen x.sys.core.sid path (bytes "wb") (some x.handle) :: earlier ∧
    ∀ e ∈ earlier, e.Spares x.handle
  valid : x.sys.core.rx.Valid
  stream : x.sys.core.rx.held ++ x.arriving = body ++ after

/-- The peer sends `body`, and `after` it something else. The loop goes on while the request is not
complete and has no error. A file is open for one connection, so that no other one writes to it. -/
def runs (body after : Bytes) : RunSystem UploadRun UploadEvent where
  init := Started body after
  step x e x' :=
    match e with
    | .arrive rx => ∃ data arriving, rx.Valid ∧ rx.held = x.sys.core.rx.held ++ data ∧
        x.arriving = data ++ arriving ∧ x' = x.arrive rx arriving
    | .round => x.finished = false ∧ 0 ≤ x.sys.app.result ∧ x' = x.round env
    | .elsewhere world killing => (∃ new, world.files.log = new ++ x.log ∧ ∀ e ∈ new, e.Spares x.handle) ∧
        x' = x.elsewhere world killing

variable {env}

/-! ## One round -/

/-- A round of the body of an upload: nothing is taken, or what is offered is written and taken. -/
inductive RoundEnd (x : UploadRun) : UploadRun → Prop
  | kept (x' : UploadRun) (hist : List Obs) (failed : List (Bytes × ℤ)) :
      x'.sys.core = { x.sys.core with hist := hist } → x'.sys.app.fileHandle = x.sys.app.fileHandle →
      x'.handle = x.handle → x'.arriving = x.arriving → x'.finished = x.finished →
      (∀ write ∈ failed, write.2 ≤ 0) → x'.writes = x.writes ++ failed → RoundEnd x x'
  | taken (x' : UploadRun) (k : ℤ) (hist : List Obs) (tLastSent : ℕ) (state : HttpState) : 0 < x.offered → 0 < k →
      x'.sys.core = { x.sys.core with
        rx := x.sys.core.rx.shift x.offered
        state := state
        contentReceived := x.sys.core.contentReceived + x.offered
        tLastSent := tLastSent
        hist := hist } →
      (x.sys.core.contentReceived + x.offered < x.sys.core.contentLength ∧ state = .bodyReceiving ∧
          x'.finished = x.finished ∨
        x.sys.core.contentLength ≤ x.sys.core.contentReceived + x.offered ∧ state = .bodyDone ∧
          x'.finished = true) →
      x'.sys.app.fileHandle = x.sys.app.fileHandle → x'.handle = x.handle → x'.arriving = x.arriving →
      x'.writes = x.writes ++ [(x.data, k)] → RoundEnd x x'

/-- `Upload_AllReceived` closes the file. -/
theorem requestDone_upload {s : Sys} {h : ℕ} (hhandler : s.core.handler = some .upload)
    (hhandle : s.app.fileHandle = .handle h) :
    (∃ hist, (s.requestDone env).core = { s.core with hist := hist }) ∧
      (s.requestDone env).app.fileHandle = s.app.fileHandle ∧
      (s.requestDone env).app.world.files.log =
        [.fclose s.core.sid (.handle h), .uploaded s.core.sid (.handle h)] ++ s.app.world.files.log := by
  have hlog : (s.requestDone env).app.world.files.log = _ :=
    (Sys.requestDone_log hhandler rfl).trans (Work.uploadAllReceived_log s.app.toWork)
  have hdone : (∃ hist, (s.cgiRequestReceived env).core = { s.core with hist := hist }) ∧
      (s.cgiRequestReceived env).app.fileHandle = s.app.fileHandle := by
    unfold Sys.cgiRequestReceived
    rw [hhandler]
    exact ⟨⟨_, rfl⟩, rfl⟩
  refine ⟨?_, ?_, ?_⟩
  · unfold Sys.requestDone
    simp only
    split_ifs
    · exact hdone.1
    · exact hdone.1
  · unfold Sys.requestDone
    simp only
    split_ifs
    · exact hdone.2
    · exact hdone.2
  · rw [hlog, hhandle]

/-- What `Upload_OnContentReceived` does with `n` bytes: it gives them to `WEB_fwrite`. -/
theorem uploadOnContentReceived_write {c : Core} {w : Work} {buffer : Bytes} {size n : ℤ} {h : ℕ}
    (hn : min (c.contentLength - c.contentReceived) size = n) (hmethod : c.requestMethod = some .post)
    (hhandle : w.fileHandle = .handle h) (hpos : n > 0) (hkilling : ¬ w.killing = true) :
    ∃ k w', uploadOnContentReceived env c w buffer size = (w', if k > 0 then n else 0) ∧
      w'.fileHandle = w.fileHandle ∧ w'.result = w.result ∧
      w'.world.files.log = .fwrite c.sid (.handle h) (slice buffer 0 n.toNat) k :: w.world.files.log := by
  have hwrite : w.world.webFwrite env c.sid w.fileHandle (slice buffer 0 n.toNat) =
      (w.world.asked.logFile (.fwrite c.sid (.handle h) (slice buffer 0 n.toNat)
        (env.fwrite w.world.calls h (slice buffer 0 n.toNat))),
        env.fwrite w.world.calls h (slice buffer 0 n.toNat)) := by
    rw [hhandle]
    rfl
  unfold uploadOnContentReceived
  simp only [hn, if_pos (And.intro hpos hmethod), if_neg hkilling, hwrite]
  refine ⟨env.fwrite w.world.calls h (slice buffer 0 n.toNat), ?_⟩
  split_ifs
  · exact ⟨_, rfl, rfl, rfl, rfl⟩
  · exact ⟨_, rfl, rfl, rfl, rfl⟩

theorem uploadOnContentReceived_none {c : Core} {w : Work} {buffer : Bytes} {size n : ℤ}
    (hn : min (c.contentLength - c.contentReceived) size = n) (hnone : n > 0 → w.killing = true) :
    ∃ w', uploadOnContentReceived env c w buffer size = (w', 0) ∧ w'.fileHandle = w.fileHandle ∧
      w'.world = w.world := by
  unfold uploadOnContentReceived
  simp only [hn]
  by_cases hpos : n > 0 ∧ c.requestMethod = some .post
  · rw [if_pos hpos, if_pos (hnone hpos.1)]
    exact ⟨_, rfl, rfl, rfl⟩
  · rw [if_neg hpos]
    exact ⟨_, rfl, rfl, rfl⟩

/-- The call is noted. -/
def called (x : UploadRun) : Sys :=
  x.sys.note (.call (.contentReceived x.sys.core.rx.requestLength
    (x.sys.core.contentLength - x.sys.core.contentReceived) x.sys.core.rx.requestLength) .upload)

/-- What the callback does with what is offered. -/
theorem received_cases {x : UploadRun} (hhandler : x.sys.core.handler = some .upload)
    (hmethod : x.sys.core.requestMethod = some .post) (hhandle : x.sys.app.fileHandle = .handle x.handle) :
    ∃ t consumed, x.sys.cgiContentReceived env x.sys.core.rx.requestLength = (t, consumed) ∧
      (∃ hist, t.core = { x.sys.core with hist := hist }) ∧
      t.app.fileHandle = x.sys.app.fileHandle ∧
      (t.app.world.files.log = x.log ∧ consumed = 0 ∨
        ∃ k, t.app.world.files.log = .fwrite x.sys.core.sid (.handle x.handle) x.data k :: x.log ∧
          0 < x.offered ∧ t.app.result = x.sys.app.result ∧ consumed = if k > 0 then x.offered else 0) := by
  have hcall : ∀ w consumed, uploadOnContentReceived env x.called.core x.called.app.toWork
      x.called.core.rx.httpRequestBuffer x.sys.core.rx.requestLength = (w, consumed) →
      ∃ t, x.sys.cgiContentReceived env x.sys.core.rx.requestLength = (t, consumed) ∧
        (∃ hist, t.core = { x.sys.core with hist := hist }) ∧ t.app.toWork = w := by
    intro w consumed hw
    have hcontent : x.sys.cgiContentReceived env x.sys.core.rx.requestLength =
        ({ x.called with app := { x.called.app with
            toWork := (uploadOnContentReceived env x.called.core x.called.app.toWork
              x.called.core.rx.httpRequestBuffer x.sys.core.rx.requestLength).1 } },
          (uploadOnContentReceived env x.called.core x.called.app.toWork
            x.called.core.rx.httpRequestBuffer x.sys.core.rx.requestLength).2) := by
      unfold Sys.cgiContentReceived
      rw [hhandler]
      rfl
    rw [hcontent, hw]
    exact ⟨_, rfl, ⟨_, rfl⟩, rfl⟩
  by_cases hwrites : x.offered > 0 ∧ ¬ x.sys.app.killing = true
  · obtain ⟨k, w, hw, hfile, hres, hlog⟩ := @uploadOnContentReceived_write env x.called.core
      x.called.app.toWork x.called.core.rx.httpRequestBuffer x.sys.core.rx.requestLength x.offered x.handle rfl hmethod
      hhandle hwrites.1 hwrites.2
    obtain ⟨t, ht, hcore, rfl⟩ := hcall w _ hw
    exact ⟨t, _, ht, hcore, hfile, .inr ⟨k, hlog, hwrites.1, hres, rfl⟩⟩
  · obtain ⟨w, hw, hfile, hworld⟩ := @uploadOnContentReceived_none env x.called.core x.called.app.toWork
      x.called.core.rx.httpRequestBuffer x.sys.core.rx.requestLength x.offered rfl
      (fun hpos => not_not.mp fun hk => hwrites ⟨hpos, hk⟩)
    obtain ⟨t, ht, hcore, rfl⟩ := hcall w _ hw
    exact ⟨t, _, ht, hcore, hfile, .inl ⟨congrArg (fun world => world.files.log) hworld, rfl⟩⟩

/-- Events that end a round add to the writes and may complete the upload. -/
theorem writes_of_log {x x' : UploadRun} {new : List FileEvent} (hlog : x'.log = new ++ x.log)
    (hhandle : x'.handle = x.handle) : x'.writes = x.writes ++ writesTo x.handle new := by
  rw [writes, hhandle, hlog, writesTo_append]
  rfl

theorem finished_of_log {x x' : UploadRun} {new : List FileEvent} (hlog : x'.log = new ++ x.log)
    (hhandle : x'.handle = x.handle) : x'.finished = (completed x.handle new || x.finished) := by
  rw [finished, hhandle, hlog, completed_append]
  rfl

theorem writesTo_write (sid h : ℕ) (data : Bytes) (k : ℤ) :
    writesTo h [.fwrite sid (.handle h) data k] = [(data, k)] := by
  simp [writesTo, FileEvent.writeTo]

theorem completed_done (sid h : ℕ) (log : List FileEvent) :
    completed h (.fclose sid (.handle h) :: .uploaded sid (.handle h) :: log) = true := by
  simp [completed, FileEvent.completes]

/-- Every round of the body is one or the other. -/
theorem round_end {x : UploadRun} (hhandler : x.sys.core.handler = some .upload)
    (hmethod : x.sys.core.requestMethod = some .post) (hplain : x.sys.core.chunked = false)
    (hstate : x.sys.core.state = .bodyReceiving) (hhandle : x.sys.app.fileHandle = .handle x.handle)
    (hresult : 0 ≤ x.sys.app.result) : RoundEnd x (x.round env) := by
  obtain ⟨t, consumed, ht, ⟨hist, hcore⟩, hfile, hcases⟩ := @received_cases env x hhandler hmethod hhandle
  have hbody : x.sys.core.state = .chunkReceiving ∨ x.sys.core.state = .bodyReceiving := .inr hstate
  have hline : ¬ (x.sys.core.state = .chunkLenReceiving ∧ x.sys.core.rx.requestLength > 2) := by
    rw [hstate]
    exact fun h => by cases h.1
  by_cases hnone : t.app.result ≤ -500 ∨ consumed ≤ 0
  · -- nothing is taken
    have hround : (x.sys.bodyRound env x.sys.core.rx.requestLength).1 = t := by
      unfold Sys.bodyRound Sys.receiveContent
      simp only [if_neg hline, if_pos hbody, ht, if_pos hnone]
      by_cases hres : t.app.result ≤ -500
      · simp only [if_pos hres]
      · simp only [if_neg hres, if_pos (hnone.resolve_left hres)]
    obtain ⟨new, hlog, hfailed, hgoes⟩ : ∃ new, t.app.world.files.log = new ++ x.log ∧
        (∀ write ∈ writesTo x.handle new, write.2 ≤ 0) ∧ completed x.handle new = false := by
      rcases hcases with ⟨hlog, -⟩ | ⟨k, hlog, hpos, hres, hconsumed⟩
      · exact ⟨[], hlog, fun write hwrite => absurd hwrite List.not_mem_nil, rfl⟩
      · refine ⟨[_], hlog, fun write hwrite => ?_, rfl⟩
        rw [writesTo_write] at hwrite
        obtain rfl := List.mem_singleton.mp hwrite
        by_contra hk
        rw [if_pos (not_le.mp hk)] at hconsumed
        rcases hnone with h | h
        · omega
        · omega
    have hnew : (x.round env).log = new ++ x.log := by
      rw [log, round, hround, hlog]
    refine .kept _ hist (writesTo x.handle new) ?_ ?_ rfl rfl ?_ hfailed (writes_of_log hnew rfl)
    · rw [round, hround, hcore]
    · rw [round, hround, hfile]
    · rw [finished_of_log hnew rfl, hgoes, Bool.false_or]
  · -- the bytes are taken
    rcases hcases with ⟨-, hzero⟩ | ⟨k, hlog, hpos, hres, hconsumed⟩
    · exact absurd (.inr (le_of_eq hzero)) hnone
    have hk : k > 0 := by
      by_contra hk
      rw [if_neg hk] at hconsumed
      exact hnone (.inr (le_of_eq hconsumed))
    obtain rfl : consumed = x.offered := by
      rw [hconsumed, if_pos hk]
    obtain ⟨state, length, received, tLastSent, htaken, hend⟩ := @Sys.contentTaken_core env t x.offered
    have htapp := @Sys.contentTaken_app env t x.offered
    generalize hu : t.contentTaken env x.offered = u at htaken htapp
    have hround : (x.sys.bodyRound env x.sys.core.rx.requestLength).1 =
        if u.core.state = .bodyDone then u.requestDone env else u := by
      unfold Sys.bodyRound Sys.receiveContent
      simp only [if_neg hline, if_pos hbody, ht, if_neg hnone, hu]
      have hres' : ¬ u.app.result ≤ -500 := by
        rw [htapp]
        omega
      have hpos' : ¬ x.offered ≤ 0 := by omega
      simp only [if_neg hres', if_neg hpos']
      split_ifs
      · rfl
      · rfl
      · rfl
    have hstate' : x.sys.core.contentReceived + x.offered < x.sys.core.contentLength ∧
          state = .bodyReceiving ∧ length = x.sys.core.contentLength ∧
          received = x.sys.core.contentReceived + x.offered ∨
        x.sys.core.contentLength ≤ x.sys.core.contentReceived + x.offered ∧ state = .bodyDone ∧
          length = x.sys.core.contentLength ∧ received = x.sys.core.contentReceived + x.offered := by
      rw [hcore] at hend
      rcases hend with ⟨hlt, rfl, rfl, rfl⟩ | ⟨-, hc, -⟩ | ⟨hle, -, rfl, rfl, rfl⟩
      · exact .inl ⟨hlt, hstate, rfl, rfl⟩
      · rw [show x.sys.core.chunked = true from hc] at hplain
        cases hplain
      · exact .inr ⟨hle, rfl, rfl, rfl⟩
    have hufile : u.app.fileHandle = .handle x.handle := by
      rw [htapp, hfile, hhandle]
    rcases hstate' with ⟨hlt, rfl, rfl, rfl⟩ | ⟨hle, rfl, rfl, rfl⟩
    · have hgoes : ¬ u.core.state = .bodyDone := by
        rw [htaken]
        exact fun h => by cases h
      rw [if_neg hgoes] at hround
      have hnew : (x.round env).log = [.fwrite x.sys.core.sid (.handle x.handle) x.data k] ++ x.log := by
        rw [log, round, hround, htapp, hlog]
        rfl
      refine .taken _ k u.core.hist tLastSent .bodyReceiving hpos hk ?_ (.inl ⟨hlt, rfl, finished_of_log hnew rfl⟩) ?_
        rfl rfl ?_
      · rw [round, hround, htaken, hcore]
      · rw [round, hround, htapp, hfile]
      · rw [writes_of_log hnew rfl, writesTo_write]
    · have hdone : u.core.state = .bodyDone := by rw [htaken]
      rw [if_pos hdone] at hround
      have huhandler : u.core.handler = some .upload := by
        rw [htaken, hcore]
        exact hhandler
      obtain ⟨⟨hist', hdonecore⟩, hdonefile, hdonelog⟩ := @requestDone_upload env u x.handle huhandler hufile
      have hnew : (x.round env).log =
          ([.fclose u.core.sid (.handle x.handle), .uploaded u.core.sid (.handle x.handle)] ++
            [.fwrite x.sys.core.sid (.handle x.handle) x.data k]) ++ x.log := by
        rw [log, round, hround, hdonelog, htapp, hlog, List.append_assoc]
        rfl
      refine .taken _ k hist' tLastSent .bodyDone hpos hk ?_ (.inr ⟨hle, rfl, ?_⟩) ?_ rfl rfl ?_
      · rw [round, hround, hdonecore, htaken, hcore]
      · rw [finished_of_log hnew rfl]
        exact congrArg (· || x.finished) (completed_done _ _ _)
      · rw [round, hround, hdonefile, hufile, hhandle]
      · rw [writes_of_log hnew rfl, writesTo_append, writesTo_write]
        rfl

/-! ## The run -/

/-- The bytes of the writes that stored any. -/
def given (writes : List (Bytes × ℤ)) : Bytes := (writes.filter fun write => 0 < write.2).flatMap Prod.fst

theorem given_append (writes new : List (Bytes × ℤ)) : given (writes ++ new) = given writes ++ given new := by
  rw [given, List.filter_append, List.flatMap_append]
  rfl

theorem given_failed {new : List (Bytes × ℤ)} (h : ∀ write ∈ new, write.2 ≤ 0) : given new = [] := by
  have hnone : (new.filter fun write => 0 < write.2) = [] := by
    rw [List.filter_eq_nil_iff]
    intro write hwrite
    rw [decide_eq_true_eq]
    exact not_lt.mpr (h write hwrite)
  rw [given, hnone]
  rfl

/-- An upload under way: `taken` bytes of the body were given to writes that stored some of them. -/
structure Uploading (body after : Bytes) (x : UploadRun) (taken : ℕ) : Prop where
  handler : x.sys.core.handler = some .upload
  method : x.sys.core.requestMethod = some .post
  plain : x.sys.core.chunked = false
  length : x.sys.core.contentLength = body.length
  received : x.sys.core.contentReceived = taken
  le : taken ≤ body.length
  handle : x.sys.app.fileHandle = .handle x.handle
  valid : x.sys.core.rx.Valid
  stream : x.sys.core.rx.held ++ x.arriving = (body ++ after).drop taken
  going : x.finished = false → taken < body.length ∧ x.sys.core.state = .bodyReceiving ∨
    body = [] ∧ x.sys.core.state = .bodyDone
  finished : x.finished = true → taken = body.length
  whole : given x.writes = body.take taken

theorem Started.uploading {body after : Bytes} {x : UploadRun} (h : Started body after x) :
    Uploading body after x 0 := by
  obtain ⟨path, earlier, hlog, hspared⟩ := h.opened
  have hopened : x.log = [.fopen x.sys.core.sid path (bytes "wb") (some x.handle)] ++ earlier := hlog
  refine ⟨h.handler, h.method, h.plain, h.length, h.received, Nat.zero_le _, h.handle, h.valid, ?_, fun _ => ?_,
    fun hf => ?_, ?_⟩
  · rw [h.stream]
    rfl
  · by_cases hbody : body = []
    · exact .inr ⟨hbody, by rw [h.state, if_pos hbody]⟩
    · exact .inl ⟨List.length_pos_iff.mpr hbody, by rw [h.state, if_neg hbody]⟩
  · rw [finished, hopened, completed_append, completed_spared hspared] at hf
    cases hf
  · rw [writes, hopened, writesTo_append, writesTo_spared hspared]
    rfl

/-- What is offered is the beginning of what is missing. -/
theorem Uploading.data_eq {body after : Bytes} {x : UploadRun} {taken : ℕ} (h : Uploading body after x taken)
    (hpos : 0 < x.offered) : x.data = (body.drop taken).take x.offered.toNat ∧
      taken + x.offered.toNat ≤ body.length ∧ x.offered.toNat ≤ x.sys.core.rx.requestLength := by
  have hoffered : x.offered = min (x.sys.core.contentLength - x.sys.core.contentReceived)
      x.sys.core.rx.requestLength := rfl
  have hlength := h.length
  have hreceived := h.received
  have hle := h.le
  refine ⟨?_, by omega, by omega⟩
  have hheld : x.data = x.sys.core.rx.held.take x.offered.toNat := by
    unfold data slice Rx.held
    rw [List.drop_zero, List.take_take, Nat.min_eq_left (by omega)]
  have hheldlen : x.offered.toNat ≤ x.sys.core.rx.held.length := by
    have hroom := h.valid.room
    have hlevel := h.valid.level
    rw [Rx.held, List.length_take]
    omega
  have happend : (x.sys.core.rx.held ++ x.arriving).take x.offered.toNat =
      x.sys.core.rx.held.take x.offered.toNat := List.take_append_of_le_length hheldlen
  rw [hheld, ← happend, h.stream, List.drop_append_of_le_length hle, List.take_append_of_le_length]
  rw [List.length_drop]
  omega

/-- Rounds that move on keep what does not move. -/
theorem Uploading.moved {body after : Bytes} {x y : UploadRun} {taken taken' : ℕ} (h : Uploading body after x taken)
    {rx : Rx} {state : HttpState} {received : ℤ} {tLastSent : ℕ} {hist : List Obs}
    (hcore : y.sys.core = { x.sys.core with
      rx := rx
      state := state
      contentReceived := received
      tLastSent := tLastSent
      hist := hist })
    (hfile : y.sys.app.fileHandle = x.sys.app.fileHandle) (hhandle : y.handle = x.handle)
    (hreceived : received = taken') (hle : taken' ≤ body.length) (hvalid : rx.Valid)
    (hstream : rx.held ++ y.arriving = (body ++ after).drop taken')
    (hgoing : y.finished = false → taken' < body.length ∧ state = .bodyReceiving ∨ body = [] ∧ state = .bodyDone)
    (hfinished : y.finished = true → taken' = body.length) (hgiven : given y.writes = body.take taken') :
    Uploading body after y taken' := by
  refine ⟨?_, ?_, ?_, ?_, ?_, hle, ?_, ?_, ?_, ?_, hfinished, hgiven⟩
  · rw [hcore]
    exact h.handler
  · rw [hcore]
    exact h.method
  · rw [hcore]
    exact h.plain
  · rw [hcore]
    exact h.length
  · rw [hcore]
    exact hreceived
  · rw [hfile, hhandle]
    exact h.handle
  · rw [hcore]
    exact hvalid
  · rw [hcore]
    exact hstream
  · rw [hcore]
    exact hgoing

theorem Uploading.round {body after : Bytes} {x : UploadRun} {taken : ℕ} (h : Uploading body after x taken)
    (hfinished : x.finished = false) (hresult : 0 ≤ x.sys.app.result) :
    ∃ taken', Uploading body after (x.round env) taken' := by
  rcases h.going hfinished with ⟨hlt, hstate⟩ | ⟨hbody, hstate⟩
  · cases @round_end env x h.handler h.method h.plain hstate h.handle hresult with
    | kept hist failed hcore hfile hhandle harriving hgoes hfailed hwrites =>
      refine ⟨taken, h.moved hcore hfile hhandle h.received h.le h.valid ?_ (fun _ => .inl ⟨hlt, hstate⟩) (fun hf => ?_) ?_⟩
      · rw [harriving]
        exact h.stream
      · rw [hgoes, hfinished] at hf
        cases hf
      · rw [hwrites, given_append, given_failed hfailed, List.append_nil]
        exact h.whole
    | taken k hist tLastSent state hpos hk hcore hend hfile hhandle harriving hwrites =>
      obtain ⟨hdata, hle, hheld⟩ := h.data_eq hpos
      have hlength := h.length
      have hreceived := h.received
      have hnat : ((x.offered.toNat : ℕ) : ℤ) = x.offered := Int.toNat_of_nonneg (by omega)
      have hshift := Rx.shift_spec h.valid hheld
      rw [hnat] at hshift
      obtain ⟨hvalid, hsplit, -⟩ := hshift
      refine ⟨taken + x.offered.toNat, h.moved hcore hfile hhandle ?_ hle hvalid ?_ (fun hf => .inl ?_) (fun hf => ?_) ?_⟩
      · push_cast
        omega
      · rw [← List.drop_drop, ← h.stream, ← hsplit, harriving, List.append_assoc, List.drop_left']
        rw [List.length_take, Nat.min_eq_left]
        have hroom := h.valid.room
        have hlevel := h.valid.level
        rw [Rx.held, List.length_take]
        omega
      · rcases hend with ⟨hless, hstate', -⟩ | ⟨-, -, hfin⟩
        · exact ⟨by omega, hstate'⟩
        · rw [hfin] at hf
          cases hf
      · rcases hend with ⟨-, -, hfin⟩ | ⟨hge, -, -⟩
        · rw [hfin, hfinished] at hf
          cases hf
        · omega
      · have hnew : given [(x.data, k)] = x.data := by
          unfold given
          rw [List.filter_cons_of_pos (by simpa using hk), List.filter_nil, List.flatMap_cons, List.flatMap_nil,
            List.append_nil]
        rw [hwrites, given_append, h.whole, hnew, hdata, List.take_add]
  · -- an empty body is complete from the start
    have hround : (x.sys.bodyRound env x.sys.core.rx.requestLength).1 = x.sys.requestDone env := by
      have hline : ¬ (x.sys.core.state = .chunkLenReceiving ∧ x.sys.core.rx.requestLength > 2) := by
        rw [hstate]
        exact fun h => by cases h.1
      have hreceive : ¬ (x.sys.core.state = .chunkReceiving ∨ x.sys.core.state = .bodyReceiving) := by
        rw [hstate]
        rintro (h | h) <;> cases h
      unfold Sys.bodyRound
      simp only [if_neg hline, if_neg hreceive, if_pos hstate]
    obtain ⟨⟨hist, hcore⟩, hfile, hlog⟩ := @requestDone_upload env x.sys x.handle h.handler h.handle
    have hnew : (x.round env).log =
        [.fclose x.sys.core.sid (.handle x.handle), .uploaded x.sys.core.sid (.handle x.handle)] ++ x.log := by
      rw [log, UploadRun.round, hround, hlog]
      rfl
    have hfin : (x.round env).finished = true := by
      rw [finished_of_log hnew rfl]
      exact congrArg (· || x.finished) (completed_done _ _ _)
    have htaken : taken = 0 := by
      have hle := h.le
      rw [hbody] at hle
      exact Nat.le_zero.mp hle
    refine ⟨taken, @Uploading.moved body after x (x.round env) taken taken h x.sys.core.rx x.sys.core.state
      x.sys.core.contentReceived x.sys.core.tLastSent hist ?_ ?_ rfl h.received h.le h.valid h.stream (fun hf => ?_)
      (fun _ => ?_) ?_⟩
    · rw [UploadRun.round, hround, hcore]
    · rw [UploadRun.round, hround, hfile]
    · rw [hfin] at hf
      cases hf
    · rw [htaken, hbody]
      rfl
    · rw [writes_of_log hnew rfl]
      exact (List.append_nil _).symm ▸ h.whole

theorem Uploading.reach {body after : Bytes} {x : UploadRun} (hr : (runs env body after).Reach x) :
    ∃ taken, Uploading body after x taken := by
  refine hr.invariant (P := fun x => ∃ taken, Uploading body after x taken) (fun y hy => ⟨0, Started.uploading hy⟩) ?_
  rintro y e y' ⟨taken, hy⟩ hstep
  cases e with
  | arrive rx =>
    obtain ⟨data, arriving, hvalid, hheld, harriving, rfl⟩ := hstep
    refine ⟨taken, hy.handler, hy.method, hy.plain, hy.length, hy.received, hy.le, hy.handle, hvalid, ?_, hy.going,
      hy.finished, hy.whole⟩
    show rx.held ++ arriving = _
    rw [hheld, List.append_assoc, ← harriving]
    exact hy.stream
  | round =>
    obtain ⟨hfinished, hresult, rfl⟩ := hstep
    exact hy.round hfinished hresult
  | elsewhere world killing =>
    obtain ⟨⟨new, hlog, hspared⟩, rfl⟩ := hstep
    have hgrown : (y.elsewhere world killing).log = new ++ y.log := hlog
    have hfinished : (y.elsewhere world killing).finished = y.finished := by
      rw [finished_of_log hgrown rfl, completed_spared hspared, Bool.false_or]
    have hwrites : (y.elsewhere world killing).writes = y.writes := by
      rw [writes_of_log hgrown rfl, writesTo_spared hspared, List.append_nil]
    refine ⟨taken, hy.handler, hy.method, hy.plain, hy.length, hy.received, hy.le, hy.handle, hy.valid, hy.stream,
      ?_, ?_, ?_⟩
    · rw [hfinished]
      exact hy.going
    · rw [hfinished]
      exact hy.finished
    · rw [hwrites]
      exact hy.whole

/-- What is stored is what was given, less what the writes left out. -/
theorem stored_length (writes : List (Bytes × ℤ)) :
    (writes.flatMap storedBy).length ≤ (given writes).length ∧
      ((writes.flatMap storedBy).length = (given writes).length → ∀ write ∈ writes, ¬ Short write) := by
  induction writes with
  | nil => exact ⟨le_refl _, fun _ write hwrite => absurd hwrite List.not_mem_nil⟩
  | cons write writes ih =>
    obtain ⟨hle, hall⟩ := ih
    have hstored : (storedBy write).length = min write.2.toNat write.1.length := by
      rw [storedBy, List.length_take]
    rw [List.flatMap_cons, List.length_append, hstored]
    by_cases hk : 0 < write.2
    · have hgiven : given (write :: writes) = write.1 ++ given writes := by
        unfold given
        rw [List.filter_cons_of_pos (by simpa using hk), List.flatMap_cons]
      rw [hgiven, List.length_append]
      refine ⟨by omega, fun he w hw => ?_⟩
      rcases List.mem_cons.mp hw with rfl | hw
      · rintro ⟨-, hshort⟩
        omega
      · exact hall (by omega) w hw
    · have hgiven : given (write :: writes) = given writes := by
        unfold given
        rw [List.filter_cons_of_neg (by simpa using hk)]
      rw [hgiven]
      refine ⟨by omega, fun he w hw => ?_⟩
      rcases List.mem_cons.mp hw with rfl | hw
      · exact fun hshort => hk hshort.1
      · exact hall (by omega) w hw

theorem stored_whole {writes : List (Bytes × ℤ)} (h : ∀ write ∈ writes, ¬ Short write) :
    writes.flatMap storedBy = given writes := by
  induction writes with
  | nil => rfl
  | cons write writes ih =>
    have hrest := ih fun w hw => h w (List.mem_cons_of_mem _ hw)
    rw [List.flatMap_cons, hrest]
    by_cases hk : 0 < write.2
    · have hwhole : write.1.length ≤ write.2.toNat := by
        have hshort := h write List.mem_cons_self
        by_contra hlt
        exact hshort ⟨hk, by omega⟩
      unfold given
      rw [List.filter_cons_of_pos (by simpa using hk), List.flatMap_cons, storedBy, List.take_of_length_le hwhole]
    · unfold given
      rw [List.filter_cons_of_neg (by simpa using hk), storedBy, Int.toNat_eq_zero.mpr (not_lt.mp hk), List.take_zero,
        List.nil_append]

/-- No byte of the body is given to a second write once it was stored, and a complete upload stored the body
exactly when no write left bytes out. -/
theorem upload_stored {body after : Bytes} {x : UploadRun} (hr : (runs env body after).Reach x) :
    given x.writes <+: body ∧
      (x.finished = true → (x.stored = body ↔ ∀ write ∈ x.writes, ¬ Short write)) := by
  obtain ⟨taken, h⟩ := Uploading.reach hr
  refine ⟨?_, fun hfinished => ?_⟩
  · rw [h.whole]
    exact List.take_prefix _ _
  · have hgiven : given x.writes = body := by
      rw [h.whole, h.finished hfinished, List.take_length]
    constructor
    · intro hstored
      refine (stored_length x.writes).2 ?_
      rw [hgiven]
      exact congrArg List.length hstored
    · intro hwhole
      exact (stored_whole hwhole).trans hgiven

/-- An upload that `Upload_Start` has begun in a server that just started. -/
def uploadBegun (env : Env) (body : Bytes) : UploadRun :=
  let core := { Core.zero 0 with
    rx := Rx.fresh
    state := if body = [] then .bodyDone else .bodyReceiving
    requestMethod := some .post
    contentLength := body.length
    handler := some .upload }
  let work := { Work.zero World.boot with appContext := .raw (uploadToFolder ++ bytes "a.txt") }
  { sys := { core := core, app := { App.zero World.boot with toWork := uploadOnHeadersReceived env core work } }
    handle := 0
    arriving := body }

theorem uploadBegun_started {body : Bytes} (hopen : ∀ n path mode, env.fopen n path mode = true) :
    Started body [] (uploadBegun env body) := by
  have hstart : ∀ c : Core, c.requestMethod = some .post → ∀ w : Work,
      (uploadOnHeadersReceived env c w).fileHandle = .handle w.world.files.opened ∧
        (uploadOnHeadersReceived env c w).world.files.log =
          .fopen c.sid (webPath w.appContext.asText) (bytes "wb") (some w.world.files.opened) :: w.world.files.log := by
    intro c hpost w
    have hfopen : env.fopen w.world.calls (webPath w.appContext.asText) (bytes "wb") = true := hopen _ _ _
    unfold uploadOnHeadersReceived World.webFopen
    rw [hpost]
    simp only [if_pos hfopen]
    exact ⟨rfl, rfl⟩
  obtain ⟨hhandle, hlog⟩ := hstart (uploadBegun env body).sys.core rfl
    { Work.zero World.boot with appContext := .raw (uploadToFolder ++ bytes "a.txt") }
  have hheld : Rx.fresh.held = [] := List.take_zero
  refine ⟨rfl, rfl, rfl, rfl, rfl, rfl, hhandle, ⟨_, _, hlog, fun e he => absurd he List.not_mem_nil⟩,
    .of_empty Rx.fresh_empty, ?_⟩
  show Rx.fresh.held ++ body = body ++ []
  rw [hheld, List.nil_append, List.append_nil]

/-- The next `n` bytes arrive in one segment. -/
def piece (x : UploadRun) (n : ℕ) : UploadRun :=
  x.arrive (x.sys.core.rx.receive [⟨x.arriving.take n, n⟩]) (x.arriving.drop n)

theorem piece_reach {body after : Bytes} {x : UploadRun} (hr : (runs env body after).Reach x) {n : ℕ} (hpos : 0 < n)
    (hn : n ≤ x.arriving.length) (hqueue : x.sys.core.rx.reqBufList = [])
    (hroom : (n : ℤ) ≤ x.sys.core.rx.maxLevel - x.sys.core.rx.requestLength) (hsmall : n < 65536) :
    (runs env body after).Reach (x.piece n) := by
  obtain ⟨taken, h⟩ := Uploading.reach hr
  have hlength : (x.arriving.take n).length = n := List.length_take_of_le hn
  have hchain : Consistent [⟨x.arriving.take n, n⟩] := by
    refine ⟨?_, ?_, trivial⟩
    · show x.arriving.take n ≠ []
      rw [← List.length_pos_iff, hlength]
      exact hpos
    · show n = (x.arriving.take n ++ []).length
      rw [List.append_nil, hlength]
  have hbytes : chainBytes [⟨x.arriving.take n, n⟩] = x.arriving.take n := List.append_nil _
  obtain ⟨hvalid, hheld, -⟩ := Rx.receive_spec h.valid ⟨[⟨x.arriving.take n, n⟩], List.cons_ne_nil _ _, hchain⟩ (by
    rw [hqueue, hbytes, hlength]
    exact (Nat.zero_add n).trans_lt hsmall)
  have hcopied : (x.sys.core.rx.receive [⟨x.arriving.take n, n⟩]).reqBufList = [] := by
    unfold Rx.receive
    rw [if_neg (fun hne => hne hqueue), if_neg (by exact not_lt.mpr hroom)]
    exact hqueue
  refine hr.step (.arrive (x.sys.core.rx.receive [⟨x.arriving.take n, n⟩]))
    ⟨x.arriving.take n, x.arriving.drop n, hvalid, ?_, (List.take_append_drop n _).symm, rfl⟩
  have hbefore : x.sys.core.rx.queued = [] := by
    rw [Rx.queued, hqueue]
    exact List.drop_nil
  have hafter : (x.sys.core.rx.receive [⟨x.arriving.take n, n⟩]).queued = [] := by
    rw [Rx.queued, hcopied]
    exact List.drop_nil
  rw [hbytes, hbefore, hafter, List.append_nil, List.append_nil] at hheld
  exact hheld

theorem round_reach {body after : Bytes} {x : UploadRun} (hr : (runs env body after).Reach x)
    (h : x.finished = false ∧ 0 ≤ x.sys.app.result) : (runs env body after).Reach (x.round env) :=
  hr.step .round ⟨h.1, h.2, rfl⟩

/-- Another connection looks into a folder. -/
def lookedElsewhere (x : UploadRun) : UploadRun :=
  x.elsewhere (x.sys.app.world.logFile (.firstdir 1 (bytes "*.*") none)) false

theorem lookedElsewhere_reach {body after : Bytes} {x : UploadRun} (hr : (runs env body after).Reach x) :
    (runs env body after).Reach x.lookedElsewhere := by
  refine hr.step (.elsewhere (x.sys.app.world.logFile (.firstdir 1 (bytes "*.*") none)) false) ⟨⟨[_], rfl, ?_⟩, rfl⟩
  intro e he
  obtain rfl := List.mem_singleton.mp he
  exact ⟨rfl, rfl⟩

/-- The first write fails. -/
def retryEnv : Env := { Env.calm [] with fwrite := fun n _ data => if n = 1 then 0 else data.length }

/-- An upload in two segments, with a round that writes nothing. -/
def helloUpload : UploadRun :=
  let x := ((((uploadBegun retryEnv (bytes "Hello, world")).piece 5).round retryEnv).round retryEnv).lookedElsewhere
  (x.piece 7).round retryEnv

theorem upload_stored_hello : helloUpload.stored = bytes "Hello, world" ∧
    helloUpload.writes = [(bytes "Hello", 0), (bytes "Hello", 5), (bytes ", world", 7)] := by
  have h : (runs retryEnv (bytes "Hello, world") []).Reach (uploadBegun retryEnv (bytes "Hello, world")) :=
    .init (uploadBegun_started fun _ _ _ => rfl)
  have h := piece_reach h (n := 5) (by decide) (by decide +kernel) rfl (by decide) (by decide)
  have h := round_reach h (by decide +kernel)
  have h := round_reach h (by decide +kernel)
  have h := lookedElsewhere_reach h
  have h := piece_reach h (n := 7) (by decide) (by decide +kernel) (by decide +kernel) (by decide +kernel) (by decide)
  have h : (runs retryEnv (bytes "Hello, world") []).Reach helloUpload := round_reach h (by decide +kernel)
  exact ⟨((upload_stored h).2 (by decide +kernel)).mpr (by decide +kernel), by decide +kernel⟩

/-- A disk that is full after one byte. -/
def fullDisk : Env := { Env.calm [] with fwrite := fun _ _ data => min 1 data.length }

/-- When a write stores one byte of five, the others are gone. -/
theorem upload_stored_fails :
    ¬ ∀ (env : Env), (∀ n h data, env.fwrite n h data ≤ data.length) → ∀ (body after : Bytes) (x : UploadRun),
      (runs env body after).Reach x → x.finished = true → x.stored = body := by
  intro h
  have hr : (runs fullDisk (bytes "Hello") []).Reach (uploadBegun fullDisk (bytes "Hello")) :=
    .init (uploadBegun_started fun _ _ _ => rfl)
  have hr := piece_reach hr (n := 5) (by decide) (by decide +kernel) rfl (by decide) (by decide)
  have hr := round_reach hr (by decide +kernel)
  have hstored := h fullDisk (fun _ _ _ => min_le_right _ _) (bytes "Hello") [] _ hr (by decide +kernel)
  revert hstored
  decide +kernel

end UploadRun

end StraightHttpd
