import StraightHttpd.Httpd.FormBody
import StraightHttpd.Httpd.Server

/-! # Forms of several clients (`cgi_form.c`, `port_device.c`)

All connections write into one staging record. A GET of the form fills it from the working configuration,
the bodies of POSTs write fields into it, and a POST that is complete copies it back as a whole. A POST sets
its own fields and no others when nothing that it does not set itself was staged or changed since the record
was last filled. `reach_editing` says that the settings of the server are always those of such a run.
-/

set_option autoImplicit false

namespace StraightHttpd
open CMemory Device DeviceConfig

/-- A configuration with fields set, one after the other. -/
def DeviceConfig.withFields (c : DeviceConfig) (fields : List (Bytes × Bytes)) : DeviceConfig :=
  fields.foldl (fun c f => setTag c f.1 f.2) c

theorem DeviceConfig.withFields_append (c : DeviceConfig) (old new : List (Bytes × Bytes)) :
    c.withFields (old ++ new) = (c.withFields old).withFields new := List.foldl_append

/-- Fields that make the same of every configuration. -/
def SameFields (a b : List (Bytes × Bytes)) : Prop := ∀ c : DeviceConfig, c.withFields a = c.withFields b

/-- The calls of `TAG_Setter` stage their fields and change nothing else. -/
theorem applyCalls_fields (d : Device) (calls : List (Bytes × Bytes)) :
    applyCalls d calls = { d with temp := d.temp.withFields calls } := by
  induction calls generalizing d with
  | nil => rfl
  | cons call calls ih =>
    have hrest := ih (tagSetter d call.1 call.2)
    exact hrest

/-- What happens to the configuration. A client is known by its connection. -/
inductive FormEvent
  | get
  | post (client : ℕ)
  | content (client : ℕ) (buffer : Bytes) (nSize nTotalRemain : ℤ)
  | abort (client : ℕ)
  | complete (client : ℕ)
  | setMyIP (addr : ℕ)
  | setGateway (addr : ℕ)
  | setSubnet (addr : ℕ)

/-- The settings, and what led to them: the working configuration that the staging record was last filled
from, the fields staged since then, and for each client the fields of the POST that it is sending. -/
structure Editing where
  device : Device
  loaded : DeviceConfig
  staged : List (Bytes × Bytes)
  posted : ℕ → List (Bytes × Bytes)

namespace Editing

/-- What an event does to the settings. -/
def changeDevice (d : Device) : FormEvent → Device
  | .get => formHeadersDevice (some .get) d
  | .post _ => formHeadersDevice (some .post) d
  | .content _ buffer nSize nTotalRemain => (extractFormData d buffer nSize nTotalRemain).1
  | .abort _ => d
  | .complete _ => formRequestDevice (some .post) d
  | .setMyIP addr => d.setMyIPLong addr
  | .setGateway addr => d.setGatewayLong addr
  | .setSubnet addr => d.setSubnetLong addr

/-- The fields that an event stages. -/
def fields (d : Device) : FormEvent → List (Bytes × Bytes)
  | .content _ buffer nSize nTotalRemain => formCalls d buffer nSize nTotalRemain
  | _ => []

/-- One event. -/
def change (s : Editing) (e : FormEvent) : Editing :=
  let device := changeDevice s.device e
  let new := fields s.device e
  match e with
  | .get => { s with device := device, loaded := s.device.work, staged := [] }
  | .content k _ _ _ =>
    { s with
      device := device
      staged := s.staged ++ new
      posted := Function.update s.posted k (s.posted k ++ new) }
  | .post k | .abort k => { s with device := device, posted := Function.update s.posted k [] }
  | .complete k =>
    { device := device, loaded := device.work, staged := [], posted := Function.update s.posted k [] }
  | _ => { s with device := device }

theorem change_device (s : Editing) (e : FormEvent) : (s.change e).device = changeDevice s.device e := by
  cases e <;> rfl

/-- The device as it starts, with no client. -/
def start : Editing where
  device := initDevInfo
  loaded := initConfig
  staged := []
  posted _ := []

def runs : RunSystem Editing FormEvent where
  init s := s = start
  step s e s' := s' = s.change e

/-! ## What each client asks for -/

/-- The working configuration that an event is to lead to: a POST that is complete sets the fields of its own
body, the network sets an address, and nothing else changes it. -/
def intended (s : Editing) : FormEvent → DeviceConfig
  | .complete k => s.device.work.withFields (s.posted k)
  | .setMyIP addr => { s.device.work with dwIP := addr }
  | .setGateway addr => { s.device.work with dwGateway := addr }
  | .setSubnet addr => { s.device.work with dwSubnet := addr }
  | _ => s.device.work

/-- When a POST is complete, the fields staged since the record was last filled set what those of its own body
set, and the working configuration has changed since then at most in settings that the POST names. -/
def Undisturbed (s : Editing) : FormEvent → Prop
  | .complete k => SameFields s.staged (s.posted k) ∧
      s.loaded.withFields (s.posted k) = s.device.work.withFields (s.posted k)
  | _ => True

/-! ## Runs -/

/-- The staging record is what it was filled with and the fields staged since. -/
def Staged (s : Editing) : Prop := s.device.temp = s.loaded.withFields s.staged

theorem content_device (d : Device) (buffer : Bytes) (nSize nTotalRemain : ℤ) :
    (extractFormData d buffer nSize nTotalRemain).1 =
      { d with temp := d.temp.withFields (formCalls d buffer nSize nTotalRemain) } := by
  rw [extractFormData_device, applyCalls_fields]

theorem Staged.change {s : Editing} (h : s.Staged) (e : FormEvent) : (s.change e).Staged := by
  have htemp : s.device.temp = s.loaded.withFields s.staged := h
  cases e with
  | get => rfl
  | post k => exact h
  | content k buffer nSize nTotalRemain =>
    show (extractFormData s.device buffer nSize nTotalRemain).1.temp = s.loaded.withFields (s.staged ++ _)
    rw [content_device, withFields_append, ← htemp]
    rfl
  | abort k => exact h
  | complete k => rfl
  | setMyIP addr => exact h
  | setGateway addr => exact h
  | setSubnet addr => exact h

theorem staged_reach {s : Editing} (hr : runs.Reach s) : s.Staged := by
  apply hr.invariant (P := Staged)
  · intro s hs
    obtain rfl : s = start := hs
    rfl
  · intro s e s' h hs
    obtain rfl : s' = s.change e := hs
    exact h.change e

/-- No update is lost or mixed with another by a POST that is undisturbed. -/
theorem config_updates {s s' : Editing} {e : FormEvent} (hr : runs.Reach s) (hs : runs.step s e s')
    (h : s.Undisturbed e) : s'.device.work = s.intended e := by
  obtain rfl : s' = s.change e := hs
  cases e with
  | complete k =>
    obtain ⟨hown, hwork⟩ := h
    show s.device.temp = s.device.work.withFields (s.posted k)
    calc s.device.temp = s.loaded.withFields s.staged := staged_reach hr
      _ = s.loaded.withFields (s.posted k) := hown s.loaded
      _ = s.device.work.withFields (s.posted k) := hwork
  | content k buffer nSize nTotalRemain =>
    show (extractFormData s.device buffer nSize nTotalRemain).1.work = s.device.work
    rw [content_device]
  | get => rfl
  | post k => rfl
  | abort k => rfl
  | setMyIP addr => rfl
  | setGateway addr => rfl
  | setSubnet addr => rfl

/-- What the body of a POST is read from. -/
def posts (client : ℕ) (body : Bytes) : FormEvent := .content client (body ++ [0]) body.length 0

/-- A client loads the form and posts a color. -/
def painted : Editing := ((start.change .get).change (.post 0)).change (posts 0 (bytes "VAR_COLOR=red"))

theorem reach_change {s : Editing} (hr : runs.Reach s) (e : FormEvent) : runs.Reach (s.change e) :=
  hr.step e rfl

theorem painted_reach : runs.Reach painted :=
  reach_change (reach_change (reach_change (.init rfl) _) _) _

/-- An address is set, two clients load the form, and the second one posts a color and goes away between
the begin of the first one's POST and its body. -/
def contested : Editing :=
  let loaded := ((start.change (.setMyIP 5)).change .get).change .get
  let begun := (loaded.change (.post 0)).change (.post 1)
  let lost := (begun.change (posts 1 (bytes "VAR_COLOR=blue"))).change (.abort 1)
  lost.change (posts 0 (bytes "VAR_COLOR=red"))

theorem contested_reach : runs.Reach contested := by
  have loaded := reach_change (reach_change (reach_change (.init rfl) (.setMyIP 5)) .get) .get
  have begun := reach_change (reach_change loaded (.post 0)) (.post 1)
  have lost := reach_change (reach_change begun (posts 1 (bytes "VAR_COLOR=blue"))) (.abort 1)
  exact reach_change lost (posts 0 (bytes "VAR_COLOR=red"))

theorem config_updates_contested :
    contested.staged.length = 2 ∧ (contested.posted 0).length = 1 ∧
      (contested.change (.complete 0)).device.work = contested.intended (.complete 0) ∧
      contested.intended (.complete 0) = { initConfig with szColor := bytes "red", dwIP := 5 } := by
  -- the color of the other client is overwritten
  have hown : SameFields contested.staged (contested.posted 0) := by
    intro c
    rfl
  exact ⟨by decide +kernel, by decide +kernel,
    config_updates contested_reach rfl ⟨hown, by decide +kernel⟩, by decide +kernel⟩

/-- The client goes away, and another one posts a date. -/
def abandoned : Editing := ((painted.change (.abort 0)).change (.post 1)).change (posts 1 (bytes "VAR_DATE=2020"))

/-- The color of the POST that was not finished takes effect. -/
theorem config_updates_fails :
    ¬ ∀ s s' e, runs.Reach s → runs.step s e s' → s'.device.work = s.intended e := by
  intro h
  have hr : runs.Reach abandoned := reach_change (reach_change (reach_change painted_reach _) _) _
  have hdone := h abandoned _ (.complete 1) hr rfl
  exact absurd (congrArg DeviceConfig.szColor hdone) (by decide +kernel)

end Editing

/-! ## The settings of the server

The callbacks of the form are the events of the client of their connection, and no other callback changes
the settings.
-/

/-- An event of the client of connection `k`. -/
def FormEvent.By (k : ℕ) : FormEvent → Prop
  | .get => True
  | .post j | .content j _ _ _ | .abort j | .complete j => j = k
  | .setMyIP _ | .setGateway _ | .setSubnet _ => False

/-- The settings are those that events of the client of connection `k` make. -/
def Edited (k : ℕ) (d d' : Device) : Prop :=
  ∃ es : List FormEvent, (∀ e ∈ es, e.By k) ∧ d' = es.foldl Editing.changeDevice d

namespace Edited

variable {k : ℕ} {d d' d'' : Device}

theorem same (h : d' = d) : Edited k d d' := ⟨[], nofun, h⟩

theorem one {e : FormEvent} (he : e.By k) (h : d' = Editing.changeDevice d e) : Edited k d d' := by
  refine ⟨[e], fun e' he' => ?_, h⟩
  rw [List.mem_singleton.mp he']
  exact he

theorem trans (h : Edited k d d') (h' : Edited k d' d'') : Edited k d d'' := by
  obtain ⟨es, hes, rfl⟩ := h
  obtain ⟨es', hes', rfl⟩ := h'
  refine ⟨es ++ es', fun e he => ?_, List.foldl_append.symm⟩
  exact (List.mem_append.mp he).elim (hes e) (hes' e)

end Edited

/-- What a callback leaves alone when it is known to spare the settings. -/
theorem Work.Kept.edited {F : Spares} {sid k : ℕ} {w w' : Work} (h : Work.Kept F sid w w')
    (hF : F.device = true) : Edited k w.world.device w'.world.device := .same (h.world.device hF)

section Callbacks

variable {env : Env} {c : Core}

theorem formOnHeadersReceived_edited (a : App) :
    Edited c.sid a.world.device (formOnHeadersReceived c a).world.device := by
  show Edited c.sid _ (formHeadersDevice c.requestMethod a.world.device)
  cases c.requestMethod with
  | none => exact .same rfl
  | some method =>
    cases method with
    | get => exact .one (e := .get) trivial rfl
    | post => exact .one (e := .post c.sid) rfl rfl

theorem formOnRequestReceived_edited (a : App) :
    Edited c.sid a.world.device (formOnRequestReceived env c a).world.device := by
  have hpage : Edited c.sid a.world.device (webRequestReceived env c a.toWork).world.device :=
    (Work.webRequestReceived_kept (F := ⟨true, false⟩) a.toWork).edited rfl
  refine hpage.trans ?_
  show Edited c.sid _ (formRequestDevice c.requestMethod (webRequestReceived env c a.toWork).world.device)
  cases c.requestMethod with
  | none => exact .same rfl
  | some method =>
    cases method with
    | get => exact .same rfl
    | post => exact .one (e := .complete c.sid) rfl rfl

theorem webOnFormReceived_edited (a : App) (buffer : Bytes) (size : ℤ) :
    Edited c.sid a.world.device (webOnFormReceived env c a buffer size).1.world.device := by
  unfold webOnFormReceived
  simp only
  split_ifs
  all_goals first
    | exact .same rfl
    | exact .one (e := .content c.sid _ _ _) rfl rfl

theorem uploadOnHeaderReceived_device (w : Work) (line : Bytes) :
    (uploadOnHeaderReceived c w line).1.world.device = w.world.device := by
  simp only [uploadOnHeaderReceived]
  split_ifs <;> rfl

theorem uploadOnHeadersReceived_device (w : Work) :
    (uploadOnHeadersReceived env c w).world.device = w.world.device := by
  simp only [uploadOnHeadersReceived, World.webFopen]
  split
  · rfl
  · split_ifs <;> rfl
  · rfl

theorem uploadOnContentReceived_device (w : Work) (buffer : Bytes) (size : ℤ) :
    (uploadOnContentReceived env c w buffer size).1.world.device = w.world.device := by
  have hwrite (data : Bytes) : (w.world.webFwrite env c.sid w.fileHandle data).1.device = w.world.device := by
    cases w.fileHandle <;> rfl
  simp only [uploadOnContentReceived]
  split_ifs
  · rfl
  · exact hwrite _
  · exact hwrite _
  · rfl

end Callbacks

namespace Cgi

variable {env : Env} {c : Core} {m : Cgi}

theorem onHeadersReceived_edited {f : Env → Core → App → App} (h : m.mapping.onHeadersReceived = some f)
    (a : App) : Edited c.sid a.world.device (f env c a).world.device := by
  by_cases hm : m.spares.device = true
  · exact (onHeadersReceived_kept (F := ⟨true, false⟩) (fun _ => hm) h a).edited rfl
  · cases m <;> first | exact absurd rfl hm | cases h
    · exact formOnHeadersReceived_edited a
    · exact .same (uploadOnHeadersReceived_device a.toWork)

theorem onContentReceived_edited {f : Env → Core → App → Bytes → ℤ → App × ℤ}
    (h : m.mapping.onContentReceived = some f) (a : App) (buffer : Bytes) (size : ℤ) :
    Edited c.sid a.world.device (f env c a buffer size).1.world.device := by
  by_cases hm : m.spares.device = true
  · exact (onContentReceived_kept (F := ⟨true, false⟩) (fun _ => hm) h a buffer size).edited rfl
  · cases m <;> first | exact absurd rfl hm | cases h
    · exact webOnFormReceived_edited a buffer size
    · exact .same (uploadOnContentReceived_device a.toWork buffer size)

theorem onRequestReceived_edited {f : Env → Core → App → App} (h : m.mapping.onRequestReceived = some f)
    (a : App) : Edited c.sid a.world.device (f env c a).world.device := by
  cases m <;> cases h
  · exact (Work.authOnRequestReceived_kept (F := ⟨true, false⟩) rfl a.toWork).edited rfl
  · exact formOnRequestReceived_edited a
  · exact (Work.filesOnRequestReceived_kept (F := ⟨true, false⟩) a.toWork).edited rfl
  · exact (Work.uploadAllReceived_kept (F := ⟨true, false⟩) a.toWork).edited rfl
  · exact (Work.webRequestReceived_kept (F := ⟨true, false⟩) a.toWork).edited rfl

end Cgi

namespace Sys

variable {env : Env}

theorem headerLine_device (s : Sys) (mem : Bytes) (n : ℕ) :
    (s.headerLine env mem n).app.world.device = s.app.world.device := by
  unfold headerLine
  split_ifs
  · rfl
  · rfl
  · rfl
  · rfl
  · rfl
  · rfl
  · rfl
  · simp only [cgiHeaderReceived]
    split
    next f hf =>
      obtain ⟨m, -, hm⟩ := Option.bind_eq_some_iff.mp hf
      cases m <;> cases hm
      exact uploadOnHeaderReceived_device _ _
    next => rfl

theorem afterHeaders_edited (s : Sys) :
    Edited s.core.sid s.app.world.device (s.afterHeaders env).app.world.device := by
  have hbody : ((s.note (.headers s.gate)).authorize.expectBody env).app.world = s.app.world := by
    rw [expectBody_app]
    unfold authorize
    simp only
    split_ifs <;> rfl
  obtain ⟨tLastSent, hcore⟩ := (@atGate env s).core
  have hend := @cgiHeadersReceived_end env ((s.note (.headers s.gate)).authorize.expectBody env)
  have hresult : (s.afterHeaders env).app =
      (((s.note (.headers s.gate)).authorize.expectBody env).cgiHeadersReceived env).app := by
    unfold afterHeaders
    simp only
    split_ifs <;> rfl
  rw [hresult, ← hbody]
  generalize (s.note (.headers s.gate)).authorize.expectBody env = u at hcore hend ⊢
  have hsid : s.core.sid = u.core.sid := by rw [hcore]
  rw [hsid]
  generalize u.cgiHeadersReceived env = t at hend ⊢
  cases hend with
  | called m f _ hf _ _ => exact Cgi.onHeadersReceived_edited hf u.app
  | accepted => exact .same rfl
  | unauthorized => exact .same rfl
  | refused =>
    unfold cgiRefuse
    split_ifs <;> exact .same rfl

theorem receiveContent_edited (s : Sys) (size : ℤ) :
    Edited s.core.sid s.app.world.device (s.receiveContent env size).1.app.world.device := by
  have hend := @cgiContentReceived_end env s size
  have hresult : (s.receiveContent env size).1.app = (s.cgiContentReceived env size).1.app := by
    unfold receiveContent
    generalize s.cgiContentReceived env size = r
    obtain ⟨s', consumed⟩ := r
    simp only
    split_ifs
    · rfl
    · exact contentTaken_app s' consumed
  rw [hresult]
  generalize s.cgiContentReceived env size = r at hend ⊢
  cases hend with
  | called m f t a consumed _ hf ht he =>
    have hcall := @Cgi.onContentReceived_edited env t.core m f hf s.app s.core.rx.httpRequestBuffer size
    rw [he, ht] at hcall
    exact hcall
  | ignored => exact .same rfl

theorem requestDone_edited (s : Sys) :
    Edited s.core.sid s.app.world.device (s.requestDone env).app.world.device := by
  have hend := @cgiRequestReceived_end env s
  have hresult : (s.requestDone env).app.world = (s.cgiRequestReceived env).app.world := by
    unfold requestDone
    simp only
    split_ifs <;> rfl
  rw [hresult]
  generalize s.cgiRequestReceived env = t at hend ⊢
  cases hend with
  | called m f _ hf => exact Cgi.onRequestReceived_edited hf s.app
  | ignored => exact .same rfl

theorem Local.edited {F : Spares} {s t : Sys} (h : Local F s t) (hF : F.device = true) :
    Edited s.core.sid s.app.world.device t.app.world.device := .same (h.world.device hF)

end Sys

/-- A step of a connection changes the settings by events of its client. -/
theorem Micro.edited {env : Env} {s t : Sys} (h : Micro env s t) :
    Edited s.core.sid s.app.world.device t.app.world.device := by
  have spared {u : Sys} (hu : Sys.Local ⟨true, false⟩ s u) :
      Edited s.core.sid s.app.world.device u.app.world.device := hu.edited rfl
  cases h with
  | background h =>
    obtain ⟨_, _, _, _, _, _, _, _, -, rfl⟩ := h.aside
    exact .same rfl
  | begin => exact .same rfl
  | requestLine _ line _ _ hl => exact spared (Sys.requestLine_local hl)
  | headerLine mem n => exact .same (s.headerLine_device mem n)
  | emptyLine => exact .same rfl
  | consumeHeader => exact .same rfl
  | abort => exact .same rfl
  | afterHeaders => exact s.afterHeaders_edited
  | chunk =>
    have hline : Sys.Local ⟨true, false⟩ s s.receiveChunkLine := Sys.receiveChunkLine_local s
    have hcontent := @Sys.receiveContent_edited env s.receiveChunkLine s.core.rx.requestLength
    rw [hline.sid] at hcontent
    exact (spared hline).trans hcontent
  | content => exact s.receiveContent_edited _
  | requestDone => exact s.requestDone_edited
  | flush => exact spared (Sys.sendOrEnd_local s)
  | sendHeader => exact spared (Sys.sendHeader_local s)
  | headerSent =>
    unfold Sys.headerSent
    split_ifs <;> exact .same rfl
  | sendBody caller => exact spared (Sys.sendBody_local s caller)
  | reset => exact spared (Sys.resetHttpContext_local s)
  | close => exact spared ((Sys.closePcb_local s).trans (Sys.freeHttpContext_local _))

theorem Steps.edited {env : Env} {s t : Sys} (h : Steps env s t) :
    Edited s.core.sid s.app.world.device t.app.world.device := by
  have hboth : t.core.sid = s.core.sid ∧ Edited s.core.sid s.app.world.device t.app.world.device := by
    refine h.keep (P := fun u => u.core.sid = s.core.sid ∧
      Edited s.core.sid s.app.world.device u.app.world.device) ?_ ⟨rfl, .same rfl⟩
    rintro u v hm ⟨hsid, hu⟩
    have hv := hm.edited
    rw [hsid] at hv
    exact ⟨(@Micro.isLocal false _ _ _ hm nofun).sid.trans hsid, hu.trans hv⟩
  exact hboth.2

namespace Server

variable {env : Env}

theorem Served.edited {s t : Sys} (h : Served env s t) :
    Edited s.core.sid s.app.world.device t.app.world.device := by
  cases h with
  | steps h => exact h.edited
  | accept pcb ipRemote https =>
    exact (@Sys.onHttpAccept_local env ⟨true, false⟩ s pcb ipRemote https).edited rfl
  | error => exact (@Sys.freeHttpContext_local ⟨true, false⟩ s).edited rfl

/-- What an event of the server does to the settings: the client that it reaches acts, or the network sets an
address. -/
def Edits (s : Server) (e : Event) (f : FormEvent) : Prop :=
  (∃ i : Fin maxConnections, s.Reaches i e ∧ f.By i) ∨
    match e, f with
    | .setMyIP addr, .setMyIP addr' | .setGateway addr, .setGateway addr'
    | .setSubnet addr, .setSubnet addr' => addr' = addr
    | _, _ => False

/-- Every event of a run changes the settings by events of the form and of the network. -/
theorem handle_edits {s : Server} (hr : (runs env).Reach s) (e : Event) :
    ∃ es : List FormEvent, (∀ f ∈ es, s.Edits e f) ∧
      (s.handle env e).world.device = es.foldl Editing.changeDevice s.world.device := by
  have hconn : Connected env { s with world := s.world.asked } :=
    Connected.globals (fun i => reach_conn hr i) rfl
  have hserved (i : Fin maxConnections) (he : s.Reaches i e) : ∃ es : List FormEvent,
      (∀ f ∈ es, s.Edits e f) ∧
        (s.handle env e).world.device = es.foldl Editing.changeDevice s.world.device := by
    have hreaches : ({ s with world := s.world.asked } : Server).Reaches i e := by
      cases e <;> exact he
    rcases fire_served hconn hreaches with hsame | ⟨t, ht, hput⟩
    · refine ⟨[], nofun, ?_⟩
      rw [handle, hsame]
      rfl
    · obtain ⟨es, hes, hdevice⟩ := ht.edited
      have hsid : (({ s with world := s.world.asked } : Server).conn i).core.sid = i := (hconn i).sid_eq
      rw [hsid] at hes
      refine ⟨es, fun f hf => .inl ⟨i, he, hes f hf⟩, ?_⟩
      rw [handle, hput]
      exact hdevice
  have hone {f : FormEvent} (hf : s.Edits e f)
      (hdevice : (s.handle env e).world.device = Editing.changeDevice s.world.device f) :
      ∃ es : List FormEvent, (∀ f ∈ es, s.Edits e f) ∧
        (s.handle env e).world.device = es.foldl Editing.changeDevice s.world.device := by
    refine ⟨[f], fun f' hf' => ?_, hdevice⟩
    rw [List.mem_singleton.mp hf']
    exact hf
  cases e with
  | accept pcb ipRemote https =>
    cases hfree : Fin.find? fun j => decide ((s.ctx j).core.pcb = none) with
    | some i => exact hserved i hfree
    | none =>
      refine ⟨[], nofun, ?_⟩
      simp only [handle, fire, hfree]
      rfl
  | receive i p => exact hserved i rfl
  | poll i => exact hserved i rfl
  | sent i len => exact hserved i rfl
  | error i => exact hserved i rfl
  | sessionCheck tick => exact ⟨[], nofun, rfl⟩
  | setMyIP addr => exact hone (f := .setMyIP addr) (.inr rfl) rfl
  | setGateway addr => exact hone (f := .setGateway addr) (.inr rfl) rfl
  | setSubnet addr => exact hone (f := .setSubnet addr) (.inr rfl) rfl
  | listenHttps on => exact ⟨[], nofun, rfl⟩

/-- The settings of the server are those of a run of the form events. -/
theorem reach_editing {s : Server} (hr : (runs env).Reach s) :
    ∃ x, Editing.runs.Reach x ∧ x.device = s.world.device := by
  induction hr with
  | init h => exact ⟨Editing.start, .init rfl, by rw [h]; rfl⟩
  | @step s s' e hr hstep ih =>
    obtain ⟨-, rfl⟩ := hstep
    obtain ⟨x, hx, hdevice⟩ := ih
    obtain ⟨es, -, hes⟩ := handle_edits hr e
    rw [hes, ← hdevice]
    clear hes hdevice hr
    induction es generalizing x with
    | nil => exact ⟨x, hx, rfl⟩
    | cons f es ih =>
      rw [List.foldl_cons, ← Editing.change_device]
      exact ih (x.change f) (Editing.reach_change hx f)

end Server

end StraightHttpd
