import StraightHttpd.Httpd.Responses
import StraightHttpd.Lib.Monitor
import StraightHttpd.Lib.Outbox

/-! # The stream of responses

Two monitors read the history of a connection: `stream` follows the bytes that are passed to
`altcp_write`, and `cut` whether the end of a response was one of the three that leave bytes in the send
buffer. Every history of the exchange is one of whole responses exactly if none was cut before another
request.
-/

set_option autoImplicit false

namespace StraightHttpd
open CMemory

/-! ## What goes out -/

/-- The responses that are made on a pcb, what was passed to `altcp_write`, and whether it failed. -/
structure PcbStream where
  outbox : Outbox UInt8
  failed : Bool

def PcbStream.fresh : PcbStream := ⟨Outbox.empty, false⟩

def stream : Monitor PcbStream Obs where
  start := .fresh
  next t
    | .accepted | .freed => .fresh
    | .response bs => { t with outbox := t.outbox.start bs }
    | .content bs => { t with outbox := t.outbox.extend bs }
    | .wrote bs => { t with outbox := t.outbox.send bs }
    | .writeFailed => { t with failed := true }
    | _ => t

def Obs.isReset : Obs → Bool
  | .reset => true
  | _ => false

/-- The stream stays one of whole responses, nothing follows a failed write, and only a request that
has been answered to its end is followed by another on the same pcb. -/
structure PcbStream.Allows (t : PcbStream) (o : Obs) : Prop where
  intact : (stream.next t o).outbox.Intact
  silent : t.failed = true → ∀ bs, o ≠ .wrote bs
  finished : o.isReset = true → t.outbox.sent = t.outbox.messages.flatten

/-- A response ended with bytes in the send buffer: the header or the content of it was over, or a write
failed. -/
def cut : Monitor Bool Obs where
  start := false
  next c
    | .accepted | .freed => false
    | .requestEnd bytesLeft => c || decide (0 < bytesLeft)
    | .writeFailed => true
    | _ => c

/-- No request follows a response that was cut. -/
def GoesOnWhole (c : Bool) (o : Obs) : Prop := o.isReset = true → c = false

instance (c : Bool) (o : Obs) : Decidable (GoesOnWhole c o) := inferInstanceAs (Decidable (_ → _))

/-- Entries that both monitors pass over. -/
def Obs.Unstreamed : Obs → Prop
  | .accepted | .response _ | .content _ | .wrote _ | .writeFailed | .requestEnd _ | .reset | .freed => False
  | _ => True

section

variable {new hist : List Obs} {rest : Bytes}

theorem stream_mute (h : ∀ o ∈ new, Obs.Unstreamed o) (hist : List Obs) :
    stream.after (new ++ hist) = stream.after hist := by
  refine Monitor.after_append fun o ho t => ?_
  have hm := h o ho
  cases o <;> first | rfl | exact hm.elim

theorem cut_mute (h : ∀ o ∈ new, Obs.Unstreamed o) (hist : List Obs) : cut.after (new ++ hist) = cut.after hist := by
  refine Monitor.after_append fun o ho t => ?_
  have hm := h o ho
  cases o <;> first | rfl | exact hm.elim

/-- All went well up to now. -/
structure Sound (hist : List Obs) : Prop where
  allowed : stream.Along PcbStream.Allows hist
  clean : cut.Along GoesOnWhole hist
  intact : (stream.after hist).outbox.Intact

/-- Something that the stream does not show. -/
theorem Sound.note (h : Sound hist) {o : Obs} (ho : (stream.next (stream.after hist) o).outbox.Intact)
    (hwrote : ∀ bs, o ≠ .wrote bs) (hreset : o.isReset ≠ true) : Sound (o :: hist) :=
  ⟨⟨⟨ho, fun _ => hwrote, fun he => absurd he hreset⟩, h.allowed⟩,
    ⟨fun he => absurd he hreset, h.clean⟩, ho⟩

theorem Sound.mute (h : Sound hist) (hnew : ∀ o ∈ new, Obs.Unstreamed o) : Sound (new ++ hist) := by
  induction new with
  | nil => exact h
  | cons o new ih =>
    have hprev := ih fun o' ho' => hnew o' (List.mem_cons_of_mem _ ho')
    have hm := hnew o List.mem_cons_self
    refine hprev.note ?_ (fun bs he => ?_) (fun he => ?_)
    · have hsame : stream.after ([o] ++ (new ++ hist)) = stream.after (new ++ hist) :=
        stream_mute (fun o' ho' => List.mem_singleton.mp ho' ▸ hm) _
      rw [show stream.next (stream.after (new ++ hist)) o = stream.after (new ++ hist) from hsame]
      exact hprev.intact
    · rw [he] at hm
      exact hm
    · cases o <;> first | exact hm | cases he

theorem Sound.mute_cons (h : Sound hist) {o : Obs} (ho : Obs.Unstreamed o) : Sound (o :: hist) :=
  @Sound.mute [o] hist h fun _ ho' => List.mem_singleton.mp ho' ▸ ho

/-- A stream that owes `rest`, of responses that were not cut. -/
structure Books (hist : List Obs) (rest : Bytes) : Prop where
  sound : Sound hist
  owes : (stream.after hist).outbox.Owes rest
  running : (stream.after hist).failed = false
  uncut : cut.after hist = false

/-- A response has ended with `rest` left. -/
structure Ended (hist : List Obs) (rest : Bytes) : Prop where
  sound : Sound hist
  owes : (stream.after hist).outbox.Owes rest
  running : (stream.after hist).failed = true → rest ≠ []
  cut_iff : cut.after hist = true ↔ rest ≠ []

/-- It is over. -/
structure Broken (hist : List Obs) : Prop where
  forbidden : ¬ stream.Along PcbStream.Allows hist
  unclean : ¬ cut.Along GoesOnWhole hist

theorem Broken.grows (h : Broken hist) (new : List Obs) : Broken (new ++ hist) :=
  ⟨fun ha => h.forbidden ha.of_append, fun ha => h.unclean ha.of_append⟩

namespace Books

theorem mute (h : Books hist rest) (hnew : ∀ o ∈ new, Obs.Unstreamed o) : Books (new ++ hist) rest := by
  refine ⟨h.sound.mute hnew, ?_, ?_, (cut_mute hnew hist).trans h.uncut⟩
  · rw [stream_mute hnew]
    exact h.owes
  · rw [stream_mute hnew]
    exact h.running

theorem mute_cons (h : Books hist rest) {o : Obs} (ho : Obs.Unstreamed o) : Books (o :: hist) rest :=
  @mute [o] hist rest h fun _ ho' => List.mem_singleton.mp ho' ▸ ho

theorem fresh (h : Sound hist) {o : Obs} (ho : o = .accepted ∨ o = .freed) : Books (o :: hist) [] := by
  have howes : (stream.after (o :: hist)).outbox.Owes [] := by
    rcases ho with rfl | rfl <;> exact Outbox.empty_owes
  refine ⟨h.note howes.intact ?_ ?_, howes, ?_, ?_⟩
  · rcases ho with rfl | rfl <;> nofun
  · rcases ho with rfl | rfl <;> nofun
  · rcases ho with rfl | rfl <;> rfl
  · rcases ho with rfl | rfl <;> rfl

theorem response (h : Books hist []) (bs : Bytes) : Books (.response bs :: hist) bs := by
  have howes : (stream.after (.response bs :: hist)).outbox.Owes bs := h.owes.start bs
  exact ⟨h.sound.note howes.intact nofun nofun, howes, h.running, h.uncut⟩

theorem content (h : Books hist rest) (bs : Bytes) : Books (.content bs :: hist) (rest ++ bs) := by
  have howes : (stream.after (.content bs :: hist)).outbox.Owes (rest ++ bs) := h.owes.extend bs
  exact ⟨h.sound.note howes.intact nofun nofun, howes, h.running, h.uncut⟩

theorem wrote {bs : Bytes} (h : Books hist (bs ++ rest)) : Books (.wrote bs :: hist) rest := by
  have howes : (stream.after (.wrote bs :: hist)).outbox.Owes rest := h.owes.send
  refine ⟨⟨⟨⟨howes.intact, fun hf => ?_, nofun⟩, h.sound.allowed⟩, ⟨nofun, h.sound.clean⟩, howes.intact⟩,
    howes, h.running, h.uncut⟩
  rw [h.running] at hf
  cases hf

/-- A failed write leaves what was to be written. -/
theorem writeFailed (h : Books hist rest) (hrest : rest ≠ []) : Ended (.writeFailed :: hist) rest :=
  ⟨h.sound.note h.owes.intact nofun nofun, h.owes, fun _ => hrest, iff_of_true rfl hrest⟩

/-- The end of a response. -/
theorem requestEnd (h : Books hist rest) {bytesLeft : ℤ} (hleft : 0 < bytesLeft ↔ rest ≠ []) :
    Ended (.requestEnd bytesLeft :: hist) rest := by
  refine ⟨h.sound.note h.owes.intact nofun nofun, h.owes, fun hf => ?_, ?_⟩
  · rw [show (stream.after (.requestEnd bytesLeft :: hist)).failed = false from h.running] at hf
    cases hf
  change (cut.after hist || decide (0 < bytesLeft)) = true ↔ rest ≠ []
  rw [h.uncut, Bool.false_or, decide_eq_true_iff]
  exact hleft

theorem reset (h : Books hist []) : Books (.reset :: hist) [] := by
  have hsent := h.owes.sent_iff.mpr rfl
  exact ⟨⟨⟨⟨h.owes.intact, nofun, fun _ => hsent⟩, h.sound.allowed⟩, ⟨fun _ => h.uncut, h.sound.clean⟩,
    h.owes.intact⟩, h.owes, h.running, h.uncut⟩

end Books

theorem Ended.mute_cons (h : Ended hist rest) {o : Obs} (ho : Obs.Unstreamed o) : Ended (o :: hist) rest := by
  have hstream := @stream_mute [o] (fun _ ho' => List.mem_singleton.mp ho' ▸ ho) hist
  have hcut := @cut_mute [o] (fun _ ho' => List.mem_singleton.mp ho' ▸ ho) hist
  rw [List.singleton_append] at hstream hcut
  refine ⟨h.sound.mute_cons ho, ?_, ?_, ?_⟩
  · rw [hstream]
    exact h.owes
  · rw [hstream]
    exact h.running
  · rw [hcut]
    exact h.cut_iff

/-- A request that follows shows whether the response was cut. -/
theorem Ended.reset (h : Ended hist rest) : Books (.reset :: hist) [] ∨ Broken (.reset :: hist) := by
  by_cases hrest : rest = []
  · have howes := h.owes
    rw [hrest] at howes
    have huncut : cut.after hist = false := by
      rw [← Bool.not_eq_true, h.cut_iff]
      exact not_not.mpr hrest
    have hrunning' : (stream.after hist).failed = false := by
      rw [← Bool.not_eq_true]
      exact fun hf => h.running hf hrest
    exact .inl (Books.reset ⟨h.sound, howes, hrunning', huncut⟩)
  · refine .inr ⟨fun ha => ?_, fun hc => ?_⟩
    · exact hrest (h.owes.sent_iff.mp (ha.1.finished rfl))
    · have hcut := h.cut_iff.mpr hrest
      rw [hc.1 rfl] at hcut
      cases hcut

/-! ## Histories of the exchange -/

/-- What the stream is at a phase of the exchange. -/
def Phase.Streams (hist : List Obs) : Phase → Prop
  | .waiting | .asked => Books hist []
  | .owing rest => Books hist rest
  | .ended rest => Ended hist rest

theorem Phase.Streams.sound {t : Phase} (h : t.Streams hist) : Sound hist := by
  cases t with
  | ended rest => exact Ended.sound h
  | _ => exact Books.sound h

theorem Phase.Streams.unstreamed {t : Phase} (h : t.Streams hist) {o : Obs} (ho : o.Unstreamed) :
    t.Streams (o :: hist) := by
  cases t with
  | ended rest => exact Ended.mute_cons h ho
  | _ => exact Books.mute_cons h ho

theorem Phase.Streams.step {t u : Phase} {o : Obs} (h : t.Streams hist) (ho : Phase.Step t o u) :
    u.Streams (o :: hist) ∨ Broken (o :: hist) := by
  cases ho with
  | aside ho =>
    refine .inl (h.unstreamed ?_)
    cases o <;> first | exact ho.elim | trivial
  | prepare => exact .inl (Books.reset h)
  | accepted => exact .inl (.fresh h.sound (.inl rfl))
  | begin => exact .inl (h.unstreamed trivial)
  | asks ho =>
    refine .inl (h.unstreamed ?_)
    cases o <;> first | exact ho.elim | trivial
  | response bs => exact .inl (Books.response h bs)
  | read m => exact .inl (h.unstreamed trivial)
  | content bs => exact .inl (Books.content h bs)
  | wrote => exact .inl (Books.wrote h)
  | writeFailed hrest => exact .inl (Books.writeFailed h hrest)
  | requestEnd hleft => exact .inl (Books.requestEnd h hleft)
  | next => exact Ended.reset h
  | freed => exact .inl (.fresh h.sound (.inr rfl))

/-- The exchange keeps its stream in order, until a request follows a response that was cut. -/
theorem streams_of_spells {t : Phase} (h : exchange.Spells t hist) : t.Streams hist ∨ Broken hist := by
  induction h with
  | init h0 =>
    subst h0
    exact .inl ⟨⟨trivial, trivial, Outbox.empty_owes.intact⟩, Outbox.empty_owes, rfl, rfl⟩
  | step o _ hstep ih =>
    rcases ih with ih | ih
    · exact ih.step hstep
    · exact .inr (ih.grows [o])

theorem stream_iff_of_spells {t : Phase} (h : exchange.Spells t hist) :
    stream.Along PcbStream.Allows hist ↔ cut.Along GoesOnWhole hist := by
  rcases streams_of_spells h with hs | hb
  · exact iff_of_true hs.sound.allowed hs.sound.clean
  · exact iff_of_false hb.forbidden hb.unclean

end

namespace Server

/-- As long as no buffer is overrun, what goes out on the pcb of a connection are whole responses exactly
if none was cut before another request. -/
theorem response_stream (env : Env) {s : Server} (h : (runs env).Reach s) (hfault : s.world.fault = false)
    (i : Fin maxConnections) :
    stream.Along PcbStream.Allows (s.ctx i).core.hist ↔ cut.Along GoesOnWhole (s.ctx i).core.hist := by
  rcases reach_flowing h with hf | hall
  · rw [hfault] at hf
    cases hf
  obtain ⟨phase, hspells⟩ := (hall i).spells
  exact stream_iff_of_spells hspells

/-- The first of the requests, with room for its response. -/
theorem response_stream_whole :
    stream.Along PcbStream.Allows ((boot.play (Env.calm (bytes "page")) (twoRequests.take 2)).ctx 0).core.hist := by
  have hrun : Sane (Env.calm (bytes "page")) boot (twoRequests.take 2) ∧
      (boot.play (Env.calm (bytes "page")) (twoRequests.take 2)).world.fault = false ∧
      cut.Along GoesOnWhole ((boot.play (Env.calm (bytes "page")) (twoRequests.take 2)).ctx 0).core.hist := by
    decide +kernel
  obtain ⟨hsane, hfault, hclean⟩ := hrun
  exact (response_stream _ (reach_boot _ hsane) hfault 0).mpr hclean

end Server

end StraightHttpd
