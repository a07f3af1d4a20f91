import StraightHttpd.Port.Ethernet

/-! # The way of a frame to the stack

A captured frame waits in `g_dmaQueue` for its `ETHNET_INPUT` message, is copied to a chain of pbufs, and
waits with that in the mailbox of the lwip thread until its `TCPIP_MSG_INPKT` message is handled. What the
threads do here refines what they do in `FrameQueue`.
-/

set_option autoImplicit false

namespace StraightHttpd
open CMemory Ring

/-- A message for the lwip thread. -/
inductive Message
  | ethnetInput
  | inpkt (p : List Pbuf)
  | other

def Message.type : Message → TcpipMsg
  | .ethnetInput => .ethnetInput
  | .inpkt _ => .inpkt
  | .other => .other

/-- The packet that a message carries; a message may be NULL. -/
def Message.packet : Option Message → Option (List Pbuf)
  | some (.inpkt p) => some p
  | _ => none

/-- A frame that `ethernetif_input` took from the queue: the pbufs that could be had for it, the chain made
of it, and whether that went into the mailbox. -/
structure TakenFrame where
  frame : Bytes
  room : ℕ
  chain : Option (List Pbuf)
  accepted : Bool

/-- The packet that was passed on. -/
def TakenFrame.passed (x : TakenFrame) : Option (List Pbuf) := if x.accepted then x.chain else none

/-- The state of `FrameQueue` with the packets in the messages, the number of `packet_wrapper`s in memory,
how many frames found the queue full, what has become of the others, what the stack got and sent, and what
went to the adapter. -/
structure Ethernet where
  gDmaQueue : List Bytes
  gQLength : ℤ
  channel : Channel Message
  capturing : Bool
  hand : Option (Option Message)
  pushed : List Bytes
  packets : ℕ
  dropped : ℕ
  taken : List TakenFrame
  input : List (List Pbuf)
  output : List (List Pbuf)
  sent : List Bytes
  overrun : Bool

/-- What the threads do; `post` and `trypost` are the messages of other modules. A frame for which there is
no memory when it is captured changes nothing. -/
inductive EthernetEvent
  | push (frame : Bytes)
  | notify
  | wait
  | take
  | handle (room : ℕ) (message : Bool)
  | post
  | trypost
  | output (p : List Pbuf) (buffer : Bool)

/-- The channel with its messages seen through `f`. -/
def Channel.map {α β : Type} (f : α → β) (s : Channel α) : Channel β where
  mbox := { sem := s.mbox.sem, qMem := fun i => (s.mbox.qMem i).map f, head := s.mbox.head, tail := s.mbox.tail }
  fetching := s.fetching
  posted := s.posted.map f
  fetched := s.fetched.map (Option.map f)

namespace Ethernet

def start : Ethernet where
  gDmaQueue := []
  gQLength := 0
  channel := Channel.new
  capturing := false
  hand := none
  pushed := []
  packets := 0
  dropped := 0
  taken := []
  input := []
  output := []
  sent := []
  overrun := false

/-- The frames without what becomes of them. -/
def frames (s : Ethernet) : FrameQueue Bytes where
  gDmaQueue := s.gDmaQueue
  gQLength := s.gQLength
  channel := s.channel.map Message.type
  capturing := s.capturing
  hand := s.hand.map (Option.map Message.type)
  pushed := s.pushed
  popped := s.taken.map TakenFrame.frame

/-- `DMA_push`: the copy of a frame that is dropped stays in memory. -/
def dmaPush (s : Ethernet) (frame : Bytes) : Ethernet :=
  let q := s.frames.dmaPush frame
  { s with
    gDmaQueue := q.gDmaQueue
    gQLength := q.gQLength
    pushed := q.pushed
    packets := s.packets + 1
    dropped := if s.gQLength < maxDmaQueue then s.dropped else s.dropped + 1 }

/-- `ethernetif_input`: the packet is freed when it was copied, and the chain when `tcpip_input` has no
memory or no room for its message. -/
def ethernetifInput (s : Ethernet) (room : ℕ) (message : Bool) : Ethernet :=
  match s.gDmaQueue with
  | [] => s
  | buffer :: _ =>
    let q := s.frames.dmaPop
    let s := { s with gDmaQueue := q.gDmaQueue, gQLength := q.gQLength, packets := s.packets - 1 }
    match lowLevelInput room buffer with
    | none => { s with taken := s.taken ++ [⟨buffer, room, none, false⟩] }
    | some p =>
      if message then
        { s with
          channel := s.channel.trypost (.inpkt p)
          taken := s.taken ++ [⟨buffer, room, some p, (s.channel.mbox.sysMboxTrypost (.inpkt p)).2⟩] }
      else { s with taken := s.taken ++ [⟨buffer, room, some p, false⟩] }

/-- `tcpip_thread_handle_msg`, unless the message is NULL. -/
def handleMsg (s : Ethernet) (room : ℕ) (message : Bool) : Option Message → Ethernet
  | some .ethnetInput => s.ethernetifInput room message
  | some (.inpkt p) => { s with input := s.input ++ [p] }
  | some .other | none => s

/-- The effect of an event, if it can happen. -/
def fire (s : Ethernet) : EthernetEvent → Option Ethernet
  | .push frame => if s.capturing then none else some { s.dmaPush frame with capturing := true }
  | .notify =>
    if s.capturing then some { s with channel := s.channel.trypost .ethnetInput, capturing := false }
    else none
  | .wait => if s.hand.isNone then s.channel.wait.map fun c => { s with channel := c } else none
  | .take => s.channel.take.map fun c => { s with channel := c, hand := c.fetched.getLast? }
  | .handle room message => s.hand.map fun msg => { s.handleMsg room message msg with hand := none }
  | .post => some { s with channel := s.channel.post .other }
  | .trypost => some { s with channel := s.channel.trypost .other }
  | .output p buffer =>
    if buffer then
      let r := lowLevelOutput p
      some { s with output := s.output ++ [p], sent := s.sent ++ [r.1], overrun := s.overrun || r.2 }
    else some s

def runs : RunSystem Ethernet EthernetEvent where
  init s := s = start
  step s e s' := s.fire e = some s'

/-- No other module posts to the last free slot of the mailbox. -/
def HasRoom (s : Ethernet) : EthernetEvent → Prop
  | .post => s.channel.stored < maxQueueEntries - 1
  | _ => True

/-- The packets on their way, in the hand of the lwip thread and in its mailbox. -/
def underway (s : Ethernet) : List (List Pbuf) :=
  (s.hand.toList ++ s.channel.contents).filterMap Message.packet

end Ethernet

/-! ## Refinement -/

namespace Channel

variable {α β : Type} (f : α → β) (s : Channel α)

theorem map_post (msg : α) : (s.map f).post (f msg) = (s.post msg).map f := by
  have hmem : Function.update (fun i => (s.mbox.qMem i).map f) s.mbox.head (some (f msg)) =
      fun i => (Function.update s.mbox.qMem s.mbox.head (some msg) i).map f := by
    funext i
    by_cases hi : i = s.mbox.head
    · simp [hi]
    · simp [Function.update_of_ne hi]
  simp only [map, post, Mbox.sysMboxPost, Mbox.releaseSemaphore, hmem, List.map_append]
  rfl

/-- `sys_mbox_trypost` when the next slot is the first one that is taken, and otherwise. -/
theorem trypost_cases (msg : α) :
    (next maxQueueEntries s.mbox.head = s.mbox.tail ∧ s.trypost msg = s ∧
      (s.mbox.sysMboxTrypost msg).2 = false) ∨
    (next maxQueueEntries s.mbox.head ≠ s.mbox.tail ∧ s.trypost msg = s.post msg ∧
      (s.mbox.sysMboxTrypost msg).2 = true) := by
  unfold trypost Mbox.sysMboxTrypost
  simp only
  by_cases hfull : next maxQueueEntries s.mbox.head = s.mbox.tail
  · refine .inl ⟨hfull, ?_⟩
    unfold next at hfull
    simp only [if_pos hfull, true_and]
  · refine .inr ⟨hfull, ?_⟩
    unfold next at hfull
    simp only [if_neg hfull, and_true]
    rfl

theorem contents_length : s.contents.length = s.stored := window_length ..

/-- A message that `sys_mbox_trypost` accepts leaves a slot free. -/
theorem trypost_sound {s : Channel α} (h : s.Sound) (hfree : s.stored < maxQueueEntries) (msg : α) :
    (s.trypost msg).Sound ∧ (s.trypost msg).stored < maxQueueEntries ∧
      (s.trypost msg).fetching = s.fetching ∧ (s.trypost msg).contents =
        s.contents ++ if (s.mbox.sysMboxTrypost msg).2 then [some msg] else [] := by
  rcases trypost_cases s msg with ⟨-, ht, haccepted⟩ | ⟨-, ht, haccepted⟩ <;> rw [ht, haccepted]
  · exact ⟨h, hfree, rfl, by simp⟩
  · have hslots : s.stored ≠ maxQueueEntries - 1 := by
      intro hlast
      rw [trypost_eq h, if_pos hlast] at ht
      have hposted := congrArg (List.length ∘ Channel.posted) ht
      simp [post] at hposted
    obtain ⟨hsound, hstored, hcontents⟩ := posted_sound h hfree msg
    exact ⟨hsound, by omega, rfl, hcontents⟩

theorem map_trypost (msg : α) : (s.map f).trypost (f msg) = (s.trypost msg).map f := by
  rcases trypost_cases s msg with ⟨hfull, ht, -⟩ | ⟨hroom, ht, -⟩ <;>
    rcases trypost_cases (s.map f) (f msg) with ⟨hfull', ht', -⟩ | ⟨hroom', ht', -⟩
  · rw [ht, ht']
  · exact absurd hfull hroom'
  · exact absurd hfull' hroom
  · rw [ht, ht', map_post]

theorem map_wait : (s.map f).wait = s.wait.map (Channel.map f) := by
  simp only [wait, Mbox.waitForMessage]
  split_ifs <;> simp_all [map]

theorem map_take : (s.map f).take = s.take.map (Channel.map f) := by
  simp only [take, Mbox.takeMessage]
  split_ifs <;> simp_all [map]

end Channel

namespace Ethernet

variable {s t : Ethernet}

theorem dmaPush_frames (s : Ethernet) (frame : Bytes) : (s.dmaPush frame).frames = s.frames.dmaPush frame := by
  unfold dmaPush FrameQueue.dmaPush
  simp only
  split_ifs <;> rfl

/-- `ethernetif_input` takes a frame out of the queue, and may post a message then. -/
theorem ethernetifInput_frames (s : Ethernet) (room : ℕ) (message : Bool) :
    (s.ethernetifInput room message).frames = s.frames.dmaPop ∨
      (s.ethernetifInput room message).frames =
        { s.frames.dmaPop with channel := s.frames.channel.trypost .inpkt } := by
  unfold ethernetifInput
  cases hq : s.gDmaQueue with
  | nil =>
    have hpop : s.frames.dmaPop = s.frames := by
      simp [FrameQueue.dmaPop, show s.frames.gDmaQueue = [] from hq]
    exact .inl hpop.symm
  | cons buffer rest =>
    have hpop : s.frames.dmaPop = { s.frames with
        gDmaQueue := rest, gQLength := s.gQLength - 1, popped := s.taken.map TakenFrame.frame ++ [buffer] } := by
      simp [FrameQueue.dmaPop, show s.frames.gDmaQueue = buffer :: rest from hq]
      simp [frames]
    simp only [hpop]
    cases lowLevelInput room buffer with
    | none =>
      left
      simp [frames]
    | some p =>
      cases message with
      | false =>
        left
        simp [frames]
      | true =>
        right
        simp [frames, ← Channel.map_trypost, Message.type]

theorem handleMsg_frames (h : FrameQueue.runs.Reach s.frames) {msg : Option Message} (hhand : s.hand = some msg)
    (room : ℕ) (message : Bool) :
    FrameQueue.runs.Reach { s.handleMsg room message msg with hand := none }.frames := by
  have hidle (hother : s.frames.hand ≠ some (some .ethnetInput)) :
      FrameQueue.runs.Reach { s.frames with hand := none } := h.step .handle (if_neg hother)
  have hhand' : s.frames.hand = some (msg.map Message.type) := by
    simp [frames, hhand]
  cases msg with
  | none => exact hidle (by simp [hhand'])
  | some msg =>
    cases msg with
    | other => exact hidle (by simp [hhand', Message.type])
    | inpkt p => exact hidle (by simp [hhand', Message.type])
    | ethnetInput =>
      have htaken : FrameQueue.runs.Reach { s.frames.dmaPop with hand := none } :=
        h.step .input (if_pos (by simp [hhand', Message.type]))
      rcases ethernetifInput_frames s room message with he | he
      · have hend : { s.ethernetifInput room message with hand := none }.frames =
            { s.frames.dmaPop with hand := none } := by
          rw [← he]
          rfl
        exact hend ▸ htaken
      · have hend : { s.ethernetifInput room message with hand := none }.frames =
            { s.frames.dmaPop with hand := none, channel := s.frames.channel.trypost .inpkt } := by
          have hset := congrArg (fun q : FrameQueue Bytes => { q with hand := none }) he
          exact hset
        have hchannel := (FrameQueue.dmaPop_threads s.frames).1
        refine hend ▸ htaken.step (.trypost .inpkt) ?_
        change some { s.frames.dmaPop with hand := none, channel := s.frames.dmaPop.channel.trypost .inpkt } = _
        rw [hchannel]

theorem fire_frames {e : EthernetEvent} (h : FrameQueue.runs.Reach s.frames) (ht : s.fire e = some t) :
    FrameQueue.runs.Reach t.frames := by
  cases e <;> simp only [fire] at ht
  case push frame =>
    split_ifs at ht with hcapturing
    obtain rfl := Option.some.inj ht
    have hframes : { s.dmaPush frame with capturing := true }.frames =
        { s.frames.dmaPush frame with capturing := true } := by
      rw [← dmaPush_frames]
      rfl
    exact hframes ▸ h.step (.push frame) (if_neg hcapturing)
  case notify =>
    split_ifs at ht with hcapturing
    obtain rfl := Option.some.inj ht
    have hframes : { s with channel := s.channel.trypost .ethnetInput, capturing := false }.frames =
        { s.frames.notifyFromEthISR with capturing := false } := by
      have hmap := Channel.map_trypost Message.type s.channel .ethnetInput
      simp only [frames, FrameQueue.notifyFromEthISR, ← hmap]
      rfl
    exact hframes ▸ h.step .notify (if_pos hcapturing)
  case wait =>
    split_ifs at ht with hhand
    obtain ⟨c, hc, rfl⟩ := Option.map_eq_some_iff.mp ht
    refine h.step .wait ?_
    have hfree : s.frames.hand = none := by
      rw [Option.isNone_iff_eq_none] at hhand
      simp [frames, hhand]
    change (if s.frames.hand = none then
      (s.channel.map Message.type).wait.map fun c => { s.frames with channel := c } else none) = _
    rw [if_pos hfree, Channel.map_wait, hc]
    rfl
  case take =>
    obtain ⟨c, hc, rfl⟩ := Option.map_eq_some_iff.mp ht
    refine h.step .take ?_
    change (s.channel.map Message.type).take.map
      (fun c => { s.frames with channel := c, hand := c.fetched.getLast? }) = _
    rw [Channel.map_take, hc]
    simp [frames, Channel.map, List.getLast?_map]
  case handle room message =>
    obtain ⟨msg, hhand, rfl⟩ := Option.map_eq_some_iff.mp ht
    exact handleMsg_frames h hhand room message
  case post =>
    obtain rfl := Option.some.inj ht
    refine h.step (.post .other) ?_
    have hmap := Channel.map_post Message.type s.channel .other
    simp only [frames, ← hmap]
    rfl
  case trypost =>
    obtain rfl := Option.some.inj ht
    refine h.step (.trypost .other) ?_
    have hmap := Channel.map_trypost Message.type s.channel .other
    simp only [frames, ← hmap]
    rfl
  case output p buffer =>
    split_ifs at ht <;> obtain rfl := Option.some.inj ht <;> exact h

theorem reach_frames (h : runs.Reach s) : FrameQueue.runs.Reach s.frames := by
  refine h.invariant (P := fun s => FrameQueue.runs.Reach s.frames) ?_ ?_
  · rintro s rfl
    exact .init rfl
  · intro s e t hs ht
    exact fire_frames hs ht

/-! ## What becomes of the frames -/

/-- The packets that were passed on are those that the stack got, in order, and those on their way. -/
structure Carried (s : Ethernet) : Prop where
  sound : s.channel.Sound
  free : s.channel.stored < maxQueueEntries
  idle : s.channel.fetching = true → s.hand = none
  inOrder : s.input ++ s.underway = s.taken.filterMap TakenFrame.passed
  chains : ∀ x ∈ s.taken, x.chain = lowLevelInput x.room x.frame
  packets : s.packets = s.gDmaQueue.length + s.dropped
  sent : s.sent = s.output.map chainBytes
  overrun : s.overrun = true ↔ ∃ p ∈ s.output, nicBufferSize < (chainBytes p).length

/-- Another channel with the same messages, but for those that carry no packet. -/
theorem Carried.withChannel (h : s.Carried) {c : Channel Message} (hsound : c.Sound)
    (hfree : c.stored < maxQueueEntries) (hfetching : c.fetching = s.channel.fetching)
    (hcontents : c.contents.filterMap Message.packet = s.channel.contents.filterMap Message.packet) :
    { s with channel := c }.Carried := by
  refine ⟨hsound, hfree, ?_, ?_, h.chains, h.packets, h.sent, h.overrun⟩
  · rw [hfetching]
    exact h.idle
  · have hunderway : { s with channel := c }.underway = s.underway := by
      simp only [underway, List.filterMap_append, hcontents]
    rw [hunderway]
    exact h.inOrder

theorem Carried.trypost (h : s.Carried) (msg : Message) (hpacket : Message.packet (some msg) = none) :
    { s with channel := s.channel.trypost msg }.Carried := by
  obtain ⟨hsound, hfree, hfetching, hcontents⟩ := Channel.trypost_sound h.sound h.free msg
  refine h.withChannel hsound hfree hfetching ?_
  rw [hcontents, List.filterMap_append]
  split_ifs <;> simp [hpacket]

theorem Carried.dmaPush (h : s.Carried) (frame : Bytes) : (s.dmaPush frame).Carried := by
  refine ⟨h.sound, h.free, h.idle, h.inOrder, h.chains, ?_, h.sent, h.overrun⟩
  have hpackets := h.packets
  have hqueue : (s.dmaPush frame).gDmaQueue =
      if s.gQLength < maxDmaQueue then s.gDmaQueue ++ [frame] else s.gDmaQueue := by
    change (s.frames.dmaPush frame).gDmaQueue = _
    unfold FrameQueue.dmaPush
    split_ifs <;> first | rfl | contradiction
  rw [hqueue]
  change s.packets + 1 = _ + if s.gQLength < maxDmaQueue then s.dropped else s.dropped + 1
  split_ifs
  · rw [List.length_append, List.length_singleton]
    omega
  · omega

/-- The frame at the head of the queue is taken, and its chain may go into the mailbox. -/
theorem Carried.ethernetifInput (h : s.Carried) (hhand : s.hand = some (some .ethnetInput)) (room : ℕ)
    (message : Bool) : { s.ethernetifInput room message with hand := none }.Carried := by
  have hwaiting : s.underway = s.channel.contents.filterMap Message.packet := by
    simp only [underway, hhand]
    exact List.filterMap_cons_none rfl
  have hinOrder := h.inOrder
  rw [hwaiting] at hinOrder
  have hpackets := h.packets
  unfold Ethernet.ethernetifInput
  cases hq : s.gDmaQueue with
  | nil => exact ⟨h.sound, h.free, fun _ => rfl, hinOrder, h.chains, h.packets, h.sent, h.overrun⟩
  | cons buffer rest =>
    have hpop : s.frames.dmaPop.gDmaQueue = rest := by
      simp [FrameQueue.dmaPop, show s.frames.gDmaQueue = buffer :: rest from hq]
    rw [hq, List.length_cons] at hpackets
    have hleft : s.packets - 1 = rest.length + s.dropped := by omega
    simp only [hpop]
    -- a frame whose chain is not passed on
    have hlost (chain : Option (List Pbuf)) (hchain : chain = lowLevelInput room buffer) {q : ℤ} :
        Ethernet.Carried { s with gDmaQueue := rest, gQLength := q, packets := s.packets - 1, hand := none
                                  taken := s.taken ++ [⟨buffer, room, chain, false⟩] } := by
      refine ⟨h.sound, h.free, fun _ => rfl, ?_, ?_, hleft, h.sent, h.overrun⟩
      · rw [List.filterMap_append, ← hinOrder]
        simp [underway, TakenFrame.passed]
      · intro x hx
        rcases List.mem_append.mp hx with hx | hx
        · exact h.chains x hx
        · rw [List.mem_singleton.mp hx]
          exact hchain
    cases hchain : lowLevelInput room buffer with
    | none => exact hlost none hchain.symm
    | some p =>
      cases message with
      | false => exact hlost (some p) hchain.symm
      | true =>
        obtain ⟨hsound, hfree, -, hcontents⟩ := Channel.trypost_sound h.sound h.free (.inpkt p)
        refine ⟨hsound, hfree, fun _ => rfl, ?_, ?_, hleft, h.sent, h.overrun⟩
        · simp only [underway, Option.toList_none, List.nil_append, if_true, hcontents,
            List.filterMap_append, ← hinOrder, List.append_assoc]
          congr 2
          cases (s.channel.mbox.sysMboxTrypost (.inpkt p)).2 <;> simp [TakenFrame.passed, Message.packet]
        · intro x hx
          simp only [if_true] at hx
          rcases List.mem_append.mp hx with hx | hx
          · exact h.chains x hx
          · rw [List.mem_singleton.mp hx]
            exact hchain.symm

theorem Carried.handleMsg (h : s.Carried) {msg : Option Message} (hhand : s.hand = some msg) (room : ℕ)
    (message : Bool) : { s.handleMsg room message msg with hand := none }.Carried := by
  -- the message goes out of the hand, and its packet to the stack
  have hdone (input : List (List Pbuf))
      (hinput : input = s.input ++ (Message.packet msg).toList) :
      { s with input := input, hand := none }.Carried := by
    refine ⟨h.sound, h.free, fun _ => rfl, ?_, h.chains, h.packets, h.sent, h.overrun⟩
    rw [← h.inOrder, hinput]
    cases hp : Message.packet msg <;> simp [underway, hhand, hp]
  cases msg with
  | none => exact hdone s.input (by simp [Message.packet])
  | some msg =>
    cases msg with
    | other => exact hdone s.input (by simp [Message.packet])
    | inpkt p => exact hdone (s.input ++ [p]) (by simp [Message.packet])
    | ethnetInput => exact h.ethernetifInput hhand room message

theorem fire_carried {e : EthernetEvent} (h : s.Carried) (hroom : s.HasRoom e) (ht : s.fire e = some t) :
    t.Carried := by
  cases e <;> simp only [fire] at ht
  case push frame =>
    split_ifs at ht
    obtain rfl := Option.some.inj ht
    have hpushed := h.dmaPush frame
    exact ⟨hpushed.sound, hpushed.free, hpushed.idle, hpushed.inOrder, hpushed.chains, hpushed.packets,
      hpushed.sent, hpushed.overrun⟩
  case notify =>
    split_ifs at ht
    obtain rfl := Option.some.inj ht
    have hposted := h.trypost .ethnetInput rfl
    exact ⟨hposted.sound, hposted.free, hposted.idle, hposted.inOrder, hposted.chains, hposted.packets,
      hposted.sent, hposted.overrun⟩
  case wait =>
    split_ifs at ht with hhand
    obtain ⟨c, hc, rfl⟩ := Option.map_eq_some_iff.mp ht
    obtain ⟨hsound, hcontents, -, -⟩ := Channel.wait_sound h.sound hc
    rw [Option.isNone_iff_eq_none] at hhand
    refine ⟨hsound, ?_, fun _ => hhand, ?_, h.chains, h.packets, h.sent, h.overrun⟩
    · rw [← Channel.contents_length, hcontents, Channel.contents_length]
      exact h.free
    · simp only [underway, hcontents]
      exact h.inOrder
  case take =>
    obtain ⟨c, hc, rfl⟩ := Option.map_eq_some_iff.mp ht
    obtain ⟨hsound, -, msg, hfetched, hcontents⟩ := Channel.take_sound h.sound hc
    obtain ⟨hfetching, hdone⟩ := Channel.take_fetching hc
    have hlength := congrArg List.length hcontents
    have hfree := h.free
    have hinOrder := h.inOrder
    rw [Channel.contents_length, List.length_cons, Channel.contents_length] at hlength
    -- the message goes from the mailbox into the hand, which was empty
    simp only [underway, h.idle hfetching, hcontents] at hinOrder
    have hfree' : c.stored < maxQueueEntries := by omega
    refine ⟨hsound, hfree', fun hf => absurd (hdone.symm.trans hf) Bool.false_ne_true, ?_, h.chains,
      h.packets, h.sent, h.overrun⟩
    simp only [underway, hfetched, List.getLast?_concat]
    exact hinOrder
  case handle room message =>
    obtain ⟨msg, hhand, rfl⟩ := Option.map_eq_some_iff.mp ht
    exact h.handleMsg hhand room message
  case post =>
    obtain rfl := Option.some.inj ht
    have hlast : s.channel.stored < maxQueueEntries - 1 := hroom
    obtain ⟨hsound, hstored, hcontents⟩ := Channel.posted_sound h.sound h.free Message.other
    refine h.withChannel hsound (by omega) rfl ?_
    rw [hcontents, List.filterMap_append]
    exact List.append_nil _
  case trypost =>
    obtain rfl := Option.some.inj ht
    exact h.trypost .other rfl
  case output p buffer =>
    split_ifs at ht
    · obtain rfl := Option.some.inj ht
      refine ⟨h.sound, h.free, h.idle, h.inOrder, h.chains, h.packets, ?_, ?_⟩
      · simp [lowLevelOutput_eq, h.sent]
      · simp [lowLevelOutput_eq, h.overrun, or_and_right, exists_or]
    · obtain rfl := Option.some.inj ht
      exact h

theorem reach_carried (h : (runs.restrict HasRoom).Reach s) : s.Carried := by
  refine h.invariant (P := Carried) ?_ ?_
  · rintro s rfl
    exact ⟨Channel.new_sound, (by decide : 0 < maxQueueEntries), fun hf => absurd hf Bool.false_ne_true, rfl,
      by simp [start], rfl, rfl, by simp [start]⟩
  · rintro s e t hs ⟨hroom, ht⟩
    exact fire_carried hs hroom ht

/-- The frames whose packets are passed on, one for one and in order. -/
theorem Carried.passed (h : s.Carried) :
    List.Forall₂ (fun x p => Holds (x.frame.take (u16 x.frame.length)) p)
      (s.taken.filter fun x => x.passed.isSome) (s.input ++ s.underway) := by
  rw [h.inOrder]
  have hchains := h.chains
  generalize s.taken = taken at hchains
  induction taken with
  | nil => exact .nil
  | cons x taken ih =>
    have htail := ih fun y hy => hchains y (List.mem_cons_of_mem _ hy)
    cases hp : x.passed with
    | none =>
      rw [List.filter_cons_of_neg (by simp [hp]), List.filterMap_cons_none hp]
      exact htail
    | some p =>
      rw [List.filter_cons_of_pos (by simp [hp]), List.filterMap_cons_some hp]
      refine .cons (@lowLevelInput_holds x.room _ _ ?_) htail
      rw [← hchains x List.mem_cons_self]
      unfold TakenFrame.passed at hp
      split_ifs at hp
      exact hp

/-- In every run in which no other module posts to the last free slot of the mailbox: the frames that went
into the queue come out in order; those that were passed on are, in the same order and byte for byte, the
packets that the stack got and those on their way, unless a frame is longer than 16 bits can tell; there is no
packet of a frame only for want of pbufs. As many copies are in memory as there are frames in the
queue and frames that found it full. What goes to the adapter is what the stack sent. -/
theorem frames_carried (h : (runs.restrict HasRoom).Reach s) :
    FrameQueue.runs.Reach s.frames ∧
    s.pushed = s.taken.map TakenFrame.frame ++ s.gDmaQueue ∧
    List.Forall₂ (fun x p => Holds (x.frame.take (u16 x.frame.length)) p)
      (s.taken.filter fun x => x.passed.isSome) (s.input ++ s.underway) ∧
    (∀ x ∈ s.taken, x.chain = none ↔ x.room = 0 ∨ x.room * pbufPoolBufsize < u16 x.frame.length) ∧
    s.packets = s.gDmaQueue.length + s.dropped ∧
    s.sent = s.output.map chainBytes ∧
    (s.overrun = true ↔ ∃ p ∈ s.output, nicBufferSize < (chainBytes p).length) := by
  have hcarried := reach_carried h
  have hframes := reach_frames h.of_restrict
  refine ⟨hframes, (FrameQueue.reach_queue hframes).2, hcarried.passed, fun x hx => ?_, hcarried.packets,
    hcarried.sent, hcarried.overrun⟩
  rw [hcarried.chains x hx, lowLevelInput, Option.map_eq_none_iff, ← Option.not_isSome_iff_eq_none,
    allocPool_some]
  omega

/-- The events, one after the other. -/
def play (s : Ethernet) : List EthernetEvent → Option Ethernet
  | [] => some s
  | e :: es => (s.fire e).bind fun t => t.play es

theorem reach_play {es : List EthernetEvent} (hs : (runs.restrict HasRoom).Reach s)
    (hroom : ∀ e ∈ es, ∀ s, HasRoom s e) (ht : s.play es = some t) : (runs.restrict HasRoom).Reach t := by
  induction es generalizing s with
  | nil => exact Option.some.inj ht ▸ hs
  | cons e es ih =>
    obtain ⟨u, hu, ht⟩ := Option.bind_eq_some_iff.mp ht
    have hstep := hs.step e ⟨hroom e List.mem_cons_self s, hu⟩
    exact ih hstep (fun e he => hroom e (List.mem_cons_of_mem _ he)) ht

@[irreducible] def oneFrame : List EthernetEvent :=
  [.push (List.replicate 900 7), .notify, .wait, .take, .handle 2 true, .wait, .take, .handle 0 true,
    .output [⟨[1, 2], 3⟩, ⟨[3], 1⟩] true]

/-- A frame of 900 bytes comes as two pbufs, and two pbufs go as one frame. -/
theorem frames_carried_frame : ∃ s : Ethernet,
    List.Forall₂ (fun x p => Holds (x.frame.take (u16 x.frame.length)) p)
      (s.taken.filter fun x => x.passed.isSome) (s.input ++ s.underway) ∧
    s.input.map List.length = [2] ∧ s.sent = [[1, 2, 3]] := by
  have hrun : (start.play oneFrame).isSome ∧
      ∀ s ∈ start.play oneFrame, s.input.map List.length = [2] ∧ s.output.map chainBytes = [[1, 2, 3]] := by
    decide +kernel
  obtain ⟨s, hs⟩ := Option.isSome_iff_exists.mp hrun.1
  have hroom : ∀ e ∈ oneFrame, ∀ s, HasRoom s e := by
    unfold oneFrame
    simp only [List.forall_mem_cons, HasRoom, implies_true, true_and, List.not_mem_nil, false_implies]
  obtain ⟨-, -, hpassed, -, -, hsent, -⟩ := frames_carried (reach_play (.init rfl) hroom hs)
  obtain ⟨hinput, houtput⟩ := hrun.2 s hs
  exact ⟨s, hpassed, hinput, hsent.trans houtput⟩

end Ethernet

end StraightHttpd
