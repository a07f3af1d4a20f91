import StraightHttpd.Port.Mailbox

/-! # Captured frames (`straight-httpd.c`, `lwip_api.c`, `ethernetif.c`)

The capture thread puts a frame into `g_dmaQueue` and then posts an `ETHNET_INPUT` message. The lwip
thread takes one frame for each of these messages. Its mailbox carries other messages, too.
-/

set_option autoImplicit false

namespace StraightHttpd
open Ring

def maxDmaQueue : ℕ := 1024 -- MAX_DMA_QUEUE

/-- The types of the messages for the lwip thread, as far as the frames depend on them. -/
inductive TcpipMsg
  | ethnetInput
  | inpkt
  | other
  deriving DecidableEq, Repr

/-- `g_dmaQueue` and `g_qLength`, the mailbox `tcpip_mbox`, and where the two threads are: `capturing`
between `DMA_push` and `NotifyFromEthISR`, `hand` the message that the lwip thread has fetched and not
handled yet. `pushed` and `popped` are the frames that went into the queue and came out. -/
structure FrameQueue (φ : Type) where
  gDmaQueue : List φ
  gQLength : ℤ
  channel : Channel TcpipMsg
  capturing : Bool
  hand : Option (Option TcpipMsg)
  pushed : List φ
  popped : List φ

/-- What the threads do. A fetch that times out changes nothing. -/
inductive FrameEvent (φ : Type)
  | push (frame : φ)
  | notify
  | wait
  | take
  | input
  | handle
  | post (msg : TcpipMsg)
  | trypost (msg : TcpipMsg)

namespace FrameQueue

variable {φ : Type}

def start : FrameQueue φ where
  gDmaQueue := []
  gQLength := 0
  channel := Channel.new
  capturing := false
  hand := none
  pushed := []
  popped := []

/-- `DMA_push`, the part under the lock: a frame that finds the queue full is dropped. -/
def dmaPush (s : FrameQueue φ) (frame : φ) : FrameQueue φ :=
  if s.gQLength < maxDmaQueue then
    { s with
      gQLength := s.gQLength + 1
      gDmaQueue := s.gDmaQueue ++ [frame]
      pushed := s.pushed ++ [frame] }
  else s

/-- `NotifyFromEthISR`: whether the message was accepted is not looked at. -/
def notifyFromEthISR (s : FrameQueue φ) : FrameQueue φ :=
  { s with channel := s.channel.trypost .ethnetInput }

/-- `DMA_pop` -/
def dmaPop (s : FrameQueue φ) : FrameQueue φ :=
  match s.gDmaQueue with
  | [] => s
  | frame :: rest =>
    { s with gDmaQueue := rest, gQLength := s.gQLength - 1, popped := s.popped ++ [frame] }

/-- The effect of an event, if it can happen. `input` and `handle` are what the lwip thread does with
the message in its hand; it and others may post messages of their own at any time. -/
def fire (s : FrameQueue φ) : FrameEvent φ → Option (FrameQueue φ)
  | .push frame => if s.capturing then none else some { s.dmaPush frame with capturing := true }
  | .notify => if s.capturing then some { s.notifyFromEthISR with capturing := false } else none
  | .wait =>
    if s.hand = none then s.channel.wait.map fun c => { s with channel := c } else none
  | .take =>
    s.channel.take.map fun c => { s with channel := c, hand := c.fetched.getLast? }
  | .input => if s.hand = some (some .ethnetInput) then some { s.dmaPop with hand := none } else none
  | .handle => if s.hand = some (some .ethnetInput) then none else some { s with hand := none }
  | .post msg => if msg = .ethnetInput then none else some { s with channel := s.channel.post msg }
  | .trypost msg =>
    if msg = .ethnetInput then none else some { s with channel := s.channel.trypost msg }

def runs : RunSystem (FrameQueue φ) (FrameEvent φ) where
  init s := s = start
  step s e s' := s.fire e = some s'

/-- The `ETHNET_INPUT` messages: those in the mailbox, and the one in the hand of the lwip thread. -/
def wakeUps (s : FrameQueue φ) : ℕ :=
  s.channel.contents.count (some .ethnetInput) + if s.hand = some (some .ethnetInput) then 1 else 0

/-- No captured frame is left without a wake-up. -/
def Woken (s : FrameQueue φ) : Prop := s.capturing = false → s.gDmaQueue.length ≤ s.wakeUps

/-- `g_qLength` is the length of the queue, which is bounded. -/
def Bounded (s : FrameQueue φ) : Prop :=
  s.gQLength = s.gDmaQueue.length ∧ s.gDmaQueue.length ≤ maxDmaQueue

/-- Frames come out in the order in which they went in. -/
def InOrder (s : FrameQueue φ) : Prop := s.pushed = s.popped ++ s.gDmaQueue

/-- A notification is accepted, and no other message is posted into a full mailbox. -/
def HasRoom (s : FrameQueue φ) : FrameEvent φ → Prop
  | .notify => s.channel.stored < maxQueueEntries - 1
  | .post _ | .trypost _ => s.channel.stored < maxQueueEntries
  | _ => True

/-! ## The queue -/

theorem dmaPush_queue {s : FrameQueue φ} (h : s.Bounded ∧ s.InOrder) (frame : φ) :
    (s.dmaPush frame).Bounded ∧ (s.dmaPush frame).InOrder := by
  obtain ⟨⟨hlength, hmax⟩, horder⟩ := h
  unfold dmaPush
  split_ifs with hroom
  · refine ⟨⟨?_, ?_⟩, ?_⟩
    · change s.gQLength + 1 = ((s.gDmaQueue ++ [frame]).length : ℤ)
      simp [hlength]
    · change (s.gDmaQueue ++ [frame]).length ≤ maxDmaQueue
      rw [List.length_append, List.length_singleton]
      omega
    · change s.pushed ++ [frame] = s.popped ++ (s.gDmaQueue ++ [frame])
      rw [horder, List.append_assoc]
  · exact ⟨⟨hlength, hmax⟩, horder⟩

theorem dmaPop_queue {s : FrameQueue φ} (h : s.Bounded ∧ s.InOrder) :
    s.dmaPop.Bounded ∧ s.dmaPop.InOrder := by
  obtain ⟨⟨hlength, hmax⟩, horder⟩ := h
  unfold dmaPop
  split
  · exact ⟨⟨hlength, hmax⟩, horder⟩
  next frame rest hq =>
    rw [hq, List.length_cons] at hlength hmax
    refine ⟨⟨?_, ?_⟩, ?_⟩
    · change s.gQLength - 1 = (rest.length : ℤ)
      rw [hlength]
      omega
    · exact Nat.le_of_succ_le hmax
    · change s.pushed = s.popped ++ [frame] ++ rest
      rw [horder, hq, List.append_assoc]
      rfl

/-- Whatever becomes of the notifications, the queue is bounded and in order. -/
theorem fire_queue {s t : FrameQueue φ} {e : FrameEvent φ} (h : s.Bounded ∧ s.InOrder)
    (ht : s.fire e = some t) : t.Bounded ∧ t.InOrder := by
  cases e <;> simp only [fire] at ht
  case push frame =>
    split_ifs at ht
    obtain rfl := Option.some.inj ht
    exact dmaPush_queue h frame
  case input =>
    split_ifs at ht
    obtain rfl := Option.some.inj ht
    exact dmaPop_queue h
  case wait =>
    split_ifs at ht
    obtain ⟨c, -, rfl⟩ := Option.map_eq_some_iff.mp ht
    exact h
  case take =>
    obtain ⟨c, -, rfl⟩ := Option.map_eq_some_iff.mp ht
    exact h
  all_goals
    split_ifs at ht
    obtain rfl := Option.some.inj ht
    exact h

theorem reach_queue {s : FrameQueue φ} (h : runs.Reach s) : s.Bounded ∧ s.InOrder := by
  refine h.invariant (P := fun s => s.Bounded ∧ s.InOrder) ?_ ?_
  · rintro s rfl
    exact ⟨⟨rfl, Nat.zero_le _⟩, rfl⟩
  · intro s e t hs ht
    exact fire_queue hs ht

/-! ## The wake-ups -/

/-- There are as many wake-ups as frames, but for the frame that is being captured. -/
structure Counted (s : FrameQueue φ) : Prop where
  sound : s.channel.Sound
  woken : s.gDmaQueue.length ≤ s.wakeUps + if s.capturing then 1 else 0
  idle : s.channel.fetching = true → s.hand = none

theorem dmaPush_length (s : FrameQueue φ) (frame : φ) :
    (s.dmaPush frame).gDmaQueue.length ≤ s.gDmaQueue.length + 1 := by
  unfold dmaPush
  split_ifs
  · exact (List.length_append ..).le
  · exact Nat.le_succ _

theorem dmaPop_length (s : FrameQueue φ) : s.dmaPop.gDmaQueue.length = s.gDmaQueue.length - 1 := by
  unfold dmaPop
  split
  next hq => rw [hq]; rfl
  next hq => rw [hq]; rfl

theorem dmaPush_threads (s : FrameQueue φ) (frame : φ) :
    (s.dmaPush frame).channel = s.channel ∧ (s.dmaPush frame).hand = s.hand := by
  unfold dmaPush
  split_ifs <;> exact ⟨rfl, rfl⟩

theorem dmaPop_threads (s : FrameQueue φ) :
    s.dmaPop.channel = s.channel ∧ s.dmaPop.capturing = s.capturing := by
  unfold dmaPop
  split <;> exact ⟨rfl, rfl⟩

/-- A message behind the stored ones. -/
theorem counted_post {s : FrameQueue φ} (h : s.Counted) (msg : TcpipMsg)
    (hroom : s.channel.stored < maxQueueEntries) :
    (s.channel.post msg).Sound ∧
      (s.channel.post msg).contents.count (some .ethnetInput) =
        s.channel.contents.count (some .ethnetInput) + if msg = .ethnetInput then 1 else 0 := by
  obtain ⟨hsound, -, hcontents⟩ := Channel.posted_sound h.sound hroom msg
  refine ⟨hsound, ?_⟩
  rw [hcontents, List.count_append, List.count_singleton]
  simp

theorem fire_counted {s t : FrameQueue φ} {e : FrameEvent φ} (h : s.Counted) (hroom : s.HasRoom e)
    (ht : s.fire e = some t) : t.Counted := by
  have hwoken := h.woken
  unfold wakeUps at hwoken
  cases e <;> simp only [fire] at ht
  case push frame =>
    split_ifs at ht with hcapturing
    obtain rfl := Option.some.inj ht
    obtain ⟨hchannel, hhand⟩ := dmaPush_threads s frame
    have hlength := dmaPush_length s frame
    refine ⟨?_, ?_, ?_⟩ <;> simp only [wakeUps, hchannel, hhand]
    · exact h.sound
    · rw [if_neg hcapturing] at hwoken
      simp only [if_true]
      omega
    · exact h.idle
  case notify =>
    split_ifs at ht with hcapturing
    obtain rfl := Option.some.inj ht
    have hstored : s.channel.stored < maxQueueEntries - 1 := hroom
    have hpost : s.channel.trypost .ethnetInput = s.channel.post .ethnetInput := by
      rw [Channel.trypost_eq h.sound, if_neg (by omega)]
    obtain ⟨hsound, hcount⟩ := counted_post h .ethnetInput (by omega)
    refine ⟨?_, ?_, ?_⟩ <;> simp only [wakeUps, notifyFromEthISR, hpost]
    · exact hsound
    · rw [if_pos hcapturing] at hwoken
      rw [hcount]
      simp only [if_true, Bool.false_eq_true, if_false]
      omega
    · exact h.idle
  case wait =>
    split_ifs at ht with hhand
    obtain ⟨c, hc, rfl⟩ := Option.map_eq_some_iff.mp ht
    obtain ⟨hsound, hcontents, -, -⟩ := Channel.wait_sound h.sound hc
    refine ⟨hsound, ?_, fun _ => hhand⟩
    simp only [wakeUps, hcontents]
    exact hwoken
  case take =>
    obtain ⟨c, hc, rfl⟩ := Option.map_eq_some_iff.mp ht
    obtain ⟨hsound, -, msg, hfetched, hcontents⟩ := Channel.take_sound h.sound hc
    obtain ⟨hfetching, hdone⟩ := Channel.take_fetching hc
    -- the message goes from the mailbox into the hand, which was empty
    rw [h.idle hfetching, hcontents, List.count_cons] at hwoken
    refine ⟨hsound, ?_, fun hf => absurd (hdone.symm.trans hf) Bool.false_ne_true⟩
    simp only [wakeUps, hfetched, List.getLast?_concat, Option.some.injEq]
    simpa using hwoken
  case input =>
    split_ifs at ht with hhand
    obtain rfl := Option.some.inj ht
    obtain ⟨hchannel, hcapturing⟩ := dmaPop_threads s
    rw [if_pos hhand] at hwoken
    refine ⟨?_, ?_, fun _ => rfl⟩ <;> simp only [wakeUps, hchannel, hcapturing, dmaPop_length]
    · exact h.sound
    · rw [if_neg (by simp)]
      omega
  case handle =>
    split_ifs at ht with hhand
    obtain rfl := Option.some.inj ht
    rw [if_neg hhand] at hwoken
    exact ⟨h.sound, hwoken, fun _ => rfl⟩
  case post msg =>
    split_ifs at ht with hmsg
    obtain rfl := Option.some.inj ht
    obtain ⟨hsound, hcount⟩ := counted_post h msg hroom
    rw [if_neg hmsg] at hcount
    refine ⟨hsound, ?_, h.idle⟩
    simp only [wakeUps, hcount]
    exact hwoken
  case trypost msg =>
    split_ifs at ht with hmsg
    obtain rfl := Option.some.inj ht
    rw [Channel.trypost_eq h.sound msg]
    split_ifs
    · exact ⟨h.sound, hwoken, h.idle⟩
    obtain ⟨hsound, hcount⟩ := counted_post h msg hroom
    rw [if_neg hmsg] at hcount
    refine ⟨hsound, ?_, h.idle⟩
    simp only [wakeUps, hcount]
    exact hwoken

/-- In every run in which the messages find room in the mailbox, no captured frame is left without a
wake-up. -/
theorem frame_wakeups {s : FrameQueue φ} (h : (runs.restrict HasRoom).Reach s) :
    s.Woken ∧ s.Bounded ∧ s.InOrder := by
  have hcounted : s.Counted := by
    refine h.invariant (P := Counted) ?_ ?_
    · rintro s rfl
      exact ⟨Channel.new_sound, Nat.zero_le _, fun hf => by cases hf⟩
    · rintro s e t hs ⟨hroom, ht⟩
      exact fire_counted hs hroom ht
  refine ⟨fun hcapturing => ?_, reach_queue h.of_restrict⟩
  have hwoken := hcounted.woken
  rw [hcapturing] at hwoken
  exact hwoken

theorem frame_wakeups_pop : ∃ s : FrameQueue ℕ, (s.Woken ∧ s.Bounded ∧ s.InOrder) ∧
    s.gDmaQueue = [2] ∧ s.popped = [1] := by
  let start : FrameQueue ℕ := start
  let s₁ := { start.dmaPush 1 with capturing := true }
  let s₂ := { s₁.notifyFromEthISR with capturing := false }
  let s₃ := { s₂.dmaPush 2 with capturing := true }
  let s₄ := { s₃.notifyFromEthISR with capturing := false }
  obtain ⟨c₅, h₅⟩ : ∃ c, s₄.channel.wait = some c := ⟨_, rfl⟩
  obtain ⟨c₆, h₆⟩ : ∃ c, c₅.take = some c := by
    cases h₅
    exact ⟨_, rfl⟩
  let s₅ := { s₄ with channel := c₅ }
  let s₆ := { s₅ with channel := c₆, hand := c₆.fetched.getLast? }
  have hhand : s₆.hand = some (some .ethnetInput) := by
    cases h₅
    cases h₆
    rfl
  let s₇ := { s₆.dmaPop with hand := none }
  have hcaptured : (runs.restrict HasRoom).Reach s₄ := by
    refine .step .notify (.step (.push 2) (.step .notify (.step (.push 1) (.init rfl) ⟨trivial, rfl⟩)
      ⟨?_, rfl⟩) ⟨trivial, rfl⟩) ⟨?_, rfl⟩
    · exact (by decide : (0 : ℕ) < 511)
    · exact (by decide : (1 : ℕ) < 511)
  have hwait : s₄.fire .wait = some s₅ := by
    change s₄.channel.wait.map (fun c => { s₄ with channel := c }) = some s₅
    rw [h₅]
    rfl
  have htake : s₅.fire .take = some s₆ := by
    change c₅.take.map (fun c => { s₅ with channel := c, hand := c.fetched.getLast? }) = some s₆
    rw [h₆]
    rfl
  have hinput : s₆.fire .input = some s₇ := if_pos hhand
  have hreach : (runs.restrict HasRoom).Reach s₇ :=
    .step .input (.step .take (.step .wait hcaptured ⟨trivial, hwait⟩) ⟨trivial, htake⟩)
      ⟨trivial, hinput⟩
  exact ⟨s₇, frame_wakeups hreach, rfl, rfl⟩

/-- Frames can be captured while the lwip thread does nothing: the mailbox accepts all messages but the
one for its last slot. -/
theorem reach_captured (n : ℕ) (hn : n ≤ maxDmaQueue) : ∃ s : FrameQueue ℕ, runs.Reach s ∧
    s.gDmaQueue.length = n ∧ s.capturing = false ∧ s.hand = none ∧ s.channel.Sound ∧
    s.channel.stored ≤ maxQueueEntries - 1 := by
  induction n with
  | zero => exact ⟨start, .init rfl, rfl, rfl, rfl, Channel.new_sound, Nat.zero_le _⟩
  | succ n ih =>
    obtain ⟨s, hs, hlength, hcapturing, hhand, hsound, hstored⟩ := ih (by omega)
    have hroom : s.gQLength < maxDmaQueue := by
      rw [(reach_queue hs).1.1, hlength]
      exact_mod_cast hn
    let s₁ : FrameQueue ℕ := { s.dmaPush 0 with capturing := true }
    have hpush : s.fire (.push 0) = some s₁ := by
      simp only [fire, hcapturing, Bool.false_eq_true, if_false]
      rfl
    have hlength₁ : s₁.gDmaQueue.length = n + 1 := by
      change (s.dmaPush 0).gDmaQueue.length = n + 1
      unfold dmaPush
      rw [if_pos hroom, List.length_append, hlength]
      rfl
    obtain ⟨hchannel, hhand₁⟩ := dmaPush_threads s 0
    refine ⟨{ s₁.notifyFromEthISR with capturing := false },
      .step .notify (.step (.push 0) hs hpush) rfl, hlength₁, rfl, hhand₁.trans hhand, ?_⟩
    change ((s.dmaPush 0).channel.trypost .ethnetInput).Sound ∧
      ((s.dmaPush 0).channel.trypost .ethnetInput).stored ≤ maxQueueEntries - 1
    rw [hchannel, Channel.trypost_eq hsound]
    split_ifs with hfull
    · exact ⟨hsound, hstored⟩
    · obtain ⟨hsound', hstored', -⟩ := Channel.posted_sound hsound (by omega) TcpipMsg.ethnetInput
      exact ⟨hsound', by omega⟩

/-- As many frames as the mailbox has slots. -/
theorem frame_wakeups_fails :
    ¬ ∀ s : FrameQueue ℕ, runs.Reach s → s.Woken ∧ s.Bounded ∧ s.InOrder := by
  intro h
  obtain ⟨s, hs, hlength, hcapturing, hhand, -, hstored⟩ := reach_captured maxQueueEntries (by decide)
  have hwoken := (h s hs).1 hcapturing
  have hcount : s.channel.contents.count (some .ethnetInput) ≤ s.channel.stored := by
    refine List.count_le_length.trans_eq ?_
    exact window_length ..
  unfold wakeUps at hwoken
  rw [hlength, hhand, if_neg (by simp)] at hwoken
  have hpos : 0 < maxQueueEntries := by decide
  omega

end FrameQueue

end StraightHttpd
