import StraightHttpd.Lib.Ring
import StraightHttpd.Lib.Runs

/-! # Mailboxes (`sys_arch.c`)

A mailbox is a ring of pointers and a semaphore that counts the messages. `sys_mbox_post` and
`sys_mbox_trypost` run under the lock of `SYS_ARCH_PROTECT`; a fetch waits for the semaphore first and
takes the message under the lock later, and other threads may post in between.
-/

set_option autoImplicit false

namespace StraightHttpd
open Ring

def maxQueueEntries : ℕ := 512 -- MAX_QUEUE_ENTRIES

/-- `struct lwip_mbox`; a slot of `q_mem` that was never written is NULL. -/
structure Mbox (α : Type) where
  sem : ℕ
  qMem : ℕ → Option α
  head : ℕ
  tail : ℕ

namespace Mbox

variable {α : Type}

/-- `ReleaseSemaphore(q->sem, 1, 0)`: refused beyond the maximum. -/
def releaseSemaphore (q : Mbox α) : Mbox α :=
  { q with sem := if q.sem < maxQueueEntries then q.sem + 1 else q.sem }

/-- `sys_mbox_new` -/
def sysMboxNew : Mbox α := { sem := 0, qMem := fun _ => none, head := 0, tail := 0 }

/-- `sys_mbox_post` -/
def sysMboxPost (q : Mbox α) (msg : α) : Mbox α :=
  let head := q.head + 1
  { q with
    qMem := Function.update q.qMem q.head (some msg)
    head := if head ≥ maxQueueEntries then 0 else head }.releaseSemaphore

/-- `sys_mbox_trypost`: whether the message was accepted. -/
def sysMboxTrypost (q : Mbox α) (msg : α) : Mbox α × Bool :=
  let newHead := q.head + 1
  let newHead := if newHead ≥ maxQueueEntries then 0 else newHead
  if newHead = q.tail then (q, false)
  else
    ({ q with
      qMem := Function.update q.qMem q.head (some msg)
      head := newHead }.releaseSemaphore, true)

/-- `WaitForSingleObject(q->sem, timeout)` in the fetches: none when it times out. -/
def waitForMessage (q : Mbox α) : Option (Mbox α) :=
  if q.sem = 0 then none else some { q with sem := q.sem - 1 }

/-- The rest of `sys_arch_mbox_fetch` and `sys_arch_mbox_tryfetch`. -/
def takeMessage (q : Mbox α) : Mbox α × Option α :=
  let tail := q.tail + 1
  ({ q with tail := if tail ≥ maxQueueEntries then 0 else tail }, q.qMem q.tail)

end Mbox

/-! ## Runs -/

/-- What happens on a mailbox. A fetch that times out or finds it empty changes nothing. -/
inductive MboxEvent (α : Type)
  | post (msg : α)
  | trypost (msg : α)
  | wait
  | take

/-- A mailbox with its fetching thread, which has been let through by the semaphore or not, what was
posted without an error, and what was fetched. -/
structure Channel (α : Type) where
  mbox : Mbox α
  fetching : Bool
  posted : List α
  fetched : List (Option α)

namespace Channel

variable {α : Type}

def new : Channel α := { mbox := .sysMboxNew, fetching := false, posted := [], fetched := [] }

/-- The number of messages in the mailbox: the semaphore, and the one that is being fetched. -/
def stored (s : Channel α) : ℕ := s.mbox.sem + if s.fetching then 1 else 0

/-- The messages from `tail` on. -/
def contents (s : Channel α) : List (Option α) :=
  window maxQueueEntries s.mbox.qMem s.mbox.tail s.stored

def post (s : Channel α) (msg : α) : Channel α :=
  { s with mbox := s.mbox.sysMboxPost msg, posted := s.posted ++ [msg] }

def trypost (s : Channel α) (msg : α) : Channel α :=
  match s.mbox.sysMboxTrypost msg with
  | (q, true) => { s with mbox := q, posted := s.posted ++ [msg] }
  | (q, false) => { s with mbox := q }

/-- The fetching thread is let through. -/
def wait (s : Channel α) : Option (Channel α) :=
  if s.fetching then none else s.mbox.waitForMessage.map fun q => { s with mbox := q, fetching := true }

def take (s : Channel α) : Option (Channel α) :=
  if s.fetching then
    let (q, msg) := s.mbox.takeMessage
    some { s with mbox := q, fetching := false, fetched := s.fetched ++ [msg] }
  else none

/-- The effect of an event, if it can happen. -/
def fire (s : Channel α) : MboxEvent α → Option (Channel α)
  | .post msg => some (s.post msg)
  | .trypost msg => some (s.trypost msg)
  | .wait => s.wait
  | .take => s.take

def runs : RunSystem (Channel α) (MboxEvent α) where
  init s := s = new
  step s e s' := s.fire e = some s'

/-- What was fetched is a prefix of what was posted, and the rest is what is stored from `tail` on. -/
def Faithful (s : Channel α) : Prop := s.posted.map some = s.fetched ++ s.contents

/-- No message is posted while every slot holds one that has not been fetched. -/
def HasRoom (s : Channel α) : MboxEvent α → Prop
  | .post _ | .trypost _ => s.stored < maxQueueEntries
  | _ => True

/-! ## The invariant -/

/-- The head is behind the stored messages. -/
structure Sound (s : Channel α) : Prop where
  tail : s.mbox.tail < maxQueueEntries
  head : s.mbox.head = (s.mbox.tail + s.stored) % maxQueueEntries
  stored : s.stored ≤ maxQueueEntries

theorem new_sound : Sound (new : Channel α) := ⟨(by decide : 0 < maxQueueEntries), rfl, Nat.zero_le _⟩

/-- A message that finds room goes behind the stored ones. -/
theorem posted_sound {s : Channel α} (h : Sound s) (hroom : s.stored < maxQueueEntries) (msg : α) :
    Sound (s.post msg) ∧ (s.post msg).stored = s.stored + 1 ∧
      (s.post msg).contents = s.contents ++ [some msg] := by
  have hsem : s.mbox.sem < maxQueueEntries := by
    unfold stored at hroom
    omega
  have hstored : (s.post msg).stored = s.stored + 1 := by
    simp only [stored, post, Mbox.sysMboxPost, Mbox.releaseSemaphore, if_pos hsem]
    omega
  have hhead : s.mbox.head < maxQueueEntries := by
    rw [h.head]
    exact Nat.mod_lt _ (by decide)
  refine ⟨⟨h.tail, ?_, ?_⟩, hstored, ?_⟩
  · rw [hstored]
    change next maxQueueEntries s.mbox.head = (s.mbox.tail + (s.stored + 1)) % maxQueueEntries
    rw [next_eq hhead, h.head, Nat.mod_add_mod, Nat.add_assoc]
  · rw [hstored]
    omega
  · unfold contents
    rw [hstored]
    change window maxQueueEntries (Function.update s.mbox.qMem s.mbox.head (some msg)) s.mbox.tail
      (s.stored + 1) = _
    rw [h.head, window_push _ _ hroom]

/-- `sys_mbox_trypost` refuses a message when one slot is left, and does the same as `sys_mbox_post`
otherwise. -/
theorem trypost_eq {s : Channel α} (h : Sound s) (msg : α) :
    s.trypost msg = if s.stored = maxQueueEntries - 1 then s else s.post msg := by
  have hhead : s.mbox.head < maxQueueEntries := by
    rw [h.head]
    exact Nat.mod_lt _ (by decide)
  have hnext : next maxQueueEntries s.mbox.head = s.mbox.tail ↔ s.stored = maxQueueEntries - 1 := by
    have htail := h.tail
    have hle := h.stored
    rw [next_eq hhead, h.head, Nat.mod_add_mod]
    unfold maxQueueEntries at *
    omega
  unfold trypost Mbox.sysMboxTrypost
  simp only
  by_cases he : next maxQueueEntries s.mbox.head = s.mbox.tail
  · rw [if_pos (hnext.mp he)]
    unfold next at he
    rw [if_pos he]
  · rw [if_neg fun hs => he (hnext.mpr hs)]
    unfold next at he
    rw [if_neg he]
    rfl

/-- A thread that is let through has not taken its message yet. -/
theorem wait_sound {s t : Channel α} (h : Sound s) (hw : s.wait = some t) :
    Sound t ∧ t.contents = s.contents ∧ t.posted = s.posted ∧ t.fetched = s.fetched := by
  unfold wait Mbox.waitForMessage at hw
  split_ifs at hw with hf hs
  · cases hw
  · obtain rfl := Option.some.inj hw
    have hstored : s.mbox.sem - 1 + 1 = s.stored := by
      unfold stored
      rw [if_neg hf]
      omega
    refine ⟨⟨h.tail, ?_, ?_⟩, ?_, rfl, rfl⟩
    · change s.mbox.head = (s.mbox.tail + (s.mbox.sem - 1 + 1)) % maxQueueEntries
      rw [hstored]
      exact h.head
    · change s.mbox.sem - 1 + 1 ≤ maxQueueEntries
      rw [hstored]
      exact h.stored
    · change window maxQueueEntries s.mbox.qMem s.mbox.tail (s.mbox.sem - 1 + 1) = _
      rw [hstored]
      rfl

theorem take_fetching {s t : Channel α} (ht : s.take = some t) :
    s.fetching = true ∧ t.fetching = false := by
  unfold take at ht
  split_ifs at ht with hf
  obtain rfl := Option.some.inj ht
  exact ⟨hf, rfl⟩

/-- The first of the stored messages is taken. -/
theorem take_sound {s t : Channel α} (h : Sound s) (ht : s.take = some t) :
    Sound t ∧ t.posted = s.posted ∧
      ∃ msg, t.fetched = s.fetched ++ [msg] ∧ s.contents = msg :: t.contents := by
  unfold take Mbox.takeMessage at ht
  split_ifs at ht with hf
  obtain rfl := Option.some.inj ht
  have hstored : s.stored = s.mbox.sem + 1 := by
    unfold stored
    rw [if_pos hf]
  have hhead := h.head
  have hle := h.stored
  rw [hstored] at hhead hle
  refine ⟨⟨next_lt h.tail, ?_, ?_⟩, rfl, _, rfl, ?_⟩
  · change s.mbox.head = (next maxQueueEntries s.mbox.tail + s.mbox.sem) % maxQueueEntries
    rw [hhead, next_eq h.tail, Nat.mod_add_mod]
    congr 1
    omega
  · change s.mbox.sem ≤ maxQueueEntries
    omega
  · unfold contents
    rw [hstored, window_cons _ h.tail]
    rfl

/-- Every event that finds room keeps the order. -/
theorem fire_faithful {s t : Channel α} {e : MboxEvent α} (h : Sound s) (hs : Faithful s)
    (hroom : s.HasRoom e) (ht : s.fire e = some t) : Sound t ∧ Faithful t := by
  have hpost (hr : s.stored < maxQueueEntries) (msg : α) : Sound (s.post msg) ∧ Faithful (s.post msg) := by
    obtain ⟨hsound, -, hcontents⟩ := posted_sound h hr msg
    refine ⟨hsound, ?_⟩
    change (s.posted ++ [msg]).map some = s.fetched ++ (s.post msg).contents
    rw [hcontents, List.map_append, hs, List.append_assoc]
    rfl
  cases e with
  | post msg =>
    obtain rfl := Option.some.inj ht
    exact hpost hroom msg
  | trypost msg =>
    obtain rfl := Option.some.inj ht
    rw [trypost_eq h msg]
    split_ifs
    · exact ⟨h, hs⟩
    · exact hpost hroom msg
  | wait =>
    obtain ⟨hsound, hcontents, hposted, hfetched⟩ := wait_sound h ht
    refine ⟨hsound, ?_⟩
    rw [Faithful, hcontents, hposted, hfetched]
    exact hs
  | take =>
    obtain ⟨hsound, hposted, msg, hfetched, hcontents⟩ := take_sound h ht
    refine ⟨hsound, ?_⟩
    rw [Faithful, hposted, hfetched, List.append_assoc, List.singleton_append, ← hcontents]
    exact hs

/-- In every run in which each message that is posted finds a free slot, a mailbox is a FIFO channel. -/
theorem mailbox_fifo {s : Channel α} (h : (runs.restrict HasRoom).Reach s) : s.Faithful := by
  have hboth : Sound s ∧ Faithful s := by
    refine h.invariant (P := fun s => Sound s ∧ Faithful s) ?_ ?_
    · rintro s rfl
      exact ⟨new_sound, rfl⟩
    · rintro s e t ⟨hsound, hs⟩ ⟨hroom, ht⟩
      exact fire_faithful hsound hs hroom ht
  exact hboth.2

theorem mailbox_fifo_two :
    ∃ s : Channel ℕ, s.Faithful ∧ s.posted = [1, 2] ∧ s.fetched = [some 1] := by
  let s₁ : Channel ℕ := Channel.new.post 1
  let s₂ : Channel ℕ := s₁.trypost 2
  obtain ⟨s₃, h₃⟩ : ∃ s₃, s₂.wait = some s₃ := ⟨_, rfl⟩
  obtain ⟨s₄, h₄⟩ : ∃ s₄, s₃.take = some s₄ := by
    cases h₃
    exact ⟨_, rfl⟩
  have hreach : ((runs : RunSystem (Channel ℕ) _).restrict HasRoom).Reach s₄ := by
    refine .step .take (.step .wait (.step (.trypost 2) (.step (.post 1) (.init rfl) ⟨?_, rfl⟩)
      ⟨?_, rfl⟩) ⟨trivial, h₃⟩) ⟨trivial, h₄⟩
    · exact (by decide : (0 : ℕ) < 512)
    · exact (by decide : (1 : ℕ) < 512)
  refine ⟨s₄, mailbox_fifo hreach, ?_, ?_⟩ <;> cases h₃ <;> cases h₄ <;> rfl

/-- Any number of messages can be posted while nothing is fetched. -/
theorem reach_posts (n : ℕ) : ∃ s : Channel ℕ, runs.Reach s ∧ s.posted.length = n ∧ s.fetched = [] ∧
    s.fetching = false ∧ s.mbox.sem ≤ maxQueueEntries := by
  induction n with
  | zero => exact ⟨new, .init rfl, rfl, rfl, rfl, by decide⟩
  | succ n ih =>
    obtain ⟨s, hs, hlength, hfetched, hf, hsem⟩ := ih
    refine ⟨s.post n, .step (.post n) hs rfl, ?_, hfetched, hf, ?_⟩
    · change (s.posted ++ [n]).length = n + 1
      rw [List.length_append, hlength]
      rfl
    · change (if s.mbox.sem < maxQueueEntries then s.mbox.sem + 1 else s.mbox.sem) ≤ maxQueueEntries
      split_ifs <;> omega

/-- One message more than there are slots. -/
theorem mailbox_fifo_fails : ¬ ∀ s : Channel ℕ, runs.Reach s → s.Faithful := by
  intro h
  obtain ⟨s, hs, hlength, hfetched, hf, hsem⟩ := reach_posts (maxQueueEntries + 1)
  have hlengths := congrArg List.length (h s hs)
  rw [List.length_map, hlength, hfetched, List.nil_append] at hlengths
  simp only [contents, window_length, stored, hf, Bool.false_eq_true, if_false] at hlengths
  omega

end Channel

end StraightHttpd
