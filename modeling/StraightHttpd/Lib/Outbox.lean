import Mathlib

/-! # Messages on a stream

A sender makes messages and writes them to a stream. A message may grow while the bytes in front are
being written. The stream is intact as long as it consists of the messages in order, of which only the
last may be incomplete. What carries this along is how much the sender still owes.
-/

set_option autoImplicit false

/-- The messages that were made, oldest first, and what was written to the stream. -/
structure Outbox (α : Type) where
  messages : List (List α)
  sent : List α

namespace Outbox

variable {α : Type} {o : Outbox α} {rest part : List α}

def empty : Outbox α := ⟨[], []⟩

def start (o : Outbox α) (m : List α) : Outbox α := { o with messages := o.messages ++ [m] }

/-- Append to the last message. -/
def extend (o : Outbox α) (part : List α) : Outbox α :=
  { o with messages := o.messages.dropLast ++ [o.messages.getLastD [] ++ part] }

def send (o : Outbox α) (part : List α) : Outbox α := { o with sent := o.sent ++ part }

/-- Whole messages in order, of which only the last may be incomplete. -/
structure Intact (o : Outbox α) : Prop where
  ordered : o.sent <+: o.messages.flatten
  whole : o.messages.dropLast.flatten <+: o.sent

/-- The messages but the last are written, and `rest` is missing from the last. -/
structure Owes (o : Outbox α) (rest : List α) : Prop where
  total : o.messages.flatten = o.sent ++ rest
  whole : o.messages.dropLast.flatten <+: o.sent

theorem empty_owes : (empty : Outbox α).Owes [] := ⟨rfl, List.nil_prefix⟩

theorem Owes.intact (h : o.Owes rest) : o.Intact := by
  refine ⟨?_, h.whole⟩
  rw [h.total]
  exact List.prefix_append _ _

/-- A message is started when nothing is missing. -/
theorem Owes.start (h : o.Owes []) (m : List α) : (o.start m).Owes m := by
  have htotal : o.messages.flatten = o.sent := h.total.trans (List.append_nil _)
  constructor
  · simp only [Outbox.start, List.flatten_append, List.flatten_singleton, htotal]
  · simp only [Outbox.start, List.dropLast_concat, htotal]
    exact List.prefix_refl _

theorem extend_flatten (o : Outbox α) (part : List α) :
    (o.extend part).messages.flatten = o.messages.flatten ++ part := by
  simp only [extend]
  generalize o.messages = l
  induction l using List.reverseRecOn with
  | nil => simp
  | append_singleton l m => simp

theorem Owes.extend (h : o.Owes rest) (part : List α) : (o.extend part).Owes (rest ++ part) := by
  constructor
  · rw [extend_flatten, h.total, List.append_assoc]
    rfl
  · simp only [Outbox.extend, List.dropLast_concat]
    exact h.whole

theorem Owes.send (h : o.Owes (part ++ rest)) : (o.send part).Owes rest := by
  constructor
  · simp only [Outbox.send, h.total, List.append_assoc]
  · exact h.whole.trans (List.prefix_append _ _)

/-- Everything is written exactly when nothing is missing. -/
theorem Owes.sent_iff (h : o.Owes rest) : o.sent = o.messages.flatten ↔ rest = [] := by
  rw [h.total]
  exact List.self_eq_append_right

end Outbox
