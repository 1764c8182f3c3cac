import Mathlib.Data.List.Basic

/-!
# A broadcast channel

A channel each message of which is for every receiver.  A receiver is a position in the stream of
all messages ever sent: it starts at the end, so that it gets what is sent from then on, and it
never waits for the others.  The channel keeps the last `capacity` messages only.  A receiver that
has fallen further behind *lags*: it is told how many messages it has missed, gets none of them, and
goes on with the oldest one that is still there.

Positions in the stream of everything ever sent are numbers that only grow, so a receiver is one
number and the state of the channel is the list of its messages.  A real channel keeps a ring of
slots; the list is what that ring is read as.

* `send` puts a message at the end, `subscribe` makes a receiver there.
* `tryRecv` gives the next message, or says that there is none, or that the receiver has lagged, and
  where the receiver stands then.
* `tryRecv_ok_iff` is what this module is for: a receiver gets a message exactly when there is one
  and it does not lag.  A program that asks only whether something has come, and takes every error
  for a no, misses the case in which too much has come.
-/

set_option autoImplicit false

namespace DistributedPrograms

variable {μ : Type*}

/-- A channel, by the messages sent so far, the oldest first.  Only the latest `capacity` of them
are still kept. -/
structure Broadcast (μ : Type*) where
  capacity : Nat
  sent : List μ
deriving DecidableEq

namespace Broadcast

/-- A receiver, by the number of messages it has behind it. -/
structure Receiver where
  next : Nat
deriving DecidableEq, Repr

/-- What an attempt to receive gives: a message, nothing, or the news that the receiver has lagged
behind and missed some. -/
inductive Received (μ : Type*)
  | ok (message : μ)
  | empty
  | lagged (missed : Nat)
deriving DecidableEq

def Received.isOk : Received μ → Bool
  | ok _ => true
  | _ => false

def send (c : Broadcast μ) (message : μ) : Broadcast μ := { c with sent := c.sent ++ [message] }

/-- A new receiver, at the end of the stream. -/
def subscribe (c : Broadcast μ) : Receiver := ⟨c.sent.length⟩

/-- The messages a receiver has not seen. -/
def unread (c : Broadcast μ) (r : Receiver) : Nat := c.sent.length - r.next

/-- The next message, if there is one that is still kept.  A receiver that has fallen behind is told
how much it has missed, and goes on with the oldest message that is kept. -/
def tryRecv (c : Broadcast μ) (r : Receiver) : Received μ × Receiver :=
  match c.sent[r.next]? with
  | none => (.empty, r)
  | some message =>
    if c.unread r ≤ c.capacity then (.ok message, ⟨r.next + 1⟩)
    else (.lagged (c.unread r - c.capacity), ⟨c.sent.length - c.capacity⟩)

variable {c : Broadcast μ} {r : Receiver}

@[simp] theorem send_capacity (message : μ) : (c.send message).capacity = c.capacity := rfl

@[simp] theorem length_send (message : μ) :
    (c.send message).sent.length = c.sent.length + 1 := by
  simp [send]

@[simp] theorem subscribe_next : c.subscribe.next = c.sent.length := rfl

/-- **A receiver gets a message** exactly when there is one for it and it does not lag. -/
theorem tryRecv_ok_iff :
    (c.tryRecv r).1.isOk = true ↔ 0 < c.unread r ∧ c.unread r ≤ c.capacity := by
  rw [tryRecv]
  by_cases hnext : r.next < c.sent.length
  · have hpos : 0 < c.unread r := Nat.sub_pos_of_lt hnext
    rw [List.getElem?_eq_getElem hnext]
    dsimp only
    split
    · next hkept => exact iff_of_true rfl ⟨hpos, hkept⟩
    · next hlag => exact iff_of_false Bool.false_ne_true fun h => hlag h.2
  · rw [List.getElem?_eq_none (Nat.le_of_not_lt hnext)]
    have hnone : c.unread r = 0 := Nat.sub_eq_zero_of_le (Nat.le_of_not_lt hnext)
    exact iff_of_false Bool.false_ne_true fun h => by omega

end Broadcast
end DistributedPrograms
