import Mathlib.Data.List.Basic
/-!
# Foundation.Channel

An ordered channel with one stage of buffering: items wait at the source, are
taken in batches into a queue, and leave the queue one at a time. It is the
abstract purpose of a reader thread, stated without saying when it reads.

The one law is conservation (`Move.content_eq`): what was delivered, what is
queued and what is still unread are, in this order, always the same list. An
implementation that refines `Move` step by step loses, duplicates and reorders
nothing.
-/

/-- The three places an item can be, oldest item first in each. -/
structure Channel (α : Type*) where
  unread : List α
  queued : List α
  delivered : List α

namespace Channel

variable {α : Type*}

/-- Everything the channel ever held, in order. -/
def content (c : Channel α) : List α := c.delivered ++ c.queued ++ c.unread

/-- What a channel may do at once: nothing, take a batch, or deliver one item. -/
inductive Move : Channel α → Channel α → Prop
  | idle (c : Channel α) : Move c c
  | take {c : Channel α} {batch rest : List α} :
      c.unread = batch ++ rest → Move c { c with unread := rest, queued := c.queued ++ batch }
  | deliver {c : Channel α} {x : α} {rest : List α} :
      c.queued = x :: rest → Move c { c with queued := rest, delivered := c.delivered ++ [x] }

theorem Move.content_eq {c d : Channel α} (h : Move c d) : d.content = c.content := by
  cases h with
  | idle => rfl
  | take hunread => simp [content, hunread]
  | deliver hqueued => simp [content, hqueued]

end Channel
