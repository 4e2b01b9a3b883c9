import Mathlib.Tactic

/-!
# Periodic tickers

A ticker sends a tick every `period` into a channel with one slot.  A tick that
finds the slot full is dropped, so a reader that is away for several periods
finds one tick when it comes back.

`Paced` is what a reader can rely on.  It relates the ticker to the clock and to
the last instant `since` at which the reader has started a round: the next tick
is at most one period away, and while no tick is waiting it is at most one period
after `since`.
-/

namespace ImgSync.Lib

/-- The instant of the next tick, and whether a tick waits in the channel. -/
structure Ticker where
  next : Int
  waiting : Bool
  deriving DecidableEq, Repr

namespace Ticker

/-- A ticker that is created at `now`. -/
def start (period now : Int) : Ticker := ⟨now + period, false⟩

/-- The ticker at `now`: the ticks that have come due are sent. -/
def advance (period now : Int) (k : Ticker) : Ticker :=
  if now < k.next then k else ⟨k.next + period * ((now - k.next) / period + 1), true⟩

/-- The tick is taken from the channel. -/
def read (k : Ticker) : Ticker := { k with waiting := false }

end Ticker

structure Paced (period : Int) (k : Ticker) (since now : Int) : Prop where
  soon : k.next ≤ now + period
  unread : k.waiting = false → k.next ≤ since + period

section Paced

variable {period since now : Int} {k : Ticker}

theorem paced_start (period now : Int) : Paced period (.start period now) now now :=
  ⟨le_rfl, fun _ => le_rfl⟩

theorem Paced.advance (h : Paced period k since now) (hperiod : 0 < period) {later : Int}
    (hlater : now ≤ later) : Paced period (k.advance period later) since later := by
  rw [Ticker.advance]
  split
  · have hsoon := h.soon
    exact ⟨by omega, h.unread⟩
  · -- The last tick that was sent is not after `later`.
    have hlast : period * ((later - k.next) / period) ≤ later - k.next :=
      Int.mul_ediv_self_le hperiod.ne'
    refine ⟨?_, fun hfalse => absurd hfalse (by simp)⟩
    show k.next + period * ((later - k.next) / period + 1) ≤ later + period
    linarith

/-- A reader that takes the tick starts its next round. -/
theorem Paced.read (h : Paced period k since now) : Paced period k.read now now :=
  ⟨h.soon, fun _ => h.soon⟩

end Paced

end ImgSync.Lib
