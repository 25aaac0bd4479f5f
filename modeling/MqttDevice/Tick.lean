import MqttDevice.Lib.Wrap

/-!
# The system tick (`tick.c`)

`uwTick` is the count register of the 32-bit timer TIM5. `TimInterval` and
`TimWait` compare a saved reading of it with a fresh one.

* `timInterval_law_iff`, `timWait_law_iff`: each of them answers "more than
  `interval` ticks have elapsed since the saved reading" exactly when the sum
  and the counter are in phase.
-/

namespace MqttDevice.Tick

open MqttDevice.Wrap

/-- The reading of TIM5 when `t` ticks have passed since the counter was 0. -/
def uwTick (t : Nat) : BitVec 32 := BitVec.ofNat 32 t

/-- `TimInterval`: the flag it returns and `*last_tick` after the call. The
register is read once for the test and once more for the assignment. -/
def timInterval (lastTick interval now save : BitVec 32) : BitVec 8 × BitVec 32 :=
  if lastTick + interval < now then (1, save) else (0, lastTick)

/-- `TimWait`: the flag it returns; `*last_tick` is only read. -/
def timWait (lastTick wait now : BitVec 32) : BitVec 8 :=
  if lastTick + wait < now then 1 else 0

theorem timInterval_fires (lastTick interval now save : BitVec 32) :
    (timInterval lastTick interval now save).1 = 1 ↔ lastTick + interval < now := by
  unfold timInterval
  split <;> simp_all

theorem timWait_fires (lastTick wait now : BitVec 32) :
    timWait lastTick wait now = 1 ↔ lastTick + wait < now := by
  unfold timWait
  split <;> simp_all

theorem timInterval_law_iff (lastTick interval now save : BitVec 32) :
    ((timInterval lastTick interval now save).1 = 1 ↔ interval < now - lastTick) ↔
      InPhase lastTick interval now := by
  rw [timInterval_fires, naive_iff_elapsed]

theorem timWait_law_iff (lastTick wait now : BitVec 32) :
    (timWait lastTick wait now = 1 ↔ wait < now - lastTick) ↔ InPhase lastTick wait now := by
  rw [timWait_fires, naive_iff_elapsed]

end MqttDevice.Tick
