-- SUMMARY: The two capacity tests of the template, fifo_is_full and the check of fifo_push, compared over every int capacity, and the int arithmetic of num_queued > max_queued + 1.
import Txproto.Fifo.System

/-!
# The capacity tests

`fifo_is_full` and `fifo_push` each decide whether a FIFO is full, with case splits of their
own on `max_queued`: `fifo_is_full` tests `0`, then `> 0`, and reports not full for every
negative capacity; `fifo_push` tests `0`, then `!= -1`. They agree on the capacities the spec
names, `-1` and the positive ones (`fifoIsFull_eq_one_iff`), and disagree on every other
negative capacity, which `fifo_create` and `fifo_set_max_queued` accept: there `fifo_is_full`
reports not full while `fifo_push` refuses every non-`NULL` item (`isFull_pushCheck_lt`).

Both evaluate `num_queued > (max_queued + 1)` on `int`, and the model of the calls reads the
sum as the compiled code computes it (`intAddWrap`). `capacityTest` reads it as the C standard
does: `max_queued + 1` overflows for `max_queued == INT_MAX`, the value `fifo_get_max_size`
reports for an unbounded FIFO, and for every other capacity the sum is in range.
-/

namespace Txproto

namespace Store

/-- A push whose check at its own FIFO finds it over its limit returns `ENOBUFS` and changes
nothing, whatever lies downstream. -/
theorem fifoPush_of_full {s : Store} {F : FifoId} {x : Item}
    (h : (s.fifos F).pushCheck x = .full) : s.fifoPush F x = some (s, .enobufs) := by
  simp [fifoPush, pushAux, h]

/-- Where `fifo_is_full` and `fifo_push` agree: for the unbounded `-1` and for every positive
capacity, `fifo_is_full` returns `1` exactly when a push of a non-`NULL` item without
`BLOCK_MAX_OUTPUT` is refused at the FIFO. -/
theorem fifoIsFull_eq_one_iff {s : Store} {F : FifoId} {i : ItemId}
    (hmax : (s.fifos F).maxQueued = -1 ∨ 0 < (s.fifos F).maxQueued)
    (hb : (s.fifos F).blockFlags.blockMaxOutput = false) :
    s.fifoIsFull F = 1 ↔ (s.fifos F).pushCheck (some i) = .full := by
  rcases hmax with h | h
  · -- unbounded: neither test finds it full
    simp [fifoIsFull, Fifo.pushCheck, Fifo.overLimit, h]
  · have h₀ : (s.fifos F).maxQueued ≠ 0 := by omega
    have h₁ : (s.fifos F).maxQueued ≠ -1 := by omega
    by_cases hq : (s.fifos F).numQueued > (s.fifos F).maxQueued + 1 <;>
      simp [fifoIsFull, Fifo.pushCheck, Fifo.overLimit, h, h₀, h₁, hb, hq]

/-- Where they disagree: below `-1`, `fifo_is_full` reports not full, while every push of a
non-`NULL` item without `BLOCK_MAX_OUTPUT` is refused, at every length. -/
theorem isFull_pushCheck_lt {s : Store} {F : FifoId} (i : ItemId)
    (hmin : intMin ≤ (s.fifos F).maxQueued) (hmax : (s.fifos F).maxQueued < -1)
    (hnq : 0 ≤ (s.fifos F).numQueued) (hb : (s.fifos F).blockFlags.blockMaxOutput = false) :
    s.fifoIsFull F = 0 ∧ (s.fifos F).pushCheck (some i) = .full := by
  have h₀ : (s.fifos F).maxQueued ≠ 0 := by omega
  have h₁ : (s.fifos F).maxQueued ≠ -1 := by omega
  have hw := intAddWrap_one_of_lt hmin (by simp only [intMax]; omega)
  refine ⟨by simp [fifoIsFull, h₀, show ¬(s.fifos F).maxQueued > 0 by omega], ?_⟩
  simp [Fifo.pushCheck, Fifo.overLimit, h₀, h₁, hb, hw, show (s.fifos F).numQueued >
    (s.fifos F).maxQueued + 1 by omega]

/-- A FIFO created with capacity `-2`: `fifo_is_full` reports it not full, and a push of a
non-`NULL` item to it returns `ENOBUFS` without storing it. -/
theorem isFull_push_disagree :
    ∃ s : Store, s.Reachable ∧ (s.fifos 0).maxQueued = -2 ∧ (s.fifos 0).numQueued = 0 ∧
      s.fifoIsFull 0 = 0 ∧ s.fifoPush 0 (some 7) = some (s, .enobufs) := by
  have hs : ((init fun _ => true).fifoCreate (-2) Flags.none).2.Reachable :=
    (Reachable.init _).create (-2) Flags.none
  obtain ⟨h₁, h₂⟩ := isFull_pushCheck_lt (s := ((init fun _ => true).fifoCreate (-2)
    Flags.none).2) (F := 0) 7 (by decide) (by decide) (by decide) rfl
  exact ⟨_, hs, rfl, rfl, h₁, fifoPush_of_full h₂⟩

end Store

-- ---------------------------------------------------------------------------
-- `int` arithmetic
-- ---------------------------------------------------------------------------

/-- `a + b` on `int`: `none` when the sum leaves the range of `int`, an overflow the C
standard leaves undefined. -/
def intAdd (a b : Int) : Option Int :=
  if intMin ≤ a + b ∧ a + b ≤ intMax then some (a + b) else none

/-- `num_queued > (max_queued + 1)` as C evaluates it: `none` when the sum overflows. -/
def capacityTest (numQueued maxQueued : Int) : Option Bool :=
  (intAdd maxQueued 1).map fun m => decide (numQueued > m)

/-- For every capacity but `INT_MAX`, the sum does not overflow and the test is the one on
unbounded integers. -/
theorem capacityTest_of_lt {numQueued maxQueued : Int} (hmin : intMin ≤ maxQueued)
    (hmax : maxQueued < intMax) :
    capacityTest numQueued maxQueued = some (decide (numQueued > maxQueued + 1)) := by
  simp only [capacityTest, intAdd, intMin, intMax] at hmin hmax ⊢
  rw [if_pos (by omega)]; rfl

/-- The capacity test of `fifo_push` on a non-`NULL` item at a bounded FIFO is the test the C
standard defines, for every capacity but `INT_MAX`. -/
theorem overLimit_eq_capacityTest {f : Fifo} (i : ItemId) (hne : f.maxQueued ≠ -1)
    (hmin : intMin ≤ f.maxQueued) (hmax : f.maxQueued < intMax) :
    capacityTest f.numQueued f.maxQueued = some (f.overLimit (some i)) := by
  rw [capacityTest_of_lt hmin hmax]
  simp [Fifo.overLimit, hne, intAddWrap_one_of_lt hmin hmax]

/-- A FIFO created unbounded, then given the capacity `fifo_get_max_size` reports for it:
`INT_MAX`. Every later test of a push of a non-`NULL` item, and of `fifo_is_full`, computes
`INT_MAX + 1`, which overflows; wrapping around, as two's complement hardware does, it is
`INT_MIN`, below every length, so the FIFO reads as full and refuses every non-`NULL`
item. -/
theorem capacityTest_intMax_overflow :
    ∃ s₀ s : Store, s₀.Reachable ∧ (s₀.fifos 0).maxQueued = -1 ∧
      s = s₀.fifoSetMaxQueued 0 (s₀.fifoGetMaxSize 0) ∧ s.Reachable ∧
      (s.fifos 0).maxQueued = intMax ∧
      (∀ numQueued, capacityTest numQueued (s.fifos 0).maxQueued = none) ∧
      ∀ numQueued : Int, 0 ≤ numQueued →
        decide (numQueued > intAddWrap (s.fifos 0).maxQueued 1) = true := by
  have hs₀ : ((Store.init fun _ => true).fifoCreate (-1) Flags.none).2.Reachable :=
    (Store.Reachable.init _).create (-1) Flags.none
  have hmax : ((((Store.init fun _ => true).fifoCreate (-1) Flags.none).2.fifoSetMaxQueued 0
      (((Store.init fun _ => true).fifoCreate (-1) Flags.none).2.fifoGetMaxSize 0)).fifos
      0).maxQueued = intMax := rfl
  refine ⟨_, _, hs₀, rfl, rfl, hs₀.setMaxQueued 0 _ rfl, hmax, fun n => ?_, fun n hn => ?_⟩
  · rw [hmax]; simp [capacityTest, intAdd, intMax]
  · rw [hmax]; simp only [intAddWrap, intMax, intMin, decide_eq_true_eq]; omega

end Txproto
