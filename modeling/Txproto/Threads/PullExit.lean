-- SUMMARY: How a pull leaves its wait loop: the exit each critical section takes from the FIFO it sees, a woken consumer that nothing fed waiting again after fifo_unmirror_all, and a poke taking precedence over a queued item after a wait.
import Txproto.Threads.Next

/-!
# How a pull leaves the wait loop

Each time a thread inside `fifo_pull_flags_template` holds the lock, `pullSection` decides
from the FIFO as it is then whether the call takes the head, returns `EAGAIN`, or waits on
`cond_in`. At entry the loop tests the queue first; after a wait (`resume`) the test of
`PULL_POKE` comes first, before the queue is looked at again (`pullSection_exit`). So a
consumer woken by a poke returns `EAGAIN` even when a push has queued an item meanwhile;
and at entry an `EAGAIN` of the empty-queue test leaves a poke set
(`pull_again_poke_kept_or_queued`).

A wake-up changes nothing the loop tests. `fifo_unmirror_all(S)` signals `cond_in` of each
destination it drops, but a consumer waiting there on an empty FIFO with
`BLOCK_NO_INPUT` set finds the same empty queue, no poke and the same flags, and waits
again (`next_pull_rewait`, `unmirrorAll_wake_rewaits`).
-/

namespace Txproto

-- ---------------------------------------------------------------------------
-- The exit of one critical section
-- ---------------------------------------------------------------------------

section Exit

variable (resume : Bool) (flags : Flags) (f : Fifo)

/-- The exit of a section, tested in the order the code tests: after a wait, `PULL_POKE` on a
poked FIFO; then the queue; then `BLOCK_NO_INPUT` and `PULL_NO_BLOCK`; then, at entry, the
poke. -/
theorem pullSection_snd : (pullSection resume flags f).2 =
    if (resume && flags.pullPoke && f.poked) = true then .again
    else if f.numQueued ≠ 0 then .take
    else if (!f.blockFlags.blockNoInput || flags.pullNoBlock) = true then .again
    else if (flags.pullPoke && f.poked) = true then .again
    else .wait := by
  cases resume with
  | false =>
    simp only [pullSection, Fifo.pullLoop_eq, Bool.false_and, Bool.false_eq_true, if_false,
      apply_ite Prod.snd]
  | true =>
    simp only [pullSection, if_true, Fifo.pullResume, Fifo.pullLoop_eq, Bool.true_and,
      Bool.and_false, Bool.false_eq_true, if_false, apply_ite Prod.snd]
    split_ifs <;> rfl

/-- The section returns `EAGAIN` when the queue is empty and the FIFO does not block on no
input or the caller asked not to block, or when `PULL_POKE` was passed, the FIFO is poked,
and the queue is empty or the thread just woke from its wait. -/
theorem pullSection_again_iff : (pullSection resume flags f).2 = .again ↔
    f.numQueued = 0 ∧ (f.blockFlags.blockNoInput = false ∨ flags.pullNoBlock = true) ∨
      flags.pullPoke = true ∧ f.poked = true ∧ (resume = true ∨ f.numQueued = 0) := by
  rw [pullSection_snd]
  generalize f.blockFlags.blockNoInput = bni, flags.pullNoBlock = pnb, flags.pullPoke = pp,
    f.poked = pk
  by_cases hq : f.numQueued = 0
  · simp only [hq, ne_eq, not_true_eq_false, if_false, true_and, or_true, and_true]
    revert resume bni pnb pp pk; decide
  · simp only [hq, ne_eq, not_false_eq_true, if_true, false_and, false_or, or_false]
    revert resume pp pk; decide

/-- The section takes the head when the queue is not empty, unless the thread just woke
from its wait to a poke it was asked to return on. -/
theorem pullSection_take_iff : (pullSection resume flags f).2 = .take ↔
    f.numQueued ≠ 0 ∧ ¬(resume = true ∧ flags.pullPoke = true ∧ f.poked = true) := by
  rw [pullSection_snd]
  generalize f.blockFlags.blockNoInput = bni, flags.pullNoBlock = pnb, flags.pullPoke = pp,
    f.poked = pk
  by_cases hq : f.numQueued = 0
  · simp only [hq, ne_eq, not_true_eq_false, if_false, false_and, iff_false]
    revert resume bni pnb pp pk; decide
  · simp only [hq, ne_eq, not_false_eq_true, if_true, true_and]
    revert resume pp pk; decide

/-- A return of `EAGAIN` the empty-queue test does not explain is a return on a poke, which
clears `poked`. -/
theorem pullSection_again_clears (h : (pullSection resume flags f).2 = .again)
    (hq : ¬(f.numQueued = 0 ∧ (f.blockFlags.blockNoInput = false ∨ flags.pullNoBlock = true))) :
    (pullSection resume flags f).1.poked = false := by
  cases resume with
  | false =>
    -- at entry, past the empty-queue test, both the poke exit and the wait clear `poked`
    have h0 : f.numQueued = 0 := by
      by_contra h0
      simp [pullSection_snd, h0] at h
    have hb : (!f.blockFlags.blockNoInput || flags.pullNoBlock) = false := by simpa [h0] using hq
    simp only [pullSection, Fifo.pullLoop_eq, h0, hb, ne_eq, not_true_eq_false, if_false,
      Bool.false_eq_true]
    split_ifs <;> rfl
  | true =>
    simp only [pullSection, if_true, Fifo.pullResume, Fifo.pullLoop_eq]
    split_ifs <;> rfl

/-- At entry, the empty-queue test returns `EAGAIN` with the FIFO as it was, a set `poked`
included. -/
theorem pullSection_entry_again (hq : f.numQueued = 0)
    (hb : f.blockFlags.blockNoInput = false ∨ flags.pullNoBlock = true) :
    pullSection false flags f = (f, .again) := by
  simp only [pullSection, Fifo.pullLoop_eq, hq, ne_eq, not_true_eq_false, if_false,
    Bool.false_eq_true]
  rcases hb with h | h <;> simp [h]

/-- How a pull leaves the lock, read off the FIFO at its last check: when it returns `EAGAIN`,
when it takes the head, and what it leaves of `poked`. -/
theorem pullSection_exit :
    ((pullSection resume flags f).2 = .again ↔
      f.numQueued = 0 ∧ (f.blockFlags.blockNoInput = false ∨ flags.pullNoBlock = true) ∨
        flags.pullPoke = true ∧ f.poked = true ∧ (resume = true ∨ f.numQueued = 0)) ∧
    ((pullSection resume flags f).2 = .again →
      ¬(f.numQueued = 0 ∧ (f.blockFlags.blockNoInput = false ∨ flags.pullNoBlock = true)) →
      (pullSection resume flags f).1.poked = false) ∧
    ((pullSection resume flags f).2 = .take ↔
      f.numQueued ≠ 0 ∧ ¬(resume = true ∧ flags.pullPoke = true ∧ f.poked = true)) ∧
    (resume = false → f.numQueued = 0 →
      (f.blockFlags.blockNoInput = false ∨ flags.pullNoBlock = true) →
      pullSection resume flags f = (f, .again)) ∧
    (pullSection resume flags f).1 = { f with poked := (pullSection resume flags f).1.poked } ∧
    (f.blockFlags.blockNoInput = true → flags.pullPoke = false → flags.pullNoBlock = false →
      (pullSection resume flags f).2 ≠ .again) := by
  refine ⟨pullSection_again_iff resume flags f, pullSection_again_clears resume flags f,
    pullSection_take_iff resume flags f, fun hr => hr ▸ pullSection_entry_again flags f,
    (pullSection_spec resume flags f).1,
    fun hb hp hn h => ?_⟩
  rcases (pullSection_again_iff resume flags f).1 h with ⟨-, h' | h'⟩ | ⟨h', -⟩ <;> simp_all

end Exit

-- ---------------------------------------------------------------------------
-- The steps of a woken pull
-- ---------------------------------------------------------------------------

/-- A section that waits only clears `poked`. -/
theorem pullSection_fst_of_wait {resume : Bool} {flags : Flags} {f : Fifo}
    (h : (pullSection resume flags f).2 = .wait) :
    (pullSection resume flags f).1 = { f with poked := false } := by
  rw [(pullSection_spec resume flags f).1, ((pullSection_spec resume flags f).2.2.2 h).2]

namespace Machine

variable {A : ThreadId → Op → Prop} {m : Machine} {t : ThreadId} {src : FifoId} {flags : Flags}
  {pop : Bool}

/-- The step of a pull that waits, with the FIFO it leaves behind: `poked` cleared. -/
theorem Step.pullWait_of {resume : Bool} (ht : m.threads t = .pull src flags pop (.acquire resume))
    (ho : m.owner src = none) (hx : (pullSection resume flags (m.store.fifos src)).2 = .wait) :
    Step A m ((m.setStore (m.store.modify src fun f => { f with poked := false })).setPc t
      (.pull src flags pop (.wait false))) := by
  have h := Step.pullWait (A := A) ht ho hx
  rwa [pullSection_fst_of_wait hx] at h

/-- A woken consumer on an empty FIFO that blocks on no input, with no poke and without
`PULL_NO_BLOCK`, finds what it found before its wait: it waits on `cond_in` again, and
changes nothing. -/
theorem next_pull_rewait (ht : m.threads t = .pull src flags pop (.acquire true))
    (ho : m.owner src = none) (hq : (m.store.fifos src).numQueued = 0)
    (hp : (m.store.fifos src).poked = false)
    (hb : (m.store.fifos src).blockFlags.blockNoInput = true) (hf : flags.pullNoBlock = false) :
    m.next t = some (m.setPc t (.pull src flags pop (.wait false))) := by
  have hx : (pullSection true flags (m.store.fifos src)).2 = .wait := by
    rw [pullSection_snd]; simp [hq, hp, hb, hf]
  have hs : (m.store.modify src fun _ => (pullSection true flags (m.store.fifos src)).1) =
      m.store := by
    refine Store.modify_eq_self ?_
    rw [pullSection_fst_of_wait hx, ← hp]
  rw [next_eq ht]
  simp only [nextAt, pullNext, ho, if_true, hx, hs]
  rfl

/-- FIFO `0` mirrored into FIFO `1`, which blocks on no input. Thread `0` pops from the empty
FIFO `1` and waits; thread `1` runs `fifo_unmirror_all(0)` to its end, which signals `cond_in`
of `1`, and changes nothing at `1` but its sources. Nothing else runs. The woken consumer
waits on `cond_in` again, and nothing changes. -/
theorem unmirrorAll_wake_rewaits :
    ∃ (s : Store) (m m₁ m₂ : Machine), s.Reachable ∧ 1 ∈ (s.fifos 0).dests ∧
      (s.fifos 1).blockFlags.blockNoInput = true ∧
      Reachable (fun _ _ => True) (fun _ => True) m ∧
      m.threads 0 = .pull 1 Flags.none true (.wait true) ∧ m.threads 1 = .idle ∧
      (m.store.fifos 0).dests = [] ∧ m.store.fifos 1 = { s.fifos 1 with sources := [] } ∧
      m.next 0 = some m₁ ∧ m₁.next 0 = some m₂ ∧
      m₂.threads 0 = .pull 1 Flags.none true (.wait false) ∧ m₂.store = m.store := by
  have hs : ((((Store.init fun _ => true).fifoCreate (-1) Flags.none).2.fifoCreate (-1)
      ⟨true, false, false, false⟩).2.fifoMirror 1 0).Reachable :=
    (((Store.Reachable.init _).create (-1) Flags.none).create (-1) _).mirror 1 0 (by decide)
      (by decide)
  have hm := ((((((((@Reachable.init (fun _ _ => True) (fun _ => True) _ hs trivial).step
    (@Step.startPull _ _ 0 1 Flags.none true rfl trivial) trivial).step
    (@Step.pullWait_of _ _ 0 1 Flags.none true false rfl rfl
      (by simp only [pullSection, Fifo.pullLoop_eq]; rfl)) trivial).step
    (@Step.startUnmirrorAll _ _ 1 0 rfl trivial) trivial).step
    (@Step.unmirrorAllLock _ _ 1 0 rfl rfl) trivial).step
    (@Step.unmirrorAllSourcesDone _ _ 1 0 _ rfl rfl) trivial).step
    (@Step.unmirrorAllDest _ _ 1 0 1 _ rfl rfl) trivial).step
    (@Step.unmirrorAllUnlinkDest _ _ 1 0 1 rfl) trivial).step
    (@Step.unmirrorAllDone _ _ 1 0 _ rfl rfl) trivial
  -- FIFO `1` is, before the run and after it, the FIFO `fifo_create` made, with no source
  exact ⟨_, _, _, _, hs, by decide, rfl, hm, rfl, rfl, by decide,
    (rfl : _ = Store.newFifo (-1) ⟨true, false, false, false⟩).trans rfl, rfl,
    next_pull_rewait rfl rfl rfl rfl rfl rfl, rfl, rfl⟩

/-- Two pulls with `PULL_POKE` that return `EAGAIN`. First, alone, on a poked empty FIFO that
does not block on no input: it leaves at the queue test, and `poked` stays set. Second, on the
empty FIFO `0`, which blocks on no input: thread `0` waits; thread `1` pushes item `7`, which
signals `cond_in`, and thread `2` pokes it. The consumer, woken, tests `PULL_POKE` before the
queue and returns `EAGAIN` with the item still queued. -/
theorem pull_again_poke_kept_or_queued :
    ∃ (s : Store) (m m' : Machine), s.Reachable ∧ (s.fifos 0).view = [] ∧
      (s.fifos 0).blockFlags.blockNoInput = false ∧ (s.fifos 0).poked = true ∧
      (s.fifoPullFlags 0 ⟨false, false, false, true⟩ true).map
        (fun p => ((p.1.fifos 0).poked, p.2.1)) = some (true, .eagain) ∧
      Reachable (fun _ _ => True) (fun _ => True) m ∧
      m.threads 0 = .pull 0 ⟨false, false, false, true⟩ true (.acquire true) ∧
      m.owner 0 = none ∧ (m.store.fifos 0).blockFlags.blockNoInput = true ∧
      (m.store.fifos 0).view = [some 7] ∧ (m.store.fifos 0).poked = true ∧
      (pullSection true ⟨false, false, false, true⟩ (m.store.fifos 0)).2 = .again ∧
      m.next 0 = some m' ∧ m'.threads 0 = .idle ∧ (m'.store.fifos 0).view = [some 7] := by
  have hp : (((Store.init fun _ => true).fifoCreate (-1) Flags.none).2.fifoPoke 0).Reachable :=
    ((Store.Reachable.init _).create (-1) _).poke 0 (by decide)
  have hs :
      ((Store.init fun _ => true).fifoCreate (-1) ⟨true, false, false, false⟩).2.Reachable :=
    (Store.Reachable.init _).create (-1) _
  have hm := ((((((((((@Reachable.init (fun _ _ => True) (fun _ => True) _ hs trivial).step
    (@Step.startPull _ _ 0 0 ⟨false, false, false, true⟩ true rfl trivial) trivial).step
    (@Step.pullWait_of _ _ 0 0 ⟨false, false, false, true⟩ true false rfl rfl
      (by simp only [pullSection, Fifo.pullLoop_eq]; rfl)) trivial).step
    (@Step.startPush _ _ 1 0 (some 7) rfl trivial) trivial).step
    (@Step.pushLock _ _ 1 _ _ _ rfl rfl rfl rfl) trivial).step
    (@Step.pushAppend _ _ 1 _ _ _ _ _ rfl rfl rfl) trivial).step
    (@Step.pushDone _ _ 1 _ _ _ rfl rfl rfl) trivial).step
    (@Step.startPoke _ _ 2 0 rfl trivial) trivial).step
    (@Step.pokeSet _ _ 2 0 rfl rfl) trivial).step
    (@Step.pokeSignal _ _ 2 0 rfl) trivial).step
    (@Step.pullWake _ _ 0 0 ⟨false, false, false, true⟩ true _ rfl) trivial
  refine ⟨_, _, _, hp, by decide, rfl, rfl, ?_, hm, rfl, rfl, rfl, by decide, rfl, rfl, rfl, rfl,
    by decide⟩
  simp only [Store.fifoPullFlags, Fifo.pullLoop_eq]
  decide

end Machine

end Txproto
