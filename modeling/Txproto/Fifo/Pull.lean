-- SUMMARY: fifo_pull_flags_template: the wait loop with its poke and flag tests, the pop with its memmove, the peek, and the calls built on them.
import Txproto.Fifo.Basic

/-!
# Pull

`fifo_pull_flags_template(src, &out, flags, pop)` takes `src`'s lock and loops while the
queue is empty: it returns `EAGAIN` when `BLOCK_NO_INPUT` is clear or `PULL_NO_BLOCK` was
passed, waits on `cond_in` unless the FIFO was poked, and after the wait returns `EAGAIN`
on a poke when `PULL_POKE` was passed. Once the queue is not empty it pops the head
(`memmove` of the rest one slot down) or peeks a clone of it.

`Fifo.pullLoop` is the loop from its test to the next wait or exit, `Fifo.pullResume` the
code right after `pthread_cond_wait` returns; the concurrent model runs them as atomic
steps. Run alone (`Store.fifoPullFlags`), a pull that waits never returns: no other thread
can push or poke, so every wake-up finds the same empty queue and waits again.
-/

namespace Txproto

/-- How the pull loop leaves one critical section. -/
inductive PullExit where
  /-- The queue is not empty: leave the loop and take the head. -/
  | take
  /-- `ret = AVERROR(EAGAIN); goto unlock;` -/
  | again
  /-- `pthread_cond_wait(&ctx->cond_in, &ctx->lock)`. -/
  | wait
  deriving DecidableEq, Repr

namespace Fifo

/-- The loop `while (!ctx->num_queued)` from its test to a wait or an exit. A poked FIFO does
not wait: the code falls through to the `PULL_POKE` test, clears `poked` and tests again. -/
def pullLoop (flags : Flags) (f : Fifo) : Fifo × PullExit :=
  if f.numQueued ≠ 0 then (f, .take)
  else if !f.blockFlags.blockNoInput || flags.pullNoBlock then (f, .again)
  else if f.poked then
    if flags.pullPoke && f.poked then ({ f with poked := false }, .again)
    else pullLoop flags { f with poked := false }
  else (f, .wait)
termination_by f.poked.toNat
decreasing_by simp_all

/-- Within one critical section the loop runs at most twice: a poke skips one wait, and the
second pass finds the same empty queue and no poke. -/
theorem pullLoop_eq (flags : Flags) (f : Fifo) : f.pullLoop flags =
    if f.numQueued ≠ 0 then (f, .take)
    else if !f.blockFlags.blockNoInput || flags.pullNoBlock then (f, .again)
    else if flags.pullPoke && f.poked then ({ f with poked := false }, .again)
    else ({ f with poked := false }, .wait) := by
  rw [pullLoop]
  split_ifs with h₁ h₂ h₃ h₄ <;> simp_all [pullLoop]
  cases f; simp_all

/-- The loop changes nothing but `poked`. -/
theorem pullLoop_fst (flags : Flags) (f : Fifo) :
    (f.pullLoop flags).1 = { f with poked := (f.pullLoop flags).1.poked } := by
  rw [pullLoop_eq]; split_ifs <;> rfl

/-- A pass of the loop only clears `poked`, leaves for the head only when there is one, and
waits only on an empty queue, with `poked` cleared. -/
theorem pullLoop_spec (flags : Flags) (f : Fifo) :
    (f.pullLoop flags).1 = { f with poked := (f.pullLoop flags).1.poked } ∧
    ((f.pullLoop flags).1.poked = true → f.poked = true) ∧
    ((f.pullLoop flags).2 = .take → f.numQueued ≠ 0) ∧
    ((f.pullLoop flags).2 = .wait → f.numQueued = 0 ∧ (f.pullLoop flags).1.poked = false) := by
  rw [pullLoop_eq]
  split_ifs with h₁
  · exact ⟨rfl, id, fun _ => h₁, nofun⟩
  · exact ⟨rfl, id, nofun, nofun⟩
  · exact ⟨rfl, nofun, nofun, nofun⟩
  · exact ⟨rfl, nofun, nofun, fun _ => ⟨not_not.1 h₁, rfl⟩⟩

/-- The code after `pthread_cond_wait` returns: the `PULL_POKE` test, `poked = false`, and
the loop again. -/
def pullResume (flags : Flags) (f : Fifo) : Fifo × PullExit :=
  if flags.pullPoke && f.poked then ({ f with poked := false }, .again)
  else pullLoop flags { f with poked := false }

/-- The pop of lines 445-453: `num_queued--`, then `memmove` of the remaining slots one down. -/
def popHead (f : Fifo) : Fifo :=
  { f with
    queued := fun i => if i < (f.numQueued - 1).toNat then f.queued (i + 1) else f.queued i
    numQueued := f.numQueued - 1 }

theorem view_popHead {f : Fifo} (h : 0 < f.numQueued) : f.popHead.view = f.view.tail := by
  obtain ⟨n, h₁, h₂⟩ : ∃ n : Nat, f.numQueued.toNat = n + 1 ∧ (f.numQueued - 1).toNat = n :=
    ⟨(f.numQueued - 1).toNat, by omega, rfl⟩
  simp only [view, popHead, h₁, h₂, List.range_succ_eq_map, List.map_cons, List.map_map,
    List.tail_cons]
  exact List.map_congr_left fun i hi => by simp at hi; simp [hi]

theorem head_view {f : Fifo} (h : 0 < f.numQueued) : f.view.head? = some (f.queued 0) := by
  obtain ⟨n, hn⟩ : ∃ n : Nat, f.numQueued.toNat = n + 1 := ⟨(f.numQueued - 1).toNat, by omega⟩
  simp [view, hn, List.range_succ_eq_map]

end Fifo

namespace Store

/-- Lines 445-456 once the loop is left: the pop hands the head slot's reference to the
caller, the peek returns `CLONE_FN` of the head. The signal on `cond_out` belongs to the
concurrent model. -/
def pullTake (s : Store) (src : FifoId) (pop : Bool) : Store × Item :=
  let head := (s.fifos src).queued 0
  if pop then (s.modify src Fifo.popHead, head) else (s.clone head, head)

/-- `fifo_pull_flags_template(src, &out, flags, pop)` on a non-`NULL` handle, run alone:
the store after it, the return value and `*dst`. `none` when it waits on `cond_in`, or when
the pop's `assert(ctx->num_queued >= 0)` fails. -/
def fifoPullFlags (s : Store) (src : FifoId) (flags : Flags) (pop : Bool) :
    Option (Store × Ret × Item) :=
  let r := (s.fifos src).pullLoop flags
  let s₁ := s.modify src fun _ => r.1
  match r.2 with
  | .take =>
    if pop ∧ (s₁.fifos src).numQueued - 1 < 0 then none
    else some ((s₁.pullTake src pop).1, .ok, (s₁.pullTake src pop).2)
  | .again => some (s₁, .eagain, none)
  | .wait => none

@[simp] theorem pullTake_fifos (s : Store) (src : FifoId) (pop : Bool) (F : FifoId) :
    (s.pullTake src pop).1.fifos F = if pop ∧ F = src then (s.fifos F).popHead else s.fifos F := by
  unfold pullTake
  split_ifs <;> simp_all

@[simp] theorem pullTake_next (s : Store) (src : FifoId) (pop : Bool) :
    (s.pullTake src pop).1.next = s.next := by
  unfold pullTake; split_ifs <;> simp

@[simp] theorem pullTake_live (s : Store) (src : FifoId) (pop : Bool) :
    (s.pullTake src pop).1.live = s.live := by
  unfold pullTake; split_ifs <;> simp

/-- A pull that returns either took the head of a non-empty queue, or returned `EAGAIN`
with `*dst = NULL` after the loop cleared at most `poked`. -/
theorem fifoPullFlags_eq_some {s s' : Store} {src : FifoId} {flags : Flags} {pop : Bool}
    {r : Ret} {out : Item} (h : s.fifoPullFlags src flags pop = some (s', r, out)) :
    (r = .ok ∧ (s.fifos src).numQueued ≠ 0 ∧ out = (s.fifos src).queued 0 ∧
      s' = (s.pullTake src pop).1) ∨
    (r = .eagain ∧ out = none ∧ s' = s.modify src fun _ => ((s.fifos src).pullLoop flags).1) := by
  have hl := Fifo.pullLoop_eq flags (s.fifos src)
  rcases he : ((s.fifos src).pullLoop flags).2 with _ | _ | _ <;>
    simp only [fifoPullFlags, he, Option.some.injEq, Prod.mk.injEq, reduceCtorEq] at h
  · split_ifs at h
    simp only [Option.some.injEq, Prod.mk.injEq] at h
    have hnum : (s.fifos src).numQueued ≠ 0 := by
      by_contra hn; simp only [hn] at hl; split_ifs at hl <;> simp_all
    have hs : (s.modify src fun _ => ((s.fifos src).pullLoop flags).1) = s :=
      modify_eq_self (by simp [hl, hnum])
    rw [hs] at h
    exact .inl ⟨h.2.1.symm, hnum, by rw [← h.2.2]; simp only [pullTake]; split_ifs <;> rfl,
      h.1.symm⟩
  · exact .inr ⟨h.2.1.symm, h.2.2.symm, h.1.symm⟩

/-- What a pull that returns leaves at its FIFO: the head popped or peeked, or only `poked`
changed. -/
theorem fifoPullFlags_fifo {s s' : Store} {src : FifoId} {flags : Flags} {pop : Bool}
    {r : Ret} {out : Item} (h : s.fifoPullFlags src flags pop = some (s', r, out)) :
    (r = .ok ∧ (s.fifos src).numQueued ≠ 0 ∧ out = (s.fifos src).queued 0 ∧
      s'.fifos src = if pop then (s.fifos src).popHead else s.fifos src) ∨
    (r = .eagain ∧ out = none ∧ s'.fifos src = { s.fifos src with poked := (s'.fifos src).poked }) := by
  rcases fifoPullFlags_eq_some h with ⟨hr, hne, hout, rfl⟩ | ⟨hr, hout, rfl⟩
  · exact .inl ⟨hr, hne, hout, by simp only [pullTake_fifos, and_true]⟩
  · refine .inr ⟨hr, hout, ?_⟩
    simp only [modify_fifos, if_true]
    exact Fifo.pullLoop_fst flags _

/-- On a queue of non-negative length the `assert` of the pop holds: a pull that does not
return is one that waits on `cond_in`. -/
theorem fifoPullFlags_eq_none {s : Store} {src : FifoId} {flags : Flags} {pop : Bool}
    (hnn : 0 ≤ (s.fifos src).numQueued) (h : s.fifoPullFlags src flags pop = none) :
    ((s.fifos src).pullLoop flags).2 = .wait := by
  have hl := Fifo.pullLoop_eq flags (s.fifos src)
  rcases he : ((s.fifos src).pullLoop flags).2 with _ | _ | _ <;>
    simp only [fifoPullFlags, he, reduceCtorEq] at h
  · have hnum : (s.fifos src).numQueued ≠ 0 := by
      by_contra hn; simp only [hn] at hl; split_ifs at hl <;> simp_all
    split_ifs at h with ha
    rw [Fifo.pullLoop_fst] at ha
    simp only [modify_fifos, if_true] at ha
    omega
  · rfl

/-- `RENAME(fifo_pop_flags)(src, &dst, flags)`. -/
def fifoPopFlags (s : Store) (src : FifoId) (flags : Flags) : Option (Store × Ret × Item) :=
  s.fifoPullFlags src flags true

/-- `RENAME(fifo_peek_flags)(src, &dst, flags)`. -/
def fifoPeekFlags (s : Store) (src : FifoId) (flags : Flags) : Option (Store × Ret × Item) :=
  s.fifoPullFlags src flags false

/-- `RENAME(fifo_pop)(src)`: the flags `0x0`; the return value is dropped. -/
def fifoPop (s : Store) (src : FifoId) : Option (Store × Item) :=
  (s.fifoPullFlags src Flags.none true).map fun r => (r.1, r.2.2)

/-- `RENAME(fifo_peek)(src)`. -/
def fifoPeek (s : Store) (src : FifoId) : Option (Store × Item) :=
  (s.fifoPullFlags src Flags.none false).map fun r => (r.1, r.2.2)

end Store

end Txproto
