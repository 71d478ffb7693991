-- SUMMARY: Progress over every interleaving: under the lock order of the mirror graph, a state with a call in progress that has not failed always has a thread that can step.
import Txproto.Threads.Contents
import Txproto.Threads.Serial

/-!
# Progress

A thread inside a call has a step unless it requests a mutex that some thread holds
(`Machine.next_eq_none`): the waits on `cond_in` and `cond_out` end at any time, and every
other step of the template is taken under the locks already held. With the locks taken along
the mirror graph (`Threads/LockOrder.lean`), no set of threads waits for one another, and
only finitely many threads are ever inside a call, so a state in which some call is in
progress and has not failed an `assert` always has a thread that can step
(`Machine.reachable_progress`): the threads never get stuck.
-/

namespace Txproto

/-- A level returns to its caller's loop, or the call ends: never to a push with no level. -/
theorem Pc.pushReturn_ne_push_nil (x x' : Item) (fs : List Frame) (r : Ret) :
    Pc.pushReturn x fs r ≠ .push x' [] := by
  cases fs <;> simp [Pc.pushReturn]

namespace Machine

open Relation

variable {A : ThreadId → Op → Prop} {m m' : Machine}

/-- A thread inside a call with no step requests a mutex that some thread holds, or is a push
with no level. -/
theorem next_eq_none {t : ThreadId} (h : m.next t = none) :
    m.threads t = .idle ∨ m.threads t = .failed ∨ (∃ x, m.threads t = .push x []) ∨
      ∃ f, (m.threads t).request = some f ∧ m.owner f ≠ none := by
  rcases ht : m.threads t with _ | ⟨x, _ | ⟨fr, fs⟩⟩ | ⟨src, flags, pop, _ | _⟩ | ⟨ref, _ | _⟩ |
    ⟨dst, n⟩ | ⟨dst, flags⟩ | ⟨dst, src⟩ | ⟨dst, src⟩ | ⟨ref, phase⟩ | _ <;>
    simp only [next, nextAt, ht, pullNext, reduceCtorEq] at h
  case idle => exact .inl rfl
  case failed => exact .inr (.inl rfl)
  case push.nil => exact .inr (.inr (.inl ⟨x, rfl⟩))
  all_goals refine .inr (.inr (.inr ?_))
  case push.cons =>
    rcases hp : fr.phase with _ | _ | _ | w | _ <;> simp only [pushNext, hp] at h
    all_goals first
      | cases h
      | (split_ifs at h with ho; exact ⟨fr.fifo, by simp [Pc.request, hp], ho⟩)
  case unmirrorAll =>
    cases phase <;> simp only [unmirrorAllNext] at h
    all_goals first
      | cases h
      | (split_ifs at h with ho; exact ⟨ref, rfl, ho⟩)
  all_goals split_ifs at h with ho; exact ⟨_, rfl, ho⟩

/-- Every step leaves idle every idle thread but one: the thread that moves. -/
theorem Step.idle_other (hs : Step A m m') :
    ∃ t, ∀ u ≠ t, m.threads u = .idle → m'.threads u = .idle := by
  rcases hs.start_or_next with ⟨t, _, -, -, hst⟩ | ⟨t, hn⟩
  · exact ⟨t, fun u hu h => ((start_threads hst).2 u hu).trans h⟩
  · exact ⟨t, fun _ _ h => next_idle_other hn h⟩

/-- Only finitely many threads are inside a call. -/
def FinitelyBusy (m : Machine) : Prop := ∃ N, ∀ u, N ≤ u → m.threads u = .idle

theorem FinitelyBusy.step (h : m.FinitelyBusy) (hs : Step A m m') : m'.FinitelyBusy := by
  obtain ⟨N, hN⟩ := h
  obtain ⟨t, ht⟩ := hs.idle_other
  exact ⟨max N (t + 1), fun u hu =>
    ht u (Nat.lt_of_succ_le (le_of_max_le_right hu)).ne' (hN u (le_of_max_le_left hu))⟩

/-- Every push in progress has a level. -/
def PushesFramed (m : Machine) : Prop := ∀ t x, m.threads t ≠ .push x []

theorem PushesFramed.step (h : m.PushesFramed) (hs : Step A m m') : m'.PushesFramed := by
  intro v x hv
  cases hs
  all_goals
    dsimp only [setPc_threads, fresh_threads, setStore_threads, setOwner_threads,
      logAppend_threads, signal_threads] at hv
    rw [Function.update_apply, ite_eq_iff] at hv
    rcases hv with ⟨-, hv⟩ | ⟨-, hv⟩
  -- the moving thread's new place, a signal, or another thread left where it was
  all_goals first
    | cases hv
    | exact h _ _ hv
    | exact h _ _ (Pc.eq_of_signal_eq_push hv)
    | exact Pc.pushReturn_ne_push_nil _ _ _ _ hv

theorem Reachable.finitelyBusy {P : Machine → Prop} (hm : Reachable A P m) : m.FinitelyBusy := by
  induction hm with
  | init _ _ => exact ⟨0, fun _ _ => rfl⟩
  | step _ hs _ ih => exact ih.step hs

theorem Reachable.pushesFramed {P : Machine → Prop} (hm : Reachable A P m) : m.PushesFramed := by
  induction hm with
  | init _ _ => exact fun _ _ h => by cases h
  | step _ hs _ ih => exact ih.step hs

/-- Progress. Over a graph `G` without cycles that holds every `dests` edge of the run, the
threads never get stuck: in every state in which some thread is inside a call and has not
failed an `assert`, some thread inside a call has a step. -/
theorem reachable_progress {G : FifoId → FifoId → Prop} (hG : ∀ f, ¬ TransGen G f f)
    (hm : Reachable A (fun m => ∀ S D, D ∈ (m.store.fifos S).dests → G S D) m)
    {t : ThreadId} (ht : m.threads t ≠ .idle) (hf : m.threads t ≠ .failed) :
    ∃ u m', m.next u = some m' ∧ Step A m m' := by
  classical
  by_contra hno
  have hnone : ∀ u, m.next u = none := fun u => by
    cases hn : m.next u with
    | none => rfl
    | some m' => exact absurd ⟨u, m', hn, .of_next hn⟩ hno
  have hL := hm.lockOrder
  obtain ⟨N, hN⟩ := hm.finitelyBusy
  -- the threads inside a call that have not failed each wait for a mutex one of them holds
  let S := (Finset.range N).filter fun u => m.threads u ≠ .idle ∧ m.threads u ≠ .failed
  have hmem : ∀ u, m.threads u ≠ .idle → m.threads u ≠ .failed → u ∈ S := fun u hi hf =>
    Finset.mem_filter.2 ⟨Finset.mem_range.2 (not_le.1 fun hu => hi (hN u hu)), hi, hf⟩
  refine hL.not_deadlock hG ⟨S, ⟨t, hmem t ht hf⟩, fun u hu => ?_⟩
  obtain ⟨-, hi, hf'⟩ := Finset.mem_filter.1 hu
  rcases next_eq_none (hnone u) with h | h | ⟨x, h⟩ | ⟨f, hr, ho⟩
  · exact absurd h hi
  · exact absurd h hf'
  · exact absurd h (hm.pushesFramed u x)
  · obtain ⟨w, hw⟩ := Option.ne_none_iff_exists'.1 ho
    -- the holder holds a lock, so it is inside a call and has not failed
    have hh := (hL.owner_iff f w).1 hw
    have hw₁ : m.threads w ≠ .idle := fun h => by simp [h, Pc.held] at hh
    have hw₂ : m.threads w ≠ .failed := fun h => by simp [h, Pc.held] at hh
    exact ⟨f, hr, w, hmem w hw₁ hw₂, hw⟩

/-- Thread `0` holds the lock of FIFO `0` at the enqueue of its push, and thread `1` waits for
that lock at the start of its own push to `0`: thread `1` has no step, and a thread has one. -/
theorem reachable_progress_blocked :
    ∃ m, Reachable (fun _ _ => True) (fun m => ∀ S D, D ∈ (m.store.fifos S).dests → S < D) m ∧
      m.threads 1 ≠ .idle ∧ m.threads 1 ≠ .failed ∧ m.next 1 = none ∧
      ∃ u m', m.next u = some m' ∧ Step (fun _ _ => True) m m' := by
  let s := ((Store.init fun _ => true).fifoCreate 2 Flags.none).2
  have hs : ∀ S D, D ∈ (s.fifos S).dests → S < D := fun S D hD => by
    have e : s.fifos = Function.update (fun _ => Fifo.zero) 0 (Store.newFifo 2 Flags.none) := rfl
    simp only [e, Function.update_apply] at hD
    split_ifs at hD <;> simp_all [Store.newFifo, Fifo.zero]
  have h₃ := ((Reachable.init (A := fun _ _ => True)
    (P := fun m => ∀ S D, D ∈ (m.store.fifos S).dests → S < D)
    ((Store.Reachable.init fun _ => true).create 2 Flags.none)
    hs).step (@Step.startPush _ _ 0 0 (some 7) rfl trivial) hs).step
    (@Step.pushLock _ _ 0 (some 7) ⟨0, 0, .acquire, [], .ok⟩ [] rfl rfl rfl rfl) hs |>.step
    (@Step.startPush _ _ 1 0 (some 7) rfl trivial) hs
  have hG : ∀ f : FifoId, ¬ TransGen (· < ·) f f := fun f h =>
    lt_irrefl f (transGen_eq_self (transitive_lt (α := FifoId)) ▸ h)
  exact ⟨_, h₃, by simp, by simp, rfl, reachable_progress hG h₃ (t := 1) (by simp) (by simp)⟩

end Machine

end Txproto
