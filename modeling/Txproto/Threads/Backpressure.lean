-- SUMMARY: The blocking path of fifo_push under any interleaving: a push that has not waited appends only with at most max_queued + 1 items queued, while one wait on cond_out, ended by a spurious wake-up, lets a push append past that.
import Txproto.Threads.LockOrder

/-!
# Back-pressure

With `BLOCK_MAX_OUTPUT`, `fifo_push` waits once on `cond_out` when more than
`max_queued + 1` items are queued, and goes on to store its item when the wait returns. The
wait sits in an `if`, where `fifo_pull_flags` waits on `cond_in` inside
`while (!ctx->num_queued)`: a spurious wake-up, or a pop whose free slot another push took
first, ends it with the queue still over the threshold, and the push appends anyway
(`blocking_push_overshoot`).

A push that reaches the store without having waited found at most `max_queued + 1` items
when it took the lock, and it holds the lock until it stores, so no other thread appends in
between (`reachable_enqueue_within`).
-/

namespace Txproto

/-- A push of a non-`NULL` item that goes on to store found at most `max_queued + 1` items,
unless the FIFO is unbounded. -/
theorem Fifo.numQueued_le_of_pushCheck {f : Fifo} {i : ItemId}
    (h : f.pushCheck (some i) = .enqueue) (hmax : f.maxQueued ≠ -1)
    (hmin : intMin ≤ f.maxQueued + 1) : f.numQueued ≤ f.maxQueued + 1 := by
  have := intAddWrap_one_le hmin
  unfold pushCheck overLimit at h
  split_ifs at h with h₀ h₁
  have : ¬ f.numQueued > intAddWrap f.maxQueued 1 := fun hgt => h₁ (by simp [hmax, hgt])
  omega

theorem Store.numQueued_modify_pullSection (s : Store) (src F : FifoId) (resume : Bool)
    (flags : Flags) :
    ((s.modify src fun _ => (pullSection resume flags (s.fifos src)).1).fifos F).numQueued =
      (s.fifos F).numQueued := by
  simp only [modify_fifos]; split_ifs with hF
  · subst hF; rw [(pullSection_spec resume flags (s.fifos F)).1]
  · rfl

/-- A push to a live FIFO that returns leaves a store of the program. -/
theorem Store.Reachable.push_getD {s : Store} (h : s.Reachable) (F : FifoId) (x : Item)
    (hl : s.live F) (hs : (s.exec (.push F x)).isSome) :
    ((s.exec (.push F x)).getD s).Reachable := by
  obtain ⟨s', hs'⟩ := Option.isSome_iff_exists.1 hs
  rw [hs']; exact .step _ h ⟨by simpa [Op.handles], by simp⟩ hs'

/-- The thread is in a push of a non-`NULL` item whose top level is at `F`, holding its lock,
at the store, without having waited. -/
def Pc.AtEnqueue (pc : Pc) (F : FifoId) : Prop :=
  ∃ i fr fs, pc = .push (some i) (fr :: fs) ∧ fr.fifo = F ∧ fr.phase = .enqueue false

theorem Pc.atEnqueue_signal {pc : Pc} {F F' : FifoId} (h : (pc.signal F').AtEnqueue F) :
    pc.AtEnqueue F := by
  obtain ⟨i, fr, fs, hpc, hF, hp⟩ := h
  refine ⟨i, fr, fs, ?_, hF, hp⟩
  revert hpc; unfold Pc.signal; split <;> simp

theorem Pc.AtEnqueue.top {pc : Pc} {F : FifoId} (h : pc.AtEnqueue F) {x : Item} {fr : Frame} {fs : List Frame}
    (hpc : pc = .push x (fr :: fs)) : ∃ i, x = some i ∧ fr.fifo = F ∧ fr.phase = .enqueue false := by
  obtain ⟨i, fr', fs', h', hF, hp⟩ := h
  rw [hpc] at h'
  simp only [Pc.push.injEq, List.cons.injEq] at h'
  obtain ⟨rfl, rfl, -⟩ := h'
  exact ⟨i, rfl, hF, hp⟩

/-- A level returning to its caller leaves the thread in its caller's loop. -/
theorem Pc.not_atEnqueue_pushReturn {G : FifoId → FifoId → Prop} {x : Item} {fr : Frame}
    {fs : List Frame} {F : FifoId} (hf : (Pc.push x (fr :: fs)).FramesOk G) (r : Ret) :
    ¬ (Pc.pushReturn x fs r).AtEnqueue F := by
  cases fs with
  | nil => rintro ⟨_, _, _, ⟨⟩, _⟩
  | cons p fs =>
    intro hat
    obtain ⟨_, _, _, hp⟩ := hat.top rfl
    simp [hf.2.1 p (List.mem_cons_self _ _)] at hp

namespace Machine

/-- Every push of a non-`NULL` item at `F`'s store that has not waited finds at most `N + 1`
items queued. -/
def EnqueueBound (m : Machine) (F : FifoId) (N : Int) : Prop :=
  ∀ u, (m.threads u).AtEnqueue F → (m.store.fifos F).numQueued ≤ N + 1

variable {m m' : Machine} {F : FifoId} {N : Int}

/-- A thread at `F`'s store holds `F`'s lock. -/
theorem LockOrder.owner_of_atEnqueue {G : FifoId → FifoId → Prop} (hL : m.LockOrder G)
    {u : ThreadId} (h : (m.threads u).AtEnqueue F) : m.owner F = some u := by
  obtain ⟨i, fr, fs, hpc, rfl, hp⟩ := h
  exact (hL.owner_iff _ _).2 (Pc.fifo_mem_held (g := fr) (by simp [hpc, Pc.frames])
    (by simp [Frame.holds, hp]))

/-- One step keeps the bound, given what it does: thread `t`, now at `pc`, reaches `F`'s
store only with at most `N + 1` items queued, the others change at most by a signal, and
`F`'s queue does not grow unless no other thread is at its store. -/
theorem EnqueueBound.of_step (h : m.EnqueueBound F N) {t : ThreadId} {pc : Pc}
    (hpc : m'.threads t = pc)
    (hth : ∀ u ≠ t, m'.threads u = m.threads u ∨ ∃ F', m'.threads u = (m.threads u).signal F')
    (hnew : pc.AtEnqueue F → (m'.store.fifos F).numQueued ≤ N + 1)
    (hnum : (m'.store.fifos F).numQueued ≤ (m.store.fifos F).numQueued ∨
      ∀ u ≠ t, ¬ (m.threads u).AtEnqueue F) : m'.EnqueueBound F N := by
  intro u hu
  by_cases hut : u = t
  · exact hnew (hpc ▸ hut ▸ hu)
  · have hu' : (m.threads u).AtEnqueue F := by
      rcases hth u hut with h' | ⟨F', h'⟩
      · exact h' ▸ hu
      · exact Pc.atEnqueue_signal (h' ▸ hu)
    rcases hnum with hle | hno
    · exact hle.trans (h u hu')
    · exact absurd hu' (hno u hut)

/-- The common case: thread `t` is not at `F`'s store after the step, and `F`'s queue does
not grow. -/
theorem EnqueueBound.of_le (h : m.EnqueueBound F N) {t : ThreadId} {pc : Pc}
    (hpc : m'.threads t = pc)
    (hth : ∀ u ≠ t, m'.threads u = m.threads u ∨ ∃ F', m'.threads u = (m.threads u).signal F')
    (hnew : ¬ pc.AtEnqueue F)
    (hle : (m'.store.fifos F).numQueued ≤ (m.store.fifos F).numQueued) : m'.EnqueueBound F N :=
  h.of_step hpc hth (absurd · hnew) (.inl hle)

theorem enqueueBound_init (s : Store) : (init s).EnqueueBound F N := fun _ ⟨_, _, _, h, _⟩ => by
  simp [init] at h

/-- Every step keeps the bound, when `F`'s capacity is `N` after it. -/
theorem EnqueueBound.step {A : ThreadId → Op → Prop} {G : FifoId → FifoId → Prop}
    (h : m.EnqueueBound F N) (hL : m.LockOrder G) (hN : 0 < N) (hs : Step A m m')
    (hP : (m'.store.fifos F).maxQueued = N) : m'.EnqueueBound F N := by
  cases hs with
  | startPull ht _ | startPoke ht _ | startSetMaxQueued ht _
  | startSetBlockFlags ht _ | startUnmirrorFail ht _ _ | startUnmirrorAll ht _
  | pullAbort ht _ _ _ _ | pullWake ht | unmirrorFail ht _ | unmirrorAllLock ht _ =>
    exact h.of_le (Function.update_same _ _ _) (fun u hu => .inl (by simp [hu]))
      (by rintro ⟨_, _, _, ⟨⟩, _⟩) le_rfl
  | startPush ht _ | pushSkip ht _ _ _ | pushWait ht _ _ _ | pushWake ht _
  | pushReacquire ht _ _ | pushDescend ht _ _ =>
    exact h.of_le (Function.update_same _ _ _) (fun u hu => .inl (by simp [hu]))
      (fun hat => by obtain ⟨_, _, _, hp⟩ := hat.top rfl; simp at hp) le_rfl
  | pushFull ht _ _ _ | pushDone ht _ _ =>
    exact h.of_le (Function.update_same _ _ _) (fun u hu => .inl (by simp [hu]))
      (Pc.not_atEnqueue_pushReturn (hL.framesOf ht) _) le_rfl
  | @pushNoMem t x fr fs w s' ht _ henq =>
    refine h.of_le (Function.update_same _ _ _) (fun u hu => .inl (by simp [hu]))
      (Pc.not_atEnqueue_pushReturn (hL.framesOf ht) _) (le_of_eq ?_)
    obtain ⟨size, he⟩ := m.store.pushEnqueue_fifos fr.fifo x
    simp only [henq, Bool.false_eq_true, if_false] at he
    simp [he]
  | @pushLock t x fr fs ht hp _ hchk =>
    refine h.of_step (Function.update_same _ _ _) (fun u hu => .inl (by simp [hu]))
      (fun hat => ?_) (.inl le_rfl)
    obtain ⟨i, rfl, hF, -⟩ := hat.top rfl
    subst hF
    exact hP ▸ Fifo.numQueued_le_of_pushCheck hchk (by rw [hP]; omega)
      (by rw [hP]; simp only [intMin]; omega)
  | @pushAppend t x fr fs w s' ht hp henq =>
    refine h.of_step (Function.update_same _ _ _) (fun u hu => .inr ⟨fr.fifo, by simp [hu]⟩)
      (fun hat => by obtain ⟨_, _, _, hp'⟩ := hat.top rfl; simp at hp') ?_
    by_cases hF : fr.fifo = F
    · -- `t` holds `F`'s lock, so no other thread is at its store
      refine .inr fun u hu hat => hu ?_
      have hown := (hL.owner_iff _ t).2 (Pc.fifo_mem_held (g := fr) (by simp [ht, Pc.frames])
        (by simp [Frame.holds, hp]))
      rw [hF, hL.owner_of_atEnqueue hat] at hown
      exact Option.some.inj hown
    · obtain ⟨size, he⟩ := m.store.pushEnqueue_fifos fr.fifo x
      simp only [henq, if_true] at he
      exact .inl (le_of_eq (by simp [he, Function.update_noteq (Ne.symm hF)]))
  | startMirror ht _ =>
    exact h.of_le (Function.update_same _ _ _) (fun u hu => .inl (by simp [hu]))
      (by rintro ⟨_, _, _, ⟨⟩, _⟩) ((Store.appendSource_listsOnly _ _ _).numQueued F).le
  | mirrorDest ht =>
    exact h.of_le (Function.update_same _ _ _) (fun u hu => .inl (by simp [hu]))
      (by rintro ⟨_, _, _, ⟨⟩, _⟩) ((Store.appendDest_listsOnly _ _ _).numQueued F).le
  | startUnmirror ht _ hpop =>
    exact h.of_le (Function.update_same _ _ _) (fun u hu => .inl (by simp [hu]))
      (by rintro ⟨_, _, _, ⟨⟩, _⟩)
      ((Store.listsOnly_of_eq (Store.popDest_listsOnly _ _ _) hpop).numQueued F).le
  | unmirrorSource ht hpop =>
    exact h.of_le (Function.update_same _ _ _) (fun u hu => .inl (by simp [hu]))
      (by rintro ⟨_, _, _, ⟨⟩, _⟩)
      ((Store.listsOnly_of_eq (Store.popSource_listsOnly _ _ _) hpop).numQueued F).le
  | unmirrorAllSource ht hpop | unmirrorAllSourcesDone ht hpop =>
    exact h.of_le (Function.update_same _ _ _) (fun u hu => .inl (by simp [hu]))
      (by rintro ⟨_, _, _, ⟨⟩, _⟩)
      ((Store.listsOnly_of_eq (Store.popFirstSource_listsOnly _ _) hpop).numQueued F).le
  | unmirrorAllDest ht hpop | unmirrorAllDone ht hpop =>
    exact h.of_le (Function.update_same _ _ _) (fun u hu => .inl (by simp [hu]))
      (by rintro ⟨_, _, _, ⟨⟩, _⟩)
      ((Store.listsOnly_of_eq (Store.popFirstDest_listsOnly _ _) hpop).numQueued F).le
  | unmirrorAllUnlinkSource ht =>
    exact h.of_le (Function.update_same _ _ _) (fun u hu => .inl (by simp [hu]))
      (by rintro ⟨_, _, _, ⟨⟩, _⟩) ((Store.popDest_listsOnly _ _ _).numQueued F).le
  | @unmirrorAllUnlinkDest t ref dst ht =>
    exact h.of_le (Function.update_same _ _ _) (fun u hu => .inr ⟨dst, by simp [hu]⟩)
      (by rintro ⟨_, _, _, ⟨⟩, _⟩) ((Store.popSource_listsOnly _ _ _).numQueued F).le
  | setMaxQueued ht _ | setBlockFlags ht _ | pokeSet ht _ =>
    exact h.of_le (Function.update_same _ _ _) (fun u hu => .inl (by simp [hu]))
      (by rintro ⟨_, _, _, ⟨⟩, _⟩) (by simp)
  | pullAgain ht _ _ | pullWait ht _ _ =>
    exact h.of_le (Function.update_same _ _ _) (fun u hu => .inl (by simp [hu]))
      (by rintro ⟨_, _, _, ⟨⟩, _⟩) (Store.numQueued_modify_pullSection _ _ _ _ _).le
  | pullTake ht _ _ _ =>
    refine h.of_le (Function.update_same _ _ _) (fun u hu => .inl (by simp [hu]))
      (by rintro ⟨_, _, _, ⟨⟩, _⟩) ?_
    simp only [setPc_store, setStore_store, Store.pullTake_fifos]
    split_ifs
    · simp only [Fifo.popHead]; rw [Store.numQueued_modify_pullSection]; omega
    · rw [Store.numQueued_modify_pullSection]
  | @pokeSignal t ref ht =>
    exact h.of_le (Function.update_same _ _ _) (fun u hu => .inr ⟨ref, by simp [hu]⟩)
      (by rintro ⟨_, _, _, ⟨⟩, _⟩) le_rfl

/-- Every state of every run in which `F`'s capacity stays `N` keeps the bound. -/
theorem Reachable.enqueueBound {A : ThreadId → Op → Prop} (hN : 0 < N)
    (hm : Reachable A (fun m => (m.store.fifos F).maxQueued = N) m) : m.EnqueueBound F N := by
  induction hm with
  | init _ _ => exact enqueueBound_init _
  | step hm' hs hP ih =>
    exact ih.step (hm'.mono (Q := fun m => ∀ S D, D ∈ (m.store.fifos S).dests → True)
      fun _ _ _ _ _ => trivial).lockOrder hN hs hP

/-- With `F`'s capacity `N > 0` throughout a run, a push of a non-`NULL` item that reaches
`F`'s store without having waited on `cond_out` finds at most `N + 1` items queued there. -/
theorem reachable_enqueue_within {A : ThreadId → Op → Prop} (hN : 0 < N)
    (hm : Reachable A (fun m => (m.store.fifos F).maxQueued = N) m) {t : ThreadId} {i : ItemId}
    {fr : Frame} {fs : List Frame} (ht : m.threads t = .push (some i) (fr :: fs))
    (hF : fr.fifo = F) (hp : fr.phase = .enqueue false) : (m.store.fifos F).numQueued ≤ N + 1 :=
  hm.enqueueBound hN t ⟨i, fr, fs, ht, hF, hp⟩

/-- A FIFO of capacity `1` with `BLOCK_MAX_OUTPUT`, holding two items after two pushes: a third
push takes the lock without waiting and reaches the store with `N + 1 = 2` items queued. -/
theorem reachable_enqueue_within_two :
    ∃ m, Reachable (fun _ _ => True) (fun m => (m.store.fifos 0).maxQueued = 1) m ∧
      m.threads 0 = .push (some 7) [⟨0, 0, .enqueue false, [], .ok⟩] ∧
      (m.store.fifos 0).numQueued = 2 ∧ (m.store.fifos 0).numQueued ≤ 1 + 1 := by
  have h₀ := (((Store.Reachable.init fun _ => true).create 1 ⟨false, true, false, false⟩).push_getD
    0 (some 7) rfl rfl).push_getD 0 (some 7) rfl rfl
  have h₁ := Reachable.step (Reachable.step (Reachable.init (A := fun _ _ => True)
      (P := fun m => (m.store.fifos 0).maxQueued = 1) h₀ rfl)
    (@Step.startPush _ _ 0 0 (some 7) rfl trivial) rfl)
    (@Step.pushLock _ _ 0 (some 7) ⟨0, 0, .acquire, [], .ok⟩ [] rfl rfl rfl rfl) rfl
  exact ⟨_, h₁, rfl, rfl, reachable_enqueue_within (t := 0) Int.one_pos h₁ rfl rfl rfl⟩

/-- A FIFO of capacity `1` with `BLOCK_MAX_OUTPUT`, holding three items after three pushes
that did not block: a fourth push waits on `cond_out`, the wait ends spuriously with the
queue still over the threshold, and the push stores a fourth item. -/
theorem blocking_push_overshoot :
    ∃ m m', Reachable (fun _ op => ∀ dst, op ≠ .push dst none)
        (fun m => (m.store.fifos 0).maxQueued = 1 ∧
          (m.store.fifos 0).blockFlags.blockMaxOutput = true) m ∧
      Step (fun _ op => ∀ dst, op ≠ .push dst none) m m' ∧
      (m.store.fifos 0).numQueued = 3 ∧ m'.log = m.log ++ [⟨0, some 7, [(0, 0)]⟩] ∧
      (m'.store.fifos 0).numQueued = 4 := by
  have h₀ := ((((Store.Reachable.init fun _ => true).create 1 ⟨false, true, false, false⟩).push_getD
    0 (some 7) rfl rfl).push_getD 0 (some 7) rfl rfl).push_getD 0 (some 7) rfl rfl
  have h₁ := Reachable.step (Reachable.init (A := fun _ op => ∀ dst, op ≠ .push dst none)
      (P := fun m => (m.store.fifos 0).maxQueued = 1 ∧
        (m.store.fifos 0).blockFlags.blockMaxOutput = true) h₀ ⟨rfl, rfl⟩)
    (@Step.startPush _ _ 0 0 (some 7) rfl fun _ => by simp) ⟨rfl, rfl⟩
  have h₂ := h₁.step (@Step.pushWait _ _ 0 (some 7) ⟨0, 0, .acquire, [], .ok⟩ [] rfl rfl rfl rfl)
    ⟨rfl, rfl⟩
  have h₃ := h₂.step (@Step.pushWake _ _ 0 (some 7) ⟨0, 0, .waitOut, [], .ok⟩ [] rfl rfl)
    ⟨rfl, rfl⟩
  have h₄ := h₃.step (@Step.pushReacquire _ _ 0 (some 7) ⟨0, 0, .reacquire, [], .ok⟩ []
    rfl rfl rfl) ⟨rfl, rfl⟩
  exact ⟨_, _, h₄, @Step.pushAppend _ _ 0 (some 7) ⟨0, 0, .enqueue true, [], .ok⟩ [] true _
    rfl rfl rfl, rfl, rfl, rfl⟩

end Machine

end Txproto
