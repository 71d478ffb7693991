-- SUMMARY: No lost wake-up on cond_in: a consumer that waits with no signal since it began waits on a FIFO with no item and no poke, or on one a poke is about to signal.
import Txproto.Threads.Machine

/-!
# Wake-ups on `cond_in`

A pull waits on `cond_in` only from its critical section, having found the queue empty and
no poke. Whatever can end that wait is done under the same lock and followed by a signal:
the enqueue of `fifo_push` signals before it unlocks, and `fifo_poke` sets `poked` under the
lock and signals after it. So a consumer that has had no signal since it began waiting waits
on a FIFO that is still `Quiet`, or on one whose poke has set `poked` and is about to signal
(`Machine.reachable_wait_alert`). No number of consumers or producers changes this.
-/

namespace Txproto

namespace Store

/-- No item queued at `F` and no poke pending. -/
def Quiet (s : Store) (F : FifoId) : Prop :=
  (s.fifos F).numQueued = 0 ∧ (s.fifos F).poked = false

theorem Quiet.of_listsOnly {s s' : Store} {F : FifoId} (h : s.Quiet F) (hl : s.ListsOnly s') :
    s'.Quiet F := by
  rw [Quiet, hl.numQueued, hl.poked]; exact h

theorem Quiet.of_modify {s : Store} {F f : FifoId} {g : Fifo → Fifo} (h : s.Quiet F)
    (hg : ∀ x, (g x).numQueued = x.numQueued ∧ (g x).poked = x.poked) : (s.modify f g).Quiet F := by
  simp only [Quiet, modify_fifos]; split_ifs with hF
  · subst hF; rw [(hg _).1, (hg _).2]; exact h
  · exact h

theorem Quiet.setMaxQueued {s : Store} {F : FifoId} (h : s.Quiet F) (dst : FifoId) (n : Int) :
    (s.fifoSetMaxQueued dst n).Quiet F := h.of_modify fun _ => ⟨rfl, rfl⟩

theorem Quiet.setBlockFlags {s : Store} {F : FifoId} (h : s.Quiet F) (dst : FifoId)
    (flags : Flags) : (s.fifoSetBlockFlags dst flags).Quiet F := h.of_modify fun _ => ⟨rfl, rfl⟩

theorem Quiet.modify_ne {s : Store} {F f : FifoId} {g : Fifo → Fifo} (h : s.Quiet F)
    (hF : F ≠ f) : (s.modify f g).Quiet F := by
  simp only [Quiet, modify_fifos, if_neg hF]; exact h

/-- The pull's critical section keeps `F` quiet, at `F` and elsewhere. -/
theorem Quiet.modify_pullSection {s : Store} {F src : FifoId} (h : s.Quiet F) (resume : Bool)
    (flags : Flags) : (s.modify src fun _ => (pullSection resume flags (s.fifos src)).1).Quiet F := by
  obtain ⟨hfst, hpoked, -, -⟩ := pullSection_spec resume flags (s.fifos src)
  simp only [Quiet, modify_fifos]
  split_ifs with hF
  · subst hF
    rw [hfst]
    cases hp : (pullSection resume flags (s.fifos F)).1.poked
    · exact ⟨h.1, rfl⟩
    · exact absurd (hpoked hp) (by simp [h.2])
  · exact h

end Store

namespace Pc

/-- A signal leaves a waiter unsignalled only when it is for another FIFO. -/
theorem eq_of_signal_eq_wait {pc : Pc} {F F' : FifoId} {flags : Flags} {pop : Bool}
    (h : pc.signal F' = .pull F flags pop (.wait false)) :
    pc = .pull F flags pop (.wait false) ∧ F ≠ F' := by
  unfold signal at h; split at h <;> aesop

theorem pushReturn_ne_pull (x : Item) (fs : List Frame) (r : Ret) (src : FifoId) (flags : Flags)
    (pop : Bool) (phase : PullPhase) : pushReturn x fs r ≠ .pull src flags pop phase := by
  cases fs <;> simp [pushReturn]

theorem signal_ne_wait (pc : Pc) (F : FifoId) (flags : Flags) (pop : Bool) :
    pc.signal F ≠ .pull F flags pop (.wait false) := fun h => (eq_of_signal_eq_wait h).2 rfl

end Pc

namespace Machine

/-- A consumer waiting on `F.cond_in` will be woken: `F` is quiet, or a poke that has set
`poked` is about to signal. -/
def Alert (m : Machine) (F : FifoId) : Prop :=
  m.store.Quiet F ∨ ∃ u, m.threads u = .poke F true

/-- Every consumer that has had no signal since it began waiting on `cond_in` waits on a FIFO
that is `Alert`. -/
def NoLostWakeup (m : Machine) : Prop :=
  ∀ c F flags pop, m.threads c = .pull F flags pop (.wait false) → m.Alert F

variable {m m' : Machine} {t : ThreadId}

/-- A step of thread `t` that changes the others at most by a signal, leaves an alert FIFO
alert: its queue stays quiet, and a poke about to signal is not `t`'s. -/
theorem Alert.of_step {F : FifoId} (h : m.Alert F)
    (hth : ∀ u ≠ t, m'.threads u = m.threads u ∨ ∃ F', m'.threads u = (m.threads u).signal F')
    (hold : m.threads t ≠ .poke F true) (hq : m.store.Quiet F → m'.store.Quiet F) :
    m'.Alert F := by
  refine h.imp hq fun ⟨u, hu⟩ => ⟨u, ?_⟩
  have hut : u ≠ t := fun e => hold (e ▸ hu)
  rcases hth u hut with h' | ⟨F', h'⟩ <;> rw [h', hu]; rfl

/-- One step keeps the wake-ups, given what it does: thread `t` starts a wait only on an alert
FIFO, the others change at most by a signal, and every FIFO stays alert or loses every
unsignalled waiter. -/
theorem NoLostWakeup.of_step (h : m.NoLostWakeup)
    (hth : ∀ u ≠ t, m'.threads u = m.threads u ∨ ∃ F', m'.threads u = (m.threads u).signal F')
    (hnew : ∀ F flags pop, m'.threads t = .pull F flags pop (.wait false) → m'.Alert F)
    (halert : ∀ F, m.Alert F →
      m'.Alert F ∨ ∀ c flags pop, m'.threads c ≠ .pull F flags pop (.wait false)) :
    m'.NoLostWakeup := by
  intro c F flags pop hc
  by_cases hct : c = t
  · exact hnew F flags pop (hct ▸ hc)
  · have hw : m.threads c = .pull F flags pop (.wait false) := by
      rcases hth c hct with h' | ⟨F', h'⟩
      · rwa [← h']
      · exact (Pc.eq_of_signal_eq_wait (h' ▸ hc)).1
    exact (halert F (h c F flags pop hw)).resolve_right fun hn => hn c flags pop hc

/-- The common case: thread `t`, at `pc`, starts no wait and is not a poke about to signal,
and every quiet FIFO stays quiet. -/
theorem NoLostWakeup.of_quiet (h : m.NoLostWakeup) {pc : Pc} (ht : m.threads t = pc)
    (hold : ∀ F, pc ≠ .poke F true)
    (hth : ∀ u ≠ t, m'.threads u = m.threads u ∨ ∃ F', m'.threads u = (m.threads u).signal F')
    (hnew : ∀ F flags pop, m'.threads t ≠ .pull F flags pop (.wait false))
    (hq : ∀ F, m.store.Quiet F → m'.store.Quiet F) : m'.NoLostWakeup :=
  h.of_step hth (fun F flags pop hw => absurd hw (hnew F flags pop))
    fun F hF => .inl (hF.of_step hth (ht ▸ hold F) (hq F))

theorem noLostWakeup_init (s : Store) : (init s).NoLostWakeup := fun _ _ _ _ h => by
  simp [init] at h

/-- Every step keeps the wake-ups. -/
theorem NoLostWakeup.step {A : ThreadId → Op → Prop} (h : m.NoLostWakeup) (hs : Step A m m') :
    m'.NoLostWakeup := by
  cases hs with
  | startPush ht _ | startPull ht _ | startPoke ht _ | startSetMaxQueued ht _
  | startSetBlockFlags ht _ | startUnmirrorFail ht _ _ | startUnmirrorAll ht _
  | pushSkip ht _ _ _ | pushWait ht _ _ _ | pushLock ht _ _ _ | pushWake ht _
  | pushReacquire ht _ _ | pushDescend ht _ _ | pullAbort ht _ _ _ _ | pullWake ht
  | unmirrorFail ht _ | unmirrorAllLock ht _ =>
    exact h.of_quiet ht (by simp) (fun u hu => .inl (by simp [hu])) (by simp) fun _ hq => hq
  | pushFull ht _ _ _ | pushDone ht _ _ =>
    exact h.of_quiet ht (by simp) (fun u hu => .inl (by simp [hu]))
      (by simp [Pc.pushReturn_ne_pull]) fun _ hq => hq
  | @pushNoMem t x fr fs w s' ht _ henq =>
    refine h.of_quiet ht (by simp) (fun u hu => .inl (by simp [hu]))
      (by simp [Pc.pushReturn_ne_pull]) fun F hq => ?_
    obtain ⟨size, he⟩ := m.store.pushEnqueue_fifos fr.fifo x
    simp only [henq, Bool.false_eq_true, if_false] at he
    simpa [Store.Quiet, he] using hq
  | startMirror ht _ =>
    exact h.of_quiet ht (by simp) (fun u hu => .inl (by simp [hu])) (by simp)
      fun _ hq => hq.of_listsOnly (Store.appendSource_listsOnly _ _ _)
  | mirrorDest ht =>
    exact h.of_quiet ht (by simp) (fun u hu => .inl (by simp [hu])) (by simp)
      fun _ hq => hq.of_listsOnly (Store.appendDest_listsOnly _ _ _)
  | startUnmirror ht _ hpop =>
    exact h.of_quiet ht (by simp) (fun u hu => .inl (by simp [hu])) (by simp)
      fun _ hq => hq.of_listsOnly (Store.listsOnly_of_eq (Store.popDest_listsOnly _ _ _) hpop)
  | unmirrorSource ht hpop =>
    exact h.of_quiet ht (by simp) (fun u hu => .inl (by simp [hu])) (by simp)
      fun _ hq => hq.of_listsOnly (Store.listsOnly_of_eq (Store.popSource_listsOnly _ _ _) hpop)
  | unmirrorAllSource ht hpop | unmirrorAllSourcesDone ht hpop =>
    exact h.of_quiet ht (by simp) (fun u hu => .inl (by simp [hu])) (by simp) fun _ hq =>
      hq.of_listsOnly (Store.listsOnly_of_eq (Store.popFirstSource_listsOnly _ _) hpop)
  | unmirrorAllDest ht hpop | unmirrorAllDone ht hpop =>
    exact h.of_quiet ht (by simp) (fun u hu => .inl (by simp [hu])) (by simp) fun _ hq =>
      hq.of_listsOnly (Store.listsOnly_of_eq (Store.popFirstDest_listsOnly _ _) hpop)
  | unmirrorAllUnlinkSource ht =>
    exact h.of_quiet ht (by simp) (fun u hu => .inl (by simp [hu])) (by simp)
      fun _ hq => hq.of_listsOnly (Store.popDest_listsOnly _ _ _)
  | @unmirrorAllUnlinkDest _ _ dst ht =>
    exact h.of_quiet ht (by simp) (fun u hu => .inr ⟨dst, by simp [hu]⟩) (by simp)
      fun _ hq => hq.of_listsOnly (Store.popSource_listsOnly _ _ _)
  | setMaxQueued ht _ =>
    exact h.of_quiet ht (by simp) (fun u hu => .inl (by simp [hu])) (by simp)
      fun _ hq => hq.setMaxQueued _ _
  | setBlockFlags ht _ =>
    exact h.of_quiet ht (by simp) (fun u hu => .inl (by simp [hu])) (by simp)
      fun _ hq => hq.setBlockFlags _ _
  | pullAgain ht _ _ =>
    exact h.of_quiet ht (by simp) (fun u hu => .inl (by simp [hu])) (by simp)
      fun _ hq => hq.modify_pullSection _ _
  | @pullTake t src flags pop resume ht _ hexit _ =>
    refine h.of_quiet ht (by simp) (fun u hu => .inl (by simp [hu])) (by simp) fun F hq => ?_
    by_cases hF : F = src
    · subst hF
      exact absurd hq.1 ((pullSection_spec _ _ _).2.2.1 hexit)
    · simpa [Store.Quiet, hF] using hq
  | @pullWait t src flags pop resume ht _ hexit =>
    obtain ⟨hfst, -, -, hw⟩ := pullSection_spec resume flags (m.store.fifos src)
    refine h.of_step (t := t) (fun u hu => .inl (by simp [hu])) (fun F _ _ hF => .inl ?_) fun G hG =>
      .inl (hG.of_step (t := t) (fun u hu => .inl (by simp [hu])) (by simp [ht]) (·.modify_pullSection _ _))
    simp only [setPc_threads, Function.update_same, Pc.pull.injEq] at hF
    rcases hF with ⟨rfl, -⟩
    simp only [Store.Quiet, setPc_store, setStore_store, Store.modify_fifos, if_pos rfl]
    rw [hfst]
    exact ⟨(hw hexit).1, (hw hexit).2⟩
  | @pokeSet t ref ht _ =>
    refine h.of_step (t := t) (fun u hu => .inl (by simp [hu])) (by simp) fun G hG => .inl ?_
    by_cases hG' : G = ref
    · exact .inr ⟨t, by simp [hG']⟩
    · exact hG.of_step (t := t) (fun u hu => .inl (by simp [hu])) (by simp [ht])
        (·.modify_ne (g := fun f => { f with poked := true }) hG')
  | @pokeSignal t ref ht =>
    refine h.of_step (t := t) (fun u hu => .inr ⟨ref, by simp [hu]⟩) (by simp) fun G hG => ?_
    by_cases hG' : G = ref
    · subst hG'
      refine .inr fun c flags pop => ?_
      by_cases hc : c = t
      · simp [hc]
      · simpa [hc] using Pc.signal_ne_wait _ _ _ _
    · exact .inl (hG.of_step (t := t) (fun u hu => .inr ⟨ref, by simp [hu]⟩) (by simp [ht, Ne.symm hG']) id)
  | @pushAppend t x fr fs w s' ht _ henq =>
    refine h.of_step (t := t) (fun u hu => .inr ⟨fr.fifo, by simp [hu]⟩) (by simp) fun G hG => ?_
    by_cases hG' : G = fr.fifo
    · subst hG'
      refine .inr fun c flags pop => ?_
      by_cases hc : c = t
      · simp [hc]
      · simpa [hc] using Pc.signal_ne_wait _ _ _ _
    · refine .inl (hG.of_step (t := t) (fun u hu => .inr ⟨fr.fifo, by simp [hu]⟩) (by simp [ht]) fun hq => ?_)
      obtain ⟨size, he⟩ := m.store.pushEnqueue_fifos fr.fifo x
      simp only [henq, if_true] at he
      simpa [Store.Quiet, he, hG'] using hq

/-- Every state of every run keeps the wake-ups. -/
theorem Reachable.noLostWakeup {A : ThreadId → Op → Prop} {P : Machine → Prop}
    (hm : Reachable A P m) : m.NoLostWakeup := by
  induction hm with
  | init _ _ => exact noLostWakeup_init _
  | step _ hs _ ih => exact ih.step hs

/-- A consumer waiting on `F.cond_in` waits on a FIFO with no item queued and no poke, or has
been signalled since it began waiting, or a poke that has set `poked` is about to signal. -/
theorem reachable_wait_alert {A : ThreadId → Op → Prop} {P : Machine → Prop}
    (hm : Reachable A P m) {c : ThreadId} {F : FifoId} {flags : Flags} {pop sig : Bool}
    (hc : m.threads c = .pull F flags pop (.wait sig)) :
    ((m.store.fifos F).numQueued = 0 ∧ (m.store.fifos F).poked = false) ∨ sig = true ∨
      ∃ u, m.threads u = .poke F true := by
  cases sig with
  | true => exact .inr (.inl rfl)
  | false => exact (hm.noLostWakeup c F flags pop hc).imp id .inr

/-- A pop on an empty FIFO that blocks on no input waits. -/
theorem reachable_wait_alert_pop :
    let s := ((Store.init fun _ => true).fifoCreate 1 ⟨true, false, false, false⟩).2
    let m₁ := (init s).setPc 0 (.pull 0 Flags.none true (.acquire false))
    let m := (m₁.setStore (s.modify 0 fun _ => (pullSection false Flags.none (s.fifos 0)).1)).setPc
      0 (.pull 0 Flags.none true (.wait false))
    ((m.store.fifos 0).numQueued = 0 ∧ (m.store.fifos 0).poked = false) ∨ false = true ∨
      ∃ u, m.threads u = .poke 0 true := by
  intro s m₁ m
  have h₀ : s.Reachable := (Store.Reachable.init _).create 1 _
  have h₁ : Reachable (fun _ _ => True) (fun _ => True) m :=
    .step (.step (.init h₀ trivial) (@Step.startPull _ _ 0 0 Flags.none true rfl trivial) trivial)
      (@Step.pullWait _ _ 0 0 Flags.none true false rfl rfl
        (by simp only [pullSection, Fifo.pullLoop_eq]; rfl)) trivial
  exact reachable_wait_alert (c := 0) h₁ rfl

end Machine

end Txproto
