-- SUMMARY: What the queues hold over every interleaving: each array holds its slots, so no pop fails its assert, and each queue is what is left of its first queue followed by the items logged as appended to it, in order.
import Txproto.Fifo.Slots
import Txproto.Threads.Backpressure

/-!
# The queues over every interleaving

A FIFO's array changes only under its lock, in two places of the template: the store of a
clone at `queued[num_queued]` in `fifo_push` (lines 357-367) and the pop of the head in
`fifo_pull_flags_template` (lines 445-453). `Machine.Step.arrays_cases` says so of every step
of the machine; every invariant of this module is derived from it.

* `Machine.Step.fits`: the arrays keep holding their slots (`Store.Fits`), so the pop's
  `assert(ctx->num_queued >= 0)` never fails.
* `Machine.Step.queue_cases`: a step leaves a queue alone, appends at its tail the item the
  log records as appended there, or takes its head in a pop. Over a run from `init s`, each
  queue is a suffix of its queue in `s` followed by the items appended to it, in the order of
  the appends (`Machine.run_queue_suffix`): no item is lost from the middle, duplicated or
  reordered, whatever the interleaving.
-/

namespace Txproto

namespace Store

/-- The loop of a pull changes nothing of the array. -/
theorem arraysKept_pullSection (s : Store) (src : FifoId) (resume : Bool) (flags : Flags) :
    s.ArraysKept (s.modify src fun _ => (pullSection resume flags (s.fifos src)).1) :=
  have h := (pullSection_spec resume flags (s.fifos src)).1
  arraysKept_modify s src _ (by rw [h]) (by rw [h]) (by rw [h])

theorem arraysKept_pushEnqueue_false {s s' : Store} {dst : FifoId} {x : Item}
    (he : s.pushEnqueue dst x = (false, s')) : s.ArraysKept s' := by
  obtain ⟨size, hf⟩ := s.pushEnqueue_fifos dst x
  rw [he] at hf
  exact arraysKept_of_fifos hf

end Store

namespace Machine

/-- The items appended to `F`, in the order of the appends. -/
def appendsAt (F : FifoId) (log : List Append) : List Item :=
  (log.filter fun a => a.fifo = F).map Append.item

@[simp] theorem appendsAt_append (F : FifoId) (l₁ l₂ : List Append) :
    appendsAt F (l₁ ++ l₂) = appendsAt F l₁ ++ appendsAt F l₂ := by
  simp [appendsAt]

@[simp] theorem appendsAt_singleton (F G : FifoId) (x : Item) (cs : List (CallId × FifoId)) :
    appendsAt F [⟨G, x, cs⟩] = if G = F then [x] else [] := by
  by_cases h : G = F <;> simp [appendsAt, h]

variable {A : ThreadId → Op → Prop} {m m' : Machine}

/-- What a step does to the arrays and the log: nothing to the arrays and the log; the store
of a clone at the FIFO of a push's top level, which the log records; or the pop of the head
by a pull whose loop left for it. -/
theorem Step.arrays_cases (hs : Step A m m') :
    (m.store.ArraysKept m'.store ∧ m'.log = m.log) ∨
    (∃ t x fr fs w, m.threads t = .push x (fr :: fs) ∧ fr.phase = .enqueue w ∧
      m.store.pushEnqueue fr.fifo x = (true, m'.store) ∧
      m'.log = m.log ++ [⟨fr.fifo, x, (fr :: fs).map fun f => (f.call, f.fifo)⟩]) ∨
    (∃ t src flags resume, m.threads t = .pull src flags true (.acquire resume) ∧
      m'.threads t = .idle ∧ (pullSection resume flags (m.store.fifos src)).2 = .take ∧
      m'.store = ((m.store.modify src fun _ =>
        (pullSection resume flags (m.store.fifos src)).1).pullTake src true).1 ∧
      m'.log = m.log) := by
  cases hs with
  | startPush _ _ | startPull _ _ | startPoke _ _ | startSetMaxQueued _ _
  | startSetBlockFlags _ _ | startUnmirrorFail _ _ _ | startUnmirrorAll _ _ | pushSkip _ _ _ _
  | pushFull _ _ _ _ | pushWait _ _ _ _ | pushLock _ _ _ _ | pushWake _ _ | pushReacquire _ _ _
  | pushDescend _ _ _ | pushDone _ _ _ | pullAbort _ _ _ _ _ | pullWake _ | pokeSignal _
  | unmirrorFail _ _ | unmirrorAllLock _ _ =>
    exact .inl ⟨.refl _, rfl⟩
  | startMirror _ _ => exact .inl ⟨(Store.appendSource_listsOnly _ _ _).arraysKept, rfl⟩
  | mirrorDest _ => exact .inl ⟨(Store.appendDest_listsOnly _ _ _).arraysKept, rfl⟩
  | startUnmirror _ _ hp =>
    exact .inl ⟨(Store.listsOnly_of_eq (Store.popDest_listsOnly _ _ _) hp).arraysKept, rfl⟩
  | unmirrorSource _ hp =>
    exact .inl ⟨(Store.listsOnly_of_eq (Store.popSource_listsOnly _ _ _) hp).arraysKept, rfl⟩
  | unmirrorAllSource _ hp | unmirrorAllSourcesDone _ hp =>
    exact .inl ⟨(Store.listsOnly_of_eq (Store.popFirstSource_listsOnly _ _) hp).arraysKept, rfl⟩
  | unmirrorAllDest _ hp | unmirrorAllDone _ hp =>
    exact .inl ⟨(Store.listsOnly_of_eq (Store.popFirstDest_listsOnly _ _) hp).arraysKept, rfl⟩
  | unmirrorAllUnlinkSource _ => exact .inl ⟨(Store.popDest_listsOnly _ _ _).arraysKept, rfl⟩
  | unmirrorAllUnlinkDest _ => exact .inl ⟨(Store.popSource_listsOnly _ _ _).arraysKept, rfl⟩
  | pushNoMem _ _ he => exact .inl ⟨Store.arraysKept_pushEnqueue_false he, rfl⟩
  | pushAppend ht hp he => exact .inr (.inl ⟨_, _, _, _, _, ht, hp, he, rfl⟩)
  | @pullTake t src flags pop resume ht _ htake _ =>
    cases pop with
    | true =>
      exact .inr (.inr ⟨t, src, flags, resume, ht, Function.update_same _ _ _, htake, rfl, rfl⟩)
    | false =>
      exact .inl ⟨(Store.arraysKept_pullSection m.store src resume flags).trans
        (Store.arraysKept_of_fifos (funext fun _ => by simp)), rfl⟩
  | pullAgain _ _ _ | pullWait _ _ _ => exact .inl ⟨Store.arraysKept_pullSection _ _ _ _, rfl⟩
  | pokeSet _ _ => exact .inl ⟨Store.arraysKept_modify _ _ (fun f => { f with poked := true })
      rfl rfl rfl, rfl⟩
  | @setMaxQueued _ _ n _ _ => exact .inl ⟨Store.arraysKept_modify _ _
      (fun f => { f with maxQueued := n }) rfl rfl rfl, rfl⟩
  | @setBlockFlags _ _ flags _ _ => exact .inl ⟨Store.arraysKept_modify _ _
      (fun f => { f with blockFlags := flags }) rfl rfl rfl, rfl⟩

/-- Every step keeps every array holding its slots. -/
theorem Step.fits (hs : Step A m m') (h : m.store.Fits) : m'.store.Fits := by
  rcases hs.arrays_cases with ⟨hk, -⟩ | ⟨_, _, _, _, _, -, -, he, -⟩ |
    ⟨_, src, flags, resume, -, -, htake, hst, -⟩
  · exact hk.fits h
  · exact h.pushEnqueue_of_eq he
  · rw [hst]
    have hk := m.store.arraysKept_pullSection src resume flags
    exact (hk.fits h).pullTake fun _ =>
      (hk.numQueued src).trans_ne ((pullSection_spec resume flags _).2.2.1 htake)

/-- In every state of every run, every array holds its slots. -/
theorem Reachable.fits {P : Machine → Prop} (hm : Reachable A P m) : m.store.Fits := by
  induction hm with
  | init hs _ => exact hs.fits
  | step _ hs _ ih => exact hs.fits ih

/-- What a step may do to the queue of `F`: leave it, with no append to `F` logged; append at
its tail the item the log records as appended to `F`, by a push whose top level is at `F`; or
take its head, by a pull from `F` that then returns. -/
def QueueStep (F : FifoId) (m m' : Machine) : Prop :=
  ((m'.store.fifos F).view = (m.store.fifos F).view ∧ appendsAt F m'.log = appendsAt F m.log) ∨
  (∃ t x fr fs w, m.threads t = .push x (fr :: fs) ∧ fr.fifo = F ∧ fr.phase = .enqueue w ∧
    (m'.store.fifos F).view = (m.store.fifos F).view ++ [x] ∧
    appendsAt F m'.log = appendsAt F m.log ++ [x]) ∨
  (∃ t flags resume, m.threads t = .pull F flags true (.acquire resume) ∧ m'.threads t = .idle ∧
    (m.store.fifos F).view ≠ [] ∧ (m'.store.fifos F).view = (m.store.fifos F).view.tail ∧
    appendsAt F m'.log = appendsAt F m.log)

/-- Every step from a store whose arrays fit does to each queue what `QueueStep` allows. -/
theorem Step.queue_cases (hs : Step A m m') (hfit : m.store.Fits) (F : FifoId) :
    QueueStep F m m' := by
  rcases hs.arrays_cases with ⟨hk, hlog⟩ | ⟨t, x, fr, fs, w, ht, hp, he, hlog⟩ |
    ⟨t, src, flags, resume, ht, ht', htake, hst, hlog⟩
  · exact .inl ⟨hk.view F, by rw [hlog]⟩
  · obtain ⟨size, hf⟩ := m.store.pushEnqueue_fifos fr.fifo x
    rw [he, if_pos rfl] at hf
    by_cases hF : fr.fifo = F
    · subst hF
      refine .inr (.inl ⟨t, x, fr, fs, w, ht, rfl, hp, ?_, by simp [hlog]⟩)
      rw [hf, Function.update_same, Fifo.view_enqueue (hfit _).nonneg]
    · exact .inl ⟨by rw [hf, Function.update_noteq (Ne.symm hF)], by simp [hlog, hF]⟩
  · have hk := m.store.arraysKept_pullSection src resume flags
    by_cases hF : src = F
    · subst hF
      -- the loop left for the head, so a slot is in use
      have hn : 0 < (m.store.fifos src).numQueued := lt_of_le_of_ne (hfit src).nonneg
        (Ne.symm ((pullSection_spec resume flags _).2.2.1 htake))
      refine .inr (.inr ⟨t, flags, resume, ht, ht', ?_, ?_, by rw [hlog]⟩)
      · rw [← List.length_pos, Fifo.length_view]; omega
      · rw [hst, Store.pullTake_fifos, if_pos ⟨rfl, rfl⟩,
          Fifo.view_popHead (by rw [hk.numQueued src]; exact hn), hk.view]
    · refine .inl ⟨?_, by rw [hlog]⟩
      rw [hst, Store.pullTake_fifos, if_neg fun h => hF h.2.symm, hk.view]

/-- Over a run from `init s`, every queue is a suffix of its queue in `s` followed by the items
appended to it, in the order of the appends. -/
theorem queue_suffix_of_run {s : Store} (hs : s.Fits)
    (hrun : Relation.ReflTransGen (Step A) (init s) m) :
    m.store.Fits ∧ ∀ F, (m.store.fifos F).view <:+ (s.fifos F).view ++ appendsAt F m.log := by
  induction hrun with
  | refl => exact ⟨hs, fun F => ⟨[], by simp [init, appendsAt]⟩⟩
  | tail _ hstep ih =>
    obtain ⟨hfit, hsuf⟩ := ih
    refine ⟨hstep.fits hfit, fun F => ?_⟩
    rcases hstep.queue_cases hfit F with ⟨hv, ha⟩ | ⟨_, x, _, _, _, -, -, -, hv, ha⟩ |
      ⟨_, _, _, -, -, -, hv, ha⟩
    · rw [hv, ha]; exact hsuf F
    · obtain ⟨l, hl⟩ := hsuf F
      exact ⟨l, by rw [hv, ha, ← List.append_assoc, hl, List.append_assoc]⟩
    · rw [hv, ha]; exact (List.tail_suffix _).trans (hsuf F)

/-- In every state of every run of the threads, every FIFO's array holds its slots, and a pull
whose loop leaves for the head finds a slot in use: the pop's `assert(ctx->num_queued >= 0)`
after `ctx->num_queued--` never fails. -/
theorem reachable_arrays_fit {P : Machine → Prop} (hm : Reachable A P m) :
    m.store.Fits ∧ ∀ F resume flags, (pullSection resume flags (m.store.fifos F)).2 = .take →
      0 ≤ (m.store.fifos F).numQueued - 1 := by
  have h := hm.fits
  refine ⟨h, fun F resume flags htake => ?_⟩
  have := (pullSection_spec resume flags _).2.2.1 htake
  have := (h F).nonneg
  omega

/-- A FIFO of capacity `2` that thread `0` has pushed item `7` to. -/
theorem reachable_arrays_fit_push :
    ∃ m, Reachable (fun _ _ => True) (fun _ => True) m ∧ (m.store.fifos 0).numQueued = 1 ∧
      m.store.Fits ∧ ∀ F resume flags, (pullSection resume flags (m.store.fifos F)).2 = .take →
        0 ≤ (m.store.fifos F).numQueued - 1 := by
  have h := ((Reachable.init (A := fun _ _ => True) (P := fun _ => True)
    ((Store.Reachable.init fun _ => true).create 2 Flags.none) trivial).step
    (@Step.startPush _ _ 0 0 (some 7) rfl trivial) trivial).step
    (@Step.pushLock _ _ 0 (some 7) ⟨0, 0, .acquire, [], .ok⟩ [] rfl rfl rfl rfl) trivial |>.step
    (@Step.pushAppend _ _ 0 (some 7) ⟨0, 0, .enqueue false, [], .ok⟩ [] false _ rfl rfl rfl)
    trivial
  exact ⟨_, h, rfl, reachable_arrays_fit h⟩

/-- Across every interleaving, no item of a queue is lost from the middle, duplicated or
reordered: over a run from `init s`, the queue of every FIFO `F` is a suffix of its queue in `s`
followed by the items appended to `F`, in the order of the appends, and every step from there
leaves it, appends at its tail the item the log records, or takes its head in a pop. -/
theorem run_queues_fifo {s : Store} (hs : s.Reachable)
    (hrun : Relation.ReflTransGen (Step A) (init s) m) (F : FifoId) :
    (m.store.fifos F).view <:+ (s.fifos F).view ++ appendsAt F m.log ∧
      ∀ m', Step A m m' → QueueStep F m m' :=
  have h := queue_suffix_of_run hs.fits hrun
  ⟨h.2 F, fun _ hs' => hs'.queue_cases h.1 F⟩

/-- Thread `0` pushes item `7` to a FIFO of capacity `2` and returns; thread `1` then pops it. -/
theorem run_queues_fifo_pop :
    let s := ((Store.init fun _ => true).fifoCreate 2 Flags.none).2
    s.Reachable ∧ ∃ m, Relation.ReflTransGen (Step fun _ _ => True) (init s) m ∧
      appendsAt 0 m.log = [some 7] ∧
      ((m.store.fifos 0).view <:+ (s.fifos 0).view ++ appendsAt 0 m.log ∧
        ∀ m', Step (fun _ _ => True) m m' → QueueStep 0 m m') := by
  intro s
  have h₀ : s.Reachable := (Store.Reachable.init fun _ => true).create 2 Flags.none
  have hrun := Relation.ReflTransGen.tail (Relation.ReflTransGen.tail
    (Relation.ReflTransGen.tail (Relation.ReflTransGen.tail (Relation.ReflTransGen.tail
      (Relation.ReflTransGen.single (r := Step fun _ _ => True) (a := init s)
        (@Step.startPush _ _ 0 0 (some 7) rfl trivial))
      (@Step.pushLock _ _ 0 (some 7) ⟨0, 0, .acquire, [], .ok⟩ [] rfl rfl rfl rfl))
      (@Step.pushAppend _ _ 0 (some 7) ⟨0, 0, .enqueue false, [], .ok⟩ [] false _ rfl rfl rfl))
      (@Step.pushDone _ _ 0 (some 7) ⟨0, 0, .distribute, [], .ok⟩ [] rfl rfl rfl))
      (@Step.startPull _ _ 1 0 Flags.none true rfl trivial))
    (@Step.pullTake _ _ 1 0 Flags.none true false rfl rfl
      (by rw [pullSection, if_neg Bool.false_ne_true, Fifo.pullLoop_eq, if_pos (by decide)])
      (by decide))
  exact ⟨h₀, _, hrun, rfl, run_queues_fifo h₀ hrun 0⟩

-- ---------------------------------------------------------------------------
-- Capacity over every interleaving
-- ---------------------------------------------------------------------------

end Machine

/-- The phases of a level of `fifo_push` that came through its wait on `cond_out`. -/
def PushPhase.waited : PushPhase → Bool
  | .waitOut | .reacquire | .enqueue true => true
  | _ => false

theorem Fifo.blockMaxOutput_of_pushCheck {f : Fifo} {x : Item} (h : f.pushCheck x = .wait) :
    f.blockFlags.blockMaxOutput = true := by
  unfold Fifo.pushCheck at h; split_ifs at h; assumption

theorem Pc.eq_of_signal_eq_push {pc : Pc} {G : FifoId} {x : Item} {fs : List Frame}
    (h : pc.signal G = .push x fs) : pc = .push x fs := by
  revert h; unfold Pc.signal; split <;> simp

namespace Machine

variable {A : ThreadId → Op → Prop} {m m' : Machine}

/-- `F` has capacity `N` and `BLOCK_MAX_OUTPUT` clear: a push of a non-`NULL` item over its
limit returns `ENOBUFS` instead of waiting on `cond_out`. -/
def NonBlocking (F : FifoId) (N : Int) (m : Machine) : Prop :=
  (m.store.fifos F).maxQueued = N ∧ (m.store.fifos F).blockFlags.blockMaxOutput = false

/-- Every push in progress is of a non-`NULL` item, and none of its levels at `F` has waited
on `cond_out`. -/
def PushesOk (F : FifoId) (m : Machine) : Prop :=
  ∀ t x fs, m.threads t = .push x fs → x ≠ none ∧ ∀ g ∈ fs, g.fifo = F → g.phase.waited = false

section PushesOk

variable {F : FifoId}

theorem PushesOk.setPc (h : PushesOk F m) {t : ThreadId} {pc : Pc}
    (hpc : ∀ x fs, pc = .push x fs → x ≠ none ∧ ∀ g ∈ fs, g.fifo = F → g.phase.waited = false) :
    PushesOk F (m.setPc t pc) := fun u x fs hu => by
  by_cases hut : u = t
  · subst hut; rw [setPc_threads, Function.update_same] at hu; exact hpc x fs hu
  · rw [setPc_threads, Function.update_noteq hut] at hu; exact h u x fs hu

theorem PushesOk.signal (h : PushesOk F m) (G : FifoId) : PushesOk F (m.signal G) :=
  fun u x fs hu => h u x fs (Pc.eq_of_signal_eq_push hu)

/-- A thread that is not in a push. -/
theorem PushesOk.setPc_of_not (h : PushesOk F m) {t : ThreadId} {pc : Pc}
    (hpc : ∀ x fs, pc ≠ .push x fs) : PushesOk F (m.setPc t pc) :=
  h.setPc fun x fs he => absurd he (hpc x fs)

/-- The top level of a push moves to `fr'`. -/
theorem PushesOk.top (h : PushesOk F m) {t : ThreadId} {x : Item} {fr : Frame} {fs : List Frame}
    (ht : m.threads t = .push x (fr :: fs)) (fr' : Frame)
    (hfr : fr'.fifo = F → fr'.phase.waited = false) :
    PushesOk F (m.setPc t (.push x (fr' :: fs))) := h.setPc fun x' fs' he => by
  obtain ⟨rfl, rfl⟩ := Pc.push.inj he
  obtain ⟨hx, hg⟩ := h t _ _ ht
  exact ⟨hx, fun g hg' hF => (List.mem_cons.1 hg').elim (fun e => e ▸ hfr (e ▸ hF))
    fun hg' => hg g (List.mem_cons_of_mem _ hg') hF⟩

/-- The top level of a push returns to its caller. -/
theorem PushesOk.pushReturn (h : PushesOk F m) {t : ThreadId} {x : Item} {fr : Frame}
    {fs : List Frame} (ht : m.threads t = .push x (fr :: fs)) (r : Ret) :
    PushesOk F (m.setPc t (Pc.pushReturn x fs r)) := h.setPc fun x' fs' he => by
  obtain ⟨hx, hg⟩ := h t _ _ ht
  cases fs with
  | nil => cases he
  | cons p fs =>
    obtain ⟨rfl, rfl⟩ := Pc.push.inj he
    refine ⟨hx, fun g hg' hF => ?_⟩
    rcases List.mem_cons.1 hg' with rfl | hg'
    · exact hg p (List.mem_cons_of_mem _ (List.mem_cons_self _ _)) hF
    · exact hg g (List.mem_cons_of_mem _ (List.mem_cons_of_mem _ hg')) hF

/-- Every step keeps it, while `F` does not block pushes and no thread pushes `NULL`. -/
theorem PushesOk.step (h : PushesOk F m) {N : Int} (hP : NonBlocking F N m)
    (hA : ∀ t dst, ¬ A t (.push dst none)) (hs : Step A m m') : PushesOk F m' := by
  cases hs with
  | @startPush t dst x _ hA' =>
    refine h.setPc fun x' fs he => ?_
    obtain ⟨rfl, rfl⟩ := Pc.push.inj he
    exact ⟨fun hx => hA t dst (hx ▸ hA'), fun g hg _ => by rw [List.mem_singleton.1 hg]; rfl⟩
  | startPull _ _ | startPoke _ _ | startSetMaxQueued _ _ | startSetBlockFlags _ _
  | startUnmirrorFail _ _ _ | startUnmirrorAll _ _ | pullTake _ _ _ _ | pullAbort _ _ _ _ _
  | pullAgain _ _ _ | pullWait _ _ _ | pullWake _ | pokeSet _ _ | setMaxQueued _ _
  | setBlockFlags _ _ | unmirrorFail _ _ | unmirrorAllLock _ _ | unmirrorAllSource _ _
  | unmirrorAllUnlinkSource _ | unmirrorAllSourcesDone _ _ | unmirrorAllDest _ _
  | unmirrorAllDone _ _ | startMirror _ _ | startUnmirror _ _ _ | mirrorDest _
  | unmirrorSource _ _ =>
    exact h.setPc_of_not nofun
  | pokeSignal _ | unmirrorAllUnlinkDest _ => exact (h.signal _).setPc_of_not nofun
  | pushSkip ht _ _ _ | pushLock ht _ _ _ => exact h.top ht _ fun _ => rfl
  | pushFull ht _ _ _ | pushNoMem ht _ _ | pushDone ht _ _ => exact h.pushReturn ht _
  | @pushWait t x fr fs ht _ _ hc =>
    exact h.top ht _ fun hF => absurd (Fifo.blockMaxOutput_of_pushCheck hc) (by rw [hF, hP.2]; simp)
  | @pushWake t x fr fs ht hp | @pushReacquire t x fr fs ht hp _ =>
    exact h.top ht _ fun hF => absurd ((h t _ _ ht).2 fr (List.mem_cons_self _ _) hF)
      (by simp [hp, PushPhase.waited])
  | @pushAppend t x fr fs w s' ht _ _ =>
    have ht' : (m.signal fr.fifo).threads t = .push x (fr :: fs) := by
      show (m.threads t).signal fr.fifo = _; rw [ht]; rfl
    exact (h.signal _).top ht' _ fun _ => rfl
  | @pushDescend t x fr fs d rest ht _ _ =>
    refine h.setPc fun x' fs' he => ?_
    obtain ⟨rfl, rfl⟩ := Pc.push.inj he
    obtain ⟨hx, hg⟩ := h t _ _ ht
    refine ⟨hx, fun g hg' hF => ?_⟩
    rcases List.mem_cons.1 hg' with rfl | hg'
    · rfl
    rcases List.mem_cons.1 hg' with rfl | hg'
    · exact hg fr (List.mem_cons_self _ _) hF
    · exact hg g (List.mem_cons_of_mem _ hg') hF

end PushesOk

/-- One step keeps `F` within `N + 2` items: a push that stores at `F` has not waited and
pushes a non-`NULL` item, so it found at most `N + 1` there (`Machine.EnqueueBound`). -/
theorem numQueued_step {F : FifoId} {N : Int} (hN : 0 < N) (hm : Reachable A (NonBlocking F N) m)
    (hok : PushesOk F m) (hq : (m.store.fifos F).numQueued ≤ N + 2) (hs : Step A m m') :
    (m'.store.fifos F).numQueued ≤ N + 2 := by
  rcases hs.arrays_cases with ⟨hk, -⟩ | ⟨t, x, fr, fs, w, ht, hp, he, -⟩ |
    ⟨-, src, flags, resume, -, -, -, hst, -⟩
  · rw [hk.numQueued]; exact hq
  · obtain ⟨size, hf⟩ := m.store.pushEnqueue_fifos fr.fifo x
    rw [he, if_pos rfl] at hf
    by_cases hF : fr.fifo = F
    · subst hF
      obtain ⟨hx, hg⟩ := hok t x _ ht
      obtain ⟨i, rfl⟩ := Option.ne_none_iff_exists'.1 hx
      -- the top level has not waited, so it is at the store as `EnqueueBound` counts it
      obtain rfl : w = false := by
        have := hg fr (List.mem_cons_self _ _) rfl
        rw [hp] at this; cases w
        · rfl
        · cases this
      have hb := (hm.mono fun _ h => h.1).enqueueBound hN t ⟨i, fr, fs, ht, rfl, hp⟩
      rw [hf, Function.update_same]; simp only [Fifo.enqueue]; omega
    · rw [hf, Function.update_noteq (Ne.symm hF)]; exact hq
  · have hk := m.store.arraysKept_pullSection src resume flags
    rw [hst, Store.pullTake_fifos]
    split_ifs with h
    · obtain ⟨-, rfl⟩ := h
      simp only [Fifo.popHead]; rw [hk.numQueued]; omega
    · rw [hk.numQueued]; exact hq

/-- Over a run from `init s` in which `F` keeps capacity `N` and does not block pushes, and no
thread pushes `NULL`: the states are those of a run, every push in progress is as
`PushesOk` says, and `F` holds at most `N + 2` items if it did in `s`. -/
theorem capacity_of_run {F : FifoId} {N : Int} (hN : 0 < N) {s : Store} (hs : s.Reachable)
    (hA : ∀ t dst, ¬ A t (.push dst none)) (h₀ : NonBlocking F N (init s))
    (hq : (s.fifos F).numQueued ≤ N + 2)
    (hrun : Relation.ReflTransGen (fun a b => Step A a b ∧ NonBlocking F N b) (init s) m) :
    Reachable A (NonBlocking F N) m ∧ PushesOk F m ∧ (m.store.fifos F).numQueued ≤ N + 2 := by
  induction hrun with
  | refl => exact ⟨.init hs h₀, (fun _ _ _ h => nomatch h), hq⟩
  | tail _ hstep ih =>
    obtain ⟨hm, hok, hb⟩ := ih
    exact ⟨hm.step hstep.1 hstep.2, hok.step hm.holds hA hstep.1,
      numQueued_step hN hm hok hb hstep.1⟩

/-- The capacity of a FIFO that does not block pushes holds over every interleaving: for every
`N > 0`, over any run of threads pushing non-`NULL` items to any FIFOs and making any other
calls, in which `F` keeps `max_queued = N` and `BLOCK_MAX_OUTPUT` clear, `F` never holds more
than `N + 2` items if it held at most `N + 2` when the run began. -/
theorem run_numQueued_le {F : FifoId} {N : Int} (hN : 0 < N) {s : Store} (hs : s.Reachable)
    (hA : ∀ t dst, ¬ A t (.push dst none)) (h₀ : NonBlocking F N (init s))
    (hq : (s.fifos F).numQueued ≤ N + 2)
    (hrun : Relation.ReflTransGen (fun a b => Step A a b ∧ NonBlocking F N b) (init s) m) :
    (m.store.fifos F).numQueued ≤ N + 2 :=
  (capacity_of_run hN hs hA h₀ hq hrun).2.2

/-- A FIFO of capacity `1` without `BLOCK_MAX_OUTPUT`, which thread `0` pushes item `7` to. -/
theorem run_numQueued_le_push :
    let s := ((Store.init fun _ => true).fifoCreate 1 Flags.none).2
    ∃ m, Relation.ReflTransGen (fun a b => Step (fun _ op => ∀ dst, op ≠ .push dst none) a b ∧
      NonBlocking 0 1 b) (init s) m ∧ (m.store.fifos 0).numQueued = 1 ∧
      (0 : Int) < 1 ∧ s.Reachable ∧ NonBlocking 0 1 (init s) ∧ (s.fifos 0).numQueued ≤ 1 + 2 ∧
      (m.store.fifos 0).numQueued ≤ 1 + 2 := by
  intro s
  have h₀ : s.Reachable := (Store.Reachable.init fun _ => true).create 1 Flags.none
  have hrun := Relation.ReflTransGen.tail (Relation.ReflTransGen.tail
    (Relation.ReflTransGen.single
      (r := fun a b => Step (fun _ op => ∀ dst, op ≠ .push dst none) a b ∧ NonBlocking 0 1 b)
      (a := init s) ⟨@Step.startPush _ _ 0 0 (some 7) rfl fun _ => nofun, rfl, rfl⟩)
    ⟨@Step.pushLock _ _ 0 (some 7) ⟨0, 0, .acquire, [], .ok⟩ [] rfl rfl rfl rfl, rfl, rfl⟩)
    ⟨@Step.pushAppend _ _ 0 (some 7) ⟨0, 0, .enqueue false, [], .ok⟩ [] false _ rfl rfl rfl,
      rfl, rfl⟩
  exact ⟨_, hrun, rfl, Int.one_pos, h₀, ⟨rfl, rfl⟩, by decide,
    run_numQueued_le Int.one_pos h₀ (fun _ dst h => h dst rfl) ⟨rfl, rfl⟩ (by decide) hrun⟩

end Machine

end Txproto
