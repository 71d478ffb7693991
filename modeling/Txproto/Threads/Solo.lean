-- SUMMARY: A call run alone on the concurrent machine: every call of the one-thread model but create and destroy is a run of the machine by the calling thread, from no call in progress back to none, ending with the store the call returns; and every run of the thread alone to the end of its call ends there.
import Txproto.Threads.Next

/-!
# A call run alone

The one-thread model (`Store.exec`) runs each call of the program as one function of the
store; the concurrent machine (`Machine.Step`) cuts the same call into atomic steps at its
mutex, condition-variable and buffer-list operations. When the calling thread runs alone
the steps compose to the one-thread call: from a machine with no call in progress and no
mutex held, a call that returns in the one-thread model is a run of the machine that ends
with the store the call returns, again with no call in progress and no mutex held
(`exec_runAlone`). A thread alone has one run (`Threads/Next.lean`), so conversely every run
of the thread alone that reaches the end of its call ends with that store
(`runAlone_store`).

The push is the case with structure. Its recursion (`pushAux`, with `distribute` over the
`dests` of each level) is the machine's stack of frames, one frame per level: a level holds
its lock from the check to the end of its loop, the `held` list of `pushAux` is the set of
mutexes the thread holds, and an `ENOMEM` returned to a loop halts it
(`pushAux_runAlone`). The one wait of the blocking path is a `pushWait`, a wake-up and a
`pushReacquire`. The two loops of `fifo_unmirror_all` run once per entry of the list they
empty (`unmirrorSources_runAlone`, `unmirrorDests_runAlone`).
-/

namespace Txproto

/-- The calls the machine runs: all but `fifo_create` and `fifo_destroy`, which the program
makes in its setup. -/
def Op.Threaded : Op → Prop
  | .create _ _ | .destroy _ => False
  | _ => True

namespace Store

/-- One pass of the first loop of `fifo_unmirror_all` takes one entry off `ref->sources`. -/
theorem popFirstSource_popDest_length {s s₁ : Store} {ref src : FifoId}
    (h : s.popFirstSource ref = (some src, s₁)) :
    (((s₁.popDest src ref).2.fifos ref).sources.length + 1 = (s.fifos ref).sources.length) := by
  have hm : src ∈ (s.fifos ref).sources := by
    simp only [popFirstSource, BufferList.popFirst, Prod.mk.injEq] at h
    exact List.mem_of_mem_head? h.1
  rw [popFirstSource_popDest h, unlink_sources, if_pos rfl, List.length_erase_of_mem hm]
  have := List.length_pos_of_mem hm
  omega

/-- One pass of the second loop of `fifo_unmirror_all` takes one entry off `ref->dests`. -/
theorem popFirstDest_popSource_length {s s₁ : Store} {ref dst : FifoId}
    (h : s.popFirstDest ref = (some dst, s₁)) :
    (((s₁.popSource dst ref).2.fifos ref).dests.length + 1 = (s.fifos ref).dests.length) := by
  have hm : dst ∈ (s.fifos ref).dests := by
    simp only [popFirstDest, BufferList.popFirst, Prod.mk.injEq] at h
    exact List.mem_of_mem_head? h.1
  rw [popFirstDest_popSource h, unlink_dests, if_pos rfl, List.length_erase_of_mem hm]
  have := List.length_pos_of_mem hm
  omega

end Store

namespace Machine

/-- No call in progress and no mutex held. -/
def Idle (m : Machine) : Prop := (∀ u, m.threads u = .idle) ∧ ∀ f, m.owner f = none

/-- Thread `t` runs alone and holds exactly the mutexes of `held`. -/
structure Alone (m : Machine) (t : ThreadId) (held : List FifoId) : Prop where
  others : ∀ u ≠ t, m.threads u = .idle
  owner : ∀ f, m.owner f = if f ∈ held then some t else none

variable {m m' : Machine} {t : ThreadId} {held : List FifoId}

theorem Idle.alone (h : m.Idle) (t : ThreadId) : m.Alone t [] :=
  ⟨fun u _ => h.1 u, fun f => by simp [h.2 f]⟩

theorem Alone.idle (h : m.Alone t []) (ht : m.threads t = .idle) : m.Idle :=
  ⟨fun u => if hu : u = t then hu ▸ ht else h.others u hu, fun f => by simp [h.owner f]⟩

theorem Alone.free (h : m.Alone t held) {f : FifoId} (hf : f ∉ held) : m.owner f = none := by
  simp [h.owner f, hf]

theorem Alone.setPc (h : m.Alone t held) (pc : Pc) : (m.setPc t pc).Alone t held :=
  ⟨fun u hu => by simp [hu, h.others u hu], h.owner⟩

theorem Alone.setStore (h : m.Alone t held) (s : Store) : (m.setStore s).Alone t held :=
  ⟨h.others, h.owner⟩

theorem Alone.fresh (h : m.Alone t held) : m.fresh.Alone t held := ⟨h.others, h.owner⟩

theorem Alone.logAppend (h : m.Alone t held) (F : FifoId) (x : Item) (fs : List Frame) :
    (m.logAppend F x fs).Alone t held := ⟨h.others, h.owner⟩

/-- A signal finds no other thread waiting. -/
theorem Alone.signal (h : m.Alone t held) (F : FifoId) : (m.signal F).Alone t held :=
  ⟨fun u hu => by simp [h.others u hu, Pc.signal], h.owner⟩

theorem Alone.lock (h : m.Alone t held) (f : FifoId) :
    (m.setOwner f (some t)).Alone t (f :: held) :=
  ⟨h.others, fun g => by by_cases hg : g = f <;> simp [hg, h.owner g, Function.update_noteq]⟩

theorem Alone.unlock {f : FifoId} (h : m.Alone t (f :: held)) (hf : f ∉ held) :
    (m.setOwner f none).Alone t held :=
  ⟨h.others, fun g => by
    by_cases hg : g = f
    · subst hg; simp [hf]
    · simp [hg, h.owner g, Function.update_noteq]⟩

/-- With every other thread idle, a step that starts no call is `t`'s computed step. -/
theorem Alone.next (h : m.Alone t held) (hs : Step (fun _ _ => False) m m') : Next t m m' := by
  rcases hs.start_or_next with ⟨_, _, _, hF, _⟩ | ⟨u, hn⟩
  · exact hF.elim
  · obtain rfl := next_thread hn h.others
    exact hn

-- ---------------------------------------------------------------------------
-- The push
-- ---------------------------------------------------------------------------

/-- What one level of `fifo_push` run alone does, at recursion depth `n`: from its frame at
its lock, with the mutexes of `held` held by the levels below, the machine reaches the store
`pushAux` returns, with its return value handed to the level below. -/
def PushRunsAlone (t : ThreadId) (x : Item) (n : Nat) : Prop :=
  ∀ {held s dst s' r}, pushAux n held s dst x = some (s', r) →
    ∀ {m : Machine} {c : CallId} {fs : List Frame}, m.Alone t held → m.store = s →
      m.threads t = .push x (⟨dst, c, .acquire, [], .ok⟩ :: fs) →
      ∃ m', Relation.ReflTransGen (Next t) m m' ∧ m'.store = s' ∧
        m'.threads t = Pc.pushReturn x fs r ∧ m'.Alone t held

/-- What the loop over `dests` of a level at `F` run alone does: from its frame in the loop,
with `ds` left and `e` recorded, the machine reaches the store `distribute` returns, and the
level returns what it does. -/
def DistributeRunsAlone (t : ThreadId) (x : Item) (n : Nat) : Prop :=
  ∀ {F held s ds e s' r}, F ∉ held →
    distribute (fun s d => pushAux n (F :: held) s d x) s ds e = some (s', r) →
    ∀ {m : Machine} {fr : Frame} {fs : List Frame}, m.Alone t (F :: held) → m.store = s →
      m.threads t = .push x (fr :: fs) → fr.fifo = F → fr.phase = .distribute →
      fr.pending = ds → fr.err = e →
      ∃ m', Relation.ReflTransGen (Next t) m m' ∧ m'.store = s' ∧
        m'.threads t = Pc.pushReturn x fs r ∧ m'.Alone t held

variable {x : Item}

/-- The loop calls the level below on each entry in turn; an `ENOMEM` from it ends the loop. -/
theorem distribute_runAlone {n : Nat} (ih : PushRunsAlone t x n) :
    DistributeRunsAlone t x n := by
  intro F held s ds
  induction ds generalizing s with
  | nil =>
    intro e s' r hF h m fr fs hA hs ht hfr hp hpend herr
    simp only [distribute, Option.some.injEq, Prod.mk.injEq] at h
    obtain ⟨rfl, rfl⟩ := h
    refine ⟨_, .single (hA.next (Step.pushDone ht hp hpend)), hs, by simp [herr], ?_⟩
    exact (hfr ▸ hA).unlock (hfr ▸ hF) |>.setPc _
  | cons d ds ihd =>
    intro e s' r hF h m fr fs hA hs ht hfr hp hpend herr
    simp only [distribute] at h
    rcases hd : pushAux n (F :: held) s d x with _ | ⟨s₁, r₁⟩ <;> simp only [hd] at h
    · cases h
    have hd₁ := hA.next (Step.pushDescend ht hp hpend)
    obtain ⟨m₂, hr₂, hs₂, ht₂, hA₂⟩ :=
      ih hd ((hA.setPc _).fresh) (by simp [hs]) (Function.update_same _ _ _)
    by_cases hen : r₁ = .enomem
    · -- the loop is halted and the level returns `ENOMEM`
      simp only [hen, if_true, Option.some.injEq, Prod.mk.injEq] at h
      obtain ⟨rfl, rfl⟩ := h
      simp only [Pc.pushReturn, hen, if_true] at ht₂
      refine ⟨_, .head hd₁ (hr₂.tail (hA₂.next (Step.pushDone ht₂ (by simp [hp]) rfl))), hs₂,
        by simp, ?_⟩
      exact (hfr ▸ hA₂).unlock (hfr ▸ hF) |>.setPc _
    · simp only [hen, if_false] at h
      simp only [Pc.pushReturn, hen, if_false] at ht₂
      obtain ⟨m₃, hr₃, hs₃, ht₃, hA₃⟩ := ihd hF h hA₂ hs₂ ht₂ (by simp [hfr]) (by simp [hp]) rfl
        (by simp [herr])
      exact ⟨m₃, .head hd₁ (hr₂.trans hr₃), hs₃, ht₃, hA₃⟩

/-- The enqueue of a level that holds its lock, then its loop. -/
theorem enqueue_runAlone {n : Nat} (ih : DistributeRunsAlone t x n) {s s' : Store}
    {dst : FifoId} {r : Ret} (hd : dst ∉ held)
    (h : (match s.pushEnqueue dst x with
      | (false, s₁) => some (s₁, Ret.enomem)
      | (true, s₁) => distribute (fun s d => pushAux n (dst :: held) s d x) s₁
          (s₁.fifos dst).dests .ok) = some (s', r))
    {fr : Frame} {fs : List Frame} {w : Bool} (hA : m.Alone t (dst :: held)) (hs : m.store = s)
    (ht : m.threads t = .push x (fr :: fs)) (hfr : fr.fifo = dst) (hp : fr.phase = .enqueue w)
    (herr : fr.err = .ok) :
    ∃ m', Relation.ReflTransGen (Next t) m m' ∧ m'.store = s' ∧
      m'.threads t = Pc.pushReturn x fs r ∧ m'.Alone t held := by
  subst hs hfr
  rcases he : m.store.pushEnqueue fr.fifo x with ⟨_ | _, s₁⟩ <;> simp only [he] at h
  · simp only [Option.some.injEq, Prod.mk.injEq] at h
    obtain ⟨rfl, rfl⟩ := h
    exact ⟨_, .single (hA.next (Step.pushNoMem ht hp he)), rfl, by simp,
      ((hA.setStore _).unlock hd).setPc _⟩
  · obtain ⟨m₂, hr₂, hs₂, ht₂, hA₂⟩ := ih hd h
      (((hA.setStore _).logAppend _ _ _).signal _ |>.setPc
        (.push x ({ fr with phase := .distribute, pending := (s₁.fifos fr.fifo).dests } :: fs)))
      rfl (Function.update_same _ _ _) rfl rfl rfl herr
    exact ⟨m₂, .head (hA.next (Step.pushAppend ht hp he)) hr₂, hs₂, ht₂, hA₂⟩

/-- Each level of `fifo_push` run alone is a run of the machine, at every depth. -/
theorem pushAux_runAlone (n : Nat) : PushRunsAlone t x n := by
  induction n with
  | zero => intro _ _ _ _ _ h; cases h
  | succ n ih =>
    intro held s dst s' r h m c fs hA hs ht
    have hdist : DistributeRunsAlone t x n := distribute_runAlone ih
    simp only [pushAux] at h
    split_ifs at h with hd
    have hfree : m.owner dst = none := hA.free hd
    subst hs
    rcases hc : (m.store.fifos dst).pushCheck x <;> simp only [hc] at h
    · -- `max_queued == 0`: the lock, then the loop
      obtain ⟨m₂, hr₂, hs₂, ht₂, hA₂⟩ := hdist hd h ((hA.lock dst).setPc
        (.push x (⟨dst, c, .distribute, (m.store.fifos dst).dests, .ok⟩ :: fs))) rfl
        (Function.update_same _ _ _) rfl rfl rfl rfl
      exact ⟨m₂, .head (hA.next (Step.pushSkip ht rfl hfree hc)) hr₂, hs₂, ht₂, hA₂⟩
    · -- over the limit without `BLOCK_MAX_OUTPUT`
      simp only [Option.some.injEq, Prod.mk.injEq] at h
      obtain ⟨rfl, rfl⟩ := h
      exact ⟨_, .single (hA.next (Step.pushFull ht rfl hfree hc)), rfl, by simp, hA.setPc _⟩
    · -- the wait on `cond_out`, a wake-up, the lock again
      obtain ⟨m₄, hr₄, hs₄, ht₄, hA₄⟩ := enqueue_runAlone hdist hd h
        ((((hA.setPc (.push x (⟨dst, c, .waitOut, [], .ok⟩ :: fs))).setPc
          (.push x (⟨dst, c, .reacquire, [], .ok⟩ :: fs))).lock dst).setPc
          (.push x (⟨dst, c, .enqueue true, [], .ok⟩ :: fs)))
        rfl (Function.update_same _ _ _) rfl rfl rfl
      exact ⟨m₄, .head (hA.next (Step.pushWait ht rfl hfree hc))
        (.head ((hA.setPc _).next (Step.pushWake (Function.update_same _ _ _) rfl))
        (.head (((hA.setPc _).setPc _).next
          (Step.pushReacquire (Function.update_same _ _ _) rfl (by simpa using hfree))) hr₄)),
        hs₄, ht₄, hA₄⟩
    · -- room to store
      obtain ⟨m₂, hr₂, hs₂, ht₂, hA₂⟩ := enqueue_runAlone hdist hd h
        ((hA.lock dst).setPc (.push x (⟨dst, c, .enqueue false, [], .ok⟩ :: fs)))
        rfl (Function.update_same _ _ _) rfl rfl rfl
      exact ⟨m₂, .head (hA.next (Step.pushLock ht rfl hfree hc)) hr₂, hs₂, ht₂, hA₂⟩

-- ---------------------------------------------------------------------------
-- The loops of `fifo_unmirror_all`
-- ---------------------------------------------------------------------------

/-- The first loop run alone, with `ref`'s lock held: one pass per entry of `ref->sources`,
then the loop over `dests`. -/
theorem unmirrorSources_runAlone {ref : FifoId} :
    ∀ (n : Nat) {m : Machine}, m.Alone t [ref] → (m.store.fifos ref).sources.length ≤ n →
      m.threads t = .unmirrorAll ref .sources →
      ∃ m', Relation.ReflTransGen (Next t) m m' ∧
        m'.store = Store.unmirrorSources ref n m.store ∧
        m'.threads t = .unmirrorAll ref .dests ∧ m'.Alone t [ref]
  | n, m, hA, hn, ht => by
    rcases hp : m.store.popFirstSource ref with ⟨_ | src, s₁⟩
    · -- `ref->sources` is empty
      refine ⟨_, .single (hA.next (Step.unmirrorAllSourcesDone ht hp)), ?_, by simp,
        (hA.setStore _).setPc _⟩
      cases n with
      | zero => exact Store.popFirstSource_none hp
      | succ n => simp [Store.unmirrorSources, hp]
    · have hlen := Store.popFirstSource_popDest_length hp
      cases n with
      | zero => omega
      | succ n =>
        obtain ⟨m', hr, hs, ht', hA'⟩ := unmirrorSources_runAlone n
          (((hA.setStore s₁).setPc (.unmirrorAll ref (.source src))).setStore
            (s₁.popDest src ref).2 |>.setPc (.unmirrorAll ref .sources))
          (by simp only [setPc_store, setStore_store]; omega) (Function.update_same _ _ _)
        refine ⟨m', .head (hA.next (Step.unmirrorAllSource ht hp))
          (.head (((hA.setStore s₁).setPc _).next
            (Step.unmirrorAllUnlinkSource (Function.update_same _ _ _))) hr), ?_, ht', hA'⟩
        simp [hs, Store.unmirrorSources, hp]

/-- The second loop run alone: one pass per entry of `ref->dests`, then the unlock. -/
theorem unmirrorDests_runAlone {ref : FifoId} :
    ∀ (n : Nat) {m : Machine}, m.Alone t [ref] → (m.store.fifos ref).dests.length ≤ n →
      m.threads t = .unmirrorAll ref .dests →
      ∃ m', Relation.ReflTransGen (Next t) m m' ∧ m'.store = Store.unmirrorDests ref n m.store ∧
        m'.threads t = .idle ∧ m'.Alone t []
  | n, m, hA, hn, ht => by
    rcases hp : m.store.popFirstDest ref with ⟨_ | dst, s₁⟩
    · -- `ref->dests` is empty: unlock
      refine ⟨_, .single (hA.next (Step.unmirrorAllDone ht hp)), ?_, by simp,
        ((hA.setStore _).unlock (List.not_mem_nil ref)).setPc _⟩
      cases n with
      | zero => exact Store.popFirstDest_none hp
      | succ n => simp [Store.unmirrorDests, hp]
    · have hlen := Store.popFirstDest_popSource_length hp
      cases n with
      | zero => omega
      | succ n =>
        obtain ⟨m', hr, hs, ht', hA'⟩ := unmirrorDests_runAlone n
          ((((hA.setStore s₁).setPc (.unmirrorAll ref (.dest dst))).setStore
            (s₁.popSource dst ref).2).signal dst |>.setPc (.unmirrorAll ref .dests))
          (by simp only [setPc_store, signal_store, setStore_store]; omega)
          (Function.update_same _ _ _)
        refine ⟨m', .head (hA.next (Step.unmirrorAllDest ht hp))
          (.head (((hA.setStore s₁).setPc _).next
            (Step.unmirrorAllUnlinkDest (Function.update_same _ _ _))) hr), ?_, ht', hA'⟩
        simp [hs, Store.unmirrorDests, hp]

-- ---------------------------------------------------------------------------
-- Every call
-- ---------------------------------------------------------------------------

/-- From `m`, the run of thread `t` ends with the store `s'` and no call in progress. -/
def RunsTo (t : ThreadId) (m : Machine) (s' : Store) : Prop :=
  ∃ m', Relation.ReflTransGen (Next t) m m' ∧ m'.store = s' ∧ m'.Idle

theorem RunsTo.head {m₁ : Machine} {s' : Store} (hs : Next t m m₁) (h : RunsTo t m₁ s') :
    RunsTo t m s' := by
  obtain ⟨m', hr, h₁, h₂⟩ := h
  exact ⟨m', .head hs hr, h₁, h₂⟩

/-- The last step of a call leaves thread `t` idle. -/
theorem Alone.runsTo (h : m.Alone t []) (ht : m.threads t = .idle) : RunsTo t m m.store :=
  ⟨m, .refl, rfl, h.idle ht⟩

variable (hm : m.Idle) {s' : Store} {m₁ : Machine}
include hm

theorem fifoPush_runAlone {dst : FifoId} {r : Ret} (h : m.store.fifoPush dst x = some (s', r))
    (hst : m.start t (.push dst x) = some m₁) : RunsTo t m₁ s' := by
  cases hst
  obtain ⟨m', hr, hs, ht, hA'⟩ := pushAux_runAlone _ h
    ((hm.alone t).setPc (.push x [⟨dst, m.nextCall, .acquire, [], .ok⟩]) |>.fresh) rfl
    (Function.update_same _ _ _)
  exact ⟨m', hr, hs, hA'.idle ht⟩

theorem fifoPullFlags_runAlone {src : FifoId} {flags : Flags} {pop : Bool} {r : Ret}
    {out : Item} (h : m.store.fifoPullFlags src flags pop = some (s', r, out))
    (hst : m.start t (.pull src flags pop) = some m₁) : RunsTo t m₁ s' := by
  cases hst
  have hA₁ := (hm.alone t).setPc (.pull src flags pop (.acquire false))
  unfold Store.fifoPullFlags at h
  rcases hl : ((m.store.fifos src).pullLoop flags).2 <;> simp only [hl] at h
  · -- the head is there: pop it or peek it
    split_ifs at h with hneg
    simp only [Option.some.injEq, Prod.mk.injEq] at h
    obtain ⟨rfl, -, -⟩ := h
    have hn : ((m.store.modify src fun _ => ((m.store.fifos src).pullLoop flags).1).fifos
        src).numQueued = (m.store.fifos src).numQueued := by
      simp only [Store.modify_fifos, if_true]; rw [Fifo.pullLoop_fst]
    exact RunsTo.head
      (hA₁.next (Step.pullTake (Function.update_same _ _ _) (hm.2 src) hl (hn ▸ hneg)))
      (((hA₁.setStore _).setPc _).runsTo (Function.update_same _ _ _))
  · -- `EAGAIN`
    simp only [Option.some.injEq, Prod.mk.injEq] at h
    obtain ⟨rfl, -, -⟩ := h
    exact RunsTo.head (hA₁.next (Step.pullAgain (Function.update_same _ _ _) (hm.2 src) hl))
      (((hA₁.setStore _).setPc _).runsTo (Function.update_same _ _ _))
  · -- a wait on `cond_in`: the one-thread call does not return
    cases h

theorem fifoPoke_runAlone {ref : FifoId} (hst : m.start t (.poke ref) = some m₁) :
    RunsTo t m₁ (m.store.fifoPoke ref) := by
  cases hst
  have hA₁ := (hm.alone t).setPc (.poke ref false)
  have hA₂ := (hA₁.setStore (m.store.fifoPoke ref)).setPc (.poke ref true)
  exact .head (hA₁.next (Step.pokeSet (Function.update_same _ _ _) (hm.2 ref)))
    <| .head (hA₂.next (Step.pokeSignal (Function.update_same _ _ _)))
    <| (hA₂.signal _ |>.setPc _).runsTo (Function.update_same _ _ _)

theorem fifoSetMaxQueued_runAlone {dst : FifoId} {n : Int}
    (hst : m.start t (.setMaxQueued dst n) = some m₁) :
    RunsTo t m₁ (m.store.fifoSetMaxQueued dst n) := by
  cases hst
  have hA₁ := (hm.alone t).setPc (.setMaxQueued dst n)
  exact .head (hA₁.next (Step.setMaxQueued (Function.update_same _ _ _) (hm.2 dst)))
    <| ((hA₁.setStore _).setPc _).runsTo (Function.update_same _ _ _)

theorem fifoSetBlockFlags_runAlone {dst : FifoId} {flags : Flags}
    (hst : m.start t (.setBlockFlags dst flags) = some m₁) :
    RunsTo t m₁ (m.store.fifoSetBlockFlags dst flags) := by
  cases hst
  have hA₁ := (hm.alone t).setPc (.setBlockFlags dst flags)
  exact .head (hA₁.next (Step.setBlockFlags (Function.update_same _ _ _) (hm.2 dst)))
    <| ((hA₁.setStore _).setPc _).runsTo (Function.update_same _ _ _)

theorem fifoMirror_runAlone {dst src : FifoId} (hst : m.start t (.mirror dst src) = some m₁) :
    RunsTo t m₁ (m.store.fifoMirror dst src) := by
  cases hst
  have hA₁ := ((hm.alone t).setStore (m.store.appendSource dst src)).setPc (.mirror dst src)
  exact .head (hA₁.next (Step.mirrorDest (Function.update_same _ _ _)))
    <| ((hA₁.setStore _).setPc _).runsTo (Function.update_same _ _ _)

theorem fifoUnmirror_runAlone {dst src : FifoId} (h : m.store.fifoUnmirror dst src = some s')
    (hst : m.start t (.unmirror dst src) = some m₁) : RunsTo t m₁ s' := by
  unfold Store.fifoUnmirror at h
  rcases hp : m.store.popDest src dst with ⟨_ | d, s₁⟩ <;> simp only [hp] at h
  · cases h
  rcases hq : s₁.popSource dst src with ⟨_ | d', s₂⟩ <;> simp only [hq] at h
  · cases h
  cases h
  simp only [start, hp, Option.some.injEq] at hst
  subst hst
  have hA₁ := ((hm.alone t).setStore s₁).setPc (.unmirror dst src)
  exact .head (hA₁.next (Step.unmirrorSource (Function.update_same _ _ _) hq))
    <| ((hA₁.setStore _).setPc _).runsTo (Function.update_same _ _ _)

theorem fifoUnmirrorAll_runAlone {ref : FifoId} (hst : m.start t (.unmirrorAll ref) = some m₁) :
    RunsTo t m₁ (m.store.fifoUnmirrorAll ref) := by
  cases hst
  have hA₁ := (hm.alone t).setPc (.unmirrorAll ref .acquire)
  have hA₂ := hA₁.lock ref |>.setPc (.unmirrorAll ref .sources)
  obtain ⟨m₃, hr₃, hs₃, ht₃, hA₃⟩ := unmirrorSources_runAlone _ hA₂ le_rfl
    (Function.update_same _ _ _)
  obtain ⟨m₄, hr₄, hs₄, ht₄, hA₄⟩ := unmirrorDests_runAlone _ hA₃ le_rfl ht₃
  refine .head (hA₁.next (Step.unmirrorAllLock (Function.update_same _ _ _) (hm.2 ref)))
    ⟨m₄, hr₃.trans hr₄, ?_, hA₄.idle ht₄⟩
  rw [hs₄, hs₃]; rfl

/-- Every call of the one-thread model that the machine runs, made by a thread alone from a
machine with no call in progress and no mutex held, is a run of the machine that ends with
the store the call returns, again with no call in progress and no mutex held. -/
theorem exec_runAlone {op : Op} (h : m.store.exec op = some s')
    (hst : m.start t op = some m₁) : RunsTo t m₁ s' := by
  cases op with
  | create _ _ | destroy _ => cases hst
  | mirror dst src => cases h; exact fifoMirror_runAlone hm hst
  | unmirror dst src => exact fifoUnmirror_runAlone hm h hst
  | unmirrorAll ref => cases h; exact fifoUnmirrorAll_runAlone hm hst
  | push dst x =>
    obtain ⟨⟨_, _⟩, hp, rfl⟩ := Option.map_eq_some'.mp h
    exact fifoPush_runAlone hm hp hst
  | pull src flags pop =>
    obtain ⟨⟨_, _, _⟩, hp, rfl⟩ := Option.map_eq_some'.mp h
    exact fifoPullFlags_runAlone hm hp hst
  | poke ref => cases h; exact fifoPoke_runAlone hm hst
  | setMaxQueued dst n => cases h; exact fifoSetMaxQueued_runAlone hm hst
  | setBlockFlags dst flags => cases h; exact fifoSetBlockFlags_runAlone hm hst

/-- A step of a run in which thread `t` makes its call alone: `t` is inside the call, and
every other thread is idle after the step. -/
def SoloStep (A : ThreadId → Op → Prop) (t : ThreadId) (m m' : Machine) : Prop :=
  Step A m m' ∧ m.threads t ≠ .idle ∧ ∀ u ≠ t, m'.threads u = .idle

omit hm in
theorem SoloStep.runs {A : ThreadId → Op → Prop}
    (hr : Relation.ReflTransGen (SoloStep A t) m m') (hu : ∀ u ≠ t, m.threads u = .idle) :
    Relation.ReflTransGen (Next t) m m' := by
  induction hr using Relation.ReflTransGen.head_induction_on with
  | refl => exact .refl
  | head hs _ ih => exact .head (next_of_step_alone hs.1 hs.2.1 hu hs.2.2) (ih hs.2.2)

/-- Conversely, a call that returns in the one-thread model, made by a thread alone from a
machine with no call in progress, has that one run: every run of the calling thread alone
that reaches the end of its call ends with the store the call returns, and no call in
progress. -/
theorem runAlone_store {A : ThreadId → Op → Prop} {op : Op} (h : m.store.exec op = some s')
    (hst : m.start t op = some m₁) (hr : Relation.ReflTransGen (SoloStep A t) m₁ m')
    (ht : m'.threads t = .idle) : m'.store = s' ∧ m'.Idle := by
  obtain ⟨m'', hr'', hs'', hidle''⟩ := exec_runAlone hm h hst
  have hu : ∀ u ≠ t, m₁.threads u = .idle := fun u hu =>
    ((start_threads hst).2 u hu).trans (hm.1 u)
  obtain rfl := Next.eq_of_runs (SoloStep.runs hr hu) hr'' (next_idle ht) (next_idle (hidle''.1 t))
  exact ⟨hs'', hidle''⟩

/-- The machine refines the one-thread model call by call, in both directions: a call made
alone from no call in progress runs to the store the model returns, and only to it. -/
theorem exec_refines_alone {A : ThreadId → Op → Prop} {op : Op} (h : m.store.exec op = some s')
    (hst : m.start t op = some m₁) :
    RunsTo t m₁ s' ∧ ∀ m', Relation.ReflTransGen (SoloStep A t) m₁ m' → m'.threads t = .idle →
      m'.store = s' ∧ m'.Idle :=
  ⟨exec_runAlone hm h hst, fun _ hr ht => runAlone_store hm h hst hr ht⟩

omit hm in
theorem idle_init (s : Store) : (init s).Idle := ⟨fun _ => rfl, fun _ => rfl⟩

omit hm in
/-- A push of item `7` to a FIFO of capacity `2`, made by thread `0` from the machine with no
call in progress. -/
theorem exec_refines_alone_push :
    let s := ((Store.init fun _ => true).fifoCreate 2 Flags.none).2
    ∃ s' m₁, (init s).store.exec (.push 0 (some 7)) = some s' ∧
      (init s).start 0 (.push 0 (some 7)) = some m₁ ∧ (init s).Idle ∧
      (RunsTo 0 m₁ s' ∧ ∀ m', Relation.ReflTransGen (SoloStep (fun _ _ => True) 0) m₁ m' →
        m'.threads 0 = .idle → m'.store = s' ∧ m'.Idle) := by
  intro s
  have h : (init s).store.exec (.push 0 (some 7)) = some _ := rfl
  exact ⟨_, _, h, rfl, idle_init s, exec_refines_alone (idle_init s) h rfl⟩

end Machine

end Txproto
