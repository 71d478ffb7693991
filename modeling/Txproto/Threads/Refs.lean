-- SUMMARY: Reference counts over every interleaving: each step moves a buffer's count by as many as the slots of live FIFOs holding it, but for a pull that takes its head and returns, which hands one reference to its caller; so no slot is ever without its reference.
import Txproto.Fifo.Refcount
import Txproto.Threads.Contents
import Txproto.Threads.Lists

/-!
# Reference counts over every interleaving

`Fifo/Refcount.lean` accounts for the references on the media buffers call by call. Here the
same accounting holds step by step, whatever the interleaving (`Machine.reachable_refs_step`):
a step moves each buffer's count by as many as it moves the slots of live FIFOs holding the
buffer, but for a pull that takes its head and returns, which hands one reference to its
caller: the popped slot's, or a new clone for a peek. From a store of the program, where each
count covers the slots (`Store.Reachable.slots_le`), no slot is then ever without its
reference (`Machine.reachable_slots_le`).

`Machine.Step.store_cases` says what a step does to the store; the clone of a push is stored
at the FIFO of its top level only, and `Machine.LiveRefs` says that this FIFO is live: the
levels of a push run on the handle the program passed and on entries of `dests`, which
`fifo_mirror` only adds for live handles.
-/

namespace Txproto

namespace Store

variable {s s' : Store}

/-- `s'` holds every buffer where `s` does, with the same counts: the same live FIFOs and
handle counter, the same arrays and the same references. -/
structure SlotsKept (s s' : Store) : Prop where
  next : s'.next = s.next
  live : s'.live = s.live
  refs : s'.refs = s.refs
  arrays : s.ArraysKept s'

theorem SlotsKept.refl (s : Store) : s.SlotsKept s := ⟨rfl, rfl, rfl, .refl s⟩

theorem ListsOnly.slotsKept (h : s.ListsOnly s') : s.SlotsKept s' :=
  ⟨h.next, h.live, h.refs, h.arraysKept⟩

theorem slotsKept_modify (s : Store) (f : FifoId) (g : Fifo → Fifo)
    (hq : (g (s.fifos f)).queued = (s.fifos f).queued)
    (hn : (g (s.fifos f)).numQueued = (s.fifos f).numQueued)
    (ha : (g (s.fifos f)).queuedAllocSize = (s.fifos f).queuedAllocSize) :
    s.SlotsKept (s.modify f g) :=
  ⟨rfl, rfl, rfl, arraysKept_modify s f g hq hn ha⟩

/-- The loop of a pull changes only `poked`. -/
theorem slotsKept_pullSection (s : Store) (src : FifoId) (resume : Bool) (flags : Flags) :
    s.SlotsKept (s.modify src fun _ => (pullSection resume flags (s.fifos src)).1) :=
  have h := (pullSection_spec resume flags (s.fifos src)).1
  slotsKept_modify s src _ (by rw [h]) (by rw [h]) (by rw [h])

theorem SlotsKept.refsTrack (h : s.SlotsKept s') : s.RefsTrack s' := fun i => by
  rw [h.refs, slots_of_view h.next h.live h.arrays.view i]

/-- The end of a pull from a live FIFO with a slot in use: a pop moves the head slot's
reference to its caller, a peek gives the caller a new one. -/
theorem pullTake_refs {src : FifoId} (pop : Bool) (hlive : s.live src) (hlt : src < s.next)
    (hpos : 0 < (s.fifos src).numQueued) (i : ItemId) :
    (s.pullTake src pop).1.refs i + s.slots i =
      s.refs i + (s.pullTake src pop).1.slots i + if (s.fifos src).queued 0 = some i then 1 else 0 := by
  cases pop with
  | false =>
    have hs : (s.clone ((s.fifos src).queued 0)).slots i = s.slots i :=
      slots_of_view (by simp) (by simp) (by simp) i
    simp only [pullTake, Bool.false_eq_true, if_false, clone_refs, hs]
    omega
  | true =>
    have hview : (s.fifos src).view = (s.fifos src).queued 0 :: (s.fifos src).popHead.view := by
      rw [Fifo.view_popHead hpos]; exact List.eq_cons_of_mem_head? (Fifo.head_view hpos)
    have := slots_add_slotsAt s (s.pullTake src true).1 i (by simp) hlt
      fun F hF => by simp [slotsAt, hF]
    simp only [slotsAt, pullTake_fifos, pullTake_live, hlive, if_true, true_and] at this
    rw [hview, List.count_cons] at this
    simp only [pullTake, if_true, modify_refs, beq_iff_eq] at this ⊢
    omega

/-- Every store of the program is the store of a run of calls in which the callers keep the
references handed to them: its counts are its slots and those references. -/
theorem Reachable.world (h : s.Reachable) : ∃ w : World, w.Reachable ∧ w.Balanced ∧ w.store = s := by
  induction h with
  | init allocOk =>
    exact ⟨World.init allocOk, .init allocOk, fun i => by simp [World.init, Store.init, slots], rfl⟩
  | @step s s' op _ hrun he ih =>
    obtain ⟨w, hw, hb, rfl⟩ := ih
    obtain ⟨w', hw', rfl⟩ : ∃ w', w.step (.call op) = some w' ∧ w'.store = s' := by
      cases op
      case pull src flags pop =>
        obtain ⟨p, hp, rfl⟩ := Option.map_eq_some'.mp he
        exact ⟨⟨p.1, give w.held p.2.2⟩, by simp [World.step, hp], rfl⟩
      all_goals exact ⟨⟨s', w.held⟩, by simp [World.step, he], rfl⟩
    have hrun' : ∀ op', Act.call op = .call op' → w.store.CanRun op' := fun _ h => by
      cases h; exact hrun
    exact ⟨w', .step _ hw hrun' hw', hb.step hw.inv hrun' hw', rfl⟩

/-- In every store of the program, each buffer has at least one reference per slot of a live
FIFO holding it. -/
theorem Reachable.slots_le (h : s.Reachable) (i : ItemId) : s.slots i ≤ s.refs i := by
  obtain ⟨w, -, hb, rfl⟩ := h.world
  have := hb i
  omega

/-- A change of one FIFO that adds no entry to its `dests`. -/
theorem dests_subset_modify (s : Store) (f : FifoId) {g : Fifo → Fifo}
    (hg : (g (s.fifos f)).dests ⊆ (s.fifos f).dests) (F : FifoId) :
    ((s.modify f g).fifos F).dests ⊆ (s.fifos F).dests := by
  simp only [modify_fifos]; split_ifs with h
  · subst h; exact hg
  · exact List.Subset.refl _

theorem SameLists.dests_subset (h : s.SameLists s') (F : FifoId) :
    (s'.fifos F).dests ⊆ (s.fifos F).dests := fun _ hd => (h F).1 ▸ hd

/-- The buffer-list pops of the unmirror calls only take entries out of `dests`. -/
theorem popDest_dests_subset (s : Store) (src dst F : FifoId) :
    ((s.popDest src dst).2.fifos F).dests ⊆ (s.fifos F).dests := by
  unfold popDest; dsimp only
  exact dests_subset_modify s src (by simp only [BufferList.popData_snd]; exact List.erase_subset _ _) F

theorem popFirstDest_dests_subset (s : Store) (ref F : FifoId) :
    ((s.popFirstDest ref).2.fifos F).dests ⊆ (s.fifos F).dests := by
  unfold popFirstDest; dsimp only
  exact dests_subset_modify s ref (List.tail_subset _) F

theorem appendSource_dests_subset (s : Store) (dst src F : FifoId) :
    ((s.appendSource dst src).fifos F).dests ⊆ (s.fifos F).dests := by
  unfold appendSource
  exact dests_subset_modify s dst (List.Subset.refl _) F

theorem popSource_dests_subset (s : Store) (dst src F : FifoId) :
    ((s.popSource dst src).2.fifos F).dests ⊆ (s.fifos F).dests := by
  unfold popSource; dsimp only
  exact dests_subset_modify s dst (List.Subset.refl _) F

theorem popFirstSource_dests_subset (s : Store) (ref F : FifoId) :
    ((s.popFirstSource ref).2.fifos F).dests ⊆ (s.fifos F).dests := by
  unfold popFirstSource; dsimp only
  exact dests_subset_modify s ref (List.Subset.refl _) F

theorem dests_subset_of_eq {p : Option FifoId × Store} {o : Option FifoId}
    (h : ∀ F, (p.2.fifos F).dests ⊆ (s.fifos F).dests) (hp : p = (o, s')) (F : FifoId) :
    (s'.fifos F).dests ⊆ (s.fifos F).dests := by
  subst hp; exact h F

end Store

namespace Pc

/-- The FIFOs a call in progress can still store at or link are in `L`: every level of a
push and every entry left in its loop, the FIFO of a pull, and the destination that
`fifo_mirror` appends to `src->dests` in its second half. -/
def LiveIn (L : FifoId → Bool) : Pc → Prop
  | .push _ fs => ∀ g ∈ fs, L g.fifo ∧ ∀ d ∈ g.pending, L d
  | .pull src _ _ _ => L src
  | .mirror dst _ => L dst
  | _ => True

@[simp] theorem liveIn_signal (L : FifoId → Bool) (F : FifoId) (pc : Pc) :
    (pc.signal F).LiveIn L ↔ pc.LiveIn L := by
  unfold signal; split <;> rfl

variable {L : FifoId → Bool} {x : Item} {fr : Frame} {fs : List Frame}

/-- Thread `t` moves to `pc`, whose FIFOs are in `L`. -/
theorem liveIn_update {th : ThreadId → Pc} (h : ∀ u, (th u).LiveIn L) (t : ThreadId) {pc : Pc}
    (hpc : pc.LiveIn L) (u : ThreadId) : (Function.update th t pc u).LiveIn L := by
  by_cases hu : u = t
  · subst hu; rw [Function.update_same]; exact hpc
  · rw [Function.update_noteq hu]; exact h u

/-- A change of the top level that keeps its FIFO, with entries left in `L`. -/
theorem LiveIn.top (h : (push x (fr :: fs)).LiveIn L) (fr' : Frame) (hfifo : fr'.fifo = fr.fifo)
    (hpend : ∀ d ∈ fr'.pending, L d) : (push x (fr' :: fs)).LiveIn L := by
  simp only [LiveIn, List.mem_cons, forall_eq_or_imp] at h ⊢
  exact ⟨⟨hfifo ▸ h.1.1, hpend⟩, h.2⟩

theorem LiveIn.setPhase (h : (push x (fr :: fs)).LiveIn L) (ph : PushPhase) :
    (push x ({ fr with phase := ph } :: fs)).LiveIn L :=
  h.top _ rfl (h fr (List.mem_cons_self _ _)).2

/-- The top level returns to its caller, whose loop keeps its entries or drops them all. -/
theorem LiveIn.pushReturn (h : (push x (fr :: fs)).LiveIn L) (r : Ret) :
    (Pc.pushReturn x fs r).LiveIn L := by
  cases fs with
  | nil => trivial
  | cons p fs =>
    simp only [LiveIn, Pc.pushReturn, List.mem_cons, forall_eq_or_imp] at h ⊢
    refine ⟨⟨h.2.1.1, fun d hd => h.2.1.2 d ?_⟩, h.2.2⟩
    split_ifs at hd
    exacts [(List.not_mem_nil d hd).elim, hd]

/-- The loop calls the push on its next entry `d`. -/
theorem LiveIn.descend {d : FifoId} {rest : List FifoId} (h : (push x (fr :: fs)).LiveIn L)
    (hpend : fr.pending = d :: rest) (c : CallId) :
    (push x (⟨d, c, .acquire, [], .ok⟩ :: { fr with pending := rest } :: fs)).LiveIn L := by
  simp only [LiveIn, List.mem_cons, forall_eq_or_imp, hpend] at h ⊢
  exact ⟨⟨h.1.2.1, by simp⟩, ⟨h.1.1, h.1.2.2⟩, h.2⟩

end Pc

namespace Machine

variable {A : ThreadId → Op → Prop} {m m' : Machine}

/-- What a step does to the store: it keeps every slot and every reference, runs the enqueue
of a push's top level at its FIFO, or ends a pull that takes its head with the pop or the
peek. -/
theorem Step.store_cases (hs : Step A m m') :
    m.store.SlotsKept m'.store ∨
    (∃ t x fr fs w b, m.threads t = .push x (fr :: fs) ∧ fr.phase = .enqueue w ∧
      m.store.pushEnqueue fr.fifo x = (b, m'.store)) ∨
    (∃ t src flags pop resume, m.threads t = .pull src flags pop (.acquire resume) ∧
      (pullSection resume flags (m.store.fifos src)).2 = .take ∧ m'.threads t = .idle ∧
      m'.store = ((m.store.modify src fun _ =>
        (pullSection resume flags (m.store.fifos src)).1).pullTake src pop).1) := by
  cases hs with
  | startPush _ _ | startPull _ _ | startPoke _ _ | startSetMaxQueued _ _
  | startSetBlockFlags _ _ | startUnmirrorFail _ _ _ | startUnmirrorAll _ _ | pushSkip _ _ _ _
  | pushFull _ _ _ _ | pushWait _ _ _ _ | pushLock _ _ _ _ | pushWake _ _ | pushReacquire _ _ _
  | pushDescend _ _ _ | pushDone _ _ _ | pullAbort _ _ _ _ _ | pullWake _ | pokeSignal _
  | unmirrorFail _ _ | unmirrorAllLock _ _ => exact .inl (.refl _)
  | startMirror _ _ => exact .inl (Store.appendSource_listsOnly _ _ _).slotsKept
  | mirrorDest _ => exact .inl (Store.appendDest_listsOnly _ _ _).slotsKept
  | startUnmirror _ _ hp =>
    exact .inl (Store.listsOnly_of_eq (Store.popDest_listsOnly _ _ _) hp).slotsKept
  | unmirrorSource _ hp =>
    exact .inl (Store.listsOnly_of_eq (Store.popSource_listsOnly _ _ _) hp).slotsKept
  | unmirrorAllSource _ hp | unmirrorAllSourcesDone _ hp =>
    exact .inl (Store.listsOnly_of_eq (Store.popFirstSource_listsOnly _ _) hp).slotsKept
  | unmirrorAllDest _ hp | unmirrorAllDone _ hp =>
    exact .inl (Store.listsOnly_of_eq (Store.popFirstDest_listsOnly _ _) hp).slotsKept
  | unmirrorAllUnlinkSource _ => exact .inl (Store.popDest_listsOnly _ _ _).slotsKept
  | unmirrorAllUnlinkDest _ => exact .inl (Store.popSource_listsOnly _ _ _).slotsKept
  | pushNoMem ht hp he | pushAppend ht hp he => exact .inr (.inl ⟨_, _, _, _, _, _, ht, hp, he⟩)
  | pullTake ht _ htake _ =>
    exact .inr (.inr ⟨_, _, _, _, _, ht, htake, Function.update_same _ _ _, rfl⟩)
  | pullAgain _ _ _ | pullWait _ _ _ => exact .inl (Store.slotsKept_pullSection _ _ _ _)
  | pokeSet _ _ => exact .inl (Store.slotsKept_modify _ _ (fun f => { f with poked := true })
      rfl rfl rfl)
  | @setMaxQueued _ _ n _ _ => exact .inl (Store.slotsKept_modify _ _
      (fun f => { f with maxQueued := n }) rfl rfl rfl)
  | @setBlockFlags _ _ flags _ _ => exact .inl (Store.slotsKept_modify _ _
      (fun f => { f with blockFlags := flags }) rfl rfl rfl)

/-- No step creates or destroys a FIFO. -/
theorem Step.live_next (hs : Step A m m') :
    m'.store.live = m.store.live ∧ m'.store.next = m.store.next := by
  rcases hs.store_cases with h | ⟨_, x, fr, _, _, _, -, -, he⟩ | ⟨_, _, _, _, _, -, -, -, hst⟩
  · exact ⟨h.live, h.next⟩
  · have h₁ := m.store.pushEnqueue_live fr.fifo x
    have h₂ := m.store.pushEnqueue_next fr.fifo x
    rw [he] at h₁ h₂
    exact ⟨h₁, h₂⟩
  · rw [hst]; exact ⟨by simp, by simp⟩

/-- A step adds an entry to a `dests` list only in the second half of `fifo_mirror`. -/
theorem Step.dests_mem (hs : Step A m m') {S D : FifoId} (hD : D ∈ (m'.store.fifos S).dests) :
    D ∈ (m.store.fifos S).dests ∨ ∃ t, m.threads t = .mirror D S := by
  cases hs with
  | startPush _ _ | startPull _ _ | startPoke _ _ | startSetMaxQueued _ _
  | startSetBlockFlags _ _ | startUnmirrorFail _ _ _ | startUnmirrorAll _ _ | pushSkip _ _ _ _
  | pushFull _ _ _ _ | pushWait _ _ _ _ | pushLock _ _ _ _ | pushWake _ _ | pushReacquire _ _ _
  | pushDescend _ _ _ | pushDone _ _ _ | pullAbort _ _ _ _ _ | pullWake _ | pokeSignal _
  | unmirrorFail _ _ | unmirrorAllLock _ _ => exact .inl hD
  | pushNoMem _ _ he | pushAppend _ _ he =>
    exact .inl ((Store.pushEnqueue_queuesOnly_of_eq he).sameLists.dests_subset S hD)
  | pullTake _ _ _ _ =>
    exact .inl (((Store.sameLists_modify_pullSection _ _ _ _).trans
      (Store.sameLists_pullTake _ _ _)).dests_subset S hD)
  | pullAgain _ _ _ | pullWait _ _ _ =>
    exact .inl ((Store.sameLists_modify_pullSection _ _ _ _).dests_subset S hD)
  | pokeSet _ _ => exact .inl ((Store.sameLists_fifoPoke _ _).dests_subset S hD)
  | setMaxQueued _ _ => exact .inl ((Store.sameLists_fifoSetMaxQueued _ _ _).dests_subset S hD)
  | setBlockFlags _ _ => exact .inl ((Store.sameLists_fifoSetBlockFlags _ _ _).dests_subset S hD)
  | startMirror _ _ => exact .inl (Store.appendSource_dests_subset _ _ _ S hD)
  | unmirrorAllUnlinkDest _ => exact .inl (Store.popSource_dests_subset _ _ _ S hD)
  | unmirrorSource _ hp =>
    exact .inl (Store.dests_subset_of_eq (Store.popSource_dests_subset _ _ _) hp S hD)
  | unmirrorAllSource _ hp | unmirrorAllSourcesDone _ hp =>
    exact .inl (Store.dests_subset_of_eq (Store.popFirstSource_dests_subset _ _) hp S hD)
  | startUnmirror _ _ hp =>
    exact .inl (Store.dests_subset_of_eq (Store.popDest_dests_subset _ _ _) hp S hD)
  | unmirrorAllUnlinkSource _ => exact .inl (Store.popDest_dests_subset _ _ _ S hD)
  | unmirrorAllDest _ hp | unmirrorAllDone _ hp =>
    exact .inl (Store.dests_subset_of_eq (Store.popFirstDest_dests_subset _ _) hp S hD)
  | @mirrorDest t dst src ht =>
    simp only [setPc_store, setStore_store, Store.appendDest, Store.modify_fifos] at hD
    split_ifs at hD with hS
    · rcases List.mem_append.1 hD with hD | hD
      · exact .inl (hS ▸ hD)
      · exact .inr ⟨t, by rw [List.mem_singleton.1 hD, hS, ht]⟩
    · exact .inl hD

/-- Every FIFO a call in progress can store a clone at, or add to a `dests` list, is live,
and so is every entry of a `dests` list: the clone of a push only ever goes to live FIFOs. -/
structure LiveRefs (m : Machine) : Prop where
  lt : ∀ F, m.store.live F → F < m.store.next
  dests : ∀ S, ∀ D ∈ (m.store.fifos S).dests, m.store.live D
  threads : ∀ t, (m.threads t).LiveIn m.store.live

theorem liveRefs_init {s : Store} (hs : s.Reachable) : (init s).LiveRefs :=
  ⟨hs.inv.live_lt, fun S D hD => hs.inv.dests_live S D hD, fun _ => trivial⟩

/-- One step keeps the FIFOs of every call in progress in `L`, when the calls started are on
FIFOs of `L` and the `dests` lists hold only FIFOs of `L`. -/
theorem Step.liveIn {L : FifoId → Bool} (hs : Step A m m')
    (hA : ∀ t op, A t op → ∀ f ∈ op.handles, L f) (hD : ∀ S, ∀ D ∈ (m.store.fifos S).dests, L D)
    (h : ∀ u, (m.threads u).LiveIn L) (u : ThreadId) : (m'.threads u).LiveIn L := by
  have hsig : ∀ F u, ((m.threads u).signal F).LiveIn L := fun F u => (Pc.liveIn_signal _ _ _).2 (h u)
  cases hs with
  | startPush _ hA' => exact Pc.liveIn_update h _ (by simp [Pc.LiveIn, hA _ _ hA', Op.handles]) u
  | startPull _ hA' | startMirror _ hA' => exact Pc.liveIn_update h _ (by exact hA _ _ hA' _ (.head _)) u
  | startPoke _ _ | startSetMaxQueued _ _ | startSetBlockFlags _ _ | startUnmirrorFail _ _ _
  | startUnmirrorAll _ _ | pullTake _ _ _ _ | pullAbort _ _ _ _ _ | pullAgain _ _ _ | pokeSet _ _
  | setMaxQueued _ _ | setBlockFlags _ _ | mirrorDest _ | startUnmirror _ _ _ | unmirrorSource _ _
  | unmirrorFail _ _ | unmirrorAllLock _ _ | unmirrorAllSource _ _ | unmirrorAllUnlinkSource _
  | unmirrorAllSourcesDone _ _ | unmirrorAllDest _ _ | unmirrorAllDone _ _ =>
    exact Pc.liveIn_update h _ (by exact trivial) u
  | pokeSignal _ | unmirrorAllUnlinkDest _ => exact Pc.liveIn_update (hsig _) _ (by exact trivial) u
  | @pullWait t _ _ _ _ ht _ _ | @pullWake t _ _ _ _ ht =>
    have := h t; rw [ht] at this; exact Pc.liveIn_update h _ (by exact this) u
  | @pushSkip t _ fr _ ht _ _ _ =>
    have := h t; rw [ht] at this
    exact Pc.liveIn_update h _ (by exact this.top _ rfl (hD fr.fifo)) u
  | @pushAppend t _ fr _ _ _ ht _ he =>
    have := h t; rw [ht] at this
    have hq := (Store.pushEnqueue_queuesOnly_of_eq he).dests fr.fifo
    exact Pc.liveIn_update (hsig _) _ (by exact this.top _ rfl (hq ▸ hD fr.fifo)) u
  | pushWait ht _ _ _ | pushLock ht _ _ _ | pushWake ht _ | pushReacquire ht _ _ =>
    exact Pc.liveIn_update h _ ((ht ▸ h _).setPhase _) u
  | pushFull ht _ _ _ | pushNoMem ht _ _ | pushDone ht _ _ =>
    exact Pc.liveIn_update h _ ((ht ▸ h _).pushReturn _) u
  | pushDescend ht _ hpend => exact Pc.liveIn_update h _ ((ht ▸ h _).descend hpend _) u

/-- One step keeps every FIFO a call can store at live, when the calls started are made on
live FIFOs. -/
theorem LiveRefs.step (h : m.LiveRefs) (hA : ∀ t op, A t op → ∀ f ∈ op.handles, m.store.live f)
    (hs : Step A m m') : m'.LiveRefs := by
  obtain ⟨hl, hn⟩ := hs.live_next
  refine ⟨fun F hF => hn ▸ h.lt F (hl ▸ hF), fun S D hD => hl ▸ ?_,
    fun u => hl ▸ hs.liveIn hA h.dests h.threads u⟩
  rcases hs.dests_mem hD with hD | ⟨t, ht⟩
  · exact h.dests S D hD
  · simpa [ht, Pc.LiveIn] using h.threads t

/-- In every state of a run whose calls are made on live FIFOs, every FIFO a call can store
at is live. -/
theorem Reachable.liveRefs {P : Machine → Prop} (hm : Reachable A P m)
    (hA : ∀ t op, A t op → ∀ f ∈ op.handles, m.store.live f) : m.LiveRefs := by
  induction hm with
  | init hs _ => exact liveRefs_init hs
  | step _ hs _ ih =>
    have hl := hs.live_next.1
    exact (ih fun t op h f hf => hl ▸ hA t op h f hf).step (fun t op h f hf => hl ▸ hA t op h f hf) hs

/-- The step from `m` to `m'` ends a pull whose section takes the head of its queue, a slot
that holds buffer `i`: thread `t` leaves the lock of that pull and returns. -/
def HandsOut (m m' : Machine) (i : ItemId) : Prop :=
  ∃ t src flags pop resume, m.threads t = .pull src flags pop (.acquire resume) ∧
    (pullSection resume flags (m.store.fifos src)).2 = .take ∧ m'.threads t = .idle ∧
    (m.store.fifos src).queued 0 = some i

/-- A thread at the lock of a pull whose section takes returns only by taking: the step is the
pop or the peek of that pull. -/
theorem Step.store_of_take (hs : Step A m m') {t : ThreadId} {src : FifoId} {flags : Flags}
    {pop resume : Bool} (ht : m.threads t = .pull src flags pop (.acquire resume))
    (htake : (pullSection resume flags (m.store.fifos src)).2 = .take)
    (ht' : m'.threads t = .idle) :
    m'.store = ((m.store.modify src fun _ =>
      (pullSection resume flags (m.store.fifos src)).1).pullTake src pop).1 := by
  cases hs
  case pullTake u _ _ _ _ hu _ _ _ =>
    by_cases htu : t = u
    · subst htu; rw [ht] at hu; cases hu; rfl
    · simp only [setPc_threads, setStore_threads, Function.update_noteq htu, ht,
        reduceCtorEq] at ht'
  case pullAgain u _ _ _ _ hu _ hagain =>
    by_cases htu : t = u
    · subst htu; rw [ht] at hu; cases hu; rw [htake] at hagain; cases hagain
    · simp only [setPc_threads, setStore_threads, Function.update_noteq htu, ht,
        reduceCtorEq] at ht'
  all_goals
    exfalso
    dsimp only [setPc_threads, fresh_threads, setStore_threads, setOwner_threads,
      logAppend_threads, signal_threads] at ht'
    rw [Function.update_apply, ite_eq_iff] at ht'
    rcases ht' with ⟨rfl, h⟩ | ⟨-, h⟩
  -- the moving thread's new place, another thread left where it was or signalled, or a
  -- moving thread that is not at a pull
  all_goals first
    | (cases h; done)
    | (simp only [setStore_threads, setOwner_threads, fresh_threads, logAppend_threads,
        signal_threads] at h; rw [ht] at h; cases h)
    | (rw [ht] at h; cases h)
    | (rw [ht] at *; contradiction)

/-- The end of a pull that takes the head of a live FIFO: a pop moves the head slot's
reference to its caller, a peek gives the caller a new one. -/
theorem take_refs (hL : m.LiveRefs) (hfit : m.store.Fits) {t : ThreadId} {src : FifoId}
    {flags : Flags} {pop resume : Bool} (ht : m.threads t = .pull src flags pop (.acquire resume))
    (htake : (pullSection resume flags (m.store.fifos src)).2 = .take)
    (hst : m'.store = ((m.store.modify src fun _ =>
      (pullSection resume flags (m.store.fifos src)).1).pullTake src pop).1) (i : ItemId) :
    m'.store.refs i + m.store.slots i =
      m.store.refs i + m'.store.slots i + if (m.store.fifos src).queued 0 = some i then 1 else 0 := by
  have hlive : m.store.live src := by have := hL.threads t; rwa [ht] at this
  -- the loop changes only `poked`: the pull takes from the store before the step
  have hk := m.store.slotsKept_pullSection src resume flags
  have hpos : 0 < (m.store.fifos src).numQueued := lt_of_le_of_ne (hfit src).nonneg
    ((pullSection_spec resume flags (m.store.fifos src)).2.2.1 htake).symm
  have := Store.pullTake_refs
    (s := m.store.modify src fun _ => (pullSection resume flags (m.store.fifos src)).1) pop
    (by rw [hk.live]; exact hlive) (by rw [hk.next]; exact hL.lt _ hlive)
    (by rw [hk.arrays.numQueued]; exact hpos) i
  rwa [← hst, hk.refs, Store.slots_of_view hk.next hk.live hk.arrays.view i,
    hk.arrays.queued] at this

/-- One step from a state whose push levels store at live FIFOs and whose arrays hold their
slots: each buffer's count moves with its slots of live FIFOs, but for a pull that takes its
head and returns, which hands one reference more to its caller. -/
theorem Step.refs_cases (hL : m.LiveRefs) (hfit : m.store.Fits) (hs : Step A m m') (i : ItemId) :
    m'.store.refs i + m.store.slots i = m.store.refs i + m'.store.slots i ∨
      (m'.store.refs i + m.store.slots i = m.store.refs i + m'.store.slots i + 1 ∧
        HandsOut m m' i) := by
  rcases hs.store_cases with h | ⟨t, x, fr, fs, w, b, ht, -, he⟩ |
    ⟨t, src, flags, pop, resume, ht, htake, ht', hst⟩
  · exact .inl (h.refsTrack i)
  · have hlive : m.store.live fr.fifo := by
      have := hL.threads t; rw [ht] at this; exact (this fr (List.mem_cons_self _ _)).1
    have := Store.pushEnqueue_refsTrack x hlive (hL.lt _ hlive) (hfit fr.fifo).nonneg i
    rw [he] at this
    exact .inl this
  · have := take_refs hL hfit ht htake hst i
    by_cases hi : (m.store.fifos src).queued 0 = some i
    · exact .inr ⟨by simpa [hi] using this, t, src, flags, pop, resume, ht, htake, ht', hi⟩
    · exact .inl (by simpa [hi] using this)

open Classical in
/-- Reference counts over every interleaving: in every state of a run whose calls are made on
live FIFOs, a step that ends a pull taking buffer `i` hands the caller one reference on it, and
every other step moves `i`'s count as it moves the slots of live FIFOs holding `i`. -/
theorem reachable_refs_step {P : Machine → Prop} (hm : Reachable A P m)
    (hA : ∀ t op, A t op → ∀ f ∈ op.handles, m.store.live f) (hs : Step A m m') (i : ItemId) :
    m'.store.refs i + m.store.slots i =
      m.store.refs i + m'.store.slots i + if HandsOut m m' i then 1 else 0 := by
  by_cases hh : HandsOut m m' i
  · rw [if_pos hh]
    obtain ⟨t, src, flags, pop, resume, ht, htake, ht', hi⟩ := hh
    rw [take_refs (hm.liveRefs hA) hm.fits ht htake (hs.store_of_take ht htake ht') i, if_pos hi]
  · rw [if_neg hh, Nat.add_zero]
    exact (Step.refs_cases (hm.liveRefs hA) hm.fits hs i).resolve_right fun h => hh h.2

/-- No slot without its reference, over every interleaving: in every state of a run whose calls
are made on live FIFOs, each buffer's reference count is at least the number of slots of live
FIFOs holding it, so the reference a pop takes over, and those `fifo_destroy` frees, exist. -/
theorem reachable_slots_le {P : Machine → Prop} (hm : Reachable A P m)
    (hA : ∀ t op, A t op → ∀ f ∈ op.handles, m.store.live f) (i : ItemId) :
    m.store.slots i ≤ m.store.refs i := by
  induction hm with
  | init hs _ => exact hs.slots_le i
  | step hm' hs _ ih =>
    have hl := hs.live_next.1
    have hA' : ∀ t op, A t op → ∀ f ∈ op.handles, _ := fun t op h f hf => hl ▸ hA t op h f hf
    have := ih hA'
    rcases Step.refs_cases (hm'.liveRefs hA') hm'.fits hs i with h | ⟨h, -⟩ <;> omega

/-- Thread `0` starts a peek at FIFO `0`, of capacity `2`, in which a push left item `7`, and
then takes the head. -/
theorem peek_run :
    let s₀ := ((Store.init fun _ => true).fifoCreate 2 Flags.none).2
    let s := (s₀.exec (.push 0 (some 7))).getD s₀
    let A : ThreadId → Op → Prop := fun _ op => op = .pull 0 Flags.none false
    let m := (init s).setPc 0 (.pull 0 Flags.none false (.acquire false))
    let m' := (m.setStore ((m.store.modify 0 fun _ =>
      (pullSection false Flags.none (m.store.fifos 0)).1).pullTake 0 false).1).setPc 0 .idle
    Reachable A (fun _ => True) m ∧ Step A m m' ∧
      (∀ t op, A t op → ∀ f ∈ op.handles, m.store.live f) ∧ HandsOut m m' 7 := by
  intro s₀ s A m m'
  have he : s₀.exec (.push 0 (some 7)) = some s := rfl
  have hs : s.Reachable :=
    .step (.push 0 (some 7)) ((Store.Reachable.init _).create 2 Flags.none) ⟨by decide, by simp⟩ he
  have htake : (pullSection false Flags.none (m.store.fifos 0)).2 = .take := by
    rw [pullSection, if_neg Bool.false_ne_true, Fifo.pullLoop_eq, if_pos (by decide)]
  exact ⟨.step (.init hs trivial) (.startPull rfl rfl) trivial, .pullTake rfl rfl htake (by simp),
    fun t op h f hf => by subst h; simp only [Op.handles, List.mem_singleton] at hf; subst hf; decide,
    ⟨0, 0, Flags.none, false, false, rfl, htake, rfl, rfl⟩⟩

open Classical in
/-- Thread `0` peeks at item `7`, which a push left in a FIFO of capacity `2`: the step hands
a new reference to the caller. -/
theorem reachable_refs_step_peek :
    let s₀ := ((Store.init fun _ => true).fifoCreate 2 Flags.none).2
    let s := (s₀.exec (.push 0 (some 7))).getD s₀
    let A : ThreadId → Op → Prop := fun _ op => op = .pull 0 Flags.none false
    let m := (init s).setPc 0 (.pull 0 Flags.none false (.acquire false))
    ∃ m', Reachable A (fun _ => True) m ∧ Step A m m' ∧ HandsOut m m' 7 ∧
      m'.store.refs 7 + m.store.slots 7 =
        m.store.refs 7 + m'.store.slots 7 + if HandsOut m m' 7 then 1 else 0 := by
  obtain ⟨hm, hs, hA, hh⟩ := peek_run
  exact ⟨_, hm, hs, hh, reachable_refs_step hm hA hs 7⟩

/-- After thread `0` has peeked at item `7`, which a push left in a FIFO of capacity `2`. -/
theorem reachable_slots_le_peek :
    ∃ m, Reachable (fun _ op => op = .pull 0 Flags.none false) (fun _ => True) m ∧
      m.store.slots 7 ≤ m.store.refs 7 := by
  obtain ⟨hm, hs, hA, -⟩ := peek_run
  exact ⟨_, hm.step hs trivial, reachable_slots_le (hm.step hs trivial)
    (fun t op h f hf => by rw [hs.live_next.1]; exact hA t op h f hf) 7⟩

end Machine

end Txproto
