-- SUMMARY: The lists under concurrency when list calls do not overlap: with at most one fifo_mirror, fifo_unmirror or fifo_unmirror_all in progress at a time, the dests and sources lists are symmetric once that call's pending half is made, and symmetric whenever none is in progress.
import Txproto.Threads.Machine

/-!
# The lists when list calls do not overlap

`fifo_mirror`, `fifo_unmirror` and `fifo_unmirror_all` each change two lists, `src->dests`
and `dst->sources`, in two buffer-list operations. Between the two the lists disagree, and a
second list call that runs there can make the disagreement permanent
(`mirror_unmirrorAll_race`). When no two of these calls are in progress at once, the lists
agree once the call in progress makes its second half (`Pc.completeLists`), and they are
symmetric whenever no list call is in progress (`reachable_symmetric_of_serial`). Pushes,
pulls, pokes and the setters never touch the lists.
-/

namespace Txproto

namespace Store

/-- `s'` has the lists of `s`. -/
def SameLists (s s' : Store) : Prop :=
  ∀ F, (s'.fifos F).dests = (s.fifos F).dests ∧ (s'.fifos F).sources = (s.fifos F).sources

theorem SameLists.refl (s : Store) : s.SameLists s := fun _ => ⟨rfl, rfl⟩

theorem SameLists.trans {a b c : Store} (h₁ : a.SameLists b) (h₂ : b.SameLists c) :
    a.SameLists c := fun F => ⟨(h₂ F).1.trans (h₁ F).1, (h₂ F).2.trans (h₁ F).2⟩

theorem Symmetric.of_sameLists {s s' : Store} (h : s.Symmetric) (hl : s.SameLists s') :
    s'.Symmetric := fun S D => by rw [(hl S).1, (hl D).2]; exact h S D

theorem sameLists_modify (s : Store) (f : FifoId) {g : Fifo → Fifo}
    (hd : (g (s.fifos f)).dests = (s.fifos f).dests)
    (hs : (g (s.fifos f)).sources = (s.fifos f).sources) : s.SameLists (s.modify f g) := fun F => by
  simp only [modify_fifos]; split_ifs with h
  · subst h; exact ⟨hd, hs⟩
  · exact ⟨rfl, rfl⟩

/-- A change of one FIFO whose new lists depend only on its old lists. -/
theorem SameLists.modify {s s' : Store} (h : s.SameLists s') (f : FifoId) {g : Fifo → Fifo}
    (hg : ∀ a b : Fifo, a.dests = b.dests → a.sources = b.sources →
      (g a).dests = (g b).dests ∧ (g a).sources = (g b).sources) :
    (s.modify f g).SameLists (s'.modify f g) := fun F => by
  simp only [modify_fifos]; split_ifs with hF
  · subst hF; exact hg _ _ (h F).1 (h F).2
  · exact h F

theorem QueuesOnly.sameLists {s s' : Store} (h : s.QueuesOnly s') : s.SameLists s' :=
  fun F => ⟨h.dests F, h.sources F⟩

theorem sameLists_fifoPoke (s : Store) (ref : FifoId) : s.SameLists (s.fifoPoke ref) :=
  sameLists_modify _ _ rfl rfl

theorem sameLists_fifoSetMaxQueued (s : Store) (dst : FifoId) (n : Int) :
    s.SameLists (s.fifoSetMaxQueued dst n) := sameLists_modify _ _ rfl rfl

theorem sameLists_fifoSetBlockFlags (s : Store) (dst : FifoId) (flags : Flags) :
    s.SameLists (s.fifoSetBlockFlags dst flags) := sameLists_modify _ _ rfl rfl

/-- The loop of a pull changes only `poked`. -/
theorem sameLists_modify_pullSection (s : Store) (src : FifoId) (resume : Bool) (flags : Flags) :
    s.SameLists (s.modify src fun _ => (pullSection resume flags (s.fifos src)).1) := by
  have h := (pullSection_spec resume flags (s.fifos src)).1
  exact sameLists_modify _ _ (by rw [h]) (by rw [h])

/-- The pop and the peek of a pull leave the lists. -/
theorem sameLists_pullTake (s : Store) (src : FifoId) (pop : Bool) :
    s.SameLists (s.pullTake src pop).1 := fun F => by
  simp only [pullTake_fifos]; split_ifs <;> exact ⟨rfl, rfl⟩

/-- The two pops of `fifo_unmirror` erase one entry from each list, found or not. -/
theorem popDest_popSource (s : Store) (src dst : FifoId) :
    ((s.popDest src dst).2.popSource dst src).2 = s.unlink src dst := by
  simp [popDest, popSource, unlink, BufferList.popData_snd]

/-- A pop that finds nothing leaves the store as it was. -/
theorem popSource_none {s s₁ : Store} {dst src : FifoId} (h : s.popSource dst src = (none, s₁)) :
    s₁ = s := by
  simp only [popSource, BufferList.popData_fst, Prod.mk.injEq] at h
  obtain ⟨h₁, rfl⟩ := h
  have hn : src ∉ (s.fifos dst).sources := by intro hm; simp [hm] at h₁
  exact modify_eq_self (by simp [List.erase_of_not_mem hn])

end Store

/-- The second half of the list change of a list call in progress: the append to
`src->dests` that `fifo_mirror` has still to make, the pop from `dst->sources` of
`fifo_unmirror`, and the second pop of the current pass of `fifo_unmirror_all`. -/
def Pc.completeLists : Pc → Store → Store
  | .mirror dst src, s => s.appendDest src dst
  | .unmirror dst src, s => (s.popSource dst src).2
  | .unmirrorAll ref (.source src), s => (s.popDest src ref).2
  | .unmirrorAll ref (.dest dst), s => (s.popSource dst ref).2
  | _, s => s

/-- The thread is inside `fifo_mirror`, `fifo_unmirror` or `fifo_unmirror_all`. -/
def Pc.inListCall : Pc → Bool
  | .mirror _ _ | .unmirror _ _ | .unmirrorAll _ _ => true
  | _ => false

namespace Pc

theorem completeLists_of_not {pc : Pc} (h : pc.inListCall = false) (s : Store) :
    pc.completeLists s = s := by
  cases pc <;> simp_all [inListCall, completeLists]

@[simp] theorem inListCall_pushReturn (x : Item) (fs : List Frame) (r : Ret) :
    (pushReturn x fs r).inListCall = false := by
  cases fs <;> rfl

@[simp] theorem inListCall_signal (F : FifoId) (pc : Pc) :
    (pc.signal F).inListCall = pc.inListCall := by
  unfold signal; split <;> rfl

@[simp] theorem completeLists_signal (F : FifoId) (pc : Pc) (s : Store) :
    (pc.signal F).completeLists s = pc.completeLists s := by
  unfold signal; split <;> rfl

/-- The second half reads and writes only lists. -/
theorem completeLists_sameLists (pc : Pc) {s s' : Store} (h : s.SameLists s') :
    (pc.completeLists s).SameLists (pc.completeLists s') := by
  cases pc with
  | mirror dst src =>
    exact h.modify src (g := fun f => { f with dests := f.dests.append dst })
      fun a b hd hs => ⟨by simp [hd], hs⟩
  | unmirror dst src =>
    exact h.modify dst (g := fun f => { f with sources := (f.sources.popData src).2 })
      fun a b hd hs => ⟨hd, by simp [hs]⟩
  | unmirrorAll ref phase =>
    cases phase with
    | source src =>
      exact h.modify src (g := fun f => { f with dests := (f.dests.popData ref).2 })
        fun a b hd hs => ⟨by simp [hd], hs⟩
    | dest dst =>
      exact h.modify dst (g := fun f => { f with sources := (f.sources.popData ref).2 })
        fun a b hd hs => ⟨hd, by simp [hs]⟩
    | _ => exact h
  | _ => exact h

end Pc

namespace Machine

/-- At most one list call is in progress. -/
def ListCallsSerial (m : Machine) : Prop :=
  ∀ u v, (m.threads u).inListCall → (m.threads v).inListCall → u = v

/-- The lists are symmetric once the list call in progress makes its second half: for every
thread `t` such that no other thread is inside a list call. -/
def ListsSettle (m : Machine) : Prop :=
  ∀ t, (∀ u ≠ t, (m.threads u).inListCall = false) →
    ((m.threads t).completeLists m.store).Symmetric

variable {m m' : Machine}

/-- One step of thread `u` keeps the lists settled, from a state with at most one list call
in progress, given what it does: the others change at most by a signal, a step outside list
calls leaves the lists, and `u`'s own second half stays symmetric. -/
theorem ListsSettle.of_step (h : m.ListsSettle) (hser : m.ListCallsSerial) {u : ThreadId}
    {pc : Pc} (ht : m.threads u = pc)
    (hth : ∀ v ≠ u, m'.threads v = m.threads v ∨ ∃ F, m'.threads v = (m.threads v).signal F)
    (hsame : pc.inListCall = false → (m'.threads u).inListCall = false →
      m.store.SameLists m'.store)
    (hu : (∀ v ≠ u, (m.threads v).inListCall = false) → (pc.completeLists m.store).Symmetric →
      ((m'.threads u).completeLists m'.store).Symmetric) : m'.ListsSettle := by
  subst ht
  have hb : ∀ v ≠ u, (m'.threads v).inListCall = (m.threads v).inListCall := fun v hv => by
    rcases hth v hv with h' | ⟨F, h'⟩ <;> simp [h']
  have hself : (∀ v ≠ u, (m'.threads v).inListCall = false) →
      ((m'.threads u).completeLists m'.store).Symmetric := fun hP' => by
    have hP : ∀ v ≠ u, (m.threads v).inListCall = false := fun v hv => (hb v hv) ▸ hP' v hv
    exact hu hP (h u hP)
  intro t hP'
  by_cases htu : t = u
  · subst htu; exact hself hP'
  have hu' : (m'.threads u).inListCall = false := hP' u (Ne.symm htu)
  cases hbt : (m'.threads t).inListCall
  · -- no list call in progress at all
    rw [Pc.completeLists_of_not hbt]
    have := hself fun v hv => if hvt : v = t then hvt ▸ hbt else hP' v hvt
    rwa [Pc.completeLists_of_not hu'] at this
  · -- `t`'s list call is the one in progress, so `u` was in none
    have hbt₀ : (m.threads t).inListCall = true := (hb t htu) ▸ hbt
    have hu₀ : (m.threads u).inListCall = false := by
      cases hm : (m.threads u).inListCall
      · rfl
      · exact absurd (hser t u hbt₀ hm) htu
    have hP : ∀ v ≠ t, (m.threads v).inListCall = false := fun v hv =>
      if hvu : v = u then hvu ▸ hu₀ else (hb v hvu) ▸ hP' v hv
    have hc : (m'.threads t).completeLists m'.store = (m.threads t).completeLists m'.store := by
      rcases hth t htu with h' | ⟨F, h'⟩ <;> simp [h']
    rw [hc]
    exact (h t hP).of_sameLists (Pc.completeLists_sameLists _ (hsame hu₀ hu'))

/-- A step outside list calls that leaves the lists keeps them settled. -/
theorem ListsSettle.of_sameLists (h : m.ListsSettle) (hser : m.ListCallsSerial) {u : ThreadId}
    {pc : Pc} (ht : m.threads u = pc) (hu : pc.inListCall = false)
    (hth : ∀ v ≠ u, m'.threads v = m.threads v ∨ ∃ F, m'.threads v = (m.threads v).signal F)
    (hu' : (m'.threads u).inListCall = false) (hl : m.store.SameLists m'.store) :
    m'.ListsSettle :=
  h.of_step hser ht hth (fun _ _ => hl) fun _ hs => by
    rw [Pc.completeLists_of_not hu']; rw [Pc.completeLists_of_not hu] at hs
    exact hs.of_sameLists hl

/-- Every step keeps the lists settled, from a state with at most one list call in
progress. -/
theorem ListsSettle.step {A : ThreadId → Op → Prop} (h : m.ListsSettle)
    (hser : m.ListCallsSerial) (hs : Step A m m') : m'.ListsSettle := by
  cases hs with
  | pushFull ht _ _ _ | pushDone ht _ _ =>
    exact h.of_sameLists hser ht rfl (fun v hv => .inl (by simp [hv])) (by simp) (.refl _)
  | startPush ht _ | startPull ht _ | startPoke ht _ | startSetMaxQueued ht _
  | startSetBlockFlags ht _ | startUnmirrorFail ht _ _ | pushSkip ht _ _ _
  | pushWait ht _ _ _ | pushWake ht _ | pushReacquire ht _ _ | pushLock ht _ _ _
  | pushDescend ht _ _ | pullAbort ht _ _ _ _ | pullWake ht =>
    exact h.of_sameLists hser ht rfl (fun v hv => .inl (by simp [hv]))
      (by simp [Pc.inListCall]) (.refl _)
  | @pokeSignal t ref ht =>
    exact h.of_sameLists hser ht rfl (fun v hv => .inr ⟨ref, by simp [hv]⟩)
      (by simp [Pc.inListCall]) (.refl _)
  | @pushNoMem t x fr fs w s' ht _ henq =>
    exact h.of_sameLists hser ht rfl (fun v hv => .inl (by simp [hv])) (by simp)
      (Store.pushEnqueue_queuesOnly_of_eq henq).sameLists
  | @pushAppend t x fr fs w s' ht _ henq =>
    exact h.of_sameLists hser ht rfl (fun v hv => .inr ⟨fr.fifo, by simp [hv]⟩)
      (by simp [Pc.inListCall]) (Store.pushEnqueue_queuesOnly_of_eq henq).sameLists
  | pullTake ht _ _ _ =>
    exact h.of_sameLists hser ht rfl (fun v hv => .inl (by simp [hv]))
      (by simp [Pc.inListCall])
      ((Store.sameLists_modify_pullSection _ _ _ _).trans (Store.sameLists_pullTake _ _ _))
  | pullAgain ht _ _ | pullWait ht _ _ =>
    exact h.of_sameLists hser ht rfl (fun v hv => .inl (by simp [hv]))
      (by simp [Pc.inListCall]) (Store.sameLists_modify_pullSection _ _ _ _)
  | pokeSet ht _ =>
    exact h.of_sameLists hser ht rfl (fun v hv => .inl (by simp [hv]))
      (by simp [Pc.inListCall]) (Store.sameLists_fifoPoke _ _)
  | setMaxQueued ht _ =>
    exact h.of_sameLists hser ht rfl (fun v hv => .inl (by simp [hv]))
      (by simp [Pc.inListCall]) (Store.sameLists_fifoSetMaxQueued _ _ _)
  | setBlockFlags ht _ =>
    exact h.of_sameLists hser ht rfl (fun v hv => .inl (by simp [hv]))
      (by simp [Pc.inListCall]) (Store.sameLists_fifoSetBlockFlags _ _ _)
  | @startMirror t dst src ht _ =>
    refine h.of_step hser ht (fun v hv => .inl (by simp [hv]))
      (by simp [Pc.inListCall]) fun _ hs => ?_
    have hsym : m.store.Symmetric := by simpa [Pc.completeLists] using hs
    simpa [Pc.completeLists, Store.fifoMirror] using hsym.mirror dst src
  | mirrorDest ht | unmirrorAllUnlinkSource ht =>
    exact h.of_step hser ht (fun v hv => .inl (by simp [hv])) (by simp [Pc.inListCall])
      fun _ hs => by simpa [Pc.completeLists] using hs
  | @unmirrorAllUnlinkDest t ref dst ht =>
    exact h.of_step hser ht (fun v hv => .inr ⟨dst, by simp [hv]⟩) (by simp [Pc.inListCall])
      fun _ hs => by simpa [Pc.completeLists] using hs
  | startUnmirrorAll ht _ | unmirrorAllLock ht _ =>
    exact h.of_step hser ht (fun v hv => .inl (by simp [hv])) (by simp [Pc.inListCall])
      fun _ hs => by simpa [Pc.completeLists] using hs
  | @startUnmirror t dst src d s' ht _ hpop =>
    refine h.of_step hser ht (fun v hv => .inl (by simp [hv]))
      (by simp [Pc.inListCall]) fun _ hs => ?_
    have hsym : m.store.Symmetric := by simpa [Pc.completeLists] using hs
    have e := m.store.popDest_popSource src dst
    rw [hpop] at e
    simpa [Pc.completeLists, e] using hsym.unlink src dst
  | unmirrorSource ht hpop =>
    exact h.of_step hser ht (fun v hv => .inl (by simp [hv])) (by simp [Pc.inListCall])
      fun _ hs => by simpa [Pc.completeLists, hpop] using hs
  | unmirrorFail ht hpop =>
    exact h.of_step hser ht (fun v hv => .inl (by simp [hv])) (by simp [Pc.inListCall])
      fun _ hs => by simpa [Pc.completeLists, hpop, Store.popSource_none hpop] using hs
  | @unmirrorAllSource t ref src s' ht hpop =>
    refine h.of_step hser ht (fun v hv => .inl (by simp [hv]))
      (by simp [Pc.inListCall]) fun _ hs => ?_
    have hsym : m.store.Symmetric := by simpa [Pc.completeLists] using hs
    simpa [Pc.completeLists, Store.popFirstSource_popDest hpop] using hsym.unlink src ref
  | @unmirrorAllDest t ref dst s' ht hpop =>
    refine h.of_step hser ht (fun v hv => .inl (by simp [hv]))
      (by simp [Pc.inListCall]) fun _ hs => ?_
    have hsym : m.store.Symmetric := by simpa [Pc.completeLists] using hs
    simpa [Pc.completeLists, Store.popFirstDest_popSource hpop] using hsym.unlink ref dst
  | unmirrorAllSourcesDone ht hpop =>
    exact h.of_step hser ht (fun v hv => .inl (by simp [hv])) (by simp [Pc.inListCall])
      fun _ hs => by simpa [Pc.completeLists, Store.popFirstSource_none hpop] using hs
  | unmirrorAllDone ht hpop =>
    exact h.of_step hser ht (fun v hv => .inl (by simp [hv])) (by simp [Pc.inListCall])
      fun _ hs => by simpa [Pc.completeLists, Store.popFirstDest_none hpop] using hs

theorem listsSettle_init {s : Store} (hs : s.Reachable) : (init s).ListsSettle :=
  fun _ _ => hs.inv.symmetric

/-- In every run in which no two list calls are ever in progress at once, the lists are
settled at every state. -/
theorem Reachable.listsSettle {A : ThreadId → Op → Prop}
    (hm : Reachable A (fun m => m.ListCallsSerial) m) : m.ListsSettle := by
  induction hm with
  | init hs _ => exact listsSettle_init hs
  | step hm' hs _ ih => exact ih.step hm'.holds hs

/-- With no two list calls in progress at once, the `dests` and `sources` lists are
symmetric whenever no list call is in progress. -/
theorem reachable_symmetric_of_serial {A : ThreadId → Op → Prop}
    (hm : Reachable A (fun m => m.ListCallsSerial) m)
    (hq : ∀ t, (m.threads t).inListCall = false) : m.store.Symmetric := by
  have h := hm.listsSettle 0 fun u _ => hq u
  rwa [Pc.completeLists_of_not (hq 0)] at h

/-- FIFOs `0` and `1`: thread `0` runs `fifo_mirror(1, 0)` to its end, with no other list call
in progress. -/
theorem reachable_symmetric_of_serial_mirror :
    let s := (((Store.init fun _ => true).fifoCreate 2 Flags.none).2.fifoCreate 2 Flags.none).2
    ∃ m, Reachable (fun _ _ => True) (fun m => m.ListCallsSerial) m ∧
      (∀ t, (m.threads t).inListCall = false) ∧ m.store = s.fifoMirror 1 0 ∧
      m.store.Symmetric := by
  intro s
  have h₀ : s.Reachable := ((Store.Reachable.init _).create 2 Flags.none).create 2 Flags.none
  -- only thread `0` is ever in a list call
  have hser (m : Machine) (hu : ∀ u ≠ 0, m.threads u = .idle) : m.ListCallsSerial :=
    fun u v hu' hv' => by
      by_contra huv
      rcases Nat.eq_zero_or_pos u with rfl | hu₀
      · simp [hu v (Ne.symm huv), Pc.inListCall] at hv'
      · simp [hu u hu₀.ne', Pc.inListCall] at hu'
  have h₂ := ((Reachable.init (A := fun _ _ => True) h₀ (hser _ fun _ _ => rfl)).step
    (@Step.startMirror _ _ 0 1 0 rfl trivial)
    (hser _ fun u hu => by simp [Function.update_noteq hu, init])).step
    (@Step.mirrorDest _ _ 0 1 0 rfl) (hser _ fun u hu => by simp [Function.update_noteq hu, init])
  refine ⟨_, h₂, ?_, rfl, reachable_symmetric_of_serial h₂ ?_⟩ <;> intro t <;>
    by_cases ht : t = 0 <;> simp [ht, Function.update_noteq, init, Pc.inListCall]

/-! ## The two appends of `fifo_mirror`

`fifo_mirror(dst, src)` appends `src` to `dst->sources`, then `dst` to `src->dests`, and holds
no lock in between. `fifo_unmirror_all(dst)` takes `dst`'s lock, which the mirror never
takes, so it can run whole between the two appends: it pops `src` from `dst->sources`, finds
no entry for `dst` in `src->dests` yet, and returns. The second append then leaves a link
that `src->dests` has and `dst->sources` has not, with no call in progress. A later
`fifo_unmirror(dst, src)` finds the first entry and fails `assert(src_ref)` on the second.
-/

/-- Two FIFOs, `0` and `1`, made by the setup; thread `0` mirrors `0` into `1`, thread `1`
runs `fifo_unmirror_all(1)` between the two appends, and thread `2` then unmirrors the pair. -/
theorem mirror_unmirrorAll_race :
    ∃ m, Reachable (fun _ _ => True) (fun _ => True) m ∧ (∀ t, m.threads t = .idle) ∧
      ¬ m.store.Symmetric ∧
      ∃ m₁ m₂, Step (fun _ _ => True) m m₁ ∧ Step (fun _ _ => True) m₁ m₂ ∧
        m₂.threads 2 = .failed := by
  have h₀ : (((Store.init fun _ => true).fifoCreate 2 Flags.none).2.fifoCreate 2
      Flags.none).2.Reachable :=
    ((Store.Reachable.init _).create 2 Flags.none).create 2 Flags.none
  have h₁ := Reachable.step
    (Reachable.init (A := fun _ _ => True) (P := fun _ => True) h₀ trivial)
    (@Step.startMirror _ _ 0 1 0 rfl trivial) trivial
  have h₂ := h₁.step (@Step.startUnmirrorAll _ _ 1 1 rfl trivial) trivial
  have h₃ := h₂.step (@Step.unmirrorAllLock _ _ 1 1 rfl rfl) trivial
  have h₄ := h₃.step (@Step.unmirrorAllSource _ _ 1 1 0 _ rfl rfl) trivial
  have h₅ := h₄.step (@Step.unmirrorAllUnlinkSource _ _ 1 1 0 rfl) trivial
  have h₆ := h₅.step (@Step.unmirrorAllSourcesDone _ _ 1 1 _ rfl rfl) trivial
  have h₇ := h₆.step (@Step.unmirrorAllDone _ _ 1 1 _ rfl rfl) trivial
  have h₈ := h₇.step (@Step.mirrorDest _ _ 0 1 0 rfl) trivial
  refine ⟨_, h₈, fun t => ?_, fun h => absurd (h 0 1) (by decide), _, _,
    @Step.startUnmirror _ _ 2 1 0 _ _ rfl trivial rfl, @Step.unmirrorFail _ _ 2 1 0 _ rfl rfl, rfl⟩
  simp only [setPc_threads, setStore_threads, setOwner_threads, Function.update_apply]
  split_ifs <;> rfl

end Machine

end Txproto
