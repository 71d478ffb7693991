-- SUMMARY: The second pop of fifo_unmirror when list calls do not overlap: it always finds its entry, so assert(src_ref) never fails and the call completes the unlink.
import Txproto.Threads.Lists
import Txproto.Threads.Next

/-!
# The second assert of `fifo_unmirror` when list calls do not overlap

`fifo_unmirror(dst, src)` pops `dst` from `src->dests`, then `src` from `dst->sources`, and
asserts that each pop found its entry (lines 146-182). The first assert holds exactly when
the pair is linked; the second fails only when another list call runs between the two pops
(`Machine.mirror_unmirrorAll_race`). With no two list calls in progress at once, the lists
are symmetric when the first pop runs (`Machine.ListsSettle`), only a thread inside a list
call takes an
entry out of a `sources` list (`Machine.Step.sources_mem`), and so the second pop always
finds its entry (`Machine.reachable_unmirror_finds`).
-/

namespace Txproto

namespace Store

variable {s s' : Store}

/-- A change of one FIFO that takes no entry out of its `sources`. -/
theorem sources_mem_modify (s : Store) (f : FifoId) {g : Fifo → Fifo}
    (hg : (s.fifos f).sources ⊆ (g (s.fifos f)).sources) {F S : FifoId}
    (hS : S ∈ (s.fifos F).sources) : S ∈ ((s.modify f g).fifos F).sources := by
  simp only [modify_fifos]; split_ifs with h
  · subst h; exact hg hS
  · exact hS

theorem SameLists.sources_mem (h : s.SameLists s') {F S : FifoId}
    (hS : S ∈ (s.fifos F).sources) : S ∈ (s'.fifos F).sources := (h F).2 ▸ hS

/-- The pops from `dests` leave every `sources` list. -/
@[simp] theorem popDest_sources (s : Store) (src dst F : FifoId) :
    ((s.popDest src dst).2.fifos F).sources = (s.fifos F).sources := by
  unfold popDest; dsimp only; rw [modify_fifos]; split_ifs with h <;> simp [h]

@[simp] theorem popFirstDest_sources (s : Store) (ref F : FifoId) :
    ((s.popFirstDest ref).2.fifos F).sources = (s.fifos F).sources := by
  unfold popFirstDest; dsimp only; rw [modify_fifos]; split_ifs with h <;> simp [h]

theorem sources_of_eq {p : Option FifoId × Store} {o : Option FifoId}
    (h : ∀ F, (p.2.fifos F).sources = (s.fifos F).sources) (hp : p = (o, s')) (F : FifoId) :
    (s'.fifos F).sources = (s.fifos F).sources := by
  subst hp; exact h F

end Store

theorem Pc.eq_of_signal_eq_unmirror {pc : Pc} {F dst src : FifoId}
    (h : pc.signal F = .unmirror dst src) : pc = .unmirror dst src := by
  revert h; unfold Pc.signal; split <;> simp

namespace Machine

variable {A : ThreadId → Op → Prop} {m m' : Machine}

/-- A step takes an entry out of a `sources` list only by a thread inside a list call, which
moves on. -/
theorem Step.sources_mem (hs : Step A m m') {S D : FifoId}
    (hS : S ∈ (m.store.fifos D).sources) :
    S ∈ (m'.store.fifos D).sources ∨ ∃ u, (m.threads u).inListCall ∧ m'.threads u ≠ m.threads u := by
  cases hs with
  | startPush _ _ | startPull _ _ | startPoke _ _ | startSetMaxQueued _ _
  | startSetBlockFlags _ _ | startUnmirrorFail _ _ _ | startUnmirrorAll _ _ | pushSkip _ _ _ _
  | pushFull _ _ _ _ | pushWait _ _ _ _ | pushLock _ _ _ _ | pushWake _ _ | pushReacquire _ _ _
  | pushDescend _ _ _ | pushDone _ _ _ | pullAbort _ _ _ _ _ | pullWake _ | pokeSignal _
  | unmirrorFail _ _ | unmirrorAllLock _ _ => exact .inl hS
  | pushNoMem _ _ he | pushAppend _ _ he =>
    exact .inl ((Store.pushEnqueue_queuesOnly_of_eq he).sameLists.sources_mem hS)
  | pullTake _ _ _ _ =>
    exact .inl (((Store.sameLists_modify_pullSection _ _ _ _).trans
      (Store.sameLists_pullTake _ _ _)).sources_mem hS)
  | pullAgain _ _ _ | pullWait _ _ _ =>
    exact .inl ((Store.sameLists_modify_pullSection _ _ _ _).sources_mem hS)
  | pokeSet _ _ => exact .inl ((Store.sameLists_fifoPoke _ _).sources_mem hS)
  | setMaxQueued _ _ => exact .inl ((Store.sameLists_fifoSetMaxQueued _ _ _).sources_mem hS)
  | setBlockFlags _ _ => exact .inl ((Store.sameLists_fifoSetBlockFlags _ _ _).sources_mem hS)
  | @startMirror _ dst src _ _ => exact .inl (Store.sources_mem_modify m.store dst
      (g := fun f => { f with sources := f.sources.append src }) (List.subset_append_left _ _) hS)
  | @mirrorDest _ dst src _ => exact .inl (Store.sources_mem_modify m.store src
      (g := fun f => { f with dests := f.dests.append dst }) (List.Subset.refl _) hS)
  | startUnmirror _ _ hp =>
    exact .inl (Store.sources_of_eq (Store.popDest_sources _ _ _) hp D ▸ hS)
  | unmirrorAllUnlinkSource _ => exact .inl ((Store.popDest_sources _ _ _ D).symm ▸ hS)
  | unmirrorAllDest _ hp | unmirrorAllDone _ hp =>
    exact .inl (Store.sources_of_eq (Store.popFirstDest_sources _ _) hp D ▸ hS)
  | @unmirrorSource t _ _ _ _ ht _ | @unmirrorAllSource t _ _ _ ht _
  | @unmirrorAllSourcesDone t _ _ ht _ | @unmirrorAllUnlinkDest t _ _ ht =>
    exact .inr ⟨t, by simp [ht, Pc.inListCall], by simp [ht]⟩

/-- A thread comes between the two pops of `fifo_unmirror` only by the first pop, which
finds its entry, with no other thread moving. -/
theorem Step.enter_unmirror (hs : Step A m m') {v : ThreadId} {dst src : FifoId}
    (hv : m'.threads v = .unmirror dst src) (h₀ : m.threads v ≠ .unmirror dst src) :
    m.threads v = .idle ∧ (∀ u ≠ v, m'.threads u = m.threads u) ∧
      ∃ d, m.store.popDest src dst = (some d, m'.store) := by
  cases hs
  case startUnmirror t dst' src' d s' ht _ hp =>
    obtain rfl : v = t := by_contra fun hvt => h₀ (by simpa [Function.update_noteq hvt] using hv)
    obtain ⟨rfl, rfl⟩ : dst' = dst ∧ src' = src := by simpa using hv
    exact ⟨ht, fun u hu => Function.update_noteq hu _ _, d, hp⟩
  all_goals
    exfalso; apply h₀
    dsimp only [setPc_threads, fresh_threads, setStore_threads, setOwner_threads,
      logAppend_threads, signal_threads] at hv
    rw [Function.update_apply, ite_eq_iff] at hv
    rcases hv with ⟨-, h⟩ | ⟨-, h⟩
  -- the moving thread's new place, a signal, or another thread left where it was
  all_goals first
    | exact h
    | cases h
    | exact Pc.eq_of_signal_eq_unmirror h
    | (have hl := congrArg Pc.inListCall h; rw [Pc.inListCall_pushReturn] at hl; cases hl)

/-- A state in which every thread but `w` is idle has at most one list call in progress. -/
theorem listCallsSerial_of_idle {w : ThreadId} (hu : ∀ u ≠ w, m.threads u = .idle) :
    m.ListCallsSerial := fun u v hu' hv' => by
  by_contra huv
  by_cases huw : u = w
  · subst huw; simp [hu v (Ne.symm huv), Pc.inListCall] at hv'
  · simp [hu u huw, Pc.inListCall] at hu'

/-- Every thread between the two pops of `fifo_unmirror(dst, src)` will find `src` in
`dst->sources`. -/
def UnmirrorFinds (m : Machine) : Prop :=
  ∀ t dst src, m.threads t = .unmirror dst src → src ∈ (m.store.fifos dst).sources

theorem unmirrorFinds_init (s : Store) : (init s).UnmirrorFinds := fun _ _ _ h => by
  cases h

/-- One step keeps the second pops finding their entries, from a state with the lists settled
and at most one list call in progress, to one with at most one list call in progress. -/
theorem UnmirrorFinds.step (h : m.UnmirrorFinds) (hL : m.ListsSettle)
    (hser : m.ListCallsSerial) (hser' : m'.ListCallsSerial) (hs : Step A m m') :
    m'.UnmirrorFinds := by
  intro v dst src hv
  by_cases h₀ : m.threads v = .unmirror dst src
  · rcases hs.sources_mem (h v dst src h₀) with hS | ⟨u, hu, hne⟩
    · exact hS
    · -- the thread that moved is inside a list call, so it is `v`, which did not move
      obtain rfl := hser u v hu (by rw [h₀]; rfl)
      exact absurd (hv.trans h₀.symm) hne
  · obtain ⟨hidle, hother, d, hp⟩ := hs.enter_unmirror hv h₀
    -- no other list call was in progress, so the lists were symmetric at the first pop
    have hq : ∀ u ≠ v, (m.threads u).inListCall = false := fun u hu => by
      rw [← hother u hu, Bool.eq_false_iff]
      exact fun hu' => hu (hser' u v hu' (by rw [hv]; rfl))
    have hsym : m.store.Symmetric := by simpa [hidle, Pc.completeLists] using hL v hq
    have hd : dst ∈ (m.store.fifos src).dests := by
      by_contra hn
      simp [Store.popDest, BufferList.popData_fst, hn] at hp
    have hc := hsym src dst
    rw [Store.sources_of_eq (Store.popDest_sources _ _ _) hp dst]
    exact List.count_pos_iff.1 (hc ▸ List.count_pos_iff.2 hd)

theorem Reachable.unmirrorFinds (hm : Reachable A (fun m => m.ListCallsSerial) m) :
    m.UnmirrorFinds := by
  induction hm with
  | init _ _ => exact unmirrorFinds_init _
  | step hm' hs hP ih => exact ih.step hm'.listsSettle hm'.holds hP hs

/-- With no two list calls in progress at once, the second pop of `fifo_unmirror(dst, src)`
always finds its entry: `assert(src_ref)` never fails, and the thread's step is the pop that
completes the unlink and returns. -/
theorem reachable_unmirror_finds (hm : Reachable A (fun m => m.ListCallsSerial) m)
    {t : ThreadId} {dst src : FifoId} (ht : m.threads t = .unmirror dst src) :
    (m.store.popSource dst src).1 = some src ∧
      m.next t = some ((m.setStore (m.store.popSource dst src).2).setPc t .idle) := by
  have hS := hm.unmirrorFinds t dst src ht
  have h₁ : (m.store.popSource dst src).1 = some src := by
    simp [Store.popSource, BufferList.popData_fst, hS]
  refine ⟨h₁, ?_⟩
  rw [next_eq ht]
  rcases hp : m.store.popSource dst src with ⟨_ | _, s'⟩
  · rw [hp] at h₁; cases h₁
  · simp only [nextAt, hp]

/-- FIFOs `0` and `1`: thread `0` links `1` under `0` with `fifo_mirror(1, 0)`, then makes
the first pop of `fifo_unmirror(1, 0)`. -/
theorem reachable_unmirror_finds_pair :
    ∃ m, Reachable (fun _ _ => True) (fun m => m.ListCallsSerial) m ∧
      m.threads 0 = .unmirror 1 0 ∧ (m.store.popSource 1 0).1 = some 0 ∧
      m.next 0 = some ((m.setStore (m.store.popSource 1 0).2).setPc 0 .idle) := by
  have h₀ := ((Store.Reachable.init fun _ => true).create 2 Flags.none).create 2 Flags.none
  -- only thread `0` ever leaves `idle`
  have hser : ∀ (pc : Pc) (m : Machine), (∀ u ≠ 0, m.threads u = .idle) →
      (m.setPc 0 pc).ListCallsSerial := fun pc m h =>
    listCallsSerial_of_idle (w := 0) fun u hu => by simp [Function.update_noteq hu, h u hu]
  have h₃ := (((Reachable.init (A := fun _ _ => True) h₀
    (listCallsSerial_of_idle (w := 0) fun _ _ => rfl)).step
    (@Step.startMirror _ _ 0 1 0 rfl trivial) (hser _ _ fun _ _ => rfl)).step
    (@Step.mirrorDest _ _ 0 1 0 rfl) (hser _ _ fun u hu => by simp [Function.update_noteq hu, init])).step
    (@Step.startUnmirror _ _ 0 1 0 1 _ (by simp) trivial rfl)
    (hser _ _ fun u hu => by simp [Function.update_noteq hu, init])
  exact ⟨_, h₃, by simp, reachable_unmirror_finds h₃ (by simp)⟩

end Machine

end Txproto
