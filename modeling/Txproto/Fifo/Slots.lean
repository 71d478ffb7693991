-- SUMMARY: The queued array holds every slot in use in every store a run of calls reaches: num_queued is never negative and queued_alloc_size covers sizeof(TYPE *) * num_queued bytes.
import Txproto.Fifo.System

/-!
# The queued array

`queued` is one allocation of `queued_alloc_size` bytes. Only `fifo_push` grows it, through
`av_fast_realloc(ctx->queued, &ctx->queued_alloc_size, sizeof(TYPE *)*(ctx->num_queued + 1))`
(lines 357-367), and nothing shrinks it while the FIFO lives. `Fifo.Fits` says the array holds
every slot in use: `num_queued` is not negative and the array has room for `num_queued`
pointers. In a store that fits, the code stays inside the array: the store at
`queued[num_queued]` is made once the array has room for one more slot, so the FIFO fits
after it (`Store.Fits.pushEnqueue`); a pop reads `queued[0]` and moves `num_queued - 1` slots
down with at least one slot in use; `fifo_destroy` frees slots `0 .. num_queued - 1`.

Every call keeps it (`Store.Fits.exec`), so it holds in every reachable store
(`Store.Reachable.fits`). `Store.ArraysKept` is what all calls but a push that stores and a
pop do to the arrays: nothing.
-/

namespace Txproto

/-- The array of `f` holds every slot in use: `num_queued` is not negative and
`queued_alloc_size` covers `sizeof(TYPE *) * num_queued` bytes. -/
structure Fifo.Fits (f : Fifo) : Prop where
  nonneg : 0 ≤ f.numQueued
  size : ptrSize * f.numQueued.toNat ≤ f.queuedAllocSize

instance (f : Fifo) : Decidable f.Fits :=
  decidable_of_iff (0 ≤ f.numQueued ∧ ptrSize * f.numQueued.toNat ≤ f.queuedAllocSize)
    ⟨fun ⟨h₁, h₂⟩ => ⟨h₁, h₂⟩, fun ⟨h₁, h₂⟩ => ⟨h₁, h₂⟩⟩

/-- Every FIFO's array holds every slot in use. -/
def Store.Fits (s : Store) : Prop := ∀ F, (s.fifos F).Fits

/-- `s'` has every FIFO's array as `s` has it: the same slots, `num_queued` and
`queued_alloc_size`. -/
structure Store.ArraysKept (s s' : Store) : Prop where
  queued : ∀ F, (s'.fifos F).queued = (s.fifos F).queued
  numQueued : ∀ F, (s'.fifos F).numQueued = (s.fifos F).numQueued
  allocSize : ∀ F, (s'.fifos F).queuedAllocSize = (s.fifos F).queuedAllocSize

namespace Fifo

theorem fits_zero : Fifo.zero.Fits := ⟨le_rfl, Nat.zero_le _⟩

/-- The store of a clone at `queued[num_queued]` once `av_fast_realloc` has given the array
room for one more slot. -/
theorem Fits.enqueue {f : Fifo} (h : f.Fits) (x : Item) {size : Nat} (hs : f.minSize ≤ size) :
    (f.enqueue x size).Fits :=
  ⟨by have := h.nonneg; simp only [Fifo.enqueue]; omega, hs⟩

/-- A pop with at least one slot in use. -/
theorem Fits.popHead {f : Fifo} (h : f.Fits) (hn : f.numQueued ≠ 0) : f.popHead.Fits := by
  have := h.nonneg
  exact ⟨by simp only [Fifo.popHead]; omega,
    (Nat.mul_le_mul_left ptrSize (by simp only [Fifo.popHead]; omega)).trans h.size⟩

end Fifo

namespace Store

variable {s s' : Store}

theorem ArraysKept.refl (s : Store) : s.ArraysKept s := ⟨fun _ => rfl, fun _ => rfl, fun _ => rfl⟩

theorem ArraysKept.trans {a b c : Store} (h₁ : a.ArraysKept b) (h₂ : b.ArraysKept c) :
    a.ArraysKept c :=
  ⟨fun F => (h₂.queued F).trans (h₁.queued F), fun F => (h₂.numQueued F).trans (h₁.numQueued F),
    fun F => (h₂.allocSize F).trans (h₁.allocSize F)⟩

theorem ListsOnly.arraysKept (h : s.ListsOnly s') : s.ArraysKept s' :=
  ⟨fun F => by rw [h.fifos F], fun F => by rw [h.fifos F], fun F => by rw [h.fifos F]⟩

theorem arraysKept_of_fifos (h : s'.fifos = s.fifos) : s.ArraysKept s' :=
  ⟨fun F => by rw [h], fun F => by rw [h], fun F => by rw [h]⟩

/-- A call on one FIFO that leaves its array alone: `poked`, the capacity or the flags. -/
theorem arraysKept_modify (s : Store) (f : FifoId) (g : Fifo → Fifo)
    (hq : (g (s.fifos f)).queued = (s.fifos f).queued)
    (hn : (g (s.fifos f)).numQueued = (s.fifos f).numQueued)
    (ha : (g (s.fifos f)).queuedAllocSize = (s.fifos f).queuedAllocSize) :
    s.ArraysKept (s.modify f g) :=
  ⟨fun F => by simp only [modify_fifos]; split_ifs with h <;> simp [h, hq],
    fun F => by simp only [modify_fifos]; split_ifs with h <;> simp [h, hn],
    fun F => by simp only [modify_fifos]; split_ifs with h <;> simp [h, ha]⟩

/-- The queue the array holds is kept with it. -/
theorem ArraysKept.view (h : s.ArraysKept s') (F : FifoId) :
    (s'.fifos F).view = (s.fifos F).view := by
  simp only [Fifo.view, h.queued F, h.numQueued F]

theorem ArraysKept.fits (h : s.ArraysKept s') (hs : s.Fits) : s'.Fits := fun F =>
  ⟨h.numQueued F ▸ (hs F).nonneg, by rw [h.numQueued F, h.allocSize F]; exact (hs F).size⟩

theorem Fits.modify (h : s.Fits) {f : FifoId} {g : Fifo → Fifo} (hg : (g (s.fifos f)).Fits) :
    (s.modify f g).Fits := fun F => by
  simp only [modify_fifos]; split_ifs
  · exact hg
  · exact h F

/-- `av_fast_realloc` returns a size that holds `min_size` bytes. -/
theorem fastRealloc_some {size minSize size' : Nat}
    (h : (s.fastRealloc size minSize).1 = some size') : minSize ≤ size' := by
  unfold fastRealloc at h
  split_ifs at h with hfit hok
  · cases h; exact hfit
  · cases h; exact le_max_right _ _

/-- Lines 357-367 of `fifo_push`: the array is grown to hold `num_queued + 1` slots before
the clone is stored at `queued[num_queued]`, and left as it was when the allocation fails. -/
theorem Fits.pushEnqueue (h : s.Fits) (dst : FifoId) (x : Item) : (s.pushEnqueue dst x).2.Fits := by
  rcases hr : (s.fastRealloc (s.fifos dst).queuedAllocSize (s.fifos dst).minSize).1 with
    _ | size <;> simp only [Store.pushEnqueue, hr]
  · exact (arraysKept_of_fifos (fastRealloc_fifos _ _ _)).fits h
  · refine Fits.modify (fun F => by simpa using h F) ?_
    simpa using (h dst).enqueue x (fastRealloc_some hr)

theorem Fits.pushEnqueue_of_eq (h : s.Fits) {dst : FifoId} {x : Item} {b : Bool}
    (he : s.pushEnqueue dst x = (b, s')) : s'.Fits := by
  simpa [he] using h.pushEnqueue dst x

/-- Lines 445-456: a pop with a slot in use moves the array down by one; a peek leaves it. -/
theorem Fits.pullTake (h : s.Fits) {src : FifoId} {pop : Bool}
    (hn : pop = true → (s.fifos src).numQueued ≠ 0) : (s.pullTake src pop).1.Fits := by
  unfold Store.pullTake
  split_ifs with hp
  · exact h.modify ((h src).popHead (hn hp))
  · exact (arraysKept_of_fifos (clone_fifos _ _)).fits h

theorem pushAux_fits : ∀ {n held s dst x s' r},
    pushAux n held s dst x = some (s', r) → s.Fits → s'.Fits
  | 0, _, _, _, _, _, _, h => by cases h
  | n + 1, held, s, dst, x, s', r, h => by
    obtain ⟨-, ⟨-, -, rfl⟩ | ⟨-, -, he, -⟩ | ⟨s₁, hs₁, hd⟩⟩ := pushAux_eq_some h
    · exact id
    · exact (·.pushEnqueue_of_eq he)
    · intro hs
      have h₁ : s₁.Fits := by
        rcases hs₁ with ⟨-, rfl⟩ | ⟨-, -, he⟩
        · exact hs
        · exact hs.pushEnqueue_of_eq he
      exact distribute_induct (P := fun a b => a.Fits → b.Fits) (fun _ => id)
        (fun h₁ h₂ h => h₂ (h₁ h)) pushAux_queuesOnly s₁ _ (fun _ _ h => pushAux_fits h)
        (List.Subset.refl _) (.refl s₁) hd h₁

/-- Every call keeps every array holding its slots. -/
theorem Fits.exec (h : s.Fits) {op : Op} (he : s.exec op = some s') : s'.Fits := by
  cases op with
  | create maxQueued flags =>
    cases he
    unfold fifoCreate
    dsimp only
    split_ifs
    · intro F
      simp only [Function.update_apply, allocN_fifos]
      split_ifs
      · exact ⟨le_rfl, Nat.zero_le _⟩
      · exact h F
    · exact (arraysKept_of_fifos (allocN_fifos _ _)).fits h
  | destroy f =>
    cases he
    intro F
    simp only [fifoDestroy, Function.update_apply, freeAll_fifos]
    split_ifs
    · exact Fifo.fits_zero
    · exact h F
  | mirror dst src => cases he; exact (fifoMirror_listsOnly s dst src).arraysKept.fits h
  | unmirror dst src =>
    rw [fifoUnmirror_eq_unlink he]; exact (unlink_listsOnly s src dst).arraysKept.fits h
  | unmirrorAll ref => cases he; exact (fifoUnmirrorAll_listsOnly s ref).arraysKept.fits h
  | push dst x =>
    obtain ⟨⟨_, _⟩, hp, rfl⟩ := Option.map_eq_some'.mp he
    exact pushAux_fits hp h
  | pull src flags pop =>
    obtain ⟨⟨_, _, _⟩, hp, rfl⟩ := Option.map_eq_some'.mp he
    rcases fifoPullFlags_eq_some hp with ⟨-, hne, -, rfl⟩ | ⟨-, -, rfl⟩
    · exact h.pullTake fun _ => hne
    · dsimp only
      rw [Fifo.pullLoop_fst]
      exact ArraysKept.fits (arraysKept_modify s src _ rfl rfl rfl) h
  | poke ref => cases he; exact ArraysKept.fits (arraysKept_modify s ref _ rfl rfl rfl) h
  | setMaxQueued dst n => cases he; exact ArraysKept.fits (arraysKept_modify s dst _ rfl rfl rfl) h
  | setBlockFlags dst flags =>
    cases he; exact ArraysKept.fits (arraysKept_modify s dst _ rfl rfl rfl) h

theorem fits_init (allocOk : Nat → Bool) : (init allocOk).Fits := fun _ => Fifo.fits_zero

theorem Reachable.fits (h : s.Reachable) : s.Fits := by
  induction h with
  | init allocOk => exact fits_init allocOk
  | step _ _ _ he ih => exact ih.exec he

end Store

end Txproto
