-- SUMMARY: fifo_create, fifo_destroy, fifo_poke, fifo_set_max_queued, fifo_set_block_flags and the three getters of the template.
import Txproto.Fifo.Basic

/-!
# Construction, configuration and introspection

The calls that touch one FIFO under its lock without blocking, `fifo_create`, which makes
four allocations and returns `NULL` if any of them fails, and `fifo_destroy`, which the last
`av_buffer_unref` on a FIFO's handle runs. `fifo_poke` also signals `cond_in` after
releasing the lock; the signal belongs to the concurrent model.
-/

namespace Txproto

namespace Store

/-- `n` allocations in a row, stopping at the first that fails. -/
def allocN : Nat → Store → Bool × Store
  | 0, s => (true, s)
  | n + 1, s => if s.tryAlloc.1 then allocN n s.tryAlloc.2 else (false, s.tryAlloc.2)

@[simp] theorem allocN_fifos : ∀ (n : Nat) (s : Store), (allocN n s).2.fifos = s.fifos
  | 0, _ => rfl
  | n + 1, s => by unfold allocN; split_ifs <;> simp [allocN_fifos n]

@[simp] theorem allocN_next : ∀ (n : Nat) (s : Store), (allocN n s).2.next = s.next
  | 0, _ => rfl
  | n + 1, s => by unfold allocN; split_ifs <;> simp [allocN_next n]

/-- The FIFO `fifo_create` sets up: zeroed by `av_mallocz`, then the capacity, the flags and
two empty buffer lists. -/
def newFifo (maxQueued : Int) (flags : Flags) : Fifo :=
  { Fifo.zero with maxQueued := maxQueued, blockFlags := flags }

/-- `RENAME(fifo_create)(opaque, max_queued, block_flags)`: `av_mallocz`, `av_buffer_create`
and two `sp_bufferlist_new`. The new handle, or `NULL` when one of them fails. -/
def fifoCreate (s : Store) (maxQueued : Int) (flags : Flags) : Option FifoId × Store :=
  let r := allocN 4 s
  if r.1 then
    (some r.2.next,
      { r.2 with fifos := Function.update r.2.fifos r.2.next (newFifo maxQueued flags),
                 next := r.2.next + 1, live := Function.update r.2.live r.2.next true })
  else (none, r.2)

@[simp] theorem allocN_live : ∀ (n : Nat) (s : Store), (allocN n s).2.live = s.live
  | 0, _ => rfl
  | n + 1, s => by unfold allocN; split_ifs <;> simp [allocN_live n]

@[simp] theorem allocN_refs : ∀ (n : Nat) (s : Store), (allocN n s).2.refs = s.refs
  | 0, _ => rfl
  | n + 1, s => by unfold allocN; split_ifs <;> simp [allocN_refs n]

/-- What `fifo_create` does: a few allocations, then, unless one failed, a new empty FIFO at
the next handle. -/
theorem fifoCreate_spec (s : Store) (maxQueued : Int) (flags : Flags) :
    ∃ t : Store, t.fifos = s.fifos ∧ t.next = s.next ∧ t.live = s.live ∧ t.refs = s.refs ∧
      ((s.fifoCreate maxQueued flags).2 = t ∨
        (s.fifoCreate maxQueued flags).2 = { t with
          fifos := Function.update s.fifos s.next (newFifo maxQueued flags),
          next := s.next + 1, live := Function.update s.live s.next true }) := by
  refine ⟨(allocN 4 s).2, by simp, by simp, by simp, by simp, ?_⟩
  unfold fifoCreate
  dsimp only
  split_ifs
  · exact .inr (by rw [allocN_next, allocN_fifos, allocN_live])
  · exact .inl rfl

/-- `fifo_create` adds no destination: the new FIFO has none. -/
theorem fifoCreate_dests_subset (s : Store) (maxQueued : Int) (flags : Flags) (F : FifoId) :
    ((s.fifoCreate maxQueued flags).2.fifos F).dests ⊆ (s.fifos F).dests := by
  obtain ⟨t, hf, -, -, -, h | h⟩ := fifoCreate_spec s maxQueued flags <;> rw [h]
  · rw [hf]; exact List.Subset.refl _
  · simp only [Function.update_apply]
    split_ifs
    · simp [newFifo, Fifo.zero]
    · exact List.Subset.refl _

/-- `FREE_FN` on each item of a list of slots. -/
def freeAll (s : Store) : List Item → Store
  | [] => s
  | x :: xs => (s.free x).freeAll xs

@[simp] theorem freeAll_fifos : ∀ (s : Store) (xs : List Item), (s.freeAll xs).fifos = s.fifos
  | _, [] => rfl
  | s, x :: xs => by simp [freeAll, freeAll_fifos _ xs]

@[simp] theorem freeAll_next : ∀ (s : Store) (xs : List Item), (s.freeAll xs).next = s.next
  | _, [] => rfl
  | s, x :: xs => by simp [freeAll, freeAll_next _ xs]

@[simp] theorem freeAll_live : ∀ (s : Store) (xs : List Item), (s.freeAll xs).live = s.live
  | _, [] => rfl
  | s, x :: xs => by simp [freeAll, freeAll_live _ xs]

/-- `PRIV_RENAME(fifo_destroy)`: both lists freed, `FREE_FN` on every queued slot, the array
and the struct released. -/
def fifoDestroy (s : Store) (f : FifoId) : Store :=
  let s₁ := s.freeAll (s.fifos f).view
  { s₁ with fifos := Function.update s₁.fifos f Fifo.zero,
            live := Function.update s₁.live f false }

/-- `RENAME(fifo_poke)(ref)`: `poked = true` under the lock; it returns `0`. -/
def fifoPoke (s : Store) (ref : FifoId) : Store :=
  s.modify ref fun f => { f with poked := true }

/-- `RENAME(fifo_set_max_queued)(dst, max_queued)`: any `int` is accepted. -/
def fifoSetMaxQueued (s : Store) (dst : FifoId) (maxQueued : Int) : Store :=
  s.modify dst fun f => { f with maxQueued := maxQueued }

/-- `RENAME(fifo_set_block_flags)(dst, block_flags)`. -/
def fifoSetBlockFlags (s : Store) (dst : FifoId) (flags : Flags) : Store :=
  s.modify dst fun f => { f with blockFlags := flags }

@[simp] theorem fifoPoke_numQueued (s : Store) (ref F : FifoId) :
    ((s.fifoPoke ref).fifos F).numQueued = (s.fifos F).numQueued := by
  unfold fifoPoke; simp only [modify_fifos]; split_ifs with h
  · subst h; rfl
  · rfl

@[simp] theorem fifoSetMaxQueued_numQueued (s : Store) (dst F : FifoId) (n : Int) :
    ((s.fifoSetMaxQueued dst n).fifos F).numQueued = (s.fifos F).numQueued := by
  unfold fifoSetMaxQueued; simp only [modify_fifos]; split_ifs with h
  · subst h; rfl
  · rfl

@[simp] theorem fifoSetBlockFlags_numQueued (s : Store) (dst F : FifoId) (flags : Flags) :
    ((s.fifoSetBlockFlags dst flags).fifos F).numQueued = (s.fifos F).numQueued := by
  unfold fifoSetBlockFlags; simp only [modify_fifos]; split_ifs with h
  · subst h; rfl
  · rfl

/-- `RENAME(fifo_is_full)(src)`: `1` when `max_queued` is `0`, the capacity test
`num_queued > (max_queued + 1)` on `int` when it is positive, `0` otherwise. -/
def fifoIsFull (s : Store) (src : FifoId) : Int :=
  let f := s.fifos src
  if f.maxQueued = 0 then 1
  else if f.maxQueued > 0 then (if f.numQueued > intAddWrap f.maxQueued 1 then 1 else 0)
  else 0

/-- `RENAME(fifo_get_size)(src)`. -/
def fifoGetSize (s : Store) (src : FifoId) : Int := (s.fifos src).numQueued

/-- `RENAME(fifo_get_max_size)(src)`: `INT_MAX` for the unbounded `-1`. -/
def fifoGetMaxSize (s : Store) (src : FifoId) : Int :=
  if (s.fifos src).maxQueued = -1 then intMax else (s.fifos src).maxQueued

end Store

end Txproto
