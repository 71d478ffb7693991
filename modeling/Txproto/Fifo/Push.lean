-- SUMMARY: fifo_push: the capacity test, the enqueue through av_fast_realloc, the distribute loop over dests, and the fan-out law.
import Txproto.Fifo.Basic
import Mathlib.Algebra.BigOperators.Group.List

/-!
# Push and fan-out

`fifo_push(dst, in)` takes `dst`'s lock, stores a clone of `in` unless `max_queued` is `0`
or the queue is over its limit, then calls itself on every entry of `dst->dests` while it
still holds the lock. We split it as the code is laid out:

* `Fifo.pushCheck` — lines 343-355, the decision taken at `dst` before anything is stored;
* `Store.pushEnqueue` — lines 357-367, `av_fast_realloc` and the store of the clone;
* `distribute` — lines 371-382, the loop over the destinations and its error rule;
* `pushAux` — the whole call.

The concurrent model reuses the first two for its atomic steps.

The fan-out law `pushAux_fan_out`: a push that returns `0` appended, at every FIFO that
buffers, one clone per `dests`-path from `dst`, and nothing anywhere else.
-/

namespace Txproto

/-- `sizeof(TYPE *)` on the 64-bit targets. -/
def ptrSize : Nat := 8

/-- The size `av_fast_realloc` grows a buffer to when `min_size` does not fit. -/
def fastReallocSize (minSize : Nat) : Nat := max (minSize + minSize / 16 + 32) minSize

namespace Fifo

/-- The capacity test of `fifo_push`: `in && max_queued != -1 && num_queued > (max_queued + 1)`,
the sum on `int`. -/
def overLimit (f : Fifo) (x : Item) : Bool :=
  x.isSome && f.maxQueued != -1 && decide (f.numQueued > intAddWrap f.maxQueued 1)

/-- What `fifo_push` does at its own FIFO once it holds the lock. -/
inductive PushCheck where
  /-- `max_queued == 0`: `goto distribute`. -/
  | skip
  /-- Over the limit without `BLOCK_MAX_OUTPUT`: `ENOBUFS`. -/
  | full
  /-- Over the limit with `BLOCK_MAX_OUTPUT`: one `pthread_cond_wait` on `cond_out`. -/
  | wait
  /-- Grow the array and store the clone. -/
  | enqueue
  deriving DecidableEq, Repr

/-- Lines 343-355 of `fifo_push`. -/
def pushCheck (f : Fifo) (x : Item) : PushCheck :=
  if f.maxQueued = 0 then .skip
  else if f.overLimit x then
    if f.blockFlags.blockMaxOutput then .wait else .full
  else .enqueue

theorem pushCheck_eq_full (f : Fifo) (x : Item) : f.pushCheck x = .full ↔
    f.maxQueued ≠ 0 ∧ f.overLimit x ∧ f.blockFlags.blockMaxOutput = false := by
  unfold pushCheck; split_ifs <;> simp_all

/-- The `min_size` that `fifo_push` passes to `av_fast_realloc`. -/
def minSize (f : Fifo) : Nat := ptrSize * (f.numQueued + 1).toNat

/-- `ctx->queued[ctx->num_queued++] = CLONE_FN(in)` once the array has `size` bytes. -/
def enqueue (f : Fifo) (x : Item) (size : Nat) : Fifo :=
  { f with queued := Function.update f.queued f.numQueued.toNat x,
           numQueued := f.numQueued + 1, queuedAllocSize := size }

theorem view_enqueue {f : Fifo} (h : 0 ≤ f.numQueued) (x : Item) (size : Nat) :
    (f.enqueue x size).view = f.view ++ [x] := by
  have : (f.numQueued + 1).toNat = f.numQueued.toNat + 1 := by omega
  simp only [view, enqueue, this, List.range_succ, List.map_append, List.map_cons,
    List.map_nil, Function.update_same]
  congr 1
  exact List.map_congr_left fun i hi =>
    Function.update_noteq (by simp at hi; omega) _ _

end Fifo

namespace Store

/-- `av_fast_realloc(ptr, &size, min_size)` of libavutil: no allocation when `min_size`
fits; otherwise one allocation, which may fail. The new size, or `none` on failure. -/
def fastRealloc (s : Store) (size minSize : Nat) : Option Nat × Store :=
  if minSize ≤ size then (some size, s)
  else (if s.tryAlloc.1 then some (fastReallocSize minSize) else none, s.tryAlloc.2)

@[simp] theorem fastRealloc_fifos (s : Store) (size minSize : Nat) :
    (s.fastRealloc size minSize).2.fifos = s.fifos := by
  unfold fastRealloc; split_ifs <;> rfl

@[simp] theorem fastRealloc_next (s : Store) (size minSize : Nat) :
    (s.fastRealloc size minSize).2.next = s.next := by
  unfold fastRealloc; split_ifs <;> rfl

@[simp] theorem fastRealloc_live (s : Store) (size minSize : Nat) :
    (s.fastRealloc size minSize).2.live = s.live := by
  unfold fastRealloc; split_ifs <;> rfl

@[simp] theorem fastRealloc_refs (s : Store) (size minSize : Nat) :
    (s.fastRealloc size minSize).2.refs = s.refs := by
  unfold fastRealloc; split_ifs <;> rfl

/-- Lines 357-367 of `fifo_push`: grow the array, store the clone, `num_queued++`. `false`
when the allocation fails, which leaves `queued_alloc_size` as it was. The signal on
`cond_in` belongs to the concurrent model. -/
def pushEnqueue (s : Store) (dst : FifoId) (x : Item) : Bool × Store :=
  let r := s.fastRealloc (s.fifos dst).queuedAllocSize (s.fifos dst).minSize
  match r.1 with
  | none => (false, r.2)
  | some size => (true, (r.2.clone x).modify dst fun f => f.enqueue x size)

/-- What `pushEnqueue` does to the FIFOs: nothing when the allocation fails, otherwise the
enqueue at `dst`. -/
theorem pushEnqueue_fifos (s : Store) (dst : FifoId) (x : Item) :
    ∃ size, (s.pushEnqueue dst x).2.fifos =
      if (s.pushEnqueue dst x).1 then Function.update s.fifos dst ((s.fifos dst).enqueue x size)
      else s.fifos := by
  rcases h : (s.fastRealloc (s.fifos dst).queuedAllocSize (s.fifos dst).minSize).1 with _ | size
  · exact ⟨0, by simp [pushEnqueue, h]⟩
  · exact ⟨size, by simp [pushEnqueue, h, modify]⟩

@[simp] theorem pushEnqueue_next (s : Store) (dst : FifoId) (x : Item) :
    (s.pushEnqueue dst x).2.next = s.next := by
  rcases h : (s.fastRealloc (s.fifos dst).queuedAllocSize (s.fifos dst).minSize).1 with _ | size <;>
    simp [pushEnqueue, h]

/-- A successful enqueue takes one reference on the item: the clone in the new slot. -/
theorem pushEnqueue_refs (s : Store) (dst : FifoId) (x : Item) (i : ItemId) :
    (s.pushEnqueue dst x).2.refs i =
      s.refs i + if (s.pushEnqueue dst x).1 ∧ x = some i then 1 else 0 := by
  rcases h : (s.fastRealloc (s.fifos dst).queuedAllocSize (s.fifos dst).minSize).1 with _ | size <;>
    simp [pushEnqueue, h]

@[simp] theorem pushEnqueue_live (s : Store) (dst : FifoId) (x : Item) :
    (s.pushEnqueue dst x).2.live = s.live := by
  rcases h : (s.fastRealloc (s.fifos dst).queuedAllocSize (s.fifos dst).minSize).1 with _ | size <;>
    simp [pushEnqueue, h]

end Store

-- ---------------------------------------------------------------------------
-- The recursion
-- ---------------------------------------------------------------------------

/-- The `distribute:` loop of `fifo_push` over the entries `ds` of `dests`, calling `push` on
each, with `err` the error recorded so far: `ENOMEM` halts the iteration and is returned,
the first other error is kept and returned once every entry has been pushed to. -/
def distribute (push : Store → FifoId → Option (Store × Ret)) :
    Store → List FifoId → Ret → Option (Store × Ret)
  | s, [], err => some (s, err)
  | s, d :: ds, err =>
    match push s d with
    | none => none
    | some (s₁, r) =>
      if r = .enomem then some (s₁, .enomem)
      else distribute push s₁ ds (if r ≠ .ok ∧ err = .ok then r else err)

/-- `RENAME(fifo_push)(dst, in)` run by one thread with no other thread interleaved. `held`
are the FIFOs whose lock the thread holds already, the callers of this call in the
recursion. `none` is a call that does not return: a lock taken a second time (a cycle of
mirrors), or the fuel ran out. The one `pthread_cond_wait` of the blocking path returns at
once, as a spurious wake-up does, since no other thread runs. -/
def pushAux : Nat → List FifoId → Store → FifoId → Item → Option (Store × Ret)
  | 0, _, _, _, _ => none
  | n + 1, held, s, dst, x =>
    if dst ∈ held then none
    else
      let next := fun s₁ : Store =>
        distribute (fun s d => pushAux n (dst :: held) s d x) s₁ (s₁.fifos dst).dests .ok
      match (s.fifos dst).pushCheck x with
      | .skip => next s
      | .full => some (s, .enobufs)
      | .wait | .enqueue =>
        match s.pushEnqueue dst x with
        | (false, s₁) => some (s₁, .enomem)
        | (true, s₁) => next s₁

/-- `RENAME(fifo_push)(dst, in)` on a non-`NULL` handle. The recursion holds one lock per
level and never takes a lock twice, so it is at most one level deeper than there are FIFOs. -/
def Store.fifoPush (s : Store) (dst : FifoId) (x : Item) : Option (Store × Ret) :=
  pushAux (s.next + 1) [] s dst x

/-- The number of `dests`-paths from `S` to `F` with fewer than `n` edges, one per list
entry taken: `1` for the empty path when `S = F`, and the paths through each entry `d` of
`S.dests`. -/
def pathCount : Nat → Store → FifoId → FifoId → Nat
  | 0, _, _, _ => 0
  | n + 1, s, S, F => (if S = F then 1 else 0) + ((s.fifos S).dests.map fun d => pathCount n s d F).sum

/-- The number of `dests`-paths from `S` to `F`, counted up to the recursion depth of
`fifo_push`. -/
def Store.numPaths (s : Store) (S F : FifoId) : Nat := pathCount (s.next + 1) s S F

-- ---------------------------------------------------------------------------
-- What a push leaves alone
-- ---------------------------------------------------------------------------

/-- `s'` differs from `s` only in the queues: the same FIFOs are live, every FIFO keeps its
lists, capacity, flags and poke, and `num_queued` does not decrease. -/
structure Store.QueuesOnly (s s' : Store) : Prop where
  next : s'.next = s.next
  live : s'.live = s.live
  dests : ∀ F, (s'.fifos F).dests = (s.fifos F).dests
  sources : ∀ F, (s'.fifos F).sources = (s.fifos F).sources
  maxQueued : ∀ F, (s'.fifos F).maxQueued = (s.fifos F).maxQueued
  blockFlags : ∀ F, (s'.fifos F).blockFlags = (s.fifos F).blockFlags
  poked : ∀ F, (s'.fifos F).poked = (s.fifos F).poked
  numQueued_le : ∀ F, (s.fifos F).numQueued ≤ (s'.fifos F).numQueued

namespace Store.QueuesOnly

theorem refl (s : Store) : s.QueuesOnly s :=
  ⟨rfl, rfl, fun _ => rfl, fun _ => rfl, fun _ => rfl, fun _ => rfl, fun _ => rfl, fun _ => le_rfl⟩

theorem trans {a b c : Store} (h₁ : a.QueuesOnly b) (h₂ : b.QueuesOnly c) : a.QueuesOnly c where
  next := h₂.next.trans h₁.next
  live := h₂.live.trans h₁.live
  dests F := (h₂.dests F).trans (h₁.dests F)
  sources F := (h₂.sources F).trans (h₁.sources F)
  maxQueued F := (h₂.maxQueued F).trans (h₁.maxQueued F)
  blockFlags F := (h₂.blockFlags F).trans (h₁.blockFlags F)
  poked F := (h₂.poked F).trans (h₁.poked F)
  numQueued_le F := (h₁.numQueued_le F).trans (h₂.numQueued_le F)

end Store.QueuesOnly

/-- Each FIFO is as it was or has had one item enqueued. -/
theorem Store.pushEnqueue_fifo (s : Store) (dst : FifoId) (x : Item) (F : FifoId) :
    ∃ size, (s.pushEnqueue dst x).2.fifos F = s.fifos F ∨
      (s.pushEnqueue dst x).2.fifos F = (s.fifos F).enqueue x size := by
  obtain ⟨size, h⟩ := s.pushEnqueue_fifos dst x
  refine ⟨size, ?_⟩
  rw [h]
  split_ifs
  · by_cases hF : F = dst
    · subst hF; simp
    · simp [hF]
  · simp

theorem Store.pushEnqueue_queuesOnly (s : Store) (dst : FifoId) (x : Item) :
    s.QueuesOnly (s.pushEnqueue dst x).2 := by
  refine ⟨s.pushEnqueue_next dst x, s.pushEnqueue_live dst x, ?_, ?_, ?_, ?_, ?_, ?_⟩ <;>
    intro F <;> obtain ⟨size, h | h⟩ := s.pushEnqueue_fifo dst x F <;>
    simp [h, Fifo.enqueue, Int.le_add_one]

theorem Store.pushEnqueue_queuesOnly_of_eq {s s₁ : Store} {dst : FifoId} {x : Item} {b : Bool}
    (he : s.pushEnqueue dst x = (b, s₁)) : s.QueuesOnly s₁ := by
  simpa [he] using s.pushEnqueue_queuesOnly dst x

/-- What a push does at its own FIFO before the loop, when it returns: at a FIFO over its
limit without `BLOCK_MAX_OUTPUT` it returns `ENOBUFS` having changed nothing; when the
allocation fails it returns `ENOMEM`; otherwise it stored nothing (`max_queued == 0`) or one
clone, and the loop over `dests` gave the result. -/
theorem pushAux_eq_some {n : Nat} {held : List FifoId} {s s' : Store} {dst : FifoId} {x : Item}
    {r : Ret} (h : pushAux (n + 1) held s dst x = some (s', r)) :
    dst ∉ held ∧
      ((s.fifos dst).pushCheck x = .full ∧ r = .enobufs ∧ s' = s ∨
       (s.fifos dst).maxQueued ≠ 0 ∧ (s.fifos dst).pushCheck x ≠ .full ∧
         s.pushEnqueue dst x = (false, s') ∧ r = .enomem ∨
       ∃ s₁, ((s.fifos dst).maxQueued = 0 ∧ s₁ = s ∨
           (s.fifos dst).maxQueued ≠ 0 ∧ (s.fifos dst).pushCheck x ≠ .full ∧
             s.pushEnqueue dst x = (true, s₁)) ∧
         distribute (fun s d => pushAux n (dst :: held) s d x) s₁ (s₁.fifos dst).dests .ok =
           some (s', r)) := by
  simp only [pushAux] at h
  split_ifs at h with hheld
  refine ⟨hheld, ?_⟩
  split at h
  · rename_i hcheck
    have hmax : (s.fifos dst).maxQueued = 0 := by
      by_contra hm; simp [Fifo.pushCheck, hm] at hcheck; split_ifs at hcheck
    exact .inr (.inr ⟨s, .inl ⟨hmax, rfl⟩, h⟩)
  · cases h; exact .inl ⟨‹_›, rfl, rfl⟩
  all_goals
    rename_i hcheck
    have hmax : (s.fifos dst).maxQueued ≠ 0 := by
      intro hm; simp [Fifo.pushCheck, hm] at hcheck
    have hfull : (s.fifos dst).pushCheck x ≠ .full := by simp [hcheck]
    rcases he : s.pushEnqueue dst x with ⟨_ | _, s₁⟩ <;> simp only [he] at h
    · cases h; exact .inr (.inl ⟨hmax, hfull, rfl, rfl⟩)
    · exact .inr (.inr ⟨s₁, .inr ⟨hmax, hfull, rfl⟩, h⟩)

/-- Every store the loop passes through relates to the first as each call's does. Each call
is made on an entry of the list, from a store that differs from the loop's first only in the
queues. -/
theorem distribute_induct {P : Store → Store → Prop} (refl : ∀ s, P s s)
    (trans : ∀ {a b c}, P a b → P b c → P a c) {push : Store → FifoId → Option (Store × Ret)}
    (hq : ∀ {s d s' r}, push s d = some (s', r) → s.QueuesOnly s') (s₀ : Store)
    (ds₀ : List FifoId)
    (hpush : ∀ {s d s' r}, s₀.QueuesOnly s → d ∈ ds₀ → push s d = some (s', r) → P s s') :
    ∀ {ds s err s' r}, ds ⊆ ds₀ → s₀.QueuesOnly s → distribute push s ds err = some (s', r) →
      P s s'
  | [], s, err, s', r, _, _, h => by cases h; exact refl s
  | d :: ds, s, err, s', r, hds, hs, h => by
    simp only [distribute] at h
    split at h
    · cases h
    · rename_i s₁ r₁ h₁
      have hd := hds (List.mem_cons_self d ds)
      split_ifs at h
      · cases h; exact hpush hs hd h₁
      all_goals exact trans (hpush hs hd h₁) (distribute_induct refl trans hq s₀ ds₀ hpush
        (fun _ hm => hds (List.mem_cons_of_mem d hm)) (hs.trans (hq h₁)) h)

theorem pushAux_queuesOnly : ∀ {n held s dst x s' r},
    pushAux n held s dst x = some (s', r) → s.QueuesOnly s'
  | 0, _, _, _, _, _, _, h => by cases h
  | n + 1, held, s, dst, x, s', r, h => by
    obtain ⟨-, ⟨-, -, rfl⟩ | ⟨-, -, he, -⟩ | ⟨s₁, hs₁, hd⟩⟩ := pushAux_eq_some h
    · exact .refl _
    · exact Store.pushEnqueue_queuesOnly_of_eq he
    · have hq₁ : s.QueuesOnly s₁ := by
        rcases hs₁ with ⟨-, rfl⟩ | ⟨-, -, he⟩
        · exact .refl _
        · exact Store.pushEnqueue_queuesOnly_of_eq he
      exact hq₁.trans (distribute_induct Store.QueuesOnly.refl Store.QueuesOnly.trans
        pushAux_queuesOnly s₁ _ (fun _ _ h => pushAux_queuesOnly h) (List.Subset.refl _)
        (.refl s₁) hd)

/-- A push never changes a FIFO whose lock its thread already holds: taking that lock again
is a call that does not return. -/
theorem pushAux_held : ∀ {n held s dst x s' r},
    pushAux n held s dst x = some (s', r) → ∀ F ∈ held, s'.fifos F = s.fifos F
  | 0, _, _, _, _, _, _, h => by cases h
  | n + 1, held, s, dst, x, s', r, h => by
    obtain ⟨hheld, ⟨-, -, rfl⟩ | ⟨-, -, he, -⟩ | ⟨s₁, hs₁, hd⟩⟩ := pushAux_eq_some h
    · exact fun _ _ => rfl
    · intro F hF
      obtain ⟨size, hf⟩ := s.pushEnqueue_fifos dst x
      simp [he] at hf
      simp [hf]
    · have hloop := distribute_induct (P := fun s s' => ∀ F ∈ dst :: held, s'.fifos F = s.fifos F)
        (fun _ _ _ => rfl) (fun h₁ h₂ F hF => (h₂ F hF).trans (h₁ F hF)) pushAux_queuesOnly s₁ _
        (fun _ _ h => pushAux_held h) (List.Subset.refl _) (.refl s₁) hd
      intro F hF
      rw [hloop F (List.mem_cons_of_mem dst hF)]
      rcases hs₁ with ⟨-, rfl⟩ | ⟨-, -, he⟩
      · rfl
      · obtain ⟨size, hf⟩ := s.pushEnqueue_fifos dst x
        simp only [he, if_true] at hf
        rw [hf, Function.update_noteq (fun e : F = dst => hheld (e ▸ hF))]

/-- What a push that returns leaves at its own FIFO: nothing changed when it was over its
limit, when the allocation failed or when `max_queued` is `0`, and one clone more
otherwise. The loop over `dests` never comes back to it. -/
theorem pushAux_self {n : Nat} {held : List FifoId} {s s' : Store} {dst : FifoId} {x : Item}
    {r : Ret} (h : pushAux (n + 1) held s dst x = some (s', r)) :
    (s.fifos dst).pushCheck x = .full ∧ r = .enobufs ∧ s' = s ∨
      (s.fifos dst).pushCheck x ≠ .full ∧
        ((r = .enomem ∨ (s.fifos dst).maxQueued = 0) ∧ s'.fifos dst = s.fifos dst ∨
          ∃ size, s'.fifos dst = (s.fifos dst).enqueue x size) := by
  obtain ⟨-, hfull | ⟨-, hfull, he, rfl⟩ | ⟨s₁, hs₁, hd⟩⟩ := pushAux_eq_some h
  · exact .inl hfull
  · obtain ⟨size, hf⟩ := s.pushEnqueue_fifos dst x
    simp only [he, Bool.false_eq_true, if_false] at hf
    exact .inr ⟨hfull, .inl ⟨.inl rfl, by rw [hf]⟩⟩
  · have hloop : s'.fifos dst = s₁.fifos dst :=
      distribute_induct (P := fun s s' => s'.fifos dst = s.fifos dst) (fun _ => rfl)
        (fun h₁ h₂ => h₂.trans h₁) pushAux_queuesOnly s₁ _
        (fun _ _ h => pushAux_held h dst (List.mem_cons_self dst held)) (List.Subset.refl _)
        (.refl s₁) hd
    rcases hs₁ with ⟨hmax, rfl⟩ | ⟨hmax, hfull, he⟩
    · refine .inr ⟨fun hf => ?_, .inl ⟨.inr hmax, hloop⟩⟩
      exact ((Fifo.pushCheck_eq_full _ _).mp hf).1 hmax
    · obtain ⟨size, hf⟩ := s.pushEnqueue_fifos dst x
      simp only [he, if_true] at hf
      exact .inr ⟨hfull, .inr ⟨size, by rw [hloop, hf, Function.update_same]⟩⟩

/-- A push that returns `0` got past its own FIFO, with nothing stored when `max_queued` is
`0` and one clone stored otherwise, and then pushed to every entry of `dests` without an
error. -/
theorem pushAux_ok_inv {n : Nat} {held : List FifoId} {s s' : Store} {dst : FifoId} {x : Item}
    (h : pushAux (n + 1) held s dst x = some (s', .ok)) :
    ∃ s₁, s.QueuesOnly s₁ ∧
      ((s.fifos dst).maxQueued = 0 ∧ s₁ = s ∨
        (s.fifos dst).maxQueued ≠ 0 ∧ s.pushEnqueue dst x = (true, s₁)) ∧
      distribute (fun s d => pushAux n (dst :: held) s d x) s₁ (s₁.fifos dst).dests .ok =
        some (s', .ok) := by
  obtain ⟨-, ⟨-, h, -⟩ | ⟨-, -, -, h⟩ | ⟨s₁, ⟨hmax, rfl⟩ | ⟨hmax, -, he⟩, hd⟩⟩ := pushAux_eq_some h
  · cases h
  · cases h
  · exact ⟨_, .refl _, .inl ⟨hmax, rfl⟩, hd⟩
  · exact ⟨s₁, Store.pushEnqueue_queuesOnly_of_eq he, .inr ⟨hmax, he⟩, hd⟩

/-- A loop that returns `0` started with no error recorded and got `0` from every call. -/
theorem distribute_ok {P : Store → Store → Prop} (refl : ∀ s, P s s)
    (trans : ∀ {a b c}, P a b → P b c → P a c) {push : Store → FifoId → Option (Store × Ret)}
    (hpush : ∀ {s d s' r}, push s d = some (s', r) → P s s') :
    ∀ {ds s err s'}, distribute push s ds err = some (s', .ok) →
      err = .ok ∧ ∀ d ∈ ds, ∃ s₁ s₂, P s s₁ ∧ push s₁ d = some (s₂, .ok)
  | [], s, err, s', h => by cases h; exact ⟨rfl, by simp⟩
  | d :: ds, s, err, s', h => by
    simp only [distribute] at h
    split at h
    · cases h
    · rename_i s₁ r₁ h₁
      split_ifs at h with hr hcond
      · cases h
      · exact absurd (distribute_ok refl trans hpush h).1 hcond.1
      · obtain ⟨herr, hall⟩ := distribute_ok refl trans hpush h
        have hr₁ : r₁ = .ok := by by_contra hne; exact hcond ⟨hne, herr⟩
        subst hr₁
        refine ⟨herr, fun d' hd' => ?_⟩
        rcases List.mem_cons.mp hd' with rfl | hd'
        · exact ⟨s, s₁, refl s, h₁⟩
        · obtain ⟨s₂, s₃, hP, hp⟩ := hall d' hd'
          exact ⟨s₂, s₃, trans (hpush h₁) hP, hp⟩

-- ---------------------------------------------------------------------------
-- Fan-out
-- ---------------------------------------------------------------------------

/-- Every queue that buffers (`max_queued != 0`) went from `q` to `q` followed by `c F`
copies of `x`; every other queue is as it was. -/
def FanOut (x : Item) (c : FifoId → Nat) (s s' : Store) : Prop :=
  ∀ F, (s'.fifos F).view =
    if (s.fifos F).maxQueued = 0 then (s.fifos F).view
    else (s.fifos F).view ++ List.replicate (c F) x

/-- No queue has a negative length. -/
def Store.NumNonneg (s : Store) : Prop := ∀ F, 0 ≤ (s.fifos F).numQueued

theorem Store.QueuesOnly.numNonneg {s s' : Store} (h : s.QueuesOnly s') (hs : s.NumNonneg) :
    s'.NumNonneg := fun F => (hs F).trans (h.numQueued_le F)

namespace FanOut

theorem refl (x : Item) (s : Store) : FanOut x (fun _ => 0) s s := by
  intro F; split_ifs <;> simp

theorem trans {x : Item} {c₁ c₂ : FifoId → Nat} {a b c : Store} (h₁ : FanOut x c₁ a b)
    (h₂ : FanOut x c₂ b c) (hq : a.QueuesOnly b) : FanOut x (fun F => c₁ F + c₂ F) a c := by
  intro F
  rw [h₂ F, h₁ F, hq.maxQueued F]
  split_ifs <;> simp only [List.append_assoc, List.replicate_add]

theorem congr {x : Item} {c c' : FifoId → Nat} {s s' : Store} (h : FanOut x c s s')
    (hc : ∀ F, (s.fifos F).maxQueued ≠ 0 → c F = c' F) : FanOut x c' s s' := by
  intro F
  rw [h F]
  split_ifs with hF
  · rfl
  · rw [hc F hF]

end FanOut

theorem pathCount_congr {s s' : Store} (h : ∀ F, (s'.fifos F).dests = (s.fifos F).dests) :
    ∀ n, pathCount n s' = pathCount n s
  | 0 => rfl
  | n + 1 => by funext S F; simp only [pathCount, h S, pathCount_congr h n]

/-- A push that returns `0` at fuel `n` met no `dests`-path of `n` edges from `dst`: counting
longer paths adds nothing. -/
theorem pushAux_pathCount_add : ∀ {n held s dst x s'},
    pushAux n held s dst x = some (s', .ok) → ∀ k, pathCount (n + k) s dst = pathCount n s dst
  | 0, _, _, _, _, _, h => by cases h
  | n + 1, held, s, dst, x, s', h => by
    obtain ⟨s₁, hq₁, -, hd⟩ := pushAux_ok_inv h
    obtain ⟨-, hall⟩ := distribute_ok Store.QueuesOnly.refl Store.QueuesOnly.trans
      pushAux_queuesOnly hd
    intro k
    funext F
    rw [Nat.add_right_comm]
    simp only [pathCount]
    congr 2
    refine List.map_congr_left fun d hd' => ?_
    obtain ⟨s₂, _, hq₂, hp⟩ := hall d (by rwa [hq₁.dests])
    have := pushAux_pathCount_add hp k
    rw [pathCount_congr (hq₁.trans hq₂).dests, pathCount_congr (hq₁.trans hq₂).dests] at this
    exact congrFun this F

/-- A successful enqueue at `dst` is the fan-out of one copy at `dst`. -/
theorem Store.pushEnqueue_fanOut {s s₁ : Store} {dst : FifoId} {x : Item} (hnn : s.NumNonneg)
    (hmax : (s.fifos dst).maxQueued ≠ 0) (h : s.pushEnqueue dst x = (true, s₁)) :
    FanOut x (fun F => if dst = F then 1 else 0) s s₁ := by
  obtain ⟨size, hf⟩ := s.pushEnqueue_fifos dst x
  rw [h] at hf
  intro F
  rw [if_pos rfl] at hf
  dsimp only at hf
  by_cases hF : F = dst
  · subst hF; simp [hf, hmax, Fifo.view_enqueue (hnn _)]
  · simp [hf, Function.update_noteq hF, Ne.symm hF]

/-- The loop appends, everywhere, the sum over the entries of what each call appends. -/
theorem distribute_fanOut {push : Store → FifoId → Option (Store × Ret)} {x : Item}
    (c : FifoId → FifoId → Nat) (s₀ : Store)
    (hq : ∀ {s d s' r}, push s d = some (s', r) → s.QueuesOnly s')
    (hc : ∀ {s d s'}, s₀.QueuesOnly s → push s d = some (s', .ok) → FanOut x (c d) s s')
    (ds : List FifoId) {s s' : Store} {err : Ret} (hs : s₀.QueuesOnly s)
    (h : distribute push s ds err = some (s', .ok)) :
    err = .ok ∧ FanOut x (fun F => (ds.map (c · F)).sum) s s' := by
  induction ds generalizing s err with
  | nil => cases h; exact ⟨rfl, by simpa using FanOut.refl x _⟩
  | cons d ds ih =>
    simp only [distribute] at h
    split at h
    · cases h
    · rename_i s₁ r₁ h₁
      have hq₁ := hq h₁
      split_ifs at h with hr hcond
      · cases h
      · exact absurd (ih (hs.trans hq₁) h).1 hcond.1
      · obtain ⟨herr, hfan⟩ := ih (hs.trans hq₁) h
        have hr₁ : r₁ = .ok := by by_contra hne; exact hcond ⟨hne, herr⟩
        subst hr₁
        refine ⟨herr, ?_⟩
        simpa using (hc hs h₁).trans hfan hq₁

/-- The fan-out law of `fifo_push`, at any fuel: a call that returns `0` appended one clone
of `x` per `dests`-path from `dst` at every FIFO that buffers. -/
theorem pushAux_fanOut : ∀ {n held s dst x s'}, s.NumNonneg →
    pushAux n held s dst x = some (s', .ok) → FanOut x (pathCount n s dst) s s'
  | 0, _, _, _, _, _, _, h => by cases h
  | n + 1, held, s, dst, x, s', hnn, h => by
    obtain ⟨s₁, hq₁, hcase, hd⟩ := pushAux_ok_inv h
    have hdist : FanOut x (fun F => ((s.fifos dst).dests.map (pathCount n s · F)).sum) s₁ s' := by
      have := (distribute_fanOut (fun d => pathCount n s d) s pushAux_queuesOnly
        (fun hs₂ h₂ => by
          rw [← pathCount_congr hs₂.dests]
          exact pushAux_fanOut (hs₂.numNonneg hnn) h₂) _ hq₁ hd).2
      rwa [hq₁.dests] at this
    rcases hcase with ⟨hmax, rfl⟩ | ⟨hmax, he⟩
    · refine hdist.congr fun F hF => ?_
      simp [pathCount, show dst ≠ F by rintro rfl; exact hF hmax]
    · simpa [pathCount] using (s.pushEnqueue_fanOut hnn hmax he).trans hdist hq₁

end Txproto
