-- SUMMARY: fifo_push and the peek of fifo_pull_flags with a CLONE_FN that may fail: the unchecked NULL it returns becomes a queued end-of-stream marker or a peeked NULL with return value 0.
import Txproto.Fifo.Walk

/-!
# A `CLONE_FN` that may fail

The model of the calls takes `CLONE_FN` to succeed. For frames it is
`x ? av_frame_clone(x) : NULL`, and `av_frame_clone` allocates a frame, so it returns `NULL`
when that allocation fails. Here `Store.cloneFn` reads that allocation from the oracle, and
`pushAuxWith` is `fifo_push` with its enqueue as a parameter (`pushAuxWith_pushEnqueue`: with
the enqueue of the model it is `pushAux`).

`fifo_push` stores what `CLONE_FN` returns without a check, and the peek of
`fifo_pull_flags_template` hands it to the caller: a failed clone of an item is stored as a
`NULL` entry and the push returns `0`, and a peek returns `0` with a `NULL` item
(`pushEnqueueCloning_spec`, `cloneFn_failure_as_null`).
-/

namespace Txproto

namespace Store

/-- `CLONE_FN(x)` of the frame FIFO, `x ? av_frame_clone(x) : NULL`: for an item, one
allocation attempt; on failure, `NULL`. -/
def cloneFn (s : Store) : Item → Item × Store
  | none => (none, s)
  | some i => if s.tryAlloc.1 then (some i, s.tryAlloc.2.clone (some i)) else (none, s.tryAlloc.2)

@[simp] theorem cloneFn_fifos (s : Store) (x : Item) : (s.cloneFn x).2.fifos = s.fifos := by
  cases x with
  | none => rfl
  | some i => simp only [cloneFn]; split_ifs <;> simp

/-- `CLONE_FN` returns `NULL` for an item exactly when its allocation fails. -/
theorem cloneFn_fst (s : Store) (x : Item) :
    (s.cloneFn x).1 = if x.isSome ∧ s.allocOk s.allocs = false then none else x := by
  cases x <;> simp only [cloneFn] <;> split_ifs <;> simp_all [tryAlloc]

/-- Lines 357-367 of `fifo_push`, `ctx->queued[ctx->num_queued++] = CLONE_FN(in)`, with a
`CLONE_FN` that may fail: what it returns is stored unchecked. -/
def pushEnqueueCloning (s : Store) (dst : FifoId) (x : Item) : Bool × Store :=
  let r := s.fastRealloc (s.fifos dst).queuedAllocSize (s.fifos dst).minSize
  match r.1 with
  | none => (false, r.2)
  | some size =>
    let c := r.2.cloneFn x
    (true, c.2.modify dst fun f => f.enqueue c.1 size)

/-- Once the array has grown, the enqueue reports success and stores `CLONE_FN(in)`: the
item, or `NULL` when its clone failed. -/
theorem pushEnqueueCloning_spec {s : Store} {dst : FifoId} {x : Item} {size : Nat} {s₁ : Store}
    (hr : s.fastRealloc (s.fifos dst).queuedAllocSize (s.fifos dst).minSize = (some size, s₁)) :
    (s.pushEnqueueCloning dst x).1 = true ∧
    ((s.pushEnqueueCloning dst x).2.fifos dst).queued (s.fifos dst).numQueued.toNat =
      if x.isSome ∧ s₁.allocOk s₁.allocs = false then none else x := by
  have hf : s₁.fifos = s.fifos := by rw [← fastRealloc_fifos s _ _, hr]
  simp only [pushEnqueueCloning, hr, modify_fifos, if_true, cloneFn_fifos, hf, Fifo.enqueue,
    Function.update_same, cloneFn_fst, true_and]

end Store

/-- `RENAME(fifo_push)(dst, in)` as `pushAux` has it, with the enqueue of lines 357-367 as a
parameter. -/
def pushAuxWith (enqueue : Store → FifoId → Item → Bool × Store) :
    Nat → List FifoId → Store → FifoId → Item → Option (Store × Ret)
  | 0, _, _, _, _ => none
  | n + 1, held, s, dst, x =>
    if dst ∈ held then none
    else
      let next := fun s₁ : Store =>
        distribute (fun s d => pushAuxWith enqueue n (dst :: held) s d x) s₁
          (s₁.fifos dst).dests .ok
      match (s.fifos dst).pushCheck x with
      | .skip => next s
      | .full => some (s, .enobufs)
      | .wait | .enqueue =>
        match enqueue s dst x with
        | (false, s₁) => some (s₁, .enomem)
        | (true, s₁) => next s₁

/-- With the enqueue of the model, it is `pushAux`. -/
theorem pushAuxWith_pushEnqueue :
    ∀ n held s dst x, pushAuxWith Store.pushEnqueue n held s dst x = pushAux n held s dst x
  | 0, _, _, _, _ => rfl
  | n + 1, held, s, dst, x => by
    rw [pushAuxWith]
    simp only [pushAuxWith_pushEnqueue n]
    rfl

/-- `RENAME(fifo_push)(dst, in)` with a `CLONE_FN` that may fail. -/
def Store.fifoPushCloning (s : Store) (dst : FifoId) (x : Item) : Option (Store × Ret) :=
  pushAuxWith Store.pushEnqueueCloning (s.next + 1) [] s dst x

namespace Store

/-- Lines 445-456 with a `CLONE_FN` that may fail: the peek returns its result unchecked. -/
def pullTakeCloning (s : Store) (src : FifoId) (pop : Bool) : Store × Item :=
  let head := (s.fifos src).queued 0
  if pop then (s.modify src Fifo.popHead, head) else ((s.cloneFn head).2, (s.cloneFn head).1)

/-- `fifo_pull_flags_template(src, &out, flags, pop)` as `fifoPullFlags` has it, with a
`CLONE_FN` that may fail. -/
def fifoPullFlagsCloning (s : Store) (src : FifoId) (flags : Flags) (pop : Bool) :
    Option (Store × Ret × Item) :=
  let r := (s.fifos src).pullLoop flags
  let s₁ := s.modify src fun _ => r.1
  match r.2 with
  | .take =>
    if pop ∧ (s₁.fifos src).numQueued - 1 < 0 then none
    else some ((s₁.pullTakeCloning src pop).1, .ok, (s₁.pullTakeCloning src pop).2)
  | .again => some (s₁, .eagain, none)
  | .wait => none

/-- A FIFO created unbounded, with no links, by a reachable run: a push of item `7` whose
clone fails stores a `NULL` entry and returns `0`; a peek of a head whose clone fails
returns `0` with a `NULL` item. The allocation oracle fails only at the clone. -/
theorem cloneFn_failure_as_null :
    ∃ s t : Store, s.Reachable ∧ t.Reachable ∧
      (s.fifos 0).view = [] ∧ (s.fifos 0).dests = [] ∧ s.allocOk (s.allocs + 1) = false ∧
      (s.fifoPushCloning 0 (some 7)).map (fun p => ((p.1.fifos 0).view, p.2)) =
        some ([none], .ok) ∧
      (t.fifos 0).view = [] ∧ (t.fifos 0).dests = [] ∧ t.allocOk (t.allocs + 2) = false ∧
      ((t.fifoPushCloning 0 (some 7)).bind fun p =>
        (p.1.fifoPullFlagsCloning 0 Flags.none false).map fun q =>
          ((q.1.fifos 0).view, q.2.1, q.2.2)) = some ([some 7], .ok, none) := by
  refine ⟨_, _, (Reachable.init fun n => n != 5).create (-1) Flags.none,
    (Reachable.init fun n => n != 6).create (-1) Flags.none,
    by decide, by decide, by decide, by decide, by decide, by decide, by decide, ?_⟩
  simp only [fifoPullFlagsCloning, Fifo.pullLoop_eq]
  decide

end Store

end Txproto
