-- SUMMARY: Data model of the FIFO template: return codes, block flags, items, buffer lists, the FIFO record and the store of FIFOs.
import Mathlib.Data.List.Count
import Mathlib.Logic.Function.Basic
import Mathlib.Algebra.Group.Int
import Mathlib.Algebra.Order.Ring.Nat

/-!
# The FIFO record and the store

`fifo_template.c` is compiled twice, once over `AVPacket` (`fifo_packet.c`) and once over
`AVFrame` (`fifo_frame.c`); the two copies differ only in `TYPE`, `CLONE_FN` and `FREE_FN`.
We model the template once, over items that are handles on reference-counted buffers of the
media library: `CLONE_FN(x)` is `NULL` on `NULL` and otherwise takes one more reference on
the same buffer, `FREE_FN` drops one.

A FIFO is the struct `SNAME` without its mutex and its two condition variables: the
sequential model runs each call alone, and the concurrent model in `Txproto/Threads`
keeps the lock owners and the waiting threads beside the store. FIFOs live in a store
indexed by `FifoId`; a list entry of `dests` or `sources` is the FIFO it points to, which is
what `find_ref_by_data` compares.

Allocation is an oracle: the store carries the outcome of every allocation the program
will attempt, in order, so that every function stays a function while allocation failure
remains possible at every point where the code allocates.
-/

namespace Txproto

/-- The values the template returns: `0` and the three `AVERROR` codes it produces. -/
inductive Ret where
  | ok
  | einval
  | enobufs
  | enomem
  | eagain
  deriving DecidableEq, Repr

/-- `SPPacketFIFOFlags`: the template only tests each bit with `&` and sets it with `|=`. -/
structure Flags where
  blockNoInput : Bool
  blockMaxOutput : Bool
  pullNoBlock : Bool
  pullPoke : Bool
  deriving DecidableEq, Repr

/-- The flags `0x0` that `fifo_pop` and `fifo_peek` pass. -/
def Flags.none : Flags := ⟨false, false, false, false⟩

abbrev FifoId := Nat
abbrev ItemId := Nat

/-- A `TYPE *` slot of the queue: `none` is `NULL`, `some i` a handle on buffer `i`. -/
abbrev Item := Option ItemId

-- ---------------------------------------------------------------------------
-- `int` arithmetic
-- ---------------------------------------------------------------------------

/-- `INT_MAX`: what `fifo_get_max_size` reports for an unbounded FIFO or a `NULL` handle. -/
def intMax : Int := 2 ^ 31 - 1

/-- `INT_MIN`. -/
def intMin : Int := -2 ^ 31

/-- `a + b` on `int` as the compiled code computes it: two's complement, wrapping around. -/
def intAddWrap (a b : Int) : Int := (a + b - intMin) % 2 ^ 32 + intMin

/-- Below `INT_MAX`, `max_queued + 1` does not wrap. -/
theorem intAddWrap_one_of_lt {a : Int} (hmin : intMin ≤ a) (hmax : a < intMax) :
    intAddWrap a 1 = a + 1 := by
  simp only [intAddWrap, intMin, intMax] at hmin hmax ⊢
  omega

/-- From `INT_MIN - 1` up, the wrapped sum is at most the sum. -/
theorem intAddWrap_one_le {a : Int} (hmin : intMin ≤ a + 1) : intAddWrap a 1 ≤ a + 1 := by
  simp only [intAddWrap, intMin] at hmin ⊢
  omega

-- ---------------------------------------------------------------------------
-- Buffer lists
-- ---------------------------------------------------------------------------

/-- `SPBufferList`, modelled from the spec: `sp_bufferlist_*` is not in the sources. The
entries, in the order they were appended (§4.1 of the spec: `append`, `pop` by predicate). -/
abbrev BufferList := List FifoId

/-- `sp_bufferlist_append(list, ref)`, modelled from the spec: adds one entry at the end. -/
def BufferList.append (l : BufferList) (x : FifoId) : BufferList := l ++ [x]

/-- `sp_bufferlist_pop(list, find_ref_by_data, x)`, modelled from the spec: removes and returns
the first entry pointing at `x`, or `NULL` when there is none. -/
def BufferList.popData (l : BufferList) (x : FifoId) : Option FifoId × BufferList :=
  if x ∈ l then (some x, l.erase x) else (none, l)

/-- `sp_bufferlist_pop(list, sp_bufferlist_find_fn_first, NULL)`, modelled from the spec:
removes and returns the first entry. -/
def BufferList.popFirst (l : BufferList) : Option FifoId × BufferList := (l.head?, l.tail)

@[simp] theorem BufferList.count_append (l : BufferList) (x y : FifoId) :
    (l.append x).count y = l.count y + if x = y then 1 else 0 := by
  simp [BufferList.append, List.count_singleton']

@[simp] theorem BufferList.popData_snd (l : BufferList) (x : FifoId) :
    (l.popData x).2 = l.erase x := by
  unfold BufferList.popData
  split_ifs with h
  · rfl
  · exact (List.erase_of_not_mem h).symm

theorem BufferList.popData_fst (l : BufferList) (x : FifoId) :
    (l.popData x).1 = if x ∈ l then some x else none := by
  unfold BufferList.popData; split_ifs <;> rfl

-- ---------------------------------------------------------------------------
-- The FIFO struct
-- ---------------------------------------------------------------------------

/-- The struct `SNAME`. `queued` is the whole backing array, stale slots included;
`queuedAllocSize` is its size in bytes as `av_fast_realloc` keeps it. -/
structure Fifo where
  queued : Nat → Item
  numQueued : Int
  maxQueued : Int
  blockFlags : Flags
  queuedAllocSize : Nat
  poked : Bool
  dests : BufferList
  sources : BufferList

/-- The struct as `av_mallocz` returns it: every field zero. -/
def Fifo.zero : Fifo :=
  ⟨fun _ => none, 0, 0, ⟨false, false, false, false⟩, 0, false, [], []⟩

/-- The queue the array holds: slots `0 .. num_queued - 1`, head first. -/
def Fifo.view (f : Fifo) : List Item := (List.range f.numQueued.toNat).map f.queued

theorem Fifo.length_view (f : Fifo) : f.view.length = f.numQueued.toNat := by
  simp [Fifo.view]

-- ---------------------------------------------------------------------------
-- The store
-- ---------------------------------------------------------------------------

/-- Every FIFO the program has created (`next` is the handle `fifo_create` hands out next,
`live` tells the ones not yet destroyed), the reference counts of the media buffers, and
the allocation oracle: `allocOk n` is the outcome of the `n`-th allocation, `allocs` how
many have been attempted. -/
structure Store where
  fifos : FifoId → Fifo
  next : FifoId
  live : FifoId → Bool
  refs : ItemId → Nat
  allocOk : Nat → Bool
  allocs : Nat

namespace Store

/-- Replace FIFO `f` by `g` of its current value. -/
def modify (s : Store) (f : FifoId) (g : Fifo → Fifo) : Store :=
  { s with fifos := Function.update s.fifos f (g (s.fifos f)) }

@[simp] theorem modify_fifos (s : Store) (f : FifoId) (g : Fifo → Fifo) (h : FifoId) :
    (s.modify f g).fifos h = if h = f then g (s.fifos f) else s.fifos h := by
  simp [modify, Function.update_apply]

theorem modify_eq_self {s : Store} {f : FifoId} {g : Fifo → Fifo} (h : g (s.fifos f) = s.fifos f) :
    s.modify f g = s := by
  simp [modify, h]

@[simp] theorem modify_next (s : Store) (f : FifoId) (g : Fifo → Fifo) :
    (s.modify f g).next = s.next := rfl
@[simp] theorem modify_live (s : Store) (f : FifoId) (g : Fifo → Fifo) :
    (s.modify f g).live = s.live := rfl
@[simp] theorem modify_refs (s : Store) (f : FifoId) (g : Fifo → Fifo) :
    (s.modify f g).refs = s.refs := rfl
@[simp] theorem modify_allocOk (s : Store) (f : FifoId) (g : Fifo → Fifo) :
    (s.modify f g).allocOk = s.allocOk := rfl
@[simp] theorem modify_allocs (s : Store) (f : FifoId) (g : Fifo → Fifo) :
    (s.modify f g).allocs = s.allocs := rfl

/-- One allocation attempt: its outcome, read from the oracle. -/
def tryAlloc (s : Store) : Bool × Store :=
  (s.allocOk s.allocs, { s with allocs := s.allocs + 1 })

@[simp] theorem tryAlloc_fifos (s : Store) : s.tryAlloc.2.fifos = s.fifos := rfl
@[simp] theorem tryAlloc_next (s : Store) : s.tryAlloc.2.next = s.next := rfl
@[simp] theorem tryAlloc_live (s : Store) : s.tryAlloc.2.live = s.live := rfl
@[simp] theorem tryAlloc_refs (s : Store) : s.tryAlloc.2.refs = s.refs := rfl

/-- `CLONE_FN(x)`: `NULL` for `NULL`, otherwise one more reference on the same buffer. -/
def clone (s : Store) (x : Item) : Store :=
  match x with
  | none => s
  | some i => { s with refs := Function.update s.refs i (s.refs i + 1) }

/-- `FREE_FN(&x)`: drops the reference `x` holds, if any. -/
def free (s : Store) (x : Item) : Store :=
  match x with
  | none => s
  | some i => { s with refs := Function.update s.refs i (s.refs i - 1) }

@[simp] theorem clone_fifos (s : Store) (x : Item) : (s.clone x).fifos = s.fifos := by
  cases x <;> rfl
@[simp] theorem clone_next (s : Store) (x : Item) : (s.clone x).next = s.next := by
  cases x <;> rfl
@[simp] theorem clone_live (s : Store) (x : Item) : (s.clone x).live = s.live := by
  cases x <;> rfl
@[simp] theorem free_fifos (s : Store) (x : Item) : (s.free x).fifos = s.fifos := by
  cases x <;> rfl
@[simp] theorem free_next (s : Store) (x : Item) : (s.free x).next = s.next := by
  cases x <;> rfl
@[simp] theorem free_live (s : Store) (x : Item) : (s.free x).live = s.live := by
  cases x <;> rfl

@[simp] theorem clone_refs (s : Store) (x : Item) (i : ItemId) :
    (s.clone x).refs i = s.refs i + if x = some i then 1 else 0 := by
  cases x with
  | none => simp [clone]
  | some j => by_cases h : i = j <;> simp [clone, Function.update_apply, h, eq_comm]

@[simp] theorem free_refs (s : Store) (x : Item) (i : ItemId) :
    (s.free x).refs i = s.refs i - if x = some i then 1 else 0 := by
  cases x with
  | none => simp [free]
  | some j => by_cases h : i = j <;> simp [free, Function.update_apply, h, eq_comm]

end Store

end Txproto
