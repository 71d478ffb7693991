-- SUMMARY: One FIFO as its callers see it: the calls on it with what they return, the list queue they implement, and the capacity bound of a bounded FIFO.
import Txproto.Fifo.System

/-!
# One FIFO and its queue

A thread holding a handle `F` makes calls on it one at a time and sees what each returns.
`Store.CallRun` logs such a run. What the callers are promised is a queue of items
(`Queue`): a push that returns `0` at a FIFO that buffers appends its item, a pop that
returns `0` takes the head, a peek that returns `0` hands out the head and keeps it, and a
call that fails changes nothing. The array prefix `queued[0 .. num_queued)` with its
`memmove` on every pop refines that queue (`callRun_refines_queue`), as long as the FIFO
has no destinations.

A bounded FIFO without `BLOCK_MAX_OUTPUT` compares the length before the enqueue with
`max_queued + 1`, so it holds up to `max_queued + 2` items (`callRun_capacity`).
-/

namespace Txproto

/-- The calls a thread makes on a FIFO it has a handle to. `pull` is
`fifo_pull_flags_template`, under `fifo_pop` and `fifo_pop_flags` when `pop` is set and
under `fifo_peek` and `fifo_peek_flags` otherwise. -/
inductive Call where
  | push (x : Item)
  | pull (flags : Flags) (pop : Bool)
  | poke
  | setMaxQueued (maxQueued : Int)
  | setBlockFlags (flags : Flags)

/-- The call as an operation of the program. -/
def Call.toOp (F : FifoId) : Call → Op
  | .push x => .push F x
  | .pull flags pop => .pull F flags pop
  | .poke => .poke F
  | .setMaxQueued n => .setMaxQueued F n
  | .setBlockFlags flags => .setBlockFlags F flags

namespace Store

/-- One call on `F`: the store after it, what it returns and the item it hands back. The
two setters return `void`, read here as `0`. -/
def call (s : Store) (F : FifoId) : Call → Option (Store × Ret × Item)
  | .push x => (s.fifoPush F x).map fun p => (p.1, p.2, none)
  | .pull flags pop => s.fifoPullFlags F flags pop
  | .poke => some (s.fifoPoke F, .ok, none)
  | .setMaxQueued n => some (s.fifoSetMaxQueued F n, .ok, none)
  | .setBlockFlags flags => some (s.fifoSetBlockFlags F flags, .ok, none)

theorem call_map_fst (s : Store) (F : FifoId) (c : Call) :
    (s.call F c).map (·.1) = s.exec (c.toOp F) := by
  cases c <;> simp [call, exec, Call.toOp, Option.map_map, Function.comp_def]

/-- A run of calls on `F`, each logged with what it returned and handed back. -/
inductive CallRun (F : FifoId) : Store → List (Call × Ret × Item) → Store → Prop
  | nil (s : Store) : CallRun F s [] s
  | cons {s s₁ s' : Store} {c : Call} {r : Ret} {out : Item} {log : List (Call × Ret × Item)} :
      s.call F c = some (s₁, r, out) → CallRun F s₁ log s' → CallRun F s ((c, r, out) :: log) s'

/-- No call on a FIFO creates or destroys one. -/
theorem call_live {s s' : Store} {F : FifoId} {c : Call} {r : Ret} {out : Item}
    (h : s.call F c = some (s', r, out)) : s'.live = s.live := by
  cases c with
  | push x =>
    obtain ⟨⟨_, _⟩, hp, h⟩ := Option.map_eq_some'.mp h
    cases h; exact (pushAux_queuesOnly hp).live
  | pull flags pop =>
    rcases fifoPullFlags_eq_some h with ⟨-, -, -, rfl⟩ | ⟨-, -, rfl⟩ <;> simp
  | _ => cases h; simp [fifoPoke, fifoSetMaxQueued, fifoSetBlockFlags]

/-- A run of calls on a live FIFO is a run of the program. -/
theorem CallRun.reachable {F : FifoId} {s s' : Store} {log : List (Call × Ret × Item)}
    (hrun : s.CallRun F log s') (hs : s.Reachable) (hF : s.live F) : s'.Reachable := by
  induction hrun with
  | nil => exact hs
  | @cons s s₁ s' c r out log hc _ ih =>
    have he : s.exec (c.toOp F) = some s₁ := by rw [← call_map_fst, hc]; rfl
    refine ih (.step _ hs ⟨?_, ?_⟩ he) (by rwa [call_live hc])
    · cases c <;> simpa [Call.toOp, Op.handles] using hF
    · cases c <;> simp [Call.toOp]

end Store

-- ---------------------------------------------------------------------------
-- The queue the callers are promised
-- ---------------------------------------------------------------------------

/-- A FIFO as its callers are promised it: the queued items, and the `max_queued` that says
whether pushes are stored. `ins` and `outs` record every item appended and every item
popped so far. -/
structure Queue where
  items : List Item
  maxQueued : Int
  ins : List Item
  outs : List Item

namespace Queue

/-- What a call does to the queue, given what it returned, and the item it hands back. -/
def step (q : Queue) : Call → Ret → Queue × Item
  | .push x, .ok =>
    (if q.maxQueued = 0 then q else { q with items := q.items ++ [x], ins := q.ins ++ [x] }, none)
  | .pull _ pop, .ok =>
    match q.items with
    | [] => (q, none)
    | h :: t => (if pop then { q with items := t, outs := q.outs ++ [h] } else q, h)
  | .setMaxQueued n, _ => ({ q with maxQueued := n }, none)
  | _, _ => (q, none)

/-- A run of calls, each with what it returned: the queue at the end and the items handed
back. -/
def run : Queue → List (Call × Ret) → Queue × List Item
  | q, [] => (q, [])
  | q, (c, r) :: log => ((q.step c r).1.run log |>.1, (q.step c r).2 :: ((q.step c r).1.run log).2)

/-- Nothing is lost, duplicated or reordered since `q₀`: the items queued then followed by
those appended since are the items popped since followed by those queued now. -/
def Conserves (q₀ q : Queue) : Prop := q₀.items ++ q.ins = q.outs ++ q.items

theorem Conserves.step {q₀ q : Queue} (h : Conserves q₀ q) (c : Call) (r : Ret) :
    Conserves q₀ (q.step c r).1 := by
  unfold Conserves at *
  rcases c with x | ⟨_, pop⟩ | _ | _ | _ <;> rcases r <;> simp only [Queue.step] <;> try exact h
  · -- a push that returns `0`
    split_ifs
    · exact h
    · simp [← List.append_assoc, h]
  · -- a pull that returns `0`
    rcases hq : q.items with _ | ⟨hd, tl⟩ <;> simp only [hq] at h ⊢
    · exact h
    · split_ifs
      · simpa using h
      · simpa [hq] using h

theorem Conserves.run {q₀ q : Queue} (h : Conserves q₀ q) :
    ∀ log : List (Call × Ret), Conserves q₀ (q.run log).1
  | [] => h
  | (c, r) :: log => (h.step c r).run log

end Queue

-- ---------------------------------------------------------------------------
-- The array refines the queue
-- ---------------------------------------------------------------------------

/-- The array prefix `queued[0 .. num_queued)` is the queue's list and `num_queued` its
length; the FIFO has the queue's `max_queued` and no destinations. -/
structure Refines (f : Fifo) (q : Queue) : Prop where
  view : f.view = q.items
  numQueued : f.numQueued = q.items.length
  maxQueued : f.maxQueued = q.maxQueued
  dests : f.dests = []

/-- A FIFO whose queue, capacity and destinations are those of `f` refines what `f` does. -/
theorem Refines.of_eq {f f' : Fifo} {q : Queue} (h : Refines f q) (hq : f'.queued = f.queued)
    (hn : f'.numQueued = f.numQueued) (hm : f'.maxQueued = f.maxQueued)
    (hd : f'.dests = f.dests) : Refines f' q :=
  ⟨by rw [← h.view]; simp only [Fifo.view, hq, hn], hn.trans h.numQueued, hm.trans h.maxQueued,
    hd.trans h.dests⟩

namespace Store

variable {s s' : Store} {F : FifoId} {q : Queue}

theorem fifoPush_refines {x : Item} {r : Ret} (hq : Refines (s.fifos F) q)
    (h : s.fifoPush F x = some (s', r)) : Refines (s'.fifos F) (q.step (.push x) r).1 := by
  obtain ⟨-, ⟨-, rfl, rfl⟩ | ⟨-, -, he, rfl⟩ | ⟨s₁, hs₁, hd⟩⟩ := pushAux_eq_some h
  · exact hq
  · obtain ⟨size, hf⟩ := s.pushEnqueue_fifos F x
    simp only [he, Bool.false_eq_true, if_false] at hf
    simpa [hf] using hq
  · have hq₁ : s.QueuesOnly s₁ := by
      rcases hs₁ with ⟨-, rfl⟩ | ⟨-, -, he⟩
      · exact .refl _
      · exact Store.pushEnqueue_queuesOnly_of_eq he
    rw [hq₁.dests, hq.dests] at hd
    cases hd
    rcases hs₁ with ⟨hmax, rfl⟩ | ⟨hmax, -, he⟩
    · simpa [Queue.step, ← hq.maxQueued, hmax] using hq
    · obtain ⟨size, hf⟩ := s.pushEnqueue_fifos F x
      simp only [he, if_true] at hf
      have hnn : 0 ≤ (s.fifos F).numQueued := by rw [hq.numQueued]; omega
      simp only [Queue.step, ← hq.maxQueued, hmax, if_false, hf, Function.update_same]
      exact ⟨by rw [Fifo.view_enqueue hnn, hq.view], by simp [Fifo.enqueue, hq.numQueued], rfl,
        hq.dests⟩

theorem fifoPullFlags_refines {flags : Flags} {pop : Bool} {r : Ret} {out : Item}
    (hq : Refines (s.fifos F) q) (h : s.fifoPullFlags F flags pop = some (s', r, out)) :
    Refines (s'.fifos F) (q.step (.pull flags pop) r).1 ∧ out = (q.step (.pull flags pop) r).2 := by
  rcases fifoPullFlags_fifo h with ⟨rfl, hne, rfl, hf⟩ | ⟨rfl, rfl, hf⟩
  · obtain ⟨hd, tl, hl⟩ : ∃ hd tl, q.items = hd :: tl := by
      cases hl : q.items with
      | nil => simp [hq.numQueued, hl] at hne
      | cons hd tl => exact ⟨hd, tl, rfl⟩
    have hpos : 0 < (s.fifos F).numQueued := by rw [hq.numQueued, hl]; simp
    have hhead : (s.fifos F).queued 0 = hd :=
      (by simpa [hq.view, hl] using Fifo.head_view hpos : hd = _).symm
    simp only [Queue.step, hl, hhead, and_true]
    split_ifs at hf ⊢ with hpop
    · rw [hf]
      exact ⟨by rw [Fifo.view_popHead hpos, hq.view, hl]; rfl,
        by simp [Fifo.popHead, hq.numQueued, hl], hq.maxQueued, hq.dests⟩
    · exact hf ▸ hq
  · exact ⟨hq.of_eq (by rw [hf]) (by rw [hf]) (by rw [hf]) (by rw [hf]), rfl⟩

/-- One call keeps the array and the queue in step, and hands back what the queue does. -/
theorem call_refines {c : Call} {r : Ret} {out : Item} (hq : Refines (s.fifos F) q)
    (h : s.call F c = some (s', r, out)) :
    Refines (s'.fifos F) (q.step c r).1 ∧ out = (q.step c r).2 := by
  cases c with
  | push x =>
    obtain ⟨⟨_, r⟩, hp, h⟩ := Option.map_eq_some'.mp h
    cases h
    exact ⟨fifoPush_refines hq hp, by cases r <;> rfl⟩
  | pull flags pop => exact fifoPullFlags_refines hq h
  | poke => cases h; exact ⟨hq.of_eq (by simp [fifoPoke]) (by simp [fifoPoke])
      (by simp [fifoPoke]) (by simp [fifoPoke]), rfl⟩
  | setMaxQueued n => cases h; exact ⟨⟨by simpa [fifoSetMaxQueued, Fifo.view] using hq.view,
      by simpa [fifoSetMaxQueued] using hq.numQueued, by simp [fifoSetMaxQueued, Queue.step],
      by simpa [fifoSetMaxQueued] using hq.dests⟩, rfl⟩
  | setBlockFlags flags => cases h; exact ⟨hq.of_eq (by simp [fifoSetBlockFlags])
      (by simp [fifoSetBlockFlags]) (by simp [fifoSetBlockFlags]) (by simp [fifoSetBlockFlags]),
      rfl⟩

theorem CallRun.refines {log : List (Call × Ret × Item)} (hrun : s.CallRun F log s')
    (hq : Refines (s.fifos F) q) :
    Refines (s'.fifos F) (q.run (log.map fun e => (e.1, e.2.1))).1 ∧
      log.map (fun e => e.2.2) = (q.run (log.map fun e => (e.1, e.2.1))).2 := by
  induction hrun generalizing q with
  | nil => exact ⟨hq, rfl⟩
  | cons hc _ ih =>
    obtain ⟨hq₁, hout⟩ := call_refines hq hc
    obtain ⟨h₁, h₂⟩ := ih hq₁
    exact ⟨h₁, by simp [Queue.run, hout, h₂]⟩

/-- On a FIFO with no destinations, every run of calls keeps `queued[0 .. num_queued)` equal
to the queue the calls build from the items queued at the start, and every call hands back
what the queue does. Items therefore leave in the order they came, and the pop's
`assert(ctx->num_queued >= 0)` never fails: a pull that does not return is one that waits. -/
theorem callRun_refines_queue {log : List (Call × Ret × Item)} (hrun : s.CallRun F log s')
    (hdests : (s.fifos F).dests = []) (hnn : 0 ≤ (s.fifos F).numQueued) :
    let q := (Queue.mk (s.fifos F).view (s.fifos F).maxQueued [] []).run
      (log.map fun e => (e.1, e.2.1))
    Refines (s'.fifos F) q.1 ∧ log.map (fun e => e.2.2) = q.2 ∧
      (s.fifos F).view ++ q.1.ins = q.1.outs ++ (s'.fifos F).view ∧
      ∀ flags pop, s'.fifoPullFlags F flags pop = none → ((s'.fifos F).pullLoop flags).2 = .wait := by
  intro q
  have h₀ : Refines (s.fifos F) ⟨(s.fifos F).view, (s.fifos F).maxQueued, [], []⟩ :=
    ⟨rfl, by rw [Fifo.length_view]; omega, rfl, hdests⟩
  obtain ⟨href, hout⟩ := hrun.refines h₀
  have hcons : Queue.Conserves ⟨(s.fifos F).view, (s.fifos F).maxQueued, [], []⟩ q.1 :=
    Queue.Conserves.run (by simp [Queue.Conserves]) _
  refine ⟨href, hout, href.view ▸ hcons, fun flags pop h => fifoPullFlags_eq_none ?_ h⟩
  rw [href.numQueued]; omega

theorem callRun_refines_queue_two :
    let s := ((init fun _ => true).fifoCreate 2 Flags.none).2
    let s₁ := ((s.fifoPush 0 (some 5)).getD (s, .ok)).1
    let s₂ := ((s₁.fifoPush 0 (some 6)).getD (s₁, .ok)).1
    let s₃ := ((s₂.fifoPullFlags 0 Flags.none true).getD (s₂, .ok, none)).1
    let log : List (Call × Ret × Item) :=
      [(.push (some 5), .ok, none), (.push (some 6), .ok, none), (.pull Flags.none true, .ok, some 5)]
    let q := (Queue.mk (s.fifos 0).view (s.fifos 0).maxQueued [] []).run
      (log.map fun e => (e.1, e.2.1))
    Refines (s₃.fifos 0) q.1 ∧ log.map (fun e => e.2.2) = q.2 ∧
      (s.fifos 0).view ++ q.1.ins = q.1.outs ++ (s₃.fifos 0).view ∧
      ∀ flags pop, s₃.fifoPullFlags 0 flags pop = none → ((s₃.fifos 0).pullLoop flags).2 = .wait :=
  callRun_refines_queue (.cons (by rfl) (.cons (by rfl)
    (.cons (by simp only [call, fifoPullFlags, Fifo.pullLoop_eq]; rfl) (.nil _)))) rfl le_rfl

end Store

-- ---------------------------------------------------------------------------
-- Capacity
-- ---------------------------------------------------------------------------

/-- A FIFO of capacity `N` without `BLOCK_MAX_OUTPUT` holding at most `N + 2` items. -/
structure Bounded (N : Int) (f : Fifo) : Prop where
  maxQueued : f.maxQueued = N
  noBlock : f.blockFlags.blockMaxOutput = false
  nonneg : 0 ≤ f.numQueued
  le : f.numQueued ≤ N + 2

/-- At a FIFO of positive capacity, a non-null push is refused exactly when more than
`max_queued + 1` items are queued. -/
theorem Bounded.pushCheck_eq_full {N : Int} {f : Fifo} (hN : 0 < N) (hmax : N < intMax)
    (h : Bounded N f) (i : ItemId) : f.pushCheck (some i) = .full ↔ f.numQueued = N + 2 := by
  have hne : (N != -1) = true := bne_iff_ne.mpr (by omega)
  have hw := intAddWrap_one_of_lt (by simp only [intMin]; omega) hmax
  have := h.le
  simp only [Fifo.pushCheck_eq_full, Fifo.overLimit, h.maxQueued, h.noBlock, Option.isSome_some,
    Bool.true_and, hne, hw, decide_eq_true_eq, and_true]
  constructor
  · rintro ⟨-, h⟩; omega
  · intro h; exact ⟨by omega, by omega⟩

namespace Store

variable {s s' : Store} {F : FifoId} {N : Int}

/-- A non-null push keeps a bounded FIFO bounded, and returns `ENOBUFS` without storing
its item exactly when `N + 2` items are queued. -/
theorem fifoPush_bounded {i : ItemId} {r : Ret} (hN : 0 < N) (hmax : N < intMax)
    (hb : Bounded N (s.fifos F))
    (h : s.fifoPush F (some i) = some (s', r)) :
    Bounded N (s'.fifos F) ∧
      ((r = .enobufs ∧ (s'.fifos F).view = (s.fifos F).view) ↔ (s.fifos F).numQueued = N + 2) := by
  have hfull := hb.pushCheck_eq_full hN hmax i
  rcases pushAux_self h with ⟨hc, rfl, rfl⟩ | ⟨hc, ⟨hr, hf⟩ | ⟨size, hf⟩⟩
  · exact ⟨hb, by simpa using hfull.mp hc⟩
  · rw [hf]
    refine ⟨hb, ⟨fun ⟨he, _⟩ => ?_, fun hn => absurd (hfull.mpr hn) hc⟩⟩
    rcases hr with rfl | hm
    · cases he
    · exact absurd (hm.symm.trans hb.maxQueued) hN.ne
  · have hlt : (s.fifos F).numQueued ≠ N + 2 := fun hn => hc (hfull.mpr hn)
    rw [hf]
    refine ⟨⟨hb.maxQueued, hb.noBlock, ?_, ?_⟩, ⟨fun ⟨_, hv⟩ => ?_, fun hn => absurd hn hlt⟩⟩
    · simp only [Fifo.enqueue]; have := hb.nonneg; omega
    · simp only [Fifo.enqueue]; have := hb.le; omega
    · rw [Fifo.view_enqueue hb.nonneg] at hv
      simpa using congrArg List.length hv

/-- Pulls keep a bounded FIFO bounded. -/
theorem fifoPullFlags_bounded {flags : Flags} {pop : Bool} {r : Ret} {out : Item}
    (hb : Bounded N (s.fifos F)) (h : s.fifoPullFlags F flags pop = some (s', r, out)) :
    Bounded N (s'.fifos F) := by
  rcases fifoPullFlags_fifo h with ⟨-, hne, -, hf⟩ | ⟨-, -, hf⟩ <;> rw [hf]
  · split_ifs
    · exact ⟨hb.maxQueued, hb.noBlock, by simp only [Fifo.popHead]; have := hb.nonneg; omega,
        by simp only [Fifo.popHead]; have := hb.le; omega⟩
    · exact hb
  · exact ⟨hb.maxQueued, hb.noBlock, hb.nonneg, hb.le⟩

/-- On a FIFO of capacity `0 < N < INT_MAX` without `BLOCK_MAX_OUTPUT`, holding at most `N + 2`
items to begin with, every run of non-null pushes and of pulls keeps at most `N + 2` items,
and a push returns `ENOBUFS` without storing its item exactly when `N + 2` are queued. -/
theorem callRun_capacity {log : List (Call × Ret × Item)} (hN : 0 < N) (hmax : N < intMax)
    (hrun : s.CallRun F log s')
    (hcalls : ∀ e ∈ log, (∃ i, e.1 = .push (some i)) ∨ ∃ flags pop, e.1 = .pull flags pop)
    (hb : Bounded N (s.fifos F)) :
    (s'.fifos F).numQueued ≤ N + 2 ∧ ∀ i s'' r, s'.fifoPush F (some i) = some (s'', r) →
      ((r = .enobufs ∧ (s''.fifos F).view = (s'.fifos F).view) ↔ (s'.fifos F).numQueued = N + 2) := by
  induction hrun with
  | nil => exact ⟨hb.le, fun _ _ _ h => (fifoPush_bounded hN hmax hb h).2⟩
  | @cons s s₁ s' c r out log hc _ ih =>
    refine ih (fun e he => hcalls e (List.mem_cons_of_mem _ he)) ?_
    rcases hcalls _ (List.mem_cons_self _ _) with ⟨i, rfl⟩ | ⟨flags, pop, rfl⟩
    · obtain ⟨⟨_, _⟩, hp, h⟩ := Option.map_eq_some'.mp hc
      cases h
      exact (fifoPush_bounded hN hmax hb hp).1
    · exact fifoPullFlags_bounded hb hc

theorem callRun_capacity_one :
    let s := ((init fun _ => true).fifoCreate 1 Flags.none).2
    let s₁ := ((s.fifoPush 0 (some 0)).getD (s, .ok)).1
    let s₂ := ((s₁.fifoPush 0 (some 1)).getD (s₁, .ok)).1
    let log : List (Call × Ret × Item) := [(.push (some 0), .ok, none), (.push (some 1), .ok, none)]
    (0 : Int) < 1 ∧ (1 : Int) < intMax ∧ s.CallRun 0 log s₂ ∧
      (∀ e ∈ log, (∃ i, e.1 = .push (some i)) ∨ ∃ flags pop, e.1 = .pull flags pop) ∧
      Bounded 1 (s.fifos 0) ∧
      ((s₂.fifos 0).numQueued ≤ 1 + 2 ∧ ∀ i s'' r, s₂.fifoPush 0 (some i) = some (s'', r) →
        ((r = .enobufs ∧ (s''.fifos 0).view = (s₂.fifos 0).view) ↔
          (s₂.fifos 0).numQueued = 1 + 2)) := by
  dsimp only
  refine ⟨by decide, by decide, ?run, ?calls, ?b,
    callRun_capacity (by decide) (by decide) ?run ?calls ?b⟩
  · exact .cons rfl (.cons rfl (.nil _))
  · simp
  · exact ⟨rfl, rfl, le_refl _, by decide⟩

/-- The third push of a FIFO created with `max_queued = 1`, made when `N + 1 = 2` items are
already queued, returns `0` and leaves three. -/
theorem fifoPush_capacity_overshoot :
    let s := ((init fun _ => true).fifoCreate 1 Flags.none).2
    let s₁ := ((s.fifoPush 0 (some 0)).getD (s, .ok)).1
    let s₂ := ((s₁.fifoPush 0 (some 1)).getD (s₁, .ok)).1
    let s₃ := ((s₂.fifoPush 0 (some 2)).getD (s₂, .ok)).1
    s.CallRun 0 [(.push (some 0), .ok, none), (.push (some 1), .ok, none)] s₂ ∧
      (s₂.fifos 0).numQueued = 1 + 1 ∧ s₂.fifoPush 0 (some 2) = some (s₃, .ok) ∧
      (s₃.fifos 0).numQueued = 1 + 2 :=
  ⟨.cons rfl (.cons rfl (.nil _)), rfl, rfl, rfl⟩

end Store

end Txproto
