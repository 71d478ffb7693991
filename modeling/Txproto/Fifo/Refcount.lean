-- SUMMARY: Reference counts of the queued buffers: the slots of live FIFOs and the callers' references account for every count, over every run.
import Txproto.Fifo.System
import Mathlib.Algebra.BigOperators.Group.Finset

/-!
# Reference counts

`CLONE_FN` and `FREE_FN` count references on the media buffers: `Store.refs`. Every
reference is held by a slot `queued[k]`, `k < num_queued`, of a live FIFO, or by a caller:
the pusher keeps its own, and a pop or a peek hands one to its caller, who frees it later.
`World` adds what the callers hold to the store, and the invariant `World.Balanced` says
that each count is exactly the slots holding the buffer plus the callers' references.

A push clones once per slot it fills, wherever in the fan-out it stops (`pushAux_refsTrack`);
a pop moves its slot's reference to the caller; destruction frees one reference per slot.
-/

namespace Txproto

namespace Store

/-- The slots of FIFO `F` that hold buffer `i`, if `F` is live. -/
def slotsAt (s : Store) (i : ItemId) (F : FifoId) : Nat :=
  if s.live F then (s.fifos F).view.count (some i) else 0

/-- The slots of live FIFOs that hold buffer `i`. -/
def slots (s : Store) (i : ItemId) : Nat := (Finset.range s.next).sum (s.slotsAt i)

/-- A change at FIFO `f` alone moves the total by the change at `f`. -/
theorem slots_add_slotsAt (s s' : Store) (i : ItemId) {f : FifoId} (hn : s'.next = s.next)
    (hf : f < s.next) (h : ∀ F, F ≠ f → s'.slotsAt i F = s.slotsAt i F) :
    s'.slots i + s.slotsAt i f = s.slots i + s'.slotsAt i f := by
  have hm : f ∈ Finset.range s.next := Finset.mem_range.mpr hf
  rw [slots, slots, hn, ← Finset.add_sum_erase _ _ hm, ← Finset.add_sum_erase _ _ hm,
    Finset.sum_congr (f := s'.slotsAt i) (g := fun F => s.slotsAt i F) rfl
      fun F hF => h F (Finset.ne_of_mem_erase hF)]
  omega

theorem slots_congr {s s' : Store} {i : ItemId} (hn : s'.next = s.next)
    (h : ∀ F, s'.slotsAt i F = s.slotsAt i F) : s'.slots i = s.slots i := by
  simp only [slots, hn, funext h]

theorem freeAll_refs : ∀ (s : Store) (xs : List Item) (i : ItemId),
    (s.freeAll xs).refs i = s.refs i - xs.count (some i)
  | _, [], _ => rfl
  | s, x :: xs, i => by
    rw [freeAll, freeAll_refs, free_refs, List.count_cons, Nat.sub_sub]
    simp only [beq_iff_eq]
    omega

/-- `s'` accounts for its references as `s` does: every count moved by as many as the slots
of live FIFOs holding the buffer. -/
def RefsTrack (s s' : Store) : Prop := ∀ i, s'.refs i + s.slots i = s.refs i + s'.slots i

theorem RefsTrack.refl (s : Store) : s.RefsTrack s := fun _ => rfl

theorem RefsTrack.trans {a b c : Store} (h₁ : a.RefsTrack b) (h₂ : b.RefsTrack c) :
    a.RefsTrack c := fun i => by have := h₁ i; have := h₂ i; omega

/-- An enqueue at a live FIFO takes one reference per slot it fills. -/
theorem pushEnqueue_refsTrack {s : Store} {dst : FifoId} (x : Item) (hlive : s.live dst)
    (hlt : dst < s.next) (hnn : 0 ≤ (s.fifos dst).numQueued) :
    s.RefsTrack (s.pushEnqueue dst x).2 := by
  intro i
  obtain ⟨size, hf⟩ := s.pushEnqueue_fifos dst x
  have hs := slots_add_slotsAt s (s.pushEnqueue dst x).2 i (by simp) hlt
    fun F hF => by simp only [slotsAt, hf, pushEnqueue_live]; split_ifs <;> simp [hF]
  rw [pushEnqueue_refs]
  simp only [slotsAt, hf, pushEnqueue_live, hlive, if_true] at hs
  cases hb : (s.pushEnqueue dst x).1 <;>
    simp only [hb, if_true, if_false, Bool.false_eq_true, false_and, true_and, add_zero] at hs ⊢
  · omega
  · simp only [Function.update_same, Fifo.view_enqueue hnn, List.count_append,
      List.count_singleton, beq_iff_eq] at hs
    split_ifs at hs ⊢ <;> omega

/-- A push from a store of the program, made on a live FIFO, takes one reference per slot it
fills anywhere in its fan-out, whatever it returns. -/
theorem pushAux_refsTrack : ∀ {n held s dst x s' r}, s.Inv → s.live dst →
    pushAux n held s dst x = some (s', r) → s.RefsTrack s'
  | 0, _, _, _, _, _, _, _, _, h => by cases h
  | n + 1, held, s, dst, x, s', r, hinv, hlive, h => by
    have henq := pushEnqueue_refsTrack x hlive (hinv.live_lt dst hlive) (hinv.numNonneg dst)
    obtain ⟨-, ⟨-, -, rfl⟩ | ⟨-, -, he, -⟩ | ⟨s₁, hs₁, hd⟩⟩ := pushAux_eq_some h
    · exact .refl _
    · simpa [he] using henq
    · have hq₁ : s.QueuesOnly s₁ := by
        rcases hs₁ with ⟨-, rfl⟩ | ⟨-, -, he⟩
        · exact .refl _
        · exact Store.pushEnqueue_queuesOnly_of_eq he
      have ht₁ : s.RefsTrack s₁ := by
        rcases hs₁ with ⟨-, rfl⟩ | ⟨-, -, he⟩
        · exact .refl _
        · simpa [he] using henq
      have hinv₁ := hinv.of_queuesOnly hq₁
      refine ht₁.trans (distribute_induct RefsTrack.refl RefsTrack.trans pushAux_queuesOnly s₁ _
        (fun hq₂ hd' hp => pushAux_refsTrack (hinv₁.of_queuesOnly hq₂) ?_ hp)
        (List.Subset.refl _) (.refl s₁) hd)
      rw [hq₂.live]
      exact hinv₁.dests_live dst _ hd'

/-- Calls that change neither the queues nor which FIFOs are live move no slot. -/
theorem slots_of_view {s s' : Store} (hn : s'.next = s.next) (hl : s'.live = s.live)
    (hv : ∀ F, (s'.fifos F).view = (s.fifos F).view) (i : ItemId) : s'.slots i = s.slots i :=
  slots_congr hn fun F => by simp only [slotsAt, hl, hv]

theorem ListsOnly.slots {s s' : Store} (h : s.ListsOnly s') (i : ItemId) : s'.slots i = s.slots i :=
  slots_of_view h.next h.live h.view i

theorem modify_slots (s : Store) {f : FifoId} {g : Fifo → Fifo}
    (hq : (g (s.fifos f)).queued = (s.fifos f).queued)
    (hn : (g (s.fifos f)).numQueued = (s.fifos f).numQueued) (i : ItemId) :
    (s.modify f g).slots i = s.slots i :=
  by
    refine slots_of_view (modify_next s f g) (modify_live s f g) (fun F => ?_) i
    simp only [modify_fifos]; split_ifs with h
    · subst h; simp only [Fifo.view, hq, hn]
    · rfl

/-- A new handle with no slot leaves the total as it was. -/
theorem slots_succ {s s' : Store} {i : ItemId} (hn : s'.next = s.next + 1)
    (h : ∀ F < s.next, s'.slotsAt i F = s.slotsAt i F) (hnew : s'.slotsAt i s.next = 0) :
    s'.slots i = s.slots i := by
  rw [slots, hn, Finset.sum_range_succ, hnew, add_zero, slots]
  exact Finset.sum_congr rfl fun F hF => h F (Finset.mem_range.mp hF)

/-- `fifo_create` adds an empty FIFO: no slot, no reference. -/
theorem fifoCreate_slots (s : Store) (maxQueued : Int) (flags : Flags) (i : ItemId) :
    (s.fifoCreate maxQueued flags).2.slots i = s.slots i ∧
      (s.fifoCreate maxQueued flags).2.refs i = s.refs i := by
  obtain ⟨t, hf, hn, hl, hr, h | h⟩ := s.fifoCreate_spec maxQueued flags <;> rw [h]
  · exact ⟨slots_of_view hn hl (by simp [hf]) i, by rw [hr]⟩
  · refine ⟨slots_succ (by simp [hn]) (fun F hF => ?_) ?_, by simp [hr]⟩
    · simp [slotsAt, Function.update_noteq (Nat.ne_of_lt hF)]
    · simp [slotsAt, hn, newFifo, Fifo.view, Fifo.zero]

/-- Destroying a live FIFO takes its slots out of the total, and frees as many references. -/
theorem fifoDestroy_slots (s : Store) {f : FifoId} (hf : s.live f) (hlt : f < s.next)
    (i : ItemId) :
    (s.fifoDestroy f).slots i + (s.fifos f).view.count (some i) = s.slots i ∧
      (s.fifoDestroy f).refs i = s.refs i - (s.fifos f).view.count (some i) := by
  refine ⟨?_, by simp [fifoDestroy, freeAll_refs]⟩
  have := slots_add_slotsAt s (s.fifoDestroy f) i (by simp [fifoDestroy]) hlt
    fun F hF => by simp [slotsAt, fifoDestroy, Function.update_noteq hF]
  simpa [slotsAt, fifoDestroy, hf] using this

/-- A pull that returns moves the head slot's reference to its caller (a pop), or gives the
caller a new one (a peek). -/
theorem fifoPullFlags_refs {s s' : Store} {src : FifoId} {flags : Flags} {pop : Bool} {r : Ret}
    {out : Item} (hinv : s.Inv) (hlive : s.live src)
    (h : s.fifoPullFlags src flags pop = some (s', r, out)) (i : ItemId) :
    s'.refs i + s.slots i = s.refs i + s'.slots i + if out = some i then 1 else 0 := by
  rcases fifoPullFlags_eq_some h with ⟨-, hne, rfl, rfl⟩ | ⟨-, rfl, rfl⟩
  · have hpos : 0 < (s.fifos src).numQueued := by have := hinv.numNonneg src; omega
    have hview : (s.fifos src).view = (s.fifos src).queued 0 :: (s.fifos src).popHead.view := by
      rw [Fifo.view_popHead hpos]; exact List.eq_cons_of_mem_head? (Fifo.head_view hpos)
    cases pop
    · have hs : (s.clone ((s.fifos src).queued 0)).slots i = s.slots i :=
        slots_of_view (by simp) (by simp) (by simp) i
      simp only [pullTake, Bool.false_eq_true, if_false, clone_refs, hs]
      omega
    · have := slots_add_slotsAt s (s.pullTake src true).1 i (by simp)
        (hinv.live_lt src hlive) fun F hF => by simp [slotsAt, hF]
      simp only [slotsAt, pullTake_fifos, pullTake_live, hlive, if_true, true_and] at this
      rw [hview, List.count_cons] at this
      simp only [pullTake, if_true, modify_refs, beq_iff_eq] at this ⊢
      omega
  · rw [modify_slots s (by rw [Fifo.pullLoop_fst]) (by rw [Fifo.pullLoop_fst])]
    simp

/-- Every call but a pull and a destruction takes one reference per slot it fills and frees
none. -/
theorem exec_refsTrack {s s' : Store} {op : Op} (hinv : s.Inv) (hrun : s.CanRun op)
    (hop : ∀ src flags pop, op ≠ .pull src flags pop) (hd : ∀ f, op ≠ .destroy f)
    (he : s.exec op = some s') : s.RefsTrack s' := by
  have hlists : ∀ {s'}, s.ListsOnly s' → s.RefsTrack s' := fun hl i => by rw [hl.slots, hl.refs]
  have hmod : ∀ {f : FifoId} {g : Fifo → Fifo}, (g (s.fifos f)).queued = (s.fifos f).queued →
      (g (s.fifos f)).numQueued = (s.fifos f).numQueued → s.RefsTrack (s.modify f g) :=
    fun hq hn i => by rw [modify_slots s hq hn, modify_refs]
  cases op with
  | create maxQueued flags =>
    cases he; intro i; obtain ⟨h₁, h₂⟩ := fifoCreate_slots s maxQueued flags i; omega
  | destroy f => exact absurd rfl (hd f)
  | mirror dst src => cases he; exact hlists (fifoMirror_listsOnly s dst src)
  | unmirror dst src => rw [fifoUnmirror_eq_unlink he]; exact hlists (unlink_listsOnly s src dst)
  | unmirrorAll ref => cases he; exact hlists (fifoUnmirrorAll_listsOnly s ref)
  | push dst x =>
    obtain ⟨⟨_, _⟩, hp, rfl⟩ := Option.map_eq_some'.mp he
    exact pushAux_refsTrack hinv (hrun.1 dst (by simp [Op.handles])) hp
  | pull src flags pop => exact absurd rfl (hop src flags pop)
  | poke ref => cases he; exact hmod rfl rfl
  | setMaxQueued dst n => cases he; exact hmod rfl rfl
  | setBlockFlags dst flags => cases he; exact hmod rfl rfl

end Store

-- ---------------------------------------------------------------------------
-- The callers' references
-- ---------------------------------------------------------------------------

/-- The store with the references the callers hold on each buffer: the pusher's own, and
those a pop or a peek handed out and the caller has not freed yet. -/
structure World where
  store : Store
  held : ItemId → Nat

/-- What a thread does: a call of the template, a new reference on a buffer (a new packet,
or `av_packet_ref` of one it holds), or `av_packet_free` of one of its references. -/
inductive Act where
  | call (op : Op)
  | obtain (i : ItemId)
  | release (i : ItemId)

/-- `held` with the reference `x` hands over, if any. -/
def give (held : ItemId → Nat) (x : Item) : ItemId → Nat :=
  fun i => held i + if x = some i then 1 else 0

namespace World

/-- One action; a pull hands its `*dst` to the caller. `none` when the call does not return,
or when the caller frees a reference it does not hold. -/
def step (w : World) : Act → Option World
  | .call (.pull src flags pop) =>
    (w.store.fifoPullFlags src flags pop).map fun p => ⟨p.1, give w.held p.2.2⟩
  | .call op => (w.store.exec op).map fun s => ⟨s, w.held⟩
  | .obtain i => some ⟨w.store.clone (some i), give w.held (some i)⟩
  | .release i =>
    if 0 < w.held i then some ⟨w.store.free (some i), Function.update w.held i (w.held i - 1)⟩
    else none

/-- Before the first call: no FIFO and no reference. -/
def init (allocOk : Nat → Bool) : World := ⟨Store.init allocOk, fun _ => 0⟩

inductive Reachable : World → Prop
  | init (allocOk : Nat → Bool) : Reachable (init allocOk)
  | step {w w' : World} (a : Act) : Reachable w → (∀ op, a = .call op → w.store.CanRun op) →
      w.step a = some w' → Reachable w'

/-- Every reference on a buffer is a slot of a live FIFO holding it or a caller's. -/
def Balanced (w : World) : Prop := ∀ i, w.store.refs i = w.store.slots i + w.held i

theorem step_call {w w' : World} {op : Op} (h : w.step (.call op) = some w') :
    w.store.exec op = some w'.store := by
  cases op
  case pull src flags pop =>
    obtain ⟨p, hp, rfl⟩ := Option.map_eq_some'.mp h
    simp [Store.exec, hp]
  all_goals
    simp only [step] at h
    obtain ⟨s, hs, rfl⟩ := Option.map_eq_some'.mp h
    exact hs

theorem step_call_held {w w' : World} {op : Op} (hop : ∀ src flags pop, op ≠ .pull src flags pop)
    (h : w.step (.call op) = some w') : w'.held = w.held := by
  cases op
  case pull src flags pop => exact absurd rfl (hop src flags pop)
  all_goals
    simp only [step] at h
    obtain ⟨s, -, rfl⟩ := Option.map_eq_some'.mp h
    rfl

theorem Reachable.inv {w : World} (h : w.Reachable) : w.store.Inv := by
  induction h with
  | init allocOk => exact Store.inv_init allocOk
  | step a _ hrun he ih =>
    cases a with
    | call op => exact ih.exec (hrun op rfl) (step_call he)
    | obtain i => cases he; exact ih.congr (by simp) (by simp) (by simp)
    | release i =>
      simp only [World.step] at he; split_ifs at he; cases he
      exact ih.congr (by simp) (by simp) (by simp)

/-- Each action keeps every count equal to the slots and the callers' references. -/
theorem Balanced.step {w w' : World} {a : Act} (hb : w.Balanced) (hinv : w.store.Inv)
    (hrun : ∀ op, a = .call op → w.store.CanRun op) (he : w.step a = some w') : w'.Balanced := by
  intro i
  have hbi := hb i
  cases a with
  | obtain j =>
    cases he
    have hs : (w.store.clone (some j)).slots i = w.store.slots i :=
      Store.slots_of_view (by simp) (by simp) (by simp) i
    simp only [Store.clone_refs, hs, give]
    omega
  | release j =>
    simp only [World.step] at he; split_ifs at he with hpos; cases he
    have hs : (w.store.free (some j)).slots i = w.store.slots i :=
      Store.slots_of_view (by simp) (by simp) (by simp) i
    by_cases hij : i = j
    · subst hij; simp only [Store.free_refs, hs, Function.update_same, if_true]; omega
    · simp [Store.free_refs, hs, Function.update_noteq hij, Ne.symm hij, hbi]
  | call op =>
    by_cases hpull : ∃ src flags pop, op = .pull src flags pop
    · obtain ⟨src, flags, pop, rfl⟩ := hpull
      simp only [World.step] at he
      obtain ⟨⟨s', r, out⟩, hp, rfl⟩ := Option.map_eq_some'.mp he
      have := Store.fifoPullFlags_refs hinv ((hrun _ rfl).1 src (by simp [Op.handles])) hp i
      simp only [give]
      omega
    have hop : ∀ src flags pop, op ≠ .pull src flags pop := fun src flags pop h =>
      hpull ⟨src, flags, pop, h⟩
    rw [step_call_held hop he]
    by_cases hdes : ∃ f, op = .destroy f
    · obtain ⟨f, rfl⟩ := hdes
      have hf := (hrun _ rfl).1 f (by simp [Op.handles])
      have hex := step_call he
      simp only [Store.exec, Option.some.injEq] at hex
      obtain ⟨h₁, h₂⟩ := w.store.fifoDestroy_slots hf (hinv.live_lt f hf) i
      rw [← hex, h₂]
      omega
    · have := Store.exec_refsTrack hinv (hrun op rfl) hop (fun f h => hdes ⟨f, h⟩) (step_call he) i
      omega

/-- Over every run of calls and of the callers' own references, each buffer's reference
count is the number of slots of live FIFOs holding it plus the references callers hold. -/
theorem reachable_balanced {w : World} (h : w.Reachable) (i : ItemId) :
    w.store.refs i = w.store.slots i + w.held i := by
  induction h generalizing i with
  | init allocOk => simp [init, Store.init, Store.slots]
  | step a hr hrun he ih => exact Balanced.step ih hr.inv hrun he i

theorem reachable_balanced_peek :
    let w₀ := init fun _ => true
    let w₁ := (w₀.step (.call (.create 2 Flags.none))).getD w₀
    let w₂ := (w₁.step (.obtain 7)).getD w₁
    let w₃ := (w₂.step (.call (.push 0 (some 7)))).getD w₂
    let w₄ := (w₃.step (.release 7)).getD w₃
    let w₅ := (w₄.step (.call (.pull 0 Flags.none false))).getD w₄
    w₅.Reachable ∧ w₅.store.refs 7 = w₅.store.slots 7 + w₅.held 7 := by
  dsimp only
  have h₄ := Reachable.step (.release 7) (.step (.call (.push 0 (some 7)))
    (.step (.obtain 7) (.step (.call (.create 2 Flags.none)) (.init fun _ => true)
      (fun _ h => by cases h; exact ⟨by simp [Op.handles], by simp⟩) rfl) (fun _ h => by cases h) rfl)
    (fun _ h => by cases h; exact ⟨by decide, by simp⟩) rfl) (fun _ h => by cases h) rfl
  refine ⟨?h, reachable_balanced ?h 7⟩
  exact .step (.call (.pull 0 Flags.none false)) h₄ (fun _ h => by cases h; exact ⟨by decide, by simp⟩)
    (by simp only [World.step, Store.fifoPullFlags, Fifo.pullLoop_eq]; rfl)

end World

end Txproto
