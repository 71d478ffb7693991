-- SUMMARY: The calls of the template run one after another: the operations, the reachable stores, and the symmetry of the mirror lists over every run.
import Txproto.Fifo.Mirror
import Txproto.Fifo.Push
import Txproto.Fifo.Pull
import Txproto.Fifo.Config

/-!
# Runs of calls

The program as its callers see it when no two calls overlap: a store of FIFOs, changed by
one call at a time. A call that does not return (a push around a mirror cycle, a pull that
waits, an `unmirror` whose `assert` fails) ends the run. Handles are the ones `fifo_create`
returned and not yet destroyed, and a FIFO is destroyed when the last reference on its
handle goes, so no list entry can still point at it.

The invariant of this section is `Store.Inv`: the lists are symmetric and name only live
FIFOs, and no queue has a negative length. Every call keeps it (`Store.Inv.exec`), so it
holds in every reachable store; there `fifo_unmirror` on a linked pair passes its `assert`s.
-/

namespace Txproto

/-- The calls of the template, with their arguments, and the destruction of a FIFO. -/
inductive Op where
  | create (maxQueued : Int) (flags : Flags)
  | destroy (f : FifoId)
  | mirror (dst src : FifoId)
  | unmirror (dst src : FifoId)
  | unmirrorAll (ref : FifoId)
  | push (dst : FifoId) (x : Item)
  | pull (src : FifoId) (flags : Flags) (pop : Bool)
  | poke (ref : FifoId)
  | setMaxQueued (dst : FifoId) (maxQueued : Int)
  | setBlockFlags (dst : FifoId) (flags : Flags)

/-- The FIFO handles a call is given. -/
def Op.handles : Op → List FifoId
  | .create _ _ => []
  | .mirror dst src | .unmirror dst src => [dst, src]
  | .destroy f | .unmirrorAll f | .push f _ | .pull f _ _ | .poke f | .setMaxQueued f _
  | .setBlockFlags f _ => [f]

namespace Store

/-- No list holds a reference on `f`. -/
def Unreferenced (s : Store) (f : FifoId) : Prop :=
  ∀ F, f ∉ (s.fifos F).dests ∧ f ∉ (s.fifos F).sources

/-- A call the program can make: its handles are live, and a FIFO is destroyed only once no
list entry holds a reference on it. -/
def CanRun (s : Store) (op : Op) : Prop :=
  (∀ f ∈ op.handles, s.live f) ∧ ∀ f, op = .destroy f → s.Unreferenced f

/-- The store after one call, `none` when the call does not return. -/
def exec (s : Store) : Op → Option Store
  | .create maxQueued flags => some (s.fifoCreate maxQueued flags).2
  | .destroy f => some (s.fifoDestroy f)
  | .mirror dst src => some (s.fifoMirror dst src)
  | .unmirror dst src => s.fifoUnmirror dst src
  | .unmirrorAll ref => some (s.fifoUnmirrorAll ref)
  | .push dst x => (s.fifoPush dst x).map (·.1)
  | .pull src flags pop => (s.fifoPullFlags src flags pop).map (·.1)
  | .poke ref => some (s.fifoPoke ref)
  | .setMaxQueued dst n => some (s.fifoSetMaxQueued dst n)
  | .setBlockFlags dst flags => some (s.fifoSetBlockFlags dst flags)

/-- The program before its first call: no FIFO, no reference, nothing allocated. -/
def init (allocOk : Nat → Bool) : Store :=
  ⟨fun _ => Fifo.zero, 0, fun _ => false, fun _ => 0, allocOk, 0⟩

/-- The stores a run of calls reaches. -/
inductive Reachable : Store → Prop
  | init (allocOk : Nat → Bool) : Reachable (init allocOk)
  | step {s s' : Store} (op : Op) : Reachable s → s.CanRun op → s.exec op = some s' →
      Reachable s'

/-- `fifo_create` is given no handle: a program can call it from any of its stores. -/
theorem Reachable.create {s : Store} (h : s.Reachable) (maxQueued : Int) (flags : Flags) :
    (s.fifoCreate maxQueued flags).2.Reachable :=
  .step (.create maxQueued flags) h ⟨by simp [Op.handles], by simp⟩ rfl

theorem Reachable.mirror {s : Store} (h : s.Reachable) (dst src : FifoId) (hd : s.live dst)
    (hs : s.live src) : (s.fifoMirror dst src).Reachable :=
  .step (.mirror dst src) h ⟨by simp [Op.handles, hd, hs], by simp⟩ rfl

theorem Reachable.poke {s : Store} (h : s.Reachable) (ref : FifoId) (hr : s.live ref) :
    (s.fifoPoke ref).Reachable :=
  .step (.poke ref) h ⟨by simp [Op.handles, hr], by simp⟩ rfl

theorem Reachable.setMaxQueued {s : Store} (h : s.Reachable) (dst : FifoId) (maxQueued : Int)
    (hd : s.live dst) : (s.fifoSetMaxQueued dst maxQueued).Reachable :=
  .step (.setMaxQueued dst maxQueued) h ⟨by simp [Op.handles, hd], by simp⟩ rfl

-- ---------------------------------------------------------------------------
-- The invariant
-- ---------------------------------------------------------------------------

/-- What holds in every reachable store. -/
structure Inv (s : Store) : Prop where
  symmetric : s.Symmetric
  dests_live : ∀ F, ∀ d ∈ (s.fifos F).dests, s.live d
  sources_live : ∀ F, ∀ d ∈ (s.fifos F).sources, s.live d
  live_lt : ∀ F, s.live F → F < s.next
  numNonneg : s.NumNonneg

section Preservation

variable {s s' : Store}

/-- A store whose lists hold entries of the same lists of `s` or live FIFOs, with the same
FIFOs live and no queue shorter than `0`: the invariant carries over once the lists are
symmetric. -/
theorem Inv.of_lists (h : s.Inv) (hsym : s'.Symmetric)
    (hd : ∀ F d, d ∈ (s'.fifos F).dests → d ∈ (s.fifos F).dests ∨ s.live d)
    (hs : ∀ F d, d ∈ (s'.fifos F).sources → d ∈ (s.fifos F).sources ∨ s.live d)
    (hlive : s'.live = s.live) (hnext : s'.next = s.next) (hnum : s'.NumNonneg) : s'.Inv :=
  ⟨hsym, fun F d hm => hlive ▸ (hd F d hm).elim (h.dests_live F d) id,
    fun F d hm => hlive ▸ (hs F d hm).elim (h.sources_live F d) id,
    fun F hF => hnext ▸ h.live_lt F (hlive ▸ hF), hnum⟩

/-- Calls that leave every list as it is keep the invariant. -/
theorem Inv.of_sameLists (h : s.Inv)
    (hd : ∀ F, (s'.fifos F).dests = (s.fifos F).dests)
    (hs : ∀ F, (s'.fifos F).sources = (s.fifos F).sources)
    (hlive : s'.live = s.live) (hnext : s'.next = s.next) (hnum : s'.NumNonneg) : s'.Inv :=
  h.of_lists (fun S D => by rw [hd, hs]; exact h.symmetric S D)
    (fun F d hm => .inl (hd F ▸ hm)) (fun F d hm => .inl (hs F ▸ hm)) hlive hnext hnum

theorem Inv.congr (h : s.Inv) (hf : s'.fifos = s.fifos) (hl : s'.live = s.live)
    (hn : s'.next = s.next) : s'.Inv :=
  h.of_sameLists (by simp [hf]) (by simp [hf]) hl hn fun F => by rw [hf]; exact h.numNonneg F

/-- A call on one FIFO that keeps its lists and leaves no negative length. -/
theorem Inv.modify (h : s.Inv) {f : FifoId} {g : Fifo → Fifo}
    (hd : (g (s.fifos f)).dests = (s.fifos f).dests)
    (hs : (g (s.fifos f)).sources = (s.fifos f).sources)
    (hnum : 0 ≤ (g (s.fifos f)).numQueued) : (s.modify f g).Inv :=
  h.of_sameLists (fun F => by simp only [modify_fifos]; split_ifs <;> simp_all)
    (fun F => by simp only [modify_fifos]; split_ifs <;> simp_all) rfl rfl
    (fun F => by simp only [modify_fifos]; split_ifs <;> simp_all [h.numNonneg F])

/-- The slot of a FIFO no list refers to may be given a FIFO with no lists, live or not. This
is what `fifo_create` does at a fresh handle and the last unreference at a dead one. -/
theorem Inv.reset (h : s.Inv) {f : FifoId} (hf : s.Unreferenced f) {g : Fifo} {b : Bool}
    (hfifos : s'.fifos = Function.update s.fifos f g)
    (hlive : s'.live = Function.update s.live f b) (hnext : s.next ≤ s'.next)
    (hb : b → f < s'.next) (hd : g.dests = []) (hs : g.sources = [])
    (hnum : 0 ≤ g.numQueued) : s'.Inv where
  symmetric S D := by
    simp only [hfifos, Function.update_apply]
    split_ifs with h₁ h₂ h₂ <;> subst_vars
    · simp [hd, hs]
    · simp [hd, List.count_eq_zero_of_not_mem (hf D).2]
    · simp [hs, List.count_eq_zero_of_not_mem (hf S).1]
    · exact h.symmetric S D
  dests_live F d hm := by
    simp only [hfifos, hlive, Function.update_apply] at hm ⊢
    split_ifs at hm
    · simp [hd] at hm
    · rw [if_neg fun e : d = f => (hf F).1 (e ▸ hm)]; exact h.dests_live F d hm
  sources_live F d hm := by
    simp only [hfifos, hlive, Function.update_apply] at hm ⊢
    split_ifs at hm
    · simp [hs] at hm
    · rw [if_neg fun e : d = f => (hf F).2 (e ▸ hm)]; exact h.sources_live F d hm
  live_lt F hF := by
    simp only [hlive, Function.update_apply] at hF
    split_ifs at hF with hFf
    · exact hFf ▸ hb hF
    · exact (h.live_lt F hF).trans_le hnext
  numNonneg F := by
    simp only [hfifos, Function.update_apply]; split_ifs
    · exact hnum
    · exact h.numNonneg F

/-- No list refers to the next handle `fifo_create` returns. -/
theorem Inv.unreferenced_next (h : s.Inv) : s.Unreferenced s.next := fun F =>
  ⟨fun hm => Nat.lt_irrefl _ (h.live_lt _ (h.dests_live F _ hm)),
    fun hm => Nat.lt_irrefl _ (h.live_lt _ (h.sources_live F _ hm))⟩

theorem Inv.create (h : s.Inv) (maxQueued : Int) (flags : Flags) :
    (s.fifoCreate maxQueued flags).2.Inv := by
  have h₁ : (allocN 4 s).2.Inv := h.congr (by simp) (by simp) (by simp)
  unfold fifoCreate
  dsimp only
  split_ifs
  · exact h₁.reset h₁.unreferenced_next rfl rfl (Nat.le_succ _) (fun _ => Nat.lt_succ_self _)
      rfl rfl le_rfl
  · exact h₁

theorem Inv.destroy (h : s.Inv) {f : FifoId} (hf : s.Unreferenced f) : (s.fifoDestroy f).Inv := by
  have h₁ : (s.freeAll (s.fifos f).view).Inv := h.congr (by simp) (by simp) (by simp)
  exact h₁.reset (by simpa [Unreferenced] using hf) rfl rfl le_rfl (by simp) rfl rfl le_rfl

theorem Inv.unlink (h : s.Inv) (src dst : FifoId) : (s.unlink src dst).Inv :=
  have hl := unlink_listsOnly s src dst
  h.of_lists (h.symmetric.unlink src dst)
    (fun F d hm => .inl (by simp only [unlink_dests] at hm; split_ifs at hm
                            · exact List.mem_of_mem_erase hm
                            · exact hm))
    (fun F d hm => .inl (by simp only [unlink_sources] at hm; split_ifs at hm
                            · exact List.mem_of_mem_erase hm
                            · exact hm))
    hl.live hl.next fun F => hl.numQueued F ▸ h.numNonneg F

theorem Inv.unmirrorAll (h : s.Inv) (ref : FifoId) : (s.fifoUnmirrorAll ref).Inv :=
  fifoUnmirrorAll_induct (P := fun s s' => s.Inv → s'.Inv) (fun _ => id)
    (fun h₁ h₂ h => h₂ (h₁ h)) (fun _ _ _ h => h.unlink _ _) s ref h

theorem Inv.mirror (h : s.Inv) {dst src : FifoId} (hdst : s.live dst) (hsrc : s.live src) :
    (s.fifoMirror dst src).Inv :=
  have hl := fifoMirror_listsOnly s dst src
  h.of_lists (h.symmetric.mirror dst src)
    (fun F d hm => by
      simp only [fifoMirror_dests] at hm; split_ifs at hm
      · simp only [BufferList.append, List.mem_append, List.mem_singleton] at hm
        exact hm.imp_right fun e => by subst e; exact hdst
      · exact .inl hm)
    (fun F d hm => by
      simp only [fifoMirror_sources] at hm; split_ifs at hm
      · simp only [BufferList.append, List.mem_append, List.mem_singleton] at hm
        exact hm.imp_right fun e => by subst e; exact hsrc
      · exact .inl hm)
    hl.live hl.next fun F => hl.numQueued F ▸ h.numNonneg F

theorem Inv.of_queuesOnly (h : s.Inv) (hq : s.QueuesOnly s') : s'.Inv :=
  h.of_sameLists hq.dests hq.sources hq.live hq.next (hq.numNonneg h.numNonneg)

theorem Inv.pull (h : s.Inv) {src : FifoId} {flags : Flags} {pop : Bool} {r : Ret} {out : Item}
    (hp : s.fifoPullFlags src flags pop = some (s', r, out)) : s'.Inv := by
  rcases fifoPullFlags_eq_some hp with ⟨-, hne, -, rfl⟩ | ⟨-, -, rfl⟩
  · unfold pullTake
    split_ifs
    · exact h.modify rfl rfl (by have := h.numNonneg src; simp only [Fifo.popHead]; omega)
    · exact h.congr (by simp) (by simp) (by simp)
  · rw [Fifo.pullLoop_fst]
    exact h.modify rfl rfl (h.numNonneg src)

/-- Every call keeps the invariant. -/
theorem Inv.exec (h : s.Inv) {op : Op} (hrun : s.CanRun op) (he : s.exec op = some s') :
    s'.Inv := by
  cases op with
  | create maxQueued flags => cases he; exact h.create maxQueued flags
  | destroy f => cases he; exact h.destroy (hrun.2 f rfl)
  | mirror dst src =>
    cases he; exact h.mirror (hrun.1 dst (by simp [Op.handles])) (hrun.1 src (by simp [Op.handles]))
  | unmirror dst src => rw [fifoUnmirror_eq_unlink he]; exact h.unlink src dst
  | unmirrorAll ref => cases he; exact h.unmirrorAll ref
  | push dst x =>
    obtain ⟨⟨_, _⟩, hp, rfl⟩ := Option.map_eq_some'.mp he
    exact h.of_queuesOnly (pushAux_queuesOnly hp)
  | pull src flags pop =>
    obtain ⟨⟨_, _, _⟩, hp, rfl⟩ := Option.map_eq_some'.mp he
    exact h.pull hp
  | poke ref => cases he; exact h.modify rfl rfl (h.numNonneg ref)
  | setMaxQueued dst n => cases he; exact h.modify rfl rfl (h.numNonneg dst)
  | setBlockFlags dst flags => cases he; exact h.modify rfl rfl (h.numNonneg dst)

theorem inv_init (allocOk : Nat → Bool) : (init allocOk).Inv where
  symmetric _ _ := rfl
  dests_live _ _ hm := by simp [init, Fifo.zero] at hm
  sources_live _ _ hm := by simp [init, Fifo.zero] at hm
  live_lt _ hF := by simp [init] at hF
  numNonneg _ := le_rfl

theorem Reachable.inv (h : s.Reachable) : s.Inv := by
  induction h with
  | init allocOk => exact inv_init allocOk
  | step op _ hrun he ih => exact ih.exec hrun he

end Preservation

/-- In every reachable store the lists are symmetric, so `fifo_unmirror` on a pair that is
linked passes both of its `assert`s. -/
theorem reachable_mirror_symmetric {s : Store} (h : s.Reachable) :
    s.Symmetric ∧ ∀ dst src, src ∈ (s.fifos dst).sources → (s.fifoUnmirror dst src).isSome :=
  ⟨h.inv.symmetric, fun _ _ => h.inv.symmetric.fifoUnmirror_isSome⟩

theorem reachable_mirror_symmetric_pair :
    let s := (((init fun _ => true).fifoCreate 2 Flags.none).2.fifoCreate 0
      Flags.none).2.fifoMirror 1 0
    s.Symmetric ∧ ∀ dst src, src ∈ (s.fifos dst).sources → (s.fifoUnmirror dst src).isSome :=
  reachable_mirror_symmetric
    ((((Reachable.init _).create 2 Flags.none).create 0 Flags.none).mirror 1 0 (by decide)
      (by decide))

/-- The fan-out law in the program's stores: a push that returns `0` appended, at every FIFO
that buffers, one clone of `x` per `dests`-path from `S`, and changed no other queue. Paths
are counted at any bound on their length past the number of FIFOs, so these are all the
paths: a push that returns `0` met no cycle. -/
theorem reachable_fifoPush_fanOut {s s' : Store} {S : FifoId} {x : Item} (hs : s.Reachable)
    (h : s.fifoPush S x = some (s', .ok)) {m : Nat} (hm : s.next + 1 ≤ m) :
    FanOut x (pathCount m s S) s s' := by
  obtain ⟨k, rfl⟩ := Nat.exists_eq_add_of_le hm
  rw [pushAux_pathCount_add h k]
  exact pushAux_fanOut hs.inv.numNonneg h

theorem reachable_fifoPush_fanOut_edge :
    let s := (((init fun _ => true).fifoCreate 2 Flags.none).2.fifoCreate 2 Flags.none).2.fifoMirror
      1 0
    FanOut (some 7) (pathCount 3 s 0) s ((s.fifoPush 0 (some 7)).getD (s, .ok)).1 :=
  reachable_fifoPush_fanOut
    ((((Reachable.init _).create 2 Flags.none).create 2 Flags.none).mirror 1 0 (by decide)
      (by decide)) (by rfl) (by decide)

end Store

end Txproto
