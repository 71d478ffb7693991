-- SUMMARY: A FIFO with max_queued = 0 only forwards, over every interleaving: no level of a push waits or stores there, so nothing is ever appended to it and its queue only loses items to pops.
import Txproto.Threads.Contents

/-!
# FIFOs that only forward

With `max_queued == 0`, `fifo_push` takes the lock and goes straight to `distribute:` (line
343): the FIFO hands its items on to its `dests` and keeps none. Over any interleaving in
which `F` keeps `max_queued = 0`, no level of a push at `F` is ever past its lock request but
in its loop (`Machine.PassesThrough`), so no step appends to `F` and its queue only loses
items to pops (`Machine.run_passes_through`).
-/

namespace Txproto

namespace Pc

/-- Every level of a push in progress satisfies `q` on its FIFO and its phase. -/
def PhasesOk (q : FifoId → PushPhase → Prop) (pc : Pc) : Prop :=
  ∀ g ∈ pc.frames, q g.fifo g.phase

variable {q : FifoId → PushPhase → Prop} {x : Item} {fr : Frame} {fs : List Frame}

@[simp] theorem phasesOk_signal (F : FifoId) (pc : Pc) :
    (pc.signal F).PhasesOk q ↔ pc.PhasesOk q := by
  simp only [PhasesOk, frames_signal]

theorem phasesOk_of_frames {pc : Pc} (h : pc.frames = []) : pc.PhasesOk q := by
  simp [PhasesOk, h]

/-- Thread `t` moves to `pc`, whose levels satisfy `q`. -/
theorem phasesOk_update {th : ThreadId → Pc} (h : ∀ u, (th u).PhasesOk q) (t : ThreadId)
    {pc : Pc} (hpc : pc.PhasesOk q) (u : ThreadId) : (Function.update th t pc u).PhasesOk q := by
  by_cases hu : u = t
  · subst hu; rw [Function.update_same]; exact hpc
  · rw [Function.update_noteq hu]; exact h u

/-- The top level moves to `fr'`. -/
theorem PhasesOk.top (h : (push x (fr :: fs)).PhasesOk q) (fr' : Frame)
    (hq : q fr'.fifo fr'.phase) : (push x (fr' :: fs)).PhasesOk q := by
  simp only [PhasesOk, frames, List.mem_cons, forall_eq_or_imp] at h ⊢
  exact ⟨hq, h.2⟩

/-- The top level returns to its caller's loop, or the call ends. -/
theorem PhasesOk.pushReturn (h : (push x (fr :: fs)).PhasesOk q) (r : Ret) :
    (Pc.pushReturn x fs r).PhasesOk q := by
  cases fs with
  | nil => exact phasesOk_of_frames rfl
  | cons p fs =>
    simp only [PhasesOk, frames, Pc.pushReturn, List.mem_cons, forall_eq_or_imp] at h ⊢
    exact h.2

/-- The loop calls the push on its next entry `d`, at its lock request. -/
theorem PhasesOk.descend {d : FifoId} {rest : List FifoId} (h : (push x (fr :: fs)).PhasesOk q)
    (c : CallId) (hd : q d .acquire) :
    (push x (⟨d, c, .acquire, [], .ok⟩ :: { fr with pending := rest } :: fs)).PhasesOk q := by
  simp only [PhasesOk, frames, List.mem_cons, forall_eq_or_imp] at h ⊢
  exact ⟨hd, h⟩

end Pc

namespace Machine

variable {A : ThreadId → Op → Prop} {m m' : Machine} {F : FifoId}

/-- No level of a push at `F` is past its lock request but in its loop: none waits on
`cond_out` at `F`, and none is at the store. -/
def PassesThrough (F : FifoId) (m : Machine) : Prop :=
  ∀ t, (m.threads t).PhasesOk fun G ph => G = F → ph = .acquire ∨ ph = .distribute

/-- One step from a state in which `F` has `max_queued = 0` keeps every level at `F` at its
lock request or in its loop: the capacity test sends it from the one to the other. -/
theorem PassesThrough.step (h : PassesThrough F m) (hF : (m.store.fifos F).maxQueued = 0)
    (hs : Step A m m') : PassesThrough F m' := by
  have hsig : ∀ G u, ((m.threads u).signal G).PhasesOk
      fun G ph => G = F → ph = .acquire ∨ ph = .distribute :=
    fun G u => (Pc.phasesOk_signal _ _).2 (h u)
  -- at `F` the capacity test always skips to the loop
  have hskip : ∀ (fr : Frame) (x : Item), (m.store.fifos fr.fifo).pushCheck x ≠ .skip →
      fr.fifo ≠ F := fun fr x hc hfr => hc (by rw [hfr]; simp [Fifo.pushCheck, hF])
  -- a level that has waited is not at `F`
  have hwait : ∀ t x fr fs, m.threads t = .push x (fr :: fs) →
      fr.phase ≠ .acquire → fr.phase ≠ .distribute → fr.fifo ≠ F := fun _ _ fr _ ht ha hd hfr => by
    have := h _ fr (by rw [ht]; exact List.mem_cons_self _ _) hfr
    tauto
  intro u
  cases hs with
  | startPush _ _ => exact Pc.phasesOk_update h _ (by simp [Pc.PhasesOk, Pc.frames]) u
  | startPull _ _ | startPoke _ _ | startSetMaxQueued _ _ | startSetBlockFlags _ _
  | startUnmirrorFail _ _ _ | startUnmirrorAll _ _ | pullTake _ _ _ _ | pullAbort _ _ _ _ _
  | pullAgain _ _ _ | pullWait _ _ _ | pullWake _ | pokeSet _ _ | setMaxQueued _ _
  | setBlockFlags _ _ | unmirrorFail _ _ | unmirrorAllLock _ _ | unmirrorAllSource _ _
  | unmirrorAllUnlinkSource _ | unmirrorAllSourcesDone _ _ | unmirrorAllDest _ _
  | unmirrorAllDone _ _ | startMirror _ _ | startUnmirror _ _ _ | mirrorDest _
  | unmirrorSource _ _ => exact Pc.phasesOk_update h _ (by exact Pc.phasesOk_of_frames rfl) u
  | pokeSignal _ | unmirrorAllUnlinkDest _ =>
    exact Pc.phasesOk_update (hsig _) _ (by exact Pc.phasesOk_of_frames rfl) u
  | pushSkip ht _ _ _ => exact Pc.phasesOk_update h _ ((ht ▸ h _).top _ fun _ => .inr rfl) u
  | pushAppend ht _ _ => exact Pc.phasesOk_update (hsig _) _ ((ht ▸ h _).top _ fun _ => .inr rfl) u
  | @pushLock t x fr fs ht _ _ hc | @pushWait t x fr fs ht _ _ hc =>
    exact Pc.phasesOk_update h _ ((ht ▸ h _).top _ fun hfr =>
      absurd hfr (hskip fr x (by rw [hc]; decide))) u
  | pushWake ht hp | pushReacquire ht hp _ =>
    exact Pc.phasesOk_update h _ ((ht ▸ h _).top _ fun hfr =>
      (hwait _ _ _ _ ht (by rw [hp]; decide) (by rw [hp]; decide) hfr).elim) u
  | pushFull ht _ _ _ | pushNoMem ht _ _ | pushDone ht _ _ =>
    exact Pc.phasesOk_update h _ ((ht ▸ h _).pushReturn _) u
  | pushDescend ht _ _ =>
    exact Pc.phasesOk_update h _ ((ht ▸ h _).descend _ fun _ => .inl rfl) u

/-- A FIFO with `max_queued = 0` only forwards, whatever the interleaving: over a run from a
store of the program in which `F` keeps `max_queued = 0`, no push waits on `cond_out` at `F` or
stores there, nothing is appended to `F`, and its queue is a suffix of its queue in `s`. -/
theorem run_passes_through {s : Store} (hs : s.Reachable) (h₀ : (s.fifos F).maxQueued = 0)
    (hrun : Relation.ReflTransGen (fun a b => Step A a b ∧ (b.store.fifos F).maxQueued = 0)
      (init s) m) :
    PassesThrough F m ∧ appendsAt F m.log = [] ∧ (m.store.fifos F).view <:+ (s.fifos F).view := by
  suffices H : (m.store.fifos F).maxQueued = 0 ∧ m.store.Fits ∧ PassesThrough F m ∧
      appendsAt F m.log = [] ∧ (m.store.fifos F).view <:+ (s.fifos F).view from H.2.2
  induction hrun with
  | refl => exact ⟨h₀, hs.fits, fun _ => Pc.phasesOk_of_frames rfl, rfl, List.suffix_refl _⟩
  | tail _ hstep ih =>
    obtain ⟨hF, hfit, hP, hlog, hsuf⟩ := ih
    refine ⟨hstep.2, hstep.1.fits hfit, hP.step hF hstep.1, ?_⟩
    rcases hstep.1.queue_cases hfit F with ⟨hv, ha⟩ | ⟨t, _, fr, _, _, ht, hfr, hp, -, -⟩ |
      ⟨_, _, _, -, -, -, hv, ha⟩
    · rw [hv, ha]; exact ⟨hlog, hsuf⟩
    · -- a level at `F` at the store
      have := hP t fr (by rw [ht]; exact List.mem_cons_self _ _) hfr
      rw [hp] at this
      simp at this
    · rw [hv, ha]; exact ⟨hlog, (List.tail_suffix _).trans hsuf⟩

/-- A push of item `7` to a FIFO with `max_queued = 0` and no `dests`, from its start to its
return. -/
theorem run_passes_through_push :
    let s := ((Store.init fun _ => true).fifoCreate 0 Flags.none).2
    ∃ m, Relation.ReflTransGen
        (fun a b => Step (fun _ _ => True) a b ∧ (b.store.fifos 0).maxQueued = 0) (init s) m ∧
      m.threads 0 = .idle ∧ (PassesThrough 0 m ∧ appendsAt 0 m.log = [] ∧
        (m.store.fifos 0).view <:+ (s.fifos 0).view) := by
  intro s
  have hrun := Relation.ReflTransGen.tail (Relation.ReflTransGen.tail
    (Relation.ReflTransGen.single
      (r := fun a b => Step (fun _ _ => True) a b ∧ (b.store.fifos 0).maxQueued = 0)
      (a := init s) ⟨@Step.startPush _ _ 0 0 (some 7) rfl trivial, rfl⟩)
    ⟨@Step.pushSkip _ _ 0 (some 7) ⟨0, 0, .acquire, [], .ok⟩ [] rfl rfl rfl rfl, rfl⟩)
    ⟨@Step.pushDone _ _ 0 (some 7) ⟨0, 0, .distribute, [], .ok⟩ [] rfl rfl rfl, rfl⟩
  exact ⟨_, hrun, rfl, run_passes_through ((Store.Reachable.init _).create 0 Flags.none) rfl hrun⟩

end Machine

end Txproto
