-- SUMMARY: The lock order of the threads: a thread holds FIFO mutexes along a dests-path and requests a successor of the last, so over an acyclic mirror graph no set of threads waits on each other's mutexes.
import Txproto.Threads.Machine
import Mathlib.Data.Fintype.Card
import Mathlib.Data.List.Chain
import Mathlib.Data.List.Nodup

/-!
# Lock order

Only `fifo_push` holds a lock while it requests another: each level of the recursion holds
its FIFO's lock through its `distribute:` loop, and the loop calls the push on an entry of
the FIFO's `dests`. Every other call holds at most one lock, and requests it holding none.

So if every `dests` edge of a run is an edge of a fixed graph `G`, a thread holds the locks of
a `G`-path, outermost first, and requests a `G`-successor of the last (`LockOrder`). Over an
acyclic `G` a set of threads, each requesting a lock that another of the set holds, would
give a `G`-cycle through the locks they request: no such set is reachable
(`reachable_lockOrder`).
-/

namespace Txproto

open Relation

/-- A level of `fifo_push` holds its FIFO's lock from the enqueue, or from the
`goto distribute`, to its return. -/
def Frame.holds (fr : Frame) : Bool :=
  match fr.phase with
  | .enqueue _ | .distribute => true
  | _ => false

namespace Pc

/-- The FIFOs whose lock the thread holds, outermost first. -/
def held : Pc → List FifoId
  | .push _ (fr :: fs) => (fs.map Frame.fifo).reverse ++ if fr.holds then [fr.fifo] else []
  | .unmirrorAll ref phase => if phase = .acquire then [] else [ref]
  | _ => []

/-- The FIFO whose lock the thread's next step takes. -/
def request : Pc → Option FifoId
  | .push _ (fr :: _) =>
    if fr.phase = .acquire ∨ fr.phase = .reacquire then some fr.fifo else none
  | .pull src _ _ (.acquire _) => some src
  | .poke ref false => some ref
  | .setMaxQueued dst _ | .setBlockFlags dst _ => some dst
  | .unmirrorAll ref .acquire => some ref
  | _ => none

/-- The frames of a push follow `G`: every level was called on an entry of its caller's
`dests`, every level below the top is in its loop, and every entry left in a loop is an
edge of `G`. -/
def FramesOk (G : FifoId → FifoId → Prop) : Pc → Prop
  | .push _ frames => frames.Chain' (fun c p => G p.fifo c.fifo) ∧
      (∀ fr ∈ frames.tail, fr.phase = .distribute) ∧ ∀ fr ∈ frames, ∀ d ∈ fr.pending, G fr.fifo d
  | _ => True

@[simp] theorem held_signal (F : FifoId) (pc : Pc) : (pc.signal F).held = pc.held := by
  unfold signal; split <;> rfl

@[simp] theorem request_signal (F : FifoId) (pc : Pc) : (pc.signal F).request = pc.request := by
  unfold signal; split <;> rfl

@[simp] theorem framesOk_signal (G : FifoId → FifoId → Prop) (F : FifoId) (pc : Pc) :
    (pc.signal F).FramesOk G ↔ pc.FramesOk G := by
  unfold signal; split <;> rfl

variable {G : FifoId → FifoId → Prop} {x : Item} {fr : Frame} {fs : List Frame}

/-- The caller a level returns to is in its loop, so holds its lock. -/
theorem held_pushReturn (h : (push x (fr :: fs)).FramesOk G) (r : Ret) :
    (pushReturn x fs r).held = (fs.map Frame.fifo).reverse := by
  cases fs with
  | nil => rfl
  | cons p fs =>
    have hp : p.phase = .distribute := h.2.1 p (List.mem_cons_self p fs)
    simp [pushReturn, held, Frame.holds, hp]

/-- A change of the top level that keeps its FIFO and whose entries left follow `G`. -/
theorem FramesOk.top (h : (push x (fr :: fs)).FramesOk G) (x' : Item) (fr' : Frame)
    (hfifo : fr'.fifo = fr.fifo) (hpend : ∀ d ∈ fr'.pending, G fr.fifo d) :
    (push x' (fr' :: fs)).FramesOk G := by
  obtain ⟨hc, ht, hd⟩ := h
  refine ⟨?_, ht, ?_⟩
  · cases fs with
    | nil => exact List.chain'_singleton _
    | cons p fs => exact List.chain'_cons.2 ⟨hfifo ▸ (List.chain'_cons.1 hc).1, hc.tail⟩
  · simp only [List.mem_cons, forall_eq_or_imp] at hd ⊢
    exact ⟨hfifo ▸ hpend, hd.2⟩

/-- The top level moves to another phase. -/
theorem FramesOk.setPhase (h : (push x (fr :: fs)).FramesOk G) (ph : PushPhase) :
    (push x ({ fr with phase := ph } :: fs)).FramesOk G :=
  h.top x _ rfl (h.2.2 fr (List.mem_cons_self _ _))

/-- The top level returns. -/
theorem FramesOk.pop (h : (push x (fr :: fs)).FramesOk G) (x' : Item) :
    (push x' fs).FramesOk G :=
  ⟨h.1.tail, fun q hq => h.2.1 q (List.mem_of_mem_tail hq),
    fun q hq => h.2.2 q (List.mem_cons_of_mem _ hq)⟩

theorem framesOk_pushReturn (h : (push x (fr :: fs)).FramesOk G) (r : Ret) :
    (pushReturn x fs r).FramesOk G := by
  cases fs with
  | nil => trivial
  | cons p fs =>
    have hd := (h.pop x).2.2 p (List.mem_cons_self _ _)
    exact (h.pop x).top x _ rfl fun d hd' => hd d (by split_ifs at hd' <;> simp_all)

/-- The loop calls the push on its next entry `d`. -/
theorem FramesOk.descend {d : FifoId} {rest : List FifoId} {c : CallId}
    (h : (push x (fr :: fs)).FramesOk G) (hp : fr.phase = .distribute)
    (hpend : fr.pending = d :: rest) :
    (push x (⟨d, c, .acquire, [], .ok⟩ :: { fr with pending := rest } :: fs)).FramesOk G := by
  have hd := h.2.2 fr (List.mem_cons_self _ _)
  obtain ⟨hc, ht, hd'⟩ := h.top x { fr with pending := rest } rfl
    fun e he => hd e (by simp [hpend, he])
  refine ⟨List.chain'_cons.2 ⟨hd d (by simp [hpend]), hc⟩, ?_, ?_⟩
  · simp only [List.tail_cons, List.mem_cons, forall_eq_or_imp]
    exact ⟨hp, ht⟩
  · simp only [List.mem_cons, forall_eq_or_imp] at hd' ⊢
    exact ⟨by simp, hd'⟩

/-- Every level below the top was reached from the top's FIFO backwards along `G`. -/
theorem transGen_of_chain : ∀ {fr : Frame} {fs : List Frame},
    (fr :: fs).Chain' (fun c p => G p.fifo c.fifo) → ∀ p ∈ fs, TransGen G p.fifo fr.fifo
  | _, [], _ => by simp
  | _, q :: qs, h => by
    have hq := (List.chain'_cons.1 h).1
    simp only [List.mem_cons, forall_eq_or_imp]
    exact ⟨.single hq, fun p hp => (transGen_of_chain h.tail p hp).tail hq⟩

/-- A level that requests its lock does not hold it. -/
theorem holds_of_request {f : FifoId} (hr : (push x (fr :: fs)).request = some f) :
    fr.holds = false ∧ fr.fifo = f := by
  simp only [request, Option.ite_none_right_eq_some, Option.some.injEq] at hr
  exact ⟨by rcases hr.1 with hp | hp <;> simp [Frame.holds, hp], hr.2⟩

/-- The locks a thread holds form a `G`-path. -/
theorem held_chain {pc : Pc} (h : pc.FramesOk G) : pc.held.Chain' G := by
  cases pc with
  | push x frames =>
    cases frames with
    | nil => exact List.chain'_nil
    | cons fr fs =>
      have hr : ((fr :: fs).map Frame.fifo).reverse.Chain' G :=
        List.chain'_reverse.2 ((List.chain'_map Frame.fifo).2 h.1)
      simp only [List.map_cons, List.reverse_cons] at hr
      simp only [held]; split_ifs
      · exact hr
      · simpa using hr.left_of_append
  | unmirrorAll ref phase => simp only [held]; split_ifs <;> simp
  | _ => exact List.chain'_nil

/-- A thread that requests a lock holds only locks that reach it along `G`. -/
theorem transGen_request {pc : Pc} {f : FifoId} (h : pc.FramesOk G) (hr : pc.request = some f) :
    ∀ g ∈ pc.held, TransGen G g f := by
  cases pc with
  | push x frames =>
    cases frames with
    | nil => simp [held]
    | cons fr fs =>
      obtain ⟨hnh, rfl⟩ := holds_of_request hr
      simpa [held, hnh] using transGen_of_chain h.1
  | unmirrorAll ref phase => cases phase <;> simp_all [held, request]
  | _ => simp [held]

/-- A thread requests a `G`-successor of the last lock it holds. -/
theorem request_succ {pc : Pc} {f : FifoId} (h : pc.FramesOk G) (hr : pc.request = some f) :
    ∀ g ∈ pc.held.getLast?, G g f := by
  cases pc with
  | push x frames =>
    cases frames with
    | nil => simp [held]
    | cons fr fs =>
      obtain ⟨hnh, rfl⟩ := holds_of_request hr
      cases fs with
      | nil => simp [held, hnh]
      | cons p fs => simpa [held, hnh, List.getLast?_reverse] using (List.chain'_cons.1 h.1).1
  | unmirrorAll ref phase => cases phase <;> simp_all [held, request]
  | _ => simp [held]

/-- The levels of a push in progress, innermost first. -/
def frames : Pc → List Frame
  | .push _ fs => fs
  | _ => []

@[simp] theorem frames_signal (F : FifoId) (pc : Pc) : (pc.signal F).frames = pc.frames := by
  unfold signal; split <;> rfl

/-- A level that holds its lock has its FIFO among the thread's locks. -/
theorem fifo_mem_held {pc : Pc} {g : Frame} (hg : g ∈ pc.frames) (hh : g.holds = true) :
    g.fifo ∈ pc.held := by
  cases pc with
  | push x fs =>
    cases fs with
    | nil => simp [frames] at hg
    | cons fr fs =>
      simp only [frames, List.mem_cons] at hg
      rcases hg with rfl | hg
      · simp [held, hh]
      · simp [held, List.mem_map.2 ⟨g, hg, rfl⟩]
  | _ => simp [frames] at hg

/-- A thread holds a lock once, so two of its levels that hold a lock hold different ones. -/
theorem holds_inj {pc : Pc} (hnd : pc.held.Nodup) {g h : Frame} (hg : g ∈ pc.frames)
    (hh : h ∈ pc.frames) (hgh : g.holds = true) (hhh : h.holds = true) (he : g.fifo = h.fifo) :
    g = h := by
  cases pc with
  | push x fs =>
    cases fs with
    | nil => simp [frames] at hg
    | cons fr fs =>
      simp only [held] at hnd
      have hfs : (fs.map Frame.fifo).Nodup := List.nodup_reverse.1 (List.Nodup.of_append_left hnd)
      have hfr : fr.holds = true → fr.fifo ∉ fs.map Frame.fifo := fun hfr hm => by
        simp only [hfr, if_true, List.nodup_append, List.mem_reverse, List.mem_singleton] at hnd
        exact hnd.2.2 (List.mem_reverse.2 hm) (List.mem_singleton_self _)
      simp only [frames, List.mem_cons] at hg hh
      rcases hg with rfl | hg <;> rcases hh with rfl | hh
      · rfl
      · exact absurd (he ▸ List.mem_map_of_mem Frame.fifo hh) (hfr hgh)
      · exact absurd (he ▸ List.mem_map_of_mem Frame.fifo hg) (hfr hhh)
      · exact List.inj_on_of_nodup_map hfs hg hh he
  | _ => simp [frames] at hg

end Pc

namespace Machine

section LockOrder

variable {G : FifoId → FifoId → Prop}

/-- The lock discipline of a state: `owner` records exactly the locks the threads hold, no
thread holds a lock twice, and the frames of every push follow `G`. -/
structure LockOrder (G : FifoId → FifoId → Prop) (m : Machine) : Prop where
  owner_iff : ∀ f t, m.owner f = some t ↔ f ∈ (m.threads t).held
  nodup : ∀ t, (m.threads t).held.Nodup
  frames : ∀ t, (m.threads t).FramesOk G

/-- Some thread of a set `S` requests a lock, and each request is for a lock that a thread of
`S` holds: none of them can take a step that needs its lock. -/
def Deadlock (m : Machine) : Prop :=
  ∃ S : Finset ThreadId, S.Nonempty ∧
    ∀ t ∈ S, ∃ f, (m.threads t).request = some f ∧ ∃ u ∈ S, m.owner f = some u

variable {m : Machine}

theorem LockOrder.not_mem_held (h : m.LockOrder G) {f : FifoId} (hf : m.owner f = none)
    (u : ThreadId) : f ∉ (m.threads u).held := fun hm => by
  rw [(h.owner_iff f u).2 hm] at hf; cases hf

theorem LockOrder.setStore (h : m.LockOrder G) (s : Store) : (m.setStore s).LockOrder G :=
  ⟨h.1, h.2, h.3⟩

theorem LockOrder.fresh (h : m.LockOrder G) : m.fresh.LockOrder G := ⟨h.1, h.2, h.3⟩

theorem LockOrder.logAppend (h : m.LockOrder G) (F : FifoId) (x : Item) (fs : List Frame) :
    (m.logAppend F x fs).LockOrder G := ⟨h.1, h.2, h.3⟩

theorem LockOrder.signal (h : m.LockOrder G) (F : FifoId) : (m.signal F).LockOrder G :=
  ⟨by simpa using h.1, by simpa using h.2, by simpa using h.3⟩

/-- Thread `t` moves to `pc`, holding the same locks. -/
theorem LockOrder.setPc (h : m.LockOrder G) {t : ThreadId} {pc : Pc}
    (hheld : pc.held = (m.threads t).held) (hf : pc.FramesOk G) : (m.setPc t pc).LockOrder G := by
  have key : ∀ u, ((m.setPc t pc).threads u).held = (m.threads u).held := fun u => by
    by_cases hu : u = t <;> simp [Function.update_apply, hu, hheld]
  refine ⟨fun f u => key u ▸ h.owner_iff f u, fun u => key u ▸ h.nodup u, fun u => ?_⟩
  by_cases hu : u = t <;> simp [Function.update_apply, hu, hf, h.frames u]

/-- Thread `t` takes the free lock of `f` and moves to `pc`. -/
theorem LockOrder.acquire (h : m.LockOrder G) {t : ThreadId} {pc : Pc} {f : FifoId}
    (hfree : m.owner f = none) (hheld : pc.held = (m.threads t).held ++ [f])
    (hf : pc.FramesOk G) : ((m.setOwner f (some t)).setPc t pc).LockOrder G := by
  have hnm := h.not_mem_held hfree
  refine ⟨fun g u => ?_, fun u => ?_, fun u => ?_⟩
  · by_cases hg : g = f
    · subst hg
      by_cases hu : u = t
      · subst hu; simp [hheld]
      · simp [Function.update_apply, hu, hnm u, Ne.symm hu]
    · by_cases hu : u = t <;> simp [Function.update_apply, hu, hg, hheld, h.owner_iff]
  · by_cases hu : u = t
    · simp [Function.update_apply, hu, hheld, List.nodup_append, h.nodup t, hnm t]
    · simp [Function.update_apply, hu, h.nodup u]
  · by_cases hu : u = t <;> simp [Function.update_apply, hu, hf, h.frames u]

/-- Thread `t` releases the last lock it holds, `f`, and moves to `pc`. -/
theorem LockOrder.release (h : m.LockOrder G) {t : ThreadId} {pc : Pc} {f : FifoId}
    (hheld : (m.threads t).held = pc.held ++ [f]) (hf : pc.FramesOk G) :
    ((m.setOwner f none).setPc t pc).LockOrder G := by
  have hown : m.owner f = some t := (h.owner_iff f t).2 (by simp [hheld])
  have hnd := h.nodup t
  rw [hheld, List.nodup_append] at hnd
  have hnt : f ∉ pc.held := fun hm => hnd.2.2 hm (List.mem_singleton_self f)
  refine ⟨fun g u => ?_, fun u => ?_, fun u => ?_⟩
  · by_cases hg : g = f
    · subst hg
      by_cases hu : u = t
      · simp [Function.update_apply, hu, hnt]
      · have : g ∉ (m.threads u).held := fun hm => hu (Option.some.inj
          (((h.owner_iff g u).2 hm).symm.trans hown))
        simp [Function.update_apply, hu, this]
    · by_cases hu : u = t
      · subst hu; simp [Function.update_apply, hg, h.owner_iff, hheld]
      · simp [Function.update_apply, hu, hg, h.owner_iff]
  · by_cases hu : u = t
    · simp [Function.update_apply, hu, hnd.1]
    · simp [Function.update_apply, hu, h.nodup u]
  · by_cases hu : u = t <;> simp [Function.update_apply, hu, hf, h.frames u]

theorem lockOrder_init (s : Store) : (init s).LockOrder G :=
  ⟨fun _ _ => by simp [init, Pc.held], fun _ => by simp [init, Pc.held],
    fun _ => trivial⟩

theorem LockOrder.framesOf (h : m.LockOrder G) {t : ThreadId} {pc : Pc} (ht : m.threads t = pc) :
    pc.FramesOk G :=
  ht ▸ h.frames t

/-- One step keeps the discipline, when the `dests` edges after it are edges of `G`: the
loops take their entries from `dests`. -/
theorem LockOrder.step {A : ThreadId → Op → Prop} {m' : Machine} (h : m.LockOrder G)
    (hs : Step A m m') (hP : ∀ S D, D ∈ (m'.store.fifos S).dests → G S D) : m'.LockOrder G := by
  cases hs with
  | startPush ht _ => exact (h.setPc (by simp [ht, Pc.held, Frame.holds]) (by simp [Pc.FramesOk])).fresh
  | startPull ht _ | startPoke ht _ | startSetMaxQueued ht _ | startSetBlockFlags ht _
  | startUnmirrorFail ht _ _ | startUnmirrorAll ht _ | pullAbort ht _ _ _ _ | pullWake ht
  | unmirrorFail ht _ => exact h.setPc (by simp [ht, Pc.held]) trivial
  | startMirror ht _ | startUnmirror ht _ _ | pullTake ht _ _ _ | pullAgain ht _ _
  | pullWait ht _ _ | pokeSet ht _ | setMaxQueued ht _ | setBlockFlags ht _ | mirrorDest ht
  | unmirrorSource ht _ | unmirrorAllSource ht _ | unmirrorAllUnlinkSource ht
  | unmirrorAllSourcesDone ht _ | unmirrorAllDest ht _ =>
    exact (h.setStore _).setPc (by simp [ht, Pc.held]) trivial
  | pokeSignal ht => exact (h.signal _).setPc (by simp [ht, Pc.held, Pc.signal]) trivial
  | unmirrorAllUnlinkDest ht =>
    exact ((h.setStore _).signal _).setPc (by simp [ht, Pc.held, Pc.signal]) trivial
  | unmirrorAllLock ht hfree => exact h.acquire hfree (by simp [ht, Pc.held]) trivial
  | unmirrorAllDone ht _ => exact (h.setStore _).release (by simp [ht, Pc.held]) trivial
  | pushSkip ht hp hfree _ =>
    exact h.acquire hfree (by simp [ht, Pc.held, Frame.holds, hp])
      ((h.framesOf ht).top _ _ rfl fun d hd => hP _ _ hd)
  | pushLock ht hp hfree _ | pushReacquire ht hp hfree =>
    exact h.acquire hfree (by simp [ht, Pc.held, Frame.holds, hp]) ((h.framesOf ht).setPhase _)
  | pushWait ht hp _ _ | pushWake ht hp =>
    exact h.setPc (by simp [ht, Pc.held, Frame.holds, hp]) ((h.framesOf ht).setPhase _)
  | pushFull ht hp _ _ =>
    have hf := h.framesOf ht
    exact h.setPc (by rw [Pc.held_pushReturn hf]; simp [ht, Pc.held, Frame.holds, hp])
      (Pc.framesOk_pushReturn hf _)
  | pushNoMem ht hp _ =>
    have hf := h.framesOf ht
    exact (h.setStore _).release (by rw [Pc.held_pushReturn hf]; simp [ht, Pc.held, Frame.holds, hp])
      (Pc.framesOk_pushReturn hf _)
  | pushAppend ht hp _ =>
    exact (((h.setStore _).logAppend _ _ _).signal _).setPc
      (by simp [ht, Pc.held, Pc.signal, Frame.holds, hp])
      ((h.framesOf ht).top _ _ rfl fun d hd => hP _ _ hd)
  | pushDescend ht hp hpend =>
    exact (h.setPc (by simp [ht, Pc.held, Frame.holds, hp]) ((h.framesOf ht).descend hp hpend)).fresh
  | pushDone ht hp _ =>
    have hf := h.framesOf ht
    exact h.release (by rw [Pc.held_pushReturn hf]; simp [ht, Pc.held, Frame.holds, hp])
      (Pc.framesOk_pushReturn hf _)

/-- Every state of a run whose `dests` edges are edges of `G` keeps the discipline. -/
theorem Reachable.lockOrder {A : ThreadId → Op → Prop}
    (hm : Reachable A (fun m => ∀ S D, D ∈ (m.store.fifos S).dests → G S D) m) :
    m.LockOrder G := by
  induction hm with
  | init _ _ => exact lockOrder_init _
  | step _ hs hP ih => exact ih.step hs hP

/-- Over an acyclic `G`, threads of a finite set cannot each request a lock that reaches,
along `G`, a lock another thread of the set requests. -/
theorem not_transGen_cycle (hG : ∀ f, ¬ TransGen G f f) {S : Finset ThreadId}
    (hS : S.Nonempty) (k : ThreadId → FifoId) (h : ∀ t ∈ S, ∃ u ∈ S, TransGen G (k t) (k u)) :
    False := by
  let r : S → S → Prop := fun a b => TransGen G (k b) (k a)
  haveI : IsTrans S r := ⟨fun _ _ _ hab hbc => hbc.trans hab⟩
  haveI : IsIrrefl S r := ⟨fun a => hG (k a)⟩
  obtain ⟨t, ht⟩ := hS
  obtain ⟨a, -, ha⟩ := (Finite.wellFounded_of_trans_of_irrefl r).has_min Set.univ ⟨⟨t, ht⟩, trivial⟩
  obtain ⟨u, hu, htu⟩ := h a a.2
  exact ha ⟨u, hu⟩ trivial htu

/-- Under the discipline and an acyclic `G`, the threads that request a lock held by a thread
of their own set are always an empty set. -/
theorem LockOrder.not_deadlock (h : m.LockOrder G) (hG : ∀ f, ¬ TransGen G f f) :
    ¬ m.Deadlock := by
  rintro ⟨S, hS, hd⟩
  refine not_transGen_cycle hG hS (fun t => ((m.threads t).request).getD 0) fun t ht => ?_
  obtain ⟨f, hr, u, hu, ho⟩ := hd t ht
  obtain ⟨f', hr', -⟩ := hd u hu
  refine ⟨u, hu, ?_⟩
  simpa [hr, hr'] using Pc.transGen_request (h.frames u) hr' f ((h.owner_iff f u).1 ho)

/-- Over a graph `G` that holds every `dests` edge of the run, each thread holds the locks of a
`G`-path and requests a `G`-successor of the last; when `G` is acyclic, no set of threads
each waits for a lock that a thread of the set holds. -/
theorem reachable_lockOrder {A : ThreadId → Op → Prop} (hG : ∀ f, ¬ TransGen G f f)
    (hm : Reachable A (fun m => ∀ S D, D ∈ (m.store.fifos S).dests → G S D) m) :
    (∀ t, (m.threads t).held.Chain' G ∧
      ∀ f, (m.threads t).request = some f → ∀ g ∈ (m.threads t).held.getLast?, G g f) ∧
    ¬ m.Deadlock :=
  ⟨fun t => ⟨Pc.held_chain (hm.lockOrder.frames t),
    fun _ hr => Pc.request_succ (hm.lockOrder.frames t) hr⟩, hm.lockOrder.not_deadlock hG⟩

/-- FIFO `0` mirrored into `1`; a push to `0` has stored its item and calls the push on `1`:
the thread holds `0` and requests `1`. -/
theorem reachable_lockOrder_descend :
    let s := (((Store.init fun _ => true).fifoCreate 2 Flags.none).2.fifoCreate 2
      Flags.none).2.fifoMirror 1 0
    let m₁ := ((init s).setPc 0 (.push (some 7) [⟨0, 0, .acquire, [], .ok⟩])).fresh
    let m₂ := (m₁.setOwner 0 (some 0)).setPc 0 (.push (some 7) [⟨0, 0, .enqueue false, [], .ok⟩])
    let m₃ := (((m₂.setStore (s.pushEnqueue 0 (some 7)).2).logAppend 0 (some 7)
      [⟨0, 0, .enqueue false, [], .ok⟩]).signal 0).setPc 0
      (.push (some 7) [⟨0, 0, .distribute, [1], .ok⟩])
    let m₄ := (m₃.setPc 0 (.push (some 7) [⟨1, 1, .acquire, [], .ok⟩, ⟨0, 0, .distribute, [], .ok⟩])).fresh
    (m₄.threads 0).held = [0] ∧ (m₄.threads 0).request = some 1 ∧
      (∀ t, (m₄.threads t).held.Chain' (· < ·) ∧
        ∀ f, (m₄.threads t).request = some f → ∀ g ∈ (m₄.threads t).held.getLast?, g < f) ∧
      ¬ m₄.Deadlock := by
  intro s m₁ m₂ m₃ m₄
  have hs : ∀ S D, D ∈ (s.fifos S).dests → S < D := fun S D hD => by
    have e : (((Store.init fun _ => true).fifoCreate 2 Flags.none).2.fifoCreate 2
        Flags.none).2.fifos = Function.update (Function.update (fun _ => Fifo.zero) 0
          (Store.newFifo 2 Flags.none)) 1 (Store.newFifo 2 Flags.none) := rfl
    simp only [s, Store.fifoMirror_dests, e, Function.update_apply] at hD
    split_ifs at hD <;> simp_all [Store.newFifo, Fifo.zero, BufferList.append]
  have hs' : ∀ S D, D ∈ ((s.pushEnqueue 0 (some 7)).2.fifos S).dests → S < D := fun S D hD =>
    hs S D ((s.pushEnqueue_queuesOnly 0 _).dests S ▸ hD)
  have h₀ : s.Reachable :=
    (((Store.Reachable.init _).create 2 Flags.none).create 2 Flags.none).mirror 1 0 (by decide)
      (by decide)
  have h₁ : Reachable (fun _ _ => True) (fun m => ∀ S D, D ∈ (m.store.fifos S).dests → S < D) m₁ :=
    .step (.init h₀ hs) (@Step.startPush _ _ 0 0 (some 7) rfl trivial) hs
  have h₂ : Reachable _ _ m₂ := .step h₁ (@Step.pushLock _ _ 0 (some 7) ⟨0, 0, .acquire, [], .ok⟩ [] rfl rfl rfl rfl) hs
  have h₃ : Reachable _ _ m₃ := .step h₂
    (@Step.pushAppend _ _ 0 (some 7) ⟨0, 0, .enqueue false, [], .ok⟩ [] false _ rfl rfl rfl) hs'
  have h₄ : Reachable _ _ m₄ := .step h₃
    (@Step.pushDescend _ _ 0 (some 7) ⟨0, 0, .distribute, [1], .ok⟩ [] 1 [] rfl rfl rfl) hs'
  have hG : ∀ f : FifoId, ¬ TransGen (· < ·) f f := fun f h =>
    lt_irrefl f (transGen_eq_self (transitive_lt (α := FifoId)) ▸ h)
  exact ⟨rfl, rfl, reachable_lockOrder hG h₄⟩

end LockOrder

end Machine

end Txproto
