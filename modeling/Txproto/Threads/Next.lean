-- SUMMARY: The machine's step computed: the start of each call and the next step of a thread inside a call are functions of the state, the step relation is exactly these, and a thread that runs alone has one run.
import Txproto.Threads.Machine
import Mathlib.Logic.Relation

/-!
# The step, computed

`Machine.Step` lists the atomic steps of the program rule by rule. Which rule applies to a
thread is fixed by where the thread is and by the shared state it tests there, so the step
is a function: `Machine.start` is the first step of a call, and `Machine.next` the step of a
thread inside one, `none` when the thread is idle, has failed, or requests a mutex some
thread holds. The step relation is these two and nothing else (`step_iff`).

The one choice the machine makes is the thread that moves. When all threads but `t` are
idle and stay idle, every step is `t`'s computed step (`next_of_step_alone`), so `t` has one
run, and two runs of it that reach the end of its call end in the same state
(`Next.eq_of_runs`).
-/

namespace Txproto

namespace Machine

/-- The step of a thread at level `fr` of a push, with the levels `fs` below it. -/
def pushNext (m : Machine) (t : ThreadId) (x : Item) (fr : Frame) (fs : List Frame) :
    Option Machine :=
  match fr.phase with
  | .acquire =>
    if m.owner fr.fifo = none then
      some <| match (m.store.fifos fr.fifo).pushCheck x with
        | .skip => (m.setOwner fr.fifo (some t)).setPc t
            (.push x ({ fr with phase := .distribute, pending := (m.store.fifos fr.fifo).dests }
              :: fs))
        | .full => m.setPc t (Pc.pushReturn x fs .enobufs)
        | .wait => m.setPc t (.push x ({ fr with phase := .waitOut } :: fs))
        | .enqueue => (m.setOwner fr.fifo (some t)).setPc t
            (.push x ({ fr with phase := .enqueue false } :: fs))
    else none
  | .waitOut => some (m.setPc t (.push x ({ fr with phase := .reacquire } :: fs)))
  | .reacquire =>
    if m.owner fr.fifo = none then
      some ((m.setOwner fr.fifo (some t)).setPc t
        (.push x ({ fr with phase := .enqueue true } :: fs)))
    else none
  | .enqueue _ =>
    some <| match m.store.pushEnqueue fr.fifo x with
      | (false, s') => ((m.setStore s').setOwner fr.fifo none).setPc t
          (Pc.pushReturn x fs .enomem)
      | (true, s') => (((m.setStore s').logAppend fr.fifo x (fr :: fs)).signal fr.fifo).setPc t
          (.push x ({ fr with phase := .distribute, pending := (s'.fifos fr.fifo).dests } :: fs))
  | .distribute =>
    some <| match fr.pending with
      | [] => (m.setOwner fr.fifo none).setPc t (Pc.pushReturn x fs fr.err)
      | d :: rest => (m.setPc t
          (.push x (⟨d, m.nextCall, .acquire, [], .ok⟩ :: { fr with pending := rest } :: fs))).fresh

/-- The step of a thread in `fifo_pull_flags`. -/
def pullNext (m : Machine) (t : ThreadId) (src : FifoId) (flags : Flags) (pop : Bool) :
    PullPhase → Option Machine
  | .acquire resume =>
    if m.owner src = none then
      some <| match (pullSection resume flags (m.store.fifos src)).2 with
        | .take =>
          if pop = true ∧ (m.store.fifos src).numQueued - 1 < 0 then m.setPc t .failed
          else (m.setStore ((m.store.modify src fun _ =>
            (pullSection resume flags (m.store.fifos src)).1).pullTake src pop).1).setPc t .idle
        | .again => (m.setStore (m.store.modify src fun _ =>
            (pullSection resume flags (m.store.fifos src)).1)).setPc t .idle
        | .wait => (m.setStore (m.store.modify src fun _ =>
            (pullSection resume flags (m.store.fifos src)).1)).setPc t
            (.pull src flags pop (.wait false))
    else none
  | .wait _ => some (m.setPc t (.pull src flags pop (.acquire true)))

/-- The step of a thread in `fifo_unmirror_all`. -/
def unmirrorAllNext (m : Machine) (t : ThreadId) (ref : FifoId) :
    UnmirrorAllPhase → Option Machine
  | .acquire =>
    if m.owner ref = none then
      some ((m.setOwner ref (some t)).setPc t (.unmirrorAll ref .sources))
    else none
  | .sources =>
    some <| match m.store.popFirstSource ref with
      | (some src, s') => (m.setStore s').setPc t (.unmirrorAll ref (.source src))
      | (none, s') => (m.setStore s').setPc t (.unmirrorAll ref .dests)
  | .source src =>
    some ((m.setStore (m.store.popDest src ref).2).setPc t (.unmirrorAll ref .sources))
  | .dests =>
    some <| match m.store.popFirstDest ref with
      | (some dst, s') => (m.setStore s').setPc t (.unmirrorAll ref (.dest dst))
      | (none, s') => ((m.setStore s').setOwner ref none).setPc t .idle
  | .dest dst =>
    some (((m.setStore (m.store.popSource dst ref).2).signal dst).setPc t
      (.unmirrorAll ref .dests))

/-- The step of thread `t` at `pc`. -/
def nextAt (m : Machine) (t : ThreadId) : Pc → Option Machine
  | .idle | .failed | .push _ [] => none
  | .push x (fr :: fs) => m.pushNext t x fr fs
  | .pull src flags pop phase => m.pullNext t src flags pop phase
  | .poke ref false =>
    if m.owner ref = none then
      some ((m.setStore (m.store.fifoPoke ref)).setPc t (.poke ref true))
    else none
  | .poke ref true => some ((m.signal ref).setPc t .idle)
  | .setMaxQueued dst n =>
    if m.owner dst = none then
      some ((m.setStore (m.store.fifoSetMaxQueued dst n)).setPc t .idle)
    else none
  | .setBlockFlags dst flags =>
    if m.owner dst = none then
      some ((m.setStore (m.store.fifoSetBlockFlags dst flags)).setPc t .idle)
    else none
  | .mirror dst src => some ((m.setStore (m.store.appendDest src dst)).setPc t .idle)
  | .unmirror dst src =>
    some <| match m.store.popSource dst src with
      | (some _, s') => (m.setStore s').setPc t .idle
      | (none, _) => m.setPc t .failed
  | .unmirrorAll ref phase => m.unmirrorAllNext t ref phase

/-- The step of thread `t` inside a call: `none` when it is idle or has failed, or requests a
mutex some thread holds. -/
def next (m : Machine) (t : ThreadId) : Option Machine := m.nextAt t (m.threads t)

/-- The first step of a call by thread `t`; `none` for the calls of the setup. -/
def start (m : Machine) (t : ThreadId) : Op → Option Machine
  | .push dst x => some ((m.setPc t (.push x [⟨dst, m.nextCall, .acquire, [], .ok⟩])).fresh)
  | .pull src flags pop => some (m.setPc t (.pull src flags pop (.acquire false)))
  | .poke ref => some (m.setPc t (.poke ref false))
  | .setMaxQueued dst n => some (m.setPc t (.setMaxQueued dst n))
  | .setBlockFlags dst flags => some (m.setPc t (.setBlockFlags dst flags))
  | .mirror dst src =>
    some ((m.setStore (m.store.appendSource dst src)).setPc t (.mirror dst src))
  | .unmirror dst src =>
    some <| match m.store.popDest src dst with
      | (some _, s') => (m.setStore s').setPc t (.unmirror dst src)
      | (none, _) => m.setPc t .failed
  | .unmirrorAll ref => some (m.setPc t (.unmirrorAll ref .acquire))
  | .create _ _ | .destroy _ => none

/-- Thread `t` takes its computed step from `m` to `m'`. -/
def Next (t : ThreadId) (m m' : Machine) : Prop := m.next t = some m'

variable {A : ThreadId → Op → Prop} {m m' : Machine} {t : ThreadId}

theorem next_eq {pc : Pc} (ht : m.threads t = pc) : m.next t = m.nextAt t pc := by
  rw [next, ht]

theorem exists_next {pc : Pc} (ht : m.threads t = pc) (h : m.nextAt t pc = some m') :
    ∃ t, m.next t = some m' :=
  ⟨t, (next_eq ht).trans h⟩

@[simp] theorem next_idle (ht : m.threads t = .idle) : m.next t = none := by
  rw [next_eq ht, nextAt]

/-- A call's first step leaves its thread inside the call, and no other thread moves. -/
theorem start_threads {op : Op} (h : m.start t op = some m') :
    m'.threads t ≠ .idle ∧ ∀ u ≠ t, m'.threads u = m.threads u := by
  cases op <;> simp only [start, Option.some.injEq, reduceCtorEq] at h
  case unmirror dst src =>
    rcases hp : m.store.popDest src dst with ⟨_ | _, s'⟩ <;> simp only [hp] at h <;> subst h <;>
      simp +contextual [Function.update_noteq]
  all_goals subst h; simp +contextual [Function.update_noteq]

/-- Every first step the function computes is a step of the machine. -/
theorem Step.of_start {op : Op} (ht : m.threads t = .idle) (hA : A t op)
    (h : m.start t op = some m') : Step A m m' := by
  cases op with
  | create _ _ | destroy _ => cases h
  | push => cases h; exact .startPush ht hA
  | pull => cases h; exact .startPull ht hA
  | poke => cases h; exact .startPoke ht hA
  | setMaxQueued => cases h; exact .startSetMaxQueued ht hA
  | setBlockFlags => cases h; exact .startSetBlockFlags ht hA
  | mirror => cases h; exact .startMirror ht hA
  | unmirrorAll => cases h; exact .startUnmirrorAll ht hA
  | unmirror dst src =>
    rcases hp : m.store.popDest src dst with ⟨_ | _, s'⟩ <;>
      simp only [start, hp, Option.some.injEq] at h <;> subst h
    · exact .startUnmirrorFail ht hA hp
    · exact .startUnmirror ht hA hp

/-- Every step of a push that the function computes is a step of the machine. -/
theorem Step.of_pushNext {x : Item} {fr : Frame} {fs : List Frame}
    (ht : m.threads t = .push x (fr :: fs)) (h : m.pushNext t x fr fs = some m') :
    Step A m m' := by
  rcases hp : fr.phase with _ | _ | _ | w | _ <;> simp only [pushNext, hp] at h
  case acquire =>
    split_ifs at h with ho
    rcases hc : (m.store.fifos fr.fifo).pushCheck x <;>
      simp only [hc, Option.some.injEq] at h <;> subst h
    · exact .pushSkip ht hp ho hc
    · exact .pushFull ht hp ho hc
    · exact .pushWait ht hp ho hc
    · exact .pushLock ht hp ho hc
  case waitOut => cases h; exact .pushWake ht hp
  case reacquire => split_ifs at h with ho; cases h; exact .pushReacquire ht hp ho
  case enqueue =>
    rcases he : m.store.pushEnqueue fr.fifo x with ⟨_ | _, s'⟩ <;>
      simp only [he, Option.some.injEq] at h <;> subst h
    · exact .pushNoMem ht hp he
    · exact .pushAppend ht hp he
  case distribute =>
    rcases hd : fr.pending with _ | ⟨d, rest⟩ <;> simp only [hd, Option.some.injEq] at h <;>
      subst h
    · exact .pushDone ht hp hd
    · have h := Step.pushDescend (A := A) ht hp hd
      rwa [hp] at h

/-- Every step of a pull that the function computes is a step of the machine. -/
theorem Step.of_pullNext {src : FifoId} {flags : Flags} {pop : Bool} {phase : PullPhase}
    (ht : m.threads t = .pull src flags pop phase) (h : m.pullNext t src flags pop phase = some m') :
    Step A m m' := by
  cases phase with
  | wait sig => cases h; exact .pullWake ht
  | acquire resume =>
    by_cases ho : m.owner src = none
    · rcases hx : (pullSection resume flags (m.store.fifos src)).2 <;>
        simp only [pullNext, ho, hx, if_true, Option.some.injEq] at h <;> subst h
      · split_ifs with hneg
        · exact .pullAbort ht ho hx hneg.1 hneg.2
        · exact .pullTake ht ho hx hneg
      · exact .pullAgain ht ho hx
      · exact .pullWait ht ho hx
    · simp [pullNext, ho] at h

/-- Every step of `fifo_unmirror_all` that the function computes is a step of the machine. -/
theorem Step.of_unmirrorAllNext {ref : FifoId} {phase : UnmirrorAllPhase}
    (ht : m.threads t = .unmirrorAll ref phase) (h : m.unmirrorAllNext t ref phase = some m') :
    Step A m m' := by
  cases phase with
  | acquire =>
    simp only [unmirrorAllNext] at h
    split_ifs at h with ho
    cases h; exact .unmirrorAllLock ht ho
  | source src => cases h; exact .unmirrorAllUnlinkSource ht
  | dest dst => cases h; exact .unmirrorAllUnlinkDest ht
  | sources =>
    rcases hp : m.store.popFirstSource ref with ⟨_ | _, s'⟩ <;>
      simp only [unmirrorAllNext, hp, Option.some.injEq] at h <;> subst h
    · exact .unmirrorAllSourcesDone ht hp
    · exact .unmirrorAllSource ht hp
  | dests =>
    rcases hp : m.store.popFirstDest ref with ⟨_ | _, s'⟩ <;>
      simp only [unmirrorAllNext, hp, Option.some.injEq] at h <;> subst h
    · exact .unmirrorAllDone ht hp
    · exact .unmirrorAllDest ht hp

/-- Every step the function computes is a step of the machine. -/
theorem Step.of_next (h : m.next t = some m') : Step A m m' := by
  rcases ht : m.threads t with _ | ⟨x, _ | ⟨fr, fs⟩⟩ | ⟨src, flags, pop, phase⟩ | ⟨ref, _ | _⟩ |
    ⟨dst, n⟩ | ⟨dst, flags⟩ | ⟨dst, src⟩ | ⟨dst, src⟩ | ⟨ref, phase⟩ | _ <;>
    simp only [next, nextAt, ht, reduceCtorEq] at h
  case push.cons => exact .of_pushNext ht h
  case pull => exact .of_pullNext ht h
  case unmirrorAll => exact .of_unmirrorAllNext ht h
  case poke.false => split_ifs at h with ho; cases h; exact .pokeSet ht ho
  case poke.true => cases h; exact .pokeSignal ht
  case setMaxQueued => split_ifs at h with ho; cases h; exact .setMaxQueued ht ho
  case setBlockFlags => split_ifs at h with ho; cases h; exact .setBlockFlags ht ho
  case mirror => cases h; exact .mirrorDest ht
  case unmirror =>
    rcases hp : m.store.popSource dst src with ⟨_ | _, s'⟩ <;>
      simp only [hp, Option.some.injEq] at h <;> subst h
    · exact .unmirrorFail ht hp
    · exact .unmirrorSource ht hp

/-- Every step of the machine is the first step of a call or a thread's computed step. -/
theorem Step.start_or_next (hs : Step A m m') :
    (∃ t op, m.threads t = .idle ∧ A t op ∧ m.start t op = some m') ∨ ∃ t, m.next t = some m' := by
  cases hs with
  | startPush ht hA | startPull ht hA | startPoke ht hA | startSetMaxQueued ht hA
  | startSetBlockFlags ht hA | startMirror ht hA | startUnmirrorAll ht hA =>
    exact .inl ⟨_, _, ht, hA, rfl⟩
  | startUnmirror ht hA hp | startUnmirrorFail ht hA hp =>
    exact .inl ⟨_, _, ht, hA, by simp [start, hp]⟩
  | pushSkip ht hp ho hc | pushFull ht hp ho hc | pushWait ht hp ho hc | pushLock ht hp ho hc =>
    exact .inr (exists_next ht (by simp [nextAt, pushNext, hp, ho, hc]))
  | pushWake ht hp => exact .inr (exists_next ht (by simp [nextAt, pushNext, hp]))
  | pushReacquire ht hp ho => exact .inr (exists_next ht (by simp [nextAt, pushNext, hp, ho]))
  | pushNoMem ht hp he | pushAppend ht hp he =>
    exact .inr (exists_next ht (by simp [nextAt, pushNext, hp, he]))
  | pushDescend ht hp hd | pushDone ht hp hd =>
    exact .inr (exists_next ht (by simp [nextAt, pushNext, hp, hd]))
  | pullTake ht ho hx hneg =>
    exact .inr (exists_next ht (by simp only [nextAt, pullNext, ho, hx, if_true, if_neg hneg]))
  | pullAbort ht ho hx hpop hneg =>
    exact .inr (exists_next ht
      (by simp only [nextAt, pullNext, ho, hx, if_true, if_pos (And.intro hpop hneg)]))
  | pullAgain ht ho hx | pullWait ht ho hx =>
    exact .inr (exists_next ht (by simp [nextAt, pullNext, ho, hx]))
  | pullWake ht => exact .inr (exists_next ht (by simp [nextAt, pullNext]))
  | pokeSet ht ho | setMaxQueued ht ho | setBlockFlags ht ho =>
    exact .inr (exists_next ht (by simp [nextAt, ho]))
  | pokeSignal ht | mirrorDest ht => exact .inr (exists_next ht (by simp [nextAt]))
  | unmirrorSource ht hp | unmirrorFail ht hp => exact .inr (exists_next ht (by simp [nextAt, hp]))
  | unmirrorAllLock ht ho => exact .inr (exists_next ht (by simp [nextAt, unmirrorAllNext, ho]))
  | unmirrorAllSource ht hp | unmirrorAllSourcesDone ht hp | unmirrorAllDest ht hp
  | unmirrorAllDone ht hp =>
    exact .inr (exists_next ht (by simp [nextAt, unmirrorAllNext, hp]))
  | unmirrorAllUnlinkSource ht | unmirrorAllUnlinkDest ht =>
    exact .inr (exists_next ht (by simp [nextAt, unmirrorAllNext]))

/-- The step relation is the first steps of the calls `A` allows and the computed steps. -/
theorem step_iff : Step A m m' ↔
    (∃ t op, m.threads t = .idle ∧ A t op ∧ m.start t op = some m') ∨ ∃ t, m.next t = some m' :=
  ⟨Step.start_or_next, fun
    | .inl ⟨_, _, ht, hA, h⟩ => .of_start ht hA h
    | .inr ⟨_, h⟩ => .of_next h⟩

/-- The machine runs: a poke of FIFO 0 takes the lock and sets `poked`, then signals, and
leaves the lock free. -/
example : ((((init (Store.init fun _ => true)).start 0 (.poke 0)).bind (·.next 0)).bind
    (·.next 0)).map (fun m => ((m.store.fifos 0).poked, m.owner 0)) = some (true, none) := by
  decide

/-- A thread with a computed step is inside a call, so when all threads but `t` are idle it
is `t`. -/
theorem next_thread {u : ThreadId} (hn : m.next u = some m')
    (hu : ∀ v ≠ t, m.threads v = .idle) : u = t := by
  by_contra hut
  simp [next_idle (hu u hut)] at hn

/-- While all threads but `t` are idle and stay idle, a step from a state where `t` is inside
a call is `t`'s computed step. -/
theorem next_of_step_alone (hs : Step A m m') (ht : m.threads t ≠ .idle)
    (hu : ∀ u ≠ t, m.threads u = .idle) (hu' : ∀ u ≠ t, m'.threads u = .idle) :
    m.next t = some m' := by
  rcases hs.start_or_next with ⟨u, op, hidle, -, hst⟩ | ⟨u, hn⟩
  · -- a first step by an idle thread, which is then inside its call
    have hut : u ≠ t := by rintro rfl; exact ht hidle
    exact absurd (hu' u hut) (start_threads hst).1
  · obtain rfl := next_thread hn hu
    exact hn

theorem Next.rightUnique : Relator.RightUnique (Next t) := fun _ _ _ h₁ h₂ =>
  Option.some.inj (h₁.symm.trans h₂)

/-- Two runs of thread `t` from one state, each to a state where `t` has no step left, end in
the same state. -/
theorem Next.eq_of_runs {m₁ m₂ : Machine} (h₁ : Relation.ReflTransGen (Next t) m m₁)
    (h₂ : Relation.ReflTransGen (Next t) m m₂) (hn₁ : m₁.next t = none)
    (hn₂ : m₂.next t = none) : m₁ = m₂ := by
  have hend {a b : Machine} (hab : Relation.ReflTransGen (Next t) a b) (ha : a.next t = none) :
      a = b := by
    rcases hab.cases_head with h | ⟨c, hac, -⟩
    · exact h
    · rw [Next, ha] at hac; cases hac
  rcases Relation.ReflTransGen.total_of_right_unique Next.rightUnique h₁ h₂ with h | h
  · exact hend h hn₁
  · exact (hend h hn₂).symm

end Machine

end Txproto
