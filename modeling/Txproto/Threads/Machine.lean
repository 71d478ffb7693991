-- SUMMARY: The threads of the program over the shared FIFOs: every call cut into its atomic steps at mutexes, condition waits and buffer-list operations, and the runs they interleave into.
import Txproto.Fifo.System

/-!
# Threads

Any number of threads call the template at once. A call is cut into atomic steps where
another thread can act in between: at each mutex it requests, at each `pthread_cond_wait`,
and at each buffer-list operation, the lists being locked inside. What a thread runs while
it holds a FIFO's lock, up to the next such place, is one step: every other thread that
reads or writes the same fields takes that lock first.

`fifo_push` keeps one `Frame` per level of its recursion, innermost first. A level holds its
FIFO's lock from its entry to its return, except in its one wait on `cond_out`.
Modelled from the spec: `sp_bufferlist_iter_ref` walks `dests` in snapshot order, so the
`distribute:` loop walks the entries of `dests` as they are when it starts.

A wait may end at any time: POSIX allows spurious wake-ups, so the model never needs the
signal to wake a thread. A signal on `cond_in` is kept as a ghost flag on the threads waiting
on it; every append is logged with the push calls in progress on the appending thread.

`Step A` is one step of one thread, where `A t op` says which calls thread `t` may start, and
`Reachable A P` the states of the runs that start from a store the program's setup built, all
of whose states satisfy `P`. FIFOs are created and destroyed in the setup, outside the runs:
`fifo_destroy` runs when the last reference goes, when no thread is inside a call on it.
-/

namespace Txproto

abbrev ThreadId := Nat

/-- A name for one call of `fifo_push` at one level of the recursion. -/
abbrev CallId := Nat

/-- Where a level of `fifo_push` is. -/
inductive PushPhase where
  /-- `pthread_mutex_lock(&ctx->lock)` at entry. -/
  | acquire
  /-- `pthread_cond_wait(&ctx->cond_out, &ctx->lock)`, the lock released. -/
  | waitOut
  /-- Woken: the wait takes the lock back. -/
  | reacquire
  /-- Holding the lock, at `av_fast_realloc`; `waited` when it came through the wait. -/
  | enqueue (waited : Bool)
  /-- Holding the lock in the `distribute:` loop. -/
  | distribute
  deriving DecidableEq

/-- One level of the recursion of `fifo_push`: its FIFO, the name of the call, where it is,
and for the `distribute:` loop the entries left and the error recorded so far. -/
structure Frame where
  fifo : FifoId
  call : CallId
  phase : PushPhase
  pending : List FifoId
  err : Ret

/-- Where `fifo_pull_flags_template` is. -/
inductive PullPhase where
  /-- Requesting the lock: at entry, or (`resume`) when `pthread_cond_wait` returns. -/
  | acquire (resume : Bool)
  /-- `pthread_cond_wait(&ctx->cond_in, &ctx->lock)`; `signalled` once `cond_in` was
  signalled since the wait began. -/
  | wait (signalled : Bool)
  deriving DecidableEq

/-- Where `fifo_unmirror_all` is, holding `ref`'s lock once past `acquire`. -/
inductive UnmirrorAllPhase where
  | acquire
  /-- At the pop of the first entry of `ref->sources`. -/
  | sources
  /-- At the pop of `ref`'s entry in `src->dests`. -/
  | source (src : FifoId)
  /-- At the pop of the first entry of `ref->dests`. -/
  | dests
  /-- At the pop of `ref`'s entry in `dst->sources`, then the signal on `dst->cond_in`. -/
  | dest (dst : FifoId)
  deriving DecidableEq

/-- What a thread is doing. -/
inductive Pc where
  | idle
  | push (x : Item) (frames : List Frame)
  | pull (src : FifoId) (flags : Flags) (pop : Bool) (phase : PullPhase)
  /-- `fifo_poke`: requesting the lock, or (`signalling`) at the signal after the unlock. -/
  | poke (ref : FifoId) (signalling : Bool)
  | setMaxQueued (dst : FifoId) (maxQueued : Int)
  | setBlockFlags (dst : FifoId) (flags : Flags)
  /-- `fifo_mirror` between its two appends. -/
  | mirror (dst src : FifoId)
  /-- `fifo_unmirror` between its two pops. -/
  | unmirror (dst src : FifoId)
  | unmirrorAll (ref : FifoId) (phase : UnmirrorAllPhase)
  /-- An `assert` failed. -/
  | failed

/-- An item appended to a queue, with the push calls in progress on the appending thread,
innermost first, each with its FIFO. -/
structure Append where
  fifo : FifoId
  item : Item
  calls : List (CallId × FifoId)

/-- The shared store, the owner of each FIFO's mutex, the threads, and the ghost state: the
next fresh call name and the log of appends. -/
structure Machine where
  store : Store
  owner : FifoId → Option ThreadId
  threads : ThreadId → Pc
  nextCall : CallId
  log : List Append

/-- A level of `fifo_push` returns `r` to the level that called it, or the call ends. The
caller's loop halts on `ENOMEM` and otherwise keeps the first error. -/
def Pc.pushReturn (x : Item) : List Frame → Ret → Pc
  | [], _ => .idle
  | p :: fs, r =>
    .push x ({ p with pending := if r = .enomem then [] else p.pending,
                      err := if r = .enomem then .enomem
                             else if r ≠ .ok ∧ p.err = .ok then r else p.err } :: fs)

/-- `pthread_cond_signal(&F->cond_in)`, as seen by a thread waiting on it. -/
def Pc.signal (F : FifoId) : Pc → Pc
  | .pull src flags pop (.wait s) => .pull src flags pop (.wait (s || decide (src = F)))
  | pc => pc

/-- The loop of the pull from its test, at entry or (`resume`) after a wait. -/
def pullSection (resume : Bool) (flags : Flags) (f : Fifo) : Fifo × PullExit :=
  if resume then f.pullResume flags else f.pullLoop flags

/-- The loop changes nothing but `poked`, and only clears it; it leaves for the head only
when there is one, and waits only with no item and no poke. -/
theorem pullSection_spec (resume : Bool) (flags : Flags) (f : Fifo) :
    (pullSection resume flags f).1 = { f with poked := (pullSection resume flags f).1.poked } ∧
    ((pullSection resume flags f).1.poked = true → f.poked = true) ∧
    ((pullSection resume flags f).2 = .take → f.numQueued ≠ 0) ∧
    ((pullSection resume flags f).2 = .wait →
      f.numQueued = 0 ∧ (pullSection resume flags f).1.poked = false) := by
  cases resume with
  | false => exact Fifo.pullLoop_spec flags f
  | true =>
    rw [pullSection, if_pos rfl, Fifo.pullResume]
    split_ifs
    · exact ⟨rfl, nofun, nofun, nofun⟩
    · -- the loop again, on the FIFO with `poked` cleared
      obtain ⟨h₁, h₂, h₃, h₄⟩ := Fifo.pullLoop_spec flags { f with poked := false }
      exact ⟨h₁, (nomatch h₂ ·), h₃, h₄⟩

namespace Machine

/-- No call in progress and no mutex held. -/
def init (s : Store) : Machine := ⟨s, fun _ => none, fun _ => .idle, 0, []⟩

@[simps] def setPc (m : Machine) (t : ThreadId) (pc : Pc) : Machine :=
  { m with threads := Function.update m.threads t pc }

@[simps] def setOwner (m : Machine) (f : FifoId) (o : Option ThreadId) : Machine :=
  { m with owner := Function.update m.owner f o }

@[simps] def setStore (m : Machine) (s : Store) : Machine := { m with store := s }

@[simps] def signal (m : Machine) (F : FifoId) : Machine :=
  { m with threads := fun u => (m.threads u).signal F }

/-- A fresh name for a call. -/
@[simps] def fresh (m : Machine) : Machine := { m with nextCall := m.nextCall + 1 }

/-- Log an append at `F` by the push calls `fs`. -/
@[simps] def logAppend (m : Machine) (F : FifoId) (x : Item) (fs : List Frame) : Machine :=
  { m with log := m.log ++ [⟨F, x, fs.map fun f => (f.call, f.fifo)⟩] }

/-- One atomic step of thread `t`. -/
inductive Step (A : ThreadId → Op → Prop) : Machine → Machine → Prop where
  /-- Entry of `fifo_push(dst, x)`: one level, at its lock. -/
  | startPush {m t dst x} : m.threads t = .idle → A t (.push dst x) →
      Step A m ((m.setPc t (.push x [⟨dst, m.nextCall, .acquire, [], .ok⟩])).fresh)
  | startPull {m t src flags pop} : m.threads t = .idle → A t (.pull src flags pop) →
      Step A m (m.setPc t (.pull src flags pop (.acquire false)))
  | startPoke {m t ref} : m.threads t = .idle → A t (.poke ref) →
      Step A m (m.setPc t (.poke ref false))
  | startSetMaxQueued {m t dst n} : m.threads t = .idle → A t (.setMaxQueued dst n) →
      Step A m (m.setPc t (.setMaxQueued dst n))
  | startSetBlockFlags {m t dst flags} : m.threads t = .idle → A t (.setBlockFlags dst flags) →
      Step A m (m.setPc t (.setBlockFlags dst flags))
  /-- `fifo_mirror` and its first append, to `dst->sources`. -/
  | startMirror {m t dst src} : m.threads t = .idle → A t (.mirror dst src) →
      Step A m ((m.setStore (m.store.appendSource dst src)).setPc t (.mirror dst src))
  /-- `fifo_unmirror` and its first pop, from `src->dests`, which finds its entry. -/
  | startUnmirror {m t dst src d s'} : m.threads t = .idle → A t (.unmirror dst src) →
      m.store.popDest src dst = (some d, s') →
      Step A m ((m.setStore s').setPc t (.unmirror dst src))
  /-- The first pop of `fifo_unmirror` finds nothing: `assert(dst_ref)` fails. -/
  | startUnmirrorFail {m t dst src s'} : m.threads t = .idle → A t (.unmirror dst src) →
      m.store.popDest src dst = (none, s') → Step A m (m.setPc t .failed)
  | startUnmirrorAll {m t ref} : m.threads t = .idle → A t (.unmirrorAll ref) →
      Step A m (m.setPc t (.unmirrorAll ref .acquire))
  /-- The lock taken, `max_queued == 0`: straight to the loop over `dests`. -/
  | pushSkip {m t x fr fs} : m.threads t = .push x (fr :: fs) → fr.phase = .acquire →
      m.owner fr.fifo = none → (m.store.fifos fr.fifo).pushCheck x = .skip →
      Step A m ((m.setOwner fr.fifo (some t)).setPc t
        (.push x ({ fr with phase := .distribute, pending := (m.store.fifos fr.fifo).dests } :: fs)))
  /-- The lock taken, over the limit without `BLOCK_MAX_OUTPUT`: unlock, `ENOBUFS`. -/
  | pushFull {m t x fr fs} : m.threads t = .push x (fr :: fs) → fr.phase = .acquire →
      m.owner fr.fifo = none → (m.store.fifos fr.fifo).pushCheck x = .full →
      Step A m (m.setPc t (Pc.pushReturn x fs .enobufs))
  /-- The lock taken, over the limit with `BLOCK_MAX_OUTPUT`: wait on `cond_out`. -/
  | pushWait {m t x fr fs} : m.threads t = .push x (fr :: fs) → fr.phase = .acquire →
      m.owner fr.fifo = none → (m.store.fifos fr.fifo).pushCheck x = .wait →
      Step A m (m.setPc t (.push x ({ fr with phase := .waitOut } :: fs)))
  /-- The lock taken, room to store. -/
  | pushLock {m t x fr fs} : m.threads t = .push x (fr :: fs) → fr.phase = .acquire →
      m.owner fr.fifo = none → (m.store.fifos fr.fifo).pushCheck x = .enqueue →
      Step A m ((m.setOwner fr.fifo (some t)).setPc t
        (.push x ({ fr with phase := .enqueue false } :: fs)))
  | pushWake {m t x fr fs} : m.threads t = .push x (fr :: fs) → fr.phase = .waitOut →
      Step A m (m.setPc t (.push x ({ fr with phase := .reacquire } :: fs)))
  | pushReacquire {m t x fr fs} : m.threads t = .push x (fr :: fs) → fr.phase = .reacquire →
      m.owner fr.fifo = none →
      Step A m ((m.setOwner fr.fifo (some t)).setPc t
        (.push x ({ fr with phase := .enqueue true } :: fs)))
  /-- `av_fast_realloc` fails: unlock, `ENOMEM`. -/
  | pushNoMem {m t x fr fs w s'} : m.threads t = .push x (fr :: fs) → fr.phase = .enqueue w →
      m.store.pushEnqueue fr.fifo x = (false, s') →
      Step A m (((m.setStore s').setOwner fr.fifo none).setPc t (Pc.pushReturn x fs .enomem))
  /-- The clone stored and `cond_in` signalled; the loop over `dests` starts. -/
  | pushAppend {m t x fr fs w s'} : m.threads t = .push x (fr :: fs) → fr.phase = .enqueue w →
      m.store.pushEnqueue fr.fifo x = (true, s') →
      Step A m ((((m.setStore s').logAppend fr.fifo x (fr :: fs)).signal fr.fifo).setPc t
        (.push x ({ fr with phase := .distribute, pending := (s'.fifos fr.fifo).dests } :: fs)))
  /-- The loop calls `fifo_push` on its next entry, still holding the lock. -/
  | pushDescend {m t x fr fs d rest} : m.threads t = .push x (fr :: fs) →
      fr.phase = .distribute → fr.pending = d :: rest →
      Step A m ((m.setPc t (.push x (⟨d, m.nextCall, .acquire, [], .ok⟩ ::
        { fr with pending := rest } :: fs))).fresh)
  /-- The loop is over: unlock and return. -/
  | pushDone {m t x fr fs} : m.threads t = .push x (fr :: fs) → fr.phase = .distribute →
      fr.pending = [] →
      Step A m ((m.setOwner fr.fifo none).setPc t (Pc.pushReturn x fs fr.err))
  /-- The lock taken and the loop left for the head: pop it or peek a clone, unlock. -/
  | pullTake {m t src flags pop resume} : m.threads t = .pull src flags pop (.acquire resume) →
      m.owner src = none → (pullSection resume flags (m.store.fifos src)).2 = .take →
      ¬(pop = true ∧ (m.store.fifos src).numQueued - 1 < 0) →
      Step A m ((m.setStore ((m.store.modify src fun _ =>
        (pullSection resume flags (m.store.fifos src)).1).pullTake src pop).1).setPc t .idle)
  /-- The pop's `assert(ctx->num_queued >= 0)` fails. -/
  | pullAbort {m t src flags pop resume} : m.threads t = .pull src flags pop (.acquire resume) →
      m.owner src = none → (pullSection resume flags (m.store.fifos src)).2 = .take →
      pop = true → (m.store.fifos src).numQueued - 1 < 0 → Step A m (m.setPc t .failed)
  | pullAgain {m t src flags pop resume} : m.threads t = .pull src flags pop (.acquire resume) →
      m.owner src = none → (pullSection resume flags (m.store.fifos src)).2 = .again →
      Step A m ((m.setStore (m.store.modify src fun _ =>
        (pullSection resume flags (m.store.fifos src)).1)).setPc t .idle)
  /-- The loop reaches `pthread_cond_wait(&ctx->cond_in, &ctx->lock)`. -/
  | pullWait {m t src flags pop resume} : m.threads t = .pull src flags pop (.acquire resume) →
      m.owner src = none → (pullSection resume flags (m.store.fifos src)).2 = .wait →
      Step A m ((m.setStore (m.store.modify src fun _ =>
        (pullSection resume flags (m.store.fifos src)).1)).setPc t
        (.pull src flags pop (.wait false)))
  | pullWake {m t src flags pop sig} : m.threads t = .pull src flags pop (.wait sig) →
      Step A m (m.setPc t (.pull src flags pop (.acquire true)))
  /-- `poked = true` under the lock. -/
  | pokeSet {m t ref} : m.threads t = .poke ref false → m.owner ref = none →
      Step A m ((m.setStore (m.store.fifoPoke ref)).setPc t (.poke ref true))
  /-- `pthread_cond_signal(&ctx->cond_in)` after the unlock. -/
  | pokeSignal {m t ref} : m.threads t = .poke ref true →
      Step A m ((m.signal ref).setPc t .idle)
  | setMaxQueued {m t dst n} : m.threads t = .setMaxQueued dst n → m.owner dst = none →
      Step A m ((m.setStore (m.store.fifoSetMaxQueued dst n)).setPc t .idle)
  | setBlockFlags {m t dst flags} : m.threads t = .setBlockFlags dst flags → m.owner dst = none →
      Step A m ((m.setStore (m.store.fifoSetBlockFlags dst flags)).setPc t .idle)
  /-- The second append of `fifo_mirror`, to `src->dests`. -/
  | mirrorDest {m t dst src} : m.threads t = .mirror dst src →
      Step A m ((m.setStore (m.store.appendDest src dst)).setPc t .idle)
  /-- The second pop of `fifo_unmirror`, from `dst->sources`, which finds its entry. -/
  | unmirrorSource {m t dst src d s'} : m.threads t = .unmirror dst src →
      m.store.popSource dst src = (some d, s') → Step A m ((m.setStore s').setPc t .idle)
  /-- The second pop finds nothing: `assert(src_ref)` fails. -/
  | unmirrorFail {m t dst src s'} : m.threads t = .unmirror dst src →
      m.store.popSource dst src = (none, s') → Step A m (m.setPc t .failed)
  | unmirrorAllLock {m t ref} : m.threads t = .unmirrorAll ref .acquire → m.owner ref = none →
      Step A m ((m.setOwner ref (some t)).setPc t (.unmirrorAll ref .sources))
  | unmirrorAllSource {m t ref src s'} : m.threads t = .unmirrorAll ref .sources →
      m.store.popFirstSource ref = (some src, s') →
      Step A m ((m.setStore s').setPc t (.unmirrorAll ref (.source src)))
  | unmirrorAllUnlinkSource {m t ref src} : m.threads t = .unmirrorAll ref (.source src) →
      Step A m ((m.setStore (m.store.popDest src ref).2).setPc t (.unmirrorAll ref .sources))
  | unmirrorAllSourcesDone {m t ref s'} : m.threads t = .unmirrorAll ref .sources →
      m.store.popFirstSource ref = (none, s') →
      Step A m ((m.setStore s').setPc t (.unmirrorAll ref .dests))
  | unmirrorAllDest {m t ref dst s'} : m.threads t = .unmirrorAll ref .dests →
      m.store.popFirstDest ref = (some dst, s') →
      Step A m ((m.setStore s').setPc t (.unmirrorAll ref (.dest dst)))
  /-- The pop of `ref`'s entry in `dst->sources`, then the signal on `dst->cond_in`. -/
  | unmirrorAllUnlinkDest {m t ref dst} : m.threads t = .unmirrorAll ref (.dest dst) →
      Step A m (((m.setStore (m.store.popSource dst ref).2).signal dst).setPc t
        (.unmirrorAll ref .dests))
  /-- Both lists are empty: unlock. -/
  | unmirrorAllDone {m t ref s'} : m.threads t = .unmirrorAll ref .dests →
      m.store.popFirstDest ref = (none, s') →
      Step A m (((m.setStore s').setOwner ref none).setPc t .idle)

/-- The states of the runs in which every state satisfies `P`. A run starts once the
program's setup is over: from a store that a sequence of calls builds, with no call in
progress. -/
inductive Reachable (A : ThreadId → Op → Prop) (P : Machine → Prop) : Machine → Prop where
  | init {s : Store} : s.Reachable → P (.init s) → Reachable A P (.init s)
  | step {m m' : Machine} : Reachable A P m → Step A m m' → P m' → Reachable A P m'

/-- Every state of a run satisfies the run's condition. -/
theorem Reachable.holds {A : ThreadId → Op → Prop} {P : Machine → Prop} {m : Machine}
    (h : Reachable A P m) : P m := by
  cases h <;> assumption

/-- A run that keeps `P` keeps any weaker `Q`. -/
theorem Reachable.mono {A : ThreadId → Op → Prop} {P Q : Machine → Prop} (hPQ : ∀ m, P m → Q m)
    {m : Machine} (h : Reachable A P m) : Reachable A Q m := by
  induction h with
  | init hs hP => exact .init hs (hPQ _ hP)
  | step _ hs hP ih => exact .step ih hs (hPQ _ hP)

end Machine

end Txproto
