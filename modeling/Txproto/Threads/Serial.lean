-- SUMMARY: Calls that never overlap: a run of the threads in which at most one thread is ever inside a call is, at each point where no call is in progress, a run of the one-thread model of the same calls.
import Txproto.Threads.Solo
import Txproto.Fifo.Walk

/-!
# Calls that never overlap

`Threads/Solo.lean` compares the two models of the calls one call at a time. Here whole runs
are compared: a run records the calls it starts (`Machine.CallsRun`, which is a run of the
machine and nothing else: `Machine.CallsRun.steps`, `Machine.exists_callsRun`), and when the
threads of a program never overlap their calls, every state of the machine with no call in
progress holds the store that the one-thread model reaches from the start by those calls
(`Machine.serial_run_refines`). So every theorem about the stores of the program holds at
those states.

A call made alone either ends as the one-thread model says (`Machine.runAlone_store`), or
never ends when the model says it does not return. A pull that waits on `cond_in` finds the
same empty queue and no poke each time its wait ends (`Machine.pull_wait_forever`). An
`assert` of `fifo_unmirror` that fails stops its thread (`Machine.unmirror_fail_forever`).
A push returns whenever the mirror graph has no cycle (`Store.fifoPush_isSome`).
-/

namespace Txproto

/-- Calls other than `fifo_create` and `fifo_destroy` keep the set of live FIFOs. -/
theorem Store.exec_live {s s' : Store} {op : Op} (hop : op.Threaded) (h : s.exec op = some s') :
    s'.live = s.live := by
  cases op with
  | create _ _ | destroy _ => exact hop.elim
  | mirror dst src => cases h; exact (s.fifoMirror_listsOnly dst src).live
  | unmirror dst src => rw [Store.fifoUnmirror_eq_unlink h]; exact (s.unlink_listsOnly src dst).live
  | unmirrorAll ref => cases h; exact (s.fifoUnmirrorAll_listsOnly ref).live
  | push dst x =>
    obtain ⟨⟨_, _⟩, hp, rfl⟩ := Option.map_eq_some'.mp h
    exact (pushAux_queuesOnly hp).live
  | pull src flags pop =>
    obtain ⟨⟨_, _, _⟩, hp, rfl⟩ := Option.map_eq_some'.mp h
    rcases Store.fifoPullFlags_eq_some hp with ⟨-, -, -, rfl⟩ | ⟨-, -, rfl⟩ <;> simp
  | poke _ | setMaxQueued _ _ | setBlockFlags _ _ => cases h; rfl

/-- The first step of a call is that of a call the machine runs. -/
theorem Op.threaded_of_start {m m' : Machine} {t : ThreadId} {op : Op}
    (h : m.start t op = some m') : op.Threaded := by
  cases op with
  | create _ _ | destroy _ => cases h
  | _ => trivial

/-- A pull whose loop waits, on a FIFO the wait leaves alone, waits again when the wait ends:
the loop finds the same empty queue, and the poke it would return on is cleared. -/
theorem pullSection_wait_again {flags : Flags} {f : Fifo}
    (h : (pullSection false flags f).2 = .wait) :
    pullSection true flags (pullSection false flags f).1 =
      ((pullSection false flags f).1, .wait) := by
  simp only [pullSection, Bool.false_eq_true, if_false, if_true] at h ⊢
  rw [Fifo.pullLoop_eq] at h ⊢
  split_ifs at h with h₁ h₂ h₃
  rw [if_neg h₁, if_neg h₂, if_neg h₃, Fifo.pullResume, Fifo.pullLoop_eq]
  simp only [Bool.false_eq_true, and_false, if_false]
  rw [if_neg h₁, if_neg h₂]
  simp

namespace Machine

variable {A : ThreadId → Op → Prop} {m m' : Machine} {t : ThreadId}

/-- A thread's step leaves every idle thread idle: only the thread itself moves, and a signal
wakes only threads that wait. -/
theorem next_idle_other (h : m.next t = some m') {u : ThreadId} (hu : m.threads u = .idle) :
    m'.threads u = .idle := by
  have hs : Step (fun _ _ => False) m m' := Step.of_next h
  -- the moving thread is not `u`, which is idle
  cases hs <;>
    simp only [setPc_threads, fresh_threads, setStore_threads, setOwner_threads,
      logAppend_threads, signal_threads, Function.update_apply, hu, Pc.signal, ite_eq_right_iff] <;>
    rintro rfl <;> simp_all

/-- A thread with no step left stays where it is in every run of its own. -/
theorem Next.eq_of_none (h : m.next t = none) (hr : Relation.ReflTransGen (Next t) m m') :
    m' = m := by
  rcases hr.cases_head with rfl | ⟨c, hc, -⟩
  · rfl
  · rw [Next, h] at hc; cases hc

/-- A pull whose loop waits, made alone, never returns: each time its wait ends it finds the
same empty queue and no poke, and waits again. -/
theorem pull_wait_forever {m₁ : Machine} {src : FifoId} {flags : Flags} {pop : Bool}
    (ht : m₁.threads t = .pull src flags pop (.acquire false)) (ho : m₁.owner src = none)
    (hw : (pullSection false flags (m₁.store.fifos src)).2 = .wait)
    (hr : Relation.ReflTransGen (Next t) m₁ m') : m'.threads t ≠ .idle := by
  set f₁ := (pullSection false flags (m₁.store.fifos src)).1
  -- the thread is at its first test, or waits or has woken with `f₁` at `src`
  suffices h : m'.owner src = none ∧
      (m'.threads t = .pull src flags pop (.acquire false) ∧
          m'.store.fifos src = m₁.store.fifos src ∨
        ((∃ b, m'.threads t = .pull src flags pop (.wait b)) ∨
          m'.threads t = .pull src flags pop (.acquire true)) ∧ m'.store.fifos src = f₁) by
    rcases h.2 with ⟨h, -⟩ | ⟨⟨b, h⟩ | h, -⟩ <;> rw [h] <;> exact nofun
  induction hr with
  | refl => exact ⟨ho, .inl ⟨ht, rfl⟩⟩
  | tail _ hn ih =>
    obtain ⟨ho', ⟨hpc, hf⟩ | ⟨⟨b, hpc⟩ | hpc, hf⟩⟩ := ih
    · simp only [Next, next_eq hpc, nextAt, pullNext, ho', if_true, hf, hw] at hn
      cases hn
      exact ⟨ho', .inr ⟨.inl ⟨false, by simp⟩, by simp [hf, f₁]⟩⟩
    · simp only [Next, next_eq hpc, nextAt, pullNext] at hn
      cases hn
      exact ⟨ho', .inr ⟨.inr (by simp), by simp [hf]⟩⟩
    · simp only [Next, next_eq hpc, nextAt, pullNext, ho', if_true, hf,
        pullSection_wait_again hw] at hn
      cases hn
      exact ⟨ho', .inr ⟨.inl ⟨false, by simp⟩, by simp⟩⟩

/-- A `fifo_unmirror` whose `assert` fails, made alone, never returns: the thread stops at the
failed `assert`. -/
theorem unmirror_fail_forever {m₀ m₁ : Machine} {dst src : FifoId}
    (hnone : m₀.store.fifoUnmirror dst src = none) (hst : m₀.start t (.unmirror dst src) = some m₁)
    (hr : Relation.ReflTransGen (Next t) m₁ m') : m'.threads t ≠ .idle := by
  have hfailed : ∀ m : Machine, m.threads t = .failed → Relation.ReflTransGen (Next t) m m' →
      m'.threads t ≠ .idle := fun m hm hr => by
    rw [Next.eq_of_none (by rw [next_eq hm, nextAt]) hr, hm]; exact nofun
  simp only [start, Option.some.injEq] at hst
  unfold Store.fifoUnmirror at hnone
  rcases hp : m₀.store.popDest src dst with ⟨_ | d, s₁⟩
  · -- `assert(dst_ref)` fails at once
    rw [hp] at hst; subst hst
    exact hfailed _ (by simp) hr
  · rw [hp] at hst hnone; subst hst
    rcases hq : s₁.popSource dst src with ⟨_ | e, s₂⟩
    · -- the second pop finds nothing: `assert(src_ref)` fails
      rcases hr.cases_head with rfl | ⟨c, hc, hr'⟩
      · simp
      · simp only [Next, next, setPc_threads, Function.update_same, nextAt, setPc_store,
          setStore_store, hq] at hc
        cases hc
        exact hfailed _ (by simp) hr'
    · simp [hq] at hnone

/-- A call made alone from a machine with no call in progress, whose thread reaches the end of
the call, returns in the one-thread model, when the store keeps the invariant and the mirror
graph has no cycle. -/
theorem exec_isSome_of_runAlone {m₀ m₁ : Machine} {op : Op} (hidle : m₀.Idle)
    (hinv : m₀.store.Inv) (hacyc : ∀ S, m₀.store.AcyclicFrom S) (hst : m₀.start t op = some m₁)
    (hr : Relation.ReflTransGen (Next t) m₁ m') (ht : m'.threads t = .idle) :
    (m₀.store.exec op).isSome := by
  cases op with
  | create _ _ | destroy _ => cases hst
  | mirror _ _ | unmirrorAll _ | poke _ | setMaxQueued _ _ | setBlockFlags _ _ => rfl
  | push dst x => simpa [Store.exec] using Store.fifoPush_isSome hinv (hacyc dst) x
  | pull src flags pop =>
    rcases hp : m₀.store.fifoPullFlags src flags pop with _ | r
    · cases hst
      have hw := Store.fifoPullFlags_eq_none (hinv.numNonneg src) hp
      have ht₁ : (m₀.setPc t (.pull src flags pop (.acquire false))).threads t =
          .pull src flags pop (.acquire false) := by simp
      exact absurd ht (pull_wait_forever ht₁ (by simp [hidle.2])
        (by rw [pullSection, if_neg Bool.false_ne_true]; exact hw) hr)
    · simp [Store.exec, hp]
  | unmirror dst src =>
    rcases hu : m₀.store.fifoUnmirror dst src with _ | s'
    · exact absurd ht (unmirror_fail_forever hu hst hr)
    · simp [Store.exec, hu]

/-- The calls `cs` of the one-thread model, each with the thread that makes it, made one after
another, each alone, by threads `A` allows. -/
inductive ThreadedRun (A : ThreadId → Op → Prop) : Store → List (ThreadId × Op) → Store → Prop
  | nil (s : Store) : ThreadedRun A s [] s
  | cons {s s₁ s' : Store} {t : ThreadId} {op : Op} {cs : List (ThreadId × Op)} : op.Threaded →
      A t op → s.exec op = some s₁ → ThreadedRun A s₁ cs s' → ThreadedRun A s ((t, op) :: cs) s'

theorem ThreadedRun.snoc {s s₁ s' : Store} {op : Op} {cs : List (ThreadId × Op)}
    (h : ThreadedRun A s cs s₁) (hop : op.Threaded) (hA : A t op) (he : s₁.exec op = some s') :
    ThreadedRun A s (cs ++ [(t, op)]) s' := by
  induction h with
  | nil => exact .cons hop hA he (.nil _)
  | cons hop' hA' he' _ ih => exact .cons hop' hA' he' (ih he)

/-- A run of the threads from `m` in which every state after `m` satisfies `P`, with the calls
it starts, each with its thread, in the order they start. -/
inductive CallsRun (A : ThreadId → Op → Prop) (P : Machine → Prop) (m : Machine) :
    List (ThreadId × Op) → Machine → Prop
  | refl : CallsRun A P m [] m
  | start {cs : List (ThreadId × Op)} {m₁ m₂ : Machine} {t : ThreadId} {op : Op} :
      CallsRun A P m cs m₁ → m₁.threads t = .idle → A t op → m₁.start t op = some m₂ → P m₂ →
      CallsRun A P m (cs ++ [(t, op)]) m₂
  | next {cs : List (ThreadId × Op)} {m₁ m₂ : Machine} {t : ThreadId} :
      CallsRun A P m cs m₁ → m₁.next t = some m₂ → P m₂ → CallsRun A P m cs m₂

/-- The runs with their calls are the runs of the machine: each is a run of steps, and every run
of steps starts some calls. -/
theorem CallsRun.steps {P : Machine → Prop} {cs : List (ThreadId × Op)} (h : CallsRun A P m cs m') :
    Relation.ReflTransGen (fun a b => Step A a b ∧ P b) m m' := by
  induction h with
  | refl => exact .refl
  | start _ hi hA hst hP ih => exact ih.tail ⟨.of_start hi hA hst, hP⟩
  | next _ hn hP ih => exact ih.tail ⟨.of_next hn, hP⟩

theorem exists_callsRun {P : Machine → Prop}
    (h : Relation.ReflTransGen (fun a b => Step A a b ∧ P b) m m') :
    ∃ cs, CallsRun A P m cs m' := by
  induction h with
  | refl => exact ⟨[], .refl⟩
  | tail _ hab ih =>
    obtain ⟨cs, hcs⟩ := ih
    rcases hab.1.start_or_next with ⟨t, op, hi, hA, hst⟩ | ⟨t, hn⟩
    · exact ⟨_, hcs.start hi hA hst hab.2⟩
    · exact ⟨cs, hcs.next hn hab.2⟩

/-- At most one thread is inside a call. -/
def Serial (m : Machine) : Prop :=
  ∀ t u, m.threads t ≠ .idle → m.threads u ≠ .idle → t = u

/-- Where a run whose calls never overlap stands, after starting the calls `cs`, with `s₀` the
store that the one-thread model reaches from `s` by the calls `cs₀` ended so far: with no call
in progress, at `s₀` with `cs = cs₀`; or inside the last call of `cs`, made alone from `s₀`. -/
def SerialAt (A : ThreadId → Op → Prop) (s : Store) (cs : List (ThreadId × Op)) (m : Machine) :
    Prop :=
  ∃ s₀ cs₀, ThreadedRun A s cs₀ s₀ ∧ s₀.Reachable ∧ s₀.live = s.live ∧ (∀ S, s₀.AcyclicFrom S) ∧
    ((m.Idle ∧ m.store = s₀ ∧ cs = cs₀) ∨
      ∃ (t : ThreadId) (op : Op) (m₀ m₁ : Machine), m₀.Idle ∧ m₀.store = s₀ ∧ A t op ∧
        m₀.start t op = some m₁ ∧ Relation.ReflTransGen (SoloStep A t) m₁ m ∧
        m.threads t ≠ .idle ∧ cs = cs₀ ++ [(t, op)])

variable {cs : List (ThreadId × Op)} {s : Store}

/-- A call starts only from a state with no call in progress, and then is the last call. -/
theorem SerialAt.start (h : SerialAt A s cs m) (hser' : Serial m') {op : Op}
    (hi : m.threads t = .idle) (hA : A t op) (hst : m.start t op = some m') :
    SerialAt A s (cs ++ [(t, op)]) m' := by
  obtain ⟨s₀, cs₀, hT, hR, hlive, hac, ⟨hI, rfl, rfl⟩ | ⟨u, -, -, -, -, -, -, -, -, hu, -⟩⟩ := h
  · exact ⟨_, _, hT, hR, hlive, hac, .inr ⟨t, op, m, m', hI, rfl, hA, hst, .refl,
      (start_threads hst).1, rfl⟩⟩
  · -- a call started by another thread would overlap the one in progress
    have htu : t ≠ u := fun e => hu (e ▸ hi)
    exact absurd (hser' t u (start_threads hst).1
      (by rw [(start_threads hst).2 u htu.symm]; exact hu)) htu

/-- A step of the call in progress, which ends as the one-thread model says it does. -/
theorem SerialAt.next (hA : ∀ t op, A t op → ∀ f ∈ op.handles, s.live f)
    (h : SerialAt A s cs m) (hser : Serial m) {u : ThreadId} (hn : m.next u = some m')
    (hacyc : ∀ S, m'.store.AcyclicFrom S) : SerialAt A s cs m' := by
  obtain ⟨s₀, cs₀, hT, hR, hlive, hac, ⟨hI, -, -⟩ |
    ⟨t, op, m₀, m₁, hI₀, rfl, hAop, hst, hr, ht, rfl⟩⟩ := h
  · simp [next_idle (hI.1 u)] at hn
  have hu : ∀ v ≠ t, m.threads v = .idle := fun v hvt => by
    by_contra h; exact hvt (hser v t h ht)
  obtain rfl := next_thread hn hu
  have hr' := hr.tail ⟨.of_next hn, ht, fun v hv => next_idle_other hn (hu v hv)⟩
  by_cases ht' : m'.threads u = .idle
  · -- the call ends, with the store the one-thread model returns
    have hu₁ : ∀ v ≠ u, m₁.threads v = .idle := fun v hv =>
      ((start_threads hst).2 v hv).trans (hI₀.1 v)
    obtain ⟨s', hexec⟩ := Option.isSome_iff_exists.1
      (exec_isSome_of_runAlone hI₀ hR.inv hac hst (SoloStep.runs hr' hu₁) ht')
    obtain ⟨hstore, hI'⟩ := runAlone_store hI₀ hexec hst hr' ht'
    have hop := Op.threaded_of_start hst
    have hcan : m₀.store.CanRun op :=
      ⟨fun f hf => hlive ▸ hA _ _ hAop f hf, fun f hf => by subst hf; exact hop.elim⟩
    exact ⟨s', _, hT.snoc hop hAop hexec, hR.step op hcan hexec,
      (Store.exec_live hop hexec).trans hlive, hstore ▸ hacyc, .inl ⟨hI', hstore, rfl⟩⟩
  · exact ⟨_, _, hT, hR, hlive, hac, .inr ⟨u, op, m₀, m₁, hI₀, rfl, hAop, hst, hr', ht', rfl⟩⟩

theorem serialAt_of_run (hs : s.Reachable) (hA : ∀ t op, A t op → ∀ f ∈ op.handles, s.live f)
    (h₀ : ∀ S, s.AcyclicFrom S)
    (hrun : CallsRun A (fun b => Serial b ∧ ∀ S, b.store.AcyclicFrom S) (init s) cs m) :
    SerialAt A s cs m ∧ Serial m := by
  induction hrun with
  | refl => exact ⟨⟨s, [], .nil s, hs, rfl, h₀, .inl ⟨idle_init s, rfl, rfl⟩⟩,
      fun _ _ ht _ => absurd rfl ht⟩
  | start _ hi hA' hst hP ih => exact ⟨ih.1.start hP.1 hi hA' hst, hP.1⟩
  | next _ hn hP ih => exact ⟨ih.1.next hA ih.2 hn hP.2, hP.1⟩

/-- Calls that never overlap are the calls of the one-thread model: at each state with no call
in progress, the store is the one the model reaches by the calls the run started, in order. -/
theorem serial_run_refines (hs : s.Reachable)
    (hA : ∀ t op, A t op → ∀ f ∈ op.handles, s.live f) (h₀ : ∀ S, s.AcyclicFrom S)
    (hrun : CallsRun A (fun b => Serial b ∧ ∀ S, b.store.AcyclicFrom S) (init s) cs m)
    (hidle : ∀ t, m.threads t = .idle) :
    m.Idle ∧ ThreadedRun A s cs m.store ∧ m.store.Reachable := by
  obtain ⟨⟨s₀, cs₀, hT, hR, -, -, ⟨hI, rfl, rfl⟩ | ⟨t, -, -, -, -, -, -, -, -, ht, -⟩⟩, -⟩ :=
    serialAt_of_run hs hA h₀ hrun
  · exact ⟨hI, hT, hR⟩
  · exact absurd (hidle t) ht

/-- Thread `0` pushes item `7` to a FIFO of capacity `2`, then thread `1` pops it. -/
theorem serial_run_refines_push_pop :
    let s := ((Store.init fun _ => true).fifoCreate 2 Flags.none).2
    let A : ThreadId → Op → Prop := fun _ op => op = .push 0 (some 7) ∨ op = .pull 0 Flags.none true
    ∃ m cs, CallsRun A (fun b => Serial b ∧ ∀ S, b.store.AcyclicFrom S) (init s) cs m ∧
      (∀ t, m.threads t = .idle) ∧ (m.store.fifos 0).numQueued = 0 ∧
      (m.Idle ∧ ThreadedRun A s cs m.store ∧ m.store.Reachable) := by
  intro s A
  have hs : s.Reachable := (Store.Reachable.init _).create 2 Flags.none
  have hA : ∀ t op, A t op → ∀ f ∈ op.handles, s.live f := by
    rintro _ _ (rfl | rfl) f hf <;> simp only [Op.handles, List.mem_singleton] at hf <;>
      subst hf <;> rfl
  have hac : ∀ s' : Store, (∀ F, (s'.fifos F).dests = []) → ∀ S, s'.AcyclicFrom S :=
    fun s' h => Store.acyclicFrom_of_rank (fun _ => 0) fun A B hB => by simp [h A] at hB
  have e : s.fifos = Function.update (fun _ => Fifo.zero) 0 (Store.newFifo 2 Flags.none) := rfl
  have hd : ∀ F, (s.fifos F).dests = [] := fun F => by
    by_cases hF : F = 0 <;> simp [e, hF, Store.newFifo, Fifo.zero]
  -- a state in which every thread but `w` is idle has no two calls in progress
  have hser : ∀ (m : Machine) (w : ThreadId), (∀ u ≠ w, m.threads u = .idle) → Serial m :=
    fun m w h t u ht hu =>
      (not_not.1 fun h₁ => ht (h t h₁)).trans (not_not.1 fun h₁ => hu (h u h₁)).symm
  let fr : Frame := ⟨0, 0, .acquire, [], .ok⟩
  let s₁ := (s.pushEnqueue 0 (some 7)).2
  have hd₁ : ∀ F, (s₁.fifos F).dests = [] := fun F =>
    ((s.pushEnqueue_queuesOnly 0 _).dests F).trans (hd F)
  let s₂ := ((s₁.modify 0 fun _ => (pullSection false Flags.none (s₁.fifos 0)).1).pullTake 0 true).1
  have hf₂ : s₂.fifos 0 = { s₁.fifos 0 with
      poked := (pullSection false Flags.none (s₁.fifos 0)).1.poked }.popHead := by
    simp only [s₂, Store.pullTake_fifos, Store.modify_fifos, and_self, if_true]
    rw [(pullSection_spec false Flags.none (s₁.fifos 0)).1]
  have hd₂ : ∀ F, (s₂.fifos F).dests = [] := fun F => by
    by_cases hF : F = 0
    · rw [hF, hf₂]; exact hd₁ 0
    · simp only [s₂, Store.pullTake_fifos, Store.modify_fifos, hF, and_false, if_false]; exact hd₁ F
  have htake : (pullSection false Flags.none (s₁.fifos 0)).2 = .take := by
    rw [pullSection, if_neg Bool.false_ne_true, Fifo.pullLoop_eq, if_pos (by decide)]
  have hrun := Relation.ReflTransGen.tail (.tail (.tail (.tail (.tail (.single
      (r := fun a b => Step A a b ∧ Serial b ∧ ∀ S, b.store.AcyclicFrom S)
      ⟨@Step.startPush _ (init s) 0 0 (some 7) rfl (.inl rfl), hser _ 0 fun u hu => by
        simp only [setPc_threads, fresh_threads, Function.update_noteq hu]; rfl, hac _ hd⟩)
      ⟨@Step.pushLock _ _ 0 (some 7) fr [] rfl rfl rfl rfl, hser _ 0 fun u hu => by
        simp only [setPc_threads, fresh_threads, setOwner_threads, Function.update_noteq hu]; rfl,
        hac _ hd⟩)
      ⟨@Step.pushAppend _ _ 0 (some 7) { fr with phase := .enqueue false } [] false _ rfl rfl rfl,
        hser _ 0 fun u hu => by
          simp only [setPc_threads, fresh_threads, setOwner_threads, setStore_threads,
            logAppend_threads, signal_threads, Function.update_noteq hu]; rfl,
        hac _ hd₁⟩)
      ⟨@Step.pushDone _ _ 0 (some 7) { fr with phase := .distribute, pending := [] } [] rfl rfl rfl,
        hser _ 0 fun u hu => by
          simp only [setPc_threads, fresh_threads, setOwner_threads, setStore_threads,
            logAppend_threads, signal_threads, Function.update_noteq hu]; rfl,
        hac _ hd₁⟩)
      ⟨@Step.startPull _ _ 1 0 Flags.none true rfl (.inr rfl), hser _ 1 fun u hu => by
        simp only [setPc_threads, fresh_threads, setOwner_threads, setStore_threads,
          logAppend_threads, signal_threads, Function.update_noteq hu, Function.update_apply]
        split_ifs <;> rfl, hac _ hd₁⟩)
      ⟨@Step.pullTake _ _ 1 0 Flags.none true false rfl rfl htake (by decide),
        hser _ 1 fun u hu => by
          simp only [setPc_threads, fresh_threads, setOwner_threads, setStore_threads,
            logAppend_threads, signal_threads, Function.update_noteq hu, Function.update_apply]
          split_ifs <;> rfl,
        hac _ hd₂⟩
  obtain ⟨m, hm, hidle, hq⟩ : ∃ m, Relation.ReflTransGen
      (fun a b => Step A a b ∧ Serial b ∧ ∀ S, b.store.AcyclicFrom S) (init s) m ∧
      (∀ t, m.threads t = .idle) ∧ (m.store.fifos 0).numQueued = 0 := by
    refine ⟨_, hrun, fun t => ?_, ?_⟩
    · simp only [setPc_threads, fresh_threads, setOwner_threads, setStore_threads,
        logAppend_threads, signal_threads, Function.update_apply]
      split_ifs <;> rfl
    · show (s₂.fifos 0).numQueued = 0
      rw [hf₂]; rfl
  obtain ⟨cs, hcs⟩ := exists_callsRun hm
  exact ⟨m, cs, hcs, hidle, hq, serial_run_refines hs hA (hac _ hd) hcs hidle⟩

end Machine

end Txproto
