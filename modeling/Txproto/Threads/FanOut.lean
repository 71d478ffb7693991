-- SUMMARY: A push's fan-out under its locks: a FIFO changes only under its mutex, so while a level of a push is in its distribute loop at a FIFO, no thread changes that FIFO but for its buffer lists until the level returns.
import Txproto.Threads.LockOrder

/-!
# A fan-out under its locks

Every field of a FIFO but its two buffer lists is read and written under the FIFO's mutex;
the lists lock themselves. `Machine.Step.guarded_cases` says what a step can do to that part
of a FIFO `F`: nothing; change it while `F`'s lock is free, in a call that takes the lock and
releases it within the step (a pull's critical section, `fifo_poke`, the two setters); or
store a clone at `F`, by the level of a push that holds `F`'s lock.

A level of `fifo_push` keeps its FIFO's lock from the store of its clone through its
`distribute:` loop to its return (lines 366-385), and a thread never holds a lock twice. So
while a level is in its loop at `F`, no step changes `F` but for its lists
(`Machine.Step.guardedKept_of_distribute`): the recursion over `dests` runs below `F` while no
consumer of `F` pops or peeks, no other push stores at `F`, and its capacity, flags and poke
stay as they are. Over a run this is the atomicity of the fan-out that the design keeps the
recursion under the lock for (`Machine.run_fanOut_atomic`).
-/

namespace Txproto

namespace Store

/-- `s'` has FIFO `F` as `s` has it, but for its two buffer lists: everything `ctx->lock`
guards. -/
def GuardedKept (F : FifoId) (s s' : Store) : Prop :=
  s'.fifos F = { s.fifos F with dests := (s'.fifos F).dests, sources := (s'.fifos F).sources }

variable {F : FifoId} {s s' : Store}

theorem GuardedKept.refl (F : FifoId) (s : Store) : s.GuardedKept F s := rfl

theorem GuardedKept.trans {s'' : Store} (h₁ : s.GuardedKept F s') (h₂ : s'.GuardedKept F s'') :
    s.GuardedKept F s'' := by
  unfold GuardedKept at *; rw [h₂, h₁]

theorem GuardedKept.of_fifos (h : s'.fifos F = s.fifos F) : s.GuardedKept F s' := by
  unfold GuardedKept; rw [h]

theorem ListsOnly.guardedKept (h : s.ListsOnly s') (F : FifoId) : s.GuardedKept F s' :=
  h.fifos F

/-- The store of a clone at another FIFO, or a failed allocation. -/
theorem guardedKept_pushEnqueue {dst : FifoId} {x : Item} {b : Bool}
    (he : s.pushEnqueue dst x = (b, s')) (hF : F ≠ dst) : s.GuardedKept F s' := by
  obtain ⟨size, hf⟩ := s.pushEnqueue_fifos dst x
  rw [he] at hf
  refine GuardedKept.of_fifos ?_
  rw [hf]
  split_ifs <;> simp [Function.update_noteq hF]

end Store

namespace Machine

variable {A : ThreadId → Op → Prop} {m m' : Machine}

/-- What a step can do to the part of `F` that `F`'s mutex guards: nothing; change it while
the lock is free, taking and releasing it within the step; or store a clone at `F`, by the
level of a push at `F`, which holds the lock from its check to its return. -/
theorem Step.guarded_cases (hs : Step A m m') (F : FifoId) :
    m.store.GuardedKept F m'.store ∨ m.owner F = none ∨
      ∃ t x fr fs w, m.threads t = .push x (fr :: fs) ∧ fr.fifo = F ∧ fr.phase = .enqueue w := by
  cases hs with
  | startPush _ _ | startPull _ _ | startPoke _ _ | startSetMaxQueued _ _
  | startSetBlockFlags _ _ | startUnmirrorFail _ _ _ | startUnmirrorAll _ _ | pushSkip _ _ _ _
  | pushFull _ _ _ _ | pushWait _ _ _ _ | pushLock _ _ _ _ | pushWake _ _ | pushReacquire _ _ _
  | pushDescend _ _ _ | pushDone _ _ _ | pullAbort _ _ _ _ _ | pullWake _ | pokeSignal _
  | unmirrorFail _ _ | unmirrorAllLock _ _ =>
    exact .inl (.refl _ _)
  | startMirror _ _ => exact .inl ((Store.appendSource_listsOnly _ _ _).guardedKept F)
  | mirrorDest _ => exact .inl ((Store.appendDest_listsOnly _ _ _).guardedKept F)
  | startUnmirror _ _ hp =>
    exact .inl ((Store.listsOnly_of_eq (Store.popDest_listsOnly _ _ _) hp).guardedKept F)
  | unmirrorSource _ hp =>
    exact .inl ((Store.listsOnly_of_eq (Store.popSource_listsOnly _ _ _) hp).guardedKept F)
  | unmirrorAllSource _ hp | unmirrorAllSourcesDone _ hp =>
    exact .inl ((Store.listsOnly_of_eq (Store.popFirstSource_listsOnly _ _) hp).guardedKept F)
  | unmirrorAllDest _ hp | unmirrorAllDone _ hp =>
    exact .inl ((Store.listsOnly_of_eq (Store.popFirstDest_listsOnly _ _) hp).guardedKept F)
  | unmirrorAllUnlinkSource _ => exact .inl ((Store.popDest_listsOnly _ _ _).guardedKept F)
  | unmirrorAllUnlinkDest _ => exact .inl ((Store.popSource_listsOnly _ _ _).guardedKept F)
  | @pushNoMem t x fr fs w _ ht hp he | @pushAppend t x fr fs w _ ht hp he =>
    by_cases hF : fr.fifo = F
    · exact .inr (.inr ⟨t, x, fr, fs, w, ht, hF, hp⟩)
    · exact .inl (Store.guardedKept_pushEnqueue he (Ne.symm hF))
  | @pullTake _ src _ _ _ _ ho _ _ | @pullAgain _ src _ _ _ _ ho _
  | @pullWait _ src _ _ _ _ ho _ | @pokeSet _ src _ ho | @setMaxQueued _ src _ _ ho
  | @setBlockFlags _ src _ _ ho =>
    by_cases hF : F = src
    · exact .inr (.inl (hF ▸ ho))
    · exact .inl (.of_fifos (by simp [hF, Store.fifoPoke, Store.fifoSetMaxQueued,
        Store.fifoSetBlockFlags]))

/-- While a level of a push is in its `distribute:` loop at `F`, holding `F`'s lock, no step
changes `F` but for its lists: not another thread, which would need the lock, and not the
pushing thread, whose deeper levels hold other locks. -/
theorem Step.guardedKept_of_distribute {G : FifoId → FifoId → Prop} (hL : m.LockOrder G)
    (hs : Step A m m') {t : ThreadId} {g : Frame} (hg : g ∈ (m.threads t).frames)
    (hd : g.phase = .distribute) : m.store.GuardedKept g.fifo m'.store := by
  have hgh : g.holds = true := by simp [Frame.holds, hd]
  have ho : m.owner g.fifo = some t := (hL.owner_iff _ _).2 (Pc.fifo_mem_held hg hgh)
  rcases hs.guarded_cases g.fifo with h | h | ⟨u, x, fr, fs, w, hu, hF, hp⟩
  · exact h
  · rw [ho] at h; cases h
  · -- the level storing at `F` holds `F`'s lock: it is a level of `t` at `F`, so it is `g`
    have hfr : fr ∈ (m.threads u).frames := by simp [hu, Pc.frames]
    have hfh : fr.holds = true := by simp [Frame.holds, hp]
    have hou : m.owner g.fifo = some u := hF ▸ (hL.owner_iff _ _).2 (Pc.fifo_mem_held hfr hfh)
    obtain rfl : u = t := Option.some.inj (hou.symm.trans ho)
    obtain rfl := Pc.holds_inj (hL.nodup u) hfr hg hfh hgh hF
    rw [hp] at hd; cases hd

/-- A level of a push is in its `distribute:` loop at `F`. -/
def Distributing (F : FifoId) (m : Machine) : Prop :=
  ∃ t, ∃ g ∈ (m.threads t).frames, g.fifo = F ∧ g.phase = .distribute

/-- The fan-out of an item is atomic for each FIFO it passes through: over any interleaving,
a run whose every step is taken while a level of a push is in its `distribute:` loop at `F`
leaves `F` as it was but for its lists. Between the store of a clone at `F` and the return
of that level, no consumer of `F` pops or peeks, no other push stores at `F`, and no thread
changes its capacity, flags or poke. -/
theorem run_fanOut_atomic {P : Machine → Prop} (hm : Reachable A P m) {F : FifoId}
    (hrun : Relation.ReflTransGen (fun a b => Step A a b ∧ Distributing F a) m m') :
    m.store.GuardedKept F m'.store := by
  let Q : Machine → Prop := fun m => ∀ S D, D ∈ (m.store.fifos S).dests → (fun _ _ => True) S D
  suffices h : Reachable A Q m' ∧ m.store.GuardedKept F m'.store from h.2
  induction hrun with
  | refl => exact ⟨hm.mono fun _ _ _ _ _ => trivial, .refl _ _⟩
  | tail _ hab ih =>
    obtain ⟨hs, t, g, hg, rfl, hd⟩ := hab
    exact ⟨ih.1.step hs fun _ _ _ => trivial,
      ih.2.trans (hs.guardedKept_of_distribute ih.1.lockOrder hg hd)⟩

/-- FIFO `0` mirrored into `1`; a push of item `7` to `0` has stored its clone at `0` and is
in its loop. The call on `1` takes `1`'s lock and stores a clone there, while `0` stays as
the store of its clone left it. -/
theorem run_fanOut_atomic_descend :
    let s := (((Store.init fun _ => true).fifoCreate 2 Flags.none).2.fifoCreate 2
      Flags.none).2.fifoMirror 1 0
    let s₁ := (s.pushEnqueue 0 (some 7)).2
    let m₁ := ((init s).setPc 0 (.push (some 7) [⟨0, 0, .acquire, [], .ok⟩])).fresh
    let m₂ := (m₁.setOwner 0 (some 0)).setPc 0 (.push (some 7) [⟨0, 0, .enqueue false, [], .ok⟩])
    let m₃ := (((m₂.setStore s₁).logAppend 0 (some 7) [⟨0, 0, .enqueue false, [], .ok⟩]).signal
      0).setPc 0 (.push (some 7) [⟨0, 0, .distribute, [1], .ok⟩])
    let lvl₀ : Frame := ⟨0, 0, .distribute, [], .ok⟩
    let m₄ := (m₃.setPc 0 (.push (some 7) [⟨1, 1, .acquire, [], .ok⟩, lvl₀])).fresh
    let m₅ := (m₄.setOwner 1 (some 0)).setPc 0
      (.push (some 7) [⟨1, 1, .enqueue false, [], .ok⟩, lvl₀])
    let m₆ := (((m₅.setStore (s₁.pushEnqueue 1 (some 7)).2).logAppend 1 (some 7)
      [⟨1, 1, .enqueue false, [], .ok⟩, lvl₀]).signal 1).setPc 0
      (.push (some 7) [⟨1, 1, .distribute, [], .ok⟩, lvl₀])
    Reachable (fun _ _ => True) (fun _ => True) m₃ ∧
      Relation.ReflTransGen (fun a b => Step (fun _ _ => True) a b ∧ Distributing 0 a) m₃ m₆ ∧
      (m₆.store.fifos 1).numQueued = 1 ∧ m₃.store.GuardedKept 0 m₆.store := by
  intro s s₁ m₁ m₂ m₃ lvl₀ m₄ m₅ m₆
  have h₀ : s.Reachable :=
    (((Store.Reachable.init _).create 2 Flags.none).create 2 Flags.none).mirror 1 0 (by decide)
      (by decide)
  have h₃ : Reachable (fun _ _ => True) (fun _ => True) m₃ :=
    .step (.step (.step (.init h₀ trivial) (@Step.startPush _ _ 0 0 (some 7) rfl trivial) trivial)
      (@Step.pushLock _ _ 0 (some 7) ⟨0, 0, .acquire, [], .ok⟩ [] rfl rfl rfl rfl) trivial)
      (@Step.pushAppend _ _ 0 (some 7) ⟨0, 0, .enqueue false, [], .ok⟩ [] false _ rfl rfl rfl)
      trivial
  have hd : ∀ m : Machine, lvl₀ ∈ (m.threads 0).frames → Distributing 0 m :=
    fun _ h => ⟨0, lvl₀, h, rfl, rfl⟩
  have hrun : Relation.ReflTransGen (fun a b => Step (fun _ _ => True) a b ∧ Distributing 0 a)
      m₃ m₆ :=
    .tail (.tail (.single
      ⟨@Step.pushDescend _ _ 0 (some 7) ⟨0, 0, .distribute, [1], .ok⟩ [] 1 [] rfl rfl rfl,
        ⟨0, ⟨0, 0, .distribute, [1], .ok⟩, by simp [m₃, Pc.frames], rfl, rfl⟩⟩)
      ⟨@Step.pushLock _ _ 0 (some 7) ⟨1, 1, .acquire, [], .ok⟩ [lvl₀] rfl rfl rfl rfl,
        hd _ (by simp [m₄, Pc.frames])⟩)
      ⟨@Step.pushAppend _ _ 0 (some 7) ⟨1, 1, .enqueue false, [], .ok⟩ [lvl₀] false _ rfl rfl rfl,
        hd _ (by simp [m₅, Pc.frames])⟩
  exact ⟨h₃, hrun, rfl, run_fanOut_atomic h₃ hrun⟩

end Machine

end Txproto
