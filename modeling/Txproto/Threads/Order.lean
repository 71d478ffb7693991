-- SUMMARY: The order of the fan-out across threads: a push call holds its FIFO's lock from its first append to its last, so the appends of two calls to one FIFO never interleave, at any destination.
import Txproto.Threads.Contents

/-!
# Order of the fan-out

Every append is logged with the push calls in progress on the appending thread, each with
its FIFO. A call to `S` appends, itself or through the levels below it, only while it holds
`S`'s lock: from its store at `S` (or its `goto distribute`) to its return. Two calls to `S`
hold that lock in turn, so in the log the appends of one come all before or all after the
appends of the other (`reachable_pushes_ordered`): every destination receives the items of
`S` in the one order in which the calls to `S` took its lock.

Calls are named fresh, so a name in the log belongs to one call. The invariant `Ordered`
says that names are fresh and unique, that a call that does not hold its lock has no append
yet, and that once a call that holds its lock has appended, every later append under its
FIFO is its own.
-/

namespace Txproto

/-- The call of a level and its FIFO, as the log records them. -/
def Frame.key (g : Frame) : CallId × FifoId := (g.call, g.fifo)

theorem Frame.call_eq_of_key {g p : Frame} (h : g.key = p.key) : g.call = p.call :=
  congrArg Prod.fst h

theorem Frame.fifo_eq_of_key {g p : Frame} (h : g.key = p.key) : g.fifo = p.fifo :=
  congrArg Prod.snd h

theorem Pc.frames_pushReturn_key (x : Item) (fs : List Frame) (r : Ret) :
    (Pc.pushReturn x fs r).frames.map Frame.key = fs.map Frame.key := by
  cases fs <;> rfl

theorem Pc.frames_pushReturn_holds {x : Item} {fs : List Frame} {r : Ret} {g : Frame}
    (hg : g ∈ (Pc.pushReturn x fs r).frames) : ∃ p ∈ fs, p.call = g.call ∧ p.holds = g.holds := by
  cases fs with
  | nil => simp [Pc.pushReturn, Pc.frames] at hg
  | cons p fs =>
    simp only [Pc.pushReturn, Pc.frames, List.mem_cons] at hg
    rcases hg with rfl | hg
    · exact ⟨p, List.mem_cons_self _ _, rfl, by simp [Frame.holds]⟩
    · exact ⟨g, List.mem_cons_of_mem _ hg, rfl, rfl⟩

namespace Machine

/-- The appends of two push calls to one FIFO do not interleave in the log: between two
appends under the call `c` to `S` there is none under another call to `S`. -/
def NonInterleaved (L : List Append) : Prop :=
  ∀ a b d, [a, b, d].Sublist L → ∀ c c' S,
    (c, S) ∈ a.calls → (c', S) ∈ b.calls → (c, S) ∈ d.calls → c' = c

/-- The order discipline of a state. -/
structure Ordered (m : Machine) : Prop where
  fresh_log : ∀ a ∈ m.log, ∀ p ∈ a.calls, p.1 < m.nextCall
  fresh_frames : ∀ t, ∀ g ∈ (m.threads t).frames, g.call < m.nextCall
  unique : ∀ t u, ∀ g ∈ (m.threads t).frames, ∀ h ∈ (m.threads u).frames, g.call = h.call → t = u
  nodup : ∀ t, ((m.threads t).frames.map Frame.call).Nodup
  /-- A call that does not hold its lock has not appended. -/
  idle : ∀ t, ∀ g ∈ (m.threads t).frames, g.holds = false → ∀ a ∈ m.log, ∀ p ∈ a.calls,
    p.1 ≠ g.call
  /-- After an append under a call that holds its lock, every append under its FIFO is its. -/
  last : ∀ t, ∀ g ∈ (m.threads t).frames, g.holds = true → ∀ a b, [a, b].Sublist m.log →
    g.key ∈ a.calls → ∀ c, (c, g.fifo) ∈ b.calls → c = g.call
  order : NonInterleaved m.log
  /-- An append is made under at most one call to each FIFO. -/
  distinct : ∀ a ∈ m.log, ∀ c c' S, (c, S) ∈ a.calls → (c', S) ∈ a.calls → c = c'

theorem ordered_init (s : Store) : (init s).Ordered where
  fresh_log := by simp [init]
  fresh_frames := by simp [init, Pc.frames]
  unique := by simp [init, Pc.frames]
  nodup := by simp [init, Pc.frames]
  idle := by simp [init]
  last := by simp [init]
  order := by simp [NonInterleaved, init]
  distinct := by simp [init]

variable {m m' : Machine}

/-- Levels whose keys are some of the old ones, under the same next call, keep what `Ordered`
says of the calls alone: each is fresh, of one thread, and once in its thread. -/
theorem Ordered.calls_of_keys (h : m.Ordered) (hnext : m'.nextCall = m.nextCall)
    (hkey : ∀ u, ((m'.threads u).frames.map Frame.key).Sublist ((m.threads u).frames.map Frame.key)) :
    (∀ t, ∀ g ∈ (m'.threads t).frames, g.call < m'.nextCall) ∧
    (∀ t u, ∀ g ∈ (m'.threads t).frames, ∀ k ∈ (m'.threads u).frames, g.call = k.call → t = u) ∧
    ∀ t, ((m'.threads t).frames.map Frame.call).Nodup := by
  have old : ∀ u, ∀ g ∈ (m'.threads u).frames, ∃ p ∈ (m.threads u).frames, p.key = g.key :=
    fun u g hg => List.mem_map.1 ((hkey u).subset (List.mem_map_of_mem _ hg))
  refine ⟨fun u g hg => ?_, fun u v g hg k hk e => ?_, fun u => ?_⟩
  · obtain ⟨p, hp, he⟩ := old u g hg
    exact hnext ▸ Frame.call_eq_of_key he ▸ h.fresh_frames u p hp
  · obtain ⟨p, hp, hpe⟩ := old u g hg
    obtain ⟨q, hq, hqe⟩ := old v k hk
    exact h.unique u v p hp q hq (by rw [Frame.call_eq_of_key hpe, Frame.call_eq_of_key hqe, e])
  · have : (m'.threads u).frames.map Frame.call =
        ((m'.threads u).frames.map Frame.key).map Prod.fst := by simp [Frame.key]
    rw [this]
    exact (h.nodup u).sublist (by simpa [Frame.key] using (hkey u).map Prod.fst)

/-- A step that adds no call and no append: every thread's levels are some of its levels
before, and a level that does not hold its lock did not hold it before. -/
theorem Ordered.of_frames (h : m.Ordered) (hlog : m'.log = m.log) (hnext : m'.nextCall = m.nextCall)
    (hkey : ∀ u, ((m'.threads u).frames.map Frame.key).Sublist ((m.threads u).frames.map Frame.key))
    (hidle : ∀ u, ∀ g ∈ (m'.threads u).frames, g.holds = false →
      ∃ p ∈ (m.threads u).frames, p.call = g.call ∧ p.holds = false) : m'.Ordered := by
  obtain ⟨hfresh, hunique, hnodup⟩ := h.calls_of_keys hnext hkey
  refine ⟨hlog ▸ hnext ▸ h.fresh_log, hfresh, hunique, hnodup, fun u g hg hh => ?_,
    fun u g hg hh => ?_, hlog ▸ h.order, hlog ▸ h.distinct⟩
  · obtain ⟨p, hp, hpc, hph⟩ := hidle u g hg hh
    exact hlog ▸ hpc ▸ h.idle u p hp hph
  · obtain ⟨p, hp, hpe⟩ := List.mem_map.1 ((hkey u).subset (List.mem_map_of_mem _ hg))
    intro a b hab ha c hc
    rw [hlog] at hab
    cases hph : p.holds
    · exact absurd rfl (h.idle u p hp hph a (hab.subset (List.mem_cons_self _ _)) _
        (hpe ▸ ha))
    · exact Frame.call_eq_of_key hpe ▸
        h.last u p hp hph a b hab (hpe ▸ ha) c (Frame.fifo_eq_of_key hpe ▸ hc)

/-- No append and no call added, and every thread's levels as they were. -/
theorem Ordered.of_frames_eq (h : m.Ordered) (hlog : m'.log = m.log)
    (hnext : m'.nextCall = m.nextCall) (hfr : ∀ u, (m'.threads u).frames = (m.threads u).frames) :
    m'.Ordered :=
  h.of_frames hlog hnext (fun u => hfr u ▸ .refl _) fun u g hg hh => ⟨g, hfr u ▸ hg, rfl, hh⟩

/-- Thread `t` changes its levels to some of them, and a level that does not hold its lock did
not hold it before. -/
theorem Ordered.setFrames (h : m.Ordered) {t : ThreadId} (hlog : m'.log = m.log)
    (hnext : m'.nextCall = m.nextCall) (hother : ∀ u ≠ t, m'.threads u = m.threads u)
    (hkey : ((m'.threads t).frames.map Frame.key).Sublist ((m.threads t).frames.map Frame.key))
    (hidle : ∀ g ∈ (m'.threads t).frames, g.holds = false →
      ∃ p ∈ (m.threads t).frames, p.call = g.call ∧ p.holds = false) : m'.Ordered := by
  refine h.of_frames hlog hnext (fun u => ?_) fun u => ?_
  · by_cases hu : u = t
    · exact hu ▸ hkey
    · rw [hother u hu]
  · by_cases hu : u = t
    · exact hu ▸ hidle
    · intro g hg hh; exact ⟨g, by rwa [← hother u hu], rfl, hh⟩

/-- The top level of thread `t` moves on, keeping its call and FIFO; if it then does not hold
its lock, it did not before. -/
theorem Ordered.setTop (h : m.Ordered) {t : ThreadId} {x : Item} {fr : Frame} {fs : List Frame}
    (ht : m.threads t = .push x (fr :: fs)) (fr' : Frame) (hlog : m'.log = m.log)
    (hnext : m'.nextCall = m.nextCall) (hother : ∀ u ≠ t, m'.threads u = m.threads u)
    (hthr : m'.threads t = .push x (fr' :: fs)) (hkey : fr'.key = fr.key)
    (hh : fr'.holds = false → fr.holds = false) : m'.Ordered := by
  refine h.setFrames hlog hnext hother (by simp [ht, hthr, Pc.frames, hkey]) fun g hg hgh => ?_
  simp only [hthr, Pc.frames, List.mem_cons] at hg
  rw [ht]
  rcases hg with rfl | hg
  · exact ⟨fr, List.mem_cons_self _ _, congrArg Prod.fst hkey.symm, hh hgh⟩
  · exact ⟨g, List.mem_cons_of_mem _ hg, rfl, hgh⟩

/-- The top level of thread `t` returns `r` to its caller. -/
theorem Ordered.pushReturn (h : m.Ordered) {t : ThreadId} {x : Item} {fr : Frame}
    {fs : List Frame} (ht : m.threads t = .push x (fr :: fs)) (r : Ret) (hlog : m'.log = m.log)
    (hnext : m'.nextCall = m.nextCall) (hother : ∀ u ≠ t, m'.threads u = m.threads u)
    (hthr : m'.threads t = Pc.pushReturn x fs r) : m'.Ordered := by
  refine h.setFrames hlog hnext hother ?_ fun g hg hgh => ?_
  · rw [hthr, Pc.frames_pushReturn_key, ht]
    exact List.sublist_cons_self _ _
  · rw [hthr] at hg
    obtain ⟨p, hp, hpc, hph⟩ := Pc.frames_pushReturn_holds hg
    exact ⟨p, by rw [ht]; exact List.mem_cons_of_mem _ hp, hpc, hph ▸ hgh⟩

/-- Thread `t` calls a push: a new level on top, not holding its lock, under a fresh name. -/
theorem Ordered.addFrame (h : m.Ordered) (t : ThreadId) (g₀ : Frame) (hlog : m'.log = m.log)
    (hnext : m'.nextCall = m.nextCall + 1)
    (hother : ∀ u ≠ t, (m'.threads u).frames = (m.threads u).frames)
    (ht : (m'.threads t).frames = g₀ :: (m.threads t).frames) (hg₀ : g₀.call = m.nextCall)
    (hh₀ : g₀.holds = false) : m'.Ordered := by
  have cases : ∀ u, ∀ g ∈ (m'.threads u).frames, (u = t ∧ g = g₀) ∨ g ∈ (m.threads u).frames :=
    fun u g hg => by
      by_cases hu : u = t
      · subst hu; rw [ht] at hg; exact (List.mem_cons.1 hg).imp (⟨rfl, ·⟩) id
      · exact .inr (hother u hu ▸ hg)
  refine ⟨fun a ha p hp => hnext ▸ Nat.lt_succ_of_lt (h.fresh_log a (hlog ▸ ha) p hp),
    fun u g hg => ?_, fun u v g hg k hk e => ?_, fun u => ?_, fun u g hg hh => ?_,
    fun u g hg hh => ?_, hlog ▸ h.order, hlog ▸ h.distinct⟩
  · rcases cases u g hg with ⟨-, rfl⟩ | hg
    · rw [hnext, hg₀]; exact Nat.lt_succ_self _
    · exact hnext ▸ Nat.lt_succ_of_lt (h.fresh_frames u g hg)
  · rcases cases u g hg with ⟨rfl, rfl⟩ | hg <;> rcases cases v k hk with ⟨rfl, rfl⟩ | hk
    · rfl
    · exact absurd (h.fresh_frames v k hk) (by rw [← e, hg₀]; exact lt_irrefl _)
    · exact absurd (h.fresh_frames u g hg) (by rw [e, hg₀]; exact lt_irrefl _)
    · exact h.unique u v g hg k hk e
  · by_cases hu : u = t
    · subst hu
      rw [ht, List.map_cons, List.nodup_cons]
      exact ⟨fun hm => by
        obtain ⟨p, hp, he⟩ := List.mem_map.1 hm
        exact absurd (h.fresh_frames u p hp) (by rw [he, hg₀]; exact lt_irrefl _), h.nodup u⟩
    · rw [hother u hu]; exact h.nodup u
  · rcases cases u g hg with ⟨-, rfl⟩ | hg
    · intro a ha p hp
      exact Nat.ne_of_lt (hg₀ ▸ h.fresh_log a (hlog ▸ ha) p hp)
    · exact hlog ▸ h.idle u g hg hh
  · rcases cases u g hg with ⟨-, rfl⟩ | hg
    · exact absurd hh (by simp [hh₀])
    · exact hlog ▸ h.last u g hg hh

/-- A sublist of a log with one more append: of the old log, or ending with the new append. -/
theorem sublist_append_singleton {l L : List Append} {e : Append} (h : l.Sublist (L ++ [e])) :
    l.Sublist L ∨ ∃ l', l = l' ++ [e] ∧ l'.Sublist L := by
  obtain ⟨l₁, l₂, rfl, h₁, h₂⟩ := List.sublist_append_iff.1 h
  rcases List.sublist_singleton.1 h₂ with rfl | rfl
  · exact .inl (by simpa using h₁)
  · exact .inr ⟨l₁, rfl, h₁⟩

theorem sublist_pair_append {a b e : Append} {L : List Append} (h : [a, b].Sublist (L ++ [e])) :
    [a, b].Sublist L ∨ a ∈ L ∧ b = e := by
  rcases sublist_append_singleton h with h | ⟨l', hl, h⟩
  · exact .inl h
  · have hl' : [a] ++ [b] = l' ++ [e] := hl
    obtain ⟨rfl, hb⟩ := List.append_inj' hl' rfl
    exact .inr ⟨h.subset (List.mem_singleton_self a), List.singleton_inj.1 hb⟩

theorem sublist_triple_append {a b d e : Append} {L : List Append}
    (h : [a, b, d].Sublist (L ++ [e])) : [a, b, d].Sublist L ∨ [a, b].Sublist L ∧ d = e := by
  rcases sublist_append_singleton h with h | ⟨l', hl, h⟩
  · exact .inl h
  · have hl' : [a, b] ++ [d] = l' ++ [e] := hl
    obtain ⟨rfl, hd⟩ := List.append_inj' hl' rfl
    exact .inr ⟨h, List.singleton_inj.1 hd⟩

/-- Thread `t` appends under its levels `fr :: fs`, all holding their locks, and keeps them. -/
theorem Ordered.append {G : FifoId → FifoId → Prop} (h : m.Ordered) (hL : m.LockOrder G)
    {t : ThreadId} {fr : Frame} {fs : List Frame} (ht : (m.threads t).frames = fr :: fs)
    (hall : ∀ g ∈ fr :: fs, g.holds = true) {F : FifoId} {x : Item}
    (hlog : m'.log = m.log ++ [⟨F, x, (fr :: fs).map Frame.key⟩]) (hnext : m'.nextCall = m.nextCall)
    (hfr : ∀ u, (m'.threads u).frames.map (fun g => (g.key, g.holds)) =
      (m.threads u).frames.map (fun g => (g.key, g.holds))) : m'.Ordered := by
  have old : ∀ u, ∀ g ∈ (m'.threads u).frames, ∃ p ∈ (m.threads u).frames,
      p.key = g.key ∧ p.holds = g.holds := fun u g hg => by
    obtain ⟨p, hp, he⟩ := List.mem_map.1 (hfr u ▸ List.mem_map_of_mem _ hg)
    exact ⟨p, hp, congrArg Prod.fst he, congrArg Prod.snd he⟩
  have keys : ∀ u, (m'.threads u).frames.map Frame.key = (m.threads u).frames.map Frame.key :=
    fun u => by simpa using congrArg (List.map Prod.fst) (hfr u)
  obtain ⟨hfresh, hunique, hnodup⟩ := h.calls_of_keys hnext fun u => (keys u).symm ▸ .refl _
  -- an append of the new entry under `S` is made by `t`'s level at `S`
  have mem_new : ∀ {c S}, (c, S) ∈ ((fr :: fs).map Frame.key) →
      ∃ p ∈ (m.threads t).frames, p.call = c ∧ p.fifo = S ∧ p.holds = true := fun hm => by
    obtain ⟨p, hp, he⟩ := List.mem_map.1 hm
    exact ⟨p, ht ▸ hp, congrArg Prod.fst he, congrArg Prod.snd he, hall p hp⟩
  -- only `t`'s level at `S` can hold `S`'s lock
  have owner : ∀ {u g p}, g ∈ (m.threads u).frames → g.holds = true →
      p ∈ (m.threads t).frames → p.holds = true → p.fifo = g.fifo → g = p :=
    fun hg hgh hp hph he => by
      have hu := (hL.owner_iff _ _).2 (Pc.fifo_mem_held hg hgh)
      have htt := (hL.owner_iff _ _).2 (Pc.fifo_mem_held hp hph)
      rw [he, hu] at htt
      cases htt
      exact Pc.holds_inj (hL.nodup _) hg hp hgh hph he.symm
  have lastNew : ∀ u, ∀ g ∈ (m.threads u).frames, g.holds = true → ∀ a, a ∈ m.log →
      g.key ∈ a.calls → ∀ c, (c, g.fifo) ∈ ((fr :: fs).map Frame.key) → c = g.call :=
    fun u g hg hgh a _ _ c hc => by
      obtain ⟨p, hp, rfl, hpf, hph⟩ := mem_new hc
      exact (congrArg Frame.call (owner hg hgh hp hph hpf)).symm
  refine ⟨fun a ha p hp => ?_, hfresh, hunique, hnodup, fun u g hg hh => ?_,
    fun u g hg hh => ?_, ?_, fun a ha c c' S hc hc' => ?_⟩
  · rw [hlog, List.mem_append, List.mem_singleton] at ha
    rcases ha with ha | rfl
    · exact hnext ▸ h.fresh_log a ha p hp
    · obtain ⟨q, hq, hqe⟩ := List.mem_map.1 hp
      exact hnext ▸ hqe ▸ h.fresh_frames t q (ht ▸ hq)
  · obtain ⟨p, hp, hpe, hph⟩ := old u g hg
    have hpc : p.call = g.call := Frame.call_eq_of_key hpe
    intro a ha q hq
    rw [hlog, List.mem_append, List.mem_singleton] at ha
    rcases ha with ha | rfl
    · exact hpc ▸ h.idle u p hp (hph.trans hh) a ha q hq
    · intro hqc
      obtain ⟨r, hr, hrc, -, hrh⟩ := mem_new (c := q.1) (S := q.2) hq
      have hcall : p.call = r.call := hpc.trans (hqc.symm.trans hrc.symm)
      obtain rfl := h.unique u t p hp r hr hcall
      obtain rfl : p = r := List.inj_on_of_nodup_map (h.nodup u) hp hr hcall
      exact Bool.false_ne_true ((hph.trans hh).symm.trans hrh)
  · obtain ⟨p, hp, hpe, hph⟩ := old u g hg
    have hpf : p.fifo = g.fifo := Frame.fifo_eq_of_key hpe
    intro a b hab ha c hc
    rw [hlog] at hab
    rcases sublist_pair_append hab with hab | ⟨ha', rfl⟩
    · exact (Frame.call_eq_of_key hpe) ▸ h.last u p hp (hph.trans hh) a b hab (hpe ▸ ha) c (hpf ▸ hc)
    · exact (Frame.call_eq_of_key hpe) ▸ lastNew u p hp (hph.trans hh) a ha' (hpe ▸ ha) c (hpf ▸ hc)
  · intro a b d habd c c' S ha hb hd
    rw [hlog] at habd
    rcases sublist_triple_append habd with habd | ⟨hab, rfl⟩
    · exact h.order a b d habd c c' S ha hb hd
    · obtain ⟨p, hp, rfl, rfl, hph⟩ := mem_new hd
      exact h.last t p hp hph a b hab ha c' hb
  · rw [hlog, List.mem_append, List.mem_singleton] at ha
    rcases ha with ha | rfl
    · exact h.distinct a ha c c' S hc hc'
    · -- the new append's levels hold their locks, so two of them are at two FIFOs
      obtain ⟨p, hp, rfl, rfl, hph⟩ := mem_new hc
      obtain ⟨q, hq, rfl, hqf, hqh⟩ := mem_new hc'
      exact congrArg Frame.call (owner hq hqh hp hph hqf.symm).symm

theorem frames_setPc_eq {t : ThreadId} {pc : Pc} (h : pc.frames = (m.threads t).frames)
    (u : ThreadId) : ((m.setPc t pc).threads u).frames = (m.threads u).frames := by
  by_cases hu : u = t <;> simp [hu, h]

/-- Every step keeps the order discipline, given the lock discipline before it. -/
theorem Ordered.step {A : ThreadId → Op → Prop} {G : FifoId → FifoId → Prop} (h : m.Ordered)
    (hL : m.LockOrder G) (hs : Step A m m') : m'.Ordered := by
  cases hs with
  | @startPush t dst x ht _ =>
    exact h.addFrame t ⟨dst, m.nextCall, .acquire, [], .ok⟩ rfl rfl (fun u hu => by simp [hu])
      (by simp [ht, Pc.frames]) rfl rfl
  | startPull ht _ | startPoke ht _ | startSetMaxQueued ht _ | startSetBlockFlags ht _
  | startMirror ht _ | startUnmirror ht _ _ | startUnmirrorFail ht _ _ | startUnmirrorAll ht _
  | pullTake ht _ _ _ | pullAbort ht _ _ _ _ | pullAgain ht _ _ | pullWait ht _ _ | pullWake ht
  | pokeSet ht _ | setMaxQueued ht _ | setBlockFlags ht _ | mirrorDest ht | unmirrorSource ht _
  | unmirrorFail ht _ | unmirrorAllLock ht _ | unmirrorAllSource ht _
  | unmirrorAllUnlinkSource ht | unmirrorAllSourcesDone ht _ | unmirrorAllDest ht _
  | unmirrorAllDone ht _ =>
    exact h.of_frames_eq rfl rfl (frames_setPc_eq (by simp [ht, Pc.frames]))
  | pokeSignal ht | unmirrorAllUnlinkDest ht =>
    exact h.of_frames_eq rfl rfl fun u =>
      (frames_setPc_eq (by simp [ht, Pc.frames, Pc.signal]) u).trans (Pc.frames_signal _ _)
  | pushSkip ht hp _ _ | pushWait ht hp _ _ | pushLock ht hp _ _ | pushWake ht hp
  | pushReacquire ht hp _ =>
    exact h.setTop ht _ rfl rfl (fun u hu => by simp [hu]) (Function.update_same _ _ _) rfl
      (by simp [Frame.holds, hp])
  | pushFull ht _ _ _ | pushNoMem ht _ _ | pushDone ht _ _ =>
    exact h.pushReturn ht _ rfl rfl (fun u hu => by simp [hu]) (Function.update_same _ _ _)
  | @pushDescend t x fr fs d rest ht hp _ =>
    have h₁ : (m.setPc t (.push x ({ fr with pending := rest } :: fs))).Ordered :=
      h.setTop ht _ rfl rfl (fun u hu => by simp [hu]) (Function.update_same _ _ _) rfl
        (by simp [Frame.holds, hp])
    exact h₁.addFrame t ⟨d, m.nextCall, .acquire, [], .ok⟩ rfl rfl (fun u hu => by simp [hu])
      (by simp [Pc.frames]) rfl rfl
  | @pushAppend t x fr fs w s' ht hp _ =>
    have hf := hL.framesOf ht
    refine h.append hL (by rw [ht]; rfl) (fun g hg => ?_) rfl rfl fun u => ?_
    · rcases List.mem_cons.1 hg with rfl | hg
      · simp [Frame.holds, hp]
      · simp [Frame.holds, hf.2.1 g hg]
    · by_cases hu : u = t
      · subst hu; simp [ht, Pc.frames, Frame.key, Frame.holds, hp]
      · simp [hu]

/-- Every state of every run keeps the order discipline. -/
theorem Reachable.ordered {A : ThreadId → Op → Prop} {P : Machine → Prop}
    (hm : Reachable A P m) : m.Ordered := by
  induction hm with
  | init _ _ => exact ordered_init _
  | step hm' hs _ ih =>
    exact ih.step (hm'.mono (Q := fun m => ∀ S D, D ∈ (m.store.fifos S).dests → True)
      fun _ _ _ _ _ => trivial).lockOrder hs

/-- The states a run of steps passes through from a state of a run are states of a run. -/
theorem Reachable.steps {A : ThreadId → Op → Prop} (hm : Reachable A (fun _ => True) m)
    (hr : Relation.ReflTransGen (Step A) m m') : Reachable A (fun _ => True) m' := by
  induction hr with
  | refl => exact hm
  | tail _ hs ih => exact .step ih hs trivial

/-- `D` received an item of the push call `c` to `S` before one of the call `c'` to `S`. -/
def ReceivedBefore (L : List Append) (S : FifoId) (c c' : CallId) (D : FifoId) : Prop :=
  ∃ a b, [a, b].Sublist L ∧ a.fifo = D ∧ b.fifo = D ∧ (c, S) ∈ a.calls ∧ (c', S) ∈ b.calls

theorem NonInterleaved.tail {x : Append} {L : List Append} (h : NonInterleaved (x :: L)) :
    NonInterleaved L := fun a b d habd => h a b d (habd.cons x)

/-- A pair of a log with one more append in front: of the rest, or led by that append. -/
theorem sublist_pair_cons {a b x : Append} {L : List Append} (h : [a, b].Sublist (x :: L)) :
    [a, b].Sublist L ∨ x = a ∧ b ∈ L := by
  rcases List.sublist_cons_iff.1 h with h | ⟨r, hr, h⟩
  · exact .inl h
  · obtain ⟨rfl, rfl⟩ := List.cons.inj hr
    exact .inr ⟨rfl, List.singleton_sublist.1 h⟩

/-- Two calls to `S` whose appends never interleave reach all FIFOs in one order: when `D`
received an item of `c` before one of `c'`, no FIFO received one of `c'` before one of `c`. -/
theorem NonInterleaved.receivedBefore {L : List Append} (h : NonInterleaved L)
    (hd : ∀ a ∈ L, ∀ c c' S, (c, S) ∈ a.calls → (c', S) ∈ a.calls → c = c')
    {S : FifoId} {c c' : CallId} (hne : c ≠ c') {D D' : FifoId}
    (h₁ : ReceivedBefore L S c c' D) : ¬ ReceivedBefore L S c' c D' := by
  rintro ⟨b', a', hba, -, -, hb', ha'⟩
  obtain ⟨a, b, hab, -, -, ha, hb⟩ := h₁
  induction L with
  | nil => exact absurd hab (by simp)
  | cons x L ih =>
    rcases sublist_pair_cons hab with hab | ⟨hxa, -⟩ <;>
      rcases sublist_pair_cons hba with hba | ⟨hxb, -⟩
    · exact ih h.tail (fun y hy => hd y (List.mem_cons_of_mem _ hy)) hba hab
    · -- `x` is `b'`, of `c'`; then come `a` of `c` and `b` of `c'`
      exact hne (h x a b (List.cons_sublist_cons.2 hab) c' c S (hxb ▸ hb') ha hb)
    · -- `x` is `a`, of `c`; then come `b'` of `c'` and `a'` of `c`
      exact hne (h x b' a' (List.cons_sublist_cons.2 hba) c c' S (hxa ▸ ha) hb' ha').symm
    · exact hne (hd x (List.mem_cons_self _ _) c c' S (hxa ▸ ha) (hxb ▸ hb'))

/-- The order of the fan-out, over every interleaving from a store of the program: every
FIFO's queue is what the log delivered to it, the appends of two push calls to one FIFO `S`
never interleave, and all FIFOs receive the items of two calls to `S` in one order. -/
theorem reachable_pushes_ordered {A : ThreadId → Op → Prop} {s : Store} (hs : s.Reachable)
    (hrun : Relation.ReflTransGen (Step A) (init s) m) :
    (∀ D, (m.store.fifos D).view <:+ (s.fifos D).view ++ appendsAt D m.log) ∧
    NonInterleaved m.log ∧
    ∀ S c c' D D', c ≠ c' → ReceivedBefore m.log S c c' D → ¬ ReceivedBefore m.log S c' c D' := by
  have ho := ((Reachable.init (A := A) (P := fun _ => True) hs trivial).steps hrun).ordered
  exact ⟨(queue_suffix_of_run hs.fits hrun).2, ho.order,
    fun _ _ _ _ _ hne h => ho.order.receivedBefore ho.distinct hne h⟩

/-- FIFO `0` mirrored into `1`: thread `0` pushes item `7` to `0`, then thread `1` pushes item `8`;
FIFO `1` receives `7`, under calls `1` and `0`, before `8`, under calls `3` and `2`. -/
theorem reachable_pushes_ordered_two :
    let s := (((Store.init fun _ => true).fifoCreate 2 Flags.none).2.fifoCreate 2
      Flags.none).2.fifoMirror 1 0
    ∃ m, Relation.ReflTransGen (Step fun _ _ => True) (init s) m ∧
      m.log = [⟨0, some 7, [(0, 0)]⟩, ⟨1, some 7, [(1, 1), (0, 0)]⟩, ⟨0, some 8, [(2, 0)]⟩,
        ⟨1, some 8, [(3, 1), (2, 0)]⟩] ∧ ReceivedBefore m.log 0 0 2 1 ∧
      ((∀ D, (m.store.fifos D).view <:+ (s.fifos D).view ++ appendsAt D m.log) ∧
        NonInterleaved m.log ∧ ∀ S c c' D D', c ≠ c' → ReceivedBefore m.log S c c' D →
          ¬ ReceivedBefore m.log S c' c D') := by
  intro s
  have hs : s.Reachable := (((Store.Reachable.init fun _ => true).create 2 Flags.none).create 2
    Flags.none).mirror 1 0 (by decide) (by decide)
  -- thread `0` pushes `7`: call `0` at FIFO `0`, and call `1` at FIFO `1` below it
  have r₁ := Relation.ReflTransGen.single (r := Step fun _ _ => True)
    (@Step.startPush _ (init s) 0 0 (some 7) rfl trivial)
  have r₂ := r₁.tail (@Step.pushLock _ _ 0 (some 7) ⟨0, 0, .acquire, [], .ok⟩ [] rfl rfl rfl rfl)
  have r₃ := r₂.tail (@Step.pushAppend _ _ 0 (some 7) ⟨0, 0, .enqueue false, [], .ok⟩ [] false _
    rfl rfl rfl)
  have r₄ := r₃.tail (@Step.pushDescend _ _ 0 (some 7) ⟨0, 0, .distribute, [1], .ok⟩ [] 1 []
    rfl rfl rfl)
  have r₅ := r₄.tail (@Step.pushLock _ _ 0 (some 7) ⟨1, 1, .acquire, [], .ok⟩
    [⟨0, 0, .distribute, [], .ok⟩] rfl rfl rfl rfl)
  have r₆ := r₅.tail (@Step.pushAppend _ _ 0 (some 7) ⟨1, 1, .enqueue false, [], .ok⟩
    [⟨0, 0, .distribute, [], .ok⟩] false _ rfl rfl rfl)
  have r₇ := r₆.tail (@Step.pushDone _ _ 0 (some 7) ⟨1, 1, .distribute, [], .ok⟩
    [⟨0, 0, .distribute, [], .ok⟩] rfl rfl rfl)
  have r₈ := r₇.tail (@Step.pushDone _ _ 0 (some 7) ⟨0, 0, .distribute, [], .ok⟩ [] rfl rfl rfl)
  -- thread `1` pushes `8`: calls `2` and `3`
  have r₉ := r₈.tail (@Step.startPush _ _ 1 0 (some 8) rfl trivial)
  have r₁₀ := r₉.tail (@Step.pushLock _ _ 1 (some 8) ⟨0, 2, .acquire, [], .ok⟩ [] rfl rfl rfl rfl)
  have r₁₁ := r₁₀.tail (@Step.pushAppend _ _ 1 (some 8) ⟨0, 2, .enqueue false, [], .ok⟩ [] false _
    rfl rfl rfl)
  have r₁₂ := r₁₁.tail (@Step.pushDescend _ _ 1 (some 8) ⟨0, 2, .distribute, [1], .ok⟩ [] 1 []
    rfl rfl rfl)
  have r₁₃ := r₁₂.tail (@Step.pushLock _ _ 1 (some 8) ⟨1, 3, .acquire, [], .ok⟩
    [⟨0, 2, .distribute, [], .ok⟩] rfl rfl rfl rfl)
  have r₁₄ := r₁₃.tail (@Step.pushAppend _ _ 1 (some 8) ⟨1, 3, .enqueue false, [], .ok⟩
    [⟨0, 2, .distribute, [], .ok⟩] false _ rfl rfl rfl)
  refine ⟨_, r₁₄, rfl, ?_, reachable_pushes_ordered hs r₁₄⟩
  show ReceivedBefore [⟨0, some 7, [(0, 0)]⟩, ⟨1, some 7, [(1, 1), (0, 0)]⟩, ⟨0, some 8, [(2, 0)]⟩,
    ⟨1, some 8, [(3, 1), (2, 0)]⟩] 0 0 2 1
  exact ⟨_, _, .cons _ (.cons₂ _ (.cons _ (.cons₂ _ .slnil))), rfl, rfl, by simp, by simp⟩

end Machine

end Txproto
