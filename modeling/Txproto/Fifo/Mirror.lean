-- SUMMARY: fifo_mirror, fifo_unmirror and fifo_unmirror_all on the store, and the symmetry of dests and sources they keep.
import Txproto.Fifo.Basic

/-!
# Mirroring

The three calls that edit the mirror graph. Each is a sequence of buffer-list operations:
`fifo_mirror` appends on both sides, `fifo_unmirror` pops the two entries by identity, and
`fifo_unmirror_all` pops every source and every destination of a FIFO together with the
reciprocal entry in the peer.

Every buffer-list step is one of two shapes, `link` (append on both sides) and `unlink`
(erase one entry on both sides), and both keep the lists symmetric: for all `S` and `D`, the
entries for `D` in `S.dests` are as many as the entries for `S` in `D.sources`. `unlink` keeps
it even when there is no link, since erasing a missing entry changes nothing on either side.
-/

namespace Txproto

namespace Store

-- ---------------------------------------------------------------------------
-- The buffer-list steps
-- ---------------------------------------------------------------------------

/-- `sp_bufferlist_append(dst_ctx->sources, src)`. -/
def appendSource (s : Store) (dst src : FifoId) : Store :=
  s.modify dst fun f => { f with sources := f.sources.append src }

/-- `sp_bufferlist_append(src_ctx->dests, dst)`. -/
def appendDest (s : Store) (src dst : FifoId) : Store :=
  s.modify src fun f => { f with dests := f.dests.append dst }

/-- `sp_bufferlist_pop(src_ctx->dests, find_ref_by_data, dst)`. -/
def popDest (s : Store) (src dst : FifoId) : Option FifoId × Store :=
  (((s.fifos src).dests.popData dst).1,
    s.modify src fun f => { f with dests := (f.dests.popData dst).2 })

/-- `sp_bufferlist_pop(dst_ctx->sources, find_ref_by_data, src)`. -/
def popSource (s : Store) (dst src : FifoId) : Option FifoId × Store :=
  (((s.fifos dst).sources.popData src).1,
    s.modify dst fun f => { f with sources := (f.sources.popData src).2 })

/-- `sp_bufferlist_pop(ref_ctx->sources, sp_bufferlist_find_fn_first, NULL)`. -/
def popFirstSource (s : Store) (ref : FifoId) : Option FifoId × Store :=
  ((s.fifos ref).sources.popFirst.1,
    s.modify ref fun f => { f with sources := f.sources.popFirst.2 })

/-- `sp_bufferlist_pop(ref_ctx->dests, sp_bufferlist_find_fn_first, NULL)`. -/
def popFirstDest (s : Store) (ref : FifoId) : Option FifoId × Store :=
  ((s.fifos ref).dests.popFirst.1,
    s.modify ref fun f => { f with dests := f.dests.popFirst.2 })

-- ---------------------------------------------------------------------------
-- The calls
-- ---------------------------------------------------------------------------

/-- `RENAME(fifo_mirror)(dst, src)` on two non-`NULL` handles: it returns `0`. -/
def fifoMirror (s : Store) (dst src : FifoId) : Store :=
  (s.appendSource dst src).appendDest src dst

/-- `RENAME(fifo_unmirror)(dst, src)` on two non-`NULL` handles. `none` is a failed
`assert`: the entry for `dst` is missing from `src->dests`, or the entry for `src` from
`dst->sources`. -/
def fifoUnmirror (s : Store) (dst src : FifoId) : Option Store :=
  match s.popDest src dst with
  | (none, _) => none
  | (some _, s₁) =>
    match s₁.popSource dst src with
    | (none, _) => none
    | (some _, s₂) => some s₂

/-- The first loop of `fifo_unmirror_all`: pop the first source, then the entry for `ref`
in that source's `dests`. The loop runs once per entry, so `fuel` is the length of
`ref->sources` when it starts. -/
def unmirrorSources (ref : FifoId) : Nat → Store → Store
  | 0, s => s
  | n + 1, s =>
    match s.popFirstSource ref with
    | (none, s₁) => s₁
    | (some src, s₁) => unmirrorSources ref n (s₁.popDest src ref).2

/-- The second loop of `fifo_unmirror_all`: pop the first destination, then the entry for
`ref` in that destination's `sources`. The signal on the destination's `cond_in` belongs to
the concurrent model. -/
def unmirrorDests (ref : FifoId) : Nat → Store → Store
  | 0, s => s
  | n + 1, s =>
    match s.popFirstDest ref with
    | (none, s₁) => s₁
    | (some dst, s₁) => unmirrorDests ref n (s₁.popSource dst ref).2

/-- `RENAME(fifo_unmirror_all)(ref)` on a non-`NULL` handle: it returns `0`. -/
def fifoUnmirrorAll (s : Store) (ref : FifoId) : Store :=
  let s₁ := unmirrorSources ref (s.fifos ref).sources.length s
  unmirrorDests ref (s₁.fifos ref).dests.length s₁

-- ---------------------------------------------------------------------------
-- Link and unlink
-- ---------------------------------------------------------------------------

/-- Erase one entry for `dst` from `src.dests` and one for `src` from `dst.sources`. -/
def unlink (s : Store) (src dst : FifoId) : Store :=
  (s.modify src fun f => { f with dests := f.dests.erase dst }).modify dst
    fun f => { f with sources := f.sources.erase src }

/-- The lists are symmetric: `D` occurs in `S.dests` as often as `S` in `D.sources`. -/
def Symmetric (s : Store) : Prop :=
  ∀ S D, (s.fifos S).dests.count D = (s.fifos D).sources.count S

@[simp] theorem fifoMirror_dests (s : Store) (dst src F : FifoId) :
    ((s.fifoMirror dst src).fifos F).dests =
      if F = src then (s.fifos F).dests.append dst else (s.fifos F).dests := by
  simp only [fifoMirror, appendSource, appendDest, modify_fifos]
  split_ifs <;> simp_all

@[simp] theorem fifoMirror_sources (s : Store) (dst src F : FifoId) :
    ((s.fifoMirror dst src).fifos F).sources =
      if F = dst then (s.fifos F).sources.append src else (s.fifos F).sources := by
  simp only [fifoMirror, appendSource, appendDest, modify_fifos]
  split_ifs <;> simp_all

@[simp] theorem unlink_dests (s : Store) (src dst F : FifoId) :
    ((s.unlink src dst).fifos F).dests =
      if F = src then (s.fifos F).dests.erase dst else (s.fifos F).dests := by
  simp only [Store.unlink, modify_fifos]
  split_ifs <;> simp_all

@[simp] theorem unlink_sources (s : Store) (src dst F : FifoId) :
    ((s.unlink src dst).fifos F).sources =
      if F = dst then (s.fifos F).sources.erase src else (s.fifos F).sources := by
  simp only [Store.unlink, modify_fifos]
  split_ifs <;> simp_all

/-- `s'` differs from `s` only in the lists. -/
structure ListsOnly (s s' : Store) : Prop where
  next : s'.next = s.next
  live : s'.live = s.live
  refs : s'.refs = s.refs
  fifos : ∀ F, s'.fifos F =
    { s.fifos F with dests := (s'.fifos F).dests, sources := (s'.fifos F).sources }

theorem ListsOnly.refl (s : Store) : s.ListsOnly s := ⟨rfl, rfl, rfl, fun _ => rfl⟩

theorem ListsOnly.trans {a b c : Store} (h₁ : a.ListsOnly b) (h₂ : b.ListsOnly c) :
    a.ListsOnly c :=
  ⟨h₂.next.trans h₁.next, h₂.live.trans h₁.live, h₂.refs.trans h₁.refs,
    fun F => by rw [h₂.fifos F, h₁.fifos F]⟩

theorem ListsOnly.numQueued {s s' : Store} (h : s.ListsOnly s') (F : FifoId) :
    (s'.fifos F).numQueued = (s.fifos F).numQueued := by rw [h.fifos F]

theorem ListsOnly.view {s s' : Store} (h : s.ListsOnly s') (F : FifoId) :
    (s'.fifos F).view = (s.fifos F).view := by rw [h.fifos F]; rfl

theorem ListsOnly.poked {s s' : Store} (h : s.ListsOnly s') (F : FifoId) :
    (s'.fifos F).poked = (s.fifos F).poked := by rw [h.fifos F]

theorem ListsOnly.maxQueued {s s' : Store} (h : s.ListsOnly s') (F : FifoId) :
    (s'.fifos F).maxQueued = (s.fifos F).maxQueued := by rw [h.fifos F]

theorem ListsOnly.blockFlags {s s' : Store} (h : s.ListsOnly s') (F : FifoId) :
    (s'.fifos F).blockFlags = (s.fifos F).blockFlags := by rw [h.fifos F]

/-- A change of one FIFO's lists. -/
theorem listsOnly_modify (s : Store) (f : FifoId) {g : Fifo → Fifo}
    (hg : ∀ x, g x = { x with dests := (g x).dests, sources := (g x).sources }) :
    s.ListsOnly (s.modify f g) :=
  ⟨rfl, rfl, rfl, fun F => by
    simp only [modify_fifos]; split_ifs with h
    · subst h; exact hg _
    · rfl⟩

theorem appendSource_listsOnly (s : Store) (dst src : FifoId) :
    s.ListsOnly (s.appendSource dst src) := listsOnly_modify _ _ fun _ => rfl

theorem appendDest_listsOnly (s : Store) (src dst : FifoId) :
    s.ListsOnly (s.appendDest src dst) := listsOnly_modify _ _ fun _ => rfl

theorem popDest_listsOnly (s : Store) (src dst : FifoId) :
    s.ListsOnly (s.popDest src dst).2 := by
  unfold popDest; dsimp only; exact listsOnly_modify _ _ fun _ => rfl

theorem popSource_listsOnly (s : Store) (dst src : FifoId) :
    s.ListsOnly (s.popSource dst src).2 := by
  unfold popSource; dsimp only; exact listsOnly_modify _ _ fun _ => rfl

theorem popFirstSource_listsOnly (s : Store) (ref : FifoId) :
    s.ListsOnly (s.popFirstSource ref).2 := by
  unfold popFirstSource; dsimp only; exact listsOnly_modify _ _ fun _ => rfl

theorem popFirstDest_listsOnly (s : Store) (ref : FifoId) :
    s.ListsOnly (s.popFirstDest ref).2 := by
  unfold popFirstDest; dsimp only; exact listsOnly_modify _ _ fun _ => rfl

/-- The store a buffer-list pop returns differs from the one before only in the lists. -/
theorem listsOnly_of_eq {s s' : Store} {p : Option FifoId × Store} {o : Option FifoId}
    (h : s.ListsOnly p.2) (hp : p = (o, s')) : s.ListsOnly s' := by
  subst hp; exact h

theorem fifoMirror_listsOnly (s : Store) (dst src : FifoId) : s.ListsOnly (s.fifoMirror dst src) :=
  ⟨rfl, rfl, rfl, fun F => by
    simp only [fifoMirror, appendSource, appendDest, modify_fifos]; split_ifs <;> simp_all⟩

theorem unlink_listsOnly (s : Store) (src dst : FifoId) : s.ListsOnly (s.unlink src dst) :=
  ⟨rfl, rfl, rfl, fun F => by simp only [Store.unlink, modify_fifos]; split_ifs <;> simp_all⟩

@[simp] theorem appendSource_next (s : Store) (dst src : FifoId) :
    (s.appendSource dst src).next = s.next := rfl
@[simp] theorem appendDest_next (s : Store) (src dst : FifoId) :
    (s.appendDest src dst).next = s.next := rfl
@[simp] theorem unlink_next (s : Store) (src dst : FifoId) :
    (s.unlink src dst).next = s.next := rfl

theorem Symmetric.mirror {s : Store} (h : s.Symmetric) (dst src : FifoId) :
    (s.fifoMirror dst src).Symmetric := by
  intro S D
  have := h S D
  simp only [fifoMirror_dests, fifoMirror_sources]
  split_ifs <;> subst_vars <;> simp_all [eq_comm]

theorem Symmetric.unlink {s : Store} (h : s.Symmetric) (src dst : FifoId) :
    (s.unlink src dst).Symmetric := by
  intro S D
  have hSD := h S D
  simp only [unlink_dests, unlink_sources]
  split_ifs <;> subst_vars <;> simp_all [List.count_erase, eq_comm]

/-- `fifo_unmirror` that does not fail is an `unlink`. -/
theorem fifoUnmirror_eq_unlink {s s' : Store} {dst src : FifoId}
    (h : s.fifoUnmirror dst src = some s') : s' = s.unlink src dst := by
  unfold fifoUnmirror at h
  split at h
  · cases h
  · split at h
    · cases h
    · rename_i h₁ _ _ _ h₂
      cases h
      simp only [popDest, popSource, Prod.mk.injEq] at h₁ h₂
      rw [← h₂.2, ← h₁.2]
      simp [Store.unlink, BufferList.popData_snd]

/-- One pass of either loop of `fifo_unmirror_all` is an `unlink`. -/
theorem popFirstSource_popDest {s s₁ : Store} {ref src : FifoId}
    (h : s.popFirstSource ref = (some src, s₁)) : (s₁.popDest src ref).2 = s.unlink src ref := by
  simp only [popFirstSource, BufferList.popFirst, Prod.mk.injEq] at h
  obtain ⟨h₁, rfl⟩ := h
  obtain ⟨rest, hl⟩ : ∃ rest, (s.fifos ref).sources = src :: rest := by
    cases hs : (s.fifos ref).sources <;> simp_all
  simp only [popDest, Store.unlink, Store.modify, BufferList.popData_snd, hl, Store.mk.injEq,
    and_true, true_and]
  funext h
  by_cases h₁ : h = ref <;> by_cases h₂ : h = src <;> simp_all [Function.update_apply]

theorem popFirstDest_popSource {s s₁ : Store} {ref dst : FifoId}
    (h : s.popFirstDest ref = (some dst, s₁)) : (s₁.popSource dst ref).2 = s.unlink ref dst := by
  simp only [popFirstDest, BufferList.popFirst, Prod.mk.injEq] at h
  obtain ⟨h₁, rfl⟩ := h
  obtain ⟨rest, hl⟩ : ∃ rest, (s.fifos ref).dests = dst :: rest := by
    cases hs : (s.fifos ref).dests <;> simp_all
  simp only [popSource, Store.unlink, Store.modify, BufferList.popData_snd, hl, Store.mk.injEq,
    and_true, true_and]
  funext h
  by_cases h₁ : h = ref <;> by_cases h₂ : h = dst <;> simp_all [Function.update_apply]

/-- When the list is empty, popping its first entry changes nothing. -/
theorem popFirstSource_none {s s₁ : Store} {ref : FifoId}
    (h : s.popFirstSource ref = (none, s₁)) : s₁ = s := by
  simp only [popFirstSource, BufferList.popFirst, Prod.mk.injEq, List.head?_eq_none_iff] at h
  obtain ⟨h₁, rfl⟩ := h
  exact modify_eq_self (by cases hf : s.fifos ref; simp_all [BufferList.popFirst])

theorem popFirstDest_none {s s₁ : Store} {ref : FifoId}
    (h : s.popFirstDest ref = (none, s₁)) : s₁ = s := by
  simp only [popFirstDest, BufferList.popFirst, Prod.mk.injEq, List.head?_eq_none_iff] at h
  obtain ⟨h₁, rfl⟩ := h
  exact modify_eq_self (by cases hf : s.fifos ref; simp_all [BufferList.popFirst])

/-- Both loops of `fifo_unmirror_all` are chains of `unlink`s: a relation that every
`unlink` satisfies and that composes holds between the store before a loop and after it. -/
theorem unmirrorSources_induct {P : Store → Store → Prop} (refl : ∀ s, P s s)
    (trans : ∀ {a b c}, P a b → P b c → P a c) (hunlink : ∀ s src dst, P s (s.unlink src dst))
    (ref : FifoId) : ∀ (n : Nat) (s : Store), P s (unmirrorSources ref n s)
  | 0, s => refl s
  | n + 1, s => by
    unfold Store.unmirrorSources
    split
    · rename_i hp; rw [popFirstSource_none hp]; exact refl s
    · rename_i hp
      rw [popFirstSource_popDest hp]
      exact trans (hunlink _ _ _) (unmirrorSources_induct refl trans hunlink ref n _)

theorem unmirrorDests_induct {P : Store → Store → Prop} (refl : ∀ s, P s s)
    (trans : ∀ {a b c}, P a b → P b c → P a c) (hunlink : ∀ s src dst, P s (s.unlink src dst))
    (ref : FifoId) : ∀ (n : Nat) (s : Store), P s (unmirrorDests ref n s)
  | 0, s => refl s
  | n + 1, s => by
    unfold Store.unmirrorDests
    split
    · rename_i hp; rw [popFirstDest_none hp]; exact refl s
    · rename_i hp
      rw [popFirstDest_popSource hp]
      exact trans (hunlink _ _ _) (unmirrorDests_induct refl trans hunlink ref n _)

theorem fifoUnmirrorAll_induct {P : Store → Store → Prop} (refl : ∀ s, P s s)
    (trans : ∀ {a b c}, P a b → P b c → P a c) (hunlink : ∀ s src dst, P s (s.unlink src dst))
    (s : Store) (ref : FifoId) : P s (s.fifoUnmirrorAll ref) :=
  trans (unmirrorSources_induct refl trans hunlink ref _ s)
    (unmirrorDests_induct refl trans hunlink ref _ _)

theorem fifoUnmirrorAll_listsOnly (s : Store) (ref : FifoId) :
    s.ListsOnly (s.fifoUnmirrorAll ref) :=
  fifoUnmirrorAll_induct ListsOnly.refl ListsOnly.trans unlink_listsOnly s ref

theorem Symmetric.unmirrorAll {s : Store} (h : s.Symmetric) (ref : FifoId) :
    (s.fifoUnmirrorAll ref).Symmetric :=
  fifoUnmirrorAll_induct (P := fun s s' => s.Symmetric → s'.Symmetric) (fun _ => id)
    (fun h₁ h₂ h => h₂ (h₁ h)) (fun _ _ _ h => h.unlink _ _) s ref h

/-- On symmetric lists, `fifo_unmirror(dst, src)` with `src` among `dst`'s sources passes
both of its `assert`s. -/
theorem Symmetric.fifoUnmirror_isSome {s : Store} (h : s.Symmetric) {dst src : FifoId}
    (hsrc : src ∈ (s.fifos dst).sources) : (s.fifoUnmirror dst src).isSome := by
  have hd : dst ∈ (s.fifos src).dests := by
    rw [← List.count_pos_iff, h src dst]; exact List.count_pos_iff.mpr hsrc
  by_cases hds : dst = src <;>
    simp_all [fifoUnmirror, popDest, popSource, BufferList.popData]

end Store

end Txproto
