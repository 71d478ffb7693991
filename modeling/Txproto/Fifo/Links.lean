-- SUMMARY: The list edits fifo_mirror, fifo_unmirror and fifo_unmirror_all over whole runs: unmirror_all detaches a FIFO completely, and the repeated link that mirror allows.
import Txproto.Fifo.System

/-!
# Links between FIFOs

`fifo_unmirror_all(ref)` pops every entry of `ref->sources` and of `ref->dests`, each with the
entry for `ref` in the peer's opposite list. On symmetric lists this detaches `ref`: both of
its lists end empty, no list keeps an entry for it, and every entry between two other FIFOs
stays (`fifoUnmirrorAll_detach`). The count of each entry after either loop is computed
exactly, symmetric lists or not (`unmirrorSources_spec`, `unmirrorDests_spec`).

`fifo_mirror(dst, src)` appends to both lists without looking for an entry already there, so
two calls link the same pair twice: a push then stores two clones downstream, and one
`fifo_unmirror` removes one of the two links (`fifoMirror_repeated_link`). A FIFO appears at
most once in each list of a run of edits only when every `fifo_mirror` links a pair that is
not linked yet (`FreshEditRun.singleLinks`); then one `fifo_unmirror` removes the link
(`SingleLinks.unmirror`).
-/

namespace Txproto

namespace Store

-- ---------------------------------------------------------------------------
-- The loops of `fifo_unmirror_all`
-- ---------------------------------------------------------------------------

theorem unmirrorSources_nil {s : Store} {ref : FifoId} (h : (s.fifos ref).sources = []) :
    ∀ n, unmirrorSources ref n s = s
  | 0 => rfl
  | n + 1 => by
    obtain ⟨s₁, hp⟩ : ∃ s₁, s.popFirstSource ref = (none, s₁) :=
      ⟨_, Prod.ext (by simp [popFirstSource, BufferList.popFirst, h]) rfl⟩
    simp only [unmirrorSources, hp]
    exact popFirstSource_none hp

/-- A pass of the first loop unlinks the first source. -/
theorem unmirrorSources_cons {s : Store} {ref src : FifoId} {rest : List FifoId}
    (h : (s.fifos ref).sources = src :: rest) (n : Nat) :
    unmirrorSources ref (n + 1) s = unmirrorSources ref n (s.unlink src ref) := by
  obtain ⟨s₁, hp⟩ : ∃ s₁, s.popFirstSource ref = (some src, s₁) :=
    ⟨_, Prod.ext (by simp [popFirstSource, BufferList.popFirst, h]) rfl⟩
  simp only [unmirrorSources, hp, popFirstSource_popDest hp]

theorem unmirrorDests_nil {s : Store} {ref : FifoId} (h : (s.fifos ref).dests = []) :
    ∀ n, unmirrorDests ref n s = s
  | 0 => rfl
  | n + 1 => by
    obtain ⟨s₁, hp⟩ : ∃ s₁, s.popFirstDest ref = (none, s₁) :=
      ⟨_, Prod.ext (by simp [popFirstDest, BufferList.popFirst, h]) rfl⟩
    simp only [unmirrorDests, hp]
    exact popFirstDest_none hp

/-- A pass of the second loop unlinks the first destination. -/
theorem unmirrorDests_cons {s : Store} {ref dst : FifoId} {rest : List FifoId}
    (h : (s.fifos ref).dests = dst :: rest) (n : Nat) :
    unmirrorDests ref (n + 1) s = unmirrorDests ref n (s.unlink ref dst) := by
  obtain ⟨s₁, hp⟩ : ∃ s₁, s.popFirstDest ref = (some dst, s₁) :=
    ⟨_, Prod.ext (by simp [popFirstDest, BufferList.popFirst, h]) rfl⟩
  simp only [unmirrorDests, hp, popFirstDest_popSource hp]

/-- The count both loops keep: one pass erases `ref` from the list of `src` alone, and adds
`src` to the entries still to be undone. -/
theorem count_unlinked (l rest : List FifoId) (A B src ref : FifoId) :
    (if A = src then l.erase ref else l).count B - (if B = ref then rest.count A else 0) =
      l.count B - if B = ref then (src :: rest).count A else 0 := by
  by_cases hB : B = ref
  · subst hB
    by_cases hA : A = src
    · subst hA
      simp only [if_true, List.count_erase_self, List.count_cons_self]
      omega
    · simp [hA, List.count_cons, Ne.symm hA]
  · split_ifs <;> simp [hB, List.count_erase, Ne.symm hB]

/-- The first loop, run for as many passes as `ref` has sources: it empties `ref->sources`,
takes out of each FIFO's `dests` one entry for `ref` per entry for that FIFO in
`ref->sources`, and leaves every other `sources` list as it was. -/
theorem unmirrorSources_spec (ref : FifoId) : ∀ (l : List FifoId) (n : Nat) (s : Store),
    (s.fifos ref).sources = l → l.length ≤ n →
    ((unmirrorSources ref n s).fifos ref).sources = [] ∧
    (∀ A B, ((unmirrorSources ref n s).fifos A).dests.count B =
      (s.fifos A).dests.count B - if B = ref then l.count A else 0) ∧
    ∀ A, A ≠ ref → ((unmirrorSources ref n s).fifos A).sources = (s.fifos A).sources
  | [], n, s, hl, _ => by rw [unmirrorSources_nil hl]; simp [hl]
  | _ :: _, 0, _, _, hn => absurd hn (by simp)
  | src :: rest, n + 1, s, hl, hn => by
    rw [unmirrorSources_cons hl]
    obtain ⟨h₁, h₂, h₃⟩ := unmirrorSources_spec ref rest n (s.unlink src ref) (by simp [hl])
      (by simpa using hn)
    refine ⟨h₁, fun A B => ?_, fun A hA => by rw [h₃ A hA, unlink_sources, if_neg hA]⟩
    rw [h₂, unlink_dests, count_unlinked]

/-- The second loop, run for as many passes as `ref` has destinations: it empties
`ref->dests`, takes out of each FIFO's `sources` one entry for `ref` per entry for that FIFO
in `ref->dests`, and leaves every other `dests` list as it was. -/
theorem unmirrorDests_spec (ref : FifoId) : ∀ (l : List FifoId) (n : Nat) (s : Store),
    (s.fifos ref).dests = l → l.length ≤ n →
    ((unmirrorDests ref n s).fifos ref).dests = [] ∧
    (∀ A B, ((unmirrorDests ref n s).fifos A).sources.count B =
      (s.fifos A).sources.count B - if B = ref then l.count A else 0) ∧
    ∀ A, A ≠ ref → ((unmirrorDests ref n s).fifos A).dests = (s.fifos A).dests
  | [], n, s, hl, _ => by rw [unmirrorDests_nil hl]; simp [hl]
  | _ :: _, 0, _, _, hn => absurd hn (by simp)
  | dst :: rest, n + 1, s, hl, hn => by
    rw [unmirrorDests_cons hl]
    obtain ⟨h₁, h₂, h₃⟩ := unmirrorDests_spec ref rest n (s.unlink ref dst) (by simp [hl])
      (by simpa using hn)
    refine ⟨h₁, fun A B => ?_, fun A hA => by rw [h₃ A hA, unlink_dests, if_neg hA]⟩
    rw [h₂, unlink_sources, count_unlinked]

/-- `fifo_unmirror_all(R)` on any lists: both lists of `R` end empty, and every other FIFO
loses one entry for `R` per entry for it in the opposite list of `R`. -/
theorem fifoUnmirrorAll_spec (s : Store) (R : FifoId) :
    ((s.fifoUnmirrorAll R).fifos R).sources = [] ∧ ((s.fifoUnmirrorAll R).fifos R).dests = [] ∧
    ∀ A B, A ≠ R →
      ((s.fifoUnmirrorAll R).fifos A).dests.count B =
        (s.fifos A).dests.count B - (if B = R then (s.fifos R).sources.count A else 0) ∧
      ((s.fifoUnmirrorAll R).fifos A).sources.count B =
        (s.fifos A).sources.count B - (if B = R then (s.fifos R).dests.count A else 0) := by
  obtain ⟨h₁, h₂, h₃⟩ := unmirrorSources_spec R _ _ s rfl le_rfl
  set s₁ := unmirrorSources R (s.fifos R).sources.length s
  obtain ⟨h₄, h₅, h₆⟩ := unmirrorDests_spec R _ _ s₁ rfl le_rfl
  have hs : s.fifoUnmirrorAll R = unmirrorDests R (s₁.fifos R).dests.length s₁ := rfl
  rw [hs]
  refine ⟨List.eq_nil_iff_forall_not_mem.2 fun B hB => ?_, h₄, fun A B hA => ⟨?_, ?_⟩⟩
  · -- the second loop only erases from the `sources` the first one emptied
    have := h₅ R B
    rw [h₁, List.count_nil, Nat.zero_sub] at this
    exact (List.count_pos_iff.2 hB).ne' this
  · rw [h₆ A hA, h₂]
  · rw [h₅, h₃ A hA, h₂ R A, if_neg hA, Nat.sub_zero]

-- ---------------------------------------------------------------------------
-- Detaching a FIFO
-- ---------------------------------------------------------------------------

/-- A FIFO no `dests` list refers to is reached by no path from another FIFO. -/
theorem pathCount_of_not_mem {s : Store} {R : FifoId} (h : ∀ F, R ∉ (s.fifos F).dests) :
    ∀ n S, S ≠ R → pathCount n s S R = 0
  | 0, _, _ => rfl
  | n + 1, S, hS => by
    simp only [pathCount, if_neg hS, zero_add]
    exact List.sum_eq_zero fun k hk => by
      obtain ⟨d, hd, rfl⟩ := List.mem_map.1 hk
      exact pathCount_of_not_mem h n d fun e => h S (e ▸ hd)

/-- From a FIFO with no destinations the only path is the empty one. -/
theorem pathCount_of_dests_nil {s : Store} {R : FifoId} (h : (s.fifos R).dests = []) (n : Nat)
    (F : FifoId) : pathCount (n + 1) s R F = if R = F then 1 else 0 := by
  simp [pathCount, h]

/-- On symmetric lists, `fifo_unmirror_all(R)` detaches `R`: its lists are empty, no list
has an entry for it, the entries between two other FIFOs are those there were, and nothing
but the lists changes. No path leads to `R` from another FIFO, and none leaves it. -/
theorem fifoUnmirrorAll_detach {s : Store} (h : s.Symmetric) (R : FifoId) :
    ((s.fifoUnmirrorAll R).fifos R).sources = [] ∧ ((s.fifoUnmirrorAll R).fifos R).dests = [] ∧
    (∀ F, R ∉ ((s.fifoUnmirrorAll R).fifos F).dests ∧
      R ∉ ((s.fifoUnmirrorAll R).fifos F).sources) ∧
    (∀ A B, A ≠ R → B ≠ R →
      ((s.fifoUnmirrorAll R).fifos A).dests.count B = (s.fifos A).dests.count B ∧
      ((s.fifoUnmirrorAll R).fifos A).sources.count B = (s.fifos A).sources.count B) ∧
    s.ListsOnly (s.fifoUnmirrorAll R) ∧
    (∀ n S, S ≠ R → pathCount n (s.fifoUnmirrorAll R) S R = 0) ∧
    ∀ n F, pathCount (n + 1) (s.fifoUnmirrorAll R) R F = if R = F then 1 else 0 := by
  obtain ⟨hsrc, hdst, hcount⟩ := fifoUnmirrorAll_spec s R
  have hnot (F : FifoId) : R ∉ ((s.fifoUnmirrorAll R).fifos F).dests ∧
      R ∉ ((s.fifoUnmirrorAll R).fifos F).sources := by
    by_cases hF : F = R
    · subst hF; simp [hsrc, hdst]
    -- symmetry: `F` lists `R` as often as `R` lists `F`, and each entry goes
    obtain ⟨hd, hs⟩ := hcount F R hF
    rw [← List.count_eq_zero, ← List.count_eq_zero, hd, hs, if_pos rfl, if_pos rfl, h F R,
      ← h R F, Nat.sub_self, Nat.sub_self]
    exact ⟨rfl, rfl⟩
  refine ⟨hsrc, hdst, hnot, fun A B hA hB => ?_, fifoUnmirrorAll_listsOnly s R,
    pathCount_of_not_mem fun F => (hnot F).1, pathCount_of_dests_nil hdst⟩
  simpa [hB] using hcount A B hA

/-- A chain `0 → 1 → 2` with a self-link on `1`: detaching `1`. -/
theorem fifoUnmirrorAll_detach_chain :
    let s := (((((((init fun _ => true).fifoCreate (-1) Flags.none).2.fifoCreate (-1)
      Flags.none).2.fifoCreate (-1) Flags.none).2.fifoMirror 1 0).fifoMirror 2 1).fifoMirror 1 1)
    s.Symmetric ∧
    ((s.fifoUnmirrorAll 1).fifos 1).sources = [] ∧ ((s.fifoUnmirrorAll 1).fifos 1).dests = [] ∧
    (∀ F, 1 ∉ ((s.fifoUnmirrorAll 1).fifos F).dests ∧
      1 ∉ ((s.fifoUnmirrorAll 1).fifos F).sources) ∧
    (∀ A B, A ≠ 1 → B ≠ 1 →
      ((s.fifoUnmirrorAll 1).fifos A).dests.count B = (s.fifos A).dests.count B ∧
      ((s.fifoUnmirrorAll 1).fifos A).sources.count B = (s.fifos A).sources.count B) ∧
    s.ListsOnly (s.fifoUnmirrorAll 1) ∧
    (∀ n S, S ≠ 1 → pathCount n (s.fifoUnmirrorAll 1) S 1 = 0) ∧
    ∀ n F, pathCount (n + 1) (s.fifoUnmirrorAll 1) 1 F = if 1 = F then 1 else 0 :=
  have h : (((((((init fun _ => true).fifoCreate (-1) Flags.none).2.fifoCreate (-1)
      Flags.none).2.fifoCreate (-1) Flags.none).2.fifoMirror 1 0).fifoMirror 2 1).fifoMirror 1
      1).Reachable :=
    ((((((Reachable.init _).create (-1) Flags.none).create (-1) Flags.none).create (-1)
      Flags.none).mirror 1 0 (by decide) (by decide)).mirror 2 1 (by decide) (by decide)).mirror
      1 1 (by decide) (by decide)
  ⟨h.inv.symmetric, fifoUnmirrorAll_detach h.inv.symmetric 1⟩

-- ---------------------------------------------------------------------------
-- Runs of edits and repeated links
-- ---------------------------------------------------------------------------

/-- The three calls that edit the lists. -/
inductive Edit where
  | mirror (dst src : FifoId)
  | unmirror (dst src : FifoId)
  | unmirrorAll (ref : FifoId)

/-- The edit as an operation of the program. -/
def Edit.toOp : Edit → Op
  | .mirror dst src => .mirror dst src
  | .unmirror dst src => .unmirror dst src
  | .unmirrorAll ref => .unmirrorAll ref

/-- An edit that adds no second link between two FIFOs: `fifo_mirror(dst, src)` only while
`dst` is not among `src`'s destinations. -/
def Edit.Fresh (s : Store) : Edit → Prop
  | .mirror dst src => dst ∉ (s.fifos src).dests
  | .unmirror _ _ | .unmirrorAll _ => True

/-- A run of edits, each adding no second link. -/
inductive FreshEditRun : Store → List Edit → Store → Prop
  | nil (s : Store) : FreshEditRun s [] s
  | cons {s s₁ s' : Store} {e : Edit} {es : List Edit} :
      e.Fresh s → s.exec e.toOp = some s₁ → FreshEditRun s₁ es s' → FreshEditRun s (e :: es) s'

/-- No FIFO appears twice in a `dests` list. -/
def SingleLinks (s : Store) : Prop := ∀ S D, (s.fifos S).dests.count D ≤ 1

/-- On symmetric lists, no FIFO appears twice in a `sources` list either. -/
theorem SingleLinks.sources {s : Store} (h : s.SingleLinks) (hsym : s.Symmetric) (D S : FifoId) :
    (s.fifos D).sources.count S ≤ 1 :=
  hsym S D ▸ h S D

/-- Unlinking only lowers counts. -/
theorem SingleLinks.unlink {s : Store} (h : s.SingleLinks) (src dst : FifoId) :
    (s.unlink src dst).SingleLinks := fun S D => by
  rw [unlink_dests]
  split_ifs
  · exact ((List.erase_sublist _ _).count_le D).trans (h S D)
  · exact h S D

theorem SingleLinks.unmirrorAll {s : Store} (h : s.SingleLinks) (ref : FifoId) :
    (s.fifoUnmirrorAll ref).SingleLinks :=
  fifoUnmirrorAll_induct (P := fun s s' => s.SingleLinks → s'.SingleLinks) (fun _ => id)
    (fun h₁ h₂ h => h₂ (h₁ h)) (fun _ _ _ h => h.unlink _ _) s ref h

/-- A mirror of a pair not linked yet adds one entry, the first for that pair. -/
theorem SingleLinks.mirror {s : Store} (h : s.SingleLinks) {dst src : FifoId}
    (hfresh : dst ∉ (s.fifos src).dests) : (s.fifoMirror dst src).SingleLinks := fun S D => by
  rw [fifoMirror_dests]
  split_ifs with hS
  · subst hS
    by_cases hD : dst = D
    · subst hD; simp [List.count_eq_zero_of_not_mem hfresh]
    · simpa [hD] using h S D
  · exact h S D

theorem SingleLinks.exec {s s' : Store} (h : s.SingleLinks) {e : Edit} (hfresh : e.Fresh s)
    (he : s.exec e.toOp = some s') : s'.SingleLinks := by
  cases e with
  | mirror dst src => cases he; exact h.mirror hfresh
  | unmirror dst src => rw [fifoUnmirror_eq_unlink he]; exact h.unlink src dst
  | unmirrorAll ref => cases he; exact h.unmirrorAll ref

theorem FreshEditRun.singleLinks {s s' : Store} {es : List Edit} (hrun : s.FreshEditRun es s')
    (h : s.SingleLinks) : s'.SingleLinks := by
  induction hrun with
  | nil => exact h
  | cons hfresh he _ ih => exact ih (h.exec hfresh he)

/-- With single links on symmetric lists, `fifo_unmirror(dst, src)` removes the link: neither
list keeps an entry for the other FIFO. -/
theorem SingleLinks.unmirror {s s' : Store} (h : s.SingleLinks) (hsym : s.Symmetric)
    {dst src : FifoId} (he : s.fifoUnmirror dst src = some s') :
    dst ∉ (s'.fifos src).dests ∧ src ∉ (s'.fifos dst).sources := by
  rw [fifoUnmirror_eq_unlink he, ← List.count_eq_zero, ← List.count_eq_zero, unlink_dests,
    unlink_sources, if_pos rfl, if_pos rfl, List.count_erase, List.count_erase]
  have := h src dst
  have := h.sources hsym dst src
  simp only [beq_self_eq_true, if_true]
  omega

theorem FreshEditRun.symmetric {s s' : Store} {es : List Edit} (hrun : s.FreshEditRun es s')
    (h : s.Symmetric) : s'.Symmetric := by
  induction hrun with
  | nil => exact h
  | @cons _ _ _ e _ _ he _ ih =>
    refine ih ?_
    cases e with
    | mirror dst src => cases he; exact h.mirror dst src
    | unmirror dst src => rw [fifoUnmirror_eq_unlink he]; exact h.unlink src dst
    | unmirrorAll ref => cases he; exact h.unmirrorAll ref

/-- Single links over every run of edits that never mirrors a linked pair, from a store of the
program with no repeated link: no FIFO appears twice in a `dests` or a `sources` list, so the
loop of `fifo_push` calls each direct destination once, and one `fifo_unmirror` removes a link
whole. -/
theorem freshEditRun_single_links {s s' : Store} {es : List Edit} (hs : s.Reachable)
    (h : s.SingleLinks) (hrun : s.FreshEditRun es s') :
    (∀ S D, (s'.fifos S).dests.count D ≤ 1 ∧ (s'.fifos D).sources.count S ≤ 1) ∧
    ∀ dst src s'', s'.fifoUnmirror dst src = some s'' →
      dst ∉ (s''.fifos src).dests ∧ src ∉ (s''.fifos dst).sources := by
  have hl := hrun.singleLinks h
  have hsym := hrun.symmetric hs.inv.symmetric
  exact ⟨fun S D => ⟨hl S D, hl.sources hsym D S⟩, fun _ _ _ he => hl.unmirror hsym he⟩

/-- Two new FIFOs: `0` is mirrored into `1`, unmirrored, and mirrored again. -/
theorem freshEditRun_single_links_relink :
    let s := (((init fun _ => true).fifoCreate (-1) Flags.none).2.fifoCreate (-1) Flags.none).2
    ∃ s', s.FreshEditRun [.mirror 1 0, .unmirror 1 0, .mirror 1 0] s' ∧ (s'.fifos 0).dests = [1] ∧
      ((∀ S D, (s'.fifos S).dests.count D ≤ 1 ∧ (s'.fifos D).sources.count S ≤ 1) ∧
        ∀ dst src s'', s'.fifoUnmirror dst src = some s'' →
          dst ∉ (s''.fifos src).dests ∧ src ∉ (s''.fifos dst).sources) := by
  intro s
  have hs : s.Reachable := ((Reachable.init _).create (-1) Flags.none).create (-1) Flags.none
  have e : s.fifos = Function.update (Function.update (fun _ => Fifo.zero) 0
      (newFifo (-1) Flags.none)) 1 (newFifo (-1) Flags.none) := rfl
  have h : s.SingleLinks := fun S D => by
    have : (s.fifos S).dests = [] := by
      simp only [e, Function.update_apply]; split_ifs <;> rfl
    simp [this]
  have hrun : s.FreshEditRun [.mirror 1 0, .unmirror 1 0, .mirror 1 0] _ :=
    .cons (by unfold Edit.Fresh; decide) rfl
      (.cons trivial rfl (.cons (by unfold Edit.Fresh; decide) rfl (.nil _)))
  exact ⟨_, hrun, by decide, freshEditRun_single_links hs h hrun⟩

/-- `fifo_mirror` appends without looking for an entry already there: mirroring `0` into `1`
twice, from two FIFOs with no links, links them twice. A push of an item to `0` then stores
two clones of it at `1`, and one `fifo_unmirror(1, 0)` leaves one link in place. -/
theorem fifoMirror_repeated_link :
    ∃ s₀ s : Store, s₀.Reachable ∧ (s₀.fifos 0).dests = [] ∧ (s₀.fifos 1).sources = [] ∧
      s₀.exec (.mirror 1 0) = some (s₀.fifoMirror 1 0) ∧
      (s₀.fifoMirror 1 0).exec (.mirror 1 0) = some s ∧ s.Reachable ∧
      (s.fifos 0).dests = [1, 1] ∧ (s.fifos 1).sources = [0, 0] ∧
      (s.fifoPush 0 (some 7)).map (fun p => ((p.1.fifos 1).view, p.2)) =
        some ([some 7, some 7], .ok) ∧
      ∃ s', s.fifoUnmirror 1 0 = some s' ∧ (s'.fifos 0).dests = [1] ∧
        (s'.fifos 1).sources = [0] := by
  have h₀ : (((init fun _ => true).fifoCreate (-1) Flags.none).2.fifoCreate (-1)
      Flags.none).2.Reachable :=
    ((Reachable.init _).create (-1) Flags.none).create (-1) Flags.none
  have h₁ := h₀.mirror 1 0 (by decide) (by decide)
  exact ⟨_, _, h₀, by decide, by decide, rfl, rfl, h₁.mirror 1 0 (by decide) (by decide),
    by decide, by decide, by decide, _, rfl, by decide, by decide⟩

end Store

end Txproto
