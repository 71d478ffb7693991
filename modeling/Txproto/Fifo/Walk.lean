-- SUMMARY: fifo_push over a mirror graph with no cycle: it always returns, a push of NULL reaches every downstream queue, and its calls are a depth-first walk of the tree of dests-paths with the error rule of the loop.
import Txproto.Fifo.System
import Mathlib.Data.Finset.Card
import Mathlib.Logic.Relation
import Mathlib.Data.List.MinMax
import Mathlib.Order.Nat

/-!
# The walk of `fifo_push`

`fifo_push(dst, in)` calls itself on each entry of `dst->dests` while it holds `dst`'s lock.
On a mirror graph with no cycle through a FIFO that `dst` reaches, the longest `dests`-path
from a FIFO (`Store.height`) drops along every edge (`Store.height_lt`), so the recursion is
no deeper than it from `dst`, takes no lock twice and returns (`Store.fifoPush_isSome`): the
fuel of the model never runs out there.

A push of `NULL` is never refused and never waits at any FIFO: it returns `0`, or `ENOMEM`
when an allocation failed, and when it returns `0` every FIFO that buffers holds one `NULL`
more per `dests`-path from `dst` (`fifoPush_null`).

`Store.pushAuxLog` is `pushAux` that also logs each call it makes with what happened at the
call's own FIFO. The log is a depth-first walk of the tree of `dests`-paths (`Walks`) in
which a FIFO over its limit has no calls below it and an allocation failure ends the walk,
and the push returns `ENOMEM` if the walk met one, otherwise the error of the first failing
call in walk order, otherwise `0` (`fifoPush_walk`).
-/

namespace Txproto

-- ---------------------------------------------------------------------------
-- The mirror graph
-- ---------------------------------------------------------------------------

/-- The mirror graph of a store: each FIFO's `dests`. -/
def Store.graph (s : Store) (F : FifoId) : List FifoId := (s.fifos F).dests

/-- `B` is an entry of `A`'s destinations in `g`. -/
def Edge (g : FifoId → List FifoId) (A B : FifoId) : Prop := B ∈ g A

/-- No `dests`-cycle passes through a FIFO that `S` reaches. -/
def Store.AcyclicFrom (s : Store) (S : FifoId) : Prop :=
  ∀ F, Relation.ReflTransGen (Edge s.graph) S F → ¬Relation.TransGen (Edge s.graph) F F

/-- A rank that every edge lowers rules out every cycle. -/
theorem Store.acyclicFrom_of_rank {s : Store} (rank : FifoId → Nat)
    (h : ∀ A, ∀ B ∈ (s.fifos A).dests, rank B < rank A) (S : FifoId) : s.AcyclicFrom S := by
  have hlt : ∀ {A B}, Relation.TransGen (Edge s.graph) A B → rank B < rank A := by
    intro A B hAB
    induction hAB with
    | single hab => exact h _ _ hab
    | tail _ hbc ih => exact (h _ _ hbc).trans ih
  exact fun F _ hF => lt_irrefl _ (hlt hF)

/-- In a store of the program every `dests` entry is a handle already made. -/
theorem Store.Inv.graph_lt {s : Store} (hinv : s.Inv) : ∀ F, ∀ d ∈ s.graph F, d < s.next :=
  fun F d hd => hinv.live_lt d (hinv.dests_live F d hd)

-- ---------------------------------------------------------------------------
-- Termination
-- ---------------------------------------------------------------------------

/-- A `dests`-path of `k` edges from `F` in `g`. -/
inductive PathFrom (g : FifoId → List FifoId) : FifoId → Nat → Prop
  | nil (F : FifoId) : PathFrom g F 0
  | cons {F d : FifoId} {k : Nat} : d ∈ g F → PathFrom g d k → PathFrom g F (k + 1)

/-- The length of the longest `dests`-path from `F` in `g` of at most `n` edges. -/
def longestPath (g : FifoId → List FifoId) : Nat → FifoId → Nat
  | 0, _ => 0
  | n + 1, F => ((g F).map fun d => longestPath g n d + 1).foldr max 0

section Termination

variable {g : FifoId → List FifoId} {N : Nat}

open Classical in
/-- Below an edge `A → B` with `B` on no cycle, `B` reaches fewer of the first `N` FIFOs
than `A` does. -/
theorem card_reach_lt (hN : ∀ F, ∀ d ∈ g F, d < N) {A B : FifoId} (hAB : B ∈ g A)
    (hB : ¬Relation.TransGen (Edge g) B B) :
    ((Finset.range N).filter (Relation.TransGen (Edge g) B)).card <
      ((Finset.range N).filter (Relation.TransGen (Edge g) A)).card := by
  refine Finset.card_lt_card ((Finset.ssubset_iff_of_subset fun G hG => ?_).2 ⟨B, ?_, ?_⟩)
  · rw [Finset.mem_filter] at hG ⊢
    exact ⟨hG.1, .head hAB hG.2⟩
  · exact Finset.mem_filter.2 ⟨Finset.mem_range.2 (hN A B hAB), .single hAB⟩
  · exact fun hm => hB (Finset.mem_filter.1 hm).2

/-- The loop returns when every call it makes on an entry of the list returns. -/
theorem distribute_isSome {push : Store → FifoId → Option (Store × Ret)}
    (hq : ∀ {s d s' r}, push s d = some (s', r) → s.QueuesOnly s') (ds₀ : List FifoId)
    (hpush : ∀ s d, d ∈ ds₀ → (∀ F, (s.fifos F).dests = g F) → (push s d).isSome) :
    ∀ {ds s err}, ds ⊆ ds₀ → (∀ F, (s.fifos F).dests = g F) → (distribute push s ds err).isSome
  | [], _, _, _, _ => rfl
  | d :: ds, s, err, hds, hg => by
    obtain ⟨⟨s₁, r⟩, h₁⟩ := Option.isSome_iff_exists.1 (hpush s d (hds (.head _)) hg)
    simp only [distribute, h₁]
    split_ifs
    · rfl
    all_goals
      exact distribute_isSome hq ds₀ hpush (fun _ hm => hds (.tail _ hm))
        fun F => ((hq h₁).dests F).trans (hg F)

/-- The longest path is a path. -/
theorem pathFrom_longestPath (g : FifoId → List FifoId) : ∀ n F, PathFrom g F (longestPath g n F)
  | 0, F => .nil F
  | n + 1, F => by
    rw [longestPath]
    by_cases h : (g F).map (fun d => longestPath g n d + 1) = []
    · rw [h]
      exact .nil F
    · have hm := List.maximum_mem (List.foldr_max_of_ne_nil h).symm
      obtain ⟨d, hd, he⟩ := List.mem_map.1 hm
      rw [← Nat.bot_eq_zero, ← he]
      exact .cons hd (pathFrom_longestPath g n d)

/-- Every path of at most `n` edges is at most as long. -/
theorem PathFrom.le_longestPath {F : FifoId} {k : Nat} (hp : PathFrom g F k) :
    ∀ {n}, k ≤ n → k ≤ longestPath g n F := by
  induction hp with
  | nil => exact fun _ => Nat.zero_le _
  | @cons F d k hd _ ih =>
    intro n hn
    cases n with
    | zero => omega
    | succ m =>
      rw [longestPath, ← Nat.bot_eq_zero]
      exact List.le_max_of_le (List.mem_map.2 ⟨d, hd, rfl⟩) (Nat.succ_le_succ (ih (by omega)))

theorem longestPath_le : ∀ (n : Nat) (F : FifoId), longestPath g n F ≤ n
  | 0, _ => le_rfl
  | n + 1, F => by
    rw [longestPath, ← Nat.bot_eq_zero]
    refine List.max_le_of_forall_le _ _ fun a ha => ?_
    obtain ⟨d, -, rfl⟩ := List.mem_map.1 ha
    exact Nat.succ_le_succ (longestPath_le n d)

open Classical in
/-- On FIFOs that reach no cycle, a path is no longer than the number of FIFOs its start
reaches by a non-empty path. -/
theorem PathFrom.le_card {N : Nat} (hN : ∀ F, ∀ d ∈ g F, d < N) {F : FifoId} {k : Nat}
    (hp : PathFrom g F k)
    (hac : ∀ G, Relation.ReflTransGen (Edge g) F G → ¬Relation.TransGen (Edge g) G G) :
    k ≤ ((Finset.range N).filter (Relation.TransGen (Edge g) F)).card := by
  induction hp with
  | nil => exact Nat.zero_le _
  | cons hd _ ih =>
    exact (ih fun G hG => hac G (.head hd hG)).trans_lt
      (card_reach_lt hN hd (hac _ (.single hd)))

/-- A push returns when a rank `h` drops along every edge below `dst`, every lock held is on a
FIFO of higher rank, and the fuel exceeds the rank of `dst`: each level of the recursion is
on a FIFO of lower rank than its caller's. -/
theorem pushAux_isSome_of_rank (h : FifoId → Nat) (x : Item) :
    ∀ (n : Nat) (held : List FifoId) (s : Store) (dst : FifoId),
    (∀ F, (s.fifos F).dests = g F) →
    (∀ F, Relation.ReflTransGen (Edge g) dst F → ∀ d ∈ g F, h d < h F) →
    (∀ F ∈ held, h dst < h F) → h dst < n →
    (pushAux n held s dst x).isSome
  | 0, _, _, _, _, _, _, hn => absurd hn (Nat.not_lt_zero _)
  | n + 1, held, s, dst, hg, hdec, hheld, hn => by
    -- each call of the loop is on a destination of lower rank than `dst` and every lock held
    have hcall (s' : Store) (d : FifoId) (hd : d ∈ g dst) (hg' : ∀ F, (s'.fifos F).dests = g F) :
        (pushAux n (dst :: held) s' d x).isSome := by
      have hlt := hdec dst .refl d hd
      refine pushAux_isSome_of_rank h x n _ s' d hg' (fun F hF => hdec F (.head hd hF))
        (fun F hF => ?_) (by omega)
      rcases List.mem_cons.1 hF with rfl | hF
      exacts [hlt, hlt.trans (hheld F hF)]
    have hloop (s₁ : Store) (h₁ : s.QueuesOnly s₁) :
        (distribute (fun s d => pushAux n (dst :: held) s d x) s₁ (s₁.fifos dst).dests
          .ok).isSome := by
      have hg₁ (F : FifoId) : (s₁.fifos F).dests = g F := (h₁.dests F).trans (hg F)
      rw [hg₁ dst]
      exact distribute_isSome pushAux_queuesOnly (g dst) hcall (List.Subset.refl _) hg₁
    simp only [pushAux, if_neg fun hm => lt_irrefl _ (hheld dst hm)]
    split
    · exact hloop s (.refl s)
    · rfl
    all_goals
      rcases he : s.pushEnqueue dst x with ⟨_ | _, s₁⟩
      · rfl
      · exact hloop s₁ (Store.pushEnqueue_queuesOnly_of_eq he)

end Termination

/-- The measure of `fifo_push(F, x)`: the longest `dests`-path from `F`, over paths of at
most as many edges as there are handles. -/
def Store.height (s : Store) (F : FifoId) : Nat := longestPath s.graph s.next F

namespace Store

variable {s : Store} {S : FifoId}

open Classical in
/-- On a store of the program, below a FIFO that `S` reaches with no cycle, the height is the
length of the longest `dests`-path. -/
theorem height_longest (hinv : s.Inv) (hacyc : s.AcyclicFrom S) {F : FifoId}
    (hF : Relation.ReflTransGen (Edge s.graph) S F) :
    PathFrom s.graph F (s.height F) ∧ ∀ k, PathFrom s.graph F k → k ≤ s.height F := by
  refine ⟨pathFrom_longestPath _ _ _, fun k hk => hk.le_longestPath ?_⟩
  exact (hk.le_card hinv.graph_lt fun G hG => hacyc G (hF.trans hG)).trans
    ((Finset.card_filter_le _ _).trans (Finset.card_range _).le)

/-- Along every edge below `S` the height drops. -/
theorem height_lt (hinv : s.Inv) (hacyc : s.AcyclicFrom S) {F d : FifoId}
    (hF : Relation.ReflTransGen (Edge s.graph) S F) (hd : d ∈ s.graph F) :
    s.height d < s.height F :=
  (height_longest hinv hacyc hF).2 _ (.cons hd (pathFrom_longestPath _ _ _))

/-- On a store of the program, `fifo_push(S, x)` returns whenever no cycle of mirrors passes
through a FIFO that `S` reaches: its recursion is no deeper than the longest `dests`-path
from `S`. -/
theorem fifoPush_isSome (hinv : s.Inv) (hacyc : s.AcyclicFrom S) (x : Item) :
    (s.fifoPush S x).isSome :=
  pushAux_isSome_of_rank s.height x _ [] s S (fun _ => rfl)
    (fun _ hF _ hd => height_lt hinv hacyc hF hd) (fun _ h => absurd h (List.not_mem_nil _))
    (Nat.lt_succ_of_le (longestPath_le _ _))

end Store

-- ---------------------------------------------------------------------------
-- Allocation failures
-- ---------------------------------------------------------------------------

namespace Store

/-- `s'` is `s` after more allocation attempts, read from the same oracle. -/
structure AllocsFrom (s s' : Store) : Prop where
  allocOk : s'.allocOk = s.allocOk
  allocs_le : s.allocs ≤ s'.allocs

theorem AllocsFrom.refl (s : Store) : s.AllocsFrom s := ⟨rfl, le_rfl⟩

theorem AllocsFrom.trans {a b c : Store} (h₁ : a.AllocsFrom b) (h₂ : b.AllocsFrom c) :
    a.AllocsFrom c := ⟨h₂.allocOk.trans h₁.allocOk, h₁.allocs_le.trans h₂.allocs_le⟩

/-- An allocation attempted on the way from `s` to `s'` failed. -/
def FailedIn (s s' : Store) : Prop := ∃ k, s.allocs ≤ k ∧ k < s'.allocs ∧ s.allocOk k = false

theorem FailedIn.widen {a b c d : Store} (h₁ : a.AllocsFrom b) (h : b.FailedIn c)
    (h₂ : c.AllocsFrom d) : a.FailedIn d := by
  obtain ⟨k, hk₁, hk₂, hk⟩ := h
  exact ⟨k, h₁.allocs_le.trans hk₁, hk₂.trans_le h₂.allocs_le, h₁.allocOk ▸ hk⟩

/-- The enqueue makes at most one allocation attempt; it reports a failure only when that
attempt failed. -/
theorem pushEnqueue_allocsFrom (s : Store) (dst : FifoId) (x : Item) :
    s.AllocsFrom (s.pushEnqueue dst x).2 ∧
      ((s.pushEnqueue dst x).1 = false → s.FailedIn (s.pushEnqueue dst x).2) := by
  have hclone (t : Store) : (t.clone x).allocOk = t.allocOk ∧ (t.clone x).allocs = t.allocs := by
    cases x <;> exact ⟨rfl, rfl⟩
  unfold pushEnqueue fastRealloc
  split_ifs with hfit hok
  · exact ⟨⟨by simp [hclone], by simp [hclone]⟩, by simp⟩
  · exact ⟨⟨by simp [hclone, tryAlloc], by simp [hclone, tryAlloc]⟩, by simp⟩
  · exact ⟨⟨rfl, Nat.le_succ _⟩,
      fun _ => ⟨s.allocs, le_rfl, Nat.lt_succ_self _, by simpa [tryAlloc] using hok⟩⟩

/-- The loop fails with `ENOMEM` only when one of its calls did, on a store it reached. -/
theorem distribute_enomem {P : Store → Store → Prop} (refl : ∀ s, P s s)
    (trans : ∀ {a b c}, P a b → P b c → P a c) {push : Store → FifoId → Option (Store × Ret)}
    (hpush : ∀ {s d s' r}, push s d = some (s', r) → P s s') :
    ∀ {ds s err s'}, err ≠ .enomem → distribute push s ds err = some (s', .enomem) →
      ∃ s₁ d s₂, P s s₁ ∧ d ∈ ds ∧ push s₁ d = some (s₂, .enomem) ∧ P s₂ s'
  | [], s, err, s', herr, h => by cases h; exact absurd rfl herr
  | d :: ds, s, err, s', herr, h => by
    simp only [distribute] at h
    split at h
    · cases h
    · rename_i s₁ r₁ h₁
      split_ifs at h with hr
      · cases h; exact ⟨s, d, _, refl s, .head _, hr ▸ h₁, refl _⟩
      all_goals
        obtain ⟨s₂, d', s₃, hP, hd', hp, hP'⟩ := distribute_enomem refl trans hpush
          (by assumption) h
        exact ⟨s₂, d', s₃, trans (hpush h₁) hP, .tail _ hd', hp, hP'⟩

theorem pushAux_allocsFrom : ∀ {n held s dst x s' r},
    pushAux n held s dst x = some (s', r) → s.AllocsFrom s'
  | 0, _, _, _, _, _, _, h => by cases h
  | n + 1, held, s, dst, x, s', r, h => by
    obtain ⟨-, ⟨-, -, rfl⟩ | ⟨-, -, he, -⟩ | ⟨s₁, hs₁, hd⟩⟩ := pushAux_eq_some h
    · exact .refl _
    · simpa [he] using (s.pushEnqueue_allocsFrom dst x).1
    · have h₁ : s.AllocsFrom s₁ := by
        rcases hs₁ with ⟨-, rfl⟩ | ⟨-, -, he⟩
        · exact .refl _
        · simpa [he] using (s.pushEnqueue_allocsFrom dst x).1
      exact h₁.trans (distribute_induct AllocsFrom.refl AllocsFrom.trans pushAux_queuesOnly s₁ _
        (fun _ _ h => pushAux_allocsFrom h) (List.Subset.refl _) (.refl s₁) hd)

/-- A push returns `ENOMEM` only when one of the allocations it attempted failed. -/
theorem pushAux_enomem : ∀ {n held s dst x s'},
    pushAux n held s dst x = some (s', .enomem) → s.FailedIn s'
  | 0, _, _, _, _, _, h => by cases h
  | n + 1, held, s, dst, x, s', h => by
    obtain ⟨-, ⟨-, h, -⟩ | ⟨-, -, he, -⟩ | ⟨s₁, hs₁, hd⟩⟩ := pushAux_eq_some h
    · cases h
    · simpa [he] using (s.pushEnqueue_allocsFrom dst x).2
    · have h₁ : s.AllocsFrom s₁ := by
        rcases hs₁ with ⟨-, rfl⟩ | ⟨-, -, he⟩
        · exact .refl _
        · simpa [he] using (s.pushEnqueue_allocsFrom dst x).1
      obtain ⟨s₂, d, s₃, hP, -, hp, hP'⟩ := distribute_enomem AllocsFrom.refl AllocsFrom.trans
        pushAux_allocsFrom (by decide) hd
      exact FailedIn.widen (h₁.trans hP) (pushAux_enomem hp) hP'

end Store

-- ---------------------------------------------------------------------------
-- A push of `NULL`
-- ---------------------------------------------------------------------------

/-- The capacity test never holds for `NULL`: a push of `NULL` skips a FIFO with
`max_queued == 0` and stores at every other, whatever its length and flags. -/
theorem Fifo.pushCheck_none (f : Fifo) :
    f.pushCheck none = if f.maxQueued = 0 then .skip else .enqueue := by
  simp [Fifo.pushCheck, Fifo.overLimit]

/-- The loop returns its first error or one a call returned. -/
theorem distribute_ret (Q : Ret → Prop) {push : Store → FifoId → Option (Store × Ret)}
    (hpush : ∀ {s d s' r}, push s d = some (s', r) → Q r) :
    ∀ {ds s err s' r}, Q err → distribute push s ds err = some (s', r) → Q r
  | [], s, err, s', r, herr, h => by cases h; exact herr
  | d :: ds, s, err, s', r, herr, h => by
    simp only [distribute] at h
    split at h
    · cases h
    · rename_i s₁ r₁ h₁
      split_ifs at h with hr
      · cases h; exact hr ▸ hpush h₁
      · exact distribute_ret Q hpush (hpush h₁) h
      · exact distribute_ret Q hpush herr h

/-- A push of `NULL` returns `0` or `ENOMEM` only. -/
theorem pushAux_null_ret : ∀ {n held s dst s' r},
    pushAux n held s dst none = some (s', r) → r = .ok ∨ r = .enomem
  | 0, _, _, _, _, _, h => by cases h
  | n + 1, held, s, dst, s', r, h => by
    obtain ⟨-, ⟨hfull, -, -⟩ | ⟨-, -, -, hr⟩ | ⟨s₁, -, hd⟩⟩ := pushAux_eq_some h
    · rw [Fifo.pushCheck_none] at hfull
      split_ifs at hfull
    · exact .inr hr
    · exact distribute_ret (fun r => r = .ok ∨ r = .enomem) pushAux_null_ret (.inl rfl) hd


/-- A push of `NULL` on a mirror graph with no cycle below `S`, whatever the capacities,
lengths and flags: no FIFO refuses it or makes it wait on `cond_out`, and it returns, with
`0` unless an allocation it attempted failed. When it returns `0`, every FIFO that buffers
holds one `NULL` more per `dests`-path from `S`, `S` itself included, and no other queue
changed. -/
theorem Store.fifoPush_null {s : Store} (hinv : s.Inv) {S : FifoId} (hacyc : s.AcyclicFrom S) :
    (∀ f : Fifo, f.pushCheck none ≠ .full ∧ f.pushCheck none ≠ .wait) ∧
    ∃ s' r, s.fifoPush S none = some (s', r) ∧
      (r = .ok ∨ r = .enomem ∧ s.FailedIn s') ∧
      (r = .ok → ∀ m, s.next + 1 ≤ m → FanOut none (pathCount m s S) s s') := by
  refine ⟨fun f => by rw [Fifo.pushCheck_none]; split_ifs <;> simp, ?_⟩
  obtain ⟨⟨s', r⟩, h⟩ := Option.isSome_iff_exists.1 (s.fifoPush_isSome hinv hacyc none)
  refine ⟨s', r, h, ?_, fun hr m hm => ?_⟩
  · rcases pushAux_null_ret h with rfl | rfl
    · exact .inl rfl
    · exact .inr ⟨rfl, pushAux_enomem h⟩
  · subst hr
    obtain ⟨k, rfl⟩ := Nat.exists_eq_add_of_le hm
    rw [pushAux_pathCount_add h k]
    exact pushAux_fanOut hinv.numNonneg h

/-- Two unbounded FIFOs, `0` mirrored into `1`: a reachable store with no cycle. -/
theorem Store.chain_reachable_acyclic :
    let s := (((init fun _ => true).fifoCreate (-1) Flags.none).2.fifoCreate (-1)
      Flags.none).2.fifoMirror 1 0
    s.Reachable ∧ s.AcyclicFrom 0 := by
  have h₀ : (((init fun _ => true).fifoCreate (-1) Flags.none).2.fifoCreate (-1)
      Flags.none).2.Reachable :=
    ((Reachable.init _).create (-1) Flags.none).create (-1) Flags.none
  have hnil (A : FifoId) : ((((init fun _ => true).fifoCreate (-1) Flags.none).2.fifoCreate (-1)
      Flags.none).2.fifos A).dests = [] :=
    List.subset_nil.1 ((fifoCreate_dests_subset _ _ _ A).trans (fifoCreate_dests_subset _ _ _ A))
  refine ⟨h₀.mirror 1 0 (by decide) (by decide),
    acyclicFrom_of_rank (fun F => if F = 0 then 1 else 0) (fun A B hB => ?_) 0⟩
  rw [fifoMirror_dests, hnil] at hB
  split_ifs at hB with hA
  · simp only [BufferList.append, List.nil_append, List.mem_singleton] at hB
    simp [hA, hB]
  · simp at hB

theorem Store.fifoPush_null_chain :
    let s := (((init fun _ => true).fifoCreate (-1) Flags.none).2.fifoCreate (-1)
      Flags.none).2.fifoMirror 1 0
    s.Inv ∧ s.AcyclicFrom 0 ∧
    (∀ f : Fifo, f.pushCheck none ≠ .full ∧ f.pushCheck none ≠ .wait) ∧
    ∃ s' r, s.fifoPush 0 none = some (s', r) ∧
      (r = .ok ∨ r = .enomem ∧ s.FailedIn s') ∧
      (r = .ok → ∀ m, s.next + 1 ≤ m → FanOut none (pathCount m s 0) s s') :=
  ⟨chain_reachable_acyclic.1.inv, chain_reachable_acyclic.2,
    fifoPush_null chain_reachable_acyclic.1.inv chain_reachable_acyclic.2⟩


-- ---------------------------------------------------------------------------
-- The calls a push makes
-- ---------------------------------------------------------------------------

/-- What happened at a call's own FIFO. -/
inductive Visit where
  /-- `max_queued == 0`: nothing stored, on to the loop. -/
  | skipped
  /-- A clone stored, after at most one wait on `cond_out`, then the loop. -/
  | stored
  /-- Over the limit without `BLOCK_MAX_OUTPUT`: `ENOBUFS`, no loop. -/
  | full
  /-- `av_fast_realloc` failed: `ENOMEM`, no loop. -/
  | noMem
  deriving DecidableEq, Repr

/-- What a call returns by what happened at its own FIFO alone. -/
def Visit.ret : Visit → Ret
  | .skipped | .stored => .ok
  | .full => .enobufs
  | .noMem => .enomem

@[simp] theorem Visit.ret_eq_enomem {v : Visit} : v.ret = .enomem ↔ v = .noMem := by
  cases v <;> decide

/-- The calls of a push in the order they were made, each with its FIFO and what happened
there. -/
abbrev WalkLog := List (FifoId × Visit)

/-- A result without its log. -/
def withLog (p : Store × Ret × WalkLog) : Store × Ret := (p.1, p.2.1)

/-- `distribute`, with the logs of its calls appended in order. -/
def distributeLog (push : Store → FifoId → Option (Store × Ret × WalkLog)) :
    Store → List FifoId → Ret → Option (Store × Ret × WalkLog)
  | s, [], err => some (s, err, [])
  | s, d :: ds, err =>
    match push s d with
    | none => none
    | some (s₁, r, w) =>
      if r = .enomem then some (s₁, .enomem, w)
      else (distributeLog push s₁ ds (if r ≠ .ok ∧ err = .ok then r else err)).map
        fun p => (p.1, p.2.1, w ++ p.2.2)

/-- `pushAux`, logging each call it makes. -/
def pushAuxLog : Nat → List FifoId → Store → FifoId → Item → Option (Store × Ret × WalkLog)
  | 0, _, _, _, _ => none
  | n + 1, held, s, dst, x =>
    if dst ∈ held then none
    else
      let next := fun (s₁ : Store) (v : Visit) =>
        (distributeLog (fun s d => pushAuxLog n (dst :: held) s d x) s₁ (s₁.fifos dst).dests
          .ok).map fun p => (p.1, p.2.1, (dst, v) :: p.2.2)
      match (s.fifos dst).pushCheck x with
      | .skip => next s .skipped
      | .full => some (s, .enobufs, [(dst, .full)])
      | .wait | .enqueue =>
        match s.pushEnqueue dst x with
        | (false, s₁) => some (s₁, .enomem, [(dst, .noMem)])
        | (true, s₁) => next s₁ .stored

/-- `fifo_push(dst, x)` with the log of its calls. -/
def Store.fifoPushLog (s : Store) (dst : FifoId) (x : Item) : Option (Store × Ret × WalkLog) :=
  pushAuxLog (s.next + 1) [] s dst x

theorem distributeLog_map (push : Store → FifoId → Option (Store × Ret × WalkLog)) :
    ∀ s ds err, (distributeLog push s ds err).map withLog =
      distribute (fun s d => (push s d).map withLog) s ds err
  | s, [], err => rfl
  | s, d :: ds, err => by
    simp only [distributeLog, distribute]
    rcases push s d with _ | ⟨s₁, r, w⟩
    · rfl
    · simp only [Option.map_some', withLog]
      split_ifs
      · rfl
      all_goals rw [Option.map_map]; exact distributeLog_map push s₁ ds _

/-- The log is all `pushAuxLog` adds: without it, it is `pushAux`. -/
theorem pushAuxLog_map (x : Item) :
    ∀ n held s dst, (pushAuxLog n held s dst x).map withLog = pushAux n held s dst x
  | 0, _, _, _ => rfl
  | n + 1, held, s, dst => by
    have hloop (s₁ : Store) (v : Visit) :
        ((distributeLog (fun s d => pushAuxLog n (dst :: held) s d x) s₁ (s₁.fifos dst).dests
          .ok).map fun p => (p.1, p.2.1, (dst, v) :: p.2.2)).map withLog =
        distribute (fun s d => pushAux n (dst :: held) s d x) s₁ (s₁.fifos dst).dests .ok := by
      rw [Option.map_map]
      exact (distributeLog_map _ s₁ _ .ok).trans
        (by simp only [pushAuxLog_map x n])
    simp only [pushAuxLog, pushAux]
    split_ifs
    · rfl
    rcases (s.fifos dst).pushCheck x with _ | _ | _ | _
    · exact hloop s .skipped
    · rfl
    all_goals
      rcases s.pushEnqueue dst x with ⟨_ | _, s₁⟩
      · rfl
      · exact hloop s₁ .stored

theorem Store.fifoPushLog_map (s : Store) (dst : FifoId) (x : Item) :
    (s.fifoPushLog dst x).map withLog = s.fifoPush dst x :=
  pushAuxLog_map x _ _ s dst


-- ---------------------------------------------------------------------------
-- The walk
-- ---------------------------------------------------------------------------

/-- A depth-first walk of the tree of `dests`-paths of `g`, from the stack `todo` of FIFOs
still to visit, logged as the FIFOs it visits, each with what happened there; `stop` when an
allocation failure ended it. A FIFO that skips or stores is followed by its destinations,
in order, then by the rest of the stack; a full one has nothing below it and the walk goes
on with the rest; an allocation failure ends the walk. -/
inductive Walks (g : FifoId → List FifoId) : List FifoId → WalkLog → Bool → Prop
  | nil : Walks g [] [] false
  | pass {d : FifoId} {ds : List FifoId} {v : Visit} {log : WalkLog} {stop : Bool} :
      v = .skipped ∨ v = .stored → Walks g (g d ++ ds) log stop →
      Walks g (d :: ds) ((d, v) :: log) stop
  | full {d : FifoId} {ds : List FifoId} {log : WalkLog} {stop : Bool} :
      Walks g ds log stop → Walks g (d :: ds) ((d, .full) :: log) stop
  | noMem {d : FifoId} {ds : List FifoId} : Walks g (d :: ds) [(d, .noMem)] true

/-- The update of the loop's error by a call's result: the first error is kept. -/
def keepErr (err r : Ret) : Ret := if r ≠ .ok ∧ err = .ok then r else err

/-- The first error of a list of results, `0` if there is none. -/
def firstErr (rs : List Ret) : Ret := (rs.find? (· ≠ .ok)).getD .ok

/-- What a push returns by the log of its walk: `ENOMEM` if a call failed to allocate,
otherwise the error of the first failing call in walk order, otherwise `0`. -/
def retOf (log : WalkLog) : Ret :=
  if log.any (·.2 = .noMem) then .enomem else firstErr (log.map (·.2.ret))

section Walks

variable {g : FifoId → List FifoId}

/-- A walk that was not stopped goes on with the rest of a longer stack. -/
theorem Walks.append {todo : List FifoId} {log : WalkLog} {b : Bool} (h : Walks g todo log b)
    {ds : List FifoId} {ws : WalkLog} {stop : Bool} (hb : b = false) (hds : Walks g ds ws stop) :
    Walks g (todo ++ ds) (log ++ ws) stop := by
  induction h with
  | nil => exact hds
  | pass hv _ ih => exact .pass hv (by simpa only [List.append_eq, List.append_assoc] using ih hb)
  | full _ ih => exact .full (ih hb)
  | noMem => cases hb

/-- A walk stopped by an allocation failure ignores the rest of a longer stack. -/
theorem Walks.append_stop {todo : List FifoId} {log : WalkLog} {b : Bool} (h : Walks g todo log b)
    (hb : b = true) (ds : List FifoId) : Walks g (todo ++ ds) log true := by
  induction h with
  | nil => cases hb
  | pass hv _ ih => exact .pass hv (by simpa only [List.append_eq, List.append_assoc] using ih hb)
  | full _ ih => exact .full (ih hb)
  | noMem => exact .noMem

end Walks

theorem keepErr_ok_left (r : Ret) : keepErr .ok r = r := by
  by_cases h : r = .ok <;> simp [keepErr, h]

theorem keepErr_of_ne {err : Ret} (h : err ≠ .ok) (r : Ret) : keepErr err r = err := by
  simp [keepErr, h]

theorem keepErr_assoc (a b c : Ret) : keepErr (keepErr a b) c = keepErr a (keepErr b c) := by
  by_cases ha : a = .ok
  · subst ha; simp only [keepErr_ok_left]
  · simp only [keepErr_of_ne ha]

theorem keepErr_ne_enomem {a b : Ret} (ha : a ≠ .enomem) (hb : b ≠ .enomem) :
    keepErr a b ≠ .enomem := by
  unfold keepErr; split_ifs <;> assumption

theorem firstErr_cons (e : Ret) (rs : List Ret) :
    firstErr (e :: rs) = if e = .ok then firstErr rs else e := by
  by_cases h : e = .ok <;> simp [firstErr, List.find?_cons, h]

theorem firstErr_append (a b : List Ret) :
    firstErr (a ++ b) = keepErr (firstErr a) (firstErr b) := by
  induction a with
  | nil => exact (keepErr_ok_left _).symm
  | cons e a ih =>
    rw [List.cons_append, firstErr_cons, firstErr_cons, ih]
    split_ifs with he
    · rfl
    · exact (keepErr_of_ne he _).symm

/-- A log with no allocation failure has a first error other than `ENOMEM`. -/
theorem retOf_ne_enomem {log : WalkLog} (h : ¬log.any (·.2 = .noMem)) :
    firstErr (log.map (·.2.ret)) ≠ .enomem := by
  induction log with
  | nil => simp [firstErr]
  | cons e log ih =>
    simp only [List.any_cons, Bool.or_eq_true, decide_eq_true_eq, not_or] at h
    rw [List.map_cons, firstErr_cons]
    split_ifs
    · exact ih h.2
    · exact mt Visit.ret_eq_enomem.1 h.1

theorem retOf_eq_enomem {log : WalkLog} : retOf log = .enomem ↔ log.any (·.2 = .noMem) := by
  unfold retOf
  split_ifs with h
  · exact iff_of_true rfl h
  · exact iff_of_false (retOf_ne_enomem h) h

/-- The result of a walk after a part that met no allocation failure. -/
theorem retOf_append {w : WalkLog} (hw : retOf w ≠ .enomem) (ws : WalkLog) :
    retOf (w ++ ws) = if retOf ws = .enomem then .enomem else keepErr (retOf w) (retOf ws) := by
  have hw' : ¬w.any (·.2 = .noMem) := mt retOf_eq_enomem.2 hw
  by_cases hws : ws.any (·.2 = .noMem)
  · rw [if_pos (retOf_eq_enomem.2 hws), retOf_eq_enomem]
    simp only [List.any_append, hws, Bool.or_true]
  · rw [if_neg (mt retOf_eq_enomem.1 hws)]
    simp only [retOf, List.any_append, hw', hws, Bool.or_false, if_false, Bool.false_eq_true,
      List.map_append, firstErr_append]

theorem retOf_cons {F : FifoId} {v : Visit} (hv : v = .skipped ∨ v = .stored) (log : WalkLog) :
    retOf ((F, v) :: log) = retOf log := by
  rcases hv with rfl | rfl <;> rfl


section Walks

variable {g : FifoId → List FifoId}

/-- The loop's log is the walks of its calls, one after the other, up to the first
allocation failure; it returns `ENOMEM` if one failed to allocate and otherwise keeps the
first error. -/
theorem distributeLog_walks {push : Store → FifoId → Option (Store × Ret × WalkLog)}
    (hpush : ∀ {s d s' r w}, (∀ F, (s.fifos F).dests = g F) → push s d = some (s', r, w) →
      s.QueuesOnly s' ∧ Walks g [d] w (decide (r = .enomem)) ∧ r = retOf w) :
    ∀ {ds s err s' r log}, (∀ F, (s.fifos F).dests = g F) → err ≠ .enomem →
      distributeLog push s ds err = some (s', r, log) →
      s.QueuesOnly s' ∧ Walks g ds log (decide (r = .enomem)) ∧
        r = if retOf log = .enomem then .enomem else keepErr err (retOf log)
  | [], s, err, s', r, log, _, herr, h => by
    cases h
    refine ⟨.refl _, by simpa [herr] using Walks.nil, ?_⟩
    simp only [retOf, List.any_nil, firstErr, List.map_nil, List.find?_nil, Option.getD_none]
    simp [keepErr]
  | d :: ds, s, err, s', r, log, hg, herr, h => by
    simp only [distributeLog] at h
    split at h
    · cases h
    rename_i s₁ r₁ w h₁
    obtain ⟨hq₁, hw₁, hr₁⟩ := hpush hg h₁
    by_cases hr : r₁ = .enomem
    · -- the call failed to allocate: the loop halts
      rw [if_pos hr] at h
      cases h
      subst hr
      exact ⟨hq₁, by simpa using hw₁.append_stop rfl ds, by rw [← hr₁, if_pos rfl]⟩
    rw [if_neg hr] at h
    obtain ⟨⟨s₂, r₂, ws⟩, h₂, heq⟩ := Option.map_eq_some'.1 h
    cases heq
    obtain ⟨hq₂, hws, hr₂⟩ := distributeLog_walks hpush
      (fun F => ((hq₁.dests F).trans (hg F))) (keepErr_ne_enomem herr hr) h₂
    refine ⟨hq₁.trans hq₂, hw₁.append (by simpa using hr) hws, ?_⟩
    show r₂ = _
    rw [retOf_append (hr₁ ▸ hr), hr₂, ← hr₁]
    by_cases hws' : retOf ws = .enomem
    · simp only [if_pos hws', if_true]
    · rw [if_neg hws', if_neg hws', if_neg (keepErr_ne_enomem hr hws')]
      exact keepErr_assoc err r₁ (retOf ws)

/-- Each call of a push on a graph its lists keep: its log is the walk from its FIFO, and it
returns what the walk says. -/
theorem pushAuxLog_walks (x : Item) : ∀ {n held s dst s' r log},
    (∀ F, (s.fifos F).dests = g F) → pushAuxLog n held s dst x = some (s', r, log) →
    s.QueuesOnly s' ∧ Walks g [dst] log (decide (r = .enomem)) ∧ r = retOf log
  | 0, _, _, _, _, _, _, _, h => by cases h
  | n + 1, held, s, dst, s', r, log, hg, h => by
    have hq : s.QueuesOnly s' := pushAux_queuesOnly (r := r) (by rw [← pushAuxLog_map, h]; rfl)
    -- the loop after a visit `v` that goes on
    have hloop {s₁ : Store} {v : Visit} (hv : v = .skipped ∨ v = .stored)
        (hg₁ : ∀ F, (s₁.fifos F).dests = g F)
        (h : (distributeLog (fun s d => pushAuxLog n (dst :: held) s d x) s₁
          (s₁.fifos dst).dests .ok).map (fun p => (p.1, p.2.1, (dst, v) :: p.2.2)) =
          some (s', r, log)) :
        Walks g [dst] log (decide (r = .enomem)) ∧ r = retOf log := by
      obtain ⟨⟨s₂, r₂, ws⟩, h₂, heq⟩ := Option.map_eq_some'.1 h
      cases heq
      rw [hg₁ dst] at h₂
      obtain ⟨-, hws, hr₂⟩ := distributeLog_walks (fun hg' hp => pushAuxLog_walks x hg' hp)
        hg₁ (by decide) h₂
      refine ⟨.pass hv (by simpa using hws), ?_⟩
      rw [retOf_cons hv, hr₂, keepErr_ok_left]
      split_ifs with h' <;> simp [h']
    simp only [pushAuxLog] at h
    split_ifs at h
    refine ⟨hq, ?_⟩
    split at h
    · exact hloop (.inl rfl) hg h
    · cases h; exact ⟨.full .nil, rfl⟩
    all_goals
      split at h
      · cases h; exact ⟨.noMem, rfl⟩
      · rename_i s₁ he
        exact hloop (.inr rfl)
          (fun F => ((Store.pushEnqueue_queuesOnly_of_eq he).dests F).trans (hg F)) h

end Walks

/-- On a mirror graph with no cycle below `S`, the calls `fifo_push(S, x)` makes are a
depth-first walk of the tree of `dests`-paths from `S`, in which a call that is refused at
its own FIFO (full, or failing to allocate) makes no calls below it and the first allocation
failure ends the walk. The push returns `ENOMEM` if a call of the walk failed to allocate,
otherwise the error of the first failing call in walk order, otherwise `0`. -/
theorem Store.fifoPush_walk {s : Store} (hinv : s.Inv) {S : FifoId} (hacyc : s.AcyclicFrom S)
    (x : Item) :
    ∃ s' r log, s.fifoPushLog S x = some (s', r, log) ∧ s.fifoPush S x = some (s', r) ∧
      Walks s.graph [S] log (decide (r = .enomem)) ∧ r = retOf log := by
  obtain ⟨⟨s', r⟩, h⟩ := Option.isSome_iff_exists.1 (s.fifoPush_isSome hinv hacyc x)
  obtain ⟨⟨s'', r', log⟩, hlog, heq⟩ :=
    Option.map_eq_some'.1 ((s.fifoPushLog_map S x).trans h)
  cases heq
  obtain ⟨-, hw, hr⟩ := pushAuxLog_walks x (fun _ => rfl) hlog
  exact ⟨_, _, log, hlog, h, hw, hr⟩

theorem Store.fifoPush_walk_chain :
    let s := (((init fun _ => true).fifoCreate (-1) Flags.none).2.fifoCreate (-1)
      Flags.none).2.fifoMirror 1 0
    s.Inv ∧ s.AcyclicFrom 0 ∧
    ∃ s' r log, s.fifoPushLog 0 (some 7) = some (s', r, log) ∧
      s.fifoPush 0 (some 7) = some (s', r) ∧
      Walks s.graph [0] log (decide (r = .enomem)) ∧ r = retOf log :=
  ⟨chain_reachable_acyclic.1.inv, chain_reachable_acyclic.2,
    fifoPush_walk chain_reachable_acyclic.1.inv chain_reachable_acyclic.2 (some 7)⟩

end Txproto
