-- SUMMARY: The calls of fifo_push as a tree: each loop calls push on a prefix of its FIFO's dests, once per entry, each on a FIFO whose longest dests-path is shorter, so a push on a graph with no cycle returns.
import Txproto.Fifo.Walk

/-!
# The calls of `fifo_push`

`Store.fifoPushTree` is `fifo_push` that also returns the tree of the calls it makes
(`CallTree`): each call with its FIFO, what happened there, and the calls its loop made. The
loop `while ((dist = sp_bufferlist_iter_ref(ctx->dests)))` hands the entries of `dests` to
one call each, in order, and stops at `ENOMEM`, so the calls of each loop are made on a
prefix of its FIFO's `dests`. On a store of the program with no cycle through a FIFO that `S`
reaches, every call is on a FIFO whose longest `dests`-path is shorter than its caller's
(`CallTree.Follows`), and the push returns within one level more than the longest path from
`S` (`Store.fifoPush_terminates`).
-/

namespace Txproto

/-- The calls of one `fifo_push`: its FIFO, what happened there, and the calls its loop made,
in order. -/
inductive CallTree where
  | call (fifo : FifoId) (visit : Visit) (loop : List CallTree)

/-- The FIFO a call was made on. -/
def CallTree.fifo : CallTree → FifoId
  | .call F _ _ => F

/-- Each loop of the tree called a prefix of its FIFO's `dests` in `g`, one call per entry
in order, each on a FIFO of lower `h`. -/
inductive CallTree.Follows (g : FifoId → List FifoId) (h : FifoId → Nat) : CallTree → Prop
  | call {F : FifoId} {v : Visit} {cs : List CallTree} :
      cs.map CallTree.fifo <+: g F → (∀ c ∈ cs, h c.fifo < h F) →
      (∀ c ∈ cs, CallTree.Follows g h c) → CallTree.Follows g h (.call F v cs)

/-- `distribute`, with the tree of each call it makes. -/
def distributeTree (push : Store → FifoId → Option (Store × Ret × CallTree)) :
    Store → List FifoId → Ret → Option (Store × Ret × List CallTree)
  | s, [], err => some (s, err, [])
  | s, d :: ds, err =>
    match push s d with
    | none => none
    | some (s₁, r, c) =>
      if r = .enomem then some (s₁, .enomem, [c])
      else (distributeTree push s₁ ds (if r ≠ .ok ∧ err = .ok then r else err)).map
        fun p => (p.1, p.2.1, c :: p.2.2)

/-- `pushAux`, with the tree of the calls it makes. -/
def pushAuxTree :
    Nat → List FifoId → Store → FifoId → Item → Option (Store × Ret × CallTree)
  | 0, _, _, _, _ => none
  | n + 1, held, s, dst, x =>
    if dst ∈ held then none
    else
      let next := fun (s₁ : Store) (v : Visit) =>
        (distributeTree (fun s d => pushAuxTree n (dst :: held) s d x) s₁ (s₁.fifos dst).dests
          .ok).map fun p => (p.1, p.2.1, .call dst v p.2.2)
      match (s.fifos dst).pushCheck x with
      | .skip => next s .skipped
      | .full => some (s, .enobufs, .call dst .full [])
      | .wait | .enqueue =>
        match s.pushEnqueue dst x with
        | (false, s₁) => some (s₁, .enomem, .call dst .noMem [])
        | (true, s₁) => next s₁ .stored

/-- `fifo_push(dst, x)` with the tree of its calls. -/
def Store.fifoPushTree (s : Store) (dst : FifoId) (x : Item) : Option (Store × Ret × CallTree) :=
  pushAuxTree (s.next + 1) [] s dst x

theorem distributeTree_map (push : Store → FifoId → Option (Store × Ret × CallTree)) :
    ∀ s ds err, (distributeTree push s ds err).map (fun p => (p.1, p.2.1)) =
      distribute (fun s d => (push s d).map fun p => (p.1, p.2.1)) s ds err
  | s, [], err => rfl
  | s, d :: ds, err => by
    simp only [distributeTree, distribute]
    rcases push s d with _ | ⟨s₁, r, c⟩
    · rfl
    · simp only [Option.map_some']
      split_ifs
      · rfl
      all_goals rw [Option.map_map]; exact distributeTree_map push s₁ ds _

/-- The tree is all `pushAuxTree` adds: without it, it is `pushAux`. -/
theorem pushAuxTree_map (x : Item) :
    ∀ n held s dst, (pushAuxTree n held s dst x).map (fun p => (p.1, p.2.1)) =
      pushAux n held s dst x
  | 0, _, _, _ => rfl
  | n + 1, held, s, dst => by
    have hloop (s₁ : Store) (v : Visit) :
        ((distributeTree (fun s d => pushAuxTree n (dst :: held) s d x) s₁ (s₁.fifos dst).dests
          .ok).map fun p => (p.1, p.2.1, CallTree.call dst v p.2.2)).map (fun p => (p.1, p.2.1)) =
        distribute (fun s d => pushAux n (dst :: held) s d x) s₁ (s₁.fifos dst).dests .ok := by
      rw [Option.map_map]
      exact (distributeTree_map _ s₁ _ .ok).trans (by simp only [pushAuxTree_map x n])
    simp only [pushAuxTree, pushAux]
    split_ifs
    · rfl
    rcases (s.fifos dst).pushCheck x with _ | _ | _ | _
    · exact hloop s .skipped
    · rfl
    all_goals
      rcases s.pushEnqueue dst x with ⟨_ | _, s₁⟩
      · rfl
      · exact hloop s₁ .stored

theorem pushAuxTree_queuesOnly {n : Nat} {held : List FifoId} {s s' : Store} {dst : FifoId}
    {x : Item} {r : Ret} {c : CallTree} (h : pushAuxTree n held s dst x = some (s', r, c)) :
    s.QueuesOnly s' :=
  pushAux_queuesOnly (r := r) (by rw [← pushAuxTree_map, h]; rfl)

section Follows

variable {g : FifoId → List FifoId} {h : FifoId → Nat}

/-- The loop calls a prefix of its list, one call per entry in order, as long as every call
it makes on an entry of `ds₀` gives a tree that follows `g` and `h`. -/
theorem distributeTree_follows {push : Store → FifoId → Option (Store × Ret × CallTree)}
    (ds₀ : List FifoId)
    (hpush : ∀ {s d s' r c}, d ∈ ds₀ → (∀ F, (s.fifos F).dests = g F) →
      push s d = some (s', r, c) → s.QueuesOnly s' ∧ c.fifo = d ∧ c.Follows g h) :
    ∀ {ds s err s' r cs}, ds ⊆ ds₀ → (∀ F, (s.fifos F).dests = g F) →
      distributeTree push s ds err = some (s', r, cs) →
      s.QueuesOnly s' ∧ cs.map CallTree.fifo <+: ds ∧ ∀ c ∈ cs, c.Follows g h
  | [], _, _, _, _, _, _, _, hd => by
    cases hd
    exact ⟨.refl _, List.prefix_refl _, nofun⟩
  | d :: ds, s, err, s', r, cs, hds, hg, hd => by
    simp only [distributeTree] at hd
    split at hd
    · cases hd
    rename_i s₁ r₁ c h₁
    obtain ⟨hq₁, hc₁, hf₁⟩ := hpush (hds (.head _)) hg h₁
    by_cases hr : r₁ = .enomem
    · -- the call failed to allocate: the loop halts after it
      rw [if_pos hr] at hd
      cases hd
      refine ⟨hq₁, ?_, by simpa using hf₁⟩
      rw [List.map_singleton, hc₁]
      exact (List.prefix_cons_inj _).2 (List.nil_prefix)
    · rw [if_neg hr] at hd
      obtain ⟨⟨s₂, r₂, cs'⟩, h₂, heq⟩ := Option.map_eq_some'.1 hd
      cases heq
      obtain ⟨hq₂, hp₂, hf₂⟩ := distributeTree_follows ds₀ hpush
        (fun _ hm => hds (.tail _ hm)) (fun F => (hq₁.dests F).trans (hg F)) h₂
      refine ⟨hq₁.trans hq₂, ?_, List.forall_mem_cons.2 ⟨hf₁, hf₂⟩⟩
      rw [List.map_cons, hc₁]
      exact (List.prefix_cons_inj _).2 hp₂

/-- Each push whose rank `h` drops along every edge below `dst` makes its calls in a tree that
follows `g` and `h`. -/
theorem pushAuxTree_follows (x : Item) : ∀ {n held s dst s' r c},
    (∀ F, Relation.ReflTransGen (Edge g) dst F → ∀ d ∈ g F, h d < h F) →
    (∀ F, (s.fifos F).dests = g F) → pushAuxTree n held s dst x = some (s', r, c) →
    c.fifo = dst ∧ c.Follows g h
  | 0, _, _, _, _, _, _, _, _, hc => by cases hc
  | n + 1, held, s, dst, s', r, c, hdec, hg, hc => by
    -- the loop after a visit `v` that goes on to it
    have hloop {s₁ : Store} {v : Visit} (hg₁ : ∀ F, (s₁.fifos F).dests = g F)
        (hl : (distributeTree (fun s d => pushAuxTree n (dst :: held) s d x) s₁
          (s₁.fifos dst).dests .ok).map (fun p => (p.1, p.2.1, CallTree.call dst v p.2.2)) =
          some (s', r, c)) :
        c.fifo = dst ∧ c.Follows g h := by
      obtain ⟨⟨s₂, r₂, cs⟩, h₂, heq⟩ := Option.map_eq_some'.1 hl
      cases heq
      rw [hg₁ dst] at h₂
      obtain ⟨-, hp, hf⟩ := distributeTree_follows (g dst)
        (fun hd hg' hpc => ⟨pushAuxTree_queuesOnly hpc,
          pushAuxTree_follows x (fun F hF => hdec F (.head hd hF)) hg' hpc⟩)
        (List.Subset.refl _) hg₁ h₂
      exact ⟨rfl, .call hp (fun c hc => hdec dst .refl _ (hp.subset (List.mem_map_of_mem _ hc)))
        hf⟩
    simp only [pushAuxTree] at hc
    split_ifs at hc
    split at hc
    · exact hloop hg hc
    · cases hc
      exact ⟨rfl, .call (List.nil_prefix) nofun nofun⟩
    all_goals
      split at hc
      · cases hc
        exact ⟨rfl, .call (List.nil_prefix) nofun nofun⟩
      · rename_i s₁ he
        exact hloop (fun F => ((Store.pushEnqueue_queuesOnly_of_eq he).dests F).trans (hg F)) hc

/-- A push of item `7` to FIFO `0` mirrored into FIFO `1`: one call on each. -/
example : (((((Store.init fun _ => true).fifoCreate (-1) Flags.none).2.fifoCreate (-1)
    Flags.none).2.fifoMirror 1 0).fifoPushTree 0 (some 7)).map (fun p => p.2.2) =
    some (.call 0 .stored [.call 1 .stored []]) := rfl

end Follows

namespace Store

/-- On a store of the program with no cycle through a FIFO that `S` reaches, the height of
each such FIFO is its longest `dests`-path and drops along each of its edges; `fifo_push(S, x)`
returns within one level more than the height of `S`, and the calls it makes form a tree in
which each loop calls a prefix of its FIFO's `dests`, once per entry in order, each on a FIFO
of lower height. -/
theorem fifoPush_terminates {s : Store} (hinv : s.Inv) {S : FifoId} (hacyc : s.AcyclicFrom S)
    (x : Item) :
    (∀ F, Relation.ReflTransGen (Edge s.graph) S F →
      PathFrom s.graph F (s.height F) ∧ (∀ k, PathFrom s.graph F k → k ≤ s.height F) ∧
      ∀ d ∈ s.graph F, s.height d < s.height F) ∧
    (pushAux (s.height S + 1) [] s S x).isSome ∧
    ∃ s' r c, s.fifoPushTree S x = some (s', r, c) ∧ s.fifoPush S x = some (s', r) ∧
      c.fifo = S ∧ c.Follows s.graph s.height := by
  have hdec (F : FifoId) (hF : Relation.ReflTransGen (Edge s.graph) S F) :
      ∀ d ∈ s.graph F, s.height d < s.height F := fun _ hd => height_lt hinv hacyc hF hd
  refine ⟨fun F hF => ⟨(height_longest hinv hacyc hF).1, (height_longest hinv hacyc hF).2,
    hdec F hF⟩, pushAux_isSome_of_rank s.height x _ [] s S (fun _ => rfl) hdec
    (fun _ h => nomatch h) (Nat.lt_succ_self _), ?_⟩
  obtain ⟨⟨s', r⟩, hp⟩ := Option.isSome_iff_exists.1 (s.fifoPush_isSome hinv hacyc x)
  obtain ⟨⟨s₁, r₁, c⟩, ht, heq⟩ :=
    Option.map_eq_some'.1 ((pushAuxTree_map x _ [] s S).trans hp)
  cases heq
  exact ⟨s₁, r₁, c, ht, hp, pushAuxTree_follows x hdec (fun _ => rfl) ht⟩

theorem fifoPush_terminates_chain :
    let s := (((init fun _ => true).fifoCreate (-1) Flags.none).2.fifoCreate (-1)
      Flags.none).2.fifoMirror 1 0
    s.Inv ∧ s.AcyclicFrom 0 ∧
    (∀ F, Relation.ReflTransGen (Edge s.graph) 0 F →
      PathFrom s.graph F (s.height F) ∧ (∀ k, PathFrom s.graph F k → k ≤ s.height F) ∧
      ∀ d ∈ s.graph F, s.height d < s.height F) ∧
    (pushAux (s.height 0 + 1) [] s 0 (some 7)).isSome ∧
    ∃ s' r c, s.fifoPushTree 0 (some 7) = some (s', r, c) ∧
      s.fifoPush 0 (some 7) = some (s', r) ∧ c.fifo = 0 ∧ c.Follows s.graph s.height :=
  ⟨chain_reachable_acyclic.1.inv, chain_reachable_acyclic.2,
    fifoPush_terminates chain_reachable_acyclic.1.inv chain_reachable_acyclic.2 (some 7)⟩

end Store

end Txproto
