-- SUMMARY: fifo_string_to_block_flags: strtok_r over the commas, the loop that ORs the flag of each name, and the language of strings it accepts.
import Txproto.Fifo.Basic
import Mathlib.Data.List.Basic

/-!
# Block flags from a string

`fifo_string_to_block_flags(&dst, in_str)` copies the string, cuts the copy with `strtok_r`
at the commas, and ORs into `*dst` the flag of each token, stopping with `EINVAL` at the
first token that is none of the three names. `strtok_r` skips empty segments, so the tokens
are the non-empty maximal comma-free segments of the string (`strtok_tokens`), and the call
returns `0` exactly when each of them is a name, with `*dst` the OR of their flags
(`fifoStringToBlockFlags_spec`).

The string is the characters before its terminating NUL. The copy `strdup` makes is taken
to succeed.
-/

namespace Txproto

/-- `a | b` on the flag bits. -/
def Flags.or (a b : Flags) : Flags :=
  ⟨a.blockNoInput || b.blockNoInput, a.blockMaxOutput || b.blockMaxOutput,
    a.pullNoBlock || b.pullNoBlock, a.pullPoke || b.pullPoke⟩

/-- The three names, in the order the loop compares them. -/
def blockFlagNames : List (List Char) :=
  ["block_no_input".toList, "block_max_output".toList, "pull_no_block".toList]

/-- The `strcmp` chain of the loop: the flag a token names. -/
def blockFlagOf (tok : List Char) : Option Flags :=
  if tok = "block_no_input".toList then some ⟨true, false, false, false⟩
  else if tok = "block_max_output".toList then some ⟨false, true, false, false⟩
  else if tok = "pull_no_block".toList then some ⟨false, false, true, false⟩
  else none

/-- The OR of the flags of a list of names, from no flag. -/
def Flags.ofTokens (toks : List (List Char)) : Flags :=
  toks.foldl (fun a tok => a.or ((blockFlagOf tok).getD Flags.none)) Flags.none

theorem blockFlagOf_isSome {tok : List Char} : (blockFlagOf tok).isSome ↔ tok ∈ blockFlagNames := by
  unfold blockFlagOf blockFlagNames
  split_ifs <;> simp_all

/-- `strtok_r(str, ",", &saveptr)` of libc, modelled from its specification: skip the leading
commas; `NULL` at the end of the string, otherwise the token up to the next comma, with
`saveptr` past that comma. -/
def strtok (s : List Char) : Option (List Char × List Char) :=
  match s.dropWhile (· == ',') with
  | [] => none
  | t => some (t.takeWhile (· != ','), (t.dropWhile (· != ',')).drop 1)

/-- The non-empty maximal comma-free segments of `s`. -/
def tokens (s : List Char) : List (List Char) := (s.splitOn ',').filter (· ≠ [])

theorem tokens_comma (s : List Char) : tokens (',' :: s) = tokens s := by
  simp [tokens, List.splitOn, List.splitOnP_cons]

theorem tokens_dropWhile (s : List Char) : tokens (s.dropWhile (· == ',')) = tokens s := by
  induction s with
  | nil => rfl
  | cons c s ih =>
    by_cases hc : c = ','
    · subst hc; simpa [tokens_comma] using ih
    · simp [List.dropWhile_cons, hc]

/-- A comma-free non-empty string is one token. -/
theorem tokens_of_no_comma {t : List Char} (ht : t ≠ []) (h : ∀ c ∈ t, c ≠ ',') :
    tokens t = [t] := by
  rw [tokens, List.splitOn, List.splitOnP_eq_single _ _ (by simpa using h)]
  simp [ht]

/-- A token followed by a comma: the token, then the tokens after the comma. -/
theorem tokens_append_comma {tok : List Char} (ht : tok ≠ []) (h : ∀ c ∈ tok, c ≠ ',')
    (r : List Char) : tokens (tok ++ ',' :: r) = tok :: tokens r := by
  rw [tokens, List.splitOn, List.splitOnP_first _ _ (by simpa using h) ',' (by simp)]
  simp [ht, tokens, List.splitOn]

/-- Comma-free non-empty segments joined with commas are the tokens of the result. -/
theorem tokens_intercalate {names : List (List Char)} (hfree : ∀ m ∈ names, ',' ∉ m)
    (hne : ∀ m ∈ names, m ≠ []) : tokens ([','].intercalate names) = names := by
  cases names with
  | nil => rfl
  | cons n ns =>
    rw [tokens, List.splitOn_intercalate (n :: ns) ',' hfree (List.cons_ne_nil n ns),
      List.filter_eq_self.2]
    simpa using hne

/-- Each name is one token. -/
theorem blockFlagNames_tokens : ∀ m ∈ blockFlagNames, ',' ∉ m ∧ m ≠ [] := by decide

/-- What `strtok_r` returns: `NULL` when no token is left, otherwise the first token, with the
rest of the string holding the other tokens. -/
theorem strtok_tokens (s : List Char) :
    match strtok s with
    | none => tokens s = []
    | some (tok, r) => tokens s = tok :: tokens r := by
  rw [← tokens_dropWhile]
  rcases hd : s.dropWhile (· == ',') with _ | ⟨c, t⟩
  · simp [strtok, hd]; rfl
  have hc : c ≠ ',' := by
    have := List.head_dropWhile_not (· == ',') s (by simp [hd])
    simpa [hd] using this
  simp only [strtok, hd]
  have htok : (c :: t).takeWhile (· != ',') ≠ [] := by simp [List.takeWhile_cons, hc]
  have hfree : ∀ x ∈ (c :: t).takeWhile (· != ','), x ≠ ',' := fun x hx => by
    simpa using List.mem_takeWhile_imp hx
  conv_lhs => rw [← List.takeWhile_append_dropWhile (· != ',') (c :: t)]
  rcases hr : (c :: t).dropWhile (· != ',') with _ | ⟨d, r⟩
  · simpa using tokens_of_no_comma htok hfree
  · have hd' : d = ',' := by
      have := List.head_dropWhile_not (· != ',') (c :: t) (by simp [hr])
      simpa [hr] using this
    subst hd'
    exact tokens_append_comma htok hfree r

theorem strtok_length {s tok r : List Char} (h : strtok s = some (tok, r)) :
    r.length < s.length := by
  rcases hd : s.dropWhile (· == ',') with _ | ⟨c, t⟩ <;> simp only [strtok, hd] at h
  · cases h
  have hc : c ≠ ',' := by
    have := List.head_dropWhile_not (· == ',') s (by simp [hd])
    simpa [hd] using this
  simp only [Option.some.injEq, Prod.mk.injEq] at h
  have h₁ : ((c :: t).dropWhile (· != ',')).length ≤ t.length := by
    simpa [List.dropWhile_cons, hc] using (List.dropWhile_sublist (l := t) (· != ',')).length_le
  have h₂ : (c :: t).length ≤ s.length := hd ▸ (List.dropWhile_sublist _).length_le
  rw [← h.2, List.length_drop]
  simp only [List.length_cons] at h₂
  omega

/-- The loop of `fifo_string_to_block_flags` from the token `strtok_r` returns next: OR the
token's flag into `*dst` and go on, or `EINVAL` with `*dst` as it is. -/
def parseLoop (dst : Flags) (s : List Char) : Ret × Flags :=
  match h : strtok s with
  | none => (.ok, dst)
  | some (tok, r) =>
    have : r.length < s.length := strtok_length h
    match blockFlagOf tok with
    | some f => parseLoop (dst.or f) r
    | none => (.einval, dst)
termination_by s.length

theorem parseLoop_none {dst : Flags} {s : List Char} (h : strtok s = none) :
    parseLoop dst s = (.ok, dst) := by
  rw [parseLoop]; split <;> simp_all

theorem parseLoop_some {dst : Flags} {s tok r : List Char} (h : strtok s = some (tok, r)) :
    parseLoop dst s = match blockFlagOf tok with
      | some f => parseLoop (dst.or f) r
      | none => (.einval, dst) := by
  rw [parseLoop]; split <;> simp_all

/-- `RENAME(fifo_string_to_block_flags)(&dst, in_str)`: `*dst = 0`, then the loop over the
copy of `in_str`. The return value and `*dst`. -/
def fifoStringToBlockFlags (s : String) : Ret × Flags := parseLoop Flags.none s.toList

/-- The loop returns `0` exactly when every token left is a name, and then `*dst` is its
value so far ORed with their flags. -/
theorem parseLoop_spec (dst : Flags) (s : List Char) :
    (parseLoop dst s).1 = (if ∀ tok ∈ tokens s, tok ∈ blockFlagNames then .ok else .einval) ∧
    ((parseLoop dst s).1 = .ok →
      (parseLoop dst s).2 = (tokens s).foldl (fun a tok => a.or ((blockFlagOf tok).getD Flags.none)) dst) := by
  induction dst, s using parseLoop.induct with
  | case1 dst s hs =>
    have ht := strtok_tokens s
    rw [hs] at ht
    rw [parseLoop_none hs]
    simp [ht]
  | case2 dst s tok r hs _ f hf ih =>
    have ht := strtok_tokens s
    rw [hs] at ht
    rw [parseLoop_some hs]
    simp only [hf, ht, List.forall_mem_cons, List.foldl_cons, Option.getD_some]
    have hname : tok ∈ blockFlagNames := blockFlagOf_isSome.1 (by simp [hf])
    simpa [hname] using ih
  | case3 dst s tok r hs _ hf =>
    have ht := strtok_tokens s
    rw [hs] at ht
    rw [parseLoop_some hs]
    have hname : tok ∉ blockFlagNames := fun h => by simpa [hf] using blockFlagOf_isSome.2 h
    simp [hf, ht, hname]

/-- `fifo_string_to_block_flags` accepts exactly the strings whose non-empty comma-free
segments are all names, and then sets the OR of their flags; it rejects every other string
with `EINVAL`. Joining names with commas and parsing gives the OR of their flags. -/
theorem fifoStringToBlockFlags_spec :
    (∀ s : String, (fifoStringToBlockFlags s).1 =
        (if ∀ tok ∈ tokens s.toList, tok ∈ blockFlagNames then .ok else .einval) ∧
      ((fifoStringToBlockFlags s).1 = .ok →
        (fifoStringToBlockFlags s).2 = Flags.ofTokens (tokens s.toList))) ∧
    ∀ names : List (List Char), (∀ n ∈ names, n ∈ blockFlagNames) →
      fifoStringToBlockFlags (String.mk ([','].intercalate names)) = (.ok, Flags.ofTokens names) := by
  refine ⟨fun s => parseLoop_spec Flags.none s.toList, fun names hn => ?_⟩
  have htok := tokens_intercalate (fun m h => (blockFlagNames_tokens m (hn m h)).1)
    fun m h => (blockFlagNames_tokens m (hn m h)).2
  obtain ⟨h₁, h₂⟩ := parseLoop_spec Flags.none ([','].intercalate names)
  simp only [htok, if_pos hn] at h₁ h₂
  exact Prod.ext h₁ (h₂ h₁)

end Txproto
