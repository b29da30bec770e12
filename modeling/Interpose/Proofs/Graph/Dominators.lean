import Interpose.Proofs.Graph.Walk

/-!
# The dominator table is exact

A block dominates another when every walk to the second goes through the first. The table is
computed by taking away from too large sets, round by round. Two facts make it exact, one for each
direction:

* the table that is left is a fixed point of a round, and along a walk a fixed point can only name
  blocks of the walk;
* no round takes away a block that really dominates, because a dominator of a block that is another
  block dominates every reached predecessor too.

Nothing here depends on the order in which the predecessors are listed.
-/

set_option autoImplicit false

namespace Interpose

namespace Graph

/-- Every walk to `b` goes through `d`. -/
def Dominates (g : Graph) (d b : BlockId) : Prop := ∀ before, g.Walk b before → d = b ∨ d ∈ before

/-- A dominator of a block that is another block dominates what the block follows. -/
theorem Dominates.of_follows {g : Graph} {d p b : BlockId} (h : g.Dominates d b)
    (hpb : g.Follows p b) (hne : d ≠ b) : g.Dominates d p := by
  intro before hw
  rcases h _ (hw.step hpb) with rfl | hmem
  · exact absurd rfl hne
  · exact List.mem_cons.1 hmem

/-- A block that a walk has left exists and is reached. -/
theorem Walk.mem_before {g : Graph} {b d : BlockId} {before : List BlockId} (hw : g.Walk b before)
    (hd : d ∈ before) : d.index < g.blocks.size ∧ g.Reached d := by
  induction hw with
  | start => simp at hd
  | @step b c before hw hbc ih =>
    rcases List.mem_cons.1 hd with rfl | hd
    · obtain ⟨block, hblock, -⟩ := hbc
      exact ⟨lt_size_of_block? hblock, before, hw⟩
    · exact ih hd

/-! ## Tables that shrink -/

namespace DominatorTable

/-- Every set of the one table is a part of the other table's. -/
def Within (s t : DominatorTable) : Prop :=
  s.size = t.size ∧ ∀ i, (s.getD i []).Sublist (t.getD i [])

theorem Within.refl (t : DominatorTable) : Within t t := ⟨rfl, fun _ => .refl _⟩

theorem Within.trans {r s t : DominatorTable} (h₁ : Within r s) (h₂ : Within s t) : Within r t :=
  ⟨h₁.1.trans h₂.1, fun i => (h₁.2 i).trans (h₂.2 i)⟩

/-- The weight counts the members of lists one after another, so parts weigh no more, and parts of
the same weight are the whole. -/
theorem foldr_length_le {l m : List (List BlockId)} (hlen : l.length = m.length)
    (hsub : ∀ i : Nat, (l[i]?.getD []).Sublist (m[i]?.getD [])) :
    l.foldr (fun held n => held.length + n) 0 ≤ m.foldr (fun held n => held.length + n) 0
      ∧ (m.foldr (fun held n => held.length + n) 0 ≤ l.foldr (fun held n => held.length + n) 0
          → l = m) := by
  induction l generalizing m with
  | nil =>
    cases m with
    | nil => exact ⟨Nat.le_refl _, fun _ => rfl⟩
    | cons y ys => simp at hlen
  | cons x xs ih =>
    cases m with
    | nil => simp at hlen
    | cons y ys =>
      have hhead : x.Sublist y := by simpa using hsub 0
      have hxy := hhead.length_le
      obtain ⟨hle, heq⟩ := ih (m := ys) (by simpa using hlen) fun i => by simpa using hsub (i + 1)
      simp only [List.foldr_cons]
      refine ⟨by omega, fun h => ?_⟩
      rw [hhead.eq_of_length_le (by omega), heq (by omega)]

theorem Within.weight_le {s t : DominatorTable} (h : Within s t) : weight s ≤ weight t := by
  refine (foldr_length_le (by simpa using h.1) fun i => ?_).1
  simpa [Array.getD_eq_getD_getElem?] using h.2 i

theorem Within.eq_of_weight_le {s t : DominatorTable} (h : Within s t) (hw : weight t ≤ weight s) :
    s = t := by
  refine Array.toList_inj.1 ((foldr_length_le (by simpa using h.1) fun i => ?_).2 hw)
  simpa [Array.getD_eq_getD_getElem?] using h.2 i

/-- What a restricted table holds. -/
theorem of_restrict (t : DominatorTable) (b c : BlockId) (preds : List BlockId) :
    of (t.restrict b preds) c
      = if b = c then (of t b).filter fun d => d == b || preds.all fun p => (of t p).contains d
        else of t c := by
  have hbc : b = c ↔ b.index = c.index := by cases b; cases c; simp
  simp only [of, restrict, Array.getD_eq_getD_getElem?, Array.getElem?_modify, hbc]
  by_cases h : b.index = c.index
  · simp only [h, if_true]
    cases t[c.index]? <;> simp
  · simp only [h, if_false]

/-- Restricting makes a set smaller and leaves the others. -/
theorem within_restrict (t : DominatorTable) (b : BlockId) (preds : List BlockId) :
    Within (t.restrict b preds) t := by
  refine ⟨by simp [restrict], fun i => ?_⟩
  have h := of_restrict t b ⟨i⟩ preds
  simp only [of] at h
  rw [h]
  by_cases hb : b = ⟨i⟩
  · subst hb
    rw [if_pos rfl]
    exact List.filter_sublist
  · exact if_neg hb ▸ .refl _

end DominatorTable

open DominatorTable

/-! ## Rounds -/

section Rounds

variable (live : List BlockId) (preds : BlockId → List BlockId)

/-- Restricting blocks one after another makes the sets smaller. If it does not, no single
restriction does. -/
theorem foldl_restrict (bs : List BlockId) (t : DominatorTable) :
    Within (bs.foldl (fun t b => t.restrict b ((preds b).filter live.contains)) t) t
      ∧ (weight t ≤ weight (bs.foldl (fun t b => t.restrict b ((preds b).filter live.contains)) t) →
          ∀ b ∈ bs, t.restrict b ((preds b).filter live.contains) = t) := by
  induction bs generalizing t with
  | nil => exact ⟨.refl t, fun _ => by simp⟩
  | cons b bs ih =>
    rw [List.foldl_cons]
    have hfirst := within_restrict t b ((preds b).filter live.contains)
    obtain ⟨hrest, hfixed⟩ := ih (t.restrict b ((preds b).filter live.contains))
    refine ⟨hrest.trans hfirst, fun hw => ?_⟩
    have hsame : t.restrict b ((preds b).filter live.contains) = t :=
      hfirst.eq_of_weight_le (Nat.le_trans hw hrest.weight_le)
    rw [hsame] at hfixed hw
    intro c hc
    rcases List.mem_cons.1 hc with rfl | hc
    · exact hsame
    · exact hfixed hw c hc

theorem within_dominatorRound (t : DominatorTable) : Within (dominatorRound live preds t) t :=
  (foldl_restrict live preds _ t).1

/-- A property that every round keeps holds of the limit. -/
theorem dominatorLimit_induction {P : DominatorTable → Prop}
    (hround : ∀ t, P t → P (dominatorRound live preds t)) (t : DominatorTable) (h : P t) :
    P (dominatorLimit live preds t) := by
  induction t using dominatorLimit.induct live preds with
  | case1 t next hlt ih =>
    rw [dominatorLimit, if_pos hlt]
    exact ih (hround t h)
  | case2 t next hlt =>
    rw [dominatorLimit, if_neg hlt]
    exact hround t h

/-- The limit is a table that no restriction makes smaller. -/
theorem restrict_dominatorLimit (t : DominatorTable) :
    ∀ b ∈ live, b ≠ .entry →
      (dominatorLimit live preds t).restrict b ((preds b).filter live.contains)
        = dominatorLimit live preds t := by
  induction t using dominatorLimit.induct live preds with
  | case1 t next hlt ih =>
    rw [dominatorLimit, if_pos hlt]
    exact ih
  | case2 t next hlt =>
    have hw : weight t ≤ weight (dominatorRound live preds t) := Nat.not_lt.1 hlt
    have hround : dominatorRound live preds t = t :=
      (within_dominatorRound live preds t).eq_of_weight_le hw
    rw [dominatorLimit, if_neg hlt, hround]
    intro b hb hne
    exact (foldl_restrict live preds _ t).2 hw b (List.mem_filter.2 ⟨hb, by simpa using hne⟩)

end Rounds

/-! ## Exactness -/

section Exact

variable {g : Graph} {preds : BlockId → List BlockId}

/-- The sets that the rounds start from. -/
def dominatorStart (g : Graph) : DominatorTable :=
  (g.blockIds.map fun b =>
    if b = .entry then [b] else if g.reachable.contains b then g.reachable else []).toArray

theorem of_dominatorStart (g : Graph) (b : BlockId) (hb : b.index < g.blocks.size) :
    of g.dominatorStart b
      = if b = .entry then [b] else if g.reachable.contains b then g.reachable else [] := by
  simp [of, dominatorStart, Array.getD_eq_getD_getElem?, blockIds, List.getElem?_range hb]

/-- In the table only the entry dominates the entry. -/
theorem of_dominatorsVia_entry {d : BlockId} (h : d ∈ of (g.dominatorsVia preds) .entry) :
    d = .entry := by
  have hwithin : Within (g.dominatorsVia preds) g.dominatorStart :=
    dominatorLimit_induction (P := fun t => Within t g.dominatorStart) g.reachable preds
      (fun t ht => (within_dominatorRound _ _ t).trans ht) _ (.refl _)
  have hmem : d ∈ of g.dominatorStart .entry := (hwithin.2 _).subset h
  by_cases hsize : BlockId.entry.index < g.blocks.size
  · rw [of_dominatorStart g _ hsize, if_pos rfl] at hmem
    simpa using hmem
  · have hnone : g.dominatorStart[BlockId.entry.index]? = none := by
      rw [Array.getElem?_eq_none_iff]
      simpa [dominatorStart, blockIds] using hsize
    rw [of, Array.getD_eq_getD_getElem?, hnone] at hmem
    simp at hmem

/-- What the table names for a reached block lies on every walk to it. The induction is on the walk:
what a fixed point names for a block is the block itself or is named for the block before it. -/
theorem dominates_of_mem (hpreds : ∀ b p, p ∈ preds b ↔ g.Follows p b) {d b : BlockId}
    (hb : b.index < g.blocks.size) (h : d ∈ of (g.dominatorsVia preds) b) : g.Dominates d b := by
  intro before hw
  induction hw with
  | start => exact .inl (of_dominatorsVia_entry h)
  | @step p b before hw hpb ih =>
    by_cases hentry : b = .entry
    · subst hentry
      exact .inl (of_dominatorsVia_entry h)
    have hp : p.index < g.blocks.size := by
      obtain ⟨block, hblock, -⟩ := id hpb
      exact lt_size_of_block? hblock
    have hlive : b ∈ g.reachable := (mem_reachable g b).2 ⟨hb, _, hw.step hpb⟩
    have hfixed := restrict_dominatorLimit g.reachable preds g.dominatorStart b hlive hentry
    -- the table is a fixed point, so that its set for the block has passed the filter once more
    have hset := congrArg (fun t => of t b) hfixed
    simp only [of_restrict, if_true] at hset
    have hkept := List.filter_eq_self.1 hset d h
    rcases Bool.or_eq_true _ _ ▸ hkept with hdb | hall
    · exact .inl (by simpa using hdb)
    · have hplive : p ∈ (preds b).filter g.reachable.contains :=
        List.mem_filter.2 ⟨(hpreds b p).2 hpb,
          by simpa using (mem_reachable g p).2 ⟨hp, before, hw⟩⟩
      have hmem : d ∈ of (g.dominatorsVia preds) p :=
        List.contains_iff_mem.1 (List.all_eq_true.1 hall p hplive)
      rcases ih hp hmem with rfl | hbefore
      · exact .inr List.mem_cons_self
      · exact .inr (List.mem_cons_of_mem p hbefore)

/-- The table has every dominator of a reached block. The sets have them at the start, and a round
takes none of them away. -/
theorem mem_of_dominates (hpreds : ∀ b p, p ∈ preds b ↔ g.Follows p b) {d b : BlockId}
    (hb : b ∈ g.reachable) (h : g.Dominates d b) : d ∈ of (g.dominatorsVia preds) b := by
  let Full (t : DominatorTable) : Prop := ∀ b ∈ g.reachable, ∀ d, g.Dominates d b → d ∈ of t b
  have hrestrict : ∀ (t : DominatorTable) (c : BlockId), Full t →
      Full (t.restrict c ((preds c).filter g.reachable.contains)) := by
    intro t c ht b hb d hd
    rw [of_restrict]
    by_cases hcb : c = b
    · subst hcb
      rw [if_pos rfl, List.mem_filter]
      refine ⟨ht c hb d hd, ?_⟩
      by_cases hdc : d = c
      · simp [hdc]
      · refine Bool.or_eq_true _ _ ▸ .inr (List.all_eq_true.2 fun p hp => ?_)
        obtain ⟨hp, hplive⟩ := List.mem_filter.1 hp
        have hdp := hd.of_follows ((hpreds c p).1 hp) hdc
        simpa using ht p (by simpa using hplive) d hdp
    · rw [if_neg hcb]
      exact ht b hb d hd
  -- a round is one restriction after another
  have hround : ∀ t, Full t → Full (dominatorRound g.reachable preds t) := by
    intro t ht
    unfold dominatorRound
    generalize g.reachable.filter (· != .entry) = bs
    induction bs generalizing t with
    | nil => exact ht
    | cons c bs ih => exact ih _ (hrestrict t c ht)
  -- at the start every reached block has all of them, and the entry only itself
  have hstart : Full g.dominatorStart := by
    intro b hb d hd
    obtain ⟨hlt, before, hw⟩ := (mem_reachable g b).1 hb
    rw [of_dominatorStart g b hlt]
    by_cases hentry : b = .entry
    · subst hentry
      rcases hd _ .start with rfl | hmem
      · simp
      · simp at hmem
    · have hcon : g.reachable.contains b = true := by simpa using hb
      rw [if_neg hentry, if_pos hcon]
      rcases hd before hw with rfl | hmem
      · exact hb
      · exact (mem_reachable g d).2 (hw.mem_before hmem)
  exact dominatorLimit_induction (P := Full) g.reachable preds hround g.dominatorStart
    hstart b hb d h

/-- **The dominator table is exact** at every reachable block, for every listing of the
predecessors. -/
theorem mem_dominatorsVia (hpreds : ∀ b p, p ∈ preds b ↔ g.Follows p b) {b : BlockId}
    (hb : b ∈ g.reachable) (d : BlockId) : d ∈ of (g.dominatorsVia preds) b ↔ g.Dominates d b :=
  ⟨dominates_of_mem hpreds ((mem_reachable g b).1 hb).1, mem_of_dominates hpreds hb⟩

/-- The table of `Graph.dominators` is exact at every reachable block. -/
theorem mem_dominators {b : BlockId} (hb : b ∈ g.reachable) (d : BlockId) :
    d ∈ of g.dominators b ↔ g.Dominates d b :=
  mem_dominatorsVia (mem_predecessors g) hb d

end Exact

end Graph

end Interpose
