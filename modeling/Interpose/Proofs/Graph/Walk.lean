import Interpose.Graph.Flow

/-!
# Walks through a graph

A walk starts at the entry and goes along branches. It is kept together with the blocks that it has
left behind, so that what holds on *every* way to a block can be stated and proved by induction on
the walk.

The main fact of this module is that `Graph.reachable` lists exactly the blocks that exist and are
the end of some walk.
-/

set_option autoImplicit false

namespace Interpose

namespace Graph

variable {g : Graph}

/-- The block `b` has a branch to `c`. -/
def Follows (g : Graph) (b c : BlockId) : Prop :=
  ∃ block, g.block? b = some block ∧ c ∈ block.targets

/-- A walk from the entry to a block, with the blocks that it has left, the latest first. -/
inductive Walk (g : Graph) : BlockId → List BlockId → Prop
  | start : Walk g .entry []
  | step {b c : BlockId} {before : List BlockId} :
    Walk g b before → g.Follows b c → Walk g c (b :: before)

/-- Some walk leads to the block. -/
def Reached (g : Graph) (b : BlockId) : Prop := ∃ before, g.Walk b before

/-- The entry is reached. -/
theorem reached_entry : g.Reached .entry := ⟨[], .start⟩

/-- What follows a reached block is reached. -/
theorem Reached.follow {b c : BlockId} (h : g.Reached b) (hbc : g.Follows b c) : g.Reached c := by
  obtain ⟨before, hw⟩ := h
  exact ⟨b :: before, hw.step hbc⟩

/-- A walk begins with a walk to any block that it leaves. -/
theorem Walk.exists_part {b d : BlockId} {before : List BlockId} (hw : g.Walk b before)
    (hd : d ∈ before) : ∃ before', g.Walk d before' ∧ d :: before' <:+ before := by
  induction hw with
  | start => simp at hd
  | @step b c before hw hbc ih =>
    rcases List.mem_cons.1 hd with rfl | hd
    · exact ⟨before, hw, List.suffix_rfl⟩
    · obtain ⟨before', hw', hpart⟩ := ih hd
      exact ⟨before', hw', hpart.trans (List.suffix_cons b before)⟩

/-- A walk goes to every block that it leaves by a shorter walk. -/
theorem Walk.exists_shorter {b d : BlockId} {before : List BlockId} (hw : g.Walk b before)
    (hd : d ∈ before) : ∃ before', g.Walk d before' ∧ before'.length < before.length := by
  obtain ⟨before', hw', hpart⟩ := hw.exists_part hd
  exact ⟨before', hw', hpart.length_le⟩

/-- A block that is reached is reached by a walk that was not there before. -/
theorem Reached.exists_first {b : BlockId} (h : g.Reached b) :
    ∃ before, g.Walk b before ∧ b ∉ before := by
  obtain ⟨before, hw⟩ := h
  induction hn : before.length using Nat.strongRecOn generalizing before with
  | ind n ih =>
    by_cases hb : b ∈ before
    · obtain ⟨before', hw', hlt⟩ := hw.exists_shorter hb
      exact ih before'.length (hn ▸ hlt) before' hw' rfl
    · exact ⟨before, hw, hb⟩

/-- A block that has a position is one of the listed positions. -/
theorem mem_blockIds (g : Graph) (b : BlockId) : b ∈ g.blockIds ↔ b.index < g.blocks.size := by
  simp only [blockIds, List.mem_map, List.mem_range]
  refine ⟨?_, fun h => ⟨b.index, h, rfl⟩⟩
  rintro ⟨i, hi, rfl⟩
  exact hi

/-- A block exists exactly at the positions of the list. -/
theorem block?_isSome (g : Graph) (b : BlockId) :
    (g.block? b).isSome ↔ b.index < g.blocks.size := by
  simp [block?]

/-- A block that is found has a position in the list. -/
theorem lt_size_of_block? {b : BlockId} {block : Block} (h : g.block? b = some block) :
    b.index < g.blocks.size := by
  rw [← block?_isSome, h]
  rfl

/-- The successors are the blocks that follow. -/
theorem mem_successors (g : Graph) (b c : BlockId) : c ∈ g.successors b ↔ g.Follows b c := by
  unfold successors Follows
  cases g.block? b with
  | none => simp
  | some block => simp [List.mem_eraseDups]

/-- The predecessors are the blocks that are followed. -/
theorem mem_predecessors (g : Graph) (b p : BlockId) : p ∈ g.predecessors b ↔ g.Follows p b := by
  simp only [predecessors, List.mem_filter, mem_blockIds, List.contains_iff_mem, mem_successors]
  refine ⟨fun h => h.2, fun h => ⟨?_, h⟩⟩
  obtain ⟨block, hb, -⟩ := h
  exact lt_size_of_block? hb

/-! ## Exploring

`explore` is followed by its own recursion: its first case ends the search, its second sees one more
block and its third skips one. -/

/-- Nothing that was seen is lost. -/
theorem subset_explore (g : Graph) (seen work : List BlockId) : seen ⊆ g.explore seen work := by
  induction seen, work using explore.induct g with
  | case1 seen => simp [explore]
  | case2 seen b rest hb ih =>
    rw [explore, if_pos hb]
    exact fun c hc => ih (List.mem_cons_of_mem b hc)
  | case3 seen b rest hb ih =>
    rw [explore, if_neg hb]
    exact ih

/-- A property of all seen and waiting blocks that passes along branches holds for all that is
found. -/
theorem explore_induction {P : BlockId → Prop} (hstep : ∀ b c, P b → g.Follows b c → P c)
    (seen work : List BlockId) (hseen : ∀ b ∈ seen, P b) (hwork : ∀ b ∈ work, P b) :
    ∀ b ∈ g.explore seen work, P b := by
  induction seen, work using explore.induct g with
  | case1 seen => simpa [explore] using hseen
  | case2 seen b rest hb ih =>
    rw [explore, if_pos hb]
    have hPb : P b := hwork b List.mem_cons_self
    refine ih ?_ ?_
    · intro c hc
      rcases List.mem_cons.1 hc with rfl | hc
      · exact hPb
      · exact hseen c hc
    · intro c hc
      rcases List.mem_append.1 hc with hc | hc
      · exact hstep b c hPb ((mem_successors g b c).1 hc)
      · exact hwork c (List.mem_cons_of_mem b hc)
  | case3 seen b rest hb ih =>
    rw [explore, if_neg hb]
    exact ih hseen fun c hc => hwork c (List.mem_cons_of_mem b hc)

/-- Every waiting block that exists is found. -/
theorem mem_explore_of_mem_work (g : Graph) (seen work : List BlockId) :
    ∀ b ∈ work, b.index < g.blocks.size → b ∈ g.explore seen work := by
  induction seen, work using explore.induct g with
  | case1 seen => simp
  | case2 seen b rest hb ih =>
    intro c hc hlt
    rw [explore, if_pos hb]
    rcases List.mem_cons.1 hc with rfl | hc
    · exact subset_explore g _ _ List.mem_cons_self
    · exact ih c (List.mem_append_right _ hc) hlt
  | case3 seen b rest hb ih =>
    intro c hc hlt
    rw [explore, if_neg hb]
    rcases List.mem_cons.1 hc with rfl | hc
    · -- a block that exists is skipped only because it was seen before
      have hmem : c ∈ seen := by
        have hcon : ¬ seen.contains c = false := fun h => hb ⟨hlt, h⟩
        simpa using hcon
      exact subset_explore g _ _ hmem
    · exact ih c hc hlt

/-- What is found is closed under following branches to blocks that exist, if all that was seen
before is closed up to what still waits. -/
theorem explore_closed (g : Graph) (seen work : List BlockId)
    (h : ∀ b ∈ seen, ∀ c, g.Follows b c → c.index < g.blocks.size → c ∈ seen ∨ c ∈ work) :
    ∀ b ∈ g.explore seen work, ∀ c, g.Follows b c → c.index < g.blocks.size →
      c ∈ g.explore seen work := by
  induction seen, work using explore.induct g with
  | case1 seen => simpa [explore] using h
  -- the block is seen now, and its successors wait
  | case2 seen b rest hb ih =>
    rw [explore, if_pos hb]
    refine ih ?_
    intro c hc d hcd hd
    rcases List.mem_cons.1 hc with rfl | hc
    · exact .inr (List.mem_append_left _ ((mem_successors g c d).2 hcd))
    · rcases h c hc d hcd hd with hs | hw
      · exact .inl (List.mem_cons_of_mem b hs)
      · rcases List.mem_cons.1 hw with rfl | hw
        · exact .inl List.mem_cons_self
        · exact .inr (List.mem_append_right _ hw)
  -- the block is passed over: it was seen before, or there is no such block
  | case3 seen b rest hb ih =>
    rw [explore, if_neg hb]
    refine ih ?_
    intro c hc d hcd hd
    rcases h c hc d hcd hd with hs | hw
    · exact .inl hs
    · rcases List.mem_cons.1 hw with rfl | hw
      · have hcon : ¬ seen.contains d = false := fun h => hb ⟨hd, h⟩
        exact .inl (by simpa using hcon)
      · exact .inr hw

/-- **Reachability is exact.** The listed blocks are those that exist and are the end of some
walk. -/
theorem mem_reachable (g : Graph) (b : BlockId) :
    b ∈ g.reachable ↔ b.index < g.blocks.size ∧ g.Reached b := by
  have hfound : b ∈ g.reachable ↔ b.index < g.blocks.size ∧ b ∈ g.explore [] [.entry] := by
    simp only [reachable, List.mem_filter, mem_blockIds, List.contains_iff_mem]
  rw [hfound]
  clear hfound
  refine and_congr_right fun hb => ⟨?_, ?_⟩
  · refine explore_induction (P := g.Reached) (fun b c h hbc => h.follow hbc) [] [.entry] ?_ ?_ b
    · simp
    · simpa using reached_entry
  · rintro ⟨before, hw⟩
    induction hw with
    | start => exact mem_explore_of_mem_work g _ _ _ List.mem_cons_self hb
    | @step b c before hw hbc ih =>
      obtain ⟨block, hblock, -⟩ := id hbc
      exact explore_closed g _ _ (by simp) b (ih (lt_size_of_block? hblock)) c hbc hb

/-- No reachable block is listed twice. -/
theorem nodup_reachable (g : Graph) : g.reachable.Nodup := by
  refine List.Nodup.sublist List.filter_sublist ?_
  refine List.Pairwise.map _ ?_ List.nodup_range
  intro i j hij h
  exact hij (congrArg BlockId.index h)

end Graph

end Interpose
