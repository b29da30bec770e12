import Mathlib.Data.List.Sort
import Interpose.Graph.Stabilize
import Interpose.Proofs.Graph.WellFormed

/-!
# The sets of dominators stabilize

Sets that are written anew from the sets of the predecessors could grow as well as shrink, and a
loop that waits for them might wait forever. They only shrink, because every set includes at any
time what it would be written as: at the start it is everything, and to write one set anew makes the
others' right sides smaller. To write a set anew is then the same as to cut it down
(`Graph.dominators`), and a round has changed something exactly if the table weighs less after it.
So the rounds end, for every order in which the predecessors are gone through, and always in the
same table.
-/

set_option autoImplicit false

namespace Interpose

/-! ## Sets as ascending lists -/

/-- Later blocks have greater numbers. -/
abbrev Ascending (s : List BlockId) : Prop := s.Pairwise fun a b => a.index < b.index

/-- Ascending lists are equal when they have the same members. -/
theorem Ascending.ext {s t : List BlockId} (hs : Ascending s) (ht : Ascending t)
    (h : ∀ b, b ∈ s ↔ b ∈ t) : s = t := by
  have : Std.Antisymm fun a b : BlockId => a.index < b.index :=
    ⟨fun a b hab hba => absurd (hab.trans hba) (Nat.lt_irrefl _)⟩
  have : Std.Irrefl fun a b : BlockId => a.index < b.index := ⟨fun a => Nat.lt_irrefl a.index⟩
  exact List.Pairwise.eq_of_mem_iff hs ht h

theorem mem_placeBlock {b c : BlockId} {s : List BlockId} : c ∈ placeBlock b s ↔ c = b ∨ c ∈ s := by
  induction s with
  | nil => simp [placeBlock]
  | cons a rest ih =>
    unfold placeBlock
    split
    · exact List.mem_cons
    · split
      · next hba =>
        subst hba
        simp
      · rw [List.mem_cons, ih, List.mem_cons, or_left_comm]

theorem ascending_placeBlock {b : BlockId} {s : List BlockId} (hs : Ascending s) :
    Ascending (placeBlock b s) := by
  induction s with
  | nil => exact List.pairwise_singleton _ b
  | cons a rest ih =>
    obtain ⟨hfirst, hrest⟩ := List.pairwise_cons.1 hs
    unfold placeBlock
    split
    · next hba =>
      refine List.pairwise_cons.2 ⟨fun c hc => ?_, hs⟩
      rcases List.mem_cons.1 hc with rfl | hc
      · exact hba
      · exact hba.trans (hfirst c hc)
    · next hba =>
      split
      · exact hs
      · next hne =>
        have hab : a.index < b.index := by
          have hidx : b.index ≠ a.index := fun h => hne (congrArg BlockId.mk h)
          omega
        refine List.pairwise_cons.2 ⟨fun c hc => ?_, ih hrest⟩
        rcases mem_placeBlock.1 hc with rfl | hc
        · exact hab
        · exact hfirst c hc

/-- A table with an entry for every listed block. -/
theorem Table.get?_map {α : Type} (f : BlockId → α) (l : List BlockId) (b : BlockId) :
    (⟨l.map fun c => (c, f c)⟩ : Table BlockId α).get? b = if b ∈ l then some (f b) else none := by
  show find b (l.map fun c => (c, f c)) = _
  induction l with
  | nil => rfl
  | cons c rest ih =>
    rw [List.map_cons, find]
    by_cases hcb : c = b
    · subst hcb
      simp
    · rw [if_neg hcb, ih]
      simp [Ne.symm hcb]

namespace Graph

/-! ## Predecessors -/

/-- All branches to blocks, as pairs of blocks. -/
def branchEdges (g : Graph) : List (BlockId × BlockId) :=
  g.indexedBlocks.flatMap fun (p, block) => block.targets.map fun b => (p, b)

theorem mem_branchEdges {g : Graph} {p b : BlockId} : (p, b) ∈ g.branchEdges ↔ g.Follows p b := by
  simp only [branchEdges, Follows, List.mem_flatMap, List.mem_map, Prod.exists, Prod.mk.injEq,
    mem_indexedBlocks]
  constructor
  · rintro ⟨c, block, hblock, d, hd, rfl, rfl⟩
    exact ⟨block, hblock, hd⟩
  · rintro ⟨block, hblock, hb⟩
    exact ⟨p, block, hblock, b, hb, rfl, rfl⟩

/-- Predecessors are gathered edge by edge. -/
theorem gatherPredecessors_eq (g : Graph) : g.gatherPredecessors
    = g.branchEdges.foldl (fun t e => t.join e.1 e.2) ⟨g.blockIds.map fun b => (b, [])⟩ := by
  rw [gatherPredecessors, branchEdges, List.foldl_flatMap]
  simp only [List.foldl_map]

theorem get?_join (t : BlockSets) (p b c : BlockId) : (t.join p b).get? c
    = if b = c then some (placeBlock p ((t.get? b).getD [])) else t.get? c := Table.get?_insert ..

/-- What a table has after some edges: a set for each of their targets, with the sources as
members. -/
theorem get?_foldl_join (es : List (BlockId × BlockId)) (t : BlockSets) (b : BlockId) :
    let t' := es.foldl (fun t e => t.join e.1 e.2) t
    ((t'.get? b).isSome ↔ (t.get? b).isSome ∨ ∃ p, (p, b) ∈ es)
      ∧ ∀ p, p ∈ (t'.get? b).getD [] ↔ p ∈ (t.get? b).getD [] ∨ (p, b) ∈ es := by
  induction es generalizing t with
  | nil => simp
  | cons e es ih =>
    obtain ⟨q, c⟩ := e
    obtain ⟨hsome, hmem⟩ := ih (t.join q c)
    rw [get?_join] at hsome
    simp only [get?_join] at hmem
    simp only [List.foldl_cons]
    by_cases hcb : c = b
    · subst hcb
      refine ⟨hsome.trans ?_, fun p => (hmem p).trans ?_⟩
      · simp only [if_true, Option.isSome_some, true_or, true_iff]
        exact .inr ⟨q, List.mem_cons_self⟩
      · simp only [if_true, Option.getD_some, mem_placeBlock, List.mem_cons,
          Prod.mk.injEq, and_true]
        rw [or_assoc, or_left_comm]
    · rw [if_neg hcb] at hsome
      simp only [if_neg hcb] at hmem
      refine ⟨hsome.trans ?_, fun p => (hmem p).trans ?_⟩ <;> simp [Ne.symm hcb]

/-- **Predecessors are the branches turned round.** The gathered table has a set for the blocks that
exist or that some block branches to, and the members of the set are the blocks that branch to
it. -/
theorem get?_gatherPredecessors (g : Graph) (b : BlockId) :
    ((g.gatherPredecessors.get? b).isSome ↔ b.index < g.blocks.size ∨ ∃ p, g.Follows p b)
      ∧ ∀ p, p ∈ (g.gatherPredecessors.get? b).getD [] ↔ g.Follows p b := by
  obtain ⟨hsome, hmem⟩ := get?_foldl_join g.branchEdges ⟨g.blockIds.map fun b => (b, [])⟩ b
  rw [← gatherPredecessors_eq, Table.get?_map] at hsome
  simp only [← gatherPredecessors_eq, Table.get?_map, mem_branchEdges] at hmem
  refine ⟨hsome.trans ?_, fun p => (hmem p).trans ?_⟩
  · simp only [mem_branchEdges, ← mem_blockIds]
    split <;> simp [*]
  · split <;> simp

/-! ## Sets that only shrink -/

open DominatorTable

/-- The reachable predecessors of a block. -/
def livePreds (g : Graph) (b : BlockId) : List BlockId :=
  (g.predecessors b).filter g.reachable.contains

/-- Cuts the set of a block down to what its reachable predecessors leave it. -/
def cut (g : Graph) (t : DominatorTable) (b : BlockId) : DominatorTable :=
  t.restrict b (g.livePreds b)

variable {g : Graph}

theorem mem_livePreds {b p : BlockId} : p ∈ g.livePreds b ↔ g.Follows p b ∧ p ∈ g.reachable := by
  simp [livePreds, mem_predecessors]

/-- A reachable block that is not the entry has a reachable predecessor. -/
theorem exists_mem_livePreds {b : BlockId} (hb : b ∈ g.reachable) (hne : b ≠ .entry) :
    ∃ p, p ∈ g.livePreds b := by
  obtain ⟨-, before, hw⟩ := (mem_reachable g b).1 hb
  cases hw with
  | start => exact absurd rfl hne
  | @step p _ before hw hpb =>
    obtain ⟨block, hblock, -⟩ := id hpb
    exact ⟨p, mem_livePreds.2 ⟨hpb, (mem_reachable g p).2 ⟨lt_size_of_block? hblock, before, hw⟩⟩⟩

/-- Every set includes what it would be written as. -/
structure Shrinking (g : Graph) (t : DominatorTable) : Prop where
  ascending : ∀ b ∈ g.reachable, Ascending (of t b)
  self : ∀ b ∈ g.reachable, b ∈ of t b
  common : ∀ b ∈ g.reachable, b ≠ .entry → ∀ d, (∀ p ∈ g.livePreds b, d ∈ of t p) → d ∈ of t b

theorem of_cut_of_ne {t : DominatorTable} {b c : BlockId} (hbc : b ≠ c) :
    of (g.cut t b) c = of t c := by
  rw [cut, of_restrict, if_neg hbc]

/-- What a block keeps when its set is cut down. -/
theorem mem_of_cut {t : DominatorTable} {b d : BlockId} :
    d ∈ of (g.cut t b) b ↔ d ∈ of t b ∧ (d = b ∨ ∀ p ∈ g.livePreds b, d ∈ of t p) := by
  simp [cut, of_restrict, List.mem_filter]

/-- A cut makes sets smaller. -/
theorem sublist_of_cut (t : DominatorTable) (b c : BlockId) : (of (g.cut t b) c).Sublist (of t c) :=
  (within_restrict t b (g.livePreds b)).2 c.index

/-- A cut leaves every set what it would be written as, because the right sides get smaller too. -/
theorem Shrinking.cut {t : DominatorTable} (ht : Shrinking g t) (b : BlockId) :
    Shrinking g (g.cut t b) where
  ascending c hc := (ht.ascending c hc).sublist (sublist_of_cut t b c)
  self c hc := by
    by_cases hbc : b = c
    · subst hbc
      exact mem_of_cut.2 ⟨ht.self b hc, .inl rfl⟩
    · rw [of_cut_of_ne hbc]
      exact ht.self c hc
  common c hc hne d hd := by
    -- the table has become smaller, so what all predecessors hold now they held before
    have hbefore : ∀ p ∈ g.livePreds c, d ∈ of t p :=
      fun p hp => (sublist_of_cut t b p).subset (hd p hp)
    by_cases hbc : b = c
    · subst hbc
      exact mem_of_cut.2 ⟨ht.common b hc hne d hbefore, .inr hbefore⟩
    · rw [of_cut_of_ne hbc]
      exact ht.common c hc hne d hbefore

theorem ascending_reachable (g : Graph) : Ascending g.reachable := by
  refine List.Pairwise.filter _ (List.pairwise_map.2 ?_)
  exact List.pairwise_lt_range

/-- The set that a reachable block has at the start. -/
theorem of_dominatorStart_of_mem {b : BlockId} (hb : b ∈ g.reachable) :
    of g.dominatorStart b = if b = .entry then [b] else g.reachable := by
  have hcon : g.reachable.contains b = true := List.contains_iff_mem.2 hb
  rw [of_dominatorStart g b ((mem_reachable g b).1 hb).1, if_pos hcon]

/-- At the start every set but that of the entry is everything. -/
theorem shrinking_dominatorStart (g : Graph) : Shrinking g g.dominatorStart := by
  refine ⟨fun b hb => ?_, fun b hb => ?_, fun b hb hne d hd => ?_⟩
  · rw [of_dominatorStart_of_mem hb]
    split
    · exact List.pairwise_singleton _ b
    · exact ascending_reachable g
  · rw [of_dominatorStart_of_mem hb]
    split
    · exact List.mem_singleton_self b
    · exact hb
  · -- without a predecessor everything would be common to all of them
    obtain ⟨p, hp⟩ := exists_mem_livePreds hb hne
    have hlive := (mem_livePreds.1 hp).2
    have hmem := hd p hp
    rw [of_dominatorStart_of_mem hlive] at hmem
    rw [of_dominatorStart_of_mem hb, if_neg hne]
    split at hmem
    · exact List.mem_singleton.1 hmem ▸ hlive
    · exact hmem

/-! ## Writing anew is cutting down -/

/-- A table of sets has an entry for the reachable blocks only, and there it is the other
table's. -/
def Reflects (g : Graph) (s : BlockSets) (t : DominatorTable) : Prop :=
  ∀ b, s.get? b = if b ∈ g.reachable then some (of t b) else none

theorem Reflects.get? {s : BlockSets} {t : DominatorTable} (h : g.Reflects s t) {b : BlockId}
    (hb : b ∈ g.reachable) : s.get? b = some (of t b) := (h b).trans (if_pos hb)

theorem Reflects.narrow {s : BlockSets} {t : DominatorTable} (h : g.Reflects s t) {p : BlockId}
    (hp : p ∈ g.reachable) (held : Option (List BlockId)) :
    s.narrow held p = some (some (held.elim (of t p) (·.filter (of t p).contains))) := by
  rw [BlockSets.narrow, h.get? hp]
  rfl

/-- What was held for some blocks, with what is held for some more in whatever order. -/
theorem Reflects.foldlM_narrow {s : BlockSets} {t : DominatorTable} (h : g.Reflects s t)
    {ps : List BlockId} (hps : ∀ p ∈ ps, p ∈ g.reachable) (held : List BlockId) :
    ps.foldlM s.narrow (some held)
      = some (some (held.filter fun d => ps.all fun p => (of t p).contains d)) := by
  induction ps generalizing held with
  | nil => simp
  | cons p ps ih =>
    rw [List.foldlM_cons, h.narrow (hps p List.mem_cons_self)]
    refine (ih (fun q hq => hps q (List.mem_cons_of_mem p hq)) _).trans ?_
    simp [List.filter_filter, Bool.and_comm]

theorem Reflects.common {s : BlockSets} {t : DominatorTable} (h : g.Reflects s t) {p : BlockId}
    {ps : List BlockId} (hps : ∀ q ∈ p :: ps, q ∈ g.reachable) : s.common (p :: ps)
      = some (some ((of t p).filter fun d => ps.all fun q => (of t q).contains d)) := by
  rw [BlockSets.common, List.foldlM_cons, h.narrow (hps p List.mem_cons_self)]
  exact h.foldlM_narrow (fun q hq => hps q (List.mem_cons_of_mem p hq)) (of t p)

/-- A cut makes the table lighter exactly if it changes the set that it is made in. -/
theorem weight_cut_lt {t : DominatorTable} {b : BlockId} :
    weight (g.cut t b) < weight t ↔ of (g.cut t b) b ≠ of t b := by
  have hwithin : Within (g.cut t b) t := within_restrict t b (g.livePreds b)
  constructor
  · intro hlt heq
    have hback : Within t (g.cut t b) := by
      refine ⟨hwithin.1.symm, fun i => ?_⟩
      show (of t ⟨i⟩).Sublist (of (g.cut t b) ⟨i⟩)
      by_cases hb : b = ⟨i⟩
      · rw [← hb, heq]
      · rw [of_cut_of_ne hb]
    exact absurd hback.weight_le (Nat.not_le.2 hlt)
  · intro hne
    refine Nat.not_le.1 fun hle => hne ?_
    rw [hwithin.eq_of_weight_le hle]

/-- A set is written as what it is cut down to, because it includes what it is written as. -/
theorem Shrinking.placeBlock_eq {t : DominatorTable} (ht : Shrinking g t) {b : BlockId}
    (hb : b ∈ g.reachable) (hne : b ≠ .entry) {p : BlockId} {rest : List BlockId}
    (hps : ∀ q, q ∈ p :: rest ↔ q ∈ g.livePreds b) :
    placeBlock b ((of t p).filter fun d => rest.all fun q => (of t q).contains d)
      = of (g.cut t b) b := by
  have hp : p ∈ g.reachable := (mem_livePreds.1 ((hps p).1 List.mem_cons_self)).2
  have hheld : Ascending ((of t p).filter fun d => rest.all fun q => (of t q).contains d) :=
    (ht.ascending p hp).filter _
  refine (ascending_placeBlock hheld).ext ((ht.cut b).ascending b hb) fun d => ?_
  -- the first predecessor starts the intersection, but all of them have a say in it
  have hall : (d ∈ of t p ∧ ∀ q ∈ rest, d ∈ of t q) ↔ ∀ q ∈ g.livePreds b, d ∈ of t q := by
    simp only [← hps, List.forall_mem_cons]
  simp only [mem_placeBlock, List.mem_filter, List.all_eq_true, List.contains_iff_mem, hall,
    mem_of_cut]
  refine ⟨?_, And.right⟩
  rintro (rfl | hd)
  · exact ⟨ht.self d hb, .inl rfl⟩
  · exact ⟨ht.common b hb hne d hd, .inr hd⟩

theorem Reflects.write {s : BlockSets} {t : DominatorTable} (h : g.Reflects s t) {b : BlockId}
    (hb : b ∈ g.reachable) : g.Reflects (s.insert b (of (g.cut t b) b)) (g.cut t b) := by
  intro c
  rw [Table.get?_insert]
  by_cases hbc : b = c
  · rw [← hbc, if_pos rfl, if_pos hb]
  · rw [if_neg hbc, of_cut_of_ne hbc, h c]

theorem Reflects.keep {s : BlockSets} {t : DominatorTable} (h : g.Reflects s t) {b : BlockId}
    (hsame : of (g.cut t b) b = of t b) : g.Reflects s (g.cut t b) := by
  intro c
  by_cases hbc : b = c
  · rw [← hbc, hsame, h b]
  · rw [of_cut_of_ne hbc, h c]

/-- **To write a set anew is to cut it down**, and it changes something exactly if the table gets
lighter. -/
theorem Reflects.renew {s : BlockSets} {t : DominatorTable} (h : g.Reflects s t)
    (ht : Shrinking g t) {b : BlockId} (hb : b ∈ g.reachable) (hne : b ≠ .entry) {ps : List BlockId}
    (hps : ∀ p, p ∈ ps ↔ p ∈ g.livePreds b) :
    ∃ s', s.renew b ps = some (s', decide (weight (g.cut t b) < weight t))
      ∧ g.Reflects s' (g.cut t b) := by
  obtain ⟨p, rest, rfl⟩ : ∃ p rest, ps = p :: rest := by
    obtain ⟨p, hp⟩ := exists_mem_livePreds hb hne
    exact List.exists_cons_of_ne_nil (List.ne_nil_of_mem ((hps p).2 hp))
  have hlive : ∀ q ∈ p :: rest, q ∈ g.reachable := fun q hq => (mem_livePreds.1 ((hps q).1 hq)).2
  have hrenew : s.renew b (p :: rest) = if of (g.cut t b) b = of t b then some (s, false)
      else some (s.insert b (of (g.cut t b) b), true) := by
    rw [BlockSets.renew, h.common hlive, h.get? hb]
    simp only [Option.bind_eq_bind, Option.bind_some, Option.getD_some, ht.placeBlock_eq hb hne hps]
    split <;> rfl
  rw [hrenew]
  by_cases hsame : of (g.cut t b) b = of t b
  · rw [if_pos hsame, decide_eq_false fun hlt => weight_cut_lt.1 hlt hsame]
    exact ⟨s, rfl, h.keep hsame⟩
  · rw [if_neg hsame, decide_eq_true (weight_cut_lt.2 hsame)]
    exact ⟨_, rfl, h.write hb⟩

/-! ## Rounds -/

/-- A round shrinks the table visit by visit. -/
theorem weight_foldl_cut_le (bs : List BlockId) (t : DominatorTable) :
    weight (bs.foldl g.cut t) ≤ weight t :=
  (foldl_restrict g.reachable g.predecessors bs t).1.weight_le

/-- Visits write the sets that the cuts leave, in whatever order the predecessors are gone through,
and note whether the table has got lighter. -/
theorem Reflects.visits (order : Itinerary) (round : Nat) {bs : List BlockId}
    (hbs : ∀ b ∈ bs, b ∈ g.reachable ∧ b ≠ .entry) (changed : Bool) {s : BlockSets}
    {t : DominatorTable} (h : g.Reflects s t) (ht : Shrinking g t) :
    ∃ s', bs.foldlM (visit order g.reachable g.gatherPredecessors round) (s, changed)
        = some (s', changed || decide (weight (bs.foldl g.cut t) < weight t))
      ∧ g.Reflects s' (bs.foldl g.cut t) ∧ Shrinking g (bs.foldl g.cut t) := by
  induction bs generalizing changed s t with
  | nil => exact ⟨s, by simp, h, ht⟩
  | cons b bs ih =>
    obtain ⟨hb, hne⟩ := hbs b List.mem_cons_self
    obtain ⟨hsome, hmem⟩ := get?_gatherPredecessors g b
    obtain ⟨ps, hps⟩ := Option.isSome_iff_exists.1 (hsome.2 (.inl ((mem_reachable g b).1 hb).1))
    have hlist : ∀ p, p ∈ (order.list round b ps).filter g.reachable.contains
        ↔ p ∈ g.livePreds b := fun p => by
      rw [List.mem_filter, (order.perm round b ps).mem_iff, mem_livePreds, List.contains_iff_mem,
        ← hmem, hps]
      rfl
    obtain ⟨s₁, hrenew, h₁⟩ := h.renew ht hb hne hlist
    have hvisit : visit order g.reachable g.gatherPredecessors round (s, changed) b
        = some (s₁, changed || decide (weight (g.cut t b) < weight t)) := by
      rw [visit, hps]
      simp only [Option.bind_eq_bind, Option.bind_some, hrenew]
      rfl
    obtain ⟨s₂, hrest, h₂, ht₂⟩ := ih (fun c hc => hbs c (List.mem_cons_of_mem b hc))
      (changed || decide (weight (g.cut t b) < weight t)) h₁ (ht.cut b)
    refine ⟨s₂, ?_, h₂, ht₂⟩
    -- the table gets lighter in the whole if it does at the first visit or after it
    have hfirst : weight (g.cut t b) ≤ weight t := weight_foldl_cut_le [b] t
    have hafter : weight (bs.foldl g.cut (g.cut t b)) ≤ weight (g.cut t b) :=
      weight_foldl_cut_le bs (g.cut t b)
    have hlighter : weight (bs.foldl g.cut (g.cut t b)) < weight t ↔ weight (g.cut t b) < weight t
        ∨ weight (bs.foldl g.cut (g.cut t b)) < weight (g.cut t b) := by omega
    rw [List.foldlM_cons, hvisit, List.foldl_cons, decide_eq_decide.2 hlighter, Bool.decide_or,
      ← Bool.or_assoc]
    exact hrest

/-- **The rounds end**, after no more than the table weighs and one, and with the table at which the
cuts end. -/
theorem Reflects.stabilizeFrom (order : Itinerary) {allowed : Nat} (round : Nat) {s : BlockSets}
    {t : DominatorTable} (h : g.Reflects s t) (ht : Shrinking g t) (hallowed : weight t < allowed) :
    ∃ s', stabilizeFrom order g.reachable g.gatherPredecessors allowed round s = some s'
      ∧ g.Reflects s' (dominatorLimit g.reachable g.predecessors t)
      ∧ Shrinking g (dominatorLimit g.reachable g.predecessors t) := by
  have hvisited : ∀ b ∈ g.reachable.filter (· != .entry), b ∈ g.reachable
      ∧ b ≠ .entry := fun b hb => by
    simpa using hb
  -- a round that changes something costs one of those allowed, and the table loses at least as much
  -- weight
  induction allowed generalizing round s t with
  | zero => exact absurd hallowed (Nat.not_lt_zero _)
  | succ allowed ih =>
    obtain ⟨s₁, hround, h₁, ht₁⟩ := h.visits order round hvisited false ht
    rw [Graph.stabilizeFrom, stabilizeRound, hround, dominatorLimit]
    by_cases hlighter : weight (dominatorRound g.reachable g.predecessors t) < weight t
    · obtain ⟨s', hend, hlimit⟩ :=
        ih (round + 1) h₁ ht₁ (Nat.lt_of_lt_of_le hlighter (Nat.le_of_lt_succ hallowed))
      rw [if_pos hlighter]
      exact ⟨s', (if_pos (decide_eq_true hlighter)).trans hend, hlimit⟩
    · rw [if_neg hlighter]
      exact ⟨s₁, if_neg fun h => hlighter (of_decide_eq_true h), h₁, ht₁⟩

/-- Sets of at most `n` blocks. -/
theorem foldr_length_le_mul {sets : List (List BlockId)} {n : Nat}
    (h : ∀ held ∈ sets, held.length ≤ n) :
    sets.foldr (fun held k => held.length + k) 0 ≤ sets.length * n := by
  induction sets with
  | nil => simp
  | cons held sets ih =>
    have hfirst := h held List.mem_cons_self
    have hrest := ih fun held hheld => h held (List.mem_cons_of_mem _ hheld)
    rw [List.foldr_cons, List.length_cons, Nat.succ_mul]
    omega

theorem length_reachable_le (g : Graph) : g.reachable.length ≤ g.blocks.size := by
  have hle : g.reachable.length ≤ g.blockIds.length := List.length_filter_le ..
  simpa [blockIds] using hle

theorem weight_dominatorStart_lt (g : Graph) : weight g.dominatorStart < g.roundBound := by
  have hsets : ∀ held ∈ g.dominatorStart.toList, held.length ≤ g.blocks.size := by
    intro held hheld
    obtain ⟨b, hb, rfl⟩ := List.mem_map.1 hheld
    have hsize := (mem_blockIds g b).1 hb
    split
    · exact Nat.one_le_of_lt hsize
    · split
      · exact length_reachable_le g
      · exact Nat.zero_le _
  have hle := foldr_length_le_mul hsets
  have hlength : g.dominatorStart.toList.length = g.blocks.size := by
    simp [dominatorStart, blockIds]
  rw [hlength] at hle
  exact Nat.lt_succ_of_le hle

/-- More rounds than enough change nothing. -/
theorem stabilizeFrom_of_le {order : Itinerary} {live : List BlockId} {preds s t : BlockSets}
    {n m round : Nat} (hle : n ≤ m) (h : stabilizeFrom order live preds n round t = some s) :
    stabilizeFrom order live preds m round t = some s := by
  induction n generalizing m round t with
  | zero => cases h
  | succ n ih =>
    obtain ⟨m, rfl⟩ : ∃ m', m = m' + 1 := ⟨m - 1, by omega⟩
    rw [stabilizeFrom] at h ⊢
    cases hround : stabilizeRound order live preds round t with
    | none =>
      rw [hround] at h
      cases h
    | some result =>
      obtain ⟨t', changed⟩ := result
      rw [hround] at h
      cases changed with
      | false => exact h
      | true => exact ih (Nat.le_of_succ_le_succ hle) h

/-- **Every order leads to the table of the cuts**, and in as many rounds as are ever needed. -/
theorem stabilized_eq (g : Graph) (order : Itinerary) : ∃ s, (∀ allowed ≥ g.roundBound,
    g.stabilized order allowed = some s) ∧ g.Reflects s g.dominators
      ∧ Shrinking g g.dominators := by
  have hstart : g.Reflects ⟨g.reachable.map fun b => (b, if b = .entry then [b] else g.reachable)⟩
      g.dominatorStart := by
    intro b
    rw [Table.get?_map]
    by_cases hb : b ∈ g.reachable
    · rw [if_pos hb, if_pos hb, of_dominatorStart_of_mem hb]
    · rw [if_neg hb, if_neg hb]
  obtain ⟨s, hend, hlimit⟩ :=
    hstart.stabilizeFrom order 0 (shrinking_dominatorStart g) (weight_dominatorStart_lt g)
  exact ⟨s, fun _ hallowed => stabilizeFrom_of_le hallowed hend, hlimit⟩

/-- The list of dominators has those of every reachable block. -/
theorem dominatorList_eq (g : Graph) :
    g.dominatorList = g.reachable.map fun b => (b, of g.dominators b) := by
  obtain ⟨s, hs, h, -⟩ := stabilized_eq g .ascending
  rw [dominatorList, hs _ (Nat.le_refl _)]
  refine List.filterMap_eq_map_iff_forall_eq_some.2 fun b hb => ?_
  rw [h.get? hb]
  rfl

/-! ## Exactness -/

/-- One walk to the entry has not left it, so no other block is on every walk. -/
theorem dominates_entry_iff {d : BlockId} : g.Dominates d .entry ↔ d = .entry := by
  refine ⟨fun h => ?_, fun h _ _ => .inl h⟩
  rcases h [] .start with hd | hd
  · exact hd
  · exact absurd hd List.not_mem_nil

/-- **The flow of control is found exactly.** The reachable blocks are those that exist and are the
end of some walk from the entry. The predecessors of a block are the blocks that branch to it. In
every order in which predecessors are gone through the rounds end, within a bound, and then exactly
the reachable blocks have a set, which consists of the blocks on every walk to them, and for the
entry of the entry alone. -/
theorem flow_exact (g : Graph) :
    (∀ b, b ∈ g.reachable ↔ b.index < g.blocks.size ∧ g.Reached b)
      ∧ (∀ b, ((g.gatherPredecessors.get? b).isSome ↔ b.index < g.blocks.size ∨ ∃ p, g.Follows p b)
        ∧ ∀ p, p ∈ (g.gatherPredecessors.get? b).getD [] ↔ g.Follows p b)
      ∧ ∀ order : Itinerary, ∃ doms,
        (∀ allowed ≥ g.roundBound, g.stabilized order allowed = some doms)
        ∧ (∀ b, (doms.get? b).isSome ↔ b ∈ g.reachable)
        ∧ (∀ b held, doms.get? b = some held → Ascending held ∧ ∀ d, d ∈ held ↔ g.Dominates d b)
        ∧ ∀ held, doms.get? .entry = some held → held = [.entry] := by
  refine ⟨mem_reachable g, get?_gatherPredecessors g, fun order => ?_⟩
  obtain ⟨doms, hdoms, hreflects, hshrinking⟩ := stabilized_eq g order
  have hkeys : ∀ b, (doms.get? b).isSome ↔ b ∈ g.reachable := fun b => by
    rw [hreflects b]
    split <;> simp [*]
  have hsets : ∀ b held, doms.get? b = some held → Ascending held ∧ ∀ d, d ∈ held
      ↔ g.Dominates d b := by
    intro b held hheld
    have hb : b ∈ g.reachable := (hkeys b).1 (Option.isSome_iff_exists.2 ⟨held, hheld⟩)
    obtain rfl : of g.dominators b = held := Option.some.inj ((hreflects.get? hb).symm.trans hheld)
    exact ⟨hshrinking.ascending b hb, mem_dominators hb⟩
  refine ⟨doms, hdoms, hkeys, hsets, fun held hheld => ?_⟩
  obtain ⟨hascending, hmem⟩ := hsets _ held hheld
  exact hascending.ext (List.pairwise_singleton _ _) fun d => by
    rw [hmem, dominates_entry_iff, List.mem_singleton]

end Graph

end Interpose
