import Interpose.Proofs.Compiling
import Interpose.Proofs.Graph.Thinned
import Interpose.Proofs.Run.Safety
import Interpose.Proofs.Run.Along

/-!
# Pruning loses nothing

`Graph.prune` thins a graph to its reached blocks. In a graph in order no branch of a reached block
goes astray, so every target has a new number. A run goes through reached blocks only, and at each
of them the thinned graph has the same statements and takes the corresponding branch. Both runs
therefore do the same, whatever surrounds them, and it makes no difference whether a backend prunes.
-/

set_option autoImplicit false

namespace Interpose

namespace Graph

variable {g g' : Graph} {b new : BlockId}

/-! ## Pruning thins -/

/-- The new number of a reached block is where the search for it ends. -/
theorem KeptAs.findIdx? (h : g.KeptAs b new) : g.reachable.findIdx? (· == b) = some new.index := by
  obtain ⟨hlt, hget⟩ := List.getElem?_eq_some_iff.1 h
  refine List.findIdx?_eq_some_iff_getElem.2 ⟨hlt, by simpa using hget, fun j hj => ?_⟩
  have hne := List.pairwise_iff_getElem.1 g.nodup_reachable j new.index (Nat.lt_trans hj hlt) hlt hj
  simpa [hget] using hne

/-- A branch of a reached block goes to the new number of its target. -/
theorem sameBranch_retarget (hg : g.WellFormed) {block : Block} (hb : b ∈ g.reachable)
    (hblock : g.block? b = some block) {br : Branch} (hbr : br ∈ block.branches) :
    g.SameBranch br (retarget g.reachable br) := by
  have htakes := hg.balanced b block hblock br hbr
  rcases ht : br.target with t | _
  · rw [ht] at htakes
    obtain ⟨next, hnext, -⟩ := htakes
    have hfollows : g.Follows b t :=
      ⟨block, hblock, List.mem_filterMap.2 ⟨br, hbr, by rw [Branch.block?, ht]⟩⟩
    have hreached := ((mem_reachable g b).1 hb).2.follow hfollows
    obtain ⟨new, hkept⟩ := exists_keptAs ((mem_reachable g t).2 ⟨lt_size_of_block? hnext, hreached⟩)
    have hnew : retarget g.reachable br = { br with target := .block new } := by
      rw [retarget, ht]
      dsimp only
      rw [hkept.findIdx?]
    rw [hnew]
    exact ⟨ht ▸ .block hkept, rfl, rfl⟩
  · have hsame : retarget g.reachable br = br := by
      rw [retarget, ht]
    rw [hsame]
    exact ⟨ht ▸ .leave, rfl, rfl⟩

/-- Where every element is found, as many are found as are looked for, each in its place. -/
theorem forall₂_filterMap {α β : Type} {f : α → Option β} {l : List α}
    (h : ∀ a ∈ l, ∃ b, f a = some b) :
    List.Forall₂ (fun a b => f a = some b) l (l.filterMap f) := by
  induction l with
  | nil => exact .nil
  | cons a l ih =>
    obtain ⟨b, hb⟩ := h a List.mem_cons_self
    rw [List.filterMap_cons_some hb]
    exact .cons hb (ih fun a' ha' => h a' (List.mem_cons_of_mem a ha'))

/-- Where all blocks are reached, each keeps its number. -/
theorem keptAs_iff_of_all (hall : g.reachable = g.blockIds) :
    g.KeptAs b new ↔ b = new ∧ b.index < g.blocks.size := by
  rw [KeptAs, hall, blockIds, List.getElem?_map, Option.map_eq_some_iff]
  constructor
  · rintro ⟨i, hi, rfl⟩
    obtain ⟨hlt, hget⟩ := List.getElem?_eq_some_iff.1 hi
    rw [List.getElem_range] at hget
    rw [List.length_range] at hlt
    subst hget
    exact ⟨rfl, hlt⟩
  · rintro ⟨rfl, hlt⟩
    exact ⟨b.index, List.getElem?_range hlt, rfl⟩

/-- A graph in order whose blocks are all reached is thinned already. -/
theorem thinned_of_all (hg : g.WellFormed) (hall : g.reachable = g.blockIds) : g.Thinned g where
  size := by rw [hall, blockIds, List.length_map, List.length_range]
  block b new hkept := by
    obtain ⟨rfl, hlt⟩ := (keptAs_iff_of_all hall).1 hkept
    obtain ⟨block, hblock⟩ := Option.isSome_iff_exists.1 ((block?_isSome g b).2 hlt)
    refine ⟨block, block, hblock, hblock, rfl, rfl, List.forall₂_same.2 fun br hbr =>
      ⟨?_, rfl, rfl⟩⟩
    have htakes := hg.balanced b block hblock br hbr
    rcases ht : br.target with t | _
    · rw [ht] at htakes
      obtain ⟨next, hnext, -⟩ := htakes
      exact .block ((keptAs_iff_of_all hall).2 ⟨rfl, lt_size_of_block? hnext⟩)
    · exact .leave

/-- **Pruning thins** a graph in order to its reached blocks. -/
theorem thinned_prune (hg : g.WellFormed) : g.Thinned g.prune.1 := by
  unfold prune
  dsimp only
  split
  · next hnone =>
    have hlength : g.blockIds.length ≤ g.reachable.length := by
      rw [blockIds, List.length_map, List.length_range]
      omega
    exact thinned_of_all hg (g.reachable_sublist.eq_of_length_le hlength)
  · have hfound := forall₂_filterMap fun b (hb : b ∈ g.reachable) =>
      Option.isSome_iff_exists.1 ((block?_isSome g b).2 ((mem_reachable g b).1 hb).1)
    refine ⟨?_, fun b new hkept => ?_⟩
    · simpa [renumbered] using hfound.length_eq.symm
    · obtain ⟨hlt, hget⟩ := List.getElem?_eq_some_iff.1 hkept
      have hlt' : new.index < (g.reachable.filterMap g.block?).length := hfound.length_eq ▸ hlt
      obtain ⟨block, hlisted⟩ : ∃ block, (g.reachable.filterMap g.block?)[new.index]?
        = some block :=
        ⟨_, List.getElem?_eq_getElem hlt'⟩
      have hblock : g.block? b = some block := by
        have hpair := hfound.get hlt hlt'
        rw [List.get_eq_getElem, List.get_eq_getElem, hget] at hpair
        rw [hpair, ← hlisted, List.getElem?_eq_getElem hlt']
      refine ⟨block, { block with branches := block.branches.map (retarget g.reachable) }, hblock,
        ?_, rfl, rfl, ?_⟩
      · simp [renumbered, block?, hlisted]
      · refine List.forall₂_map_right_iff.2 (List.forall₂_same.2 fun br hbr => ?_)
        exact sameBranch_retarget hg hkept.mem hblock hbr

/-! ## Runs

The two runs are compared block by block, by induction on the fuel. -/

section Runs

variable {σ : Type}

/-- Branches that differ in their targets are taken alike, and one of them is taken if one has no
condition. -/
theorem taken?_sameBranch (frame : Frame) {branches branches' : List Branch}
    (h : List.Forall₂ g.SameBranch branches branches')
    (hends : ∃ br ∈ branches, br.condition = none) :
    Run.Fits (fun o o' => ∃ br br', o = some br ∧ o' = some br' ∧ g.SameBranch br br')
      (taken? frame branches) (taken? frame branches') := by
  have hread : ∀ br br', g.SameBranch br br' →
      Option.Rel (fun c c' => frame.read c' = frame.read c) br.condition br'.condition := by
    intro br br' hbr
    rw [hbr.condition]
    cases br.condition with
    | none => exact .none
    | some c => exact .some rfl
  refine (taken?_fits h hread).mono fun taken taken' htaken => ?_
  obtain ⟨hrel, hnone⟩ := htaken
  cases hrel with
  | none =>
    obtain ⟨br, hmem, hbr⟩ := hends
    exact absurd hbr (hnone rfl br hmem)
  | some hbr => exact ⟨_, _, rfl, rfl, hbr⟩

/-- **A run of the thinned graph is one of the first** from every block that is kept. -/
theorem runFrom_thinned (env : Surroundings σ) (h : g.Thinned g') (hg : g.WellFormed) (fuel : Nat)
    (hkept : g.KeptAs b new) (frame : Frame) :
    Run.Agree Eq (fun _ _ => True) (g.runFrom env fuel b frame)
      (g'.runFrom env fuel new frame) := by
  induction fuel generalizing b new frame with
  | zero => exact .outOfFuel
  | succ fuel ih =>
    obtain ⟨block, block', hblock, hb', hsame⟩ := h.block b new hkept
    obtain ⟨front, last, hbranches, hlast, -⟩ := hg.ends b block hblock
    have hends : ∃ br ∈ block.branches, br.condition = none :=
      ⟨last, hbranches ▸ List.mem_append_right _ List.mem_cons_self, hlast⟩
    rw [runFrom, runFrom, Run.ofGraph_block hblock, Run.ofGraph_block hb', pure_bind, pure_bind,
      hsame.body]
    refine .bind (.refl _) fun frame' frame'' hframe => ?_
    obtain rfl := hframe
    refine .bind (.ofExcept (taken?_sameBranch frame' hsame.branches hends)) ?_
    rintro _ _ ⟨br, br', rfl, rfl, hbr⟩
    dsimp only
    rw [hbr.args]
    refine .bind (.refl _) fun passed passed' hpassed => ?_
    obtain rfl := hpassed
    obtain ⟨goal, condition, args⟩ := br
    obtain ⟨goal', condition', args'⟩ := br'
    have hgoal : g.Redirects goal goal' := hbr.target
    cases hgoal with
    | leave => exact .refl _
    | @block t t' hkeptt =>
      obtain ⟨next, next', hnext, hnext', hsamenext⟩ := h.block t t' hkeptt
      dsimp only
      rw [Run.ofGraph_block hnext, Run.ofGraph_block hnext', pure_bind, pure_bind,
        hsamenext.paramVars]
      exact ih hkeptt _

/-- A thinned graph that has handed out the same variables for the same function is called as the
first is. -/
theorem invoke_thinned (env : Surroundings σ) (h : g.Thinned g') (hpos : 0 < g.blocks.size)
    (hg : g.WellFormed) (hcount : g'.varCount = g.varCount)
    (hprovenance : g'.provenance = g.provenance) (fuel : Nat) (args : List Value) :
    g'.invoke env fuel args = g.invoke env fuel args := by
  obtain ⟨block, block', hblock, hb', hsame⟩ := h.block _ _ (keptAs_entry hpos)
  have hself : g'.self? = g.self? := by rw [self?, self?, hprovenance]
  have harity : g'.arity = g.arity := by
    rw [arity, arity, hself, entry_of_block? hblock, entry_of_block? hb', hsame.params]
  have hstart : ∀ args, g'.startFrame .nothing args = g.startFrame .nothing args := by
    intro args
    rw [startFrame, startFrame, hcount, arguments, arguments, entry_of_block? hblock,
      entry_of_block? hb', hsame.paramVars]
  rw [invoke, invoke, harity, hself, run, run, hstart]
  rw [(runFrom_thinned env h hg fuel (keptAs_entry hpos) _).eq]

end Runs

/-! ## What pruning keeps -/

/-- The second graph is the first without its unreached blocks, and nothing else of it is lost. -/
structure Pruned (g g' : Graph) : Prop extends Thinned g g' where
  /-- The blocks that are listed as reached, in their order, are those at the end of some walk. -/
  listed : g.reachable.Sublist g.blockIds ∧ ∀ b, b ∈ g.reachable
    ↔ b.index < g.blocks.size ∧ g.Reached b
  verify : g'.verify = .ok ()
  reached : ∀ b, b.index < g'.blocks.size → b ∈ g'.reachable
  count : g'.varCount = g.varCount
  site : ∀ v, Option.Rel g.Moves (g.site? v) (g'.site? v)
  lines : g'.lines = g.lines
  provenance : g'.provenance = g.provenance
  invoke : ∀ (σ : Type) (env : Surroundings σ) (fuel : Nat) (args : List Value),
    g'.invoke env fuel args = g.invoke env fuel args

/-- Pruning changes neither the counter nor what the graph notes. -/
theorem prune_notes (g : Graph) : g.prune.1.varCount = g.varCount ∧ g.prune.1.lines = g.lines
    ∧ g.prune.1.provenance = g.provenance := by
  unfold prune
  dsimp only
  split
  · exact ⟨rfl, rfl, rfl⟩
  · exact ⟨size_sitesOf _ _, rfl, rfl⟩

/-- The number that pruning gives is that of the blocks that were removed. -/
theorem prune_removed (g : Graph) : g.prune.2 = g.blocks.size - g.reachable.length := by
  unfold prune
  dsimp only
  split
  · next hnone => exact hnone.symm
  · rfl

theorem pruned_prune (h : g.Built) (hv : g.verify = .ok ()) : g.Pruned g.prune.1 := by
  have hg := h.coherent.verify_eq_ok.1 hv
  have hthinned := thinned_prune hg
  have hcoherent := h.coherent.prune
  obtain ⟨hcount, hlines, hprovenance⟩ := g.prune_notes
  refine ⟨hthinned, ⟨g.reachable_sublist, mem_reachable g⟩, ?_,
    hthinned.all_reached h.size_pos, hcount, hthinned.moves h.coherent hcoherent hcount, hlines,
    hprovenance, fun σ env fuel args => ?_⟩
  · exact hcoherent.verify_eq_ok.2 (hthinned.wellFormed h.size_pos hg)
  · exact invoke_thinned env hthinned h.size_pos hg hcount hprovenance fuel args

/-- **Pruning loses nothing.** Of a graph in order it keeps the reached blocks, in their order and
with all that is in them, and a branch goes to the block that its target has become. The result is
in order, all its blocks are reached, so that pruning it again removes none, and variables keep
their numbers. A call does the same as before in any surroundings, those that record all calls among
them. A backend therefore gives a graph that is called with the same effect whether it prunes or
not, and whether it checks or not. -/
theorem pruning_preserves (h : g.Built) (hv : g.verify = .ok ()) :
    g.Pruned g.prune.1 ∧ g.prune.2 + g.prune.1.blocks.size = g.blocks.size
      ∧ g.prune.1.prune = (g.prune.1, 0)
      ∧ ∀ backend : Backend, ∃ g', backend.prepare g = .ok g'
        ∧ g' = (if backend.prunes then g.prune.1 else g)
        ∧ ∀ (σ : Type) (env : Surroundings σ) (fuel : Nat) (args : List Value),
          g'.invoke env fuel args = g.invoke env fuel args := by
  have hpruned := pruned_prune h hv
  refine ⟨hpruned, ?_, prune_eq_self hpruned.reached, fun backend => ⟨_, ?_, rfl, ?_⟩⟩
  · have hle : g.reachable.length ≤ g.blocks.size := by
      have hlength := g.reachable_sublist.length_le
      rwa [blockIds, List.length_map, List.length_range] at hlength
    rw [prune_removed, hpruned.size]
    omega
  · have hverify : (if backend.prunes then g.prune.1 else g).verify = .ok () := by
      split
      · exact hpruned.verify
      · exact hv
    unfold Backend.prepare
    dsimp only
    rw [hverify]
    exact ite_self _
  · intro σ env fuel args
    split
    · exact hpruned.invoke σ env fuel args
    · rfl

/-- A graph whose entry goes to its last block, past one that nothing goes to. -/
def skipping : Graph where
  sites := #[.param ⟨2⟩ 0, .statement ⟨1⟩ 0]
  blocks := #[⟨[], [], [.jump ⟨2⟩ [.const (.int 2)]]⟩,
    ⟨[], [(⟨1⟩, .plain (.operand (.const (.int 1))))], [.jump ⟨2⟩ [.var ⟨1⟩]]⟩,
    ⟨[(⟨0⟩, .any)], [], [.leave (.var ⟨0⟩)]⟩]
  lines := []
  provenance := none

theorem built_skipping : skipping.Built := by
  have hparam : Built ⟨#[.param ⟨2⟩ 0], #[.empty, .empty, ⟨[(⟨0⟩, .any)], [], []⟩], [], none⟩ :=
    Built.empty.addBlock.addBlock.addParam (show addParam _ ⟨2⟩ .any = .ok (_, ⟨0⟩) by cbv)
  have hstatement : Built ⟨skipping.sites,
      #[.empty, ⟨[], [(⟨1⟩, .plain (.operand (.const (.int 1))))], []⟩, ⟨[(⟨0⟩, .any)], [], []⟩],
      [], none⟩ :=
    hparam.pushTo (b := ⟨1⟩) (s := .plain (.operand (.const (.int 1)))) (v := ⟨1⟩) (by cbv)
  have hpast : Built ⟨skipping.sites, #[⟨[], [], [.jump ⟨2⟩ [.const (.int 2)]]⟩,
      ⟨[], [(⟨1⟩, .plain (.operand (.const (.int 1))))], []⟩, ⟨[(⟨0⟩, .any)], [], []⟩], [], none⟩ :=
    hstatement.addBranch (show branchTo _ .entry ⟨2⟩ [.const (.int 2)] = .ok _ by cbv)
  have hunreached : Built ⟨skipping.sites, #[⟨[], [], [.jump ⟨2⟩ [.const (.int 2)]]⟩,
      ⟨[], [(⟨1⟩, .plain (.operand (.const (.int 1))))], [.jump ⟨2⟩ [.var ⟨1⟩]]⟩,
      ⟨[(⟨0⟩, .any)], [], []⟩], [], none⟩ :=
    hpast.addBranch (show branchTo _ ⟨1⟩ ⟨2⟩ [.var ⟨1⟩] = .ok _ by cbv)
  exact hunreached.addBranch (show leaveWith _ ⟨2⟩ (.var ⟨0⟩) = .ok _ by cbv)

/-- The block in the middle is removed, and the graph still gives two. -/
theorem pruning_preserves_skipping : skipping.Built ∧ skipping.verify = .ok ()
    ∧ skipping.prune.2 = 1 ∧ skipping.Pruned skipping.prune.1
    ∧ skipping.prune.1.invoke countdown 2 [] 0 = some (.ok (.int 2), 0) := by
  have hverify : skipping.verify = .ok () := by cbv
  have hpruned := (pruning_preserves built_skipping hverify).1
  refine ⟨built_skipping, hverify, by cbv, hpruned, ?_⟩
  rw [hpruned.invoke]
  rfl

end Graph

end Interpose
