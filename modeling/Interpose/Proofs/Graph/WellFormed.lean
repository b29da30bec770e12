import Interpose.Graph.Check
import Interpose.Proofs.Graph.Built
import Interpose.Proofs.Graph.Dominators

/-!
# What the check of a graph means

A graph is *well formed* when every block ends as it should, every branch is balanced, and
everything that is read was bound before on every way that leads there. The last is said about walks
and knows nothing of dominators or sites. `Graph.verify` accepts a built graph exactly if it is well
formed.
-/

set_option autoImplicit false

namespace Interpose

/-- What a block has bound at a place: at a statement the parameters and the statements before it,
at a branch, which has no position, everything. -/
def Block.boundAt (block : Block) : Option Nat → List Variable
  | none => block.boundVars
  | some i => block.paramVars ++ block.bodyVars.take i

theorem Block.boundAt_subset (block : Block) (place : Option Nat) :
    block.boundAt place ⊆ block.boundVars := by
  cases place with
  | none => exact List.Subset.refl _
  | some i =>
    exact List.append_subset.2 ⟨List.subset_append_left _ _, fun v hv =>
      List.mem_append_right _ (List.take_subset _ _ hv)⟩

theorem Block.paramVars_subset_boundAt (block : Block) (place : Option Nat) :
    block.paramVars ⊆ block.boundAt place := by
  cases place <;> exact List.subset_append_left _ _

namespace Graph

variable {g : Graph}

/-! ## Well-formed graphs -/

/-- The target exists and takes that many arguments. -/
def Takes (g : Graph) (t : Target) (n : Nat) : Prop :=
  match t with
  | .block b => ∃ block, g.block? b = some block ∧ n = block.params.length
  | .leave => n = 1

/-- Every block ends in its only branch that is always taken, and every branch is balanced. -/
structure WellEnded (g : Graph) : Prop where
  ends : ∀ b block, g.block? b = some block → ∃ front last, block.branches = front ++ [last]
    ∧ last.condition = none ∧ ∀ br ∈ front, br.condition ≠ none
  balanced : ∀ b block, g.block? b = some block → ∀ br ∈ block.branches,
    g.Takes br.target br.args.length

/-- The variables that the blocks of a list bind. -/
def boundIn (g : Graph) (bs : List BlockId) : List Variable :=
  bs.flatMap fun b => (g.block? b).elim [] Block.boundVars

/-- Everything that is read is bound, and bound before on every walk that leads there. A walk that
arrives at a block has bound what the blocks bind that it left, and in the block the parameters and
the statements that stand before. -/
structure WellUsed (g : Graph) : Prop where
  bound : ∀ b block, g.block? b = some block → ∀ v ∈ block.uses, v ∈ g.boundVars
  statement : ∀ b block before, g.block? b = some block → g.Walk b before →
    ∀ i w s, block.body[i]? = some (w, s) → ∀ v ∈ s.uses,
      v ∈ g.boundIn before ∨ v ∈ block.boundAt (some i)
  branch : ∀ b block before, g.block? b = some block → g.Walk b before →
    ∀ br ∈ block.branches, ∀ v ∈ br.uses, v ∈ g.boundIn before ∨ v ∈ block.boundAt none

/-- A graph in order. -/
structure WellFormed (g : Graph) : Prop extends WellEnded g, WellUsed g

/-- The listed blocks are those that are found at their positions. -/
theorem mem_indexedBlocks {b : BlockId} {block : Block} :
    (b, block) ∈ g.indexedBlocks ↔ g.block? b = some block := by
  simp only [indexedBlocks, List.mem_map, Prod.exists, Prod.mk.injEq, List.mem_zipIdx_iff_getElem?]
  constructor
  · rintro ⟨block', i, hi, rfl, rfl⟩
    simpa [block?] using hi
  · intro hb
    exact ⟨block, b.index, by simpa [block?] using hb, rfl, rfl⟩

/-! ## Ends -/

/-- The list ends in its only element without a property. -/
theorem getLast?_eq_some_and_all_dropLast {α : Type} {l : List α} {p : α → Bool} :
    (∃ last, l.getLast? = some last ∧ p last = false) ∧ l.dropLast.any (!p ·) = false
      ↔ ∃ front last, l = front ++ [last] ∧ p last = false ∧ ∀ a ∈ front, p a = true := by
  constructor
  · rintro ⟨⟨last, hlast, hp⟩, hall⟩
    obtain ⟨front, rfl⟩ := List.getLast?_eq_some_iff.1 hlast
    rw [List.dropLast_concat] at hall
    refine ⟨front, last, rfl, hp, fun a ha => ?_⟩
    have := List.any_eq_false.1 hall a ha
    simpa using this
  · rintro ⟨front, last, rfl, hp, hall⟩
    refine ⟨⟨last, by simp, hp⟩, ?_⟩
    rw [List.dropLast_concat]
    exact List.any_eq_false.2 fun a ha => by simp [hall a ha]

theorem checkBranch_eq_ok {b : BlockId} {br : Branch} :
    g.checkBranch b br = .ok () ↔ g.Takes br.target br.args.length := by
  unfold checkBranch Takes
  cases br.target with
  | leave => exact unless_eq_ok.trans Decidable.not_not
  | block t =>
    dsimp only
    rcases g.block? t with _ | block
    · exact ⟨nofun, nofun⟩
    · refine (unless_eq_ok.trans Decidable.not_not).trans ⟨fun h => ⟨block, rfl, h⟩, ?_⟩
      rintro ⟨block', hblock, h⟩
      cases hblock
      exact h

theorem checkEnd_eq_ok {b : BlockId} {block : Block} :
    g.checkEnd b block = .ok () ↔
      (∃ front last, block.branches = front ++ [last] ∧ last.condition = none
        ∧ ∀ br ∈ front, br.condition ≠ none)
      ∧ ∀ br ∈ block.branches, g.Takes br.target br.args.length := by
  have hends : (∃ front last, block.branches = front ++ [last] ∧ last.condition = none
        ∧ ∀ br ∈ front, br.condition ≠ none)
      ↔ (∃ last, block.branches.getLast? = some last ∧ last.isConditional = false)
        ∧ block.branches.dropLast.any (!·.isConditional) = false := by
    rw [getLast?_eq_some_and_all_dropLast]
    simp only [Branch.isConditional, Option.isSome_eq_false_iff, Option.isNone_iff_eq_none,
      Option.isSome_iff_ne_none]
  have hbalanced : (∀ br ∈ block.branches, g.Takes br.target br.args.length)
      ↔ block.branches.forM (g.checkBranch b) = .ok () := by
    rw [forM_eq_ok]
    exact forall_congr' fun br => imp_congr_right fun _ => checkBranch_eq_ok.symm
  rw [hends, hbalanced]
  unfold checkEnd
  rcases block.branches.getLast? with _ | last
  · exact ⟨nofun, nofun⟩
  · simp only [guard_eq_ok, Bool.not_eq_true, Option.some.injEq, exists_eq_left', and_assoc]

/-- The ends of all blocks are accepted exactly if the graph is well ended. -/
theorem forM_checkEnd_eq_ok :
    (g.indexedBlocks.forM fun (b, block) => g.checkEnd b block) = .ok () ↔ g.WellEnded := by
  rw [forM_eq_ok]
  constructor
  · intro h
    have hcheck : ∀ b block, g.block? b = some block → g.checkEnd b block = .ok () :=
      fun b block hb => h (b, block) (mem_indexedBlocks.2 hb)
    exact ⟨fun b block hb => (checkEnd_eq_ok.1 (hcheck b block hb)).1,
      fun b block hb => (checkEnd_eq_ok.1 (hcheck b block hb)).2⟩
  · rintro h ⟨b, block⟩ hmem
    have hb := mem_indexedBlocks.1 hmem
    exact checkEnd_eq_ok.2 ⟨h.ends b block hb, h.balanced b block hb⟩

/-! ## Uses -/

theorem mem_boundIn {bs : List BlockId} {v : Variable} :
    v ∈ g.boundIn bs ↔ ∃ b ∈ bs, ∃ block, g.block? b = some block ∧ v ∈ block.boundVars := by
  simp only [boundIn, List.mem_flatMap]
  refine exists_congr fun b => and_congr_right fun _ => ?_
  cases g.block? b <;> simp

/-- Where every block is reached, all that is bound on every walk is bound. -/
theorem wellUsed_of_reached (hreached : ∀ b block, g.block? b = some block → g.Reached b)
    (hstatement : ∀ b block before, g.block? b = some block → g.Walk b before →
      ∀ i w s, block.body[i]? = some (w, s) → ∀ v ∈ s.uses,
        v ∈ g.boundIn before ∨ v ∈ block.boundAt (some i))
    (hbranch : ∀ b block before, g.block? b = some block → g.Walk b before →
      ∀ br ∈ block.branches, ∀ v ∈ br.uses,
        v ∈ g.boundIn before ∨ v ∈ block.boundAt none) : g.WellUsed where
  bound b block hb v hv := by
    obtain ⟨before, hw⟩ := hreached b block hb
    have hsomewhere : ∀ place, v ∈ g.boundIn before ∨ v ∈ block.boundAt place →
        v ∈ g.boundVars := by
      rintro place (hv | hv)
      · obtain ⟨c, -, other, hc, hv⟩ := mem_boundIn.1 hv
        exact mem_boundVars_of_block? hc hv
      · exact mem_boundVars_of_block? hb (block.boundAt_subset place hv)
    rcases List.mem_append.1 hv with hv | hv
    · obtain ⟨⟨w, s⟩, hmem, hv⟩ := List.mem_flatMap.1 hv
      obtain ⟨i, hi⟩ := List.mem_iff_getElem?.1 hmem
      exact hsomewhere (some i) (hstatement b block before hb hw i w s hi v hv)
    · obtain ⟨br, hbr, hv⟩ := List.mem_flatMap.1 hv
      exact hsomewhere none (hbranch b block before hb hw br hbr v hv)
  statement := hstatement
  branch := hbranch

section Sites

variable {v : Variable} {b d : BlockId} {i : Nat} {block : Block}

/-- A variable with the site of a row is bound in the row's block only. -/
theorem Coherent.mem_boundVars_iff_of_site (h : g.Coherent) {r : Row}
    (hv : g.site? v = some (r.site i)) (hb : g.block? b = some block) :
    v ∈ block.boundVars ↔ r.block = b := by
  have hi := (h v r i).1 hv
  constructor
  · intro hmem
    rcases mem_row_of_mem_boundVars hb hmem with hr | hr
    all_goals
      obtain ⟨j, hj⟩ := List.mem_iff_getElem?.1 hr
      rw [(Agrees.unique h hi hj).1]
      rfl
  · rintro rfl
    obtain ⟨block', hb', hmem⟩ := mem_row (List.mem_iff_getElem?.2 ⟨i, hi⟩)
    rw [hb] at hb'
    exact Option.some.inj hb' ▸ hmem

/-- The blocks of a walk have bound a variable exactly if its own block is among them. -/
theorem Coherent.mem_boundIn_iff_of_site (h : g.Coherent) {r : Row}
    (hv : g.site? v = some (r.site i)) (bs : List BlockId) : v ∈ g.boundIn bs ↔ r.block ∈ bs := by
  rw [mem_boundIn]
  constructor
  · rintro ⟨c, hc, block, hblock, hmem⟩
    exact (h.mem_boundVars_iff_of_site hv hblock).1 hmem ▸ hc
  · intro hr
    obtain ⟨block, hblock, hmem⟩ := mem_row (List.mem_iff_getElem?.2 ⟨i, (h v r i).1 hv⟩)
    exact ⟨r.block, hr, block, hblock, hmem⟩

/-- A statement is passed before a position of its own block only, and only if it stands before
it. -/
theorem Coherent.mem_boundAt_iff_of_site (h : g.Coherent)
    (hv : g.site? v = some ((Row.body d).site i)) (hb : g.block? b = some block) {p : Nat} :
    v ∈ block.boundAt (some p) ↔ d = b ∧ i < p := by
  have hi := (h v (.body d) i).1 hv
  constructor
  · intro hmem
    obtain rfl : d = b := (h.mem_boundVars_iff_of_site hv hb).1 (block.boundAt_subset _ hmem)
    refine ⟨rfl, ?_⟩
    -- a variable stands in one place, so that it is no parameter and has no second position
    rcases List.mem_append.1 hmem with hparam | htake
    · obtain ⟨j, hj⟩ := List.mem_iff_getElem?.1 hparam
      rw [← row_params_of_block? hb] at hj
      exact Row.noConfusion (Agrees.unique h hi hj).1
    · obtain ⟨j, hj⟩ := List.mem_iff_getElem?.1 htake
      rw [List.getElem?_take, ← row_body_of_block? hb] at hj
      split at hj
      · next hlt => exact (Agrees.unique h hi hj).2 ▸ hlt
      · cases hj
  · rintro ⟨rfl, hlt⟩
    rw [row_body_of_block? hb] at hi
    exact List.mem_append_right _
      (List.mem_iff_getElem?.2 ⟨i, by rw [List.getElem?_take_of_lt hlt, hi]⟩)

/-- **The check of a use says what walks say.** A site reaches a place of a reached block exactly if
the variable is bound before on every walk to that place. -/
theorem Coherent.reaches_iff (h : g.Coherent) {site : Site} (hv : g.site? v = some site)
    (hne : site ≠ .deleted) (hb : g.block? b = some block) (hreached : g.Reached b)
    {doms : List BlockId} (hdoms : ∀ d, d ∈ doms ↔ g.Dominates d b) (place : Option Nat) :
    site.reaches b place doms = true
      ↔ ∀ before, g.Walk b before → v ∈ g.boundIn before ∨ v ∈ block.boundAt place := by
  obtain ⟨r, i, rfl⟩ := (Row.eq_site site).resolve_left hne
  have hrow := (h v r i).1 hv
  have hbound := h.mem_boundVars_iff_of_site hv hb
  simp only [h.mem_boundIn_iff_of_site hv]
  cases r with
  | params d =>
    have hplace : v ∈ block.boundAt place ↔ d = b := by
      refine ⟨fun hmem => hbound.1 (block.boundAt_subset place hmem), ?_⟩
      rintro rfl
      rw [row_params_of_block? hb] at hrow
      exact block.paramVars_subset_boundAt place (List.mem_iff_getElem?.2 ⟨i, hrow⟩)
    have hreaches : (Row.site (.params d) i).reaches b place doms = true ↔ d ∈ doms :=
      List.contains_iff_mem
    rw [hreaches, hdoms, hplace]
    exact forall_congr' fun before => imp_congr_right fun _ => or_comm
  | body d =>
    by_cases hdb : d = b
    · subst hdb
      cases place with
      | none =>
        have hall : v ∈ block.boundAt none := hbound.2 rfl
        have hreaches : (Row.site (.body d) i).reaches d none doms = true := by
          simp [Row.site, Site.reaches]
        exact ⟨fun _ before _ => .inr hall, fun _ => hreaches⟩
      | some p =>
        have hreaches : (Row.site (.body d) i).reaches d (some p) doms = true ↔ i < p := by
          simp [Row.site, Site.reaches]
        rw [hreaches, h.mem_boundAt_iff_of_site hv hb, and_iff_right rfl]
        refine ⟨fun hlt before _ => .inr hlt, fun hall => ?_⟩
        -- a walk that arrives for the first time has not bound what the block binds
        obtain ⟨before, hw, hfirst⟩ := hreached.exists_first
        exact (hall before hw).resolve_left hfirst
    · have hplace : ¬v ∈ block.boundAt place := fun hmem =>
        hdb (hbound.1 (block.boundAt_subset place hmem))
      have hreaches : (Row.site (.body d) i).reaches b place doms = true ↔ d ∈ doms := by
        simp [Row.site, Site.reaches, hdb]
      rw [hreaches, hdoms]
      refine forall_congr' fun before => imp_congr_right fun _ => ?_
      simp only [hdb, hplace, false_or, or_false]
      rfl

/-- The check of a use accepts a variable that is bound, and in a reached block bound before on
every walk. -/
theorem Coherent.checkUse_eq_ok (h : g.Coherent) (hb : g.block? b = some block)
    (place : Option Nat) :
    g.checkUse b place
        (if g.reachable.contains b then some (DominatorTable.of g.dominators b) else none) v
          = .ok ()
      ↔ v ∈ g.boundVars
        ∧ ∀ before, g.Walk b before → v ∈ g.boundIn before ∨ v ∈ block.boundAt place := by
  rw [← h.isDefined_iff, isDefined_iff_site]
  rcases hv : g.site? v with _ | site
  · simp [checkUse, hv]
  by_cases hne : site = .deleted
  · subst hne
    simp [checkUse, hv]
  have hsite : (∃ site', some site = some site' ∧ site' ≠ .deleted) := ⟨site, rfl, hne⟩
  -- a site is asked whether it reaches the place only in a block that is reached
  have hcheck : ∀ doms : Option (List BlockId), g.checkUse b place doms v = .ok ()
      ↔ ∀ ds, doms = some ds → site.reaches b place ds = true := by
    intro doms
    rcases doms with _ | ds
    · cases site <;> simp_all [checkUse]
    · cases site <;> simp_all [checkUse]
  rw [hcheck, and_iff_right hsite]
  by_cases hlive : b ∈ g.reachable
  · have hreached := ((mem_reachable g b).1 hlive).2
    rw [if_pos (List.contains_iff_mem.2 hlive),
      ← h.reaches_iff hv hne hb hreached (mem_dominators hlive)]
    exact ⟨fun h => h _ rfl, fun h ds hds => Option.some.inj hds ▸ h⟩
  · rw [if_neg fun hcon => hlive (List.contains_iff_mem.1 hcon)]
    refine ⟨fun _ before hw => absurd ?_ hlive, nofun⟩
    exact (mem_reachable g b).2 ⟨lt_size_of_block? hb, before, hw⟩

end Sites

/-- The uses of all blocks are accepted exactly if everything that is read is bound before on every
walk. -/
theorem Coherent.verifyUses_eq_ok (h : g.Coherent) : g.verifyUses = .ok () ↔ g.WellUsed := by
  -- the check goes over places, and `WellUsed` says the same with the uses of a block together
  have hblocks : g.verifyUses = .ok () ↔ ∀ b block, g.block? b = some block →
      (∀ i w s, block.body[i]? = some (w, s) → ∀ v ∈ s.uses, v ∈ g.boundVars
        ∧ ∀ before, g.Walk b before → v ∈ g.boundIn before ∨ v ∈ block.boundAt (some i))
      ∧ ∀ br ∈ block.branches, ∀ v ∈ br.uses, v ∈ g.boundVars
        ∧ ∀ before, g.Walk b before → v ∈ g.boundIn before ∨ v ∈ block.boundAt none := by
    unfold verifyUses
    rw [forM_eq_ok, Prod.forall]
    refine forall_congr' fun b => forall_congr' fun block => ?_
    rw [mem_indexedBlocks]
    refine imp_congr_right fun hb => ?_
    simp only [checkBlockUses, check_eq_ok, forM_eq_ok, h.checkUse_eq_ok hb]
    refine and_congr ?_ Iff.rfl
    simp only [Prod.forall, List.mem_zipIdx_iff_getElem?]
    exact ⟨fun h i w s hi => h w s i hi, fun h w s i hi => h i w s hi⟩
  rw [hblocks]
  constructor
  · intro hall
    refine ⟨fun b block hb v hv => ?_, fun b block before hb hw i w s hi v hv =>
      ((hall b block hb).1 i w s hi v hv).2 before hw, fun b block before hb hw br hbr v hv =>
      ((hall b block hb).2 br hbr v hv).2 before hw⟩
    rcases List.mem_append.1 hv with hbody | hbranch
    · obtain ⟨⟨w, s⟩, hmem, hv⟩ := List.mem_flatMap.1 hbody
      obtain ⟨i, hi⟩ := List.mem_iff_getElem?.1 hmem
      exact ((hall b block hb).1 i w s hi v hv).1
    · obtain ⟨br, hbr, hv⟩ := List.mem_flatMap.1 hbranch
      exact ((hall b block hb).2 br hbr v hv).1
  · intro hused b block hb
    refine ⟨fun i w s hi v hv =>
      ⟨?_, fun before hw => hused.statement b block before hb hw i w s hi v hv⟩,
      fun br hbr v hv => ⟨?_, fun before hw => hused.branch b block before hb hw br hbr v hv⟩⟩
    · refine hused.bound b block hb v (List.mem_append_left _ ?_)
      exact List.mem_flatMap.2 ⟨(w, s), List.mem_iff_getElem?.2 ⟨i, hi⟩, hv⟩
    · exact hused.bound b block hb v (List.mem_append_right _ (List.mem_flatMap.2 ⟨br, hbr, hv⟩))

/-! ## The check -/

/-- A graph whose table agrees with its blocks is accepted exactly if it is well formed. -/
theorem Coherent.verify_eq_ok (h : g.Coherent) : g.verify = .ok () ↔ g.WellFormed := by
  unfold verify
  rw [check_eq_ok, forM_checkEnd_eq_ok, h.verifyUses_eq_ok]
  exact ⟨fun ⟨hends, huses⟩ => ⟨hends, huses⟩, fun hg => ⟨hg.toWellEnded, hg.toWellUsed⟩⟩

/-- **The check is exact.** However a graph was built, `verify` accepts it if and only if every
block ends in its one unconditional branch, every branch is balanced, every variable that is read is
bound, and every walk from the entry to a use passes the definition first. -/
theorem verify_exact (h : Built g) : g.verify = .ok () ↔ g.WellFormed :=
  h.coherent.verify_eq_ok

/-- A graph whose entry calls its parameter with no arguments and goes back to itself with the
result as long as that is true. -/
def callLoop : Graph where
  sites := #[.param .entry 0, .statement .entry 0]
  blocks := #[
    ⟨[(⟨0⟩, .any)], [(⟨1⟩, .plain (.call (.var ⟨0⟩) []))],
      [(Branch.jump ⟨1⟩ []).whenFalse ⟨1⟩, .jump .entry [.var ⟨1⟩]]⟩,
    ⟨[], [], [.leave (.var ⟨1⟩)]⟩]
  lines := []
  provenance := none

theorem built_callLoop : callLoop.Built := by
  have hparam : Built ⟨#[.param .entry 0], #[⟨[(⟨0⟩, .any)], [], []⟩], [], none⟩ :=
    Built.empty.addParam (show Graph.empty.addParam .entry .any = .ok (_, ⟨0⟩) by cbv)
  have hcall : Built ⟨#[.param .entry 0, .statement .entry 0],
      #[⟨[(⟨0⟩, .any)], [(⟨1⟩, .plain (.call (.var ⟨0⟩) []))], []⟩], [], none⟩ :=
    hparam.pushTo (b := .entry) (s := .plain (.call (.var ⟨0⟩) [])) (v := ⟨1⟩) (by cbv)
  have hexit : Built ⟨#[.param .entry 0, .statement .entry 0],
      #[⟨[(⟨0⟩, .any)], [(⟨1⟩, .plain (.call (.var ⟨0⟩) []))],
        [(Branch.jump ⟨1⟩ []).whenFalse ⟨1⟩]⟩, .empty], [], none⟩ :=
    hcall.addBlock.addBranch
      (show branchUnless _ .entry ⟨1⟩ [] ⟨1⟩ = .ok _ by cbv)
  have hback : Built ⟨#[.param .entry 0, .statement .entry 0],
      #[⟨[(⟨0⟩, .any)], [(⟨1⟩, .plain (.call (.var ⟨0⟩) []))],
        [(Branch.jump ⟨1⟩ []).whenFalse ⟨1⟩, .jump .entry [.var ⟨1⟩]]⟩, .empty], [], none⟩ :=
    hexit.addBranch (show branchTo _ .entry .entry [.var ⟨1⟩] = .ok _ by cbv)
  exact hback.addBranch (show leaveWith _ ⟨1⟩ (.var ⟨1⟩) = .ok _ by cbv)

theorem verify_callLoop : callLoop.verify = .ok () := by cbv

/-- The loop through the entry is in order, although it leads back to the place where its parameter
is bound. -/
theorem wellFormed_callLoop : callLoop.Built ∧ callLoop.WellFormed :=
  ⟨built_callLoop, (verify_exact built_callLoop).1 verify_callLoop⟩

end Graph

end Interpose
