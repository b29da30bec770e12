import Interpose.Graph.Canonical

/-!
# The table of sites agrees with the blocks

The sites of a graph repeat what its blocks say: which variable is bound where. The variables of a
block stand in two rows, its parameters and its statements. A graph is *coherent* when the table
gives a variable the site of row `r` and position `i` exactly if that is where the row has it. Then
a variable is bound at most once, and a variable that is bound nowhere is deleted.

Edits touch one row: an insertion and a removal number the rest of the row again. The lemmas here
are about a table and a listing of rows, so that every edit can use them whatever else it changes.
-/

set_option autoImplicit false

namespace Interpose

/-- Variables of one number are the same. -/
theorem Variable.index_inj {v w : Variable} : v.index = w.index ↔ v = w := by
  cases v
  cases w
  simp

/-- A row of variables: the parameters or the statements of a block. -/
inductive Row where
  | params (b : BlockId)
  | body (b : BlockId)
deriving DecidableEq

namespace Row

/-- The site of a position in the row. -/
def site : Row → Nat → Site
  | .params b, i => .param b i
  | .body b, i => .statement b i

/-- The block of the row. -/
def block : Row → BlockId
  | .params b | .body b => b

/-- A site is that of one row and one position. -/
@[simp] theorem site_inj {r s : Row} {i j : Nat} : r.site i = s.site j ↔ r = s ∧ i = j := by
  cases r <;> cases s <;> simp [site]

/-- No position has the site of a deleted variable. -/
@[simp] theorem site_ne_deleted (r : Row) (i : Nat) : r.site i ≠ .deleted := by
  cases r <;> simp [site]

/-- Every site is deleted or that of a position. -/
theorem eq_site (s : Site) : s = .deleted ∨ ∃ (r : Row) (i : Nat), s = r.site i := by
  cases s with
  | param b i => exact .inr ⟨.params b, i, rfl⟩
  | statement b i => exact .inr ⟨.body b, i, rfl⟩
  | deleted => exact .inl rfl

end Row

/-- The table gives a variable the site of a row and a position exactly if the row has it there. -/
def Agrees (sites : Array Site) (rows : Row → List Variable) : Prop :=
  ∀ (v : Variable) (r : Row) (i : Nat), sites[v.index]? = some (r.site i) ↔ (rows r)[i]? = some v

namespace Graph

/-! ## Numbering a list of variables -/

/-- A variable that is not in the list keeps its site. -/
theorem number_of_notMem (site : Nat → Site) (start : Nat) (vars : List Variable)
    (sites : Array Site) (v : Variable) (h : v ∉ vars) :
    (number site start vars sites)[v.index]? = sites[v.index]? := by
  induction vars generalizing start sites with
  | nil => rfl
  | cons w vars ih =>
    have hindex : w.index ≠ v.index := fun heq =>
      List.ne_of_not_mem_cons h (Variable.index_inj.1 heq).symm
    rw [number, ih _ _ (List.not_mem_of_not_mem_cons h), Array.getElem?_setIfInBounds_ne hindex]

/-- A variable of the list gets the site of its position. -/
theorem number_of_getElem? (site : Nat → Site) (start : Nat) (vars : List Variable)
    (sites : Array Site) (hnd : vars.Nodup) (v : Variable) (j : Nat) (h : vars[j]? = some v)
    (hlt : v.index < sites.size) :
    (number site start vars sites)[v.index]? = some (site (start + j)) := by
  induction vars generalizing start sites j with
  | nil => simp at h
  | cons w vars ih =>
    obtain ⟨hw, hnd⟩ := List.nodup_cons.1 hnd
    cases j with
    | zero =>
      obtain rfl : w = v := by simpa using h
      rw [number, number_of_notMem _ _ _ _ _ hw, Array.getElem?_setIfInBounds_self]
      simp [hlt]
    | succ j =>
      rw [number, ih (start + 1) _ hnd j (by simpa using h) (by simpa using hlt)]
      congr 2
      omega

/-- Numbering does not touch a variable that is not in the list. -/
theorem setIfInBounds_number (site : Nat → Site) (start : Nat) (vars : List Variable)
    (sites : Array Site) {d : Variable} (hd : d ∉ vars) (x : Site) :
    (number site start vars sites).setIfInBounds d.index x
      = number site start vars (sites.setIfInBounds d.index x) := by
  induction vars generalizing start sites with
  | nil => rfl
  | cons w vars ih =>
    have hindex : w.index ≠ d.index :=
      fun heq => List.ne_of_not_mem_cons hd (Variable.index_inj.1 heq).symm
    rw [number, number, ih _ _ (List.not_mem_of_not_mem_cons hd),
      Array.setIfInBounds_comm _ _ hindex]

/-! ## Rows of a graph -/

/-- The variables of a row, none for a block that does not exist. -/
def row (g : Graph) : Row → List Variable
  | .params b => (g.block? b).elim [] Block.paramVars
  | .body b => (g.block? b).elim [] Block.bodyVars

/-- The table of the graph agrees with its blocks. -/
def Coherent (g : Graph) : Prop := Agrees g.sites g.row

end Graph

/-! ## What agreement gives -/

namespace Agrees

variable {sites : Array Site} {rows : Row → List Variable}

/-- A variable stands at one position of one row. -/
theorem unique (h : Agrees sites rows) {v : Variable} {r s : Row} {i j : Nat}
    (hi : (rows r)[i]? = some v) (hj : (rows s)[j]? = some v) : r = s ∧ i = j := by
  have hsite := (h v r i).2 hi
  rw [(h v s j).2 hj] at hsite
  have := Option.some.inj hsite
  simpa [eq_comm] using this

/-- No row has a variable twice. -/
theorem nodup (h : Agrees sites rows) (r : Row) : (rows r).Nodup := by
  refine List.pairwise_iff_getElem.2 fun i j hi hj hij heq => ?_
  have hv := List.getElem?_eq_getElem hj
  have := (h.unique ((List.getElem?_eq_getElem hi).trans (heq ▸ rfl)) hv).2
  omega

/-- A variable of a row was handed out. -/
theorem lt_size (h : Agrees sites rows) {v : Variable} {r : Row} (hv : v ∈ rows r) :
    v.index < sites.size := by
  obtain ⟨i, hi⟩ := List.mem_iff_getElem?.1 hv
  have hsite := (h v r i).2 hi
  exact (Array.getElem?_eq_some_iff.1 hsite).1

/-- A table that has the site of every position, and a deleted variable for what no row has,
agrees. -/
theorem of_sites (hpos : ∀ (r : Row) (i : Nat) (v : Variable), (rows r)[i]? = some v →
      sites[v.index]? = some (r.site i))
    (hbound : ∀ (v : Variable) (r : Row) (i : Nat), sites[v.index]? = some (r.site i) →
      ∃ s, v ∈ rows s) : Agrees sites rows := by
  intro v r i
  refine ⟨fun h => ?_, hpos r i v⟩
  obtain ⟨s, hs⟩ := hbound v r i h
  obtain ⟨j, hj⟩ := List.mem_iff_getElem?.1 hs
  have hsame := hpos s j v hj
  rw [h] at hsame
  obtain ⟨rfl, rfl⟩ := Row.site_inj.1 (Option.some.inj hsame)
  exact hj

section Renumber

variable {rows' : Row → List Variable} {r : Row} {front old rest : List Variable}
  {sites' : Array Site}

/-- **The rest of a row is numbered again.** The row had `old` behind its front and has `rest`
there, and the other rows stay. The table is numbered from the end of the front, after it was
changed for variables of these two lists only. -/
theorem renumber (h : Agrees sites rows) (hr : rows r = front ++ old)
    (hrow : rows' r = front ++ rest) (hsame : ∀ s, s ≠ r → rows' s = rows s) (hnd : rest.Nodup)
    (hlt : ∀ v ∈ rest, v.index < sites'.size) (hfresh : ∀ v ∈ rest, v ∈ old ∨ ∀ s, v ∉ rows s)
    (hkept : ∀ v, v ∉ old → v ∉ rest → sites'[v.index]? = sites[v.index]?)
    (hgone : ∀ v ∈ old, v ∉ rest → ∀ s i, sites'[v.index]? ≠ some (Row.site s i)) :
    Agrees (Graph.number r.site front.length rest sites') rows' := by
  obtain ⟨-, -, hdisj⟩ := List.nodup_append.1 (hr ▸ h.nodup r)
  have hmemOld : ∀ {v}, v ∈ old → v ∈ rows r := fun hv => hr ▸ List.mem_append_right front hv
  have hunique : ∀ {s v}, v ∈ rows s → v ∈ old → s = r := by
    intro s v hs hv
    obtain ⟨i, hi⟩ := List.mem_iff_getElem?.1 hs
    obtain ⟨j, hj⟩ := List.mem_iff_getElem?.1 (hmemOld hv)
    exact (h.unique hi hj).1
  -- what stands elsewhere, or in the front of the row, has the site that it had
  have hstays : ∀ {s i v}, (rows s)[i]? = some v → v ∉ old →
      (Graph.number r.site front.length rest sites')[v.index]? = some (s.site i) := by
    intro s i v hi hold
    have hrest : v ∉ rest :=
      fun hv => (hfresh v hv).elim hold fun hnone => hnone s (List.mem_iff_getElem?.2 ⟨i, hi⟩)
    rw [Graph.number_of_notMem _ _ _ _ _ hrest, hkept v hold hrest]
    exact (h v s i).2 hi
  refine of_sites (fun s i v hi => ?_) fun v s i hsite => ?_
  · by_cases hs : s = r
    · subst hs
      rw [hrow] at hi
      by_cases hfront : i < front.length
      · rw [List.getElem?_append_left hfront] at hi
        refine hstays (by rw [hr, List.getElem?_append_left hfront, hi]) fun hv => ?_
        exact hdisj v (List.mem_iff_getElem?.2 ⟨i, hi⟩) v hv rfl
      · rw [List.getElem?_append_right (Nat.le_of_not_lt hfront)] at hi
        have hlt' := hlt v (List.mem_iff_getElem?.2 ⟨_, hi⟩)
        rw [Graph.number_of_getElem? _ _ _ _ hnd v _ hi hlt',
          Nat.add_sub_cancel' (Nat.le_of_not_lt hfront)]
    · rw [hsame s hs] at hi
      exact hstays hi fun hv => hs (hunique (List.mem_iff_getElem?.2 ⟨i, hi⟩) hv)
  · by_cases hrest : v ∈ rest
    · exact ⟨r, hrow ▸ List.mem_append_right front hrest⟩
    rw [Graph.number_of_notMem _ _ _ _ _ hrest] at hsite
    have hold : v ∉ old := fun hv => hgone v hv hrest s i hsite
    rw [hkept v hold hrest] at hsite
    have hmem := List.mem_iff_getElem?.2 ⟨i, (h v s i).1 hsite⟩
    refine ⟨s, ?_⟩
    by_cases hs : s = r
    · subst hs
      rw [hr] at hmem
      exact hrow ▸ List.mem_append_left rest ((List.mem_append.1 hmem).resolve_right hold)
    · exact hsame s hs ▸ hmem

end Renumber

/-- **Insertion.** A row that gets the next variable at a position agrees with the table in which
the rest of the row is numbered again. -/
theorem insert (h : Agrees sites rows) (r : Row) (front back : List Variable)
    (hr : rows r = front ++ back) (rows' : Row → List Variable)
    (hsame : ∀ s, s ≠ r → rows' s = rows s) (hrow : rows' r = front ++ ⟨sites.size⟩ :: back)
    (filler : Site) :
    Agrees (Graph.number r.site front.length (⟨sites.size⟩ :: back) (sites.push filler)) rows' := by
  have hnew : ∀ s, (⟨sites.size⟩ : Variable) ∉ rows s :=
    fun s hmem => Nat.lt_irrefl _ (h.lt_size hmem)
  have hback : back ⊆ rows r := fun v hv => hr ▸ List.mem_append_right front hv
  refine h.renumber hr hrow hsame ?_ ?_ ?_ ?_ ?_
  · exact List.nodup_cons.2 ⟨fun hmem => hnew r (hback hmem),
      (List.nodup_append.1 (hr ▸ h.nodup r)).2.1⟩
  · rw [Array.size_push, List.forall_mem_cons]
    exact ⟨Nat.lt_succ_self _, fun v hv => Nat.lt_succ_of_lt (h.lt_size (hback hv))⟩
  · exact List.forall_mem_cons.2 ⟨.inr hnew, fun v hv => .inl hv⟩
  · intro v _ hrest
    have hindex : v.index ≠ sites.size :=
      fun heq => List.ne_of_not_mem_cons hrest (Variable.index_inj.1 heq)
    rw [Array.getElem?_push, if_neg hindex]
  · exact fun v hv hrest => absurd (List.mem_cons_of_mem _ hv) hrest

/-- **Removal.** A row that loses the variable at a position agrees with the table in which the rest
of the row is numbered again and the variable is deleted. -/
theorem erase (h : Agrees sites rows) (r : Row) (front back : List Variable) (d : Variable)
    (hr : rows r = front ++ d :: back) (rows' : Row → List Variable)
    (hsame : ∀ s, s ≠ r → rows' s = rows s) (hrow : rows' r = front ++ back) :
    Agrees ((Graph.number r.site front.length back sites).setIfInBounds d.index .deleted)
      rows' := by
  obtain ⟨hdback, hback⟩ := List.nodup_cons.1 (List.nodup_append.1 (hr ▸ h.nodup r)).2.1
  -- it comes to the same if the variable is deleted first
  rw [Graph.setIfInBounds_number _ _ _ _ hdback]
  refine h.renumber hr hrow hsame hback ?_ ?_ ?_ ?_
  · intro v hv
    rw [Array.size_setIfInBounds]
    exact h.lt_size (hr ▸ List.mem_append_right front (List.mem_cons_of_mem d hv))
  · exact fun v hv => .inl (List.mem_cons_of_mem d hv)
  · intro v hold _
    have hindex : d.index ≠ v.index :=
      fun heq => List.ne_of_not_mem_cons hold (Variable.index_inj.1 heq).symm
    rw [Array.getElem?_setIfInBounds_ne hindex]
  · intro v hv hrest s i hsite
    obtain rfl := (List.mem_cons.1 hv).resolve_right hrest
    rw [Array.getElem?_setIfInBounds_self] at hsite
    split at hsite
    · exact Row.site_ne_deleted s i (Option.some.inj hsite).symm
    · cases hsite

end Agrees

/-! ## Reading the table off the blocks -/

namespace Graph

/-- The block that a row of the graph belongs to. -/
theorem row_params_of_block? {g : Graph} {b : BlockId} {block : Block}
    (h : g.block? b = some block) : g.row (.params b) = block.paramVars := by
  rw [row, h]
  rfl

theorem row_body_of_block? {g : Graph} {b : BlockId} {block : Block} (h : g.block? b = some block) :
    g.row (.body b) = block.bodyVars := by
  rw [row, h]
  rfl

/-- A variable of a row is bound in the block of the row. -/
theorem mem_row {g : Graph} {r : Row} {v : Variable} (h : v ∈ g.row r) :
    ∃ block, g.block? r.block = some block ∧ v ∈ block.boundVars := by
  cases r with
  | params b =>
    cases hb : g.block? b with
    | none => simp [row, hb] at h
    | some block =>
      rw [row_params_of_block? hb] at h
      exact ⟨block, hb, List.mem_append_left _ h⟩
  | body b =>
    cases hb : g.block? b with
    | none => simp [row, hb] at h
    | some block =>
      rw [row_body_of_block? hb] at h
      exact ⟨block, hb, List.mem_append_right _ h⟩

/-- A variable that is bound in a block stands in a row of the block. -/
theorem mem_row_of_mem_boundVars {g : Graph} {b : BlockId} {block : Block} {v : Variable}
    (hb : g.block? b = some block) (h : v ∈ block.boundVars) :
    v ∈ g.row (.params b) ∨ v ∈ g.row (.body b) := by
  rw [row_params_of_block? hb, row_body_of_block? hb]
  exact List.mem_append.1 h

/-- What a block of the graph binds is bound in the graph. -/
theorem mem_boundVars_of_block? {g : Graph} {b : BlockId} {block : Block} {v : Variable}
    (hb : g.block? b = some block) (h : v ∈ block.boundVars) : v ∈ g.boundVars := by
  refine List.mem_flatMap.2 ⟨block, List.mem_iff_getElem?.2 ⟨b.index, ?_⟩, h⟩
  simpa [block?] using hb

/-- The sites that blocks give to a table, from the block number `k` on. -/
def sitesFrom (blocks : List Block) (k : Nat) (sites : Array Site) : Array Site :=
  (blocks.zipIdx k).foldl
    (fun sites (b, i) =>
      number (.statement ⟨i⟩) 0 b.bodyVars (number (.param ⟨i⟩) 0 b.paramVars sites))
    sites

theorem sitesFrom_cons (block : Block) (blocks : List Block) (k : Nat) (sites : Array Site) :
    sitesFrom (block :: blocks) k sites
      = sitesFrom blocks (k + 1) (number (.statement ⟨k⟩) 0 block.bodyVars
          (number (.param ⟨k⟩) 0 block.paramVars sites)) := by
  simp [sitesFrom, List.zipIdx_cons]

@[simp] theorem size_sitesFrom (blocks : List Block) (k : Nat) (sites : Array Site) :
    (sitesFrom blocks k sites).size = sites.size := by
  induction blocks generalizing k sites with
  | nil => rfl
  | cons block blocks ih => simp [sitesFrom_cons, ih]

/-- Reading the table off the blocks keeps the counter. -/
@[simp] theorem size_sitesOf (count : Nat) (blocks : Array Block) :
    (sitesOf count blocks).size = count := by
  have hfrom : sitesOf count blocks = sitesFrom blocks.toList 0 (Array.replicate count .deleted) :=
    rfl
  rw [hfrom, size_sitesFrom, Array.size_replicate]

/-- A variable that no block binds keeps its site. -/
theorem sitesFrom_of_notMem (blocks : List Block) (k : Nat) (sites : Array Site) (v : Variable)
    (h : v ∉ blocks.flatMap Block.boundVars) :
    (sitesFrom blocks k sites)[v.index]? = sites[v.index]? := by
  induction blocks generalizing k sites with
  | nil => rfl
  | cons block blocks ih =>
    simp only [List.flatMap_cons, Block.boundVars, List.mem_append, not_or] at h
    rw [sitesFrom_cons, ih _ _ h.2, number_of_notMem _ _ _ _ _ h.1.2,
      number_of_notMem _ _ _ _ _ h.1.1]

/-- A variable that a block binds gets the site of its position there. The later blocks do not bind
it again, so they leave the site. -/
theorem sitesFrom_of_getElem? (blocks : List Block) (k : Nat) (sites : Array Site)
    (hnd : (blocks.flatMap Block.boundVars).Nodup)
    (hlt : ∀ v ∈ blocks.flatMap Block.boundVars, v.index < sites.size)
    (j : Nat) (block : Block) (hj : blocks[j]? = some block) (v : Variable) (i : Nat) :
    (block.paramVars[i]? = some v → (sitesFrom blocks k sites)[v.index]? = some (.param ⟨k + j⟩ i))
      ∧ (block.bodyVars[i]? = some v →
          (sitesFrom blocks k sites)[v.index]? = some (.statement ⟨k + j⟩ i)) := by
  induction blocks generalizing k sites j with
  | nil => simp at hj
  | cons first blocks ih =>
    rw [List.flatMap_cons] at hnd hlt
    obtain ⟨hfirst, hrest, hdisj⟩ := List.nodup_append.1 hnd
    obtain ⟨hparams, hbody, hpb⟩ := List.nodup_append.1 hfirst
    rw [sitesFrom_cons]
    cases j with
    | succ j =>
      have hidx : k + (j + 1) = k + 1 + j := by omega
      rw [hidx]
      exact ih (k + 1) _ hrest (fun w hw => by simpa using hlt w (List.mem_append_right _ hw)) j
        (by simpa using hj)
    | zero =>
      obtain rfl : first = block := by simpa using hj
      -- the table is written block by block, and the last writer of a variable is the block that
      -- binds it
      have hlater : v ∈ first.boundVars → v ∉ blocks.flatMap Block.boundVars :=
        fun hv hv' => hdisj v hv v hv' rfl
      refine ⟨fun hi => ?_, fun hi => ?_⟩
      · have hmem : v ∈ first.paramVars := List.mem_iff_getElem?.2 ⟨i, hi⟩
        have hv : v ∈ first.boundVars := List.mem_append_left _ hmem
        rw [sitesFrom_of_notMem _ _ _ _ (hlater hv),
          number_of_notMem _ _ _ _ _ fun hvb => hpb v hmem v hvb rfl,
          number_of_getElem? _ _ _ _ hparams v i hi (hlt v (List.mem_append_left _ hv)),
          Nat.zero_add]
        rfl
      · have hmem : v ∈ first.bodyVars := List.mem_iff_getElem?.2 ⟨i, hi⟩
        have hv : v ∈ first.boundVars := List.mem_append_right _ hmem
        rw [sitesFrom_of_notMem _ _ _ _ (hlater hv),
          number_of_getElem? _ _ _ _ hbody v i hi
            (by simpa using hlt v (List.mem_append_left _ hv)), Nat.zero_add]
        rfl

/-- **The table read off the blocks agrees with them**, if no variable is bound twice and every
bound one is within the counter. -/
theorem coherent_of_sitesOf {g : Graph} {count : Nat} (hsites : g.sites = sitesOf count g.blocks)
    (hnd : g.boundVars.Nodup) (hlt : ∀ v ∈ g.boundVars, v.index < count) : g.Coherent := by
  have hfrom : g.sites = sitesFrom g.blocks.toList 0 (Array.replicate count .deleted) := hsites
  have hlt' : ∀ v ∈ g.blocks.toList.flatMap Block.boundVars,
      v.index < (Array.replicate count Site.deleted).size := by
    intro v hv
    rw [Array.size_replicate]
    exact hlt v hv
  unfold Coherent
  rw [hfrom]
  refine Agrees.of_sites ?_ ?_
  · intro r i v hi
    obtain ⟨block, hb, -⟩ := mem_row (List.mem_iff_getElem?.2 ⟨i, hi⟩)
    have hblock : g.blocks.toList[r.block.index]? = some block := by simpa [block?] using hb
    have hpos := sitesFrom_of_getElem? _ 0 _ hnd hlt' _ _ hblock v i
    rw [Nat.zero_add] at hpos
    cases r with
    | params b => exact hpos.1 (row_params_of_block? (b := b) hb ▸ hi)
    | body b => exact hpos.2 (row_body_of_block? (b := b) hb ▸ hi)
  · intro v r i hsite
    by_cases hv : v ∈ g.blocks.toList.flatMap Block.boundVars
    · obtain ⟨block, hmem, hv⟩ := List.mem_flatMap.1 hv
      obtain ⟨j, hj⟩ := List.mem_iff_getElem?.1 hmem
      have hb : g.block? ⟨j⟩ = some block := by simpa [block?] using hj
      rcases mem_row_of_mem_boundVars hb hv with h | h
      · exact ⟨_, h⟩
      · exact ⟨_, h⟩
    · -- what no block binds was deleted when the table was begun, and stays so
      rw [sitesFrom_of_notMem _ _ _ _ hv] at hsite
      have hdeleted := Array.mem_replicate.1 (Array.mem_of_getElem? hsite)
      exact absurd hdeleted.2 (Row.site_ne_deleted r i)

/-! ## What coherence gives -/

/-- Lists of variables, one for every block, that have no variable twice and are all below a
count. -/
structure Separate (claim : Nat → List Variable) (count : Nat) : Prop where
  nodup : ∀ i, (claim i).Nodup
  disjoint : ∀ {i j : Nat} {v : Variable}, v ∈ claim i → v ∈ claim j → i = j
  lt : ∀ {i : Nat} {v : Variable}, v ∈ claim i → v.index < count

namespace Separate

variable {claim claim' : Nat → List Variable} {count : Nat}

/-- Parts of separate lists are separate. -/
theorem sublist (h : Separate claim count) (hsub : ∀ i, (claim' i).Sublist (claim i)) :
    Separate claim' count where
  nodup i := (h.nodup i).sublist (hsub i)
  disjoint hi hj := h.disjoint ((hsub _).subset hi) ((hsub _).subset hj)
  lt hv := h.lt ((hsub _).subset hv)

theorem mono (h : Separate claim count) {count' : Nat} (hle : count ≤ count') :
    Separate claim count' where
  nodup := h.nodup
  disjoint := h.disjoint
  lt hv := Nat.lt_of_lt_of_le (h.lt hv) hle

/-- The next variable may be added to one of the lists. -/
theorem insert (h : Separate claim count) (i : Nat) (front back : List Variable)
    (hi : claim i = front ++ back) (hi' : claim' i = front ++ ⟨count⟩ :: back)
    (hsame : ∀ j, j ≠ i → claim' j = claim j) : Separate claim' (count + 1) := by
  -- the new variable is in one list, and what else is there was there before
  have hmem : ∀ {j : Nat} {v : Variable}, v ∈ claim' j → v ∈ claim j ∨ (j = i ∧ v = ⟨count⟩) := by
    intro j v hv
    by_cases hj : j = i
    · subst hj
      rw [hi'] at hv
      rw [hi]
      simpa [or_comm, or_left_comm, or_assoc] using hv
    · exact .inl (hsame j hj ▸ hv)
  have hnew : ∀ {j : Nat} {v : Variable}, v ∈ claim j → v ≠ ⟨count⟩ := by
    rintro j v hv rfl
    exact Nat.lt_irrefl _ (h.lt hv)
  refine ⟨fun j => ?_, fun hj hk => ?_, fun hv => ?_⟩
  · by_cases hj : j = i
    · subst hj
      have hnd := hi ▸ h.nodup j
      have hfront : (⟨count⟩ : Variable) ∉ front := fun hv =>
        hnew (hi ▸ List.mem_append_left back hv) rfl
      have hback : (⟨count⟩ : Variable) ∉ back := fun hv =>
        hnew (hi ▸ List.mem_append_right front hv) rfl
      rw [hi', List.perm_middle.nodup_iff]
      exact List.nodup_cons.2 ⟨by simp [hfront, hback], hnd⟩
    · rw [hsame j hj]
      exact h.nodup j
  · rcases hmem hj with hj | ⟨rfl, rfl⟩
    · rcases hmem hk with hk | ⟨-, rfl⟩
      · exact h.disjoint hj hk
      · exact absurd rfl (hnew hj)
    · rcases hmem hk with hk | ⟨rfl, -⟩
      · exact absurd rfl (hnew hk)
      · rfl
  · rcases hmem hv with hv | ⟨-, rfl⟩
    · exact Nat.lt_succ_of_lt (h.lt hv)
    · exact Nat.lt_succ_self _

/-- Blocks that bind no more than separate lists bind no variable twice. -/
theorem nodup_flatMap (h : Separate claim count) {blocks : List Block}
    (hsub : ∀ (i : Nat) (block : Block), blocks[i]? = some block →
      block.boundVars.Sublist (claim i)) :
    (blocks.flatMap Block.boundVars).Nodup := by
  refine List.pairwise_flatMap.2 ⟨fun block hmem => ?_, ?_⟩
  · obtain ⟨i, hi⟩ := List.mem_iff_getElem?.1 hmem
    exact (h.nodup i).sublist (hsub i block hi)
  · refine List.pairwise_iff_getElem.2 fun i j hi hj hij => ?_
    rintro v hv w hw rfl
    have hvi := (hsub i _ (List.getElem?_eq_getElem hi)).subset hv
    have hvj := (hsub j _ (List.getElem?_eq_getElem hj)).subset hw
    have := h.disjoint hvi hvj
    omega

/-- Nor do they bind a variable that is not below the count. -/
theorem lt_of_mem_flatMap (h : Separate claim count) {blocks : List Block}
    (hsub : ∀ (i : Nat) (block : Block), blocks[i]? = some block →
      block.boundVars.Sublist (claim i)) {v : Variable}
    (hv : v ∈ blocks.flatMap Block.boundVars) : v.index < count := by
  obtain ⟨block, hmem, hv⟩ := List.mem_flatMap.1 hv
  obtain ⟨i, hi⟩ := List.mem_iff_getElem?.1 hmem
  exact h.lt ((hsub i block hi).subset hv)

end Separate

namespace Coherent

variable {g : Graph}

/-- A bound variable stands in some row. -/
theorem mem_boundVars_iff (g : Graph) (v : Variable) : v ∈ g.boundVars ↔ ∃ r, v ∈ g.row r := by
  constructor
  · intro hv
    obtain ⟨block, hmem, hv⟩ := List.mem_flatMap.1 hv
    obtain ⟨j, hj⟩ := List.mem_iff_getElem?.1 hmem
    have hb : g.block? ⟨j⟩ = some block := by simpa [block?] using hj
    rcases mem_row_of_mem_boundVars hb hv with h | h
    · exact ⟨_, h⟩
    · exact ⟨_, h⟩
  · rintro ⟨r, hr⟩
    obtain ⟨block, hb, hv⟩ := mem_row hr
    have hmem : block ∈ g.blocks.toList := by
      refine List.mem_iff_getElem?.2 ⟨r.block.index, ?_⟩
      simpa [block?] using hb
    exact List.mem_flatMap.2 ⟨block, hmem, hv⟩

/-- The statement that a site of the table belongs to. -/
theorem statement_of_site (h : g.Coherent) {v : Variable} {b : BlockId} {i : Nat}
    (hv : g.site? v = some (.statement b i)) :
    ∃ block s, g.block? b = some block ∧ block.body[i]? = some (v, s) := by
  have hi : (g.row (.body b))[i]? = some v := (h v (.body b) i).1 hv
  obtain ⟨block, hb, -⟩ := mem_row (List.mem_iff_getElem?.2 ⟨i, hi⟩)
  replace hb : g.block? b = some block := hb
  rw [row_body_of_block? hb, Block.bodyVars, List.getElem?_map] at hi
  obtain ⟨⟨w, s⟩, hentry, rfl⟩ := Option.map_eq_some_iff.1 hi
  exact ⟨block, s, hb, hentry⟩

/-- In a coherent graph every bound variable was handed out. -/
theorem lt_varCount (h : g.Coherent) {v : Variable} (hv : v ∈ g.boundVars) :
    v.index < g.varCount := by
  obtain ⟨r, hr⟩ := (mem_boundVars_iff g v).1 hv
  exact Agrees.lt_size h hr

/-- In a coherent graph the blocks bind different variables. -/
theorem separate (h : g.Coherent) :
    Separate (fun i => (g.blocks[i]?).elim [] Block.boundVars) g.varCount := by
  have hrows : ∀ {i : Nat} {v : Variable}, v ∈ (g.blocks[i]?).elim [] Block.boundVars →
      v ∈ g.row (.params ⟨i⟩) ∨ v ∈ g.row (.body ⟨i⟩) := by
    intro i v hv
    rcases hb : g.blocks[i]? with _ | block
    · simp [hb] at hv
    · rw [hb] at hv
      exact mem_row_of_mem_boundVars (b := ⟨i⟩) hb hv
  -- a variable that stands in two rows would have two sites
  have hblock : ∀ {r s : Row} {v : Variable}, v ∈ g.row r → v ∈ g.row s → r = s := by
    intro r s v hr hs
    obtain ⟨k, hk⟩ := List.mem_iff_getElem?.1 hr
    obtain ⟨l, hl⟩ := List.mem_iff_getElem?.1 hs
    exact (Agrees.unique h hk hl).1
  refine ⟨fun i => ?_, fun hi hj => ?_, fun hv => ?_⟩
  · rcases hb : g.blocks[i]? with _ | block
    · exact .nil
    · have hparams := row_params_of_block? (b := ⟨i⟩) hb
      have hbody := row_body_of_block? (b := ⟨i⟩) hb
      refine List.nodup_append.2 ⟨hparams ▸ Agrees.nodup h _, hbody ▸ Agrees.nodup h _, ?_⟩
      rintro v hv w hw rfl
      exact Row.noConfusion (hblock (hparams ▸ hv) (hbody ▸ hw))
  · rcases hrows hi with hi | hi <;> rcases hrows hj with hj | hj <;>
      exact congrArg (fun r : Row => r.block.index) (hblock hi hj)
  · rcases hrows hv with hv | hv
    · exact Agrees.lt_size h hv
    · exact Agrees.lt_size h hv

/-- In a coherent graph no variable is bound twice. -/
theorem nodup_boundVars (h : g.Coherent) : g.boundVars.Nodup := by
  refine h.separate.nodup_flatMap fun i block hi => ?_
  rw [Array.getElem?_toList] at hi
  rw [hi]
  exact .refl _

/-- A variable of a coherent graph is bound exactly if its site is not that of a deleted one. -/
theorem isDefined_iff (h : g.Coherent) (v : Variable) : g.isDefined v = true ↔ v ∈ g.boundVars := by
  rw [mem_boundVars_iff]
  constructor
  · intro hdef
    unfold isDefined at hdef
    split at hdef
    · next b i hs => exact ⟨.body b, List.mem_iff_getElem?.2 ⟨i, (h v (.body b) i).1 hs⟩⟩
    · next b i hs => exact ⟨.params b, List.mem_iff_getElem?.2 ⟨i, (h v (.params b) i).1 hs⟩⟩
    · cases hdef
  · rintro ⟨r, hr⟩
    obtain ⟨i, hi⟩ := List.mem_iff_getElem?.1 hr
    have hsite : g.site? v = some (r.site i) := (h v r i).2 hi
    unfold isDefined
    rw [hsite]
    cases r <;> rfl

/-- The blocks and the counter of a coherent graph determine its table. -/
theorem sites_unique {g' : Graph} (h : g.Coherent) (h' : g'.Coherent)
    (hblocks : g.blocks = g'.blocks) (hcount : g.varCount = g'.varCount) : g.sites = g'.sites := by
  have hrow : g.row = g'.row := by
    funext r
    cases r <;> simp only [Graph.row, Graph.block?, hblocks]
  replace hcount : g.sites.size = g'.sites.size := hcount
  refine Array.ext_getElem? fun i => ?_
  have hsite : ∀ {g₁ g₂ : Graph}, g₁.Coherent → g₂.Coherent → g₁.row = g₂.row →
      ∀ (r : Row) (j : Nat),
      g₁.sites[i]? = some (r.site j) → g₂.sites[i]? = some (r.site j) := by
    intro g₁ g₂ h₁ h₂ heq r j hj
    exact (h₂ ⟨i⟩ r j).2 (heq ▸ (h₁ ⟨i⟩ r j).1 hj)
  -- where the one table says deleted, the other cannot name a place, as this one would name it too
  rcases hi : g.sites[i]? with _ | site
  · have hle := Array.getElem?_eq_none_iff.1 hi
    exact (Array.getElem?_eq_none_iff.2 (hcount ▸ hle)).symm
  · rcases Row.eq_site site with rfl | ⟨r, j, rfl⟩
    · have hlt := (Array.getElem?_eq_some_iff.1 hi).1
      have hlt' : i < g'.sites.size := hcount ▸ hlt
      have hi' : g'.sites[i]? = some g'.sites[i] := Array.getElem?_eq_getElem hlt'
      rcases Row.eq_site g'.sites[i] with heq | ⟨r, j, heq⟩
      · rw [hi', heq]
      · have := hsite h' h hrow.symm r j (heq ▸ hi')
        rw [hi] at this
        cases r <;> cases this
    · exact (hsite h h' hrow r j hi).symm

end Coherent

end Graph

end Interpose
