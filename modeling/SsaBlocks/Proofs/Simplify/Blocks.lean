import SsaBlocks.Simplify.Blocks
import SsaBlocks.Proofs.Func.Ready

/-!
# Removing blocks that do nothing

A removable block falls through to a child that it owns. Taking it out puts the child in its place:
an edge of the new graph is an edge of the old one or leads around the removed block. Its parents
become the last ones of the child, so that its owner becomes the child's and the blocks that are
reached stay the same. What is known in a block and what is live there is known and live as before,
so a function that was ready for SSA construction still is.
-/

namespace SsaBlocks

open List

namespace Instruction

variable (b c : BlockId) (i : Instruction)

@[simp] theorem result?_retarget : (i.retarget b c).result? = i.result? := by
  cases i <;> rfl

@[simp] theorem operands_retarget : (i.retarget b c).operands = i.operands := by
  cases i <;> rfl

@[simp] theorem isCode_retarget : (i.retarget b c).isCode = i.isCode := by
  cases i <;> rfl

@[simp] theorem isTerminator_retarget : (i.retarget b c).isTerminator = i.isTerminator := by
  cases i <;> rfl

@[simp] theorem targets_retarget :
    (i.retarget b c).targets = i.targets.map fun t => if t = b then c else t := by
  cases i <;> rfl

variable {i}

theorem retarget_of_not_isCode (h : i.isCode = false) : i.retarget b c = i := by
  cases i <;> first | rfl | simp [isCode] at h

theorem isTerminator_of_not_isCode (h : i.isCode = false) : i.isTerminator = false := by
  cases i <;> first | rfl | simp [isCode] at h

theorem operands_of_not_isCode (h : i.isCode = false) : i.operands = [] := by
  cases i <;> first | rfl | simp [isCode] at h

theorem targets_of_not_isCode (h : i.isCode = false) : i.targets = [] := by
  cases i <;> first | rfl | simp [isCode] at h

theorem result?_of_not_isCode (h : i.isCode = false) : i.result? = none := by
  cases i <;> first | rfl | simp [isCode] at h

end Instruction

namespace Func

open SsaBlocks.Flow

variable {fn fn' : Func} {b c x y : BlockId} {v : Variable} {t : Temp} {n : Nat}

section Children

/-- Puts `child` in the place of `b`; if it is there already, `b` is only taken out. -/
def replaceChild (b child : BlockId) (children : List BlockId) : List BlockId :=
  match children.idxOf? b with
  | none => children
  | some i => if child ∈ children then children.eraseIdx i else children.set i child

variable {l : List BlockId}

theorem count_replaceChild (hb : b ∈ l) (y : BlockId) :
    (replaceChild b c l).count y =
      l.count y - (if b = y then 1 else 0) + if c ∉ l ∧ c = y then 1 else 0 := by
  obtain ⟨i, hi⟩ := Option.isSome_iff_exists.mp (isSome_idxOf?.mpr hb)
  obtain ⟨hlt, hget, -⟩ := idxOf?_eq_some_iff.mp hi
  by_cases hc : c ∈ l
  · have herase : replaceChild b c l = l.erase b := by
      rw [replaceChild, hi, erase_eq_eraseIdx, hi]
      exact if_pos hc
    rw [herase, count_erase]
    simp [hc]
  · have hset : replaceChild b c l = l.set i c := by
      rw [replaceChild, hi]
      exact if_neg hc
    rw [hset, count_set hlt, hget]
    simp [hc]

theorem mem_replaceChild (h : y ∈ replaceChild b c l) : y ∈ l ∨ y = c := by
  rw [replaceChild] at h
  split at h
  · exact .inl h
  · split at h
    · exact .inl (mem_of_mem_eraseIdx h)
    · exact mem_or_eq_of_mem_set h

theorem replaceChild_singleton (h : c ≠ b) : replaceChild b c [b] = [c] := by
  have hi : [b].idxOf? b = some 0 := by simp
  rw [replaceChild, hi]
  simp [h]

variable {k : Nat}

/-- What is left after `k` replacements: `k` occurrences of `b` are gone and `child` is there. -/
theorem count_iterate_replaceChild (hk : k ≤ l.count b) (hcb : c ≠ b) :
    ((replaceChild b c)^[k] l).count b = l.count b - k ∧
      l.count c ≤ ((replaceChild b c)^[k] l).count c ∧
      (0 < k → c ∈ (replaceChild b c)^[k] l) ∧
      ∀ y, y ≠ b → y ≠ c → ((replaceChild b c)^[k] l).count y = l.count y := by
  induction k with
  | zero => simp
  | succ k ih =>
    obtain ⟨hb, hc, -, hy⟩ := ih (Nat.le_of_succ_le hk)
    have hmem : b ∈ (replaceChild b c)^[k] l := by
      rw [← count_pos_iff]
      omega
    have hcount := count_replaceChild (c := c) hmem c
    simp only [hcb.symm, if_false, Nat.sub_zero, and_true] at hcount
    simp only [Function.iterate_succ_apply']
    refine ⟨?_, ?_, fun _ => ?_, fun y hyb hyc => ?_⟩
    · rw [count_replaceChild hmem]
      simp only [hcb, and_false, if_true, if_false]
      omega
    · omega
    · rw [← count_pos_iff, hcount]
      by_cases hmemc : c ∈ (replaceChild b c)^[k] l
      · exact Nat.add_pos_left (count_pos_iff.mpr hmemc) _
      · simp [hmemc]
    · rw [count_replaceChild hmem]
      simp [hyb.symm, hyc.symm, hy y hyb hyc]

theorem mem_iterate_replaceChild (h : y ∈ (replaceChild b c)^[k] l) : y ∈ l ∨ y = c := by
  induction k with
  | zero => exact .inl h
  | succ k ih =>
    rw [Function.iterate_succ_apply'] at h
    exact (mem_replaceChild h).elim ih .inr

theorem count_inheritParents (b : BlockId) (parents own : List BlockId) (a : BlockId) :
    (inheritParents b parents own).count a =
      if a ∈ parents then 1 else if a = b then 0 else own.count a := by
  induction parents using reverseRecOn with
  | nil =>
    by_cases ha : a = b
    · simp [inheritParents, count_eq_zero, ha]
    · simp [inheritParents, count_filter, ha]
  | append_singleton l p ih =>
    rw [inheritParents] at ih ⊢
    rw [foldl_concat, count_append]
    by_cases ha : a = p
    · simp [ha, count_eq_zero]
    · rw [count_filter (by simp [ha]), ih]
      simp [ha, Ne.symm ha]

theorem mem_inheritParents {parents own : List BlockId} {a : BlockId} :
    a ∈ inheritParents b parents own ↔ a ∈ parents ∨ a ∈ own ∧ a ≠ b := by
  rw [← count_pos_iff, count_inheritParents]
  by_cases ha : a ∈ parents
  · simp [ha]
  · by_cases hab : a = b
    · subst hab
      simp [ha]
    · simp [ha, hab, count_pos_iff]

theorem getLast?_inheritParents {parents own : List BlockId} (h : parents ≠ []) :
    (inheritParents b parents own).getLast? = parents.getLast? := by
  obtain ⟨l, p, rfl⟩ := eq_nil_or_concat'  parents |>.resolve_left h
  rw [inheritParents, foldl_concat, getLast?_concat, getLast?_concat]

end Children

/-- A block that does nothing but lead to its child. -/
structure Idle (fn : Func) (b c : BlockId) : Prop where
  ne_entry : b ≠ fn.entry
  ne_child : c ≠ b
  comments : ∀ i ∈ (fn.block b).code, i.isCode = false
  children : (fn.block b).children = [c]
  edge : fn.Edge b c
  written : ∀ v, (fn.block b).written.get? v = none
  awaited : ∀ v, (fn.block b).awaited.get? v = none

/-- A block of the order that does nothing and owns its child. -/
structure Redundant (fn : Func) (b c : BlockId) : Prop extends Idle fn b c where
  mem : b ∈ fn.canonicalOrder
  owner : (fn.block c).owner? = some b

theorem isRemovable_iff : fn.isRemovable b ↔ (fn.block b).home ≠ b ∧
    (∀ i ∈ (fn.block b).code, i.isCode = false) ∧ (∀ v, (fn.block b).written.get? v = none) ∧
      ∀ v, (fn.block b).awaited.get? v = none := by
  simp [isRemovable, Table.isEmpty_iff, and_assoc]

theorem idle_of_isRemovable (h : fn.isRemovable b) (hhome : (fn.block fn.entry).home = fn.entry)
    (hchildren : (fn.block b).children = [c]) (hne : c ≠ b) (hedge : fn.Edge b c) :
    fn.Idle b c := by
  obtain ⟨hb, hcomments, hwritten, hawaited⟩ := isRemovable_iff.mp h
  refine ⟨?_, hne, hcomments, hchildren, hedge, hwritten, hawaited⟩
  rintro rfl
  exact hb hhome

theorem Ready.redundant (hr : fn.Ready) (hb : b ∈ fn.canonicalOrder) (h : fn.isRemovable b) :
    ∃ c, fn.Redundant b c := by
  obtain ⟨hhome, hcomments, -⟩ := isRemovable_iff.mp h
  have hentry : b ≠ fn.entry := by
    rintro rfl
    exact hhome hr.home
  obtain ⟨c, hc, howner⟩ := hr.falls b hb fun i hi =>
    Instruction.isTerminator_of_not_isCode (hcomments i hi)
  refine ⟨c, idle_of_isRemovable h hr.home hc ?_ (mem_of_getLast? howner), hb, howner⟩
  rintro rfl
  obtain ⟨o, -, howns, hlt⟩ := (exists_owner_before hb).resolve_left hentry
  have ho : o = c := by simpa [howner] using (owns_iff.mp howns).2.symm
  exact absurd (ho ▸ hlt) (Nat.lt_irrefl _)

theorem Idle.not_writes (h : fn.Idle b c) : ¬ fn.Writes v b := by
  simp [Graph.Writes, h.written v]

namespace Redundant

variable (h : fn.Redundant b c)
include h

theorem owns : fn.Owns b c :=
  owns_iff.mpr ⟨by simp [h.children], h.owner⟩

theorem child_mem : c ∈ fn.canonicalOrder :=
  (canonicalOrder_closed fn).2 b h.mem c h.owns

theorem exists_owner : ∃ o ∈ fn.canonicalOrder, fn.Owns o b ∧
    fn.canonicalOrder.idxOf o < fn.canonicalOrder.idxOf b :=
  (exists_owner_before h.mem).resolve_left h.ne_entry

end Redundant

/-- The parents of a block have it among their children, as often as they are its parents. -/
def Counted (fn : Func) : Prop :=
  ∀ x y, (fn.block y).parents.count x ≤ (fn.block x).children.count y

theorem Counted.mem_children (hl : fn.Counted) (h : fn.Edge x y) : y ∈ (fn.block x).children := by
  rw [← count_pos_iff]
  exact (count_pos_iff.mpr h).trans_le (hl x y)

theorem lt_of_mem_children (h : y ∈ (fn.block x).children) : x < fn.blocks.size := by
  by_contra hx
  rw [Graph.block_of_size_le (Nat.not_lt.mp hx)] at h
  exact absurd h not_mem_nil

theorem thins_retarget (blocks : List BlockId) (b child : BlockId) (fn : Func) :
    fn.Thins (blocks.foldl (fun fn other => fn.modify other fun o =>
      { o with code := o.code.map (Instruction.retarget b child) }) fn) := by
  refine Thins.foldl (fun fn other => .modify ⟨?_, .refl _, rfl, rfl, fun _ => id⟩) blocks fn
  have hsame : Instruction.result? ∘ Instruction.retarget b child = Instruction.result? :=
    funext fun i => Instruction.result?_retarget b child i
  rw [filterMap_map, hsame]

theorem thins_bypassParent {child parent : BlockId} (h : fn.bypassParent b child parent = .ok fn') :
    fn.Thins fn' := by
  rw [bypassParent] at h
  split at h
  · cases h
  · cases h
    exact .modify ⟨.refl _, .refl _, rfl, rfl, fun _ => id⟩

/-- Only comments move when a block is taken out. -/
theorem thins_bypass {blocks : List BlockId} {child : BlockId} (hb : fn.results b = [])
    (h : fn.bypass blocks b child = .ok fn') : fn.Thins fn' := by
  obtain ⟨mid, hmid, h⟩ := bind_eq_ok.mp h
  obtain rfl := Except.ok.inj h
  have hthin : fn.Thins mid :=
    (thins_retarget blocks b child fn).trans (.foldlM (fun _ _ _ => thins_bypassParent) hmid)
  have hnone : (mid.block b).code.filterMap Instruction.result? = [] :=
    sublist_nil.mp (hb ▸ (hthin.block b).results)
  refine hthin.trans (.trans (.modify ⟨?_, .refl _, rfl, rfl, fun _ => id⟩)
    (.modify ⟨?_, .refl _, rfl, rfl, fun _ => id⟩))
  · rw [filterMap_append, hnone, nil_append]
  · exact nil_sublist _

theorem results_of_isRemovable (h : fn.isRemovable b) : fn.results b = [] := by
  simp only [isRemovable, Bool.and_eq_true] at h
  refine filterMap_eq_nil_iff.mpr fun i hi => Instruction.result?_of_not_isCode ?_
  simpa using all_eq_true.mp h.1.1.2 i hi

theorem thins_removeRedundantBlocks (h : fn.removeRedundantBlocks = .ok fn') : fn.Thins fn' := by
  refine .foldlM (fun fn fn' b h => ?_) h
  rw [removeIfRedundant] at h
  split at h
  · next hremovable =>
    split at h
    · split at h
      · cases h
      · exact thins_bypass (results_of_isRemovable hremovable) h
    · cases h
  · cases h
    exact .refl fn

/-- The function `fn'` is `fn` without the block `b`, whose child `c` is in its place. -/
structure Bypassed (fn fn' : Func) (blocks : List BlockId) (b c : BlockId) : Prop where
  thins : fn.Thins fn'
  gone : fn'.block b = { fn.block b with parents := [], children := [], code := [] }
  kept : ∀ x, x ≠ b → fn'.block x =
    { fn.block x with
      parents := if x = c then inheritParents b (fn.block b).parents (fn.block c).parents
        else (fn.block x).parents
      children := (replaceChild b c)^[(fn.block b).parents.count x] (fn.block x).children
      code := (if x = c then (fn.block b).code else []) ++
        (fn.block x).code.map (if x ∈ blocks then Instruction.retarget b c else id) }

/-- The children of the parents can all be replaced. -/
theorem exists_bypassParents {parents : List BlockId} (hcb : c ≠ b)
    (hlt : ∀ p ∈ parents, p < fn.blocks.size)
    (hcount : ∀ p, parents.count p ≤ (fn.block p).children.count b) :
    ∃ fn', parents.foldlM (bypassParent b c) fn = .ok fn' ∧ fn.Edits fn' ∧
      ∀ x, fn'.block x = { fn.block x with
        children := (replaceChild b c)^[parents.count x] (fn.block x).children } := by
  refine exists_foldlM (fun m (cur : Func) => fn.Edits cur ∧ ∀ x, cur.block x =
    { fn.block x with children := (replaceChild b c)^[m.count x] (fn.block x).children }) ?_ ?_
  · exact ⟨.refl fn, fun x => rfl⟩
  · rintro m p l cur hparents ⟨hedits, hblock⟩
    have hle : m.count p + 1 ≤ (fn.block p).children.count b := by
      refine le_trans ?_ (hcount p)
      rw [hparents, count_append, count_cons_self]
      omega
    have hmem : b ∈ (cur.block p).children := by
      rw [← count_pos_iff, hblock p]
      have := (count_iterate_replaceChild (Nat.le_of_succ_le hle) hcb).1
      simp only [this]
      omega
    obtain ⟨i, hi⟩ := Option.isSome_iff_exists.mp (isSome_idxOf?.mpr hmem)
    have hone : bypassParent b c cur p = .ok (cur.modify p fun blk =>
        { blk with children := replaceChild b c (cur.block p).children }) := by
      simp only [bypassParent, replaceChild, hi]
    refine ⟨_, hone, hedits.trans (.modify ..), fun x => ?_⟩
    by_cases hx : p = x
    · subst hx
      have hp : p < cur.blocks.size := hedits.size ▸ hlt p (by simp [hparents])
      rw [block_modify_self hp, hblock p, count_append, count_singleton_self,
        Function.iterate_succ_apply']
    · rw [block_modify_ne hx, hblock x, count_append, count_singleton]
      simp [hx]

/-- A block that does nothing can be taken out. -/
theorem exists_bypass (hl : fn.Counted) (h : fn.Idle b c) {blocks : List BlockId}
    (hblocks : blocks.Nodup) (hlt : ∀ x ∈ blocks, x < fn.blocks.size) (hb : b ∈ blocks) :
    ∃ fn', fn.bypass blocks b c = .ok fn' ∧ fn.Bypassed fn' blocks b c := by
  set sent := blocks.foldl (fun fn other => fn.modify other fun o =>
    { o with code := o.code.map (Instruction.retarget b c) }) fn with hsent
  have hsentEdits : fn.Edits sent := .foldl (fun _ _ => .modify ..) blocks fn
  have hsentBlock : ∀ x, sent.block x = { fn.block x with
      code := (fn.block x).code.map (if x ∈ blocks then Instruction.retarget b c else id) } := by
    intro x
    rw [hsent, block_foldl_modify
      (fun _ o => { o with code := o.code.map (Instruction.retarget b c) }) hblocks hlt]
    split
    · rfl
    · simp
  have hparents : ∀ p ∈ (fn.block b).parents, p < fn.blocks.size := fun p hp =>
    lt_of_mem_children (hl.mem_children hp)
  have hsentLt : ∀ p ∈ (fn.block b).parents, p < sent.blocks.size := fun p hp =>
    hsentEdits.size ▸ hparents p hp
  have hsentCounts : ∀ p, (fn.block b).parents.count p ≤ (sent.block p).children.count b := by
    intro p
    rw [hsentBlock]
    exact hl p b
  obtain ⟨linked, hlinked, hedits, hblock⟩ :=
    exists_bypassParents h.ne_child hsentLt hsentCounts
  -- the block has only comments, which name no target
  have hcode : (linked.block b).code = (fn.block b).code := by
    rw [hblock, hsentBlock]
    simp only [hb, if_true]
    exact (map_congr_left fun i hi =>
      Instruction.retarget_of_not_isCode b c (h.comments i hi)).trans (map_id _)
  have hdone : fn.bypass blocks b c = .ok ((linked.modify c fun blk =>
      { blk with
        parents := inheritParents b (fn.block b).parents blk.parents
        code := (fn.block b).code ++ blk.code }).modify b fun blk =>
      { blk with parents := [], children := [], code := [] }) := by
    rw [← hcode, bypass, ← hsent]
    simp only [hlinked, ok_bind]
    rfl
  have hsize : linked.blocks.size = fn.blocks.size := hedits.size.trans hsentEdits.size
  have hbs : b < linked.blocks.size := hsize ▸ hlt b hb
  have hcs : c < linked.blocks.size := hsize ▸ h.edge.lt
  have hlinkedBlock : ∀ x, linked.block x = { fn.block x with
      children := (replaceChild b c)^[(fn.block b).parents.count x] (fn.block x).children
      code := (fn.block x).code.map (if x ∈ blocks then Instruction.retarget b c else id) } :=
    fun x => by rw [hblock, hsentBlock]
  have hresults : fn.results b = [] := filterMap_eq_nil_iff.mpr fun i hi =>
    Instruction.result?_of_not_isCode (h.comments i hi)
  refine ⟨_, hdone, thins_bypass hresults hdone, ?_, fun x hx => ?_⟩
  · rw [block_modify_self ((Edits.modify linked c _).size ▸ hbs), block_modify_ne h.ne_child,
      hlinkedBlock]
  · rw [block_modify_ne (Ne.symm hx)]
    by_cases hxc : x = c
    · subst hxc
      rw [block_modify_self hcs, hlinkedBlock]
      simp
    · rw [block_modify_ne (Ne.symm hxc), hlinkedBlock]
      simp [hxc]

/-- The only edge out of an idle block leads to its child. -/
theorem Idle.edge_iff (hd : fn.Idle b c) (hl : fn.Counted) : fn.Edge b y ↔ y = c := by
  constructor
  · intro h
    simpa [hd.children] using hl.mem_children h
  · rintro rfl
    exact hd.edge

theorem Redundant.child_ne_entry (hd : fn.Redundant b c) (hr : fn.Ready) : c ≠ fn.entry := by
  rintro rfl
  have := hd.edge
  simp [Graph.Edge, hr.rooted.entry_parents] at this

namespace Bypassed

variable {blocks : List BlockId} (h : fn.Bypassed fn' blocks b c)
include h

theorem children_eq (hx : x ≠ b) : (fn'.block x).children =
    (replaceChild b c)^[(fn.block b).parents.count x] (fn.block x).children := by
  rw [h.kept x hx]

theorem owner_eq (hx : x ≠ b) (hxc : x ≠ c) : (fn'.block x).owner? = (fn.block x).owner? := by
  rw [Block.owner?, Block.owner?, h.kept x hx]
  simp [hxc]

theorem code_eq (hx : x ≠ b) : (fn'.block x).code =
    (if x = c then (fn.block b).code else []) ++
      (fn.block x).code.map (if x ∈ blocks then Instruction.retarget b c else id) := by
  rw [h.kept x hx]

/-- Nothing but edges and code changes. -/
theorem proj {β : Type} (π : Block → β) (hπ : ∀ blk parents children code,
    π { blk with parents, children, code } = π blk) (x : BlockId) :
    π (fn'.block x) = π (fn.block x) := by
  by_cases hx : x = b
  · rw [hx, h.gone, hπ]
  · rw [h.kept x hx, hπ]

theorem alive (x : BlockId) : (fn'.block x).alive = (fn.block x).alive :=
  h.proj (·.alive) (fun _ _ _ _ => rfl) x

theorem written (x : BlockId) : (fn'.block x).written = (fn.block x).written :=
  h.proj (·.written) (fun _ _ _ _ => rfl) x

theorem awaited (x : BlockId) : (fn'.block x).awaited = (fn.block x).awaited :=
  h.proj (·.awaited) (fun _ _ _ _ => rfl) x

theorem writes : fn'.Writes = fn.Writes := by
  funext v x
  simp only [Graph.Writes, h.written x]

/-- The child takes over the owner. -/
theorem owner_child {o : BlockId} (hd : fn.Idle b c) (ho : (fn.block b).owner? = some o) :
    (fn'.block c).owner? = some o := by
  have hne : (fn.block b).parents ≠ [] := ne_nil_of_mem (mem_of_getLast? ho)
  rw [← ho, Block.owner?, Block.owner?, h.kept c hd.ne_child]
  simpa using getLast?_inheritParents hne

section Idle

variable (hd : fn.Idle b c) (hl : fn.Counted)
include hd hl

theorem edge_iff : fn'.Edge x y ↔ y = c ∧ fn.Edge x b ∨ y ≠ b ∧ x ≠ b ∧ fn.Edge x y := by
  by_cases hyb : y = b
  · subst hyb
    simp [Graph.Edge, h.gone, hd.ne_child.symm]
  · by_cases hyc : y = c
    · subst hyc
      simp only [Graph.Edge, h.kept y hyb, if_true, mem_inheritParents, ne_eq, hyb, not_false_iff,
        true_and]
      tauto
    · have hx : fn.Edge x y → x ≠ b := by
        rintro hxy rfl
        exact hyc ((hd.edge_iff hl).mp hxy)
      simp only [Graph.Edge, h.kept y hyb, hyc, if_false, false_and, false_or, ne_eq, hyb,
        not_false_iff, true_and] at hx ⊢
      exact ⟨fun hxy => ⟨hx hxy, hxy⟩, And.right⟩

theorem edge_around (hxy : fn.Edge x y) (hx : x ≠ b) : fn'.Edge x (if y = b then c else y) := by
  rw [h.edge_iff hd hl]
  split
  · next hy => exact .inl ⟨rfl, hy ▸ hxy⟩
  · next hy => exact .inr ⟨hy, hx, hxy⟩

/-- A walk of the new graph is one of the old graph that may pass the removed block. -/
theorem exists_walk {l : List BlockId} (hl : Walk fn'.Edge x y l) :
    ∃ m, Walk fn.Edge x y m ∧ ∀ z ∈ m, z ∈ l ∨ z = b := by
  induction hl with
  | nil a => exact ⟨[], .nil a, by simp⟩
  | @cons x z y l hxz _ ih =>
    obtain ⟨m, hm, hmem⟩ := ih
    rcases (h.edge_iff hd hl).mp hxz with ⟨rfl, hxb⟩ | ⟨-, -, hxz⟩
    · exact ⟨x :: b :: m, .cons hxb (.cons hd.edge hm), fun u hu => by grind⟩
    · exact ⟨x :: m, .cons hxz hm, fun u hu => by grind⟩

/-- A walk of the old graph leads around the removed block. -/
theorem reachable_around {l : List BlockId} (hl : Walk fn.Edge x y l) (hy : y ≠ b) :
    Reachable fn'.Edge (if x = b then c else x) y := by
  induction hl with
  | nil a => simpa [hy] using Reachable.refl fn'.Edge a
  | @cons x z y l hxz _ ih =>
    by_cases hx : x = b
    · subst hx
      obtain rfl := (hd.edge_iff hl).mp hxz
      simpa [hd.ne_child] using ih hy
    · rw [if_neg hx]
      exact Reachable.trans ⟨_, .single (h.edge_around hd hl hxz hx)⟩ (ih hy)

theorem dominates (hxy : Dominates fn.Edge fn.entry x y) (hx : x ≠ b) :
    Dominates fn'.Edge fn'.entry x y := by
  intro l hwalk
  rw [h.thins.edits.entry] at hwalk
  obtain ⟨m, hm, hmem⟩ := h.exists_walk hd hl hwalk
  rcases hxy m hm with hxy | hxy
  · exact .inl ((hmem x hxy).resolve_right hx)
  · exact .inr hxy

theorem mem_children (hy : y ∈ (fn.block x).children) (hx : x ≠ b) (hyb : y ≠ b) :
    y ∈ (fn'.block x).children := by
  rw [h.children_eq hx, ← count_pos_iff]
  obtain ⟨-, hc, -, hother⟩ := count_iterate_replaceChild (hl x b) hd.ne_child
  have hpos := count_pos_iff.mpr hy
  by_cases hyc : y = c
  · subst hyc
    exact hpos.trans_le hc
  · rwa [hother y hyb hyc]

theorem counted : fn'.Counted := by
  intro x y
  by_cases hyb : y = b
  · simp [hyb, h.gone]
  by_cases hxb : x = b
  · have hno : x ∉ (fn'.block y).parents := by
      intro hxy
      rcases (h.edge_iff hd hl).mp hxy with ⟨-, hbb⟩ | ⟨-, hne, -⟩
      · exact hd.ne_child ((hd.edge_iff hl).mp (hxb ▸ hbb)).symm
      · exact hne hxb
    simp [count_eq_zero.mpr hno]
  obtain ⟨-, hc, hmem, hother⟩ := count_iterate_replaceChild (hl x b) hd.ne_child
  rw [h.children_eq hxb, h.kept y hyb]
  by_cases hyc : y = c
  · subst hyc
    simp only [if_true, count_inheritParents, hxb, if_false]
    split
    · next hxp => exact count_pos_iff.mpr (hmem (count_pos_iff.mpr hxp))
    · exact (hl x y).trans hc
  · simpa only [hyc, if_false, hother y hyb hyc] using hl x y

theorem children_singleton (hx : x ≠ b) (hy : (fn.block x).children = [y]) (hxy : fn.Edge x y) :
    (fn'.block x).children = [if y = b then c else y] := by
  have hcount := hl x b
  rw [h.children_eq hx, hy]
  by_cases hyb : y = b
  · subst hyb
    have hone : (fn.block y).parents.count x = 1 :=
      le_antisymm (by simpa [hy] using hcount) (count_pos_iff.mpr hxy)
    rw [hone, if_pos rfl]
    exact replaceChild_singleton hd.ne_child
  · have hnone : (fn.block b).parents.count x = 0 := by
      simpa [hy, count_singleton, hyb] using hcount
    rw [hnone, if_neg hyb]
    rfl

end Idle

section Owned

variable (hd : fn.Redundant b c)
include hd

variable (hl : fn.Counted)
include hl

theorem owns_child {o : BlockId} (ho : fn.Owns o b) : fn'.Owns o c := by
  obtain ⟨-, howner⟩ := owns_iff.mp ho
  have hne : o ≠ b := by
    rintro rfl
    exact hd.ne_child ((hd.edge_iff hl).mp ho.edge).symm
  refine owns_iff.mpr ⟨?_, h.owner_child hd.toIdle howner⟩
  rw [h.children_eq hne]
  exact (count_iterate_replaceChild (hl o b) hd.ne_child).2.2.1
    (count_pos_iff.mpr ho.edge)

theorem owns_of_owns {o : BlockId} (ho : fn.Owns o x) (hob : o ≠ b) (hx : x ≠ b) :
    fn'.Owns o x := by
  obtain ⟨hmem, howner⟩ := owns_iff.mp ho
  have hxc : x ≠ c := by
    rintro rfl
    exact hob (Option.some.inj (howner.symm.trans hd.owner))
  exact owns_iff.mpr ⟨h.mem_children hd.toIdle hl hmem hob hx, (h.owner_eq hx hxc).trans howner⟩

theorem mem_of_mem (hx : x ∈ fn.canonicalOrder) (hxb : x ≠ b) : x ∈ fn'.canonicalOrder := by
  -- by induction on the position in the old order, where owners come first
  induction hn : fn.canonicalOrder.idxOf x using Nat.strong_induction_on generalizing x with
  | _ n ih =>
    rcases exists_owner_before hx with rfl | ⟨o, ho, howns, hlt⟩
    · rw [← h.thins.edits.entry]
      exact (canonicalOrder_closed fn').1
    · by_cases hob : o = b
      · subst hob
        obtain rfl := (hd.edge_iff hl).mp howns.edge
        obtain ⟨o', ho', howns', hlt'⟩ := hd.exists_owner
        have hne : o' ≠ o := by
          rintro rfl
          exact Nat.lt_irrefl _ hlt'
        exact (canonicalOrder_closed fn').2 o' (ih _ (hn ▸ hlt'.trans hlt) ho' hne rfl) _
          (h.owns_child hd hl howns')
      · exact (canonicalOrder_closed fn').2 o (ih _ (hn ▸ hlt) ho hob rfl) x
          (h.owns_of_owns hd hl howns hob hxb)

end Owned

variable (hd : fn.Redundant b c) (hr : fn.Ready)
include hd hr

theorem mem_canonicalOrder : x ∈ fn'.canonicalOrder ↔ x ∈ fn.canonicalOrder ∧ x ≠ b := by
  refine ⟨fun hx => ?_, fun hx => h.mem_of_mem hd hr.counts hx.1 hx.2⟩
  rcases exists_owner_before hx with rfl | ⟨o, -, howns, -⟩
  · rw [h.thins.edits.entry]
    exact ⟨(canonicalOrder_closed fn).1, hd.ne_entry.symm⟩
  · rcases (h.edge_iff hd.toIdle hr.counts).mp howns.edge with ⟨rfl, -⟩ | ⟨hxb, -, hox⟩
    · exact ⟨hd.child_mem, hd.ne_child⟩
    · exact ⟨(hr.rooted.edge_mem hox).2, hxb⟩

theorem rooted : fn'.Rooted where
  entry_lt := by
    rw [h.thins.edits.entry, h.thins.edits.size]
    exact hr.rooted.entry_lt
  entry_parents := by
    rw [h.thins.edits.entry, h.kept _ hd.ne_entry.symm]
    simpa [(hd.child_ne_entry hr).symm] using hr.rooted.entry_parents
  parents_mem x hx p hp := by
    rw [h.mem_canonicalOrder hd hr] at hx ⊢
    rcases (h.edge_iff hd.toIdle hr.counts).mp hp with ⟨rfl, hpb⟩ | ⟨-, hpb, hpx⟩
    · refine ⟨(hr.rooted.edge_mem hpb).1, ?_⟩
      rintro rfl
      exact hd.ne_child ((hd.edge_iff hr.counts).mp hpb).symm
    · exact ⟨(hr.rooted.edge_mem hpx).1, hpb⟩
  orphan x hx := by
    by_cases hxb : x = b
    · rw [hxb, h.gone]
    · have hx' : x ∉ fn.canonicalOrder := fun hmem => hx (h.mem_of_mem hd hr.counts hmem hxb)
      have hxc : x ≠ c := fun hxc => hx' (hxc ▸ hd.child_mem)
      rw [h.kept x hxb]
      simpa [hxc] using hr.rooted.orphan x hx'
  children_lt x y hy := by
    rw [h.thins.edits.size]
    by_cases hxb : x = b
    · simp [hxb, h.gone] at hy
    · rw [h.children_eq hxb] at hy
      rcases mem_iterate_replaceChild hy with hy | rfl
      · exact hr.rooted.children_lt x y hy
      · exact mem_canonicalOrder_lt hd.child_mem hr.rooted.entry_lt

end Bypassed

/-- The place that an instruction of the block `x` moves to when the comments of `b` are put in
front of the code of `c`. -/
def shifted (fn : Func) (b c x : BlockId) (n : Nat) : Nat :=
  if x = c then (fn.block b).code.length + n else n

theorem shifted_lt {m : Nat} (h : n < m) : fn.shifted b c x n < fn.shifted b c x m := by
  simp only [shifted]
  split <;> omega

/-- The place that a source moves to. -/
def Source.moved (fn : Func) (b c : BlockId) : Source → Source
  | .param i => .param i
  | .read x v => .read x v
  | .result x i => .result x (fn.shifted b c x i)

theorem Redundant.not_makes (hd : fn.Redundant b c) : ¬ fn.Makes (.result b n) t := by
  rintro ⟨i, hi, ht⟩
  simp [Instruction.result?_of_not_isCode (hd.comments i (mem_of_getElem? hi))] at ht

namespace Bypassed

variable {blocks : List BlockId} (h : fn.Bypassed fn' blocks b c)
include h

theorem getElem?_shifted (hx : x ≠ b) (n : Nat) :
    (fn'.block x).code[fn.shifted b c x n]? =
      (fn.block x).code[n]?.map (if x ∈ blocks then Instruction.retarget b c else id) := by
  rw [h.code_eq hx, shifted]
  by_cases hxc : x = c
  · rw [if_pos hxc, if_pos hxc, getElem?_append_right (Nat.le_add_right ..),
      Nat.add_sub_cancel_left, getElem?_map]
  · rw [if_neg hxc, if_neg hxc, nil_append, getElem?_map]

/-- An instruction is a comment of the removed block or comes from where it was. -/
theorem getElem?_cases (hx : x ≠ b) {i : Instruction} (hi : (fn'.block x).code[n]? = some i) :
    i ∈ (fn.block b).code ∨ ∃ m j, n = fn.shifted b c x m ∧ (fn.block x).code[m]? = some j ∧
      i = (if x ∈ blocks then Instruction.retarget b c else id) j := by
  rw [h.code_eq hx] at hi
  by_cases hxc : x = c
  · rw [if_pos hxc] at hi
    rcases Nat.lt_or_ge n (fn.block b).code.length with hn | hn
    · rw [getElem?_append_left hn] at hi
      exact .inl (mem_of_getElem? hi)
    · rw [getElem?_append_right hn, getElem?_map, Option.map_eq_some_iff] at hi
      obtain ⟨j, hj, hji⟩ := hi
      exact .inr ⟨_, j, by rw [shifted, if_pos hxc]; omega, hj, hji.symm⟩
  · rw [if_neg hxc, nil_append, getElem?_map, Option.map_eq_some_iff] at hi
    obtain ⟨j, hj, hji⟩ := hi
    exact .inr ⟨n, j, by rw [shifted, if_neg hxc], hj, hji.symm⟩

variable (hd : fn.Redundant b c)
include hd

theorem makes {s : Source} (hs : fn.Makes s t) : fn'.Makes (s.moved fn b c) t := by
  match s, hs with
  | .param i, hs => simpa [Makes, Source.moved, h.thins.edits.paramTemps] using hs
  | .read x v, hs => simpa [Makes, Source.moved, h.awaited x] using hs
  | .result x i, ⟨inst, hinst, ht⟩ =>
    have hx : x ≠ b := by
      rintro rfl
      exact hd.not_makes ⟨inst, hinst, ht⟩
    refine ⟨_, by rw [h.getElem?_shifted hx, hinst, Option.map_some], ?_⟩
    split
    · simpa using ht
    · exact ht

variable (hr : fn.Ready)
include hr

theorem available (ht : fn.Available x n t) : fn'.Available x (fn.shifted b c x n) t := by
  obtain ⟨s, hs, hbefore⟩ := ht
  refine ⟨s.moved fn b c, h.makes hd hs, ?_⟩
  match s, hs, hbefore with
  | .param i, _, _ => trivial
  | .read y v, hs, hyx =>
    refine h.dominates hd.toIdle hr.counts hyx ?_
    rintro rfl
    simp [Makes, hd.awaited v] at hs
  | .result y i, hs, .inl ⟨hyx, hi⟩ =>
    subst hyx
    exact .inl ⟨rfl, shifted_lt hi⟩
  | .result y i, hs, .inr hyx =>
    refine .inr ⟨h.dominates hd.toIdle hr.counts hyx.1 ?_, hyx.2⟩
    rintro rfl
    exact hd.not_makes hs

theorem liveIn (hlive : fn'.LiveIn v x) : fn.LiveIn v x := by
  obtain ⟨y, l, hl, hwrites, t, ht⟩ := hlive
  obtain ⟨m, hm, hmem⟩ := h.exists_walk hd.toIdle hr.counts hl
  refine ⟨y, m, hm, fun z hz => ?_, t, by rwa [h.awaited] at ht⟩
  rcases hmem z hz with hz | rfl
  · rw [← h.writes]
    exact hwrites z hz
  · exact hd.not_writes

omit hd in
theorem fresh : fn'.Fresh where
  toSeparate := h.thins.separate hr.toSeparate
  home := by
    rw [h.thins.edits.entry, h.proj (·.home) fun _ _ _ _ => rfl]
    exact hr.home
  unplaced x := by
    rw [h.proj (·.pending) fun _ _ _ _ => rfl]
    exact hr.unplaced x

/-- Taking out a block that does nothing keeps a function ready. -/
theorem ready (hblocks : ∀ x ∈ fn.canonicalOrder, x ∈ blocks) : fn'.Ready := by
  have hmem : ∀ x ∈ fn'.canonicalOrder, x ∈ fn.canonicalOrder ∧ x ≠ b := fun x hx =>
    (h.mem_canonicalOrder hd hr).mp hx
  -- an instruction is a comment of `b`, or one of the same block, moved behind them
  have hcode : ∀ x ∈ fn'.canonicalOrder, ∀ n i, (fn'.block x).code[n]? = some i →
      i.isCode = false ∨ ∃ m j, n = fn.shifted b c x m ∧ (fn.block x).code[m]? = some j ∧
        i = j.retarget b c := by
    intro x hx n i hi
    have hxb := hblocks x (hmem x hx).1
    refine (h.getElem?_cases (hmem x hx).2 hi).imp (hd.comments i) ?_
    simpa only [hxb, if_true] using id
  refine { toFresh := h.fresh hr, rooted := h.rooted hd hr, counts := h.counted hd.toIdle hr.counts,
           targets := ?_, ends := ?_, falls := ?_, operands := ?_, written := ?_, alive := ?_,
           live := ?_, live_entry := ?_ }
  · intro x hx i hi y hy
    obtain ⟨n, hn⟩ := getElem?_of_mem hi
    rcases hcode x hx n i hn with hi | ⟨m, j, -, hj, rfl⟩
    · simp [Instruction.targets_of_not_isCode hi] at hy
    · simp only [Instruction.targets_retarget, mem_map] at hy
      obtain ⟨z, hz, rfl⟩ := hy
      exact h.edge_around hd.toIdle hr.counts (hr.targets x (hmem x hx).1 j (mem_of_getElem? hj) z hz)
        (hmem x hx).2
  · intro x hx n i hn hi
    rcases hcode x hx n i hn with hcomment | ⟨m, j, rfl, hj, rfl⟩
    · simp [Instruction.isTerminator_of_not_isCode hcomment] at hi
    · rw [Instruction.isTerminator_retarget] at hi
      have hlast := hr.ends x (hmem x hx).1 m j hj hi
      rw [h.code_eq (hmem x hx).2, shifted]
      split <;> simp <;> omega
  · intro x hx hno
    obtain ⟨y, hy, howner⟩ := hr.falls x (hmem x hx).1 fun i hi => by
      obtain ⟨n, hn⟩ := getElem?_of_mem hi
      have := h.getElem?_shifted (hmem x hx).2 n
      rw [hn, if_pos (hblocks x (hmem x hx).1)] at this
      simpa using hno _ (mem_of_getElem? this)
    refine ⟨_, h.children_singleton hd.toIdle hr.counts (hmem x hx).2 hy (mem_of_getLast? howner), ?_⟩
    split
    · next hyb => exact h.owner_child hd.toIdle (hyb ▸ howner)
    · next hyb =>
      have hyc : y ≠ c := by
        rintro rfl
        exact (hmem x hx).2 (Option.some.inj (howner.symm.trans hd.owner))
      exact (h.owner_eq hyb hyc).trans howner
  · intro x hx n i hn t ht
    rcases hcode x hx n i hn with hcomment | ⟨m, j, rfl, hj, rfl⟩
    · simp [Instruction.operands_of_not_isCode hcomment] at ht
    · rw [Instruction.operands_retarget] at ht
      exact h.available hd hr (hr.operands x (hmem x hx).1 m j hj t ht)
  · intro x hx v t ht
    rw [h.written] at ht
    have hlen : (fn'.block x).code.length = fn.shifted b c x (fn.block x).code.length := by
      rw [h.code_eq (hmem x hx).2, shifted]
      split <;> simp
    rw [hlen]
    exact h.available hd hr (hr.written x (hmem x hx).1 v t ht)
  · intro x hx v hv
    rw [h.alive] at hv
    obtain ⟨y, hy, l, hl⟩ := hr.alive x (hmem x hx).1 v hv
    have hyb : y ≠ b := by
      rintro rfl
      exact hd.not_writes hy
    refine ⟨y, by rwa [h.writes], ?_⟩
    simpa [hyb] using h.reachable_around hd.toIdle hr.counts hl (hmem x hx).2
  · intro x hx v hlive
    have hlive := h.liveIn hd hr hlive
    have hscope := inScope_iff.mp (hr.live x (hmem x hx).1 v hlive)
    refine inScope_iff.mpr ⟨by rw [h.alive]; exact hscope.1, fun p hp => ?_⟩
    rw [h.alive]
    rcases (h.edge_iff hd.toIdle hr.counts).mp hp with ⟨rfl, hpb⟩ | ⟨-, -, hpx⟩
    · have hliveb := hlive.step (b := b) hd.not_writes hd.edge
      exact (inScope_iff.mp (hr.live b hd.mem v hliveb)).2 p hpb
    · exact hscope.2 p hpx
  · intro v hlive
    rw [h.thins.edits.entry] at hlive
    exact hr.live_entry v (h.liveIn hd hr hlive)

end Bypassed

end Func

end SsaBlocks
