import SsaBlocks.Proofs.Flow.Passes
import SsaBlocks.Proofs.Func.Build
import SsaBlocks.Proofs.Func.Ready

/-!
# Functions that grow

Lowering adds blocks and instructions and takes nothing back. What is lowered from a block changes
that block and new ones only, and no edge leads from another block to a new one. So the block
dominates everything that grows from it, and what was known of other blocks stays true.
-/

namespace SsaBlocks

open List

namespace Func

open SsaBlocks.Flow

variable {fn fn' fn'' : Func} {b c p x : BlockId} {v : Variable} {t : Temp} {n : Nat}

/-! ## The blocks after a primitive -/

theorem block_push (blk : Block) (c : BlockId) :
    ({ fn with blocks := fn.blocks.push blk } : Func).block c =
      if c = fn.blocks.size then blk else fn.block c := by
  simp only [Graph.block, Array.getD, Array.size_push]
  by_cases hc : c = fn.blocks.size
  · subst hc
    simp
  · by_cases hlt : c < fn.blocks.size
    · simp [hc, hlt, Nat.lt_succ_of_lt hlt, Array.getElem_push_lt]
    · have hlt' : ¬ c < fn.blocks.size + 1 :=
        Nat.not_lt.mpr (Nat.lt_of_le_of_ne (Nat.not_lt.mp hlt) (Ne.symm hc))
      simp [hc, hlt, hlt']

/-- The variables that a block with the given parents starts with. -/
def aliveIn (fn : Func) (parents : List BlockId) : KeySet Variable :=
  parents.foldl (fun s p => s.union (fn.block p).alive) {}

theorem mem_aliveIn {parents : List BlockId} :
    v ∈ fn.aliveIn parents ↔ ∃ p ∈ parents, v ∈ (fn.block p).alive := by
  have hfold : ∀ s : KeySet Variable,
      v ∈ parents.foldl (fun s p => s.union (fn.block p).alive) s ↔
        v ∈ s ∨ ∃ p ∈ parents, v ∈ (fn.block p).alive := by
    induction parents with
    | nil => simp
    | cons p rest ih =>
      intro s
      rw [foldl_cons, ih, KeySet.mem_union, exists_mem_cons_iff, or_assoc]
  rw [aliveIn, hfold]
  exact or_iff_right (KeySet.not_mem_empty v)

/-- A block is added and linked to each of its parents. -/
theorem block_addBlock {parents : List BlockId} (hnodup : parents.Nodup)
    (hlt : ∀ p ∈ parents, p < fn.blocks.size) (c : BlockId) :
    (fn.addBlock parents).block c =
      if c = fn.blocks.size then { home := fn.entry, parents, alive := fn.aliveIn parents }
      else { fn.block c with
        children := (fn.block c).children ++ if c ∈ parents then [fn.blocks.size] else [] } := by
  -- the fold links one parent after the other
  have hfold := foldl_invariant (fun done (cur : Func) => cur.blocks.size = fn.blocks.size + 1 ∧
      ∀ c, cur.block c =
        if c = fn.blocks.size then { home := fn.entry, parents := done, alive := fn.aliveIn done }
        else { fn.block c with
          children := (fn.block c).children ++ if c ∈ done then [fn.blocks.size] else [] })
    (f := linkParent fn.blocks.size) (l := parents)
    (s := { fn with blocks := fn.blocks.push { home := fn.entry } }) ?_ ?_
  · exact hfold.2 c
  · refine ⟨by simp, fun c => ?_⟩
    rw [block_push]
    by_cases hc : c = fn.blocks.size
    · simp only [hc, if_true]
      rfl
    · simp [hc]
  · rintro done p rest cur hsplit ⟨hsize, hblock⟩
    have hp : p < fn.blocks.size := hlt p (by simp [hsplit])
    have hdone : p ∉ done := by
      rw [hsplit, nodup_append] at hnodup
      exact fun hmem => hnodup.2.2 p hmem p (by simp) rfl
    have halive : (cur.block p).alive = (fn.block p).alive := by
      rw [hblock, if_neg hp.ne]
    have hncur : fn.blocks.size < cur.blocks.size := by omega
    have hpcur : p < cur.blocks.size := hp.trans hncur
    refine ⟨by simp [linkParent, hsize], fun c => ?_⟩
    rw [linkParent, halive, block_modify _ _ _ _ (by rwa [size_modify]),
      block_modify _ _ _ _ hpcur]
    by_cases hc : c = fn.blocks.size
    · subst hc
      rw [if_pos rfl, if_neg hp.ne, hblock, if_pos rfl, if_pos rfl]
      simp [aliveIn, foldl_append]
    · rw [if_neg (Ne.symm hc), hblock, if_neg hc, if_neg hc]
      by_cases hpc : p = c
      · subst hpc
        simp [hdone]
      · have hcp : c ≠ p := Ne.symm hpc
        simp [hpc, hcp]

theorem code_addBlock {parents : List BlockId} (hnodup : parents.Nodup)
    (hlt : ∀ p ∈ parents, p < fn.blocks.size) (c : BlockId) :
    ((fn.addBlock parents).block c).code = (fn.block c).code := by
  rw [block_addBlock hnodup hlt]
  split
  · next hc => rw [hc, Graph.block_of_size_le le_rfl]
  · rfl

theorem size_addBlock (parents : List BlockId) :
    (fn.addBlock parents).blocks.size = fn.blocks.size + 1 := by
  have hfold : ∀ cur : Func, (parents.foldl (linkParent fn.blocks.size) cur).blocks.size =
      cur.blocks.size := by
    induction parents with
    | nil => exact fun _ => rfl
    | cons p rest ih =>
      intro cur
      rw [foldl_cons, ih, linkParent, size_modify, size_modify]
  rw [addBlock, hfold]
  simp

/-- Adding a block changes nothing but blocks. -/
theorem edits_addBlock (parents : List BlockId) :
    Edits { fn with blocks := fn.blocks.push { home := fn.entry } } (fn.addBlock parents) :=
  .foldl (fun cur p => (Edits.modify cur p _).trans (.modify ..)) parents _

theorem block_addEdge {source target : BlockId} (hs : source < fn.blocks.size)
    (ht : target < fn.blocks.size) (c : BlockId) :
    (fn.addEdge source target).block c = { fn.block c with
      parents := if c = target then source :: (fn.block c).parents else (fn.block c).parents
      children := if c = source then (fn.block c).children ++ [target]
        else (fn.block c).children } := by
  rw [addEdge, block_modify _ _ _ _ (by rwa [size_modify]), block_modify _ _ _ _ hs]
  by_cases hct : c = target
  · by_cases hcs : c = source
    · simp [← hct, ← hcs]
    · simp [← hct, hcs, Ne.symm hcs]
  · by_cases hcs : c = source
    · simp [hct, Ne.symm hct, ← hcs]
    · simp [hct, Ne.symm hct, hcs, Ne.symm hcs]

theorem size_addEdge (source target : BlockId) :
    (fn.addEdge source target).blocks.size = fn.blocks.size := by
  rw [addEdge, size_modify, size_modify]

theorem block_append_self (hb : b < fn.blocks.size) (inst : Instruction) :
    (fn.append b inst).block b = { fn.block b with code := (fn.block b).code ++ [inst] } :=
  block_modify_self hb

theorem block_append_ne (hc : c ≠ b) (inst : Instruction) :
    (fn.append b inst).block c = fn.block c :=
  block_modify_ne (Ne.symm hc)

@[simp] theorem size_append (inst : Instruction) :
    (fn.append b inst).blocks.size = fn.blocks.size :=
  size_modify ..

@[simp] theorem parents_append (inst : Instruction) :
    ((fn.append b inst).block c).parents = (fn.block c).parents := by
  rw [append]
  exact proj_block_modify Block.parents fun _ => rfl

@[simp] theorem children_append (inst : Instruction) :
    ((fn.append b inst).block c).children = (fn.block c).children := by
  rw [append]
  exact proj_block_modify Block.children fun _ => rfl

theorem block_await_self (hb : b < fn.blocks.size) (v : Variable) (t : Temp) :
    (fn.await b v t).block b =
      { fn.block b with awaited := (fn.block b).awaited.insert v t } :=
  block_modify_self hb

theorem block_await_ne (hc : c ≠ b) (v : Variable) (t : Temp) :
    (fn.await b v t).block c = fn.block c :=
  block_modify_ne (Ne.symm hc)

/-! ## Growing from a block -/

end Func

/-- More has been put into a block, which is entered from the same blocks. -/
structure Block.Extends (blk blk' : Block) : Prop where
  parents : blk'.parents = blk.parents
  code : blk.code <+: blk'.code
  awaited : ∀ v t, blk.awaited.get? v = some t → blk'.awaited.get? v = some t
  declared : ∀ v ∈ blk.declared, v ∈ blk'.declared

namespace Block.Extends

variable {blk blk' blk'' : Block}

theorem refl (blk : Block) : blk.Extends blk :=
  ⟨rfl, prefix_rfl, fun _ _ h => h, fun _ h => h⟩

theorem trans (h : blk.Extends blk') (k : blk'.Extends blk'') : blk.Extends blk'' where
  parents := k.parents.trans h.parents
  code := h.code.trans k.code
  awaited v t ht := k.awaited v t (h.awaited v t ht)
  declared v hv := k.declared v (h.declared v hv)

end Block.Extends

namespace Func

open SsaBlocks.Flow

variable {fn fn' fn'' : Func} {b c p x : BlockId} {v : Variable} {t : Temp} {n : Nat}

/-- The block is `b`, or newer than the function. -/
def Within (fn : Func) (b x : BlockId) : Prop :=
  x = b ∨ fn.blocks.size ≤ x

theorem Within.refl (fn : Func) (b : BlockId) : fn.Within b b := .inl rfl

theorem Within.eq_of_lt (h : fn.Within b x) (hx : x < fn.blocks.size) : x = b :=
  h.resolve_right (Nat.not_le.mpr hx)

theorem Makes.lt_read (h : fn.Makes (.read b v) t) : b < fn.blocks.size := by
  by_contra hb
  rw [Makes, Graph.block_of_size_le (Nat.not_lt.mp hb)] at h
  cases h

theorem Makes.lt_result (h : fn.Makes (.result b n) t) : b < fn.blocks.size := by
  by_contra hb
  rw [Makes, Graph.block_of_size_le (Nat.not_lt.mp hb)] at h
  simp at h

/-- The function has grown from the block `b`: other blocks are as they were, and new ones are
entered from `b` or from new ones. -/
structure Grows (fn fn' : Func) (b : BlockId) : Prop where
  lt : b < fn.blocks.size
  same : { fn' with toGraph := fn.toGraph } = fn
  size_le : fn.blocks.size ≤ fn'.blocks.size
  temps_le : fn.temps.size ≤ fn'.temps.size
  extends_self : (fn.block b).Extends (fn'.block b)
  other : ∀ c, c < fn.blocks.size → c ≠ b → fn'.block c = fn.block c
  parents_new : ∀ c p, fn.blocks.size ≤ c → p ∈ (fn'.block c).parents → fn.Within b p

namespace Grows

theorem refl (hb : b < fn.blocks.size) : fn.Grows fn b where
  lt := hb
  same := rfl
  size_le := le_rfl
  temps_le := le_rfl
  extends_self := .refl _
  other _ _ _ := rfl
  parents_new c p hc hp := by
    rw [Graph.block_of_size_le hc] at hp
    simp at hp

theorem extends_old (h : fn.Grows fn' b) (hc : c < fn.blocks.size) :
    (fn.block c).Extends (fn'.block c) := by
  by_cases hcb : c = b
  · exact hcb ▸ h.extends_self
  · exact h.other c hc hcb ▸ .refl _

theorem trans {b' : BlockId} (h : fn.Grows fn' b) (k : fn'.Grows fn'' b') (hb' : fn.Within b b') :
    fn.Grows fn'' b where
  lt := h.lt
  same := by
    have heq := congrArg (fun f : Func => { f with toGraph := fn.toGraph }) k.same
    exact heq.trans h.same
  size_le := h.size_le.trans k.size_le
  temps_le := h.temps_le.trans k.temps_le
  extends_self := h.extends_self.trans (k.extends_old (h.lt.trans_le h.size_le))
  other c hc hcb := by
    -- an old block other than `b` is not `b'` either
    have hcb' : c ≠ b' := by
      rintro rfl
      exact hcb (hb'.eq_of_lt hc)
    rw [k.other c (hc.trans_le h.size_le) hcb', h.other c hc hcb]
  parents_new c p hc hp := by
    by_cases hc' : c < fn'.blocks.size
    · rw [(k.extends_old hc').parents] at hp
      exact h.parents_new c p hc hp
    · rcases k.parents_new c p (Nat.not_lt.mp hc') hp with rfl | hp
      · exact hb'
      · exact .inr (h.size_le.trans hp)

/-! ### Primitives -/

section Block

variable (hb : b < fn.blocks.size)
include hb

theorem modify {f : Block → Block}
    (hf : (fn.block b).Extends (f (fn.block b))) : fn.Grows (fn.modify b f) b where
  lt := hb
  same := rfl
  size_le := (size_modify ..).ge
  temps_le := le_rfl
  extends_self := by rwa [block_modify_self hb]
  other c hc hcb := block_modify_ne (Ne.symm hcb)
  parents_new c p hc hp := by
    rw [Graph.block_of_size_le (by rwa [size_modify])] at hp
    simp at hp

theorem addTemp (x : BlockId) : fn.Grows (fn.addTemp x) b :=
  { refl hb with temps_le := by simp [Func.addTemp] }

theorem append (inst : Instruction) : fn.Grows (fn.append b inst) b :=
  modify hb ⟨rfl, prefix_append .., fun _ _ h => h, fun _ h => h⟩

theorem keepConst (type : ValueType) (w : Int64) (t : Temp) :
    fn.Grows (fn.keepConst b type w t) b :=
  modify hb ⟨rfl, prefix_rfl, fun _ _ h => h, fun _ h => h⟩

theorem write (v : Variable) (t : Temp) : fn.Grows (fn.write b v t) b :=
  modify hb ⟨rfl, prefix_rfl, fun _ _ h => h, fun _ h => h⟩

theorem declare (v : Variable) (t : Temp) : fn.Grows (fn.declare b v t) b := by
  refine modify hb ⟨rfl, prefix_rfl, fun _ _ h => h, fun w hw => ?_⟩
  exact KeySet.mem_insert.mpr (.inr hw)

theorem await (hv : (fn.block b).awaited.get? v = none) (t : Temp) :
    fn.Grows (fn.await b v t) b := by
  refine modify hb ⟨rfl, prefix_rfl, fun w u hw => ?_, fun _ h => h⟩
  rw [Table.get?_insert, if_neg]
  · exact hw
  · rintro rfl
    rw [hv] at hw
    cases hw

end Block

variable (h : fn.Grows fn' b)
include h

theorem addBlock {parents : List BlockId} (hnodup : parents.Nodup)
    (hlt : ∀ p ∈ parents, p < fn'.blocks.size) (hwithin : ∀ p ∈ parents, fn.Within b p) :
    fn.Grows (fn'.addBlock parents) b := by
  have hblock := block_addBlock hnodup hlt
  have hsize : (fn'.addBlock parents).blocks.size = fn'.blocks.size + 1 := size_addBlock parents
  have hedits : Edits { fn' with blocks := fn'.blocks.push { home := fn'.entry } }
      (fn'.addBlock parents) := edits_addBlock parents
  constructor
  case lt => exact h.lt
  case same =>
    have heq := congrArg (fun f : Func => { f with toGraph := fn.toGraph }) hedits.eq
    exact heq.trans h.same
  case size_le => exact h.size_le.trans (by omega)
  case temps_le => exact h.temps_le.trans_eq (congrArg Array.size hedits.temps.symm)
  case extends_self =>
    rw [hblock, if_neg (h.lt.trans_le h.size_le).ne]
    exact h.extends_self.trans ⟨rfl, prefix_rfl, fun _ _ h => h, fun _ h => h⟩
  case other =>
    intro c hc hcb
    have hmem : c ∉ parents := fun hmem => hcb ((hwithin c hmem).eq_of_lt hc)
    rw [hblock, if_neg (hc.trans_le h.size_le).ne, if_neg hmem, append_nil]
    exact h.other c hc hcb
  case parents_new =>
    intro c p hc hp
    rw [hblock] at hp
    split at hp
    · exact hwithin p hp
    · exact h.parents_new c p hc hp

theorem addEdge {source target : BlockId} (hs : source < fn'.blocks.size)
    (ht : target < fn'.blocks.size) (hsource : fn.Within b source)
    (htarget : fn.blocks.size ≤ target) : fn.Grows (fn'.addEdge source target) b := by
  have hblock := block_addEdge hs ht
  have hne : ∀ c, c < fn.blocks.size → c ≠ target := fun c hc =>
    (hc.trans_le htarget).ne
  constructor
  case lt => exact h.lt
  case same => exact h.same
  case size_le => exact h.size_le.trans_eq (size_addEdge ..).symm
  case temps_le => exact h.temps_le
  case extends_self =>
    rw [hblock, if_neg (hne b h.lt)]
    exact h.extends_self.trans ⟨rfl, prefix_rfl, fun _ _ h => h, fun _ h => h⟩
  case other =>
    intro c hc hcb
    have hcs : c ≠ source := by
      rintro rfl
      exact hcb (hsource.eq_of_lt hc)
    rw [hblock, if_neg (hne c hc), if_neg hcs]
    exact h.other c hc hcb
  case parents_new =>
    intro c p hc hp
    rw [hblock] at hp
    by_cases hct : c = target
    · simp only [hct, if_true, mem_cons] at hp
      rcases hp with rfl | hp
      · exact hsource
      · exact h.parents_new target p htarget hp
    · simp only [hct, if_false] at hp
      exact h.parents_new c p hc hp

/-! ### What walks pass -/

theorem entry : fn'.entry = fn.entry := by rw [← h.same]

theorem paramTemps : fn'.paramTemps = fn.paramTemps := by rw [← h.same]

/-- Walks to the blocks of the function are what they were. -/
theorem passes {P : BlockId → Prop}
    (hedges : ∀ a c, fn.Edge a c → a < fn.blocks.size) (hc : c < fn.blocks.size)
    (hpass : Passes fn.Edge fn.entry P c) : Passes fn'.Edge fn'.entry P c := by
  rw [h.entry]
  refine hpass.of_closed (S := (· < fn.blocks.size)) (fun x y hy hxy => ?_) hc
  rw [Graph.Edge, (h.extends_old hy).parents] at hxy
  exact ⟨hxy, hedges x y hxy⟩

/-- All that has grown from a block is dominated by it. -/
theorem dominates (hentry : fn.entry < fn.blocks.size)
    (hx : fn.Within b x) : Dominates fn'.Edge fn'.entry b x := by
  intro l
  induction hn : l.length generalizing x l with
  | zero =>
    intro hl
    obtain rfl := eq_nil_of_length_eq_zero hn
    cases hl
    rw [h.entry] at hx ⊢
    exact .inr (hx.eq_of_lt hentry).symm
  | succ n ih =>
    intro hl
    rcases hl.eq_nil_or_snoc with ⟨rfl, -⟩ | ⟨m, p, rfl, hm, hp⟩
    · simp at hn
    · rcases hx with rfl | hx
      · exact .inr rfl
      · rcases ih (h.parents_new x p hx hp) m (by simpa using hn) hm with hb | rfl
        · exact .inl (mem_append_left _ hb)
        · exact .inl (by simp)

theorem dominates_old (hedges : ∀ a c, fn.Edge a c → a < fn.blocks.size)
    (hc : c < fn.blocks.size) (hdom : Dominates fn.Edge fn.entry x c) :
    Dominates fn'.Edge fn'.entry x c :=
  dominates_iff_passes.mpr (h.passes hedges hc (dominates_iff_passes.mp hdom))

/-! ### Temporaries -/

theorem makes {s : Source} (hs : fn.Makes s t) : fn'.Makes s t := by
  cases s with
  | param i =>
    rw [Makes, h.paramTemps]
    exact hs
  | read c v =>
    have hc : c < fn.blocks.size := hs.lt_read
    exact (h.extends_old hc).awaited v t hs
  | result c i =>
    have hc : c < fn.blocks.size := hs.lt_result
    obtain ⟨inst, hinst, ht⟩ := hs
    obtain ⟨rest, hrest⟩ := (h.extends_old hc).code
    refine ⟨inst, ?_, ht⟩
    rw [← hrest, List.getElem?_append_left (List.getElem?_eq_some_iff.mp hinst).1, hinst]

/-- A temporary that is known at the end of the block is known in all that grows from it. -/
theorem available (hentry : fn.entry < fn.blocks.size)
    (hedges : ∀ a c, fn.Edge a c → a < fn.blocks.size)
    (ht : fn.Available b (fn.block b).code.length t) (hx : fn.Within b x) :
    fn'.Available x (fn'.block x).code.length t := by
  obtain ⟨s, hs, hbefore⟩ := ht
  have hbx := h.dominates hentry hx
  refine ⟨s, h.makes hs, ?_⟩
  cases s with
  | param i => trivial
  | read c v => exact (h.dominates_old hedges h.lt hbefore).trans hbx
  | result c i =>
    rcases hbefore with ⟨rfl, hi⟩ | hc
    · rcases hx with rfl | hx
      · exact .inl ⟨rfl, hi.trans_le h.extends_self.code.length_le⟩
      · exact .inr ⟨hbx, (h.lt.trans_le hx).ne⟩
    · refine .inr ⟨(h.dominates_old hedges h.lt hc.1).trans hbx, ?_⟩
      rcases hx with rfl | hx
      · exact hc.2
      · exact (hs.lt_result.trans_le hx).ne

end Grows

end Func

end SsaBlocks
