import Mathlib.Data.Multiset.AddSub
import SsaBlocks.Proofs.Func.Formed

/-!
# How blocks are left

A block that has been filled ends in a return, a jump or a branch, or it falls through to the one
child that it owns. While a function is being filled some blocks are still open: they have no
children and no end. Which ones, is kept as a multiset, so that what is done to some of them says
nothing of the others.
-/

namespace SsaBlocks

open List

/-- How a block can be left: by its last instruction, or by falling through to a child. -/
inductive Exit where
  | ret (value : Option Temp)
  | jump (target : BlockId)
  | branch (cond : Temp) (otherwise target : BlockId)
  | fall (child : BlockId)
deriving DecidableEq, Repr

namespace Exit

/-- The instruction that ends the block. -/
def instruction? : Exit → Option Instruction
  | ret value => some (.ret value)
  | jump target => some (.jump target)
  | branch cond otherwise target => some (.branch cond otherwise target)
  | fall _ => none

/-- The blocks that follow. -/
def children : Exit → List BlockId
  | ret _ => []
  | jump target => [target]
  | branch _ otherwise target => [otherwise, target]
  | fall child => [child]

theorem isTerminator_of_mem {x : Exit} {i : Instruction} (h : i ∈ x.instruction?.toList) :
    i.isTerminator = true := by
  cases x <;> simp_all [instruction?, Instruction.isTerminator]

theorem eq_of_instruction? {x y : Exit} (h : x.instruction? = y.instruction?)
    (hchildren : x.children = y.children) : x = y := by
  cases x <;> cases y <;> simp_all [instruction?, children]

end Exit

/-- The code has no end. -/
def Unended (code : List Instruction) : Prop :=
  ∀ i ∈ code, i.isTerminator = false

theorem Unended.append {code : List Instruction} {inst : Instruction} (h : Unended code)
    (hinst : inst.isTerminator = false) : Unended (code ++ [inst]) := by
  intro i hi
  rcases mem_append.mp hi with hi | hi
  · exact h i hi
  · rwa [mem_singleton.mp hi]

theorem Unended.isTerminated {blk : Block} (h : Unended blk.code) : blk.isTerminated = false := by
  rw [Block.isTerminated]
  cases hfind : blk.code.reverse.find? Instruction.isCode with
  | none => rfl
  | some i => exact h i (mem_reverse.mp (mem_of_find?_eq_some hfind))

namespace Func

variable {fn fn' : Func} {b c o s t : BlockId} {x y : Exit} {os : Multiset BlockId}

/-- The block ends in the instruction of an exit, its only end, and has the children of it. A block
that falls through owns its child. -/
structure LeavesBy (fn : Func) (b : BlockId) (x : Exit) : Prop where
  code : ∃ code, Unended code ∧ (fn.block b).code = code ++ x.instruction?.toList
  children : (fn.block b).children = x.children
  owns : ∀ c, x = .fall c → (fn.block c).owner? = some b

namespace LeavesBy

/-- A block is left in one way. -/
theorem unique (hx : fn.LeavesBy b x) (hy : fn.LeavesBy b y) : x = y := by
  refine Exit.eq_of_instruction? ?_ (hx.children.symm.trans hy.children)
  obtain ⟨code, hcode, hx⟩ := hx.code
  obtain ⟨code', hcode', hy⟩ := hy.code
  rw [hx] at hy
  cases hxi : x.instruction? with
  | none =>
    cases hyi : y.instruction? with
    | none => rfl
    | some j =>
      have hend := Exit.isTerminator_of_mem (x := y) (i := j) (by simp [hyi])
      have hj : j ∈ code := by
        simp only [hxi, hyi, Option.toList_none, append_nil, Option.toList_some] at hy
        simp [hy]
      rw [hcode j hj] at hend
      cases hend
  | some i =>
    have hend := Exit.isTerminator_of_mem (x := x) (i := i) (by simp [hxi])
    cases hyi : y.instruction? with
    | none =>
      have hi : i ∈ code' := by
        simp only [hxi, hyi, Option.toList_none, append_nil, Option.toList_some] at hy
        simp [← hy]
      rw [hcode' i hi] at hend
      cases hend
    | some j =>
      simp only [hxi, hyi, Option.toList_some] at hy
      rw [(append_inj' hy rfl).2 |> singleton_inj.mp]

theorem congr (h : fn.LeavesBy b x) (hcode : (fn'.block b).code = (fn.block b).code)
    (hchildren : (fn'.block b).children = (fn.block b).children)
    (howner : ∀ c o, (fn.block c).owner? = some o → (fn'.block c).owner? = some o) :
    fn'.LeavesBy b x where
  code := hcode ▸ h.code
  children := hchildren.trans h.children
  owns c hc := howner c b (h.owns c hc)

end LeavesBy

/-- Code can be added to the block, and it leads nowhere yet. -/
structure Open (fn : Func) (b : BlockId) : Prop where
  lt : b < fn.blocks.size
  children : (fn.block b).children = []
  code : Unended (fn.block b).code

/-- The blocks `os` are open, and all others are left in one way. -/
structure Exits (fn : Func) (os : Multiset BlockId) : Prop where
  nodup : os.Nodup
  opened : ∀ b ∈ os, fn.Open b
  closed : ∀ b, b < fn.blocks.size → b ∉ os → ∃ x, fn.LeavesBy b x

namespace Exits

theorem head (h : fn.Exits (b ::ₘ os)) : fn.Open b :=
  h.opened b (Multiset.mem_cons_self b os)

/-- Neither the code nor the edges of any block have changed. -/
theorem of_same (h : fn.Exits os) (hsize : fn'.blocks.size = fn.blocks.size)
    (hcode : ∀ c, (fn'.block c).code = (fn.block c).code)
    (hchildren : ∀ c, (fn'.block c).children = (fn.block c).children)
    (hparents : ∀ c, (fn'.block c).parents = (fn.block c).parents) : fn'.Exits os where
  nodup := h.nodup
  opened b hb := by
    have hopen := h.opened b hb
    exact ⟨hsize ▸ hopen.lt, (hchildren b).trans hopen.children, hcode b ▸ hopen.code⟩
  closed b hb hos := by
    obtain ⟨x, hx⟩ := h.closed b (hsize ▸ hb) hos
    refine ⟨x, hx.congr (hcode b) (hchildren b) fun c o ho => ?_⟩
    rwa [Block.owner?, hparents]

theorem modify {f : Block → Block} (h : fn.Exits os)
    (hf : ∀ blk, (f blk).code = blk.code ∧ (f blk).children = blk.children ∧
      (f blk).parents = blk.parents) (b : BlockId) : (fn.modify b f).Exits os :=
  h.of_same (size_modify ..) (fun _ => proj_block_modify Block.code fun blk => (hf blk).1)
    (fun _ => proj_block_modify Block.children fun blk => (hf blk).2.1)
    fun _ => proj_block_modify Block.parents fun blk => (hf blk).2.2

end Exits

/-- The code and the children of all blocks but `old` are as they were, and owners are kept. -/
structure Spares (fn fn' : Func) (old : List BlockId) : Prop where
  size_le : fn.blocks.size ≤ fn'.blocks.size
  code : ∀ c, c < fn.blocks.size → c ∉ old → (fn'.block c).code = (fn.block c).code
  children : ∀ c, c < fn.blocks.size → c ∉ old → (fn'.block c).children = (fn.block c).children
  owner : ∀ c o, (fn.block c).owner? = some o → (fn'.block c).owner? = some o

namespace Spares

variable {fn'' : Func} {old : List BlockId}

theorem trans (h : fn.Spares fn' old) (k : fn'.Spares fn'' old) : fn.Spares fn'' old where
  size_le := h.size_le.trans k.size_le
  code c hc hold := (k.code c (hc.trans_le h.size_le) hold).trans (h.code c hc hold)
  children c hc hold := (k.children c (hc.trans_le h.size_le) hold).trans (h.children c hc hold)
  owner c o ho := k.owner c o (h.owner c o ho)

theorem append (hb : b ∈ old) (inst : Instruction) : fn.Spares (fn.append b inst) old where
  size_le := (size_append inst).ge
  code c _ hold := by
    rw [block_append_ne]
    rintro rfl
    exact hold hb
  children c _ _ := children_append inst
  owner c o ho := by rwa [Block.owner?, parents_append]

theorem addBlock {parents : List BlockId} (hnodup : parents.Nodup)
    (hlt : ∀ p ∈ parents, p < fn.blocks.size) (hparents : ∀ p ∈ parents, p ∈ old) :
    fn.Spares (fn.addBlock parents) old := by
  have hblock := block_addBlock hnodup hlt
  constructor
  · rw [size_addBlock]
    exact Nat.le_succ _
  · intro c hc _
    rw [hblock, if_neg hc.ne]
  · intro c hc hold
    have hmem : c ∉ parents := fun hmem => hold (hparents c hmem)
    rw [hblock, if_neg hc.ne, if_neg hmem]
    exact append_nil _
  · intro c o ho
    rw [Block.owner?, hblock, if_neg]
    · exact ho
    · rintro rfl
      rw [Graph.block_of_size_le le_rfl] at ho
      cases ho

theorem addEdge (hs : s < fn.blocks.size) (ht : t < fn.blocks.size) (hold : s ∈ old) :
    fn.Spares (fn.addEdge s t) old := by
  have hblock := block_addEdge hs ht
  constructor
  · exact (size_addEdge s t).ge
  · intro c _ _
    rw [hblock]
  · intro c _ hc
    have hcs : c ≠ s := by
      rintro rfl
      exact hc hold
    rw [hblock]
    exact if_neg hcs
  · intro c o ho
    rw [Block.owner?, hblock]
    split
    · rw [getLast?_cons]
      rw [Block.owner?] at ho
      simp [ho]
    · exact ho

end Spares

namespace Exits

/-- Some blocks are closed and others opened, all others being as they were. -/
theorem replace (old new : List BlockId) {os₀ : Multiset BlockId} (h : fn.Exits os₀)
    (hle : os ≤ os₀) (hspares : fn.Spares fn' old) (hold : ∀ c, c ∈ old → c ∉ os)
    (hcover : ∀ c ∈ os₀, c ∈ old ∨ c ∈ os) (hnodup : new.Nodup)
    (hnew : ∀ c ∈ new, c ∉ os ∧ fn'.Open c)
    (hsize : ∀ c, fn.blocks.size ≤ c → c < fn'.blocks.size → c ∈ new)
    (hclosed : ∀ c ∈ old, c ∉ new → ∃ x, fn'.LeavesBy c x) : fn'.Exits (new + os) := by
  constructor
  · refine Multiset.nodup_add.mpr
      ⟨Multiset.coe_nodup.mpr hnodup, Multiset.nodup_of_le hle h.nodup, ?_⟩
    exact Multiset.disjoint_left.mpr fun hc => (hnew _ hc).1
  · intro c hc
    rcases Multiset.mem_add.mp hc with hc | hc
    · exact (hnew c hc).2
    · have hopen := h.opened c (Multiset.mem_of_le hle hc)
      have hcold : c ∉ old := fun hmem => hold c hmem hc
      exact ⟨hopen.lt.trans_le hspares.size_le,
        (hspares.children c hopen.lt hcold).trans hopen.children,
        hspares.code c hopen.lt hcold ▸ hopen.code⟩
  · intro c hc hmem
    rw [Multiset.mem_add, not_or] at hmem
    by_cases hcold : c ∈ old
    · exact hclosed c hcold hmem.1
    · have hlt : c < fn.blocks.size := by
        by_contra hlt
        exact hmem.1 (hsize c (Nat.not_lt.mp hlt) hc)
      have hos₀ : c ∉ os₀ := fun hos₀ => (hcover c hos₀).elim hcold hmem.2
      obtain ⟨x, hx⟩ := h.closed c hlt hos₀
      exact ⟨x, hx.congr (hspares.code c hlt hcold) (hspares.children c hlt hcold) hspares.owner⟩

/-- An open block is closed and others opened. -/
theorem replace_head (new : List BlockId) (h : fn.Exits (b ::ₘ os)) (hspares : fn.Spares fn' [b])
    (hnodup : new.Nodup) (hnew : ∀ c ∈ new, c ∉ os ∧ fn'.Open c)
    (hsize : ∀ c, fn.blocks.size ≤ c → c < fn'.blocks.size → c ∈ new)
    (hclosed : b ∉ new → ∃ x, fn'.LeavesBy b x) : fn'.Exits (new + os) := by
  refine h.replace [b] new (Multiset.le_cons_self os b) hspares ?_ ?_ hnodup hnew hsize ?_
  · intro c hc
    rw [mem_singleton.mp hc]
    exact (Multiset.nodup_cons.mp h.nodup).1
  · simp
  · intro c hc
    rwa [mem_singleton.mp hc]

/-- A block that is left in one way is left in another, and blocks are opened. -/
theorem replace_closed (new : List BlockId) (h : fn.Exits os) (hb : b ∉ os)
    (hspares : fn.Spares fn' [b]) (hnodup : new.Nodup) (hnew : ∀ c ∈ new, c ∉ os ∧ fn'.Open c)
    (hsize : ∀ c, fn.blocks.size ≤ c → c < fn'.blocks.size → c ∈ new)
    (hclosed : b ∉ new → ∃ x, fn'.LeavesBy b x) : fn'.Exits (new + os) := by
  refine h.replace [b] new le_rfl hspares ?_ (fun _ => .inr) hnodup hnew hsize ?_
  · intro c hc
    rwa [mem_singleton.mp hc]
  · intro c hc
    rwa [mem_singleton.mp hc]

/-- The number of the next block is not in use. -/
theorem not_mem_of_size_le (h : fn.Exits os) (hc : fn.blocks.size ≤ c) : c ∉ os := fun hmem =>
  Nat.not_le.mpr (h.opened c hmem).lt hc

theorem not_mem_tail (h : fn.Exits (b ::ₘ os)) : b ∉ os :=
  (Multiset.nodup_cons.mp h.nodup).1

/-! ### Closing blocks -/

theorem not_lt_size_append {inst : Instruction} {new : List BlockId} (hc : fn.blocks.size ≤ c)
    (hlt : c < (fn.append b inst).blocks.size) : c ∈ new := by
  rw [size_append] at hlt
  exact absurd hlt (Nat.not_lt.mpr hc)

theorem mem_of_lt_size_addBlock {parents : List BlockId} {inst : Instruction}
    (hc : fn.blocks.size ≤ c) (hlt : c < ((fn.addBlock parents).append b inst).blocks.size) :
    c ∈ [fn.blocks.size] := by
  rw [size_append, size_addBlock] at hlt
  exact mem_singleton.mpr (Nat.le_antisymm (Nat.le_of_lt_succ hlt) hc)

/-- An instruction that does not end the block. -/
theorem append {inst : Instruction} (h : fn.Exits (b ::ₘ os)) (hinst : inst.isTerminator = false) :
    (fn.append b inst).Exits (b ::ₘ os) := by
  have hb := h.head
  refine h.replace_head [b] (.append (mem_singleton_self b) inst)
    (nodup_singleton b) ?_ (fun c => not_lt_size_append) (by simp)
  intro c hc
  obtain rfl := mem_singleton.mp hc
  refine ⟨h.not_mem_tail, (size_append inst).symm ▸ hb.lt,
    (children_append inst).trans hb.children, ?_⟩
  rw [block_append_self hb.lt]
  exact hb.code.append hinst

theorem ret (h : fn.Exits (b ::ₘ os)) (value : Option Temp) :
    (fn.append b (.ret value)).Exits os := by
  have hb := h.head
  rw [← zero_add os]
  refine h.replace_head [] (.append (mem_singleton_self b) _)
    nodup_nil (by simp) (fun c => not_lt_size_append) fun _ => ?_
  refine ⟨.ret value, ⟨(fn.block b).code, hb.code, ?_⟩, ?_, by simp⟩
  · rw [block_append_self hb.lt]
    rfl
  · rw [children_append]
    exact hb.children

/-- A new block is open. -/
theorem open_addBlock {parents : List BlockId} (hnodup : parents.Nodup)
    (hlt : ∀ p ∈ parents, p < fn.blocks.size) : (fn.addBlock parents).Open fn.blocks.size := by
  constructor
  · rw [size_addBlock]
    exact Nat.lt_succ_self _
  · rw [block_addBlock hnodup hlt, if_pos rfl]
  · rw [block_addBlock hnodup hlt, if_pos rfl]
    intro i hi
    simp at hi

/-- Another block gets an instruction. -/
theorem open_append {inst : Instruction} (h : fn.Open c) (hc : c ≠ b) :
    (fn.append b inst).Open c := by
  refine ⟨(size_append inst).symm ▸ h.lt, (children_append inst).trans h.children, ?_⟩
  rw [block_append_ne hc]
  exact h.code

/-- A new block that the open one falls through to. -/
theorem fall (h : fn.Exits (b ::ₘ os)) :
    (fn.addBlock [b]).Exits (fn.blocks.size ::ₘ os) ∧
      (fn.addBlock [b]).LeavesBy b (.fall fn.blocks.size) := by
  have hb := h.head
  have hlt : ∀ p ∈ [b], p < fn.blocks.size := by simpa using hb.lt
  have hblock := block_addBlock (nodup_singleton b) hlt
  have hfall : (fn.addBlock [b]).LeavesBy b (.fall fn.blocks.size) := by
    refine ⟨⟨(fn.block b).code, hb.code, ?_⟩, ?_, ?_⟩
    · rw [hblock, if_neg hb.lt.ne]
      exact (append_nil _).symm
    · rw [hblock, if_neg hb.lt.ne, if_pos (mem_singleton_self b), hb.children]
      rfl
    · intro n hn
      cases hn
      rw [hblock, if_pos rfl]
      rfl
  refine ⟨h.replace_head [fn.blocks.size] ?_ (nodup_singleton _) ?_ ?_
    fun _ => ⟨_, hfall⟩, hfall⟩
  · exact .addBlock (nodup_singleton b) hlt fun _ hp => hp
  · intro c hc
    obtain rfl := mem_singleton.mp hc
    exact ⟨fun hmem => h.not_mem_of_size_le le_rfl (Multiset.mem_cons_of_mem hmem),
      open_addBlock (nodup_singleton b) hlt⟩
  · intro c hc hlt
    rw [size_addBlock] at hlt
    exact mem_singleton.mpr (Nat.le_antisymm (Nat.le_of_lt_succ hlt) hc)

/-- A block that falls through is given a jump instead. -/
theorem jump (h : fn.Exits os) (hb : fn.LeavesBy b (.fall t)) (hlt : b < fn.blocks.size)
    (hos : b ∉ os) : (fn.append b (.jump t)).Exits os := by
  rw [← zero_add os]
  refine h.replace_closed [] hos (.append (mem_singleton_self b) _) nodup_nil
    (by simp) (fun c => not_lt_size_append) fun _ => ?_
  obtain ⟨code, hcode, heq⟩ := hb.code
  refine ⟨.jump t, ⟨code, hcode, ?_⟩, ?_, by simp⟩
  · rw [block_append_self hlt, heq]
    exact congrArg (· ++ _) (append_nil code)
  · rw [children_append]
    exact hb.children

/-- A block that falls through is given a second child and a choice between the two. -/
theorem branch (h : fn.Exits os) (hb : fn.LeavesBy b (.fall t)) (hlt : b < fn.blocks.size)
    (hos : b ∉ os) (cond : Temp) :
    ((fn.addBlock [b]).append b (.branch cond t fn.blocks.size)).Exits
      (fn.blocks.size ::ₘ os) := by
  have hparents : ∀ p ∈ [b], p < fn.blocks.size := by simpa using hlt
  have hblock := block_addBlock (nodup_singleton b) hparents
  have hlt' : b < (fn.addBlock [b]).blocks.size := by
    rw [size_addBlock]
    exact hlt.trans (Nat.lt_succ_self _)
  refine h.replace_closed [fn.blocks.size] hos ?_ (nodup_singleton _) ?_
    (fun c => mem_of_lt_size_addBlock) fun _ => ?_
  · exact (Spares.addBlock (nodup_singleton b) hparents fun _ hp => hp).trans
      (.append (mem_singleton_self b) _)
  · intro c hc
    obtain rfl := mem_singleton.mp hc
    exact ⟨h.not_mem_of_size_le le_rfl,
      open_append (open_addBlock (nodup_singleton b) hparents) hlt.ne'⟩
  · obtain ⟨code, hcode, heq⟩ := hb.code
    refine ⟨.branch cond t fn.blocks.size, ⟨code, hcode, ?_⟩, ?_, by simp⟩
    · rw [block_append_self hlt', hblock, if_neg hlt.ne]
      exact congrArg (· ++ _) (heq.trans (append_nil code))
    · rw [children_append, hblock, if_neg hlt.ne, if_pos (mem_singleton_self b), hb.children]
      rfl

/-- Two blocks meet in a new one: the first jumps to it and the second falls through. -/
theorem join (h : fn.Exits (s ::ₘ t ::ₘ os)) :
    ((fn.addBlock [s, t]).append s (.jump fn.blocks.size)).Exits (fn.blocks.size ::ₘ os) := by
  have hs := h.head
  have ht : fn.Open t := h.opened t (by simp)
  have hst : s ≠ t := fun heq => h.not_mem_tail (by simp [heq])
  have hnodup : [s, t].Nodup := by simpa using hst
  have hlt : ∀ p ∈ [s, t], p < fn.blocks.size := by
    intro p hp
    rcases mem_pair.mp hp with rfl | rfl
    · exact hs.lt
    · exact ht.lt
  have hblock := block_addBlock hnodup hlt
  have hlt' : s < (fn.addBlock [s, t]).blocks.size := by
    rw [size_addBlock]
    exact hs.lt.trans (Nat.lt_succ_self _)
  refine h.replace [s, t] [fn.blocks.size] ?_
    ((Spares.addBlock hnodup hlt fun _ hp => hp).trans (.append (by simp) _)) ?_ ?_
    (nodup_singleton _) ?_ (fun c => mem_of_lt_size_addBlock) ?_
  · exact (Multiset.le_cons_self os t).trans (Multiset.le_cons_self _ s)
  · intro c hc
    rcases mem_pair.mp hc with rfl | rfl
    · exact fun hmem => h.not_mem_tail (Multiset.mem_cons_of_mem hmem)
    · exact (Multiset.nodup_cons.mp (Multiset.nodup_cons.mp h.nodup).2).1
  · intro c hc
    simpa [or_assoc] using hc
  · intro c hc
    obtain rfl := mem_singleton.mp hc
    exact ⟨fun hmem => h.not_mem_of_size_le le_rfl (by simp [hmem]),
      open_append (open_addBlock hnodup hlt) hs.lt.ne'⟩
  · intro c hc _
    rcases mem_pair.mp hc with rfl | rfl
    · refine ⟨.jump fn.blocks.size, ⟨(fn.block c).code, hs.code, ?_⟩, ?_, by simp⟩
      · rw [block_append_self hlt', hblock, if_neg hs.lt.ne]
        rfl
      · rw [children_append, hblock, if_neg hs.lt.ne]
        simp [hs.children, Exit.children]
    · refine ⟨.fall fn.blocks.size, ⟨(fn.block c).code, ht.code, ?_⟩, ?_, ?_⟩
      · rw [block_append_ne hst.symm, hblock, if_neg ht.lt.ne]
        exact (append_nil _).symm
      · rw [children_append, hblock, if_neg ht.lt.ne]
        simp [ht.children, Exit.children]
      · intro n hn
        cases hn
        rw [Block.owner?, parents_append, hblock, if_pos rfl]
        rfl

/-- An open block is sent to one that has an owner. -/
theorem link (h : fn.Exits (s ::ₘ os)) (ht : t < fn.blocks.size) :
    ((fn.addEdge s t).append s (.jump t)).Exits os := by
  have hs := h.head
  have hblock := block_addEdge hs.lt ht
  rw [← zero_add os]
  refine h.replace_head [] ((Spares.addEdge hs.lt ht (mem_singleton_self s)).trans
    (.append (mem_singleton_self s) _)) nodup_nil (by simp) ?_ fun _ => ?_
  · intro c hc hlt
    rw [size_append, size_addEdge] at hlt
    exact absurd hlt (Nat.not_lt.mpr hc)
  · refine ⟨.jump t, ⟨(fn.block s).code, hs.code, ?_⟩, ?_, by simp⟩
    · rw [block_append_self ((size_addEdge s t).symm ▸ hs.lt), hblock]
      rfl
    · rw [children_append, hblock, if_pos rfl, hs.children]
      rfl

end Exits

/-- The order in which a jump and its edge are added does not matter. -/
theorem addEdge_append (fn : Func) (s t : BlockId) (inst : Instruction) :
    (fn.append s inst).addEdge s t = (fn.addEdge s t).append s inst := by
  simp only [addEdge, append, modify]
  congr 2
  refine Array.ext (by simp) fun i hi hi' => ?_
  simp only [Array.getElem_modify]
  split_ifs <;> rfl

end Func

end SsaBlocks
