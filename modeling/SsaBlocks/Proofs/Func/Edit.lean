import Mathlib.Algebra.BigOperators.Group.Finset.Basic
import Mathlib.Data.List.Nodup
import Mathlib.Tactic.Common
import SsaBlocks.Func.Basic

/-!
# Editing blocks

How a function is seen through `block` after some of its blocks were changed, and the relation
between functions that differ in the contents of their blocks only.
-/

namespace SsaBlocks

/-- The edges of a graph, told by the parents of their targets. -/
def Graph.Edge (g : Graph) (a b : BlockId) : Prop :=
  a ∈ (g.block b).parents

/-- The edges of a graph, told by the children of their sources. -/
def Graph.Child (g : Graph) (a b : BlockId) : Prop :=
  b ∈ (g.block a).children

namespace Graph

theorem block_of_size_le {g : Graph} {b : BlockId} (h : g.blocks.size ≤ b) : g.block b = {} := by
  simp [block, Array.getD, Nat.not_lt.mpr h]

/-- There are no more different blocks than blocks. -/
theorem length_le_of_lt {g : Graph} {l : List BlockId} (hnodup : l.Nodup)
    (hlt : ∀ b ∈ l, b < g.blocks.size) : l.length ≤ g.blocks.size := by
  have hsub := List.subperm_of_subset hnodup fun b hb => List.mem_range.mpr (hlt b hb)
  simpa using hsub.length_le

theorem toList_blocks (g : Graph) : g.blocks.toList = (List.range g.blocks.size).map g.block := by
  refine List.ext_getElem (by simp) fun i h _ => ?_
  have hi : i < g.blocks.size := by simpa using h
  simp [block, Array.getD, hi]

/-- The sum of a measure over the blocks that a walk has not seen. -/
def unseen (g : Graph) (f : Block → Nat) (seen : List BlockId) : Nat :=
  ∑ b ∈ (Finset.range g.blocks.size).filter (· ∉ seen), f (g.block b)

theorem unseen_nil (g : Graph) (f : Block → Nat) :
    g.unseen f [] = ∑ b ∈ Finset.range g.blocks.size, f (g.block b) := by
  simp [unseen]

/-- Seeing one more block takes its measure off the sum; an empty block has none. -/
theorem unseen_insert (g : Graph) {f : Block → Nat} (hf : f {} = 0) {b : BlockId}
    {seen seen' : List BlockId} (hb : b ∉ seen) (hseen : ∀ x, x ∈ seen' ↔ x = b ∨ x ∈ seen) :
    g.unseen f seen = f (g.block b) + g.unseen f seen' := by
  have herase : (Finset.range g.blocks.size).filter (· ∉ seen') =
      ((Finset.range g.blocks.size).filter (· ∉ seen)).erase b := by
    ext x
    simp only [Finset.mem_filter, Finset.mem_range, hseen, not_or, Finset.mem_erase]
    tauto
  rw [unseen, unseen, herase]
  by_cases hs : b < g.blocks.size
  · exact (Finset.add_sum_erase _ (fun b => f (g.block b)) (by simp [hs, hb])).symm
  · rw [Finset.erase_eq_of_notMem (by simp [hs]), block_of_size_le (Nat.not_lt.mp hs), hf, zero_add]

theorem edgeCount_eq (g : Graph) : g.edgeCount = g.unseen (·.children.length) [] := by
  simp only [unseen_nil, edgeCount, toList_blocks, List.length_flatMap, List.map_map]
  rfl

theorem parentCount_eq (g : Graph) : g.parentCount = g.unseen (·.parents.length) [] := by
  simp only [unseen_nil, parentCount, toList_blocks, List.length_flatMap, List.map_map]
  rfl

theorem Edge.lt {g : Graph} {a b : BlockId} (h : g.Edge a b) : b < g.blocks.size := by
  by_contra hb
  rw [Edge, block_of_size_le (Nat.not_lt.mp hb)] at h
  simp at h

end Graph

namespace Func

variable {fn fn' fn'' : Func} {b c : BlockId} {f : Block → Block}

theorem block_modify_self (h : b < fn.blocks.size) : (fn.modify b f).block b = f (fn.block b) := by
  simp [h]

theorem block_modify_ne (h : b ≠ c) : (fn.modify b f).block c = fn.block c := by
  by_cases hc : c < fn.blocks.size
  · simp [modify, Graph.block, Array.getD, Array.getElem_modify, hc, h]
  · rw [Graph.block_of_size_le (by simpa using hc), Graph.block_of_size_le (by simpa using hc)]

theorem block_modify_cases (fn : Func) (b c : BlockId) (f : Block → Block) :
    (fn.modify b f).block c = fn.block c ∨
      b = c ∧ b < fn.blocks.size ∧ (fn.modify b f).block c = f (fn.block c) := by
  by_cases hbc : b = c
  · subst hbc
    by_cases hb : b < fn.blocks.size
    · exact .inr ⟨rfl, hb, block_modify_self hb⟩
    · rw [Graph.block_of_size_le (by simpa using hb), Graph.block_of_size_le (by simpa using hb)]
      exact .inl rfl
  · exact .inl (block_modify_ne hbc)

theorem modify_eq_self (h : f (fn.block b) = fn.block b) : fn.modify b f = fn := by
  have hblocks : fn.blocks.modify b f = fn.blocks := by
    refine Array.ext (by simp) fun i hi hi' => ?_
    rw [Array.getElem_modify]
    split
    · rename_i hb
      subst hb
      simpa [Graph.block, Array.getD, hi'] using h
    · rfl
  rw [modify, hblocks]

theorem modify_of_size_le (h : fn.blocks.size ≤ b) (f : Block → Block) : fn.modify b f = fn := by
  have hblocks : fn.blocks.modify b f = fn.blocks := by
    rw [Array.modify, Array.modifyM, dif_neg (Nat.not_lt.mpr h)]
    rfl
  rw [modify, hblocks]

/-- What a change leaves of a block is left of all blocks. -/
theorem proj_block_modify {β : Type} (π : Block → β) (hπ : ∀ blk, π (f blk) = π blk) :
    π ((fn.modify b f).block c) = π (fn.block c) := by
  rcases fn.block_modify_cases b c f with hc | ⟨-, -, hc⟩
  · rw [hc]
  · rw [hc, hπ]

/-- A function with other contents in its blocks. -/
structure Edits (fn fn' : Func) : Prop where
  eq : { fn' with blocks := fn.blocks } = fn
  size : fn'.blocks.size = fn.blocks.size

namespace Edits

theorem refl (fn : Func) : Edits fn fn := ⟨rfl, rfl⟩

theorem trans (h : Edits fn fn') (k : Edits fn' fn'') : Edits fn fn'' := by
  refine ⟨?_, k.size.trans h.size⟩
  have heq := congrArg (fun f : Func => { f with blocks := fn.blocks }) k.eq
  exact heq.trans h.eq

theorem modify (fn : Func) (b : BlockId) (f : Block → Block) : Edits fn (fn.modify b f) :=
  ⟨rfl, by simp⟩

theorem entry (h : Edits fn fn') : fn'.entry = fn.entry := by rw [← h.eq]

theorem temps (h : Edits fn fn') : fn'.temps = fn.temps := by rw [← h.eq]

theorem paramTemps (h : Edits fn fn') : fn'.paramTemps = fn.paramTemps := by rw [← h.eq]

theorem params (h : Edits fn fn') : fn'.params = fn.params := by rw [← h.eq]

theorem order (h : Edits fn fn') : fn'.order = fn.order := by rw [← h.eq]

theorem foldl {α : Type} {step : Func → α → Func} (hstep : ∀ fn a, Edits fn (step fn a))
    (l : List α) (fn : Func) : Edits fn (l.foldl step fn) := by
  induction l generalizing fn with
  | nil => exact refl fn
  | cons a l ih => exact (hstep fn a).trans (ih _)

end Edits

theorem block_foldl_modify (f : BlockId → Block → Block) {l : List BlockId} (hl : l.Nodup)
    (hs : ∀ b ∈ l, b < fn.blocks.size) (c : BlockId) :
    (l.foldl (fun fn b => fn.modify b (f b)) fn).block c =
      if c ∈ l then f c (fn.block c) else fn.block c := by
  induction l generalizing fn with
  | nil => simp
  | cons b l ih =>
    obtain ⟨hb, hl⟩ := List.nodup_cons.mp hl
    rw [List.foldl_cons, ih hl (by simpa using fun b hb => hs b (List.mem_cons_of_mem _ hb))]
    by_cases hbc : c = b
    · subst hbc
      rw [if_neg hb, if_pos (by simp), block_modify_self (hs c (by simp))]
    · rw [block_modify_ne (Ne.symm hbc)]
      simp [hbc]

theorem proj_block_foldl {α β : Type} (π : Block → β) {step : Func → α → Func}
    (hstep : ∀ fn a c, π ((step fn a).block c) = π (fn.block c)) (l : List α) (fn : Func) :
    π ((l.foldl step fn).block c) = π (fn.block c) := by
  induction l generalizing fn with
  | nil => rfl
  | cons a l ih => rw [List.foldl_cons, ih, hstep]

end Func

end SsaBlocks
