import SsaBlocks.Proofs.Simplify.Blocks
import Mathlib.Data.Set.Card

/-!
# The blocks that are left

Blocks that do nothing are taken out one at a time, in the order of the traversal. Where parents and
children tell the same edges and no block has two edges to one that is taken out, walks along
children reach afterwards what they reached before, less the blocks that are gone.

The traversal itself follows owners. A block that is taken out hands its owner on to its child, so a
block that closes a loop gives the loop's header an owner that lies inside of the loop: the header is
then its own ancestor, and the traversal misses it with all that it owns. No other block does such
harm. The owners that are handed on either come earlier in the old traversal than what they own, or
they are on no loop with it, and a chain of such owners cannot go round in a circle.

## Main results

* `Func.Emptying.meshed`, `Func.Emptying.reachable_iff`: what holds in the course of the pass
* `Func.Meshed.emptying`: the whole pass
* `Func.Spanned.traversal_after_removal`: what the traversal reaches
-/

namespace SsaBlocks.Func

open SsaBlocks.Flow List

variable {fn fn' cur next : Func} {b c x y : BlockId} {blocks : List BlockId} {C : Set BlockId}

/-- Parents and children tell the same edges, the edges out of `C` lead to `C`, and no block has
two of them to a removable block. -/
structure Meshed (fn : Func) (C : Set BlockId) : Prop where
  entry_mem : fn.entry ∈ C
  home : (fn.block fn.entry).home = fn.entry
  counted : fn.Counted
  edge : ∀ x y, fn.Child x y → fn.Edge x y
  closed : ∀ x ∈ C, ∀ y, fn.Child x y → y ∈ C
  single : ∀ x, ∀ y ∈ C, fn.isRemovable y → (fn.block x).children.count y ≤ 1

theorem Meshed.child_eq (hm : fn.Meshed C) : fn.Child = fn.Edge := by
  funext x y
  exact propext ⟨hm.edge x y, hm.counted.mem_children⟩

namespace Bypassed

variable (h : fn.Bypassed fn' blocks b c)
include h

theorem not_child_gone : ¬ fn'.Child b y := by
  simp [Graph.Child, h.gone]

variable (hd : fn.Idle b c)
include hd

theorem isRemovable_eq (x : BlockId) : fn'.isRemovable x = fn.isRemovable x := by
  have hhome : (fn'.block x).home = (fn.block x).home := h.proj (·.home) (fun _ _ _ _ => rfl) x
  have hcomments : ((fn.block b).code.all fun i => !i.isCode) = true :=
    all_eq_true.mpr fun i hi => by simp [hd.comments i hi]
  have hcode : ((fn'.block x).code.all fun i => !i.isCode) =
      (fn.block x).code.all fun i => !i.isCode := by
    by_cases hx : x = b
    · rw [hx, h.gone, hcomments]
      rfl
    · rw [h.code_eq hx, all_append, all_map]
      split <;> split <;> simp [hcomments, Function.comp_def]
  simp only [isRemovable, hhome, hcode, h.written x, h.awaited x]

variable (hm : fn.Meshed C) (hb : b ∈ C) (hrem : fn.isRemovable b)
include hm hb hrem

/-- All edges to the removed block have been sent to its child. -/
theorem child_iff (hx : x ≠ b) :
    fn'.Child x y ↔ y ≠ b ∧ fn.Child x y ∨ y = c ∧ fn.Child x b := by
  have hone := hm.single x b hb hrem
  have hparent : fn.Child x b → 0 < (fn.block b).parents.count x := fun hxb =>
    count_pos_iff.mpr (hm.edge x b hxb)
  obtain ⟨hgone, -, hmem, hother⟩ := count_iterate_replaceChild (hm.counted x b) hd.ne_child
  rw [← h.children_eq hx] at hgone hmem hother
  by_cases hyb : y = b
  · subst hyb
    have hnot : ¬ fn'.Child x y := by
      intro hchild
      have hpos := count_pos_iff.mpr hchild
      have := hparent (count_pos_iff.mp (by omega))
      omega
    simp [hnot, hd.ne_child.symm]
  by_cases hyc : y = c
  · subst hyc
    refine ⟨fun hchild => ?_, ?_⟩
    · by_cases hxb : fn.Child x b
      · exact .inr ⟨rfl, hxb⟩
      · have hnone : (fn.block b).parents.count x = 0 :=
          count_eq_zero.mpr fun hp => hxb (hm.counted.mem_children hp)
        rw [Graph.Child, h.children_eq hx, hnone] at hchild
        exact .inl ⟨hyb, hchild⟩
    · rintro (⟨-, hchild⟩ | ⟨-, hxb⟩)
      · exact h.mem_children hd hm.counted hchild hx hyb
      · exact hmem (hparent hxb)
  · rw [Graph.Child, Graph.Child, ← count_pos_iff, ← count_pos_iff, hother y hyb hyc]
    simp [hyb, hyc]

theorem single (hy : y ≠ b) (hcount : (fn.block x).children.count y ≤ 1) :
    (fn'.block x).children.count y ≤ 1 := by
  by_cases hx : x = b
  · simp [hx, h.gone]
  obtain ⟨-, -, -, hother⟩ := count_iterate_replaceChild (hm.counted x b) hd.ne_child
  by_cases hyc : y = c
  · subst hyc
    have hle := (hm.counted x b).trans (hm.single x b hb hrem)
    rw [h.children_eq hx]
    rcases Nat.le_one_iff_eq_zero_or_eq_one.mp hle with hnone | hone
    · rwa [hnone]
    · have hmem : b ∈ (fn.block x).children :=
        hm.counted.mem_children (count_pos_iff.mp (by omega))
      rw [hone, Function.iterate_one, count_replaceChild hmem]
      by_cases hymem : y ∈ (fn.block x).children
      · simpa [hymem, hd.ne_child.symm] using hcount
      · simp [hymem, count_eq_zero.mpr hymem]
  · rwa [h.children_eq hx, hother y hy hyc]

/-- The edges of the blocks that are left are told alike by parents and by children. -/
theorem meshed : fn'.Meshed (C \ {b}) where
  entry_mem := by
    rw [h.thins.edits.entry]
    exact ⟨hm.entry_mem, hd.ne_entry.symm⟩
  home := by
    rw [h.thins.edits.entry, h.proj (·.home) (fun _ _ _ _ => rfl)]
    exact hm.home
  counted := h.counted hd hm.counted
  edge x y hxy := by
    have hx : x ≠ b := by
      rintro rfl
      exact h.not_child_gone hxy
    rw [h.edge_iff hd hm.counted]
    rcases (h.child_iff hd hm hb hrem hx).mp hxy with ⟨hy, hxy⟩ | ⟨rfl, hxb⟩
    · exact .inr ⟨hy, hx, hm.edge x y hxy⟩
    · exact .inl ⟨rfl, hm.edge x b hxb⟩
  closed x hx y hxy := by
    rcases (h.child_iff hd hm hb hrem hx.2).mp hxy with ⟨hy, hxy⟩ | ⟨rfl, -⟩
    · exact ⟨hm.closed x hx.1 y hxy, hy⟩
    · exact ⟨hm.closed b hb y (by simp [Graph.Child, hd.children]), hd.ne_child⟩
  single x y hy hremy :=
    h.single hd hm hb hrem hy.2 (hm.single x y hy.1 (h.isRemovable_eq hd y ▸ hremy))

omit hb hrem in
theorem reachable_iff : Reachable fn'.Edge fn'.entry y ↔
    y ≠ b ∧ Reachable fn.Edge fn.entry y := by
  rw [h.thins.edits.entry]
  constructor
  · rintro ⟨l, hl⟩
    obtain ⟨m, hwalk, -⟩ := h.exists_walk hd hm.counted hl
    refine ⟨?_, m, hwalk⟩
    rintro rfl
    rcases hl.eq_nil_or_snoc with ⟨-, hentry⟩ | ⟨-, p, -, -, hp⟩
    · exact hd.ne_entry hentry.symm
    · simp [Graph.Edge, h.gone] at hp
  · rintro ⟨hy, l, hl⟩
    simpa [hd.ne_entry.symm] using h.reachable_around hd hm.counted hl hy

end Bypassed

/-- The function `cur` is `fn` after some blocks that do nothing have been taken out, and `C` are
those of `blocks` that are left. -/
inductive Emptying (fn : Func) (blocks : List BlockId) : Set BlockId → Func → Prop
  | start : Emptying fn blocks {x | x ∈ blocks} fn
  | bypass {C : Set BlockId} {cur next : Func} {b c : BlockId} : Emptying fn blocks C cur →
      b ∈ C → cur.isRemovable b → cur.Idle b c → cur.Bypassed next blocks b c →
      Emptying fn blocks (C \ {b}) next

namespace Emptying

variable (h : Emptying fn blocks C cur)
include h

theorem edits : fn.Edits cur := by
  induction h with
  | start => exact .refl fn
  | bypass _ _ _ _ hby ih => exact ih.trans hby.thins.edits

theorem isRemovable_eq (x : BlockId) : cur.isRemovable x = fn.isRemovable x := by
  induction h with
  | start => rfl
  | bypass _ _ _ hd hby ih => exact (hby.isRemovable_eq hd x).trans ih

theorem meshed (hm : fn.Meshed {x | x ∈ blocks}) : cur.Meshed C := by
  induction h with
  | start => exact hm
  | bypass _ hb hrem hd hby ih => exact hby.meshed hd ih hb hrem

/-- Walks reach all that is left, and only that. -/
theorem reachable_iff (hm : fn.Meshed {x | x ∈ blocks})
    (hreach : ∀ y, y ∈ blocks ↔ Reachable fn.Child fn.entry y) (y : BlockId) :
    Reachable cur.Child cur.entry y ↔ y ∈ C := by
  induction h with
  | start => exact (hreach y).symm
  | @bypass C cur next b c run hb hrem hd hby ih =>
    rw [(hby.meshed hd (run.meshed hm) hb hrem).child_eq, hby.reachable_iff hd (run.meshed hm),
      ← (run.meshed hm).child_eq, ih]
    exact and_comm

end Emptying

theorem removeIfRedundant_eq_ok (h : removeIfRedundant blocks cur b = .ok next) :
    cur.isRemovable b = false ∧ next = cur ∨ ∃ c, cur.isRemovable b ∧
      (cur.block b).children = [c] ∧ c ≠ b ∧ cur.bypass blocks b c = .ok next := by
  rw [removeIfRedundant] at h
  by_cases hrem : cur.isRemovable b
  · rw [if_pos hrem] at h
    split at h
    · next c hc =>
      split at h
      · cases h
      · next hne => exact .inr ⟨c, hrem, hc, hne, h⟩
    · cases h
  · rw [if_neg hrem] at h
    exact .inl ⟨by simpa using hrem, (Except.ok.inj h).symm⟩

/-- The pass takes out the blocks of the order that do nothing, one after another. -/
theorem Meshed.emptying (hm : fn.Meshed {x | x ∈ fn.canonicalOrder})
    (hlt : fn.entry < fn.blocks.size) (hok : fn.removeRedundantBlocks = .ok fn') :
    Emptying fn fn.canonicalOrder {x | x ∈ fn.canonicalOrder ∧ fn.isRemovable x = false} fn' := by
  have hrun : Emptying fn fn.canonicalOrder
      {x | x ∈ fn.canonicalOrder ∧ ¬ (x ∈ fn.canonicalOrder ∧ fn.isRemovable x)} fn' := by
    refine foldlM_invariant (fun m cur => Emptying fn fn.canonicalOrder
      {x | x ∈ fn.canonicalOrder ∧ ¬ (x ∈ m ∧ fn.isRemovable x)} cur) hok ?_ ?_
    · simpa using Emptying.start
    · intro m b n cur next horder run hstep
      have hnodup := nodup_canonicalOrder fn
      have hb : b ∈ fn.canonicalOrder := by simp [horder]
      have hbm : b ∉ m := by
        rw [horder] at hnodup
        exact fun hmem => (nodup_append.mp hnodup).2.2 b hmem b (by simp) rfl
      have hcur := run.meshed hm
      rcases removeIfRedundant_eq_ok hstep with ⟨hrem, rfl⟩ | ⟨c, hrem, hc, hne, hbypass⟩
      · rw [run.isRemovable_eq] at hrem
        convert run using 3 with x
        by_cases hx : x = b <;> simp [hx, hrem]
      · have hd := idle_of_isRemovable hrem hcur.home hc hne
          (hcur.edge b c (by simp [Graph.Child, hc]))
        obtain ⟨done, hdone, hby⟩ := exists_bypass hcur.counted hd hnodup
          (fun x hx => run.edits.size ▸ mem_canonicalOrder_lt hx hlt) hb
        obtain rfl : done = next := Except.ok.inj (hdone.symm.trans hbypass)
        convert Emptying.bypass run ⟨hb, fun h => hbm h.1⟩ hrem hd hby using 1
        rw [run.isRemovable_eq] at hrem
        ext x
        by_cases hx : x = b <;> simp [hx, hrem]
  convert hrun using 3 with x
  simp +contextual

/-! ## The traversal -/

/-- The edge from `x` to `y` leads on in the order `pos`, or `y` does not lead back. -/
def Onward (fn : Func) (pos : BlockId → Nat) (x y : BlockId) : Prop :=
  pos x < pos y ∨ ¬ Reachable fn.Edge y x

/-- The owners of the blocks in `C`, and the removable blocks among them, lead onward. -/
structure Grounded (fn : Func) (pos : BlockId → Nat) (C : Set BlockId) : Prop where
  owner : ∀ x ∈ C, x ≠ fn.entry → ∃ o ∈ C, (fn.block x).owner? = some o ∧ fn.Onward pos o x
  removable : ∀ x ∈ C, fn.isRemovable x → ∀ y, fn.Child x y → fn.Onward pos x y

section Onward

variable {pos : BlockId → Nat} {o z : BlockId}

theorem Onward.trans (hxy : fn.Onward pos x y) (hyz : fn.Onward pos y z) (hx : fn.Edge x y)
    (hy : fn.Edge y z) : fn.Onward pos x z := by
  rcases hxy with hxy | hxy
  · rcases hyz with hyz | hyz
    · exact .inl (hxy.trans hyz)
    · exact .inr fun hback => hyz (hback.step hx)
  · exact .inr fun hback => hxy (.trans ⟨_, .single hy⟩ hback)

theorem Onward.mono (h : fn.Onward pos x y)
    (hreach : ∀ a z, Reachable fn'.Edge a z → Reachable fn.Edge a z) : fn'.Onward pos x y :=
  h.imp_right fun hnot hback => hnot (hreach y x hback)

/-- Taking out a block hands on its owner, and that leads onward as well. -/
theorem Bypassed.grounded (h : fn.Bypassed fn' blocks b c) (hd : fn.Idle b c) (hm : fn.Meshed C)
    (hb : b ∈ C) (hrem : fn.isRemovable b) (hg : fn.Grounded pos C) :
    fn'.Grounded pos (C \ {b}) := by
  have hmono : ∀ a z, Reachable fn'.Edge a z → Reachable fn.Edge a z := by
    rintro a z ⟨l, hl⟩
    obtain ⟨m, hwalk, -⟩ := h.exists_walk hd hm.counted hl
    exact ⟨m, hwalk⟩
  have hbc : fn.Onward pos b c := hg.removable b hb hrem c (by simp [Graph.Child, hd.children])
  have ne_of_owns : ∀ o x, x ≠ c → (fn.block x).owner? = some o → o ≠ b := by
    rintro o x hxc howner rfl
    exact hxc ((hd.edge_iff hm.counted).mp (mem_of_getLast? howner))
  constructor
  · intro x hx hentry
    rw [h.thins.edits.entry] at hentry
    by_cases hxc : x = c
    · subst hxc
      obtain ⟨o, ho, howner, hob⟩ := hg.owner b hb hd.ne_entry
      exact ⟨o, ⟨ho, ne_of_owns o b hd.ne_child.symm howner⟩, h.owner_child hd howner,
        (hob.trans hbc (mem_of_getLast? howner) hd.edge).mono hmono⟩
    · obtain ⟨o, ho, howner, hox⟩ := hg.owner x hx.1 hentry
      exact ⟨o, ⟨ho, ne_of_owns o x hxc howner⟩, (h.owner_eq hx.2 hxc).trans howner,
        hox.mono hmono⟩
  · intro x hx hremx y hxy
    rw [h.isRemovable_eq hd] at hremx
    rcases (h.child_iff hd hm hb hrem hx.2).mp hxy with ⟨-, hxy⟩ | ⟨rfl, hxb⟩
    · exact (hg.removable x hx.1 hremx y hxy).mono hmono
    · exact ((hg.removable x hx.1 hremx b hxb).trans hbc (hm.edge x b hxb) hd.edge).mono hmono

theorem Emptying.grounded (h : Emptying fn blocks C cur) (hm : fn.Meshed {x | x ∈ blocks})
    (hg : fn.Grounded pos {x | x ∈ blocks}) : cur.Grounded pos C := by
  induction h with
  | start => exact hg
  | bypass run hb hrem hd hby ih => exact hby.grounded hd (run.meshed hm) hb hrem ih

/-- Owners that lead onward are linked with the entry. -/
theorem Grounded.mem_canonicalOrder (hg : fn.Grounded pos C) (hm : fn.Meshed C) (hx : x ∈ C) :
    x ∈ fn.canonicalOrder := by
  -- The owner of a block is led to by no more blocks than the block itself, and by fewer unless it
  -- is on a loop with it; then it comes earlier.
  let above (x : BlockId) : Set BlockId := {a | a < fn.blocks.size ∧ Reachable fn.Edge a x}
  have hfinite : ∀ x, (above x).Finite := fun x => (Set.finite_lt_nat _).subset fun a ha => ha.1
  induction hn : (above x).ncard using Nat.strong_induction_on generalizing x with
  | _ n ihAbove =>
    induction hp : pos x using Nat.strong_induction_on generalizing x with
    | _ p ihPos =>
      by_cases hentry : x = fn.entry
      · exact hentry ▸ (canonicalOrder_closed fn).1
      obtain ⟨o, ho, howner, honward⟩ := hg.owner x hx hentry
      have hedge : fn.Edge o x := mem_of_getLast? howner
      have hchild : fn.Child o x := hm.counted.mem_children hedge
      have hsub : above o ⊆ above x := fun a ha => ⟨ha.1, ha.2.step hedge⟩
      suffices hmem : o ∈ fn.canonicalOrder from
        (canonicalOrder_closed fn).2 o hmem x (owns_iff.mpr ⟨hchild, howner⟩)
      have hle : (above o).ncard ≤ n := hn ▸ Set.ncard_le_ncard hsub (hfinite x)
      rcases hle.lt_or_eq with hlt | heq
      · exact ihAbove _ hlt ho rfl
      · rcases honward with hlt | hback
        · exact ihPos _ (hp ▸ hlt) ho heq rfl
        · have hself : x ∈ above x := ⟨hedge.lt, .refl _ _⟩
          have hssub : above o ⊂ above x :=
            ⟨hsub, fun hle => hback (hle hself).2⟩
          exact ihAbove _ (hn ▸ Set.ncard_lt_ncard hssub (hfinite x)) ho rfl

end Onward

/-- A block closes a loop if it leads to a block that does not come after it in the traversal and
that leads back to it. -/
def ClosesLoop (fn : Func) (b : BlockId) : Prop :=
  ∃ c, fn.Child b c ∧ fn.canonicalOrder.idxOf c ≤ fn.canonicalOrder.idxOf b ∧
    Reachable fn.Child c b

theorem Meshed.grounded (hm : fn.Meshed {x | x ∈ fn.canonicalOrder})
    (hloops : ∀ b ∈ fn.canonicalOrder, fn.isRemovable b → ¬ fn.ClosesLoop b) :
    fn.Grounded fn.canonicalOrder.idxOf {x | x ∈ fn.canonicalOrder} where
  owner x hx hentry := by
    obtain ⟨o, ho, howns, hlt⟩ := (exists_owner_before hx).resolve_left hentry
    exact ⟨o, ho, (owns_iff.mp howns).2, .inl hlt⟩
  removable x hx hrem y hxy := by
    by_contra hnot
    obtain ⟨hle, hback⟩ := not_or.mp hnot
    exact hloops x hx hrem ⟨y, hxy, Nat.not_lt.mp hle, hm.child_eq ▸ not_not.mp hback⟩

/-- A graph that the traversal goes through: every edge is told as often by its source as by its
target, the order has exactly the blocks that the entry leads to, and no block has two edges to one
of them that is removable. -/
structure Spanned (fn : Func) : Prop where
  entry_lt : fn.entry < fn.blocks.size
  home : (fn.block fn.entry).home = fn.entry
  counts : ∀ x y, (fn.block y).parents.count x = (fn.block x).children.count y
  mem_order : ∀ y, y ∈ fn.canonicalOrder ↔ Reachable fn.Child fn.entry y
  single : ∀ x, ∀ y ∈ fn.canonicalOrder, fn.isRemovable y → (fn.block x).children.count y ≤ 1

theorem Spanned.meshed (hs : fn.Spanned) : fn.Meshed {x | x ∈ fn.canonicalOrder} where
  entry_mem := (canonicalOrder_closed fn).1
  home := hs.home
  counted x y := (hs.counts x y).le
  edge x y hxy := count_pos_iff.mp (hs.counts x y ▸ count_pos_iff.mpr hxy)
  closed x hx y hxy := (hs.mem_order y).mpr (((hs.mem_order x).mp hx).step hxy)
  single := hs.single

/-- What holds of an empty block and of all blocks of a function holds of every block. -/
theorem forall_block (fn : Func) {P : Block → Prop} (hempty : P {})
    (h : ∀ x < fn.blocks.size, P (fn.block x)) (x : BlockId) : P (fn.block x) := by
  by_cases hx : x < fn.blocks.size
  · exact h x hx
  · rwa [Graph.block_of_size_le (Nat.not_lt.mp hx)]

theorem counts_of_forall_lt
    (h : ∀ x < fn.blocks.size, (∀ y ∈ (fn.block x).children, y < fn.blocks.size) ∧
      ∀ y < fn.blocks.size, (fn.block y).parents.count x = (fn.block x).children.count y)
    (hparents : ∀ y < fn.blocks.size, ∀ x ∈ (fn.block y).parents, x < fn.blocks.size)
    (x y : BlockId) : (fn.block y).parents.count x = (fn.block x).children.count y := by
  by_cases hx : x < fn.blocks.size
  · by_cases hy : y < fn.blocks.size
    · exact (h x hx).2 y hy
    · rw [count_eq_zero.mpr fun hmem => hy ((h x hx).1 y hmem),
        Graph.block_of_size_le (Nat.not_lt.mp hy)]
      rfl
  · rw [Graph.block_of_size_le (b := x) (Nat.not_lt.mp hx)]
    refine count_eq_zero.mpr fun hmem => ?_
    by_cases hy : y < fn.blocks.size
    · exact hx (hparents y hy x hmem)
    · rw [Graph.block_of_size_le (Nat.not_lt.mp hy)] at hmem
      cases hmem

/-- **What the traversal reaches after the removal.** Walks along children reach the blocks that were
not removed. So does the traversal, unless a block that closes a loop has been removed. -/
theorem Spanned.traversal_after_removal (hs : fn.Spanned)
    (hok : fn.removeRedundantBlocks = .ok fn') :
    (∀ y, Reachable fn'.Child fn'.entry y ↔ y ∈ fn.canonicalOrder ∧ fn.isRemovable y = false) ∧
      ((∀ b ∈ fn.canonicalOrder, fn.isRemovable b → ¬ fn.ClosesLoop b) →
        ∀ y, y ∈ fn'.canonicalOrder ↔ Reachable fn'.Child fn'.entry y) := by
  have hm := hs.meshed
  have run := hm.emptying hs.entry_lt hok
  have hleft := run.reachable_iff hm hs.mem_order
  refine ⟨hleft, fun hloops y => ⟨fun hy => ?_, fun hy => ?_⟩⟩
  · obtain ⟨l, hl⟩ := SsaBlocks.Func.mem_canonicalOrder.mp hy
    exact ⟨l, hl.mono fun a z haz => (owns_iff.mp haz).1⟩
  · exact (run.grounded hm (hm.grounded hloops)).mem_canonicalOrder (run.meshed hm)
      ((hleft y).mp hy)

/-- A loop with an empty branch on either side and a call in its header and at its end. -/
def forked : Func :=
  { name := "forked", params := [], resultType := .void
    blocks := #[
      { children := [1] },
      { parents := [4, 0], children := [2, 3], code := [.call none "turn" [], .branch 0 2 3] },
      { parents := [1], children := [4] },
      { parents := [1], children := [4] },
      { parents := [2, 3], children := [1], code := [.call none "tick" []] }] }

theorem spanned_forked : forked.Spanned where
  entry_lt := by decide
  home := by decide
  counts := counts_of_forall_lt (by decide) (by decide)
  mem_order y := by
    have hcanonical : forked.canonicalOrder = [0, 1, 2, 3, 4] := by decide
    have hpost : forked.postorder = [4, 2, 3, 1, 0] := by decide
    rw [← mem_postorder, hcanonical, hpost]
    simp only [mem_cons, not_mem_nil, or_false]
    tauto
  single x y _ _ := by
    have hnodup : ∀ x < forked.blocks.size, (forked.block x).children.Nodup := by decide
    exact nodup_iff_count_le_one.mp
      (forked.forall_block (P := fun blk => blk.children.Nodup) (by decide) hnodup x) y

theorem forked_traversal : ∃ fn', forked.removeRedundantBlocks = .ok fn' ∧
    fn'.canonicalOrder = [0, 1, 4] ∧
    ∀ y, y ∈ fn'.canonicalOrder ↔ Reachable fn'.Child fn'.entry y := by
  have horder : forked.removeRedundantBlocks.toOption.map (·.canonicalOrder) =
      some [0, 1, 4] := by decide
  have hlater : ∀ b ∈ forked.canonicalOrder, forked.isRemovable b →
      ∀ c ∈ (forked.block b).children,
        ¬ forked.canonicalOrder.idxOf c ≤ forked.canonicalOrder.idxOf b := by decide
  cases hok : forked.removeRedundantBlocks with
  | error fault => simp [hok, Except.toOption] at horder
  | ok fn' =>
    rw [hok] at horder
    refine ⟨fn', rfl, Option.some.inj horder,
      (spanned_forked.traversal_after_removal hok).2 fun b hb hrem => ?_⟩
    rintro ⟨c, hc, hle, -⟩
    exact hlater b hb hrem c hc hle

/-- A loop that an empty block closes. -/
def spin : Func :=
  { name := "spin", params := [], resultType := .void
    blocks := #[
      { children := [1] },
      { parents := [2, 0], children := [2], code := [.call none "tick" []] },
      { parents := [1], children := [1] }] }

/-- The header becomes its own owner, and the traversal does not reach it any more. -/
theorem spin_loses_header : ∃ fn', spin.removeRedundantBlocks = .ok fn' ∧
    fn'.canonicalOrder = [0] ∧ fn'.Child fn'.entry 1 := by
  have hvalues : spin.removeRedundantBlocks.toOption.map (fun fn' =>
      (fn'.canonicalOrder, (fn'.block fn'.entry).children)) = some ([0], [1]) := by decide
  cases hok : spin.removeRedundantBlocks with
  | error fault => simp [hok, Except.toOption] at hvalues
  | ok fn' =>
    rw [hok] at hvalues
    obtain ⟨horder, hchildren⟩ := Prod.ext_iff.mp (Option.some.inj hvalues)
    have hone : (fn'.block fn'.entry).children = [1] := hchildren
    exact ⟨fn', rfl, horder, by simp [Graph.Child, hone]⟩

end SsaBlocks.Func
