import SsaBlocks.Proofs.Func.Growth

/-!
# What all primitives keep

Whatever primitives a function is built with, its temporaries come from one place each. If the
blocks that they are given exist, every edge is known at both of its ends, nothing has been found
out about any block before construction starts, and a variable that is alive in a block has been
written on a way to it.
-/

namespace SsaBlocks

open List

/-- What SSA construction finds out about a block before it resolves reads. -/
def Block.findings (blk : Block) :
    Option (KeySet BlockId) × Option (KeySet BlockId) × Table Variable Temp :=
  (blk.dominators, blk.frontier, blk.pending)

/-- Nothing has been found out about a block. -/
def Block.Unexplored (blk : Block) : Prop :=
  blk.findings = (none, none, .empty)

namespace Block.Unexplored

variable {blk : Block} (h : blk.Unexplored)
include h

theorem dominators : blk.dominators = none := congrArg Prod.fst h

theorem frontier : blk.frontier = none := congrArg (·.2.1) h

theorem pending : blk.pending = .empty := congrArg (·.2.2) h

end Block.Unexplored

namespace Func

open SsaBlocks.Flow

variable {fn : Func} {b c s t : BlockId} {v : Variable} {u : Temp} {f g : Block → Block}
  {parents : List BlockId} {inst : Instruction}

/-! ## Temporaries -/

namespace Separate

variable (h : fn.Separate)
include h

/-- Whatever is put into a block that no temporary comes from. -/
theorem modify (hf : ∀ blk : Block, f blk = { blk with
      parents := (f blk).parents, children := (f blk).children, declared := (f blk).declared
      alive := (f blk).alive, written := (f blk).written, constants := (f blk).constants }) :
    (fn.modify b f).Separate := by
  refine Thins.separate (.modify ?_) h
  rw [hf]
  exact ⟨.refl _, .refl _, rfl, rfl, fun _ => id⟩

theorem addBlock (parents : List BlockId) : (fn.addBlock parents).Separate := by
  have hpush : ({ fn with blocks := fn.blocks.push { home := fn.entry } } : Func).Separate := by
    refine ⟨h.toApart.of_sublist le_rfl fun p => ?_, h.params, h.unnumbered⟩
    cases p with
    | params => exact .refl _
    | reads c | phis c | code c =>
      have hc := @block_push fn { home := fn.entry } c
      split at hc
      · simp only [made, results, hc]
        exact nil_sublist _
      · simp only [made, results, hc, List.Sublist.refl]
  exact foldl_invariant (fun _ => Separate) hpush fun _ _ _ _ _ hcur =>
    (hcur.modify fun _ => by rfl).modify fun _ => by rfl

end Separate

/-! ## Edges -/

/-- Children have their parents and parents their children, as often, and nothing has been found out
about the blocks. -/
structure Wired (fn : Func) : Prop where
  entry_lt : fn.entry < fn.blocks.size
  counts : ∀ a b, (fn.block a).children.count b = (fn.block b).parents.count a
  unexplored : ∀ b, (fn.block b).Unexplored

namespace Wired

variable (h : fn.Wired)
include h

theorem edge (a b : BlockId) : fn.Child a b ↔ fn.Edge a b := by
  rw [Graph.Child, Graph.Edge, ← count_pos_iff, h.counts, count_pos_iff]

theorem edge_lt (hab : fn.Edge b c) : b < fn.blocks.size := by
  by_contra hb
  have hchild := (h.edge b c).mpr hab
  rw [Graph.Child, Graph.block_of_size_le (Nat.not_lt.mp hb)] at hchild
  simp at hchild

/-- Changing the contents of a block changes no edge. -/
theorem modify (hf : ∀ blk, ((f blk).parents, (f blk).children, (f blk).findings) =
      (blk.parents, blk.children, blk.findings)) : (fn.modify b f).Wired where
  entry_lt := by
    rw [size_modify]
    exact h.entry_lt
  counts a c := by
    rw [proj_block_modify Block.children fun blk => congrArg (·.2.1) (hf blk),
      proj_block_modify Block.parents fun blk => congrArg Prod.fst (hf blk)]
    exact h.counts a c
  unexplored c :=
    (proj_block_modify Block.findings fun blk => congrArg (·.2.2) (hf blk)).trans (h.unexplored c)

/-- A child is added to one block, and the parent to another. -/
theorem link (hs : s < fn.blocks.size) (ht : t < fn.blocks.size)
    (hchildren : ∀ blk, (f blk).children.Perm (t :: blk.children))
    (hparents' : ∀ blk, (g blk).parents.Perm (s :: blk.parents))
    (hf : ∀ blk, ((f blk).parents, (f blk).findings) = (blk.parents, blk.findings))
    (hg : ∀ blk, ((g blk).children, (g blk).findings) = (blk.children, blk.findings)) :
    ((fn.modify s f).modify t g).Wired where
  entry_lt := by
    rw [size_modify, size_modify]
    exact h.entry_lt
  counts a c := by
    have ht' : t < (fn.modify s f).blocks.size := by rwa [size_modify]
    have hold := h.counts a c
    rw [proj_block_modify Block.children fun blk => congrArg Prod.fst (hg blk),
      block_modify _ _ _ _ ht', block_modify _ _ _ _ hs]
    have hsame : ((fn.modify s f).block c).parents = (fn.block c).parents :=
      proj_block_modify Block.parents fun blk => congrArg Prod.fst (hf blk)
    by_cases hsa : s = a
    · subst hsa
      by_cases htc : t = c
      · simp [htc, (hchildren _).count_eq, (hparents' _).count_eq, hsame, hold]
      · simp [htc, (hchildren _).count_eq, hsame, hold]
    · by_cases htc : t = c
      · simp [hsa, htc, (hparents' _).count_eq, hsame, hold]
      · simp [hsa, htc, hsame, hold]
  unexplored c :=
    ((proj_block_modify Block.findings fun blk => congrArg Prod.snd (hg blk)).trans
      (proj_block_modify Block.findings fun blk => congrArg Prod.snd (hf blk))).trans
      (h.unexplored c)

theorem linkParent (hb : b < fn.blocks.size) (hs : s < fn.blocks.size) :
    (fn.linkParent b s).Wired :=
  h.link hs hb (fun _ => perm_append_singleton ..) (fun _ => perm_append_singleton ..)
    (fun _ => rfl) fun _ => rfl

theorem addBlock (hparents : ∀ p ∈ parents, p < fn.blocks.size) : (fn.addBlock parents).Wired := by
  have hpush : ({ fn with blocks := fn.blocks.push { home := fn.entry } } : Func).Wired := by
    refine ⟨?_, fun a c => ?_, fun c => ?_⟩
    · rw [Array.size_push]
      exact Nat.lt_succ_of_lt h.entry_lt
    · have hcount := h.counts a c
      rw [block_push, block_push]
      by_cases ha : a = fn.blocks.size
      · by_cases hc : c = fn.blocks.size
        · simp [ha, hc]
        · rw [if_pos ha, if_neg hc, ← hcount, ha, Graph.block_of_size_le le_rfl]
      · by_cases hc : c = fn.blocks.size
        · rw [if_neg ha, if_pos hc, hcount, hc, Graph.block_of_size_le le_rfl]
        · rw [if_neg ha, if_neg hc, hcount]
    · rw [block_push]
      split
      · rfl
      · exact h.unexplored c
  have hfold := foldl_invariant (fun _ (cur : Func) => cur.blocks.size = fn.blocks.size + 1 ∧
      cur.Wired) (f := Func.linkParent fn.blocks.size) (l := parents)
    (s := { fn with blocks := fn.blocks.push { home := fn.entry } }) ⟨by simp, hpush⟩
    fun _ p _ cur hl hcur =>
      ⟨by simp [Func.linkParent, hcur.1], hcur.2.linkParent (hcur.1 ▸ Nat.lt_succ_self _)
        (hcur.1 ▸ Nat.lt_succ_of_lt (hparents p (by simp [hl])))⟩
  exact hfold.2

theorem addEdge (hs : s < fn.blocks.size) (ht : t < fn.blocks.size) : (fn.addEdge s t).Wired :=
  h.link hs ht (fun _ => perm_append_singleton ..) (fun _ => .refl _) (fun _ => rfl) fun _ => rfl

end Wired

/-! ## Variables -/

/-- A variable that is alive in a block has been written on a way to it. -/
structure Sustained (fn : Func) : Prop where
  home : (fn.block fn.entry).home = fn.entry
  alive : ∀ b, ∀ v ∈ (fn.block b).alive, ∃ x, fn.Writes v x ∧ Reachable fn.Edge x b

namespace Sustained

variable (h : fn.Sustained)
include h

/-- A variable becomes alive in a block that writes it or has a parent where it is alive. -/
theorem modify (hhome : ∀ blk, (f blk).home = blk.home)
    (hparents : ∀ blk, blk.parents ⊆ (f blk).parents)
    (hwritten : ∀ (blk : Block) v, (blk.written.get? v).isSome → ((f blk).written.get? v).isSome)
    (halive : ∀ v ∈ (f (fn.block b)).alive, v ∈ (fn.block b).alive ∨
      ((f (fn.block b)).written.get? v).isSome ∨
      ∃ p ∈ (f (fn.block b)).parents, v ∈ (fn.block p).alive) : (fn.modify b f).Sustained := by
  have hold : ∀ c, ∀ v ∈ (fn.block c).alive,
      ∃ x, (fn.modify b f).Writes v x ∧ Reachable (fn.modify b f).Edge x c := by
    intro c v hv
    obtain ⟨x, hx, l, hl⟩ := h.alive c v hv
    refine ⟨x, ?_, l, hl.mono fun a d hedge => ?_⟩
    · rw [Graph.Writes]
      rcases fn.block_modify_cases b x f with hx' | ⟨-, -, hx'⟩ <;> rw [hx']
      · exact hx
      · exact hwritten _ v hx
    · rw [Graph.Edge]
      rcases fn.block_modify_cases b d f with hd | ⟨-, -, hd⟩ <;> rw [hd]
      · exact hedge
      · exact hparents _ hedge
  refine ⟨(proj_block_modify Block.home hhome).trans h.home, fun c v hv => ?_⟩
  rcases fn.block_modify_cases b c f with hc | ⟨rfl, -, hc⟩ <;> rw [hc] at hv
  · exact hold c v hv
  · rcases halive v hv with hv | hv | ⟨p, hp, hv⟩
    · exact hold b v hv
    · exact ⟨b, by rwa [Graph.Writes, hc], .refl ..⟩
    · obtain ⟨x, hx, hreach⟩ := hold p v hv
      exact ⟨x, hx, hreach.step (by rwa [Graph.Edge, hc])⟩

/-- No variable becomes alive, and no edge or value is taken away. -/
theorem extend (hparents : ∀ blk, blk.parents ⊆ (f blk).parents)
    (hf : ∀ blk, ((f blk).home, (f blk).written, (f blk).alive) =
      (blk.home, blk.written, blk.alive)) : (fn.modify b f).Sustained := by
  simp only [Prod.mk.injEq] at hf
  exact h.modify (fun blk => (hf blk).1) hparents (fun blk _ hv => (hf blk).2.1 ▸ hv)
    fun _ hv => .inl ((hf _).2.2 ▸ hv)

theorem contents (hf : ∀ blk, ((f blk).parents, (f blk).home, (f blk).written, (f blk).alive) =
      (blk.parents, blk.home, blk.written, blk.alive)) : (fn.modify b f).Sustained := by
  refine h.extend (fun blk => ?_) fun blk => congrArg Prod.snd (hf blk)
  have hparents : (f blk).parents = blk.parents := congrArg Prod.fst (hf blk)
  rw [hparents]
  exact Subset.refl _

theorem linkParent (b p : BlockId) : (fn.linkParent b p).Sustained := by
  have hchild : (fn.modify p fun blk => { blk with children := blk.children ++ [b] }).Sustained :=
    h.contents fun _ => rfl
  refine hchild.modify (fun _ => rfl) (fun _ => subset_append_left ..) (fun _ _ => id)
    fun v hv => ?_
  rcases KeySet.mem_union.mp hv with hv | hv
  · exact .inl hv
  · have hsame : ((fn.modify p fun blk => { blk with children := blk.children ++ [b] }).block p).alive
        = (fn.block p).alive := proj_block_modify Block.alive fun _ => rfl
    exact .inr (.inr ⟨p, by simp, hsame.symm ▸ hv⟩)

theorem addBlock (parents : List BlockId) : (fn.addBlock parents).Sustained := by
  refine foldl_invariant (fun _ => Sustained) ⟨?_, fun c v hv => ?_⟩
    fun _ p _ _ _ hcur => hcur.linkParent _ p
  · rw [block_push]
    split
    · rfl
    · exact h.home
  · rw [block_push] at hv
    split at hv
    · exact absurd hv (KeySet.not_mem_empty v)
    · obtain ⟨x, hx, l, hl⟩ := h.alive c v hv
      have hpush : ∀ d, d = fn.blocks.size → fn.block d = {} := by
        rintro d rfl
        exact Graph.block_of_size_le le_rfl
      refine ⟨x, ?_, l, hl.mono fun a d hedge => ?_⟩
      · rw [Graph.Writes] at hx ⊢
        rw [block_push]
        split
        · next hxs =>
          rw [hpush x hxs] at hx
          exact absurd hx Bool.false_ne_true
        · exact hx
      · rw [Graph.Edge] at hedge ⊢
        rw [block_push]
        split
        · next hds =>
          rw [hpush d hds] at hedge
          exact absurd hedge (by simp)
        · exact hedge

end Sustained

/-! ## All of them -/

/-- What all primitives keep, if they are given blocks that exist. -/
structure Kept (fn : Func) : Prop where
  separate : fn.Separate
  wired : fn.Wired
  sustained : fn.Sustained

namespace Kept

variable (h : fn.Kept)
include h

theorem fresh : fn.Fresh :=
  ⟨h.separate, h.sustained.home, fun b => (h.wired.unexplored b).pending⟩

theorem addBlock (hparents : ∀ p ∈ parents, p < fn.blocks.size) : (fn.addBlock parents).Kept :=
  ⟨h.separate.addBlock parents, h.wired.addBlock hparents, h.sustained.addBlock parents⟩

theorem addEdge (hs : s < fn.blocks.size) (ht : t < fn.blocks.size) : (fn.addEdge s t).Kept where
  separate := (h.separate.modify fun _ => rfl).modify fun _ => rfl
  wired := h.wired.addEdge hs ht
  sustained := by
    refine Sustained.extend (h.sustained.contents ?_) (fun _ => subset_cons_self ..) ?_
    · exact fun _ => rfl
    · exact fun _ => rfl

theorem addTemp (b : BlockId) : (fn.addTemp b).Kept where
  separate := h.separate.addTemp b
  wired := ⟨h.wired.entry_lt, h.wired.counts, h.wired.unexplored⟩
  sustained := ⟨h.sustained.home, h.sustained.alive⟩

theorem append (hinst : inst.result? = none) : (fn.append b inst).Kept :=
  ⟨h.separate.append hinst, h.wired.modify fun _ => rfl, h.sustained.contents fun _ => rfl⟩

theorem define (hinst : inst.result? = some fn.temps.size) :
    ((fn.addTemp b).append b inst).Kept where
  separate := h.separate.define hinst
  wired := (h.addTemp b).wired.modify fun _ => rfl
  sustained := (h.addTemp b).sustained.contents fun _ => rfl

theorem await (hv : (fn.block b).awaited.get? v = none) :
    ((fn.addTemp b).await b v fn.temps.size).Kept where
  separate := h.separate.await hv
  wired := (h.addTemp b).wired.modify fun _ => rfl
  sustained := (h.addTemp b).sustained.contents fun _ => rfl

theorem keepConst (type : ValueType) (w : Int64) (u : Temp) : (fn.keepConst b type w u).Kept :=
  ⟨h.separate.modify fun _ => rfl, h.wired.modify fun _ => rfl, h.sustained.contents fun _ => rfl⟩

theorem write (b : BlockId) (v : Variable) (u : Temp) : (fn.write b v u).Kept where
  separate := h.separate.modify fun _ => rfl
  wired := h.wired.modify fun _ => rfl
  sustained := h.sustained.modify (fun _ => rfl) (fun _ => Subset.refl _)
    (fun _ _ => Table.isSome_get?_insert) fun _ => .inl

theorem declare (b : BlockId) (v : Variable) (u : Temp) : (fn.declare b v u).Kept where
  separate := h.separate.modify fun _ => rfl
  wired := h.wired.modify fun _ => rfl
  sustained := by
    refine h.sustained.modify (fun _ => rfl) (fun _ => Subset.refl _)
      (fun _ _ => Table.isSome_get?_insert) fun w hw => ?_
    rcases KeySet.mem_insert.mp hw with rfl | hw
    · refine .inr (.inl ?_)
      rw [Block.declare, Table.get?_insert, if_pos rfl]
      rfl
    · exact .inl hw

end Kept

end Func

end SsaBlocks
