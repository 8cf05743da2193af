import SsaBlocks.Numbering
import SsaBlocks.Proofs.Phi.Placement
import SsaBlocks.Proofs.Phi.Reads

/-!
# From a block graph to its phi nodes

A function whose graph is rooted can be numbered, its dominance and its frontiers can be computed,
and its phi nodes can be placed. What comes out differs from the function in what these steps are
meant to find out only. For each variable, a block that is reached by the variable without having a
phi node for it is reached from one block only.
-/

namespace SsaBlocks.Func

open SsaBlocks.Flow

variable {fn cur : Func} {b c x y : BlockId} {v : Variable}

/-! ## Numbering the blocks -/

theorem block_foldl_index {l : List BlockId} (hl : l.Nodup) (hs : ∀ b ∈ l, b < cur.blocks.size)
    (k : Nat) (c : BlockId) :
    ((l.zipIdx k).foldl (fun fn e => fn.modify e.1 fun blk => { blk with index := some e.2 })
      cur).block c =
      if c ∈ l then { cur.block c with index := some (k + l.idxOf c) } else cur.block c := by
  induction l generalizing cur k with
  | nil => rfl
  | cons b l ih =>
    obtain ⟨hbl, hl⟩ := List.nodup_cons.mp hl
    have hb : b < cur.blocks.size := hs b (by simp)
    have hs' : ∀ a ∈ l, a < (cur.modify b fun blk => { blk with index := some k }).blocks.size := by
      intro a ha
      rw [size_modify]
      exact hs a (List.mem_cons_of_mem _ ha)
    rw [List.zipIdx_cons, List.foldl_cons, ih hl hs']
    by_cases hc : c = b
    · subst hc
      rw [if_neg hbl, if_pos (by simp), block_modify_self hb, List.idxOf_cons_self]
      rfl
    · rw [block_modify_ne (Ne.symm hc)]
      by_cases hcl : c ∈ l
      · have hk : k + 1 + l.idxOf c = k + (l.idxOf c).succ := by omega
        rw [if_pos hcl, if_pos (List.mem_cons_of_mem _ hcl), List.idxOf_cons_ne _ (Ne.symm hc), hk]
      · rw [if_neg hcl, if_neg (by simp [hc, hcl])]

theorem block_numberBlocks (he : fn.entry < fn.blocks.size) (c : BlockId) :
    fn.numberBlocks.block c = if c ∈ fn.canonicalOrder then
      { fn.block c with index := some (fn.canonicalOrder.idxOf c) } else fn.block c := by
  have hs : ∀ b ∈ fn.canonicalOrder,
      b < ({ fn with order := fn.canonicalOrder } : Func).blocks.size := by
    intro b hb
    change b < fn.blocks.size
    exact mem_canonicalOrder_lt hb he
  have hfold := block_foldl_index (nodup_canonicalOrder fn) hs 0 c
  rw [Nat.zero_add] at hfold
  exact hfold

/-- Numbering changes nothing but the numbers. -/
theorem proj_numberBlocks {β : Type} (π : Block → β)
    (hπ : ∀ blk index, π { blk with index } = π blk) (he : fn.entry < fn.blocks.size) (b : BlockId) :
    π (fn.numberBlocks.block b) = π (fn.block b) := by
  rw [block_numberBlocks he]
  split
  · exact hπ _ _
  · rfl

/-! ## Dominance and frontiers -/

/-- A block without what the analysis of the graph finds out. -/
def forgetAnalysis (blk : Block) : Block :=
  { blk with index := none, dominators := none, idom := none, frontier := none }

theorem forgetAnalysis_forgetFrontier (blk : Block) :
    forgetAnalysis (forgetFrontier blk) = forgetAnalysis blk := rfl

theorem forgetAnalysis_forgetDominators (blk : Block) :
    forgetAnalysis (forgetDominators blk) = forgetAnalysis blk := rfl

/-- `cur` is `fn` with its blocks numbered and its frontiers known. -/
structure Analysed (fn cur : Func) : Prop where
  eq : { cur with blocks := fn.blocks, order := fn.order } = fn
  size : cur.blocks.size = fn.blocks.size
  order : cur.order = fn.canonicalOrder
  rest : ∀ b, forgetAnalysis (cur.block b) = forgetAnalysis (fn.block b)
  index : ∀ b ∈ fn.canonicalOrder, (cur.block b).index = some (fn.canonicalOrder.idxOf b)
  frontier : ∀ x ∈ fn.canonicalOrder, ∀ y, y ∈ cur.frontierOf x ↔
    InFrontier fn.OrderedEdge fn.entry x y

theorem sameShape_of_forgetAnalysis (hentry : cur.entry = fn.entry)
    (hsize : cur.blocks.size = fn.blocks.size)
    (hrest : ∀ b, forgetAnalysis (cur.block b) = forgetAnalysis (fn.block b)) :
    fn.SameShape cur :=
  ⟨hentry, hsize, fun b => (congrArg Block.parents (hrest b) :),
    fun b => (congrArg Block.children (hrest b) :)⟩

theorem Analysed.entry (h : fn.Analysed cur) : cur.entry = fn.entry := by
  rw [← h.eq]

theorem Analysed.sameShape (h : fn.Analysed cur) : fn.SameShape cur :=
  sameShape_of_forgetAnalysis h.entry h.size h.rest

/-- No temporary comes from what the analysis finds out. -/
theorem separate_of_forgetAnalysis (heq : { cur with blocks := fn.blocks, order := fn.order } = fn)
    (hrest : ∀ b, forgetAnalysis (cur.block b) = forgetAnalysis (fn.block b)) (hs : fn.Separate) :
    cur.Separate := by
  have htemps : cur.temps = fn.temps := by rw [← heq]
  refine ⟨hs.toApart.of_sublist (by rw [htemps]) fun p => ?_, ?_, fun t => ?_⟩
  · have hmade : cur.made p = fn.made p := by
      cases p with
      | params => rw [made, made, ← heq]
      | reads b => exact (congrArg (·.awaited.values) (hrest b) :)
      | phis b => exact (congrArg (·.pending.values) (hrest b) :)
      | code b => exact (congrArg (·.code.filterMap Instruction.result?) (hrest b) :)
    rw [hmade]
  · have hparams := hs.params
    rwa [← heq] at hparams
  · rw [Graph.tempIndex?, Graph.temp, htemps]
    exact hs.unnumbered t

theorem edits_numberBlocks (fn : Func) :
    ({ fn with order := fn.canonicalOrder } : Func).Edits fn.numberBlocks :=
  .foldl (fun _ _ => .modify _ _ _) _ _

theorem forgetAnalysis_numberBlocks (hentry : fn.entry < fn.blocks.size) (b : BlockId) :
    forgetAnalysis (fn.numberBlocks.block b) = forgetAnalysis (fn.block b) := by
  rw [block_numberBlocks hentry]
  split <;> rfl

theorem sameShape_numberBlocks (hentry : fn.entry < fn.blocks.size) :
    fn.SameShape fn.numberBlocks :=
  sameShape_of_forgetAnalysis fn.edits_numberBlocks.entry fn.edits_numberBlocks.size
    (forgetAnalysis_numberBlocks hentry)

theorem order_numberBlocks (fn : Func) : fn.numberBlocks.order = fn.canonicalOrder :=
  fn.edits_numberBlocks.order

theorem Surveyable.entry_lt (h : fn.Surveyable) : fn.entry < fn.blocks.size :=
  h.lt _ (entry_mem_postorder fn)

theorem Surveyable.numberBlocks (h : fn.Surveyable) : fn.numberBlocks.Surveyable := by
  have hshape := sameShape_numberBlocks h.entry_lt
  refine ⟨fun b hb => ?_, fun b hb p hp hnot => ?_⟩
  · rw [hshape.postorder] at hb
    exact hshape.size ▸ h.lt b hb
  · rw [hshape.postorder] at hb hnot
    rw [hshape.edge] at hp
    rw [block_numberBlocks h.entry_lt]
    split <;> exact h.unset b hb p hp hnot

/-- The blocks can be numbered and the frontiers computed. -/
theorem exists_analysed (he : fn.Enclosed) (hf : fn.Surveyable) :
    ∃ cur, (fn.numberBlocks.computeDominance >>= computeFrontiers) = .ok cur ∧ fn.Analysed cur := by
  have hnumber := fn.edits_numberBlocks
  have hshape := sameShape_numberBlocks he.entry_lt
  have he' := he.sameShape hshape
  obtain ⟨dom, hok, hdom⟩ := exists_dominated hf.numberBlocks
  have hparents : ∀ b, (dom.block b).parents = (fn.numberBlocks.block b).parents :=
    fun b => (congrArg Block.parents (hdom.rest b) :)
  have horder : fn.numberBlocks.order = fn.numberBlocks.canonicalOrder :=
    fn.order_numberBlocks.trans hshape.canonicalOrder.symm
  obtain ⟨cur, hcur, hedits, hsame, hfrontier⟩ := exists_computeFrontiers he' hdom.edits hparents
    (fun b hb d => hdom.idom_iff he'.core hb) horder
  rw [hshape.canonicalOrder, hshape.orderedEdge, hshape.entry] at hfrontier
  have hall := hnumber.trans (hdom.edits.trans hedits)
  refine ⟨cur, by rw [hok, ok_bind, hcur], ?_, hall.size, hall.order, fun b => ?_,
    fun b hb => ?_, hfrontier⟩
  · exact congrArg (fun f : Func => { f with order := fn.order }) hall.eq
  · rw [← forgetAnalysis_forgetFrontier, hsame b, forgetAnalysis_forgetFrontier,
      ← forgetAnalysis_forgetDominators, hdom.rest b, forgetAnalysis_forgetDominators,
      forgetAnalysis_numberBlocks he.entry_lt b]
  · have h₁ : (cur.block b).index = (dom.block b).index := (congrArg Block.index (hsame b) :)
    have h₂ : (dom.block b).index = (fn.numberBlocks.block b).index :=
      (congrArg Block.index (hdom.rest b) :)
    rw [h₁, h₂, block_numberBlocks he.entry_lt, if_pos hb]

/-! ## Phi nodes -/

/-- Numbering, dominance, frontiers and the placement of phi nodes. -/
def placeStages (fn : Func) : Except Fault Func :=
  fn.numberBlocks.computeDominance >>= computeFrontiers >>= placePhis

/-- `cur` is `fn` with its phi nodes placed, after it was analysed to `start`. -/
structure WithPhis (fn start cur : Func) : Prop where
  analysed : fn.Analysed start
  placed : start.Placed cur
  closed : ∀ v, start.PhisClosed cur v

theorem Analysed.framed {start : Func} (h : fn.Analysed start) (hr : fn.Rooted) : start.Framed := by
  refine ⟨h.order ▸ nodup_canonicalOrder fn, fun b hb => ?_, fun x hx y hy => ?_⟩
  · rw [h.size]
    exact hr.lt_of_mem (h.order ▸ hb)
  · rw [h.order] at hx ⊢
    obtain ⟨⟨p, hp, -⟩, -⟩ := (h.frontier x hx y).mp hy
    exact hp.2.1

theorem exists_placeStages (hr : fn.Rooted) (hp : ∀ b, (fn.block b).pending = .empty) :
    ∃ start cur, fn.placeStages = .ok cur ∧ fn.WithPhis start cur := by
  obtain ⟨start, hstart, hanalysed⟩ := exists_analysed hr.toEnclosed hr.surveyable
  have hpending : ∀ b, (start.block b).pending = .empty :=
    fun b => (congrArg Block.pending (hanalysed.rest b)).trans (hp b)
  obtain ⟨cur, hcur, hplaced, hclosed⟩ := exists_placePhis (hanalysed.framed hr) hpending
  exact ⟨start, cur, by rw [placeStages, hstart, ok_bind, hcur], hanalysed, hplaced, hclosed⟩

namespace WithPhis

variable {start : Func}

theorem sameShape (h : fn.WithPhis start cur) : fn.SameShape cur := by
  refine h.analysed.sameShape.trans ⟨?_, h.placed.size,
    fun b => (congrArg Block.parents (h.placed.rest b) :),
    fun b => (congrArg Block.children (h.placed.rest b) :)⟩
  rw [← h.placed.eq]

theorem order (h : fn.WithPhis start cur) : cur.order = fn.canonicalOrder := by
  rw [← h.analysed.order, ← h.placed.eq]

theorem writes_of_hasPhi (h : fn.WithPhis start cur) (hb : cur.HasPhi v b) : cur.Writes v b := by
  rw [Graph.Writes, h.placed.written, Option.isSome_or, Bool.or_eq_true]
  exact .inr hb

/-- The blocks that write a variable have phi nodes for it at every place of their frontiers. -/
theorem settled (h : fn.WithPhis start cur) (hr : fn.Rooted) (v : Variable) :
    Settled fn.Edge fn.entry (cur.Writes v) (cur.HasPhi v) where
  sub _ := h.writes_of_hasPhi
  frontier x y hx hxy := by
    obtain ⟨⟨p, hp, hxp⟩, -⟩ := id hxy
    have hmem : x ∈ fn.canonicalOrder := hr.dominator_mem hxp (hr.edge_mem hp).1
    exact (h.closed v).closed x (h.analysed.order ▸ hmem) hx y
      ((h.analysed.frontier x hmem y).mpr (hr.orderedEdge_eq ▸ hxy))

/-- A block with a phi node is where the dominance of some block ends. -/
theorem exists_inFrontier (h : fn.WithPhis start cur) (hr : fn.Rooted) (hb : cur.HasPhi v b) :
    ∃ x, cur.Writes v x ∧ InFrontier fn.Edge fn.entry x b := by
  obtain ⟨-, -, x, hx, hw, hxb⟩ :=
    (h.closed v).exists_writer h.placed (h.analysed.framed hr) ((h.closed v).needed b hb)
  rw [h.analysed.order] at hx
  exact ⟨x, hw, hr.orderedEdge_eq ▸ (h.analysed.frontier x hx b).mp hxb⟩

end WithPhis

end SsaBlocks.Func
