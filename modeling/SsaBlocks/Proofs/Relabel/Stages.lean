import SsaBlocks.Listing
import SsaBlocks.Pipeline
import SsaBlocks.Proofs.Phi.Strict
import SsaBlocks.Proofs.Relabel.Func

/-!
# SSA construction and the numbers of variables

Every stage does to a renumbered function what it does to the function: the numbers decide the order
in which phi nodes are placed, reads are resolved and variables are listed, and that order stays the
same. Only the text of a fault may hold the number of a variable. No stage looks at the mark of the
stage that a function has reached either, so the mark may change with the numbers.
-/

namespace SsaBlocks

open List

/-- The fault without the text of its variable. -/
def Fault.anonymous : Fault → Fault
  | .unreadable _ block => .unreadable "" block
  | .unreached _ block => .unreached "" block
  | f => f

/-- The second result is the first under a map, or both are faults that differ in the text of a
variable at most. -/
inductive Agree {α β : Type} (φ : α → β) : Except Fault α → Except Fault β → Prop
  | ok (a : α) : Agree φ (.ok a) (.ok (φ a))
  | error {f f' : Fault} (h : f'.anonymous = f.anonymous) : Agree φ (.error f) (.error f')

namespace Agree

variable {α α' β β' : Type} {φ : α → α'} {ψ : β → β'}

theorem of_eq {x : Except Fault α} {y : Except Fault α'} (h : y = x.map φ) : Agree φ x y := by
  subst h
  cases x with
  | ok a => exact .ok a
  | error f => exact .error rfl

theorem bind {x : Except Fault α} {y : Except Fault α'} {k : α → Except Fault β}
    {k' : α' → Except Fault β'} (h : Agree φ x y) (hk : ∀ a, Agree ψ (k a) (k' (φ a))) :
    Agree ψ (x >>= k) (y >>= k') := by
  cases h with
  | ok a => exact hk a
  | error h => exact .error h

theorem foldlM {γ γ' : Type} {f : α → γ → Except Fault α} {f' : α' → γ' → Except Fault α'}
    {χ : γ → γ'} (h : ∀ a c, Agree φ (f a c) (f' (φ a) (χ c))) (l : List γ) (a : α) :
    Agree φ (l.foldlM f a) ((l.map χ).foldlM f' (φ a)) := by
  induction l generalizing a with
  | nil => exact .ok a
  | cons c l ih => exact (h a c).bind ih

theorem mapM {γ : Type} {f f' : γ → Except Fault α} (h : ∀ c, Agree id (f c) (f' c))
    (l : List γ) : Agree id (l.mapM f) (l.mapM f') := by
  induction l with
  | nil => exact .ok []
  | cons c l ih =>
    rw [mapM_cons, mapM_cons]
    exact (h c).bind fun a => ih.bind fun as => .ok _

end Agree

namespace Func

variable {r : Nat → Nat} {m : Stage → Stage} {fn : Func} {b c : BlockId}

/-- The function with the numbers of its variables replaced, and its mark. -/
def recast (r : Nat → Nat) (m : Stage → Stage) (fn : Func) : Func :=
  { fn.relabel r with stage := m fn.stage }

theorem size_recast : (fn.recast r m).blocks.size = fn.blocks.size :=
  size_relabel

theorem block_recast (b : BlockId) : (fn.recast r m).block b = (fn.block b).relabel r :=
  block_relabel b

theorem modify_recast {f g : Block → Block} (h : ∀ blk, g (blk.relabel r) = (f blk).relabel r) :
    (fn.recast r m).modify b g = (fn.modify b f).recast r m :=
  congrArg (fun cur : Func => { cur with stage := m fn.stage }) (modify_relabel h)

theorem modify_recast_self {f : Block → Block} (h : ∀ blk, f (blk.relabel r) = (f blk).relabel r) :
    (fn.recast r m).modify b f = (fn.modify b f).recast r m :=
  modify_recast h

theorem addTemp_recast (b : BlockId) : (fn.recast r m).addTemp b = (fn.addTemp b).recast r m :=
  congrArg (fun cur : Func => { cur with stage := m fn.stage }) (addTemp_relabel b)

theorem sameShape_recast (r : Nat → Nat) (m : Stage → Stage) (fn : Func) :
    fn.SameShape (fn.recast r m) :=
  ⟨rfl, size_recast, (sameShape_relabel r fn).parents, (sameShape_relabel r fn).children⟩

theorem blockText_recast (b : BlockId) : (fn.recast r m).blockText b = fn.blockText b :=
  blockText_relabel b

theorem blockIndex_recast : (fn.recast r m).blockIndex = fn.blockIndex := by
  funext c
  rw [blockIndex, block_recast]
  rfl

/-! ## Removing blocks and loads -/

theorem isRemovable_recast (b : BlockId) : (fn.recast r m).isRemovable b = fn.isRemovable b := by
  simp only [isRemovable, block_recast, Block.relabel, Table.isEmpty_relabel]

theorem foldl_modify_recast {α : Type} {f : α → Block → Block} (target : α → BlockId)
    (h : ∀ a blk, f a (blk.relabel r) = (f a blk).relabel r) (l : List α) (fn : Func) :
    l.foldl (fun fn a => fn.modify (target a) (f a)) (fn.recast r m) =
      (l.foldl (fun fn a => fn.modify (target a) (f a)) fn).recast r m :=
  foldl_hom (recast r m) fun _ a => modify_recast (h a)

theorem bypassParent_recast (b child : BlockId) (fn : Func) (parent : BlockId) :
    bypassParent b child (fn.recast r m) parent = (bypassParent b child fn parent).map (recast r m) := by
  have hchildren := (sameShape_recast r m fn).children parent
  simp only [bypassParent, hchildren]
  cases (fn.block parent).children.idxOf? b with
  | none => rfl
  | some i => exact congrArg Except.ok (modify_recast fun _ => rfl)

theorem bypass_recast (fn : Func) (blocks : List BlockId) (b child : BlockId) :
    (fn.recast r m).bypass blocks b child = (fn.bypass blocks b child).map (recast r m) := by
  have hparents := (sameShape_recast r m fn).parents b
  simp only [bypass, hparents]
  have hretarget := foldl_modify_recast (r := r) (m := m) id (f := fun (_ : BlockId) (o : Block) =>
    { o with code := o.code.map (Instruction.retarget b child) }) (fun _ _ => rfl) blocks fn
  simp only [id] at hretarget
  rw [hretarget, foldlM_hom (recast r m) (bypassParent_recast b child)]
  refine map_bind_hom (recast r m) (recast r m) fun mid => congrArg Except.ok ?_
  have hcode : ((mid.recast r m).block b).code = (mid.block b).code := by
    rw [block_recast]
    rfl
  rw [hcode, modify_recast_self, modify_recast_self]
  · exact fun _ => rfl
  · exact fun _ => rfl

theorem removeRedundantBlocks_recast (fn : Func) :
    (fn.recast r m).removeRedundantBlocks = fn.removeRedundantBlocks.map (recast r m) := by
  have hstep : ∀ blocks (fn : Func) b, removeIfRedundant blocks (fn.recast r m) b =
      (removeIfRedundant blocks fn b).map (recast r m) := by
    intro blocks fn b
    have hchildren := (sameShape_recast r m fn).children b
    simp only [removeIfRedundant, isRemovable_recast, hchildren, blockText_recast]
    split
    · split
      · split
        · rfl
        · exact bypass_recast fn blocks b _
      · rfl
    · rfl
  rw [removeRedundantBlocks, (sameShape_recast r m fn).canonicalOrder]
  exact foldlM_hom (recast r m) (hstep _) _ fn

theorem substitute_recast (fn : Func) (blocks : List BlockId) (s : Substitution) :
    (fn.recast r m).substitute blocks s = (fn.substitute blocks s).recast r m := by
  refine foldl_modify_recast id (f := fun _ => Block.substitute s.close.apply) (fun _ blk => ?_)
    blocks fn
  simp only [Block.substitute, Block.relabel, Table.mapValues_relabel, map_map]
  rfl

theorem removeRedundantLoads_recast (fn : Func) :
    (fn.recast r m).removeRedundantLoads = fn.removeRedundantLoads.recast r m := by
  have hstep : ∀ (state : Func × Substitution) b,
      removeLoadsIn (Prod.map (recast r m) id state) b =
        Prod.map (recast r m) id (removeLoadsIn state b) := by
    rintro ⟨fn, replaced⟩ b
    have hcode : ((fn.recast r m).block b).code = (fn.block b).code := by
      rw [block_recast]
      rfl
    simp only [removeLoadsIn, Prod.map, hcode]
    rw [modify_recast_self]
    · rfl
    · exact fun _ => rfl
  have hfold : fn.canonicalOrder.foldl removeLoadsIn (Prod.map (recast r m) id (fn, .empty)) =
      Prod.map (recast r m) id (fn.canonicalOrder.foldl removeLoadsIn (fn, .empty)) :=
    foldl_hom (Prod.map (recast r m) id) hstep
  have hstart : Prod.map (recast r m) id (fn, (.empty : Substitution)) = (fn.recast r m, .empty) :=
    rfl
  rw [removeRedundantLoads, (sameShape_recast r m fn).canonicalOrder, ← hstart, hfold]
  exact substitute_recast ..

theorem numberBlocks_recast (fn : Func) :
    (fn.recast r m).numberBlocks = fn.numberBlocks.recast r m := by
  rw [numberBlocks, (sameShape_recast r m fn).canonicalOrder]
  exact foldl_modify_recast Prod.fst
    (f := fun (e : BlockId × Nat) blk => { blk with index := some e.2 }) (fun _ _ => rfl) _
    { fn with order := fn.canonicalOrder }

/-! ## Dominators and frontiers -/

theorem meetParents_recast (b : BlockId) : (fn.recast r m).meetParents b = fn.meetParents b := by
  simp only [meetParents, block_recast]
  rfl

theorem refineDominators_recast (blocks : List BlockId) (passes : Nat) (fn : Func) :
    refineDominators blocks passes (fn.recast r m) =
      (refineDominators blocks passes fn).map (recast r m) := by
  have hstep : ∀ (state : Func × Bool) b, refineBlock (Prod.map (recast r m) id state) b =
      Prod.map (recast r m) id (refineBlock state b) := by
    rintro ⟨fn, changed⟩ b
    have hset : ((fn.recast r m).block b).dominators = (fn.block b).dominators := by
      rw [block_recast]
      rfl
    simp only [refineBlock, apply_ite (Prod.map (recast r m) id)]
    refine ite_congr rfl (fun _ => rfl) fun _ => ?_
    simp only [Prod.map, meetParents_recast, hset]
    refine ite_congr rfl (fun _ => rfl) fun _ => ?_
    rw [modify_recast_self]
    · rfl
    · exact fun _ => rfl
  induction passes generalizing fn with
  | zero => rfl
  | succ passes ih =>
    have hfold : blocks.reverse.foldl refineBlock (Prod.map (recast r m) id (fn, false)) =
        Prod.map (recast r m) id (blocks.reverse.foldl refineBlock (fn, false)) :=
      foldl_hom (Prod.map (recast r m) id) hstep
    have hstart : Prod.map (recast r m) id (fn, false) = (fn.recast r m, false) := rfl
    rw [refineDominators, refineDominators, ← hstart, hfold]
    obtain ⟨fn, changed⟩ := blocks.reverse.foldl refineBlock (fn, false)
    cases changed with
    | true => exact ih fn
    | false => rfl

theorem immediateDominator?_recast (b : BlockId) :
    (fn.recast r m).immediateDominator? b = fn.immediateDominator? b := by
  simp only [immediateDominator?, block_recast]
  rfl

theorem postorder_recast : (fn.recast r m).postorder = fn.postorder :=
  (sameShape_recast r m fn).postorder

theorem startDominance_recast : (fn.recast r m).startDominance = fn.startDominance.recast r m := by
  rw [startDominance, postorder_recast]
  exact foldl_hom (recast r m) fun _ _ => modify_recast fun _ => rfl

theorem computeDominance_recast (fn : Func) :
    (fn.recast r m).computeDominance = fn.computeDominance.map (recast r m) := by
  have hdef : ∀ fn : Func, fn.computeDominance =
      (refineDominators fn.postorder (fn.postorder.length * fn.blocks.size + 1) fn.startDominance >>=
        fun solved => .ok (fn.postorder.foldl (fun cur b => cur.modify b fun blk =>
          { blk with idom := solved.immediateDominator? b }) solved)) := fun _ => rfl
  rw [hdef, hdef, postorder_recast, size_recast, startDominance_recast, refineDominators_recast]
  refine map_bind_hom (recast r m) (recast r m) fun solved => congrArg Except.ok ?_
  simp only [immediateDominator?_recast]
  exact foldl_modify_recast id
    (f := fun b blk => { blk with idom := solved.immediateDominator? b }) (fun _ _ => rfl) _ solved

theorem runFrontier_recast (target : BlockId) (steps : Nat) (fn : Func)
    (runner : Option BlockId) : runFrontier target steps (fn.recast r m) runner =
      (runFrontier target steps fn runner).map (recast r m) := by
  induction steps generalizing fn runner with
  | zero => rfl
  | succ steps ih =>
    cases runner with
    | none => rfl
    | some runner =>
      have hidom : ∀ c, ((fn.recast r m).block c).idom = (fn.block c).idom := by
        intro c
        rw [block_recast]
        rfl
      have hfrontier : ((fn.recast r m).block runner).frontier = (fn.block runner).frontier := by
        rw [block_recast]
        rfl
      simp only [runFrontier, hidom, hfrontier]
      split
      · rfl
      · cases (fn.block runner).frontier with
        | none => rfl
        | some set =>
          simp only
          rw [← ih, modify_recast_self]
          exact fun _ => rfl

theorem computeFrontiers_recast (fn : Func) :
    (fn.recast r m).computeFrontiers = fn.computeFrontiers.map (recast r m) := by
  have hjoin : ∀ (fn : Func) b,
      (fn.recast r m).joinFrontiers b = (fn.joinFrontiers b).map (recast r m) := by
    intro fn b
    have hparents := (sameShape_recast r m fn).parents b
    simp only [joinFrontiers, hparents]
    split
    · rfl
    · refine foldlM_hom (recast r m) (fun fn p => ?_) _ fn
      rw [size_recast]
      exact runFrontier_recast ..
  have hclear := foldl_modify_recast (r := r) (m := m) id
    (f := fun (_ : BlockId) blk => { blk with frontier := some .empty }) (fun _ _ => rfl)
    fn.order fn
  rw [computeFrontiers, computeFrontiers, ← foldlM_hom (recast r m) hjoin]
  exact congrArg (fn.order.foldlM joinFrontiers) hclear

/-! ## Phi nodes -/

section Order

variable (hr : StrictMono r)
include hr

theorem takePhi_relabel (v : Variable) (t : Temp) (blk : Block) :
    (blk.relabel r).takePhi (v.relabel r) t = (blk.takePhi v t).relabel r := by
  simp only [Block.takePhi, Block.relabel, Table.insert_relabel _ _ hr, Table.erase_relabel _ _ hr,
    Table.contains_relabel _ _ hr]
  split <;> rfl

theorem placePhi_recast (fn : Func) (b : BlockId) (v : Variable) :
    (fn.recast r m).placePhi b (v.relabel r) = (fn.placePhi b v).recast r m := by
  have hpending : ((fn.recast r m).block b).pending.contains (v.relabel r) =
      (fn.block b).pending.contains v := by
    rw [block_recast]
    exact Table.contains_relabel _ _ hr
  have hawaited : ((fn.recast r m).block b).awaited.get? (v.relabel r) =
      (fn.block b).awaited.get? v := by
    rw [block_recast]
    exact Table.get?_relabel _ _ hr
  simp only [placePhi, hpending, hawaited, apply_ite (recast r m)]
  refine ite_congr rfl (fun _ => rfl) fun _ => ?_
  cases (fn.block b).awaited.get? v with
  | some t => exact modify_recast (takePhi_relabel hr v t)
  | none =>
    simp only [addTemp_recast]
    exact modify_recast (takePhi_relabel hr v _)

omit hr in
theorem orderedFrontier_recast (b : BlockId) :
    (fn.recast r m).orderedFrontier b = fn.orderedFrontier b := by
  simp only [orderedFrontier, block_recast, blockIndex_recast]
  rfl

/-- The placing of phi nodes in the renumbered function. -/
def Placing.recast (r : Nat → Nat) (m : Stage → Stage) (p : Placing) : Placing :=
  { p with fn := p.fn.recast r m }

theorem visit_recast (v : Variable) (p : Placing) (b : BlockId) :
    Placing.visit (v.relabel r) (p.recast r m) b = (Placing.visit v p b).recast r m := by
  simp only [Placing.visit, apply_ite (Placing.recast r m)]
  refine ite_congr rfl (fun _ => ite_congr rfl (fun _ => ?_) fun _ => ?_) fun _ => rfl
  · simp only [Placing.recast, placePhi_recast hr]
  · simp only [Placing.recast, placePhi_recast hr]

theorem run_recast (v : Variable) (steps : Nat) (p : Placing) :
    Placing.run (v.relabel r) steps (p.recast r m) =
      (Placing.run v steps p).map (Placing.recast r m) := by
  induction steps generalizing p with
  | zero => rfl
  | succ steps ih =>
    have hwork : (p.recast r m).work = p.work := rfl
    simp only [Placing.run, hwork]
    cases p.work with
    | nil => rfl
    | cons b rest =>
      have hfrontier : (p.recast r m).fn.orderedFrontier b = p.fn.orderedFrontier b :=
        orderedFrontier_recast b
      have hfold : (p.fn.orderedFrontier b).foldl (Placing.visit (v.relabel r))
          (({ p with work := rest } : Placing).recast r m) = _ :=
        foldl_hom (Placing.recast r m) (visit_recast hr v)
      simp only [hfrontier]
      exact (congrArg (Placing.run (v.relabel r) steps) hfold).trans (ih _)

theorem placeVariable_recast (p : Placing) (v : Variable) (blocks : List BlockId) :
    (p.recast r m).placeVariable (v.relabel r) blocks =
      (p.placeVariable v blocks).map (Placing.recast r m) := by
  have hsize : (p.recast r m).fn.blocks.size = p.fn.blocks.size := size_recast
  rw [Placing.placeVariable, hsize]
  exact run_recast hr v _ (p.next blocks)

theorem assignments_recast : (fn.recast r m).assignments = fn.assignments.relabel r := by
  refine @foldl_hom _ _ _ (Table.relabel r) _ _ _ .empty fun table b => ?_
  have hkeys : ((fn.recast r m).block b).written.keys =
      (fn.block b).written.keys.map (·.relabel r) := by
    rw [block_recast]
    exact Table.keys_relabel _
  rw [hkeys, foldl_map]
  refine foldl_hom (Table.relabel r) fun table v => ?_
  rw [Table.get?_relabel _ _ hr, Table.insert_relabel _ _ hr]

theorem placePhis_recast (fn : Func) :
    (fn.recast r m).placePhis = fn.placePhis.map (recast r m) := by
  rw [placePhis, assignments_recast hr, Table.relabel, foldlM_map]
  have hfold : fn.assignments.entries.foldlM
      (fun p e => p.placeVariable (e.1.relabel r) e.2) (Placing.recast r m { fn }) = _ :=
    foldlM_hom (Placing.recast r m) (fun p e => placeVariable_recast hr p e.1 e.2) _ _
  exact (congrArg (· >>= fun p : Placing => pure p.fn) hfold).trans
    (map_bind_hom (Placing.recast r m) (recast r m) (k := fun p => pure p.fn) fun p => rfl)

/-! ## Reads -/

theorem searchWritten_recast (v : Variable) (steps : Nat) :
    (fn.recast r m).searchWritten (v.relabel r) steps = fn.searchWritten v steps := by
  induction steps with
  | zero => rfl
  | succ steps ih =>
    funext seen queue
    cases queue with
    | nil => rfl
    | cons b queue =>
      have hwritten : ((fn.recast r m).block b).written.get? (v.relabel r) =
          (fn.block b).written.get? v := by
        rw [block_recast]
        exact Table.get?_relabel _ _ hr
      rw [searchWritten, searchWritten, ih, hwritten, block_recast]
      rfl

theorem nearestWritten?_recast (v : Variable) (start : List BlockId) :
    (fn.recast r m).nearestWritten? (v.relabel r) start = fn.nearestWritten? v start := by
  have hcount : (fn.recast r m).parentCount = fn.parentCount := by
    simp only [Graph.parentCount, recast, relabel, Array.toList_map, flatMap_map]
    rfl
  rw [nearestWritten?, searchWritten_recast hr, hcount]
  rfl

/-- What is left to be resolved in the renumbered function. -/
def Resolving.relabel (r : Nat → Nat) (s : Resolving) : Resolving :=
  { s with awaited := s.awaited.relabel r }

theorem resolve_relabel (s : Resolving) (v : Variable) (t : Temp) :
    (s.relabel r).resolve (v.relabel r) t = (s.resolve v t).relabel r := by
  have hawaited : (s.relabel r).awaited.get? (v.relabel r) = s.awaited.get? v :=
    Table.get?_relabel _ _ hr
  rw [Resolving.resolve, Resolving.resolve, hawaited]
  cases s.awaited.get? v with
  | none => rfl
  | some u => simp only [Resolving.relabel, Table.erase_relabel _ _ hr]

theorem takeFrom_relabel (s : Resolving) (blk : Block) :
    (s.relabel r).takeFrom (blk.relabel r) = (s.takeFrom blk).relabel r := by
  have hkeys : (s.relabel r).awaited.keys = s.awaited.keys.map (·.relabel r) :=
    Table.keys_relabel _
  rw [Resolving.takeFrom, hkeys, foldl_map]
  refine foldl_hom (Resolving.relabel r) fun s v => ?_
  have hwritten : (blk.relabel r).written.get? (v.relabel r) = blk.written.get? v :=
    Table.get?_relabel _ _ hr
  rw [hwritten]
  cases blk.written.get? v with
  | none => rfl
  | some t => exact resolve_relabel hr s v t

theorem climb_recast (steps : Nat) (b : BlockId) (s : Resolving) :
    (fn.recast r m).climb steps b (s.relabel r) = (fn.climb steps b s).map (Resolving.relabel r) := by
  induction steps generalizing b s with
  | zero => rfl
  | succ steps ih =>
    have hempty : (s.relabel r).awaited.isEmpty = s.awaited.isEmpty := Table.isEmpty_relabel _
    have hparents := (sameShape_recast r m fn).parents b
    simp only [climb, hempty, hparents]
    split
    · rfl
    · split
      · rw [block_recast, takeFrom_relabel hr]
        exact ih _ _
      · rfl

theorem agree_searchRead (fn : Func) (b : BlockId) (s : Resolving) (v : Variable) :
    Agree (Resolving.relabel r) (fn.searchRead b s v)
      ((fn.recast r m).searchRead b (s.relabel r) (v.relabel r)) := by
  have hparents := (sameShape_recast r m fn).parents b
  rw [searchRead, searchRead, hparents, nearestWritten?_recast hr, blockText_recast]
  cases fn.nearestWritten? v (fn.block b).parents with
  | none => exact .error rfl
  | some t =>
    simp only [resolve_relabel hr]
    exact .ok _

/-- A value is found for the same reads; if there is none for a read, then that read fails. -/
theorem agree_findReads (fn : Func) (b : BlockId) :
    Agree id (fn.findReads b) ((fn.recast r m).findReads b) := by
  let s : Resolving := { awaited := (fn.block b).awaited, found := .empty }
  have hclimb : (fn.recast r m).climb (fn.blocks.size + 2) b (s.relabel r) =
      (fn.climb (fn.blocks.size + 2) b s).map (Resolving.relabel r) := climb_recast hr _ b s
  rw [findReads_eq, findReads_eq, block_recast, size_recast]
  refine (Agree.of_eq hclimb).bind fun s => ?_
  have hkeys : (s.relabel r).awaited.keys = s.awaited.keys.map (·.relabel r) :=
    Table.keys_relabel _
  rw [hkeys]
  exact (Agree.foldlM (agree_searchRead hr fn b) _ s).bind fun s => .ok _

omit hr in
theorem takeReads_relabel (found : Substitution) (blk : Block) :
    (blk.relabel r).takeReads found = (blk.takeReads found).relabel r := by
  simp only [Block.takeReads, Block.substituteWritten, Block.substituteCode, Block.relabel,
    Table.mapValues_relabel]
  rfl

theorem agree_resolveReads (fn : Func) :
    Agree (recast r m) fn.resolveReads (fn.recast r m).resolveReads := by
  have hstep : ∀ (state : Func × Substitution) b, Agree (Prod.map (recast r m) id)
      (resolveBlock state b) (resolveBlock (Prod.map (recast r m) id state) (id b)) := by
    rintro ⟨cur, all⟩ b
    refine (agree_findReads hr cur b).bind fun found => .of_eq ?_
    exact congrArg (fun fn => Except.ok (fn, all.merge found)) (modify_recast (takeReads_relabel found))
  have hfold := Agree.foldlM hstep fn.order (fn, .empty)
  rw [map_id] at hfold
  refine hfold.bind fun state => .of_eq ?_
  exact congrArg Except.ok (substitute_recast state.1 state.1.order state.2)

/-! ## Edges of phi nodes -/

/-- What becomes of a phi node in the renumbered function. -/
def PhiFate.relabel (r : Nat → Nat) : PhiFate → PhiFate
  | .kept node => .kept (node.relabel r)
  | .renamed dest value => .renamed dest value
  | .dropped => .dropped

theorem inScope_recast (v : Variable) (b : BlockId) :
    (fn.recast r m).inScope (v.relabel r) b = fn.inScope v b := by
  simp only [inScope, block_recast, Block.relabel, KeySet.contains_relabel _ _ hr]

theorem agree_valueFrom (fn : Func) (v : Variable) (p : BlockId) :
    Agree id (fn.valueFrom v p) ((fn.recast r m).valueFrom (v.relabel r) p) := by
  rw [valueFrom, valueFrom, nearestWritten?_recast hr, blockText_recast]
  cases fn.nearestWritten? v [p] with
  | none => exact .error rfl
  | some t => exact .ok t

omit hr in
theorem edgeSources_recast (b : BlockId) : (fn.recast r m).edgeSources b = fn.edgeSources b := by
  simp only [edgeSources, block_recast, Graph.blockNumber, blockIndex_recast]
  rfl

theorem agree_phiFate (fn : Func) (b : BlockId) (v : Variable) (dest : Temp) :
    Agree (PhiFate.relabel r) (fn.phiFate b v dest)
      ((fn.recast r m).phiFate b (v.relabel r) dest) := by
  have hparents := (sameShape_recast r m fn).parents b
  simp only [phiFate, inScope_recast hr, hparents, edgeSources_recast]
  split
  · exact .ok _
  · refine Agree.bind (φ := id) (Agree.mapM (fun p => ?_) _) fun values => ?_
    · exact (agree_valueFrom hr fn v p).bind fun t => .ok (p, t)
    · rcases values with _ | ⟨⟨p, value⟩, _ | ⟨q, rest⟩⟩
      · exact .ok _
      · simp only [id]
        split
        · exact .ok _
        · exact .ok _
      · exact .of_eq (bind_eq_map_bind fun sources => rfl)

theorem agree_computePhis (fn : Func) :
    Agree (recast r m) fn.computePhis (fn.recast r m).computePhis := by
  have hdecide : ∀ (cur : Func) b (s : List Phi × Substitution) (e : Variable × Temp),
      Agree (Prod.map (map (Phi.relabel r)) id) (cur.decidePhi b s e)
        ((cur.recast r m).decidePhi b (Prod.map (map (Phi.relabel r)) id s)
          (e.1.relabel r, e.2)) := by
    intro cur b s e
    refine (agree_phiFate hr cur b e.1 e.2).bind fun fate => .of_eq ?_
    cases fate with
    | kept node => simp [PhiFate.relabel, Prod.map, pure, Except.pure, Except.map]
    | renamed dest value => rfl
    | dropped => rfl
  have hstep : ∀ (state : Func × Substitution) b, Agree (Prod.map (recast r m) id)
      (computePhisIn state b) (computePhisIn (Prod.map (recast r m) id state) (id b)) := by
    rintro ⟨cur, dropped⟩ b
    have hpending : ((cur.recast r m).block b).pending.entries =
        (cur.block b).pending.entries.map fun e => (e.1.relabel r, e.2) := by
      rw [block_recast]
      rfl
    rw [Prod.map_apply, computePhisIn_def, computePhisIn_def, id, hpending]
    refine (Agree.foldlM (hdecide cur b) _ _).bind fun s => .of_eq ?_
    exact congrArg (fun fn => Except.ok (fn, s.2)) (modify_recast fun _ => rfl)
  have hfold := Agree.foldlM hstep fn.order (fn, .empty)
  rw [map_id] at hfold
  refine hfold.bind fun state => .of_eq ?_
  exact congrArg Except.ok (substitute_recast state.1 state.1.order state.2)

theorem declaredVariables_recast :
    (fn.recast r m).declaredVariables = fn.declaredVariables.map (·.relabel r) := by
  refine @foldl_hom _ _ _ (map (Variable.relabel r)) _ _ _ fn.params fun vars b => ?_
  have hmembers : ((fn.recast r m).block b).declared.members =
      (fn.block b).declared.members.map (·.relabel r) := by
    rw [block_recast]
    rfl
  rw [hmembers, foldl_map]
  refine foldl_hom (map (Variable.relabel r)) fun vars v => ?_
  have hmem : v.relabel r ∈ vars.map (·.relabel r) ↔ v ∈ vars := by
    simp [Variable.relabel_inj hr]
  have hkind : (v.relabel r).kind = v.kind := rfl
  simp only [hkind, hmem, apply_ite (map (Variable.relabel r)), map_append, map_cons,
    map_nil]

omit hr in
theorem definedTemps_recast : (fn.recast r m).definedTemps = fn.definedTemps := by
  have hresults : (fn.recast r m).resultsOf = fn.resultsOf := by
    funext b
    rw [resultsOf_eq_append, resultsOf_eq_append, block_recast]
    simp only [Block.relabel, map_map]
    rfl
  rw [definedTemps, hresults]
  rfl

theorem numberAll_recast (fn : Func) : (fn.recast r m).numberAll = fn.numberAll.recast r m := by
  have hcount : ∀ b, ((fn.recast r m).block b).codeCount = (fn.block b).codeCount := by
    intro b
    rw [block_recast]
    simp [Block.codeCount, Block.relabel]
  simp only [numberAll, definedTemps_recast, declaredVariables_recast hr, hcount]
  rfl

theorem agree_work (s : Stage) (fn : Func) :
    Agree (recast r m) (s.work fn) (s.work (fn.recast r m)) := by
  cases s with
  | lowering => exact .ok fn
  | blocksRemoved => exact .of_eq (removeRedundantBlocks_recast fn)
  | loadsRemoved => exact .of_eq (congrArg Except.ok (removeRedundantLoads_recast fn))
  | blocksNumbered => exact .of_eq (congrArg Except.ok (numberBlocks_recast fn))
  | dominance => exact .of_eq (computeDominance_recast fn)
  | frontier => exact .of_eq (computeFrontiers_recast fn)
  | phisPlaced => exact .of_eq (placePhis_recast hr fn)
  | phisResolved => exact agree_resolveReads hr fn
  | phisComputed => exact agree_computePhis hr fn
  | numbered => exact .of_eq (congrArg Except.ok (numberAll_recast hr fn))

end Order

end Func

/-! ## All stages -/

namespace Build

open Func

variable {r : Nat → Nat}

/-- The step does the same to the renumbered function, but for the texts of faults. -/
def Follows (r : Nat → Nat) {α : Type} (p : Build α) : Prop :=
  ∀ fn : Func, Agree id (p fn).1 (p (fn.relabel r)).1 ∧
    (p (fn.relabel r)).2 = (p fn).2.relabel r

theorem Relabels.follows {α : Type} {p : Build α} (h : Relabels r id p p) : Follows r p := by
  intro fn
  rw [h fn]
  exact ⟨.of_eq rfl, rfl⟩

theorem Follows.bind {α β : Type} {p : Build α} {k : α → Build β} (hp : Follows r p)
    (hk : ∀ a, Follows r (k a)) : Follows r (p >>= k) := by
  intro fn
  obtain ⟨hagree, hstate⟩ := hp fn
  rw [bind_apply, bind_apply]
  rcases hfn : p fn with ⟨x, fn₁⟩
  rcases hfn' : p (fn.relabel r) with ⟨y, fn₂⟩
  rw [hfn, hfn'] at hagree hstate
  obtain rfl : fn₂ = fn₁.relabel r := hstate
  cases hagree with
  | ok a => exact hk a fn₁
  | error h => exact ⟨.error h, rfl⟩

theorem follows_forM {α : Type} {f : α → Build Unit} (h : ∀ a, Follows r (f a)) (l : List α) :
    Follows r (l.forM f) := by
  induction l with
  | nil => exact fun fn => ⟨.ok (), rfl⟩
  | cons a l ih => exact (h a).bind fun _ => ih

theorem follows_advance (hr : StrictMono r) (s : Stage) : Follows r (advance s) := by
  intro fn
  have hstage : (fn.relabel r).stage = fn.stage := rfl
  rw [advance, bind_apply, bind_apply, get_apply, get_apply]
  by_cases hprevious : fn.stage = s.previous
  · simp only [hstage, hprevious, ne_eq, not_true_eq_false, if_false]
    have hwork : Agree (relabel r) (s.work { fn with stage := s })
        (s.work { fn.relabel r with stage := s }) := agree_work (m := id) hr s { fn with stage := s }
    revert hwork
    cases s.work { fn with stage := s } <;> cases s.work { fn.relabel r with stage := s } <;>
      intro hwork <;> cases hwork
    · next h => exact ⟨.error h, rfl⟩
    · exact ⟨.ok (), rfl⟩
  · simp only [hstage, ne_eq, hprevious, not_false_eq_true, if_true]
    exact ⟨.error rfl, rfl⟩

theorem follows_closeVoid : Follows r closeVoid := by
  intro fn
  have horder := (sameShape_relabel r fn).canonicalOrder
  have hentry : (fn.relabel r).entry = fn.entry := rfl
  have hend : ∀ b, ((fn.relabel r).block b).isTerminated = (fn.block b).isTerminated := by
    intro b
    rw [block_relabel]
    rfl
  rw [closeVoid, bind_apply, bind_apply, get_apply, get_apply]
  simp only [horder, hentry, hend]
  split
  · exact (relabels_add _ _).follows fn
  · exact ⟨.ok (), rfl⟩

end Build

/-- Construction of the renumbered function leads to the renumbered result. -/
theorem Func.agree_finish {r : Nat → Nat} (hr : StrictMono r) (fn : Func) :
    Agree (relabel r) fn.finish (fn.relabel r).finish := by
  have hfollows : Build.Follows r Build.finish := by
    intro fn
    have hvoid : (fn.relabel r).resultType = fn.resultType := rfl
    rw [Build.finish, Build.bind_apply, Build.bind_apply, Build.get_apply, Build.get_apply]
    simp only [hvoid]
    have hstages := Build.follows_forM (Build.follows_advance hr) Stage.all
    split
    · exact (Build.follows_closeVoid.bind fun _ => hstages) fn
    · exact hstages fn
  obtain ⟨hagree, hstate⟩ := hfollows fn
  rw [finish, finish]
  rcases hfn : Build.finish fn with ⟨x, done⟩
  rcases hfn' : Build.finish (fn.relabel r) with ⟨y, done'⟩
  rw [hfn, hfn'] at hagree hstate
  obtain rfl : done' = done.relabel r := hstate
  cases hagree with
  | ok u => exact .ok done
  | error h => exact .error h

/-! ## The listing -/

namespace Func

variable {r : Nat → Nat} {fn : Func}

theorem lineText_relabel (node : Phi) :
    (fn.relabel r).lineText (.phi (node.relabel r)) = fn.lineText (.phi node) := by
  simp only [Graph.lineText, Graph.phiText, blockText_relabel]
  rfl

/-- The listing of a function does not show the numbers of its variables. -/
theorem listing_relabel (fn : Func) : (fn.relabel r).listing = fn.listing := by
  have hsignature : (fn.relabel r).signatureText = fn.signatureText := by
    have hparams : (fn.relabel r).params.map Variable.signature =
        fn.params.map Variable.signature := by
      simp only [relabel, map_map]
      rfl
    simp only [signatureText, hparams]
    rfl
  have hlist : ∀ blocks, (fn.relabel r).blockListText blocks = fn.blockListText blocks := by
    intro blocks
    simp only [blockListText]
    congr 3
    exact map_congr_left fun b _ => blockText_relabel b
  have hheader : ∀ b w, (fn.relabel r).listHeader b w = fn.listHeader b w := by
    intro b w
    simp only [listHeader, blockText_relabel, hlist, block_relabel]
    rfl
  have hblock : ∀ state b, (fn.relabel r).listBlock state b = fn.listBlock state b := by
    intro state b
    have hphi : ∀ state (node : Phi), (fn.relabel r).listLine state (.phi (node.relabel r)) =
        fn.listLine state (.phi node) := by
      intro state node
      simp only [listLine, lineText_relabel]
      rfl
    have hcode : ∀ state inst, (fn.relabel r).listLine state (.code inst) =
        fn.listLine state (.code inst) := by
      intro state inst
      simp only [listLine, Graph.lineText, instructionText_relabel]
    simp only [listBlock, hheader, block_relabel, Block.lines, Block.relabel, foldl_append,
      foldl_map, hphi, hcode]
  have horder : (fn.relabel r).orderedBlocks = fn.orderedBlocks := by
    rw [orderedBlocks, (sameShape_relabel r fn).canonicalOrder]
    rfl
  rw [listing, listing, hsignature, horder]
  simp only [funext fun state => funext (hblock state)]

end Func

end SsaBlocks
