import SsaBlocks.Dominance.Frontier
import SsaBlocks.Proofs.Dominance.Dominators
import SsaBlocks.Proofs.Fold

/-!
# The computed frontiers

A runner that starts at a parent of a block passes the dominators of the parent, from below, up to
the immediate dominator of the block. These are the blocks that have the block in their frontier.

On any other graph the frontiers are filled all the same, unless a runner meets a block without one
or goes round in circles.
-/

namespace SsaBlocks.Func

open SsaBlocks.Flow

variable {fn cur cur' : Func} {b d x y target runner : BlockId}

/-- The members of the frontier that has been computed for a block so far. -/
def frontierOf (fn : Func) (b : BlockId) : KeySet BlockId :=
  ((fn.block b).frontier).getD .empty

/-- A block without its frontier. -/
def forgetFrontier (blk : Block) : Block :=
  { blk with frontier := none }

/-- A block comes after all of its strict dominators, also if blocks that are not in canonical order
are passed over. -/
theorem idxOf_lt_of_strictlyDominates_orderedEdge
    (h : StrictlyDominates fn.OrderedEdge fn.entry x b) (hb : b ∈ fn.canonicalOrder) :
    fn.canonicalOrder.idxOf x < fn.canonicalOrder.idxOf b := by
  obtain ⟨l, hl, hlt⟩ := exists_walk_before hb
  exact hlt x (h.mem (walk_orderedEdge hl (canonicalOrder_closed fn).1))

/-- While the frontiers of `fn` are filled, its blocks in canonical order carry their immediate
dominators and some set for the frontier. -/
structure Joining (fn cur : Func) : Prop where
  size : cur.blocks.size = fn.blocks.size
  parents : ∀ b, (cur.block b).parents = (fn.block b).parents
  idom : ∀ b ∈ fn.canonicalOrder, ∀ d, (cur.block b).idom = some d ↔
    ImmediatelyDominates fn.OrderedEdge fn.entry d b
  frontier : ∀ b ∈ fn.canonicalOrder, ∃ s, (cur.block b).frontier = some s

theorem Joining.add (h : fn.Joining cur) (s : KeySet BlockId) :
    fn.Joining (cur.modify runner fun blk => { blk with frontier := some s }) := by
  refine ⟨?_, fun b => ?_, fun b hb d => ?_, fun b hb => ?_⟩
  · rw [size_modify]
    exact h.size
  · rw [← h.parents b]
    exact proj_block_modify Block.parents fun _ => rfl
  · rw [← h.idom b hb]
    exact Eq.congr_left (proj_block_modify Block.idom fun _ => rfl)
  · by_cases hb' : runner = b
    · subst hb'
      by_cases hs : runner < cur.blocks.size
      · exact ⟨s, by rw [block_modify_self hs]⟩
      · have hout : cur.modify runner (fun blk => { blk with frontier := some s }) = cur := by
          simp [modify, Array.modify, Array.modifyM, hs]
        rw [hout]
        exact h.frontier runner hb
    · rw [block_modify_ne hb']
      exact h.frontier b hb

/-- A runner below the immediate dominator `d` of its target ends there. -/
theorem runFrontier_spec (he : fn.Enclosed) {steps : Nat} (h : fn.Joining cur)
    (htarget : (cur.block target).idom = some d) (hrunner : runner ∈ fn.canonicalOrder)
    (hd : Dominates fn.OrderedEdge fn.entry d runner)
    (hsteps : fn.canonicalOrder.idxOf runner < steps) :
    ∃ cur', runFrontier target steps cur (some runner) = .ok cur' ∧ cur.Edits cur' ∧
      (∀ b, forgetFrontier (cur'.block b) = forgetFrontier (cur.block b)) ∧ fn.Joining cur' ∧
      ∀ x ∈ fn.canonicalOrder, ∀ y, y ∈ cur'.frontierOf x ↔ y ∈ cur.frontierOf x ∨
        y = target ∧ Dominates fn.OrderedEdge fn.entry x runner ∧
          ¬ Dominates fn.OrderedEdge fn.entry x d := by
  induction steps generalizing cur runner with
  | zero => omega
  | succ steps ih =>
    rw [runFrontier]
    by_cases hdr : d = runner
    · subst hdr
      rw [if_pos htarget]
      exact ⟨cur, rfl, .refl _, fun _ => rfl, h, fun x _ y => by simp⟩
    · have hreach := reachable_orderedEdge hrunner
      have hne : runner ≠ fn.entry := by
        rintro rfl
        rcases hd [] (.nil _) with h' | h'
        · simp at h'
        · exact hdr h'
      obtain ⟨up, hup⟩ := exists_immediatelyDominates hreach hne
      have hidom := (h.idom runner hrunner up).mpr hup
      obtain ⟨s, hs⟩ := h.frontier runner hrunner
      rw [if_neg (by simpa [htarget] using hdr), hs, hidom]
      set cur₁ := cur.modify runner fun blk => { blk with frontier := some (s.insert target) }
        with hcur₁
      have hsize : runner < cur.blocks.size := h.size ▸ he.lt_of_mem hrunner
      have htarget₁ : (cur₁.block target).idom = some d := by
        rw [← htarget]
        exact proj_block_modify Block.idom fun _ => rfl
      have hlt := idxOf_lt_of_strictlyDominates_orderedEdge hup.1 hrunner
      have hjoin₁ : fn.Joining cur₁ := h.add (s.insert target)
      obtain ⟨cur', hrun, hedits, hrest, hjoin, hmem⟩ :=
        ih hjoin₁ htarget₁ (he.core.dominator_mem hrunner hup.1.1)
          ((hup.dominates_iff.mp hd).resolve_left hdr) (by omega)
      refine ⟨cur', hrun, (Edits.modify _ _ _).trans hedits, fun b => (hrest b).trans
        (proj_block_modify forgetFrontier fun _ => rfl), hjoin, fun x hx y => ?_⟩
      rw [hmem x hx y, hup.dominates_iff (a := x)]
      -- the step adds the target at the runner alone, which is strictly below `d`
      by_cases hxr : x = runner
      · subst hxr
        have hnd : ¬ Dominates fn.OrderedEdge fn.entry x d :=
          StrictlyDominates.not_dominates ⟨hd, hdr⟩ hreach
        have hnup : ¬ Dominates fn.OrderedEdge fn.entry x up := hup.1.not_dominates hreach
        have h₁ : cur₁.frontierOf x = s.insert target := by
          rw [frontierOf, hcur₁, block_modify_self hsize]
          rfl
        have h₂ : cur.frontierOf x = s := by
          rw [frontierOf, hs]
          rfl
        simp [h₁, h₂, hnd, hnup, or_comm]
      · have h₁ : cur₁.frontierOf x = cur.frontierOf x := by
          rw [frontierOf, hcur₁, block_modify_ne (Ne.symm hxr), frontierOf]
        simp [h₁, hxr]

/-- What filling frontiers has led to: `T x y` says which members have been added. -/
structure Joined (fn cur cur' : Func) (T : BlockId → BlockId → Prop) : Prop where
  edits : cur.Edits cur'
  rest : ∀ b, forgetFrontier (cur'.block b) = forgetFrontier (cur.block b)
  joining : fn.Joining cur'
  mem_frontierOf : ∀ x ∈ fn.canonicalOrder, ∀ y,
    y ∈ cur'.frontierOf x ↔ y ∈ cur.frontierOf x ∨ T x y

namespace Joined

variable {cur'' : Func} {S T U : BlockId → BlockId → Prop}

theorem refl (h : fn.Joining cur) (hT : ∀ x ∈ fn.canonicalOrder, ∀ y, ¬ T x y) :
    fn.Joined cur cur T :=
  ⟨.refl _, fun _ => rfl, h, fun x hx y => by simp [hT x hx y]⟩

theorem trans (h : fn.Joined cur cur' S) (k : fn.Joined cur' cur'' T)
    (hU : ∀ x ∈ fn.canonicalOrder, ∀ y, U x y ↔ S x y ∨ T x y) : fn.Joined cur cur'' U :=
  ⟨h.edits.trans k.edits, fun b => (k.rest b).trans (h.rest b), k.joining, fun x hx y => by
    rw [k.mem_frontierOf x hx, h.mem_frontierOf x hx, hU x hx, or_assoc]⟩

end Joined

theorem Enclosed.length_canonicalOrder_le (he : fn.Enclosed) :
    fn.canonicalOrder.length ≤ fn.blocks.size :=
  Graph.length_le_of_lt (nodup_canonicalOrder fn) fun _ => he.lt_of_mem

theorem Enclosed.not_orderedEdge_entry (he : fn.Enclosed) : ¬ fn.OrderedEdge x fn.entry :=
  fun h => he.not_edge_entry h.2.2

theorem Enclosed.orderedEdge_iff (he : fn.Enclosed) (hb : b ∈ fn.canonicalOrder) :
    fn.OrderedEdge x b ↔ fn.Edge x b :=
  ⟨fun h => h.2.2, fun h => ⟨he.parents_mem b hb x h, hb, h⟩⟩

theorem Enclosed.not_inFrontier_of_length_lt (he : fn.Enclosed) (hb : b ∈ fn.canonicalOrder)
    (hlen : (fn.block b).parents.length < 2) : ¬ InFrontier fn.OrderedEdge fn.entry x b := by
  match hparents : (fn.block b).parents with
  | [] =>
    rintro ⟨⟨p, hp, -⟩, -⟩
    simp [OrderedEdge, EdgeIn, Graph.Edge, hparents] at hp
  | [p] =>
    refine not_inFrontier_of_sole (p := p) (fun q => he.not_orderedEdge_entry)
      (reachable_orderedEdge hb) fun q hq => ?_
    simpa [Graph.Edge, hparents] using (he.orderedEdge_iff hb).mp hq
  | _ :: _ :: rest =>
    rw [hparents, List.length_cons, List.length_cons] at hlen
    omega

theorem joinFrontiers_spec (he : fn.Enclosed) (h : fn.Joining cur) (hb : b ∈ fn.canonicalOrder) :
    ∃ cur', joinFrontiers cur b = .ok cur' ∧
      fn.Joined cur cur' fun x y => y = b ∧ InFrontier fn.OrderedEdge fn.entry x b := by
  rw [joinFrontiers, h.parents b]
  by_cases hlen : (fn.block b).parents.length < 2
  · refine ⟨cur, if_pos hlen, .refl h ?_⟩
    rintro x - y ⟨-, hin⟩
    exact he.not_inFrontier_of_length_lt hb hlen hin
  · have hne : b ≠ fn.entry := by
      rintro rfl
      simp [he.entry_parents] at hlen
    have hreach := reachable_orderedEdge hb
    obtain ⟨d, hd⟩ := exists_immediatelyDominates hreach hne
    have hfold := exists_foldlM (l := (fn.block b).parents) (s := cur)
      (f := fun cur p => runFrontier b (cur.blocks.size + 2) cur (some p))
      (fun done cur' => fn.Joined cur cur' fun x y => y = b ∧
        ∃ p ∈ done, Dominates fn.OrderedEdge fn.entry x p ∧ ¬ Dominates fn.OrderedEdge fn.entry x d)
      (.refl h (by simp)) ?_
    · obtain ⟨cur', hok, hjoined⟩ := hfold
      refine ⟨cur', by simpa only [if_neg hlen] using hok, ?_⟩
      -- what does not strictly dominate `b` does not dominate `d`
      have hin : ∀ x, InFrontier fn.OrderedEdge fn.entry x b ↔ ∃ p ∈ (fn.block b).parents,
          Dominates fn.OrderedEdge fn.entry x p ∧ ¬ Dominates fn.OrderedEdge fn.entry x d := by
        intro x
        rw [InFrontier, hd.strictlyDominates_iff hreach]
        exact ⟨fun ⟨⟨p, hp, hxp⟩, hn⟩ => ⟨p, (he.orderedEdge_iff hb).mp hp, hxp, hn⟩,
          fun ⟨p, hp, hxp, hn⟩ => ⟨⟨p, (he.orderedEdge_iff hb).mpr hp, hxp⟩, hn⟩⟩
      simpa only [hin] using hjoined
    · intro done p rest cur₁ hsplit hjoined
      have hp : fn.OrderedEdge p b := by
        rw [he.orderedEdge_iff hb, Graph.Edge, hsplit]
        simp
      have hpmem : p ∈ fn.canonicalOrder := hp.1
      have hsteps : fn.canonicalOrder.idxOf p < cur₁.blocks.size + 2 := by
        have h₁ := List.idxOf_lt_length_of_mem hpmem
        have h₂ := he.length_canonicalOrder_le
        rw [hjoined.joining.size]
        omega
      obtain ⟨cur₂, hok, hedits, hrest, hjoin, hmem⟩ := runFrontier_spec he hjoined.joining
        ((hjoined.joining.idom b hb d).mpr hd) hpmem (hd.1.pred hp) hsteps
      refine ⟨cur₂, hok, hjoined.trans ⟨hedits, hrest, hjoin, hmem⟩ fun x _ y => ?_⟩
      simp only [List.mem_append, List.mem_singleton, or_and_right, exists_or, exists_eq_left,
        and_or_left]

/-- The frontiers can be computed, once the immediate dominators are known. -/
theorem exists_computeFrontiers (he : fn.Enclosed) (hedits : fn.Edits cur)
    (hparents : ∀ b, (cur.block b).parents = (fn.block b).parents)
    (hidom : ∀ b ∈ fn.canonicalOrder, ∀ d, (cur.block b).idom = some d ↔
      ImmediatelyDominates fn.OrderedEdge fn.entry d b) (horder : fn.order = fn.canonicalOrder) :
    ∃ cur', cur.computeFrontiers = .ok cur' ∧ cur.Edits cur' ∧
      (∀ b, forgetFrontier (cur'.block b) = forgetFrontier (cur.block b)) ∧
      ∀ x ∈ fn.canonicalOrder, ∀ y,
        y ∈ cur'.frontierOf x ↔ InFrontier fn.OrderedEdge fn.entry x y := by
  have horder' : cur.order = fn.canonicalOrder := hedits.order.trans horder
  let cleared := fn.canonicalOrder.foldl (fun fn b => fn.modify b fun blk =>
    { blk with frontier := some .empty }) cur
  have hblock : ∀ c, cleared.block c = if c ∈ fn.canonicalOrder then
      { cur.block c with frontier := some .empty } else cur.block c :=
    block_foldl_modify (fun _ blk => { blk with frontier := some .empty })
      (nodup_canonicalOrder fn) fun b hb => hedits.size ▸ he.lt_of_mem hb
  have hforget : ∀ c, forgetFrontier (cleared.block c) = forgetFrontier (cur.block c) := by
    intro c
    rw [hblock]
    split <;> rfl
  have hcleared : cur.Edits cleared := .foldl (fun _ _ => .modify _ _ _) _ _
  have hjoining : fn.Joining cleared := by
    refine ⟨hcleared.size.trans hedits.size, fun b => ?_, fun b hb d => ?_, fun b hb => ?_⟩
    · exact (congrArg Block.parents (hforget b)).trans (hparents b)
    · have hsame : (cleared.block b).idom = (cur.block b).idom := (congrArg Block.idom (hforget b) :)
      rw [hsame]
      exact hidom b hb d
    · exact ⟨_, by rw [hblock, if_pos hb]⟩
  have hempty : ∀ x ∈ fn.canonicalOrder, ∀ y, ¬ y ∈ cleared.frontierOf x := by
    intro x hx y
    rw [frontierOf, hblock, if_pos hx]
    exact KeySet.not_mem_empty y
  obtain ⟨cur', hok, hjoined⟩ := exists_foldlM (l := fn.canonicalOrder) (s := cleared)
    (f := joinFrontiers) (fun done cur' => fn.Joined cleared cur' fun x y => y ∈ done ∧
      InFrontier fn.OrderedEdge fn.entry x y) (.refl hjoining (by simp)) (by
    intro done b rest cur₁ hsplit hjoined
    obtain ⟨cur₂, hok, hjoined₂⟩ := joinFrontiers_spec he hjoined.joining
      (b := b) (by rw [hsplit]; simp)
    refine ⟨cur₂, hok, hjoined.trans hjoined₂ fun x _ y => ?_⟩
    rw [List.mem_append, List.mem_singleton, or_and_right]
    exact or_congr_right (and_congr_right fun hy => by rw [hy]))
  refine ⟨cur', ?_, hcleared.trans hjoined.edits, fun b => (hjoined.rest b).trans (hforget b),
    fun x hx y => ?_⟩
  · rw [computeFrontiers, horder']
    exact hok
  · rw [hjoined.mem_frontierOf x hx y]
    refine ⟨fun h => (h.resolve_left (hempty x hx y)).2, fun h => .inr ⟨?_, h⟩⟩
    obtain ⟨⟨p, hp, -⟩, -⟩ := h
    exact hp.2.1

/-! ## Runners on any graph -/

/-- `cur` is `fn` with frontiers of blocks in order for such blocks. -/
structure Bordered (fn cur : Func) : Prop where
  edits : fn.Edits cur
  rest : ∀ b, forgetFrontier (cur.block b) = forgetFrontier (fn.block b)
  frontier : ∀ b s, (cur.block b).frontier = some s → b ∈ fn.order ∧ ∀ y ∈ s, y ∈ fn.order

/-- Immediate dominators come before their blocks. -/
def Descends (fn : Func) : Prop :=
  ∀ b ∈ fn.order, ∀ d, (fn.block b).idom = some d → fn.order.idxOf d < fn.order.idxOf b

namespace Bordered

theorem set (h : fn.Bordered cur) (hb : b ∈ fn.order) {s : KeySet BlockId}
    (hs : ∀ y ∈ s, y ∈ fn.order) :
    fn.Bordered (cur.modify b fun blk => { blk with frontier := some s }) := by
  refine ⟨h.edits.trans (.modify ..), fun c => ?_, fun c s' hs' => ?_⟩
  · rw [← h.rest c]
    exact proj_block_modify forgetFrontier fun _ => rfl
  · rcases cur.block_modify_cases b c fun blk => { blk with frontier := some s } with
      hc | ⟨rfl, -, hc⟩
    · rw [hc] at hs'
      exact h.frontier c s' hs'
    · rw [hc] at hs'
      obtain rfl : s = s' := Option.some.inj hs'
      exact ⟨hb, hs⟩

theorem mem_order_of_mem_frontierOf (h : fn.Bordered cur) (hy : y ∈ cur.frontierOf x) :
    y ∈ fn.order := by
  rw [frontierOf] at hy
  cases hs : (cur.block x).frontier with
  | none =>
    rw [hs] at hy
    exact absurd hy (KeySet.not_mem_empty y)
  | some s =>
    rw [hs] at hy
    exact (h.frontier x s hs).2 y hy

/-- A runner goes up in order, if immediate dominators lead upwards. -/
theorem ends_runFrontier (h : fn.Bordered cur) (ht : target ∈ fn.order) {runner : Option BlockId}
    {steps : Nat} (hsteps : fn.Descends → (runner.elim 0 fun r => fn.order.idxOf r + 1) < steps) :
    Ends (fun fault => fault = .unending → ¬ fn.Descends) fn.Bordered
      (runFrontier target steps cur runner) := by
  induction steps generalizing cur runner with
  | zero => exact fun _ hd => Nat.not_lt_zero _ (hsteps hd)
  | succ steps ih =>
    cases runner with
    | none => exact h
    | some runner =>
      rw [runFrontier]
      split
      · exact h
      · split
        · exact fun hfault => Fault.noConfusion hfault
        · next s hs =>
          obtain ⟨hrunner, hsub⟩ := h.frontier runner s hs
          refine ih (h.set hrunner fun y hy => ?_) fun hd => ?_
          · rcases KeySet.mem_insert.mp hy with rfl | hy
            · exact ht
            · exact hsub y hy
          · have hidom : (cur.block runner).idom = (fn.block runner).idom :=
              (congrArg Block.idom (h.rest runner) :)
            have hlt := hsteps hd
            rw [Option.elim_some] at hlt
            rw [hidom]
            cases hup : (fn.block runner).idom with
            | none =>
              rw [Option.elim_none]
              omega
            | some d =>
              have hbefore := hd runner hrunner d hup
              rw [Option.elim_some]
              omega

end Bordered

/-- The frontiers are filled on any graph. A runner goes on for ever only if immediate dominators do
not lead upwards. -/
theorem ends_computeFrontiers (hnodup : fn.order.Nodup) (hlt : ∀ b ∈ fn.order, b < fn.blocks.size)
    (hstray : ∀ b, b ∉ fn.order → (fn.block b).frontier = none) :
    Ends (fun fault => fault = .unending → ¬ fn.Descends) fn.Bordered fn.computeFrontiers := by
  have hblock := block_foldl_modify (fun _ blk => { blk with frontier := some .empty }) hnodup hlt
  refine Ends.foldlM_of_forall (P := fn.Bordered) ?_ fun b hb cur hcur => ?_
  · refine ⟨.foldl (fun _ _ => .modify _ _ _) _ _, fun b => ?_, fun b s hs => ?_⟩
    · rw [hblock]
      split <;> rfl
    · rw [hblock] at hs
      split at hs
      · next hb =>
        cases hs
        exact ⟨hb, fun y hy => absurd hy (KeySet.not_mem_empty y)⟩
      · next hb => cases hs.symm.trans (hstray b hb)
  · rw [joinFrontiers]
    split
    · exact hcur
    · refine Ends.foldlM_of_forall hcur fun p _ next hnext => hnext.ends_runFrontier hb fun _ => ?_
      have hidx : fn.order.idxOf p ≤ fn.order.length := List.idxOf_le_length
      have hlength := Graph.length_le_of_lt hnodup hlt
      rw [hnext.edits.size, Option.elim_some]
      omega

end SsaBlocks.Func
