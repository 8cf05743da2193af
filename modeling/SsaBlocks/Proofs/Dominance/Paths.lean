import SsaBlocks.Proofs.Phi.Analysis

/-!
# Dominance along paths

If every edge of a graph is known at both ends, the blocks that the entry leads to are a core: what
is computed for them is dominance along the children. Edges may lead to the entry, and parents that
the entry does not lead to are passed over. Immediate dominators then connect the blocks to a tree
whose root is the entry, and the path up from a block passes its dominators.

The canonical order may miss blocks that the entry leads to. If it does not, the frontiers that are
computed are those of the definition.

## Main results

* `Func.mem_dominators_iff_forall_path`: the computed dominators
* `Func.immediate_dominators_form_tree`: the computed immediate dominators
* `Func.mem_frontier_iff_dominance_ends`: the computed frontiers
-/

namespace SsaBlocks.Func

open SsaBlocks.Flow

variable {fn done : Func} {a b c d n x y : BlockId} {l : List BlockId} {s : KeySet BlockId}

/-! ## Dominators -/

/-- A graph whose dominators have not been computed: every edge is known at both ends, and a parent
that the entry does not lead to has no dominators. -/
structure Unanalysed (fn : Func) : Prop where
  entry_lt : fn.entry < fn.blocks.size
  mutual_edges : ∀ a b, fn.Child a b ↔ fn.Edge a b
  unset : ∀ p b, fn.Edge p b → ¬ Reachable fn.Child fn.entry p → (fn.block p).dominators = none

theorem lt_of_mutual_edges (hentry : fn.entry < fn.blocks.size)
    (hmutual : ∀ a b, fn.Child a b ↔ fn.Edge a b) (hb : b ∈ fn.postorder) : b < fn.blocks.size :=
  lt_of_mem_postorder hentry (fun a c hc => ((hmutual a c).mp hc).lt) hb

/-- Walks along children are walks along the edges between blocks in postorder. -/
theorem walk_surveyedEdge_iff (hmutual : ∀ a b, fn.Child a b ↔ fn.Edge a b)
    (ha : a ∈ fn.postorder) : Walk fn.SurveyedEdge a b l ↔ Walk fn.Child a b l := by
  refine ⟨fun hl => hl.mono fun x y hxy => (hmutual x y).mpr hxy.2.2, fun hl => ?_⟩
  induction hl with
  | nil => exact .nil _
  | cons hab _ ih =>
    have hb := children_mem_postorder ha hab
    exact .cons ⟨ha, hb, (hmutual _ _).mp hab⟩ (ih hb)

theorem dominates_surveyedEdge_iff (hmutual : ∀ a b, fn.Child a b ↔ fn.Edge a b) :
    Dominates fn.SurveyedEdge fn.entry a b ↔ Dominates fn.Child fn.entry a b :=
  forall_congr' fun _ => imp_congr_left (walk_surveyedEdge_iff hmutual (entry_mem_postorder fn))

namespace Unanalysed

theorem surveyable (h : fn.Unanalysed) : fn.Surveyable where
  lt _ := lt_of_mutual_edges h.entry_lt h.mutual_edges
  unset b _ p hedge hp := h.unset p b hedge fun hreach => hp (mem_postorder.mpr hreach)

theorem core (h : fn.Unanalysed) : fn.Core (· ∈ fn.postorder) where
  mem_postorder _ := id
  parent _ _ _ ha _ := ha
  reachable b hb := by
    obtain ⟨l, hl⟩ := mem_postorder.mp hb
    exact ⟨l, (walk_surveyedEdge_iff h.mutual_edges (entry_mem_postorder fn)).mpr hl⟩

/-- The dominators that have been computed, as the query for them sees them. -/
theorem dominates_iff (h : fn.Unanalysed) (hd : fn.Dominated done) (hn : n ∈ fn.postorder) :
    done.dominates a n = true ↔ Dominates fn.SurveyedEdge fn.entry a n := by
  obtain ⟨s, hs, hmem⟩ := hd.mem_iff h.core hn
  rw [Graph.dominates, hs, KeySet.contains_iff, hmem]
  exact Iff.rfl

end Unanalysed

/-- **Dominance is path dominance.** A block is among the dominators that are computed for a block
that the entry leads to if and only if every path along children from the entry passes it. -/
theorem mem_dominators_iff_forall_path (h : fn.Unanalysed) :
    ∃ done, fn.computeDominance = .ok done ∧ ∀ n, Reachable fn.Child fn.entry n →
      ∃ s, (done.block n).dominators = some s ∧
        ∀ a, a ∈ s ↔ Dominates fn.Child fn.entry a n := by
  obtain ⟨done, hok, hd⟩ := exists_dominated h.surveyable
  refine ⟨done, hok, fun n hn => ?_⟩
  obtain ⟨s, hs, hmem⟩ := hd.mem_iff h.core (mem_postorder.mpr hn)
  exact ⟨s, hs, fun a => (hmem a).trans (dominates_surveyedEdge_iff h.mutual_edges)⟩

/-- Edges are known at both ends if they are at the blocks that there are. -/
theorem mutual_edges_of_forall_lt
    (h : ∀ a < fn.blocks.size, (∀ b ∈ (fn.block a).children, a ∈ (fn.block b).parents) ∧
      ∀ b ∈ (fn.block a).parents, a ∈ (fn.block b).children) (a b : BlockId) :
    fn.Child a b ↔ fn.Edge a b := by
  refine ⟨fun hab => ?_, fun hab => (h b hab.lt).2 a hab⟩
  by_cases ha : a < fn.blocks.size
  · exact (h a ha).1 b hab
  · rw [Graph.Child, Graph.block_of_size_le (Nat.not_lt.mp ha)] at hab
    cases hab

/-- A loop between two blocks, with a way out that is also reached from a stray block. -/
def strayLoop : Func :=
  { name := "f", params := [], resultType := .void
    blocks := #[
      { children := [1] },
      { parents := [2, 0], children := [2, 3] },
      { parents := [1], children := [1] },
      { parents := [4, 1] },
      { children := [3] }] }

theorem unanalysed_strayLoop : strayLoop.Unanalysed where
  entry_lt := by decide
  mutual_edges := mutual_edges_of_forall_lt (by decide)
  unset p b hedge _ := by
    have hparents : ∀ b < strayLoop.blocks.size, ∀ p ∈ (strayLoop.block b).parents,
        (strayLoop.block p).dominators = none := by decide
    exact hparents b hedge.lt p hedge

theorem strayLoop_dominators : ∃ done, strayLoop.computeDominance = .ok done ∧
    ∃ s, (done.block 3).dominators = some s ∧ s.members = [0, 1, 3] ∧
      ∀ a, a ∈ s ↔ Dominates strayLoop.Child strayLoop.entry a 3 := by
  obtain ⟨done, hok, hall⟩ := mem_dominators_iff_forall_path unanalysed_strayLoop
  have hvalues : strayLoop.computeDominance.toOption.bind (fun f => (f.block 3).dominators) =
      some ⟨[0, 1, 3]⟩ := by decide
  rw [hok] at hvalues
  obtain ⟨s, hs, hmem⟩ := hall 3 (mem_postorder.mp (by decide))
  obtain rfl : s = ⟨[0, 1, 3]⟩ := Option.some.inj (hs.symm.trans hvalues)
  exact ⟨done, hok, _, hs, rfl, hmem⟩

/-! ## Immediate dominators -/

/-- Following immediate dominators from a block, up to one that has none, meets the blocks of a
list. -/
inductive IdomChain (fn : Func) : BlockId → List BlockId → Prop
  | last {b : BlockId} : (fn.block b).idom = none → IdomChain fn b [b]
  | up {b d : BlockId} {l : List BlockId} : (fn.block b).idom = some d → IdomChain fn d l →
    IdomChain fn b (b :: l)

/-- A strict dominator of a block that all of its strict dominators dominate, as far as dominators
have been computed. -/
def Closest (fn : Func) (b d : BlockId) : Prop :=
  (fn.dominates d b ∧ d ≠ b) ∧ ∀ c, fn.dominates c b → c ≠ b → fn.dominates c d

namespace Unanalysed

theorem closest_iff (h : fn.Unanalysed) (hd : fn.Dominated done) (hn : n ∈ fn.postorder) :
    done.Closest n d ↔ ImmediatelyDominates fn.SurveyedEdge fn.entry d n := by
  simp only [Closest, h.dominates_iff hd hn]
  rw [ImmediatelyDominates, StrictlyDominates]
  refine and_congr_right fun hdn => ?_
  have hmem := h.core.dominator_mem hn hdn.1
  simp only [h.dominates_iff hd hmem, StrictlyDominates, and_imp]

theorem idom_entry (h : fn.Unanalysed) (hd : fn.Dominated done) :
    (done.block fn.entry).idom = none := by
  refine Option.eq_none_iff_forall_ne_some.mpr fun d hidom => ?_
  have himm := (hd.idom_iff h.core (entry_mem_postorder fn)).mp hidom
  exact himm.1.ne_entry rfl

/-- Immediate dominators lead from a block over its dominators to the entry. -/
theorem exists_idomChain (h : fn.Unanalysed) (hd : fn.Dominated done)
    (hl : Walk fn.SurveyedEdge fn.entry n l) (hn : n ∈ fn.postorder) :
    ∃ chain, done.IdomChain n chain ∧ chain.getLast? = some fn.entry ∧
      ∀ a, a ∈ chain ↔ Dominates fn.SurveyedEdge fn.entry a n := by
  -- a walk to a block has a shorter one to its immediate dominator in front
  induction hlen : l.length using Nat.strongRecOn generalizing n l with
  | ind k ih =>
    by_cases hentry : n = fn.entry
    · subst hentry
      refine ⟨[fn.entry], .last (h.idom_entry hd), rfl, fun a => ?_⟩
      rw [List.mem_singleton]
      exact ⟨fun ha => ha ▸ .refl _, fun ha => (ha [] (.nil _)).resolve_left List.not_mem_nil⟩
    · obtain ⟨d, himm⟩ := exists_immediatelyDominates ⟨l, hl⟩ hentry
      obtain ⟨m, r, rfl⟩ := List.append_of_mem (himm.1.mem hl)
      have hm : m.length < k := by
        rw [← hlen, List.length_append, List.length_cons]
        omega
      obtain ⟨chain, hchain, hlast, hmem⟩ :=
        ih _ hm hl.split.1 (h.core.dominator_mem hn himm.1.1) rfl
      refine ⟨n :: chain, .up ((hd.idom_iff h.core hn).mpr himm) hchain, ?_, fun a => ?_⟩
      · rw [List.getLast?_cons, hlast]
        rfl
      · rw [List.mem_cons, hmem, himm.dominates_iff]

end Unanalysed

/-- **Immediate dominators form a tree.** The entry has none. Every other block that the entry leads
to has one strict dominator that all of its strict dominators dominate; it is found in whatever
order they are gone through. Going up from a block meets its dominators and ends at the entry. -/
theorem immediate_dominators_form_tree (h : fn.Unanalysed) :
    ∃ done, fn.computeDominance = .ok done ∧ (done.block fn.entry).idom = none ∧
      ∀ n, Reachable fn.Child fn.entry n → ∃ s, (done.block n).dominators = some s ∧
        (n ≠ fn.entry → ∃ d, (∀ d', done.Closest n d' ↔ d' = d) ∧ (done.block n).idom = some d ∧
          ∀ enumeration : List BlockId, enumeration.Perm (s.erase n).members →
            done.firstDominated (s.erase n) enumeration = some d) ∧
        ∃ chain, done.IdomChain n chain ∧ chain.getLast? = some fn.entry ∧
          ∀ a, a ∈ chain ↔ a ∈ s := by
  obtain ⟨done, hok, hd⟩ := exists_dominated h.surveyable
  refine ⟨done, hok, h.idom_entry hd, fun n hreach => ?_⟩
  have hn := mem_postorder.mpr hreach
  have hwalk := h.core.reachable n hn
  obtain ⟨s, hs, hmem⟩ := hd.mem_iff h.core hn
  refine ⟨s, hs, fun hentry => ?_, ?_⟩
  · obtain ⟨d, himm⟩ := exists_immediatelyDominates hwalk hentry
    refine ⟨d, fun d' => ?_, (hd.idom_iff h.core hn).mpr himm, fun enumeration hperm => ?_⟩
    · rw [h.closest_iff hd hn]
      exact ⟨fun himm' => himm'.unique himm hwalk, fun heq => heq ▸ himm⟩
    · exact (hd.firstDominated_eq h.core hn hs fun c => hperm.mem_iff).mpr himm
  · obtain ⟨l, hl⟩ := hwalk
    obtain ⟨chain, hchain, hlast, hall⟩ := h.exists_idomChain hd hl hn
    exact ⟨chain, hchain, hlast, fun a => (hall a).trans (hmem a).symm⟩

theorem strayLoop_immediate_dominators : ∃ done, strayLoop.computeDominance = .ok done ∧
    (done.block 3).idom = some 1 ∧ (∀ d, done.Closest 3 d ↔ d = 1) ∧
      ∃ chain, done.IdomChain 3 chain ∧ chain.getLast? = some 0 := by
  obtain ⟨done, hok, -, hall⟩ := immediate_dominators_form_tree unanalysed_strayLoop
  obtain ⟨s, -, hidom, chain, hchain, hlast, -⟩ := hall 3 (mem_postorder.mp (by decide))
  obtain ⟨d, hd, hidom, -⟩ := hidom (by decide)
  have hvalue : strayLoop.computeDominance.toOption.bind (fun f => (f.block 3).idom) =
      some 1 := by decide
  rw [hok] at hvalue
  obtain rfl : d = 1 := Option.some.inj (hidom.symm.trans hvalue)
  exact ⟨done, hok, hidom, hd, chain, hchain, hlast⟩

/-! ## Frontiers -/

/-- A graph that its canonical order goes through: every edge is known at both ends, none leads to
the entry, and the order has exactly the blocks that the entry leads to, with all their parents. -/
structure Traversed (fn : Func) : Prop where
  entry_lt : fn.entry < fn.blocks.size
  mutual_edges : ∀ a b, fn.Child a b ↔ fn.Edge a b
  entry_parents : (fn.block fn.entry).parents = []
  mem_order : ∀ b, b ∈ fn.canonicalOrder ↔ Reachable fn.Child fn.entry b
  parents_mem : ∀ b ∈ fn.canonicalOrder, ∀ p ∈ (fn.block b).parents, p ∈ fn.canonicalOrder

namespace Traversed

theorem enclosed (h : fn.Traversed) : fn.Enclosed :=
  ⟨h.entry_lt, h.entry_parents, h.parents_mem⟩

theorem mem_order_iff (h : fn.Traversed) : b ∈ fn.canonicalOrder ↔ b ∈ fn.postorder :=
  (h.mem_order b).trans mem_postorder.symm

theorem surveyable (h : fn.Traversed) : fn.Surveyable where
  lt _ := lt_of_mutual_edges h.entry_lt h.mutual_edges
  unset b hb p hp hnot :=
    absurd (h.mem_order_iff.mp (h.parents_mem b (h.mem_order_iff.mpr hb) p hp)) hnot

theorem orderedEdge_eq (h : fn.Traversed) : fn.OrderedEdge = fn.SurveyedEdge := by
  funext a b
  simp only [OrderedEdge, SurveyedEdge, EdgeIn, h.mem_order_iff]

theorem dominates_iff (h : fn.Traversed) :
    Dominates fn.OrderedEdge fn.entry a b ↔ Dominates fn.Child fn.entry a b := by
  rw [h.orderedEdge_eq]
  exact dominates_surveyedEdge_iff h.mutual_edges

end Traversed

/-- **Frontiers are where dominance ends.** A block is in the frontier that is computed for another
if and only if the other dominates one of its parents and does not strictly dominate the block. -/
theorem mem_frontier_iff_dominance_ends (h : fn.Traversed) :
    ∃ done, (fn.numberBlocks.computeDominance >>= computeFrontiers) = .ok done ∧
      ∀ x ∈ fn.canonicalOrder, (∀ y ∈ done.frontierOf x, y ∈ fn.canonicalOrder) ∧
        ∀ y ∈ fn.canonicalOrder, y ∈ done.frontierOf x ↔
          (∃ p ∈ (fn.block y).parents, Dominates fn.Child fn.entry x p) ∧
            ¬ (Dominates fn.Child fn.entry x y ∧ x ≠ y) := by
  obtain ⟨done, hok, hdone⟩ := exists_analysed h.enclosed h.surveyable
  refine ⟨done, hok, fun x hx => ⟨fun y hy => ?_, fun y hy => ?_⟩⟩
  · obtain ⟨⟨p, hp, -⟩, -⟩ := (hdone.frontier x hx y).mp hy
    exact hp.2.1
  · rw [hdone.frontier x hx, InFrontier, StrictlyDominates, h.dominates_iff]
    simp only [h.enclosed.orderedEdge_iff hy, h.dominates_iff]
    exact Iff.rfl

/-- A loop between two blocks, with a way out. -/
def plainLoop : Func :=
  { name := "f", params := [], resultType := .void
    blocks := #[
      { children := [1] },
      { parents := [2, 0], children := [2, 3] },
      { parents := [1], children := [1] },
      { parents := [1] }] }

theorem plainLoop_frontier :
    ∃ done, (plainLoop.numberBlocks.computeDominance >>= computeFrontiers) = .ok done ∧
      1 ∈ done.frontierOf 1 ∧ (∃ p ∈ (plainLoop.block 1).parents,
        Dominates plainLoop.Child plainLoop.entry 1 p) := by
  have horder : ∀ b, b ∈ plainLoop.canonicalOrder ↔ b ∈ plainLoop.postorder := by
    have hcanonical : plainLoop.canonicalOrder = [0, 1, 2, 3] := by decide
    have hpost : plainLoop.postorder = [2, 3, 1, 0] := by decide
    intro b
    rw [hcanonical, hpost]
    simp only [List.mem_cons, List.not_mem_nil, or_false]
    tauto
  have htraversed : plainLoop.Traversed :=
    { entry_lt := by decide
      mutual_edges := mutual_edges_of_forall_lt (by decide)
      entry_parents := by decide
      mem_order := fun b => (horder b).trans mem_postorder
      parents_mem := by decide }
  obtain ⟨done, hok, hall⟩ := mem_frontier_iff_dominance_ends htraversed
  have hvalue : ((plainLoop.numberBlocks.computeDominance >>= computeFrontiers).toOption.map
      fun f => decide (1 ∈ f.frontierOf 1)) = some true := by decide
  rw [hok] at hvalue
  have hmem : 1 ∈ done.frontierOf 1 := by simpa [Except.toOption] using hvalue
  exact ⟨done, hok, hmem, (((hall 1 (by decide)).2 1 (by decide)).mp hmem).1⟩

end SsaBlocks.Func
