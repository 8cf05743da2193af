import SsaBlocks.Proofs.Phi.SsaForm

/-!
# Strict SSA form

In SSA form an operand has been defined on every way to its use: by a parameter, by a phi node or an
earlier instruction of the block, or in a block that strictly dominates it. Temporaries are numbered
along the canonical order, in which strict dominators come first, so that operands have lower
numbers than results.
-/

namespace SsaBlocks.Func

open SsaBlocks.Flow List

variable {fn : Func} {a b : BlockId} {n m : Nat} {i : Instruction} {t r : Temp}

/-- Every operand of an instruction is defined before the instruction, and numbered below its
result. -/
structure Strict (fn : Func) : Prop where
  defined : ∀ b ∈ fn.order, ∀ n i, (fn.block b).code[n]? = some i → ∀ t ∈ i.operands,
    fn.DefinedBefore b n t
  index : ∀ b ∈ fn.order, ∀ i ∈ (fn.block b).code, ∀ t ∈ i.operands, ∃ j,
    fn.tempIndex? t = some j ∧ ∀ r, i.result? = some r → ∃ k, fn.tempIndex? r = some k ∧ j < k

namespace DefinedBefore

/-- What is defined before an instruction comes before its result in the list of temporaries. -/
theorem idxOf_lt (h : fn.DefinedBefore b n t) (hnodup : fn.definedTemps.Nodup) (hb : b ∈ fn.order)
    (horder : ∀ c, StrictlyDominates fn.Edge fn.entry c b → fn.order.idxOf c < fn.order.idxOf b)
    (hn : (fn.block b).code[n]? = some i) (hr : i.result? = some r) :
    fn.definedTemps.idxOf t < fn.definedTemps.idxOf r := by
  obtain ⟨before, after, hsplit, hbefore⟩ := eq_append_cons_of_mem hb
  -- the temporaries are numbered up to the result, with it, and after it
  have hcode : (fn.block b).code =
      (fn.block b).code.take n ++ i :: (fn.block b).code.drop (n + 1) := by
    obtain ⟨hlt, rfl⟩ := List.getElem?_eq_some_iff.mp hn
    rw [← List.drop_eq_getElem_cons hlt, List.take_append_drop]
  obtain ⟨done, hdone⟩ : ∃ done, done = fn.paramTemps ++ before.flatMap fn.resultsOf ++
      ((fn.block b).phis.map Phi.dest ++
        ((fn.block b).code.take n).filterMap Instruction.result?) := ⟨_, rfl⟩
  obtain ⟨todo, htodo⟩ : ∃ todo, fn.definedTemps = done ++ r :: todo := by
    refine ⟨((fn.block b).code.drop (n + 1)).filterMap Instruction.result? ++
      after.flatMap fn.resultsOf, ?_⟩
    rw [definedTemps, hsplit, flatMap_append, flatMap_cons, resultsOf_eq_append fn b,
      hdone]
    nth_rewrite 1 [hcode]
    rw [filterMap_append, filterMap_cons_some hr]
    simp only [append_assoc, cons_append]
  have hmem : t ∈ done := by
    rw [hdone]
    cases h with
    | param h => exact mem_append_left _ (mem_append_left _ h)
    | phi h => exact mem_append_right _ (mem_append_left _ h)
    | earlier h => exact mem_append_right _ (mem_append_right _ h)
    | @above c hc h =>
      have hcb : c ∈ before := by
        have hlt := horder c hc
        rw [hsplit, idxOf_append_of_notMem hbefore, idxOf_cons_self] at hlt
        by_contra hcb
        rw [idxOf_append_of_notMem hcb] at hlt
        omega
      refine mem_append_left _ (mem_append_right _ (mem_flatMap.mpr ⟨c, hcb, ?_⟩))
      rw [resultsOf_eq_append]
      exact h
  have hnot : r ∉ done := by
    intro hr
    rw [htodo, nodup_append] at hnodup
    exact hnodup.2.2 r hr r (mem_cons_self ..) rfl
  rw [htodo, idxOf_append_of_mem hmem, idxOf_append_of_notMem hnot]
  exact (idxOf_lt_length_of_mem hmem).trans_le (Nat.le_add_right ..)

theorem numberAll (h : fn.DefinedBefore b n t) : fn.numberAll.DefinedBefore b n t := by
  cases h with
  | param h => exact .param h
  | phi h => exact .phi h
  | earlier h => exact .earlier h
  | above hc h => exact .above hc h

end DefinedBefore

/-! ## After SSA construction -/

namespace Decided

variable {start placed res cur : Func} {σ : Temp → Temp} {v : Variable}
  (h : fn.Decided start placed res cur σ) (hr : fn.Ready)
include h hr

/-- SSA construction leads to strict SSA form. -/
theorem strict : cur.numberAll.Strict := by
  have hdefined : ∀ b ∈ cur.order, ∀ n (i : Instruction), (cur.block b).code[n]? = some i →
      ∀ t ∈ i.operands, cur.DefinedBefore b n t ∧ t ∈ cur.definedTemps := by
    intro b hb n i hi t ht
    rw [h.curOrder] at hb
    rw [h.curCode hb, getElem?_map] at hi
    obtain ⟨j, hj, rfl⟩ := Option.map_eq_some_iff.mp hi
    rw [Instruction.operands_substitute] at ht
    obtain ⟨u, hu, rfl⟩ := mem_map.mp ht
    have havailable := hr.operands b hb n j hj u hu
    exact ⟨h.definedBefore hr hb havailable, h.available_mem_definedTemps hr hb havailable⟩
  have horder : ∀ b ∈ cur.order, ∀ c, StrictlyDominates cur.Edge cur.entry c b →
      cur.order.idxOf c < cur.order.idxOf b := by
    intro b hb c hc
    rw [h.curEdge, h.curEntry] at hc
    rw [h.curOrder] at hb ⊢
    exact idxOf_lt_of_strictlyDominates hc hb
  refine ⟨fun b hb n i hi t ht => (hdefined b hb n i hi t ht).1.numberAll, ?_⟩
  intro b hb i hi t ht
  obtain ⟨n, hn⟩ := getElem?_of_mem hi
  obtain ⟨hbefore, ht⟩ := hdefined b hb n i hn t ht
  have hmem : ∀ r, i.result? = some r → r ∈ cur.definedTemps := by
    intro r hr
    refine mem_append_right _ (mem_flatMap.mpr ⟨b, hb, ?_⟩)
    rw [resultsOf_eq_append]
    exact mem_append_right _ (mem_filterMap.mpr ⟨i, hi, hr⟩)
  refine ⟨_, by rw [h.index_eq hr.toFresh, if_pos ht], fun r hresult => ?_⟩
  refine ⟨_, by rw [h.index_eq hr.toFresh, if_pos (hmem r hresult)], ?_⟩
  exact hbefore.idxOf_lt (h.nodup_definedTemps hr.toFresh).1 hb (horder b hb) hn hresult

end Decided

end SsaBlocks.Func
