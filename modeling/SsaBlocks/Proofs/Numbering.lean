import SsaBlocks.Numbering
import SsaBlocks.Proofs.Func.Apart

/-!
# The numbers of temporaries

If no temporary is defined twice, the temporaries that are defined get their positions as numbers
and the others get none. They are not if they are kept apart and phi nodes are only those that were
asked for.
-/

namespace SsaBlocks

variable {fn : Func} {t u : Temp} {i : Nat}

theorem getD_foldl_index {l : List Temp} (hl : l.Nodup) (temps : Array TempInfo)
    (hs : ∀ t ∈ l, t < temps.size) (k : Nat) (t : Temp) :
    (((l.zipIdx k).foldl (fun temps e => temps.modify e.1 fun t => { t with index := some e.2 })
      temps).getD t {}).index =
      if t ∈ l then some (k + l.idxOf t) else (temps.getD t {}).index := by
  induction l generalizing temps k with
  | nil => rfl
  | cons u l ih =>
    obtain ⟨hul, hl⟩ := List.nodup_cons.mp hl
    have hs' : ∀ t ∈ l, t < (temps.modify u fun t => { t with index := some k }).size := by
      intro t ht
      rw [Array.size_modify]
      exact hs t (List.mem_cons_of_mem _ ht)
    rw [List.zipIdx_cons, List.foldl_cons, ih hl _ hs']
    have hu : u < temps.size := hs u (by simp)
    by_cases htu : t = u
    · subst htu
      rw [if_neg hul, if_pos (by simp), List.idxOf_cons_self]
      simp [Array.getD, Array.getElem_modify, hu]
    · have hsame : ((temps.modify u fun t => { t with index := some k }).getD t {}) =
          temps.getD t {} := by
        by_cases ht : t < temps.size
        · simp [Array.getD, Array.getElem_modify, ht, Ne.symm htu]
        · simp [Array.getD, ht]
      rw [hsame]
      by_cases htl : t ∈ l
      · have hk : k + 1 + l.idxOf t = k + (l.idxOf t).succ := by omega
        rw [if_pos htl, if_pos (List.mem_cons_of_mem _ htl), List.idxOf_cons_ne _ (Ne.symm htu), hk]
      · rw [if_neg htl, if_neg (by simp [htu, htl])]

namespace Func

open List

theorem resultsOf_eq_append (fn : Func) (b : BlockId) :
    fn.resultsOf b =
      (fn.block b).phis.map Phi.dest ++ (fn.block b).code.filterMap Instruction.result? := by
  rw [resultsOf, Block.lines, filterMap_append, filterMap_map, filterMap_map]
  congr 1
  exact congrFun filterMap_eq_map' _

/-- The results of the phi nodes of a block are among those that were asked for. -/
def PhisPending (fn : Func) (b : BlockId) : Prop :=
  ((fn.block b).phis.map Phi.dest).Sublist (fn.block b).pending.values

/-- The temporaries to be numbered are different. -/
theorem Apart.nodup_definedTemps (h : fn.Apart) (horder : fn.order.Nodup)
    (hphis : ∀ b ∈ fn.order, fn.PhisPending b) :
    fn.definedTemps.Nodup ∧ ∀ t ∈ fn.definedTemps, t < fn.temps.size := by
  have hmem : ∀ b ∈ fn.order, ∀ t ∈ fn.resultsOf b, t ∈ fn.made (.phis b) ∨ t ∈ fn.made (.code b) := by
    intro b hb t ht
    rw [resultsOf_eq_append] at ht
    exact (mem_append.mp ht).imp ((hphis b hb).subset ·) id
  have hblock : ∀ b ∈ fn.order, (fn.resultsOf b).Nodup := by
    intro b hb
    rw [resultsOf_eq_append]
    refine nodup_append.mpr ⟨(h.nodup (.phis b)).sublist (hphis b hb), h.nodup (.code b), ?_⟩
    rintro t ht u hu rfl
    cases h.eq (.phis b) (.code b) t ((hphis b hb).subset ht) hu
  have hblocks : fn.order.Pairwise fun b c => List.Disjoint (fn.resultsOf b) (fn.resultsOf c) := by
    refine horder.imp_of_mem fun hb hc hne t ht ht' => hne ?_
    rcases hmem _ hb t ht with ht | ht <;> rcases hmem _ hc t ht' with ht' | ht' <;>
      cases h.eq _ _ t ht ht' <;> rfl
  refine ⟨nodup_append.mpr ⟨h.nodup .params, nodup_flatMap.mpr ⟨hblock, hblocks⟩, ?_⟩, ?_⟩
  · rintro t ht u hu rfl
    obtain ⟨b, hb, hu⟩ := mem_flatMap.mp hu
    rcases hmem b hb t hu with hu | hu <;> cases h.eq .params _ t ht hu
  · intro t ht
    rcases mem_append.mp ht with ht | ht
    · exact h.lt .params t ht
    · obtain ⟨b, hb, ht⟩ := mem_flatMap.mp ht
      rcases hmem b hb t ht with ht | ht
      · exact h.lt _ t ht
      · exact h.lt _ t ht

theorem tempIndex?_numberAll (hnodup : fn.definedTemps.Nodup)
    (hlt : ∀ t ∈ fn.definedTemps, t < fn.temps.size) (hnone : ∀ t, fn.tempIndex? t = none)
    (t : Temp) :
    fn.numberAll.tempIndex? t =
      if t ∈ fn.definedTemps then some (fn.definedTemps.idxOf t) else none := by
  have hfold := getD_foldl_index hnodup fn.temps hlt 0 t
  have hold : (fn.temps.getD t {}).index = none := hnone t
  rw [hold, Nat.zero_add] at hfold
  exact hfold

end Func

end SsaBlocks
