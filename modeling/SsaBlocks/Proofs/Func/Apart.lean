import SsaBlocks.Proofs.Fold
import SsaBlocks.Proofs.Func.Build
import SsaBlocks.Proofs.Ranked

/-!
# Where temporaries come from

A temporary comes from the parameters, or from the reads, the phi nodes or the instructions of a
block. Whatever a function is built with, in whatever order and with whatever arguments, no
temporary comes from two places: each step that puts a temporary somewhere has just made it. This
needs nothing of the graph, which may be malformed in any way.
-/

namespace SsaBlocks

open List

/-! ## The values of a table -/

namespace Table

variable {κ ν μ : Type} {m : Table κ ν} {k k' : κ} {v : ν}

/-- The values in the order of their keys. -/
def values (m : Table κ ν) : List ν :=
  m.entries.map (·.2)

variable [DecidableEq κ]

theorem mem_values_of_get? (h : m.get? k = some v) : v ∈ m.values :=
  mem_map.mpr ⟨(k, v), mem_entries_of_get? h, rfl⟩

theorem values_erase_sublist (m : Table κ ν) (k : κ) : (m.erase k).values.Sublist m.values :=
  filter_sublist.map _

/-- If the values are different, dropping a key takes its value away. -/
theorem not_mem_values_erase (hnodup : m.values.Nodup) (h : m.get? k = some v) :
    v ∉ (m.erase k).values := by
  intro hv
  obtain ⟨e, he, rfl⟩ := mem_map.mp hv
  obtain ⟨hmem, hne⟩ := mem_filter.mp he
  have heq : e = (k, e.2) :=
    inj_on_of_nodup_map hnodup hmem (mem_entries_of_get? h) rfl
  rw [heq] at hne
  simp at hne

theorem values_insert_perm [Ranked κ] (h : m.get? k = none) (v : ν) :
    (m.insert k v).values.Perm (v :: m.values) := by
  suffices hplace : ∀ l : List (κ × ν), find? k l = none → (place k v l).Perm ((k, v) :: l) from
    (hplace m.entries h).map _
  intro l hl
  induction l with
  | nil => exact .refl _
  | cons e l ih =>
    rw [find?] at hl
    split at hl
    · cases hl
    · next hne =>
      rw [place, if_neg hne]
      split
      · exact .refl _
      · exact ((ih hl).cons e).trans (.swap _ _ _)

theorem Injective.of_nodup_values (h : m.values.Nodup) : m.Injective := by
  intro k k' v hk hk'
  have heq : (k, v) = (k', v) :=
    inj_on_of_nodup_map h (mem_entries_of_get? hk) (mem_entries_of_get? hk') rfl
  exact congrArg Prod.fst heq

end Table

namespace Func

variable {fn fn' fn'' : Func} {b c : BlockId} {v : Variable} {t : Temp} {f : Block → Block}

/-! ## Places -/

/-- The places that temporaries come from. -/
inductive Place where
  | params
  | reads (b : BlockId)
  | phis (b : BlockId)
  | code (b : BlockId)
deriving DecidableEq

/-- The results of the instructions of a block, in order. -/
def results (fn : Func) (b : BlockId) : List Temp :=
  (fn.block b).code.filterMap Instruction.result?

/-- The temporaries that come from a place. -/
def made (fn : Func) : Place → List Temp
  | .params => fn.paramTemps
  | .reads b => (fn.block b).awaited.values
  | .phis b => (fn.block b).pending.values
  | .code b => fn.results b

/-- No temporary comes from two places. -/
structure Apart (fn : Func) : Prop where
  nodup : ∀ p, (fn.made p).Nodup
  eq : ∀ p p' t, t ∈ fn.made p → t ∈ fn.made p' → p = p'
  lt : ∀ p, ∀ t ∈ fn.made p, t < fn.temps.size

/-- Temporaries that come from fewer places still come from one at most. -/
theorem Apart.of_sublist (h : fn.Apart) (hsize : fn.temps.size ≤ fn'.temps.size)
    (hmade : ∀ p, (fn'.made p).Sublist (fn.made p)) : fn'.Apart where
  nodup p := (h.nodup p).sublist (hmade p)
  eq p p' t ht ht' := h.eq p p' t ((hmade p).subset ht) ((hmade p').subset ht')
  lt p t ht := (h.lt p t ((hmade p).subset ht)).trans_le hsize

/-- A temporary that comes from nowhere else may be put into one place. -/
theorem Apart.put (h : fn.Apart) (hsize : fn.temps.size ≤ fn'.temps.size) {q : Place}
    (hq : (fn'.made q).Perm (t :: fn.made q)) (hmade : ∀ p, p ≠ q → fn'.made p = fn.made p)
    (hfresh : ∀ p, t ∉ fn.made p) (ht : t < fn'.temps.size) : fn'.Apart := by
  have hmem : ∀ p u, u ∈ fn'.made p → u ∈ fn.made p ∨ p = q ∧ u = t := by
    intro p u hu
    by_cases hpq : p = q
    · subst hpq
      rcases mem_cons.mp (hq.mem_iff.mp hu) with rfl | hu
      · exact .inr ⟨rfl, rfl⟩
      · exact .inl hu
    · exact .inl (hmade p hpq ▸ hu)
  refine ⟨fun p => ?_, fun p p' u hu hu' => ?_, fun p u hu => ?_⟩
  · by_cases hpq : p = q
    · subst hpq
      exact hq.nodup_iff.mpr (nodup_cons.mpr ⟨hfresh p, h.nodup p⟩)
    · exact hmade p hpq ▸ h.nodup p
  · rcases hmem p u hu with hu | ⟨rfl, rfl⟩
    · rcases hmem p' u hu' with hu' | ⟨-, rfl⟩
      · exact h.eq p p' u hu hu'
      · exact absurd hu (hfresh p)
    · rcases hmem p' u hu' with hu' | ⟨rfl, -⟩
      · exact absurd hu' (hfresh p')
      · rfl
  · rcases hmem p u hu with hu | ⟨-, rfl⟩
    · exact (h.lt p u hu).trans_le hsize
    · exact ht

theorem Apart.size_not_mem (h : fn.Apart) (p : Place) : fn.temps.size ∉ fn.made p :=
  fun ht => (h.lt p _ ht).false

/-- The temporaries are kept apart, and none of them has been numbered. -/
structure Separate (fn : Func) : Prop extends Apart fn where
  params : fn.paramTemps.length = fn.params.length
  unnumbered : ∀ t, fn.tempIndex? t = none

end Func

/-! ## Changes that make nothing -/

/-- What a block keeps if no temporary comes from it that did not before. -/
structure Block.Thins (blk blk' : Block) : Prop where
  results : (blk'.code.filterMap Instruction.result?).Sublist
    (blk.code.filterMap Instruction.result?)
  awaited : blk'.awaited.values.Sublist blk.awaited.values
  pending : blk'.pending = blk.pending
  index : blk'.index = blk.index
  stray : blk.index = none → blk.frontier = none → blk'.frontier = none

namespace Block.Thins

variable {blk blk' blk'' : Block}

theorem refl (blk : Block) : blk.Thins blk := ⟨.refl _, .refl _, rfl, rfl, fun _ => id⟩

theorem trans (h : blk.Thins blk') (k : blk'.Thins blk'') : blk.Thins blk'' :=
  ⟨k.results.trans h.results, k.awaited.trans h.awaited, k.pending.trans h.pending,
    k.index.trans h.index, fun hi hf => k.stray (h.index.trans hi) (h.stray hi hf)⟩

end Block.Thins

namespace Func

variable {fn fn' fn'' : Func} {b c : BlockId} {v : Variable} {t : Temp} {f : Block → Block}

/-- The blocks change, but no temporary comes from a place that it did not come from. -/
structure Thins (fn fn' : Func) : Prop where
  edits : fn.Edits fn'
  block : ∀ b, (fn.block b).Thins (fn'.block b)

namespace Thins

theorem refl (fn : Func) : fn.Thins fn := ⟨.refl fn, fun _ => .refl _⟩

theorem trans (h : fn.Thins fn') (k : fn'.Thins fn'') : fn.Thins fn'' :=
  ⟨h.edits.trans k.edits, fun b => (h.block b).trans (k.block b)⟩

theorem modify (hf : (fn.block b).Thins (f (fn.block b))) : fn.Thins (fn.modify b f) := by
  refine ⟨.modify fn b f, fun c => ?_⟩
  rcases fn.block_modify_cases b c f with hc | ⟨rfl, -, hc⟩
  · rw [hc]
    exact .refl _
  · rw [hc]
    exact hf

theorem foldl {α : Type} {step : Func → α → Func} (hstep : ∀ (fn : Func) a, fn.Thins (step fn a))
    (l : List α) (fn : Func) : fn.Thins (l.foldl step fn) := by
  induction l generalizing fn with
  | nil => exact refl fn
  | cons a l ih => exact (hstep fn a).trans (ih _)

theorem foldlM {α : Type} {step : Func → α → Except Fault Func} {l : List α}
    (hstep : ∀ (fn fn' : Func) a, step fn a = .ok fn' → fn.Thins fn') (h : l.foldlM step fn = .ok fn') :
    fn.Thins fn' :=
  foldlM_invariant (fun _ cur => fn.Thins cur) h (.refl fn)
    fun _ a _ cur cur' _ hcur hok => hcur.trans (hstep cur cur' a hok)

theorem made_sublist (h : fn.Thins fn') (p : Place) : (fn'.made p).Sublist (fn.made p) := by
  cases p with
  | params => rw [made, made, h.edits.paramTemps]
  | reads b => exact (h.block b).awaited
  | phis b => rw [made, made, (h.block b).pending]
  | code b => exact (h.block b).results

theorem apart (h : fn.Thins fn') (ha : fn.Apart) : fn'.Apart :=
  ha.of_sublist (by rw [h.edits.temps]) h.made_sublist

theorem separate (h : fn.Thins fn') (hs : fn.Separate) : fn'.Separate where
  toApart := h.apart hs.toApart
  params := by rw [h.edits.paramTemps, h.edits.params]; exact hs.params
  unnumbered t := by
    rw [Graph.tempIndex?, Graph.temp, h.edits.temps]
    exact hs.unnumbered t

end Thins

/-! ## Steps that make a temporary -/

theorem made_addTemp (b : BlockId) (p : Place) : (fn.addTemp b).made p = fn.made p := by
  cases p <;> rfl

theorem Apart.addTemp (h : fn.Apart) (b : BlockId) : (fn.addTemp b).Apart :=
  h.of_sublist (by simp [Func.addTemp]) fun p => made_addTemp b p ▸ .refl _

namespace Separate

theorem addTemp (h : fn.Separate) (b : BlockId) : (fn.addTemp b).Separate where
  toApart := h.toApart.addTemp b
  params := h.params
  unnumbered t := by
    have ht := h.unnumbered t
    simp only [Graph.tempIndex?, Graph.temp, Func.addTemp, Array.getD_eq_getD_getElem?,
      Array.getElem?_push] at ht ⊢
    split
    · rfl
    · exact ht

/-- A temporary that has just been made is put into a block that exists. -/
theorem put (h : fn.Separate) {q : Place}
    (hq : (((fn.addTemp b).modify b f).made q).Perm (fn.temps.size :: fn.made q))
    (hmade : ∀ p, p ≠ q → ((fn.addTemp b).modify b f).made p = fn.made p) :
    ((fn.addTemp b).modify b f).Separate where
  toApart := h.toApart.put (by simp [Func.addTemp, Func.modify]) hq hmade h.size_not_mem
    (by simp [Func.addTemp, Func.modify])
  params := h.params
  unnumbered := (h.addTemp b).unnumbered

theorem append (h : fn.Separate) {inst : Instruction} (hinst : inst.result? = none) :
    (fn.append b inst).Separate := by
  refine Thins.separate (.modify ⟨?_, .refl _, rfl, rfl, fun _ => id⟩) h
  rw [filterMap_append, filterMap_cons_none hinst]
  simp

theorem define (h : fn.Separate) {inst : Instruction}
    (hinst : inst.result? = some fn.temps.size) : ((fn.addTemp b).append b inst).Separate := by
  by_cases hb : b < fn.blocks.size
  · refine h.put (q := .code b) ?_ (fun p hp => ?_)
    · have hresults : ((fn.addTemp b).append b inst).results b =
          fn.results b ++ [fn.temps.size] := by
        have hself := @block_modify_self (fn.addTemp b) b
          (fun blk => { blk with code := blk.code ++ [inst] }) hb
        rw [results, Func.append, hself, filterMap_append, filterMap_cons_some hinst]
        rfl
      exact (List.Perm.of_eq hresults).trans (perm_append_singleton _ _)
    · cases p with
      | params => rfl
      | reads c => exact congrArg Table.values (proj_block_modify Block.awaited fun _ => rfl)
      | phis c => exact congrArg Table.values (proj_block_modify Block.pending fun _ => rfl)
      | code c =>
        have hc : b ≠ c := fun hc => hp (hc ▸ rfl)
        exact congrArg (·.code.filterMap Instruction.result?) (block_modify_ne hc)
  · have hsame : (fn.addTemp b).append b inst = fn.addTemp b :=
      @modify_of_size_le (fn.addTemp b) b (Nat.not_lt.mp hb) _
    rw [hsame]
    exact h.addTemp b

theorem await (h : fn.Separate) (hv : (fn.block b).awaited.get? v = none) :
    ((fn.addTemp b).await b v fn.temps.size).Separate := by
  by_cases hb : b < fn.blocks.size
  · have hself := @block_modify_self (fn.addTemp b) b
      (fun blk => { blk with awaited := blk.awaited.insert v fn.temps.size }) hb
    refine h.put (q := .reads b) ?_ (fun p hp => ?_)
    · exact (List.Perm.of_eq (congrArg (·.awaited.values) hself)).trans
        (Table.values_insert_perm hv _)
    · cases p with
      | params => rfl
      | reads c =>
        have hc : b ≠ c := fun hc => hp (hc ▸ rfl)
        exact congrArg (·.awaited.values) (block_modify_ne hc)
      | phis c => exact congrArg Table.values (proj_block_modify Block.pending fun _ => rfl)
      | code c =>
        exact congrArg (filterMap _) (proj_block_modify Block.code fun _ => rfl)
  · have hsame : (fn.addTemp b).await b v fn.temps.size = fn.addTemp b :=
      @modify_of_size_le (fn.addTemp b) b (Nat.not_lt.mp hb) _
    rw [hsame]
    exact h.addTemp b

end Separate

end Func

end SsaBlocks
