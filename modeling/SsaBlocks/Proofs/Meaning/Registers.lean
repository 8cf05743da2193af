import SsaBlocks.Machine
import SsaBlocks.Proofs.Fold

/-!
# Registers and phi nodes

Temporaries that have been numbered have registers of their own. So setting one of them leaves the
others as they are, and the phi nodes of a block, all of which are read first, can be set one after
the other.
-/

namespace SsaBlocks

namespace Func

variable {fn : Func} {regs regs' : Array Int64} {b : BlockId} {previous : Option BlockId}
  {t d : Temp} {w : Int64}

/-- If the temporary has a register, it holds the word. -/
def Holds (fn : Func) (regs : Array Int64) (t : Temp) (w : Int64) : Prop :=
  ∀ i, fn.tempIndex? t = some i → regs[i]? = some w

theorem Holds.read (h : fn.Holds regs t w) (ht : (fn.tempIndex? t).isSome) :
    Frame.read fn regs t = .ok w := by
  obtain ⟨i, hi⟩ := Option.isSome_iff_exists.mp ht
  simp only [Frame.read, Frame.register, hi, ok_bind, h i hi]
  rfl

theorem Holds.read_or (h : fn.Holds regs t w) : Frame.read fn regs t = .ok w ∨
    fn.tempIndex? t = none ∧
      ∃ n, Frame.read fn regs t = .error (.fault (.temporaryNotNumbered n)) := by
  cases hi : fn.tempIndex? t with
  | some i => exact .inl (h.read (by simp [hi]))
  | none =>
    refine .inr ⟨rfl, fn.tempNumber t, ?_⟩
    simp only [Frame.read, Frame.register, hi]
    rfl

/-- Temporaries that have been numbered have registers of their own. -/
structure Registered (fn : Func) : Prop where
  inj : ∀ t u i, fn.tempIndex? t = some i → fn.tempIndex? u = some i → t = u
  lt : ∀ t i, fn.tempIndex? t = some i → i < fn.temporaryCount

namespace Registered

variable (h : fn.Registered)
include h

theorem exists_write (hd : (fn.tempIndex? d).isSome) (hsize : regs.size = fn.temporaryCount)
    (w : Int64) : ∃ regs', Frame.write fn regs d w = .ok regs' ∧
      regs'.size = fn.temporaryCount ∧ fn.Holds regs' d w ∧
      ∀ i, fn.tempIndex? d ≠ some i → regs'[i]? = regs[i]? := by
  obtain ⟨i, hi⟩ := Option.isSome_iff_exists.mp hd
  have hlt : i < regs.size := hsize ▸ h.lt d i hi
  refine ⟨regs.setIfInBounds i w, ?_, by simp [hsize], fun j hj => ?_, fun j hj => ?_⟩
  · simp only [Frame.write, Frame.register, hi, ok_bind, hlt, if_true]
    rfl
  · obtain rfl : i = j := Option.some.inj (hi.symm.trans hj)
    simp [hlt]
  · have hij : i ≠ j := by
      rintro rfl
      exact hj hi
    exact Array.getElem?_setIfInBounds_ne hij

/-- Phi nodes with different results are set one after the other. -/
theorem exists_writePhis (f : Phi → Int64) {nodes : List Phi}
    (hindex : ∀ n ∈ nodes, (fn.tempIndex? n.dest).isSome) (hnodup : (nodes.map Phi.dest).Nodup)
    (hsize : regs.size = fn.temporaryCount) :
    ∃ regs', (nodes.map fun n => (n, f n)).foldlM
        (fun regs e => Frame.write fn regs e.1.dest e.2) regs = .ok regs' ∧
      regs'.size = fn.temporaryCount ∧ (∀ n ∈ nodes, fn.Holds regs' n.dest (f n)) ∧
      ∀ i, (∀ n ∈ nodes, fn.tempIndex? n.dest ≠ some i) → regs'[i]? = regs[i]? := by
  induction nodes generalizing regs with
  | nil => exact ⟨regs, rfl, hsize, by simp, fun _ _ => rfl⟩
  | cons n nodes ih =>
    rw [List.map_cons, List.nodup_cons] at hnodup
    obtain ⟨regs₁, hwrite, hsize₁, hdest, hkeep⟩ :=
      h.exists_write (hindex n (by simp)) hsize (f n)
    obtain ⟨regs₂, hrest, hsize₂, hdests, hkeep₂⟩ :=
      ih (fun m hm => hindex m (List.mem_cons_of_mem _ hm)) hnodup.2 hsize₁
    refine ⟨regs₂, ?_, hsize₂, fun m hm => ?_, fun i hi => ?_⟩
    · rw [List.map_cons, List.foldlM_cons, hwrite, ok_bind, hrest]
    · rcases List.mem_cons.mp hm with rfl | hm
      · intro i hi
        rw [hkeep₂ i fun k hk hki => hnodup.1 ?_, hdest i hi]
        exact List.mem_map.mpr ⟨k, hk, h.inj _ _ i hki hi⟩
      · exact hdests m hm
    · rw [hkeep₂ i fun m hm => hi m (List.mem_cons_of_mem _ hm), hkeep i (hi n (by simp))]

/-- If their values can be read, the phi nodes of a block are set. -/
theorem exists_enterPhis {f : Phi → Int64}
    (hvalues : ∀ n ∈ (fn.block b).phis, Frame.phiValue fn regs b previous n = .ok (f n))
    (hindex : ∀ n ∈ (fn.block b).phis, (fn.tempIndex? n.dest).isSome)
    (hnodup : ((fn.block b).phis.map Phi.dest).Nodup) (hsize : regs.size = fn.temporaryCount) :
    ∃ regs', Frame.enterPhis fn regs b previous = .ok regs' ∧ regs'.size = fn.temporaryCount ∧
      (∀ n ∈ (fn.block b).phis, fn.Holds regs' n.dest (f n)) ∧
      ∀ i, (∀ n ∈ (fn.block b).phis, fn.tempIndex? n.dest ≠ some i) → regs'[i]? = regs[i]? := by
  have hzip : (fn.block b).phis.zip ((fn.block b).phis.map f) =
      (fn.block b).phis.map fun n => (n, f n) := by
    simpa using List.zip_map' (f := id) (g := f) (l := (fn.block b).phis)
  rw [Frame.enterPhis, mapM_eq_map hvalues, ok_bind, hzip]
  exact h.exists_writePhis f hindex hnodup hsize

/-- A temporary keeps its value if only registers of others change. -/
theorem holds_of_ne {nodes : List Phi}
    (hkeep : ∀ i, (∀ n ∈ nodes, fn.tempIndex? n.dest ≠ some i) → regs'[i]? = regs[i]?)
    (ht : ∀ n ∈ nodes, t ≠ n.dest) (hw : fn.Holds regs t w) : fn.Holds regs' t w := by
  intro i hi
  rw [hkeep i fun n hn hni => ht n hn (h.inj _ _ i hi hni), hw i hi]

end Registered

end Func

end SsaBlocks
