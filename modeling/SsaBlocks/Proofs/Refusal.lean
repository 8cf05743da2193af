import SsaBlocks.Proofs.Termination

/-!
# Refused operations

A stage that is asked for out of turn, and a block for a function that is finished, are refused
before anything is done. `finish` is refused by its first stage, but in a function without a result
it has closed the last block by then.

The work of a stage never ends as if a stage had been asked for out of turn. Only deciding the phi
nodes can meet a parent without an index, which is a violation of the order of things as well: it is
found when the stage is under way.

## Main results

* `Stage.raises_work`: which violations come from the work of a stage
* `Func.unchanged_of_violation`: what a refused operation leaves behind
-/

namespace SsaBlocks

/-- Something was asked for before its time, or after. -/
def Fault.isOrderingViolation : Fault → Bool
  | temporaryNotNumbered .. | variableNotNumbered .. | blockNotNumbered .. | functionFinished
  | wrongStage .. | notNumbered .. => true
  | _ => false

/-! ## The faults of the stages -/

/-- If the work ends with a fault, it is such a one. -/
abbrev Raises {α : Type} (F : Fault → Prop) (x : Except Fault α) : Prop :=
  Ends F (fun _ => True) x

namespace Func

/-- A fault that is no violation of the order of things. -/
abbrev Orderly (fault : Fault) : Prop := fault.isOrderingViolation = false

variable {fn : Func}

theorem raises_removeRedundantBlocks (fn : Func) : Raises Orderly fn.removeRedundantBlocks := by
  refine .foldlM_of_forall trivial fun b _ cur _ => ?_
  rw [removeIfRedundant]
  split
  · split
    · split
      · rfl
      · refine Ends.bind (P := fun _ => True) (.foldlM_of_forall trivial fun p _ cur _ => ?_)
          fun _ _ => trivial
        rw [bypassParent]
        split
        · rfl
        · trivial
    · rfl
  · trivial

theorem raises_refineDominators (blocks : List BlockId) (passes : Nat) (fn : Func) :
    Raises Orderly (refineDominators blocks passes fn) := by
  induction passes generalizing fn with
  | zero => rfl
  | succ passes ih =>
    rw [refineDominators]
    dsimp only
    split
    · exact ih _
    · trivial

theorem raises_runFrontier (target : BlockId) (steps : Nat) (fn : Func) (runner : Option BlockId) :
    Raises Orderly (runFrontier target steps fn runner) := by
  fun_induction runFrontier target steps fn runner with
  | case1 => rfl
  | case2 => trivial
  | case3 => trivial
  | case4 => rfl
  | case5 _ _ _ _ _ _ ih => exact ih

theorem raises_joinFrontiers (fn : Func) (b : BlockId) : Raises Orderly (fn.joinFrontiers b) := by
  rw [joinFrontiers]
  split
  · trivial
  · exact .foldlM_of_forall trivial fun p _ cur _ => raises_runFrontier b _ cur _

theorem raises_run (v : Variable) (steps : Nat) (s : Placing) :
    Raises Orderly (Placing.run v steps s) := by
  induction steps generalizing s with
  | zero => rfl
  | succ steps ih =>
    rw [Placing.run]
    split
    · trivial
    · exact ih _

theorem raises_climb (fn : Func) (steps : Nat) (b : BlockId) (s : Resolving) :
    Raises Orderly (fn.climb steps b s) := by
  fun_induction climb fn steps b s with
  | case1 => rfl
  | case2 => trivial
  | case3 _ _ _ _ _ _ ih => exact ih
  | case4 => trivial

theorem raises_findReads (fn : Func) (b : BlockId) : Raises Orderly (fn.findReads b) := by
  refine (raises_climb fn _ b _).bind fun s _ =>
    .bind (P := fun _ => True) (.foldlM_of_forall trivial fun v _ s _ => ?_) fun _ _ => trivial
  split
  · trivial
  · rfl

end Func

/-- The work of a stage violates the order of things only in deciding phi nodes, where it may meet a
parent without an index. -/
theorem Stage.raises_work (s : Stage) (fn : Func) : Raises (fun fault =>
    fault.isOrderingViolation → s = .phisComputed ∧ ∃ n, fault = .blockNotNumbered n)
      (s.work fn) := by
  have horderly : ∀ {x : Except Fault Func}, Raises Func.Orderly x → Raises (fun fault =>
      fault.isOrderingViolation → s = .phisComputed ∧ ∃ n, fault = .blockNotNumbered n) x := by
    refine fun h => h.imp (fun fault hfault hviolation => ?_) fun _ => id
    rw [hfault] at hviolation
    cases hviolation
  cases s with
  | lowering | loadsRemoved | blocksNumbered | numbered => trivial
  | blocksRemoved => exact horderly fn.raises_removeRedundantBlocks
  | dominance => exact horderly ((Func.raises_refineDominators _ _ _).bind fun _ _ => trivial)
  | frontier =>
    exact horderly (.foldlM_of_forall trivial fun b _ cur _ => cur.raises_joinFrontiers b)
  | phisPlaced =>
    refine horderly (.bind (P := fun _ => True)
      (.foldlM_of_forall trivial fun _ _ _ _ => ?_) fun _ _ => trivial)
    exact Func.raises_run _ _ _
  | phisResolved =>
    refine horderly (.bind (P := fun _ => True) (.foldlM_of_forall trivial ?_) fun _ _ => trivial)
    rintro b - ⟨cur, all⟩ -
    exact (cur.raises_findReads b).bind fun _ _ => trivial
  | phisComputed =>
    refine fn.ends_computePhis.imp (fun fault hfault hviolation => ⟨rfl, ?_⟩) fun _ => id
    cases fault with
    | blockNotNumbered n => exact ⟨n, rfl⟩
    | unreached => cases hviolation
    | _ => cases hfault

/-- The work of a stage leaves the mark of the stage. -/
theorem Stage.stage_work {s : Stage} {fn done : Func} (h : s.work (fn.atStage s) = .ok done) :
    done.stage = s := by
  have hmarked : s.work (fn.atStage s) = .ok (done.atStage s) := Func.work_atStage s h s
  rw [Except.ok.inj (h.symm.trans hmarked)]
  rfl

namespace Func

variable {fn fn' : Func} {fault : Fault} {s : Stage}

/-! ## What refused operations leave behind -/

/-- A violation of the order of things that a stage ends with: either it was refused, or it has met
a parent without an index in deciding phi nodes. -/
theorem advance_violation (h : Build.advance s fn = (.error fault, fn'))
    (hfault : fault.isOrderingViolation) :
    (fn.stage ≠ s.previous ∧ fn' = fn) ∨
      (fn.stage = s.previous ∧ s = .phisComputed ∧ ∃ n, fault = .blockNotNumbered n) := by
  rcases advance_cases s fn with ⟨hstage, heq⟩ | ⟨-, done, -, heq⟩ | ⟨hstage, fault', hwork, heq⟩
  · rw [heq] at h
    exact .inl ⟨hstage, (Prod.mk.inj h).2.symm⟩
  · rw [heq] at h
    cases h
  · rw [heq] at h
    cases h
    exact .inr ⟨hstage, (s.raises_work _).of_eq_error hwork hfault⟩

/-- Stages that follow one another are not refused, once the first of them is not. -/
theorem forM_advance_violation {stages : List Stage}
    (hchain : List.IsChain (fun s s' => s'.previous = s) (fn.stage :: stages))
    (h : stages.forM Build.advance fn = (.error fault, fn')) (hfault : fault.isOrderingViolation) :
    ∃ n, fault = .blockNotNumbered n := by
  induction stages generalizing fn with
  | nil => cases h
  | cons s stages ih =>
    rw [List.isChain_cons_cons] at hchain
    rw [forM_advance_cons, Build.bind_apply] at h
    rcases advance_cases s fn with ⟨hstage, -⟩ | ⟨-, done, hwork, heq⟩ | ⟨-, fault', hwork, heq⟩
    · exact absurd hchain.1.symm hstage
    · rw [heq] at h
      exact ih (by rw [Stage.stage_work hwork]; exact hchain.2) h
    · rw [heq] at h
      cases h
      exact ((s.raises_work _).of_eq_error hwork hfault).2

/-- **Violations of the order of things.** A stage that is asked for out of turn and a block for a
finished function are refused and leave the function as it was. So does `finish`, except that the
last block of a function without a result has been closed by then. Any other violation is a parent
without an index, which is met while phi nodes are being decided. -/
theorem unchanged_of_violation (fn fn' : Func) (fault : Fault)
    (hfault : fault.isOrderingViolation) :
    (∀ s ∈ Stage.all, Build.advance s fn = (.error fault, fn') →
      fn' = fn ∨ (s = .phisComputed ∧ ∃ n, fault = .blockNotNumbered n)) ∧
    (∀ parents, Build.newBlock parents fn = (.error fault, fn') → fn' = fn) ∧
    (Build.finish fn = (.error fault, fn') →
      (fn' = if fn.resultType = .void then fn.closed else fn) ∨ ∃ n, fault = .blockNotNumbered n) := by
  refine ⟨fun s _ h => ?_, fun parents h => ?_, fun h => ?_⟩
  · exact (advance_violation h hfault).imp And.right And.right
  · rw [Build.newBlock_apply] at h
    split at h
    · exact (Prod.mk.inj h).2.symm
    · cases h
  · have hstages : ∀ cur : Func, Stage.all.forM Build.advance cur = (.error fault, fn') →
        fn' = cur ∨ ∃ n, fault = .blockNotNumbered n := by
      intro cur hcur
      by_cases hstage : cur.stage = .lowering
      · exact .inr (forM_advance_violation (by rw [hstage]; decide) hcur hfault)
      · obtain ⟨-, heq⟩ := (advance_cases .blocksRemoved cur).resolve_right fun hworked =>
          hstage (hworked.elim And.left And.left)
        rw [Stage.all, forM_advance_cons, Build.bind_apply, heq] at hcur
        exact .inl (Prod.mk.inj hcur).2.symm
    rw [finish_apply] at h
    exact hstages _ h

/-- A loop that counts down, after the first stage. Its last block is open. -/
def cleared : Func :=
  ([.newBlock [0], .jump 0 1, .read 1 counter, .newBlock [1], .newBlock [1], .branch 1 1 3 2,
    .const 2 .int 1, .read 2 counter, .binary 2 .sub 3 2, .write 2 counter 4, .addEdge 2 1,
    .jump 2 1].foldl Primitive.apply (make "f" [counter] .void)).atStage .blocksRemoved

theorem cleared_unchanged : Build.advance .dominance cleared =
      (.error (.wrongStage "f" .blocksRemoved .blocksNumbered),
        (Build.advance .dominance cleared).2) ∧
    (Build.advance .dominance cleared).2 = cleared := by
  have hrefused : Build.advance .dominance cleared =
      (.error (.wrongStage "f" .blocksRemoved .blocksNumbered),
        (Build.advance .dominance cleared).2) := Prod.ext (by decide +kernel) rfl
  refine ⟨hrefused, ?_⟩
  have hunchanged := (unchanged_of_violation cleared (Build.advance .dominance cleared).2
    (.wrongStage "f" .blocksRemoved .blocksNumbered) rfl).1 .dominance (by decide) hrefused
  exact hunchanged.resolve_right fun h => by cases h.1

/-- Finishing it is refused as well, but puts a return into it. -/
theorem cleared_closed : Build.finish cleared =
    (.error (.wrongStage "f" .blocksRemoved .lowering), cleared.closed) ∧
      cleared.closed ≠ cleared :=
  ⟨Prod.ext (by decide +kernel) (by decide +kernel), by decide +kernel⟩

end Func

end SsaBlocks
