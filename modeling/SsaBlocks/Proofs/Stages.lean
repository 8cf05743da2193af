import SsaBlocks.Proofs.Meaning.Blocks
import SsaBlocks.Proofs.Meaning.Loads
import SsaBlocks.Proofs.Meaning.Ssa
import SsaBlocks.Proofs.Relabel.Stages

/-!
# The stages of construction

No stage looks at the mark of the stage that a function has reached, so the marks can be set at the
end.
-/

namespace SsaBlocks

namespace Func

variable {fn : Func} {s : Stage}

theorem sameShape_atStage (s : Stage) (fn : Func) : fn.SameShape (fn.atStage s) :=
  ⟨rfl, rfl, fun _ => rfl, fun _ => rfl⟩

/-- To mark a function is to leave the numbers of its variables as they are. -/
theorem recast_id (s : Stage) : recast id (fun _ => s) = atStage s := by
  funext fn
  have hvar : Variable.relabel id = id := rfl
  have hphi : Phi.relabel id = id := rfl
  have hblock : Block.relabel id = id := by
    funext blk
    simp only [Block.relabel, Table.relabel, KeySet.relabel, hvar, hphi, List.map_id, id,
      List.map_id']
  simp [recast, relabel, atStage, hblock, hvar]

theorem numberBlocks_atStage : (fn.atStage s).numberBlocks = fn.numberBlocks.atStage s := by
  simpa only [recast_id] using numberBlocks_recast (r := id) (m := fun _ => s) fn

/-- The work of a stage is the same whatever mark the function has. -/
theorem work_atStage {done : Func} (stage : Stage) (h : stage.work fn = .ok done) (s : Stage) :
    stage.work (fn.atStage s) = .ok (done.atStage s) := by
  have hagree := agree_work (m := fun _ => s) strictMono_id stage fn
  rw [recast_id, h] at hagree
  revert hagree
  cases stage.work (fn.atStage s) <;> intro hagree <;> cases hagree
  rfl

theorem Ready.atStage (hr : fn.Ready) (s : Stage) : (fn.atStage s).Ready := by
  have horder := (sameShape_atStage s fn).canonicalOrder
  refine { nodup := hr.nodup, eq := hr.eq, lt := hr.lt, params := hr.params,
           unnumbered := hr.unnumbered, home := hr.home, unplaced := hr.unplaced,
           rooted := hr.rooted.sameShape (sameShape_atStage s fn), counts := hr.counts,
           targets := ?_, ends := ?_, falls := ?_, operands := ?_, written := ?_, alive := ?_,
           live := ?_, live_entry := hr.live_entry }
  all_goals rw [horder]
  · exact hr.targets
  · exact hr.ends
  · exact hr.falls
  · exact hr.operands
  · exact hr.written
  · exact hr.alive
  · exact hr.live

section Meaning

open Storage

variable {S : Type} {store : Storage S} {callee : Callee}

theorem runBlocks_atStage (n : Nat) :
    store.runBlocks (fn.atStage s) callee n = store.runBlocks fn callee n := by
  have hcode : store.runCode (fn.atStage s) callee = store.runCode fn callee := runCode_congr rfl
  have hafter : ∀ b go, afterCode (S := S) (fn.atStage s) b go = afterCode fn b go := by
    intro b go
    funext ⟨move, s', g⟩
    cases move <;> rfl
  induction n with
  | zero =>
    funext b code s' g
    rw [runBlocks, runBlocks, hcode, hafter]
  | succ n ih =>
    funext b code s' g
    rw [runBlocks, runBlocks, hcode, hafter, ih]
    rfl

theorem meaning_atStage : store.meaning (fn.atStage s) callee = store.meaning fn callee := by
  funext args g
  rw [meaning, meaning]
  congr 1
  funext n
  rw [runFunction, runFunction, runBlocks_atStage]
  rfl

theorem onVariables_atStage : (fn.atStage s).onVariables = fn.onVariables := rfl

end Meaning

/-! ## Running the stages -/

theorem forM_advance_eq {stages : List Stage} {done : Func} (hstage : fn.stage = s.previous)
    (h : s.work (fn.atStage s) = .ok done) :
    (s :: stages).forM Build.advance fn = stages.forM Build.advance done := by
  rw [forM_advance_cons, Build.bind_apply, advance_eq hstage h]

theorem Edits.stage {fn' : Func} (h : fn.Edits fn') : fn'.stage = fn.stage := by rw [← h.eq]

theorem Edits.atStage {fn' : Func} (h : (fn.atStage s).Edits fn') (s' : Stage) :
    (fn.atStage s').Edits (fn'.atStage s') :=
  ⟨congrArg (Func.atStage s') h.eq, h.size⟩

/-- The stages that bring a function to SSA form mark it with the last of them. -/
theorem forM_advance_ssaStages {fin : Func} (hstage : fn.stage = .loadsRemoved)
    (h : fn.ssaStages = .ok fin) :
    [Stage.blocksNumbered, .dominance, .frontier, .phisPlaced, .phisResolved, .phisComputed,
      .numbered].forM Build.advance fn = (.ok (), fin.atStage .numbered) := by
  obtain ⟨placed, hplaced, h⟩ := bind_eq_ok.mp h
  obtain ⟨analysed, hanalysed, hplaced⟩ := bind_eq_ok.mp hplaced
  obtain ⟨dominated, hdominated, hanalysed⟩ := bind_eq_ok.mp hanalysed
  obtain ⟨resolved, hresolved, h⟩ := bind_eq_ok.mp h
  obtain ⟨decided, hdecided, h⟩ := bind_eq_ok.mp h
  cases h
  have hstep : ∀ (stage : Stage) {s stages cur done}, s = stage.previous →
      stage.work cur = .ok done → (stage :: stages).forM Build.advance (cur.atStage s) =
        stages.forM Build.advance (done.atStage stage) :=
    fun stage _ _ _ _ hs hwork => forM_advance_eq hs (work_atStage stage hwork _)
  refine (forM_advance_eq hstage (work_atStage .blocksNumbered rfl _)).trans ?_
  refine (hstep .dominance rfl hdominated).trans ((hstep .frontier rfl hanalysed).trans ?_)
  refine (hstep .phisPlaced rfl hplaced).trans ((hstep .phisResolved rfl hresolved).trans ?_)
  exact (hstep .phisComputed rfl hdecided).trans (hstep .numbered rfl rfl)

/-- A function that is ready goes through all stages. In between it has been cleaned up without a
change of its meaning. -/
theorem Ready.exists_finish (hr : fn.Ready) (hstage : fn.stage = .lowering)
    (hclose : fn.resultType = .void → Build.closeVoid fn = (.ok (), fn)) :
    ∃ clean fin : Func, fn.finish = .ok (fin.atStage .numbered) ∧ clean.ssaStages = .ok fin ∧
      clean.Ready ∧ (fn.atStage .loadsRemoved).Edits clean ∧
      ∀ callee args g, clean.onVariables.meaning clean callee args g =
        fn.onVariables.meaning fn callee args g := by
  obtain ⟨compact, hcompact, hrc, hedits, hmeaning⟩ :=
    exists_removeRedundantBlocks (hr.atStage .blocksRemoved)
  have hrc' := hrc.atStage .loadsRemoved
  obtain ⟨R, hloads⟩ := exists_trimmed hrc'.toFresh.distinctResults hrc'.rooted.entry_lt
  have hrl := hloads.ready hrc'
  obtain ⟨start, placed, res, cur, σ, hfin, -⟩ := hrl.exists_ssaForm
  refine ⟨_, _, ?_, hfin, hrl, ?_, fun callee args g => ?_⟩
  · have hrest : Stage.all.forM Build.advance fn = (.ok (), cur.numberAll.atStage .numbered) := by
      have hmark : compact.stage = .blocksRemoved := hedits.stage
      have hwork : Stage.work .blocksRemoved (fn.atStage .blocksRemoved) = .ok compact := hcompact
      have hwork' : Stage.work .loadsRemoved (compact.atStage .loadsRemoved) =
          .ok (compact.atStage .loadsRemoved).removeRedundantLoads := rfl
      rw [Stage.all, forM_advance_eq hstage hwork, forM_advance_eq hmark hwork']
      exact forM_advance_ssaStages hloads.thins.edits.stage hfin
    have hclosed : (if fn.resultType = .void then fn.closed else fn) = fn := by
      split
      · next hvoid => exact congrArg Prod.snd ((closeVoid_apply fn).symm.trans (hclose hvoid))
      · rfl
    rw [finish_eq_ok, finish_apply, hclosed, hrest]
  · exact (hedits.atStage .loadsRemoved).trans hloads.thins.edits
  · rw [hloads.meaning_eq hrc'.availability, meaning_atStage, onVariables_atStage, hmeaning,
      meaning_atStage, onVariables_atStage]

end Func

end SsaBlocks
