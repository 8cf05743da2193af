import SsaBlocks.Proofs.Compile.Runs
import SsaBlocks.Proofs.Func.Reached

/-!
# SSA construction of arbitrary graphs

SSA construction does not depend on how a function has been lowered. Whatever primitives a function
has been assembled from, it is ready if its graph can be run: the entry is not entered again, all
blocks are in the canonical order, each of them is left for its children, temporaries are used after
they have been made, and variables that are live are in scope. Some of what construction takes for
granted need not be asked for, since all primitives keep it.

Then the finished function does on registers what the function does on variables, unless it meets a
phi node that asks for the result of one that has been dropped.

## Main results

* `Func.Regular.ready`: such a function is ready for SSA construction
* `Program.exists_finish_of_regular`: programs of such functions are finished and realized
-/

namespace SsaBlocks

open SsaBlocks.Flow List

namespace Func

variable {fn : Func} {b c p : BlockId} {v : Variable} {t : Temp}

theorem Assembled.stage (h : fn.Assembled) : fn.stage = .lowering := by
  induction h with
  | make => rfl
  | step _ p _ ih => exact (SamePlan.apply _ p).stage.trans ih

/-! ## Graphs that can be run -/

/-- The function has been assembled to a graph that can be run, and it needs nothing that is not
there. -/
structure Regular (fn : Func) : Prop where
  assembled : fn.Assembled
  entry_parents : (fn.block fn.entry).parents = []
  reached : ∀ b, b < fn.blocks.size → b ∈ fn.canonicalOrder
  departs : ∀ b, b < fn.blocks.size → fn.Departs b
  operands : ∀ b n i, (fn.block b).code[n]? = some i → ∀ t ∈ i.operands, fn.Available b n t
  written : ∀ b v t, (fn.block b).written.get? v = some t →
    fn.Available b (fn.block b).code.length t
  live : ∀ b v, fn.LiveIn v b →
    v ∈ (fn.block b).alive ∧ ∀ p ∈ (fn.block b).parents, v ∈ (fn.block p).alive
  live_entry : ∀ v, ¬ fn.LiveIn v fn.entry

namespace Regular

theorem ready (h : fn.Regular) : fn.Ready :=
  h.assembled.kept.ready h.entry_parents h.reached
    (fun b hb => h.departs b (mem_canonicalOrder_lt hb h.assembled.kept.wired.entry_lt)) h.operands
    h.written (fun b _ v hv => inScope_iff.mpr (h.live b v hv)) h.live_entry

theorem exists_constructed (h : fn.Regular) : ∃ fin, fn.finish = .ok fin ∧ fn.Constructed fin := by
  refine h.ready.exists_constructed h.assembled.stage fun _ => ?_
  exact closeVoid_of_departs h.entry_parents fun b hb =>
    h.departs b (mem_canonicalOrder_lt hb h.assembled.kept.wired.entry_lt)

end Regular

/-- A parameter is known everywhere, and a result in the rest of its block. -/
theorem available_of_mem {n : Nat} (h : t ∈ fn.paramTemps ∨
    t ∈ ((fn.block b).code.take n).filterMap Instruction.result?) : fn.Available b n t := by
  rcases h with h | h
  · obtain ⟨i, hi⟩ := getElem?_of_mem h
    exact ⟨.param i, hi, trivial⟩
  · obtain ⟨inst, hinst, ht⟩ := mem_filterMap.mp h
    obtain ⟨i, hi⟩ := getElem?_of_mem hinst
    rw [getElem?_take] at hi
    split at hi
    · next hlt => exact ⟨.result b i, ⟨inst, hi, ht⟩, .inl ⟨rfl, hlt⟩⟩
    · cases hi

/-- A variable is declared on one of the ways to a first join and written on all others to a second
one. It is in scope at the second join only, so that its phi node at the first one is dropped. -/
def rejoined : Func :=
  let x : Variable := ⟨3, "x", .localVar, .int⟩
  [.newBlock [0], .newBlock [0], .branch 0 0 1 2, .const 2 .int 5, .declare 2 x 2, .newBlock [2],
    .newBlock [2], .branch 2 1 3 4, .comment 1 "n", .const 3 .int 6, .write 3 x 3, .const 4 .int 8,
    .write 4 x 4, .newBlock [1, 3], .jump 1 5, .jump 3 5, .comment 5 "j", .newBlock [5, 4],
    .jump 5 6, .jump 4 6, .const 6 .int 7, .ret 6 (some 5)].foldl Primitive.apply
    (make "f" [⟨1, "p", .param, .int⟩, ⟨2, "q", .param, .int⟩] .int)

theorem regular_rejoined : rejoined.Regular := by
  have hblock : ∀ b, ¬ b < rejoined.blocks.size → rejoined.block b = {} :=
    fun b hb => Graph.block_of_size_le (Nat.not_lt.mp hb)
  have hcode : ∀ b < rejoined.blocks.size, ∀ n < (rejoined.block b).code.length,
      ∀ t ∈ ((rejoined.block b).code[n]?.map Instruction.operands).getD [], t ∈ rejoined.paramTemps ∨
        t ∈ ((rejoined.block b).code.take n).filterMap Instruction.result? := by decide +kernel
  have hwritten : ∀ b < rejoined.blocks.size, ∀ t ∈ (rejoined.block b).written.values,
      t ∈ rejoined.paramTemps ∨ t ∈ rejoined.results b := by decide +kernel
  have hends : ∀ b < rejoined.blocks.size, ((rejoined.block b).code.getLast?.map fun i =>
      (i.isTerminator, i.targets)) = some (true, (rejoined.block b).children) ∧
        ∀ i ∈ (rejoined.block b).code.dropLast, i.isTerminator = false := by decide +kernel
  have hreads : ∀ b < rejoined.blocks.size, (rejoined.block b).awaited.values = [] := by
    decide +kernel
  -- no variable is read before it has been written in the same block
  have hlive : ∀ v b, ¬ rejoined.LiveIn v b := by
    rintro v b ⟨c, -, -, -, t, ht⟩
    by_cases hc : c < rejoined.blocks.size
    · have hmem := Table.mem_values_of_get? ht
      rw [hreads c hc] at hmem
      cases hmem
    · rw [hblock c hc] at ht
      cases ht
  refine ⟨.foldl (.make ..) (by decide +kernel), by decide +kernel, by decide +kernel, fun b hb => ?_,
    fun b n i hi t ht => ?_, fun b v t ht => ?_, fun b v hv => absurd hv (hlive v b),
    fun v => hlive v _⟩
  · obtain ⟨hlast, hrest⟩ := hends b hb
    obtain ⟨i, hi, heq⟩ := Option.map_eq_some_iff.mp hlast
    obtain ⟨hend, htargets⟩ := Prod.mk.inj heq
    exact .ends _ i hrest (dropLast_append_getLast? i hi).symm hend fun c => by rw [htargets]
  · by_cases hb : b < rejoined.blocks.size
    · exact available_of_mem (hcode b hb n (List.getElem?_eq_some_iff.mp hi).1 t (by simpa [hi]))
    · rw [hblock b hb] at hi
      cases hi
  · by_cases hb : b < rejoined.blocks.size
    · refine available_of_mem ((hwritten b hb t (Table.mem_values_of_get? ht)).imp_right ?_)
      simp [results]
    · rw [hblock b hb] at ht
      cases ht

end Func

open Func

namespace Program

/-- The finished program `p'` does what `p` does on variables, or it meets a phi node whose value has
not been numbered, which is the result of one that has been dropped. A machine reports this, if it
has enough steps. -/
structure Realizes (p p' : Program) : Prop where
  closed : ∀ fin ∈ p'.functions, fin.Closed
  calls : ∀ name args g, p'.finishedCalls Machine.maxDepth name args g =
      p.variableCalls Machine.maxDepth name args g ∨
    ∃ k g', p'.finishedCalls Machine.maxDepth name args g =
      .failed (.fault (.temporaryNotNumbered k)) g' ∧ ∃ fin ∈ p'.functions, ¬ fin.PhisNumbered
  report : ∀ name args g, ((Machine.mk p' g).call name args).1 ≠ .error .outOfSteps →
    (p'.finishedCalls Machine.maxDepth name args g).report? =
      some (((Machine.mk p' g).call name args).1, ((Machine.mk p' g).call name args).2.globals)
  ends : ∀ name args g, p'.finishedCalls Machine.maxDepth name args g ≠ .never →
    ∃ j, ∀ k, (p'.finishedCalls Machine.maxDepth name args g).report? =
      some (Machine.runFor p' (j + k) (Machine.startCall p' [] g name args none))

theorem Constructed.realizes {p p' : Program} (h : p.Constructed p') : p.Realizes p' := by
  have hfrom : ∀ fin ∈ p'.functions, ∃ fn : Func, fn.Constructed fin := by
    intro fin hfin
    obtain ⟨i, hi, rfl⟩ := mem_iff_getElem.mp hfin
    exact ⟨_, h.get (h.length_eq ▸ hi) hi⟩
  have hfinished : ∀ fin ∈ p'.functions, fin.isFinished :=
    fun fin hfin => (hfrom fin hfin).choose_spec.isFinished
  refine ⟨fun fin hfin => (hfrom fin hfin).choose_spec.closed, fun name args g => ?_,
    fun name args g hsteps => Machine.report_call hfinished hsteps,
    fun name args g hne => Machine.exists_runFor_report hfinished hne⟩
  have htracks := h.tracks (fun _ => excuses_unnumbered) Machine.maxDepth name args g
  rcases htracks.eq_or_excused with heq | ⟨e, g', heq, ⟨⟨k, rfl⟩, hopen⟩⟩
  · exact .inl heq
  · exact .inr ⟨k, g', heq, hopen⟩

/-- A program of functions that can be run is finished and then does what they do on variables, up to
phi nodes that ask for one that has been dropped. -/
theorem exists_finish_of_regular {p : Program} (h : ∀ fn ∈ p.functions, fn.Regular) :
    ∃ p', p.finish = .ok p' ∧ p.Realizes p' := by
  obtain ⟨fins, hfins, hfinish⟩ :=
    finish_of_forall p.globals fun fn hfn => (h fn hfn).exists_constructed
  have hconstructed : p.Constructed ⟨fins, p.globals⟩ := hfins
  exact ⟨_, hfinish, hconstructed.realizes⟩

end Program

theorem rejoined_exists_finish : rejoined.Regular ∧
    ∃ p', (Program.mk [rejoined] []).finish = .ok p' ∧ (Program.mk [rejoined] []).Realizes p' :=
  ⟨regular_rejoined, Program.exists_finish_of_regular
    (forall_mem_singleton.mpr regular_rejoined)⟩

/-- At the second join the phi node asks for the one that has been dropped. -/
theorem rejoined_unnumbered : ∃ p', (Program.mk [rejoined] []).finish = .ok p' ∧
    ((Program.mk [rejoined] []).variableCalls Machine.maxDepth "f" [0, 0] .empty).report?.map
      Prod.fst = some (.ok 7) ∧
    ((Machine.mk p' .empty).call "f" [0, 0]).1 = .error (.fault (.temporaryNotNumbered 7)) := by
  have hok : ((Program.mk [rejoined] []).finish.toOption.filter fun p' =>
      ((Machine.mk p' .empty).call "f" [0, 0]).1 =
        .error (.fault (.temporaryNotNumbered 7))).isSome = true := by decide +kernel
  obtain ⟨p', hp'⟩ := Option.isSome_iff_exists.mp hok
  obtain ⟨hfinish, hcall⟩ := Option.filter_eq_some_iff.mp hp'
  refine ⟨p', toOption_eq_some.mp hfinish, ?_, of_decide_eq_true hcall⟩
  have hrun : (rejoined.onVariables.runFunction rejoined
      ((Program.mk [rejoined] []).variableCalls 9999) 3 [0, 0] .empty).report?.map Prod.fst =
        some (.ok 7) := by decide +kernel
  have hsettling : Ending.Settling fun n => rejoined.onVariables.runFunction rejoined
      ((Program.mk [rejoined] []).variableCalls 9999) n [0, 0] .empty :=
    Storage.settling_runFunction [0, 0] .empty
  have hlimit := hsettling.limit_eq (n := 3) fun hnever => by simp [hnever, Ending.report?] at hrun
  have hname : rejoined.name = "f" := by decide +kernel
  have hparams : rejoined.params.length = 2 := by decide +kernel
  rw [Program.variableCalls, Machine.maxDepth, Program.calls, Program.accepting, Program.lookup?]
  simp only [find?_cons, hname, beq_self_eq_true, hparams, length_cons, length_nil,
    ne_eq, not_true_eq_false, if_false]
  exact (congrArg (fun r => r.report?.map Prod.fst) hlimit).trans hrun

end SsaBlocks
