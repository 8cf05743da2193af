import SsaBlocks.Proofs.Compile.Outline
import SsaBlocks.Proofs.Stages

/-!
# Compiled programs

The functions of a checked file can be taken through all stages, since they have been filled and
their variables are settled. They are put together to a program unless two of them have the blank
name.

## Main results

* `finish_of_lowered`: the functions of a checked file go through all stages
* `supplied_of_lowered`: a lowered function supplies its reads, before and after the clean-up
* `strict_of_compile`: the functions of a compiled file are in strict SSA form
* `compile_of_checked`: a checked file is compiled, unless something is not supported or the blank
  name is given twice
-/

namespace SsaBlocks

open SsaBlocks.Typed List

/-! ## Construction -/

namespace Func

variable {fn : Func} {name : String}

/-- SSA construction has taken the function `fn` to `fin`. In between there was a function without
what is redundant, that means the same and is ready. -/
def Constructed (fn fin : Func) : Prop :=
  ∃ clean start placed res cur σ, fin = cur.numberAll.atStage .numbered ∧ clean.Ready ∧
    clean.Decided start placed res cur σ ∧ (fn.atStage .loadsRemoved).Edits clean ∧
    ∀ callee args g, clean.onVariables.meaning clean callee args g =
      fn.onVariables.meaning fn callee args g

theorem Ready.exists_constructed (hr : fn.Ready) (hstage : fn.stage = .lowering)
    (hclose : fn.resultType = .void → Build.closeVoid fn = (.ok (), fn)) :
    ∃ fin, fn.finish = .ok fin ∧ fn.Constructed fin := by
  obtain ⟨clean, fin, hfinish, hstages, hclean, hedits, hmeaning⟩ := hr.exists_finish hstage hclose
  obtain ⟨start, placed, res, cur, σ, hcur, hdecided⟩ := hclean.exists_ssaForm
  obtain rfl : cur.numberAll = fin := Except.ok.inj (hcur.symm.trans hstages)
  exact ⟨_, hfinish, clean, start, placed, res, cur, σ, rfl, hclean, hdecided, hedits, hmeaning⟩

/-- The variable is alive in the block and in its parents, and has been written on every walk to
the block. -/
structure Supplied (fn : Func) (v : Variable) (b : BlockId) : Prop where
  alive : v ∈ (fn.block b).alive
  alive_parents : ∀ p ∈ (fn.block b).parents, v ∈ (fn.block p).alive
  written : ∀ l, Flow.Walk fn.Edge fn.entry b l → ∃ x ∈ l, fn.Writes v x

theorem Ready.supplied {b : BlockId} {v : Variable} (hr : fn.Ready) (hb : b ∈ fn.canonicalOrder)
    (h : (fn.block b).awaited.contains v ∨ fn.LiveIn v b) : fn.Supplied v b := by
  have hlive : fn.LiveIn v b := by
    rcases h with h | h
    · obtain ⟨t, ht⟩ := Option.isSome_iff_exists.mp h
      exact liveIn_of_awaited ht
    · exact h
  obtain ⟨halive, hparents⟩ := inScope_iff.mp (hr.live b hb v hlive)
  exact ⟨halive, hparents, fun _ => hr.exists_writes hlive⟩

/-- A function that has been lowered goes through all stages. -/
theorem LoweredAs.exists_constructed (h : fn.LoweredAs name) :
    ∃ fin, fn.finish = .ok fin ∧ fn.Constructed fin :=
  (h.filled.ready h.settled).exists_constructed h.filled.stage fun _ => h.filled.closeVoid

namespace Constructed

variable {fin : Func} (h : fn.Constructed fin)
include h

theorem isFinished : fin.isFinished = true := by
  obtain ⟨clean, start, placed, res, cur, σ, rfl, -⟩ := h
  rfl

theorem strict : fin.Strict := by
  obtain ⟨clean, start, placed, res, cur, σ, rfl, hclean, hdecided, -⟩ := h
  obtain ⟨hdefined, hindex⟩ := hdecided.strict hclean
  refine ⟨fun b hb n i hi t ht => ?_, hindex⟩
  cases hdefined b hb n i hi t ht with
  | param h => exact .param h
  | phi h => exact .phi h
  | earlier h => exact .earlier h
  | above hc h => exact .above hc h

end Constructed

end Func

/-! ## Putting functions together -/

namespace Program

/-- Functions are added to a program unless a name is given twice. -/
theorem foldlM_addFunction_cases (fns : List Func) (p : Program)
    (hp : (p.functions.map Func.name).Nodup) :
    (((p.functions ++ fns).map Func.name).Nodup ∧
      fns.foldlM addFunction p = .ok { p with functions := p.functions ++ fns }) ∨
    ∃ name, 2 ≤ ((p.functions ++ fns).map Func.name).count name ∧
      fns.foldlM addFunction p = .error (.definedTwice name) := by
  induction fns generalizing p with
  | nil =>
    rw [append_nil]
    exact .inl ⟨hp, rfl⟩
  | cons fn fns ih =>
    rw [foldlM_cons, addFunction]
    split
    · next hsome =>
      refine .inr ⟨fn.name, ?_, rfl⟩
      obtain ⟨other, hother⟩ := Option.isSome_iff_exists.mp hsome
      rw [lookup?] at hother
      have hmem : fn.name ∈ p.functions.map Func.name :=
        mem_map.mpr ⟨other, mem_of_find?_eq_some hother,
          by simpa using find?_some hother⟩
      have hpos := count_pos_iff.mpr hmem
      rw [map_append, map_cons, count_append, count_cons_self]
      omega
    · next hnone =>
      have hnew : fn.name ∉ p.functions.map Func.name := by
        intro hmem
        obtain ⟨other, hother, heq⟩ := mem_map.mp hmem
        exact hnone (find?_isSome.mpr ⟨other, hother, beq_iff_eq.mpr heq⟩)
      have hadded : ((p.functions ++ [fn]).map Func.name).Nodup := by
        rw [map_append, map_singleton]
        exact hp.append (nodup_singleton _) (by simpa using hnew)
      have hassoc : p.functions ++ fn :: fns = p.functions ++ [fn] ++ fns := by simp
      rw [hassoc]
      exact ih { p with functions := p.functions ++ [fn] } hadded

/-- A program is finished if all its functions can be. -/
theorem finish_of_forall {fns : List Func} (globals : List Variable)
    (h : ∀ fn ∈ fns, ∃ fin, fn.finish = .ok fin ∧ fn.Constructed fin) :
    ∃ fins, List.Forall₂ Func.Constructed fns fins ∧
      finish { functions := fns, globals } = .ok { functions := fins, globals } := by
  suffices hall : ∀ done, ∃ fins, List.Forall₂ Func.Constructed fns fins ∧
      fns.foldl finishFunction (none, done) = (none, done ++ fins) by
    obtain ⟨fins, hfins, hfold⟩ := hall []
    refine ⟨fins, hfins, ?_⟩
    simp only [finish, finishAll, hfold, nil_append]
  intro done
  induction fns generalizing done with
  | nil => exact ⟨[], .nil, by simp⟩
  | cons fn fns ih =>
    obtain ⟨fin, hfin, hconstructed⟩ := h fn (mem_cons_self ..)
    have hstep : finishFunction (none, done) fn = (none, done ++ [fin]) := by
      simp only [finishFunction, Func.finish_eq_ok.mp hfin]
    obtain ⟨fins, hfins, hfold⟩ :=
      ih (fun fn' hfn' => h fn' (mem_cons_of_mem fn hfn')) (done ++ [fin])
    refine ⟨fin :: fins, .cons hconstructed hfins, ?_⟩
    rw [foldl_cons, hstep, hfold, append_assoc]
    rfl

/-- Functions are put together to a finished program, unless a name is given twice. -/
theorem ofFunctions_cases (globals : List Variable) {fns : List Func}
    (h : ∀ fn ∈ fns, ∃ fin, fn.finish = .ok fin ∧ fn.Constructed fin) :
    ((fns.map Func.name).Nodup ∧ ∃ fins, List.Forall₂ Func.Constructed fns fins ∧
      ofFunctions globals fns = .ok { functions := fins, globals }) ∨
    ∃ name, 2 ≤ (fns.map Func.name).count name ∧
      ofFunctions globals fns = .error (.fault (.definedTwice name)) := by
  rcases foldlM_addFunction_cases fns { globals } nodup_nil with
    ⟨hnodup, hadded⟩ | ⟨name, hcount, hadded⟩
  · obtain ⟨fins, hfins, hfinish⟩ := finish_of_forall globals h
    refine .inl ⟨by simpa using hnodup, fins, hfins, ?_⟩
    rw [ofFunctions, hadded]
    simp only [nil_append, hfinish]
    rfl
  · refine .inr ⟨name, by simpa using hcount, ?_⟩
    rw [ofFunctions, hadded]
    rfl

end Program

/-! ## Compiling a file -/

variable {lib : Check.Library} {first : Nat} {F : String → Prop} {ds : List Decl} {fn : Func}
  {p : Program} {source : String} {file : Source.File}

theorem Func.LoweredAs.names_eq {names : List String} {fns : List Func}
    (h : List.Forall₂ (fun name fn => fn.LoweredAs name) names fns) :
    fns.map Func.name = names := by
  induction h with
  | nil => rfl
  | cons h _ ih => rw [map_cons, ih, h.name]

/-- The declarations of a checked file are given up as unsupported, or all its functions are lowered
and finished, unless the blank name is given twice. -/
theorem compileDecls_cases (hc : Checked F ds) (first : Nat) :
    (∃ pos what, compileDecls first ds = .error (.unsupported pos what)) ∨
    ∃ o fns, Outline.ofDecls ds = .ok o ∧ o.Covers ds ∧ o.lowerAll first = .ok fns ∧
      List.Forall₂ (fun name fn => fn.LoweredAs name) o.names fns ∧
      ((blankCount ds ≤ 1 ∧ o.names.Nodup ∧ ∃ fins, List.Forall₂ Func.Constructed fns fins ∧
        compileDecls first ds = .ok { functions := fins, globals := o.globals }) ∨
      (2 ≤ blankCount ds ∧ compileDecls first ds = .error (.fault (.definedTwice "_")))) := by
  rcases (Outline.accepts_ofDecls ds).cases with ⟨_, ho, pos, what, rfl⟩ | ⟨o, ho, hcovers⟩
  · exact .inl ⟨pos, what, by rw [compileDecls, ho]; rfl⟩
  rcases (Outline.accepts_lowerAll hc hcovers first).cases with
    ⟨_, hfns, pos, what, rfl⟩ | ⟨fns, hfns, hall, hlowered⟩
  · exact .inl ⟨pos, what, by rw [compileDecls, ho, ok_bind, hfns]; rfl⟩
  have hcompile : compileDecls first ds = Program.ofFunctions o.globals fns := by
    rw [compileDecls, ho, ok_bind, hfns, ok_bind]
  have hconstructed : ∀ fn ∈ fns, ∃ fin, fn.finish = .ok fin ∧ fn.Constructed fin := by
    intro fn hfn
    obtain ⟨i, hi, rfl⟩ := mem_iff_getElem.mp hfn
    exact (hlowered.get (hlowered.length_eq ▸ hi) hi).exists_constructed
  refine .inr ⟨o, fns, ho, hcovers, hfns, hlowered, ?_⟩
  have hcases := Program.ofFunctions_cases o.globals hconstructed
  rw [Func.LoweredAs.names_eq hlowered] at hcases
  rw [hcompile]
  rcases hcases with ⟨hnodup, hok⟩ | ⟨name, htwice, herror⟩
  · refine .inl ⟨?_, hnodup, hok⟩
    rw [← Checked.count_blank hcovers]
    exact nodup_iff_count_le_one.mp hnodup "_"
  · have hblank : name = "_" := by
      by_contra hne
      have hle := hc.count_names_le hcovers hall hne
      omega
    subst hblank
    exact .inr ⟨by rwa [← Checked.count_blank hcovers], herror⟩

/-- The functions of a checked file are lowered, and so is the one that sets up the globals. -/
theorem exists_loweredAs {size : Nat} {o : Outline} (hcheck : file.check lib size = .ok ds)
    (hout : Outline.ofDecls ds = .ok o)
    (hfn : (∃ p ∈ o.functions, o.lowerDecl p = .ok fn) ∨
      o.lower (Lower.initFunction o.initSpecs o.initializers) = .ok fn) :
    ∃ name, fn.LoweredAs name := by
  have hc := Source.File.checked_of_check hcheck
  have hcovers := (Outline.accepts_ofDecls ds).of_eq_ok hout
  rcases hfn with ⟨p, hp, hfn⟩ | hfn
  · rw [hcovers.functions] at hp
    obtain ⟨hmem, hfunc⟩ := mem_of_mem_namedFrom hp
    exact ⟨p.1, ((Outline.accepts_lowerDecl hc p hmem hfunc).of_eq_ok hfn).2⟩
  · exact ⟨_, (o.accepts_lowerInit o.initSpecs o.initializers).of_eq_ok hfn⟩

/-- The functions of a checked file go through all stages, and so does the one that sets up the
globals. -/
theorem finish_of_lowered {size : Nat} {o : Outline} (hcheck : file.check lib size = .ok ds)
    (hout : Outline.ofDecls ds = .ok o)
    (hfn : (∃ p ∈ o.functions, o.lowerDecl p = .ok fn) ∨
      o.lower (Lower.initFunction o.initSpecs o.initializers) = .ok fn) :
    ∃ fin, fn.finish = .ok fin ∧ fin.stage = .numbered := by
  obtain ⟨name, hlowered⟩ := exists_loweredAs hcheck hout hfn
  obtain ⟨fin, hfin, hconstructed⟩ := hlowered.exists_constructed
  exact ⟨fin, hfin, of_decide_eq_true hconstructed.isFinished⟩

/-- A loop that is left early: a block is removed, and phi nodes are placed. -/
theorem finish_of_lowered_search : ∃ fn fin : Func, fn.finish = .ok fin ∧ fin.stage = .numbered ∧
    fin.order.length < fn.canonicalOrder.length ∧ ∃ b ∈ fin.order, (fin.block b).phis ≠ [] := by
  have hsome : (do
      let file ← Source.File.parse? ("package p\nfunc f(n int) int \x7b\ns := 0\nfor n > 0 \x7b\n" ++
        "if n == 3 \x7b\nbreak\n\x7d\ns += n\nn--\n\x7d\nreturn s\n\x7d\n")
      let ds ← (file.check {} 80).toOption
      let o ← (Outline.ofDecls ds).toOption
      let fn ← (o.functions.head? >>= fun p => (o.lowerDecl p).toOption)
      fn.finish.toOption.filter fun (fin : Func) =>
        decide (fin.order.length < fn.canonicalOrder.length ∧
          ∃ b ∈ fin.order, (fin.block b).phis ≠ [])).isSome = true := by decide +kernel
  simp only [Option.isSome_iff_exists, Option.bind_eq_bind, Option.bind_eq_some_iff,
    toOption_eq_some, Option.filter_eq_some_iff, decide_eq_true_eq] at hsome
  obtain ⟨fin, file, -, ds, hcheck, o, hout, fn, ⟨p, hp, hfn⟩, hok, hfewer, hphi⟩ := hsome
  obtain ⟨fin', hfin, hstage⟩ :=
    finish_of_lowered hcheck hout (.inl ⟨p, mem_of_mem_head? hp, hfn⟩)
  obtain rfl := Except.ok.inj (hok.symm.trans hfin)
  exact ⟨fn, fin, hfin, hstage, hfewer, hphi⟩

/-- In the functions of a checked file, as they are lowered and after the removal of blocks, a
variable that a block reads before writing it, or that is live there, is alive in the block and in
all of its parents, and every walk from the entry has met a block before that writes it. -/
theorem supplied_of_lowered {size : Nat} {o : Outline} (hcheck : file.check lib size = .ok ds)
    (hout : Outline.ofDecls ds = .ok o)
    (hfn : (∃ p ∈ o.functions, o.lowerDecl p = .ok fn) ∨
      o.lower (Lower.initFunction o.initSpecs o.initializers) = .ok fn) :
    (∀ b < fn.blocks.size, ∀ v, (fn.block b).awaited.contains v ∨ fn.LiveIn v b →
      fn.Supplied v b) ∧
    ∃ fn', fn.removeRedundantBlocks = .ok fn' ∧ ∀ b ∈ fn'.canonicalOrder, ∀ v,
      (fn'.block b).awaited.contains v ∨ fn'.LiveIn v b → fn'.Supplied v b := by
  obtain ⟨name, hlowered⟩ := exists_loweredAs hcheck hout hfn
  have hr := hlowered.filled.ready hlowered.settled
  obtain ⟨fn', hremoved, hr', -⟩ := Func.exists_removeRedundantBlocks hr
  exact ⟨fun b hb v hv => hr.supplied (hlowered.filled.mem_canonicalOrder hb) hv,
    fn', hremoved, fun b hb v hv => hr'.supplied hb hv⟩

theorem supplied_of_lowered_loop : ∃ (fn fn' : Func) (v : Variable), v.name = "c" ∧
    (fn.block 1).awaited.contains v ∧ fn.Supplied v 1 ∧ fn.removeRedundantBlocks = .ok fn' := by
  have hsome : (do
      let file ← Source.File.parse? "package p\nfunc f(c bool) \x7b\nfor c && c \x7b\n\x7d\n\x7d\n"
      let ds ← (file.check {} 44).toOption
      let o ← (Outline.ofDecls ds).toOption
      let fn ← (o.functions.head? >>= fun p => (o.lowerDecl p).toOption)
      fn.params.head?.filter fun (v : Variable) =>
        v.name = "c" && (fn.block 1).awaited.contains v && 1 < fn.blocks.size).isSome = true := by
    decide +kernel
  simp only [Option.isSome_iff_exists, Option.bind_eq_bind, Option.bind_eq_some_iff,
    toOption_eq_some, Option.filter_eq_some_iff, Bool.and_eq_true, decide_eq_true_eq] at hsome
  obtain ⟨v, file, -, ds, hcheck, o, hout, fn, ⟨p, hp, hfn⟩, -, ⟨hname, hreads⟩, hlt⟩ := hsome
  obtain ⟨hbefore, fn', hremoved, -⟩ :=
    supplied_of_lowered hcheck hout (.inl ⟨p, mem_of_mem_head? hp, hfn⟩)
  exact ⟨fn, fn', v, hname, hreads, hbefore 1 hlt v (.inl hreads), hremoved⟩

/-- What is compiled has been parsed and checked. -/
theorem compile_eq_ok (h : compile lib first source = .ok p) : ∃ file ds,
    Source.File.parse? source = some file ∧ file.check lib source.length = .ok ds ∧
      compileDecls first ds = .ok p := by
  rw [compile] at h
  split at h
  · cases h
  · next file hfile =>
    split at h
    · split at h <;> cases h
    · next ds hds => exact ⟨file, ds, hfile, hds, h⟩

/-- The functions of a program come out of SSA construction. -/
theorem exists_constructed_of_compileDecls (hc : Checked F ds)
    (h : compileDecls first ds = .ok p) :
    ∃ o fns, Outline.ofDecls ds = .ok o ∧ o.Covers ds ∧ o.lowerAll first = .ok fns ∧ o.names.Nodup ∧
      List.Forall₂ (fun name fn => fn.LoweredAs name) o.names fns ∧
      List.Forall₂ Func.Constructed fns p.functions ∧ p.globals = o.globals := by
  rcases compileDecls_cases hc first with ⟨pos, what, herror⟩ |
    ⟨o, fns, ho, hcovers, hfns, hlowered, ⟨-, hnodup, fins, hfins, hok⟩ | ⟨-, herror⟩⟩
  · cases h.symm.trans herror
  · obtain rfl := Except.ok.inj (h.symm.trans hok)
    exact ⟨o, fns, ho, hcovers, hfns, hnodup, hlowered, hfins, rfl⟩
  · cases h.symm.trans herror

/-- The functions of a compiled file are in strict SSA form. -/
theorem strict_of_compile (h : compile lib first source = .ok p) : ∀ fn ∈ p.functions, fn.Strict := by
  obtain ⟨file, ds, -, hcheck, hp⟩ := compile_eq_ok h
  obtain ⟨o, fns, -, -, -, -, -, hfins, -⟩ :=
    exists_constructed_of_compileDecls (Source.File.checked_of_check hcheck) hp
  intro fn hfn
  obtain ⟨i, hi, rfl⟩ := mem_iff_getElem.mp hfn
  exact (hfins.get (hfins.length_eq ▸ hi) hi).strict

theorem strict_of_compile_sum : ∃ p, compile {} 0 ("package p\nfunc sum(n int) int \x7b\n" ++
    "s := 0\nfor n > 0 \x7b\ns += n\nn--\n\x7d\nreturn s\n\x7d\n") = .ok p ∧
    ∀ fn ∈ p.functions, fn.Strict := by
  have hok : (compile {} 0 ("package p\nfunc sum(n int) int \x7b\n" ++
      "s := 0\nfor n > 0 \x7b\ns += n\nn--\n\x7d\nreturn s\n\x7d\n")).toOption.isSome := by
    decide +kernel
  obtain ⟨p, hp⟩ := Option.isSome_iff_exists.mp hok
  have hcompile := toOption_eq_some.mp hp
  exact ⟨p, hcompile, strict_of_compile hcompile⟩

/-- A file that has been parsed and checked is given up as unsupported or compiled to a program all
of whose functions are finished, unless it has two functions with the blank name. -/
theorem compile_of_checked (hparse : Source.File.parse? source = some file)
    (hcheck : file.check lib source.length = .ok ds) :
    (∃ pos what, compile lib first source = .error (.unsupported pos what)) ∨
    (blankCount ds ≤ 1 ∧ ∃ p, compile lib first source = .ok p ∧ ∀ fn ∈ p.functions, fn.isFinished) ∨
    (2 ≤ blankCount ds ∧ compile lib first source = .error (.fault (.definedTwice "_"))) := by
  have hcompile : compile lib first source = compileDecls first ds := by
    simp only [compile, hparse, hcheck]
  rw [hcompile]
  rcases compileDecls_cases (Source.File.checked_of_check hcheck) first with hunsupported |
    ⟨o, fns, -, -, -, -, ⟨hblank, -, fins, hfins, hok⟩ | htwice⟩
  · exact .inl hunsupported
  · refine .inr (.inl ⟨hblank, _, hok, fun fn hfn => ?_⟩)
    obtain ⟨i, hi, rfl⟩ := mem_iff_getElem.mp hfn
    exact (hfins.get (hfins.length_eq ▸ hi) hi).isFinished
  · exact .inr (.inr htwice)

/-- Two functions with the blank name are not put together. -/
theorem compile_blank_twice : compile {} 0 "package p\nfunc _() \x7b\x7d\nfunc _() \x7b\x7d\n" =
    .error (.fault (.definedTwice "_")) := by
  have hsome : (do
      let file ← Source.File.parse? "package p\nfunc _() \x7b\x7d\nfunc _() \x7b\x7d\n"
      let ds ← (file.check {} "package p\nfunc _() \x7b\x7d\nfunc _() \x7b\x7d\n".length).toOption
      if 2 ≤ blankCount ds then some ds else none).isSome = true := by decide +kernel
  have hsupported : (match compile {} 0 "package p\nfunc _() \x7b\x7d\nfunc _() \x7b\x7d\n" with
      | .error (.unsupported _ _) => false
      | _ => true) = true := by decide +kernel
  simp only [Option.isSome_iff_exists, Option.bind_eq_bind, Option.bind_eq_some_iff,
    toOption_eq_some] at hsome
  obtain ⟨ds', file, hparse, ds, hcheck, hblank⟩ := hsome
  rcases @compile_of_checked _ 0 _ _ _ hparse hcheck with ⟨pos, what, herror⟩ | ⟨hle, -⟩ | ⟨-, htwice⟩
  · rw [herror] at hsupported
    cases hsupported
  · rw [if_neg (by omega)] at hblank
    cases hblank
  · exact htwice

end SsaBlocks
