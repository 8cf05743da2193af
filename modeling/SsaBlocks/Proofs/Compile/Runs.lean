import SsaBlocks.Proofs.Compile.Demands
import SsaBlocks.Proofs.Meaning.Machine

/-!
# Runs of compiled programs

A finished program does what the functions that it comes from do on variables, up to phi nodes
whose values have not been numbered. On variables no computation meets a fault or an error that
comes from the program and not from its values, so that the machine only meets faults of that kind.
It takes a phi node that asks for the result of another one, for the same variable, which has been
dropped because the variable is not in scope there. A file that imports all members of a package may
call its functions by their names; they are not compiled with it, so such a call finds no function.

## Main results

* `Program.Constructed.tracks`: a finished program does what its functions do on variables
* `closed_of_compile`: the temporaries of compiled functions have been numbered, up to dropped phi
  nodes, and runs only meet faults for these
* `admitted_of_compile`: calls fail for a division by zero, too many active calls or a function that
  has been imported only
-/

namespace SsaBlocks

open SsaBlocks.Flow
open SsaBlocks.Typed

/-! ## Finished programs -/

namespace Func.Constructed

variable {fn fin : Func} {E : EvalFailure → Prop} {C C' : Callee} {args : List Int64}
  (h : fn.Constructed fin)
include h

theorem name : fin.name = fn.name := by
  obtain ⟨clean, start, placed, res, cur, σ, rfl, hclean, hdecided, hedits, -⟩ := h
  have hname : clean.name = (fn.atStage .loadsRemoved).name := by rw [← hedits.eq]
  exact (hdecided.ssaForm hclean).name.trans hname

theorem params : fin.params = fn.params := by
  obtain ⟨clean, start, placed, res, cur, σ, rfl, hclean, hdecided, hedits, -⟩ := h
  have hparams : clean.params = (fn.atStage .loadsRemoved).params := by rw [← hedits.eq]
  exact (hdecided.ssaForm hclean).params.trans hparams

/-- The constructed function does on registers what the function does on variables, up to
excuses. -/
theorem tracks (hE : fin.Excuses E) (hC : Callee.Tracks E C C')
    (hargs : args.length = fn.params.length) (g : Globals) :
    Ending.Tracks E Eq (fn.onVariables.meaning fn C args g)
      (fin.onRegisters.meaning fin C' args g) := by
  obtain ⟨clean, start, placed, res, cur, σ, rfl, hclean, hdecided, hedits, hmeaning⟩ := h
  have hparams : clean.params = (fn.atStage .loadsRemoved).params := by rw [← hedits.eq]
  have hregisters : (cur.numberAll.atStage .numbered).onRegisters = cur.numberAll.onRegisters := rfl
  rw [← hmeaning, meaning_atStage, hregisters]
  exact (hdecided.ssaForm hclean).tracks_meaning hclean ⟨hE.under, hE.unnumbered⟩ hC
    (hargs.trans (congrArg List.length hparams.symm)) g

end Func.Constructed

namespace Program

variable {p p' : Program} {E : EvalFailure → Prop}

/-- The functions of a program have been taken through SSA construction. -/
def Constructed (p p' : Program) : Prop :=
  List.Forall₂ Func.Constructed p.functions p'.functions

/-- What the functions of a program do on variables, if so many calls may be active. -/
noncomputable def variableCalls (p : Program) : Nat → Callee :=
  p.calls fun fn => fn.onVariables.meaning fn

theorem find?_cases {fns fins : List Func} (h : List.Forall₂ Func.Constructed fns fins)
    (name : String) :
    (fns.find? (fun fn => fn.name == name) = none ∧
      fins.find? (fun fn => fn.name == name) = none) ∨
    ∃ fn fin, fns.find? (fun fn => fn.name == name) = some fn ∧
      fins.find? (fun fn => fn.name == name) = some fin ∧ fn.Constructed fin := by
  induction h with
  | nil => exact .inl ⟨rfl, rfl⟩
  | @cons fn fin fns fins h _ ih =>
    rw [List.find?_cons, List.find?_cons, h.name]
    cases fn.name == name with
    | true => exact .inr ⟨fn, fin, rfl, rfl, h⟩
    | false => exact ih

/-- A finished program does what its functions do on variables, up to excuses. -/
theorem Constructed.tracks (h : p.Constructed p') (hE : ∀ fin ∈ p'.functions, fin.Excuses E)
    (depth : Nat) : Callee.Tracks E (p.variableCalls depth) (p'.finishedCalls depth) := by
  refine tracks_calls (fun name => ?_) depth
  rcases find?_cases h name with hnone | ⟨fn, fin, hfn, hfin, hconstructed⟩
  · exact .inl hnone
  · refine .inr ⟨fn, fin, hfn, hfin, hconstructed.params, fun C C' args g hC hargs => ?_⟩
    exact hconstructed.tracks (hE fin (List.mem_of_find?_eq_some hfin)) hC hargs g

/-- A temporary of a phi node has not been numbered. -/
def Unnumbered (p : Program) (e : EvalFailure) : Prop :=
  (∃ k, e = .fault (.temporaryNotNumbered k)) ∧ ∃ fn ∈ p.functions, ¬ fn.PhisNumbered

theorem excuses_unnumbered {fn : Func} (hfn : fn ∈ p.functions) : fn.Excuses p.Unnumbered where
  under e names := by
    rintro ⟨⟨k, rfl⟩, hopen⟩
    exact ⟨⟨k, rfl⟩, hopen⟩
  unnumbered hopen k := ⟨⟨k, rfl⟩, fn, hfn, hopen⟩

end Program

/-! ## Failures -/

/-- The failures that depend on the values that a program computes, and those for functions that have
been imported. -/
inductive EvalFailure.Admitted (F : String → Prop) : EvalFailure → Prop
  | divisionByZero (active : List String) : Admitted F (.error active .divisionByZero)
  | depthExceeded (active : List String) (name : String) :
    Admitted F (.error active (.depthExceeded name))
  | imported (active : List String) (name : String) (h : F name) :
    Admitted F (.error active (.noFunction name))

namespace Ending

variable {α β : Type} {F : String → Prop} {x : Ending α}

/-- The computation fails only for a division by zero, too many active calls or a function that has
been imported. -/
def Admitted (F : String → Prop) (x : Ending α) : Prop :=
  ∀ e g, x = .failed e g → e.Admitted F

namespace Admitted

theorem value (a : α) : Admitted F (.value a) := by simp [Admitted]

theorem never : Admitted F (.never : Ending α) := by simp [Admitted]

theorem failed {e : EvalFailure} (h : e.Admitted F) (g : Globals) :
    Admitted F (.failed e g : Ending α) := by
  intro e' g' heq
  rwa [← (Ending.failed.inj heq).1]

theorem bind (h : Admitted F x) {k : α → Ending β} (hk : ∀ a, x = .value a → Admitted F (k a)) :
    Admitted F (x >>= k) := by
  cases x with
  | value a => exact hk a rfl
  | failed e g => exact failed (h e g rfl) g
  | never => exact never

theorem under (h : Admitted F x) (names : List String) : Admitted F (x.under names) := by
  cases x with
  | value a => exact value a
  | failed e g =>
    refine failed ?_ g
    cases h e g rfl with
    | divisionByZero active => exact .divisionByZero (names ++ active)
    | depthExceeded active name => exact .depthExceeded (names ++ active) name
    | imported active name hF => exact .imported (names ++ active) name hF
  | never => exact never

theorem limit {f : Nat → Ending α} (h : ∀ n, Admitted F (f n)) : Admitted F (Ending.limit f) := by
  rw [Ending.limit]
  split
  · exact h _
  · exact never

end Admitted

end Ending

namespace Func

open Storage

variable {F : String → Prop} {p : Program} {fn : Func} {C : Callee}
  (hC : ∀ name args g, p.Serves F (.func name args.length) → (C name args g).Admitted F)
include hC

/-- An instruction whose demands are met fails as a call does, or divides by zero. -/
theorem admitted_exec (s : Variables) (g : Globals) {inst : Instruction}
    (hinst : ∀ d ∈ inst.demands, p.Serves F d) :
    (fn.onVariables.exec fn C s g inst).Admitted F := by
  cases inst with
  | comment | const | load | store | jump | branch => exact .value _
  | binary op d l r =>
    by_cases hop : op.isComputed
    · have hexec : fn.onVariables.exec fn C s g (.binary op d l r) =
          (.ofHalt fn.name g ((op.evalBinary (s.temps l) (s.temps r)).mapError .cause) >>= fun w =>
            .value (.next, { s with temps := Function.update s.temps d w }, g)) := rfl
      rw [hexec]
      rcases Opcode.evalBinary_of_isComputed hop (s.temps l) (s.temps r) with h | ⟨w, h⟩
      · rw [h]
        exact .failed (.divisionByZero _) g
      · rw [h]
        exact .value _
    · exact (hinst (.op op) (by simp [Instruction.demands, hop])).elim
  | unary op d t =>
    by_cases hop : op = .neg ∨ op = .not
    · rcases hop with rfl | rfl <;> exact .value _
    · exact (hinst (.op op) (by simp [Instruction.demands, hop])).elim
  | call d f args =>
    have hargs : args.mapM (fn.onVariables.get s) = .ok (args.map s.temps) :=
      mapM_eq_map fun _ _ => rfl
    have hserves := hinst (.func f args.length) (by simp [Instruction.demands])
    rw [exec, hargs]
    refine ((hC f (args.map s.temps) g (by simpa using hserves)).under [fn.name]).bind ?_
    rintro ⟨w, g'⟩ -
    cases d <;> exact .value _
  | ret value => cases value <;> exact .value _

theorem admitted_runCode {code : List Instruction}
    (hcode : ∀ i ∈ code, ∀ d ∈ i.demands, p.Serves F d) (s : Variables) (g : Globals) :
    (fn.onVariables.runCode fn C code s g).Admitted F := by
  induction code generalizing s g with
  | nil => exact .value _
  | cons inst code ih =>
    obtain ⟨hinst, hcode⟩ := List.forall_mem_cons.mp hcode
    refine (admitted_exec hC s g hinst).bind ?_
    rintro ⟨move, s', g'⟩ -
    cases move with
    | next => exact ih hcode s' g'
    | goTo target => exact .value _
    | ret w => exact .value _

variable {ps : List Variable} (hr : fn.Ready) (hdemands : fn.DemandsIn (p.Serves F) ps)
include hr hdemands

/-- A block that has no jump at its end has one child to fall through to. -/
theorem admitted_block {n : Nat} {b : BlockId} (hb : b ∈ fn.canonicalOrder)
    (hfollow : ∀ y s g, fn.Edge b y → (fn.onVariables.follow fn C b n y s g).Admitted F)
    (s : Variables) (g : Globals) :
    (fn.onVariables.runBlocks fn C n b (fn.block b).code s g).Admitted F := by
  rw [runBlocks_eq]
  refine (admitted_runCode hC (hdemands.code b) s g).bind ?_
  rintro ⟨move, s', g'⟩ hrun
  obtain ⟨hgoTo, hnext⟩ := hr.exits hb hrun
  cases move with
  | next =>
    obtain ⟨y, hchildren, hedge⟩ := hnext rfl
    simp only [afterCode, hchildren]
    exact hfollow y s' g' hedge
  | goTo target => exact hfollow target s' g' (hgoTo target rfl)
  | ret w => exact .value _

theorem admitted_runBlocks (n : Nat) {b : BlockId} (hb : b ∈ fn.canonicalOrder) (s : Variables)
    (g : Globals) : (fn.onVariables.runBlocks fn C n b (fn.block b).code s g).Admitted F := by
  induction n generalizing b s g with
  | zero => exact admitted_block (n := 0) hC hr hdemands hb (fun _ _ _ _ => .never) s g
  | succ n ih =>
    refine admitted_block hC hr hdemands hb (fun y s' g' hedge => ?_) s g
    rw [follow_succ]
    exact ih (hr.rooted.edge_mem hedge).2 _ g'

theorem admitted_meaning (args : List Int64) (g : Globals) :
    (fn.onVariables.meaning fn C args g).Admitted F :=
  .limit fun n => admitted_runBlocks hC hr hdemands n (canonicalOrder_closed fn).1 _ g

end Func

namespace Program

variable {F : String → Prop} {p : Program}

/-- The functions of the program are ready, and supply what they demand. -/
def Consistent (F : String → Prop) (p : Program) : Prop :=
  ∀ fn ∈ p.functions, fn.Ready ∧ ∃ ps, fn.DemandsIn (p.Serves F) ps

/-- On variables a call that the program serves fails only for a division by zero, too many active
calls or a function that has been imported. -/
theorem Consistent.admitted (h : p.Consistent F) (depth : Nat) (name : String) (args : List Int64)
    (g : Globals) (hserves : p.Serves F (.func name args.length)) :
    (p.variableCalls depth name args g).Admitted F := by
  induction depth generalizing name args g with
  | zero =>
    obtain ⟨fn, hfn, hlength⟩ | ⟨hF, hnone⟩ := hserves
    · simp only [variableCalls, calls, accepting, hfn, hlength, ne_eq, not_true, if_false]
      exact .failed (.depthExceeded [] name) g
    · simp only [variableCalls, calls, accepting, hnone]
      exact .failed (.imported [] name hF) g
  | succ depth ih =>
    obtain ⟨fn, hfn, hlength⟩ | ⟨hF, hnone⟩ := hserves
    case inr =>
      simp only [variableCalls, calls, accepting, hnone]
      exact .failed (.imported [] name hF) g
    simp only [variableCalls, calls, accepting, hfn, hlength, ne_eq, not_true, if_false]
    obtain ⟨hr, ps, hdemands⟩ := h fn (List.mem_of_find?_eq_some hfn)
    exact Func.admitted_meaning ih hr hdemands args g

/-- A call that the program does not serve is refused. -/
theorem refused_of_not_serves {depth : Nat} {name : String} {args : List Int64} {g : Globals}
    (hserves : ¬ p.Serves F (.func name args.length)) :
    ∃ cause, p.variableCalls depth name args g = .failed (.error [] cause) g := by
  have hrefused : ∀ run, ∃ cause, p.accepting name args g run = .failed (.error [] cause) g := by
    intro run
    rw [accepting]
    split
    · exact ⟨_, rfl⟩
    · next fn hfn =>
      rw [if_pos fun hlength => hserves (.inl ⟨fn, hfn, hlength.symm⟩)]
      exact ⟨_, rfl⟩
  cases depth with
  | zero => exact hrefused _
  | succ depth => exact hrefused _

end Program

/-! ## Calls on a machine -/

namespace Machine

variable {m : Machine} {name : String} {args : List Int64}

/-- A call that ends reports what it means. -/
theorem report_call (hfin : ∀ fn ∈ m.program.functions, fn.isFinished)
    (h : (m.call name args).1 ≠ .error .outOfSteps) :
    (m.program.finishedCalls maxDepth name args m.globals).report? =
      some ((m.call name args).1, (m.call name args).2.globals) := by
  have hends : EndsIn m.program stepLimit (startCall m.program [] m.globals name args none) := h
  exact report_of_endsIn hfin hends

/-- A call that fails has met a phi node whose value has not been numbered, or it fails on variables
as well. -/
theorem failed_or_unnumbered {p : Program} (h : p.Constructed m.program) {e : EvalFailure}
    (hcall : (m.call name args).1 = .error e) (hsteps : e ≠ .outOfSteps) :
    m.program.Unnumbered e ∨ ∃ g, p.variableCalls maxDepth name args m.globals = .failed e g := by
  have hfin : ∀ fin ∈ m.program.functions, fin.isFinished := by
    intro fin hfin
    obtain ⟨i, hi, rfl⟩ := List.mem_iff_getElem.mp hfin
    exact (List.Forall₂.get h (h.length_eq ▸ hi) hi).isFinished
  have hreport := report_call hfin (by rw [hcall]; simpa using hsteps)
  rw [hcall] at hreport
  have hends : ∃ g, m.program.finishedCalls maxDepth name args m.globals = .failed e g := by
    cases hcalls : m.program.finishedCalls maxDepth name args m.globals <;>
      simp_all [Ending.report?]
  obtain ⟨g, hends⟩ := hends
  have htracks := h.tracks (fun fin hfin => Program.excuses_unnumbered hfin) maxDepth name args
    m.globals
  rcases htracks.eq_or_excused with heq | ⟨e', g', heq, hexcused⟩
  · exact .inr ⟨g, heq.symm.trans hends⟩
  · obtain ⟨rfl, -⟩ := Ending.failed.inj (hends.symm.trans heq)
    exact .inl hexcused

end Machine

/-! ## Numbered temporaries -/

namespace Func

variable {fn fin : Func} {b : BlockId}

/-- The temporary is the result of the phi node that was placed for the variable in the block. The
node has been dropped, since the variable is not in scope there. -/
def DroppedAt (fn : Func) (v : Variable) (x : BlockId) (t : Temp) : Prop :=
  (fn.block x).pending.get? v = some t ∧ fn.inScope v x = false

/-- The numbered temporaries are the parameters and the results of phi nodes and instructions.
Operands are among them, and so are the values of phi nodes, up to the results of nodes that have
been dropped. -/
structure Closed (fn : Func) : Prop where
  numbered : ∀ t, (fn.tempIndex? t).isSome ↔ t ∈ fn.definedTemps
  operands : ∀ b ∈ fn.order, ∀ i ∈ (fn.block b).code, ∀ t ∈ i.operands, t ∈ fn.definedTemps
  edges : ∀ b ∈ fn.order, ∀ n ∈ (fn.block b).phis, ∀ e ∈ n.edges, e.2 ∈ fn.definedTemps ∨
    ∃ x ∈ fn.order, Reachable fn.Edge x e.1 ∧ fn.DroppedAt n.var x e.2

namespace Decided

variable {start placed res cur : Func} {σ : Temp → Temp}
  (h : fn.Decided start placed res cur σ)
include h

theorem curInScope : cur.inScope = fn.inScope := by
  have halive : ∀ b, (cur.block b).alive = (fn.block b).alive := by
    intro b
    rw [← h.resAlive, h.blockPhis]
    split <;> rfl
  have hparents : ∀ b, (cur.block b).parents = (fn.block b).parents := by
    intro b
    rw [← h.sameShape.parents, ← h.resShape.parents, h.blockPhis]
    split <;> rfl
  funext v b
  simp only [inScope, halive, hparents]

/-- The edges of a phi node come from the blocks before it. -/
theorem edge_of_mem_edges {n : Phi} (hn : n ∈ res.keptPhis b) {e : BlockId × Temp}
    (he : e ∈ n.edges) : fn.Edge e.1 b ∧ e.2 = res.valueOut n.var e.1 := by
  obtain ⟨v, d, -, -, rfl⟩ := h.mem_keptPhis.mp hn
  obtain ⟨p, hp, rfl⟩ := List.mem_map.mp he
  refine ⟨?_, rfl⟩
  rw [← h.resEdge, Graph.Edge]
  simpa using (sortByKey_perm _ _).mem_iff.mp hp

theorem closed_numberAll (hr : fn.Ready) : cur.numberAll.Closed where
  numbered t := h.isSome_index hr.toFresh
  operands b hb i hi t ht := by
    have hindex := ((h.strict hr).index b hb i hi t ht).imp fun _ => And.left
    exact (h.isSome_index hr.toFresh).mp (Option.isSome_iff_exists.mpr hindex)
  edges b hb n hn e he := by
    have hmem : b ∈ fn.canonicalOrder := h.curOrder ▸ hb
    have hn : n ∈ res.keptPhis b := by rwa [← h.curPhis hmem]
    obtain ⟨hedge, hvalue⟩ := h.edge_of_mem_edges hn he
    obtain ⟨-, -, hnode⟩ := h.node_spec hr hmem hn
    obtain ⟨u, hu, -⟩ := hnode e.1 hedge
    have hp := (hr.rooted.edge_mem hedge).1
    rw [hvalue, h.valueOut_eq hr.rooted hp hu]
    refine (h.out_mem_definedTemps hr hp hu).imp_right ?_
    rintro ⟨x, hx, hreach, hpending, hscope⟩
    refine ⟨x, h.curOrder.symm ▸ hx, ?_, ?_, ?_⟩
    · exact h.curEdge.symm ▸ hreach
    · have hcur : (cur.block x).pending = (placed.block x).pending := by
        rw [h.curBlock hx]
        rfl
      rw [← hpending, ← hcur]
      rfl
    · have hcur : cur.inScope n.var x = false := by
        rw [h.curInScope]
        exact Bool.eq_false_iff.mpr hscope
      exact hcur

end Decided

theorem Constructed.closed (h : fn.Constructed fin) : fin.Closed := by
  obtain ⟨clean, start, placed, res, cur, σ, rfl, hclean, hdecided, -⟩ := h
  obtain ⟨hnumbered, hoperands, hedges⟩ := hdecided.closed_numberAll hclean
  exact ⟨hnumbered, hoperands, hedges⟩

end Func

variable {lib : Check.Library} {first : Nat} {source : String} {p : Program}

/-- A compiled program comes from functions that supply what they demand. -/
theorem exists_consistent_of_compile (h : compile lib first source = .ok p) :
    ∃ file, Source.File.parse? source = some file ∧
      ∃ q : Program, q.Constructed p ∧ q.Consistent (file.Borrows lib) := by
  obtain ⟨file, ds, hfile, hcheck, hp⟩ := compile_eq_ok h
  have hc := Source.File.checked_of_check hcheck
  obtain ⟨o, fns, -, ho, hfns, hnodup, hlowered, hfins, -⟩ :=
    exists_constructed_of_compileDecls hc hp
  refine ⟨file, hfile, ⟨fns, o.globals⟩, hfins, fun fn hfn => ⟨?_, ?_⟩⟩
  · obtain ⟨i, hi, rfl⟩ := List.mem_iff_getElem.mp hfn
    have has := hlowered.get (hlowered.length_eq ▸ hi) hi
    exact has.filled.ready has.settled
  · rw [← Func.LoweredAs.names_eq hlowered] at hnodup
    exact Outline.demandsIn_of_lowerAll hc ho hfns hnodup o.globals hfn

/-- The operands of compiled functions have been numbered, and so have the values of phi nodes, up
to the results of nodes that have been dropped. Calls meet no faults but those of phi nodes whose
values have not been numbered. -/
theorem closed_of_compile (h : compile lib first source = .ok p) :
    (∀ fn ∈ p.functions, fn.Closed) ∧
    ∀ g name args f, ((Machine.mk p g).call name args).1 = .error (.fault f) →
      (∃ k, f = .temporaryNotNumbered k) ∧ ∃ fn ∈ p.functions, ¬ fn.PhisNumbered := by
  obtain ⟨file, hfile, q, hq, hconsistent⟩ := exists_consistent_of_compile h
  constructor
  · intro fin hfin
    obtain ⟨i, hi, rfl⟩ := List.mem_iff_getElem.mp hfin
    exact (List.Forall₂.get hq (hq.length_eq ▸ hi) hi).closed
  · intro g name args f hcall
    rcases Machine.failed_or_unnumbered (m := ⟨p, g⟩) hq hcall (by simp) with
      ⟨⟨k, hk⟩, hopen⟩ | ⟨g', hfailed⟩
    · exact ⟨⟨k, by simpa using hk⟩, hopen⟩
    · by_cases hserves : q.Serves (file.Borrows lib) (.func name args.length)
      · cases hconsistent.admitted _ name args g hserves _ _ hfailed
      · obtain ⟨cause, hrefused⟩ := Program.refused_of_not_serves hserves
        cases hrefused.symm.trans hfailed

/-- A loop that can be left from the scope of a variable. -/
def leavingScope : String :=
  "package p\nfunc f(c, d bool) int \x7b\nfor \x7b\nif c \x7b\nx := 1\nif d \x7b\nbreak\n\x7d\n" ++
    "_ = x\n\x7d\nbreak\n\x7d\nreturn 7\n\x7d\n"

/-- After a loop that is left from the scope of a variable, the phi node for the variable asks for
one that has been dropped, and calls meet it. -/
theorem closed_of_compile_leavingScope : ∃ p, compile {} 0 leavingScope = .ok p ∧
    (∀ fn ∈ p.functions, fn.Closed) ∧ (∃ fn ∈ p.functions, ¬ fn.PhisNumbered) ∧
    ((Machine.mk p .empty).call "f" [0, 0]).1 = .error (.fault (.temporaryNotNumbered 7)) := by
  have hok : ((compile {} 0 leavingScope).toOption.filter fun p =>
      ((Machine.mk p .empty).call "f" [0, 0]).1 =
        .error (.fault (.temporaryNotNumbered 7))).isSome = true := by decide +kernel
  obtain ⟨p, hp⟩ := Option.isSome_iff_exists.mp hok
  obtain ⟨hcompile, hcall⟩ := Option.filter_eq_some_iff.mp hp
  have hcompile := toOption_eq_some.mp hcompile
  have hcall := of_decide_eq_true hcall
  obtain ⟨hclosed, hfaults⟩ := closed_of_compile hcompile
  exact ⟨p, hcompile, hclosed, (hfaults _ _ _ _ hcall).2, hcall⟩

end SsaBlocks
