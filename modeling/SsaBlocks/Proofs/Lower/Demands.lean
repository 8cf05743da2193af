import Mathlib
import SsaBlocks.Proofs.Lower.Function
import SsaBlocks.Proofs.Typed.Demands

/-!
# What lowered code demands

An instruction demands what the machine must know to execute it: the operation, or a function that
takes as many arguments as it is given. Lowering puts no demands into the code of a function that
its tree does not have.
-/

set_option mvcgen.warning false

namespace SsaBlocks

open SsaBlocks.Source (Pos)
open SsaBlocks.Typed
open Std.Do

/-- What an instruction relies on. -/
def Instruction.demands : Instruction → List Demand
  | .binary op _ _ _ => if op.isComputed then [] else [.op op]
  | .unary op _ _ => if op = .neg ∨ op = .not then [] else [.op op]
  | .call _ callee args => [.func callee args.length]
  | .comment _ | .const .. | .load .. | .store .. | .jump _ | .branch .. | .ret _ => []

/-- A function with the parameters `ps` whose code demands only what is in `D`. -/
structure Func.DemandsIn (D : Demand → Prop) (ps : List Variable) (fn : Func) : Prop where
  params : fn.params = ps
  code : ∀ b, ∀ i ∈ (fn.block b).code, ∀ d ∈ i.demands, D d

variable {D : Demand → Prop} {ps : List Variable}

/-! ## Primitives -/

namespace Func.DemandsIn

variable {fn : Func} (h : fn.DemandsIn D ps)
include h

theorem modify {b : BlockId} {f : Block → Block}
    (hf : ∀ i ∈ (f (fn.block b)).code, i ∈ (fn.block b).code ∨ ∀ d ∈ i.demands, D d) :
    (fn.modify b f).DemandsIn D ps := by
  refine ⟨h.params, fun c i hi => ?_⟩
  by_cases hc : b = c
  · subst hc
    by_cases hb : b < fn.blocks.size
    · rw [block_modify_self hb] at hi
      exact (hf i hi).elim (h.code b i) id
    · rw [Graph.block_of_size_le (by simpa using hb)] at hi
      cases hi
  · rw [block_modify_ne hc] at hi
    exact h.code c i hi

theorem append {inst : Instruction} (hinst : ∀ d ∈ inst.demands, D d) (b : BlockId) :
    (fn.append b inst).DemandsIn D ps := by
  refine h.modify fun i hi => (List.mem_append.mp hi).imp_right fun hi => ?_
  rwa [List.mem_singleton.mp hi]

theorem addTemp (b : BlockId) : (fn.addTemp b).DemandsIn D ps :=
  ⟨h.params, h.code⟩

theorem addBlock (parents : List BlockId) : (fn.addBlock parents).DemandsIn D ps := by
  refine foldl_invariant (fun _ (cur : Func) => cur.DemandsIn D ps) ⟨h.params, fun b i hi => ?_⟩
    fun _ p _ cur _ hcur => (hcur.modify fun _ => .inl).modify fun _ => .inl
  rw [block_push] at hi
  split at hi
  · cases hi
  · exact h.code b i hi

end Func.DemandsIn

/-- The primitive keeps the demands of a function within `D`. -/
def Build.Emits (D : Demand → Prop) (ps : List Variable) {α : Type} (step : Build α) : Prop :=
  ∀ fn : Func, fn.DemandsIn D ps → (step fn).2.DemandsIn D ps

namespace Build

@[grind ←] theorem emits_newBlock (parents : List BlockId) : Emits D ps (newBlock parents) := by
  intro fn h
  rw [newBlock_apply]
  split
  · exact h
  · exact h.addBlock parents

@[grind ←] theorem emits_addEdge (s t : BlockId) : Emits D ps (addEdge s t) :=
  fun _ h => (h.modify fun _ => .inl).modify fun _ => .inl

@[grind ←] theorem emits_add {inst : Instruction} (hinst : ∀ d ∈ inst.demands, D d)
    (b : BlockId) : Emits D ps (add b inst) := by
  intro fn h
  rw [add_apply]
  split
  · exact h
  · exact h.append hinst b

@[grind ←] theorem emits_define {inst : Temp → Instruction}
    (hinst : ∀ t, ∀ d ∈ (inst t).demands, D d) (b : BlockId) : Emits D ps (define b inst) := by
  intro fn h
  rw [define_apply]
  split
  · exact h.addTemp b
  · exact (h.addTemp b).append (hinst _) b

/-- A call whose result is not used. -/
@[grind ←] theorem emits_call {callee : String} {args : List Temp}
    (h : D (.func callee args.length)) (b : BlockId) : Emits D ps (call b callee true args) := by
  intro fn hfn
  have hinst : ∀ d ∈ (Instruction.call none callee args).demands, D d := by
    simpa [Instruction.demands]
  have hadd : ((add b (.call none callee args)) fn).2.DemandsIn D ps := emits_add hinst b fn hfn
  rw [call_apply, if_pos rfl]
  split <;> simp_all

@[grind ←] theorem emits_const (b : BlockId) (type : ValueType) (w : Int64) :
    Emits D ps (const b type w) := by
  intro fn h
  rw [const_apply]
  split
  · exact h
  · split
    · exact h.addTemp b
    · exact ((h.addTemp b).append (by simp [Instruction.demands]) b).modify fun _ => .inl

@[grind ←] theorem emits_declare (b : BlockId) (v : Variable) (t : Temp) :
    Emits D ps (declare b v t) :=
  fun _ h => h.modify fun _ => .inl

@[grind ←] theorem emits_write (b : BlockId) (v : Variable) (t : Temp) :
    Emits D ps (write b v t) :=
  fun _ h => h.modify fun _ => .inl

@[grind ←] theorem emits_read (b : BlockId) (v : Variable) : Emits D ps (read b v) := by
  intro fn h
  rw [read_apply]
  split
  · exact h
  · exact h
  · exact (h.addTemp b).modify fun _ => .inl

end Build

namespace Lower

variable {α β : Type}

/-! ## Steps of lowering -/

/-- The step keeps the demands of the function within `D`. -/
abbrev Emits (D : Demand → Prop) (ps : List Variable) (m : Lower α) : Prop :=
  ⦃fun _ s => ⌜s.fn.DemandsIn D ps⌝⦄ m ⦃⇓? _ _ s => ⌜s.fn.DemandsIn D ps⌝⦄

/-- A triple is about the runs that succeed. -/
theorem triple_iff {m : Lower α} {P : State → Prop} {Q : α → State → Prop} :
    ⦃fun _ s => ⌜P s⌝⦄ m ⦃⇓? a _ s => ⌜Q a s⌝⦄ ↔
      ∀ c s a s', P s → m c s = .ok (a, s') → Q a s' := by
  have hwp : ∀ c s, (wp⟦m⟧ (⇓? a _ s => ⌜Q a s⌝) c s).down ↔
      ∀ a s', m c s = .ok (a, s') → Q a s' := by
    intro c s
    change (wp⟦m c s⟧ (⇓? r => ⌜Q r.1 r.2⌝)).down ↔ _
    cases m c s with
    | error e => exact ⟨fun _ _ _ h => (by cases h), fun _ => trivial⟩
    | ok r => exact ⟨fun h _ _ hr => (by cases hr; exact h), fun h => h r.1 r.2 rfl⟩
  exact ⟨fun h c s a s' hP => (hwp c s).mp (h c s hP) a s',
    fun h c s hP => (hwp c s).mpr fun a s' => h c s a s' hP⟩

@[spec] theorem emits_build {step : Build α} (h : Build.Emits D ps step) :
    Emits D ps (build step) := by
  refine triple_iff.mpr fun c s a s' hs hrun => ?_
  have hget : (get : Lower State) c s = .ok (s, s) := rfl
  have hstep := h s.fn hs
  rw [build, Ensures.bind_apply, hget, ok_bind] at hrun
  rcases heq : step s.fn with ⟨r, fn⟩
  simp only [heq] at hrun hstep
  cases r with
  | ok a₁ =>
    cases hrun
    exact hstep
  | error f => cases hrun

@[spec] theorem unsupported_spec (pos : Pos) (what : String) :
    ⦃fun _ _ => ⌜True⌝⦄ (unsupported pos what : Lower α) ⦃⇓? _ _ _ => ⌜False⌝⦄ :=
  triple_iff.mpr fun _ _ _ _ _ h => by cases h

@[spec] theorem emits_forM {f : β → Lower PUnit} {l : List β} (h : ∀ a ∈ l, Emits D ps (f a)) :
    Emits D ps (l.forM f) := by
  induction l with
  | nil => mvcgen
  | cons a l ih =>
    obtain ⟨ha, hl⟩ := List.forall_mem_cons.mp h
    have hl := ih hl
    mvcgen [List.forM, ha, hl]

theorem discard_eq (m : Lower α) : discard m = m >>= fun _ => pure () := rfl

attribute [local grind] Build.comment Build.jump Build.branch Build.ret Build.unary Build.binary
  Build.load Build.store Build.boolConst Instruction.demands Expr.isRefused Expr.demands

@[spec] theorem emits_declare (b : BlockId) (binder : Binder) (t : Temp) :
    Emits D ps (declare b binder t) := by
  mvcgen [declare, valueType, newVariable, Lower.bind] with grind

@[spec] theorem emits_assign (b : BlockId) (target : Target) (t : Temp) :
    Emits D ps (assign b target t) := by
  mvcgen [assign] with grind

/-! ## Expressions -/

theorem emits_logical (op : Logical) (b : BlockId) (t : Temp)
    {second : BlockId → Lower (Temp × BlockId)} (h : ∀ b, Emits D ps (second b)) :
    Emits D ps (logical op b t second) := by
  mvcgen [logical, newVariable, h] with grind

mutual

theorem emits_expr (ps : List Variable) (e : Expr) (he : ∀ d ∈ e.demands, D d) (b : BlockId) :
    ⦃fun _ s => ⌜s.fn.DemandsIn D ps⌝⦄ expr b e
    ⦃⇓? _ _ s => ⌜s.fn.DemandsIn D ps ∧ e.isRefused = false⌝⦄ := by
  cases e with
  | const | var | unsupported =>
    mvcgen [expr, valueType]
    all_goals grind
  | unary pos op operand =>
    have hoperand := emits_expr ps operand he
    mvcgen [expr, hoperand]
    all_goals grind
  | binary op left right =>
    have hleft := emits_expr ps left fun d hd => he d (by simp [Expr.demands, hd])
    have hright := emits_expr ps right fun d hd => he d (by simp [Expr.demands, hd])
    mvcgen [expr, hleft, hright]
    all_goals grind
  | logical op left right =>
    have hleft := emits_expr ps left fun d hd => he d (by simp [Expr.demands, hd])
    have hright := emits_expr ps right fun d hd => he d (by simp [Expr.demands, hd])
    mvcgen [expr, hleft, emits_logical, hright]
    all_goals grind
  | convert pos type operand =>
    have hoperand := emits_expr ps operand he
    simp only [expr, discard_eq]
    mvcgen [valueType, hoperand]
    all_goals grind
  | call callee args =>
    have hargs := emits_exprs ps args fun d hd => he d (by simp [Expr.demands, hd])
    mvcgen [expr, hargs]
    all_goals grind

/-- No expression of the list is refused, so that a call of a function demands the function. -/
theorem emits_exprs (ps : List Variable) (es : List Expr) (hes : ∀ d ∈ Expr.demandsOf es, D d)
    (b : BlockId) :
    ⦃fun _ s => ⌜s.fn.DemandsIn D ps⌝⦄ exprs b es
    ⦃⇓? r _ s => ⌜s.fn.DemandsIn D ps ∧ r.1.length = es.length ∧ es.any Expr.isRefused = false⌝⦄ := by
  cases es with
  | nil => mvcgen [exprs]
  | cons e rest =>
    simp only [Expr.demandsOf, List.forall_mem_append] at hes
    have he := emits_expr ps e hes.1
    have hrest := emits_exprs ps rest hes.2
    mvcgen [exprs, he, hrest]
    all_goals grind

end

/-! ## Statements -/

theorem emits_varSpec (ps : List Variable) (spec : VarSpec)
    (h : ∀ d ∈ Expr.demandsOf (spec.values.getD []), D d) (b : BlockId) :
    Emits D ps (varSpec b spec) := by
  obtain ⟨pos, binders, values⟩ := spec
  cases values with
  | none =>
    mvcgen [varSpec, valueType]
    all_goals grind
  | some values =>
    have hvalues := emits_exprs ps values h
    mvcgen [varSpec, hvalues]
    all_goals grind

theorem emits_varSpecs (ps : List Variable) (specs : List VarSpec)
    (h : ∀ spec ∈ specs, ∀ d ∈ Expr.demandsOf (spec.values.getD []), D d) (b : BlockId) :
    Emits D ps (varSpecs b specs) := by
  induction specs generalizing b with
  | nil => mvcgen [varSpecs]
  | cons spec rest ih =>
    obtain ⟨hspec, hrest⟩ := List.forall_mem_cons.mp h
    have hspec := emits_varSpec ps spec hspec
    have hrest := ih hrest
    mvcgen [varSpecs, hspec, hrest]

theorem emits_joinBranches (x y : Option BlockId) : Emits D ps (joinBranches x y) := by
  mvcgen [joinBranches] with grind

theorem emits_sendTo (target : BlockId) (sources : List BlockId) :
    Emits D ps (sendTo target sources) := by
  mvcgen [sendTo] with grind

theorem emits_postBlock (sources : List BlockId) : Emits D ps (postBlock sources) := by
  mvcgen [postBlock, emits_sendTo] with grind

theorem emits_leaveLoop (breaks : List BlockId) (after : Option BlockId) :
    Emits D ps (leaveLoop after breaks) := by
  induction breaks generalizing after with
  | nil => mvcgen [leaveLoop]
  | cons b rest ih =>
    cases after
    all_goals mvcgen [leaveLoop, ih]
    all_goals grind

theorem emits_loopHead (ps : List Variable) (cond : Option Expr)
    (h : ∀ d ∈ Expr.demandsOf cond.toList, D d) (header : BlockId) :
    Emits D ps (loopHead header cond) := by
  cases cond with
  | none =>
    mvcgen [loopHead]
    all_goals grind
  | some cond =>
    have hcond := emits_expr ps cond fun d hd => h d (by simp [Expr.demandsOf, hd])
    mvcgen [loopHead, hcond]
    all_goals grind

mutual

theorem emits_stmt (ps : List Variable) (st : Stmt) (h : ∀ d ∈ st.demands, D d) (inLoop : Bool)
    (b : BlockId) : Emits D ps (stmt inLoop b st) := by
  cases st with
  | empty | leave | again | unsupported =>
    mvcgen [stmt]
    all_goals grind
  | block body =>
    rw [stmt]
    exact emits_stmts ps body h inLoop (some b)
  | call callee args =>
    have hargs := emits_exprs ps args fun d hd => h d (by simp [Stmt.demands, Expr.demands, hd])
    simp only [stmt, discard_eq]
    mvcgen [hargs]
    all_goals grind [Stmt.demands]
  | vars specs =>
    have hspecs := emits_varSpecs ps specs fun spec hspec d hd =>
      h d (List.mem_flatMap.mpr ⟨spec, hspec, hd⟩)
    mvcgen [stmt, hspecs]
  | assign targets values =>
    have hvalues := emits_exprs ps values h
    mvcgen [stmt, hvalues]
    all_goals grind
  | update target current op operand =>
    have hcurrent := emits_expr ps current fun d hd => h d (by simp [Stmt.demands, Expr.demands, hd])
    have hoperand := emits_expr ps operand fun d hd => h d (by simp [Stmt.demands, Expr.demands, hd])
    mvcgen [stmt, hcurrent, hoperand]
    all_goals grind [Stmt.demands]
  | ret value =>
    cases value with
    | none =>
      mvcgen [stmt]
      all_goals grind
    | some value =>
      have hvalue := emits_expr ps value fun d hd => h d (by simp [Stmt.demands, Expr.demandsOf, hd])
      mvcgen [stmt, hvalue]
      all_goals grind
  | ifThen init cond body otherwise =>
    simp only [Stmt.demands, List.forall_mem_append] at h
    have hinit := emits_stmt ps init h.1
    have hcond := emits_expr ps cond h.2.1
    have hbody := emits_stmts ps body h.2.2.1
    have hotherwise := emits_stmt ps otherwise h.2.2.2
    mvcgen [stmt, hinit, hcond, hbody, hotherwise, emits_joinBranches]
    all_goals grind
  | loop init cond post body =>
    simp only [Stmt.demands, List.forall_mem_append] at h
    have hinit := emits_stmt ps init h.1
    have hcond := emits_loopHead ps cond h.2.1
    have hpost := emits_loopPost ps post h.2.2.1
    have hbody := emits_stmts ps body h.2.2.2
    mvcgen [stmt, hinit, hcond, hpost, hbody, emits_leaveLoop]
    all_goals grind

theorem emits_loopPost (ps : List Variable) (post : Option Stmt)
    (h : ∀ d ∈ Stmt.postDemands post, D d) (header : BlockId) (flow : Flow) :
    Emits D ps (loopPost header post flow) := by
  cases post with
  | none => mvcgen [loopPost, emits_sendTo]
  | some post =>
    have hpost := emits_stmt ps post h
    mvcgen [loopPost, emits_postBlock, hpost]

theorem emits_stmts (ps : List Variable) (l : List Stmt) (h : ∀ d ∈ Stmt.demandsOf l, D d)
    (inLoop : Bool) (start : Option BlockId) : Emits D ps (stmts inLoop start l) := by
  cases start with
  | none => mvcgen [stmts]
  | some b =>
    cases l with
    | nil => mvcgen [stmts]
    | cons first rest =>
      simp only [Stmt.demandsOf, List.forall_mem_append] at h
      have hfirst := emits_stmt ps first h.1
      have hrest := emits_stmts ps rest h.2
      mvcgen [stmts, hfirst, hrest]

end

/-! ## Functions -/

theorem params_spec (l : List Param) :
    ⦃fun _ _ => ⌜True⌝⦄ l.mapM param
    ⦃⇓? vs _ _ => ⌜vs.length = l.length ∧ ∀ p ∈ l, ∀ text, p.type ≠ .other text⌝⦄ := by
  induction l with
  | nil => exact triple_iff.mpr fun _ _ _ _ _ h => by cases h; simp
  | cons p rest ih =>
    rw [List.mapM_cons]
    mvcgen [param, valueType, newVariable, Lower.bind, ih]
    all_goals grind

@[grind ←] theorem demandsIn_make (name : String) (ps : List Variable) (type : ValueType) :
    (Func.make name ps type).DemandsIn D ps := by
  refine ⟨rfl, fun b i hi => ?_⟩
  rw [(Func.block_make_contents name ps type b).1] at hi
  cases hi

theorem emits_finishBody (f : Function) (next : Option BlockId) :
    Emits D ps (finishBody f next) := by
  cases next with
  | none => mvcgen [finishBody]
  | some b =>
    have hret : Build.Emits D ps (Build.ret b none) :=
      Build.emits_add (by simp [Instruction.demands]) b
    mvcgen [finishBody]
    exact fun _ _ _ => hret

theorem emits_function (name : String) (f : Function) (h : ∀ d ∈ Stmt.demandsOf f.body, D d) :
    ⦃fun _ _ => ⌜True⌝⦄ function name f
    ⦃⇓? _ _ s => ⌜∃ ps, s.fn.DemandsIn D ps ∧ ps.length = f.params.length ∧
      ∀ p ∈ f.params, ∀ text, p.type ≠ .other text⌝⦄ := by
  have hbody := fun ps => emits_stmts ps f.body h
  have hend := fun ps => @emits_finishBody D ps f
  mvcgen [function, params_spec, resultType, valueType, Lower.start, hbody, hend]
  all_goals first
    | exact demandsIn_make _ _ _
    | exact fun hs => ⟨_, hs, ‹_›⟩

theorem emits_initSpecs (ps : List Variable) (specs : List VarSpec)
    (h : ∀ spec ∈ specs, ∀ d ∈ Expr.demandsOf (spec.values.getD []), D d) (b : BlockId) :
    Emits D ps (initSpecs b specs) := by
  induction specs generalizing b with
  | nil => mvcgen [initSpecs]
  | cons spec rest ih =>
    obtain ⟨hspec, hrest⟩ := List.forall_mem_cons.mp h
    have hvalues := emits_exprs ps (spec.values.getD []) hspec
    have hrest := ih hrest
    mvcgen [initSpecs, initSpec, hvalues, hrest]
    all_goals grind

theorem emits_initFunction (specs : List VarSpec) (initializers : Nat)
    (h : ∀ spec ∈ specs, ∀ d ∈ Expr.demandsOf (spec.values.getD []), D d)
    (hcalls : ∀ i < initializers, D (.func (initializerName (i + 1)) 0)) :
    ⦃fun _ _ => ⌜True⌝⦄ initFunction specs initializers ⦃⇓? _ _ s => ⌜s.fn.DemandsIn D []⌝⦄ := by
  have hspecs := emits_initSpecs [] specs h
  simp only [initFunction, discard_eq]
  mvcgen [Lower.start, hspecs]
  all_goals grind

end Lower

end SsaBlocks
