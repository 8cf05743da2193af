import SsaBlocks.Lower.Function
import SsaBlocks.Proofs.Relabel.Stages

/-!
# Lowering and the supply of variable numbers

The numbers of a function's variables come from a supply that is shared with other functions, so
they depend on what else is lowered at the same time. All that is known of them is that a variable
made later gets a larger number. Lowering with any such supply gives the function that lowering
with the numbers 0, 1, 2 and so on gives, renumbered, and so does construction after it.

## Main results

* `Lower.carries_stmt`, `Lower.carries_job`: lowering carries every supply
* `Lower.outcome_independent_of_supply`: two supplies lead to the same function up to numbers
-/

namespace SsaBlocks.Lower

open SsaBlocks.Source (Pos)
open SsaBlocks.Typed

variable {r : Nat → Nat} {α β γ : Type}

/-- The state with the numbers of its variables replaced. -/
def State.relabel (r : Nat → Nat) (s : State) : State :=
  { s with
    fn := s.fn.relabel r
    bindings := s.bindings.map fun e => (e.1, e.2.relabel r) }

theorem lookup_relabel (s : State) (id : VarId) :
    (s.relabel r).bindings.lookup id = (s.bindings.lookup id).map (·.relabel r) := by
  rw [State.relabel]
  induction s.bindings with
  | nil => rfl
  | cons e bindings ih =>
    obtain ⟨k, v⟩ := e
    simp only [List.map_cons, List.lookup_cons, ih]
    cases id == k <;> rfl

/-- The step `m'` does with the supply `r` what `m` does when variables are numbered from zero. -/
def Carries (r : Nat → Nat) (φ : α → β) (m : Lower α) (m' : Lower β) : Prop :=
  ∀ globals s, m' { globals, supply := r } (s.relabel r) =
    (m { globals, supply := id } s).map (Prod.map φ (State.relabel r))

namespace Carries

theorem pure {φ : α → β} (a : α) : Carries r φ (Pure.pure a) (Pure.pure (φ a)) :=
  fun _ _ => rfl

theorem unsupported {φ : α → β} (pos : Pos) (what : String) :
    Carries r φ (Lower.unsupported pos what) (Lower.unsupported pos what) :=
  fun _ _ => rfl

theorem bind {α' β' : Type} {φ : α → α'} {ψ : β → β'} {m : Lower α} {m' : Lower α'}
    {k : α → Lower β} {k' : α' → Lower β'} (h : Carries r φ m m')
    (hk : ∀ a, Carries r ψ (k a) (k' (φ a))) : Carries r ψ (m >>= k) (m' >>= k') := by
  intro globals s
  have happly : ∀ {α β : Type} (m : Lower α) (k : α → Lower β) c s,
      (m >>= k) c s = (m c s) >>= fun p => k p.1 c p.2 := fun _ _ _ _ => rfl
  rw [happly, happly, h]
  exact map_bind_hom (Prod.map φ (State.relabel r)) (Prod.map ψ (State.relabel r))
    fun p => hk p.1 globals p.2

theorem map {f : α → β} {m m' : Lower α} (h : Carries r id m m') :
    Carries r id (f <$> m) (f <$> m') := by
  intro globals s
  have happly : ∀ (m : Lower α) c s, (f <$> m) c s = (m c s) >>= fun p => .ok (f p.1, p.2) :=
    fun _ _ _ => rfl
  rw [happly, happly, h]
  exact map_bind_hom (Prod.map id (State.relabel r)) (Prod.map id (State.relabel r)) fun p => rfl

theorem forM {f f' : γ → Lower PUnit} (h : ∀ a, Carries r id (f a) (f' a)) (l : List γ) :
    Carries r id (l.forM f) (l.forM f') := by
  induction l with
  | nil => exact .pure PUnit.unit
  | cons a l ih => exact (h a).bind fun _ => ih

/-- Goes on unless something is not supported. -/
theorem supported {p : Prop} [Decidable p] {k k' : PUnit → Lower β} {pos : Pos} {what : String}
    (hk : Carries r id (k ⟨⟩) (k' ⟨⟩)) :
    Carries r id (if p then (Lower.unsupported pos what >>= k) else k ⟨⟩)
      (if p then (Lower.unsupported pos what >>= k') else k' ⟨⟩) := by
  split
  · exact fun _ _ => rfl
  · exact hk

theorem build {φ : α → β} {p : Build α} {p' : Build β} (h : Build.Relabels r φ p p') :
    Carries r φ (Lower.build p) (Lower.build p') := by
  intro globals s
  have happly : ∀ {α : Type} (p : Build α) c s,
      Lower.build p c s = (((p s.fn).1.mapError Failure.fault).map fun a =>
        (a, { s with fn := (p s.fn).2 })) := by
    intro α p c s
    have hbind : ∀ {β : Type} (k : State → Lower β),
        (MonadState.get >>= k : Lower β) c s = k s c s := fun _ => rfl
    rw [Lower.build, hbind]
    rcases p s.fn with ⟨_ | _, _⟩ <;> rfl
  rw [happly, happly]
  have hfn : (s.relabel r).fn = s.fn.relabel r := rfl
  rw [hfn, h s.fn]
  rcases p s.fn with ⟨_ | _, _⟩ <;> rfl

theorem build_bind {α' β' : Type} {φ : α → α'} {ψ : β → β'} {p : Build α} {p' : Build α'}
    {k : α → Lower β} {k' : α' → Lower β'} (h : Build.Relabels r φ p p')
    (hk : ∀ a, Carries r ψ (k a) (k' (φ a))) :
    Carries r ψ (Lower.build p >>= k) (Lower.build p' >>= k') :=
  (build h).bind hk

theorem get {φ : α → β} {k : State → Lower α} {k' : State → Lower β}
    (hk : ∀ s, Carries r φ (k s) (k' (s.relabel r))) :
    Carries r φ (MonadState.get >>= k) (MonadState.get >>= k') :=
  fun globals s => hk s globals s

theorem read {φ : α → β} {k : Context → Lower α} {k' : Context → Lower β}
    (hk : ∀ globals, Carries r φ (k { globals, supply := id }) (k' { globals, supply := r })) :
    Carries r φ (MonadReader.read >>= k) (MonadReader.read >>= k') :=
  fun globals s => hk globals globals s

end Carries

theorem carries_valueType (pos : Pos) (type : SourceType) :
    Carries r id (valueType pos type) (valueType pos type) := by
  cases type with
  | value t => exact .pure t
  | other text => exact .unsupported _ _

theorem carries_newVariable (name : String) (kind : VarKind) (type : ValueType) :
    Carries r (Variable.relabel r) (newVariable name kind type) (newVariable name kind type) :=
  fun _ _ => rfl

theorem carries_bind (id : VarId) (v : Variable) :
    Carries r (fun u => u) (bind id v) (bind id (v.relabel r)) :=
  fun _ _ => rfl

section Order

variable (hr : StrictMono r)
include hr

theorem carries_declare (b : BlockId) (binder : Binder) (value : Temp) :
    Carries r id (declare b binder value) (declare b binder value) := by
  refine (carries_valueType _ _).bind fun type => (carries_newVariable _ _ _).bind fun v => ?_
  exact (carries_bind _ v).bind fun _ => .build (Build.relabels_declare hr b v value)

theorem carries_assign (b : BlockId) (target : Target) (value : Temp) :
    Carries r id (assign b target value) (assign b target value) := by
  cases target with
  | blank => exact .pure ()
  | declare binder => exact carries_declare hr b binder value
  | var pos name id =>
    refine .get fun s => .read fun globals => ?_
    rw [lookup_relabel]
    cases s.bindings.lookup id with
    | some v => exact .build (Build.relabels_write hr b v value)
    | none =>
      cases globals.lookup id with
      | some g => exact .build (Build.relabels_add b _)
      | none => exact .unsupported _ _
  | unsupported pos what => exact .unsupported _ _

/-! ## Expressions -/

theorem carries_logical (op : Logical) (context : BlockId) (left : Temp)
    {second : BlockId → Lower (Temp × BlockId)} (h : ∀ b, Carries r id (second b) (second b)) :
    Carries r id (logical op context left second) (logical op context left second) := by
  have hcount : Carries r id (modify fun s => { s with logicals := s.logicals + 1 } : Lower PUnit)
      (modify fun s => { s with logicals := s.logicals + 1 }) := fun _ _ => rfl
  refine hcount.bind fun _ => .get fun s => ?_
  refine (carries_newVariable _ _ _).bind fun result => ?_
  refine .build_bind (Build.relabels_add context _) fun _ => ?_
  refine .build_bind (Build.relabels_newBlock hr _) fun elseStart => ?_
  refine .build_bind (Build.relabels_newBlock hr _) fun thenStart => ?_
  refine .build_bind (Build.relabels_add context _) fun _ => ?_
  refine .build_bind (Build.relabels_const _ _ _) fun settled => ?_
  refine .build_bind (Build.relabels_declare hr _ _ _) fun _ => ?_
  refine (h _).bind fun right => ?_
  refine .build_bind (Build.relabels_declare hr _ _ _) fun _ => ?_
  refine .build_bind (Build.relabels_newBlock hr _) fun join => ?_
  refine .build_bind (Build.relabels_add _ _) fun _ => ?_
  exact .build_bind (Build.relabels_read hr _ _) fun t => .pure _

end Order

mutual

theorem carries_expr (hr : StrictMono r) (e : Expr) (b : BlockId) :
    Carries r id (expr b e) (expr b e) := by
  cases e with
  | const pos type value =>
    rw [expr]
    exact (carries_valueType _ _).bind fun type =>
      .build_bind (Build.relabels_const b type value) fun t => .pure _
  | var pos name id =>
    rw [expr]
    refine .get fun s => .read fun globals => ?_
    rw [lookup_relabel]
    cases s.bindings.lookup id with
    | some v => exact .build_bind (Build.relabels_read hr b v) fun t => .pure _
    | none =>
      cases globals.lookup id with
      | some g => exact .build_bind (Build.relabels_define b _) fun t => .pure _
      | none => exact .unsupported _ _
  | unary pos op operand =>
    rw [expr]
    refine (carries_expr hr operand b).bind fun r => ?_
    obtain ⟨t, b⟩ := r
    cases op with
    | plus => exact .pure _
    | neg | not => exact .build_bind (Build.relabels_define b _) fun t => .pure _
    | other text => exact .unsupported _ _
  | binary op left right =>
    rw [expr]
    refine (carries_expr hr left b).bind fun r => ?_
    obtain ⟨l, b⟩ := r
    refine (carries_expr hr right b).bind fun r => ?_
    exact .build_bind (Build.relabels_define _ _) fun t => .pure _
  | logical op left right =>
    rw [expr]
    refine (carries_expr hr left b).bind fun r => ?_
    exact carries_logical hr op _ _ fun b => carries_expr hr right b
  | convert pos type operand =>
    rw [expr]
    exact (carries_valueType _ _).map.bind fun _ => carries_expr hr operand b
  | call callee args =>
    rw [expr]
    refine (carries_exprs hr args b).bind fun r => ?_
    exact .build_bind (Build.relabels_define _ _) fun t => .pure _
  | unsupported pos what =>
    rw [expr]
    exact .unsupported _ _

theorem carries_exprs (hr : StrictMono r) (es : List Expr) (b : BlockId) :
    Carries r id (exprs b es) (exprs b es) := by
  cases es with
  | nil =>
    rw [exprs]
    exact .pure _
  | cons e rest =>
    rw [exprs]
    refine (carries_expr hr e b).bind fun r => ?_
    exact (carries_exprs hr rest _).bind fun r => .pure _

end

/-! ## Statements -/

section Order

variable (hr : StrictMono r)
include hr

theorem carries_varSpec (b : BlockId) (spec : VarSpec) :
    Carries r id (varSpec b spec) (varSpec b spec) := by
  rw [varSpec]
  cases spec.values with
  | none =>
    refine (Carries.forM (fun binder => ?_) _).bind fun _ => .pure b
    cases binder with
    | none => exact .pure ()
    | some binder =>
      refine (carries_valueType _ _).bind fun type => ?_
      exact .build_bind (Build.relabels_const b type 0) fun t =>
        carries_declare hr b binder t
  | some values =>
    refine (carries_exprs hr values b).bind fun r => .supported ?_
    refine (Carries.forM (fun e => ?_) _).bind fun _ => .pure _
    obtain ⟨binder, t⟩ := e
    cases binder with
    | none => exact .pure ()
    | some binder => exact carries_declare hr _ binder t

theorem carries_varSpecs (specs : List VarSpec) (b : BlockId) :
    Carries r id (varSpecs b specs) (varSpecs b specs) := by
  induction specs generalizing b with
  | nil => exact .pure b
  | cons spec rest ih => exact (carries_varSpec hr b spec).bind fun b => ih b

theorem carries_joinBranches (elseEnd thenEnd : Option BlockId) :
    Carries r id (joinBranches elseEnd thenEnd) (joinBranches elseEnd thenEnd) := by
  have hnew : ∀ parents, Carries r id (build (.newBlock parents)) (build (.newBlock parents)) :=
    fun parents => .build (Build.relabels_newBlock hr parents)
  match elseEnd, thenEnd with
  | some elseEnd, some thenEnd =>
    refine (hnew _).bind fun join => ?_
    exact .build_bind (Build.relabels_add elseEnd _) fun _ => .pure _
  | some b, none => exact (hnew _).map
  | none, some b => exact (hnew _).map
  | none, none => exact .pure none

omit hr in
theorem carries_sendTo (target : BlockId) (sources : List BlockId) :
    Carries r id (sendTo target sources) (sendTo target sources) :=
  .forM (fun b => .build_bind (Build.relabels_add b _) fun _ =>
    .build (Build.relabels_addEdge b target)) sources

theorem carries_postBlock (sources : List BlockId) :
    Carries r id (postBlock sources) (postBlock sources) := by
  rw [postBlock]
  cases sources.getLast? with
  | none => exact .pure none
  | some owner =>
    refine .build_bind (Build.relabels_newBlock hr [owner]) fun post => ?_
    refine .build_bind (Build.relabels_add post _) fun _ => ?_
    refine .build_bind (Build.relabels_add owner _) fun _ => ?_
    exact (carries_sendTo post _).bind fun _ => .pure _

theorem carries_leaveLoop (sources : List BlockId) (after : Option BlockId) :
    Carries r id (leaveLoop after sources) (leaveLoop after sources) := by
  induction sources generalizing after with
  | nil =>
    rw [leaveLoop]
    exact .pure after
  | cons b rest ih =>
    cases after with
    | none =>
      refine .build_bind (Build.relabels_newBlock hr [b]) fun after => ?_
      exact .build_bind (Build.relabels_add b _) fun _ => ih _
    | some after =>
      refine .build_bind (Build.relabels_addEdge b after) fun _ => ?_
      exact .build_bind (Build.relabels_add b _) fun _ => ih _

theorem carries_loopHead (header : BlockId) (cond : Option Expr) :
    Carries r id (loopHead header cond) (loopHead header cond) := by
  cases cond with
  | none =>
    rw [loopHead]
    exact .build_bind (Build.relabels_newBlock hr _) fun bodyStart => .pure _
  | some cond =>
    rw [loopHead]
    refine (carries_expr hr cond header).bind fun r => ?_
    refine .build_bind (Build.relabels_define _ _) fun negated => ?_
    refine .build_bind (Build.relabels_newBlock hr _) fun bodyStart => ?_
    refine .build_bind (Build.relabels_newBlock hr _) fun after => ?_
    exact .build_bind (Build.relabels_add _ _) fun _ => .pure _

end Order

mutual

theorem carries_stmt (hr : StrictMono r) (s : Stmt) (inLoop : Bool) (b : BlockId) :
    Carries r id (stmt inLoop b s) (stmt inLoop b s) := by
  cases s with
  | empty =>
    rw [stmt]
    exact .pure _
  | block body =>
    rw [stmt]
    exact carries_stmts hr body inLoop _
  | call callee args =>
    rw [stmt]
    refine (carries_exprs hr args b).bind fun r => ?_
    exact (Carries.build (Build.relabels_call _ callee true _)).map.bind fun _ => .pure _
  | vars specs =>
    rw [stmt]
    exact (carries_varSpecs hr specs b).bind fun b => .pure _
  | assign targets values =>
    rw [stmt]
    refine (carries_exprs hr values b).bind fun r => ?_
    refine (Carries.forM (fun e => ?_) _).bind fun _ => .pure _
    exact carries_assign hr _ e.1 e.2
  | update target current op operand =>
    rw [stmt]
    refine (carries_expr hr current b).bind fun r => ?_
    refine (carries_expr hr operand r.2).bind fun r => ?_
    refine .build_bind (Build.relabels_define _ _) fun after => ?_
    exact (carries_assign hr _ target after).bind fun _ => .pure _
  | ret value =>
    cases value with
    | none =>
      rw [stmt]
      exact .build_bind (Build.relabels_add b _) fun _ => .pure _
    | some value =>
      rw [stmt]
      refine (carries_expr hr value b).bind fun r => ?_
      exact .build_bind (Build.relabels_add _ _) fun _ => .pure _
  | ifThen init cond body otherwise =>
    rw [stmt]
    refine (carries_stmt hr init inLoop b).bind fun start => ?_
    obtain ⟨_ | b, breaks, continues⟩ := start
    · exact .pure _
    refine (carries_expr hr cond b).bind fun r => ?_
    refine .build_bind (Build.relabels_add _ _) fun _ => ?_
    refine .build_bind (Build.relabels_newBlock hr _) fun elseStart => ?_
    refine .build_bind (Build.relabels_newBlock hr _) fun thenStart => ?_
    refine .build_bind (Build.relabels_add _ _) fun _ => ?_
    refine (carries_stmts hr body inLoop _).bind fun thenFlow => ?_
    refine (carries_stmt hr otherwise inLoop _).bind fun elseFlow => ?_
    exact (carries_joinBranches hr _ _).bind fun next => .pure _
  | loop init cond post body =>
    rw [stmt]
    refine (carries_stmt hr init inLoop b).bind fun start => ?_
    obtain ⟨_ | b, breaks, continues⟩ := start
    · exact .pure _
    refine .build_bind (Build.relabels_newBlock hr _) fun header => ?_
    refine .build_bind (Build.relabels_add _ _) fun _ => ?_
    refine (carries_loopHead hr header cond).bind fun head => ?_
    refine (carries_stmts hr body true _).bind fun flow => ?_
    refine (carries_loopPost hr post header flow).bind fun bodyEnd => ?_
    cases bodyEnd with
    | none => exact (carries_leaveLoop hr _ _).bind fun next => .pure _
    | some last =>
      refine .build_bind (Build.relabels_add _ _) fun _ => ?_
      refine .build_bind (Build.relabels_addEdge _ _) fun _ => ?_
      exact (carries_leaveLoop hr _ _).bind fun next => .pure _
  | leave pos | again pos =>
    rw [stmt]
    exact .supported (.pure _)
  | unsupported pos what =>
    rw [stmt]
    exact .unsupported _ _

theorem carries_loopPost (hr : StrictMono r) (post : Option Stmt) (header : BlockId) (flow : Flow) :
    Carries r id (loopPost header post flow) (loopPost header post flow) := by
  cases post with
  | none =>
    rw [loopPost]
    exact (carries_sendTo header _).bind fun _ => .pure _
  | some post =>
    rw [loopPost]
    refine (carries_postBlock hr _).bind fun start => ?_
    cases start with
    | none => exact .pure _
    | some start => exact (carries_stmt hr post false start).bind fun flow => .pure _

theorem carries_stmts (hr : StrictMono r) (body : List Stmt) (inLoop : Bool) (b : Option BlockId) :
    Carries r id (stmts inLoop b body) (stmts inLoop b body) := by
  match b, body with
  | none, _ =>
    rw [stmts]
    exact .pure _
  | some b, [] =>
    rw [stmts]
    exact .pure _
  | some b, s :: rest =>
    rw [stmts]
    refine (carries_stmt hr s inLoop b).bind fun first => ?_
    exact (carries_stmts hr rest inLoop _).bind fun flow => .pure _

end

/-! ## Functions -/

theorem carries_param (p : Param) : Carries r (Variable.relabel r) (param p) (param p) := by
  refine (carries_valueType _ _).bind fun type => (carries_newVariable _ _ _).bind fun v => ?_
  exact (carries_bind _ v).bind fun _ => .pure v

theorem carries_params (params : List Param) :
    Carries r (List.map (Variable.relabel r)) (params.mapM param) (params.mapM param) := by
  induction params with
  | nil => exact .pure []
  | cons p params ih =>
    rw [List.mapM_cons]
    exact (carries_param p).bind fun v => ih.bind fun vs => .pure (v :: vs)

theorem carries_resultType (result : Result) :
    Carries r id (resultType result) (resultType result) := by
  cases result with
  | void => exact .pure _
  | value pos type => exact carries_valueType pos type
  | unsupported pos what => exact .unsupported _ _

section Order

variable (hr : StrictMono r)
include hr

theorem carries_start (name : String) (params : List Variable) (type : ValueType) :
    Carries r id (start name params type) (start name (params.map (·.relabel r)) type) := by
  intro globals s
  have happly : ∀ params c (s : State),
      start name params type c s = .ok ((), { s with fn := Func.make name params type }) :=
    fun _ _ _ => rfl
  rw [happly, happly, Func.make_relabel hr]
  rfl

omit hr in
theorem carries_finishBody (f : Function) (next : Option BlockId) :
    Carries r id (finishBody f next) (finishBody f next) := by
  cases next with
  | none => exact .pure _
  | some b =>
    refine .get fun s => ?_
    exact .supported (.build (Build.relabels_add b _))

theorem carries_function (name : String) (f : Function) :
    Carries r id (function name f) (function name f) := by
  refine (carries_params f.params).bind fun params => ?_
  refine (carries_resultType f.result).bind fun type => ?_
  refine (carries_start hr name params type).bind fun _ => ?_
  exact (carries_stmts hr f.body false _).bind fun flow => carries_finishBody f _

theorem carries_initSpec (b : BlockId) (spec : VarSpec) :
    Carries r id (initSpec b spec) (initSpec b spec) := by
  refine (carries_exprs hr _ b).bind fun r => .supported ?_
  refine (Carries.forM (fun e => ?_) _).bind fun _ => .pure _
  obtain ⟨binder, t⟩ := e
  cases binder with
  | none => exact .pure ()
  | some binder => exact carries_assign hr _ _ t

theorem carries_initSpecs (specs : List VarSpec) (b : BlockId) :
    Carries r id (initSpecs b specs) (initSpecs b specs) := by
  induction specs generalizing b with
  | nil => exact .pure b
  | cons spec rest ih => exact (carries_initSpec hr b spec).bind fun b => ih b

theorem carries_initFunction (specs : List VarSpec) (initializers : Nat) :
    Carries r id (initFunction specs initializers) (initFunction specs initializers) := by
  refine (carries_start hr _ [] .void).bind fun _ => ?_
  refine (carries_initSpecs hr specs entry).bind fun b => ?_
  refine (Carries.forM (fun i => ?_) _).bind fun _ => .build (Build.relabels_add b _)
  exact (Carries.build (Build.relabels_call b _ true [])).map

end Order

/-! ## Lowering and construction -/

/-- What is lowered: a function of the source, or the one that sets up the globals. -/
inductive Job
  | function (name : String) (f : Function)
  | init (specs : List VarSpec) (initializers : Nat)

/-- The steps of lowering. -/
def Job.lowering : Job → Lower Unit
  | function name f => Lower.function name f
  | init specs initializers => initFunction specs initializers

/-- A failure without the text of a variable. -/
def Failure.anonymous : Failure → Failure
  | fault f => fault f.anonymous
  | unsupported pos what => unsupported pos what

/-- Lowers a function and takes it through all stages of construction. -/
def outcome (globals : Bindings) (supply : Nat → Nat) (job : Job) : Except Failure Func := do
  let fn ← run globals supply job.lowering
  fn.finish.mapError .fault

theorem carries_job (hr : StrictMono r) (job : Job) : Carries r id job.lowering job.lowering := by
  cases job with
  | function name f => exact carries_function hr name f
  | init specs initializers => exact carries_initFunction hr specs initializers

theorem Carries.run {l : Lower Unit} (h : Carries r id l l) (hr : StrictMono r)
    (globals : Bindings) : run globals r l = (run globals id l).map (Func.relabel r) := by
  have hstart : ({ fn := Func.make "" [] .void } : State).relabel r =
      { fn := Func.make "" [] .void } := by
    rw [State.relabel, ← Func.make_relabel hr]
    rfl
  have hrun := h globals { fn := Func.make "" [] .void }
  rw [hstart] at hrun
  rw [Lower.run, Lower.run, hrun]
  cases l { globals, supply := id } { fn := Func.make "" [] .void } <;> rfl

theorem mapError_of_agree {φ : α → β} {x : Except Fault α} {y : Except Fault β} (h : Agree φ x y) :
    (y.mapError Failure.fault).mapError Failure.anonymous =
      ((x.mapError Failure.fault).mapError Failure.anonymous).map φ := by
  cases h with
  | ok a => rfl
  | error h => exact congrArg (fun f => Except.error (Failure.fault f)) h

/-- A supply gives the function that numbers from zero give, renumbered. -/
theorem outcome_relabel (globals : Bindings) (hr : StrictMono r) (job : Job) :
    (outcome globals r job).mapError Failure.anonymous =
      ((outcome globals id job).mapError Failure.anonymous).map (Func.relabel r) := by
  rw [outcome, outcome, (carries_job hr job).run hr]
  cases Lower.run globals id job.lowering with
  | error e => rfl
  | ok fn => exact mapError_of_agree (Func.agree_finish hr fn)

/-- Two increasing supplies of variable numbers lead to the same function, or the same failure, up
to the numbers: `ρ` takes those of one supply to those of the other. The listings are the same. -/
theorem outcome_independent_of_supply (globals : Bindings) (job : Job) {f g ρ : Nat → Nat}
    (hf : StrictMono f) (hg : StrictMono g) (hρ : ρ ∘ f = g) :
    (outcome globals g job).mapError Failure.anonymous =
        ((outcome globals f job).mapError Failure.anonymous).map (Func.relabel ρ) ∧
      ((outcome globals g job).mapError Failure.anonymous).map Func.listing =
        ((outcome globals f job).mapError Failure.anonymous).map Func.listing := by
  rw [outcome_relabel globals hf, outcome_relabel globals hg, ← hρ]
  cases (outcome globals id job).mapError Failure.anonymous with
  | error e => exact ⟨rfl, rfl⟩
  | ok fn =>
    refine ⟨congrArg Except.ok (Func.relabel_relabel f ρ fn).symm, congrArg Except.ok ?_⟩
    rw [Func.listing_relabel, Func.listing_relabel]

/-- Counts up to a bound, with a second variable in the body of the loop. -/
def counting : Job :=
  .function "count"
    { name := "count"
      params := [{ typePos := default, name := "n", id := 0, type := .value .int }]
      result := .value default (.value .int)
      bodyPos := default
      body := [
        .assign [.declare ⟨default, "i", 1, .value .int⟩] [.const default (.value .int) 0],
        .loop .empty (some (.binary .lt (.var default "i" 1) (.var default "n" 0))) none
          [.assign [.declare ⟨default, "step", 2, .value .int⟩] [.const default (.value .int) 1],
            .assign [.var default "i" 1]
              [.binary .add (.var default "i" 1) (.var default "step" 2)]],
        .ret (some (.var default "i" 1))] }

theorem counting_independent_of_supply :
    ∃ fin fin', outcome [] (· + 1) counting = .ok fin ∧ outcome [] (2 * · + 5) counting = .ok fin' ∧
      fin.vars.map (·.id) = [1, 2, 3] ∧ fin'.vars.map (·.id) = [5, 7, 9] ∧
      fin' = fin.relabel (2 * · + 3) ∧ fin'.listing = fin.listing := by
  have hsame := outcome_independent_of_supply [] counting (f := (· + 1)) (g := (2 * · + 5))
    (ρ := (2 * · + 3)) (fun a b h => by simpa using h) (fun a b h => by simpa using h) (by
      funext n
      simp only [Function.comp_apply]
      omega)
  have hids : (outcome [] (· + 1) counting).toOption.map (·.vars.map (·.id)) = some [1, 2, 3] := by
    decide +kernel
  have hids' : (outcome [] (2 * · + 5) counting).toOption.map (·.vars.map (·.id)) =
      some [5, 7, 9] := by
    decide +kernel
  cases hfin : outcome [] (· + 1) counting with
  | error e => simp [hfin, Except.toOption] at hids
  | ok fin =>
    cases hfin' : outcome [] (2 * · + 5) counting with
    | error e => simp [hfin', Except.toOption] at hids'
    | ok fin' =>
      rw [hfin] at hids hsame
      rw [hfin'] at hids' hsame
      exact ⟨fin, fin', rfl, rfl, Option.some.inj hids, Option.some.inj hids',
        Except.ok.inj hsame.1, Except.ok.inj hsame.2⟩

end SsaBlocks.Lower
