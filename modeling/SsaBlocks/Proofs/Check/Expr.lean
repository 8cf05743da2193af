import SsaBlocks.Proofs.Check.Type

/-!
# Checking expressions

Calls, names, functions in expressions and the bodies of functions. The tree of a body keeps to its
scopes if the trees of its statements do.
-/

set_option mvcgen.warning false

namespace SsaBlocks.Check

open SsaBlocks.Source (Pos Name)
open SsaBlocks.Types
open SsaBlocks.Typed (Expr)
open Std.Do

variable {s₀ : State} {goals : Goals}

attribute [local grind =] Expr.demands Expr.demandsOf
attribute [local grind] constantOperand valueOperand typeOperand BuiltinCall.value
  BuiltinCall.noValue

/-! ## Calls of predeclared functions -/

@[spec] theorem appendCall_spec (c : BuiltinCall) (first : Operand) (rest : List Operand) :
    Gives s₀ (appendCall c first rest) fun y s =>
      s₀.Extends s ∧ y.tree.demands ⊆ c.tree.demands := by
  unfold appendCall
  refine .bind store_spec fun st s₁ hs₁ => .ite ?_ ?_
  · mvcgen
    all_goals grind
  · mvcgen
    all_goals grind

@[spec] theorem copyCall_spec (c : BuiltinCall) (dst src : Operand) :
    Gives s₀ (copyCall c dst src) fun y s => s₀.Extends s ∧ y.tree.demands ⊆ c.tree.demands := by
  mvcgen [copyCall] with grind

@[spec] theorem lengthCall_spec (c : BuiltinCall) (isLen hasCalls : Bool) (x : Operand) :
    Gives s₀ (lengthCall c isLen hasCalls x) fun y s =>
      s₀.Extends s ∧ y.tree.demands ⊆ c.tree.demands := by
  mvcgen [lengthCall] with grind

@[spec] theorem partCall_spec (c : BuiltinCall) (isReal : Bool) (x : Operand) :
    Gives s₀ (partCall c isReal x) fun y s => s₀.Extends s ∧ y.tree.demands ⊆ c.tree.demands := by
  mvcgen [partCall] with grind

@[spec] theorem complexCall_spec (c : BuiltinCall) (x y : Operand) :
    Gives s₀ (complexCall c x y) fun z s => s₀.Extends s ∧ z.tree.demands ⊆ c.tree.demands := by
  mvcgen [complexCall] with grind

@[spec] theorem extremeCall_spec (c : BuiltinCall) (isMax : Bool) (first : Operand)
    (rest : List Operand) : Gives s₀ (extremeCall c isMax first rest) fun y s =>
      s₀.Extends s ∧ y.tree.demands ⊆ c.tree.demands := by
  mvcgen [extremeCall] with grind

@[spec] theorem makeCall_spec (hg : goals.Sound) (env : Env) (c : BuiltinCall)
    (type : Source.Expr) (sizes : List Source.Expr) :
    Gives s₀ (makeCall goals env c type sizes) fun y s =>
      s₀.Extends s ∧ y.tree.demands ⊆ c.tree.demands := by
  mvcgen [makeCall] with grind

@[spec] theorem newCall_spec (hg : goals.Sound) (env : Env) (c : BuiltinCall) (arg : Source.Expr) :
    Gives s₀ (newCall goals env c arg) fun y s =>
      s₀.Extends s ∧ y.tree.demands ⊆ c.tree.demands := by
  mvcgen [newCall] with grind

@[spec] theorem valueCall_spec (c : BuiltinCall) (b : Builtin) (hasCalls : Bool) :
    Gives s₀ (valueCall c b hasCalls) fun y s =>
      s₀.Extends s ∧ y.tree.demands ⊆ c.tree.demands := by
  mvcgen [valueCall] with grind

@[spec] theorem builtinRule_spec (hg : goals.Sound) (env : Env) (pos : Pos) (tree : Expr)
    (b : Builtin) (args : List Source.Expr) (spread : Bool) :
    Gives s₀ (builtinRule goals env pos tree b args spread) fun y s =>
      s₀.Extends s ∧ y.tree.demands ⊆ tree.demands := by
  mvcgen [builtinRule] with grind

/-! ## Calls -/

@[spec] theorem paramsFor_spec (params : List Ty) (variadic spread : Bool) (args : Nat) :
    Gives s₀ (paramsFor params variadic spread args) fun r s =>
      s = s₀ ∧ r.length = args ∧ (variadic = true ∨ params.length = args) := by
  mvcgen [paramsFor] with grind

@[spec] theorem function?_spec (env : Env) (name : String) :
    Gives s₀ (function? env name) fun r s =>
      s = s₀ ∧ ∀ id ∈ r, env.local? name = none ∧ s₀.file.lookup name = some id ∧
      ∃ t, (s₀.objectAt id).entity = some (.func t) := by
  mvcgen [function?] with grind

/-- The tree of a call demands what its arguments demand, and a function of the file. -/
def State.CallsWith (s : State) (env : Env) (callee : Source.Expr) (args : List Expr)
    (tree : Expr) : Prop :=
  ∀ d ∈ tree.demands, d ∈ Expr.demandsOf args ∨
    ∃ name id t, callee.unparen = .ident name ∧ env.local? name.text = none ∧
      s.file.lookup name.text = some id ∧ (s.objectAt id).entity = some (.func t) ∧
      args.any Expr.isRefused = false ∧ d = .func name.text args.length

@[spec] theorem callTree_spec (env : Env) (pos : Pos) (callee : Source.Expr) (results : Nat)
    (spread : Bool) (args : List Expr) :
    Gives s₀ (callTree env pos callee results spread args) fun tree s =>
      s = s₀ ∧ s₀.CallsWith env callee args tree := by
  refine .intro fun Q hQ => ?_
  mvcgen [callTree]
  case vc4.h_1.post.success.isFalse.isFalse.isFalse =>
    next name hname _ hs r hr _ _ _ hfound =>
    subst hs
    obtain ⟨id, rfl⟩ : ∃ id, r = some id := Option.ne_none_iff_exists'.mp (by simpa using hr)
    obtain ⟨hlocal, hid, t, ht⟩ := hfound.2 id rfl
    refine hQ _ _ hfound.1 fun d hd => ?_
    rw [Expr.demands, List.mem_append] at hd
    refine hd.symm.imp_right fun hd => ?_
    cases hany : args.any Expr.isRefused with
    | true => simp [hany] at hd
    | false => exact ⟨name, id, t, hname, hlocal, hid, ht, rfl, by simpa [hany] using hd⟩
  all_goals grind [State.CallsWith]

@[spec] theorem freshArgument_spec (x : Operand) :
    Gives s₀ (freshArgument x) fun r s => s₀.Extends s ∧ r.1.tree = x.tree := by
  mvcgen [freshArgument] with grind

/-- Arguments keep their trees when they are given types. -/
@[spec] theorem callArguments_spec (typeParams : List Nat) (given formal : List Ty)
    (operands : List Operand) : Gives s₀ (callArguments typeParams given formal operands) fun r s =>
      s₀.Extends s ∧ r.2.length = operands.length ∧
      ∀ y ∈ r.2, y.tree ∈ operands.map Operand.tree := by
  have hfresh {s₁ : State} {f : Operand → Check (Operand × List (Nat × Option Ty))} :=
    mapM_spec s₁ (f := f) (l := operands)
      (P := fun r _ => r.1.tree ∈ operands.map Operand.tree) (fun _ _ _ _ => id)
  have hinstance {s₁ : State} {f : Operand → Check Operand} {l : List Operand} :=
    mapM_spec s₁ (f := f) (l := l)
      (P := fun y _ => y.tree ∈ operands.map Operand.tree) (fun _ _ _ _ => id)
  mvcgen [callArguments, hfresh, hinstance]
  case vc3.hf =>
    refine Gives.ite ?_ ?_
    · mvcgen
      all_goals grind
    · mvcgen
      all_goals grind
  all_goals grind

theorem isRefused_severalTree (pos : Pos) (e : Expr) : (severalTree pos e).isRefused := by
  cases e <;> rfl

theorem demands_severalTree (pos : Pos) (e : Expr) : (severalTree pos e).demands = [] := by
  cases e <;> simp [severalTree, Expr.demands]

theorem demands_argTrees {n : Nat} {passed : List Operand} {d : Typed.Demand}
    (h : d ∈ Expr.demandsOf (argTrees n passed)) : ∃ x ∈ passed, d ∈ x.tree.demands := by
  obtain ⟨e, he, hd⟩ := Expr.mem_demandsOf.mp h
  unfold argTrees at he
  split at he
  · obtain ⟨x, hx, rfl⟩ := List.mem_map.mp he
    exact ⟨x, hx, hd⟩
  · obtain ⟨x, -, rfl⟩ := List.mem_map.mp he
    simp [demands_severalTree] at hd

/-- If all arguments are compiled, there are as many as are passed. -/
theorem length_argTrees {n : Nat} {passed : List Operand}
    (h : (argTrees n passed).any Expr.isRefused = false) :
    (argTrees n passed).length = passed.length := by
  unfold argTrees at h ⊢
  split
  · exact List.length_map ..
  · next hn =>
    rw [if_neg hn] at h
    cases passed with
    | nil => rfl
    | cons x passed => simp [isRefused_severalTree] at h

theorem core?_func (s : Store) (params results : List (String × Ty)) (variadic : Bool)
    (typeParams : List Nat) : s.core? (.func params results variadic typeParams) =
      some (.func params results variadic typeParams) := by
  simp [Store.core?, Store.specificTypes, Store.isParam, Store.param?, Store.unalias,
    Store.unaliasUpTo, Store.underlying, Store.underlyingUpTo]

/-- A call passes as many arguments as its function has parameters. -/
theorem callable_of_passed {s s' : State} {env : Env} {callee : Source.Expr} {type t : Ty}
    {params results : List (String × Ty)} {variadic : Bool} {typeParams : List Nat} {store : Store}
    {name : Name} {id : ObjId} {n : Nat} (hs : s.Extends s') (htype : s.FuncType env callee type)
    (hcore : store.core? type = some (.func params results variadic typeParams))
    (hn : variadic = true ∨ params.length = n) (hname : callee.unparen = .ident name)
    (hlocal : env.local? name.text = none) (hid : s'.file.lookup name.text = some id)
    (ht : (s'.objectAt id).entity = some (.func t)) (hsigned : s.Signed) :
    s.Callable name.text n := by
  have hfunc := ((hs.signed hsigned).object id).2 t ht
  rw [hs.pending] at hfunc
  rw [hs.file] at hid
  refine ⟨id, hid, hfunc.imp ?_ fun himported => himported.imp fun _ h => ⟨t, h⟩⟩
  rintro ⟨decl, hdecl⟩
  refine ⟨decl, hdecl, fun hparams hplain => ?_⟩
  obtain ⟨params', results', typeParams', rfl, hlength, -⟩ :=
    htype name id decl hname hlocal hid hdecl hparams hsigned
  rw [core?_func] at hcore
  cases hcore
  rw [← hlength]
  exact hn.resolve_left (by simp [hplain])

/-- What the tree of a call demands is allowed if that of its arguments is. -/
@[grind →] theorem allows_callTree {s s' : State} {env : Env} {callee : Source.Expr} {type : Ty}
    {params results : List (String × Ty)} {variadic : Bool} {typeParams : List Nat} {store : Store}
    {n : Nat} {passed : List Operand} {tree : Expr} (hs : s.Extends s')
    (htype : s.FuncType env callee type)
    (hcore : store.core? type = some (.func params results variadic typeParams))
    (hn : variadic = true ∨ params.length = passed.length)
    (hpassed : ∀ x ∈ passed, ∀ d ∈ x.tree.demands, s.Allows env d)
    (htree : s'.CallsWith env callee (argTrees n passed) tree) :
    ∀ d ∈ tree.demands, s.Allows env d := by
  intro d hd
  obtain hd | ⟨name, id, t, hname, hlocal, hid, ht, hany, rfl⟩ := htree d hd
  · obtain ⟨x, hx, hd⟩ := demands_argTrees hd
    exact hpassed x hx d hd
  · rw [length_argTrees hany]
    exact ⟨callable_of_passed hs htype hcore hn hname hlocal hid ht, nofun⟩

/-- A call of a function that was checked in the state `s`. -/
theorem functionCall_spec {s : State} (hs : s.Extends s₀) (hg : goals.Sound) (env : Env) (pos : Pos)
    {callee : Source.Expr} {type : Ty} (htype : s.FuncType env callee type) (given : List Ty)
    (args : List Source.Expr) (spread : Bool) :
    Gives s₀ (functionCall goals env pos callee type given args spread) fun y s' =>
      s₀.Extends s' ∧ ∀ d ∈ y.tree.demands, s.Allows env d := by
  have hpassed {s₁ : State} {f : Operand × Ty → Check Operand} {l : List (Operand × Ty)} :=
    mapM_spec s₁ (f := f) (l := l)
      (P := fun y _ => ∀ d ∈ y.tree.demands, s.Allows env d) (fun _ _ _ _ => id)
  mvcgen [functionCall, hpassed]
  all_goals grind

@[spec] theorem conversionCall_spec (hg : goals.Sound) (env : Env) (pos : Pos)
    (callee : Source.Expr) (t : Ty) (args : List Source.Expr) (spread : Bool) :
    Gives s₀ (conversionCall goals env pos callee t args spread) fun y s =>
      s₀.Extends s ∧ ∀ d ∈ y.tree.demands, s₀.Allows env d := by
  mvcgen [conversionCall] with grind

@[grind =] theorem demands_otherCallTree (pos : Pos) (callee : Source.Expr) :
    (otherCallTree pos callee).demands = [] := by
  unfold otherCallTree
  split <;> simp [Expr.demands]

@[spec] theorem callRule_spec (hg : goals.Sound) (env : Env) (e callee : Source.Expr)
    (args : List Source.Expr) (spread : Bool) :
    Gives s₀ (callRule goals env e callee args spread) fun y s =>
      s₀.Extends s ∧ ∀ d ∈ y.tree.demands, s₀.Allows env d := by
  refine .intro fun Q hQ => .bind (hg.expr s₀ env none callee) fun (f : Operand) s₁ hf => ?_
  have hcall {s : State} (hs : s = s₁) :=
    functionCall_spec (hs ▸ hf.1) hg env e.pos hf.2.func f.given args spread
  mvcgen [hcall] with grind

/-! ## Bodies -/

/-- Each statement is checked in the surroundings that those before it leave. -/
@[spec] theorem stmts_spec (hg : goals.Sound) (env : Env) (body : List Source.Stmt) :
    Gives s₀ (stmts goals env body) fun r s =>
      s₀.Extends s ∧ (∀ d ∈ Typed.Stmt.demandsOf r.2, s₀.Serves d) ∧
      (∀ Γ, s₀.Admits env Γ → Typed.Stmt.AllScoped Γ r.2) ∧ s.MirrorsAll body r.2 := by
  induction body generalizing env s₀ with
  | nil =>
    refine .pure ⟨.refl s₀, by simp [Typed.Stmt.demandsOf], fun Γ _ => ?_, .nil⟩
    rw [Typed.Stmt.AllScoped]
    trivial
  | cons st body ih =>
    refine .bind (hg.stmt s₀ _ st) fun first s₁ hfirst => ?_
    obtain ⟨hs₁, hleaves, hmirrors⟩ := hfirst
    refine .bind (ih _) fun rest s₂ hrest => ?_
    obtain ⟨hs₂, hserves, hscoped, hmirrorsAll⟩ := hrest
    refine .pure ⟨hs₁.trans hs₂, ?_, fun Γ hΓ => ?_, .cons (hmirrors.mono hs₂) hmirrorsAll⟩
    · rw [Typed.Stmt.demandsOf]
      refine List.forall_mem_append.mpr ⟨hleaves.serves, fun d hd => ?_⟩
      exact hs₁.serves (hserves d hd)
    · obtain ⟨htree, hafter⟩ := hleaves.scopes Γ hΓ.update
      rw [Typed.Stmt.AllScoped]
      exact ⟨htree, fun hrefused => hscoped _ (hafter hrefused).update⟩

/-- The body of a function with results ends in a terminating statement, and so does its tree. -/
@[spec] theorem funcBody_spec (hg : goals.Sound) (head : FuncHead) (body : List Source.Stmt) :
    Gives s₀ (funcBody goals head body) fun trees s =>
      s₀.Extends s ∧ (∀ d ∈ Typed.Stmt.demandsOf trees, s₀.Serves d) ∧
      (∀ Γ, s₀.Admits head.env Γ → Typed.Stmt.AllScoped Γ trees) ∧
      (head.results ≠ [] → Typed.Stmt.endsTerminating trees) := by
  mvcgen [funcBody]
  next results _ _ _ r _ hr _ _ hlabels _ s hends =>
    obtain ⟨rfl, -⟩ := hlabels
    obtain ⟨rfl, hends⟩ := hends
    refine ⟨by grind, by grind, by grind, fun hresults => ?_⟩
    have hbody : endsTerminating s.neverReturns body := by simpa [results, hresults] using hends
    exact hr.2.2.2.ends s (.refl s) hbody

/-! ## Names and literals -/

/-- What a name stands for. Only variables are demanded. -/
theorem Operand.Of.of_ident {x : Operand} {s s' : State} {env : Env} {name : Name} {id : ObjId}
    {e : Entity} (hs : s.Extends s') (hid : s.resolve env name.text = some id)
    (he : (s'.objectAt id).entity = some e)
    (hdemands : ∀ d ∈ x.tree.demands, (∃ t, e = .var t) ∧ d = .var id)
    (hplace : x.isPlace → .var id ∈ x.tree.demands) (hfunc : ∀ t, e = .func t → x.type = t) :
    x.Of s env (.ident name) where
  allows d hd := by
    obtain ⟨⟨t, rfl⟩, rfl⟩ := hdemands d hd
    refine ⟨trivial, fun id' hid' => ?_⟩
    cases hid'
    refine ⟨⟨_, hid⟩, fun hno => ?_⟩
    obtain ⟨-, -, e, he', hvar⟩ := hs.noVar id hno
    exact hvar t (Option.some.inj (he'.symm.trans he))
  place name' id' hname hx hid' := by
    cases hname
    cases hid.symm.trans hid'
    exact hplace hx
  func name' id' decl hname hlocal hfile hdecl hparams hsigned := by
    cases hname
    have hresolve : s.resolve env name.text = some id' := by simp [State.resolve, hlocal, hfile]
    cases hid.symm.trans hresolve
    obtain ⟨t, rfl, ht⟩ := ((hs.signed hsigned).object id).1 decl e ((hs.pending id).trans hdecl) he
    exact hfunc t rfl ▸ ht

/-- A variable has the tree that is given for it, and all else demands nothing. -/
@[spec] theorem entityOperand_spec (env : Env) (pos : Pos) (place other : Expr) (e : Entity)
    (hother : other.demands = []) : Gives s₀ (entityOperand env pos place other e) fun x s => s = s₀ ∧
      ((∃ t, e = .var t) ∧ x.tree = place ∨ ¬ x.isPlace ∧ x.tree.demands = []) ∧
      ∀ t, e = .func t → x.type = t := by
  mvcgen [entityOperand] with grind [Operand.isPlace]

@[spec] theorem identRule_spec (hg : goals.Sound) (env : Env) (name : Name) :
    Gives s₀ (identRule goals env name) fun x s => s₀.Extends s ∧ x.Of s₀ env (.ident name) := by
  refine .bind (lookup?_spec env name.text) fun found s₁ hfound => ?_
  obtain ⟨rfl, rfl⟩ := hfound
  cases hid : s₁.resolve env name.text with
  | none => exact fun _ _ => trivial
  | some id =>
    refine .bind (entity_spec hg id false) fun e s₂ he => ?_
    refine .bind (noteReference_spec env id) fun _ s₃ hs₃ => ?_
    refine .bind (noteUse_spec id) fun _ s₄ hs₄ => ?_
    refine gives_iff.mpr fun x s₅ hrun => ?_
    obtain ⟨rfl, htree, hfunc⟩ := gives_iff.mp (entityOperand_spec env name.pos _ _ e rfl) x s₅ hrun
    refine ⟨(he.1.trans hs₃).trans hs₄, .of_ident he.1 hid he.2 (fun d hd => ?_) (fun hx => ?_) hfunc⟩
    · rcases htree with ⟨hvar, htree⟩ | ⟨-, hsub⟩
      · rw [htree, Expr.demands, List.mem_singleton] at hd
        exact ⟨hvar, hd⟩
      · simp [hsub] at hd
    · rcases htree with ⟨-, htree⟩ | ⟨hplace, -⟩
      · rw [htree, Expr.demands, List.mem_singleton]
      · exact absurd hx hplace

@[spec] theorem memberOrSelector_spec (hg : goals.Sound) (env : Env) (e operand : Source.Expr)
    (field : Name) : Gives s₀ (memberOrSelector goals env e operand field) fun x s =>
      s₀.Extends s ∧ x.tree.demands = [] := by
  refine .intro fun Q hQ => ?_
  mvcgen [memberOrSelector]
  all_goals grind

@[spec] theorem literalRule_spec (hg : goals.Sound) (env : Env) (e : Source.Expr)
    (sig : Source.Signature) (body : List Source.Stmt) :
    Gives s₀ (literalRule goals env e sig body) fun y s => s₀.Extends s ∧ y.tree.demands = [] := by
  mvcgen [literalRule] with grind

/-! ## Operators -/

@[spec] theorem addressRule_spec (pos : Pos) (operand : Source.Expr) (x : Operand) :
    Gives s₀ (addressRule pos operand x) fun y s => s = s₀ ∧ y.tree.demands = x.tree.demands := by
  mvcgen [addressRule] with grind

@[spec] theorem receiveRule_spec (pos : Pos) (x : Operand) :
    Gives s₀ (receiveRule pos x) fun y s => s₀.Extends s ∧ y.tree.demands = x.tree.demands := by
  mvcgen [receiveRule] with grind

@[spec] theorem starRule_spec (e : Source.Expr) (x : Operand) :
    Gives s₀ (starRule e x) fun y s => s₀.Extends s ∧ y.tree.demands = [] := by
  mvcgen [starRule] with grind

@[spec] theorem indexOrInstance_spec (hg : goals.Sound) (env : Env) (e operand : Source.Expr)
    (indices : List Source.Expr) : Gives s₀ (indexOrInstance goals env e operand indices) fun y s =>
      s₀.Extends s ∧ y.tree.demands = [] := by
  refine .intro fun Q hQ => ?_
  mvcgen [indexOrInstance] with grind

/-! ## Expressions -/

theorem exprRule_allows (hg : goals.Sound) (env : Env) (implied : Option Ty) (e : Source.Expr) :
    Gives s₀ (exprRule goals env implied e) fun x s =>
      s₀.Extends s ∧ ∀ d ∈ x.tree.demands, s₀.Allows env d := by
  cases e with
  | _ =>
    mvcgen [exprRule]
    all_goals grind

/-- An expression that is no name. -/
theorem Operand.Of.of_allows {x : Operand} {s : State} {env : Env} {e : Source.Expr}
    (he : ∀ name, e.unparen ≠ .ident name) (hx : ∀ d ∈ x.tree.demands, s.Allows env d) :
    x.Of s env e where
  allows := hx
  place name _ hname := absurd hname (he name)
  func name _ _ hname := absurd hname (he name)

theorem exprRule_spec (hg : goals.Sound) (env : Env) (implied : Option Ty) (e : Source.Expr) :
    Gives s₀ (exprRule goals env implied e) fun x s => s₀.Extends s ∧ x.Of s₀ env e := by
  cases e with
  | ident name => exact identRule_spec hg env name
  | paren pos inner =>
    refine gives_iff.mpr fun x s hrun => ?_
    obtain ⟨hs, hx⟩ := gives_iff.mp (exprOrType_spec hg env inner) x s hrun
    exact ⟨hs, hx.allows, hx.place, hx.func⟩
  | _ =>
    refine gives_iff.mpr fun x s hrun => ?_
    obtain ⟨hs, hx⟩ := gives_iff.mp (exprRule_allows hg env implied _) x s hrun
    exact ⟨hs, .of_allows (fun name => by simp [Source.Expr.unparen]) hx⟩

end SsaBlocks.Check
