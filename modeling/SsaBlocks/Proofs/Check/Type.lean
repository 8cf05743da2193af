import SsaBlocks.Proofs.Check.Operand
import SsaBlocks.Proofs.Check.Terminating

/-!
# Checking types and expressions

A rule calls others through checkers for all goals. If these are sound, so is the rule: the tree of
an expression uses numbers that names stand for where the expression is.
-/

set_option mvcgen.warning false

namespace SsaBlocks.Check

open SsaBlocks.Source (Pos Name)
open SsaBlocks.Types
open SsaBlocks.Typed (Expr)
open Std.Do

variable {s₀ : State} {goals : Goals}

attribute [local grind =] Expr.demands Expr.demandsOf
attribute [local grind] constantOperand valueOperand typeOperand

/-- The operand can be assigned to. -/
def Operand.isPlace (x : Operand) : Prop :=
  x.mode = .addressable ∨ x.mode = .mapElement

/-- If the expression is the name of a function of the file that is not generic, then the type is that
of the function. -/
def State.FuncType (s : State) (env : Env) (e : Source.Expr) (t : Ty) : Prop :=
  ∀ name id decl, e.unparen = .ident name → env.local? name.text = none →
    s.file.lookup name.text = some id → (s.objectAt id).pending = some (.func decl) →
    decl.type.typeParams = [] → s.Signed → decl.type.Types t

/-- What is known of the operand that an expression is checked to be: its tree demands what it may
demand, a name that can be assigned to is demanded itself, and the name of a function has the type of
the function. -/
structure Operand.Of (x : Operand) (s : State) (env : Env) (e : Source.Expr) : Prop where
  allows : ∀ d ∈ x.tree.demands, s.Allows env d
  place : ∀ name id, e.unparen = .ident name → x.isPlace → s.resolve env name.text = some id →
    .var id ∈ x.tree.demands
  func : s.FuncType env e x.type

attribute [grind →] Operand.Of.allows

/-- What is known of the checkers that a rule calls. -/
structure Goals.Sound (goals : Goals) : Prop where
  expr (s₀ : State) (env : Env) (implied : Option Ty) (e : Source.Expr) :
    Gives s₀ (goals (.expr env implied e) : Check Operand) fun x s => s₀.Extends s ∧ x.Of s₀ env e
  type (s₀ : State) (env : Env) (e : Source.Expr) :
    Gives s₀ (goals (.type env e)) fun _ s => s₀.Extends s
  object (s₀ : State) (id : ObjId) :
    Gives s₀ (goals (.object id)) fun _ s => s₀.Extends s
  stmt (s₀ : State) (env : Env) (st : Source.Stmt) :
    Gives s₀ (goals (.stmt env st) : Check (Env × Typed.Stmt)) fun r s =>
      s₀.Extends s ∧ s₀.Leaves env s r.1 r.2 ∧ s.Mirrors st r.2

@[grind →] theorem Operand.Of.of_eq {x y : Operand} {env : Env} {e : Source.Expr}
    (h : x.Of s₀ env e) (htree : y.tree = x.tree) (hmode : y.mode = x.mode)
    (htype : x.typeParams = [] → y.type = x.type) : y.Of s₀ env e where
  allows := htree ▸ h.allows
  place name id he hy := htree ▸ h.place name id he (by rwa [isPlace, ← hmode])
  func name id decl he hlocal hid hdecl hparams hs := by
    have htypes := h.func name id decl he hlocal hid hdecl hparams hs
    have hplain : x.typeParams = [] := by
      obtain ⟨params, results, typeParams, hx, -, hnil⟩ := htypes
      rw [Operand.typeParams, hx, hnil hparams]
    exact htype hplain ▸ htypes

variable (hg : goals.Sound) (env : Env)
include hg

@[spec] theorem genericExpr_spec (e : Source.Expr) :
    Gives s₀ (goals.genericExpr env e) fun x s => s₀.Extends s ∧ x.Of s₀ env e :=
  hg.expr s₀ env none e

@[spec] theorem exprOrType_spec (e : Source.Expr) :
    Gives s₀ (goals.exprOrType env e) fun x s => s₀.Extends s ∧ x.Of s₀ env e := by
  refine .intro fun Q hQ => .bind (hg.expr s₀ env none e) fun (x : Operand) s₁ hx => ?_
  mvcgen with grind

@[spec] theorem valueFor_spec (target : Option Ty) (e : Source.Expr) :
    Gives s₀ (goals.valueFor env target e) fun x s => s₀.Extends s ∧ x.Of s₀ env e := by
  refine .intro fun Q hQ => .bind (hg.expr s₀ env none e) fun (x : Operand) s₁ hx => ?_
  mvcgen with grind

@[spec] theorem value_spec (e : Source.Expr) :
    Gives s₀ (goals.value env e) fun x s => s₀.Extends s ∧ x.Of s₀ env e :=
  valueFor_spec hg env none e

@[spec] theorem element_spec (implied : Ty) (e : Source.Expr) :
    Gives s₀ (goals.element env implied e) fun x s => s₀.Extends s ∧ x.Of s₀ env e := by
  refine .intro fun Q hQ => .bind (hg.expr s₀ env (some implied) e) fun (x : Operand) s₁ hx => ?_
  mvcgen with grind

@[spec] theorem type_spec (e : Source.Expr) :
    Gives s₀ (goals.type env e) fun _ s => s₀.Extends s := by
  refine .intro fun Q hQ => .bind (hg.type s₀ env e) fun (t : Ty) s₁ ht => ?_
  change Gives s₁ (do requireInstance t; return t : Check Ty) Q
  mvcgen with grind

@[spec] theorem varType_spec (e : Source.Expr) :
    Gives s₀ (goals.varType env e) fun _ s => s₀.Extends s := by
  mvcgen [Goals.varType] with grind

@[spec] theorem arguments_spec (es : List Source.Expr) :
    Gives s₀ (goals.arguments env es) fun xs s =>
      s₀.Extends s ∧ ∀ x ∈ xs, ∀ d ∈ x.tree.demands, s₀.Allows env d := by
  have hmap {s₁ : State} {f : Source.Expr → Check Operand} {l : List Source.Expr} :=
    mapM_spec s₁ (f := f) (l := l)
      (P := fun x _ => ∀ d ∈ x.tree.demands, s₀.Allows env d) (fun _ _ _ _ => id)
  mvcgen [Goals.arguments, hmap] with grind

@[spec] theorem values_spec (es : List Source.Expr) :
    Gives s₀ (goals.values env es) fun _ s => s₀.Extends s := by
  mvcgen [Goals.values] with grind

/-- The meaning of an object, which it has from then on. -/
@[spec] theorem entity_spec (id : ObjId) (asType : Bool) :
    Gives s₀ (goals.entity id asType) fun e s =>
      s₀.Extends s ∧ (s.objectAt id).entity = some e := by
  mvcgen [Goals.entity]
  · grind
  · grind
  · next hs _ _ _ _ =>
    rintro s rfl -
    refine Gives.bind (hg.object _ id) (fun u s₁ hs₁ => ?_) s rfl
    mvcgen with grind

@[spec] theorem member?_spec (e : Source.Expr) (field : Name) (asType : Bool) :
    Gives s₀ (goals.member? env e field asType) fun _ s => s₀.Extends s := by
  mvcgen [Goals.member?] with grind

/-! ## Types -/

omit hg in
@[spec] theorem instantiate_spec (t : Ty) (args : List Ty) :
    Gives s₀ (instantiate t args) fun _ s => s₀.Extends s := by
  mvcgen [instantiate] with grind

@[spec] theorem namedType_spec (name : Name) :
    Gives s₀ (namedType goals env name) fun _ s => s₀.Extends s := by
  mvcgen [namedType] with grind

@[spec] theorem arrayLength_spec (e : Source.Expr) :
    Gives s₀ (arrayLength goals env e) fun _ s => s₀.Extends s := by
  mvcgen [arrayLength] with grind

omit hg in
/-- The names of a field are those of new objects of one type. -/
@[spec] theorem newParams_spec (names : List String) (t : Ty) (pos : Pos) : Gives s₀
      (names.mapM fun name => do
        return { name, id := ← newLocal name t false, type := t, typePos := pos : ParamInfo })
      fun ps s => s₀.Extends s ∧ ps.length = names.length ∧
        ∀ p ∈ ps, p.id < s.objects.size ∧ p.type = t := by
  refine mapM_spec s₀ (by grind) fun name hname s₁ hs₁ Q hQ => ?_
  mvcgen with grind

/-- What is known of the parameters of a field. -/
structure ParamsOf (f : Source.Field) (ps : List ParamInfo) (variadic : Bool) (s : State) :
    Prop where
  length : ps.length = f.count
  variadic : variadic = f.isVariadic
  slice : f.isVariadic = true → ∃ p ∈ ps, ∃ t, p.type = .slice t
  below : ∀ p ∈ ps, p.id < s.objects.size

omit hg in
theorem ParamsOf.of_type {f : Source.Field} {ps : List ParamInfo} {t : Ty} {s : State}
    (hlength : ps.length = (if f.names.isEmpty then [""] else f.names.map (·.text)).length)
    (hps : ∀ p ∈ ps, p.id < s.objects.size ∧ p.type = t)
    (hslice : f.isVariadic = true → ∃ element, t = .slice element) :
    ParamsOf f ps f.isVariadic s where
  length := by
    rw [hlength, Source.Field.count]
    split <;> simp
  variadic := rfl
  slice hf := by
    have hpos : 0 < ps.length := by
      rw [hlength]
      split
      · simp
      · next hnames => simpa [List.length_pos_iff] using hnames
    obtain ⟨element, rfl⟩ := hslice hf
    exact ⟨ps[0], List.getElem_mem hpos, element, (hps _ (List.getElem_mem hpos)).2⟩
  below p hp := (hps p hp).1

/-- Parameters are new objects, as many as are written. -/
@[spec] theorem collectParams_spec (fields : List Source.Field) :
    Gives s₀ (collectParams goals env fields) fun r s =>
      s₀.Extends s ∧ (∀ p ∈ r.1, p.id < s.objects.size) ∧
      r.1.length = (fields.map Source.Field.count).sum ∧ r.2 = fields.any Source.Field.isVariadic ∧
      (r.2 = true → ∃ p ∈ r.1, ∃ t, p.type = .slice t) := by
  refine .bind (mapM_forall₂ s₀ (R := fun f part s => ParamsOf f part.1 part.2 s) ?_ ?_) ?_
  · exact fun f part s s' hs h =>
      ⟨h.length, h.variadic, h.slice, fun p hp => (h.below p hp).trans_le hs.size⟩
  · intro f hf s₁ hs₁ Q hQ
    mvcgen
    case vc2.refine_2.h_1.post.success.post.success =>
      next hellipsis _ hs _ _ hs' ps s hps =>
      have hvariadic : f.isVariadic = true := by simp [Source.Field.isVariadic, hellipsis]
      have hof : ParamsOf f ps f.isVariadic s := .of_type hps.2.1 hps.2.2 fun _ => ⟨_, rfl⟩
      exact hQ _ _ ((hs ▸ hs').trans hps.1) (hvariadic ▸ hof)
    case vc4.refine_2.h_2.post.success.post.success =>
      next hno htype _ hs _ _ hs' ps s hps =>
      have hvariadic : f.isVariadic = false := by
        unfold Source.Field.isVariadic
        split
        · next hellipsis => exact absurd (htype.symm.trans hellipsis) (hno _ _)
        · rfl
      have hof : ParamsOf f ps f.isVariadic s :=
        .of_type hps.2.1 hps.2.2 fun h => absurd h (by simp [hvariadic])
      exact hQ _ _ ((hs ▸ hs').trans hps.1) (hvariadic ▸ hof)
  · intro parts s₁ hparts
    refine .pure ⟨hparts.1, ?_⟩
    obtain ⟨-, hparts⟩ := hparts
    induction hparts with
    | nil => simp
    | @cons f part fields parts h hrest ih =>
      obtain ⟨hbelow, hlength, hany, hslice⟩ := ih
      simp only [List.flatMap_cons, List.length_append, List.map_cons, List.sum_cons, List.any_cons,
        List.mem_append, Bool.or_eq_true] at hbelow hlength hany hslice ⊢
      refine ⟨?_, by rw [h.length, hlength], by rw [h.variadic, hany], ?_⟩
      · rintro p (hp | hp)
        · exact h.below p hp
        · exact hbelow p hp
      · rintro (hvariadic | hvariadic)
        · obtain ⟨p, hp, ht⟩ := h.slice (h.variadic ▸ hvariadic)
          exact ⟨p, .inl hp, ht⟩
        · obtain ⟨p, hp, ht⟩ := hslice hvariadic
          exact ⟨p, .inr hp, ht⟩

omit hg in
@[spec] theorem declareParams_spec (params : List ParamInfo) :
    Gives s₀ (declareParams env params) fun env' s =>
      s₀.Extends s ∧ (env.Below s₀.objects.size → (∀ p ∈ params, p.id < s₀.objects.size) →
      env'.Below s.objects.size) := by
  refine foldlM_spec s₀ (fun henv _ => henv) fun env' p hp s₁ hs₁ henv' Q hQ => ?_
  mvcgen with grind

omit hg in
@[spec] theorem declareTypeParams_spec (names : List String) :
    Gives s₀ (declareTypeParams env names) fun r s =>
      s₀.Extends s ∧ (env.Below s₀.objects.size → r.1.Below s.objects.size) ∧
      (names ≠ [] ∨ r.2 = []) := by
  refine foldlM_spec s₀ ⟨id, .inr rfl⟩ fun acc name hname s₁ hs₁ hacc Q hQ => ?_
  have hnames : names ≠ [] := List.ne_nil_of_mem hname
  mvcgen with grind

@[spec] theorem structFields_spec (fields : List Source.Field) :
    Gives s₀ (structFields goals env fields) fun _ s => s₀.Extends s := by
  mvcgen [structFields] with grind

@[spec] theorem constraintElement_spec (e : Source.Expr) :
    Gives s₀ (constraintElement goals env e) fun _ s => s₀.Extends s := by
  mvcgen [constraintElement] with grind

@[spec] theorem constraint_spec (e : Source.Expr) :
    Gives s₀ (constraint goals env e) fun _ s => s₀.Extends s := by
  mvcgen [constraint] with grind

@[spec] theorem collectTypeParams_spec (fields : List Source.Field) {known : List Nat → Check Unit}
    (hknown : ∀ ids s₁, Gives s₁ (known ids) fun _ s => s₁.Extends s) :
    Gives s₀ (collectTypeParams goals env fields known) fun r s =>
      s₀.Extends s ∧ (env.Below s₀.objects.size → r.1.Below s.objects.size) ∧
      (fields ≠ [] ∨ r.2 = []) := by
  have hnames : (fields.flatMap fun f => f.names.map (·.text)) = [] ∨ fields ≠ [] := by grind
  mvcgen [collectTypeParams, hknown, setConstraint] with grind

/-- The body of a function knows objects that there are when its signature has been read. -/
@[spec] theorem signatureIn_spec (receiver : Option ParamInfo)
    (sig : Source.Signature) : Gives s₀ (signatureIn goals env receiver sig) fun head s =>
      s₀.Extends s ∧ head.Of sig ∧ (env.Below s₀.objects.size →
      (∀ p ∈ receiver, p.id < s₀.objects.size) → head.env.Below s.objects.size) := by
  refine .intro fun Q hQ => ?_
  mvcgen [signatureIn]
  case vc5.post.success.post.success.post.success.post.success =>
    next s hs r s₁ hr ps s₂ hps rs s₃ hrs env' named s₄ henv' =>
    subst hs
    obtain ⟨hs₂, hbelow, hlength, hvariadic, hslice⟩ := hps
    have htypes : sig.Types (.func (ps.1.map named) (rs.1.map named) ps.2 r.2) := by
      refine ⟨ps.1.map named, rs.1.map named, r.2, congrArg (Ty.func _ _ · _) hvariadic, ?_, ?_⟩
      · rw [List.length_map]
        exact hlength
      · exact fun hparams => hr.2.2.resolve_left (not_not.mpr hparams)
    refine hQ _ _ (hr.1.trans (hs₂.trans (hrs.1.trans henv'.1)))
      ⟨htypes, hlength, fun h => hslice (hvariadic.trans h)⟩ ?_
    grind
  all_goals grind

@[spec] theorem signature_spec (sig : Source.Signature) :
    Gives s₀ (signature goals env sig) fun head s =>
      s₀.Extends s ∧ head.Of sig ∧ (env.Below s₀.objects.size → head.env.Below s.objects.size) := by
  mvcgen [signature] with grind

@[spec] theorem interfaceOf_spec (elements : List Source.InterfaceElement) :
    Gives s₀ (interfaceOf goals env elements) fun _ s => s₀.Extends s := by
  mvcgen [interfaceOf] with grind

@[spec] theorem typeRule_spec (e : Source.Expr) :
    Gives s₀ (typeRule goals env e) fun _ s => s₀.Extends s := by
  refine .intro fun Q hQ => ?_
  cases e with
  | index operand args =>
    refine .bind (hg.type s₀ env operand) fun (t : Ty) s₁ hs₁ => ?_
    mvcgen
    all_goals grind
  | _ =>
    mvcgen [typeRule]
    all_goals grind

/-! ## Elements and members -/

omit hg in
@[grind =] theorem demands_notCompiled (e : Source.Expr) : (notCompiled e).demands = [] := by
  simp [notCompiled, Expr.demands]

omit hg in
@[spec] theorem indexValue_spec (x : Operand) : Gives s₀ (indexValue x) fun _ s => s = s₀ := by
  mvcgen [indexValue] with grind

@[spec] theorem indexWithin_spec (length : Option Nat)
    (e : Source.Expr) : Gives s₀ (indexWithin goals env length e) fun _ s => s₀.Extends s := by
  mvcgen [indexWithin] with grind

@[spec] theorem indexRule_spec (e : Source.Expr) (x : Operand) (index : Source.Expr) :
    Gives s₀ (indexRule goals env e x index) fun y s => s₀.Extends s ∧ y.tree.demands = [] := by
  mvcgen [indexRule] with grind

@[spec] theorem sliceRule_spec (e : Source.Expr) (x : Operand)
    (low high max : Option Source.Expr) : Gives s₀ (sliceRule goals env e x low high max) fun y s =>
      s₀.Extends s ∧ y.tree.demands = [] := by
  mvcgen [sliceRule] with grind

@[spec] theorem methodType_spec (t : Ty) (addressable : Bool) (name : String) (m : MethodMember) :
    Gives s₀ (methodType goals env t addressable name m) fun _ s => s₀.Extends s := by
  mvcgen [methodType] with grind

@[spec] theorem selectorRule_spec (e : Source.Expr) (x : Operand) (field : Name) :
    Gives s₀ (selectorRule goals env e x field) fun y s => s₀.Extends s ∧ y.tree.demands = [] := by
  mvcgen [selectorRule] with grind

@[spec] theorem assertRule_spec (e : Source.Expr) (x : Operand) (type : Source.Expr) :
    Gives s₀ (assertRule goals env e x type) fun y s => s₀.Extends s ∧ y.tree.demands = [] := by
  mvcgen [assertRule] with grind

@[spec] theorem assignElement_spec (t : Ty) (e : Source.Expr) :
    Gives s₀ (assignElement goals env t e) fun _ s => s₀.Extends s := by
  mvcgen [assignElement] with grind

@[spec] theorem indexedElements_spec (t : Ty) (length : Option Nat) (elements : List Source.Expr) :
    Gives s₀ (indexedElements goals env t length elements) fun _ s => s₀.Extends s := by
  mvcgen [indexedElements] with grind

@[spec] theorem fieldElements_spec (fields : List (String × Ty × Bool × List UInt8))
    (elements : List Source.Expr) :
    Gives s₀ (fieldElements goals env fields elements) fun _ s => s₀.Extends s := by
  mvcgen [fieldElements]
  case vc4 assign _ _ _ _ _ _ _ _ _ _ seen p _ s₁ _ Q' hQ' =>
    -- the key is a name, or the file is rejected
    intro s hs
    obtain ⟨_ | key, value⟩ := p
    · trivial
    · cases key with
      | ident name =>
        mvcgen [assign]
        all_goals grind
      | _ => trivial
  all_goals grind

@[spec] theorem mapElements_spec (key value : Ty) (elements : List Source.Expr) :
    Gives s₀ (mapElements goals env key value elements) fun _ s => s₀.Extends s := by
  mvcgen [mapElements] with grind

@[spec] theorem compositeRule_spec (implied : Option Ty)
    (e : Source.Expr) (type : Option Source.Expr) (elements : List Source.Expr) :
    Gives s₀ (compositeRule goals env implied e type elements) fun y s =>
      s₀.Extends s ∧ y.tree.demands = [] := by
  mvcgen [compositeRule] with grind

end SsaBlocks.Check
