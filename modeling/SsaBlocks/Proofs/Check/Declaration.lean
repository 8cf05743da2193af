import SsaBlocks.Proofs.Check.Stmt

/-!
# Checking declarations

The objects of a file take their meanings one by one. A function takes the type of its declaration
and a signature to go with it, and a variable a tree for its initial value.
-/

set_option mvcgen.warning false

namespace SsaBlocks.Check

open SsaBlocks.Source (Pos Name)
open SsaBlocks.Types
open SsaBlocks.Typed (Expr Demand)
open Std.Do

variable {s₀ s s' : State} {goals : Goals} {env : Env}

/-! ## Receivers -/

/-- Nothing is declared in surroundings without scopes. -/
theorem Env.below_of_scopes_eq_nil {n : Nat} (h : env.scopes = []) : env.Below n := by
  intro name id hid
  simp [Env.local?, h] at hid

@[spec] theorem assignMethod_spec (id : ObjId) (decl : Source.FuncDecl) :
    Gives s₀ (assignMethod id decl) fun _ s => s₀.Extends s := by
  mvcgen [assignMethod] with grind

@[spec] theorem receiverType_spec (hg : goals.Sound) (type : Source.Expr) :
    Gives s₀ (receiverType goals type) fun r s => s₀.Extends s ∧ r.1.Below s.objects.size := by
  have hempty (n : Nat) : ({} : Env).Below n := Env.below_of_scopes_eq_nil rfl
  refine .ite ?_ (.bind (hg.type s₀ _ _) fun (base : Ty) s₁ hs₁ => ?_)
  · refine .intro fun Q hQ => ?_
    mvcgen
    all_goals grind
  · refine .intro fun Q hQ => ?_
    mvcgen
    all_goals grind

@[spec] theorem methodHead_spec (hg : goals.Sound) (id : ObjId) (decl : Source.FuncDecl)
    (receiver : List Source.Field) : Gives s₀ (methodHead goals id decl receiver) fun head s =>
      s₀.Extends s ∧ head.Of decl.type ∧ head.env.Below s.objects.size := by
  mvcgen [methodHead]
  all_goals grind

/-! ## Objects -/

/-- The initial value of a variable is noted, some steps after it has been checked. -/
theorem setInitial_spec (hs₀ : s₀.Extends s) (id : ObjId) (tree : Expr)
    (h : ∀ d ∈ tree.demands, s₀.Serves d) :
    ⦃fun s' => ⌜s' = s⌝⦄ setInitial id tree ⦃⇓? _ s' => ⌜s₀.Extends s'⌝⦄ := by
  refine gives_iff.mpr fun _ s' hrun => ?_
  cases hrun
  refine ⟨hs₀.file, hs₀.predeclared, hs₀.size, hs₀.pending, hs₀.noVar, fun hs => ?_, fun hs hr => ?_,
    hs₀.compiled⟩
  · exact ⟨(hs₀.signed hs).object, (hs₀.signed hs).grouped⟩
  · obtain ⟨hheads, hinitials⟩ := hs₀.records hs hr
    refine ⟨fun p hp => ⟨(hheads p hp).below, (hheads p hp).declared⟩, ?_⟩
    refine List.forall_mem_cons.mpr ⟨fun d hd => ?_, fun p hp d hd => ?_⟩
    · exact (h d hd).keep hs hs₀.file hs₀.pending
    · exact (hinitials p hp d hd).keep (hs₀.signed hs) rfl fun _ => rfl

/-- The object is a variable of the file. -/
def State.IsVar (s : State) (id : ObjId) : Prop :=
  (∃ type value, (s.objectAt id).pending = some (.var type value)) ∨ s.Grouped id

@[grind →] theorem State.Extends.isVar {id : ObjId} (h : s.Extends s') (hid : s.IsVar id) :
    s'.IsVar id := by
  rwa [State.IsVar, h.pending, h.grouped]

@[grind →] theorem State.Extends.isVar_of_mem {id j : ObjId} {type : Option Source.Expr}
    {group : List ObjId} {value : Source.Expr} (h : s.Extends s')
    (hj : (s.objectAt j).pending = some (.shared type group value)) (hid : id ∈ group) :
    s'.IsVar id :=
  h.isVar (.inr ⟨j, type, group, value, hj, hid⟩)

/-- A variable of the file is no function, and has no meaning that is not that of a variable. -/
theorem State.IsVar.noFunc {id : ObjId} (h : s.IsVar id) (hs : s.Signed) : s.NoFunc id := by
  obtain ⟨type, value, hvar⟩ | hgroup := h
  · intro decl hdecl
    simp [hvar] at hdecl
  · exact fun decl => hs.grouped id decl hgroup

theorem State.IsVar.not_noVar {id : ObjId} (h : s.IsVar id) : ¬ s.NoVar id := by
  rintro ⟨hpending, hgroup, -⟩
  obtain ⟨type, value, hvar⟩ | hgroup' := h
  · simp [hpending] at hvar
  · exact hgroup hgroup'

/-- A variable of the file takes its type. -/
@[spec high] theorem setVar_spec (id : ObjId) (t : Ty) (hid : s₀.IsVar id) :
    Gives s₀ (setEntity id (.var t)) fun _ s => s₀.Extends s :=
  setEntity_spec id (.var t) hid.noFunc nofun fun hno => absurd hno hid.not_noVar

@[spec] theorem resolveVar_spec (hg : goals.Sound) (env : Env) (id : ObjId)
    (type value : Option Source.Expr) (hid : s₀.IsVar id) :
    Gives s₀ (resolveVar goals env id type value) fun _ s => s₀.Extends s := by
  have hset {s : State} {hs : s₀.Extends s} {id : ObjId} {tree : Expr}
    {h : ∀ d ∈ tree.demands, s₀.Serves d} := setInitial_spec hs id tree h
  mvcgen [resolveVar, hset]
  all_goals grind [State.Allows]

@[spec] theorem resolveShared_spec (hg : goals.Sound) (env : Env) (type : Option Source.Expr)
    (group : List ObjId) (value : Source.Expr) (hgroup : ∀ id ∈ group, s₀.IsVar id) :
    Gives s₀ (resolveShared goals env type group value) fun _ s => s₀.Extends s := by
  have hset {s : State} {hs : s₀.Extends s} {id : ObjId} {tree : Expr}
    {h : ∀ d ∈ tree.demands, s₀.Serves d} := setInitial_spec hs id tree h
  have hfor {s : State} {f : ObjId × Operand → Check PUnit} {l : List (ObjId × Operand)} :=
    forM_spec s (I := s₀.Extends) (f := f) (l := l)
  mvcgen [resolveShared, hset, hfor]
  all_goals grind [State.Allows]

/-- A function of the file takes the type of its declaration. -/
theorem setFunc_spec (id : ObjId) {decl : Source.FuncDecl} {t : Ty}
    (hid : (s₀.objectAt id).pending = some (.func decl)) (ht : decl.type.Types t) :
    Gives s₀ (setEntity id (.func t)) fun _ s => s₀.Extends s := by
  refine gives_iff.mpr fun _ s hrun => ?_
  cases hrun
  refine State.extends_modify (fun _ => rfl) (fun hno => ?_) fun _ =>
    ⟨?_, fun _ _ => .inl ⟨decl, hid⟩⟩
  · simp [hno.1] at hid
  · rintro decl' _ hdecl' ⟨⟩
    cases hid.symm.trans hdecl'
    exact ⟨t, rfl, ht⟩

/-- A member of a package has its meaning there. -/
@[spec] theorem resolveImported_spec (id : ObjId) (e : Entity)
    (hid : ∃ package, (s₀.objectAt id).pending = some (.imported package e)) :
    Gives s₀ (resolveImported id e) fun _ s => s₀.Extends s := by
  obtain ⟨package, hid⟩ := hid
  refine gives_iff.mpr fun _ s hrun => ?_
  cases hrun
  refine State.extends_modify (fun _ => rfl) (fun hno => ?_) fun _ => ⟨fun decl e' hdecl => ?_, ?_⟩
  · simp [hno.1] at hid
  · cases hid.symm.trans hdecl
  · rintro t ⟨⟩
    exact .inr ⟨package, hid⟩

/-- The signature of a function is noted. -/
theorem addHead_spec (id : ObjId) {head : FuncHead} (h : s₀.HeadOf id head) :
    Gives s₀ (modify fun s => { s with heads := (id, head) :: s.heads } : Check Unit) fun _ s =>
      s₀.Extends s := by
  refine gives_iff.mpr fun _ s hrun => ?_
  cases hrun
  refine ⟨rfl, rfl, le_rfl, fun _ => rfl, fun _ hno => hno, fun hs => ⟨hs.object, hs.grouped⟩,
    fun hs hr => ⟨List.forall_mem_cons.mpr ⟨⟨h.below, h.declared⟩, fun p hp => ?_⟩, ?_⟩,
    List.Subset.refl _⟩
  · exact ⟨(hr.heads p hp).below, (hr.heads p hp).declared⟩
  · exact fun p hp d hd => (hr.initials p hp d hd).keep hs rfl fun _ => rfl

theorem funcHead_spec (hg : goals.Sound) (id : ObjId) (decl : Source.FuncDecl) :
    Gives s₀ (funcHead goals id decl) fun head s =>
      s₀.Extends s ∧ head.Of decl.type ∧ head.env.Below s.objects.size := by
  mvcgen [funcHead]
  all_goals grind [Env.below_of_scopes_eq_nil]

@[spec] theorem resolveFunc_spec (hg : goals.Sound) (id : ObjId) (decl : Source.FuncDecl)
    (hid : (s₀.objectAt id).pending = some (.func decl)) :
    Gives s₀ (resolveFunc goals id decl) fun _ s => s₀.Extends s := by
  refine .bind (funcHead_spec hg id decl) fun head s₁ hhead => ?_
  obtain ⟨hs₁, hof, hbelow⟩ := hhead
  have hid₁ := (hs₁.pending id).trans hid
  refine .bind (setFunc_spec id hid₁ hof.types) fun _ s₂ hs₂ => ?_
  refine gives_iff.mpr fun _ s hrun => (hs₁.trans hs₂).trans ?_
  refine gives_iff.mp (addHead_spec id ⟨?_, decl, (hs₂.pending id).trans hid₁, ?_⟩) _ s hrun
  · exact hbelow.mono hs₂.size
  · exact ⟨hof.types, hof.params, hof.variadic⟩

/-- An object of the file takes its meaning. -/
theorem objectRule_spec (hg : goals.Sound) (id : ObjId) :
    Gives s₀ (objectRule goals id) fun _ s => s₀.Extends s := by
  mvcgen [objectRule]
  all_goals grind [State.IsVar, State.Grouped, State.NoFunc, State.Extends.pending]

end SsaBlocks.Check
