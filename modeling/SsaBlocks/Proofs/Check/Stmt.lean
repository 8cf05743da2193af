import SsaBlocks.Proofs.Check.Expr

/-!
# Checking statements

A statement is checked in some surroundings and leaves others, in which the names that it declares
stand for new objects. Its tree uses numbers that were in scope, and gives only numbers of new
objects to new variables. After a statement that is not compiled nothing is asked of the
surroundings.
-/

set_option mvcgen.warning false

namespace SsaBlocks.Check

open List

open SsaBlocks.Source (Pos Name)
open SsaBlocks.Types
open SsaBlocks.Typed (Expr Demand Target VarSpec)
open Std.Do

variable {s₀ s s' : State} {goals : Goals} {env env' : Env} {Γ : List Typed.VarId}

attribute [local grind =] Expr.demands Expr.demandsOf
attribute [local grind] constantOperand valueOperand typeOperand

/-! ## Trees and scopes -/

namespace State

/-- What an expression uses is in scope. -/
theorem Admits.uses_subset {e : Expr} (h : s.Admits env Γ)
    (he : ∀ d ∈ e.demands, s.Allows env d) : e.uses ⊆ Γ :=
  fun id hid => h.covers id ((he _ (e.mem_uses_iff.mp hid)).2 id rfl)

theorem Admits.usesOf_subset {es : List Expr} (h : s.Admits env Γ)
    (hes : ∀ e ∈ es, ∀ d ∈ e.demands, s.Allows env d) : Expr.usesOf es ⊆ Γ := by
  intro id hid
  obtain ⟨e, he, hid⟩ := Expr.mem_usesOf.mp hid
  exact h.uses_subset (hes e he) hid

theorem serves_demandsOf {es : List Expr} (hes : ∀ e ∈ es, ∀ d ∈ e.demands, s.Allows env d) :
    ∀ d ∈ Expr.demandsOf es, s.Serves d := by
  intro d hd
  obtain ⟨e, he, hd⟩ := Expr.mem_demandsOf.mp hd
  exact (hes e he d hd).1

/-- What is in scope before is all that is in scope after. -/
def Keeps (s₀ : State) (env : Env) (s : State) (env' : Env) : Prop :=
  ∀ Γ, s₀.Admits env Γ → s.Admits env' Γ

theorem Extends.keeps (h : s₀.Extends s) (env : Env) : s₀.Keeps env s env :=
  fun _ hΓ => hΓ.mono h

namespace Leaves

variable {tree : Typed.Stmt}

/-- A statement that is not compiled. -/
theorem of_refused (pos : Pos) (what : String) : s₀.Leaves env s env' (.unsupported pos what) where
  serves := by simp [Typed.Stmt.demands]
  scopes Γ _ := by simp [Typed.Stmt.Scoped, Typed.Stmt.isRefused]

/-- A statement that declares no variables. -/
theorem of_scoped (h : s₀.Keeps env s env') (hserves : ∀ d ∈ tree.demands, s₀.Serves d)
    (hscoped : ∀ Γ, s₀.Admits env Γ → tree.Scoped Γ) (hbinds : tree.binds = []) :
    s₀.Leaves env s env' tree where
  serves := hserves
  scopes Γ hΓ := ⟨hscoped Γ hΓ, fun _ => by simpa [hbinds] using h Γ hΓ⟩

/-- A statement that does nothing. -/
theorem of_empty (h : s₀.Keeps env s env') : s₀.Leaves env s env' .empty :=
  of_scoped h (by simp [Typed.Stmt.demands]) (fun Γ _ => by simp [Typed.Stmt.Scoped]) rfl

end Leaves

end State

/-! ## Assignment -/

/-- A name that can be assigned to is that of a variable in scope. -/
@[grind →] theorem Operand.Of.nameable_of_isPlace {x : Operand} {e : Source.Expr} {name : Name}
    {id : ObjId} (h : x.Of s env e) (hx : x.isPlace) (he : e.unparen = .ident name)
    (hid : s.resolve env name.text = some id) : s.Nameable env id :=
  (h.allows _ (h.place name id he hx hid)).2 id rfl

/-- What is assigned to is in scope, and nothing is declared. -/
@[spec] theorem assignTarget_spec (hg : goals.Sound) (env : Env) (e : Source.Expr) :
    Gives s₀ (assignTarget goals env e) fun r s =>
      s₀.Extends s ∧ (∀ id ∈ r.2.uses, s₀.Nameable env id) ∧ r.2.binds = [] := by
  mvcgen [assignTarget]
  all_goals grind [Target.uses, Target.binds, Operand.isPlace]

@[spec] theorem valuesFor_spec (hg : goals.Sound) (env : Env) (targets : List (Option Ty))
    (flag : Bool) (es : List Source.Expr) :
    Gives s₀ (valuesFor goals env targets flag es) fun xs s =>
      s₀.Extends s ∧ xs.length = targets.length ∧
      ∀ x ∈ xs, ∀ d ∈ x.tree.demands, s₀.Allows env d := by
  have hmap {s₁ : State} {f : Source.Expr × Option Ty → Check Operand}
      {l : List (Source.Expr × Option Ty)} :=
    mapM_spec s₁ (f := f) (l := l)
      (P := fun x _ => ∀ d ∈ x.tree.demands, s₀.Allows env d) (fun _ _ _ _ => id)
  mvcgen [valuesFor, hmap] with grind

@[spec] theorem assignStmt_spec (hg : goals.Sound) (env : Env) (pos : Pos)
    (targets values : List Source.Expr) :
    Gives s₀ (assignStmt goals env pos targets values) fun tree s =>
      s₀.Extends s ∧ s₀.Leaves env s env tree ∧ tree.hasBreak = false := by
  refine .bind (mapM_spec s₀ (P := fun (r : Option Ty × Target) _ =>
    (∀ id ∈ r.2.uses, s₀.Nameable env id) ∧ r.2.binds = []) (fun _ _ _ _ => id) ?_)
    fun lhs s₁ hlhs => ?_
  · intro e _ s₁ hs₁ Q hQ
    mvcgen with grind
  refine .bind (valuesFor_spec hg env _ true values) fun xs s₂ hxs => ?_
  refine .bind (mapM_spec s₂ (P := fun y _ => ∀ d ∈ y.tree.demands, s₀.Allows env d)
    (fun _ _ _ _ => id) ?_) fun ys s₃ hys => .ite ?_ ?_
  · intro p hp s₃ hs₃ Q hQ
    mvcgen with grind
  · have hs := hlhs.1.trans (hxs.1.trans hys.1)
    have hallows : ∀ e ∈ ys.map Operand.tree, ∀ d ∈ e.demands, s₀.Allows env d := by
      simpa using hys.2.2
    have hbinds : (lhs.map (·.2)).flatMap Target.binds = [] := by
      rw [flatMap_eq_nil_iff, forall_mem_map]
      exact fun r hr => (hlhs.2.2 r hr).2
    refine .pure ⟨hs, .of_scoped (hs.keeps env) (State.serves_demandsOf hallows) (fun Γ hΓ => ?_)
      hbinds, by simp [Typed.Stmt.hasBreak]⟩
    refine ⟨?_, hΓ.usesOf_subset hallows, fun id hid => ?_, ?_⟩
    · simp [hys.2.1, hxs.2.1]
    · obtain ⟨target, htarget, hid⟩ := mem_flatMap.mp hid
      obtain ⟨r, hr, rfl⟩ := mem_map.mp htarget
      exact hΓ.covers id ((hlhs.2.2 r hr).1 id hid)
    · rw [hbinds]
      exact disjoint_nil_left Γ
  · exact .pure ⟨hlhs.1.trans (hxs.1.trans hys.1), .of_refused pos _, by simp [Typed.Stmt.hasBreak]⟩

@[spec] theorem initialType_spec (x : Operand) : Gives s₀ (initialType x) fun _ s => s = s₀ := by
  mvcgen [initialType] with grind

/-- A name of the innermost scope that is that of a variable stands for it. -/
@[grind →] theorem State.nameable_of_innermost {name : String} {id : ObjId} {t : Ty}
    (hs : s.Extends s') (hid : env.innermost.lookup name = some id)
    (ht : (s'.objectAt id).entity = some (.var t)) : s.Nameable env id := by
  have hlocal : env.local? name = some id := by
    unfold Env.innermost at hid
    unfold Env.local?
    cases hscopes : env.scopes with
    | nil => simp [hscopes] at hid
    | cons scope rest =>
      simp only [hscopes, headD_cons] at hid
      simp [hid]
  refine ⟨⟨name, by simp [State.resolve, hlocal]⟩, fun hno => ?_⟩
  obtain ⟨-, -, e, he, hvar⟩ := hs.noVar id hno
  exact hvar t (Option.some.inj (he.symm.trans ht))

/-- Several new variables are in scope. -/
theorem State.Admits.insert_all {new : List (String × ObjId)} (h : s.Admits env Γ)
    (hnew : ∀ p ∈ new, p.2 ∈ Γ) :
    s.Admits (new.foldl (fun env p => env.insert p.1 p.2) env) Γ := by
  induction new generalizing env with
  | nil => exact h
  | cons p new ih =>
    obtain ⟨hp, hnew⟩ := forall_mem_cons.mp hnew
    exact ih (h.insert_mem hp p.1) hnew

/-- Numbers of objects that there are come into scope. -/
theorem State.Admits.append {ids : List ObjId} (h : s.Admits env Γ)
    (hids : ∀ id ∈ ids, id < s.objects.size) : s.Admits env (ids ++ Γ) :=
  h.mono_scope (subset_append_right ids Γ) (forall_mem_append.mpr ⟨hids, h.below⟩)

/-- What is known of a target of a declaration with assignments: it is a variable in scope, or a new
one. -/
structure DeclaredIn (s₀ : State) (env : Env) (s : State) (new : Option (String × ObjId))
    (target : Target) (x : Operand) : Prop where
  uses : ∀ id ∈ target.uses, s₀.Nameable env id
  binds : target.binds = new.toList.map (·.2)
  fresh : ∀ p ∈ new, s₀.objects.size ≤ p.2 ∧ p.2 < s.objects.size
  allows : ∀ d ∈ x.tree.demands, s₀.Allows env d

theorem DeclaredIn.mono {new : Option (String × ObjId)} {target : Target} {x : Operand}
    (hs : s.Extends s') (h : DeclaredIn s₀ env s new target x) :
    DeclaredIn s₀ env s' new target x :=
  ⟨h.uses, h.binds, fun p hp => ⟨(h.fresh p hp).1, (h.fresh p hp).2.trans_le hs.size⟩, h.allows⟩

/-- The tree of a declaration of new variables along with assignments. -/
theorem leaves_define {declared : List (Option (String × ObjId) × Target × Operand)}
    (hs : s₀.Extends s) (h : ∀ d ∈ declared, DeclaredIn s₀ env s d.1 d.2.1 d.2.2) :
    s₀.Leaves env s
      ((declared.filterMap (·.1)).foldl (fun env p => env.insert p.1 p.2) env)
      (.assign (declared.map (·.2.1)) (declared.map (·.2.2.tree))) := by
  have hallows : ∀ e ∈ declared.map (·.2.2.tree), ∀ d ∈ e.demands, s₀.Allows env d :=
    forall_mem_map.mpr fun d hd => (h d hd).allows
  have hbinds : (declared.map (·.2.1)).flatMap Target.binds =
      (declared.filterMap (·.1)).map (·.2) := by
    rw [flatMap_map, filterMap_eq_flatMap_toList, map_flatMap]
    exact flatMap_congr fun d hd => (h d hd).binds
  have hfresh : ∀ p ∈ declared.filterMap (·.1), s₀.objects.size ≤ p.2 ∧ p.2 < s.objects.size := by
    intro p hp
    obtain ⟨d, hd, hp⟩ := mem_filterMap.mp hp
    exact (h d hd).fresh p hp
  refine ⟨State.serves_demandsOf hallows, fun Γ hΓ => ⟨⟨?_, hΓ.usesOf_subset hallows, ?_, ?_⟩, ?_⟩⟩
  · rw [length_map, length_map]
  · intro id hid
    obtain ⟨target, htarget, hid⟩ := mem_flatMap.mp hid
    obtain ⟨d, hd, rfl⟩ := mem_map.mp htarget
    exact hΓ.covers id ((h d hd).uses id hid)
  · rw [hbinds]
    intro id hid hmem
    obtain ⟨p, hp, rfl⟩ := mem_map.mp hid
    exact absurd (hΓ.below _ hmem) (Nat.not_lt.mpr (hfresh p hp).1)
  · intro _
    rw [Typed.Stmt.binds, hbinds]
    have hnew : ∀ id ∈ (declared.filterMap (·.1)).map (·.2), id < s.objects.size :=
      forall_mem_map.mpr fun p hp => (hfresh p hp).2
    exact ((hΓ.mono hs).append hnew).insert_all fun p hp =>
      mem_append_left Γ (mem_map_of_mem hp)

@[spec] theorem defineStmt_spec (hg : goals.Sound) (env : Env) (pos : Pos)
    (targets values : List Source.Expr) :
    Gives s₀ (defineStmt goals env pos targets values) fun r s =>
      s₀.Extends s ∧ s₀.Leaves env s r.1 r.2 ∧ r.2.hasBreak = false := by
  refine .bind (mapM_extends fun e _ s₁ hs₁ Q hQ => ?_) fun names s₁ hnames => ?_
  · mvcgen
    all_goals grind
  refine .bind (require_spec _ _) fun _ s₂ hs₂ => ?_
  obtain ⟨rfl, -⟩ := hs₂
  refine .bind (mapM_spec s₂ (P := fun r _ => ∀ p ∈ r, s₀.Nameable env p.1)
    (fun _ _ _ _ => id) fun name _ s₃ hs₃ Q hQ => ?_) fun existing s₃ hexisting => ?_
  · have hs : s₀.Extends s₃ := hnames.1.trans hs₃
    mvcgen
    all_goals grind
  refine .bind (valuesFor_spec hg env _ true values) fun xs s₄ hxs => ?_
  have hs₃ : s₀.Extends s₃ := hnames.1.trans hexisting.1
  refine .bind (mapM_spec s₄ (P := fun (d : Option (String × ObjId) × Target × Operand) s =>
    DeclaredIn s₀ env s d.1 d.2.1 d.2.2) (fun _ _ _ hs h => h.mono hs) fun d hd s₅ hs₅ Q hQ => ?_)
    fun declared s₅ hdeclared => ?_
  · have hallows : ∀ dm ∈ d.2.tree.demands, s₀.Allows env dm := fun dm hdm =>
      hs₃.allows (hxs.2.2 d.2 (of_mem_zip hd).2 dm hdm)
    have hfound : ∀ p ∈ d.1.2, s₀.Nameable env p.1 :=
      hexisting.2.2 d.1.2 (of_mem_zip (of_mem_zip hd).1).2
    have hsize : s₀.objects.size ≤ s₅.objects.size := (hs₃.trans (hxs.1.trans hs₅)).size
    mvcgen
    · next id t hid _ hs x s hx =>
      refine hQ _ _ (by grind) ⟨?_, rfl, by simp, by grind⟩
      simpa [Target.uses] using hfound (id, t) hid
    · next x _ s hx =>
      refine hQ _ _ (by grind) ⟨?_, rfl, by simp, by grind⟩
      simp [Target.uses]
    · next s hs =>
      refine hQ _ _ (by grind) ⟨?_, rfl, ?_, by grind⟩
      · simp [Target.uses]
      · grind
  refine .bind (require_spec _ _) fun _ s₆ hs₆ => ?_
  obtain ⟨rfl, -⟩ := hs₆
  have hs : s₀.Extends s₆ := hs₃.trans (hxs.1.trans hdeclared.1)
  refine .ite ?_ ?_
  · exact .pure ⟨hs, leaves_define hs hdeclared.2.2, by simp [Typed.Stmt.hasBreak]⟩
  · exact .pure ⟨hs, .of_refused pos _, by simp [Typed.Stmt.hasBreak]⟩

/-- The tree of an assignment with an operation. -/
theorem leaves_update {place : Target} {left right : Expr} {op : Opcode} (hs : s₀.Extends s)
    (htree : ∀ d ∈ (Expr.binary op left right).demands, s₀.Allows env d)
    (huses : ∀ id ∈ place.uses, s₀.Nameable env id) (hbinds : place.binds = []) :
    s₀.Leaves env s env (.update place left op right) := by
  rw [Expr.demands] at htree
  refine .of_scoped (hs.keeps env) (fun d hd => ?_) (fun Γ hΓ => ?_) hbinds
  · rw [Typed.Stmt.demands, Expr.demands] at hd
    exact (htree d hd).1
  · rw [Typed.Stmt.Scoped, hbinds]
    refine ⟨hΓ.uses_subset fun d hd => ?_, hΓ.uses_subset fun d hd => ?_,
      fun id hid => hΓ.covers id (huses id hid), disjoint_nil_left Γ⟩
    · exact htree d (mem_append_right _ (mem_append_left _ hd))
    · exact htree d (mem_append_right _ (mem_append_right _ hd))

@[spec] theorem updateStmt_spec (hg : goals.Sound) (env : Env) (pos : Pos) (op : String)
    (target : Source.Expr) {y : Check Operand}
    (hy : ∀ s₁, Gives s₁ y fun x s => s₁.Extends s ∧ ∀ d ∈ x.tree.demands, s₁.Allows env d)
    (compiled : Bool) : Gives s₀ (updateStmt goals env pos op target y compiled) fun tree s =>
      s₀.Extends s ∧ s₀.Leaves env s env tree ∧ tree.hasBreak = false := by
  refine .intro fun Q hQ => ?_
  mvcgen [updateStmt, hy]
  case vc4 x s₁ hx z s₂ hz w s₃ hw place s₄ hplace _ s₅ hs₅ r _ op left right htree s hs =>
    have hallows : ∀ d ∈ r.tree.demands, s₀.Allows env d := by grind
    refine hQ _ _ (by grind) (leaves_update (by grind) (htree ▸ hallows) ?_ hplace.2.2) ?_
    · grind
    · simp [Typed.Stmt.hasBreak]
  all_goals grind [State.Leaves.of_refused, Typed.Stmt.hasBreak]

/-! ## Declarations -/

/-- What is known of the tree of a specification of variables, and of what it leaves. -/
structure State.LeavesSpec (s₀ : State) (env : Env) (s : State) (env' : Env) (spec : VarSpec) :
    Prop where
  serves : ∀ d ∈ Expr.demandsOf (spec.values.getD []), s₀.Serves d
  scopes : ∀ Γ, s₀.Admits env Γ → spec.Scoped Γ ∧ s.Admits env' (spec.binds ++ Γ)

/-- New variables with values from before are declared. -/
theorem State.LeavesSpec.of_new {spec : VarSpec} (hs : s₀.Extends s)
    (hvalues : ∀ e ∈ spec.values.getD [], ∀ d ∈ e.demands, s₀.Allows env d)
    (hnew : ∀ b, some b ∈ spec.binders → s₀.objects.size ≤ b.id ∧ b.id < s.objects.size)
    (henv : ∀ Γ, (∀ b, some b ∈ spec.binders → b.id ∈ Γ) → s.Admits env Γ → s.Admits env' Γ) :
    s₀.LeavesSpec env s env' spec := by
  have hbinds : ∀ id ∈ spec.binds, s₀.objects.size ≤ id ∧ id < s.objects.size := by
    simpa [VarSpec.binds] using hnew
  refine ⟨serves_demandsOf hvalues, fun Γ hΓ => ⟨⟨hΓ.usesOf_subset hvalues, ?_⟩, ?_⟩⟩
  · intro id hid hmem
    exact absurd (hΓ.below id hmem) (Nat.not_lt.mpr (hbinds id hid).1)
  · refine henv _ (fun b hb => mem_append_left Γ ?_)
      ((hΓ.mono hs).append fun id hid => (hbinds id hid).2)
    exact mem_filterMap.mpr ⟨some b, hb, rfl⟩

/-- The names of new variables are declared. -/
theorem declareBinders_spec (env : Env) (binders : List (Option Typed.Binder)) :
    Gives s₀ (binders.foldlM declareBinder env) fun env' s =>
      s = s₀ ∧ ∀ Γ, (∀ b, some b ∈ binders → b.id ∈ Γ) → s₀.Admits env Γ → s₀.Admits env' Γ := by
  induction binders generalizing env s₀ with
  | nil => exact .pure ⟨rfl, fun _ _ => id⟩
  | cons b binders ih =>
    rw [foldlM_cons]
    refine .bind (P := fun env₁ s => s = s₀ ∧
      ∀ Γ, (∀ b', some b' = b → b'.id ∈ Γ) → s₀.Admits env Γ → s₀.Admits env₁ Γ) ?_ ?_
    · refine .intro fun Q hQ => ?_
      mvcgen [declareBinder]
      all_goals grind [State.Admits.insert_mem]
    · rintro env₁ _ ⟨rfl, henv₁⟩
      refine gives_iff.mpr fun env₂ s hrun => ?_
      obtain ⟨hs, henv₂⟩ := gives_iff.mp (ih env₁) env₂ s hrun
      refine ⟨hs, fun Γ hΓ h => henv₂ Γ (fun b' hb' => hΓ b' ?_) (henv₁ Γ (fun b' hb' => hΓ b' ?_) h)⟩
      · exact mem_cons_of_mem b hb'
      · exact hb' ▸ mem_cons_self ..

@[spec] theorem firstValues_spec (hg : goals.Sound) (env : Env) (names : List Name)
    (given : Option Ty) (values : List Source.Expr) :
    Gives s₀ (firstValues goals env names given values) fun xs s =>
      s₀.Extends s ∧ ∀ t y, some (t, y) ∈ xs → ∀ d ∈ y.tree.demands, s₀.Allows env d := by
  have hmap {s₁ : State} {f : Operand → Check (Option (Ty × Operand))} {l : List Operand} :=
    mapM_spec s₁ (f := f) (l := l) (P := fun (x : Option (Ty × Operand)) _ =>
      ∀ t y, x = some (t, y) → ∀ d ∈ y.tree.demands, s₀.Allows env d) (fun _ _ _ _ => id)
  mvcgen [firstValues, hmap]
  all_goals grind

@[spec] theorem varSpec_spec (hg : goals.Sound) (env : Env) (names : List Name)
    (type : Option Source.Expr) (values : List Source.Expr) :
    Gives s₀ (varSpec goals env names type values) fun r s =>
      s₀.Extends s ∧ s₀.LeavesSpec env s r.1 r.2 := by
  refine .bind (option_mapM_extends fun e _ Q hQ => ?_) fun given s₁ hs₁ => ?_
  · mvcgen with grind
  refine .bind (firstValues_spec hg env names given values) fun xs s₂ hxs => ?_
  have hs₂ : s₀.Extends s₂ := hs₁.trans hxs.1
  refine .bind (mapM_spec s₂ (P := fun (b : Option Typed.Binder) s =>
    ∀ b' ∈ b, s₀.objects.size ≤ b'.id ∧ b'.id < s.objects.size) ?_ ?_) fun binders s₃ hbinders => ?_
  · grind
  · intro p _ s₃ hs₃ Q hQ
    mvcgen
    all_goals grind
  refine .bind (declareBinders_spec env binders) fun env' s₄ henv' => ?_
  obtain ⟨rfl, henv'⟩ := henv'
  have hs : s₀.Extends s₄ := hs₂.trans hbinders.1
  refine .pure ⟨hs, .of_new hs (fun e he d hd => ?_) (fun b hb => ?_) henv'⟩
  · have he : e ∈ xs.filterMap fun x => x.map fun p => p.2.tree := by
      grind [mem_of_mem_take]
    obtain ⟨x, hx, hex⟩ := mem_filterMap.mp he
    obtain ⟨p, rfl, rfl⟩ := Option.map_eq_some_iff.mp hex
    exact hs₁.allows (hxs.2 p.1 p.2 hx d hd)
  · exact hbinders.2.2 (some b) hb b rfl

/-- A value that is assigned to a constant makes it one. -/
@[spec] theorem constEntity_spec (hg : goals.Sound) (env : Env) (type : Option Source.Expr)
    (value : Source.Expr) : Gives s₀ (constEntity goals env type value) fun e s =>
      s₀.Extends s ∧ ∃ t c, e = .const t c := by
  mvcgen [constEntity]
  all_goals grind

/-- A new object with a meaning that is not that of a variable. -/
theorem State.noVar_of_new {id : ObjId} {e : Entity} (hvalid : s₀.Valid) (hs : s₀.Extends s)
    (hid : s₀.objects.size ≤ id) (he : (s.objectAt id).entity = some e) (hvar : ∀ t, e ≠ .var t) :
    s.NoVar id := by
  refine ⟨?_, fun hgroup => ?_, e, he, hvar⟩
  · rw [hs.pending, objectAt_of_size_le hid]
    rfl
  · exact absurd (hvalid.grouped id (hs.grouped.mp hgroup)) (Nat.not_lt.mpr hid)

@[spec] theorem declareConst_spec (env : Env) (c : Name × Entity) (hc : ∃ t v, c.2 = .const t v) :
    Gives s₀ (declareConst env c) fun env' s => s₀.Extends s ∧ s₀.Keeps env s env' := by
  obtain ⟨t, v, hc⟩ := hc
  have hfunc : ∀ t', some c.2 ≠ some (.func t') := by simp [hc]
  refine .bind (newObject_spec _ rfl hfunc) fun id s₁ hid => ?_
  obtain ⟨hs₁, rfl, -, hobject⟩ := hid
  refine gives_iff.mpr fun env' s hrun => ?_
  obtain ⟨rfl, henv'⟩ := gives_iff.mp (declare_spec env c.1.text _) env' s hrun
  refine ⟨hs₁, fun Γ hΓ => ?_⟩
  have hno : s.NoVar s₀.objects.size :=
    State.noVar_of_new hΓ.valid hs₁ le_rfl (by rw [hobject]) (by simp [hc])
  obtain rfl | rfl := henv'
  · exact hΓ.mono hs₁
  · exact (hΓ.mono hs₁).insert_noVar hno c.1.text

@[spec] theorem constSpecs_spec (hg : goals.Sound) (env : Env) (specs : List Source.ValueSpec) :
    Gives s₀ (constSpecs goals env specs) fun env' s => s₀.Extends s ∧ s₀.Keeps env s env' := by
  refine foldlM_spec s₀ (I := fun env' s => s₀.Keeps env s env') (fun _ => id)
    fun env₁ spec _ s₁ hs₁ henv₁ Q hQ => ?_
  refine .bind (require_spec _ _) fun _ s₂ hs₂ => ?_
  obtain ⟨rfl, -⟩ := hs₂
  refine .bind (mapM_spec s₂ (P := fun (e : Entity) _ => ∃ t c, e = .const t c)
    (fun _ _ _ _ => id) fun value _ s₃ _ Q hQ => ?_) fun entities s₃ hentities => ?_
  · mvcgen with grind
  have hfold := foldlM_spec s₃ (I := fun env' s => s₀.Keeps env s env') (f := declareConst) (b := env₁)
    (l := spec.2.1.zip entities) (fun Γ hΓ => (henv₁ Γ hΓ).mono hentities.1)
    fun env₂ c hc s₄ _ henv₂ Q hQ => ?_
  · refine gives_iff.mpr fun env' s hrun => ?_
    obtain ⟨hs, henv'⟩ := gives_iff.mp hfold env' s hrun
    exact hQ env' s (hentities.1.trans hs) henv'
  · have hconst := hentities.2.2 c.2 (of_mem_zip hc).2
    refine gives_iff.mpr fun env' s hrun => ?_
    obtain ⟨hs, henv'⟩ := gives_iff.mp (declareConst_spec env₂ c hconst) env' s hrun
    exact hQ env' s hs fun Γ hΓ => henv' Γ (henv₂ Γ hΓ)

/-- The object is no function of the file. -/
def State.NoFunc (s : State) (id : ObjId) : Prop :=
  ∀ decl, (s.objectAt id).pending ≠ some (.func decl)

@[grind →] theorem State.Extends.noFunc {id : ObjId} (h : s.Extends s') (hid : s.NoFunc id) :
    s'.NoFunc id :=
  fun decl hdecl => hid decl ((h.pending id).symm.trans hdecl)

/-- An object that is no function takes a meaning, but is no variable if it has one of its own. -/
@[spec] theorem setEntity_spec (id : ObjId) (e : Entity) (hid : s₀.Signed → s₀.NoFunc id)
    (hfunc : ∀ t, e ≠ .func t) (hvar : s₀.NoVar id → ∀ t, e ≠ .var t) :
    Gives s₀ (setEntity id e) fun _ s => s₀.Extends s := by
  refine gives_iff.mpr fun _ s hrun => ?_
  cases hrun
  refine State.extends_modify (fun _ => rfl) (fun hno => ⟨e, rfl, hvar hno⟩) fun hs => ⟨?_, ?_⟩
  · exact fun decl _ hdecl => absurd hdecl (hid hs decl)
  · rintro t ⟨⟩
    exact absurd rfl (hfunc t)

@[spec] theorem typeEntity_spec (hg : goals.Sound) (env : Env) (spec : Source.TypeSpec) (id : ObjId)
    (d : Declared) (hid : s₀.NoFunc id) :
    Gives s₀ (typeEntity goals env spec id d) fun _ s => s₀.Extends s := by
  mvcgen [typeEntity]
  all_goals grind

@[spec] theorem typeSpecs_spec (hg : goals.Sound) (env : Env) (specs : List Source.TypeSpec) :
    Gives s₀ (typeSpecs goals env specs) fun _ s => s₀.Extends s := by
  mvcgen [typeSpecs]
  all_goals grind [State.NoFunc, State.Extends.pending]

/-- Specifications are checked one after the other. -/
theorem State.Leaves.concat {specs : List VarSpec} {spec : VarSpec} {env₁ : Env} {s₁ : State}
    (h : s₀.Leaves env s₁ env₁ (.vars specs)) (hs : s₀.Extends s₁)
    (hspec : s₁.LeavesSpec env₁ s env' spec) : s₀.Leaves env s env' (.vars (specs ++ [spec])) where
  serves := by
    have hserves := h.serves
    simp only [Typed.Stmt.demands, flatMap_append, flatMap_singleton] at hserves ⊢
    exact forall_mem_append.mpr ⟨hserves, fun d hd => hs.serves (hspec.serves d hd)⟩
  scopes Γ hΓ := by
    obtain ⟨hspecs, hafter⟩ := h.scopes Γ hΓ
    rw [Typed.Stmt.Scoped] at hspecs ⊢
    obtain ⟨hscoped, hadmits⟩ := hspec.scopes _ (hafter rfl)
    refine ⟨VarSpec.allScoped_concat hspecs hscoped, fun _ => ?_⟩
    refine hadmits.mono_scope (fun id hid => ?_) fun id hid => hadmits.below id ?_
    · simpa [Typed.Stmt.binds, or_left_comm, or_assoc] using hid
    · simpa [Typed.Stmt.binds, or_left_comm, or_assoc] using hid

@[spec] theorem declStmt_spec (hg : goals.Sound) (env : Env) (d : Source.Decl) :
    Gives s₀ (declStmt goals env d) fun r s =>
      s₀.Extends s ∧ s₀.Leaves env s r.1 r.2 ∧ r.2.hasBreak = false := by
  cases d with
  | consts pos specs =>
    refine .bind (constSpecs_spec hg env specs) fun env' s hs => .pure ⟨hs.1, .of_empty hs.2, ?_⟩
    simp [Typed.Stmt.hasBreak]
  | types pos specs =>
    refine .bind (typeSpecs_spec hg env specs) fun env' s hs => .pure ⟨hs, .of_refused pos _, ?_⟩
    simp [Typed.Stmt.hasBreak]
  | vars pos specs =>
    refine .bind (foldlM_spec s₀ (I := fun (acc : Env × List VarSpec) s =>
      s₀.Leaves env s acc.1 (.vars acc.2)) ?_ ?_) fun r s hs => .pure ⟨hs.1, hs.2, ?_⟩
    · exact .of_scoped ((State.Extends.refl s₀).keeps env) (by simp [Typed.Stmt.demands])
        (fun Γ _ => by simp [Typed.Stmt.Scoped, VarSpec.AllScoped]) rfl
    · intro acc spec _ s₁ hs₁ hacc Q hQ
      obtain ⟨names, type, values⟩ := spec
      refine .bind (varSpec_spec hg acc.1 names type values) fun r s₂ hr => .pure ?_
      exact hQ _ _ hr.1 (hacc.concat hs₁ hr.2)
    · simp [Typed.Stmt.hasBreak]

/-! ## Control statements -/

/-- A statement is checked after other steps. -/
@[grind →] theorem State.Leaves.of_extends {tree : Typed.Stmt} (hs : s₀.Extends s)
    (h : s.Leaves env s' env' tree) : s₀.Leaves env s' env' tree where
  serves d hd := hs.serves (h.serves d hd)
  scopes Γ hΓ := h.scopes Γ (hΓ.mono hs)

/-- Only names matter for what a statement leaves. -/
theorem State.Leaves.of_local? {tree : Typed.Stmt} {env₁ : Env} (h : s₀.Leaves env₁ s env' tree)
    (henv : env₁.local? = env.local?) : s₀.Leaves env s env' tree where
  serves := h.serves
  scopes Γ hΓ := h.scopes Γ (hΓ.of_local? henv)

@[spec] theorem optionStmt_spec (hg : goals.Sound) (env : Env) (st : Option Source.Stmt) :
    Gives s₀ (optionStmt goals env st) fun r s =>
      s₀.Extends s ∧ s₀.Leaves env s r.1 r.2 ∧ s.MirrorsOption r.2 st := by
  cases st with
  | none => exact .pure ⟨.refl s₀, .of_empty ((State.Extends.refl s₀).keeps env), rfl⟩
  | some st =>
    refine gives_iff.mpr fun r s hrun => ?_
    obtain ⟨hs, hleaves, hmirrors⟩ := gives_iff.mp (hg.stmt s₀ _ st) r s hrun
    exact ⟨hs, hleaves.of_local? rfl, hmirrors⟩

@[spec] theorem inScope_spec (hg : goals.Sound) (env : Env) (body : List Source.Stmt) :
    Gives s₀ (inScope goals env body) fun trees s =>
      s₀.Extends s ∧ (∀ d ∈ Typed.Stmt.demandsOf trees, s₀.Serves d) ∧
      (∀ Γ, s₀.Admits env Γ → Typed.Stmt.AllScoped Γ trees) ∧ s.MirrorsAll body trees := by
  mvcgen [inScope] with grind

@[spec] theorem condition_spec (hg : goals.Sound) (env : Env) (e : Source.Expr) :
    Gives s₀ (condition goals env e) fun tree s =>
      s₀.Extends s ∧ ∀ d ∈ tree.demands, s₀.Allows env d := by
  mvcgen [condition] with grind

/-- The tree of a return statement. -/
theorem leaves_ret {value : Option Expr} (hs : s₀.Extends s)
    (hvalue : ∀ e ∈ value.toList, ∀ d ∈ e.demands, s₀.Allows env d) :
    s₀.Leaves env s env (.ret value) := by
  refine .of_scoped (hs.keeps env) ?_ (fun Γ hΓ => ?_) rfl
  · rw [Typed.Stmt.demands]
    exact State.serves_demandsOf hvalue
  · rw [Typed.Stmt.Scoped]
    exact hΓ.usesOf_subset hvalue

@[spec] theorem returnStmt_spec (hg : goals.Sound) (env : Env) (pos : Pos)
    (values : List Source.Expr) : Gives s₀ (returnStmt goals env pos values) fun tree s =>
      s₀.Extends s ∧ s₀.Leaves env s env tree ∧ tree.hasBreak = false ∧ tree.isTerminating := by
  have hmap {s₁ : State} {f : Operand × (Option (String × ObjId) × Ty) → Check Operand}
      {l : List (Operand × (Option (String × ObjId) × Ty))} :=
    mapM_spec s₁ (f := f) (l := l)
      (P := fun x _ => ∀ d ∈ x.tree.demands, s₀.Allows env d) (fun _ _ _ _ => id)
  mvcgen [returnStmt, hmap]
  all_goals grind [leaves_ret, State.Leaves.of_refused, Typed.Stmt.hasBreak, Typed.Stmt.isTerminating]

@[spec] theorem switchClauses_spec (hg : goals.Sound) (env : Env) (tag : Operand)
    (seen : List (Ty × Constant)) (clauses : List Source.Clause) :
    Gives s₀ (switchClauses goals env tag seen clauses) fun _ s => s₀.Extends s := by
  induction clauses generalizing seen s₀ with
  | nil => exact .pure (.refl s₀)
  | cons clause clauses ih =>
    obtain ⟨isDefault, values, body⟩ := clause
    refine .intro fun Q hQ => ?_
    mvcgen [switchClauses, ih]
    all_goals grind

@[spec] theorem switchStmt_spec (hg : goals.Sound) (env : Env) (init : Option Source.Stmt)
    (tag : Option Source.Expr) (clauses : List Source.Clause) :
    Gives s₀ (switchStmt goals env init tag clauses) fun _ s => s₀.Extends s := by
  refine .intro fun Q hQ => ?_
  mvcgen [switchStmt] with grind

@[spec] theorem namesNil_spec (env : Env) (e : Source.Expr) :
    Gives s₀ (namesNil env e) fun _ s => s = s₀ := by
  mvcgen [namesNil] with grind

@[spec] theorem caseTypes_spec (hg : goals.Sound) (env : Env) (x : Ty) (seen : List (Option Ty))
    (values : List Source.Expr) :
    Gives s₀ (caseTypes goals env x seen values) fun _ s => s₀.Extends s := by
  mvcgen [caseTypes] with grind

@[spec] theorem typeClauses_spec (hg : goals.Sound) (env : Env) (x : Ty) (binder : Option String)
    (seen : List (Option Ty)) (clauses : List Source.Clause) :
    Gives s₀ (typeClauses goals env x binder seen clauses) fun _ s => s₀.Extends s := by
  induction clauses generalizing seen s₀ with
  | nil => exact .pure (.refl s₀)
  | cons clause clauses ih =>
    obtain ⟨isDefault, values, body⟩ := clause
    mvcgen [typeClauses, ih]
    all_goals grind

@[spec] theorem typeSwitchStmt_spec (hg : goals.Sound) (env : Env) (init : Option Source.Stmt)
    (binder : Option Source.Expr) (operand : Source.Expr) (clauses : List Source.Clause) :
    Gives s₀ (typeSwitchStmt goals env init binder operand clauses) fun _ s => s₀.Extends s := by
  mvcgen [typeSwitchStmt] with grind

@[spec] theorem selectClauses_spec (hg : goals.Sound) (env : Env)
    (clauses : List Source.Communication) :
    Gives s₀ (selectClauses goals env clauses) fun _ s => s₀.Extends s := by
  induction clauses generalizing s₀ with
  | nil => exact .pure (.refl s₀)
  | cons clause clauses ih =>
    obtain ⟨comm, body⟩ := clause
    refine .intro fun Q hQ => ?_
    mvcgen [selectClauses, ih]
    all_goals grind

@[spec] theorem rangeVars_spec (env : Env) (targets : List Source.Expr) (types : List Ty) :
    Gives s₀ (rangeVars env targets types) fun _ s => s₀.Extends s := by
  refine .intro fun Q hQ => ?_
  mvcgen [rangeVars] with grind

@[spec] theorem rangeStmt_spec (hg : goals.Sound) (env : Env) (targets : List Source.Expr)
    (define : Bool) (operand : Source.Expr) (body : List Source.Stmt) :
    Gives s₀ (rangeStmt goals env targets define operand body) fun _ s => s₀.Extends s := by
  refine .intro fun Q hQ => ?_
  mvcgen [rangeStmt] with grind

/-! ## Statements -/

/-- The tree of a call that stands alone. -/
theorem leaves_call {callee : String} {args : List Expr} (hs : s₀.Extends s)
    (h : ∀ d ∈ (Expr.call callee args).demands, s₀.Allows env d) :
    s₀.Leaves env s env (.call callee args) := by
  refine .of_scoped (hs.keeps env) (fun d hd => ?_) (fun Γ hΓ => ?_) rfl
  · rw [Typed.Stmt.demands] at hd
    exact (h d hd).1
  · rw [Typed.Stmt.Scoped]
    have huses := hΓ.uses_subset h
    rwa [Expr.uses] at huses

@[spec] theorem exprStmt_spec (hg : goals.Sound) (env : Env) (st : Source.Stmt) (e : Source.Expr) :
    Gives s₀ (exprStmt goals env st e) fun tree s =>
      s₀.Extends s ∧ s₀.Leaves env s env tree ∧ s.Mirrors (.expr e) tree := by
  mvcgen [exprStmt]
  all_goals grind [leaves_call, State.Leaves.of_refused, State.Mirrors.call, State.Mirrors.of_refused,
    isEmptyStmt]

/-- The tree of a block. -/
theorem leaves_block {body : List Typed.Stmt} (hs : s₀.Extends s)
    (hserves : ∀ d ∈ Typed.Stmt.demandsOf body, s₀.Serves d)
    (hscoped : ∀ Γ, s₀.Admits env Γ → Typed.Stmt.AllScoped Γ body) :
    s₀.Leaves env s env (.block body) := by
  refine .of_scoped (hs.keeps env) ?_ (fun Γ hΓ => ?_) rfl
  · rwa [Typed.Stmt.demands]
  · rw [Typed.Stmt.Scoped]
    exact hscoped Γ hΓ

/-- The tree of a conditional statement. Its first part is checked before the others. -/
theorem leaves_ifThen {init otherwise : Typed.Stmt} {cond : Expr} {body : List Typed.Stmt}
    {scope env₁ : Env} {s₁ s₂ s₃ : State}
    (hs₁ : s₀.Extends s₁) (hs₂ : s₁.Extends s₂) (hs₃ : s₂.Extends s₃) (hs : s₃.Extends s)
    (hinit : s₀.Leaves env.enter s₁ scope init)
    (hcond : ∀ d ∈ cond.demands, s₁.Allows scope d)
    (hserves : ∀ d ∈ Typed.Stmt.demandsOf body, s₂.Serves d)
    (hscoped : ∀ Γ, s₂.Admits scope Γ → Typed.Stmt.AllScoped Γ body)
    (hotherwise : s₃.Leaves scope s env₁ otherwise) :
    s₀.Leaves env s env (.ifThen init cond body otherwise) := by
  have hs₀ := hs₁.trans (hs₂.trans hs₃)
  refine .of_scoped ((hs₀.trans hs).keeps env) ?_ (fun Γ hΓ => ?_) rfl
  · rw [Typed.Stmt.demands]
    refine forall_mem_append.mpr ⟨hinit.serves, forall_mem_append.mpr ⟨fun d hd => ?_,
      forall_mem_append.mpr ⟨fun d hd => ?_, fun d hd => ?_⟩⟩⟩
    · exact hs₁.serves (hcond d hd).1
    · exact hs₁.serves (hs₂.serves (hserves d hd))
    · exact hs₀.serves (hotherwise.serves d hd)
  · rw [Typed.Stmt.Scoped]
    obtain ⟨hi, hafter⟩ := hinit.scopes Γ hΓ.enter
    refine ⟨hi, fun hrefused => ?_⟩
    have hadmits := hafter hrefused
    exact ⟨hadmits.uses_subset hcond, hscoped _ (hadmits.mono hs₂),
      (hotherwise.scopes _ (hadmits.mono (hs₂.trans hs₃))).1⟩

/-- The tree of a loop. -/
theorem leaves_loop {init : Typed.Stmt} {cond : Option Expr} {post : Option Typed.Stmt}
    {body : List Typed.Stmt} {scope : Env} {s₁ s₂ s₃ : State}
    (hs₁ : s₀.Extends s₁) (hs₂ : s₁.Extends s₂) (hs₃ : s₂.Extends s₃) (hs : s₃.Extends s)
    (hinit : s₀.Leaves env.enter s₁ scope init)
    (hcond : ∀ c ∈ cond, ∀ d ∈ c.demands, s₁.Allows scope d)
    (hpost : ∀ p ∈ post, ∃ s' env', s₂.Leaves scope s' env' p)
    (hserves : ∀ d ∈ Typed.Stmt.demandsOf body, s₃.Serves d)
    (hscoped : ∀ Γ, s₃.Admits scope Γ → Typed.Stmt.AllScoped Γ body) :
    s₀.Leaves env s env (.loop init cond post body) := by
  have hs₀ := hs₁.trans (hs₂.trans hs₃)
  have hcond : ∀ c ∈ cond.toList, ∀ d ∈ c.demands, s₁.Allows scope d := by simpa using hcond
  refine .of_scoped ((hs₀.trans hs).keeps env) ?_ (fun Γ hΓ => ?_) rfl
  · rw [Typed.Stmt.demands]
    refine forall_mem_append.mpr ⟨hinit.serves, forall_mem_append.mpr ⟨fun d hd => ?_,
      forall_mem_append.mpr ⟨fun d hd => ?_, fun d hd => ?_⟩⟩⟩
    · exact hs₁.serves (State.serves_demandsOf hcond d hd)
    · cases post with
      | none => simp [Typed.Stmt.postDemands] at hd
      | some p =>
        obtain ⟨_, _, hp⟩ := hpost p rfl
        exact hs₁.serves (hs₂.serves (hp.serves d hd))
    · exact hs₀.serves (hserves d hd)
  · rw [Typed.Stmt.Scoped]
    obtain ⟨hi, hafter⟩ := hinit.scopes Γ hΓ.enter
    refine ⟨hi, fun hrefused => ?_⟩
    have hadmits := hafter hrefused
    refine ⟨hadmits.usesOf_subset hcond, ?_, hscoped _ (hadmits.mono (hs₂.trans hs₃))⟩
    cases post with
    | none => trivial
    | some p =>
      obtain ⟨_, _, hp⟩ := hpost p rfl
      exact (hp.scopes _ (hadmits.mono hs₂)).1

/-- A statement that is checked, but not compiled. -/
@[grind ←] theorem leaves_notCompiledStmt (st : Source.Stmt) :
    s₀.Leaves env s env' (notCompiledStmt st) :=
  .of_refused st.pos _

@[grind ←] theorem leaves_leave (hs : s₀.Extends s) (pos : Pos) :
    s₀.Leaves env s env (.leave pos) :=
  .of_scoped (hs.keeps env) (by simp [Typed.Stmt.demands]) (by simp [Typed.Stmt.Scoped]) rfl

@[grind ←] theorem leaves_again (hs : s₀.Extends s) (pos : Pos) :
    s₀.Leaves env s env (.again pos) :=
  .of_scoped (hs.keeps env) (by simp [Typed.Stmt.demands]) (by simp [Typed.Stmt.Scoped]) rfl

/-- What is known of the tree of a statement, and of the surroundings after it. -/
theorem stmtRule_spec (hg : goals.Sound) (env : Env) (st : Source.Stmt) :
    Gives s₀ (stmtRule goals env st) fun r s =>
      s₀.Extends s ∧ s₀.Leaves env s r.1 r.2 ∧ s.Mirrors st r.2 := by
  cases st with
  | empty pos =>
    refine .pure ⟨.refl s₀, .of_empty ((State.Extends.refl s₀).keeps env), fun _ => rfl, ?_, ?_⟩
    · simp [Typed.Stmt.hasBreak]
    · simp [isTerminating]
  | labeled name body =>
    refine .bind (hg.stmt s₀ env body) fun r s hr => ?_
    exact .pure ⟨hr.1, leaves_notCompiledStmt _, State.Mirrors.of_refused rfl _ _⟩
  | block pos body =>
    refine .bind (inScope_spec hg _ body) fun trees s htrees => ?_
    obtain ⟨hs, hserves, hscoped, hmirrors⟩ := htrees
    exact .pure ⟨hs, leaves_block hs hserves fun Γ hΓ => hscoped Γ hΓ.update, .block hmirrors⟩
  | ifThen pos init cond body otherwise =>
    refine .bind (optionStmt_spec hg _ init) fun first s₁ hfirst => ?_
    obtain ⟨hs₁, hinit, hfirst⟩ := hfirst
    refine .bind (condition_spec hg _ cond) fun c s₂ hc => ?_
    refine .bind (inScope_spec hg _ body) fun trees s₃ htrees => ?_
    obtain ⟨hs₃, hserves, hscoped, hmirrors⟩ := htrees
    refine .bind (optionStmt_spec hg _ otherwise) fun last s hlast => .pure ?_
    obtain ⟨hs, hotherwise, hlast⟩ := hlast
    exact ⟨hs₁.trans (hc.1.trans (hs₃.trans hs)), leaves_ifThen hs₁ hc.1 hs₃ hs
      (hinit.of_local? rfl) hc.2 hserves hscoped hotherwise, .ifThen hfirst hmirrors hs hlast⟩
  | loop pos init cond post body =>
    refine .bind (optionStmt_spec hg _ init) fun first s₁ hfirst => ?_
    obtain ⟨hs₁, hinit, hfirst⟩ := hfirst
    refine .bind (option_mapM_spec s₁ (P := fun (c : Expr) _ =>
      ∀ d ∈ c.demands, s₁.Allows first.1 d) fun e _ Q hQ => ?_) fun c s₂ hc => ?_
    · mvcgen
      all_goals grind
    obtain ⟨hs₂, hnone, hc⟩ := hc
    refine .bind (option_mapM_spec s₂ (P := fun (p : Typed.Stmt) _ =>
      ∃ s' env', s₂.Leaves first.1 s' env' p) fun e _ Q hQ => ?_) fun p s₃ hp => ?_
    · split
      · mvcgen
        grind
      · refine .bind (hg.stmt s₂ first.1 _) fun r s hr => .pure ?_
        exact hQ r.2 s hr.1 ⟨s, r.1, hr.2.1⟩
    refine .bind (inScope_spec hg _ body) fun trees s htrees => .pure ?_
    obtain ⟨hs, hserves, hscoped, hmirrors⟩ := htrees
    exact ⟨hs₁.trans (hs₂.trans (hp.1.trans hs)), leaves_loop hs₁ hs₂ hp.1 hs
      (hinit.of_local? rfl) hc hp.2.2 hserves fun Γ hΓ => hscoped Γ hΓ.update,
      .loop hfirst hnone hmirrors⟩
  | ret pos values =>
    refine .bind (returnStmt_spec hg env pos values) fun tree s htree => .pure ?_
    exact ⟨htree.1, htree.2.1, .of_isTerminating rfl htree.2.2.1 htree.2.2.2⟩
  | assign targets op values =>
    refine .intro fun Q hQ => ?_
    have hplain {s : State} {tree : Typed.Stmt} (h : tree.hasBreak = false) :
        s.Mirrors (.assign targets op values) tree := .of_plain rfl (fun _ => rfl) h
    mvcgen [stmtRule]
    all_goals grind
  | incDec operand increment =>
    have hplain {s : State} {tree : Typed.Stmt} (h : tree.hasBreak = false) :
        s.Mirrors (.incDec operand increment) tree := .of_plain rfl (fun _ => rfl) h
    mvcgen [stmtRule]
    all_goals grind
  | decl d =>
    refine gives_iff.mpr fun r s hrun => ?_
    obtain ⟨hs, hleaves, hbreaks⟩ := gives_iff.mp (declStmt_spec hg env d) r s hrun
    exact ⟨hs, hleaves, .of_plain rfl (fun _ => rfl) hbreaks⟩
  | _ =>
    mvcgen [stmtRule]
    all_goals grind [State.Leaves.of_refused, State.Mirrors.of_refused, State.Mirrors.leave,
      State.Mirrors.again, isEmptyStmt, notCompiledStmt]

end SsaBlocks.Check
