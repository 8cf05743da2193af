import SsaBlocks.Proofs.Check.Declaration

/-!
# Collecting the objects of a file

All objects of a file are declared before any of them is resolved. Until then none of them has a
meaning, and a name of the file stands for the function of that name.
-/

set_option mvcgen.warning false

/-- A function that the file can call by its name, since it imports all members of a package. -/
def SsaBlocks.Source.File.Borrows (lib : SsaBlocks.Check.Library) (f : SsaBlocks.Source.File)
    (name : String) : Prop :=
  SsaBlocks.Check.isExported name = true ∧ ∃ spec ∈ f.imports, ∃ p, lib.package? spec.path = some p ∧ spec.name.getD p.name = "." ∧
    ∃ t, (name, .func t) ∈ p.members

namespace SsaBlocks.Check

open List

open SsaBlocks.Source (Pos Name)
open SsaBlocks.Types
open Std.Do

variable {s₀ s s' : State} {F : String → Prop} {entries : List Entry} {n : Nat} {id : ObjId}
  {name : String}

/-- The function is known by its name in the file. -/
def inFileScope (decl : Source.FuncDecl) : Bool :=
  decl.receiver.isNone && decl.name.text != "init" && decl.name.text != "_"

/-- The name of a function that no other function may have. -/
def Entry.uniqueName? : Entry → Option String
  | .func _ decl => if inFileScope decl then some decl.name.text else none
  | _ => none

/-- The object that is made for a declaration of the file. -/
def Object.ofPending (name : String) (p : Pending) : Object where
  name
  kind := p.kind
  pending := some p
  isGlobal := true
  mustUse := p.kind == .package && name != "_"

namespace State

/-- An object of the file is declared, with its name if `scope` is set. -/
structure Declares (s₀ : State) (name : String) (scope : Bool) (p : Pending) (s : State) :
    Prop where
  objects : s.objects =
    s₀.objects.push (.ofPending name p)
  predeclared : s.predeclared = s₀.predeclared
  heads : s.heads = s₀.heads
  initials : s.initials = s₀.initials
  file : s.file = if scope then (name, s₀.objects.size) :: s₀.file else s₀.file
  new : scope = true → s₀.file.lookup name = none

/-- No object of the file has been resolved. -/
structure Unresolved (s : State) : Prop where
  file : ∀ name id, s.file.lookup name = some id → id < s.objects.size
  predeclared : ∀ name id, s.predeclared.lookup name = some id → id < s.objects.size
  entity : ∀ id p, (s.objectAt id).pending = some p → (s.objectAt id).entity = none
  noFunc : ∀ id t, (s.objectAt id).entity ≠ some (.func t)
  heads : s.heads = []
  initials : s.initials = []

/-- The objects of some declarations have been declared, and the names of functions that are imported
are among `F`. Variables with shared values have numbers below `n`. -/
structure Collected (s : State) (F : String → Prop) (entries : List Entry) (n : Nat) : Prop
    extends s.Unresolved where
  grouped : ∀ id, s.Grouped id → id < n ∧ s.NoFunc id
  pending : ∀ id decl, .func id decl ∈ entries → (s.objectAt id).pending = some (.func decl)
  initializer : ∀ id decl, .func id decl ∈ entries → decl.receiver = none →
    decl.name.text = "init" → decl.type.params = []
  named : ∀ name id decl, s.file.lookup name = some id →
    (s.objectAt id).pending = some (.func decl) →
      .func id decl ∈ entries ∧ decl.receiver = none ∧ decl.name.text = name ∧ name ≠ "init"
  imported : ∀ name id package t, s.file.lookup name = some id →
    (s.objectAt id).pending = some (.imported package (.func t)) → F name
  unique : ∀ id decl, .func id decl ∈ entries → inFileScope decl →
    s.file.lookup decl.name.text = some id
  nodup : (entries.filterMap Entry.uniqueName?).Nodup

/-- The objects of a file can be resolved. -/
theorem Collected.valid (h : s.Collected F entries s.objects.size) : s.Valid where
  file := h.file
  predeclared := h.predeclared
  grouped id hid := (h.grouped id hid).1
  signed := by
    refine ⟨fun id => ⟨fun decl e hdecl he => ?_, fun t ht => absurd ht (h.noFunc id t)⟩,
      fun id decl hid => (h.grouped id hid).2 decl⟩
    simp [h.entity id _ hdecl] at he
  records := ⟨by simp [h.heads], by simp [h.initials]⟩

namespace Declares

variable {scope : Bool} {p : Pending}

variable (h : s₀.Declares name scope p s)
include h

theorem objectAt (id' : ObjId) : s.objectAt id' =
    if id' = s₀.objects.size then .ofPending name p else s₀.objectAt id' := by
  have hpush := objectAt_push (s := s₀) (.ofPending name p) id'
  rw [← hpush, State.objectAt, State.objectAt, h.objects]

theorem size : s.objects.size = s₀.objects.size + 1 := by
  rw [h.objects, Array.size_push]

theorem lookup (name' : String) : s.file.lookup name' =
    if scope ∧ name' = name then some s₀.objects.size else s₀.file.lookup name' := by
  rw [h.file]
  cases scope with
  | false => simp
  | true =>
    rw [if_pos rfl, lookup_cons]
    by_cases hname : name' = name
    · simp [hname]
    · simp [hname, beq_false_of_ne hname]

/-- What is grouped was so before, or is grouped by the new object. -/
theorem grouped {id' : ObjId} (hid' : s.Grouped id') :
    s₀.Grouped id' ∨ ∃ type group value, p = .shared type group value ∧ id' ∈ group := by
  obtain ⟨j, type, group, value, hj, hmem⟩ := hid'
  rw [h.objectAt] at hj
  split at hj
  · exact .inr ⟨type, group, value, Option.some.inj hj, hmem⟩
  · exact .inl ⟨j, type, group, value, hj, hmem⟩

/-- The new object is no function, and neither are those that were none before. -/
theorem noFunc (hp : p.kind ≠ .function) {id' : ObjId} (hid' : s₀.NoFunc id') : s.NoFunc id' := by
  intro decl
  rw [h.objectAt]
  split
  · rintro ⟨⟩
    exact hp rfl
  · exact hid' decl

end Declares

theorem Unresolved.declare {scope : Bool} {p : Pending} (h : s₀.Unresolved)
    (hd : s₀.Declares name scope p s) : s.Unresolved where
  file name' id' hid' := by
    rw [hd.size]
    rw [hd.lookup] at hid'
    split at hid'
    · cases hid'
      exact Nat.lt_succ_self _
    · exact (h.file name' id' hid').trans (Nat.lt_succ_self _)
  predeclared name' id' hid' := by
    rw [hd.size]
    exact (h.predeclared name' id' (hd.predeclared ▸ hid')).trans (Nat.lt_succ_self _)
  entity id' p' hp' := by
    rw [hd.objectAt] at hp' ⊢
    split
    · rfl
    · next hne => exact h.entity id' p' (by rwa [if_neg hne] at hp')
  noFunc id' t := by
    rw [hd.objectAt]
    split
    · nofun
    · exact h.noFunc id' t
  heads := hd.heads.trans h.heads
  initials := hd.initials.trans h.initials

namespace Collected

variable {scope : Bool} {p : Pending}

/-- The functions that have been declared keep their numbers. -/
theorem pending_declare (h : s₀.Collected F entries n) (hd : s₀.Declares name scope p s) (id : ObjId)
    (decl : Source.FuncDecl) (hmem : .func id decl ∈ entries) :
    (s.objectAt id).pending = some (.func decl) := by
  have hold := h.pending id decl hmem
  have hne : id ≠ s₀.objects.size := by
    rintro rfl
    rw [objectAt_of_size_le le_rfl] at hold
    cases hold
  rwa [hd.objectAt, if_neg hne]

/-- A name stands for the new object or for what it stood for before. -/
theorem named_declare (h : s₀.Collected F entries n) (hd : s₀.Declares name scope p s)
    {name' : String} {id : ObjId} {p' : Pending} (hid : s.file.lookup name' = some id)
    (hp' : (s.objectAt id).pending = some p') :
    (scope = true ∧ name' = name ∧ id = s₀.objects.size ∧ p = p') ∨
      s₀.file.lookup name' = some id ∧ (s₀.objectAt id).pending = some p' := by
  rw [hd.lookup] at hid
  rw [hd.objectAt] at hp'
  split at hid
  · next hscope =>
    cases hid
    rw [if_pos rfl] at hp'
    exact .inl ⟨hscope.1, hscope.2, rfl, Option.some.inj hp'⟩
  · rw [if_neg (h.file name' id hid).ne] at hp'
    exact .inr ⟨hid, hp'⟩

/-- A name keeps what it stands for, since no name is declared twice. -/
theorem lookup_declare (hd : s₀.Declares name scope p s) {name' : String}
    (h : s₀.file.lookup name' = some id) : s.file.lookup name' = some id := by
  rw [hd.lookup]
  split
  · next hscope =>
    rw [hscope.2, hd.new hscope.1] at h
    cases h
  · exact h

/-- A function that is known by its name stands under it. -/
theorem exists_lookup (h : s.Collected F entries n)
    (hname : name ∈ entries.filterMap Entry.uniqueName?) : ∃ id, s.file.lookup name = some id := by
  obtain ⟨e, he, hname⟩ := mem_filterMap.mp hname
  cases e with
  | func id decl =>
    obtain ⟨hscope, rfl⟩ : inFileScope decl = true ∧ decl.name.text = name := by
      simpa [Entry.uniqueName?] using hname
    exact ⟨id, h.unique id decl he hscope⟩
  | _ => cases hname

/-- A variable, constant or type is declared. -/
theorem declare_value (h : s₀.Collected F entries n) (hd : s₀.Declares name scope p s)
    (hp : p.kind ≠ .function)
    (hgroup : ∀ type group value, p = .shared type group value →
      ∀ id ∈ group, id < n ∧ s₀.NoFunc id)
    (himported : ∀ package t, p = .imported package (.func t) → scope = true → F name) :
    s.Collected F entries n where
  toUnresolved := h.toUnresolved.declare hd
  grouped id' hid' := by
    obtain hold | ⟨type, group, value, rfl, hmem⟩ := hd.grouped hid'
    · exact ⟨(h.grouped id' hold).1, hd.noFunc hp (h.grouped id' hold).2⟩
    · exact ⟨(hgroup type group value rfl id' hmem).1, hd.noFunc hp (hgroup _ _ _ rfl id' hmem).2⟩
  pending := h.pending_declare hd
  initializer := h.initializer
  named name' id' decl hid' hdecl := by
    obtain ⟨-, -, -, rfl⟩ | ⟨hid', hdecl⟩ := h.named_declare hd hid' hdecl
    · exact absurd rfl hp
    · exact h.named name' id' decl hid' hdecl
  imported name' id' package t hid' ht := by
    obtain ⟨hscope, rfl, -, rfl⟩ | ⟨hid', ht⟩ := h.named_declare hd hid' ht
    · exact himported package t rfl hscope
    · exact h.imported name' id' package t hid' ht
  unique id' decl hmem hscope := lookup_declare hd (h.unique id' decl hmem hscope)
  nodup := h.nodup

/-- A function is declared. -/
theorem declare_func {decl : Source.FuncDecl} (h : s₀.Collected F entries s₀.objects.size)
    (hd : s₀.Declares decl.name.text (inFileScope decl) (.func decl) s)
    (hinit : decl.receiver = none → decl.name.text = "init" → decl.type.params = []) :
    s.Collected F (entries ++ [.func s₀.objects.size decl]) s.objects.size where
  toUnresolved := h.toUnresolved.declare hd
  grouped id' hid' := by
    obtain hold | ⟨type, group, value, ⟨⟩, -⟩ := hd.grouped hid'
    obtain ⟨hlt, hfunc⟩ := h.grouped id' hold
    refine ⟨hd.size ▸ hlt.trans (Nat.lt_succ_self _), fun decl' => ?_⟩
    rw [hd.objectAt, if_neg hlt.ne]
    exact hfunc decl'
  pending id' decl' hmem := by
    obtain hmem | hmem := mem_append.mp hmem
    · exact h.pending_declare hd id' decl' hmem
    · cases mem_singleton.mp hmem
      rw [hd.objectAt, if_pos rfl, Object.ofPending]
  initializer id' decl' hmem := by
    obtain hmem | hmem := mem_append.mp hmem
    · exact h.initializer id' decl' hmem
    · cases mem_singleton.mp hmem
      exact hinit
  named name' id' decl' hid' hdecl' := by
    obtain ⟨hscope, rfl, rfl, ⟨⟩⟩ | ⟨hid', hdecl'⟩ := h.named_declare hd hid' hdecl'
    · simp only [inFileScope, Bool.and_eq_true, Option.isNone_iff_eq_none, bne_iff_ne] at hscope
      exact ⟨mem_append_right _ (mem_singleton.mpr rfl), hscope.1.1, rfl, hscope.1.2⟩
    · exact (h.named name' id' decl' hid' hdecl').imp_left (mem_append_left _)
  imported name' id' package t hid' ht := by
    obtain ⟨-, -, -, ⟨⟩⟩ | ⟨hid', ht⟩ := h.named_declare hd hid' ht
    exact h.imported name' id' package t hid' ht
  unique id' decl' hmem hscope := by
    obtain hmem | hmem := mem_append.mp hmem
    · exact lookup_declare hd (h.unique id' decl' hmem hscope)
    · cases mem_singleton.mp hmem
      simp [hd.lookup, hscope]
  nodup := by
    rw [filterMap_append, nodup_append]
    refine ⟨h.nodup, ?_, fun name' hname' name'' hname'' => ?_⟩
    · rw [filterMap_cons, filterMap_nil]
      split <;> simp
    · obtain ⟨hscope, rfl⟩ : inFileScope decl = true ∧ decl.name.text = name'' := by
        simpa [Entry.uniqueName?] using hname''
      rintro rfl
      obtain ⟨id, hid⟩ := h.exists_lookup hname'
      simp [hd.new hscope] at hid

/-- Larger numbers are allowed, too. -/
theorem mono {n' : Nat} (h : s.Collected F entries n) (hn : n ≤ n') : s.Collected F entries n' :=
  { h with grouped := fun id hid => ⟨(h.grouped id hid).1.trans_le hn, (h.grouped id hid).2⟩ }

end Collected

end State

/-! ## Steps -/

theorem declareGlobal_spec (name : String) (inScope : Bool) (p : Pending) :
    Gives s₀ (declareGlobal name inScope p) fun id s =>
      id = s₀.objects.size ∧ s₀.Declares name (inScope && name != "_") p s := by
  unfold declareGlobal newObject
  mvcgen
  · next s hs _ hscope _ _ hnew =>
    subst hs
    refine ⟨rfl, rfl, rfl, rfl, rfl, by rw [if_pos hscope], fun _ => ?_⟩
    simpa using hnew.2
  · next s hs _ hscope =>
    subst hs
    exact ⟨rfl, rfl, rfl, rfl, rfl, by rw [if_neg hscope], fun h => absurd h hscope⟩

@[spec] theorem declareValue_spec (name : String) (p : Pending) :
    Gives s₀ (declareValue name p) fun _ s => ∃ scope, s₀.Declares name scope p s := by
  mvcgen [declareValue, declareGlobal_spec]
  all_goals grind

section Loops

variable {α β : Type} {f : α → Check β} {l : List α}

/-- Each element of a list is mapped. The invariant counts the elements. -/
theorem mapM_inv (s₀ : State) {I : Nat → State → Prop} (hI : I 0 s₀)
    (hf : ∀ k, ∀ a ∈ l, ∀ s₁, I k s₁ → Gives s₁ (f a) fun _ s => I (k + 1) s) :
    Gives s₀ (l.mapM f) fun _ s => I l.length s := by
  induction l generalizing s₀ I with
  | nil => exact .pure hI
  | cons a l ih =>
    rw [mapM_cons]
    refine .bind (hf 0 a (mem_cons_self ..) s₀ hI) fun b s₁ hs₁ => ?_
    have hrest := ih (I := fun k => I (k + 1)) s₁ hs₁ fun k c hc =>
      hf (k + 1) c (mem_cons_of_mem a hc)
    exact .bind hrest fun bs s₂ hs₂ => .pure hs₂

theorem flatMapM_inv (s₀ : State) {I : State → Prop} {f : α → Check (List β)} (hI : I s₀)
    (hf : ∀ a ∈ l, ∀ s₁, I s₁ → Gives s₁ (f a) fun _ s => I s) :
    Gives s₀ (l.flatMapM f) fun _ s => I s := by
  induction l generalizing s₀ with
  | nil => exact .pure hI
  | cons a l ih =>
    rw [flatMapM_cons]
    refine .bind (hf a (mem_cons_self ..) s₀ hI) fun bs s₁ hs₁ => ?_
    refine .bind (ih s₁ hs₁ fun c hc => hf c (mem_cons_of_mem a hc)) fun _ s₂ hs₂ => ?_
    exact .pure hs₂

end Loops

/-- The objects of some declarations have been declared, and no others are to come. -/
def State.Complete (s : State) (F : String → Prop) (entries : List Entry) : Prop :=
  s.Collected F entries s.objects.size

/-- The declaration is not that of a function, or of a variable with a shared value. -/
def Pending.isOwn : Pending → Bool
  | .shared .. | .func _ => false
  | _ => true

/-- Something with a value of its own is declared. -/
theorem declareGlobal_complete {p : Pending} (h : s₀.Complete F entries) (name : String)
    (inScope : Bool) (hp : p.isOwn = true)
    (himported : ∀ package t, p = .imported package (.func t) → inScope = true → F name) :
    Gives s₀ (declareGlobal name inScope p) fun _ s => s.Complete F entries := by
  refine gives_iff.mpr fun id s hrun => ?_
  obtain ⟨-, hd⟩ := gives_iff.mp (declareGlobal_spec name inScope p) id s hrun
  refine (h.declare_value hd ?_ ?_ ?_).mono (hd.size ▸ Nat.le_succ _)
  · cases p with
    | func decl => cases hp
    | type spec =>
      obtain ⟨_, _, isAlias, _⟩ := spec
      cases isAlias <;> nofun
    | _ => nofun
  · rintro type group value rfl
    cases hp
  · exact fun package t hpending hscope => himported package t hpending (by simp_all)

/-- A variable, constant or type with a value of its own is declared. -/
theorem declareValue_complete {p : Pending} (h : s₀.Complete F entries) (name : String)
    (hp : p.isOwn = true) (himported : ∀ package e, p ≠ .imported package e) :
    Gives s₀ (declareValue name p) fun _ s => s.Complete F entries := by
  refine .bind Gives.get ?_
  rintro _ _ ⟨rfl, rfl⟩
  refine .bind (require_spec _ _) fun _ s₁ hs₁ => ?_
  obtain ⟨rfl, -⟩ := hs₁
  exact declareGlobal_complete h name true hp fun package t heq => absurd heq (himported package _)

/-- Variables that share a value are declared one after the other. -/
theorem declareShared_complete (h : s₀.Complete F entries) (names : List Name)
    (type : Option Source.Expr) (value : Source.Expr) :
    Gives s₀ (names.mapM fun name => declareValue name.text
      (.shared type (range' s₀.objects.size names.length)
      value)) fun _ s => s.Complete F entries := by
  have hloop := mapM_inv s₀ (l := names)
    (f := fun name => declareValue name.text
      (.shared type (range' s₀.objects.size names.length) value))
    (I := fun k s => s.objects.size = s₀.objects.size + k ∧
      s.Collected F entries (s₀.objects.size + names.length) ∧
      ∀ id, s₀.objects.size ≤ id → s.NoFunc id) ⟨rfl, h.mono (Nat.le_add_right ..), ?_⟩ ?_
  · refine gives_iff.mpr fun ids s hrun => ?_
    obtain ⟨hsize, hs, -⟩ := gives_iff.mp hloop ids s hrun
    rwa [State.Complete, hsize]
  · intro id hid decl
    rw [State.objectAt_of_size_le hid]
    nofun
  · rintro k name - s₁ ⟨hsize, hs₁, hfunc⟩
    refine gives_iff.mpr fun id s hrun => ?_
    obtain ⟨scope, hd⟩ := gives_iff.mp (declareValue_spec _ _) id s hrun
    have hkind : (Pending.shared type (range' s₀.objects.size names.length) value).kind ≠
        .function := nofun
    refine ⟨?_, hs₁.declare_value hd hkind ?_ nofun, fun id hid => hd.noFunc hkind (hfunc id hid)⟩
    · rw [hd.size, hsize, Nat.add_assoc]
    · rintro _ _ _ ⟨⟩ id hid
      obtain ⟨hle, hlt⟩ := mem_range'_1.mp hid
      exact ⟨hlt, hfunc id hle⟩

theorem declareVars_complete (h : s₀.Complete F entries) (names : List Name)
    (type : Option Source.Expr) (values : List Source.Expr) :
    Gives s₀ (declareVars names type values) fun _ s => s.Complete F entries := by
  unfold declareVars
  match values with
  | [] =>
    exact mapM_inv s₀ (I := fun _ s => s.Complete F entries) h fun _ name _ s₁ hs₁ =>
      declareValue_complete hs₁ name.text rfl nofun
  | [value] =>
    refine .ite ?_ ?_
    · exact mapM_inv s₀ (I := fun _ s => s.Complete F entries) h fun _ name _ s₁ hs₁ =>
        declareValue_complete hs₁ name.text rfl nofun
    · refine .bind Gives.get ?_
      rintro _ _ ⟨rfl, rfl⟩
      exact declareShared_complete h names type value
  | first :: second :: rest =>
    refine .bind (require_spec _ _) fun _ s₁ hs₁ => ?_
    obtain ⟨rfl, -⟩ := hs₁
    exact mapM_inv s₁ (I := fun _ s => s.Complete F entries) h fun _ p _ s₁ hs₁ =>
      declareValue_complete hs₁ p.1.text rfl nofun

/-- The entry is a function. -/
def Entry.isFunc : Entry → Bool
  | .func .. => true
  | _ => false

/-- An entry that is no function. -/
theorem State.Complete.append_other {e : Entry} (h : s.Complete F entries)
    (he : e.isFunc = false) : s.Complete F (entries ++ [e]) := by
  have hname : e.uniqueName? = none := by
    cases e with
    | func id decl => cases he
    | _ => rfl
  have hmem : ∀ id decl, .func id decl ∈ entries ++ [e] ↔ .func id decl ∈ entries := by
    intro id decl
    have hne : Entry.func id decl ≠ e := by
      rintro rfl
      cases he
    simp [hne]
  have hnames : (entries ++ [e]).filterMap Entry.uniqueName? =
      entries.filterMap Entry.uniqueName? := by
    simp [filterMap_append, hname]
  exact { h with
    pending := fun id decl hid => h.pending id decl ((hmem id decl).mp hid)
    initializer := fun id decl hid => h.initializer id decl ((hmem id decl).mp hid)
    named := fun name id decl hid hdecl => (h.named name id decl hid hdecl).imp_left
      (hmem id decl).mpr
    unique := fun id decl hid => h.unique id decl ((hmem id decl).mp hid)
    nodup := hnames ▸ h.nodup }

/-- An initializer has no parameters. -/
theorem checkReserved_spec (decl : Source.FuncDecl) : Gives s₀ (checkReserved decl) fun _ s =>
      s = s₀ ∧ (decl.receiver = none → decl.name.text = "init" → decl.type.params = []) := by
  mvcgen [checkReserved]
  all_goals grind [isReserved]

/-- A package is imported. -/
theorem importPackage_complete {lib : Library} {f : Source.File} {spec : Source.ImportSpec}
    (h : s₀.Complete (f.Borrows lib) entries) (hspec : spec ∈ f.imports) :
    Gives s₀ (importPackage lib spec) fun _ s => s.Complete (f.Borrows lib) entries := by
  unfold importPackage
  cases hp : lib.package? spec.path with
  | none => exact fun _ _ => trivial
  | some p =>
    refine .bind (require_spec _ _) fun _ s₁ hs₁ => ?_
    obtain ⟨rfl, -⟩ := hs₁
    refine .bind Gives.get ?_
    rintro _ _ ⟨rfl, rfl⟩
    refine .bind (declareGlobal_complete h _ _ rfl nofun) fun package s₁ hs₁ => ?_
    refine forM_spec s₁ hs₁ fun m hm s₂ hs₂ Q hQ => gives_iff.mpr fun u s hrun => hQ u s ?_
    refine gives_iff.mp (.map (Q := fun _ s => s.Complete _ entries)
      (declareGlobal_complete hs₂ m.1 _ rfl fun _ t hentity hdot => ?_)) u s hrun
    obtain ⟨-, hentity⟩ := Pending.imported.inj hentity
    obtain ⟨hm, hexported⟩ := mem_filter.mp hm
    exact ⟨hexported, spec, hspec, p, hp, beq_iff_eq.mp hdot, t, hentity ▸ hm⟩

/-- The objects of a declaration are declared. -/
theorem collect_complete {lib : Library} {f : Source.File} {d : Source.TopDecl} (hd : d ∈ f.decls)
    (h : s₀.Complete (f.Borrows lib) entries) :
    Gives s₀ (collect lib d) fun r s => s.Complete (f.Borrows lib) (entries ++ r.toList) := by
  match d with
  | .imports specs =>
    refine .bind (forM_spec s₀ h fun spec hspec s₁ hs₁ Q hQ => gives_iff.mpr fun u s hrun => ?_)
      fun _ s hs => .pure (by simpa using hs)
    have hmem : spec ∈ f.imports := mem_flatMap.mpr ⟨_, hd, hspec⟩
    exact hQ u s (gives_iff.mp (importPackage_complete hs₁ hmem) u s hrun)
  | .decl (.vars pos specs) =>
    refine .bind (mapM_inv s₀ (I := fun _ s => s.Complete _ entries) h ?_)
      fun specs s hs => .pure (hs.append_other (e := .vars specs) rfl)
    rintro _ ⟨names, type, values⟩ - s₁ hs₁
    exact .bind (declareVars_complete hs₁ names type values) fun ids s hs => .pure hs
  | .decl (.consts pos specs) =>
    refine .bind (flatMapM_inv s₀ (I := fun s => s.Complete _ entries) h ?_)
      fun ids s hs => .pure (hs.append_other (e := .consts ids) rfl)
    rintro ⟨iota, names, type, values⟩ - s₁ hs₁
    refine .bind (require_spec _ _) fun _ s₂ hs₂ => ?_
    obtain ⟨rfl, -⟩ := hs₂
    refine mapM_inv s₂ (I := fun _ s => s.Complete _ entries) hs₁ ?_
    rintro _ ⟨name, value⟩ - s₁ hs₁
    exact declareValue_complete (p := .const type value iota) hs₁ name.text rfl nofun
  | .decl (.types pos specs) =>
    refine .bind (mapM_inv s₀ (I := fun _ s => s.Complete _ entries) h ?_)
      fun ids s hs => .pure (hs.append_other (e := .types pos ids) rfl)
    rintro _ ⟨name, typeParams, isAlias, type⟩ - s₁ hs₁
    exact declareValue_complete (p := .type (.mk name typeParams isAlias type)) hs₁ name.text rfl nofun
  | .func decl =>
    refine .bind (checkReserved_spec decl) fun _ s₁ hs₁ => ?_
    obtain ⟨rfl, hinit⟩ := hs₁
    refine .bind (declareGlobal_spec decl.name.text _ (.func decl)) fun id s hid => ?_
    obtain ⟨rfl, hd⟩ := hid
    exact .pure (h.declare_func hd hinit)

/-- The objects of several declarations are declared. -/
theorem collectAll_complete {lib : Library} {f : Source.File} {ds : List Source.TopDecl}
    (hds : ∀ d ∈ ds, d ∈ f.decls) (h : s₀.Complete (f.Borrows lib) entries) :
    Gives s₀ (ds.filterMapM (collect lib)) fun new s =>
      s.Complete (f.Borrows lib) (entries ++ new) := by
  induction ds generalizing entries s₀ with
  | nil => exact .pure (by simpa using h)
  | cons d ds ih =>
    obtain ⟨hd, hds⟩ := forall_mem_cons.mp hds
    rw [filterMapM_cons]
    refine .bind (collect_complete hd h) fun r s₁ hs₁ => ?_
    cases r with
    | none => simpa using ih hds hs₁
    | some e =>
      refine .bind (ih hds hs₁) fun new s₂ hs₂ => .pure ?_
      simpa using hs₂

/-- No predeclared name stands for a function of a file. -/
theorem not_func_of_mem_predeclaredEntities {p : String × Entity} (hp : p ∈ predeclaredEntities)
    (t : Ty) : p.2 ≠ .func t := by
  simp only [predeclaredEntities, mem_append, mem_map] at hp
  obtain (⟨_, -, rfl⟩ | ⟨_, -, rfl⟩) | hp := hp
  · nofun
  · nofun
  · simp only [mem_cons, not_mem_nil, or_false] at hp
    obtain rfl | rfl | rfl | rfl | rfl | rfl | rfl := hp
    all_goals nofun

/-- The objects before a file is looked at. -/
theorem State.objectAt_start (lib : Library) (f : Source.File) (depth : Nat) (id : ObjId) :
    ((State.start lib f depth).objectAt id).pending = none ∧
      ∀ t, ((State.start lib f depth).objectAt id).entity ≠ some (.func t) := by
  by_cases hid : id < predeclaredEntities.length
  · have hobject : (State.start lib f depth).objectAt id =
        { name := predeclaredEntities[id].1, entity := some predeclaredEntities[id].2 } := by
      simp [objectAt, start, hid]
    rw [hobject]
    refine ⟨rfl, fun t ht => ?_⟩
    exact not_func_of_mem_predeclaredEntities (getElem_mem hid) t (Option.some.inj ht)
  · have hsize : (State.start lib f depth).objects.size ≤ id := by
      simpa [start] using hid
    rw [objectAt_of_size_le hsize]
    refine ⟨rfl, fun t ht => ?_⟩
    cases ht

/-- Before a file is looked at, there are only the predeclared objects. -/
theorem State.complete_start (lib : Library) (f : Source.File) (depth : Nat) :
    (State.start lib f depth).Complete F [] where
  file := by simp [start]
  predeclared name id hid := by
    obtain ⟨l, l', hsplit, -⟩ := lookup_eq_some_iff.mp hid
    have hmem : (name, id) ∈ (State.start lib f depth).predeclared := by simp [hsplit]
    obtain ⟨p, hp, heq⟩ := mem_map.mp hmem
    have hlt := snd_lt_of_mem_zipIdx hp
    cases heq
    simpa [start] using hlt
  entity id p hp := by simp [(objectAt_start lib f depth id).1] at hp
  noFunc id := (objectAt_start lib f depth id).2
  heads := rfl
  initials := rfl
  grouped := by
    rintro id ⟨j, type, group, value, hj, -⟩
    simp [(objectAt_start lib f depth j).1] at hj
  pending := by simp
  initializer := by simp
  named name id decl hid := by simp [start] at hid
  imported name id package t hid := by simp [start] at hid
  unique := by simp
  nodup := by simp

end SsaBlocks.Check
