import Mathlib
import SsaBlocks.Check.File
import SsaBlocks.Proofs.Typed.Demands

/-!
# Steps of checking

Checking a file makes objects and gives them meanings. Once the objects of a file have been
collected, a step of checking never takes an object or a name of the file back, and an object of a
function that is not a variable never becomes one. A function of the file has the type that its
declaration gives it. `State.Extends` says so; the specifications of the steps are triples that start
in a state `s₀` and end in a state that extends it.
-/

set_option mvcgen.warning false

namespace SsaBlocks.Source

/-- How many parameters share the type of a field. -/
def Field.count (f : Field) : Nat :=
  if f.names.isEmpty then 1 else f.names.length

/-- The field is that of a variadic parameter. -/
def Field.isVariadic (f : Field) : Bool :=
  match f.type with
  | .ellipsis _ (some _) => true
  | _ => false

namespace Signature

/-- How many parameters a function has. -/
def arity (sig : Signature) : Nat :=
  (sig.params.map Field.count).sum

/-- A function takes any number of arguments for its last parameter. -/
def isVariadic (sig : Signature) : Bool :=
  sig.params.any Field.isVariadic

/-- The type is that of a function with the signature, as far as its parameters are concerned. -/
def Types (sig : Signature) (t : Types.Ty) : Prop :=
  ∃ params results typeParams, t = .func params results sig.isVariadic typeParams ∧
    params.length = sig.arity ∧ (sig.typeParams = [] → typeParams = [])

end Signature

end SsaBlocks.Source

namespace SsaBlocks.Check

open SsaBlocks.Source (Pos Name)
open SsaBlocks.Types
open SsaBlocks.Typed (Demand)
open Std.Do

variable {α β γ : Type} {s s' s'' s₀ : State} {env : Env} {id : ObjId} {n n' : Nat}

/-- The names of a function stand for objects below a number. -/
def Env.Below (env : Env) (n : Nat) : Prop :=
  ∀ name id, env.local? name = some id → id < n

theorem Env.local?_enter (env : Env) (name : String) : env.enter.local? name = env.local? name := by
  simp [enter, local?, List.findSome?_cons]

theorem Env.local?_insert (env : Env) (name name' : String) (id : ObjId) :
    (env.insert name id).local? name' = if name' = name then some id else env.local? name' := by
  have hlookup (s : Scope) : ((name, id) :: s).lookup name' =
      if name' = name then some id else s.lookup name' := by
    rw [List.lookup_cons]
    split <;> simp_all
  unfold insert local?
  split <;> split <;> simp_all [List.findSome?_cons]

namespace Env.Below

@[grind →] theorem mono (h : env.Below n) (hn : n ≤ n') : env.Below n' :=
  fun name id hid => (h name id hid).trans_le hn

@[grind ←] theorem enter (h : env.Below n) : env.enter.Below n :=
  fun name id hid => h name id (env.local?_enter name ▸ hid)

@[grind ←] theorem insert (h : env.Below n) (hid : id < n) (name : String) :
    (env.insert name id).Below n := by
  intro name' id' hid'
  rw [local?_insert] at hid'
  split at hid'
  · cases hid'
    exact hid
  · exact h name' id' hid'

/-- Only the names of the scopes matter. -/
@[grind ←] theorem update (h : env.Below n) {iota : Option Nat} {owners : List ObjId}
    {inBody canBreak canContinue canFallThrough : Bool} {typeParams : List Nat}
    {results : List (Option (String × ObjId) × Ty)} :
    Env.Below { env with
      iota, owners, inBody, typeParams, results, canBreak, canContinue, canFallThrough } n :=
  h

end Env.Below

/-- A function of the file has the type of its declaration, and no other object is a function but
those that are imported. -/
def Object.Signed (o : Object) : Prop :=
  (∀ decl e, o.pending = some (.func decl) → o.entity = some e →
    ∃ t, e = .func t ∧ decl.type.Types t) ∧
  ∀ t, o.entity = some (.func t) → (∃ decl, o.pending = some (.func decl)) ∨
    ∃ package, o.pending = some (.imported package (.func t))

/-- What is known of the signature of a function that is read. -/
structure FuncHead.Of (head : FuncHead) (sig : Source.Signature) : Prop where
  types : sig.Types head.type
  params : head.params.length = sig.arity
  variadic : sig.isVariadic = true → ∃ p ∈ head.params, ∃ t, p.type = .slice t

namespace State

/-- The object with a number. -/
def objectAt (s : State) (id : ObjId) : Object :=
  s.objects.getD id default

/-- The object is one of several variables of the file with the results of one expression. -/
def Grouped (s : State) (id : ObjId) : Prop :=
  ∃ j type group value, (s.objectAt j).pending = some (.shared type group value) ∧ id ∈ group

/-- The object has a meaning of its own and is no variable. -/
def NoVar (s : State) (id : ObjId) : Prop :=
  (s.objectAt id).pending = none ∧ ¬ s.Grouped id ∧
    ∃ e, (s.objectAt id).entity = some e ∧ ∀ t, e ≠ .var t

/-- The object that a name stands for. -/
def resolve (s : State) (env : Env) (name : String) : Option ObjId :=
  (env.local? name).or ((s.file.lookup name).or (s.predeclared.lookup name))

/-- A name stands for the number, which may be that of a variable. -/
def Nameable (s : State) (env : Env) (id : ObjId) : Prop :=
  (∃ name, s.resolve env name = some id) ∧ ¬ s.NoVar id

/-- Functions have the types of their declarations, and are no variables with shared values. -/
structure Signed (s : State) : Prop where
  object : ∀ id, (s.objectAt id).Signed
  grouped : ∀ id decl, s.Grouped id → (s.objectAt id).pending ≠ some (.func decl)

/-- The file declares a function of the name that can be called with a number of arguments, unless it
is generic or variadic, or imports one. -/
def Callable (s : State) (name : String) (n : Nat) : Prop :=
  ∃ id, s.file.lookup name = some id ∧
    ((∃ decl, (s.objectAt id).pending = some (.func decl) ∧
      (decl.type.typeParams = [] → decl.type.isVariadic = false → decl.type.arity = n)) ∨
    ∃ package t, (s.objectAt id).pending = some (.imported package (.func t)))

/-- What a tree may demand, whatever variables are in scope. -/
def Serves (s : State) : Demand → Prop
  | .var _ => True
  | .func name n => s.Signed → s.Callable name n
  | .op _ => False

/-- What a tree may demand in some surroundings. -/
def Allows (s : State) (env : Env) (d : Demand) : Prop :=
  s.Serves d ∧ ∀ id, d = .var id → s.Nameable env id

/-- The signature of a function of the file. -/
structure HeadOf (s : State) (id : ObjId) (head : FuncHead) : Prop where
  below : head.env.Below s.objects.size
  declared : ∃ decl, (s.objectAt id).pending = some (.func decl) ∧ head.Of decl.type

/-- What is noted of the functions and variables of the file. -/
structure Records (s : State) : Prop where
  heads : ∀ p ∈ s.heads, s.HeadOf p.1 p.2
  initials : ∀ p ∈ s.initials, ∀ d ∈ p.2.demands, s.Serves d

/-- What a step of checking respects. -/
structure Extends (s s' : State) : Prop where
  file : s'.file = s.file
  predeclared : s'.predeclared = s.predeclared
  size : s.objects.size ≤ s'.objects.size
  pending : ∀ id, (s'.objectAt id).pending = (s.objectAt id).pending
  noVar : ∀ id, s.NoVar id → s'.NoVar id
  signed : s.Signed → s'.Signed
  records : s.Signed → s.Records → s'.Records
  compiled : s.compiled ⊆ s'.compiled

theorem Callable.congr {name : String} (hfile : s'.file = s.file)
    (hpending : ∀ id, (s'.objectAt id).pending = (s.objectAt id).pending) :
    s'.Callable name n ↔ s.Callable name n := by
  simp only [Callable, hfile, hpending]

/-- What a tree may demand depends on the names and declarations of the file. -/
theorem Serves.keep {d : Demand} (h : s.Serves d) (hs : s.Signed) (hfile : s'.file = s.file)
    (hpending : ∀ id, (s'.objectAt id).pending = (s.objectAt id).pending) : s'.Serves d := by
  cases d with
  | var id => trivial
  | func name n => exact fun _ => (Callable.congr hfile hpending).mpr (h hs)
  | op op => exact h

/-- What can be called can still be called, and goes on to have its signature. -/
theorem Records.keep (h : s.Records) (hs : s.Signed) (hfile : s'.file = s.file)
    (hsize : s.objects.size ≤ s'.objects.size)
    (hpending : ∀ id, (s'.objectAt id).pending = (s.objectAt id).pending)
    (hheads : s'.heads = s.heads) (hinitials : s'.initials = s.initials) : s'.Records where
  heads p hp := by
    obtain ⟨hbelow, decl, hdecl, hof⟩ := h.heads p (hheads ▸ hp)
    exact ⟨hbelow.mono hsize, decl, (hpending _).trans hdecl, hof⟩
  initials p hp d hd := (h.initials p (hinitials ▸ hp) d hd).keep hs hfile hpending

namespace Extends

/-- A step that leaves objects, names and signatures alone. -/
theorem of_same (hfile : s'.file = s.file) (hpredeclared : s'.predeclared = s.predeclared)
    (hobjects : s'.objects = s.objects) (hheads : s'.heads = s.heads)
    (hinitials : s'.initials = s.initials) (hcompiled : s.compiled ⊆ s'.compiled) :
    s.Extends s' := by
  have hat : s'.objectAt = s.objectAt := by
    funext id
    rw [objectAt, objectAt, hobjects]
  have hpending : ∀ id, (s'.objectAt id).pending = (s.objectAt id).pending := fun id => by rw [hat]
  refine ⟨hfile, hpredeclared, hobjects ▸ le_rfl, hpending, fun id hid => ?_, fun hs => ?_,
    fun hs hr => hr.keep hs hfile (hobjects ▸ le_rfl) hpending hheads hinitials, hcompiled⟩
  · rwa [NoVar, Grouped, hat]
  · refine ⟨fun id => hat ▸ hs.object id, fun id decl hid => ?_⟩
    rw [Grouped, hat] at hid
    exact hat ▸ hs.grouped id decl hid

@[grind ←] theorem refl (s : State) : s.Extends s :=
  of_same rfl rfl rfl rfl rfl (List.Subset.refl _)

@[grind →] theorem trans (h : s.Extends s') (k : s'.Extends s'') : s.Extends s'' where
  file := k.file.trans h.file
  predeclared := k.predeclared.trans h.predeclared
  size := h.size.trans k.size
  pending id := (k.pending id).trans (h.pending id)
  noVar id hid := k.noVar id (h.noVar id hid)
  signed hs := k.signed (h.signed hs)
  records hs hr := k.records (h.signed hs) (h.records hs hr)
  compiled := List.Subset.trans h.compiled k.compiled

attribute [grind →] size

/-- What a state holds apart from objects, names, signatures and initial values does not matter. -/
@[grind ←] theorem update (h : s.Extends s') {packageName : String} {release : Option Nat}
    {store : Store} {path : List ObjId} {methods : List (ObjId × Method)}
    {references : List (ObjId × ObjId)} {calls : Nat} {panics : List Pos}
    {deferred : List Deferred} {instances : List (List Nat × List Ty)}
    {bodies : List (FuncHead × List Source.Stmt)} :
    s.Extends { s' with
      packageName, release, store, path, methods, references, calls, panics, deferred, instances,
      bodies } :=
  h.trans (of_same rfl rfl rfl rfl rfl (List.Subset.refl _))

/-- One more call is compiled. -/
@[grind ←] theorem compile (h : s.Extends s') (pos : Source.Pos) :
    s.Extends { s' with compiled := pos :: s'.compiled } :=
  h.trans (of_same rfl rfl rfl rfl rfl (List.subset_cons_self pos s'.compiled))

theorem grouped (h : s.Extends s') : s'.Grouped id ↔ s.Grouped id := by
  simp only [Grouped, h.pending]

theorem resolve (h : s.Extends s') (env : Env) (name : String) :
    s'.resolve env name = s.resolve env name := by
  rw [State.resolve, State.resolve, h.file, h.predeclared]

/-- What can be named later could be named before. -/
@[grind →] theorem nameable (h : s.Extends s') (hid : s'.Nameable env id) : s.Nameable env id := by
  obtain ⟨⟨name, hname⟩, hvar⟩ := hid
  exact ⟨⟨name, h.resolve env name ▸ hname⟩, fun hno => hvar (h.noVar id hno)⟩

@[grind →] theorem serves (h : s.Extends s') {d : Demand} (hd : s'.Serves d) : s.Serves d := by
  cases d with
  | var id => trivial
  | func name n => exact fun hs => (Callable.congr h.file h.pending).mp (hd (h.signed hs))
  | op op => exact hd

/-- What may be demanded later could be demanded before. -/
@[grind →] theorem allows (h : s.Extends s') {d : Demand} (hd : s'.Allows env d) :
    s.Allows env d :=
  ⟨h.serves hd.1, fun id hid => h.nameable (hd.2 id hid)⟩

end Extends

/-- The names of the file and of signatures stand for objects that there are. -/
structure Valid (s : State) : Prop where
  file : ∀ name id, s.file.lookup name = some id → id < s.objects.size
  predeclared : ∀ name id, s.predeclared.lookup name = some id → id < s.objects.size
  grouped : ∀ id, s.Grouped id → id < s.objects.size
  signed : s.Signed
  records : s.Records

theorem Extends.valid (h : s.Extends s') (hs : s.Valid) : s'.Valid where
  file name id hid := (hs.file name id (h.file ▸ hid)).trans_le h.size
  predeclared name id hid := (hs.predeclared name id (h.predeclared ▸ hid)).trans_le h.size
  grouped id hid := (hs.grouped id (h.grouped.mp hid)).trans_le h.size
  signed := h.signed hs.signed
  records := h.records hs.signed hs.records

/-- The numbers that are in scope in some surroundings. -/
structure Admits (s : State) (env : Env) (Γ : List Typed.VarId) : Prop where
  valid : s.Valid
  covers : ∀ id, s.Nameable env id → id ∈ Γ
  below : ∀ id ∈ Γ, id < s.objects.size

namespace Admits

variable {Γ : List Typed.VarId}

variable (h : s.Admits env Γ)
include h

@[grind →] theorem mono (hs : s.Extends s') : s'.Admits env Γ where
  valid := hs.valid h.valid
  covers id hid := h.covers id (hs.nameable hid)
  below id hid := (h.below id hid).trans_le hs.size

/-- Only names matter. -/
theorem of_local? {env' : Env} (henv : env'.local? = env.local?) : s.Admits env' Γ where
  valid := h.valid
  covers id hid := h.covers id (by simpa only [Nameable, resolve, henv] using hid)
  below := h.below

@[grind ←] theorem enter : s.Admits env.enter Γ :=
  h.of_local? (funext env.local?_enter)

@[grind ←] theorem update {iota : Option Nat} {owners : List ObjId}
    {inBody canBreak canContinue canFallThrough : Bool} {typeParams : List Nat}
    {results : List (Option (String × ObjId) × Ty)} :
    s.Admits { env with
      iota, owners, inBody, typeParams, results, canBreak, canContinue, canFallThrough } Γ :=
  h.of_local? rfl

/-- A new variable is in scope. -/
theorem insert (hid : id < s.objects.size) (name : String) :
    s.Admits (env.insert name id) (id :: Γ) where
  valid := h.valid
  covers id' hid' := by
    obtain ⟨⟨name', hname'⟩, hvar⟩ := hid'
    rw [resolve, Env.local?_insert] at hname'
    split at hname'
    · cases hname'
      exact List.mem_cons_self ..
    · exact List.mem_cons_of_mem _ (h.covers id' ⟨⟨name', hname'⟩, hvar⟩)
  below := List.forall_mem_cons.mpr ⟨hid, h.below⟩

/-- A name is declared for a number in scope. -/
theorem insert_mem (hid : id ∈ Γ) (name : String) : s.Admits (env.insert name id) Γ where
  valid := h.valid
  covers id' hid' := by
    obtain rfl | hmem := List.mem_cons.mp ((h.insert (h.below id hid) name).covers id' hid')
    · exact hid
    · exact hmem
  below := h.below

/-- A name is declared that stands for no variable. -/
theorem insert_noVar (hid : s.NoVar id) (name : String) : s.Admits (env.insert name id) Γ where
  valid := h.valid
  covers id' hid' := by
    obtain ⟨⟨name', hname'⟩, hvar⟩ := hid'
    rw [resolve, Env.local?_insert] at hname'
    split at hname'
    · cases hname'
      exact absurd hid hvar
    · exact h.covers id' ⟨⟨name', hname'⟩, hvar⟩
  below := h.below

theorem mono_scope {Γ' : List Typed.VarId} (hsub : Γ ⊆ Γ')
    (hbelow : ∀ id ∈ Γ', id < s.objects.size) : s.Admits env Γ' where
  valid := h.valid
  covers id hid := hsub (h.covers id hid)
  below := hbelow

end Admits

/-- What is known of the tree of a statement that is checked in the surroundings `env`, and of the
state `s` and the surroundings `env'` after it. -/
structure Leaves (s₀ : State) (env : Env) (s : State) (env' : Env) (tree : Typed.Stmt) : Prop where
  serves : ∀ d ∈ tree.demands, s₀.Serves d
  scopes : ∀ Γ, s₀.Admits env Γ →
    tree.Scoped Γ ∧ (tree.isRefused = false → s.Admits env' (tree.binds ++ Γ))

/-! ## Objects -/

theorem objectAt_push (o : Object) (id : ObjId) :
    ({ s with objects := s.objects.push o } : State).objectAt id =
      if id = s.objects.size then o else s.objectAt id := by
  unfold objectAt
  rw [Array.getD_eq_getD_getElem?, Array.getElem?_push, Array.getD_eq_getD_getElem?]
  split <;> rfl

theorem objectAt_of_size_le (h : s.objects.size ≤ id) : s.objectAt id = default := by
  rw [objectAt, Array.getD, dif_neg (Nat.not_lt.mpr h)]

theorem objectAt_modify (id id' : ObjId) (f : Object → Object) :
    ({ s with objects := s.objects.modify id f } : State).objectAt id' =
      if id' = id ∧ id < s.objects.size then f (s.objectAt id) else s.objectAt id' := by
  unfold objectAt
  rw [Array.getD_eq_getD_getElem?, Array.getElem?_modify, Array.getD_eq_getD_getElem?,
    Array.getD_eq_getD_getElem?]
  by_cases hid : id = id'
  · subst hid
    by_cases hlt : id < s.objects.size
    · simp [hlt]
    · simp [hlt]
  · simp [hid, Ne.symm hid]

theorem NoVar.lt (h : s.NoVar id) : id < s.objects.size := by
  obtain ⟨-, -, e, he, -⟩ := h
  by_contra hlt
  rw [objectAt_of_size_le (Nat.not_lt.mp hlt)] at he
  cases he

/-- A change of objects that keeps their declarations, and the meanings of those that are no
variables. -/
theorem extends_objects {objects : Array Object} (hsize : s.objects.size ≤ objects.size)
    (hpending : ∀ id, (({ s with objects } : State).objectAt id).pending =
      (s.objectAt id).pending)
    (hentity : ∀ id, s.NoVar id → ∃ e, (({ s with objects } : State).objectAt id).entity = some e ∧
      ∀ t, e ≠ .var t)
    (hsigned : s.Signed → ∀ id, (({ s with objects } : State).objectAt id).Signed) :
    s.Extends { s with objects } := by
  have hgrouped : ∀ id, ({ s with objects } : State).Grouped id → s.Grouped id := by
    rintro id ⟨j, type, group, value, hj, hmem⟩
    exact ⟨j, type, group, value, (hpending j).symm.trans hj, hmem⟩
  refine ⟨rfl, rfl, hsize, hpending, fun id hid => ⟨?_, fun hg => hid.2.1 (hgrouped id hg),
    hentity id hid⟩, fun hs => ⟨hsigned hs, fun id decl hg => ?_⟩,
    fun hs hr => hr.keep hs rfl hsize hpending rfl rfl, List.Subset.refl _⟩
  · rw [hpending]
    exact hid.1
  · rw [hpending]
    exact hs.grouped id decl (hgrouped id hg)

/-- A new object that is no declaration of the file. -/
theorem extends_push {o : Object} (ho : o.pending = none) (hfunc : ∀ t, o.entity ≠ some (.func t)) :
    s.Extends { s with objects := s.objects.push o } := by
  refine extends_objects (by simp) (fun id => ?_) (fun id hid => ?_) fun hs id => ?_
  · rw [objectAt_push]
    split
    · next hid =>
      rw [ho, objectAt_of_size_le hid.ge]
      rfl
    · rfl
  · rw [objectAt_push, if_neg hid.lt.ne]
    exact hid.2.2
  · rw [objectAt_push]
    split
    · exact ⟨fun decl e hdecl => by simp [ho] at hdecl, fun t ht => absurd ht (hfunc t)⟩
    · exact hs.object id

/-- An object is changed, but does not become a variable if it has a meaning of its own. -/
theorem extends_modify {f : Object → Object} (hpending : ∀ o, (f o).pending = o.pending)
    (hentity : s.NoVar id → ∃ e, (f (s.objectAt id)).entity = some e ∧ ∀ t, e ≠ .var t)
    (hsigned : s.Signed → (f (s.objectAt id)).Signed) :
    s.Extends { s with objects := s.objects.modify id f } := by
  refine extends_objects (Array.size_modify ..).ge (fun id' => ?_) (fun id' hid' => ?_)
    fun hs id' => ?_
  · rw [objectAt_modify]
    split
    · next hid =>
      rw [hpending, hid.1]
    · rfl
  · rw [objectAt_modify]
    split
    · next hid =>
      rw [hid.1] at hid'
      exact hentity hid'
    · exact hid'.2.2
  · rw [objectAt_modify]
    split
    · exact hsigned hs
    · exact hs.object id'

end State

/-! ## Triples -/

/-- Started in the state `s₀`, the step rejects the file or ends as required. -/
abbrev Gives (s₀ : State) (m : Check α) (Q : α → State → Prop) : Prop :=
  ⦃fun s => ⌜s = s₀⌝⦄ m ⦃⇓? a s => ⌜Q a s⌝⦄

theorem gives_iff {m : Check α} {Q : α → State → Prop} :
    Gives s₀ m Q ↔ ∀ a s, m s₀ = .ok (a, s) → Q a s := by
  have hwp : (wp⟦m⟧ (⇓? a s => ⌜Q a s⌝) s₀).down ↔ ∀ a s, m s₀ = .ok (a, s) → Q a s := by
    change (wp⟦m s₀⟧ (⇓? r => ⌜Q r.1 r.2⌝)).down ↔ _
    cases m s₀ with
    | error e => exact ⟨fun _ _ _ => nofun, fun _ => trivial⟩
    | ok r => exact ⟨fun h _ _ hr => (by cases hr; exact h), fun h => h r.1 r.2 rfl⟩
  constructor
  · intro h
    exact hwp.mp (h s₀ rfl)
  · intro h s hs
    cases hs
    exact hwp.mpr h

/-- Asks for whatever follows from the postcondition, so that the postcondition of a step at the end
is not mistaken for it. -/
theorem Gives.intro {m : Check α} {P : α → State → Prop}
    (h : ∀ Q : α → State → Prop, (∀ a s, P a s → Q a s) → Gives s₀ m Q) : Gives s₀ m P :=
  h P fun _ _ => id

theorem Gives.bind {m : Check α} {k : α → Check β} {P : α → State → Prop}
    {Q : β → State → Prop} (hm : Gives s₀ m P) (hk : ∀ a s₁, P a s₁ → Gives s₁ (k a) Q) :
    Gives s₀ (m >>= k) Q := by
  rw [gives_iff] at hm ⊢
  intro b s hrun
  change (m s₀ >>= fun r => k r.1 r.2) = .ok (b, s) at hrun
  cases hs : m s₀ with
  | error e =>
    rw [hs] at hrun
    cases hrun
  | ok r =>
    rw [hs] at hrun
    exact gives_iff.mp (hk r.1 r.2 (hm r.1 r.2 hs)) b s hrun

protected theorem Gives.pure {a : α} {Q : α → State → Prop} (h : Q a s₀) :
    Gives s₀ (Pure.pure a : Check α) Q := by
  refine gives_iff.mpr fun b s hrun => ?_
  cases hrun
  exact h

theorem Gives.get : Gives s₀ (get : Check State) fun a s => a = s₀ ∧ s = s₀ := by
  refine gives_iff.mpr fun a s hrun => ?_
  cases hrun
  exact ⟨rfl, rfl⟩

theorem Gives.ite {c : Prop} [Decidable c] {m m' : Check α} {Q : α → State → Prop}
    (hm : Gives s₀ m Q) (hm' : Gives s₀ m' Q) : Gives s₀ (if c then m else m') Q := by
  split
  · exact hm
  · exact hm'

theorem Gives.map {m : Check α} {f : α → β} {Q : β → State → Prop}
    (hm : Gives s₀ m fun a s => Q (f a) s) : Gives s₀ (f <$> m) Q := by
  rw [map_eq_pure_bind]
  exact .bind hm fun a s₁ ha => .pure ha

/-! ## Primitive steps -/

@[spec] theorem reject_spec (reason : String) :
    Gives s₀ (reject reason : Check α) fun _ _ => False := by
  intro s _
  trivial

@[spec] theorem require_spec (condition : Bool) (reason : String) :
    Gives s₀ (require condition reason) fun _ s => s = s₀ ∧ condition = true := by
  mvcgen [require] with grind

@[spec] theorem store_spec : Gives s₀ store fun _ s => s = s₀ := by
  mvcgen [store]

@[spec] theorem since_spec (release : Nat) : Gives s₀ (since release) fun _ s => s = s₀ := by
  mvcgen [since] with grind

@[spec] theorem modifyStore_spec (f : Store → Store) :
    Gives s₀ (modifyStore f) fun _ s => s₀.Extends s := by
  mvcgen [modifyStore] with grind

@[spec] theorem defer_spec (d : Deferred) : Gives s₀ (defer d) fun _ s => s₀.Extends s := by
  mvcgen [defer] with grind

@[spec] theorem newObject_spec (o : Object) (ho : o.pending = none)
    (hfunc : ∀ t, o.entity ≠ some (.func t)) : Gives s₀ (newObject o) fun id s =>
      s₀.Extends s ∧ id = s₀.objects.size ∧ s.objects.size = s₀.objects.size + 1 ∧
      s.objectAt id = o := by
  mvcgen [newObject]
  subst_vars
  refine ⟨State.extends_push ho hfunc, rfl, Array.size_push .., ?_⟩
  rw [State.objectAt_push, if_pos rfl]

@[spec] theorem newLocal_spec (name : String) (type : Ty) (mustUse : Bool) :
    Gives s₀ (newLocal name type mustUse) fun id s =>
      s₀.Extends s ∧ id = s₀.objects.size ∧ s.objects.size = s₀.objects.size + 1 := by
  mvcgen [newLocal] with grind

@[spec] theorem object_spec (id : ObjId) :
    Gives s₀ (object id) fun o s => s = s₀ ∧ o = s₀.objectAt id := by
  mvcgen [object] with grind [State.objectAt]

@[spec] theorem newTypeParam_spec (name : String) :
    Gives s₀ (newTypeParam name) fun _ s => s₀.Extends s := by
  mvcgen [newTypeParam] with grind

@[spec] theorem newDeclared_spec (d : Declared) :
    Gives s₀ (newDeclared d) fun _ s => s₀.Extends s := by
  mvcgen [newDeclared] with grind

@[spec] theorem modifyDeclared_spec (id : Nat) (f : Declared → Declared) :
    Gives s₀ (modifyDeclared id f) fun _ s => s₀.Extends s := by
  mvcgen [modifyDeclared]

/-- A name is declared for an object. -/
@[spec] theorem declare_spec (env : Env) (name : String) (id : ObjId) :
    Gives s₀ (declare env name id) fun env' s =>
      s = s₀ ∧ (env' = env ∨ env' = env.insert name id) := by
  mvcgen [declare] with grind

@[spec] theorem lookup?_spec (env : Env) (name : String) :
    Gives s₀ (lookup? env name) fun r s => s = s₀ ∧ r = s₀.resolve env name := by
  mvcgen [lookup?] with grind [State.resolve]

@[spec] theorem noteReference_spec (env : Env) (id : ObjId) :
    Gives s₀ (noteReference env id) fun _ s => s₀.Extends s := by
  mvcgen [noteReference] with grind

@[spec] theorem modifyUsed_spec (id : ObjId) (used : Bool) :
    Gives s₀ (modifyObject id fun o => { o with used }) fun _ s => s₀.Extends s := by
  mvcgen [modifyObject]
  subst_vars
  exact State.extends_modify (fun _ => rfl) (·.2.2) fun hs => hs.object id

@[spec] theorem noteUse_spec (id : ObjId) : Gives s₀ (noteUse id) fun _ s => s₀.Extends s := by
  refine .intro fun Q hQ => ?_
  mvcgen [noteUse]
  all_goals grind

@[spec] theorem mayReferToItself_spec (id : ObjId) :
    Gives s₀ (mayReferToItself id) fun _ s => s = s₀ := by
  mvcgen [mayReferToItself]

@[spec] theorem noteInstance_spec (params : List Nat) (args : List Ty) :
    Gives s₀ (noteInstance params args) fun _ s => s₀.Extends s := by
  mvcgen [noteInstance] with grind

/-- A pair of a zipped list, without naming its parts. -/
@[grind →] theorem mem_and_mem_of_mem_zip {l : List α} {l' : List β} {p : α × β}
    (h : p ∈ l.zip l') : p.1 ∈ l ∧ p.2 ∈ l' :=
  List.of_mem_zip h

/-! ## Steps that are made of others

What is asked of the parts of a step has the form of `Gives.intro`, too. -/

section Combinators

variable {f : α → Check β} {l : List α}

/-- Each element of a list is mapped in turn. What holds of an element and its result goes on to
hold. -/
theorem mapM_forall₂ (s₀ : State) {R : α → β → State → Prop}
    (hR : ∀ a b s s', s.Extends s' → R a b s → R a b s')
    (hf : ∀ a ∈ l, ∀ s₁, s₀.Extends s₁ → ∀ Q : β → State → Prop,
      (∀ b s, s₁.Extends s → R a b s → Q b s) → Gives s₁ (f a) Q) :
    Gives s₀ (l.mapM f) fun bs s => s₀.Extends s ∧ List.Forall₂ (R · · s) l bs := by
  induction l generalizing s₀ with
  | nil => exact .pure ⟨.refl s₀, .nil⟩
  | cons a l ih =>
    rw [List.mapM_cons]
    refine .bind (hf a (List.mem_cons_self ..) s₀ (.refl s₀) _ fun _ _ => And.intro)
      fun b s₁ hb => ?_
    refine .bind (ih s₁ fun c hc s₂ hs₂ =>
      hf c (List.mem_cons_of_mem a hc) s₂ (hb.1.trans hs₂)) fun bs s₂ hbs => ?_
    exact .pure ⟨hb.1.trans hbs.1, .cons (hR a b s₁ s₂ hbs.1 hb.2) hbs.2⟩

/-- What holds of each result. -/
theorem mapM_spec (s₀ : State) {P : β → State → Prop} (hP : ∀ b s s', s.Extends s' → P b s → P b s')
    (hf : ∀ a ∈ l, ∀ s₁, s₀.Extends s₁ → ∀ Q : β → State → Prop,
      (∀ b s, s₁.Extends s → P b s → Q b s) → Gives s₁ (f a) Q) :
    Gives s₀ (l.mapM f) fun bs s => s₀.Extends s ∧ bs.length = l.length ∧ ∀ b ∈ bs, P b s := by
  have h := mapM_forall₂ (f := f) s₀ (R := fun _ => P) (fun _ => hP) hf
  refine gives_iff.mpr fun bs s hrun => ?_
  obtain ⟨hs, hbs⟩ := gives_iff.mp h bs s hrun
  refine ⟨hs, hbs.length_eq.symm, fun b hb => ?_⟩
  obtain ⟨i, hi, rfl⟩ := List.getElem_of_mem hb
  exact (List.forall₂_iff_get.mp hbs).2 i (hbs.length_eq ▸ hi) hi

@[spec low] theorem mapM_extends (hf : ∀ a ∈ l, ∀ s₁, s₀.Extends s₁ → ∀ Q : β → State → Prop,
      (∀ b s, s₁.Extends s → Q b s) → Gives s₁ (f a) Q) :
    Gives s₀ (l.mapM f) fun bs s => s₀.Extends s ∧ bs.length = l.length := by
  have h := mapM_spec s₀ (P := fun _ _ => True) (fun _ _ _ _ _ => trivial)
    fun a ha s₁ hs₁ Q hQ => hf a ha s₁ hs₁ Q fun b s hs => hQ b s hs trivial
  simpa using h

/-- A list is folded. The invariant of the fold is about the state, too. -/
theorem foldlM_spec (s₀ : State) {I : β → State → Prop} {f : β → α → Check β} {b : β} (hb : I b s₀)
    (hf : ∀ b, ∀ a ∈ l, ∀ s₁, s₀.Extends s₁ → I b s₁ → ∀ Q : β → State → Prop,
      (∀ b' s, s₁.Extends s → I b' s → Q b' s) →
        Gives s₁ (f b a) Q) : Gives s₀ (l.foldlM f b) fun b' s => s₀.Extends s ∧ I b' s := by
  induction l generalizing b s₀ with
  | nil => exact .pure ⟨.refl s₀, hb⟩
  | cons a l ih =>
    rw [List.foldlM_cons]
    refine .bind (hf b a (List.mem_cons_self ..) s₀ (.refl s₀) hb _ fun _ _ => And.intro)
      fun b₁ s₁ hb₁ => ?_
    refine gives_iff.mpr fun b' s hrun => ?_
    have hrest := gives_iff.mp (ih s₁ hb₁.2 fun c d hd s₂ hs₂ =>
      hf c d (List.mem_cons_of_mem a hd) s₂ (hb₁.1.trans hs₂)) b' s hrun
    exact ⟨hb₁.1.trans hrest.1, hrest.2⟩

@[spec high] theorem foldlM_extends {f : β → α → Check β} {b : β}
    (hf : ∀ b, ∀ a ∈ l, ∀ s₁, s₀.Extends s₁ → ∀ Q : β → State → Prop,
      (∀ b' s, s₁.Extends s → Q b' s) → Gives s₁ (f b a) Q) :
    Gives s₀ (l.foldlM f b) fun _ s => s₀.Extends s := by
  have h := foldlM_spec s₀ (b := b) (I := fun _ _ => True) trivial
    fun b a ha s₁ hs₁ _ Q hQ => hf b a ha s₁ hs₁ Q fun b' s hs => hQ b' s hs trivial
  simpa using h

/-- A step is taken for each element of a list. -/
theorem forM_spec (s₀ : State) {I : State → Prop} {f : α → Check PUnit} (hI : I s₀)
    (hf : ∀ a ∈ l, ∀ s₁, I s₁ → ∀ Q : PUnit → State → Prop, (∀ u s, I s → Q u s) →
      Gives s₁ (f a) Q) : Gives s₀ (l.forM f) fun _ s => I s := by
  induction l generalizing s₀ with
  | nil => exact .pure hI
  | cons a l ih =>
    rw [List.forM_eq_forM, List.forM_cons]
    refine .bind (hf a (List.mem_cons_self ..) s₀ hI _ fun _ _ => id) fun _ s₁ hs₁ => ?_
    exact ih s₁ hs₁ fun c hc => hf c (List.mem_cons_of_mem a hc)

@[spec low] theorem forM_extends {f : α → Check PUnit}
    (hf : ∀ a ∈ l, ∀ s₁, s₀.Extends s₁ → ∀ Q : PUnit → State → Prop,
      (∀ u s, s₁.Extends s → Q u s) → Gives s₁ (f a) Q) :
    Gives s₀ (l.forM f) fun _ s => s₀.Extends s :=
  forM_spec s₀ (.refl s₀) fun a ha s₁ hs₁ Q hQ =>
    hf a ha s₁ hs₁ Q fun u s hs => hQ u s (hs₁.trans hs)

@[spec] theorem flatMapM_extends {f : α → Check (List β)}
    (hf : ∀ a ∈ l, ∀ s₁, s₀.Extends s₁ → ∀ Q : List β → State → Prop,
      (∀ b s, s₁.Extends s → Q b s) → Gives s₁ (f a) Q) :
    Gives s₀ (l.flatMapM f) fun _ s => s₀.Extends s := by
  induction l generalizing s₀ with
  | nil => exact .pure (.refl s₀)
  | cons a l ih =>
    rw [List.flatMapM_cons]
    refine .bind (hf a (List.mem_cons_self ..) s₀ (.refl s₀) _ fun _ _ => id)
      fun _ s₁ hs₁ => ?_
    refine .bind (ih fun c hc s₂ hs₂ =>
      hf c (List.mem_cons_of_mem a hc) s₂ (hs₁.trans hs₂)) fun _ s₂ hs₂ => ?_
    exact .pure (hs₁.trans hs₂)

theorem option_mapM_spec (s₀ : State) {P : β → State → Prop} {o : Option α}
    (hf : ∀ a ∈ o, ∀ Q : β → State → Prop, (∀ b s, s₀.Extends s → P b s → Q b s) →
      Gives s₀ (f a) Q) : Gives s₀ (o.mapM f) fun b s =>
        s₀.Extends s ∧ b.isNone = o.isNone ∧ ∀ a ∈ b, P a s := by
  cases o with
  | none => exact .pure ⟨.refl s₀, rfl, by simp⟩
  | some a =>
    rw [Option.mapM_some]
    refine .map (hf a rfl _ fun b s hs hb => ⟨hs, rfl, ?_⟩)
    rintro _ ⟨⟩
    exact hb

@[spec low] theorem option_mapM_extends {o : Option α}
    (hf : ∀ a ∈ o, ∀ Q : β → State → Prop, (∀ b s, s₀.Extends s → Q b s) → Gives s₀ (f a) Q) :
    Gives s₀ (o.mapM f) fun _ s => s₀.Extends s := by
  have h := option_mapM_spec s₀ (P := fun _ _ => True)
    fun a ha Q hQ => hf a ha Q fun b s hs => hQ b s hs trivial
  exact gives_iff.mpr fun b s hrun => (gives_iff.mp h b s hrun).1

@[spec] theorem discard_spec {m : Check α}
    (h : ∀ Q : α → State → Prop, (∀ a s, s₀.Extends s → Q a s) → Gives s₀ m Q) :
    Gives s₀ (discard m) fun _ s => s₀.Extends s :=
  Gives.map (h _ fun _ _ => id)

@[spec] theorem resolving_spec {m : Check α} (id : ObjId)
    (h : ∀ s₁, s₀.Extends s₁ → ∀ Q : α → State → Prop, (∀ a s, s₁.Extends s → Q a s) →
      Gives s₁ m Q) : Gives s₀ (resolving id m) fun _ s => s₀.Extends s := by
  have hpush : s₀.Extends { s₀ with path := id :: s₀.path } := (State.Extends.refl s₀).update
  have hm := h _ hpush _ fun _ _ => (hpush.trans ·)
  refine .bind (P := fun _ s => s = { s₀ with path := id :: s₀.path }) ?_ ?_
  · exact gives_iff.mpr fun _ _ hrun => by cases hrun; rfl
  · rintro - _ rfl
    refine .bind hm fun a s₁ hs₁ => ?_
    refine .bind (P := fun _ s => s₀.Extends s) ?_ fun _ _ => .pure
    exact gives_iff.mpr fun _ _ hrun => by cases hrun; exact hs₁.update

@[spec] theorem uncounted_spec {m : Check α}
    (h : ∀ Q : α → State → Prop, (∀ a s, s₀.Extends s → Q a s) → Gives s₀ m Q) :
    Gives s₀ (uncounted m) fun _ s => s₀.Extends s := by
  have hm := h _ fun _ _ => id
  mvcgen [uncounted, hm] with grind

end Combinators

end SsaBlocks.Check
