import SsaBlocks.Compile
import SsaBlocks.Proofs.Check.File
import SsaBlocks.Proofs.Lower.Function

/-!
# Outlines of checked files

A file that has been checked is either given up as unsupported or lowered, each function under the
name that it gets. These names differ, except that a file may have several functions with a blank
name.
-/

namespace SsaBlocks

open List

open SsaBlocks.Source (Pos)
open SsaBlocks.Typed

variable {α β : Type} {F : String → Prop}

/-! ## Steps of compilation -/

/-- A step of compilation that gives up on something unsupported, or succeeds as required. -/
abbrev Accepts (m : Except CompileError α) (P : α → Prop) : Prop :=
  Ends (fun e => ∃ pos what, e = .unsupported pos what) P m

section Gather

variable {ε : Type} {first : Nat} {f : α → Except ε β} {l : List α}

/-- Steps that are taken at the same time fail as one of them does, or succeed as they would one
after the other. -/
theorem gather_cases (first : Nat) (f : α → Except ε β) (l : List α) :
    (∃ a ∈ l, ∃ e, f a = .error e ∧ gather first (l.map f) = .error e) ∨
      ((∀ a ∈ l, ∃ b, f a = .ok b) ∧ gather first (l.map f) = l.mapM f) := by
  rw [gather]
  generalize hfailures : (l.map f).filterMap _ = failures
  split
  · next e he =>
    have hmem : .error e ∈ l.map f := by
      obtain ⟨r, hr, hre⟩ := mem_filterMap.mp (hfailures ▸ mem_of_getElem? he)
      cases r with
      | error e' => exact Option.some.inj hre ▸ hr
      | ok b => cases hre
    obtain ⟨a, ha, hfa⟩ := mem_map.mp hmem
    exact .inl ⟨a, ha, e, hfa, rfl⟩
  · next hnone =>
    have hempty : failures = [] := by
      by_contra hne
      have hlt := Nat.mod_lt first (length_pos_iff.mpr hne)
      rw [getElem?_eq_getElem hlt] at hnone
      cases hnone
    refine .inr ⟨fun a ha => ?_, mapM_map ..⟩
    cases hfa : f a with
    | ok b => exact ⟨b, rfl⟩
    | error e =>
      have hnone := filterMap_eq_nil_iff.mp (hfailures.trans hempty) _ (mem_map_of_mem ha)
      rw [hfa] at hnone
      cases hnone

theorem gather_eq_ok {bs : List β} : gather first (l.map f) = .ok bs ↔ l.mapM f = .ok bs := by
  rcases gather_cases first f l with ⟨a, ha, e, hfa, hgather⟩ | ⟨-, hgather⟩
  · rw [hgather]
    refine ⟨nofun, fun h => ?_⟩
    obtain ⟨b, hb⟩ := forall_of_mapM_eq_ok h a ha
    cases hfa.symm.trans hb
  · rw [hgather]

theorem Ends.gather {F : ε → Prop} {R : α → β → Prop} (h : ∀ a ∈ l, Ends F (R a) (f a)) :
    Ends F (List.Forall₂ R l) (gather first (l.map f)) := by
  rcases gather_cases first f l with ⟨a, ha, e, hfa, hgather⟩ | ⟨-, hgather⟩
  · rw [hgather]
    exact (h a ha).of_eq_error hfa
  · rw [hgather]
    exact .mapM h

end Gather

/-! ## The parts of a file -/

namespace Typed

/-- The functions of a file with the names that they are compiled under, if `k` initializers come
before. -/
def namedFrom (k : Nat) : List Decl → List (String × Decl)
  | [] => []
  | d :: ds =>
    match d.funcName? with
    | none => namedFrom k ds
    | some name =>
      if name = Program.initName then (Lower.initializerName (k + 1), d) :: namedFrom (k + 1) ds
      else (name, d) :: namedFrom k ds

/-- The number of initializers of a file. -/
def initializerCount (ds : List Decl) : Nat :=
  ds.countP fun d => d.funcName? = some Program.initName

/-- The specifications of variables with initial values. -/
def Decl.initSpecs : Decl → List VarSpec
  | .vars specs => specs.filter fun spec => spec.values.isSome
  | _ => []

theorem namedFrom_append (k : Nat) (ds ds' : List Decl) :
    namedFrom k (ds ++ ds') = namedFrom k ds ++ namedFrom (k + initializerCount ds) ds' := by
  induction ds generalizing k with
  | nil => rfl
  | cons d ds ih =>
    rw [cons_append, namedFrom, namedFrom, initializerCount, countP_cons,
      ← initializerCount]
    cases hname : d.funcName? with
    | none => simpa using ih k
    | some name =>
      by_cases hinit : name = Program.initName
      · simp [hinit, ih (k + 1), Nat.add_assoc, Nat.add_comm 1]
      · simp [hinit, ih k]

theorem mem_of_mem_namedFrom {k : Nat} {ds : List Decl} {p : String × Decl}
    (h : p ∈ namedFrom k ds) : p.2 ∈ ds ∧ p.2.funcName?.isSome := by
  induction ds generalizing k with
  | nil => cases h
  | cons d ds ih =>
    rw [namedFrom] at h
    split at h
    · exact (ih h).imp_left (mem_cons_of_mem d)
    · next name hname =>
      split at h <;> rcases mem_cons.mp h with rfl | h
      · exact ⟨mem_cons_self .., by simp [hname]⟩
      · exact (ih h).imp_left (mem_cons_of_mem d)
      · exact ⟨mem_cons_self .., by simp [hname]⟩
      · exact (ih h).imp_left (mem_cons_of_mem d)

end Typed

namespace Outline

/-- The outline has the parts of the declarations. -/
structure Covers (o : Outline) (ds : List Decl) : Prop where
  functions : o.functions = namedFrom 0 ds
  initializers : o.initializers = initializerCount ds
  initSpecs : o.initSpecs = ds.flatMap Decl.initSpecs

/-- Variables and specifications with initial values have been added. -/
structure Adds (o o' : Outline) (specs : List VarSpec) : Prop where
  functions : o'.functions = o.functions
  initializers : o'.initializers = o.initializers
  initSpecs : o'.initSpecs = o.initSpecs ++ specs

theorem Adds.refl (o : Outline) : o.Adds o [] := ⟨rfl, rfl, (append_nil _).symm⟩

theorem Adds.trans {o o' o'' : Outline} {specs specs' : List VarSpec} (h : o.Adds o' specs)
    (k : o'.Adds o'' specs') : o.Adds o'' (specs ++ specs') :=
  ⟨k.functions.trans h.functions, k.initializers.trans h.initializers, by
    rw [k.initSpecs, h.initSpecs, append_assoc]⟩

theorem accepts_addGlobal (o : Outline) (b : Binder) :
    Accepts (o.addGlobal b) fun o' => o.Adds o' [] := by
  rw [addGlobal]
  split
  · exact ⟨rfl, rfl, (append_nil _).symm⟩
  · exact ⟨_, _, rfl⟩

theorem accepts_addSpec (o : Outline) (spec : VarSpec) :
    Accepts (o.addSpec spec) fun o' =>
      o.Adds o' ([spec].filter fun spec => spec.values.isSome) := by
  rw [addSpec]
  refine (Ends.foldlM (fun _ o' => o.Adds o' []) (.refl o) ?_).bind fun o' ho' => ?_
  · intro _ b _ o' _ ho'
    exact (accepts_addGlobal o' b).mono fun o'' ho'' => ho'.trans ho''
  · rw [← nil_append (filter ..)]
    refine ho'.trans ?_
    cases hvalues : spec.values.isSome with
    | true =>
      rw [if_pos rfl, filter_singleton, hvalues]
      exact ⟨rfl, rfl, rfl⟩
    | false =>
      rw [if_neg Bool.false_ne_true, filter_singleton, hvalues]
      exact .refl o'

theorem accepts_add (o : Outline) (d : Decl) {ds : List Decl} (h : o.Covers ds) :
    Accepts (o.add d) fun o' => o'.Covers (ds ++ [d]) := by
  have hadd : ∀ name, d.funcName? = some name → d.initSpecs = [] →
      (o.addFunction name d).Covers (ds ++ [d]) := by
    intro name hname hspecs
    refine ⟨?_, ?_, ?_⟩
    · rw [namedFrom_append, namedFrom, hname, Nat.zero_add, ← h.initializers, ← h.functions]
      by_cases hinit : name = Program.initName <;> simp [addFunction, hinit, namedFrom]
    · rw [initializerCount, countP_append, ← initializerCount, ← h.initializers]
      by_cases hinit : name = Program.initName <;> simp [addFunction, hinit, hname]
    · rw [flatMap_append, ← h.initSpecs]
      by_cases hinit : name = Program.initName <;> simp [addFunction, hinit, hspecs]
  cases d with
  | vars specs =>
    refine (Ends.foldlM (fun done o' => o.Adds o' (done.filter fun spec => spec.values.isSome))
      (.refl o) ?_).mono fun o' ho' => ⟨?_, ?_, ?_⟩
    · intro done spec _ o' _ ho'
      rw [filter_append]
      exact (accepts_addSpec o' spec).mono fun o'' ho'' => ho'.trans ho''
    · rw [ho'.functions, namedFrom_append, ← h.functions]
      simp [namedFrom, Decl.funcName?]
    · rw [ho'.initializers, initializerCount, countP_append, ← initializerCount,
        ← h.initializers]
      simp [Decl.funcName?]
    · rw [ho'.initSpecs, flatMap_append, ← h.initSpecs]
      simp [Decl.initSpecs]
  | func f => exact hadd f.name rfl rfl
  | unsupportedFunc name pos what => exact hadd name rfl rfl
  | unsupported pos what => exact ⟨pos, what, rfl⟩

/-- The outline of a file has its parts, unless a declaration is not supported. -/
theorem accepts_ofDecls (ds : List Decl) : Accepts (ofDecls ds) fun o => o.Covers ds := by
  have hstart : ({} : Outline).Covers [] := ⟨rfl, rfl, rfl⟩
  exact Ends.foldlM (fun done (o : Outline) => o.Covers done) hstart fun _ d _ o _ ho =>
    accepts_add o d ho

theorem injective_supply (o : Outline) : Function.Injective o.supply :=
  fun _ _ h => Nat.add_left_cancel h

end Outline

/-! ## Lowering a file -/

/-- A function has been lowered under a name, and its variables are settled. -/
structure Func.LoweredAs (name : String) (fn : Func) : Prop where
  filled : fn.Filled
  settled : fn.Settled
  name : fn.name = name

namespace Outline

variable {o : Outline} {ds : List Decl}

theorem accepts_lower {m : Lower Unit} {P : Func → Prop}
    (h : Lower.Yields (Lower.run o.bindings o.supply m) P) : Accepts (o.lower m) P := by
  rw [lower]
  rcases h with ⟨pos, what, h⟩ | ⟨fn, h, hP⟩
  · rw [h]
    exact ⟨pos, what, rfl⟩
  · rw [h]
    exact hP

theorem accepts_lowerDecl (hc : Checked F ds) (p : String × Decl) (hp : p.2 ∈ ds)
    (hfunc : p.2.funcName?.isSome) :
    Accepts (o.lowerDecl p) fun fn => (∃ f, p.2 = .func f) ∧ fn.LoweredAs p.1 := by
  obtain ⟨name, d⟩ := p
  cases d with
  | func f =>
    obtain ⟨Γ, hscoped⟩ := hc.scopes f hp
    refine accepts_lower (Lower.Ensures.run ((Lower.ensures_function name f rfl).mono ?_))
    rintro - s ⟨hfilled, hname, hsettled⟩
    exact ⟨⟨f, rfl⟩, hfilled, hsettled o.injective_supply Γ hscoped, hname⟩
  | unsupportedFunc name' pos what => exact ⟨pos, what, rfl⟩
  | vars specs => cases hfunc
  | unsupported pos what => exact ⟨pos, what, rfl⟩

theorem accepts_lowerInit (o : Outline) (specs : List VarSpec) (initializers : Nat) :
    Accepts (o.lower (Lower.initFunction specs initializers)) fun fn =>
      fn.LoweredAs Program.initName := by
  have hensures := Lower.ensures_initFunction (c := ⟨o.bindings, o.supply⟩)
    (s := ⟨Func.make "" [] .void, [], 0, 0⟩) specs initializers rfl
  refine accepts_lower (Lower.Ensures.run (hensures.mono ?_))
  rintro - s ⟨hfilled, hname, hsettled⟩
  exact ⟨hfilled, hsettled o.injective_supply, hname⟩

/-- The names of the functions that a file is lowered to. -/
def names (o : Outline) : List String :=
  o.functions.map Prod.fst ++
    if o.initSpecs.isEmpty && o.initializers == 0 then [] else [Program.initName]

/-- The functions of a checked file are lowered under their names, unless something is not
supported. -/
theorem accepts_lowerAll (hc : Checked F ds) (ho : o.Covers ds) (first : Nat) :
    Accepts (o.lowerAll first) fun fns => (∀ p ∈ o.functions, ∃ f, p.2 = .func f) ∧
      List.Forall₂ (fun name fn => fn.LoweredAs name) o.names fns := by
  have hdecl : ∀ p ∈ o.functions, Accepts (o.lowerDecl p) fun fn =>
      (∃ f, p.2 = .func f) ∧ fn.LoweredAs p.1 := by
    intro p hp
    rw [ho.functions] at hp
    obtain ⟨hmem, hfunc⟩ := mem_of_mem_namedFrom hp
    exact accepts_lowerDecl hc p hmem hfunc
  rw [lowerAll]
  refine (Ends.gather hdecl).bind fun fns hfns => ?_
  obtain ⟨hall, hfns⟩ := (forall₂_and_left _ _).mp hfns
  have hnamed : List.Forall₂ (fun name (fn : Func) => fn.LoweredAs name)
      (o.functions.map Prod.fst) fns := forall₂_map_left_iff.mpr hfns
  rw [names]
  split
  · exact ⟨hall, by simpa using hnamed⟩
  · refine (o.accepts_lowerInit o.initSpecs o.initializers).bind fun fn hfn => ⟨hall, ?_⟩
    exact rel_append hnamed (.cons hfn .nil)

end Outline

/-! ## Names -/

namespace Typed

/-- The name of a function that is compiled under it. -/
def Decl.plainName? (d : Decl) : Option String :=
  d.funcName?.filter fun name => name ≠ Program.initName

/-- The number of functions with a blank name. -/
def blankCount (ds : List Decl) : Nat :=
  ds.countP fun d => d.funcName? = some "_"

theorem names_namedFrom (k : Nat) (ds : List Decl) (name : String) :
    ((namedFrom k ds).map Prod.fst).count name = (ds.filterMap Decl.plainName?).count name +
      ((range' (k + 1) (initializerCount ds)).map Lower.initializerName).count name := by
  induction ds generalizing k with
  | nil => rfl
  | cons d ds ih =>
    rw [namedFrom, initializerCount, countP_cons, ← initializerCount]
    cases hname : d.funcName? with
    | none => simp [Decl.plainName?, hname, ih]
    | some n =>
      by_cases hinit : n = Program.initName
      · have hplain : d.plainName? = none := by simp [Decl.plainName?, hname, hinit]
        simp only [hinit, if_true, map_cons, count_cons, ih, decide_true,
          filterMap_cons_none hplain, range'_succ]
        omega
      · have hplain : d.plainName? = some n := by simp [Decl.plainName?, hname, hinit]
        simp only [hinit, if_false, map_cons, count_cons, ih, Option.some.injEq,
          decide_false, Bool.false_eq_true, Nat.add_zero, filterMap_cons_some hplain]
        omega

end Typed

namespace Lower

theorem initializerName_injective : Function.Injective initializerName := by
  intro i j h
  have hdot : Program.initName ++ "." ++ i.repr = Program.initName ++ "." ++ j.repr := h
  exact Nat.repr_inj.mp (by simpa using hdot)

/-- The name of an initializer cannot be seen from outside. -/
theorem not_isExported_initializerName (i : Nat) : Check.isExported (initializerName i) = false := by
  have hname : (initializerName i).toList = (Program.initName ++ "." ++ i.repr).toList := rfl
  rw [Check.isExported, hname, String.toList_append, String.toList_append]
  rfl

/-- The name of an initializer has a dot, which no name in a source has. -/
theorem not_isNamePart_initializerName (i : Nat) :
    ¬ (initializerName i).toList.all Source.isNamePart := by
  have hdot : '.' ∈ (initializerName i).toList := by
    have : (initializerName i).toList = (Program.initName ++ "." ++ i.repr).toList := rfl
    simp [this]
  intro hall
  exact absurd (all_eq_true.mp hall '.' hdot) (by decide)

end Lower

namespace Outline

/-- A name is given to the functions that have it, to an initializer or to the function that sets
up the globals. -/
theorem Covers.count_names {o : Outline} {ds : List Decl} (ho : o.Covers ds) (name : String) :
    o.names.count name =
      (ds.filterMap Decl.plainName?).count name +
        ((range' 1 (initializerCount ds)).map Lower.initializerName).count name +
        (if o.initSpecs.isEmpty && o.initializers == 0 then [] else
          [Program.initName]).count name := by
  rw [names, count_append, ho.functions, names_namedFrom]

end Outline

namespace Typed

variable {ds : List Decl} {name : String}

theorem exists_mem_namedFrom {k : Nat} {d : Decl} (hd : d ∈ ds) (hname : d.funcName? = some name) :
    ∃ p ∈ namedFrom k ds, p.2 = d ∧ (name ≠ Program.initName → p.1 = name) := by
  induction ds generalizing k with
  | nil => cases hd
  | cons d' ds ih =>
    rw [namedFrom]
    rcases mem_cons.mp hd with rfl | hd
    · rw [hname]
      dsimp only
      split
      · next hinit => exact ⟨_, mem_cons_self .., rfl, fun hne => absurd hinit hne⟩
      · exact ⟨_, mem_cons_self .., rfl, fun _ => rfl⟩
    · split
      · exact ih hd
      · split
        · exact (ih hd).imp fun _ => And.imp_left (mem_cons_of_mem _)
        · exact (ih hd).imp fun _ => And.imp_left (mem_cons_of_mem _)

/-- Every initializer is there under its number. -/
theorem exists_initializer {k i : Nat} (hi : i < initializerCount ds) :
    ∃ d, (Lower.initializerName (k + i + 1), d) ∈ namedFrom k ds ∧
      d.funcName? = some Program.initName := by
  induction ds generalizing k i with
  | nil => cases hi
  | cons d ds ih =>
    rw [initializerCount, countP_cons, ← initializerCount] at hi
    rw [namedFrom]
    cases hname : d.funcName? with
    | none => exact ih (by simpa [hname] using hi)
    | some name =>
      dsimp only
      by_cases hinit : name = Program.initName
      · rw [if_pos hinit]
        cases i with
        | zero => exact ⟨d, mem_cons_self .., by rw [hname, hinit]⟩
        | succ i =>
          obtain ⟨d', hd', hinit'⟩ := ih (k := k + 1) (i := i) (by simpa [hname, hinit] using hi)
          rw [Nat.add_assoc k, Nat.add_comm 1] at hd'
          exact ⟨d', mem_cons_of_mem _ hd', hinit'⟩
      · rw [if_neg hinit]
        obtain ⟨d', hd', hinit'⟩ := ih (k := k) (by simpa [hname, hinit] using hi)
        exact ⟨d', mem_cons_of_mem _ hd', hinit'⟩

namespace Checked

variable (hc : Checked F ds)
include hc

theorem count_initializerName (i : Nat) :
    (ds.filterMap Decl.plainName?).count (Lower.initializerName i) = 0 := by
  refine count_eq_zero.mpr fun hmem => ?_
  obtain ⟨d, hd, hname⟩ := mem_filterMap.mp hmem
  exact Lower.not_isNamePart_initializerName i
    (hc.words d hd _ (Option.filter_eq_some_iff.mp hname).1)

/-- A name that is not blank belongs to at most one function, if all functions are compiled. -/
theorem count_plainName_le (hfuncs : ∀ d ∈ ds, d.funcName?.isSome → ∃ f, d = .func f)
    (hname : name ≠ "_") : (ds.filterMap Decl.plainName?).count name ≤ 1 := by
  have hunique : (ds.filterMap Decl.plainName?).count name =
      (ds.filterMap Decl.uniqueName?).count name := by
    rw [count_filterMap, count_filterMap]
    refine countP_congr fun d hd => ?_
    cases hfunc : d.funcName? with
    | none =>
      have hnone : d.uniqueName? = none := by
        cases d with
        | func f => cases hfunc
        | _ => rfl
      simp [Decl.plainName?, hfunc, hnone]
    | some n =>
      obtain ⟨f, rfl⟩ := hfuncs d hd (by simp [hfunc])
      simp only [Decl.plainName?, Decl.funcName?, Decl.uniqueName?]
      by_cases heq : f.name = name
      · by_cases hinit : name = Program.initName
        · simp [heq, hinit, Program.initName, Option.filter]
        · simp_all [Program.initName, Option.filter]
      · simp [Option.filter_eq_some_iff, heq]
  rw [hunique]
  exact nodup_iff_count_le_one.mp hc.nodup name

variable {o : Outline} (ho : o.Covers ds)
include ho

omit hc in
/-- If all functions that are to be lowered have a body, so have those of the file. -/
theorem forall_func (hall : ∀ p ∈ o.functions, ∃ f, p.2 = .func f) :
    ∀ d ∈ ds, d.funcName?.isSome → ∃ f, d = .func f := by
  intro d hd hfunc
  obtain ⟨name, hname⟩ := Option.isSome_iff_exists.mp hfunc
  obtain ⟨p, hp, rfl, -⟩ := exists_mem_namedFrom (k := 0) hd hname
  exact hall p (ho.functions ▸ hp)

/-- Only a blank name is given to more than one function. -/
theorem count_names_le (hall : ∀ p ∈ o.functions, ∃ f, p.2 = .func f) (hname : name ≠ "_") :
    o.names.count name ≤ 1 := by
  have hfuncs := forall_func ho hall
  have hlast : (if o.initSpecs.isEmpty && o.initializers == 0 then [] else
      [Program.initName]).count name ≤ if name = Program.initName then 1 else 0 := by
    split
    · simp
    · rw [count_singleton]
      simp only [beq_iff_eq, eq_comm (a := name), le_refl]
  rw [ho.count_names]
  by_cases hdot : ∃ i, Lower.initializerName i = name
  · obtain ⟨i, rfl⟩ := hdot
    have hinit : Lower.initializerName i ≠ Program.initName := by
      intro heq
      exact Lower.not_isNamePart_initializerName i (heq ▸ by decide)
    have hnodup : ((range' 1 (initializerCount ds)).map Lower.initializerName).Nodup :=
      (nodup_range' ..).map Lower.initializerName_injective
    have hle := nodup_iff_count_le_one.mp hnodup (Lower.initializerName i)
    rw [if_neg hinit] at hlast
    rw [hc.count_initializerName]
    omega
  · have hzero : ((range' 1 (initializerCount ds)).map Lower.initializerName).count name =
        0 := by
      refine count_eq_zero.mpr fun hmem => hdot ?_
      obtain ⟨i, -, hi⟩ := mem_map.mp hmem
      exact ⟨i, hi⟩
    by_cases hinit : name = Program.initName
    · have hplain : (ds.filterMap Decl.plainName?).count name = 0 := by
        refine count_eq_zero.mpr fun hmem => ?_
        obtain ⟨d, -, hd⟩ := mem_filterMap.mp hmem
        simpa [hinit] using (Option.filter_eq_some_iff.mp hd).2
      rw [if_pos hinit] at hlast
      omega
    · have hle := hc.count_plainName_le hfuncs hname
      rw [if_neg hinit] at hlast
      omega

/-- A function that is imported has a name of its own. -/
theorem notMem_names (hall : ∀ p ∈ o.functions, ∃ f, p.2 = .func f) (hF : F name)
    (hother : ∀ d ∈ ds, d.uniqueName? ≠ some name) : name ∉ o.names := by
  have hne : ∀ other, Check.isExported other = false → other ≠ name := by
    rintro _ hhidden rfl
    cases hhidden.symm.trans (hc.exported _ hF)
  refine count_eq_zero.mp ?_
  rw [ho.count_names]
  have hplain : (ds.filterMap Decl.plainName?).count name = 0 := by
    refine count_eq_zero.mpr fun hmem => ?_
    obtain ⟨d, hd, hname⟩ := mem_filterMap.mp hmem
    have hname := (Option.filter_eq_some_iff.mp hname).1
    obtain ⟨f, rfl⟩ := forall_func ho hall d hd (by simp [hname])
    obtain rfl : f.name = name := Option.some.inj hname
    refine hother _ hd ?_
    simp [Decl.uniqueName?, (hne "init" (by decide)).symm, (hne "_" (by decide)).symm]
  have hinit : ((range' 1 (initializerCount ds)).map Lower.initializerName).count name = 0 := by
    refine count_eq_zero.mpr fun hmem => ?_
    obtain ⟨i, -, hi⟩ := mem_map.mp hmem
    exact hne _ (Lower.not_isExported_initializerName i) hi
  rw [hplain, hinit]
  split
  · rfl
  · simp [hne Program.initName (by decide)]

omit hc in
/-- The blank name is given to all functions that have it. -/
theorem count_blank : o.names.count "_" = blankCount ds := by
  have hzero : ((range' 1 (initializerCount ds)).map Lower.initializerName).count "_" = 0 := by
    refine count_eq_zero.mpr fun hmem => ?_
    obtain ⟨i, -, hi⟩ := mem_map.mp hmem
    exact Lower.not_isNamePart_initializerName i (hi ▸ by decide)
  have hlast : (if o.initSpecs.isEmpty && o.initializers == 0 then [] else
      [Program.initName]).count "_" = 0 := by
    split
    · rfl
    · decide
  rw [ho.count_names, hzero, hlast, count_filterMap, blankCount]
  refine countP_congr fun d _ => ?_
  simp [Decl.plainName?, Option.filter_eq_some_iff, Program.initName]

end Checked

end Typed

end SsaBlocks
