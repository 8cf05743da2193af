import SsaBlocks.Proofs.Check.Collect

/-!
# Checked files

What a file has been checked for is what its compilation relies on: variables are in scope where they
are used, operations are known, functions that are called are declared in the file and get as many
arguments as they take or come from a package that the file imports with all its members, functions
have different names, and those with a result end in terminating statements.
-/

set_option mvcgen.warning false

namespace SsaBlocks.Typed

/-- The name of a function. -/
def Decl.funcName? : Decl → Option String
  | .func f => some f.name
  | .unsupportedFunc name _ _ => some name
  | _ => none

/-- The name of a function that no other function may have. -/
def Decl.uniqueName? : Decl → Option String
  | .func f => if f.name != "init" && f.name != "_" then some f.name else none
  | _ => none

/-- The function takes so many arguments, unless it is not compiled. -/
def Decl.Takes (n : Nat) : Decl → Prop
  | .func f => f.params.length = n ∨ ∃ p ∈ f.params, ∃ text, p.type = .other text
  | _ => True

/-- What the declarations of a file supply that imports functions of the names `F`. A function of the
file has a name that is not imported. -/
def Supplies (F : String → Prop) (ds : List Decl) : Demand → Prop
  | .var _ => True
  | .func name n => (name ≠ "init" ∧ ∃ d ∈ ds, d.funcName? = some name ∧ d.Takes n) ∨
    (F name ∧ ∀ d ∈ ds, d.uniqueName? ≠ some name)
  | .op _ => False

/-- What is known of the declarations of a file that has been checked. -/
structure Checked (F : String → Prop) (ds : List Decl) : Prop where
  scopes : ∀ f, .func f ∈ ds → ∃ Γ, Stmt.AllScoped Γ f.body
  bodies : ∀ f, .func f ∈ ds → ∀ d ∈ Stmt.demandsOf f.body, Supplies F ds d
  values : ∀ specs, .vars specs ∈ ds → ∀ spec ∈ specs,
    ∀ d ∈ Expr.demandsOf (spec.values.getD []), Supplies F ds d
  initializer : ∀ f, .func f ∈ ds → f.name = "init" → f.params = []
  words : ∀ d ∈ ds, ∀ name ∈ d.funcName?, name.toList.all Source.isNamePart
  nodup : (ds.filterMap Decl.uniqueName?).Nodup
  ends : ∀ f pos t, .func f ∈ ds → f.result = .value pos t → Stmt.endsTerminating f.body
  exported : ∀ name, F name → Check.isExported name = true

end SsaBlocks.Typed

namespace SsaBlocks.Check

open SsaBlocks.Source (Pos Name)
open SsaBlocks.Types
open SsaBlocks.Typed (Decl Stmt Expr)
open Std.Do

variable {s₀ s s' : State} {goals : Goals} {F : String → Prop}

/-! ## Joining the rules -/

theorem Goals.Sound.rule (hg : goals.Sound) : goals.rule.Sound where
  expr _ env implied e := exprRule_spec hg env implied e
  type _ env e := typeRule_spec hg env e
  object _ id := objectRule_spec hg id
  stmt _ env st := stmtRule_spec hg env st

/-- The checkers for what nests no deeper than a bound are sound. -/
theorem Goals.sound_upTo (n : Nat) : (Goals.upTo n).Sound := by
  induction n with
  | zero =>
    have hreject {α : Type} {Q : α → State → Prop} (s₀ : State) :
        Gives s₀ (reject "nested too deeply" : Check α) Q :=
      gives_iff.mpr fun _ _ => nofun
    exact ⟨fun s₀ _ _ _ => hreject s₀, fun s₀ _ _ => hreject s₀, fun s₀ _ => hreject s₀,
      fun s₀ _ _ => hreject s₀⟩
  | succ n ih => exact ih.rule

/-! ## Functions -/

@[spec] theorem resolveAll_spec (hg : goals.Sound) (ids : List ObjId) :
    Gives s₀ (resolveAll goals ids) fun _ s => s₀.Extends s := by
  mvcgen [resolveAll]
  all_goals grind

theorem State.Valid.headOf {id : ObjId} {head : FuncHead} (h : s.Valid)
    (hid : s.heads.lookup id = some head) : s.HeadOf id head := by
  obtain ⟨l, l', hsplit, -⟩ := List.lookup_eq_some_iff.mp hid
  exact h.records.heads (id, head) (by simp [hsplit])

@[spec] theorem headOf_spec (hg : goals.Sound) (id : ObjId) :
    Gives s₀ (headOf goals id) fun head s => s₀.Extends s ∧ (s₀.Valid → s.HeadOf id head) := by
  mvcgen [headOf]
  all_goals grind [State.Valid.headOf, State.Extends.valid]

/-- What a declaration is compiled to. -/
inductive State.Yields (s : State) : Entry → Option Decl → Prop
  | vars {specs : List (List (Name × ObjId) × Nat)} {trees : List Typed.VarSpec}
    (h : ∀ spec ∈ trees, ∀ d ∈ Expr.demandsOf (spec.values.getD []), s.Serves d) :
    Yields s (.vars specs) (some (.vars trees))
  | consts {ids : List ObjId} : Yields s (.consts ids) none
  | types {pos : Pos} {ids : List ObjId} {what : String} :
    Yields s (.types pos ids) (some (.unsupported pos what))
  | refused {id : ObjId} {decl : Source.FuncDecl} {pos : Pos} {what : String} :
    Yields s (.func id decl) (some (.unsupportedFunc decl.name.text pos what))
  | func {id : ObjId} {decl : Source.FuncDecl} {f : Typed.Function}
    (name : f.name = decl.name.text) (receiver : decl.receiver = none)
    (plain : decl.type.typeParams = []) (arity : f.params.length = decl.type.arity)
    (variadic : decl.type.isVariadic = true → ∃ p ∈ f.params, ∃ text, p.type = .other text)
    (scopes : ∃ Γ, Stmt.AllScoped Γ f.body) (serves : ∀ d ∈ Stmt.demandsOf f.body, s.Serves d)
    (ends : ∀ pos t, f.result = .value pos t → Stmt.endsTerminating f.body) :
    Yields s (.func id decl) (some (.func f))

theorem State.Yields.of_extends {e : Entry} {o : Option Decl} (hs : s.Extends s')
    (h : s'.Yields e o) : s.Yields e o := by
  cases h with
  | vars h => exact .vars fun spec hspec d hd => hs.serves (h spec hspec d hd)
  | consts => exact .consts
  | types => exact .types
  | refused => exact .refused
  | func name receiver plain arity variadic scopes serves ends =>
    exact .func name receiver plain arity variadic scopes (fun d hd => hs.serves (serves d hd)) ends

/-- All objects that there are may be named in the body of a function. -/
theorem State.HeadOf.admits {id : ObjId} {head : FuncHead} (h : s.HeadOf id head) (hs : s.Valid) :
    s.Admits head.env (List.range s.objects.size) where
  valid := hs
  covers id' hid' := by
    obtain ⟨⟨name, hname⟩, -⟩ := hid'
    rw [List.mem_range]
    rw [State.resolve, Option.or_eq_some_iff, Option.or_eq_some_iff] at hname
    obtain hname | ⟨-, hname | ⟨-, hname⟩⟩ := hname
    · exact h.below name id' hname
    · exact hs.file name id' hname
    · exact hs.predeclared name id' hname
  below id' hid' := List.mem_range.mp hid'

/-- The compiler knows no slices. -/
theorem sourceType_slice (store : Store) (t : Ty) : ∃ text, sourceType store (.slice t) = .other text :=
  ⟨_, rfl⟩

theorem results_ne_nil_of_resultOf {store : Store} {sig : Source.Signature} {head : FuncHead}
    {pos : Pos} {t : Typed.SourceType} (h : resultOf store sig head = .value pos t) :
    head.results ≠ [] := by
  intro hnil
  grind [resultOf]

theorem funcTree_spec (hg : goals.Sound) (hvalid : s₀.Valid) {id : ObjId}
    {decl : Source.FuncDecl} (hid : (s₀.objectAt id).pending = some (.func decl)) :
    Gives s₀ (funcTree goals id decl) fun d s =>
      s₀.Extends s ∧ s₀.Yields (.func id decl) (some d) := by
  refine .bind (headOf_spec hg id) fun head s₁ hhead => ?_
  obtain ⟨hs₁, hhead⟩ := hhead
  have hhead := hhead hvalid
  refine .bind (option_mapM_spec s₁ (P := fun (body : List Stmt) _ =>
    (∃ Γ, Stmt.AllScoped Γ body) ∧ (∀ d ∈ Stmt.demandsOf body, s₁.Serves d) ∧
      (head.results ≠ [] → Stmt.endsTerminating body)) fun body _ Q hQ => ?_) fun body s₂ hbody => ?_
  · refine gives_iff.mpr fun trees s hrun => ?_
    obtain ⟨hs, hserves, hscoped, hends⟩ := gives_iff.mp (funcBody_spec hg head body) trees s hrun
    exact hQ trees s hs ⟨⟨_, hscoped _ (hhead.admits (hs₁.valid hvalid))⟩, hserves, hends⟩
  have hs₂ : s₀.Extends s₂ := hs₁.trans hbody.1
  dsimp only
  split
  · exact .pure ⟨hs₂, .refused⟩
  next hreceiver =>
  split
  · exact .pure ⟨hs₂, .refused⟩
  next htypeParams =>
  cases body with
  | none => exact .pure ⟨hs₂, .refused⟩
  | some body =>
    obtain ⟨hscoped, hserves, hends⟩ := hbody.2.2 body rfl
    obtain ⟨decl', hdecl', hof⟩ := hhead.declared
    cases Option.some.inj (hdecl'.symm.trans ((hs₁.pending id).trans hid))
    refine .bind store_spec fun store s₃ hs₃ => .pure ?_
    subst hs₃
    refine ⟨hs₂, .func rfl (by simpa using hreceiver) (by simpa using htypeParams) ?_
      (fun hvariadic => ?_) hscoped (fun d hd => hs₁.serves (hserves d hd)) fun pos t hresult => ?_⟩
    · simpa using hof.params
    · obtain ⟨p, hp, t, ht⟩ := hof.variadic hvariadic
      obtain ⟨text, htext⟩ := sourceType_slice store t
      exact ⟨_, List.mem_map_of_mem hp, text, by rw [ht, htext]⟩
    · exact hends (results_ne_nil_of_resultOf hresult)

@[spec] theorem specTree_spec (names : List (Name × ObjId)) (values : Nat) :
    Gives s₀ (specTree names values) fun spec s =>
      s = s₀ ∧ (s₀.Valid → ∀ d ∈ Expr.demandsOf (spec.values.getD []), s₀.Serves d) := by
  refine gives_iff.mpr fun spec s hrun => ?_
  cases hrun
  refine ⟨rfl, fun hvalid d hd => ?_⟩
  obtain ⟨e, he, hd⟩ := Expr.mem_demandsOf.mp hd
  have he : e ∈ (names.take values).filterMap fun p => s₀.initials.lookup p.2 := by
    dsimp only at he
    split at he
    · cases he
    · exact he
  obtain ⟨p, -, hp⟩ := List.mem_filterMap.mp he
  obtain ⟨l, l', hsplit, -⟩ := List.lookup_eq_some_iff.mp hp
  exact hvalid.records.initials (p.2, e) (by simp [hsplit]) d hd

theorem entryTree_spec (hg : goals.Sound) (hvalid : s₀.Valid) (e : Entry)
    (he : ∀ id decl, e = .func id decl → (s₀.objectAt id).pending = some (.func decl)) :
    Gives s₀ (entryTree goals e) fun o s => s₀.Extends s ∧ s₀.Yields e o := by
  cases e with
  | consts ids => exact .pure ⟨.refl s₀, .consts⟩
  | types pos ids => exact .pure ⟨.refl s₀, .types⟩
  | func id decl => exact .map (funcTree_spec hg hvalid (he id decl rfl))
  | vars specs =>
    refine .bind (mapM_spec s₀ (P := fun (spec : Typed.VarSpec) _ =>
      ∀ d ∈ Expr.demandsOf (spec.values.getD []), s₀.Serves d) (fun _ _ _ _ => id) ?_)
      fun trees s htrees => .pure ⟨htrees.1, .vars htrees.2.2⟩
    rintro ⟨names, values⟩ - s₁ hs₁ Q hQ
    refine gives_iff.mpr fun spec s hrun => ?_
    obtain ⟨rfl, hspec⟩ := gives_iff.mp (specTree_spec names values) spec s hrun
    exact hQ spec s (.refl s) fun d hd => hs₁.serves (hspec (hs₁.valid hvalid) d hd)

/-! ## Files -/

/-- Each element of a list is mapped in turn, or left out. -/
theorem filterMapM_forall₂ {α β : Type} (s₀ : State) {f : α → Check (Option β)} {l : List α}
    {R : α → Option β → Prop} (hf : ∀ a ∈ l, ∀ s₁, s₀.Extends s₁ →
      Gives s₁ (f a) fun o s => s₁.Extends s ∧ R a o) : Gives s₀ (l.filterMapM f) fun bs s =>
      s₀.Extends s ∧ ∃ os, bs = os.reduceOption ∧ List.Forall₂ R l os := by
  induction l generalizing s₀ with
  | nil => exact .pure ⟨.refl s₀, [], rfl, .nil⟩
  | cons a l ih =>
    rw [List.filterMapM_cons]
    refine .bind (hf a (List.mem_cons_self ..) s₀ (.refl s₀)) fun o s₁ ho => ?_
    have hrest := ih s₁ fun c hc s₂ hs₂ => hf c (List.mem_cons_of_mem a hc) s₂ (ho.1.trans hs₂)
    cases o with
    | none =>
      refine gives_iff.mpr fun bs s hrun => ?_
      obtain ⟨hs, os, rfl, hos⟩ := gives_iff.mp hrest bs s hrun
      exact ⟨ho.1.trans hs, none :: os, rfl, .cons ho.2 hos⟩
    | some b =>
      refine .bind hrest fun bs s₂ hbs => .pure ?_
      obtain ⟨hs₂, os, rfl, hos⟩ := hbs
      exact ⟨ho.1.trans hs₂, some b :: os, rfl, .cons ho.2 hos⟩

@[spec] theorem resolveFile_spec (hg : goals.Sound) (entries : List Entry) :
    Gives s₀ (resolveFile goals entries) fun _ s => s₀.Extends s := by
  refine .intro fun Q hQ => ?_
  mvcgen [resolveFile, objectsOfKind]
  all_goals grind

/-- A file is checked: its objects are declared, and then its declarations are compiled. -/
theorem file_spec (hg : goals.Sound) (lib : Library) (f : Source.File) (depth : Nat) :
    Gives (State.start lib f depth) (file lib goals f) fun ds _ =>
      ∃ s entries os, State.Complete s (f.Borrows lib) entries ∧ ds = os.reduceOption ∧
      List.Forall₂ s.Yields entries os := by
  refine .bind (require_spec _ _) fun _ s₁ hs₁ => ?_
  obtain ⟨rfl, -⟩ := hs₁
  refine .bind (require_spec _ _) fun _ s₁ hs₁ => ?_
  obtain ⟨rfl, -⟩ := hs₁
  refine .bind (collectAll_complete (fun _ => id) (State.complete_start lib f depth))
    fun entries s hs => ?_
  rw [List.nil_append] at hs
  refine .bind (P := fun _ s' => s.Extends s') ?_ fun _ s₁ hs₁ => ?_
  · refine .intro fun Q hQ => ?_
    mvcgen
    all_goals grind
  refine .bind (resolveFile_spec hg entries) fun _ s₂ hs₂ => ?_
  refine .bind Gives.get ?_
  rintro _ _ ⟨rfl, rfl⟩
  refine .bind (forM_extends fun b _ s₃ hs₃ Q hQ => ?_) fun _ s₃ hs₃ => ?_
  · mvcgen
    all_goals grind
  have hs₃ : s.Extends s₃ := hs₁.trans (hs₂.trans hs₃)
  refine .bind (filterMapM_forall₂ s₃ (R := s.Yields) fun e he s₄ hs₄ => ?_)
    fun ds s₄ hds => ?_
  · have hs₄ := hs₃.trans hs₄
    refine gives_iff.mpr fun o s' hrun => ?_
    have hpending : ∀ id decl, e = .func id decl → (s₄.objectAt id).pending = some (.func decl) := by
      rintro id decl rfl
      exact (hs₄.pending id).trans (hs.pending id decl he)
    obtain ⟨hs', hyields⟩ :=
      gives_iff.mp (entryTree_spec hg (hs₄.valid hs.valid) e hpending) o s' hrun
    exact ⟨hs', hyields.of_extends hs₄⟩
  obtain ⟨-, os, rfl, hos⟩ := hds
  refine .bind (P := fun _ _ => True) (gives_iff.mpr fun _ _ _ => trivial) fun _ s₅ _ => ?_
  exact .pure ⟨s, entries, os, hs, rfl, hos⟩

namespace State

variable {entries : List Entry} {os : List (Option Decl)} {d : Decl}

theorem Yields.uniqueName? {e : Entry} {o : Option Decl} (h : s.Yields e o) :
    o.bind Decl.uniqueName? = none ∨ o.bind Decl.uniqueName? = e.uniqueName? := by
  cases h with
  | func name receiver _ _ _ _ =>
    refine .inr ?_
    simp [Decl.uniqueName?, Entry.uniqueName?, inFileScope, name, receiver]
  | _ => exact .inl rfl

/-- The names of functions that are compiled are among those of the functions of the file. -/
theorem uniqueNames_sublist (h : List.Forall₂ s.Yields entries os) :
    (os.reduceOption.filterMap Decl.uniqueName?).Sublist
      (entries.filterMap Entry.uniqueName?) := by
  induction h with
  | nil => exact .slnil
  | @cons e o entries os h _ ih =>
    have hrest : (os.reduceOption.filterMap Decl.uniqueName?).Sublist
        ((e :: entries).filterMap Entry.uniqueName?) :=
      ih.trans ((List.sublist_cons_self e entries).filterMap _)
    cases o with
    | none => simpa using hrest
    | some d =>
      rw [List.reduceOption_cons_of_some, List.filterMap_cons]
      obtain hname | hname := h.uniqueName?
      · rw [Option.bind_some] at hname
        simpa only [hname] using hrest
      · rw [Option.bind_some] at hname
        rw [List.filterMap_cons, hname]
        split
        · exact ih
        · exact ih.cons_cons _

/-- A declaration that is compiled is one of the file. -/
theorem exists_yields (h : List.Forall₂ s.Yields entries os) (hd : d ∈ os.reduceOption) :
    ∃ e ∈ entries, s.Yields e (some d) := by
  rw [List.reduceOption_mem_iff] at hd
  induction h with
  | nil => cases hd
  | @cons e o entries os h _ ih =>
    obtain rfl | hd := List.mem_cons.mp hd
    · exact ⟨e, List.mem_cons_self .., h⟩
    · exact (ih hd).imp fun _ => And.imp_left (List.mem_cons_of_mem e)

/-- A function of the file is compiled, or refused. -/
theorem exists_mem_of_yields (h : List.Forall₂ s.Yields entries os) {n : ObjId}
    {decl : Source.FuncDecl} (he : .func n decl ∈ entries) :
    ∃ d ∈ os.reduceOption, s.Yields (.func n decl) (some d) := by
  simp only [List.reduceOption_mem_iff]
  induction h with
  | nil => cases he
  | @cons e o entries os h _ ih =>
    obtain rfl | he := List.mem_cons.mp he
    · cases h with
      | refused => exact ⟨_, List.mem_cons_self .., .refused⟩
      | func name receiver plain arity variadic scopes serves ends =>
        exact ⟨_, List.mem_cons_self ..,
          .func name receiver plain arity variadic scopes serves ends⟩
    · exact (ih he).imp fun _ => And.imp_left (List.mem_cons_of_mem o)

/-- A name that stands for an imported function is not that of a function of the file. -/
theorem Complete.imported_only (hs : s.Complete F entries) (h : List.Forall₂ s.Yields entries os)
    {name : String} {id package : ObjId} {t : Ty} (hid : s.file.lookup name = some id)
    (hpending : (s.objectAt id).pending = some (.imported package (.func t))) :
    ∀ d ∈ os.reduceOption, d.uniqueName? ≠ some name := by
  intro d hd hname
  obtain ⟨e, he, hyields⟩ := exists_yields h hd
  cases hyields with
  | @func id' decl _ hdecl receiver _ _ _ _ _ =>
    have hscope : inFileScope decl = true ∧ decl.name.text = name := by
      simpa [Decl.uniqueName?, inFileScope, hdecl, receiver] using hname
    have hid' := hs.unique id' decl he hscope.1
    rw [hscope.2, hid] at hid'
    cases hid'
    cases hpending.symm.trans (hs.pending id decl he)
  | _ => cases hname

/-- What may be demanded of a file is supplied by its declarations, or imported. -/
theorem Complete.supplies (hs : s.Complete F entries) (h : List.Forall₂ s.Yields entries os)
    {m : Typed.Demand} (hm : s.Serves m) : Typed.Supplies F os.reduceOption m := by
  cases m with
  | var id => trivial
  | op op => exact hm
  | func name n =>
    obtain ⟨id, hid, ⟨decl, hpending, harity⟩ | ⟨package, t, hpending⟩⟩ := hm hs.valid.signed
    case inr =>
      exact .inr ⟨hs.imported name id package t hid hpending, hs.imported_only h hid hpending⟩
    obtain ⟨hmem, -, rfl, hinit⟩ := hs.named name id decl hid hpending
    obtain ⟨d, hd, hyields⟩ := exists_mem_of_yields h hmem
    refine .inl ⟨hinit, d, hd, ?_⟩
    cases hyields with
    | refused => exact ⟨rfl, trivial⟩
    | func name receiver plain arity variadic scopes serves =>
      refine ⟨by rw [Decl.funcName?, name], ?_⟩
      cases hvariadic : decl.type.isVariadic with
      | true => exact .inr (variadic hvariadic)
      | false => exact .inl (arity.trans (harity plain hvariadic))

end State

/-- The declarations of a file are checked. -/
theorem checked_of_yields {entries : List Entry} {os : List (Option Decl)}
    (hs : s.Complete F entries) (h : List.Forall₂ s.Yields entries os)
    (hF : ∀ name, F name → isExported name = true) : Typed.Checked F os.reduceOption where
  scopes f hf := by
    obtain ⟨e, -, hyields⟩ := State.exists_yields h hf
    cases hyields with
    | func _ _ _ _ _ scopes _ _ => exact scopes
  bodies f hf d hd := by
    obtain ⟨e, -, hyields⟩ := State.exists_yields h hf
    cases hyields with
    | func _ _ _ _ _ _ serves _ => exact hs.supplies h (serves d hd)
  values specs hspecs spec hspec d hd := by
    obtain ⟨e, -, hyields⟩ := State.exists_yields h hspecs
    cases hyields with
    | vars hserves => exact hs.supplies h (hserves spec hspec d hd)
  initializer f hf hname := by
    obtain ⟨e, he, hyields⟩ := State.exists_yields h hf
    cases hyields with
    | @func id decl _ name receiver _ arity _ _ _ _ =>
      have hparams := hs.initializer id decl he receiver (name.symm.trans hname)
      rw [Source.Signature.arity, hparams] at arity
      exact List.length_eq_zero_iff.mp arity
  words d hd name hname := by
    obtain ⟨e, he, hyields⟩ := State.exists_yields h hd
    cases hyields with
    | refused =>
      cases hname
      exact Source.Word.parts _
    | func hf _ _ _ _ _ _ _ =>
      cases hname
      rw [hf]
      exact Source.Word.parts _
    | _ => cases hname
  nodup := hs.nodup.sublist (State.uniqueNames_sublist h)
  ends f pos t hf hresult := by
    obtain ⟨e, -, hyields⟩ := State.exists_yields h hf
    cases hyields with
    | func _ _ _ _ _ _ _ ends => exact ends pos t hresult
  exported := hF

end SsaBlocks.Check

namespace SsaBlocks.Source

/-- The declarations of a file that is not rejected are checked. -/
theorem File.checked_of_check {lib : Check.Library} {f : File} {size : Nat} {ds : List Typed.Decl}
    (h : f.check lib size = .ok ds) : Typed.Checked (f.Borrows lib) ds := by
  unfold File.check at h
  dsimp only at h
  split at h
  · next decls s hrun =>
    cases h
    obtain ⟨s, entries, os, hs, rfl, hos⟩ :=
      Check.gives_iff.mp (Check.file_spec (Check.Goals.sound_upTo _) lib f _) _ _ hrun
    exact Check.checked_of_yields hs hos fun _ => And.left
  · cases h

end SsaBlocks.Source
