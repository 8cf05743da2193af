import SsaBlocks.Lower.Function
import SsaBlocks.Proofs.Func.Filled
import SsaBlocks.Proofs.Func.Start
import SsaBlocks.Proofs.Lower.Stmt

/-!
# Lowering functions

A function is lowered into the entry of a new one, which declares the parameters. When its body has
been lowered, at most one block is open, and that one returns.

## Main results

* `ensures_function`, `ensures_initFunction`: what is lowered has been filled, and variables are
  settled if the tree keeps to its scopes
* `run_wellFormed`: the graphs of lowered functions are well formed
-/

namespace SsaBlocks.Lower

open SsaBlocks.Source (Pos)
open SsaBlocks.Typed
open Func

attribute [local irreducible] Func.addBlock Func.append Func.addEdge

variable {c : Context} {s s' : State} {b : BlockId} {os : Multiset BlockId}

/-! ## Parameters -/

theorem ensures_param (p : Param) :
    Ensures (param p) c s fun v s' => v.id = c.supply s.made ∧
      s' = { s with made := s.made + 1, bindings := (p.id, v) :: s.bindings } := by
  unfold param
  refine (ensures_valueType ..).bind fun type s₁ hs₁ => ?_
  subst hs₁
  refine (ensures_newVariable ..).bind fun v s₂ hv => ?_
  obtain ⟨rfl, hid⟩ := hv
  exact .bind_ok () _ rfl (.pure ⟨hid, rfl⟩)

/-- The numbers stand for variables that have been made. -/
def AllMade (c : Context) (s : State) : Prop :=
  ∀ id v, (id, v) ∈ s.bindings → Made c s v

theorem ensures_params (ps : List Param) (h : AllMade c s) :
    Ensures (ps.mapM param) c s fun vs s' => AllMade c s' ∧
      ∀ id v, (id, v) ∈ s'.bindings → (id, v) ∈ s.bindings ∨ v ∈ vs := by
  induction ps generalizing s with
  | nil => exact Ensures.pure ⟨h, fun _ _ => .inl⟩
  | cons p rest ih =>
    rw [List.mapM_cons]
    refine (ensures_param p).bind fun v s₁ hv => ?_
    obtain ⟨hid, rfl⟩ := hv
    have hmade : AllMade c { s with made := s.made + 1, bindings := (p.id, v) :: s.bindings } := by
      intro id w hw
      rcases List.mem_cons.mp hw with heq | hw
      · obtain ⟨-, rfl⟩ := Prod.mk.inj heq
        exact ⟨s.made, Nat.lt_succ_self _, hid⟩
      · exact Tidy.made_succ (h id w hw)
    refine (ih hmade).bind fun vs s₂ h₂ => .pure ⟨h₂.1, fun id w hw => ?_⟩
    rcases h₂.2 id w hw with hw | hw
    · rcases List.mem_cons.mp hw with heq | hw
      · obtain ⟨-, rfl⟩ := Prod.mk.inj heq
        exact .inr (List.mem_cons_self ..)
      · exact .inl hw
    · exact .inr (List.mem_cons_of_mem v hw)

theorem ensures_resultType (result : Result) :
    Ensures (resultType result) c s fun _ s' => s' = s := by
  cases result with
  | void => exact Ensures.pure rfl
  | value pos type => exact ensures_valueType pos type
  | unsupported pos what => exact .unsupported pos what

/-! ## Bodies -/

theorem Tidy.settled (h : Tidy c [] s) : s.fn.Settled := by
  intro b v u hu
  obtain ⟨-, -, hestablished, hundeclared⟩ := h.awaited b v u hu
  exact ⟨hestablished, hundeclared⟩

/-- A function that has been started is in order. -/
theorem tidy_make {name : String} {params : List Variable} {type : ValueType}
    (hsupply : Function.Injective c.supply) (hmade : AllMade c s)
    (hfn : s.fn = Func.make name params type) : Tidy c [] s where
  injective := hsupply
  made := by simp
  bound id v hv := ⟨by simp, hmade id v hv⟩
  awaited b v u hu := by
    rw [hfn, (block_make_contents name params type b).2.2.2.1] at hu
    cases hu

theorem filled_of_fills {fn fn' : Func} (hstage : fn.stage = .lowering)
    (h : fn.Fills fn' b 0 0) : fn'.Filled := by
  refine ⟨h.formed, by simpa using h.exits, ?_⟩
  rw [← hstage, ← h.grows.same]

theorem name_of_fills {fn fn' : Func} {outs : Multiset BlockId} (h : fn.Fills fn' b os outs) :
    fn'.name = fn.name := by
  rw [← h.grows.same]

/-- The end of a body returns; a function with a result may not reach it. -/
theorem ensures_finishBody (f : Function) {next : Option BlockId} {fn₀ : Func} {b₀ : BlockId}
    (h : fn₀.Fills s.fn b₀ 0 next.toList) :
    Ensures (finishBody f next) c s fun _ s' => fn₀.Fills s'.fn b₀ 0 0 ∧ Keeps c s s' := by
  cases next with
  | none => exact Ensures.pure ⟨h, .refl c s⟩
  | some x =>
    have hfills : fn₀.Fills s.fn b₀ 0 {x} := h
    refine .bind_ok s s rfl (Ensures.supported fun _ => ?_)
    refine (ensures_ret hfills.filling_next (by simp)).mono fun _ s' hs' => ⟨?_, hs'.2.2⟩
    exact hfills.trans_next hs'.1

/-- A function that has been lowered is filled. Its variables are settled if they are given
different numbers and its body keeps to its scopes. -/
theorem ensures_function (name : String) (f : Function) (h : s.bindings = []) :
    Ensures (function name f) c s fun _ s' => s'.fn.Filled ∧ s'.fn.name = name ∧
      (Function.Injective c.supply → ∀ Γ, Stmt.AllScoped Γ f.body → s'.fn.Settled) := by
  unfold function
  have hmade : AllMade c s := by
    intro id v hv
    rw [h] at hv
    cases hv
  refine (ensures_params f.params hmade).bind fun params s₁ h₁ => ?_
  refine (ensures_resultType f.result).bind fun type s₂ h₂ => ?_
  subst h₂
  refine .bind_ok () { s₂ with fn := Func.make name params type } rfl ?_
  have hfilling := filling_make name params type
  refine (promises_stmts f.body false _ entry 0 hfilling).bind fun flow s₃ h₃ => ?_
  have hfills : (Func.make name params type).Fills s₃.fn entry 0 flow.next.toList := by
    obtain ⟨hbreaks, hcontinues⟩ := h₃.leaves rfl
    have houts : flow.outs = flow.next.toList := by
      rw [Flow.outs, Flow.pending, hbreaks, hcontinues]
      exact add_zero _
    exact houts ▸ h₃.fills
  refine (ensures_finishBody f hfills).mono fun _ s₄ h₄ => ?_
  refine ⟨filled_of_fills rfl h₄.1, name_of_fills h₄.1, fun hsupply Γ hscoped => ?_⟩
  -- all the numbers stand for parameters, which the entry declares
  have hvisible : Visible { s₂ with fn := Func.make name params type } Γ entry := by
    intro id _ v hv
    rcases h₁.2 id v (mem_of_lookup hv) with hmem | hmem
    · rw [h] at hmem
      cases hmem
    · exact Established.of_declared (mem_declared_make name params type hmem)
  have hstart : Tidy c [] { s₂ with fn := Func.make name params type } :=
    tidy_make hsupply h₁.1 rfl
  exact (h₄.2 [] ((h₃.scopes Γ hscoped hvisible).keeps [] hstart)).settled

/-! ## Setting up the globals -/

/-- No number stands for a variable of the function. -/
def Unbound (s : State) : Prop :=
  ∀ id, s.bindings.lookup id = none

theorem Unbound.visible (h : Unbound s) (ids : List VarId) (b : BlockId) : Visible s ids b := by
  intro id _ v hv
  rw [h id] at hv
  cases hv

/-- A step of setting up the globals. It uses no variables of the function. -/
structure Sets (c : Context) (s s' : State) (b : BlockId) (os : Multiset BlockId) (b' : BlockId) :
    Prop where
  fills : s.fn.Fills s'.fn b os {b'}
  keeps : Unbound s → Keeps c s s' ∧ Unbound s'

namespace Sets

variable {s'' : State} {b' b'' : BlockId} {ids : List VarId} {us : List Temp}

theorem trans (h : Sets c s s' b os b') (k : Sets c s' s'' b' os b'') : Sets c s s'' b os b'' where
  fills := h.fills.trans_next k.fills
  keeps hs := by
    obtain ⟨hkeeps, hs'⟩ := h.keeps hs
    obtain ⟨kkeeps, hs''⟩ := k.keeps hs'
    exact ⟨hkeeps.trans kkeeps, hs''⟩

theorem of_evaluates (h : Evaluates c s s' b os ids us b') : Sets c s s' b os b' :=
  ⟨h.fills, fun hs => ⟨h.keeps (hs.visible ids b), fun id => by rw [h.bindings, hs id]⟩⟩

theorem of_declares (h : Declares c s s' b os ids []) : Sets c s s' b os b := by
  refine ⟨h.fills, fun hs => ?_⟩
  obtain ⟨hkeeps, hlookup, -⟩ := h.scopes ids (hs.visible ids b) (List.Subset.refl ids)
  exact ⟨hkeeps, fun id => by rw [hlookup id List.not_mem_nil, hs id]⟩

end Sets

/-- Steps that bind no numbers, all in one block. -/
theorem ensures_forM_sets {β : Type} {l : List β} {f : β → Lower PUnit} (h : s.fn.Filling b os)
    (uses : β → List VarId)
    (hf : ∀ a ∈ l, ∀ s', s.fn.Fills s'.fn b os {b} →
      Ensures (f a) c s' fun _ s'' => Declares c s' s'' b os (uses a) []) :
    Ensures (l.forM f) c s fun _ s' => Sets c s s' b os b := by
  refine (ensures_forM h hf).mono fun _ s' hs' => ?_
  have hnil : (l.flatMap fun _ : β => ([] : List VarId)) = [] :=
    List.eq_nil_of_subset_nil flatMap_nil_subset
  exact .of_declares (hnil ▸ hs')

theorem ensures_initSpec (h : s.fn.Filling b os) (spec : VarSpec) :
    Ensures (initSpec b spec) c s fun b' s' => Sets c s s' b os b' := by
  unfold initSpec
  refine (ensures_exprs _ h).bind fun r s₁ h₁ => ?_
  obtain ⟨us, b₁⟩ := r
  replace h₁ := h₁.1
  refine Ensures.supported fun _ => ?_
  refine (ensures_forM_sets h₁.filling (fun p => (p.1.map Binder.id).toList) ?_).bind fun _ s₂ h₂ =>
    .pure ((Sets.of_evaluates h₁).trans h₂)
  rintro ⟨binder, u⟩ hp s₂ hs₂
  cases binder with
  | none => exact Ensures.pure (.refl hs₂.filling_next)
  | some binder =>
    have hu := h₁.known u (List.of_mem_zip hp).2
    exact ensures_assign hs₂.filling_next (.var binder.pos binder.name binder.id)
      (hs₂.known hu (Multiset.mem_singleton_self b₁))

theorem ensures_initSpecs (h : s.fn.Filling b os) (specs : List VarSpec) :
    Ensures (initSpecs b specs) c s fun b' s' => Sets c s s' b os b' := by
  induction specs generalizing s b with
  | nil => exact Ensures.pure (.of_evaluates (.refl h))
  | cons spec rest ih =>
    refine (ensures_initSpec h spec).bind fun b₁ s₁ h₁ => ?_
    exact (ih h₁.fills.filling_next).mono fun b₂ s₂ h₂ => h₁.trans h₂

/-- The function that sets up the globals is filled, and has no variables of its own. -/
theorem ensures_initFunction (specs : List VarSpec) (initializers : Nat) (h : s.bindings = []) :
    Ensures (initFunction specs initializers) c s fun _ s' => s'.fn.Filled ∧
      s'.fn.name = Program.initName ∧ (Function.Injective c.supply → s'.fn.Settled) := by
  unfold initFunction
  refine .bind_ok () { s with fn := Func.make Program.initName [] .void } rfl ?_
  have hfilling := filling_make Program.initName [] .void
  refine (ensures_initSpecs (b := entry) hfilling specs).bind fun b₁ s₁ h₁ => ?_
  refine (ensures_forM_sets h₁.fills.filling_next (fun _ => []) ?_).bind fun _ s₂ h₂ => ?_
  · intro i _ s' hs'
    refine (@ensures_call _ _ _ _ [] hs'.filling_next (initializerName (i + 1))
      (by simp)).discard.mono fun _ s'' hs'' => ?_
    obtain ⟨-, hs''⟩ := hs''
    exact .of_evaluates hs''
  have hsets := h₁.trans h₂
  refine (ensures_ret hsets.fills.filling_next (by simp)).mono fun _ s₃ h₃ => ?_
  have hfills := hsets.fills.trans_next h₃.1
  refine ⟨filled_of_fills rfl hfills, name_of_fills hfills, fun hsupply => ?_⟩
  have hunbound : Unbound { s with fn := Func.make Program.initName [] .void } := by
    intro id
    rw [h]
    rfl
  have hstart : Tidy c [] { s with fn := Func.make Program.initName [] .void } := by
    refine tidy_make hsupply (fun id v hv => ?_) rfl
    rw [h] at hv
    cases hv
  exact (h₃.2.2 [] ((hsets.keeps hunbound).1 [] hstart)).settled

/-! ## Outcomes -/

/-- A lowering either meets something that it does not support, or makes a function as required. -/
def Yields (m : Except Failure Func) (P : Func → Prop) : Prop :=
  (∃ pos what, m = .error (.unsupported pos what)) ∨ ∃ fn, m = .ok fn ∧ P fn

theorem Ensures.run {m : Lower Unit} {globals : Bindings} {supply : Nat → Nat} {P : Func → Prop}
    (h : Ensures m { globals, supply } { fn := Func.make "" [] .void } fun _ s => P s.fn) :
    Yields (run globals supply m) P := by
  unfold Ensures at h
  unfold Lower.run
  cases hm : m { globals, supply } { fn := Func.make "" [] .void } with
  | ok r =>
    rw [hm] at h
    exact .inr ⟨r.2.fn, rfl, h⟩
  | error e =>
    rw [hm] at h
    cases e with
    | unsupported pos what => exact .inl ⟨pos, what, rfl⟩
    | fault f => exact h.elim

/-- Lowering builds well-formed graphs, and its functions have been ended: nothing is left to close.
It is never refused, in particular not for adding to a block after its end. -/
theorem run_wellFormed (globals : Bindings) (supply : Nat → Nat) :
    (∀ name f, Yields (run globals supply (function name f)) fun fn =>
      fn.WellFormed ∧ Build.closeVoid fn = (.ok (), fn)) ∧
    ∀ specs initializers, Yields (run globals supply (initFunction specs initializers)) fun fn =>
      fn.WellFormed ∧ Build.closeVoid fn = (.ok (), fn) := by
  constructor
  · intro name f
    refine Ensures.run ((ensures_function name f rfl).mono fun _ s hs => ?_)
    exact ⟨hs.1.wellFormed, hs.1.closeVoid⟩
  · intro specs initializers
    refine Ensures.run ((ensures_initFunction specs initializers rfl).mono fun _ s hs => ?_)
    exact ⟨hs.1.wellFormed, hs.1.closeVoid⟩

end SsaBlocks.Lower
