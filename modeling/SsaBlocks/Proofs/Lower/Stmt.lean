import SsaBlocks.Proofs.Lower.Wiring

/-!
# Lowering statements

A statement that is lowered into a block leaves the block after it open, if that can be reached, and
the blocks that leave the surrounding loop or start it again. Outside of a loop there are none of
the latter. A number in scope keeps its variable, and what a statement binds is visible in the block
after it.
-/

namespace SsaBlocks.Lower

open List

open SsaBlocks.Source (Pos)
open SsaBlocks.Typed
open Func

attribute [local irreducible] Func.addBlock Func.append Func.addEdge

namespace Flow

/-- The blocks that leave the surrounding loop or start it again. -/
def pending (flow : Flow) : Multiset BlockId :=
  flow.breaks + flow.continues

/-- The blocks that are left open. -/
def outs (flow : Flow) : Multiset BlockId :=
  flow.next.toList + flow.pending

variable {b : BlockId}

theorem outs_of_next {flow : Flow} (h : flow.next = some b) : flow.outs = b ::ₘ flow.pending := by
  rw [outs, h]
  rfl

theorem pending_andThen (first rest : Flow) :
    (first.andThen rest).pending = rest.pending + first.pending := by
  simp only [pending, andThen, ← Multiset.coe_add]
  ac_rfl

theorem outs_andThen (first rest : Flow) :
    (first.andThen rest).outs = rest.outs + first.pending := by
  rw [outs, pending_andThen, ← add_assoc]
  rfl

end Flow

variable {α : Type} {c : Context} {s s' s'' : State} {Q : α → State → Prop} {fn₀ : Func}
  {b₀ b x y t : BlockId} {os outs : Multiset BlockId} {Γ binds : List VarId} {inLoop : Bool}
  {u : Temp} {us : List Temp}

/-- What a statement has done that was lowered into the block `b`. -/
structure Executes (c : Context) (s s' : State) (b : BlockId) (os : Multiset BlockId)
    (inLoop : Bool) (P : List VarId → Prop) (binds : List VarId) (flow : Flow) : Prop where
  fills : s.fn.Fills s'.fn b os flow.outs
  leaves : inLoop = false → flow.breaks = [] ∧ flow.continues = []
  scopes : ∀ Γ, P Γ → Visible s Γ b → Scopes c s s' Γ (binds ++ Γ) flow.next

namespace Executes

variable {P P' : List VarId → Prop} {binds' : List VarId} {flow rest : Flow}

/-- A statement that binds nothing. -/
theorem of_keeps (hfills : s.fn.Fills s'.fn b os flow.outs)
    (hleaves : inLoop = false → flow.breaks = [] ∧ flow.continues = [])
    (hscopes : ∀ Γ, P Γ → Visible s Γ b →
      Keeps c s s' ∧ ∀ id ∈ Γ, s'.bindings.lookup id = s.bindings.lookup id) :
    Executes c s s' b os inLoop P [] flow := by
  refine ⟨hfills, hleaves, fun Γ hΓ hvisible => ?_⟩
  obtain ⟨hkeeps, hlookup⟩ := hscopes Γ hΓ hvisible
  refine ⟨hkeeps, hlookup, fun x hx => hvisible.of_fills hfills hlookup (hfills.within x ?_)⟩
  rw [Flow.outs_of_next hx]
  exact Multiset.mem_cons_self ..

/-- A statement that ends in a block. -/
theorem of_next {b' : BlockId} (hfills : s.fn.Fills s'.fn b os {b'})
    (hscopes : ∀ Γ, P Γ → Visible s Γ b → Scopes c s s' Γ (binds ++ Γ) (some b')) :
    Executes c s s' b os inLoop P binds { next := some b' } :=
  ⟨hfills, fun _ => ⟨rfl, rfl⟩, hscopes⟩

theorem refl (h : s.fn.Filling b os) :
    Executes c s s b os inLoop P [] { next := some b } :=
  of_keeps (.start h) (fun _ => ⟨rfl, rfl⟩) fun _ _ _ => ⟨.refl c s, fun _ _ => rfl⟩

theorem of_evaluates {b' : BlockId} {ids : List VarId} (h : Evaluates c s s' b os ids us b')
    (hP : ∀ Γ, P Γ → ids ⊆ Γ) : Executes c s s' b os inLoop P [] { next := some b' } :=
  of_next h.fills fun Γ hΓ hvisible => h.scopes hvisible (hP Γ hΓ)

theorem fills_cons (h : Executes c s s' b os inLoop P binds flow) (hnext : flow.next = some x) :
    s.fn.Fills s'.fn b os (x ::ₘ flow.pending) := by
  rw [← Flow.outs_of_next hnext]
  exact h.fills

theorem leaves_andThen (hfirst : flow.breaks = [] ∧ flow.continues = [])
    (hrest : rest.breaks = [] ∧ rest.continues = []) :
    (flow.andThen rest).breaks = [] ∧ (flow.andThen rest).continues = [] := by
  simp [Flow.andThen, hfirst.1, hfirst.2, hrest.1, hrest.2]

end Executes

/-! ## Declarations -/

/-- One declaration or assignment after the other, all in one block. -/
theorem ensures_forM {β : Type} {l : List β} {f : β → Lower PUnit} {uses new : β → List VarId}
    (h : s.fn.Filling b os)
    (hf : ∀ a ∈ l, ∀ s', s.fn.Fills s'.fn b os {b} →
      Ensures (f a) c s' fun _ s'' => Declares c s' s'' b os (uses a) (new a)) :
    Ensures (l.forM f) c s fun _ s' =>
      Declares c s s' b os (l.flatMap uses) (l.flatMap new) := by
  suffices hall : ∀ done todo s', l = done ++ todo →
      Declares c s s' b os (done.flatMap uses) (done.flatMap new) →
      Ensures (todo.forM f) c s' fun _ s'' =>
        Declares c s s'' b os (l.flatMap uses) (l.flatMap new) from
    hall [] l s rfl (.refl h)
  intro done todo
  induction todo generalizing done with
  | nil =>
    intro s' hl hs'
    rw [hl, append_nil]
    exact .pure hs'
  | cons a rest ih =>
    intro s' hl hs'
    refine .forM_cons (hf a (by simp [hl]) s' hs'.fills) fun s'' hs'' => ?_
    refine ih (done ++ [a]) s'' (by simp [hl]) ?_
    simpa using hs'.trans hs''

/-- Values are computed, and then assigned one after the other. -/
theorem ensures_assigns {β : Type} {l : List β} {f : β → Lower PUnit} {ids : List VarId}
    {b' : BlockId} (uses new : β → List VarId) (h : Evaluates c s s' b os ids us b')
    (hf : ∀ a ∈ l, ∀ s'', s'.fn.Fills s''.fn b' os {b'} →
      Ensures (f a) c s'' fun _ s₃ => Declares c s'' s₃ b' os (uses a) (new a)) :
    Ensures (l.forM f) c s' fun _ s'' => s.fn.Fills s''.fn b os {b'} ∧
      ∀ Γ, ids ⊆ Γ → l.flatMap uses ⊆ Γ → List.Disjoint (l.flatMap new) Γ → Visible s Γ b →
        Scopes c s s'' Γ (l.flatMap new ++ Γ) (some b') := by
  refine (ensures_forM h.filling hf).mono fun _ s'' hs'' => ⟨?_, ?_⟩
  · exact h.fills.trans_next hs''.fills
  · intro Γ hids huses hnew hvisible
    have hscopes := h.scopes hvisible hids
    exact hscopes.trans (hs''.toScopes (hscopes.visible b' rfl) huses hnew) (List.Subset.refl Γ)

theorem flatMap_nil_subset {β : Type} {l : List β} : l.flatMap (fun _ => []) ⊆ Γ := by
  intro id hid
  obtain ⟨a, -, hmem⟩ := mem_flatMap.mp hid
  exact absurd hmem not_mem_nil

theorem flatMap_zip {β γ : Type} {f : β → List VarId} {l : List β} {l' : List γ}
    (h : l.length ≤ l'.length) : (l.zip l').flatMap (fun p => f p.1) = l.flatMap f := by
  have hfst : (l.zip l').map Prod.fst = l := map_fst_zip h
  nth_rewrite 2 [← hfst]
  rw [flatMap_map]

theorem ensures_varSpec (h : s.fn.Filling b os) (spec : VarSpec) :
    Ensures (varSpec b spec) c s fun b' s' => s.fn.Fills s'.fn b os {b'} ∧
      ∀ Γ, spec.Scoped Γ → Visible s Γ b → Scopes c s s' Γ (spec.binds ++ Γ) (some b') := by
  have hbinds : spec.binds = spec.binders.flatMap fun b => (b.map Binder.id).toList := by
    rw [VarSpec.binds, filterMap_eq_flatMap_toList]
  unfold varSpec
  cases hvalues : spec.values with
  | none =>
    refine (ensures_assigns (fun _ => []) (fun b => (b.map Binder.id).toList)
      (.refl h) ?_).bind fun _ s' hs' => .pure ⟨hs'.1, fun Γ hscoped hvisible => ?_⟩
    · intro a _ s₁ hs₁
      cases a with
      | none => exact Ensures.pure (.refl hs₁.filling_next)
      | some binder =>
        refine (ensures_valueType ..).bind fun type s₂ hs₂ => ?_
        subst hs₂
        refine (ensures_const hs₁.filling_next type 0).bind fun u s₃ hs₃ => ?_
        refine (ensures_declare hs₃.filling binder (hs₃.known u (by simp))).mono fun _ s₄ hs₄ => ?_
        exact (Declares.of_evaluates hs₃).trans hs₄
    · rw [hbinds]
      exact hs'.2 Γ (nil_subset Γ) flatMap_nil_subset (hbinds ▸ hscoped.2) hvisible
  | some values =>
    refine (ensures_exprs values h).bind fun r s₁ h₁ => ?_
    obtain ⟨us, b₁⟩ := r
    replace h₁ := h₁.1
    refine Ensures.supported fun hlength => ?_
    refine (ensures_assigns (fun _ => []) (fun p => (p.1.map Binder.id).toList)
      h₁ ?_).bind fun _ s' hs' => .pure ⟨hs'.1, fun Γ hscoped hvisible => ?_⟩
    · rintro ⟨a, u⟩ ha s₂ hs₂
      cases a with
      | none => exact Ensures.pure (.refl hs₂.filling_next)
      | some binder =>
        have hu := h₁.known u (of_mem_zip ha).2
        exact ensures_declare hs₂.filling_next binder
          (hs₂.known hu (Multiset.mem_singleton_self b₁))
    · -- as many values as variables, so that no variable is left out
      have hzip : (spec.binders.zip us).flatMap (fun p => (p.1.map Binder.id).toList) =
          spec.binds :=
        (flatMap_zip (f := fun b => (b.map Binder.id).toList) (not_not.mp hlength).ge).trans
          hbinds.symm
      obtain ⟨huses, hnew⟩ := hscoped
      rw [hvalues] at huses
      rw [← hzip]
      exact hs'.2 Γ huses flatMap_nil_subset (hzip ▸ hnew) hvisible

theorem ensures_varSpecs (specs : List VarSpec) (h : s.fn.Filling b os) :
    Ensures (varSpecs b specs) c s fun b' s' => s.fn.Fills s'.fn b os {b'} ∧
      ∀ Γ, VarSpec.AllScoped Γ specs → Visible s Γ b →
        Scopes c s s' Γ (specs.flatMap VarSpec.binds ++ Γ) (some b') := by
  induction specs generalizing s b with
  | nil =>
    rw [varSpecs]
    refine .pure ⟨.start h, fun Γ _ hvisible => ⟨.refl c s, fun _ _ => rfl, fun x hx => ?_⟩⟩
    obtain rfl := Option.mem_some.mp hx
    exact hvisible
  | cons spec rest ih =>
    rw [varSpecs]
    refine (ensures_varSpec h spec).bind fun b₁ s₁ h₁ => ?_
    refine (ih h₁.1.filling_next).mono fun b₂ s₂ h₂ => ?_
    refine ⟨h₁.1.trans_next h₂.1, fun Γ hscoped hvisible => ?_⟩
    have hfirst := h₁.2 Γ hscoped.1 hvisible
    have hrest := h₂.2 _ hscoped.2 (hfirst.visible b₁ rfl)
    refine (hfirst.trans hrest (subset_append_right ..)).mono fun id hid => ?_
    simp only [flatMap_cons, mem_append] at hid ⊢
    tauto

/-! ## Loops -/

/-- The second of two new blocks is blank. -/
theorem blank_fork {fn : Func} (h : fn.Filling b os) (u : Temp) :
    (fn.fork b u).Blank (fn.blocks.size + 1) := by
  have hlt : ∀ p ∈ [b], p < (fn.addBlock [b]).blocks.size := by
    rw [size_addBlock]
    simpa using h.exits.head.lt.trans (Nat.lt_succ_self _)
  have hne : fn.blocks.size + 1 ≠ b := (h.exits.head.lt.trans (Nat.lt_succ_self _)).ne'
  have hsize : fn.blocks.size + 1 = (fn.addBlock [b]).blocks.size := (size_addBlock [b]).symm
  rw [Blank, fork, block_append_ne hne, block_addBlock (nodup_singleton b) hlt, if_pos hsize]
  exact ⟨by simp, fun _ => rfl, fun _ => rfl⟩

/-- The condition of a loop: the block of the body, and a blank block after the loop if there is a
condition. -/
theorem ensures_loopHead (h : s.fn.Filling b os) (cond : Option Expr) :
    Ensures (loopHead b cond) c s fun r s' =>
      s.fn.Fills s'.fn b os (r.1 ::ₘ r.2.toList) ∧ s'.bindings = s.bindings ∧
        (∀ a ∈ r.2, s'.fn.Blank a ∧ s.fn.blocks.size ≤ a) ∧
        (Visible s (Expr.usesOf cond.toList) b → Keeps c s s') := by
  have hstart : s.fn.Fills s.fn b os (b ::ₘ 0) := .start h
  cases cond with
  | none =>
    rw [loopHead]
    refine .build_bind (newBlock_apply h) (.pure ⟨hstart.fall, rfl, by simp, fun _ => ?_⟩)
    exact .of_quiet (quiet_addBlock h)
  | some cond =>
    rw [loopHead]
    refine (ensures_expr cond h).bind fun r s₁ h₁ => ?_
    obtain ⟨u, test⟩ := r
    refine (ensures_define (fun t => .unary .not t u) h₁.filling (fun _ => rfl) ?_
      fun _ => rfl).bind fun negated s₂ h₂ => ?_
    · simpa [Instruction.operands] using h₁.known u (mem_singleton_self u)
    have h₁₂ := h₁.trans h₂
    have hknown : s₂.fn.Known test negated := h₁₂.known negated (by simp)
    have hfills : s.fn.Fills s₂.fn b os (test ::ₘ 0) := h₁₂.fills
    refine ensures_fork h₁₂.filling (.pure ⟨hfills.fork hknown, h₁₂.bindings, ?_, ?_⟩)
    · intro a ha
      obtain rfl := Option.mem_some.mp ha
      exact ⟨blank_fork h₁₂.filling negated, hfills.grows.size_le.trans (Nat.le_succ _)⟩
    · intro hvisible
      refine (h₁₂.keeps ?_).trans (.of_quiet (.fork hfills negated))
      simpa [Expr.usesOf] using hvisible

/-- The blocks that start a loop again are sent to the header, or to a post statement. What the loop
was made from is the block `b₁` of the state `s₁`. -/
theorem ensures_loopPost {post : Option Stmt} {flow : Flow} {s₁ : State} {fn' : Func}
    {b₁ header : BlockId}
    (hpost : ∀ p ∈ post, ∀ s b os, s.fn.Filling b os → Ensures (stmt false b p) c s fun flow s' =>
      Executes c s s' b os false p.Scoped p.binds flow)
    (h : s₁.fn.Fills s.fn b₁ os (flow.next.toList + (flow.continues + outs)))
    (hheader : fn'.Fills s.fn header os (flow.next.toList + (flow.continues + outs)))
    (hnew : s₁.fn.blocks.size ≤ header) (hlt : header < s.fn.blocks.size) :
    Ensures (loopPost header post flow) c s fun last s' =>
      s₁.fn.Fills s'.fn b₁ os (last.toList + outs) ∧ s.fn.blocks.size ≤ s'.fn.blocks.size ∧
        (∀ x ∈ last, Flow.Dominates s'.fn.Edge s'.fn.entry header x) ∧
        (∀ a ∈ outs, a ≠ header → s'.fn.block a = s.fn.block a) ∧
        ∀ Γ, Stmt.PostScoped Γ post → Visible s₁ Γ b₁ →
          (∀ id ∈ Γ, s.bindings.lookup id = s₁.bindings.lookup id) →
          Keeps c s s' ∧ ∀ id ∈ Γ, s'.bindings.lookup id = s.bindings.lookup id := by
  have hnodup := (Multiset.nodup_add.mp h.exits.nodup).1
  cases post with
  | none =>
    -- the jumps go back to the header, which dominates them; the end of the body stays open
    have hfills : s₁.fn.Fills s.fn b₁ os (flow.continues + (flow.next.toList + outs)) := by
      rw [add_left_comm]
      exact h
    have hdom : ∀ x ∈ flow.continues, Flow.Dominates s.fn.Edge s.fn.entry header x := fun x hx =>
      hheader.dominates (hheader.within x (by simp [hx]))
    obtain ⟨hlink, hdom'⟩ := hfills.linkAll_back hlt hnew hdom
    have hexits := hfills.exits
    rw [add_assoc] at hexits
    rw [loopPost]
    refine (ensures_sendTo hexits hlt).bind fun _ s' hs' => ?_
    subst hs'
    refine .pure ⟨hlink.fills, hlink.size.ge, fun x hx => ?_,
      fun a ha hne => hlink.other a (fun hmem => ?_) hne,
      fun Γ _ _ _ => ⟨.of_quiet hlink.quiet, fun _ _ => rfl⟩⟩
    · exact hdom' header x (hheader.dominates (hheader.within x (by simp [Option.mem_def.mp hx])))
    · have hdisjoint := (Multiset.nodup_add.mp (Multiset.nodup_add.mp hnodup).2.1).2.2
      exact Multiset.disjoint_left.mp hdisjoint hmem ha
  | some post =>
    rw [loopPost]
    rcases eq_nil_or_concat (flow.continues ++ flow.next.toList) with
      hnil | ⟨sources, owner, hsplit⟩
    · -- nothing starts the loop again
      obtain ⟨hcontinues, hnext⟩ := append_eq_nil_iff.mp hnil
      rw [hnil]
      refine .bind_ok none s rfl (.pure ?_)
      have hnone : flow.next = none := Option.toList_eq_nil_iff.mp hnext
      rw [hcontinues, hnone] at h
      rw [hnone]
      exact ⟨by simpa using h, le_rfl, by simp, fun _ _ _ => rfl,
        fun _ _ _ _ => ⟨.refl c s, fun _ _ => rfl⟩⟩
    · rw [concat_eq_append] at hsplit
      have hopen : (flow.next.toList + (flow.continues + outs) : Multiset BlockId) =
          owner ::ₘ (sources + outs) := by
        rw [← add_assoc, add_comm (↑flow.next.toList : Multiset BlockId), Multiset.coe_add, hsplit,
          ← Multiset.coe_add, Multiset.coe_singleton, add_right_comm, add_comm, ← add_assoc,
          Multiset.singleton_add, Multiset.cons_add]
      rw [hopen] at h hheader hnodup
      rw [hsplit]
      refine (ensures_postBlock h).bind fun start s₂ hs₂ => ?_
      obtain ⟨rfl, rfl⟩ := hs₂
      have hlink := (linking_withPost h).fills
      have hlink' := (linking_withPost hheader).fills
      refine (hpost post rfl { s with fn := withPost s.fn owner sources } s.fn.blocks.size
        (outs + os) hlink.filling).bind fun postFlow s₃ h₃ => .pure ?_
      have houts : postFlow.outs = postFlow.next.toList := by
        obtain ⟨hbreaks, hcontinues⟩ := h₃.leaves rfl
        simp [Flow.outs, Flow.pending, hbreaks, hcontinues]
      have hfills := h₃.fills
      rw [houts] at hfills
      have hsize := size_withPost h
      refine ⟨hlink.trans hfills, ?_, fun x hx => ?_, fun a ha hne => ?_,
        fun Γ hscoped hvisible hlookup => ?_⟩
      · exact (Nat.le_succ _).trans (hsize.ge.trans hfills.grows.size_le)
      · have hwithin := (hlink'.trans hfills).within x (by simp [Option.mem_def.mp hx])
        exact (hlink'.trans hfills).dominates hwithin
      · have halt : a < s.fn.blocks.size := (h.exits_cons.opened a (by simp [ha])).lt
        have halt' : a < (withPost s.fn owner sources).blocks.size := by
          rw [hsize]
          exact halt.trans (Nat.lt_succ_self _)
        rw [hfills.grows.other a halt' halt.ne]
        refine block_withPost h halt ?_ ?_
        · rintro rfl
          exact (Multiset.nodup_cons.mp hnodup).1 (by simp [ha])
        · intro hmem
          exact Multiset.disjoint_left.mp
            (Multiset.nodup_add.mp (Multiset.nodup_cons.mp hnodup).2).2.2 hmem ha
      · have hvisible' : Visible { s with fn := withPost s.fn owner sources } Γ s.fn.blocks.size :=
          hvisible.of_fills hlink hlookup hlink.within_head
        have hscopes := h₃.scopes Γ hscoped hvisible'
        exact ⟨(Keeps.of_quiet (quiet_withPost h)).trans hscopes.keeps, hscopes.lookup⟩

/-- What is promised of everything that is lowered from one block on like a statement. -/
def Promises (c : Context) (m : BlockId → Lower Flow) (inLoop : Bool) (P : List VarId → Prop)
    (binds : List VarId) : Prop :=
  ∀ s b os, s.fn.Filling b os → Ensures (m b) c s fun flow s' =>
    Executes c s s' b os inLoop P binds flow

/-- A statement that has been lowered is one that is compiled. -/
theorem Promises.served {st : Stmt} {P : List VarId → Prop}
    (hst : Promises c (fun b => stmt inLoop b st) inLoop P binds) (h : s.fn.Filling b os) :
    Ensures (stmt inLoop b st) c s fun flow s' =>
      Executes c s s' b os inLoop P binds flow ∧ st.isRefused = false := by
  cases st with
  | unsupported pos what =>
    rw [stmt]
    exact .unsupported ..
  | _ => exact (hst s b os h).mono fun _ _ hs' => ⟨hs', rfl⟩

/-- The rest of a conditional statement or a loop, after its first statement: what holds of the two
in turn. -/
theorem Executes.andThen {P P' : List VarId → Prop} {first rest : Flow} {b' : BlockId}
    (h : Executes c s s' b os inLoop P binds first) (hnext : first.next = some b')
    (hfills : s'.fn.Fills s''.fn b' (first.pending + os) rest.outs)
    (hleaves : inLoop = false → rest.breaks = [] ∧ rest.continues = [])
    (hscopes : ∀ Γ, P' Γ → P Γ ∧ (Visible s' (binds ++ Γ) b' → Keeps c s' s'' ∧
      ∀ id ∈ binds ++ Γ, s''.bindings.lookup id = s'.bindings.lookup id)) :
    Executes c s s'' b os inLoop P' [] (first.andThen rest) := by
  refine of_keeps ?_ (fun hloop => leaves_andThen (h.leaves hloop) (hleaves hloop)) ?_
  · rw [Flow.outs_andThen]
    exact (h.fills_cons hnext).trans hfills
  · intro Γ hΓ hvisible
    obtain ⟨hP, hrest⟩ := hscopes Γ hΓ
    have hfirst := h.scopes Γ hP hvisible
    obtain ⟨hkeeps, hlookup⟩ := hrest (hfirst.visible b' hnext)
    refine ⟨hfirst.keeps.trans hkeeps, fun id hid => ?_⟩
    rw [hlookup id (mem_append_right binds hid), hfirst.lookup id hid]

/-- A statement after which the code cannot be reached ends what it is a part of. -/
theorem Executes.of_none {P P' : List VarId → Prop} {flow : Flow}
    (h : Executes c s s' b os inLoop P binds flow) (hnext : flow.next = none)
    (hP : ∀ Γ, P' Γ → P Γ) : Executes c s s' b os inLoop P' [] flow := by
  refine ⟨h.fills, h.leaves, fun Γ hΓ hvisible => ?_⟩
  have hscopes := h.scopes Γ (hP Γ hΓ) hvisible
  exact ⟨hscopes.keeps, hscopes.lookup, by simp [hnext]⟩

theorem promises_ifThen {init otherwise : Stmt} {cond : Expr} {body : List Stmt}
    (hinit : Promises c (fun b => stmt inLoop b init) inLoop init.Scoped init.binds)
    (hbody : Promises c (fun b => stmts inLoop (some b) body) inLoop (Stmt.AllScoped · body) [])
    (hotherwise : Promises c (fun b => stmt inLoop b otherwise) inLoop otherwise.Scoped
      otherwise.binds) :
    Promises c (fun b => stmt inLoop b (.ifThen init cond body otherwise)) inLoop
      (Stmt.ifThen init cond body otherwise).Scoped [] := by
  intro s b os h
  simp only [stmt]
  refine (hinit.served h).bind fun start s₁ hs₁ => ?_
  obtain ⟨h₁, hserved⟩ := hs₁
  cases hnext : start.next with
  | none => exact .pure (h₁.of_none hnext fun Γ hscoped => hscoped.1)
  | some b₁ =>
    have hfills₁ := h₁.fills_cons hnext
    refine (ensures_expr cond hfills₁.filling).bind fun r s₂ h₂ => ?_
    obtain ⟨u, context⟩ := r
    refine (ensures_add (.comment "if") h₂.filling rfl (by simp [Instruction.operands])
      rfl).bind fun _ s₃ h₃ => ?_
    have h₂₃ := h₂.trans h₃
    have hknown : s₃.fn.Known context u := h₂₃.known u (by simp)
    have hfills₃ : s₁.fn.Fills s₃.fn b₁ (start.pending + os) (context ::ₘ 0) := h₂₃.fills
    refine ensures_fork h₂₃.filling (u := u) ?_
    have hfills₄ : s₁.fn.Fills (s₃.fn.fork context u) b₁ (start.pending + os)
        ((s₃.fn.blocks.size + 1) ::ₘ s₃.fn.blocks.size ::ₘ 0) :=
      Multiset.cons_swap .. ▸ hfills₃.fork hknown
    generalize s₃.fn.blocks.size + 1 = thenStart at hfills₄ ⊢
    generalize s₃.fn.blocks.size = elseStart at hfills₄ ⊢
    refine (hbody { s₃ with fn := s₃.fn.fork context u } thenStart _ hfills₄.filling).bind
      fun thenFlow s₅ h₅ => ?_
    have hfills₅ : s₁.fn.Fills s₅.fn b₁ (start.pending + os) (elseStart ::ₘ thenFlow.outs) := by
      have hfills := hfills₄.trans h₅.fills
      rwa [Multiset.add_cons, add_zero] at hfills
    refine (hotherwise s₅ elseStart _ hfills₅.filling).bind fun elseFlow s₆ h₆ => ?_
    have hfills₆ : s₁.fn.Fills s₆.fn b₁ (start.pending + os) (elseFlow.next.toList +
        (thenFlow.next.toList + (elseFlow.pending + thenFlow.pending))) := by
      have hfills := hfills₅.trans h₆.fills
      rwa [Flow.outs, Flow.outs, add_assoc, add_left_comm elseFlow.pending] at hfills
    refine (ensures_joinBranches hfills₆).bind
      fun next s₇ h₇ => .pure (h₁.andThen hnext ?_ ?_ ?_)
    · have houts : (thenFlow.andThen { elseFlow with next }).outs =
          next.toList + (elseFlow.pending + thenFlow.pending) := by
        rw [Flow.outs_andThen, Flow.outs, add_assoc]
        rfl
      rw [houts]
      exact h₇.1
    · exact fun hloop => Executes.leaves_andThen (h₅.leaves hloop) (h₆.leaves hloop)
    · rintro Γ ⟨hinit, hrest⟩
      obtain ⟨hcond, hbody, hotherwise⟩ := hrest hserved
      refine ⟨hinit, fun hvisible => ?_⟩
      -- the numbers in scope keep their variables along the two branches
      have hkeeps₃ := h₂₃.keeps (hvisible.mono fun id hid => hcond (by simpa using hid))
      have hlookup₃ : ∀ id ∈ init.binds ++ Γ, s₃.bindings.lookup id = s₁.bindings.lookup id :=
        fun id _ => by rw [h₂₃.bindings]
      have hscopes₅ := h₅.scopes _ hbody (hvisible.of_fills hfills₄ hlookup₃ hfills₄.within_head)
      have hlookup₅ : ∀ id ∈ init.binds ++ Γ, s₅.bindings.lookup id = s₁.bindings.lookup id :=
        fun id hid => (hscopes₅.lookup id hid).trans (hlookup₃ id hid)
      have hscopes₆ := h₆.scopes _ hotherwise
        (hvisible.of_fills hfills₅ hlookup₅ hfills₅.within_head)
      refine ⟨?_, fun id hid => ?_⟩
      · exact hkeeps₃.trans ((Keeps.of_quiet (.fork hfills₃ u)).trans
          (hscopes₅.keeps.trans (hscopes₆.keeps.trans h₇.2.keeps)))
      · rw [h₇.2.bindings, hscopes₆.lookup id hid, hlookup₅ id hid]

theorem promises_loop {init : Stmt} {cond : Option Expr} {post : Option Stmt} {body : List Stmt}
    (hinit : Promises c (fun b => stmt inLoop b init) inLoop init.Scoped init.binds)
    (hbody : Promises c (fun b => stmts true (some b) body) true (Stmt.AllScoped · body) [])
    (hpost : ∀ p ∈ post, Promises c (fun b => stmt false b p) false p.Scoped p.binds) :
    Promises c (fun b => stmt inLoop b (.loop init cond post body)) inLoop
      (Stmt.loop init cond post body).Scoped [] := by
  intro s b os h
  simp only [stmt]
  refine (hinit.served h).bind fun start s₁ hs₁ => ?_
  obtain ⟨h₁, hserved⟩ := hs₁
  cases hnext : start.next with
  | none => exact .pure (h₁.of_none hnext fun Γ hscoped => hscoped.1)
  | some b₁ =>
    have hfilling₁ := (h₁.fills_cons hnext).filling
    have hstart : s₁.fn.Fills s₁.fn b₁ (start.pending + os) (b₁ ::ₘ 0) := .start hfilling₁
    refine .build_bind (newBlock_apply hfilling₁) ?_
    generalize hheader : s₁.fn.blocks.size = header
    have hfills₂ := hstart.fall
    rw [hheader] at hfills₂
    refine (ensures_add (s := { s₁ with fn := s₁.fn.addBlock [b₁] }) (.comment "for")
      hfills₂.filling rfl (by simp [Instruction.operands]) rfl).bind fun _ s₃ h₃ => ?_
    have hfills₃ : s₁.fn.Fills s₃.fn b₁ (start.pending + os) (header ::ₘ 0) :=
      hfills₂.trans h₃.fills
    have hfilling₃ : s₃.fn.Filling header (start.pending + os) := by
      have hfilling := hfills₃.filling
      rwa [zero_add] at hfilling
    refine (ensures_loopHead hfilling₃ cond).bind fun r s₄ h₄ => ?_
    obtain ⟨bodyStart, after⟩ := r
    obtain ⟨hhead₄, hbindings₄, hafter, hkeeps₄⟩ := h₄
    have hfills₄ : s₁.fn.Fills s₄.fn b₁ (start.pending + os) (bodyStart ::ₘ after.toList) := by
      have hfills := hfills₃.trans (by rwa [zero_add])
      rwa [add_zero] at hfills
    refine (hbody s₄ bodyStart _ hfills₄.filling).bind fun flow s₅ h₅ => ?_
    -- the loop as it has grown from the block before it, and from its header
    have houts : flow.outs + after.toList =
        flow.next.toList + (flow.continues + (flow.breaks + after.toList)) := by
      rw [Flow.outs, Flow.pending]
      ac_rfl
    have hfills₅ := hfills₄.trans h₅.fills
    have hhead₅ := hhead₄.trans h₅.fills
    rw [houts] at hfills₅ hhead₅
    have hlt : header < s₃.fn.blocks.size := hfilling₃.exits.head.lt
    have hlt₅ : header < s₅.fn.blocks.size := hlt.trans_le hhead₅.grows.size_le
    refine (ensures_loopPost hpost hfills₅ hhead₅ hheader.le hlt₅).bind fun bodyEnd s₆ h₆ => ?_
    obtain ⟨hfills₆, hsize₆, hdom₆, hother₆, hscopes₆⟩ := h₆
    -- the block after the loop has been left alone
    have hblank₆ : ∀ a ∈ after, a ≠ header ∧ s₆.fn.Blank a := by
      intro a ha
      obtain ⟨hblank, hnew⟩ := hafter a ha
      have hmem : a ∈ after.toList := Option.mem_toList.mpr ha
      have hne : a ≠ header := (hlt.trans_le hnew).ne'
      have hne' : a ≠ bodyStart := by
        rintro rfl
        exact hfills₄.exits_cons.not_mem_tail (by simp [Option.mem_def.mp ha])
      have hlt₄ : a < s₄.fn.blocks.size :=
        (hfills₄.exits_cons.opened a (by simp [Option.mem_def.mp ha])).lt
      refine ⟨hne, ?_⟩
      rw [Blank, hother₆ a (by simp [Option.mem_def.mp ha]) hne, h₅.fills.grows.other a hlt₄ hne']
      exact hblank
    have hrest : ∀ s₇ : State,
        s₁.fn.Fills s₇.fn b₁ (start.pending + os) (flow.breaks + (after.toList + 0)) →
        (∀ a ∈ after, s₇.fn.Blank a) → Rewires c s₆ s₇ →
        Ensures (leaveLoop after flow.breaks >>= fun next => pure (start.andThen { next })) c s₇
          fun flow s' => Executes c s s' b os inLoop (Stmt.loop init cond post body).Scoped []
            flow := by
      intro s₇ hfills₇ hblank₇ hrewires₇
      have hnew : ∀ a ∈ after, s₇.fn.Blank a ∧ s₁.fn.blocks.size ≤ a := fun a ha =>
        ⟨hblank₇ a ha, hfills₃.grows.size_le.trans (hafter a ha).2⟩
      refine (ensures_leaveLoop hfills₇ hnew).bind fun next s₈ h₈ =>
        .pure (h₁.andThen hnext h₈.1 (fun _ => ⟨rfl, rfl⟩) ?_)
      rintro Γ ⟨hinit, hrest⟩
      obtain ⟨hcond, hpost, hbody⟩ := hrest hserved
      refine ⟨hinit, fun hvisible => ?_⟩
      have hlookup₃ : ∀ id ∈ init.binds ++ Γ, s₃.bindings.lookup id = s₁.bindings.lookup id :=
        fun id _ => by rw [h₃.bindings]
      have hvisible₃ := hvisible.of_fills hfills₃ hlookup₃ hfills₃.within_head
      have hlookup₄ : ∀ id ∈ init.binds ++ Γ, s₄.bindings.lookup id = s₁.bindings.lookup id :=
        fun id hid => by rw [hbindings₄, hlookup₃ id hid]
      have hscopes₅ := h₅.scopes _ hbody (hvisible.of_fills hfills₄ hlookup₄ hfills₄.within_head)
      have hlookup₅ : ∀ id ∈ init.binds ++ Γ, s₅.bindings.lookup id = s₁.bindings.lookup id :=
        fun id hid => (hscopes₅.lookup id hid).trans (hlookup₄ id hid)
      obtain ⟨hkeeps₆, hlookup₆⟩ := hscopes₆ _ hpost hvisible hlookup₅
      have hkeeps₃ : Keeps c s₁ s₃ :=
        (Keeps.of_quiet (quiet_addBlock hfilling₁)).trans (h₃.keeps (.nil _ _))
      refine ⟨?_, fun id hid => ?_⟩
      · exact hkeeps₃.trans ((hkeeps₄ (hvisible₃.mono fun _ hid => hcond hid)).trans
          (hscopes₅.keeps.trans (hkeeps₆.trans (hrewires₇.keeps.trans h₈.2.keeps))))
      · rw [h₈.2.bindings, hrewires₇.bindings, hlookup₆ id hid, hlookup₅ id hid]
    cases bodyEnd with
    | none => exact hrest s₆ (by simpa using hfills₆) (fun a ha => (hblank₆ a ha).2) (.refl c s₆)
    | some last =>
      have hlast : s₁.fn.Fills s₆.fn b₁ (start.pending + os)
          (last ::ₘ (flow.breaks + after.toList)) := hfills₆
      have hlt₆ : header < s₆.fn.blocks.size := hlt₅.trans_le hsize₆
      have haccepts : Formed.Accepts s₆.fn last header := .inl (hdom₆ last rfl)
      have hjump : Build.jump last header s₆.fn = (.ok (), s₆.fn.append last (.jump header)) := by
        rw [Build.jump, Build.add_apply, hlast.head.code.isTerminated]
        rfl
      have hedge : Build.addEdge last header (s₆.fn.append last (.jump header)) =
          (.ok (), s₆.fn.link last header) := by
        rw [Build.addEdge_apply, addEdge_append]
        rfl
      refine .build_bind hjump (.build_bind hedge (hrest { s₆ with fn := s₆.fn.link last header }
        ?_ ?_ (.of_quiet (.link hlast hlt₆ haccepts))))
      · rw [add_zero]
        exact hlast.link hlt₆ hheader.le haccepts
      · intro a ha
        obtain ⟨hne, hblank⟩ := hblank₆ a ha
        have hne' : a ≠ last := by
          rintro rfl
          exact hlast.exits_cons.not_mem_tail (by simp [Option.mem_def.mp ha])
        rw [Blank, block_link hlast.head.lt hlt₆ hne' hne]
        exact hblank

/-! ## All statements -/

/-- Statements in turn. -/
theorem promises_cons {first : Stmt} {rest : List Stmt}
    (hfirst : Promises c (fun b => stmt inLoop b first) inLoop first.Scoped first.binds)
    (hrest : Promises c (fun b => stmts inLoop (some b) rest) inLoop (Stmt.AllScoped · rest) []) :
    Promises c (fun b => stmts inLoop (some b) (first :: rest)) inLoop
      (Stmt.AllScoped · (first :: rest)) [] := by
  intro s b os h
  simp only [stmts]
  refine (hfirst.served h).bind fun flow s₁ hs₁ => ?_
  obtain ⟨h₁, hserved⟩ := hs₁
  cases hnext : flow.next with
  | none =>
    rw [stmts]
    have hflow : flow.andThen { next := none } = flow := by
      simp [Flow.andThen, ← hnext]
    exact .bind_ok _ _ rfl (.pure (hflow.symm ▸ h₁.of_none hnext fun Γ hscoped => hscoped.1))
  | some b₁ =>
    refine (hrest s₁ b₁ _ (h₁.fills_cons hnext).filling).bind fun flow' s₂ h₂ =>
      .pure (h₁.andThen hnext h₂.fills h₂.leaves fun Γ hscoped => ⟨hscoped.1, fun hvisible => ?_⟩)
    have hscopes := h₂.scopes _ (hscoped.2 hserved) hvisible
    exact ⟨hscopes.keeps, hscopes.lookup⟩

mutual

theorem promises_stmt (st : Stmt) (inLoop : Bool) :
    Promises c (fun b => stmt inLoop b st) inLoop st.Scoped st.binds := by
  cases st with
  | ifThen init cond body otherwise =>
    exact promises_ifThen (promises_stmt init inLoop) (promises_stmts body inLoop)
      (promises_stmt otherwise inLoop)
  | loop init cond post body =>
    exact promises_loop (promises_stmt init inLoop) (promises_stmts body true) (promises_post post)
  | block body =>
    intro s b os h
    simp only [stmt]
    exact promises_stmts body inLoop s b os h
  | empty =>
    intro s b os h
    simp only [stmt]
    exact .pure (.refl h)
  | call callee args =>
    intro s b os h
    simp only [stmt]
    refine (ensures_exprs args h).bind fun r s₁ h₁ => ?_
    obtain ⟨us, b₁⟩ := r
    replace h₁ := h₁.1
    refine (ensures_call h₁.filling callee h₁.known).discard.bind fun _ s₂ h₂ => ?_
    obtain ⟨-, h₂⟩ := h₂
    exact .pure (.of_evaluates ((h₁.trans h₂).mono (by simp) fun _ hu => hu)
      fun _ hscoped => hscoped)
  | vars specs =>
    intro s b os h
    simp only [stmt]
    exact (ensures_varSpecs specs h).bind fun b₁ s₁ h₁ => .pure (.of_next h₁.1 h₁.2)
  | assign targets values =>
    intro s b os h
    simp only [stmt]
    refine (ensures_exprs values h).bind fun r s₁ h₁ => ?_
    obtain ⟨us, b₁⟩ := r
    obtain ⟨h₁, hlength⟩ := h₁
    refine (ensures_assigns (fun p => p.1.uses) (fun p => p.1.binds) h₁ ?_).bind
      fun _ s₂ h₂ => .pure (.of_next h₂.1 ?_)
    · rintro ⟨target, u⟩ hmem s₂ hs₂
      have hu := h₁.known u (of_mem_zip hmem).2
      exact ensures_assign hs₂.filling_next target (hs₂.known hu (Multiset.mem_singleton_self b₁))
    · rintro Γ ⟨hsame, hvalues, huses, hbinds⟩ hvisible
      have hle : targets.length ≤ us.length := (hsame.trans hlength.symm).le
      have hscopes := h₂.2 Γ hvalues
      rw [flatMap_zip hle, flatMap_zip hle] at hscopes
      exact hscopes huses hbinds hvisible
  | update target current op operand =>
    intro s b os h
    simp only [stmt]
    refine (ensures_expr current h).bind fun r s₁ h₁ => ?_
    obtain ⟨before, b₁⟩ := r
    refine (ensures_expr operand h₁.filling).bind fun r s₂ h₂ => ?_
    obtain ⟨u, b₂⟩ := r
    have h₁₂ := h₁.trans h₂
    refine (ensures_define _ h₁₂.filling (fun _ => rfl) (fun _ u hu => ?_) fun _ => rfl).bind
      fun result s₃ h₃ => ?_
    · exact h₁₂.known u hu
    have h₁₃ := h₁₂.trans h₃
    refine (ensures_assign h₁₃.filling target (h₁₃.known result (by simp))).bind fun _ s₄ h₄ =>
      .pure (.of_next (h₁₃.fills.trans_next h₄.fills) ?_)
    rintro Γ ⟨hcurrent, hoperand, huses, hbinds⟩ hvisible
    have hscopes := h₁₃.scopes hvisible (by simp [hcurrent, hoperand])
    exact hscopes.trans (h₄.toScopes (hscopes.visible b₂ rfl) huses hbinds) (List.Subset.refl Γ)
  | ret value =>
    intro s b os h
    change Ensures (stmt inLoop b (.ret value)) c s _
    cases value with
    | none =>
      rw [stmt]
      refine (ensures_ret h (by simp)).bind fun _ s₁ h₁ =>
        .pure (.of_keeps h₁.1 (fun _ => ⟨rfl, rfl⟩) ?_)
      exact fun Γ _ _ => ⟨h₁.2.2, fun id _ => by rw [h₁.2.1]⟩
    | some value =>
      rw [stmt]
      refine (ensures_expr value h).bind fun r s₁ h₁ => ?_
      obtain ⟨u, b₁⟩ := r
      refine (@ensures_ret _ _ _ _ (some u) h₁.filling ?_).bind fun _ s₂ h₂ =>
        .pure (.of_keeps (h₁.fills.trans_next h₂.1) (fun _ => ⟨rfl, rfl⟩) ?_)
      · intro w hw
        obtain rfl := Option.mem_some.mp hw
        exact h₁.known u (by simp)
      · intro Γ hscoped hvisible
        have huses : value.uses ⊆ Γ := by simpa [Stmt.Scoped, Expr.usesOf] using hscoped
        have hscopes := h₁.scopes hvisible huses
        refine ⟨hscopes.keeps.trans h₂.2.2, fun id hid => ?_⟩
        rw [h₂.2.1, hscopes.lookup id hid]
  | leave pos | again pos =>
    -- outside of a loop the jump is refused, so nothing is left to show there
    intro s b os h
    simp only [stmt]
    refine Ensures.supported fun hloop => .pure (.of_keeps (.start h) ?_ ?_)
    · exact fun hfalse => absurd (by rw [hfalse]; rfl) hloop
    · exact fun _ _ _ => ⟨.refl c s, fun _ _ => rfl⟩
  | unsupported pos what =>
    intro s b os h
    simp only [stmt]
    exact .unsupported ..

theorem promises_post (post : Option Stmt) :
    ∀ p ∈ post, Promises c (fun b => stmt false b p) false p.Scoped p.binds := by
  cases post with
  | none => simp
  | some post =>
    intro p hp
    obtain rfl := Option.mem_some.mp hp
    exact promises_stmt post false

theorem promises_stmts (l : List Stmt) (inLoop : Bool) :
    Promises c (fun b => stmts inLoop (some b) l) inLoop (Stmt.AllScoped · l) [] := by
  cases l with
  | nil =>
    intro s b os h
    simp only [stmts]
    exact .pure (.refl h)
  | cons first rest =>
    exact promises_cons (promises_stmt first inLoop) (promises_stmts rest inLoop)

end

end SsaBlocks.Lower
