import SsaBlocks.Lower.Expr
import SsaBlocks.Proofs.Lower.Basic

/-!
# Lowering expressions

An expression is computed from one block on and leaves one block open, in which its value is known.
A logical operator forks and meets again; the variable of its result is declared on both ways, so
that it is established where they meet.
-/

namespace SsaBlocks.Lower

open SsaBlocks.Source (Pos)
open SsaBlocks.Typed
open Func

-- states that differ in their functions are compared by unfolding what was done to the functions
attribute [local irreducible] Func.addBlock Func.append

variable {α : Type} {c : Context} {s s' : State} {Q : α → State → Prop} {b x y : BlockId}
  {os outs : Multiset BlockId} {u : Temp} {ids : List VarId}

/-- A block is left by a choice between two new ones. -/
theorem ensures_fork {k : BlockId → BlockId → Lower α} (h : s.fn.Filling b os)
    (hk : Ensures (k s.fn.blocks.size (s.fn.blocks.size + 1)) c
      { s with fn := s.fn.fork b u } Q) :
    Ensures (do
      let otherwise ← build (.newBlock [b])
      let target ← build (.newBlock [b])
      build (.branch b u otherwise target)
      k otherwise target) c s Q := by
  have hstart : s.fn.Fills s.fn b os (b ::ₘ 0) := Fills.start h
  have hlt : ∀ p ∈ [b], p < s.fn.blocks.size := by simpa using h.exits.head.lt
  have hlt' : ∀ p ∈ [b], p < (s.fn.addBlock [b]).blocks.size := fun p hp => by
    rw [size_addBlock]
    exact (hlt p hp).trans (Nat.lt_succ_self _)
  have hfirst : Build.newBlock [b] s.fn = (.ok s.fn.blocks.size, s.fn.addBlock [b]) := by
    rw [Build.newBlock_apply, h.unfinished]
    rfl
  have hsecond : Build.newBlock [b] (s.fn.addBlock [b]) =
      (.ok (s.fn.blocks.size + 1), (s.fn.addBlock [b]).addBlock [b]) := by
    rw [Build.newBlock_apply, hstart.fall.unfinished, size_addBlock]
    rfl
  have hunended : Unended (((s.fn.addBlock [b]).addBlock [b]).block b).code := by
    rw [code_addBlock (List.nodup_singleton b) hlt', code_addBlock (List.nodup_singleton b) hlt]
    exact h.exits.head.code
  have hbranch : Build.branch b u s.fn.blocks.size (s.fn.blocks.size + 1)
      ((s.fn.addBlock [b]).addBlock [b]) = (.ok (), s.fn.fork b u) := by
    rw [Build.branch, Build.add_apply, hunended.isTerminated]
    rfl
  exact .bind_ok _ _ (Ensures.build_apply hfirst)
    (.bind_ok _ _ (Ensures.build_apply hsecond) (.bind_ok _ _ (Ensures.build_apply hbranch) hk))

/-- Two open blocks meet in a new one. -/
theorem ensures_meet {k : BlockId → Lower α} (h : s.fn.Filling x os) (hy : y ∈ os)
    (hk : Ensures (k s.fn.blocks.size) c { s with fn := s.fn.meet x y } Q) :
    Ensures (do
      let join ← build (.newBlock [x, y])
      build (.jump x join)
      k join) c s Q := by
  have hxy : x ≠ y := by
    rintro rfl
    exact h.exits.not_mem_tail hy
  have hlt : ∀ p ∈ [x, y], p < s.fn.blocks.size := by
    simpa using ⟨h.exits.head.lt, (h.exits.opened y (Multiset.mem_cons_of_mem hy)).lt⟩
  have hnew : Build.newBlock [x, y] s.fn = (.ok s.fn.blocks.size, s.fn.addBlock [x, y]) := by
    rw [Build.newBlock_apply, h.unfinished]
    rfl
  have hunended : Unended ((s.fn.addBlock [x, y]).block x).code := by
    rw [code_addBlock (by simpa using hxy) hlt]
    exact h.exits.head.code
  have hjump : Build.jump x s.fn.blocks.size (s.fn.addBlock [x, y]) =
      (.ok (), s.fn.meet x y) := by
    rw [Build.jump, Build.add_apply, hunended.isTerminated]
    rfl
  exact .bind_ok _ _ (Ensures.build_apply hnew) (.bind_ok _ _ (Ensures.build_apply hjump) hk)

/-- Where two blocks meet that both declare a variable, it is established. -/
theorem established_meet {v : Variable} {fn₀ fn : Func} {b₀ : BlockId}
    (h : fn₀.Fills fn b₀ os (x ::ₘ y ::ₘ outs)) (hx : v ∈ (fn.block x).declared)
    (hy : v ∈ (fn.block y).declared) : (fn.meet x y).Established v fn.blocks.size := by
  have hquiet := Quiet.meet h
  refine Flow.Passes.of_preds (h.meet.entry_ne h.grows.size_le) fun p hp => ?_
  have hxy : x ≠ y := fun heq => h.exits_cons.not_mem_tail (by simp [heq])
  have hlt : ∀ p ∈ [x, y], p < fn.blocks.size := by
    simpa using ⟨h.head.lt, (h.exits_cons.opened y (by simp)).lt⟩
  rw [Graph.Edge, meet, parents_append, block_addBlock (by simpa using hxy) hlt, if_pos rfl] at hp
  refine Flow.Passes.self ?_
  rw [hquiet.declared]
  rcases List.mem_pair.mp hp with rfl | rfl
  · exact hx
  · exact hy

theorem mem_declared_declare {v : Variable} {fn : Func} (hb : b < fn.blocks.size) (u : Temp) :
    v ∈ ((fn.declare b v u).block b).declared := by
  rw [Func.declare, block_modify_self hb]
  exact KeySet.mem_insert.mpr (.inl rfl)

theorem ensures_logical {second : BlockId → Lower (Temp × BlockId)} (op : Logical)
    (hsecond : ∀ s b os, s.fn.Filling b os →
      Ensures (second b) c s fun r s' => Evaluates c s s' b os ids [r.1] r.2)
    (h : s.fn.Filling b os) (hu : s.fn.Known b u) :
    Ensures (logical op b u second) c s fun r s' => Evaluates c s s' b os ids [r.1] r.2 := by
  unfold logical
  refine .bind_ok () { s with logicals := s.logicals + 1 } rfl ?_
  refine .bind_ok { s with logicals := s.logicals + 1 }
    { s with logicals := s.logicals + 1 } rfl ?_
  refine (ensures_newVariable ..).bind fun v s₁ hv => ?_
  obtain ⟨hs₁, hid⟩ := hv
  have hfn : s₁.fn = s.fn := by rw [hs₁]
  have hbindings : s₁.bindings = s.bindings := by rw [hs₁]
  rw [← hfn] at h hu
  refine (ensures_add (.comment op.text) h rfl (by simp [Instruction.operands]) rfl).bind
    fun _ s₂ h₂ => ?_
  have hu₂ : s₂.fn.Known b u := h₂.fills.known hu (Multiset.mem_singleton_self b)
  have hfills₂ : s₁.fn.Fills s₂.fn b os (b ::ₘ 0) := h₂.fills
  refine ensures_fork h₂.filling (u := u) ?_
  obtain ⟨short, long, hpair, hfills₃⟩ : ∃ short long,
      (if op = .both then (s₂.fn.blocks.size, s₂.fn.blocks.size + 1)
        else (s₂.fn.blocks.size + 1, s₂.fn.blocks.size)) = (short, long) ∧
      s₁.fn.Fills (s₂.fn.fork b u) b os (short ::ₘ long ::ₘ 0) := by
    cases op with
    | both => exact ⟨_, _, rfl, hfills₂.fork hu₂⟩
    | either => exact ⟨_, _, rfl, Multiset.cons_swap .. ▸ hfills₂.fork hu₂⟩
  rw [hpair]
  -- one way settles the result
  refine (ensures_const hfills₃.filling .bool _).bind fun settled s₄ h₄ => ?_
  have hfills₄ : s₁.fn.Fills s₄.fn b os (short ::ₘ long ::ₘ 0) := hfills₃.trans h₄.fills
  refine .build_bind (Build.declare_apply ..) ?_
  have hfills₅ : s₁.fn.Fills (s₄.fn.declare short v settled) b os (long ::ₘ short ::ₘ 0) :=
    Multiset.cons_swap .. ▸ hfills₄.declare (h₄.known settled (List.mem_singleton_self settled)) v
  -- the other one computes the second operand
  refine (hsecond _ long _ hfills₅.filling).bind fun r s₆ h₆ => ?_
  obtain ⟨right, last⟩ := r
  have hfills₆ : s₁.fn.Fills s₆.fn b os (last ::ₘ short ::ₘ 0) := hfills₅.trans h₆.fills
  refine .build_bind (Build.declare_apply ..) ?_
  have hfills₇ : s₁.fn.Fills (s₆.fn.declare last v right) b os (short ::ₘ last ::ₘ 0) :=
    Multiset.cons_swap .. ▸ hfills₆.declare (h₆.known right (List.mem_singleton_self right)) v
  refine ensures_meet hfills₇.filling (by simp) ?_
  refine (ensures_read hfills₇.meet.filling v).bind fun u' s₉ h₉ => .pure ?_
  obtain ⟨hfills₉, hknown, hbindings₉, htidy⟩ := h₉
  have hbindings₄ : s₄.bindings = s.bindings := h₄.bindings.trans (h₂.bindings.trans hbindings)
  refine ⟨?_, by simpa using hknown, ?_, ?_⟩
  · rw [← hfn]
    exact hfills₇.meet.trans hfills₉
  · exact hbindings₉.trans (h₆.bindings.trans hbindings₄)
  intro hvisible reserved ht
  -- the variable is reserved until it is read where the two ways meet
  obtain ⟨hnew, hreserved⟩ := ht.newVariable hid
  have ht₁ : Tidy c (v :: reserved) s₁ := by
    rw [hs₁]
    exact ⟨hnew.injective, hnew.made, hnew.bound, hnew.awaited⟩
  have hmem : v ∈ v :: reserved := List.mem_cons_self ..
  have ht₂ := h₂.keeps (.nil _ _) _ ht₁
  have ht₄ := h₄.keeps (.nil _ _) _ (Keeps.of_quiet (.fork hfills₂ u) _ ht₂)
  have ht₆ := h₆.keeps ?_ _ (ht₄.declare hmem short settled)
  · have ht₈ := Keeps.of_quiet (.meet hfills₇) _ (ht₆.declare hmem last right)
    refine htidy reserved ht₈.release hreserved (ht₈.made v hmem) ?_
    have hlt : short < s₆.fn.blocks.size := (hfills₆.exits_cons.opened short (by simp)).lt
    have hne : last ≠ short := fun heq => hfills₆.exits_cons.not_mem_tail (by simp [heq])
    refine established_meet hfills₇ ?_ (mem_declared_declare hfills₆.head.lt right)
    rw [Func.declare, block_modify_ne hne]
    refine (h₆.fills.grows.extends_old ?_).declared v (mem_declared_declare hfills₄.head.lt settled)
    exact (hfills₅.exits_cons.opened short (by simp)).lt
  · have hvisible₁ : Visible s₁ ids b := by
      rw [hs₁]
      exact hvisible
    refine hvisible₁.of_fills hfills₅ (fun id _ => ?_) hfills₅.within_head
    rw [hbindings]
    exact congrArg _ hbindings₄

mutual

theorem ensures_expr (e : Expr) {s : State} {b : BlockId} {os : Multiset BlockId}
    (h : s.fn.Filling b os) :
    Ensures (expr b e) c s fun r s' => Evaluates c s s' b os e.uses [r.1] r.2 := by
  cases e with
  | const pos type value =>
    rw [expr]
    refine (ensures_valueType ..).bind fun type s₁ hs₁ => ?_
    subst hs₁
    exact (ensures_const h type value).bind fun u s₁ h₁ => .pure h₁
  | var pos name id =>
    rw [expr]
    refine .bind_ok s s rfl (.bind_ok c s rfl ?_)
    cases hbound : s.bindings.lookup id with
    | some v => exact (ensures_read_bound h hbound).bind fun u s₁ h₁ => .pure h₁
    | none =>
      cases hglobal : c.globals.lookup id with
      | some v =>
        refine (ensures_define _ h (fun _ => rfl) (by simp [Instruction.operands])
          fun _ => rfl).bind fun u s₁ h₁ => .pure (h₁.mono (by simp) fun _ hu => hu)
      | none => exact .unsupported ..
  | unary pos op operand =>
    rw [expr]
    refine (ensures_expr operand h).bind fun r s₁ h₁ => ?_
    obtain ⟨u, b₁⟩ := r
    have hknown : s₁.fn.Known b₁ u := h₁.known u (List.mem_singleton_self u)
    have hunary : ∀ op', Ensures (build (.unary b₁ op' u)) c s₁ fun u' s' =>
        Evaluates c s s' b os operand.uses [u'] b₁ := by
      intro op'
      refine (ensures_define _ h₁.filling (fun _ => rfl) ?_ fun _ => rfl).mono fun u' s₂ h₂ =>
        (h₁.trans h₂).mono (by simp) (by simp)
      simpa [Instruction.operands] using hknown
    cases op with
    | plus => exact .pure h₁
    | neg => exact (hunary .neg).bind fun u' s₂ h₂ => .pure h₂
    | not => exact (hunary .not).bind fun u' s₂ h₂ => .pure h₂
    | other text => exact .unsupported ..
  | binary op left right =>
    rw [expr]
    refine (ensures_expr left h).bind fun r s₁ h₁ => ?_
    obtain ⟨l, b₁⟩ := r
    refine (ensures_expr right h₁.filling).bind fun r s₂ h₂ => ?_
    obtain ⟨r, b₂⟩ := r
    have h₁₂ := h₁.trans h₂
    refine (ensures_define _ h₁₂.filling (fun _ => rfl) (fun _ u hu => ?_) fun _ => rfl).bind
      fun u s₃ h₃ => .pure ((h₁₂.trans h₃).mono (by simp [Expr.uses]) (by simp))
    exact h₁₂.known u hu
  | logical op left right =>
    rw [expr]
    refine (ensures_expr left h).bind fun r s₁ h₁ => ?_
    obtain ⟨l, b₁⟩ := r
    refine (ensures_logical op (fun s b os h => ensures_expr right h) h₁.filling
      (h₁.known l (List.mem_singleton_self l))).mono fun r s₂ h₂ => ?_
    exact (h₁.trans h₂).mono (by simp [Expr.uses]) (by simp)
  | convert pos type operand =>
    rw [expr]
    refine (ensures_valueType ..).discard.bind fun _ s₁ hs₁ => ?_
    obtain ⟨-, rfl⟩ := hs₁
    exact ensures_expr operand h
  | call callee args =>
    rw [expr]
    refine (ensures_exprs args h).bind fun r s₁ h₁ => ?_
    obtain ⟨us, b₁⟩ := r
    replace h₁ := h₁.1
    refine (ensures_define _ h₁.filling (fun _ => rfl) (fun _ u hu => ?_) fun _ => rfl).bind
      fun u s₂ h₂ => .pure ((h₁.trans h₂).mono (by simp [Expr.uses]) (by simp))
    exact h₁.known u hu
  | unsupported pos what =>
    rw [expr]
    exact .unsupported ..

theorem ensures_exprs (es : List Expr) {s : State} {b : BlockId} {os : Multiset BlockId}
    (h : s.fn.Filling b os) :
    Ensures (exprs b es) c s fun r s' =>
      Evaluates c s s' b os (Expr.usesOf es) r.1 r.2 ∧ r.1.length = es.length := by
  cases es with
  | nil =>
    rw [exprs]
    exact .pure ⟨.refl h, rfl⟩
  | cons e rest =>
    rw [exprs]
    refine (ensures_expr e h).bind fun r s₁ h₁ => ?_
    obtain ⟨u, b₁⟩ := r
    refine (ensures_exprs rest h₁.filling).bind fun r s₂ h₂ => ?_
    obtain ⟨us, b₂⟩ := r
    exact .pure ⟨h₁.trans h₂.1, congrArg (· + 1) h₂.2⟩

end

end SsaBlocks.Lower
