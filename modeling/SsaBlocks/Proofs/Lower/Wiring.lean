import SsaBlocks.Lower.Stmt
import SsaBlocks.Proofs.Lower.Expr

/-!
# Wiring the blocks of statements

How the blocks that statements leave open are connected: branches meet, the blocks that go on with
a loop are sent to its header or to its post statement, and the blocks that leave it are sent to
the block after it.
-/

namespace SsaBlocks.Lower

open SsaBlocks.Source (Pos)
open SsaBlocks.Typed
open Func

attribute [local irreducible] Func.addBlock Func.append Func.addEdge

variable {α : Type} {c : Context} {s s' : State} {Q : α → State → Prop} {fn₀ : Func}
  {b₀ b x y t : BlockId} {os outs : Multiset BlockId}

/-- The function of the state has been changed in a way that keeps its variables. -/
structure Rewires (c : Context) (s s' : State) : Prop where
  bindings : s'.bindings = s.bindings
  keeps : Keeps c s s'

theorem Rewires.of_quiet {fn : Func} (h : s.fn.Quiet fn) : Rewires c s { s with fn } :=
  ⟨rfl, .of_quiet h⟩

theorem Rewires.refl (c : Context) (s : State) : Rewires c s s :=
  ⟨rfl, .refl c s⟩

theorem Rewires.trans {s'' : State} (h : Rewires c s s') (k : Rewires c s' s'') :
    Rewires c s s'' :=
  ⟨k.bindings.trans h.bindings, h.keeps.trans k.keeps⟩

/-- A block falls through to a new one. -/
theorem newBlock_apply (h : s.fn.Filling b os) :
    Build.newBlock [b] s.fn = (.ok s.fn.blocks.size, s.fn.addBlock [b]) := by
  rw [Build.newBlock_apply, h.unfinished]
  rfl

theorem quiet_addBlock (h : s.fn.Filling b os) : s.fn.Quiet (s.fn.addBlock [b]) :=
  .addBlock h.formed (List.nodup_singleton b) (by simpa using h.exits.head.lt)

/-- The branches of a conditional statement meet, if both of them end. -/
theorem ensures_joinBranches {otherwise next : Option BlockId}
    (h : fn₀.Fills s.fn b₀ os (otherwise.toList + (next.toList + outs))) :
    Ensures (joinBranches otherwise next) c s fun join s' =>
      fn₀.Fills s'.fn b₀ os (join.toList + outs) ∧ Rewires c s s' := by
  have hfall : ∀ {b}, fn₀.Fills s.fn b₀ os (b ::ₘ outs) →
      Ensures (some <$> build (.newBlock [b])) c s fun join s' =>
        fn₀.Fills s'.fn b₀ os (join.toList + outs) ∧ Rewires c s s' := fun h =>
    .map (.build (newBlock_apply h.filling) ⟨h.fall, .of_quiet (quiet_addBlock h.filling)⟩)
  rcases otherwise with _ | x <;> rcases next with _ | y
  · rw [joinBranches]
    exact .pure ⟨by simpa using h, .refl c s⟩
  · exact hfall (by simpa using h)
  · exact hfall (by simpa using h)
  · have h' : fn₀.Fills s.fn b₀ os (x ::ₘ y ::ₘ outs) := h
    rw [joinBranches]
    exact ensures_meet h'.filling (by simp) (.pure ⟨h'.meet, .of_quiet (.meet h')⟩)

/-- The blocks are sent to the target one after the other. -/
theorem ensures_sendTo {sources : List BlockId} (h : s.fn.Exits (sources + os))
    (ht : t < s.fn.blocks.size) :
    Ensures (sendTo t sources) c s fun _ s' =>
      s' = { s with fn := s.fn.linkAll sources t } := by
  induction sources generalizing s with
  | nil => exact Ensures.pure rfl
  | cons x rest ih =>
    have h' : s.fn.Exits (x ::ₘ (rest + os)) := by
      rw [← Multiset.cons_add, Multiset.cons_coe]
      exact h
    have hjump : Build.jump x t s.fn = (.ok (), s.fn.append x (.jump t)) := by
      rw [Build.jump, Build.add_apply, h'.head.code.isTerminated]
      rfl
    have hlink : (s.fn.append x (.jump t)).addEdge x t = s.fn.link x t :=
      addEdge_append s.fn x t (.jump t)
    have hedge : Build.addEdge x t (s.fn.append x (.jump t)) = (.ok (), s.fn.link x t) := by
      rw [Build.addEdge_apply, hlink]
    refine .forM_cons (P := fun _ s' => s' = { s with fn := s.fn.link x t })
      (.build_bind hjump (.build hedge rfl)) fun s₁ hs₁ => ?_
    subst hs₁
    refine ih (s := { s with fn := s.fn.link x t }) (h'.link ht) ?_
    rw [size_link]
    exact ht

theorem quiet_hop (h : fn₀.Fills s.fn b₀ os (b ::ₘ outs)) : s.fn.Quiet (s.fn.hop b) :=
  (quiet_addBlock h.filling).trans (.append ..)

theorem jump_apply (h : fn₀.Fills s.fn b₀ os (b ::ₘ outs)) :
    Build.jump b s.fn.blocks.size (s.fn.addBlock [b]) = (.ok (), s.fn.hop b) := by
  have hunended : Unended ((s.fn.addBlock [b]).block b).code := by
    rw [code_addBlock (List.nodup_singleton b) (by simpa using h.head.lt)]
    exact h.head.code
  rw [Build.jump, Build.add_apply, hunended.isTerminated]
  rfl

/-- The blocks that leave a loop are sent to the block after it. -/
theorem ensures_leaveLoop_some {breaks : List BlockId} (h : s.fn.Exits (breaks + os))
    (ht : t < s.fn.blocks.size) :
    Ensures (leaveLoop (some t) breaks) c s fun next s' =>
      next = some t ∧ s' = { s with fn := s.fn.linkAll breaks t } := by
  induction breaks generalizing s with
  | nil =>
    rw [leaveLoop]
    exact .pure ⟨rfl, rfl⟩
  | cons x rest ih =>
    have h' : s.fn.Exits (x ::ₘ (rest + os)) := by
      rw [← Multiset.cons_add, Multiset.cons_coe]
      exact h
    have hunended : Unended ((s.fn.addEdge x t).block x).code := by
      rw [block_addEdge h'.head.lt ht]
      exact h'.head.code
    have hjump : Build.jump x t (s.fn.addEdge x t) = (.ok (), s.fn.link x t) := by
      rw [Build.jump, Build.add_apply, hunended.isTerminated]
      rfl
    rw [leaveLoop]
    refine .build_bind (Build.addEdge_apply ..) (.build_bind hjump ?_)
    refine ih (s := { s with fn := s.fn.link x t }) (h'.link ht) ?_
    rw [size_link]
    exact ht

/-- A new block is blank. -/
theorem blank_hop (h : fn₀.Fills s.fn b₀ os (b ::ₘ outs)) :
    (s.fn.hop b).Blank s.fn.blocks.size := by
  rw [Blank, h.block_hop]
  exact ⟨by simp, fun _ => rfl, fun _ => rfl⟩

theorem ensures_leaveLoop {after : Option BlockId} {breaks : List BlockId}
    (h : fn₀.Fills s.fn b₀ os (breaks + (after.toList + outs)))
    (hafter : ∀ a ∈ after, s.fn.Blank a ∧ fn₀.blocks.size ≤ a) :
    Ensures (leaveLoop after breaks) c s fun next s' =>
      fn₀.Fills s'.fn b₀ os (next.toList + outs) ∧ Rewires c s s' := by
  -- with a block after the loop, that is still blank
  have hsome : ∀ {s : State} {t : BlockId} {breaks : List BlockId},
      fn₀.Fills s.fn b₀ os (breaks + (t ::ₘ outs)) →
      s.fn.Blank t → fn₀.blocks.size ≤ t →
      Ensures (leaveLoop (some t) breaks) c s fun next s' =>
        fn₀.Fills s'.fn b₀ os (next.toList + outs) ∧ Rewires c s s' := by
    intro s t breaks h hblank hnew
    have h' : fn₀.Fills s.fn b₀ os (t ::ₘ (breaks + outs)) := by
      rwa [Multiset.add_cons] at h
    have hmem : t ∉ breaks := fun hmem => h'.exits_cons.not_mem_tail (by simp [hmem])
    have hlink := h.linkAll_blank h'.head.lt hnew hmem hblank h'.head.children
    have hexits := h.exits
    rw [add_assoc] at hexits
    refine (ensures_leaveLoop_some hexits h'.head.lt).mono fun next s' hs' => ?_
    obtain ⟨rfl, rfl⟩ := hs'
    exact ⟨hlink.fills, .of_quiet hlink.quiet⟩
  cases after with
  | some t => exact hsome h (hafter t rfl).1 (hafter t rfl).2
  | none =>
    cases breaks with
    | nil =>
      rw [leaveLoop]
      exact .pure ⟨by simpa using h, .refl c s⟩
    | cons b rest =>
      have h' : fn₀.Fills s.fn b₀ os (b ::ₘ (rest + outs)) := by
        rw [← Multiset.cons_add, Multiset.cons_coe]
        simpa using h
      rw [leaveLoop]
      refine .build_bind (newBlock_apply h'.filling) (.build_bind (jump_apply h') ?_)
      refine (hsome (s := { s with fn := s.fn.hop b }) ?_ (blank_hop h')
        h'.grows.size_le).mono fun next s' hs' => ?_
      · rw [Multiset.add_cons]
        exact h'.hop
      · exact ⟨hs'.1, (Rewires.of_quiet (quiet_hop h')).trans hs'.2⟩

/-- The function with a block for a post statement, owned by the last of the blocks that lead to
it. -/
def withPost (fn : Func) (owner : BlockId) (sources : List BlockId) : Func :=
  ((fn.hop owner).append fn.blocks.size (.comment "post")).linkAll sources fn.blocks.size

variable {owner : BlockId} {sources : List BlockId}
  (h : fn₀.Fills s.fn b₀ os (owner ::ₘ (sources + outs)))
include h

/-- The block of a post statement is the only one that is still open of those around it. -/
theorem linking_withPost :
    Linking fn₀ ((s.fn.hop owner).append s.fn.blocks.size (.comment "post"))
      (withPost s.fn owner sources) b₀ os (s.fn.blocks.size ::ₘ outs) sources
      s.fn.blocks.size := by
  have hhop := h.hop
  have hcomment := hhop.append (.comment "post") rfl (by simp [Instruction.operands]) rfl
  have hmem : s.fn.blocks.size ∉ sources := fun hmem =>
    hhop.exits_cons.not_mem_tail (by simp [hmem])
  have hblock := block_append_self hhop.head.lt (.comment "post")
  refine Fills.linkAll_blank ?_ hcomment.head.lt h.grows.size_le hmem ?_ hcomment.head.children
  · rw [Multiset.add_cons]
    exact hcomment
  · rw [Blank, hblock, h.block_hop]
    exact ⟨by simp [Instruction.operands], fun _ => rfl, fun _ => rfl⟩

theorem quiet_withPost : s.fn.Quiet (withPost s.fn owner sources) :=
  (quiet_hop h).trans ((Quiet.append ..).trans (linking_withPost h).quiet)

theorem size_withPost :
    (withPost s.fn owner sources).blocks.size = s.fn.blocks.size + 1 := by
  rw [(linking_withPost h).size, size_append, hop, size_append, size_addBlock]

/-- Other blocks do not change. -/
theorem block_withPost (hx : x < s.fn.blocks.size) (howner : x ≠ owner) (hsources : x ∉ sources) :
    (withPost s.fn owner sources).block x = s.fn.block x := by
  have hparents : x ∉ [owner] := by simpa using howner
  rw [(linking_withPost h).other x hsources hx.ne, block_append_ne hx.ne, hop,
    block_append_ne howner, block_addBlock (List.nodup_singleton owner) (by simpa using h.head.lt),
    if_neg hx.ne, if_neg hparents, List.append_nil]

theorem ensures_postBlock :
    Ensures (postBlock (sources ++ [owner])) c s fun start s' =>
      start = some s.fn.blocks.size ∧ s' = { s with fn := withPost s.fn owner sources } := by
  have hhop := h.hop
  have hcomment := hhop.append (.comment "post") rfl (by simp [Instruction.operands]) rfl
  have hlt : ∀ p ∈ [owner], p < s.fn.blocks.size := by simpa using h.head.lt
  have hcode := code_addBlock (List.nodup_singleton owner) hlt
  have hcomment_apply : Build.comment s.fn.blocks.size "post" (s.fn.addBlock [owner]) =
      (.ok (), (s.fn.addBlock [owner]).append s.fn.blocks.size (.comment "post")) := by
    have hunended : Unended ((s.fn.addBlock [owner]).block s.fn.blocks.size).code :=
      h.fall.head.code
    rw [Build.comment, Build.add_apply, hunended.isTerminated]
    rfl
  have hjump : Build.jump owner s.fn.blocks.size
      ((s.fn.addBlock [owner]).append s.fn.blocks.size (.comment "post")) =
      (.ok (), (s.fn.hop owner).append s.fn.blocks.size (.comment "post")) := by
    have hunended : Unended (((s.fn.addBlock [owner]).append s.fn.blocks.size
        (.comment "post")).block owner).code := by
      rw [block_append_ne h.head.lt.ne, hcode]
      exact h.head.code
    rw [Build.jump, Build.add_apply, hunended.isTerminated,
      append_append_comm _ h.head.lt.ne']
    rfl
  unfold postBlock
  rw [List.getLast?_concat, List.dropLast_concat]
  refine .build_bind (newBlock_apply h.filling) (.build_bind hcomment_apply (.build_bind hjump ?_))
  have hexits : ((s.fn.hop owner).append s.fn.blocks.size (.comment "post")).Exits
      (sources + (s.fn.blocks.size ::ₘ (outs + os))) := by
    rw [Multiset.add_cons, ← add_assoc]
    exact hcomment.exits_cons
  refine (ensures_sendTo hexits hcomment.head.lt).bind fun _ s' hs' => ?_
  subst hs'
  exact .pure ⟨rfl, rfl⟩

end SsaBlocks.Lower
