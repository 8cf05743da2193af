import SsaBlocks.Proofs.Func.Filling

/-!
# Variables that are established

A variable is established in a block if it has been declared whichever way the block is reached. A
variable that is read before it is written has to be: then its value is known there. Steps that
declare nothing and read nothing keep what is established where it matters, also those that add
edges.
-/

namespace SsaBlocks.Func

open SsaBlocks.Flow

variable {fn₀ fn fn' fn'' : Func} {b₀ b c s t x : BlockId} {os outs : Multiset BlockId}
  {v w : Variable} {u : Temp} {inst : Instruction}

/-- Every walk from the entry to the block passes one that declares the variable. -/
def Established (fn : Func) (v : Variable) (b : BlockId) : Prop :=
  Passes fn.Edge fn.entry (fun x => v ∈ (fn.block x).declared) b

theorem Established.of_declared (h : v ∈ (fn.block b).declared) : fn.Established v b :=
  Passes.self h

/-- What is established where a stretch starts is established in all that has grown from there. -/
theorem Fills.established (h : fn₀.Fills fn b₀ os outs) (hv : fn₀.Established v b₀)
    (hx : fn₀.Within b₀ x) : fn.Established v x := by
  have hb₀ := h.base.exits.head.lt
  have hpass : Passes fn.Edge fn.entry (fun x => v ∈ (fn₀.block x).declared) b₀ :=
    h.grows.passes h.base.formed.edge_lt hb₀ hv
  refine (hpass.mono fun y hy => ?_).of_dominates (h.dominates hx)
  have hy' : y < fn₀.blocks.size := by
    by_contra hlt
    rw [Graph.block_of_size_le (Nat.not_lt.mp hlt)] at hy
    exact KeySet.not_mem_empty v hy
  exact (h.grows.extends_old hy').declared v hy

/-- No variable has been declared, and none been read before being written. -/
structure Quiet (fn fn' : Func) : Prop where
  awaited : ∀ b, (fn'.block b).awaited = (fn.block b).awaited
  declared : ∀ b, (fn'.block b).declared = (fn.block b).declared
  established : ∀ b v u, (fn.block b).awaited.get? v = some u → fn.Established v b →
    fn'.Established v b

namespace Quiet

theorem refl (fn : Func) : fn.Quiet fn :=
  ⟨fun _ => rfl, fun _ => rfl, fun _ _ _ _ h => h⟩

theorem trans (h : fn.Quiet fn') (k : fn'.Quiet fn'') : fn.Quiet fn'' where
  awaited b := (k.awaited b).trans (h.awaited b)
  declared b := (k.declared b).trans (h.declared b)
  established b v u hu hv := by
    rw [← h.awaited] at hu
    exact k.established b v u hu (h.established b v u (h.awaited b ▸ hu) hv)

/-- Only contents of blocks have changed. -/
theorem of_same (hawaited : ∀ b, (fn'.block b).awaited = (fn.block b).awaited)
    (hdeclared : ∀ b, (fn'.block b).declared = (fn.block b).declared)
    (hparents : ∀ b, (fn'.block b).parents = (fn.block b).parents) (hentry : fn'.entry = fn.entry) :
    fn.Quiet fn' := by
  refine ⟨hawaited, hdeclared, fun b v u _ hv => ?_⟩
  have hedge : fn'.Edge = fn.Edge := by
    funext a c
    rw [Graph.Edge, hparents, Graph.Edge]
  simpa only [Established, hedge, hentry, hdeclared] using hv

theorem modify {f : Block → Block} (hf : ∀ blk, (f blk).awaited = blk.awaited ∧
    (f blk).declared = blk.declared ∧ (f blk).parents = blk.parents) (b : BlockId) :
    fn.Quiet (fn.modify b f) := by
  refine of_same (fun c => ?_) (fun c => ?_) (fun c => ?_) rfl
  · exact proj_block_modify Block.awaited fun blk => (hf blk).1
  · exact proj_block_modify Block.declared fun blk => (hf blk).2.1
  · exact proj_block_modify Block.parents fun blk => (hf blk).2.2

theorem append (b : BlockId) (inst : Instruction) : fn.Quiet (fn.append b inst) :=
  modify (fun _ => by exact ⟨rfl, rfl, rfl⟩) b

theorem define (b : BlockId) (inst : Instruction) :
    fn.Quiet ((fn.addTemp b).append b inst) := by
  have htemp : fn.Quiet (fn.addTemp b) :=
    of_same (fun _ => rfl) (fun _ => rfl) (fun _ => rfl) rfl
  exact htemp.trans (append b inst)

theorem keepConst (b : BlockId) (type : ValueType) (word : Int64) (u : Temp) :
    fn.Quiet (fn.keepConst b type word u) :=
  modify (fun _ => by exact ⟨rfl, rfl, rfl⟩) b

theorem write (b : BlockId) (v : Variable) (u : Temp) : fn.Quiet (fn.write b v u) :=
  modify (fun _ => by exact ⟨rfl, rfl, rfl⟩) b

/-- A block that reads a variable has been made. -/
theorem lt_of_awaited (hu : (fn.block b).awaited.get? v = some u) : b < fn.blocks.size :=
  Makes.lt_read hu

theorem addBlock {parents : List BlockId} (h : fn.Formed) (hnodup : parents.Nodup)
    (hlt : ∀ p ∈ parents, p < fn.blocks.size) : fn.Quiet (fn.addBlock parents) := by
  have hblock := block_addBlock hnodup hlt
  have hentry : (fn.addBlock parents).entry = fn.entry := (edits_addBlock parents).entry
  have hdeclared : ∀ c, ((fn.addBlock parents).block c).declared = (fn.block c).declared := by
    intro c
    rw [hblock]
    split
    · next hc => rw [hc, Graph.block_of_size_le le_rfl]
    · rfl
  constructor
  · intro c
    rw [hblock]
    split
    · next hc => rw [hc, Graph.block_of_size_le le_rfl]
    · rfl
  · exact hdeclared
  · intro c v u hu hv
    rw [Established, hentry]
    simp only [hdeclared]
    -- no edge has been added to a block that was there
    refine hv.of_closed (S := (· < fn.blocks.size)) (fun x y hy hxy => ?_) (lt_of_awaited hu)
    rw [Graph.Edge, hblock, if_neg hy.ne] at hxy
    exact ⟨hxy, h.wired.edge_lt hxy⟩

theorem addEdge (h : fn.Formed) (hs : s < fn.blocks.size) (ht : t < fn.blocks.size)
    (haccepts : Formed.Accepts fn s t) : fn.Quiet (fn.addEdge s t) := by
  have hdeclared : ∀ c, ((fn.addEdge s t).block c).declared = (fn.block c).declared := by
    intro c
    rw [block_addEdge hs ht]
  constructor
  · intro c
    rw [block_addEdge hs ht]
  · exact hdeclared
  · intro c v u hu hv
    rw [Established]
    simp only [hdeclared]
    refine h.passes_addEdge hs ht haccepts (fun hblank => ?_) hv
    rw [hblank.2.2] at hu
    cases hu

theorem fork (h : fn₀.Fills fn b₀ os (b ::ₘ outs)) (u : Temp) : fn.Quiet (fn.fork b u) := by
  have hlt : ∀ p ∈ [b], p < (fn.addBlock [b]).blocks.size := by
    rw [size_addBlock]
    simpa using h.head.lt.trans (Nat.lt_succ_self _)
  have hfork := (addBlock h.formed (List.nodup_singleton b) (by simpa using h.head.lt)).trans
    (addBlock h.fall.formed (List.nodup_singleton b) hlt)
  exact hfork.trans (append ..)

theorem meet (h : fn₀.Fills fn b₀ os (s ::ₘ t ::ₘ outs)) : fn.Quiet (fn.meet s t) := by
  have ht : fn.Open t := h.exits_cons.opened t (by simp)
  have hst : s ≠ t := fun heq => h.exits_cons.not_mem_tail (by simp [heq])
  refine (addBlock h.formed (by simpa using hst) ?_).trans (append ..)
  simpa using ⟨h.head.lt, ht.lt⟩

theorem link (h : fn₀.Fills fn b₀ os (s ::ₘ outs)) (ht : t < fn.blocks.size)
    (haccepts : Formed.Accepts fn s t) : fn.Quiet (fn.link s t) :=
  (addEdge h.formed h.head.lt ht haccepts).trans (append ..)

end Quiet

/-! ## Sending blocks to one target -/

/-- The function with jumps from several blocks to one. -/
def linkAll (fn : Func) (sources : List BlockId) (t : BlockId) : Func :=
  sources.foldl (fun fn s => fn.link s t) fn

theorem size_link (s t : BlockId) : (fn.link s t).blocks.size = fn.blocks.size := by
  rw [link, size_append, size_addEdge]

theorem block_link (hs : s < fn.blocks.size) (ht : t < fn.blocks.size) (hcs : c ≠ s)
    (hct : c ≠ t) : (fn.link s t).block c = fn.block c := by
  rw [link, block_append_ne hcs, block_addEdge hs ht, if_neg hcs, if_neg hct]

/-- The target of a jump from another block gets a parent. -/
theorem block_link_target (hs : s < fn.blocks.size) (ht : t < fn.blocks.size) (hts : t ≠ s) :
    (fn.link s t).block t = { fn.block t with parents := s :: (fn.block t).parents } := by
  rw [link, block_append_ne hts, block_addEdge hs ht, if_pos rfl, if_neg hts]

/-- What stays true while blocks are sent to a target. -/
structure Linking (fn₀ fn fn' : Func) (b₀ : BlockId) (os outs : Multiset BlockId)
    (sources : List BlockId) (t : BlockId) : Prop where
  fills : fn₀.Fills fn' b₀ os outs
  quiet : fn.Quiet fn'
  size : fn'.blocks.size = fn.blocks.size
  other : ∀ c, c ∉ sources → c ≠ t → fn'.block c = fn.block c

theorem Linking.cons {sources : List BlockId} (hs : s < fn.blocks.size) (ht : t < fn.blocks.size)
    (hquiet : fn.Quiet (fn.link s t))
    (h : Linking fn₀ (fn.link s t) fn' b₀ os outs sources t) :
    Linking fn₀ fn fn' b₀ os outs (s :: sources) t where
  fills := h.fills
  quiet := hquiet.trans h.quiet
  size := h.size.trans (size_link s t)
  other c hc hct := by
    rw [List.mem_cons, not_or] at hc
    rw [h.other c hc.2 hct, block_link hs ht hc.1 hct]

/-- Blocks are sent back to one that dominates them. -/
theorem Fills.linkAll_back {sources : List BlockId}
    (h : fn₀.Fills fn b₀ os (sources + outs)) (ht : t < fn.blocks.size)
    (hnew : fn₀.blocks.size ≤ t) (hdom : ∀ x ∈ sources, Dominates fn.Edge fn.entry t x) :
    Linking fn₀ fn (fn.linkAll sources t) b₀ os outs sources t ∧
      ∀ a x, Dominates fn.Edge fn.entry a x →
        Dominates (fn.linkAll sources t).Edge (fn.linkAll sources t).entry a x := by
  induction sources generalizing fn with
  | nil =>
    rw [Multiset.coe_nil, zero_add] at h
    exact ⟨⟨h, .refl fn, rfl, fun _ _ _ => rfl⟩, fun _ _ hx => hx⟩
  | cons s rest ih =>
    have h' : fn₀.Fills fn b₀ os (s ::ₘ (rest + outs)) := by
      rw [← Multiset.cons_add, Multiset.cons_coe]
      exact h
    have hs := h'.head.lt
    have haccepts : Formed.Accepts fn s t := .inl (hdom s (by simp))
    -- dominance survives, since the target dominates the source
    have hkeeps : ∀ a x, Dominates fn.Edge fn.entry a x →
        Dominates (fn.link s t).Edge (fn.link s t).entry a x := by
      intro a x hx
      rw [dominates_iff_passes] at hx ⊢
      refine hx.of_added (fun a b hab => Formed.edge_addEdge hs ht ?_)
        fun hpass _ => hpass.of_dominates (hdom s (by simp))
      rwa [Graph.Edge, Func.link, parents_append] at hab
    obtain ⟨hlinking, hdom'⟩ := ih (h'.link ht hnew haccepts) (by rwa [size_link])
      fun x hx => hkeeps t x (hdom x (List.mem_cons_of_mem _ hx))
    exact ⟨.cons hs ht (.link h' ht haccepts) hlinking, fun a x hx => hdom' a x (hkeeps a x hx)⟩

/-- Blocks are sent to one that is still blank. -/
theorem Fills.linkAll_blank {sources : List BlockId}
    (h : fn₀.Fills fn b₀ os (sources + outs)) (ht : t < fn.blocks.size)
    (hnew : fn₀.blocks.size ≤ t) (hmem : t ∉ sources) (hblank : fn.Blank t)
    (hleaf : (fn.block t).children = []) :
    Linking fn₀ fn (fn.linkAll sources t) b₀ os outs sources t := by
  induction sources generalizing fn with
  | nil =>
    rw [Multiset.coe_nil, zero_add] at h
    exact ⟨h, .refl fn, rfl, fun _ _ _ => rfl⟩
  | cons s rest ih =>
    have h' : fn₀.Fills fn b₀ os (s ::ₘ (rest + outs)) := by
      rw [← Multiset.cons_add, Multiset.cons_coe]
      exact h
    have hs := h'.head.lt
    rw [List.mem_cons, not_or] at hmem
    have haccepts : Formed.Accepts fn s t := .inr ⟨Ne.symm hmem.1, hblank, hleaf⟩
    have hblock := block_link_target hs ht hmem.1
    refine .cons hs ht (.link h' ht haccepts) (ih (h'.link ht hnew haccepts) ?_ hmem.2 ?_ ?_)
    · rwa [size_link]
    · rw [Blank, hblock]
      exact hblank
    · rw [hblock]
      exact hleaf

end SsaBlocks.Func
