import SsaBlocks.Proofs.Func.Exits

/-!
# Filling a function from one of its open blocks

What is lowered into a block closes it and leaves other blocks open in its place. `Func.Fills` says
so of a stretch of lowering, with all that is kept meanwhile; the lemmas below extend a stretch by
one step.
-/

namespace SsaBlocks.Func

open SsaBlocks.Flow

variable {fn₀ fn fn' : Func} {b₀ b s t x : BlockId} {os outs outs' : Multiset BlockId}
  {v : Variable} {u : Temp} {inst : Instruction}

/-- The temporary can be used at the end of the block. -/
def Known (fn : Func) (b : BlockId) (u : Temp) : Prop :=
  fn.Available b (fn.block b).code.length u

/-- Code can be put into the block, and the blocks `os` are open as well. -/
structure Filling (fn : Func) (b : BlockId) (os : Multiset BlockId) : Prop where
  formed : fn.Formed
  exits : fn.Exits (b ::ₘ os)
  unfinished : fn.isFinished = false

/-- What has been put into the block `b₀` of `fn₀` has left the blocks `outs` open. -/
structure Fills (fn₀ fn : Func) (b₀ : BlockId) (os outs : Multiset BlockId) : Prop where
  base : fn₀.Filling b₀ os
  formed : fn.Formed
  exits : fn.Exits (outs + os)
  grows : fn₀.Grows fn b₀
  within : ∀ x ∈ outs, fn₀.Within b₀ x

namespace Fills

theorem start (h : fn.Filling b os) : fn.Fills fn b os {b} where
  base := h
  formed := h.formed
  exits := h.exits
  grows := .refl h.exits.head.lt
  within x hx := by
    rw [Multiset.mem_singleton.mp hx]
    exact .refl ..

theorem unfinished (h : fn₀.Fills fn b₀ os outs) : fn.isFinished = false := by
  have hstage : fn.stage = fn₀.stage := by rw [← h.grows.same]
  rw [isFinished, hstage]
  exact h.base.unfinished

section Head

variable (h : fn₀.Fills fn b₀ os (b ::ₘ outs))
include h

theorem exits_cons : fn.Exits (b ::ₘ (outs + os)) := by
  rw [← Multiset.cons_add]
  exact h.exits

theorem filling : fn.Filling b (outs + os) :=
  ⟨h.formed, h.exits_cons, h.unfinished⟩

theorem head : fn.Open b :=
  h.exits_cons.head

theorem within_head : fn₀.Within b₀ b :=
  h.within b (Multiset.mem_cons_self b outs)

theorem within_tail : ∀ x ∈ outs, fn₀.Within b₀ x :=
  fun x hx => h.within x (Multiset.mem_cons_of_mem hx)

end Head

theorem entry_ne (h : fn₀.Fills fn b₀ os outs) (ht : fn₀.blocks.size ≤ t) : t ≠ fn.entry := by
  rw [h.grows.entry]
  exact (h.base.formed.wired.entry_lt.trans_le ht).ne'

/-- One stretch after another. -/
theorem trans (h : fn₀.Fills fn b₀ os (b ::ₘ outs)) (k : fn.Fills fn' b (outs + os) outs') :
    fn₀.Fills fn' b₀ os (outs' + outs) where
  base := h.base
  formed := k.formed
  exits := by
    rw [add_assoc]
    exact k.exits
  grows := h.grows.trans k.grows h.within_head
  within x hx := by
    rcases Multiset.mem_add.mp hx with hx | hx
    · rcases k.within x hx with rfl | hx
      · exact h.within_head
      · exact .inr (h.grows.size_le.trans hx)
    · exact h.within_tail x hx

/-! A stretch that leaves one block open is followed by another. -/

theorem filling_next (h : fn₀.Fills fn b₀ os {b}) : fn.Filling b os := by
  have hfilling : fn.Filling b (0 + os) := filling h
  rwa [zero_add] at hfilling

theorem trans_next (h : fn₀.Fills fn b₀ os {b}) (k : fn.Fills fn' b os outs) :
    fn₀.Fills fn' b₀ os outs := by
  have hfills : fn₀.Fills fn' b₀ os (outs + 0) := trans h (by
    rw [zero_add]
    exact k)
  rwa [add_zero] at hfills

/-- What is known where a stretch starts is known in all that has grown from there. -/
theorem known_of_within (h : fn₀.Fills fn b₀ os outs) (hu : fn₀.Known b₀ u)
    (hx : fn₀.Within b₀ x) : fn.Known x u :=
  h.grows.available h.base.formed.wired.entry_lt h.base.formed.edge_lt hu hx

theorem known (h : fn₀.Fills fn b₀ os outs) (hu : fn₀.Known b₀ u) (hx : x ∈ outs) :
    fn.Known x u :=
  h.known_of_within hu (h.within x hx)

/-- The block where a stretch starts dominates all that has grown from it. -/
theorem dominates (h : fn₀.Fills fn b₀ os outs) (hx : fn₀.Within b₀ x) :
    Dominates fn.Edge fn.entry b₀ x :=
  h.grows.dominates h.base.formed.wired.entry_lt hx

/-! ### Contents of an open block -/

section Contents

variable (h : fn₀.Fills fn b₀ os (b ::ₘ outs))
include h

/-- The function grows from the open block that a stretch has reached. -/
theorem step (hformed : fn'.Formed)
    (hexits : fn'.Exits (b ::ₘ (outs + os))) (hgrows : fn.Grows fn' b) :
    fn₀.Fills fn' b₀ os (b ::ₘ outs) where
  base := h.base
  formed := hformed
  exits := by
    rw [Multiset.cons_add]
    exact hexits
  grows := h.grows.trans hgrows h.within_head
  within := h.within

theorem append (inst : Instruction)
    (hinst : inst.isTerminator = false)
    (hoperands : ∀ u ∈ inst.operands, fn.Known b u) (hresult : inst.result? = none) :
    fn₀.Fills (fn.append b inst) b₀ os (b ::ₘ outs) :=
  h.step (h.formed.append h.head.lt hoperands hresult) (h.exits_cons.append hinst)
    (.append h.head.lt inst)

theorem exits_addTemp :
    (fn.addTemp b).Exits (b ::ₘ (outs + os)) :=
  h.exits_cons.of_same rfl (fun _ => rfl) (fun _ => rfl) fun _ => rfl

theorem define (inst : Instruction)
    (hinst : inst.isTerminator = false) (hoperands : ∀ u ∈ inst.operands, fn.Known b u)
    (hresult : inst.result? = some fn.temps.size) :
    fn₀.Fills ((fn.addTemp b).append b inst) b₀ os (b ::ₘ outs) := by
  have hlt : b < (fn.addTemp b).blocks.size := h.head.lt
  refine h.step (h.formed.define h.head.lt hoperands hresult) (h.exits_addTemp.append hinst) ?_
  exact (Grows.addTemp h.head.lt b).trans (.append hlt inst) (.refl ..)

theorem known_define (hresult : inst.result? = some u) :
    ((fn.addTemp b).append b inst).Known b u :=
  @Formed.available_define (fn.addTemp b) b u inst h.head.lt hresult

theorem keepConst {type : ValueType} {word : Int64} {n : Nat}
    (hu : (fn.block b).code[n]? = some (.const u type word)) :
    fn₀.Fills (fn.keepConst b type word u) b₀ os (b ::ₘ outs) := by
  refine h.step (h.formed.keepConst h.head.lt hu) ?_ (.keepConst h.head.lt type word u)
  refine Exits.modify h.exits_cons ?_ b
  exact fun _ => ⟨rfl, rfl, rfl⟩

theorem await (hv : (fn.block b).awaited.get? v = none) :
    fn₀.Fills ((fn.addTemp b).await b v fn.temps.size) b₀ os (b ::ₘ outs) := by
  have hlt : b < (fn.addTemp b).blocks.size := h.head.lt
  have hgrows : (fn.addTemp b).Grows ((fn.addTemp b).await b v fn.temps.size) b :=
    .await hlt hv fn.temps.size
  refine h.step (h.formed.await h.head.lt hv) ?_
    ((Grows.addTemp h.head.lt b).trans hgrows (.refl ..))
  refine Exits.modify h.exits_addTemp ?_ b
  exact fun _ => ⟨rfl, rfl, rfl⟩

theorem write (hu : fn.Known b u) (v : Variable) :
    fn₀.Fills (fn.write b v u) b₀ os (b ::ₘ outs) := by
  refine h.step (h.formed.write h.head.lt hu v) ?_ (.write h.head.lt v u)
  refine Exits.modify h.exits_cons ?_ b
  exact fun _ => ⟨rfl, rfl, rfl⟩

theorem declare (hu : fn.Known b u) (v : Variable) :
    fn₀.Fills (fn.declare b v u) b₀ os (b ::ₘ outs) := by
  refine h.step (h.formed.declare h.head.lt h.head.children hu v) ?_ (.declare h.head.lt v u)
  refine Exits.modify h.exits_cons ?_ b
  exact fun _ => ⟨rfl, rfl, rfl⟩

/-! ### Closing an open block -/

theorem ret {value : Option Temp} (hvalue : ∀ u ∈ value, fn.Known b u) :
    fn₀.Fills (fn.append b (.ret value)) b₀ os outs where
  base := h.base
  formed := by
    refine h.formed.append h.head.lt (fun u hu => ?_) rfl
    cases value with
    | none => simp [Instruction.operands] at hu
    | some w =>
      rw [List.mem_singleton.mp hu]
      exact hvalue w rfl
  exits := h.exits_cons.ret value
  grows := h.grows.trans (.append h.head.lt _) h.within_head
  within := h.within_tail

end Contents

/-- A jump instead of falling through. -/
theorem jump (h : fn₀.Fills fn b₀ os outs) (hs : s < fn.blocks.size) (hwithin : fn₀.Within b₀ s)
    (hfall : fn.LeavesBy s (.fall t)) (hos : s ∉ outs + os) :
    fn₀.Fills (fn.append s (.jump t)) b₀ os outs where
  base := h.base
  formed := h.formed.append hs (by simp [Instruction.operands]) rfl
  exits := h.exits.jump hfall hs hos
  grows := h.grows.trans (.append hs _) hwithin
  within := h.within

/-- A new block. -/
theorem fall (h : fn₀.Fills fn b₀ os (b ::ₘ outs)) :
    fn₀.Fills (fn.addBlock [b]) b₀ os (fn.blocks.size ::ₘ outs) where
  base := h.base
  formed := h.formed.addBlock (by simp) (List.nodup_singleton b) (by simpa using h.head.lt)
  exits := by
    rw [Multiset.cons_add]
    exact h.exits_cons.fall.1
  grows := h.grows.addBlock (List.nodup_singleton b) (by simpa using h.head.lt)
    (by simpa using h.within_head)
  within x hx := by
    rcases Multiset.mem_cons.mp hx with rfl | hx
    · exact .inr h.grows.size_le
    · exact h.within_tail x hx

theorem leavesBy_fall (h : fn₀.Fills fn b₀ os (b ::ₘ outs)) :
    (fn.addBlock [b]).LeavesBy b (.fall fn.blocks.size) :=
  h.exits_cons.fall.2

end Fills

/-- The function with two new blocks, between which an instruction at the end of a block chooses. -/
def fork (fn : Func) (b : BlockId) (cond : Temp) : Func :=
  ((fn.addBlock [b]).addBlock [b]).append b (.branch cond fn.blocks.size (fn.blocks.size + 1))

/-- The function with a new block, to which one block jumps and another falls through. -/
def meet (fn : Func) (s t : BlockId) : Func :=
  (fn.addBlock [s, t]).append s (.jump fn.blocks.size)

/-- The function with a new block, to which a block jumps that owns it. -/
def hop (fn : Func) (b : BlockId) : Func :=
  (fn.addBlock [b]).append b (.jump fn.blocks.size)

/-- The function with a jump and its edge. -/
def link (fn : Func) (s t : BlockId) : Func :=
  (fn.addEdge s t).append s (.jump t)

namespace Fills

theorem fork (h : fn₀.Fills fn b₀ os (b ::ₘ outs)) (hu : fn.Known b u) :
    fn₀.Fills (fn.fork b u) b₀ os
      (fn.blocks.size ::ₘ (fn.blocks.size + 1) ::ₘ outs) := by
  have hfall := h.fall
  have hlt : b < (fn.addBlock [b]).blocks.size := by
    rw [size_addBlock]
    exact h.head.lt.trans (Nat.lt_succ_self _)
  have hmem : b ∉ fn.blocks.size ::ₘ (outs + os) := by
    rw [Multiset.mem_cons, not_or]
    exact ⟨h.head.lt.ne, h.exits_cons.not_mem_tail⟩
  have hparents : ∀ p ∈ [b], p < (fn.addBlock [b]).blocks.size := by simpa using hlt
  have hexits := hfall.exits_cons.branch h.leavesBy_fall hlt hmem u
  rw [size_addBlock] at hexits
  have hgrows : fn.Grows ((fn.addBlock [b]).addBlock [b]) b :=
    ((Grows.refl h.head.lt).addBlock (List.nodup_singleton b) (by simpa using h.head.lt)
      (by simpa using Within.refl fn b)).addBlock (List.nodup_singleton b) hparents
      (by simpa using Within.refl fn b)
  have hlt' : b < ((fn.addBlock [b]).addBlock [b]).blocks.size := h.head.lt.trans_le hgrows.size_le
  constructor
  · exact h.base
  · refine (hfall.formed.addBlock (by simp) (List.nodup_singleton b) hparents).append hlt' ?_ rfl
    intro w hw
    rw [List.mem_singleton.mp hw]
    exact hgrows.available h.formed.wired.entry_lt h.formed.edge_lt hu (.refl ..)
  · rw [Multiset.cons_add, Multiset.cons_add, Multiset.cons_swap]
    exact hexits
  · exact h.grows.trans (hgrows.trans (.append hlt' _) (.refl ..)) h.within_head
  · intro x hx
    rcases Multiset.mem_cons.mp hx with rfl | hx
    · exact .inr h.grows.size_le
    · rcases Multiset.mem_cons.mp hx with rfl | hx
      · exact .inr (h.grows.size_le.trans (Nat.le_succ _))
      · exact h.within_tail x hx

theorem meet (h : fn₀.Fills fn b₀ os (s ::ₘ t ::ₘ outs)) :
    fn₀.Fills (fn.meet s t) b₀ os (fn.blocks.size ::ₘ outs) := by
  have hs := h.head
  have ht : fn.Open t := h.exits_cons.opened t (by simp)
  have hst : s ≠ t := fun heq => h.exits_cons.not_mem_tail (by simp [heq])
  have hnodup : [s, t].Nodup := by simpa using hst
  have hlt : ∀ p ∈ [s, t], p < fn.blocks.size := by
    intro p hp
    rcases List.mem_pair.mp hp with rfl | rfl
    · exact hs.lt
    · exact ht.lt
  have hwithin : ∀ p ∈ [s, t], fn₀.Within b₀ p := by
    intro p hp
    rcases List.mem_pair.mp hp with rfl | rfl
    · exact h.within_head
    · exact h.within p (by simp)
  have hlt' : s < (fn.addBlock [s, t]).blocks.size := by
    rw [size_addBlock]
    exact hs.lt.trans (Nat.lt_succ_self _)
  constructor
  · exact h.base
  · exact (h.formed.addBlock (by simp) hnodup hlt).append hlt' (by simp [Instruction.operands]) rfl
  · have hexits := h.exits_cons
    rw [Multiset.cons_add] at hexits ⊢
    exact hexits.join
  · exact (h.grows.addBlock hnodup hlt hwithin).trans (.append hlt' _) h.within_head
  · intro x hx
    rcases Multiset.mem_cons.mp hx with rfl | hx
    · exact .inr h.grows.size_le
    · exact h.within x (by simp [hx])

/-- An open block is sent to one that has been made in this stretch. -/
theorem link (h : fn₀.Fills fn b₀ os (s ::ₘ outs)) (ht : t < fn.blocks.size)
    (hnew : fn₀.blocks.size ≤ t) (haccepts : Formed.Accepts fn s t) :
    fn₀.Fills (fn.link s t) b₀ os outs := by
  have hs := h.head
  have hst : ¬ fn.Edge s t := by
    intro hst
    have hmem := (h.formed.wired.edge s t).mpr hst
    rw [Graph.Child, hs.children] at hmem
    simp at hmem
  have hlt : s < (fn.addEdge s t).blocks.size := (size_addEdge s t).symm ▸ hs.lt
  constructor
  · exact h.base
  · exact (h.formed.addEdge hs.lt ht (h.entry_ne hnew) hst haccepts).append hlt
      (by simp [Instruction.operands]) rfl
  · exact h.exits_cons.link ht
  · exact (h.grows.addEdge hs.lt ht h.within_head hnew).trans (.append hlt _) h.within_head
  · exact h.within_tail

theorem hop (h : fn₀.Fills fn b₀ os (b ::ₘ outs)) :
    fn₀.Fills (fn.hop b) b₀ os (fn.blocks.size ::ₘ outs) := by
  have hlt : b < (fn.addBlock [b]).blocks.size := by
    rw [size_addBlock]
    exact h.head.lt.trans (Nat.lt_succ_self _)
  refine h.fall.jump hlt h.within_head h.leavesBy_fall ?_
  rw [Multiset.cons_add, Multiset.mem_cons, not_or]
  exact ⟨h.head.lt.ne, h.exits_cons.not_mem_tail⟩

/-- The block that has been jumped to is blank. -/
theorem block_hop (h : fn₀.Fills fn b₀ os (b ::ₘ outs)) :
    (fn.hop b).block fn.blocks.size =
      { home := fn.entry, parents := [b], alive := fn.aliveIn [b] } := by
  rw [Func.hop, block_append_ne h.head.lt.ne',
    block_addBlock (List.nodup_singleton b) (by simpa using h.head.lt), if_pos rfl]

end Fills

/-- Instructions of different blocks can be added in either order. -/
theorem append_append_comm (fn : Func) {a b : BlockId} (hab : a ≠ b) (i j : Instruction) :
    (fn.append a i).append b j = (fn.append b j).append a i := by
  simp only [Func.append, modify]
  congr 2
  refine Array.ext (by simp) fun n hn hn' => ?_
  simp only [Array.getElem_modify]
  split_ifs with hb ha
  · exact absurd (ha.trans hb.symm) hab
  all_goals rfl

end SsaBlocks.Func
