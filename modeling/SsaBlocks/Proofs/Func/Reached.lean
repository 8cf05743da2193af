import SsaBlocks.Proofs.Func.Assembled
import SsaBlocks.Proofs.Stages

/-!
# Functions on their way through construction

A function is made, filled by primitives and taken through the stages. Nothing keeps the primitives
from being used between the stages, with whatever arguments: blocks may still be added, joined and
written to when the others have been numbered. What the stages have recorded so far stays as it is:
a block has the number of its place in the order, only numbered blocks have frontiers, and nobody
asks for phi nodes before they are placed.
-/

namespace SsaBlocks

namespace Func

open List

variable {fn fn' fn'' cur : Func} {b : BlockId} {v : Variable} {s : Stage}

/-- The function has been made, and then primitives and stages have been applied to it. -/
inductive Reached : Func → Prop
  | make (name : String) (params : List Variable) (type : ValueType) :
    Reached (make name params type)
  | fill {fn : Func} (h : Reached fn) (p : Primitive) : Reached (p.apply fn)
  | advance {fn fn' : Func} (h : Reached fn) {s : Stage}
    (hok : Build.advance s fn = (.ok (), fn')) : Reached fn'

theorem exists_advance_of_forM {s : Stage} {stages : List Stage} {fin : Func}
    (h : (s :: stages).forM Build.advance fn = (.ok (), fin)) :
    ∃ mid, Build.advance s fn = (.ok (), mid) ∧ stages.forM Build.advance mid = (.ok (), fin) := by
  rw [forM_advance_cons, Build.bind_apply] at h
  rcases hadvance : Build.advance s fn with ⟨fault | ⟨⟩, mid⟩
  · rw [hadvance] at h
    cases h
  · rw [hadvance] at h
    exact ⟨mid, rfl, h⟩

namespace Reached

theorem fills (h : fn.Reached) (steps : List Primitive) :
    (steps.foldl Primitive.apply fn).Reached :=
  foldl_invariant (fun _ (cur : Func) => cur.Reached) h fun _ p _ _ _ hcur => hcur.fill p

theorem advances (h : fn.Reached) {stages : List Stage}
    (hok : (stages.forM Build.advance fn).1 = .ok ()) : (stages.forM Build.advance fn).2.Reached := by
  induction stages generalizing fn with
  | nil => exact h
  | cons s stages ih =>
    obtain ⟨mid, hadvance, hrest⟩ := exists_advance_of_forM (Prod.ext hok rfl)
    have hreached := ih (h.advance hadvance) (congrArg Prod.fst hrest)
    rwa [hrest] at hreached

end Reached

/-! ## Numbers -/

/-- The numbers and the order of the blocks: a block has the number of its place, and only numbered
blocks have frontiers. -/
structure Recorded (fn : Func) : Prop where
  entry_lt : fn.entry < fn.blocks.size
  nodup : fn.order.Nodup
  lt : ∀ b ∈ fn.order, b < fn.blocks.size
  index : ∀ b i, (fn.block b).index = some i ↔ fn.order[i]? = some b
  stray : ∀ b, (fn.block b).index = none → (fn.block b).frontier = none
  unnumbered : fn.stage.number < Stage.blocksNumbered.number → fn.order = []

/-- The numbers are kept, and blocks without one get no frontier; blocks may be added. -/
structure Keeps (fn fn' : Func) : Prop where
  entry : fn'.entry = fn.entry
  stage : fn.stage.number ≤ fn'.stage.number
  order : fn'.order = fn.order
  size : fn.blocks.size ≤ fn'.blocks.size
  index : ∀ b, (fn'.block b).index = (fn.block b).index
  stray : ∀ b, (fn.block b).index = none → (fn.block b).frontier = none →
    (fn'.block b).frontier = none

namespace Recorded

theorem keeps (h : fn.Recorded) (hk : fn.Keeps fn') : fn'.Recorded where
  entry_lt := hk.entry ▸ h.entry_lt.trans_le hk.size
  nodup := hk.order ▸ h.nodup
  lt b hb := (h.lt b (hk.order ▸ hb)).trans_le hk.size
  index b i := by
    rw [hk.index, hk.order]
    exact h.index b i
  stray b hi := by
    rw [hk.index] at hi
    exact hk.stray b hi (h.stray b hi)
  unnumbered hlt := hk.order ▸ h.unnumbered (hk.stage.trans_lt hlt)

theorem index_ne_none (h : fn.Recorded) (b : BlockId) (hb : b ∈ fn.order) :
    (fn.block b).index ≠ none := by
  obtain ⟨i, hi⟩ := List.mem_iff_getElem?.mp hb
  rw [(h.index b i).mpr hi]
  simp

theorem index_eq_none (h : fn.Recorded) (hb : b ∉ fn.order) : (fn.block b).index = none := by
  cases hi : (fn.block b).index with
  | none => rfl
  | some i => exact absurd (List.mem_of_getElem? ((h.index b i).mp hi)) hb

theorem mem_order_of_mem_frontierOf (h : fn.Recorded) {x y : BlockId} (hy : y ∈ fn.frontierOf x) :
    x ∈ fn.order := by
  by_contra hx
  rw [frontierOf, h.stray x (h.index_eq_none hx)] at hy
  exact KeySet.not_mem_empty y hy

end Recorded

/-! ## Primitives -/

/-- What a block holds for the stages alone. -/
def plan (blk : Block) : Option Nat × Option (KeySet BlockId) × Table Variable Temp :=
  (blk.index, blk.frontier, blk.pending)

/-- The stages see no difference, but for blocks that were added. -/
structure SamePlan (fn fn' : Func) : Prop where
  entry : fn'.entry = fn.entry
  stage : fn'.stage = fn.stage
  order : fn'.order = fn.order
  size : fn.blocks.size ≤ fn'.blocks.size
  plan : ∀ b, plan (fn'.block b) = plan (fn.block b)

namespace SamePlan

theorem refl (fn : Func) : fn.SamePlan fn := ⟨rfl, rfl, rfl, le_rfl, fun _ => rfl⟩

theorem trans (h : fn.SamePlan fn') (k : fn'.SamePlan fn'') : fn.SamePlan fn'' :=
  ⟨k.entry.trans h.entry, k.stage.trans h.stage, k.order.trans h.order, h.size.trans k.size,
    fun b => (k.plan b).trans (h.plan b)⟩

theorem modify (h : fn.SamePlan cur) {f : Block → Block}
    (hf : ∀ blk, Func.plan (f blk) = Func.plan blk) :
    fn.SamePlan (cur.modify b f) :=
  h.trans ⟨rfl, rfl, rfl, by simp, fun _ => proj_block_modify Func.plan hf⟩

theorem addTemp (h : fn.SamePlan cur) (b : BlockId) : fn.SamePlan (cur.addTemp b) :=
  h.trans ⟨rfl, rfl, rfl, le_rfl, fun _ => rfl⟩

theorem addBlock (fn : Func) (parents : List BlockId) : fn.SamePlan (fn.addBlock parents) := by
  have hpush : fn.SamePlan { fn with blocks := fn.blocks.push { home := fn.entry } } := by
    refine ⟨rfl, rfl, rfl, by simp, fun b => ?_⟩
    rw [block_push]
    split
    · next hb =>
      subst hb
      rw [Graph.block_of_size_le le_rfl]
      rfl
    · rfl
  exact foldl_invariant (fun _ cur => fn.SamePlan cur) hpush fun _ _ _ _ _ hcur =>
    (hcur.modify fun _ => by rfl).modify fun _ => by rfl

/-- Primitives leave the records of the stages alone. -/
theorem apply (fn : Func) (p : Primitive) : fn.SamePlan (p.apply fn) :=
  have h := refl fn
  p.apply_of h (fun parents _ => addBlock fn parents)
    (fun _ _ _ => (h.modify fun _ => by rfl).modify fun _ => by rfl) h.addTemp
    (fun _ _ _ => h.modify fun _ => by rfl) (fun b _ _ => (h.addTemp b).modify fun _ => by rfl)
    (fun _ _ _ _ _ hcur => hcur.modify fun _ => by rfl) (fun _ _ _ _ => h.modify fun _ => by rfl)
    (fun _ _ _ => h.modify fun _ => by rfl) fun b _ _ => (h.addTemp b).modify fun _ => by rfl

end SamePlan

/-! ## Stages -/

theorem thins_computeDominance (h : fn.computeDominance = .ok fn') : fn.Thins fn' := by
  obtain ⟨solved, hsolved, h⟩ := bind_eq_ok.mp h
  obtain rfl := Except.ok.inj h
  have hrefine : ∀ (blocks : List BlockId) passes (start cur : Func),
      refineDominators blocks passes start = .ok cur → start.Thins cur := by
    intro blocks passes
    induction passes with
    | zero => exact fun _ _ h => nomatch h
    | succ passes ih =>
      intro start cur h
      have hpass : start.Thins (blocks.reverse.foldl refineBlock (start, false)).1 := by
        refine foldl_invariant (fun _ (s : Func × Bool) => start.Thins s.1) (.refl start) ?_
        rintro - b - ⟨cur, changed⟩ - hcur
        simp only [refineBlock]
        split
        · exact hcur
        · split
          · exact hcur
          · exact hcur.trans (.modify ⟨.refl _, .refl _, rfl, rfl, fun _ => id⟩)
      simp only [refineDominators] at h
      split at h
      · exact hpass.trans (ih _ _ h)
      · exact Except.ok.inj h ▸ hpass
  have hrest : ∀ (l : List BlockId) (f : Func → BlockId → Block → Block) (fn : Func),
      (∀ fn b (blk : Block), blk.Thins (f fn b blk)) →
      fn.Thins (l.foldl (fun fn b => fn.modify b (f fn b)) fn) :=
    fun l f fn hf => .foldl (fun fn b => .modify (hf fn b _)) l fn
  refine (hrest _ _ fn fun _ _ _ => ?_).trans ((hrefine _ _ _ _ hsolved).trans
    (hrest _ _ solved fun _ _ _ => ?_))
  · exact ⟨.refl _, .refl _, rfl, rfl, fun _ => id⟩
  · exact ⟨.refl _, .refl _, rfl, rfl, fun _ => id⟩

/-- The blocks in order get frontiers of such blocks. -/
theorem Recorded.thins_computeFrontiers (h : fn.Recorded)
    (hok : (fn.atStage s).computeFrontiers = .ok fn') :
    (fn.atStage s).Thins fn' ∧ ∀ x y, y ∈ fn'.frontierOf x → y ∈ fn.order := by
  have hbordered : (fn.atStage s).Bordered fn' := by
    refine Ends.of_eq_ok (ends_computeFrontiers ?_ ?_ fun b hb => ?_) hok
    · exact h.nodup
    · exact h.lt
    · exact h.stray b (h.index_eq_none hb)
  refine ⟨⟨hbordered.edits, fun b => ?_⟩, fun _ _ => hbordered.mem_order_of_mem_frontierOf⟩
  have hcode : (fn'.block b).code = (fn.block b).code := (congrArg Block.code (hbordered.rest b) :)
  have hawaited : (fn'.block b).awaited = (fn.block b).awaited :=
    (congrArg Block.awaited (hbordered.rest b) :)
  refine ⟨hcode ▸ .refl _, hawaited ▸ .refl _, (congrArg Block.pending (hbordered.rest b) :),
    (congrArg Block.index (hbordered.rest b) :), fun hindex _ => ?_⟩
  cases hs : (fn'.block b).frontier with
  | none => rfl
  | some set => exact absurd hindex (h.index_ne_none b (hbordered.frontier b set hs).1)

theorem thins_resolveReads (h : fn.resolveReads = .ok fn') : fn.Thins fn' := by
  obtain ⟨⟨cur, all⟩, hfold, h⟩ := bind_eq_ok.mp h
  obtain rfl := Except.ok.inj h
  have hcur : fn.Thins cur := by
    refine foldlM_invariant (fun _ (s : Func × Substitution) => fn.Thins s.1) hfold (.refl fn) ?_
    rintro - b - ⟨cur, all⟩ s' - hcur hok
    obtain ⟨found, -, hok⟩ := bind_eq_ok.mp hok
    obtain rfl := Except.ok.inj hok
    refine hcur.trans (.modify ⟨?_, nil_sublist _, rfl, rfl, fun _ => id⟩)
    have hsame : Instruction.result? ∘ Instruction.substitute found.apply = Instruction.result? :=
      funext fun i => Instruction.result?_substitute _ i
    simp only [Block.substituteWritten, Block.substituteCode, filterMap_map, hsame,
      List.Sublist.refl]
  exact hcur.trans (thins_substitute _ _ _)

theorem dest_of_phiFate {dest : Temp} {node : Phi} (h : fn.phiFate b v dest = .ok (.kept node)) :
    node.dest = dest := by
  rw [phiFate] at h
  split at h
  · cases h
  · obtain ⟨values, -, h⟩ := bind_eq_ok.mp h
    split at h
    · cases h
    · split at h <;> cases h
    · obtain ⟨sources, -, h⟩ := bind_eq_ok.mp h
      cases h
      rfl

theorem phisPending_computePhisIn {dropped dropped' : Substitution}
    (h : computePhisIn (fn, dropped) b = .ok (fn', dropped')) :
    fn.Thins fn' ∧ fn'.PhisPending b ∧ ∀ c, c ≠ b → fn'.block c = fn.block c := by
  rw [computePhisIn_def] at h
  obtain ⟨⟨phis, dropped''⟩, hfold, h⟩ := bind_eq_ok.mp h
  cases h
  have hphis : (phis.map Phi.dest).Sublist (fn.block b).pending.values := by
    refine foldlM_invariant (fun done (s : List Phi × Substitution) =>
      (s.1.map Phi.dest).Sublist (done.map Prod.snd)) hfold (nil_sublist _) ?_
    rintro done ⟨v, dest⟩ rest ⟨phis, dropped⟩ s' - hs hok
    rw [decidePhi] at hok
    obtain ⟨fate, hfate, hok⟩ := bind_eq_ok.mp hok
    rw [map_append]
    cases fate with
    | kept node =>
      obtain rfl := Except.ok.inj hok
      rw [map_append]
      refine hs.append ?_
      simp [dest_of_phiFate hfate]
    | renamed | dropped =>
      obtain rfl := Except.ok.inj hok
      exact hs.trans (sublist_append_left _ _)
  refine ⟨.modify ⟨.refl _, .refl _, rfl, rfl, fun _ => id⟩, ?_, fun c hc => block_modify_ne (Ne.symm hc)⟩
  by_cases hb : b < fn.blocks.size
  · rw [PhisPending, block_modify_self hb]
    exact hphis
  · rw [PhisPending, Graph.block_of_size_le (by simpa using hb)]
    exact nil_sublist _

theorem thins_computePhis (hok : fn.computePhis = .ok fn') :
    fn.Thins fn' ∧ ∀ b ∈ fn'.order, fn'.PhisPending b := by
  obtain ⟨⟨cur, dropped⟩, hfold, hok⟩ := bind_eq_ok.mp hok
  obtain rfl := Except.ok.inj hok
  obtain ⟨hthin, hphis⟩ : fn.Thins cur ∧ ∀ b ∈ fn.order, cur.PhisPending b := by
    refine foldlM_invariant (fun done (s : Func × Substitution) => fn.Thins s.1 ∧
      ∀ b ∈ done, s.1.PhisPending b) hfold ⟨.refl fn, by simp⟩ ?_
    rintro done b rest ⟨cur, dropped⟩ ⟨cur', dropped'⟩ - ⟨hthin, hdone⟩ hok
    obtain ⟨hthin', hb, hother⟩ := phisPending_computePhisIn hok
    refine ⟨hthin.trans hthin', fun c hc => ?_⟩
    by_cases hcb : c = b
    · exact hcb ▸ hb
    · rcases mem_append.mp hc with hc | hc
      · rw [PhisPending, hother c hcb]
        exact hdone c hc
      · exact absurd (mem_singleton.mp hc) hcb
  have hsub := thins_substitute cur cur.order dropped
  refine ⟨hthin.trans hsub, fun b hb => ?_⟩
  rw [hsub.edits.order, hthin.edits.order] at hb
  have hproj : ∀ {β : Type} (π : Block → β), (∀ f blk, π (Block.substitute f blk) = π blk) →
      π ((cur.substitute cur.order dropped).block b) = π (cur.block b) :=
    fun π hπ => proj_block_foldl π (fun _ _ _ => proj_block_modify π (hπ _)) _ _
  have hdests := hproj (·.phis.map Phi.dest) fun f blk => map_map ..
  have hpending := hproj Block.pending fun _ _ => rfl
  rw [PhisPending, hdests, hpending]
  exact hphis b hb

/-- Numbering gives the blocks their positions in canonical order. -/
theorem index_numberBlocks (hentry : fn.entry < fn.blocks.size)
    (hnone : ∀ b, (fn.block b).index = none) (b : BlockId) (i : Nat) :
    (fn.numberBlocks.block b).index = some i ↔ fn.numberBlocks.order[i]? = some b := by
  rw [block_numberBlocks hentry, order_numberBlocks]
  split
  · next hb =>
    constructor
    · intro hi
      obtain rfl := Option.some.inj hi
      exact getElem?_idxOf hb
    · intro hi
      obtain ⟨hlt, rfl⟩ := List.getElem?_eq_some_iff.mp hi
      rw [(nodup_canonicalOrder fn).idxOf_getElem]
  · next hb =>
    rw [hnone b]
    exact ⟨(nomatch ·), fun hi => absurd (mem_of_getElem? hi) hb⟩

/-- What is known of the records of the stages. -/
structure Staged (fn : Func) : Prop extends Recorded fn where
  frontier : fn.stage = .frontier → ∀ x ∈ fn.order, ∀ y ∈ fn.frontierOf x, y ∈ fn.order
  unplaced : fn.stage.number < Stage.phisPlaced.number → ∀ b, (fn.block b).pending = .empty
  pending : ∀ b v, ((fn.block b).pending.get? v).isSome → b ∈ fn.order
  pending_ordered : ∀ b, (fn.block b).pending.Ordered

namespace Staged

/-- Whatever keeps the numbers and asks for no phi nodes. -/
theorem keeps (h : fn.Staged) (hk : fn.Keeps fn')
    (hpending : ∀ b, (fn'.block b).pending = (fn.block b).pending)
    (hfrontier : fn'.stage = .frontier → ∀ x ∈ fn.order, ∀ y ∈ fn'.frontierOf x, y ∈ fn.order) :
    fn'.Staged where
  toRecorded := h.toRecorded.keeps hk
  frontier := hk.order ▸ hfrontier
  unplaced hlt b := (hpending b).trans (h.unplaced (hk.stage.trans_lt hlt) b)
  pending b v hv := hk.order ▸ h.pending b v (hpending b ▸ hv)
  pending_ordered b := hpending b ▸ h.pending_ordered b

theorem samePlan (h : fn.Staged) (hs : fn.SamePlan fn') : fn'.Staged := by
  have hplan : ∀ b, (fn'.block b).index = (fn.block b).index ∧
      (fn'.block b).frontier = (fn.block b).frontier ∧
        (fn'.block b).pending = (fn.block b).pending := by
    intro b
    simpa [plan] using hs.plan b
  refine h.keeps ⟨hs.entry, hs.stage ▸ le_rfl, hs.order, hs.size, fun b => (hplan b).1,
    fun b _ hf => (hplan b).2.1.trans hf⟩ (fun b => (hplan b).2.2) fun hstage x hx y hy => ?_
  rw [frontierOf, (hplan x).2.1] at hy
  exact h.frontier (hs.stage ▸ hstage) x hx y hy

theorem thins (h : fn.Staged) (hle : fn.stage.number ≤ s.number) (ht : (fn.atStage s).Thins fn')
    (hfrontier : s = .frontier → ∀ x ∈ fn.order, ∀ y ∈ fn'.frontierOf x, y ∈ fn.order) :
    fn'.Staged := by
  have hstage : fn'.stage = s := congrArg Func.stage ht.edits.eq
  exact h.keeps ⟨ht.edits.entry, hstage ▸ hle, ht.edits.order, ht.edits.size.ge,
    fun b => (ht.block b).index, fun b => (ht.block b).stray⟩ (fun b => (ht.block b).pending)
    (hstage ▸ hfrontier)

theorem numberBlocks (h : fn.Staged) (hstage : fn.stage = .loadsRemoved) :
    (fn.atStage .blocksNumbered).numberBlocks.Staged := by
  have horder : fn.order = [] := h.unnumbered (by rw [hstage]; decide)
  have hnone : ∀ b, (fn.block b).index = none := fun b => h.index_eq_none (by simp [horder])
  rw [numberBlocks_atStage]
  have hpending : ∀ b, (fn.numberBlocks.block b).pending = .empty := fun b =>
    (proj_numberBlocks Block.pending (fun _ _ => rfl) h.entry_lt b).trans
      (h.unplaced (by rw [hstage]; decide) b)
  have hedits : ({ fn with order := fn.canonicalOrder } : Func).Edits fn.numberBlocks :=
    .foldl (fun _ _ => .modify _ _ _) _ _
  refine ⟨⟨?_, ?_, fun b hb => ?_, index_numberBlocks h.entry_lt hnone, fun b _ => ?_, ?_⟩, ?_,
    fun _ => hpending, fun b v hv => ?_, fun b => ?_⟩
  · change fn.numberBlocks.entry < fn.numberBlocks.blocks.size
    rw [hedits.entry, hedits.size]
    exact h.entry_lt
  · exact hedits.order ▸ nodup_canonicalOrder fn
  · change b ∈ fn.numberBlocks.order at hb
    rw [order_numberBlocks] at hb
    exact (mem_canonicalOrder_lt hb h.entry_lt).trans_eq hedits.size.symm
  · exact (proj_numberBlocks Block.frontier (fun _ _ => rfl) h.entry_lt b).trans
      (h.stray b (hnone b))
  · exact fun hlt => absurd hlt (lt_irrefl _)
  · exact (nomatch ·)
  · have hv' : ((fn.numberBlocks.block b).pending.get? v).isSome := hv
    simp [hpending b] at hv'
  · exact (hpending b).symm ▸ Table.ordered_empty

/-- Phi nodes can be placed, and only in numbered blocks. -/
theorem exists_placePhis (h : fn.Staged) (hstage : fn.stage = .frontier) :
    ∃ cur, (fn.atStage .phisPlaced).placePhis = .ok cur ∧ cur.Staged ∧
      (fn.atStage .phisPlaced).Placed cur ∧
      ∀ v, (fn.atStage .phisPlaced).PhisClosed cur v := by
  have hframed : (fn.atStage .phisPlaced).Framed := ⟨h.nodup, h.lt, h.frontier hstage⟩
  obtain ⟨cur, hok, hplaced, hclosed⟩ :=
    Func.exists_placePhis hframed (h.unplaced (by rw [hstage]; decide))
  have horder : cur.order = fn.order := (congrArg Func.order hplaced.eq :)
  have hstage' : cur.stage = .phisPlaced := congrArg Func.stage hplaced.eq
  have hrest : ∀ b, (cur.block b).index = (fn.block b).index ∧
      (cur.block b).frontier = (fn.block b).frontier := by
    intro b
    exact ⟨(congrArg Block.index (hplaced.rest b) :), (congrArg Block.frontier (hplaced.rest b) :)⟩
  have hkeeps : fn.Keeps cur := ⟨(congrArg Func.entry hplaced.eq :),
    by rw [hstage, hstage']; decide, horder, hplaced.size.ge, fun b => (hrest b).1,
    fun b _ hf => (hrest b).2.trans hf⟩
  have hrecorded := h.toRecorded.keeps hkeeps
  refine ⟨cur, hok, ⟨hrecorded, fun hs => ?_, fun hlt => ?_, fun b v hv => ?_,
    hplaced.pending_ordered⟩, hplaced, hclosed⟩
  · rw [hstage'] at hs
    cases hs
  · rw [hstage'] at hlt
    exact absurd hlt (by decide)
  · rw [horder]
    exact ((hclosed v).exists_writer hplaced hframed ((hclosed v).needed b hv)).1

end Staged

theorem staged_make (name : String) (params : List Variable) (type : ValueType) :
    (make name params type).Staged := by
  have hun := (wired_make name params type).unexplored
  refine ⟨⟨(wired_make name params type).entry_lt, List.nodup_nil, fun b hb => absurd hb List.not_mem_nil, fun b i => ?_,
    fun b _ => (hun b).frontier, fun _ => rfl⟩, (nomatch ·), fun _ b => (hun b).pending,
    fun b v hv => ?_, fun b => (hun b).pending ▸ Table.ordered_empty⟩
  · obtain ⟨home, declared, alive, written, heq⟩ := exists_block_make name params type b
    rw [heq]
    exact ⟨(nomatch ·), fun h => absurd (List.mem_of_getElem? h) List.not_mem_nil⟩
  · rw [(hun b).pending] at hv
    simp at hv

/-- The stages keep the records in order, each from the one before. -/
theorem Staged.advance (h : fn.Staged) (hok : Build.advance s fn = (.ok (), fn')) :
    fn'.Staged := by
  obtain ⟨hstage, hwork⟩ := advance_eq_ok hok
  have hle : fn.stage.number ≤ s.number := by
    rw [hstage]
    cases s <;> decide
  cases s with
  | lowering => exact Except.ok.inj hwork ▸ h.thins hle (.refl _) (nomatch ·)
  | blocksRemoved => exact h.thins hle (thins_removeRedundantBlocks hwork) (nomatch ·)
  | loadsRemoved =>
    exact Except.ok.inj hwork ▸ h.thins hle (thins_removeRedundantLoads _) (nomatch ·)
  | blocksNumbered => exact Except.ok.inj hwork ▸ h.numberBlocks hstage
  | dominance => exact h.thins hle (thins_computeDominance hwork) (nomatch ·)
  | frontier =>
    obtain ⟨hthins, hfrontier⟩ := h.thins_computeFrontiers hwork
    exact h.thins hle hthins fun _ x _ => hfrontier x
  | phisPlaced =>
    obtain ⟨cur, hcur, hstaged, -⟩ := h.exists_placePhis hstage
    exact Except.ok.inj (hcur.symm.trans hwork) ▸ hstaged
  | phisResolved => exact h.thins hle (thins_resolveReads hwork) (nomatch ·)
  | phisComputed => exact h.thins hle (thins_computePhis hwork).1 (nomatch ·)
  | numbered =>
    -- numbers are given to temporaries, which no block records
    exact Except.ok.inj hwork ▸ h.keeps ⟨rfl, hle, rfl, le_rfl, fun _ => rfl, fun _ _ => id⟩
      (fun _ => rfl) (nomatch ·)

/-- Whatever primitives are used before, between and after the stages, the records of the stages are
in order. -/
theorem Reached.staged (h : fn.Reached) : fn.Staged := by
  induction h with
  | make name params type => exact staged_make name params type
  | fill h p ih => exact ih.samePlan (SamePlan.apply _ p)
  | advance h hok ih => exact ih.advance hok

end Func

end SsaBlocks
