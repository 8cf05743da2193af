import SsaBlocks.Proofs.Func.Assembled
import SsaBlocks.Proofs.Stages

/-!
# Construction comes to an end

Loops that might go on for ever count their steps and end with the fault `unending` if there are too
many. If no edge leads to the entry, whatever else the graph is like, no stage does. Each loop has a
reason of its own: sets of dominators shrink; immediate dominators and single parents come earlier
in canonical order; a block is put on the list for phi nodes once.

The walks over the graph and the search for a written value are given a number of steps that is
always enough: they return what they would return without a bound.

## Main results

* `Func.finish_terminates`: construction ends
-/

namespace SsaBlocks

open SsaBlocks.Flow

/-- A phi node cannot be decided if a parent has no value of its variable, or no index. -/
def Fault.isUndecided : Fault → Bool
  | unreached .. | blockNotNumbered .. => true
  | _ => false

/-- The work ends: with a result that satisfies `P`, or with a fault. -/
abbrev Halts {α : Type} (P : α → Prop) (x : Except Fault α) : Prop :=
  Ends (· ≠ .unending) P x

namespace Func

variable {fn cur done : Func} {a b c : BlockId} {v : Variable}

/-! ## Removing blocks and loads -/

/-- A function before its dominators are computed: no edge leads to the entry, children exist, and
nothing has been found out about the blocks. -/
structure Unstarted (fn : Func) : Prop where
  entry_lt : fn.entry < fn.blocks.size
  entry_parents : (fn.block fn.entry).parents = []
  child : ∀ a, ∀ c ∈ (fn.block a).children, c < fn.blocks.size ∧ c ≠ fn.entry
  unexplored : ∀ b, (fn.block b).Unexplored

theorem Wired.unstarted (h : fn.Wired) (hentry : ∀ a, ¬ fn.Edge a fn.entry) : fn.Unstarted where
  entry_lt := h.entry_lt
  entry_parents := List.eq_nil_iff_forall_not_mem.mpr hentry
  child a c hc := ⟨((h.edge a c).mp hc).lt, fun heq => hentry a (heq ▸ (h.edge a c).mp hc)⟩
  unexplored := h.unexplored

namespace Unstarted

variable (h : fn.Unstarted)
include h

theorem modify {f : Block → Block} (hparents : b = fn.entry → (f (fn.block b)).parents = [])
    (hchild : ∀ c ∈ (f (fn.block b)).children, c < fn.blocks.size ∧ c ≠ fn.entry)
    (hf : ∀ blk : Block, (f blk).findings = blk.findings) : (fn.modify b f).Unstarted := by
  have hentry : (fn.modify b f).entry = fn.entry := rfl
  refine ⟨?_, ?_, fun a c hc => ?_, fun c =>
    (proj_block_modify Block.findings hf).trans (h.unexplored c)⟩
  · rw [size_modify]
    exact h.entry_lt
  · rw [hentry]
    rcases fn.block_modify_cases b fn.entry f with heq | ⟨rfl, -, heq⟩ <;> rw [heq]
    · exact h.entry_parents
    · exact hparents rfl
  · rw [size_modify]
    rcases fn.block_modify_cases b a f with heq | ⟨rfl, -, heq⟩ <;> rw [heq] at hc
    · exact h.child a c hc
    · exact hchild c hc

/-- Changing the contents of a block changes no edge. -/
theorem modify_contents {f : Block → Block}
    (hf : ∀ blk, (f blk).parents = blk.parents ∧ (f blk).children = blk.children ∧
      (f blk).findings = blk.findings) : (fn.modify b f).Unstarted := by
  refine h.modify (fun hb => ?_) (fun c hc => ?_) fun blk => (hf blk).2.2
  · rw [(hf _).1, hb]
    exact h.entry_parents
  · rw [(hf _).2.1] at hc
    exact h.child b c hc

theorem foldl {α : Type} {step : Func → α → Func}
    (hstep : ∀ (cur : Func) a, cur.Unstarted → (step cur a).Unstarted) (l : List α) :
    (l.foldl step fn).Unstarted := by
  induction l generalizing fn with
  | nil => exact h
  | cons a l ih => exact ih (hstep fn a h)

theorem atStage (s : Stage) : (fn.atStage s).Unstarted :=
  ⟨h.entry_lt, h.entry_parents, h.child, h.unexplored⟩

theorem ends_bypassParent (hc : c < fn.blocks.size ∧ c ≠ fn.entry)
    (p : BlockId) : Halts (fun cur => cur.Unstarted ∧ cur.blocks.size = fn.blocks.size ∧
      cur.entry = fn.entry) (fn.bypassParent b c p) := by
  rw [bypassParent]
  split
  · exact Fault.noConfusion
  · refine ⟨h.modify (fun hp => ?_) (fun d hd => ?_) fun _ => rfl,
      size_modify .., rfl⟩
    · rw [hp]
      exact h.entry_parents
    · have hmem : d ∈ (fn.block p).children ∨ d = c := by
        dsimp only at hd
        split at hd
        · exact .inl (List.mem_of_mem_eraseIdx hd)
        · exact List.mem_or_eq_of_mem_set hd
      rcases hmem with hmem | rfl
      · exact h.child p d hmem
      · exact hc

theorem ends_bypass (hc : c < fn.blocks.size ∧ c ≠ fn.entry)
    (blocks : List BlockId) : Halts Unstarted (fn.bypass blocks b c) := by
  let sent : Func := blocks.foldl (fun fn other => fn.modify other fun o =>
    { o with code := o.code.map (Instruction.retarget b c) }) fn
  have hsent : sent.Unstarted := by
    refine h.foldl (fun _ _ hcur => ?_) blocks
    exact hcur.modify_contents fun _ => ⟨rfl, rfl, rfl⟩
  have hedits : fn.Edits sent := .foldl (fun _ _ => .modify ..) blocks fn
  have hparents : Halts (fun cur : Func => cur.Unstarted ∧ cur.blocks.size = fn.blocks.size ∧
      cur.entry = fn.entry) ((fn.block b).parents.foldlM (bypassParent b c) sent) := by
    refine Ends.foldlM_of_forall ⟨hsent, hedits.size, hedits.entry⟩ fun p _ cur ⟨hcur, hsize, hentry⟩ => ?_
    refine (hcur.ends_bypassParent (hsize ▸ hentry ▸ hc) p).mono fun next hnext => ?_
    exact ⟨hnext.1, hnext.2.1.trans hsize, hnext.2.2.trans hentry⟩
  refine hparents.bind fun cur ⟨hcur, hsize, hentry⟩ => ?_
  refine Unstarted.modify ?_ (fun _ => rfl) (fun d hd => nomatch hd)
    fun _ => rfl
  exact hcur.modify (fun heq => absurd (heq.trans hentry) hc.2) (hcur.child c)
    fun _ => rfl

/-- Blocks are gone through once; a block is removed or the pass fails. -/
theorem ends_removeRedundantBlocks : Halts Unstarted fn.removeRedundantBlocks := by
  refine Ends.foldlM_of_forall h fun b _ cur hcur => ?_
  rw [removeIfRedundant]
  split
  · split
    · next c hchildren =>
      split
      · exact Fault.noConfusion
      · exact hcur.ends_bypass (hcur.child b c (by simp [hchildren])) _
    · exact Fault.noConfusion
  · exact hcur

theorem removeRedundantLoads : fn.removeRedundantLoads.Unstarted := by
  have hscan : (fn.canonicalOrder.foldl removeLoadsIn (fn, .empty)).1.Unstarted := by
    refine foldl_invariant (fun _ (s : Func × Substitution) => s.1.Unstarted) h ?_
    rintro - b - ⟨cur, replaced⟩ - hcur
    exact hcur.modify_contents fun _ => ⟨rfl, rfl, rfl⟩
  refine hscan.foldl (fun _ _ hcur => ?_) _
  exact hcur.modify_contents fun _ => ⟨rfl, rfl, rfl⟩

theorem numberBlocks : fn.numberBlocks.Unstarted := by
  have hstart : ({ fn with order := fn.canonicalOrder } : Func).Unstarted :=
    ⟨h.entry_lt, h.entry_parents, h.child, h.unexplored⟩
  refine hstart.foldl (fun _ _ hcur => ?_) _
  exact hcur.modify_contents fun _ => ⟨rfl, rfl, rfl⟩

theorem surveyable : fn.Surveyable where
  lt _ := lt_of_mem_postorder h.entry_lt fun a c hc => (h.child a c hc).1
  unset _ _ p _ _ := (h.unexplored p).dominators

end Unstarted

/-! ## Dominators and frontiers -/

/-- A function whose blocks are in canonical order, with no edge to the entry. -/
structure Sequenced (fn : Func) : Prop where
  entry_lt : fn.entry < fn.blocks.size
  entry_parents : (fn.block fn.entry).parents = []
  order : fn.order = fn.canonicalOrder

namespace Sequenced

theorem sameShape (h : fn.Sequenced) (hs : fn.SameShape cur) (horder : cur.order = fn.order) :
    cur.Sequenced where
  entry_lt := by
    rw [hs.entry, hs.size]
    exact h.entry_lt
  entry_parents := by
    rw [hs.entry, hs.parents]
    exact h.entry_parents
  order := by rw [horder, h.order, hs.canonicalOrder]

theorem lt_of_mem (h : fn.Sequenced) (hb : b ∈ fn.order) : b < fn.blocks.size :=
  mem_canonicalOrder_lt (h.order ▸ hb) h.entry_lt

theorem nodup (h : fn.Sequenced) : fn.order.Nodup :=
  h.order ▸ nodup_canonicalOrder fn

theorem idxOf_le (h : fn.Sequenced) (b : BlockId) : fn.order.idxOf b ≤ fn.blocks.size := by
  exact List.idxOf_le_length.trans (Graph.length_le_of_lt h.nodup fun _ => h.lt_of_mem)

end Sequenced

/-- A function whose immediate dominators are known, with no frontiers and phi nodes yet. -/
structure Graded (fn : Func) : Prop extends Sequenced fn where
  descends : fn.Descends
  frontier : ∀ b, (fn.block b).frontier = none
  pending : ∀ b, (fn.block b).pending = .empty

/-- The immediate dominator of a block in order is on the way to it along owners. -/
theorem Dominated.idxOf_idom_lt (hd : fn.Dominated done) (hb : b ∈ fn.canonicalOrder)
    (hidom : (done.block b).idom = some c) :
    fn.canonicalOrder.idxOf c < fn.canonicalOrder.idxOf b := by
  have hpost := mem_postorder_of_mem_canonicalOrder hb
  obtain ⟨s, hs, hdom⟩ := hd.complete b hpost
  have hmem : c ∈ s.erase b := by
    rw [hd.idom b hpost, immediateDominator?_eq hs] at hidom
    exact List.mem_reverse.mp (List.mem_of_find?_eq_some hidom)
  obtain ⟨hcs, hne⟩ := KeySet.mem_erase.mp hmem
  obtain ⟨l, hl, hbefore⟩ := exists_walk_before hb
  have hsurveyed : Walk fn.SurveyedEdge fn.entry b l :=
    (walk_orderedEdge hl (canonicalOrder_closed fn).1).mono fun x y hxy =>
      ⟨mem_postorder_of_mem_canonicalOrder hxy.1, mem_postorder_of_mem_canonicalOrder hxy.2.1,
        hxy.2.2⟩
  have hcl := (hdom c hcs l hsurveyed).resolve_right hne
  exact hbefore c hcl

theorem Unstarted.ends_computeDominance (h : fn.Unstarted) (horder : fn.order = fn.canonicalOrder) :
    Halts Graded fn.computeDominance := by
  obtain ⟨done, hok, hd⟩ := exists_dominated h.surveyable
  have hshape : fn.SameShape done := ⟨hd.edits.entry, hd.edits.size,
    fun b => (congrArg Block.parents (hd.rest b) :), fun b => (congrArg Block.children (hd.rest b) :)⟩
  have hseq : fn.Sequenced := ⟨h.entry_lt, h.entry_parents, horder⟩
  rw [hok]
  refine { toSequenced := hseq.sameShape hshape hd.edits.order, descends := ?_,
           frontier := fun b => (congrArg Block.frontier (hd.rest b)).trans (h.unexplored b).frontier,
           pending := fun b => (congrArg Block.pending (hd.rest b)).trans (h.unexplored b).pending }
  rw [Descends, hd.edits.order, horder]
  exact fun b hb d hidom => hd.idxOf_idom_lt hb hidom

theorem Graded.atStage (h : fn.Graded) (s : Stage) : (fn.atStage s).Graded :=
  { toSequenced := h.toSequenced.sameShape (sameShape_atStage s fn) rfl
    descends := h.descends, frontier := h.frontier, pending := h.pending }

/-- Runners go up in canonical order. -/
theorem Graded.ends_computeFrontiers (h : fn.Graded) : Halts (fun cur => cur.Sequenced ∧
    cur.Framed ∧ ∀ b, (cur.block b).pending = .empty) fn.computeFrontiers := by
  refine (Func.ends_computeFrontiers h.nodup (fun _ => h.lt_of_mem) fun b _ => h.frontier b).imp
    (fun fault hfault heq => hfault heq h.descends) fun cur hcur => ?_
  have hseq : cur.Sequenced := h.toSequenced.sameShape ⟨hcur.edits.entry, hcur.edits.size,
    fun b => (congrArg Block.parents (hcur.rest b) :),
    fun b => (congrArg Block.children (hcur.rest b) :)⟩ hcur.edits.order
  refine ⟨hseq, ⟨hseq.nodup, fun _ => hseq.lt_of_mem, fun x _ y hy => ?_⟩, fun b => ?_⟩
  · rw [hcur.edits.order]
    exact hcur.mem_order_of_mem_frontierOf hy
  · exact (congrArg Block.pending (hcur.rest b)).trans (h.pending b)

/-! ## Phi nodes and reads -/

theorem Sequenced.ends_placePhis (h : fn.Sequenced) (hframed : fn.Framed)
    (hpending : ∀ b, (fn.block b).pending = .empty) : Halts Sequenced fn.placePhis := by
  obtain ⟨cur, hok, hplaced, -⟩ := exists_placePhis hframed hpending
  rw [hok]
  exact h.sameShape ⟨by rw [← hplaced.eq], hplaced.size,
    fun b => (congrArg Block.parents (hplaced.rest b) :),
    fun b => (congrArg Block.children (hplaced.rest b) :)⟩ (by rw [← hplaced.eq])

/-- A single parent is the owner, so going up single parents goes up in order. -/
theorem ends_climb {order : List BlockId} (hup : fn.ClimbsIn order) (hb : b ∈ order) {steps : Nat}
    (hsteps : order.idxOf b < steps) (s : Resolving) :
    Halts (fun _ => True) (fn.climb steps b s) := by
  induction steps generalizing b s with
  | zero => omega
  | succ steps ih =>
    rw [climb]
    split
    · trivial
    · split
      · next p hparents =>
        obtain ⟨hp, hlt⟩ := hup b hb p hparents
        exact ih hp (by omega) _
      · trivial

namespace Sequenced

theorem ends_findReads (h : fn.Sequenced) (hb : b ∈ fn.order) :
    Halts (fun _ => True) (fn.findReads b) := by
  have hup : fn.ClimbsIn fn.order := h.order ▸ climbsIn_canonicalOrder h.entry_parents
  rw [findReads_eq]
  have hsteps := Nat.lt_succ_of_le (Nat.le_succ_of_le (h.idxOf_le b))
  refine (ends_climb hup hb hsteps _).bind fun s _ => ?_
  refine Ends.bind (P := fun _ => True) (Ends.foldlM_of_forall trivial fun v _ s _ => ?_) fun _ _ => trivial
  rw [searchRead]
  split
  · trivial
  · exact Fault.noConfusion

theorem ends_resolveReads (h : fn.Sequenced) : Halts (fun _ => True) fn.resolveReads := by
  have hfold : Halts (fun s : Func × Substitution => s.1.Sequenced ∧ s.1.order = fn.order)
      (fn.order.foldlM resolveBlock (fn, .empty)) := by
    refine Ends.foldlM_of_forall ⟨h, rfl⟩ fun b hb ⟨cur, all⟩ ⟨hcur, horder⟩ => ?_
    have hb' : b ∈ cur.order := by
      rw [horder]
      exact hb
    refine (hcur.ends_findReads hb').bind fun found _ => ⟨hcur.sameShape ?_ rfl, horder⟩
    exact sameShape_contents (fun _ => by exact ⟨rfl, rfl⟩) b
  exact hfold.bind fun _ _ => trivial

end Sequenced

theorem ends_phiFate (fn : Func) (b : BlockId) (v : Variable) (dest : Temp) :
    Ends (·.isUndecided) (fun _ => True) (fn.phiFate b v dest) := by
  rw [phiFate]
  split
  · trivial
  · refine Ends.bind (Ends.mapM (R := fun _ _ => True) fun p _ => ?_) fun values _ => ?_
    · rw [valueFrom]
      split
      · trivial
      · rfl
    · split
      · trivial
      · trivial
      · refine Ends.bind (P := fun _ => True) ?_ fun _ _ => trivial
        rw [edgeSources]
        split
        · rfl
        · trivial

theorem ends_computePhis (fn : Func) : Ends (·.isUndecided) (fun _ => True) fn.computePhis := by
  have hblock : ∀ (s : Func × Substitution) b,
      Ends (·.isUndecided) (fun _ => True) (computePhisIn s b) := by
    rintro ⟨cur, dropped⟩ b
    refine Ends.bind (P := fun _ => True) (.foldlM_of_forall trivial fun e _ s _ => ?_)
      fun _ _ => trivial
    refine (ends_phiFate cur b e.1 e.2).bind fun fate _ => ?_
    cases fate <;> trivial
  exact Ends.bind (P := fun _ => True) (.foldlM_of_forall trivial fun b _ s _ => hblock s b)
    fun _ _ => trivial

/-! ## All stages -/

theorem ends_forM_advance {P : Func → Prop} {s : Stage} {stages : List Stage}
    (h : Halts P (s.work (fn.atStage s)))
    (hrest : ∀ mid, P mid → Halts (fun _ => True) (stages.forM Build.advance mid).1) :
    Halts (fun _ => True) ((s :: stages).forM Build.advance fn).1 := by
  rw [forM_advance_cons, Build.bind_apply]
  rcases advance_cases s fn with ⟨-, heq⟩ | ⟨-, mid, hwork, heq⟩ | ⟨-, fault, hwork, heq⟩
  · rw [heq]
    exact Fault.noConfusion
  · rw [heq]
    exact hrest mid (h.of_eq_ok hwork)
  · rw [heq]
    exact h.of_eq_error hwork

theorem Unstarted.ends_stages (h : fn.Unstarted) :
    Halts (fun _ => True) (Stage.all.forM Build.advance fn).1 := by
  refine ends_forM_advance (h.atStage _).ends_removeRedundantBlocks fun f₁ h₁ => ?_
  refine ends_forM_advance (P := Unstarted) (h₁.atStage _).removeRedundantLoads fun f₂ h₂ => ?_
  refine ends_forM_advance (P := fun cur => cur.Unstarted ∧ cur.order = cur.canonicalOrder) ?_ ?_
  · refine ⟨(h₂.atStage _).numberBlocks, ?_⟩
    rw [order_numberBlocks, (sameShape_numberBlocks (h₂.atStage _).entry_lt).canonicalOrder]
  rintro f₃ ⟨h₃, horder⟩
  have horder₃ : ∀ s, (f₃.atStage s).order = (f₃.atStage s).canonicalOrder := fun s =>
    horder.trans (sameShape_atStage s f₃).canonicalOrder.symm
  refine ends_forM_advance ((h₃.atStage _).ends_computeDominance (horder₃ _)) fun f₄ h₄ => ?_
  refine ends_forM_advance (h₄.atStage _).ends_computeFrontiers ?_
  rintro f₅ ⟨h₅, hframed, hpending⟩
  have hmark : ∀ {f : Func} (s : Stage), f.Sequenced → (f.atStage s).Sequenced :=
    fun s hf => hf.sameShape (sameShape_atStage s _) rfl
  refine ends_forM_advance ((hmark _ h₅).ends_placePhis
    ⟨hframed.nodup, hframed.lt, hframed.frontier⟩ hpending) fun f₆ h₆ => ?_
  refine ends_forM_advance (hmark _ h₆).ends_resolveReads fun f₇ _ => ?_
  have hphis : Halts (fun _ => True) (f₇.atStage .phisComputed).computePhis := by
    refine (ends_computePhis _).imp (fun fault hfault heq => ?_) fun _ => id
    rw [heq] at hfault
    cases hfault
  refine ends_forM_advance hphis fun f₈ _ => ?_
  exact ends_forM_advance (P := fun _ => True) trivial fun _ _ => trivial

theorem Unstarted.closed (h : fn.Unstarted) : fn.closed.Unstarted := by
  rw [Func.closed]
  split
  · exact h
  · exact h.modify_contents fun _ => ⟨rfl, rfl, rfl⟩

theorem Unstarted.ne_unending (h : fn.Unstarted) : fn.finish ≠ .error .unending := by
  have hbuild : Halts (fun _ => True) (Build.finish fn).1 := by
    rw [finish_apply]
    split
    · exact h.closed.ends_stages
    · exact h.ends_stages
  rw [finish]
  split
  · intro heq
    cases heq
  · next fault _ hfinish =>
    rw [hfinish] at hbuild
    exact fun heq => hbuild (Except.error.inj heq)

/-- **Construction terminates.** If a function has been assembled from blocks and no edge leads to
its entry, construction completes or fails, and no loop of it goes on for ever. The walks over
blocks and the search for written values, which do not report that they take too long, return on
every graph what they return without a bound. -/
theorem finish_terminates (h : fn.Assembled) (hentry : ∀ a, ¬ fn.Edge a fn.entry) :
    fn.finish ≠ .error .unending ∧ ∀ cur : Func,
      cur.Traverses [cur.entry] [] cur.canonicalOrder ∧
      (∃ entered, cur.Surveys [cur.entry] ([], []) (entered, cur.postorder)) ∧
      ∀ v start, cur.Searches v [] start (cur.nearestWritten? v start) :=
  ⟨(h.kept.wired.unstarted hentry).ne_unending, fun cur =>
    ⟨traverses_canonicalOrder cur, surveys_postorder cur, searches_nearestWritten? cur⟩⟩

/-- A loop that reads a variable which no block writes, beside a block that nothing leads to. -/
def unwritten : Func :=
  [.newBlock [0], .jump 0 1, .read 1 counter, .newBlock [1], .newBlock [1], .branch 1 0 3 2,
    .addEdge 2 1, .jump 2 1, .newBlock [], .addEdge 4 3, .ret 3 none].foldl Primitive.apply
      (make "f" [] .void)

theorem unwritten_terminates :
    (¬ ∃ fin, unwritten.finish = .ok fin) ∧ unwritten.finish ≠ .error .unending := by
  have hassembled : unwritten.Assembled := Assembled.foldl (.make "f" [] .void) (by decide)
  have hparents : (unwritten.block unwritten.entry).parents = [] := by decide
  have hentry : ∀ a, ¬ unwritten.Edge a unwritten.entry := by
    intro a ha
    rw [Graph.Edge, hparents] at ha
    cases ha
  have hfails : unwritten.finish.toOption.isSome = false := by decide +kernel
  refine ⟨?_, (finish_terminates hassembled hentry).1⟩
  rintro ⟨fin, hfin⟩
  rw [hfin] at hfails
  cases hfails

end Func

end SsaBlocks
