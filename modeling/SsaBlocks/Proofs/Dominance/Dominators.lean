import Mathlib.Algebra.Order.BigOperators.Group.Finset
import SsaBlocks.Dominance.Dominators
import SsaBlocks.Proofs.Func.Order
import SsaBlocks.Proofs.Ranked

/-!
# The computed dominators

The passes over the blocks only ever take members out of the sets, so that they come to an end. Then
the set of a block holds nothing but dominators, whatever the graph is like. It holds all of them in
a part of the graph that is closed under parents and whose blocks can be reached within it. The
strict dominator that is found for such a block is its immediate dominator, in whatever order the
strict dominators are gone through.
-/

namespace SsaBlocks.Func

open SsaBlocks.Flow

variable {fn cur : Func} {a b c d p : BlockId} {s t : KeySet BlockId}

/-- No edge leads to the entry, and the blocks in canonical order have no parents but each other. -/
structure Enclosed (fn : Func) : Prop where
  entry_lt : fn.entry < fn.blocks.size
  entry_parents : (fn.block fn.entry).parents = []
  parents_mem : ∀ b ∈ fn.canonicalOrder, ∀ p ∈ (fn.block b).parents, p ∈ fn.canonicalOrder

/-- The blocks in canonical order form a graph of their own, which no edge enters and whose entry
no edge leads to. -/
structure Rooted (fn : Func) : Prop extends Enclosed fn where
  orphan : ∀ b ∉ fn.canonicalOrder, (fn.block b).parents = []
  children_lt : ∀ b, ∀ c ∈ (fn.block b).children, c < fn.blocks.size

/-- The edges between blocks of a set. -/
def EdgeIn (fn : Func) (C : BlockId → Prop) (a b : BlockId) : Prop :=
  C a ∧ C b ∧ fn.Edge a b

/-- The edges between the blocks in canonical order. -/
def OrderedEdge (fn : Func) : BlockId → BlockId → Prop :=
  fn.EdgeIn (· ∈ fn.canonicalOrder)

/-- The edges between the blocks in postorder. -/
def SurveyedEdge (fn : Func) : BlockId → BlockId → Prop :=
  fn.EdgeIn (· ∈ fn.postorder)

theorem SameShape.orderedEdge {fn' : Func} (h : fn.SameShape fn') :
    fn'.OrderedEdge = fn.OrderedEdge := by
  rw [OrderedEdge, OrderedEdge, h.canonicalOrder]
  funext a b
  rw [EdgeIn, EdgeIn, h.edge]

theorem Enclosed.lt_of_mem (h : fn.Enclosed) (hb : b ∈ fn.canonicalOrder) : b < fn.blocks.size :=
  mem_canonicalOrder_lt hb h.entry_lt

theorem Enclosed.not_edge_entry (h : fn.Enclosed) : ¬ fn.Edge a fn.entry := by
  simp [Graph.Edge, h.entry_parents]

theorem Enclosed.sameShape {fn' : Func} (h : fn.Enclosed) (k : fn.SameShape fn') :
    fn'.Enclosed where
  entry_lt := k.entry ▸ k.size ▸ h.entry_lt
  entry_parents := by rw [k.entry, k.parents]; exact h.entry_parents
  parents_mem b hb p hp := by
    rw [k.canonicalOrder] at hb ⊢
    exact h.parents_mem b hb p (k.parents b ▸ hp)

namespace Rooted

theorem edge_mem (h : fn.Rooted) (hab : fn.Edge a b) :
    a ∈ fn.canonicalOrder ∧ b ∈ fn.canonicalOrder := by
  by_cases hb : b ∈ fn.canonicalOrder
  · exact ⟨h.parents_mem b hb a hab, hb⟩
  · rw [Graph.Edge, h.orphan b hb] at hab
    simp at hab

theorem orderedEdge_eq (h : fn.Rooted) : fn.OrderedEdge = fn.Edge := by
  funext a b
  exact propext ⟨fun hab => hab.2.2, fun hab => ⟨(h.edge_mem hab).1, (h.edge_mem hab).2, hab⟩⟩

theorem walk_mem (h : fn.Rooted) {l : List BlockId} (hl : Walk fn.Edge a b l)
    (hb : b ∈ fn.canonicalOrder) : a ∈ fn.canonicalOrder ∧ ∀ x ∈ l, x ∈ fn.canonicalOrder :=
  hl.of_end hb fun _ _ hxy _ => (h.edge_mem hxy).1

theorem dominator_mem (h : fn.Rooted) (hab : Dominates fn.Edge fn.entry a b)
    (hb : b ∈ fn.canonicalOrder) : a ∈ fn.canonicalOrder := by
  obtain ⟨l, hl⟩ := reachable_of_mem_canonicalOrder hb
  rcases hab l hl with ha | rfl
  · exact (h.walk_mem hl hb).2 a ha
  · exact hb

theorem sameShape {fn' : Func} (h : fn.Rooted) (k : fn.SameShape fn') : fn'.Rooted where
  toEnclosed := h.toEnclosed.sameShape k
  orphan b hb := by
    rw [k.parents]
    exact h.orphan b (k.canonicalOrder ▸ hb)
  children_lt b c hc := k.size ▸ h.children_lt b c (k.children b ▸ hc)

end Rooted

/-- The blocks that the entry leads to exist, and blocks from elsewhere that lead to them have no
dominators. -/
structure Surveyable (fn : Func) : Prop where
  lt : ∀ b ∈ fn.postorder, b < fn.blocks.size
  unset : ∀ b ∈ fn.postorder, ∀ p, fn.Edge p b → p ∉ fn.postorder →
    (fn.block p).dominators = none

theorem lt_of_mem_postorder (hentry : fn.entry < fn.blocks.size)
    (hchildren : ∀ b, ∀ c ∈ (fn.block b).children, c < fn.blocks.size) (hb : b ∈ fn.postorder) :
    b < fn.blocks.size :=
  postorder_forall (Q := (· < fn.blocks.size)) (fun x _ => hchildren x) hentry b hb

theorem Rooted.surveyable (h : fn.Rooted) : fn.Surveyable where
  lt _ := lt_of_mem_postorder h.entry_lt h.children_lt
  unset _ _ _ hp hnot := absurd (mem_postorder_of_mem_canonicalOrder (h.edge_mem hp).1) hnot

/-- A part of the graph that the dominators of its blocks do not lead out of: it has all parents of
its blocks, as far as the entry leads to them, and its blocks can be reached within it. -/
structure Core (fn : Func) (C : BlockId → Prop) : Prop where
  mem_postorder : ∀ b, C b → b ∈ fn.postorder
  parent : ∀ a b, C b → a ∈ fn.postorder → fn.Edge a b → C a
  reachable : ∀ b, C b → Reachable (fn.EdgeIn C) fn.entry b

namespace Core

variable {C : BlockId → Prop}

theorem dominator_mem (h : fn.Core C) (hb : C b) (hab : Dominates (fn.EdgeIn C) fn.entry a b) :
    C a := by
  obtain ⟨l, hl⟩ := h.reachable b hb
  rcases hab l hl with ha | rfl
  · exact (hl.of_end hb fun _ _ hxy _ => hxy.1).2 a ha
  · exact hb

end Core

/-- A chain of owners stays among the blocks in canonical order. -/
theorem walk_orderedEdge {l : List BlockId} (hl : Walk fn.Owns a b l) (ha : a ∈ fn.canonicalOrder) :
    Walk fn.OrderedEdge a b l := by
  induction hl with
  | nil => exact .nil _
  | cons hab _ ih =>
    have hb := (canonicalOrder_closed fn).2 _ ha _ hab
    exact .cons ⟨ha, hb, hab.edge⟩ (ih hb)

theorem reachable_orderedEdge (hb : b ∈ fn.canonicalOrder) :
    Reachable fn.OrderedEdge fn.entry b := by
  obtain ⟨l, hl, -⟩ := exists_walk_before hb
  exact ⟨l, walk_orderedEdge hl (canonicalOrder_closed fn).1⟩

theorem Enclosed.core (h : fn.Enclosed) : fn.Core (· ∈ fn.canonicalOrder) where
  mem_postorder _ := mem_postorder_of_mem_canonicalOrder
  parent a b hb _ hab := h.parents_mem b hb a hab
  reachable _ := reachable_orderedEdge

/-! ## The meet of the parents' sets -/

theorem mem_foldl_inter {sets : List (KeySet BlockId)} :
    a ∈ sets.foldl KeySet.inter s ↔ a ∈ s ∧ ∀ t ∈ sets, a ∈ t := by
  induction sets generalizing s with
  | nil => simp
  | cons t sets ih => simp [ih, and_assoc]

theorem ordered_foldl_inter {sets : List (KeySet BlockId)} (h : s.Ordered) :
    (sets.foldl KeySet.inter s).Ordered := by
  induction sets generalizing s with
  | nil => exact h
  | cons t sets ih => exact ih (h.inter t)

theorem mem_meetParents : a ∈ cur.meetParents b ↔ a = b ∨
    (∃ p ∈ (cur.block b).parents, ∃ s, (cur.block p).dominators = some s) ∧
      ∀ p ∈ (cur.block b).parents, ∀ s, (cur.block p).dominators = some s → a ∈ s := by
  have hsets : ∀ t, t ∈ (cur.block b).parents.filterMap (fun p => (cur.block p).dominators) ↔
      ∃ p ∈ (cur.block b).parents, (cur.block p).dominators = some t := by
    intro t
    simp
  rw [meetParents]
  split
  · next hnil =>
    have hno : ¬ ∃ p ∈ (cur.block b).parents, ∃ s, (cur.block p).dominators = some s := by
      rintro ⟨p, hp, t, ht⟩
      have := (hsets t).mpr ⟨p, hp, ht⟩
      rw [hnil] at this
      simp at this
    simp [hno]
  · next t rest hcons =>
    rw [KeySet.mem_insert, mem_foldl_inter]
    have hall : (a ∈ t ∧ ∀ u ∈ rest, a ∈ u) ↔
        ∀ u ∈ (cur.block b).parents.filterMap (fun p => (cur.block p).dominators), a ∈ u := by
      rw [hcons]
      simp
    have hsome : ∃ p ∈ (cur.block b).parents, ∃ s, (cur.block p).dominators = some s := by
      obtain ⟨p, hp, ht⟩ := (hsets t).mp (by rw [hcons]; simp)
      exact ⟨p, hp, t, ht⟩
    rw [hall]
    refine or_congr_right ⟨fun h => ⟨hsome, fun p hp u hu => h u ((hsets u).mpr ⟨p, hp, hu⟩)⟩,
      fun h u hu => ?_⟩
    obtain ⟨p, hp, hu⟩ := (hsets u).mp hu
    exact h.2 p hp u hu

theorem ordered_meetParents
    (h : ∀ p ∈ (cur.block b).parents, ∀ s, (cur.block p).dominators = some s → s.Ordered) :
    (cur.meetParents b).Ordered := by
  rw [meetParents]
  split
  · exact KeySet.ordered_empty.insert b
  · next t rest hcons =>
    refine (ordered_foldl_inter ?_).insert b
    have hmem : t ∈ (cur.block b).parents.filterMap (fun p => (cur.block p).dominators) := by
      rw [hcons]
      simp
    obtain ⟨p, hp, ht⟩ := List.mem_filterMap.mp hmem
    exact h p hp t ht

/-! ## The refinement -/

/-- A block without what is known of its dominators. -/
def forgetDominators (blk : Block) : Block :=
  { blk with dominators := none, idom := none }

/-- While the sets are refined, they hold all dominators and are never smaller than what the next
pass makes of them. -/
structure Refining (fn cur : Func) : Prop where
  edits : fn.Edits cur
  rest : ∀ b, forgetDominators (cur.block b) = forgetDominators (fn.block b)
  set : ∀ b ∈ fn.postorder, ∃ s, (cur.block b).dominators = some s ∧ s.Ordered ∧
    ∀ a ∈ s, a ∈ fn.postorder
  outside : ∀ b ∉ fn.postorder, (cur.block b).dominators = (fn.block b).dominators
  entry : (cur.block fn.entry).dominators = some (.ofList [fn.entry])
  sound : ∀ C, fn.Core C → ∀ b, C b → ∀ s, (cur.block b).dominators = some s →
    ∀ a, Dominates (fn.EdgeIn C) fn.entry a b → a ∈ s
  descending : ∀ b ∈ fn.postorder, b ≠ fn.entry → ∀ s, (cur.block b).dominators = some s →
    ∀ a ∈ cur.meetParents b, a ∈ s

/-- The sum of the sizes of the sets. -/
def weight (fn cur : Func) : Nat :=
  ∑ b ∈ fn.postorder.toFinset, (((cur.block b).dominators).getD .empty).members.length

namespace Refining

variable (h : fn.Refining cur)
include h

theorem parents (b : BlockId) : (cur.block b).parents = (fn.block b).parents :=
  (congrArg Block.parents (h.rest b) :)

/-- A parent that has a set is one that the entry leads to. -/
theorem parent_mem (hf : fn.Surveyable) (hb : b ∈ fn.postorder)
    (hp : p ∈ (cur.block b).parents) (hs : (cur.block p).dominators = some s) :
    p ∈ fn.postorder := by
  by_contra hnot
  rw [h.parents] at hp
  rw [h.outside p hnot, hf.unset b hb p hp hnot] at hs
  cases hs

theorem ordered_meet (hf : fn.Surveyable) (hb : b ∈ fn.postorder) :
    (cur.meetParents b).Ordered := by
  refine ordered_meetParents fun p hp s hs => ?_
  obtain ⟨t, ht, hord, -⟩ := h.set p (h.parent_mem hf hb hp hs)
  rw [ht, Option.some.injEq] at hs
  exact hs ▸ hord

theorem sound_meet {C : BlockId → Prop} (hf : fn.Surveyable)
    (hC : fn.Core C) (hb : C b) (hne : b ≠ fn.entry)
    (hab : Dominates (fn.EdgeIn C) fn.entry a b) : a ∈ cur.meetParents b := by
  rw [mem_meetParents]
  by_cases hab' : a = b
  · exact .inl hab'
  · refine .inr ⟨?_, fun p hp s hs => ?_⟩
    · obtain ⟨l, hl⟩ := hC.reachable b hb
      rcases hl.eq_nil_or_snoc with ⟨-, he⟩ | ⟨m, p, -, -, hpC, -, hp⟩
      · exact absurd he.symm hne
      · obtain ⟨s, hs, -⟩ := h.set p (hC.mem_postorder p hpC)
        exact ⟨p, by rw [h.parents]; exact hp, s, hs⟩
    · have hpmem := h.parent_mem hf (hC.mem_postorder b hb) hp hs
      rw [h.parents] at hp
      have hpC := hC.parent p b hb hpmem hp
      exact h.sound C hC p hpC s hs a (StrictlyDominates.pred ⟨hab, hab'⟩ ⟨hpC, hb, hp⟩)

theorem length_le (hf : fn.Surveyable) (hb : b ∈ fn.postorder) :
    (((cur.block b).dominators).getD .empty).members.length ≤ fn.blocks.size := by
  obtain ⟨s, hs, hord, hsub⟩ := h.set b hb
  rw [hs, Option.getD_some]
  exact Graph.length_le_of_lt hord.nodup fun x hx => hf.lt x (hsub x hx)

theorem weight_le (hf : fn.Surveyable) : fn.weight cur ≤ fn.postorder.length * fn.blocks.size := by
  calc fn.weight cur ≤ ∑ b ∈ fn.postorder.toFinset, fn.blocks.size :=
        Finset.sum_le_sum fun b hb => h.length_le hf (List.mem_toFinset.mp hb)
    _ = fn.postorder.length * fn.blocks.size := by
        rw [Finset.sum_const, List.toFinset_card_of_nodup (nodup_postorder fn)]
        rfl

/-- Setting a block to the meet of its parents' sets. -/
theorem refine (hf : fn.Surveyable) (hb : b ∈ fn.postorder) (hne : b ≠ fn.entry) :
    fn.Refining (cur.modify b fun blk => { blk with dominators := some (cur.meetParents b) }) := by
  set cur' := cur.modify b fun blk => { blk with dominators := some (cur.meetParents b) } with hcur
  have hsize : b < cur.blocks.size := h.edits.size ▸ hf.lt b hb
  have hrest : ∀ c, forgetDominators (cur'.block c) = forgetDominators (cur.block c) :=
    fun c => proj_block_modify forgetDominators fun _ => rfl
  have hself : (cur'.block b).dominators = some (cur.meetParents b) := by
    rw [hcur, block_modify_self hsize]
  have hother : ∀ c, c ≠ b → cur'.block c = cur.block c :=
    fun c hc => block_modify_ne (Ne.symm hc)
  obtain ⟨old, hold, -, holdsub⟩ := h.set b hb
  -- every set of `cur'` is part of the set that it replaces
  have hsub : ∀ c t, (cur'.block c).dominators = some t →
      ∃ u, (cur.block c).dominators = some u ∧ ∀ x ∈ t, x ∈ u := by
    intro c t ht
    by_cases hcb : c = b
    · subst hcb
      rw [hself, Option.some.injEq] at ht
      exact ⟨old, hold, ht ▸ h.descending c hb hne old hold⟩
    · rw [hother c hcb] at ht
      exact ⟨t, ht, fun x => id⟩
  have hmeet : ∀ c, ∀ x ∈ cur'.meetParents c, x ∈ cur.meetParents c := by
    intro c x hx
    have hparents : (cur'.block c).parents = (cur.block c).parents :=
      (congrArg Block.parents (hrest c) :)
    rw [mem_meetParents, hparents] at hx
    rw [mem_meetParents]
    refine hx.imp_right fun ⟨⟨p, hp, t, ht⟩, hall⟩ => ⟨?_, fun q hq u hu => ?_⟩
    · obtain ⟨u, hu, -⟩ := hsub p t ht
      exact ⟨p, hp, u, hu⟩
    · by_cases hqb : q = b
      · subst hqb
        have hx' := hall q hq _ hself
        rw [hold, Option.some.injEq] at hu
        exact hu ▸ h.descending q hb hne old hold x hx'
      · exact hall q hq u (by rw [hother q hqb]; exact hu)
  refine ⟨h.edits.trans (.modify _ _ _), fun c => (hrest c).trans (h.rest c), fun c hc => ?_,
    fun c hc => ?_, ?_, fun C hC c hc t ht x hx => ?_, fun c hc hce t ht x hx => ?_⟩
  · by_cases hcb : c = b
    · subst hcb
      exact ⟨_, hself, h.ordered_meet hf hc, fun x hx =>
        holdsub x (h.descending c hb hne old hold x hx)⟩
    · rw [hother c hcb]
      exact h.set c hc
  · have hcb : c ≠ b := fun hcb => hc (hcb ▸ hb)
    rw [hother c hcb]
    exact h.outside c hc
  · rw [hother _ (Ne.symm hne)]
    exact h.entry
  · by_cases hcb : c = b
    · subst hcb
      rw [hself, Option.some.injEq] at ht
      exact ht ▸ h.sound_meet hf hC hc hne hx
    · rw [hother c hcb] at ht
      exact h.sound C hC c hc t ht x hx
  · by_cases hcb : c = b
    · subst hcb
      rw [hself, Option.some.injEq] at ht
      exact ht ▸ hmeet c x hx
    · rw [hother c hcb] at ht
      exact h.descending c hc hce t ht x (hmeet c x hx)

/-- Setting a block to another set makes the sum smaller. -/
theorem weight_refine (hf : fn.Surveyable) (hb : b ∈ fn.postorder)
    (hne : b ≠ fn.entry) (hchange : (cur.block b).dominators ≠ some (cur.meetParents b)) :
    fn.weight (cur.modify b fun blk => { blk with dominators := some (cur.meetParents b) }) <
      fn.weight cur := by
  have hsize : b < cur.blocks.size := h.edits.size ▸ hf.lt b hb
  obtain ⟨old, hold, hord, -⟩ := h.set b hb
  have hlt : (cur.meetParents b).members.length < old.members.length := by
    refine (h.ordered_meet hf hb).length_lt hord (h.descending b hb hne old hold) fun heq => ?_
    rw [heq] at hchange
    exact hchange hold
  refine Finset.sum_lt_sum (fun c _ => ?_) ⟨b, List.mem_toFinset.mpr hb, ?_⟩
  · by_cases hcb : c = b
    · subst hcb
      rw [block_modify_self hsize, hold]
      exact hlt.le
    · rw [block_modify_ne (Ne.symm hcb)]
  · rw [block_modify_self hsize, hold]
    exact hlt

end Refining

/-- The sets are what the next pass would make of them. -/
def Stable (fn cur : Func) : Prop :=
  ∀ b ∈ fn.postorder, b ≠ fn.entry → (cur.block b).dominators = some (cur.meetParents b)

/-- A pass that changes something makes the sum smaller; one that changes nothing has found every
set in place. -/
theorem Refining.pass (h : fn.Refining cur) (hf : fn.Surveyable) {l : List BlockId}
    (hl : ∀ b ∈ l, b ∈ fn.postorder) (changed : Bool) :
    fn.Refining (l.foldl refineBlock (cur, changed)).1 ∧
      fn.weight (l.foldl refineBlock (cur, changed)).1 ≤ fn.weight cur ∧
      ((l.foldl refineBlock (cur, changed)).2 = true →
        changed = true ∨ fn.weight (l.foldl refineBlock (cur, changed)).1 < fn.weight cur) ∧
      ((l.foldl refineBlock (cur, changed)).2 = false →
        (l.foldl refineBlock (cur, changed)).1 = cur ∧ changed = false ∧
          ∀ b ∈ l, b ≠ fn.entry → (cur.block b).dominators = some (cur.meetParents b)) := by
  induction l generalizing cur changed with
  | nil => exact ⟨h, le_rfl, .inl, fun hc => ⟨rfl, hc, by simp⟩⟩
  | cons b l ih =>
    have hl' : ∀ c ∈ l, c ∈ fn.postorder := fun c hc => hl c (List.mem_cons_of_mem _ hc)
    have hb := hl b (by simp)
    have hentry : cur.entry = fn.entry := h.edits.entry
    rw [List.foldl_cons]
    by_cases hbe : b = fn.entry
    · have hstep : refineBlock (cur, changed) b = (cur, changed) := by
        simp [refineBlock, hentry, hbe]
      rw [hstep]
      obtain ⟨h₁, h₂, h₃, h₄⟩ := ih h hl' changed
      refine ⟨h₁, h₂, h₃, fun hc => ?_⟩
      obtain ⟨e₁, e₂, e₃⟩ := h₄ hc
      exact ⟨e₁, e₂, by simpa using ⟨fun hn => absurd hbe hn, e₃⟩⟩
    · by_cases hsame : (cur.block b).dominators = some (cur.meetParents b)
      · have hstep : refineBlock (cur, changed) b = (cur, changed) := by
          simp [refineBlock, hentry, hbe, hsame]
        rw [hstep]
        obtain ⟨h₁, h₂, h₃, h₄⟩ := ih h hl' changed
        refine ⟨h₁, h₂, h₃, fun hc => ?_⟩
        obtain ⟨e₁, e₂, e₃⟩ := h₄ hc
        exact ⟨e₁, e₂, by simpa using ⟨fun _ => hsame, e₃⟩⟩
      · have hstep : refineBlock (cur, changed) b =
            (cur.modify b fun blk => { blk with dominators := some (cur.meetParents b) }, true) := by
          simp [refineBlock, hentry, hbe, hsame]
        rw [hstep]
        have hlt := h.weight_refine hf hb hbe hsame
        obtain ⟨h₁, h₂, -, h₄⟩ := ih (h.refine hf hb hbe) hl' true
        refine ⟨h₁, h₂.trans hlt.le, fun _ => .inr (h₂.trans_lt hlt), fun hc => ?_⟩
        exact absurd (h₄ hc).2.1 (by simp)

theorem Refining.exists_stable (h : fn.Refining cur) (hf : fn.Surveyable) {passes : Nat}
    (hpasses : fn.weight cur < passes) :
    ∃ cur', refineDominators fn.postorder passes cur = .ok cur' ∧ fn.Refining cur' ∧
      fn.Stable cur' := by
  induction passes generalizing cur with
  | zero => omega
  | succ passes ih =>
    obtain ⟨h₁, -, h₃, h₄⟩ := h.pass hf (l := fn.postorder.reverse) (by simp) false
    simp only [refineDominators]
    cases hc : (fn.postorder.reverse.foldl refineBlock (cur, false)).2 with
    | true =>
      rw [if_pos rfl]
      exact ih h₁ (by have := (h₃ hc).resolve_left (by simp); omega)
    | false =>
      obtain ⟨e₁, -, e₃⟩ := h₄ hc
      rw [if_neg (by simp), e₁]
      exact ⟨cur, rfl, h, fun b hb => e₃ b (by simpa using hb)⟩

/-- Once nothing changes, the sets hold dominators only. -/
theorem Refining.complete (h : fn.Refining cur) (hstable : fn.Stable cur) (hb : b ∈ fn.postorder)
    (hs : (cur.block b).dominators = some s) (ha : a ∈ s) :
    Dominates fn.SurveyedEdge fn.entry a b := by
  intro l hl
  have hentry : ∀ {s}, (cur.block fn.entry).dominators = some s → a ∈ s → a = fn.entry := by
    intro s hs ha
    rw [h.entry, Option.some.injEq] at hs
    simpa [← hs] using ha
  -- by induction on the walk: a member of the meet is a member of the set of the last parent
  induction hn : l.length generalizing b l s with
  | zero =>
    obtain rfl := List.length_eq_zero_iff.mp hn
    cases hl with
    | nil => exact .inr (hentry hs ha)
  | succ n ih =>
    rcases hl.eq_nil_or_snoc with ⟨rfl, -⟩ | ⟨m, p, rfl, hm, hpmem, -, hp⟩
    · simp at hn
    · by_cases hne : b = fn.entry
      · exact .inr ((hentry (hne ▸ hs) ha).trans hne.symm)
      · obtain ⟨t, ht, -⟩ := h.set p hpmem
        rw [hstable b hb hne, Option.some.injEq] at hs
        subst hs
        rcases mem_meetParents.mp ha with rfl | ⟨-, hall⟩
        · exact .inr rfl
        · have hat := hall p (by rw [h.parents]; exact hp) t ht
          rcases ih hpmem ht hat m hm (by simpa using hn) with hmem | rfl
          · exact .inl (List.mem_append_left _ hmem)
          · exact .inl (by simp)

/-! ## The whole computation -/

/-- The function with which the refinement starts. -/
def startDominance (fn : Func) : Func :=
  fn.postorder.foldl (fun cur b => cur.modify b fun blk =>
    { blk with
      idom := none
      dominators := some (if b = cur.entry then .ofList [cur.entry] else .ofList fn.postorder) }) fn

theorem block_startDominance (hf : fn.Surveyable) (c : BlockId) :
    fn.startDominance.block c = if c ∈ fn.postorder then
      { fn.block c with
        idom := none
        dominators := some (if c = fn.entry then .ofList [fn.entry] else .ofList fn.postorder) }
      else fn.block c := by
  let set (b : BlockId) (blk : Block) : Block :=
    { blk with
      idom := none
      dominators := some (if b = fn.entry then .ofList [fn.entry] else .ofList fn.postorder) }
  -- the entry that the fold looks at stays the same
  have hfold : ∀ (l : List BlockId) (cur : Func), cur.entry = fn.entry →
      l.foldl (fun cur b => cur.modify b fun blk =>
        { blk with
          idom := none
          dominators := some (if b = cur.entry then .ofList [cur.entry]
            else .ofList fn.postorder) }) cur =
        l.foldl (fun cur b => cur.modify b (set b)) cur := by
    intro l
    induction l with
    | nil => exact fun cur _ => rfl
    | cons b l ih =>
      intro cur hcur
      rw [List.foldl_cons, List.foldl_cons, hcur]
      exact ih _ hcur
  rw [startDominance, hfold _ _ rfl, block_foldl_modify set (nodup_postorder fn)
    hf.lt]

theorem refining_startDominance (hf : fn.Surveyable) : fn.Refining fn.startDominance := by
  have hblock := block_startDominance hf
  have hset : ∀ b ∈ fn.postorder, (fn.startDominance.block b).dominators =
      some (if b = fn.entry then .ofList [fn.entry] else .ofList fn.postorder) := by
    intro b hb
    rw [hblock, if_pos hb]
  have hsub : ∀ b ∈ fn.postorder, ∀ s, (fn.startDominance.block b).dominators = some s →
      ∀ a ∈ s, a ∈ fn.postorder := by
    intro b hb s hs a ha
    rw [hset b hb, Option.some.injEq] at hs
    subst hs
    split at ha
    · have : a = fn.entry := by simpa using ha
      exact this ▸ entry_mem_postorder fn
    · simpa using ha
  refine ⟨.foldl (fun cur b => .modify _ _ _) _ _, fun b => ?_, fun b hb => ?_, fun b hb => ?_, ?_,
    fun C hC b hb s hs a ha => ?_, fun b hb hne s hs a ha => ?_⟩
  · rw [hblock]
    split <;> rfl
  · refine ⟨_, hset b hb, ?_, hsub b hb _ (hset b hb)⟩
    split <;> exact KeySet.ordered_ofList _
  · rw [hblock, if_neg hb]
  · rw [hset _ (entry_mem_postorder fn), if_pos rfl]
  · rw [hset b (hC.mem_postorder b hb), Option.some.injEq] at hs
    subst hs
    split
    · next hbe =>
      rcases (hbe ▸ ha) [] (.nil _) with h | h
      · simp at h
      · simpa using h
    · exact KeySet.mem_ofList.mpr (hC.mem_postorder a (hC.dominator_mem hb ha))
  · rw [hset b hb, if_neg hne, Option.some.injEq] at hs
    subst hs
    rw [KeySet.mem_ofList]
    rcases mem_meetParents.mp ha with rfl | ⟨⟨p, hp, t, ht⟩, hall⟩
    · exact hb
    · have hparents : (fn.startDominance.block b).parents = (fn.block b).parents := by
        rw [hblock]
        split <;> rfl
      have hedge : fn.Edge p b := by
        rw [Graph.Edge, ← hparents]
        exact hp
      -- a parent that the survey does not find has no set, and counts for nothing
      have hpmem : p ∈ fn.postorder := by
        by_contra hnot
        rw [hblock, if_neg hnot, hf.unset b hb p hedge hnot] at ht
        cases ht
      exact hsub p hpmem t ht a (hall p hp t ht)

/-- The first block in a list that all blocks of a set dominate. -/
def firstDominated (fn : Func) (strict : KeySet BlockId) (candidates : List BlockId) :
    Option BlockId :=
  candidates.find? fun c =>
    match (fn.block c).dominators with
    | some set => strict.subset set
    | none => false

theorem immediateDominator?_eq (hs : (fn.block b).dominators = some s) :
    fn.immediateDominator? b = fn.firstDominated (s.erase b) (s.erase b).members.reverse := by
  rw [immediateDominator?, hs]
  rfl

/-- What has been computed: the sets hold dominators only, and in a core all of them. -/
structure Dominated (fn fn' : Func) : Prop where
  edits : fn.Edits fn'
  rest : ∀ b, forgetDominators (fn'.block b) = forgetDominators (fn.block b)
  complete : ∀ b ∈ fn.postorder, ∃ s, (fn'.block b).dominators = some s ∧
    ∀ a ∈ s, Dominates fn.SurveyedEdge fn.entry a b
  sound : ∀ C, fn.Core C → ∀ b, C b → ∀ s, (fn'.block b).dominators = some s →
    ∀ a, Dominates (fn.EdgeIn C) fn.entry a b → a ∈ s
  idom : ∀ b ∈ fn.postorder, (fn'.block b).idom = fn'.immediateDominator? b

/-- Dominators can be computed. -/
theorem exists_dominated (hf : fn.Surveyable) :
    ∃ fn', fn.computeDominance = .ok fn' ∧ fn.Dominated fn' := by
  have hstart := refining_startDominance hf
  obtain ⟨solved, hsolved, href, hstable⟩ :=
    hstart.exists_stable hf (Nat.lt_succ_of_le (hstart.weight_le hf))
  let last := fn.postorder.foldl (fun cur b => cur.modify b fun blk =>
    { blk with idom := solved.immediateDominator? b }) solved
  have hlast : ∀ c, last.block c = if c ∈ fn.postorder then
      { solved.block c with idom := solved.immediateDominator? c } else solved.block c :=
    block_foldl_modify (fun b blk => { blk with idom := solved.immediateDominator? b })
      (nodup_postorder fn) fun b hb => href.edits.size ▸ hf.lt b hb
  have hset : ∀ c, (last.block c).dominators = (solved.block c).dominators := by
    intro c
    rw [hlast]
    split <;> rfl
  have hedits : solved.Edits last := .foldl (fun cur b => .modify _ _ _) _ _
  refine ⟨last, ?_, href.edits.trans hedits, fun b => ?_, fun b hb => ?_,
    fun C hC b hb s hs => ?_, fun b hb => ?_⟩
  · have hdef : fn.computeDominance = (refineDominators fn.postorder
        (fn.postorder.length * fn.blocks.size + 1) fn.startDominance).map fun solved =>
          fn.postorder.foldl (fun cur b => cur.modify b fun blk =>
            { blk with idom := solved.immediateDominator? b }) solved := by
      rw [computeDominance, startDominance]
      rfl
    rw [hdef, hsolved]
    rfl
  · rw [← href.rest b, hlast]
    split <;> rfl
  · obtain ⟨s, hs, -⟩ := href.set b hb
    exact ⟨s, (hset b).trans hs, fun a ha => href.complete hstable hb hs ha⟩
  · exact href.sound C hC b hb s ((hset b).symm.trans hs)
  · have hsame : last.immediateDominator? b = solved.immediateDominator? b := by
      simp only [immediateDominator?, hset]
    rw [hsame, hlast, if_pos hb]

namespace Dominated

variable {fn' : Func} {C : BlockId → Prop}

theorem mem_iff (h : fn.Dominated fn') (hC : fn.Core C) (hb : C b) :
    ∃ s, (fn'.block b).dominators = some s ∧
      ∀ a, a ∈ s ↔ Dominates (fn.EdgeIn C) fn.entry a b := by
  obtain ⟨s, hs, hsub⟩ := h.complete b (hC.mem_postorder b hb)
  refine ⟨s, hs, fun a => ⟨fun ha l hl => hsub a ha l (hl.mono fun x y hxy => ?_),
    h.sound C hC b hb s hs a⟩⟩
  exact ⟨hC.mem_postorder x hxy.1, hC.mem_postorder y hxy.2.1, hxy.2.2⟩

/-- Whatever the order in which the strict dominators of a block are gone through, the first one
that all of them dominate is its immediate dominator. -/
theorem firstDominated_eq (h : fn.Dominated fn') (hC : fn.Core C) (hb : C b)
    (hs : (fn'.block b).dominators = some s) {l : List BlockId}
    (hl : ∀ c, c ∈ l ↔ c ∈ s.erase b) :
    fn'.firstDominated (s.erase b) l = some d ↔
      ImmediatelyDominates (fn.EdgeIn C) fn.entry d b := by
  obtain ⟨s', hs', hsmem⟩ := h.mem_iff hC hb
  obtain rfl : s' = s := Option.some.inj (hs'.symm.trans hs)
  have hstrict : ∀ a, a ∈ s'.erase b ↔ StrictlyDominates (fn.EdgeIn C) fn.entry a b := by
    intro a
    rw [KeySet.mem_erase, hsmem, StrictlyDominates]
  -- what the search tests is that a strict dominator is the immediate one
  obtain ⟨test, hsearch, htest⟩ : ∃ test : BlockId → Bool,
      fn'.firstDominated (s'.erase b) l = l.find? test ∧
      ∀ c ∈ l, test c = true ↔ ImmediatelyDominates (fn.EdgeIn C) fn.entry c b := by
    refine ⟨_, rfl, fun c hc => ?_⟩
    have hcb := (hstrict c).mp ((hl c).mp hc)
    obtain ⟨t, ht, htmem⟩ := h.mem_iff hC (hC.dominator_mem hb hcb.1)
    simp only [ht, KeySet.subset, List.all_eq_true, KeySet.contains_iff, htmem]
    exact ⟨fun hall => ⟨hcb, fun a ha => hall a ((hstrict a).mpr ha)⟩,
      fun himm a ha => himm.2 a ((hstrict a).mp ha)⟩
  rw [hsearch]
  constructor
  · intro hfind
    exact (htest d (List.mem_of_find?_eq_some hfind)).mp (List.find?_some hfind)
  · intro himm
    have hmem := (hl d).mpr ((hstrict d).mpr himm.1)
    cases hfind : l.find? test with
    | none => exact absurd ((htest d hmem).mpr himm) (List.find?_eq_none.mp hfind d hmem)
    | some c =>
      have hc := (htest c (List.mem_of_find?_eq_some hfind)).mp (List.find?_some hfind)
      exact congrArg some (hc.unique himm (hC.reachable b hb))

theorem idom_iff (h : fn.Dominated fn') (hC : fn.Core C) (hb : C b) :
    (fn'.block b).idom = some d ↔ ImmediatelyDominates (fn.EdgeIn C) fn.entry d b := by
  obtain ⟨s, hs, -⟩ := h.mem_iff hC hb
  rw [h.idom b (hC.mem_postorder b hb), immediateDominator?_eq hs]
  exact h.firstDominated_eq hC hb hs fun c => List.mem_reverse

end Dominated

end SsaBlocks.Func
