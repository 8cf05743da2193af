import SsaBlocks.Proofs.Termination

/-!
# The canonical order of assembled functions

In a function that has been assembled from blocks, a parent has the block among its children. So a
chain of last parents that leads to the entry is a chain of owned children that starts there, and
the canonical order lists what such chains connect.

A late edge may put a block on the stack of the walk once more. Nothing comes of it: a block that is
put there again has been listed before, or stands higher on the stack.

## Main results

* `Func.canonicalOrder_addEdges`: late edges leave the canonical order as it is
* `Func.canonicalOrder_of_assembled`: what the canonical order lists, and in which order
-/

namespace SsaBlocks

open SsaBlocks.Flow List

/-! ## Blocks that stand on the stack again -/

/-- The second list is the first with blocks added, each of which is known or comes before. -/
inductive Padded : List BlockId → List BlockId → List BlockId → Prop
  | nil (known : List BlockId) : Padded known [] []
  | keep {b : BlockId} {known l l' : List BlockId} (h : Padded (b :: known) l l') :
    Padded known (b :: l) (b :: l')
  | add {b : BlockId} {known l l' : List BlockId} (hb : b ∈ known) (h : Padded known l l') :
    Padded known l (b :: l')

namespace Padded

variable {known known' l l' m m' : List BlockId}

theorem mono (h : Padded known l l') (hknown : known ⊆ known') : Padded known' l l' := by
  induction h generalizing known' with
  | nil => exact .nil known'
  | keep _ ih => exact .keep (ih (cons_subset_cons _ hknown))
  | add hb _ ih => exact .add (hknown hb) (ih hknown)

theorem append (h : Padded known l l') (h' : Padded (known ++ l) m m') :
    Padded known (l ++ m) (l' ++ m') := by
  induction h with
  | nil known => simpa using h'
  | keep _ ih => exact .keep (ih (h'.mono (by simp)))
  | add hb _ ih => exact .add hb (ih h')

theorem of_subset (h : l ⊆ known) : Padded known [] l := by
  induction l with
  | nil => exact .nil known
  | cons b l ih => exact .add (h (by simp)) (ih fun c hc => h (by simp [hc]))

/-- What is taken out of a list by a weaker test. -/
theorem filter {p q : BlockId → Bool} (hpq : ∀ b, p b → q b)
    (hknown : ∀ b, q b → p b = false → b ∈ known) (l : List BlockId) :
    Padded known (l.filter p) (l.filter q) := by
  induction l generalizing known with
  | nil => exact .nil known
  | cons b l ih =>
    cases hp : p b with
    | true =>
      rw [filter_cons_of_pos hp, filter_cons_of_pos (hpq b hp)]
      exact .keep (ih fun c hq hc => mem_cons_of_mem b (hknown c hq hc))
    | false =>
      rw [filter_cons_of_neg (by simp [hp])]
      cases hq : q b with
      | true =>
        rw [filter_cons_of_pos hq]
        exact .add (hknown b hq hp) (ih hknown)
      | false =>
        rw [filter_cons_of_neg (by simp [hq])]
        exact ih hknown

end Padded

namespace Func

variable {fn fn' : Func} {a b s t : BlockId} {stack stack' seen order order' : List BlockId}

theorem Traverses.unique (h : fn.Traverses stack seen order) (h' : fn.Traverses stack seen order') :
    order = order' := by
  induction h with
  | done =>
    cases h'
    rfl
  | skip hb _ ih =>
    cases h' with
    | skip _ h' => exact ih h'
    | enter hb' _ => exact absurd hb hb'
  | enter hb _ ih =>
    cases h' with
    | skip hb' _ => exact absurd hb' hb
    | enter _ h' => exact ih h'

/-- A walk lists the same blocks if, beside blocks that it has met, only the entry is put on the
stack again. -/
theorem Traverses.of_padded
    (howned : ∀ b, Padded [fn.entry] (fn.ownedChildren b) (fn'.ownedChildren b))
    (h : fn'.Traverses stack' seen order) (hpadded : Padded seen stack stack')
    (hentry : fn.entry ∈ seen ∨ stack'.head? = some fn.entry) : fn.Traverses stack seen order := by
  induction h generalizing stack with
  | done =>
    cases hpadded
    exact .done
  | @skip b _ seen _ hb _ ih =>
    have hentry : fn.entry ∈ seen := by
      rcases hentry with hentry | hhead
      · exact hentry
      · obtain rfl : b = fn.entry := by simpa using hhead
        exact hb
    cases hpadded with
    | keep hrest => exact .skip hb (ih (hrest.mono (by simp [hb])) (.inl hentry))
    | add _ hrest => exact ih hrest (.inl hentry)
  | @enter b _ seen _ hb _ ih =>
    cases hpadded with
    | keep hrest =>
      have hentry : fn.entry ∈ seen ++ [b] := by
        rcases hentry with hentry | hhead
        · exact mem_append_left _ hentry
        · obtain rfl : b = fn.entry := by simpa using hhead
          exact mem_append_right _ (mem_singleton_self _)
      have howned : Padded (seen ++ [b]) (fn.ownedChildren b) (fn'.ownedChildren b) :=
        (howned b).mono (by simpa using hentry)
      exact .enter hb (ih (howned.append (hrest.mono (by grind))) (.inl hentry))
    | add hb' _ => exact absurd hb' hb

/-! ## Late edges -/

/-- The last parent of a block is its owner. -/
def OwnedBy (fn : Func) (a b : BlockId) : Prop :=
  (fn.block b).owner? = some a

instance (fn : Func) (a b : BlockId) : Decidable (fn.OwnedBy a b) :=
  inferInstanceAs (Decidable (_ = _))

/-- An edge that is added late leads from one block to another that has a parent or is the entry. -/
structure Late (fn : Func) (s t : BlockId) : Prop where
  source : s < fn.blocks.size
  target : t < fn.blocks.size
  parents : (fn.block t).parents ≠ [] ∨ t = fn.entry

namespace Late

/-- No block but the entry gets an owner by a late edge. -/
theorem ownedBy_addEdge (h : fn.Late s t) :
    (fn.OwnedBy a b → (fn.addEdge s t).OwnedBy a b) ∧
      ((fn.addEdge s t).OwnedBy a b → ¬ fn.OwnedBy a b → b = fn.entry) := by
  rw [OwnedBy, OwnedBy, Block.owner?, Block.owner?, block_addEdge h.source h.target]
  by_cases hb : b = t
  · subst hb
    rw [if_pos rfl, getLast?_cons]
    refine ⟨fun hlast => by rw [hlast, Option.getD_some], fun hlast hnot => ?_⟩
    refine h.parents.resolve_left fun hne => hnot ?_
    rwa [getLast?_eq_some_getLast hne] at hlast ⊢
  · rw [if_neg hb]
    exact ⟨id, fun hlast hnot => absurd hlast hnot⟩

theorem padded_ownedChildren (h : fn.Late s t) (hw : fn.Wired) (b : BlockId) :
    Padded [fn.entry] (fn.ownedChildren b) ((fn.addEdge s t).ownedChildren b) := by
  have hfilter : Padded [fn.entry] ((fn.block b).children.filter fun c => fn.OwnedBy b c)
      ((fn.block b).children.filter fun c => (fn.addEdge s t).OwnedBy b c) :=
    .filter (fun c hc => decide_eq_true (h.ownedBy_addEdge.1 (of_decide_eq_true hc)))
      (fun c hc hnot => mem_singleton.mpr
        (h.ownedBy_addEdge.2 (of_decide_eq_true hc) (of_decide_eq_false hnot))) _
  rw [ownedChildren, ownedChildren, block_addEdge h.source h.target b]
  dsimp only
  split
  · next hbs =>
    rw [filter_append, ← append_nil (filter _ (fn.block b).children)]
    refine hfilter.append (.of_subset fun c hc => ?_)
    obtain ⟨hct, hc⟩ := mem_filter.mp hc
    obtain rfl : c = t := by simpa using hct
    by_cases howned : fn.OwnedBy b c
    · have hchild : fn.Child b c := (hw.edge b c).mpr (mem_of_getLast? howned)
      exact mem_append_right _ (mem_filter.mpr ⟨hchild, decide_eq_true howned⟩)
    · have hnew : (fn.addEdge s c).OwnedBy b c := of_decide_eq_true hc
      exact mem_append_left _ (mem_singleton.mpr (h.ownedBy_addEdge.2 hnew howned))
  · exact hfilter

/-- A late edge leaves the canonical order as it is. -/
theorem canonicalOrder_addEdge (h : fn.Late s t) (hw : fn.Wired) :
    (fn.addEdge s t).canonicalOrder = fn.canonicalOrder := by
  have hwalk := traverses_canonicalOrder (fn.addEdge s t)
  exact (hwalk.of_padded (h.padded_ownedChildren hw) (.keep (.nil _)) (.inr rfl)).unique
    (traverses_canonicalOrder fn)

theorem addEdge (h : fn.Late a b) (hst : fn.Late s t) : (fn.addEdge s t).Late a b where
  source := by
    rw [size_addEdge]
    exact h.source
  target := by
    rw [size_addEdge]
    exact h.target
  parents := by
    refine h.parents.imp_left fun hne => ?_
    rw [block_addEdge hst.source hst.target]
    dsimp only
    split
    · exact cons_ne_nil _ _
    · exact hne

end Late

/-- Any number of late edges leaves the canonical order as it is. -/
theorem canonicalOrder_addEdges (hw : fn.Wired) {edges : List (BlockId × BlockId)}
    (h : ∀ e ∈ edges, fn.Late e.1 e.2) :
    (edges.foldl (fun fn e => fn.addEdge e.1 e.2) fn).canonicalOrder = fn.canonicalOrder := by
  induction edges generalizing fn with
  | nil => rfl
  | cons e edges ih =>
    have he : fn.Late e.1 e.2 := h e mem_cons_self
    rw [foldl_cons, ih (hw.addEdge he.source he.target) fun e' he' =>
      (h e' (mem_cons_of_mem e he')).addEdge he]
    exact he.canonicalOrder_addEdge hw

/-! ## What is listed, and in which order -/

/-- The blocks that are listed are those whose chain of owners leads to the entry. -/
theorem reachable_ownedBy_iff (hw : fn.Wired) :
    Reachable fn.OwnedBy fn.entry b ↔ b ∈ fn.canonicalOrder := by
  rw [mem_canonicalOrder]
  constructor
  · rintro ⟨l, hl⟩
    exact ⟨l, hl.mono fun x y hxy =>
      owns_iff.mpr ⟨(hw.edge x y).mpr (mem_of_getLast? hxy), hxy⟩⟩
  · rintro ⟨l, hl⟩
    exact ⟨l, hl.mono fun x y hxy => (owns_iff.mp hxy).2⟩

/-- **The canonical order.** In every function that has been assembled from blocks, the canonical
order lists, each once, the blocks whose chain of owners leads to the entry. Every block but the
entry, where the chains end, comes after its owner, and every block comes after its strict
dominators. Edges that are added to blocks which have a parent, or to the entry, leave it as it
is. -/
theorem canonicalOrder_of_assembled (h : fn.Assembled) :
    fn.canonicalOrder.Nodup ∧
    (∀ b, b ∈ fn.canonicalOrder ↔ Reachable fn.OwnedBy fn.entry b) ∧
    (∀ b ∈ fn.canonicalOrder, b ≠ fn.entry →
      ∃ o, fn.OwnedBy o b ∧ fn.canonicalOrder.idxOf o < fn.canonicalOrder.idxOf b) ∧
    (∀ b ∈ fn.canonicalOrder, ∀ a, StrictlyDominates fn.Child fn.entry a b →
      fn.canonicalOrder.idxOf a < fn.canonicalOrder.idxOf b) ∧
    ∀ edges : List (BlockId × BlockId), (∀ e ∈ edges, fn.Late e.1 e.2) →
      (edges.foldl (fun fn e => (Build.addEdge e.1 e.2 fn).2) fn).canonicalOrder =
        fn.canonicalOrder := by
  have hedge : fn.Child = fn.Edge := funext₂ fun a b => propext (h.kept.wired.edge a b)
  refine ⟨nodup_canonicalOrder fn, fun b => (reachable_ownedBy_iff h.kept.wired).symm,
    fun b hb hne => ?_, fun b hb a hab => idxOf_lt_of_strictlyDominates (hedge ▸ hab) hb,
    fun edges hedges => canonicalOrder_addEdges h.kept.wired hedges⟩
  obtain ⟨o, -, howns, hbefore⟩ := (exists_owner_before hb).resolve_left hne
  exact ⟨o, (owns_iff.mp howns).2, hbefore⟩

/-- More edges of the loop that reads what no block writes, one of them to its entry. -/
theorem unwritten_canonicalOrder :
    unwritten.canonicalOrder = [0, 1, 2, 3] ∧
      (([(2, 3), (3, 1), (2, 0)].foldl (fun fn e => (Build.addEdge e.1 e.2 fn).2)
        unwritten).canonicalOrder = unwritten.canonicalOrder) := by
  have hassembled : unwritten.Assembled := Assembled.foldl (.make "f" [] .void) (by decide)
  refine ⟨by decide, (canonicalOrder_of_assembled hassembled).2.2.2.2 _ fun e he => ?_⟩
  have hlate : ∀ e ∈ [(2, 3), (3, 1), (2, 0)], e.1 < unwritten.blocks.size ∧
      e.2 < unwritten.blocks.size ∧
      ((unwritten.block e.2).parents ≠ [] ∨ e.2 = unwritten.entry) := by decide
  exact ⟨(hlate e he).1, (hlate e he).2.1, (hlate e he).2.2⟩

/-- An entry that a loop leads back to. -/
def reentered : Func :=
  [.newBlock [0], .addEdge 1 0].foldl Primitive.apply (make "f" [] .void)

/-- The entry comes first, also before the block whose edge to it has made that block its owner. -/
theorem reentered_entry_first : reentered.Assembled ∧
    ¬ ∀ b ∈ reentered.canonicalOrder, ∀ o, reentered.OwnedBy o b →
      reentered.canonicalOrder.idxOf o < reentered.canonicalOrder.idxOf b := by
  have hassembled : reentered.Assembled := Assembled.foldl (.make "f" [] .void) (by decide)
  refine ⟨hassembled, fun h => ?_⟩
  have hlt := h 0 (by decide) 1 (by decide)
  revert hlt
  decide

end Func

end SsaBlocks
