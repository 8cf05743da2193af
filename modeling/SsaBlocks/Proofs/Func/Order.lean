import SsaBlocks.Func.Order
import SsaBlocks.Proofs.Flow.Dominance
import SsaBlocks.Proofs.Func.Edit

/-!
# The canonical order

The canonical order lists, each once, the blocks that a chain of owners connects with the entry,
and a block comes after its owner. Since a chain of owners is a walk, a block also comes after all
its strict dominators.
-/

namespace SsaBlocks.Func

open SsaBlocks.Flow List

variable {fn : Func} {a b c : BlockId}

/-- A block owns the children whose last parent it is. -/
def Owns (fn : Func) (a b : BlockId) : Prop :=
  b ∈ fn.ownedChildren a

theorem owns_iff : fn.Owns a b ↔ b ∈ (fn.block a).children ∧ (fn.block b).owner? = some a := by
  simp [Owns, ownedChildren]

theorem Owns.edge (h : fn.Owns a b) : fn.Edge a b :=
  mem_of_getLast? (owns_iff.mp h).2

/-! ## The walk of the canonical order -/

/-- The walk of the canonical order from a stack, as long as it takes. -/
inductive Traverses (fn : Func) : List BlockId → List BlockId → List BlockId → Prop
  | done {seen : List BlockId} : Traverses fn [] seen seen
  | skip {b : BlockId} {stack seen order : List BlockId} : b ∈ seen →
    Traverses fn stack seen order → Traverses fn (b :: stack) seen order
  | enter {b : BlockId} {stack seen order : List BlockId} : b ∉ seen →
    Traverses fn (fn.ownedChildren b ++ stack) (seen ++ [b]) order →
    Traverses fn (b :: stack) seen order

section Walk

variable {steps : Nat} {stack seen order : List BlockId}

theorem length_ownedChildren_le (fn : Func) (b : BlockId) :
    (fn.ownedChildren b).length ≤ (fn.block b).children.length :=
  length_filter_le _ _

theorem traverses_walkOwned
    (hsteps : stack.length + fn.unseen (·.children.length) seen ≤ steps) :
    fn.Traverses stack seen (fn.walkOwned steps stack seen) := by
  induction steps generalizing stack seen with
  | zero =>
    obtain rfl : stack = [] := length_eq_zero_iff.mp (by omega)
    exact .done
  | succ steps ih =>
    match stack with
    | [] => exact .done
    | b :: stack =>
      rw [length_cons] at hsteps
      by_cases hb : b ∈ seen
      · rw [walkOwned, if_pos hb]
        exact .skip hb (ih (by omega))
      · have hlen := fn.length_ownedChildren_le b
        have hsum : fn.unseen (·.children.length) seen =
            (fn.block b).children.length + fn.unseen (·.children.length) (seen ++ [b]) :=
          fn.unseen_insert rfl hb (by simp [or_comm])
        rw [walkOwned, if_neg hb]
        exact .enter hb (ih (by rw [length_append]; omega))

theorem traverses_canonicalOrder (fn : Func) : fn.Traverses [fn.entry] [] fn.canonicalOrder := by
  refine traverses_walkOwned ?_
  rw [← Graph.edgeCount_eq, length_singleton, Nat.add_comm]

/-- The walk takes in all of the stack and everything owned by what it lists. -/
theorem Traverses.closed (h : fn.Traverses stack seen order)
    (hseen : ∀ a ∈ seen, ∀ c, fn.Owns a c → c ∈ seen ∨ c ∈ stack) :
    seen ⊆ order ∧ stack ⊆ order ∧ ∀ a ∈ order, ∀ c, fn.Owns a c → c ∈ order := by
  induction h with
  | done => simpa using hseen
  | @skip b stack seen order hb _ ih =>
    obtain ⟨h₁, h₂, h₃⟩ := ih fun a ha c hc => by grind
    exact ⟨h₁, cons_subset.mpr ⟨h₁ hb, h₂⟩, h₃⟩
  | @enter b stack seen order hb _ ih =>
    obtain ⟨h₁, h₂, h₃⟩ := ih fun a ha c hc => by grind [Owns]
    obtain ⟨h₁, hb⟩ := append_subset.mp h₁
    exact ⟨h₁, cons_subset.mpr ⟨hb (by simp), (append_subset.mp h₂).2⟩, h₃⟩

theorem Traverses.nodup (h : fn.Traverses stack seen order) (hseen : seen.Nodup) : order.Nodup := by
  induction h with
  | done => exact hseen
  | skip _ _ ih => exact ih hseen
  | enter hb _ ih => exact ih (concat_eq_append ▸ hseen.concat hb)

/-- Every block of the list but the first is owned by one before it. -/
def OwnerBefore (fn : Func) (l : List BlockId) : Prop :=
  ∀ m c n, l = m ++ c :: n → c = fn.entry ∨ ∃ o ∈ m, fn.Owns o c

theorem OwnerBefore.snoc {l : List BlockId} (h : fn.OwnerBefore l)
    (hb : b = fn.entry ∨ ∃ o ∈ l, fn.Owns o b) : fn.OwnerBefore (l ++ [b]) := by
  intro m c n hl
  rcases eq_nil_or_concat n with rfl | ⟨n, d, rfl⟩
  · obtain ⟨rfl, h₂⟩ := append_inj' hl rfl
    obtain rfl : b = c := by simpa using h₂
    exact hb
  · have hl' : l ++ [b] = (m ++ c :: n) ++ [d] := by simpa using hl
    obtain ⟨rfl, -⟩ := append_inj' hl' rfl
    exact h m c n rfl

theorem Traverses.ownerBefore (h : fn.Traverses stack seen order) (hseen : fn.OwnerBefore seen)
    (hstack : ∀ c ∈ stack, c = fn.entry ∨ ∃ o ∈ seen, fn.Owns o c) : fn.OwnerBefore order := by
  induction h with
  | done => exact hseen
  | skip _ _ ih => exact ih hseen fun c hc => hstack c (mem_cons_of_mem _ hc)
  | @enter b stack seen order _ _ ih =>
    refine ih (hseen.snoc (hstack b (by simp))) fun c hc => ?_
    rcases mem_append.mp hc with hc | hc
    · exact .inr ⟨b, by simp, hc⟩
    · rcases hstack c (mem_cons_of_mem _ hc) with rfl | ⟨o, ho, hoc⟩
      · exact .inl rfl
      · exact .inr ⟨o, mem_append_left _ ho, hoc⟩

end Walk

theorem nodup_canonicalOrder (fn : Func) : fn.canonicalOrder.Nodup :=
  fn.traverses_canonicalOrder.nodup nodup_nil

theorem ownerBefore_canonicalOrder (fn : Func) : fn.OwnerBefore fn.canonicalOrder :=
  fn.traverses_canonicalOrder.ownerBefore (fun m c n h => by simp at h) (by simp)

theorem canonicalOrder_closed (fn : Func) :
    fn.entry ∈ fn.canonicalOrder ∧
      ∀ a ∈ fn.canonicalOrder, ∀ c, fn.Owns a c → c ∈ fn.canonicalOrder := by
  obtain ⟨-, h₂, h₃⟩ := fn.traverses_canonicalOrder.closed (by simp)
  exact ⟨h₂ (by simp), h₃⟩

theorem exists_owner_before (hb : b ∈ fn.canonicalOrder) :
    b = fn.entry ∨ ∃ o ∈ fn.canonicalOrder, fn.Owns o b ∧
      fn.canonicalOrder.idxOf o < fn.canonicalOrder.idxOf b := by
  obtain ⟨m, n, hl⟩ := append_of_mem hb
  rcases ownerBefore_canonicalOrder fn m b n hl with rfl | ⟨o, ho, hob⟩
  · exact .inl rfl
  · refine .inr ⟨o, by rw [hl]; exact mem_append_left _ ho, hob, ?_⟩
    have hnd := nodup_canonicalOrder fn
    rw [hl] at hnd ⊢
    have hbm : b ∉ m := fun h => (nodup_append.mp hnd).2.2 b h b (by simp) rfl
    rw [idxOf_append_of_mem ho, idxOf_append_of_notMem hbm]
    have := idxOf_lt_length_of_mem ho
    omega

/-- A walk from the entry to a block through blocks that come before it. -/
theorem exists_walk_before (hb : b ∈ fn.canonicalOrder) :
    ∃ l, Walk fn.Owns fn.entry b l ∧
      ∀ x ∈ l, fn.canonicalOrder.idxOf x < fn.canonicalOrder.idxOf b := by
  induction hn : fn.canonicalOrder.idxOf b using Nat.strongRecOn generalizing b with
  | ind n ih =>
    rcases exists_owner_before hb with rfl | ⟨o, ho, hob, hlt⟩
    · exact ⟨[], .nil _, by simp⟩
    · obtain ⟨l, hl, hlt'⟩ := ih _ (hn ▸ hlt) ho rfl
      refine ⟨l ++ [o], hl.snoc hob, fun x hx => ?_⟩
      rcases mem_append.mp hx with hx | hx
      · exact (hlt' x hx).trans (hn ▸ hlt)
      · rw [mem_singleton.mp hx]
        exact hn ▸ hlt

/-- The canonical order lists the blocks that a chain of owners connects with the entry. -/
theorem mem_canonicalOrder : b ∈ fn.canonicalOrder ↔ Reachable fn.Owns fn.entry b := by
  constructor
  · intro hb
    obtain ⟨l, hl, -⟩ := exists_walk_before hb
    exact ⟨l, hl⟩
  · rintro ⟨l, hl⟩
    have key : ∀ a c l, Walk fn.Owns a c l → a ∈ fn.canonicalOrder → c ∈ fn.canonicalOrder := by
      intro a c l hl
      induction hl with
      | nil => exact id
      | cons hr _ ih => exact fun ha => ih ((canonicalOrder_closed fn).2 _ ha _ hr)
    exact key _ _ _ hl (canonicalOrder_closed fn).1

theorem reachable_of_mem_canonicalOrder (hb : b ∈ fn.canonicalOrder) :
    Reachable fn.Edge fn.entry b := by
  obtain ⟨l, hl, -⟩ := exists_walk_before hb
  exact ⟨l, hl.mono fun _ _ h => h.edge⟩

/-- A block comes after all of its strict dominators. -/
theorem idxOf_lt_of_strictlyDominates (h : StrictlyDominates fn.Edge fn.entry a b)
    (hb : b ∈ fn.canonicalOrder) :
    fn.canonicalOrder.idxOf a < fn.canonicalOrder.idxOf b := by
  obtain ⟨l, hl, hlt⟩ := exists_walk_before hb
  exact hlt a (h.mem (hl.mono fun _ _ h => h.edge))

theorem mem_canonicalOrder_lt (hb : b ∈ fn.canonicalOrder) (he : fn.entry < fn.blocks.size) :
    b < fn.blocks.size := by
  rcases exists_owner_before hb with rfl | ⟨o, -, ho, -⟩
  · exact he
  · exact ho.edge.lt

/-- Two functions have the same blocks with the same edges. -/
structure SameShape (fn fn' : Func) : Prop where
  entry : fn'.entry = fn.entry
  size : fn'.blocks.size = fn.blocks.size
  parents : ∀ b, (fn'.block b).parents = (fn.block b).parents
  children : ∀ b, (fn'.block b).children = (fn.block b).children

namespace SameShape

variable {fn' fn'' : Func}

variable (h : fn.SameShape fn')
include h

theorem trans (k : fn'.SameShape fn'') : fn.SameShape fn'' :=
  ⟨k.entry.trans h.entry, k.size.trans h.size, fun b => (k.parents b).trans (h.parents b),
    fun b => (k.children b).trans (h.children b)⟩

theorem edge : fn'.Edge = fn.Edge := by
  funext a b
  rw [Graph.Edge, Graph.Edge, h.parents]

theorem ownedChildren (b : BlockId) : fn'.ownedChildren b = fn.ownedChildren b := by
  rw [Func.ownedChildren, Func.ownedChildren, h.children]
  refine filter_congr fun c _ => ?_
  rw [decide_eq_decide, Block.owner?, Block.owner?, h.parents]

theorem walkOwned (steps : Nat) (stack seen : List BlockId) :
    fn'.walkOwned steps stack seen = fn.walkOwned steps stack seen := by
  fun_induction Func.walkOwned fn steps stack seen with
  | case1 => rfl
  | case2 => rfl
  | case3 _ _ _ _ hb ih => rw [Func.walkOwned, if_pos hb, ih]
  | case4 _ _ _ _ hb ih => rw [Func.walkOwned, if_neg hb, h.ownedChildren, ih]

theorem canonicalOrder : fn'.canonicalOrder = fn.canonicalOrder := by
  have hcount : fn'.edgeCount = fn.edgeCount := by
    simp only [Graph.edgeCount_eq, Graph.unseen, h.size, h.children]
  rw [Func.canonicalOrder, Func.canonicalOrder, hcount, h.entry, h.walkOwned]

theorem walkChildren (depth : Nat) : fn'.walkChildren depth = fn.walkChildren depth := by
  induction depth with
  | zero => rfl
  | succ depth ih =>
    funext ⟨entered, left⟩ b
    rw [Func.walkChildren, Func.walkChildren, ih, h.children]

theorem postorder : fn'.postorder = fn.postorder := by
  rw [Func.postorder, Func.postorder, h.size, h.entry, h.walkChildren]

end SameShape

/-! ## The postorder -/

section Postorder

variable {depth : Nat} {walk walk' walk'' : List BlockId × List BlockId}

/-- A walk in postorder under way: what was left has been entered, with all of its children. -/
structure Consistent (fn : Func) (walk : List BlockId × List BlockId) : Prop where
  sub : ∀ x ∈ walk.2, x ∈ walk.1
  children : ∀ x ∈ walk.2, ∀ c ∈ (fn.block x).children, c ∈ walk.1
  nodup : walk.2.Nodup

/-- What a part of a walk in postorder does: it leaves all that it enters, and nothing else. -/
structure Visits (fn : Func) (walk walk' : List BlockId × List BlockId) : Prop where
  entered : ∀ x ∈ walk.1, x ∈ walk'.1
  left : ∀ x ∈ walk.2, x ∈ walk'.2
  leaves : ∀ x ∈ walk'.1, x ∈ walk.1 ∨ x ∈ walk'.2
  fresh : ∀ x ∈ walk'.2, x ∈ walk.2 ∨ x ∉ walk.1
  consistent : fn.Consistent walk → fn.Consistent walk'

theorem Visits.refl (fn : Func) (walk : List BlockId × List BlockId) : fn.Visits walk walk :=
  ⟨fun _ => id, fun _ => id, fun _ => .inl, fun _ => .inl, id⟩

theorem Visits.trans (h : fn.Visits walk walk') (k : fn.Visits walk' walk'') :
    fn.Visits walk walk'' where
  entered x hx := k.entered x (h.entered x hx)
  left x hx := k.left x (h.left x hx)
  leaves x hx := by grind [k.leaves x hx, h.leaves x, k.left x]
  fresh x hx := by grind [k.fresh x hx, h.fresh x, h.entered x]
  consistent hc := k.consistent (h.consistent hc)

/-- The number of blocks that have not been entered, which bounds the depth that is needed. -/
def unentered (fn : Func) (entered : List BlockId) : Nat :=
  ((Finset.range fn.blocks.size).filter (· ∉ entered)).card

theorem unentered_mono {l m : List BlockId} (h : ∀ x ∈ l, x ∈ m) :
    fn.unentered m ≤ fn.unentered l := by
  refine Finset.card_le_card fun x hx => ?_
  simp only [Finset.mem_filter] at hx ⊢
  exact ⟨hx.1, fun hl => hx.2 (h x hl)⟩

theorem unentered_cons {l : List BlockId} (hb : b ∉ l) (hs : b < fn.blocks.size) :
    fn.unentered (b :: l) < fn.unentered l := by
  refine Finset.card_lt_card (Finset.ssubset_iff_subset_ne.mpr ⟨fun x hx => ?_, fun h => ?_⟩)
  · simp only [Finset.mem_filter, mem_cons, not_or] at hx ⊢
    exact ⟨hx.1, hx.2.2⟩
  · have hmem : b ∈ (Finset.range fn.blocks.size).filter (· ∉ l) := by simp [hs, hb]
    rw [← h] at hmem
    simp at hmem

/-- Entering a block: it and what the walk had entered before are entered, and it is left at the
end, once all of its children have been entered. -/
theorem Visits.around (h : fn.Visits (b :: walk.1, walk.2) walk') (hb : b ∉ walk.1)
    (hchildren : ∀ c ∈ (fn.block b).children, c ∈ walk'.1) :
    fn.Visits walk (walk'.1, walk'.2 ++ [b]) where
  entered x hx := h.entered x (by simp [hx])
  left x hx := by simp [h.left x hx]
  leaves x hx := by grind [h.leaves x hx]
  fresh x hx := by grind [h.fresh x]
  consistent hc := by
    have hc' := h.consistent
      ⟨fun x hx => by simp [hc.sub x hx], fun x hx c hcx => by simp [hc.children x hx c hcx], hc.nodup⟩
    have hbl : b ∉ walk'.2 := by
      intro hmem
      rcases h.fresh b hmem with hmem | hmem
      · exact hb (hc.sub b hmem)
      · simp at hmem
    refine ⟨forall_mem_append.mpr ⟨hc'.sub, ?_⟩, forall_mem_append.mpr ⟨hc'.children, ?_⟩, ?_⟩
    · simpa using h.entered b (by simp)
    · simpa using hchildren
    · exact concat_eq_append ▸ hc'.nodup.concat hbl

/-- The walk in postorder into those of some blocks that have not been entered, as deep as it
goes. -/
inductive Surveys (fn : Func) :
    List BlockId → List BlockId × List BlockId → List BlockId × List BlockId → Prop
  | done {walk : List BlockId × List BlockId} : Surveys fn [] walk walk
  | skip {b : BlockId} {rest : List BlockId} {walk walk' : List BlockId × List BlockId} :
    b ∈ walk.1 → Surveys fn rest walk walk' → Surveys fn (b :: rest) walk walk'
  | enter {b : BlockId} {rest : List BlockId} {walk inner walk' : List BlockId × List BlockId} :
    b ∉ walk.1 → Surveys fn (fn.block b).children (b :: walk.1, walk.2) inner →
    Surveys fn rest (inner.1, inner.2 ++ [b]) walk' → Surveys fn (b :: rest) walk walk'

theorem Surveys.visits {bs : List BlockId} (h : fn.Surveys bs walk walk') :
    fn.Visits walk walk' ∧ ∀ b ∈ bs, b ∈ walk'.1 := by
  induction h with
  | done => exact ⟨.refl fn _, by simp⟩
  | skip hb _ ih => exact ⟨ih.1, forall_mem_cons.mpr ⟨ih.1.entered _ hb, ih.2⟩⟩
  | enter hb _ _ ihinner ih =>
    refine ⟨(ihinner.1.around hb ihinner.2).trans ih.1, forall_mem_cons.mpr ⟨?_, ih.2⟩⟩
    exact ih.1.entered _ (ihinner.1.entered _ (by simp))

/-- What the children of a block have with it is had by all blocks that a walk enters or leaves. -/
theorem Surveys.forall {Q : BlockId → Prop} {bs : List BlockId} (h : fn.Surveys bs walk walk')
    (hQ : ∀ x, Q x → ∀ c ∈ (fn.block x).children, Q c) (hbs : ∀ b ∈ bs, Q b)
    (hwalk : ∀ x ∈ walk.2, Q x) : ∀ x ∈ walk'.2, Q x := by
  induction h with
  | done => exact hwalk
  | skip _ _ ih => exact ih (forall_mem_cons.mp hbs).2 hwalk
  | enter _ _ _ ihinner ih =>
    obtain ⟨hb, hbs⟩ := forall_mem_cons.mp hbs
    refine ih hbs (forall_mem_append.mpr ⟨ihinner (hQ _ hb) hwalk, ?_⟩)
    simpa using hb

theorem surveys_foldl
    (ih : ∀ walk b, b ∉ walk.1 → fn.unentered walk.1 < depth →
      ∃ inner, fn.Surveys (fn.block b).children (b :: walk.1, walk.2) inner ∧
        fn.walkChildren depth walk b = (inner.1, inner.2 ++ [b]))
    (bs : List BlockId) (hdepth : bs = [] ∨ fn.unentered walk.1 < depth) :
    fn.Surveys bs walk (bs.foldl (fun walk c => if c ∈ walk.1 then walk else
      fn.walkChildren depth walk c) walk) := by
  induction bs generalizing walk with
  | nil => exact .done
  | cons b bs ihbs =>
    have hlt : fn.unentered walk.1 < depth := hdepth.resolve_left (by simp)
    rw [foldl_cons]
    by_cases hb : b ∈ walk.1
    · rw [if_pos hb]
      exact .skip hb (ihbs (.inr hlt))
    · obtain ⟨inner, hinner, heq⟩ := ih walk b hb hlt
      rw [if_neg hb, heq]
      refine .enter hb hinner (ihbs (.inr ((unentered_mono fun x hx => ?_).trans_lt hlt)))
      exact hinner.visits.1.entered x (mem_cons_of_mem b hx)

theorem surveys_walkChildren (hdepth : fn.unentered walk.1 < depth) (hb : b ∉ walk.1) :
    ∃ inner, fn.Surveys (fn.block b).children (b :: walk.1, walk.2) inner ∧
      fn.walkChildren depth walk b = (inner.1, inner.2 ++ [b]) := by
  induction depth generalizing walk b with
  | zero => omega
  | succ depth ih =>
    obtain ⟨entered, left⟩ := walk
    have hd : (fn.block b).children = [] ∨ fn.unentered (b :: entered) < depth := by
      by_cases hs : b < fn.blocks.size
      · have hlt : fn.unentered (b :: entered) < fn.unentered entered := unentered_cons hb hs
        have hdepth : fn.unentered entered < depth + 1 := hdepth
        exact .inr (by omega)
      · exact .inl (by rw [Graph.block_of_size_le (Nat.not_lt.mp hs)])
    have hd' : (fn.block b).children = [] ∨
        fn.unentered ((b :: entered, left) : List BlockId × List BlockId).1 < depth := hd
    exact ⟨_, surveys_foldl (fun _ _ hc hlt => ih hlt hc) _ hd', rfl⟩

theorem surveys_postorder (fn : Func) :
    ∃ entered, fn.Surveys [fn.entry] ([], []) (entered, fn.postorder) := by
  have hdepth : fn.unentered (([], []) : List BlockId × List BlockId).1 < fn.blocks.size + 1 :=
    Nat.lt_succ_of_le ((Finset.card_filter_le _ _).trans (by simp))
  obtain ⟨inner, hinner, heq⟩ := surveys_walkChildren (b := fn.entry) hdepth (by simp)
  refine ⟨inner.1, ?_⟩
  rw [postorder, heq]
  exact .enter (by simp) hinner .done

theorem nodup_postorder (fn : Func) : fn.postorder.Nodup := by
  obtain ⟨entered, h⟩ := fn.surveys_postorder
  exact (h.visits.1.consistent ⟨by simp, by simp, nodup_nil⟩).nodup

theorem entry_mem_postorder (fn : Func) : fn.entry ∈ fn.postorder := by
  obtain ⟨entered, h⟩ := fn.surveys_postorder
  exact (h.visits.1.leaves _ (h.visits.2 _ (by simp))).resolve_left (by simp)

theorem children_mem_postorder (ha : a ∈ fn.postorder) (hc : c ∈ (fn.block a).children) :
    c ∈ fn.postorder := by
  obtain ⟨entered, h⟩ := fn.surveys_postorder
  have hcons := h.visits.1.consistent ⟨by simp, by simp, nodup_nil⟩
  exact (h.visits.1.leaves _ (hcons.children a ha c hc)).resolve_left (by simp)

theorem postorder_forall {Q : BlockId → Prop}
    (hQ : ∀ x, Q x → ∀ c ∈ (fn.block x).children, Q c) (he : Q fn.entry) :
    ∀ x ∈ fn.postorder, Q x := by
  obtain ⟨entered, h⟩ := fn.surveys_postorder
  exact h.forall hQ (by simpa using he) (by simp)

/-- The postorder lists the blocks that a walk along children connects with the entry. -/
theorem mem_postorder : b ∈ fn.postorder ↔ Reachable fn.Child fn.entry b := by
  constructor
  · exact postorder_forall (Q := Reachable fn.Child fn.entry) (fun x hx c hc => hx.step hc)
      (.refl _ _) b
  · rintro ⟨l, hl⟩
    have key : ∀ a c l, Walk fn.Child a c l → a ∈ fn.postorder → c ∈ fn.postorder := by
      intro a c l hl
      induction hl with
      | nil => exact id
      | cons hr _ ih => exact fun ha => ih (children_mem_postorder ha hr)
    exact key _ _ _ hl (entry_mem_postorder fn)

/-- The postorder lists the blocks of the canonical order, among others. -/
theorem mem_postorder_of_mem_canonicalOrder (hb : b ∈ fn.canonicalOrder) : b ∈ fn.postorder := by
  obtain ⟨l, hl⟩ := mem_canonicalOrder.mp hb
  exact mem_postorder.mpr ⟨l, hl.mono fun _ _ h => (owns_iff.mp h).1⟩

end Postorder

end SsaBlocks.Func
