import SsaBlocks.Proofs.Flow.Walk

/-!
# Dominance

A node dominates another if every walk from the entry to the other meets it. The strict dominators
of a node that can be reached form a chain; the last of them is its immediate dominator.

The *frontier* of a node holds the nodes where its dominance ends. Let `D` be a set of nodes that
has, with each of its members, a marked node at every place of its frontier. Then a node without a
mark is reached from one member of `D` only, if the walks are not to meet other members on their
way, and this member dominates it. That is why phi nodes need to be placed nowhere else.
-/

namespace SsaBlocks.Flow

open List

variable {α : Type} (r : α → α → Prop) (e : α)

/-- Every walk from the entry to `b` meets `a`. -/
def Dominates (a b : α) : Prop :=
  ∀ l, Walk r e b l → a ∈ l ∨ a = b

/-- Every walk from the entry to `b` meets `a` before. -/
def StrictlyDominates (a b : α) : Prop :=
  Dominates r e a b ∧ a ≠ b

/-- The strict dominator of `b` that all of its strict dominators dominate. -/
def ImmediatelyDominates (a b : α) : Prop :=
  StrictlyDominates r e a b ∧ ∀ c, StrictlyDominates r e c b → Dominates r e c a

variable {r e} {a b c d p x y : α} {l m : List α}

namespace Dominates

theorem refl (b : α) : Dominates r e b b :=
  fun _ _ => .inr rfl

theorem trans (hab : Dominates r e a b) (hbc : Dominates r e b c) : Dominates r e a c := by
  intro l hl
  rcases hbc l hl with hb | rfl
  · obtain ⟨m, n, rfl⟩ := append_of_mem hb
    rcases hab m hl.split.1 with ha | rfl
    · exact .inl (mem_append_left _ ha)
    · exact .inl hb
  · exact hab l hl

theorem entry (b : α) : Dominates r e e b := by
  intro l hl
  cases hl with
  | nil => exact .inr rfl
  | cons => exact .inl (by simp)

theorem reachable (h : Dominates r e a b) (hb : Reachable r e b) : Reachable r e a := by
  obtain ⟨l, hl⟩ := hb
  rcases h l hl with ha | rfl
  · exact hl.reachable_of_mem ha
  · exact ⟨l, hl⟩

/-- Two nodes that dominate each other are one. -/
theorem antisymm (hab : Dominates r e a b) (hba : Dominates r e b a) (hb : Reachable r e b) :
    a = b := by
  obtain ⟨l, hl⟩ := hb
  -- a walk to `b` has a shorter one to `a` in front, which has a shorter one to `b` in front
  induction hn : l.length using Nat.strongRecOn generalizing l with
  | ind n ih =>
    rcases hab l hl with ha | rfl
    · obtain ⟨m, k, rfl⟩ := append_of_mem ha
      rcases hba m hl.split.1 with hb | rfl
      · obtain ⟨m', k', rfl⟩ := append_of_mem hb
        exact ih m'.length (by simp at hn; omega) m' hl.split.1.split.1 rfl
      · rfl
    · rfl

/-- A walk that ends in `a` without meeting `b`. -/
theorem exists_walk_avoiding (h : ¬ Dominates r e b a) :
    ∃ l, Walk r e a l ∧ b ∉ l ∧ b ≠ a := by
  simp only [Dominates, not_forall, not_or] at h
  obtain ⟨l, hl, hb, hne⟩ := h
  exact ⟨l, hl, hb, hne⟩

/-- The dominators of a node that can be reached form a chain. -/
theorem total (ha : Dominates r e a c) (hb : Dominates r e b c) (hc : Reachable r e c) :
    Dominates r e a b ∨ Dominates r e b a := by
  by_contra hn
  rw [not_or] at hn
  obtain ⟨l, hl⟩ := hc
  -- neither is `c`, so that both are met before; one of them is met last
  have hac : a ≠ c := fun h => hn.2 (h ▸ hb)
  have hbc : b ≠ c := fun h => hn.1 (h ▸ ha)
  have ha' : a ∈ l := (ha l hl).resolve_right hac
  obtain ⟨m, x, n, rfl, hx, hlast⟩ := exists_last (P := fun z => z = a ∨ z = b) ⟨a, ha', .inl rfl⟩
  simp only [not_or] at hlast
  -- the other one can be avoided on the way to it, and is not met after it
  have havoid : ∀ y, Dominates r e y c → ¬ Dominates r e y x → y ≠ c → y ∈ n := by
    intro y hy hyx hyc
    obtain ⟨k, hk, hyk, hne⟩ := exists_walk_avoiding hyx
    have hmem := (hy _ (hk.append hl.split.2)).resolve_right hyc
    simpa [hyk, hne] using hmem
  rcases hx with rfl | rfl
  · exact (hlast b (havoid b hb hn.2 hbc)).2 rfl
  · exact (hlast a (havoid a ha hn.1 hac)).1 rfl

/-- What dominates all nodes before `c` dominates `c`. -/
theorem of_forall_pred (hc : c ≠ e) (h : ∀ p, r p c → Dominates r e a p) : Dominates r e a c := by
  intro l hl
  rcases hl.eq_nil_or_snoc with ⟨-, rfl⟩ | ⟨m, p, rfl, hm, hp⟩
  · exact absurd rfl hc
  · rcases h p hp m hm with ha | rfl
    · exact .inl (mem_append_left _ ha)
    · exact .inl (by simp)

end Dominates

namespace StrictlyDominates

/-- A strict dominator dominates the nodes before. -/
theorem pred (h : StrictlyDominates r e a c) (hp : r p c) : Dominates r e a p := by
  intro l hl
  rcases h.1 _ (hl.snoc hp) with ha | ha
  · rcases mem_append.mp ha with ha | ha
    · exact .inl ha
    · exact .inr (mem_singleton.mp ha)
  · exact absurd ha h.2

theorem not_dominates (h : StrictlyDominates r e a b) (hb : Reachable r e b) :
    ¬ Dominates r e b a :=
  fun hba => h.2 (h.1.antisymm hba hb)

theorem trans_left (hab : Dominates r e a b) (hbc : StrictlyDominates r e b c)
    (hc : Reachable r e c) : StrictlyDominates r e a c := by
  refine ⟨hab.trans hbc.1, ?_⟩
  rintro rfl
  exact hbc.not_dominates hc hab

theorem mem (h : StrictlyDominates r e a b) (hl : Walk r e b l) : a ∈ l :=
  (h.1 l hl).resolve_right h.2

theorem ne_entry (h : StrictlyDominates r e a b) : b ≠ e := by
  rintro rfl
  have := h.mem (.nil b)
  simp at this

end StrictlyDominates

/-- Every node that can be reached, but the entry, has an immediate dominator. -/
theorem exists_immediatelyDominates (hb : Reachable r e b) (hne : b ≠ e) :
    ∃ d, ImmediatelyDominates r e d b := by
  obtain ⟨l, hl⟩ := hb
  have he : StrictlyDominates r e e b := ⟨.entry b, hne.symm⟩
  -- the strict dominator that the walk meets last
  obtain ⟨m, d, n, rfl, hd, hlast⟩ :=
    exists_last (P := fun z => StrictlyDominates r e z b) ⟨e, he.mem hl, he⟩
  refine ⟨d, hd, fun c hc => ?_⟩
  by_contra hcd
  obtain ⟨k, hk, hck, hne'⟩ := Dominates.exists_walk_avoiding hcd
  have hmem := hc.mem (hk.append hl.split.2)
  rcases mem_append.mp hmem with h | h
  · exact hck h
  · rcases mem_cons.mp h with h | h
    · exact hne' h
    · exact hlast c h hc

namespace ImmediatelyDominates

theorem unique (h : ImmediatelyDominates r e a c) (k : ImmediatelyDominates r e b c)
    (hc : Reachable r e c) : a = b :=
  (k.2 a h.1).antisymm (h.2 b k.1) (k.1.1.reachable hc)

/-- The dominators of a node are itself and those of its immediate dominator. -/
theorem dominates_iff (h : ImmediatelyDominates r e d b) :
    Dominates r e a b ↔ a = b ∨ Dominates r e a d := by
  constructor
  · intro ha
    by_cases hab : a = b
    · exact .inl hab
    · exact .inr (h.2 a ⟨ha, hab⟩)
  · rintro (rfl | ha)
    · exact .refl a
    · exact ha.trans h.1.1

theorem strictlyDominates_iff (h : ImmediatelyDominates r e d b) (hb : Reachable r e b) :
    StrictlyDominates r e a b ↔ Dominates r e a d :=
  ⟨h.2 a, fun ha => .trans_left ha h.1 hb⟩

end ImmediatelyDominates

/-! ## Frontiers -/

variable (r e) in
/-- The dominance of `x` ends at `y`: it dominates a node before `y`, but not `y` from before. -/
def InFrontier (x y : α) : Prop :=
  (∃ p, r p y ∧ Dominates r e x p) ∧ ¬ StrictlyDominates r e x y

/-- A node that has one node before it at most is in no frontier, if there is none before the
entry. -/
theorem not_inFrontier_of_sole (he : ∀ q, ¬ r q e) (hb : Reachable r e b)
    (hsole : ∀ q, r q b → q = p) : ¬ InFrontier r e x b := by
  rintro ⟨⟨q, hq, hxq⟩, hnot⟩
  obtain rfl := hsole q hq
  have hne : b ≠ e := by
    rintro rfl
    exact he q hq
  have hxb : Dominates r e x b := .of_forall_pred hne fun c hc => hsole c hc ▸ hxq
  have hqb : Dominates r e q b := .of_forall_pred hne fun c hc => hsole c hc ▸ .refl _
  refine hnot ⟨hxb, ?_⟩
  rintro rfl
  -- the only node before it would be the node itself
  obtain rfl : x = q := hxq.antisymm hqb (hqb.reachable hb)
  obtain ⟨l, hl⟩ := hb
  have hall := hl.of_end (P := (· = x)) rfl fun c d hcd hd => hsole c (hd ▸ hcd)
  exact hne hall.1.symm

variable (r e) in
/-- The members of `D` have marks all over their frontiers, and marked nodes are members. -/
structure Settled (D P : α → Prop) : Prop where
  sub : ∀ x, P x → D x
  frontier : ∀ x y, D x → InFrontier r e x y → P y

variable (r) in
/-- Some walk to `b` meets `D` for the last time in `x`, before it ends. -/
def LastAt (D : α → Prop) (x b : α) : Prop :=
  D x ∧ ∃ l, Walk r x b (x :: l) ∧ ∀ y ∈ l, ¬ D y

variable (r) in
/-- Some walk to `b` meets `D` for the last time in `x`, which may be `b` itself. -/
def LastBy (D : α → Prop) (x b : α) : Prop :=
  D b ∧ x = b ∨ ¬ D b ∧ LastAt r D x b

variable {D P : α → Prop}

theorem LastAt.step (h : LastAt r D x b) (hb : ¬ D b) (k : r b c) : LastAt r D x c := by
  obtain ⟨hx, l, hl, hD⟩ := h
  refine ⟨hx, l ++ [b], hl.snoc k, fun y hy => ?_⟩
  rcases mem_append.mp hy with hy | hy
  · exact hD y hy
  · rw [mem_singleton.mp hy]
    exact hb

theorem LastAt.of_step (hx : D x) (k : r x b) : LastAt r D x b :=
  ⟨hx, [], .single k, by simp⟩

theorem lastAt_iff : LastAt r D x b ↔ ∃ p, r p b ∧ LastBy r D x p := by
  constructor
  · rintro ⟨hx, l, hl, hlast⟩
    rcases hl.eq_nil_or_snoc with ⟨h, -⟩ | ⟨m, p, hsplit, hm, hp⟩
    · cases h
    · refine ⟨p, hp, ?_⟩
      cases m with
      | nil =>
        cases hm
        exact .inl ⟨hx, rfl⟩
      | cons y m =>
        obtain ⟨rfl, rfl⟩ := cons.inj hsplit
        exact .inr ⟨hlast p (by simp), hx, m, hm, fun z hz => hlast z (mem_append_left _ hz)⟩
  · rintro ⟨p, hp, ⟨hD, rfl⟩ | ⟨hD, hlast⟩⟩
    · exact .of_step hD hp
    · exact hlast.step hD hp

theorem LastBy.mem (h : LastBy r D x b) : D x := by
  rcases h with ⟨hb, rfl⟩ | ⟨-, h⟩
  · exact hb
  · exact h.1

/-- Going back from `b` leads to `x`. -/
theorem LastBy.reachable (h : LastBy r D x b) : Reachable r x b := by
  rcases h with ⟨-, rfl⟩ | ⟨-, -, l, hl, -⟩
  · exact .refl r x
  · exact ⟨_, hl⟩

theorem exists_lastAt (hl : Walk r e b l) (h : ∃ x ∈ l, D x) : ∃ x, LastAt r D x b := by
  obtain ⟨m, x, n, rfl, hx, hn⟩ := exists_last h
  exact ⟨x, hx, n, hl.split.2, hn⟩

namespace Settled

/-- Dominance goes along a walk that meets neither a member of `D` nor a mark at its end. -/
theorem strictlyDominates_of_walk (h : Settled r e D P) (hx : D x) (hl : Walk r a b (a :: l))
    (ha : Dominates r e x a) (hD : ∀ y ∈ l, ¬ D y) (hb : ¬ P b) : StrictlyDominates r e x b := by
  induction l generalizing a with
  | nil =>
    cases hl with
    | cons hr hl =>
      cases hl with
      | nil =>
        by_contra hn
        exact hb (h.frontier x b hx ⟨⟨a, hr, ha⟩, hn⟩)
  | cons z l ih =>
    cases hl with
    | cons hr hl =>
      obtain rfl := hl.head_eq
      have hz : StrictlyDominates r e x z := by
        by_contra hn
        exact hD z (by simp) (h.sub z (h.frontier x z hx ⟨⟨a, hr, ha⟩, hn⟩))
      exact ih hl hz.1 fun y hy => hD y (mem_cons_of_mem _ hy)

/-- A member of `D` that is last on a walk to an unmarked node strictly dominates it. -/
theorem strictlyDominates (h : Settled r e D P) (hx : LastAt r D x b) (hb : ¬ P b) :
    StrictlyDominates r e x b := by
  obtain ⟨hD, l, hl, hlast⟩ := hx
  exact h.strictlyDominates_of_walk hD hl (.refl x) hlast hb

theorem eq_of_dominates (h : Settled r e D P) (hx : LastAt r D x b) (hy : LastAt r D y b)
    (hb : ¬ P b) (hr : Reachable r e b) (hxy : Dominates r e x y) : x = y := by
  by_contra hne
  have hyb := h.strictlyDominates hy hb
  have hxb := h.strictlyDominates hx hb
  have hyx : ¬ Dominates r e y x := fun k => hne (hxy.antisymm k (hyb.1.reachable hr))
  -- enter `x` without `y`, and go on along the walk from `x`, which does not meet `y` either
  obtain ⟨k, hk, hyk, hyx'⟩ := Dominates.exists_walk_avoiding hyx
  obtain ⟨-, l, hl, hlast⟩ := hx
  have hmem := hyb.mem (hk.append hl)
  rcases mem_append.mp hmem with h' | h'
  · exact hyk h'
  · rcases mem_cons.mp h' with h' | h'
    · exact hyx' h'
    · exact hlast y h' hy.1

/-- There is one such member only. -/
theorem unique (h : Settled r e D P) (hx : LastAt r D x b) (hy : LastAt r D y b) (hb : ¬ P b)
    (hr : Reachable r e b) : x = y := by
  have hxb := h.strictlyDominates hx hb
  have hyb := h.strictlyDominates hy hb
  rcases hxb.1.total hyb.1 hr with hxy | hyx
  · exact h.eq_of_dominates hx hy hb hr hxy
  · exact (h.eq_of_dominates hy hx hb hr hyx).symm

end Settled

end SsaBlocks.Flow
