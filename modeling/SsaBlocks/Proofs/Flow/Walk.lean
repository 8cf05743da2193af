import Mathlib.Data.List.Basic
import Mathlib.Tactic.Common

/-!
# Walks

A walk along a relation is recorded by the nodes that it leaves, in order, so that the list does
not hold the node where it ends. Walks that follow one another append their lists, and a node of
the list splits a walk in two.
-/

namespace SsaBlocks.Flow

variable {α : Type} {r : α → α → Prop} {a b c x : α} {l m : List α}

/-- A walk along `r`, with the nodes that it leaves. -/
inductive Walk (r : α → α → Prop) : α → α → List α → Prop
  | nil (a : α) : Walk r a a []
  | cons {a b c : α} {l : List α} : r a b → Walk r b c l → Walk r a c (a :: l)

/-- Whether some walk leads from `a` to `b`. -/
def Reachable (r : α → α → Prop) (a b : α) : Prop :=
  ∃ l, Walk r a b l

namespace Walk

theorem single (h : r a b) : Walk r a b [a] :=
  .cons h (.nil b)

theorem append (h : Walk r a b l) (k : Walk r b c m) : Walk r a c (l ++ m) := by
  induction h with
  | nil => exact k
  | cons hr _ ih => exact .cons hr (ih k)

theorem snoc (h : Walk r a b l) (k : r b c) : Walk r a c (l ++ [b]) :=
  h.append (single k)

theorem head_eq (h : Walk r a b (x :: l)) : x = a := by
  cases h with
  | cons => rfl

theorem split (h : Walk r a b (l ++ x :: m)) : Walk r a x l ∧ Walk r x b (x :: m) := by
  induction l generalizing a with
  | nil =>
    obtain rfl := h.head_eq
    exact ⟨.nil x, h⟩
  | cons y l ih =>
    cases h with
    | cons hr h =>
      obtain ⟨h₁, h₂⟩ := ih h
      exact ⟨.cons hr h₁, h₂⟩

theorem eq_nil_or_snoc (h : Walk r a b l) :
    (l = [] ∧ a = b) ∨ ∃ m p, l = m ++ [p] ∧ Walk r a p m ∧ r p b := by
  induction h with
  | nil => exact .inl ⟨rfl, rfl⟩
  | @cons a b c l hr _ ih =>
    rcases ih with ⟨rfl, rfl⟩ | ⟨m, p, rfl, hm, hp⟩
    · exact .inr ⟨[], a, rfl, .nil a, hr⟩
    · exact .inr ⟨a :: m, p, rfl, .cons hr hm, hp⟩

theorem mono {s : α → α → Prop} (h : Walk r a b l) (hs : ∀ x y, r x y → s x y) : Walk s a b l := by
  induction h with
  | nil => exact .nil _
  | cons hr _ ih => exact .cons (hs _ _ hr) ih

/-- A property that steps carry backward holds all along a walk that ends with it. -/
theorem of_end {P : α → Prop} (h : Walk r a b l) (hb : P b) (hP : ∀ x y, r x y → P y → P x) :
    P a ∧ ∀ x ∈ l, P x := by
  induction h with
  | nil => exact ⟨hb, by simp⟩
  | cons hr _ ih =>
    obtain ⟨h₁, h₂⟩ := ih hb
    have ha := hP _ _ hr h₁
    exact ⟨ha, by simpa using ⟨ha, h₂⟩⟩

end Walk

theorem Reachable.refl (r : α → α → Prop) (a : α) : Reachable r a a :=
  ⟨[], .nil a⟩

theorem Reachable.step (h : Reachable r a b) (k : r b c) : Reachable r a c :=
  h.elim fun _ w => ⟨_, w.snoc k⟩

theorem Reachable.trans (h : Reachable r a b) (k : Reachable r b c) : Reachable r a c := by
  obtain ⟨l, hl⟩ := h
  obtain ⟨m, hm⟩ := k
  exact ⟨_, hl.append hm⟩

theorem Walk.reachable_of_mem (h : Walk r a b l) (hx : x ∈ l) : Reachable r a x := by
  obtain ⟨m, n, rfl⟩ := List.append_of_mem hx
  exact ⟨m, h.split.1⟩

/-- The last member of a list that has a property. -/
theorem exists_last {P : α → Prop} (h : ∃ x ∈ l, P x) :
    ∃ m x n, l = m ++ x :: n ∧ P x ∧ ∀ y ∈ n, ¬ P y := by
  induction l with
  | nil => simp at h
  | cons z l ih =>
    by_cases hl : ∃ x ∈ l, P x
    · obtain ⟨m, x, n, rfl, hx, hn⟩ := ih hl
      exact ⟨z :: m, x, n, rfl, hx, hn⟩
    · obtain ⟨x, hx, hP⟩ := h
      rcases List.mem_cons.mp hx with rfl | hx
      · exact ⟨[], x, l, rfl, hP, fun y hy hPy => hl ⟨y, hy, hPy⟩⟩
      · exact absurd ⟨x, hx, hP⟩ hl

end SsaBlocks.Flow
