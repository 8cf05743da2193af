import SsaBlocks.Proofs.Flow.Dominance

/-!
# Nodes that all walks pass

Dominance speaks of one node that every walk to another meets. Here it is any node with a property:
a variable is known in a block if every walk to the block passes one that declares it. While a graph
grows, such facts have to survive new edges. They do if the new edge leads back to a node that
dominates its source, or to a node that leads nowhere.
-/

namespace SsaBlocks.Flow

variable {α : Type} {r r' : α → α → Prop} {e a b p s t : α} {P Q : α → Prop} {l : List α}

/-- Every walk from the entry to `b` meets a node with a property, which may be `b`. -/
def Passes (r : α → α → Prop) (e : α) (P : α → Prop) (b : α) : Prop :=
  ∀ l, Walk r e b l → (∃ x ∈ l, P x) ∨ P b

theorem dominates_iff_passes : Dominates r e a b ↔ Passes r e (· = a) b := by
  constructor
  · intro h l hl
    rcases h l hl with ha | ha
    · exact .inl ⟨a, ha, rfl⟩
    · exact .inr ha.symm
  · intro h l hl
    rcases h l hl with ⟨x, hx, rfl⟩ | hb
    · exact .inl hx
    · exact .inr hb.symm

namespace Passes

theorem self (h : P b) : Passes r e P b :=
  fun _ _ => .inr h

theorem mono (h : Passes r e P b) (hPQ : ∀ x, P x → Q x) : Passes r e Q b := by
  intro l hl
  rcases h l hl with ⟨x, hx, hP⟩ | hP
  · exact .inl ⟨x, hx, hPQ x hP⟩
  · exact .inr (hPQ b hP)

theorem pred (h : Passes r e P b) (hb : ¬ P b) (hp : r p b) : Passes r e P p := by
  intro l hl
  rcases h _ (hl.snoc hp) with ⟨x, hx, hP⟩ | hP
  · rcases List.mem_append.mp hx with hx | hx
    · exact .inl ⟨x, hx, hP⟩
    · rw [List.mem_singleton.mp hx] at hP
      exact .inr hP
  · exact absurd hP hb

theorem of_preds (hb : b ≠ e) (h : ∀ p, r p b → Passes r e P p) : Passes r e P b := by
  intro l hl
  rcases hl.eq_nil_or_snoc with ⟨-, rfl⟩ | ⟨m, p, rfl, hm, hp⟩
  · exact absurd rfl hb
  · rcases h p hp m hm with ⟨x, hx, hP⟩ | hP
    · exact .inl ⟨x, List.mem_append_left _ hx, hP⟩
    · exact .inl ⟨p, by simp, hP⟩

theorem of_dominates (h : Passes r e P a) (hab : Dominates r e a b) : Passes r e P b := by
  intro l hl
  rcases hab l hl with ha | rfl
  · obtain ⟨m, n, rfl⟩ := List.append_of_mem ha
    rcases h m hl.split.1 with ⟨x, hx, hP⟩ | hP
    · exact .inl ⟨x, List.mem_append_left _ hx, hP⟩
    · exact .inl ⟨a, ha, hP⟩
  · exact h l hl

/-- The walks to a node do not change if the nodes before it keep their predecessors. -/
theorem of_closed {S : α → Prop} (hS : ∀ x y, S y → r' x y → r x y ∧ S x) (hb : S b)
    (h : Passes r e P b) : Passes r' e P b := by
  intro l hl
  have hwalk : ∀ {c m}, Walk r' c b m → Walk r c b m ∧ S c := by
    intro c m hm
    induction hm with
    | nil => exact ⟨.nil _, hb⟩
    | cons hr _ ih =>
      obtain ⟨hw, hs⟩ := ih hb h hl
      obtain ⟨hr, hs'⟩ := hS _ _ hs hr
      exact ⟨.cons hr hw, hs'⟩
  exact h l (hwalk hl).1

/-- An edge is added whose target passes no node that its source does not pass. -/
theorem of_added (hr : ∀ x y, r' x y → r x y ∨ x = s ∧ y = t)
    (hst : Passes r e P t → ¬ P t → Passes r e P s) (h : Passes r e P b) : Passes r' e P b := by
  intro l
  -- the induction is on the walk, from its end
  induction hn : l.length generalizing b l with
  | zero =>
    intro hl
    obtain rfl := List.eq_nil_of_length_eq_zero hn
    cases hl
    exact .inr ((h [] (.nil _)).resolve_left (by simp))
  | succ n ih =>
    intro hl
    rcases hl.eq_nil_or_snoc with ⟨rfl, -⟩ | ⟨m, p, rfl, hm, hp⟩
    · simp at hn
    · by_cases hb : P b
      · exact .inr hb
      · have hp : Passes r e P p := by
          rcases hr p b hp with hp | ⟨rfl, rfl⟩
          · exact h.pred hb hp
          · exact hst h hb
        rcases ih hp m (by simpa using hn) hm with ⟨x, hx, hP⟩ | hP
        · exact .inl ⟨x, List.mem_append_left _ hx, hP⟩
        · exact .inl ⟨p, by simp, hP⟩

/-- Edges are added to a node that leads nowhere: walks to other nodes do not meet it. -/
theorem of_leaf (hr : ∀ x y, r' x y → r x y ∨ y = t) (ht : ∀ y, ¬ r' t y) (hb : b ≠ t)
    (h : Passes r e P b) : Passes r' e P b := by
  refine h.of_closed (S := (· ≠ t)) (fun x y hy hxy => ⟨(hr x y hxy).resolve_right hy, ?_⟩) hb
  rintro rfl
  exact ht y hxy

end Passes

end SsaBlocks.Flow
