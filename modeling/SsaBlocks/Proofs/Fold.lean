import Mathlib.Data.List.Forall2

/-!
# Steps that may fail, and folds

A sequence of two steps succeeds if the first does and the second does after it. What holds of the
elements that have been passed and the state, step by step, holds at the end of a fold, and a fold
fails only as one of its steps can.
-/

namespace SsaBlocks

open List

variable {α β σ ε : Type}

theorem ok_bind (a : α) (f : α → Except ε β) : Except.ok a >>= f = f a := rfl

theorem bind_eq_ok {x : Except ε α} {f : α → Except ε β} {b : β} :
    x >>= f = .ok b ↔ ∃ a, x = .ok a ∧ f a = .ok b := by
  cases x with
  | error e =>
    constructor
    · intro h
      cases h
    · rintro ⟨a, h, -⟩
      cases h
  | ok a =>
    constructor
    · exact fun h => ⟨a, rfl, h⟩
    · rintro ⟨a', h, hf⟩
      obtain rfl := Except.ok.inj h
      exact hf

theorem toOption_eq_some {x : Except ε α} {a : α} :
    x.toOption = some a ↔ x = .ok a := by
  cases x with
  | ok b => simp [Except.toOption]
  | error e => simp [Except.toOption]

theorem mapM_eq_ok {f : α → Except ε β} {l : List α} {r : List β} :
    l.mapM f = .ok r ↔ List.Forall₂ (fun a b => f a = .ok b) l r := by
  induction l generalizing r with
  | nil =>
    rw [forall₂_nil_left_iff]
    exact ⟨fun h => (Except.ok.inj h).symm, fun h => h ▸ rfl⟩
  | cons a l ih =>
    simp only [mapM_cons, bind_eq_ok, ih, forall₂_cons_left_iff]
    constructor
    · rintro ⟨b, hb, rest, hrest, h⟩
      exact ⟨b, rest, hb, hrest, (Except.ok.inj h).symm⟩
    · rintro ⟨b, rest, hb, hrest, rfl⟩
      exact ⟨b, hb, rest, hrest, rfl⟩

theorem mapM_eq_map {f : α → Except ε β} {g : α → β} {l : List α}
    (h : ∀ a ∈ l, f a = .ok (g a)) : l.mapM f = .ok (l.map g) :=
  mapM_eq_ok.mpr (forall₂_map_right_iff.mpr (forall₂_same.mpr h))

theorem forall_of_mapM_eq_ok {f : α → Except ε β} {l : List α} {r : List β}
    (h : l.mapM f = .ok r) : ∀ a ∈ l, ∃ b, f a = .ok b := by
  induction mapM_eq_ok.mp h with
  | nil => simp
  | cons hab hrest ih => exact forall_mem_cons.mpr ⟨⟨_, hab⟩, ih (mapM_eq_ok.mpr hrest)⟩

theorem foldl_invariant {f : σ → α → σ} (P : List α → σ → Prop) {l : List α} {s : σ}
    (start : P [] s) (step : ∀ m a n s, l = m ++ a :: n → P m s → P (m ++ [a]) (f s a)) :
    P l (l.foldl f s) := by
  suffices h : ∀ n m s, l = m ++ n → P m s → P l (n.foldl f s) from h l [] s rfl start
  intro n
  induction n with
  | nil => exact fun m s hl hs => by simpa [hl] using hs
  | cons a n ih =>
    intro m s hl hs
    exact ih (m ++ [a]) (f s a) (by simpa using hl) (step m a n s hl hs)

/-! ## How steps end -/

/-- A step fails as `F` allows, or succeeds with a result that satisfies `P`. -/
def Ends (F : ε → Prop) (P : α → Prop) : Except ε α → Prop
  | .ok a => P a
  | .error e => F e

namespace Ends

variable {F F' : ε → Prop} {P P' : α → Prop} {Q : β → Prop} {x : Except ε α}

theorem imp (h : Ends F P x) (hF : ∀ e, F e → F' e) (hP : ∀ a, P a → P' a) : Ends F' P' x := by
  cases x with
  | ok a => exact hP a h
  | error e => exact hF e h

theorem mono (h : Ends F P x) (hP : ∀ a, P a → P' a) : Ends F P' x :=
  h.imp (fun _ => id) hP

theorem cases (h : Ends F P x) : (∃ e, x = .error e ∧ F e) ∨ ∃ a, x = .ok a ∧ P a := by
  cases x with
  | ok a => exact .inr ⟨a, rfl, h⟩
  | error e => exact .inl ⟨e, rfl, h⟩

theorem of_eq_ok {a : α} (h : Ends F P x) (ha : x = .ok a) : P a := by
  rwa [ha] at h

theorem of_eq_error {e : ε} (h : Ends F P x) (he : x = .error e) : F e := by
  rwa [he] at h

theorem bind {f : α → Except ε β} (h : Ends F P x) (hf : ∀ a, P a → Ends F Q (f a)) :
    Ends F Q (x >>= f) := by
  cases x with
  | ok a => exact hf a h
  | error e => exact h

theorem foldlM {f : σ → α → Except ε σ} (P : List α → σ → Prop) {l : List α} {s : σ}
    (start : P [] s)
    (step : ∀ m a n s, l = m ++ a :: n → P m s → Ends F (P (m ++ [a])) (f s a)) :
    Ends F (P l) (l.foldlM f s) := by
  suffices h : ∀ n m s, l = m ++ n → P m s → Ends F (P l) (n.foldlM f s) from
    h l [] s rfl start
  intro n
  induction n with
  | nil => exact fun m s hl hs => show P l s by simpa [hl] using hs
  | cons a n ih =>
    intro m s hl hs
    rw [foldlM_cons]
    exact (step m a n s hl hs).bind fun s' hs' => ih (m ++ [a]) s' (by simpa using hl) hs'

/-- What each step keeps, the fold keeps. -/
theorem foldlM_of_forall {f : σ → α → Except ε σ} {P : σ → Prop} {l : List α} {s : σ} (hs : P s)
    (hstep : ∀ a ∈ l, ∀ s, P s → Ends F P (f s a)) : Ends F P (l.foldlM f s) :=
  foldlM (fun _ => P) hs fun _ a _ s hl => hstep a (by simp [hl]) s

theorem mapM {f : α → Except ε β} {R : α → β → Prop} {l : List α}
    (h : ∀ a ∈ l, Ends F (R a) (f a)) : Ends F (List.Forall₂ R l) (l.mapM f) := by
  induction l with
  | nil => exact .nil
  | cons a l ih =>
    rw [mapM_cons]
    refine (h a (mem_cons_self ..)).bind fun b hb => ?_
    exact (ih fun c hc => h c (mem_cons_of_mem a hc)).bind fun bs hbs => .cons hb hbs

end Ends

theorem exists_of_mapM_eq_error {f : α → Except ε β} {l : List α} {e : ε}
    (h : l.mapM f = .error e) : ∃ a ∈ l, f a = .error e := by
  refine Ends.of_eq_error (F := fun e => ∃ a ∈ l, f a = .error e)
    (.mapM (R := fun _ _ => True) fun a ha => ?_) h
  cases hfa : f a with
  | ok b => trivial
  | error e => exact ⟨a, ha, hfa⟩

theorem exists_foldlM {f : σ → α → Except ε σ} (P : List α → σ → Prop) {l : List α} {s : σ}
    (start : P [] s)
    (step : ∀ m a n s, l = m ++ a :: n → P m s → ∃ s', f s a = .ok s' ∧ P (m ++ [a]) s') :
    ∃ s', l.foldlM f s = .ok s' ∧ P l s' := by
  have hends : Ends (fun _ => False) (P l) (l.foldlM f s) := by
    refine .foldlM P start fun m a n s hl hs => ?_
    obtain ⟨s', hs', hP⟩ := step m a n s hl hs
    rwa [hs']
  exact hends.cases.resolve_left fun ⟨_, _, hF⟩ => hF

theorem foldlM_invariant {f : σ → α → Except ε σ} (P : List α → σ → Prop) {l : List α} {s s' : σ}
    (h : l.foldlM f s = .ok s') (start : P [] s)
    (step : ∀ m a n s s', l = m ++ a :: n → P m s → f s a = .ok s' → P (m ++ [a]) s') :
    P l s' := by
  refine Ends.of_eq_ok (F := fun _ => True) (.foldlM P start fun m a n s hl hs => ?_) h
  cases hfa : f s a with
  | ok s' => exact step m a n s s' hl hs hfa
  | error e => trivial

theorem foldlM_hom {τ : Type} (φ : σ → τ) {f : σ → α → Except ε σ} {f' : τ → α → Except ε τ}
    (h : ∀ s a, f' (φ s) a = (f s a).map φ) (l : List α) (s : σ) :
    l.foldlM f' (φ s) = (l.foldlM f s).map φ := by
  induction l generalizing s with
  | nil => rfl
  | cons a l ih =>
    rw [foldlM_cons, foldlM_cons, h]
    cases f s a with
    | error e => rfl
    | ok s => exact ih s

theorem bind_eq_map_bind {β' : Type} {ψ : β → β'} {x : Except ε α} {k : α → Except ε β}
    {k' : α → Except ε β'} (h : ∀ a, k' a = (k a).map ψ) : (x >>= k') = (x >>= k).map ψ := by
  cases x with
  | error e => rfl
  | ok a => exact h a

theorem map_bind_hom {α' β' : Type} (φ : α → α') (ψ : β → β') {x : Except ε α}
    {k : α → Except ε β} {k' : α' → Except ε β'} (h : ∀ a, k' (φ a) = (k a).map ψ) :
    (x.map φ >>= k') = (x >>= k).map ψ := by
  cases x with
  | error e => rfl
  | ok a => exact h a

/-- The parts of a list before and after a place. -/
theorem drop_eq_cons {l rest : List α} {n : Nat} {a : α} (h : l.drop n = a :: rest) :
    l[n]? = some a ∧ n < l.length ∧ l.drop (n + 1) = rest ∧ l.take (n + 1) = l.take n ++ [a] := by
  have hget : l[n]? = some a := by
    rw [← head?_drop, h]
    rfl
  refine ⟨hget, (List.getElem?_eq_some_iff.mp hget).1, ?_, ?_⟩
  · rw [← List.tail_drop, h]
    rfl
  · rw [take_add_one, hget]
    rfl

end SsaBlocks
