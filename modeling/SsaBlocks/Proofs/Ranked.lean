import Mathlib.Data.List.Sort
import Mathlib.Tactic.Common
import SsaBlocks.Ranked

/-!
# Tables and sets kept in order

Tables and sets that are built by insertion stand in order and hold each key once. A table in order
is its function `get?`, and sets of numbers in order are equal if they have the same members.
-/

namespace SsaBlocks

open List

namespace Table

variable {κ ν : Type} [DecidableEq κ] {m : Table κ ν} {k k' : κ} {v : ν}

theorem find?_eq_none {l : List (κ × ν)} : find? k l = none ↔ k ∉ l.map (·.1) := by
  induction l with
  | nil => simp [find?]
  | cons e l ih =>
    by_cases h : e.1 = k
    · simp [find?, h]
    · simp [find?, h, ih, Ne.symm h]

theorem mem_of_find? {l : List (κ × ν)} (h : find? k l = some v) : (k, v) ∈ l := by
  induction l with
  | nil => simp [find?] at h
  | cons e l ih =>
    by_cases hk : e.1 = k
    · simp only [find?, if_pos hk, Option.some.injEq] at h
      simp [← hk, ← h]
    · simp only [find?, if_neg hk] at h
      exact mem_cons_of_mem _ (ih h)

theorem get?_eq_none : m.get? k = none ↔ k ∉ m.keys :=
  find?_eq_none

theorem mem_keys : k ∈ m.keys ↔ ∃ v, m.get? k = some v := by
  rw [← Option.ne_none_iff_exists', Ne, get?_eq_none, not_not]

theorem mem_entries_of_get? (h : m.get? k = some v) : (k, v) ∈ m.entries :=
  mem_of_find? h

theorem isEmpty_iff : m.isEmpty = true ↔ ∀ k, m.get? k = none := by
  rw [isEmpty, List.isEmpty_iff]
  constructor
  · intro h k
    rw [get?_eq_none, keys, h]
    simp
  · intro h
    by_contra hne
    obtain ⟨e, l, he⟩ := exists_cons_of_ne_nil hne
    have := h e.1
    rw [get?_eq_none, keys, he] at this
    simp at this

theorem find?_of_mem {l : List (κ × ν)} (h : (l.map (·.1)).Nodup) (hmem : (k, v) ∈ l) :
    find? k l = some v := by
  induction l with
  | nil => simp at hmem
  | cons d l ih =>
    obtain ⟨hd, hl⟩ := nodup_cons.mp h
    rcases mem_cons.mp hmem with rfl | hmem
    · simp [find?]
    · have hne : d.1 ≠ k := by
        rintro rfl
        exact hd (mem_map.mpr ⟨_, hmem, rfl⟩)
      simp only [find?, if_neg hne]
      exact ih hl hmem

theorem mem_entries_iff (h : m.keys.Nodup) : (k, v) ∈ m.entries ↔ m.get? k = some v :=
  ⟨find?_of_mem h, mem_entries_of_get?⟩

/-- The order of the entries does not matter if each key has one. -/
theorem get?_of_perm {m' : Table κ ν} (h : m.keys.Nodup) (hperm : m'.entries.Perm m.entries)
    (k : κ) : m'.get? k = m.get? k := by
  refine Option.ext fun v => ?_
  rw [← mem_entries_iff ((hperm.map _).nodup_iff.mpr h), ← mem_entries_iff h, hperm.mem_iff]

/-- No two keys share a value. -/
def Injective (m : Table κ ν) : Prop :=
  ∀ k k' v, m.get? k = some v → m.get? k' = some v → k = k'

variable [Ranked κ]

/-- The keys are different and stand in increasing rank. -/
def Ordered (m : Table κ ν) : Prop :=
  m.entries.Pairwise fun a b => a.1 ≠ b.1 ∧ Ranked.rank a.1 ≤ Ranked.rank b.1

omit [DecidableEq κ] in
theorem ordered_empty : (empty : Table κ ν).Ordered :=
  List.Pairwise.nil

theorem mem_place {l : List (κ × ν)} {e : κ × ν} (h : e ∈ place k v l) : e = (k, v) ∨ e ∈ l := by
  induction l with
  | nil => exact .inl (by simpa [place] using h)
  | cons d l ih =>
    unfold place at h
    split at h
    · rcases mem_cons.mp h with h | h
      · exact .inl h
      · exact .inr (mem_cons_of_mem _ h)
    · split at h
      · exact mem_cons.mp h
      · rcases mem_cons.mp h with h | h
        · exact .inr (by simp [h])
        · exact (ih h).imp_right (mem_cons_of_mem _)

theorem isSome_get?_insert {k' : κ} (h : (m.get? k').isSome) : ((m.insert k v).get? k').isSome := by
  rw [get?_insert]
  split
  · rfl
  · exact h

theorem Ordered.insert (h : m.Ordered) (k : κ) (v : ν) : (m.insert k v).Ordered := by
  obtain ⟨l⟩ := m
  simp only [Ordered, Table.insert] at h ⊢
  induction l with
  | nil => simp [place]
  | cons d l ih =>
    obtain ⟨hd, hl⟩ := pairwise_cons.mp h
    unfold place
    split
    · next hk =>
      subst hk
      exact pairwise_cons.mpr ⟨hd, hl⟩
    · split
      · next hk hr =>
        refine pairwise_cons.mpr ⟨fun e he => ?_, h⟩
        rcases mem_cons.mp he with rfl | he
        · exact ⟨Ne.symm hk, hr.le⟩
        · have hlt : Ranked.rank k < Ranked.rank e.1 := hr.trans_le (hd e he).2
          refine ⟨?_, hlt.le⟩
          rintro rfl
          exact lt_irrefl _ hlt
      · next hk hr =>
        refine pairwise_cons.mpr ⟨fun e he => ?_, ih hl⟩
        rcases mem_place he with rfl | he
        · exact ⟨hk, Nat.not_lt.mp hr⟩
        · exact hd e he

theorem Ordered.erase (h : m.Ordered) (k : κ) : (m.erase k).Ordered :=
  List.Pairwise.filter _ h

omit [DecidableEq κ] in
theorem Ordered.nodup_keys (h : m.Ordered) : m.keys.Nodup := by
  rw [keys, nodup_iff_pairwise_ne, pairwise_map]
  exact h.imp fun h => h.1

theorem Ordered.mem_entries (h : m.Ordered) : (k, v) ∈ m.entries ↔ m.get? k = some v :=
  mem_entries_iff h.nodup_keys

end Table

namespace KeySet

variable {s t : KeySet Nat} {k : Nat}

/-- The members stand in increasing order. -/
def Ordered (s : KeySet Nat) : Prop :=
  s.members.Pairwise (· < ·)

theorem ordered_empty : (empty : KeySet Nat).Ordered :=
  List.Pairwise.nil

theorem Ordered.insert (h : s.Ordered) (k : Nat) : (s.insert k).Ordered := by
  obtain ⟨l⟩ := s
  simp only [Ordered, KeySet.insert] at h ⊢
  induction l with
  | nil => simp [place]
  | cons d l ih =>
    obtain ⟨hd, hl⟩ := pairwise_cons.mp h
    unfold place
    split
    · exact h
    · split
      · next hr =>
        refine pairwise_cons.mpr ⟨fun e he => ?_, h⟩
        have hkd : k < d := hr
        rcases mem_cons.mp he with rfl | he
        · exact hkd
        · exact hkd.trans (hd e he)
      · next hk hr =>
        refine pairwise_cons.mpr ⟨fun e he => ?_, ih hl⟩
        have hkd : ¬ k < d := hr
        rcases mem_place.mp he with rfl | he
        · omega
        · exact hd e he

theorem Ordered.inter (h : s.Ordered) (t : KeySet Nat) : (s.inter t).Ordered :=
  List.Pairwise.filter _ h

theorem ordered_foldl_insert (l : List Nat) (h : s.Ordered) : (l.foldl KeySet.insert s).Ordered := by
  induction l generalizing s with
  | nil => exact h
  | cons k l ih => exact ih (h.insert k)

theorem ordered_ofList (l : List Nat) : (ofList l).Ordered :=
  ordered_foldl_insert l ordered_empty

theorem Ordered.nodup (h : s.Ordered) : s.members.Nodup :=
  h.imp fun h => h.ne

/-- Sets in order with the same members are equal. -/
theorem Ordered.ext (hs : s.Ordered) (ht : t.Ordered) (h : ∀ k, k ∈ s ↔ k ∈ t) : s = t := by
  obtain ⟨l⟩ := s
  obtain ⟨m⟩ := t
  have hp : l.Perm m := (perm_ext_iff_of_nodup hs.nodup ht.nodup).mpr h
  congr
  exact hp.eq_of_pairwise (fun a b _ _ h₁ h₂ => absurd (h₁.trans h₂) (lt_irrefl _)) hs ht

/-- A smaller set in order that is not equal has fewer members. -/
theorem Ordered.length_lt (hs : s.Ordered) (ht : t.Ordered) (h : ∀ k ∈ s, k ∈ t) (hne : s ≠ t) :
    s.members.length < t.members.length := by
  have hsub : s.members.Subperm t.members := subperm_of_subset hs.nodup h
  refine lt_of_le_of_ne hsub.length_le fun hlen => hne ?_
  have hp := hsub.perm_of_length_le hlen.ge
  exact hs.ext ht fun k => hp.mem_iff

end KeySet

end SsaBlocks
