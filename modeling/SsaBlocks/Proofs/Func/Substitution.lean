import Mathlib.Data.List.Forall2
import Mathlib.Data.Option.Basic
import Mathlib.Logic.Relation
import SsaBlocks.Func.Substitution
import SsaBlocks.Proofs.Fold
import SsaBlocks.Proofs.Func.Edit
import SsaBlocks.Proofs.Ranked

/-!
# Closed substitutions

If every replacement goes down in some rank, the chains of replacements end. A closed substitution
sends each temporary to the end of its chain, and so a temporary and its replacement to the same.
Chains without cycles go down in rank, whatever the order in which the replacements are listed.

## Main results

* `Substitution.DescendingOn.close_apply_of_get?`, `Substitution.DescendingOn.get?_close_apply`: a
  temporary goes where its replacement goes, and that is the end of the chain
* `Func.substitute_reaches_ends`: every temporary read in a block becomes the end of its chain
-/

namespace SsaBlocks

open List

theorem Instruction.substitute_substitute (f g : Temp → Temp) (i : Instruction) :
    (i.substitute f).substitute g = i.substitute (g ∘ f) := by
  cases i <;> simp [Instruction.substitute]

theorem Instruction.substitute_id (i : Instruction) : i.substitute id = i := by
  cases i <;> simp [Instruction.substitute]

theorem Phi.substitute_id (p : Phi) : p.substitute id = p := by
  simp [Phi.substitute]

theorem Block.substitute_id (b : Block) : b.substitute id = b := by
  have hcode : b.code.map (Instruction.substitute id) = b.code := by
    rw [map_congr_left fun i _ => Instruction.substitute_id i, map_id']
  have hphis : b.phis.map (Phi.substitute id) = b.phis := by
    rw [map_congr_left fun p _ => Phi.substitute_id p, map_id']
  have hwritten : b.written.mapValues id = b.written := by simp [Table.mapValues]
  rw [Block.substitute, hcode, hphis, hwritten]

theorem Table.mapValues_mapValues {κ ν μ ξ : Type} (f : ν → μ) (g : μ → ξ) (m : Table κ ν) :
    (m.mapValues f).mapValues g = m.mapValues (g ∘ f) := by
  simp [Table.mapValues]

namespace Substitution

variable {s r : Substitution} {rank : Temp → Nat} {t u : Temp}

theorem apply_of_none (h : s.get? t = none) : s.apply t = t := by
  rw [apply, h]
  rfl

theorem apply_of_some (h : s.get? t = some u) : s.apply t = u := by
  rw [apply, h]
  rfl

theorem get?_merge (h : r.Ordered) (t : Temp) :
    (s.merge r).get? t = (r.get? t).or (s.get? t) := by
  suffices hfold : ∀ (l : List (Temp × Temp)) (s : Substitution),
      l.Pairwise (fun a b => a.1 ≠ b.1 ∧ Ranked.rank a.1 ≤ Ranked.rank b.1) →
      (l.foldl (fun s e => s.insert e.1 e.2) s).get? t = (Table.find? t l).or (s.get? t) from
    hfold r.entries s h
  intro l
  induction l with
  | nil => exact fun _ _ => rfl
  | cons e l ih =>
    intro s hl
    obtain ⟨he, hl⟩ := pairwise_cons.mp hl
    rw [foldl_cons, ih _ hl, Table.get?_insert, Table.find?]
    by_cases het : e.1 = t
    · have hnone : Table.find? t l = none := by
        rw [Table.find?_eq_none]
        intro hmem
        obtain ⟨e', he', hkey⟩ := mem_map.mp hmem
        exact (he e' he').1 (het.trans hkey.symm)
      rw [hnone, if_pos het, if_pos het]
      rfl
    · rw [if_neg het, if_neg het]

theorem get?_close (s : Substitution) (t : Temp) :
    s.close.get? t = (s.get? t).map (s.follow s.size) :=
  Table.get?_mapValues _ s t

theorem close_apply_of_none (ht : s.get? t = none) : s.close.apply t = t :=
  apply_of_none (by rw [get?_close, ht]; rfl)

/-- Every replacement is of lower rank than what it replaces. -/
def Descending (rank : Temp → Nat) (s : Substitution) : Prop :=
  ∀ t u, s.get? t = some u → rank u < rank t

/-- The replacements of the temporaries in `T` are in `T` and of lower rank. -/
def DescendingOn (T : Temp → Prop) (rank : Temp → Nat) (s : Substitution) : Prop :=
  ∀ t u, T t → s.get? t = some u → T u ∧ rank u < rank t

theorem Descending.on (h : s.Descending rank) : s.DescendingOn (fun _ => True) rank :=
  fun t u _ ht => ⟨trivial, h t u ht⟩

namespace DescendingOn

/-- How many links a chain from a temporary can have. -/
def links (rank : Temp → Nat) (s : Substitution) (t : Temp) : Nat :=
  (s.keys.filter fun k => rank k ≤ rank t).length

theorem links_le_size (rank : Temp → Nat) (s : Substitution) (t : Temp) : links rank s t ≤ s.size := by
  rw [Table.size, ← length_map (f := Prod.fst)]
  exact length_filter_le _ _

theorem links_lt (hlt : rank u < rank t) (ht : s.get? t = some u) :
    links rank s u < links rank s t := by
  have hsub : (s.keys.filter fun k => rank k ≤ rank u) =
      (s.keys.filter fun k => rank k ≤ rank t).filter fun k => rank k ≤ rank u := by
    rw [filter_filter]
    refine filter_congr fun k _ => ?_
    by_cases hk : rank k ≤ rank u
    · have : rank k ≤ rank t := by omega
      simp [hk, this]
    · simp [hk]
  rw [links, links, hsub]
  refine length_filter_lt_length_iff_exists.mpr ⟨t, ?_, ?_⟩
  · simpa using Table.mem_keys.mpr ⟨u, ht⟩
  · simpa using hlt

theorem follow_of_none (ht : s.get? t = none) (n : Nat) : s.follow n t = t := by
  cases n with
  | zero => rfl
  | succ n => rw [follow, ht]

theorem follow_succ (hlt : rank u < rank t) (ht : s.get? t = some u) (n : Nat) :
    s.follow (n + 1) t = s.follow n u := by
  rw [follow, ht]
  refine if_neg ?_
  rintro rfl
  exact lt_irrefl _ hlt

variable {T : Temp → Prop} (h : s.DescendingOn T rank) (hT : T t)
include h hT

theorem get?_follow {n : Nat} (hn : links rank s t ≤ n) : s.get? (s.follow n t) = none := by
  induction n generalizing t with
  | zero =>
    cases ht : s.get? t with
    | none => exact ht
    | some u =>
      have := links_lt (h t u hT ht).2 ht
      omega
  | succ n ih =>
    cases ht : s.get? t with
    | none =>
      rw [follow_of_none ht]
      exact ht
    | some u =>
      obtain ⟨hu, hlt⟩ := h t u hT ht
      have := links_lt hlt ht
      rw [follow_succ hlt ht]
      exact ih hu (by omega)

theorem follow_eq {m n : Nat} (hm : links rank s t ≤ m) (hn : links rank s t ≤ n) :
    s.follow m t = s.follow n t := by
  induction m generalizing n t with
  | zero =>
    have hnone : s.get? t = none := h.get?_follow hT hm
    rw [follow_of_none hnone, follow_of_none hnone]
  | succ m ih =>
    cases ht : s.get? t with
    | none => rw [follow_of_none ht, follow_of_none ht]
    | some u =>
      obtain ⟨hu, hlt⟩ := h t u hT ht
      have hlinks := links_lt hlt ht
      obtain ⟨n, rfl⟩ : ∃ k, n = k + 1 := ⟨n - 1, by omega⟩
      rw [follow_succ hlt ht, follow_succ hlt ht]
      exact ih hu (by omega) (by omega)

/-- The first link of a chain leads to the rest of it. -/
theorem follow_size (ht : s.get? t = some u) : s.follow s.size t = s.follow s.size u := by
  obtain ⟨hu, hlt⟩ := h t u hT ht
  have hlinks := links_lt hlt ht
  have hle := links_le_size rank s t
  obtain ⟨n, hn⟩ : ∃ k, s.size = k + 1 := ⟨s.size - 1, by omega⟩
  have heq : s.follow s.size u = s.follow n u := h.follow_eq hu (by omega) (by omega)
  rw [heq, hn, follow_succ hlt ht]

/-- A closed substitution follows a chain to its end. -/
theorem close_apply : s.close.apply t = s.follow s.size t := by
  cases ht : s.get? t with
  | none => rw [close_apply_of_none ht, follow_of_none ht]
  | some u =>
    have hclose : s.close.get? t = some (s.follow s.size u) := by
      rw [get?_close, ht]
      rfl
    rw [apply_of_some hclose, h.follow_size hT ht]

theorem get?_close_apply : s.get? (s.close.apply t) = none := by
  rw [h.close_apply hT]
  exact h.get?_follow hT (links_le_size rank s t)

theorem close_apply_of_get? (ht : s.get? t = some u) : s.close.apply t = s.close.apply u := by
  rw [h.close_apply hT, h.close_apply (h t u hT ht).1, h.follow_size hT ht]

/-- What replacements keep, the closed substitution keeps. -/
theorem close_apply_induction {P : Temp → Prop}
    (hP : ∀ t u, T t → s.get? t = some u → P t → P u) (ht : P t) : P (s.close.apply t) := by
  induction hn : rank t using Nat.strongRecOn generalizing t with
  | ind n ih =>
    cases hget : s.get? t with
    | none => rwa [close_apply_of_none hget]
    | some u =>
      obtain ⟨hu, hlt⟩ := h t u hT hget
      rw [h.close_apply_of_get? hT hget]
      exact ih _ (hn ▸ hlt) hu (hP t u hT hget ht) rfl

theorem rank_close_apply_le : rank (s.close.apply t) ≤ rank t :=
  h.close_apply_induction hT (P := fun u => rank u ≤ rank t)
    (fun x u hx hget hle => (h x u hx hget).2.le.trans hle) le_rfl

end DescendingOn

/-! ## Chains of replacements -/

/-- The second temporary replaces the first. -/
def Link (s : Substitution) (t u : Temp) : Prop :=
  s.get? t = some u

/-- No chain of replacements leads back to its start. -/
def Acyclic (s : Substitution) : Prop :=
  ∀ t, ¬ Relation.TransGen s.Link t t

/-- The chain of replacements that starts at `t` ends at `u`, which has none. -/
def EndsAt (s : Substitution) (t u : Temp) : Prop :=
  Relation.ReflTransGen s.Link t u ∧ s.get? u = none

open Classical in
/-- How many replacements the chain from a temporary consists of. -/
noncomputable def chainLength (s : Substitution) (t : Temp) : Nat :=
  (s.keys.filter fun k => Relation.ReflTransGen s.Link t k).length

/-- A chain gets shorter with each link, since it does not come back to what it leaves. -/
theorem Acyclic.descending (h : s.Acyclic) : s.Descending s.chainLength := by
  intro t u ht
  classical
  have hsub : (s.keys.filter fun k => Relation.ReflTransGen s.Link u k) =
      (s.keys.filter fun k => Relation.ReflTransGen s.Link t k).filter fun k =>
        Relation.ReflTransGen s.Link u k := by
    rw [filter_filter]
    refine filter_congr fun k _ => ?_
    by_cases hk : Relation.ReflTransGen s.Link u k
    · have hkt : Relation.ReflTransGen s.Link t k := .head ht hk
      simp [hk, hkt]
    · simp [hk]
  rw [chainLength, chainLength, hsub]
  refine length_filter_lt_length_iff_exists.mpr ⟨t, ?_, ?_⟩
  · simpa using ⟨Table.mem_keys.mpr ⟨u, ht⟩, Relation.ReflTransGen.refl⟩
  · simpa using fun hut => h t (.head' ht hut)

theorem Descending.acyclic (h : s.Descending rank) : s.Acyclic := by
  have hlt : ∀ t u, Relation.TransGen s.Link t u → rank u < rank t := by
    intro t u htu
    induction htu with
    | single hlink => exact h _ _ hlink
    | tail _ hlink ih => exact (h _ _ hlink).trans ih
  exact fun t ht => lt_irrefl _ (hlt t t ht)

theorem Acyclic.endsAt (h : s.Acyclic) (t : Temp) : s.EndsAt t (s.close.apply t) :=
  ⟨h.descending.on.close_apply_induction trivial (P := Relation.ReflTransGen s.Link t)
    (fun _ _ _ hlink hwalk => hwalk.tail hlink) .refl, h.descending.on.get?_close_apply trivial⟩

theorem follow_congr (h : ∀ t, r.get? t = s.get? t) (n : Nat) (t : Temp) :
    r.follow n t = s.follow n t := by
  induction n generalizing t with
  | zero => rfl
  | succ n ih => simp only [follow, h, ih]

/-- Closing does not depend on the order of the entries. -/
theorem close_apply_of_perm (hkeys : s.keys.Nodup) (hperm : r.entries.Perm s.entries) :
    r.close.apply = s.close.apply := by
  have hget := Table.get?_of_perm hkeys hperm
  funext t
  rw [apply, apply, get?_close, get?_close, hget, Table.size, hperm.length_eq]
  exact congrArg (fun f => ((s.get? t).map f).getD t) (funext (follow_congr hget _))

end Substitution

/-- All temporaries that the block reads, carries along edges or holds have been replaced by the
ends of their chains, and nothing else has changed. -/
structure Block.Closed (s : Substitution) (blk blk' : Block) : Prop where
  code : List.Forall₂ (fun i i' => List.Forall₂ s.EndsAt i.operands i'.operands ∧
    i'.result? = i.result? ∧ i'.targets = i.targets) blk.code blk'.code
  phis : List.Forall₂ (fun p p' =>
    List.Forall₂ (fun e e' => e'.1 = e.1 ∧ s.EndsAt e.2 e'.2) p.edges p'.edges ∧
      p'.dest = p.dest ∧ p'.var = p.var) blk.phis blk'.phis
  written : ∀ v, Option.Rel s.EndsAt (blk.written.get? v) (blk'.written.get? v)
  rest : { blk' with code := blk.code, phis := blk.phis, written := blk.written } = blk

theorem forall₂_map_self {α : Type} {R : α → α → Prop} {f : α → α} (h : ∀ a, R a (f a))
    (l : List α) : List.Forall₂ R l (l.map f) :=
  forall₂_map_right_iff.mpr (forall₂_same.mpr fun a _ => h a)

theorem Block.closed_substitute {s : Substitution} {f : Temp → Temp} (h : ∀ t, s.EndsAt t (f t))
    (blk : Block) : Block.Closed s blk (blk.substitute f) where
  code := by
    refine forall₂_map_self (fun i => ⟨?_, by simp, by simp⟩) blk.code
    rw [Instruction.operands_substitute]
    exact forall₂_map_self h i.operands
  phis := forall₂_map_self (fun p => ⟨forall₂_map_self (fun e => ⟨rfl, h e.2⟩) p.edges, rfl, rfl⟩)
    blk.phis
  written v := by
    rw [Block.substitute, Table.get?_mapValues]
    cases blk.written.get? v with
    | none => exact .none
    | some t => exact .some (h t)
  rest := rfl

theorem Block.substitute_substitute (f g : Temp → Temp) (blk : Block) :
    (blk.substitute f).substitute g = blk.substitute (g ∘ f) := by
  simp [Block.substitute, Phi.substitute, Table.mapValues_mapValues,
    Instruction.substitute_substitute, Function.comp_def]

namespace Func

variable {s : Substitution}

/-- A change that is the same when it is made twice may be made to a block again. -/
theorem block_substitute (hidem : s.close.apply ∘ s.close.apply = s.close.apply) (fn : Func)
    (blocks : List BlockId) (b : BlockId) :
    (fn.substitute blocks s).block b =
      if b ∈ blocks then (fn.block b).substitute s.close.apply else fn.block b := by
  rw [substitute]
  refine foldl_invariant (fun done (cur : Func) => cur.block b =
    if b ∈ done then (fn.block b).substitute s.close.apply else fn.block b) (by simp) ?_
  intro done c rest cur _ hcur
  by_cases hbc : b = c
  · subst hbc
    have hsub : (cur.modify b (Block.substitute s.close.apply)).block b =
        (cur.block b).substitute s.close.apply := by
      by_cases hb : b < cur.blocks.size
      · exact block_modify_self hb
      · rw [Graph.block_of_size_le (by simpa using hb), Graph.block_of_size_le (by simpa using hb)]
        rfl
    rw [hsub, hcur, if_pos (show b ∈ done ++ [b] by simp)]
    split
    · rw [Block.substitute_substitute, hidem]
    · rfl
  · rw [block_modify_ne (Ne.symm hbc), hcur]
    simp [hbc]

/-- Substitution in a list of blocks, which may hold a block twice, leads every operand, edge value
and written value to the end of its chain if there are no cycles. The order in which the
replacements are listed does not matter. -/
theorem substitute_reaches_ends (hkeys : s.keys.Nodup) (hs : s.Acyclic) (fn : Func)
    (blocks : List BlockId) :
    (∀ b ∈ blocks, Block.Closed s (fn.block b) ((fn.substitute blocks s).block b)) ∧
    (∀ b ∉ blocks, (fn.substitute blocks s).block b = fn.block b) ∧
    fn.Edits (fn.substitute blocks s) ∧
    ∀ r : Substitution, r.entries.Perm s.entries →
      fn.substitute blocks r = fn.substitute blocks s := by
  have hblock := block_substitute
    (funext fun t => Substitution.close_apply_of_none (hs.endsAt t).2) fn blocks
  refine ⟨fun b hb => ?_, fun b hb => ?_, .foldl (fun cur b => .modify cur b _) blocks fn,
    fun r hperm => ?_⟩
  · rw [hblock, if_pos hb]
    exact Block.closed_substitute hs.endsAt _
  · rw [hblock, if_neg hb]
  · rw [substitute, substitute, Substitution.close_apply_of_perm hkeys hperm]

/-- A block that reads, holds and passes on temporaries at the far end of a chain. -/
def chained : Func :=
  { name := "f", params := [], resultType := .int
    blocks := #[{
      code := [.const 0 .int 7, .binary .add 5 4 0, .ret (some 3)]
      phis := [{ dest := 6, var := default, edges := [(0, 4)] }]
      written := ⟨[(default, 4)]⟩ }] }

theorem chained_reaches_ends :
    Block.Closed ⟨[(1, 0), (2, 1), (3, 2), (4, 3)]⟩ (chained.block 0)
      ((chained.substitute [0, 0] ⟨[(1, 0), (2, 1), (3, 2), (4, 3)]⟩).block 0) ∧
    chained.substitute [0, 0] ⟨[(3, 2), (1, 0), (4, 3), (2, 1)]⟩ =
      chained.substitute [0, 0] ⟨[(1, 0), (2, 1), (3, 2), (4, 3)]⟩ := by
  have hdesc : Substitution.Descending id ⟨[(1, 0), (2, 1), (3, 2), (4, 3)]⟩ := by
    intro t u (ht : Table.find? t [(1, 0), (2, 1), (3, 2), (4, 3)] = some u)
    grind [Table.find?]
  obtain ⟨hclosed, -, -, hperm⟩ :=
    substitute_reaches_ends (by decide) hdesc.acyclic chained [0, 0]
  exact ⟨hclosed 0 (by simp), hperm _ (by decide)⟩

end Func

end SsaBlocks
