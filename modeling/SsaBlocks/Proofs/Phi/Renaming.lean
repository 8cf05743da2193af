import SsaBlocks.Proofs.Phi.Resolution

/-!
# Resolving reads as a renaming

If the values of variables are made before they are read, in the sense of a rank, all reads can be
resolved at once: there is one renaming of temporaries that the code and the values of all blocks
are subject to. It sends each placeholder to where it sends the value that reaches the read.
-/

namespace SsaBlocks

open SsaBlocks.Flow

/-- The block with its temporaries renamed and no placeholders. -/
def Block.rename (σ : Temp → Temp) (blk : Block) : Block :=
  { blk with
    code := blk.code.map (Instruction.substitute σ)
    written := blk.written.mapValues σ
    awaited := .empty
    phis := blk.phis.map (Phi.substitute σ) }

theorem Block.substitute_takeReads {found : Substitution} {σ : Temp → Temp}
    (h : ∀ t, σ (found.apply t) = σ t) (blk : Block) :
    (blk.takeReads found).substitute σ = blk.rename σ := by
  have hcomp : σ ∘ found.apply = σ := funext h
  simp only [Block.substitute, Block.takeReads, Block.substituteCode, Block.substituteWritten,
    Block.rename, List.map_map, Table.mapValues_mapValues, hcomp]
  congr 1
  refine List.map_congr_left fun i _ => ?_
  rw [Function.comp_apply, Instruction.substitute_substitute, hcomp]

namespace Func

variable {placed cur : Func} {all : Substitution} {rank : Temp → Nat} {σ : Temp → Temp}

/-- The value that reaches a read is of lower rank than its placeholder. -/
def ReadsDescend (placed : Func) (rank : Temp → Nat) : Prop :=
  ∀ b ∈ placed.order, ∀ v t, (placed.block b).awaited.get? v = some t → ∀ x u,
    LastAt placed.Edge (placed.Writes v) x b → (placed.block x).written.get? v = some u →
    rank u < rank t

/-- The renaming leaves alone all but the placeholders, and sends a placeholder to where it sends
the value that reaches the read. -/
structure Renames (placed : Func) (rank : Temp → Nat) (σ : Temp → Temp) : Prop where
  fixed : ∀ t, (∀ b ∈ placed.order, ∀ v, (placed.block b).awaited.get? v ≠ some t) → σ t = t
  read : ∀ b ∈ placed.order, ∀ v t, (placed.block b).awaited.get? v = some t → ∃ x u,
    LastAt placed.Edge (placed.Writes v) x b ∧ (placed.block x).written.get? v = some u ∧ σ t = σ u
  rank_le : ∀ t, rank (σ t) ≤ rank t
  resolved : ∀ t, ∀ b ∈ placed.order, ∀ v, (placed.block b).awaited.get? v ≠ some (σ t)

theorem Resolved.descending (h : placed.Resolved placed.order cur all)
    (hrank : placed.ReadsDescend rank) : all.Descending rank := by
  intro t u ht
  induction hn : rank t using Nat.strongRecOn generalizing t u with
  | ind n ih =>
    obtain ⟨b, hb, v, hv⟩ := h.keys t u ht
    obtain ⟨found, -, hfound⟩ := h.block b hb
    obtain ⟨x, w, u', hx, hw, hget, hchain⟩ := hfound.value v t hv
    obtain rfl : u = u' := Option.some.inj (ht.symm.trans (hfound.sub t u' hget))
    have hlt := hrank b hb v t hv x w hx hw
    rcases hchain with rfl | hchain
    · omega
    · have := ih (rank w) (by omega) w u hchain rfl
      omega

theorem Resolved.renames (h : placed.Resolved placed.order cur all)
    (hrank : placed.ReadsDescend rank) : placed.Renames rank all.close.apply := by
  have hdesc := h.descending hrank
  refine ⟨fun t ht => ?_, fun b hb v t ht => ?_, fun _ => hdesc.on.rank_close_apply_le trivial,
    fun t b hb v ht => ?_⟩
  · refine Substitution.close_apply_of_none ?_
    by_contra hsome
    obtain ⟨u, hu⟩ := Option.ne_none_iff_exists'.mp hsome
    obtain ⟨b, hb, v, hv⟩ := h.keys t u hu
    exact ht b hb v hv
  · obtain ⟨found, -, hfound⟩ := h.block b hb
    obtain ⟨x, u, u', hx, hu, hget, hchain⟩ := hfound.value v t ht
    refine ⟨x, u, hx, hu, (hdesc.on.close_apply_of_get? trivial (hfound.sub t u' hget)).trans ?_⟩
    rcases hchain with rfl | hchain
    · rfl
    · exact (hdesc.on.close_apply_of_get? trivial hchain).symm
  · obtain ⟨found, -, hfound⟩ := h.block b hb
    obtain ⟨x, u, u', -, -, hget, -⟩ := hfound.value v _ ht
    have hnone := hdesc.on.get?_close_apply (t := t) trivial
    rw [hfound.sub _ u' hget] at hnone
    cases hnone

/-- All reads are resolved, by renaming, if each is reached by a value of lower rank. -/
theorem exists_resolveReads (hp : placed.Resolvable)
    (hvalue : ∀ b ∈ placed.order, ∀ v t, (placed.block b).awaited.get? v = some t →
      ∃ x, LastAt placed.Edge (placed.Writes v) x b)
    (hrank : placed.ReadsDescend rank) :
    ∃ cur σ, placed.resolveReads = .ok cur ∧ placed.Edits cur ∧
      (∀ b, cur.block b =
        if b ∈ placed.order then (placed.block b).rename σ else placed.block b) ∧
      placed.Renames rank σ := by
  obtain ⟨⟨cur, all⟩, hfold, hcur⟩ := exists_foldlM (l := placed.order)
    (s := (placed, Table.empty)) (f := resolveBlock)
    (fun done s => placed.Resolved done s.1 s.2) (.refl placed) (by
      rintro done b rest ⟨cur, all⟩ hsplit hcur
      have hb : b ∈ placed.order := by
        rw [hsplit]
        simp
      have hnot : b ∉ done := by
        have hnodup := hp.nodup
        rw [hsplit, List.nodup_append] at hnodup
        exact fun hmem => hnodup.2.2 b hmem b (by simp) rfl
      -- the block is as it was placed: only blocks before it have been resolved
      have hsame := hcur.undone b hnot
      have hlen : placed.order.length ≤ cur.blocks.size := hcur.edits.size ▸ hp.length_le
      have hinj : (cur.block b).awaited.Injective := hsame ▸ hp.distinct.injective b
      obtain ⟨found, hfound⟩ := exists_findReads (hcur.climbsIn hp.climbs) hlen hb hinj
        fun v t ht => by
          rw [hcur.sameShape.edge, hcur.writes]
          exact hvalue b hb v t (hsame ▸ ht)
      have hstep : resolveBlock (cur, all) b =
          .ok (cur.modify b (Block.takeReads found), all.merge found) := by
        rw [resolveBlock_eq, hfound, ok_bind]
        rfl
      exact ⟨_, hstep, hcur.step hp hb hnot hstep⟩)
  have hrenames := hcur.renames hrank
  have hdesc := hcur.descending hrank
  have horder : cur.order = placed.order := hcur.edits.order
  refine ⟨cur.substitute cur.order all, all.close.apply, ?_, ?_, fun b => ?_, hrenames⟩
  · rw [resolveReads, hfold, ok_bind]
    rfl
  · exact hcur.edits.trans (.foldl (fun _ _ => .modify _ _ _) _ _)
  · rw [substitute, horder, block_foldl_modify (fun _ => Block.substitute all.close.apply) hp.nodup
      fun c hc => hcur.edits.size ▸ hp.lt c hc]
    by_cases hb : b ∈ placed.order
    · obtain ⟨found, hblock, hfound⟩ := hcur.block b hb
      rw [if_pos hb, if_pos hb, hblock]
      refine Block.substitute_takeReads (fun t => ?_) _
      cases hget : found.get? t with
      | none => rw [Substitution.apply_of_none hget]
      | some u =>
        rw [Substitution.apply_of_some hget]
        exact (hdesc.on.close_apply_of_get? trivial (hfound.sub t u hget)).symm
    · rw [if_neg hb, if_neg hb, hcur.undone b hb]

end Func

end SsaBlocks
