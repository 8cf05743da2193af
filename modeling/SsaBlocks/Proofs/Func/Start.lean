import SsaBlocks.Proofs.Func.Filling

/-!
# New functions

A new function has one block, which is open and declares the parameters. So it can be filled.
-/

namespace SsaBlocks

open List

/-- A block in which some variables have been declared. -/
structure Block.Declared (l : List (Variable × Temp)) (blk : Block) : Prop where
  eq : ∃ declared alive written, blk =
    { home := blk.home, declared := declared, alive := alive, written := written }
  mem_declared : ∀ v, v ∈ blk.declared ↔ v ∈ l.map Prod.fst
  mem_alive : ∀ v, v ∈ blk.alive ↔ v ∈ l.map Prod.fst
  written : ∀ v u, blk.written.get? v = some u → (v, u) ∈ l
  isSome : ∀ v ∈ l.map Prod.fst, (blk.written.get? v).isSome

namespace Block

theorem declared_foldl (l : List (Variable × Temp)) (home : BlockId) :
    Block.Declared l (l.foldl (fun b p => Block.declare b p.1 p.2) { home }) ∧
      (l.foldl (fun b p => Block.declare b p.1 p.2) { home }).home = home := by
  refine foldl_invariant (fun done blk => Block.Declared done blk ∧ blk.home = home) ?_ ?_
  · refine ⟨⟨⟨_, _, _, rfl⟩, ?_, ?_, ?_, by simp⟩, rfl⟩
    · exact fun v => iff_of_false (KeySet.not_mem_empty v) (by simp)
    · exact fun v => iff_of_false (KeySet.not_mem_empty v) (by simp)
    · intro v u hu
      cases hu
  · rintro done ⟨w, t⟩ - blk - ⟨h, hhome⟩
    refine ⟨⟨?_, ?_, ?_, ?_, ?_⟩, hhome⟩
    · obtain ⟨declared, alive, written, heq⟩ := h.eq
      refine ⟨declared.insert w, alive.insert w, written.insert w t, ?_⟩
      rw [heq]
      rfl
    · intro v
      rw [Block.declare, KeySet.mem_insert, h.mem_declared, map_append, mem_append]
      simp [or_comm]
    · intro v
      rw [Block.declare, KeySet.mem_insert, h.mem_alive, map_append, mem_append]
      simp [or_comm]
    · intro v u hu
      rw [Block.declare, Table.get?_insert] at hu
      split at hu
      · next hwv =>
        obtain rfl : w = v := hwv
        obtain rfl : t = u := Option.some.inj hu
        simp
      · exact mem_append_left _ (h.written v u hu)
    · intro v hv
      rw [Block.declare, Table.get?_insert]
      split
      · rfl
      · next hwv =>
        refine h.isSome v ?_
        simpa [Ne.symm hwv] using hv

end Block

namespace Func

variable (name : String) (params : List Variable) (type : ValueType)

theorem block_make (c : BlockId) :
    (make name params type).block c = if c = 0 then
      (params.zip (List.range' 0 params.length)).foldl (fun b p => Block.declare b p.1 p.2)
        { home := 0 }
      else {} := by
  by_cases hc : c = 0
  · subst hc
    rfl
  · rw [if_neg hc]
    refine Graph.block_of_size_le ?_
    exact Nat.one_le_iff_ne_zero.mpr hc

theorem declared_make :
    Block.Declared (params.zip (List.range' 0 params.length))
      ((make name params type).block 0) ∧ ((make name params type).block 0).home = 0 := by
  rw [block_make, if_pos rfl]
  exact Block.declared_foldl _ 0

/-- A new function has nothing but its parameters. -/
theorem exists_block_make (c : BlockId) : ∃ home declared alive written,
    (make name params type).block c = { home, declared, alive, written } := by
  by_cases hc : c = 0
  · subst hc
    exact ⟨_, (declared_make name params type).1.eq⟩
  · rw [block_make, if_neg hc]
    exact ⟨_, _, _, _, rfl⟩

theorem block_make_contents (c : BlockId) : ((make name params type).block c).code = [] ∧
    ((make name params type).block c).parents = [] ∧
    ((make name params type).block c).children = [] ∧
    ((make name params type).block c).awaited = .empty ∧
    ((make name params type).block c).pending = .empty ∧
    ((make name params type).block c).constants = [] := by
  obtain ⟨home, declared, alive, written, heq⟩ := exists_block_make name params type c
  rw [heq]
  exact ⟨rfl, rfl, rfl, rfl, rfl, rfl⟩

theorem separate_make : (make name params type).Separate := by
  have hcontents := block_make_contents name params type
  have hmade : ∀ p, p ≠ .params → (make name params type).made p = [] := by
    intro p hp
    cases p with
    | params => exact absurd rfl hp
    | reads b => rw [made, (hcontents b).2.2.2.1]; rfl
    | phis b => rw [made, (hcontents b).2.2.2.2.1]; rfl
    | code b => rw [made, results, (hcontents b).1]; rfl
  have hparams : ∀ p t, t ∈ (make name params type).made p → p = .params := by
    intro p t ht
    by_contra hp
    rw [hmade p hp] at ht
    exact not_mem_nil ht
  refine ⟨⟨fun p => ?_, fun p p' t ht ht' => ?_, fun p t ht => ?_⟩, length_range' .., fun t => ?_⟩
  · by_cases hp : p = .params
    · subst hp
      exact nodup_range'
    · rw [hmade p hp]
      exact nodup_nil
  · rw [hparams p t ht, hparams p' t ht']
  · obtain rfl := hparams p t ht
    have hsize : (make name params type).temps.size = params.length := by simp [make, makeIn]
    rw [hsize]
    simpa [made, make, makeIn] using ht
  · rw [Graph.tempIndex?, Graph.temp]
    by_cases ht : t < (make name params type).temps.size
    · simp [make, makeIn, Array.getD]
    · rw [Array.getD, dif_neg ht]

theorem wired_make : (make name params type).Wired where
  entry_lt := Nat.one_pos
  counts a c := by
    rw [(block_make_contents name params type a).2.2.1,
      (block_make_contents name params type c).2.1]
    simp
  unexplored c := by
    obtain ⟨home, declared, alive, written, heq⟩ := exists_block_make name params type c
    rw [heq]
    rfl

theorem kept_make : (make name params type).Kept where
  separate := separate_make name params type
  wired := wired_make name params type
  sustained := by
    obtain ⟨hdeclared, hhome⟩ := declared_make name params type
    refine ⟨hhome, fun b v hv => ?_⟩
    by_cases hb : b = 0
    · subst hb
      exact ⟨0, hdeclared.isSome v ((hdeclared.mem_alive v).mp hv), .refl ..⟩
    · rw [block_make, if_neg hb] at hv
      exact absurd hv (KeySet.not_mem_empty v)

theorem formed_make : (make name params type).Formed := by
  have hcontents := block_make_contents name params type
  obtain ⟨hdeclared, -⟩ := declared_make name params type
  have hother : ∀ b, b ≠ 0 → (make name params type).block b = {} := fun b hb => by
    rw [block_make, if_neg hb]
  refine ⟨kept_make name params type, ⟨(hcontents 0).2.1, ?_, ?_⟩, ⟨?_, ?_, ?_⟩, ⟨?_, ?_, ?_⟩⟩
  · intro b
    rw [(hcontents b).2.1]
    exact nodup_nil
  · intro b hb hne
    exact absurd (Nat.lt_one_iff.mp hb) hne
  · intro b n i hi
    rw [(hcontents b).1] at hi
    simp at hi
  · intro b v u hu
    by_cases hb : b = 0
    · -- the parameters have been written
      subst hb
      have hmem := (of_mem_zip (hdeclared.written v u hu)).2
      obtain ⟨i, hi⟩ := getElem?_of_mem hmem
      exact ⟨.param i, hi, trivial⟩
    · rw [hother b hb] at hu
      cases hu
  · intro b k u hu
    rw [(hcontents b).2.2.2.2.2] at hu
    simp at hu
  · intro b v hv
    by_cases hb : b = 0
    · subst hb
      exact hdeclared.isSome v ((hdeclared.mem_declared v).mp hv)
    · rw [hother b hb] at hv
      exact absurd hv (KeySet.not_mem_empty v)
  · intro b v hv
    by_cases hb : b = 0
    · subst hb
      exact (hdeclared.mem_alive v).mpr ((hdeclared.mem_declared v).mp hv)
    · rw [hother b hb] at hv
      exact absurd hv (KeySet.not_mem_empty v)
  · intro b o v ho
    rw [Block.owner?, (hcontents b).2.1] at ho
    cases ho

theorem mem_declared_make {v : Variable} (hv : v ∈ params) :
    v ∈ ((make name params type).block 0).declared := by
  refine ((declared_make name params type).1.mem_declared v).mpr ?_
  rwa [map_fst_zip (length_range' ..).ge]

/-- The entry of a new function can be filled. -/
theorem filling_make : (make name params type).Filling 0 0 := by
  have hcontents := block_make_contents name params type
  refine ⟨formed_make name params type, ⟨?_, ?_, ?_⟩, rfl⟩
  · exact Multiset.nodup_singleton 0
  · intro b hb
    rw [Multiset.mem_singleton.mp hb]
    refine ⟨Nat.one_pos, (hcontents 0).2.2.1, ?_⟩
    rw [(hcontents 0).1]
    intro i hi
    simp at hi
  · intro b hb hmem
    have hzero : b = 0 := Nat.lt_one_iff.mp hb
    exact absurd (Multiset.mem_singleton.mpr hzero) hmem

end Func

end SsaBlocks
