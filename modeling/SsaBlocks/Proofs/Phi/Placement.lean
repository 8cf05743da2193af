import SsaBlocks.Phi.Placement
import SsaBlocks.Proofs.Dominance.Frontier
import SsaBlocks.Proofs.Func.Apart

/-!
# Where phi nodes are placed

The blocks that write a variable, those with a phi node for it included, have a phi node for it at
every place of their frontiers, and there is none elsewhere. A phi node is the first thing that
happens to its variable in its block: its result takes the place of the placeholder, if there is
one, and is what the variable holds on leaving the block, unless that has been written.
-/

namespace SsaBlocks

open List

section SortByKey

variable {α : Type} (key : α → Nat)

theorem insertByKey_perm (a : α) (l : List α) : (insertByKey key a l).Perm (a :: l) := by
  induction l with
  | nil => exact .refl _
  | cons b l ih =>
    rw [insertByKey]
    split
    · exact .refl _
    · exact (ih.cons b).trans (.swap a b l)

theorem sortByKey_perm (l : List α) : (sortByKey key l).Perm l := by
  suffices h : ∀ m, (l.foldl (fun sorted a => insertByKey key a sorted) m).Perm (m ++ l) from
    h []
  induction l with
  | nil => simp
  | cons a l ih =>
    intro m
    refine (ih _).trans (((insertByKey_perm key a m).append_right l).trans ?_)
    exact perm_middle.symm

theorem pairwise_insertByKey {l : List α} (h : l.Pairwise (key · ≤ key ·)) (a : α) :
    (insertByKey key a l).Pairwise (key · ≤ key ·) := by
  induction l with
  | nil => exact pairwise_singleton _ _
  | cons b l ih =>
    obtain ⟨hb, hl⟩ := pairwise_cons.mp h
    rw [insertByKey]
    split
    · next hlt => exact pairwise_cons.mpr ⟨forall_mem_cons.mpr ⟨hlt.le, fun c hc =>
        hlt.le.trans (hb c hc)⟩, h⟩
    · next hle =>
      refine pairwise_cons.mpr ⟨fun c hc => ?_, ih hl⟩
      rcases mem_cons.mp ((insertByKey_perm key a l).mem_iff.mp hc) with rfl | hc
      · exact Nat.not_lt.mp hle
      · exact hb c hc

theorem pairwise_sortByKey (l : List α) : (sortByKey key l).Pairwise (key · ≤ key ·) :=
  foldl_invariant (fun _ (m : List α) => m.Pairwise (key · ≤ key ·)) .nil
    fun _ a _ _ _ hm => pairwise_insertByKey key hm a

end SortByKey

/-- Puts a phi node for a variable at the top of a block. -/
def Block.takePhi (v : Variable) (dest : Temp) (blk : Block) : Block :=
  { blk with
    pending := blk.pending.insert v dest
    written := if blk.written.contains v then blk.written else blk.written.insert v dest
    awaited := blk.awaited.erase v }

theorem Block.get?_written_takePhi (v w : Variable) (dest : Temp) (blk : Block) :
    (blk.takePhi v dest).written.get? w =
      (blk.written.get? w).or (if v = w then some dest else none) := by
  rw [takePhi]
  by_cases hvw : v = w
  · subst hvw
    cases hv : blk.written.get? v with
    | none => simp [Table.contains, hv]
    | some t => simp [Table.contains, hv]
  · split
    · simp only [Option.or_none]
    · simp only [Table.get?_insert, if_neg hvw, Option.or_none]

namespace Func

variable {start cur : Func} {b c x y : BlockId} {v w : Variable} {t : Nat}

theorem mem_orderedFrontier : y ∈ cur.orderedFrontier x ↔ y ∈ cur.frontierOf x := by
  rw [orderedFrontier, frontierOf]
  cases (cur.block x).frontier with
  | none => exact ⟨fun h => absurd h not_mem_nil, fun h => absurd h (KeySet.not_mem_empty y)⟩
  | some s => exact (sortByKey_perm cur.blockIndex s.members).mem_iff

/-- A phi node takes over the placeholder of its variable, or a temporary that comes from
nowhere. -/
theorem Apart.takePhi {fn : Func} (h : fn.Apart) (hb : b < fn.blocks.size)
    (hpending : (fn.block b).pending.get? v = none)
    (ht : (fn.block b).awaited.get? v = some t ∨ ∀ p, t ∉ fn.made p) (hlt : t < fn.temps.size) :
    (fn.modify b (Block.takePhi v t)).Apart := by
  -- the placeholder is given up before it becomes a result
  have hgive : fn.Thins (fn.modify b fun blk => { blk with awaited := blk.awaited.erase v }) :=
    .modify ⟨.refl _, Table.values_erase_sublist _ _, rfl, rfl, fun _ => id⟩
  have hself := @block_modify_self fn b (fun blk => { blk with awaited := blk.awaited.erase v }) hb
  have hself' := @block_modify_self fn b (Block.takePhi v t) hb
  refine (hgive.apart h).put (q := .phis b) (t := t) le_rfl ?_ (fun p hp => ?_) (fun p hmem => ?_) hlt
  · rw [made, made, hself, hself']
    exact Table.values_insert_perm hpending t
  · cases p with
    | params => rfl
    | reads c =>
      by_cases hc : b = c
      · subst hc
        rw [made, made, hself, hself', Block.takePhi]
      · rw [made, made, block_modify_ne hc, block_modify_ne hc]
    | phis c =>
      have hc : b ≠ c := fun hc => hp (hc ▸ rfl)
      rw [made, made, block_modify_ne hc, block_modify_ne hc]
    | code c =>
      have hcode : ∀ f : Block → Block, (∀ blk, (f blk).code = blk.code) →
          (fn.modify b f).made (.code c) = fn.made (.code c) :=
        fun f hf => congrArg (filterMap _) (proj_block_modify Block.code hf)
      refine (hcode _ ?_).trans (hcode _ ?_).symm
      · exact fun _ => rfl
      · exact fun _ => rfl
  · rcases ht with ht | ht
    · have hread : t ∈ fn.made (.reads b) := Table.mem_values_of_get? ht
      obtain rfl := h.eq _ _ t ((hgive.made_sublist p).subset hmem) hread
      rw [made, hself] at hmem
      exact Table.not_mem_values_erase (h.nodup (.reads b)) ht hmem
    · exact ht p ((hgive.made_sublist p).subset hmem)

/-- A block without what is known of the values of variables. -/
def forgetValues (blk : Block) : Block :=
  { blk with written := .empty, awaited := .empty, pending := .empty }

/-- The function with more temporaries. -/
def addTemps (fn : Func) (new : Array TempInfo) : Func :=
  { fn with temps := fn.temps ++ new }

theorem block_addTemps (fn : Func) (new : Array TempInfo) (b : BlockId) :
    (fn.addTemps new).block b = fn.block b := rfl

/-- `cur` has come from `start`, which has no phi nodes, by placing some. -/
structure Placed (start cur : Func) : Prop where
  eq : { cur with blocks := start.blocks, temps := start.temps } = start
  size : cur.blocks.size = start.blocks.size
  temps : ∃ new, cur.temps = start.temps ++ new ∧ ∀ i ∈ new, i.index = none
  rest : ∀ b, forgetValues (cur.block b) = forgetValues (start.block b)
  written : ∀ b v, (cur.block b).written.get? v =
    ((start.block b).written.get? v).or ((cur.block b).pending.get? v)
  awaited : ∀ b v, (cur.block b).awaited.get? v =
    if ((cur.block b).pending.get? v).isSome then none else (start.block b).awaited.get? v
  dest : ∀ b v (t : Nat), (cur.block b).pending.get? v = some t → (start.block b).awaited.get? v = some t ∨
    (start.block b).awaited.get? v = none ∧ start.temps.size ≤ t ∧ t < cur.temps.size
  apart : start.Apart → cur.Apart
  pending_ordered : ∀ b, (cur.block b).pending.Ordered
  written_ordered : ∀ b, (start.block b).written.Ordered → (cur.block b).written.Ordered
  awaited_ordered : ∀ b, (start.block b).awaited.Ordered → (cur.block b).awaited.Ordered

namespace Placed

theorem refl (h : ∀ b, (start.block b).pending = .empty) : start.Placed start where
  eq := rfl
  size := rfl
  temps := ⟨#[], by simp, by simp⟩
  rest _ := rfl
  written b v := by simp [h]
  awaited b v := by simp [h]
  dest b v t ht := by simp [h] at ht
  apart := id
  pending_ordered b := by rw [h b]; exact Table.ordered_empty
  written_ordered _ := id
  awaited_ordered _ := id

theorem temps_size_le (h : start.Placed cur) : start.temps.size ≤ cur.temps.size := by
  obtain ⟨new, hnew, -⟩ := h.temps
  simp [hnew]

theorem frontierOf (h : start.Placed cur) (b : BlockId) :
    cur.frontierOf b = start.frontierOf b :=
  (congrArg (·.frontier.getD .empty) (h.rest b) :)

theorem separate (h : start.Placed cur) (hs : start.Separate) : cur.Separate where
  toApart := h.apart hs.toApart
  params := by
    have hparams : start.paramTemps.length = start.params.length := hs.params
    rwa [← h.eq] at hparams
  unnumbered t := by
    obtain ⟨new, hnew, hindex⟩ := h.temps
    have hold := hs.unnumbered t
    rw [Graph.tempIndex?, Graph.temp, Array.getD_eq_getD_getElem?] at hold ⊢
    rw [hnew, Array.getElem?_append]
    split
    · exact hold
    · cases hget : new[t - start.temps.size]? with
      | none => rfl
      | some i => exact hindex i (Array.mem_of_getElem? hget)

/-- A phi node whose result is the placeholder, or a temporary that no phi node has. -/
theorem take (h : start.Placed cur) (hb : b < start.blocks.size)
    (hnone : (cur.block b).pending.get? v = none) {new : Array TempInfo}
    (hnew : ∀ i ∈ new, i.index = none)
    (ht : (start.block b).awaited.get? v = some t ∨
      (start.block b).awaited.get? v = none ∧ t = cur.temps.size ∧ 0 < new.size) :
    start.Placed ((cur.addTemps new).modify b (Block.takePhi v t)) := by
  set cur₁ : Func := cur.addTemps new with hcur₁
  have hb₁ : b < cur₁.blocks.size := h.size ▸ hb
  have hself : (cur₁.modify b (Block.takePhi v t)).block b = (cur.block b).takePhi v t :=
    block_modify_self hb₁
  have hother : ∀ c, c ≠ b → (cur₁.modify b (Block.takePhi v t)).block c = cur.block c :=
    fun c hc => block_modify_ne (Ne.symm hc)
  have hpending : ∀ c w, ((cur₁.modify b (Block.takePhi v t)).block c).pending.get? w =
      if c = b ∧ v = w then some t else (cur.block c).pending.get? w := by
    intro c w
    by_cases hc : c = b
    · subst hc
      rw [hself]
      simp [Block.takePhi]
    · simp [hother c hc, hc]
  have hle := h.temps_size_le
  constructor
  case eq => exact h.eq
  case size =>
    rw [size_modify]
    exact h.size
  case temps =>
    obtain ⟨old, hold, hindex⟩ := h.temps
    refine ⟨old ++ new, ?_, fun i hi => ?_⟩
    · simp [modify, hcur₁, addTemps, hold]
    · rcases Array.mem_append.mp hi with hi | hi
      · exact hindex i hi
      · exact hnew i hi
  case rest =>
    intro c
    have hsame : forgetValues ((cur₁.modify b (Block.takePhi v t)).block c) =
        forgetValues (cur₁.block c) := proj_block_modify forgetValues fun _ => rfl
    exact hsame.trans (h.rest c)
  case written =>
    intro c w
    rw [hpending]
    by_cases hc : c = b
    · subst hc
      rw [hself, Block.get?_written_takePhi, h.written, Option.or_assoc]
      by_cases hvw : v = w
      · subst hvw
        simp [hnone]
      · simp [hvw]
    · rw [hother c hc, h.written]
      simp [hc]
  case awaited =>
    intro c w
    rw [hpending]
    by_cases hc : c = b
    · subst hc
      rw [hself]
      by_cases hvw : v = w
      · simp [Block.takePhi, hvw]
      · simp [Block.takePhi, hvw, h.awaited]
    · rw [hother c hc, h.awaited]
      simp [hc]
  case dest =>
    intro c w u hu
    rw [hpending] at hu
    have hsize : (cur₁.modify b (Block.takePhi v t)).temps.size = cur.temps.size + new.size := by
      simp [modify, hcur₁, addTemps]
    rw [hsize]
    split at hu
    · next hcw =>
      obtain ⟨rfl, rfl⟩ := hcw
      obtain rfl := Option.some.inj hu
      rcases ht with ht | ⟨h₁, h₂, h₃⟩
      · exact .inl ht
      · exact .inr ⟨h₁, by omega, by omega⟩
    · rcases h.dest c w u hu with h' | ⟨h₁, h₂, h₃⟩
      · exact .inl h'
      · exact .inr ⟨h₁, h₂, by omega⟩
  case apart =>
    intro ha
    have hold := h.apart ha
    have hmore : cur₁.Apart := hold.of_sublist (by simp [hcur₁, addTemps]) fun p => by
      cases p <;> exact .refl _
    rcases ht with ht | ⟨-, rfl, hpos⟩
    · have hread : (cur.block b).awaited.get? v = some t := by
        rw [h.awaited, hnone]
        exact ht
      exact hmore.takePhi hb₁ hnone (.inl hread)
        (hmore.lt (.reads b) t (Table.mem_values_of_get? hread))
    · refine hmore.takePhi hb₁ hnone (.inr fun p hp => hold.size_not_mem p ?_) ?_
      · cases p <;> exact hp
      · simpa [hcur₁, addTemps] using hpos
  case pending_ordered =>
    intro c
    by_cases hc : c = b
    · subst hc
      rw [hself]
      exact (h.pending_ordered c).insert v t
    · rw [hother c hc]
      exact h.pending_ordered c
  case written_ordered =>
    intro c hord
    by_cases hc : c = b
    · subst hc
      rw [hself, Block.takePhi]
      split
      · exact h.written_ordered c hord
      · exact (h.written_ordered c hord).insert v t
    · rw [hother c hc]
      exact h.written_ordered c hord
  case awaited_ordered =>
    intro c hord
    by_cases hc : c = b
    · subst hc
      rw [hself]
      exact (h.awaited_ordered c hord).erase v
    · rw [hother c hc]
      exact h.awaited_ordered c hord

end Placed

/-! ## One phi node -/

/-- Asking for a phi node of a variable in a block changes nothing else. -/
theorem Placed.placePhi (h : start.Placed cur) (hb : b < start.blocks.size) (v : Variable) :
    start.Placed (cur.placePhi b v) ∧
      (((cur.placePhi b v).block b).pending.get? v).isSome ∧
      ∀ c w, ¬ (c = b ∧ w = v) →
        ((cur.placePhi b v).block c).pending.get? w = (cur.block c).pending.get? w := by
  by_cases hcontains : (cur.block b).pending.contains v
  · rw [Func.placePhi, if_pos hcontains]
    exact ⟨h, hcontains, fun _ _ _ => rfl⟩
  · have hnone : (cur.block b).pending.get? v = none := by
      simpa [Table.contains] using hcontains
    have hb' : b < cur.blocks.size := h.size ▸ hb
    -- in both cases the block takes the phi node after temporaries have been added
    suffices hstep : ∃ t new, start.Placed ((cur.addTemps new).modify b (Block.takePhi v t)) ∧
        cur.placePhi b v = (cur.addTemps new).modify b (Block.takePhi v t) by
      obtain ⟨t, new, hplaced, heq⟩ := hstep
      have hb₁ : b < (cur.addTemps new).blocks.size := hb'
      rw [heq]
      refine ⟨hplaced, ?_, fun c w hcw => ?_⟩
      · rw [block_modify_self hb₁]
        simp [Block.takePhi]
      · by_cases hc : c = b
        · subst hc
          have hvw : v ≠ w := fun hvw => hcw ⟨rfl, hvw.symm⟩
          rw [block_modify_self hb₁, block_addTemps]
          simp only [Block.takePhi, Table.get?_insert, if_neg hvw]
        · rw [block_modify_ne (Ne.symm hc), block_addTemps]
    have hawaited := h.awaited b v
    rw [hnone] at hawaited
    cases ht : (cur.block b).awaited.get? v with
    | some t =>
      refine ⟨t, #[], h.take hb hnone (by simp) (.inl ?_), ?_⟩
      · rw [ht] at hawaited
        exact hawaited.symm
      · rw [Func.placePhi, if_neg hcontains, ht]
        simp only [addTemps, Array.append_empty]
        rfl
    | none =>
      refine ⟨cur.temps.size, #[{ home := (cur.block b).home }], h.take hb hnone (by simp)
        (.inr ⟨?_, rfl, by simp⟩), ?_⟩
      · rw [ht] at hawaited
        exact hawaited.symm
      · rw [Func.placePhi, if_neg hcontains, ht]
        simp only [addTemp, addTemps, Array.append_singleton]
        rfl

/-! ## One variable -/

/-- The iterated frontier of the blocks that write `v`: it holds their frontiers and those of its
own blocks. -/
inductive NeedsPhi (start : Func) (v : Variable) : BlockId → Prop
  | write {x y : BlockId} (hx : x ∈ start.order) (hw : ((start.block x).written.get? v).isSome)
    (hy : y ∈ start.frontierOf x) : NeedsPhi start v y
  | phi {x y : BlockId} (hx : NeedsPhi start v x) (hy : y ∈ start.frontierOf x) :
    NeedsPhi start v y

namespace Placing

variable {s : Placing}

/-- The blocks that have got a phi node in this turn. -/
def withPhi (s : Placing) : Set BlockId := {b | s.turn ≤ mark s.placed b}

/-- The blocks that have been put on the list in this turn. -/
def seen (s : Placing) : Set BlockId := {b | s.turn ≤ mark s.listed b}

instance (s : Placing) (b : BlockId) : Decidable (b ∈ s.seen) :=
  inferInstanceAs (Decidable (s.turn ≤ mark s.listed b))

/-- No block is marked with a turn to come. -/
structure Dated (s : Placing) : Prop where
  placed : ∀ b, mark s.placed b ≤ s.turn
  listed : ∀ b, mark s.listed b ≤ s.turn

theorem mark_insert (marks : Table BlockId Nat) (b c : BlockId) (n : Nat) :
    mark (marks.insert b n) c = if b = c then n else mark marks c := by
  rw [mark, Table.get?_insert]
  split <;> rfl

theorem le_mark_insert (marks : Table BlockId Nat) (b c : BlockId) (n : Nat) :
    n ≤ mark (marks.insert b n) c ↔ c = b ∨ n ≤ mark marks c := by
  rw [mark_insert]
  split <;> simp_all [eq_comm]

theorem mark_insert_le {marks : Table BlockId Nat} {n : Nat} (h : ∀ c, mark marks c ≤ n)
    (b c : BlockId) : mark (marks.insert b n) c ≤ n := by
  rw [mark_insert]
  split
  · exact le_rfl
  · exact h c

theorem visit_of_mem (v : Variable) (h : b ∈ s.withPhi) : visit v s b = s := by
  rw [visit, if_neg (Nat.not_lt.mpr h)]

/-- A block without a phi node gets one, and it is put on the list unless it has been there. -/
theorem visit_of_notMem (v : Variable) (h : b ∉ s.withPhi) :
    b ∈ s.seen ∧ visit v s b =
        { s with fn := s.fn.placePhi b v, placed := s.placed.insert b s.turn } ∨
      b ∉ s.seen ∧ visit v s b =
        { s with
          fn := s.fn.placePhi b v
          placed := s.placed.insert b s.turn
          listed := s.listed.insert b s.turn
          work := b :: s.work } := by
  have hplaced : mark s.placed b < s.turn := Nat.not_le.mp h
  by_cases hseen : b ∈ s.seen
  · exact .inl ⟨hseen, by simp only [visit, if_pos hplaced, if_neg (Nat.not_lt.mpr hseen)]⟩
  · exact .inr ⟨hseen, by simp only [visit, if_pos hplaced, if_pos (Nat.not_le.mp hseen)]⟩

theorem mem_visit (v : Variable) (h : b ∉ s.withPhi) :
    (visit v s b).fn = s.fn.placePhi b v ∧
      (∀ c, c ∈ (visit v s b).withPhi ↔ c = b ∨ c ∈ s.withPhi) ∧
      ∀ c, c ∈ (visit v s b).seen ↔ c = b ∨ c ∈ s.seen := by
  rcases visit_of_notMem v h with ⟨hseen, heq⟩ | ⟨-, heq⟩
  · rw [heq]
    exact ⟨rfl, fun c => le_mark_insert _ b c _, fun c =>
      (or_iff_right_of_imp fun hc => hc ▸ hseen).symm⟩
  · rw [heq]
    exact ⟨rfl, fun c => le_mark_insert _ b c _, fun c => le_mark_insert _ b c _⟩

theorem Dated.visit (h : s.Dated) (v : Variable) (b : BlockId) : (visit v s b).Dated := by
  by_cases hmem : b ∈ s.withPhi
  · rw [visit_of_mem v hmem]
    exact h
  · rcases visit_of_notMem v hmem with ⟨-, heq⟩ | ⟨-, heq⟩ <;> rw [heq]
    · exact ⟨mark_insert_le h.placed b, h.listed⟩
    · exact ⟨mark_insert_le h.placed b, mark_insert_le h.listed b⟩

/-- All marks are of earlier turns when a turn starts, but for those of the blocks on the list. -/
theorem Dated.next (h : s.Dated) (bs : List BlockId) :
    (s.next bs).Dated ∧ (s.next bs).withPhi = ∅ ∧ ∀ b, b ∈ (s.next bs).seen ↔ b ∈ bs := by
  have hlisted := foldl_invariant (l := bs) (s := s.listed)
    (f := fun marks b => marks.insert b (s.turn + 1))
    (fun done (marks : Table BlockId Nat) => ∀ b, mark marks b ≤ s.turn + 1 ∧
      (s.turn + 1 ≤ mark marks b ↔ b ∈ done))
    (fun b => ⟨(h.listed b).trans (Nat.le_succ _), by simpa using Nat.lt_succ_of_le (h.listed b)⟩)
    fun done b _ marks _ hmarks c => ⟨mark_insert_le (fun c => (hmarks c).1) b c, by
      rw [le_mark_insert, (hmarks c).2, mem_append, mem_singleton, or_comm]⟩
  refine ⟨⟨fun b => (h.placed b).trans (Nat.le_succ _), fun b => (hlisted b).1⟩, ?_,
    fun b => (hlisted b).2⟩
  exact Set.eq_empty_of_forall_notMem fun b hb => absurd (h.placed b) (Nat.not_le.mpr hb)

end Placing

/-- What holds while the phi nodes of `v` are placed, `cur` being the function before. The frontiers
of the blocks in `E` need not have been visited. -/
structure Sweep (start cur : Func) (v : Variable) (E : BlockId → Prop) (s : Placing) : Prop
    extends s.Dated where
  fn : start.Placed s.fn
  others : ∀ b w, w ≠ v → (s.fn.block b).pending.get? w = (cur.block b).pending.get? w
  mem_withPhi : ∀ b, b ∈ s.withPhi ↔ ((s.fn.block b).pending.get? v).isSome
  mem_seen : ∀ b ∈ start.order, ((s.fn.block b).written.get? v).isSome → b ∈ s.seen
  seen : ∀ b ∈ s.seen, b ∈ start.order ∧ ((s.fn.block b).written.get? v).isSome
  work : ∀ b ∈ s.work, b ∈ s.seen
  closed : ∀ x ∈ s.seen, E x ∨ x ∈ s.work ∨ ∀ y ∈ start.frontierOf x, y ∈ s.withPhi
  needed : ∀ y ∈ s.withPhi, start.NeedsPhi v y

/-- The frontiers of the blocks in order lie among them. -/
structure Framed (start : Func) : Prop where
  nodup : start.order.Nodup
  lt : ∀ b ∈ start.order, b < start.blocks.size
  frontier : ∀ x ∈ start.order, ∀ y ∈ start.frontierOf x, y ∈ start.order

/-- How many blocks are on the list or may still be put on it. -/
def remaining (start : Func) (s : Placing) : Nat :=
  s.work.length + (start.order.filter (· ∉ s.seen)).length

theorem remaining_insert {s : Placing} (fn : Func) (placed : Table BlockId Nat)
    (hy : y ∈ start.order) (hnew : y ∉ s.seen) :
    start.remaining { s with
      fn, placed, listed := s.listed.insert y s.turn, work := y :: s.work } ≤
      start.remaining s := by
  set s' : Placing := { s with fn, placed, listed := s.listed.insert y s.turn, work := y :: s.work }
  have hseen : ∀ z, z ∈ s'.seen ↔ z = y ∨ z ∈ s.seen := fun z => Placing.le_mark_insert _ y z _
  have hsplit : ∀ z, decide (z ∉ s'.seen) = (decide (z ∉ s.seen) && decide (z ≠ y)) := by
    intro z
    by_cases hz : z = y <;> simp [hseen, hz]
  have hlt : ((start.order.filter (· ∉ s.seen)).filter (· ≠ y)).length <
      (start.order.filter (· ∉ s.seen)).length :=
    length_filter_lt_length_iff_exists.mpr ⟨y, by simp [hy, hnew], by simp⟩
  rw [remaining, remaining, length_cons]
  simp only [hsplit, ← filter_filter]
  rw [filter_comm]
  omega

variable {E : BlockId → Prop} {s : Placing}

/-- The blocks on the list write the variable to begin with or have a phi node for it. -/
theorem Sweep.needsPhi (h : start.Sweep cur v E s) (hx : x ∈ s.seen)
    (hy : y ∈ start.frontierOf x) : start.NeedsPhi v y := by
  obtain ⟨horder, hw⟩ := h.seen x hx
  rw [h.fn.written, Option.isSome_or, Bool.or_eq_true] at hw
  rcases hw with hw | hp
  · exact .write horder hw hy
  · exact .phi (h.needed x ((h.mem_withPhi x).mpr hp)) hy

theorem Sweep.visit (h : start.Sweep cur v E s) (hf : start.Framed) (hx : x ∈ s.seen)
    (hy : y ∈ start.frontierOf x) :
    start.Sweep cur v E (Placing.visit v s y) ∧ y ∈ (Placing.visit v s y).withPhi ∧
      (∀ z ∈ s.withPhi, z ∈ (Placing.visit v s y).withPhi) ∧
      (∀ z ∈ s.seen, z ∈ (Placing.visit v s y).seen) ∧
      start.remaining (Placing.visit v s y) ≤ start.remaining s := by
  by_cases hmem : y ∈ s.withPhi
  · rw [Placing.visit_of_mem v hmem]
    exact ⟨h, hmem, fun _ => id, fun _ => id, le_rfl⟩
  · obtain ⟨hfn, hphi, hseen⟩ := Placing.mem_visit v hmem
    have hcases := Placing.visit_of_notMem v hmem
    have hyorder := hf.frontier x (h.seen x hx).1 y hy
    obtain ⟨hplaced, hself, hothers⟩ := h.fn.placePhi (hf.lt y hyorder) v
    rw [← hfn] at hplaced hself hothers
    have hpending : ∀ b, b ∈ (Placing.visit v s y).withPhi ↔
        (((Placing.visit v s y).fn.block b).pending.get? v).isSome := by
      intro b
      rw [hphi]
      by_cases hb : b = y
      · subst hb
        simp [hself]
      · rw [hothers b v fun h => hb h.1, ← h.mem_withPhi b]
        simp [hb]
    have hwritten : ∀ b, (((Placing.visit v s y).fn.block b).written.get? v).isSome ↔
        b = y ∨ ((s.fn.block b).written.get? v).isSome := by
      intro b
      rw [hplaced.written, h.fn.written, Option.isSome_or, Option.isSome_or, Bool.or_eq_true,
        Bool.or_eq_true, ← hpending, ← h.mem_withPhi, hphi]
      exact or_left_comm
    have hlist : ∀ z ∈ s.work, z ∈ (Placing.visit v s y).work := by
      rcases hcases with ⟨-, heq⟩ | ⟨-, heq⟩ <;> simp +contextual [heq]
    refine ⟨{
      toDated := h.toDated.visit v y
      fn := hplaced
      others := fun b w hw => (hothers b w fun h => hw h.2).trans (h.others b w hw)
      mem_withPhi := hpending
      mem_seen := fun b hb hw => (hseen b).mpr (((hwritten b).mp hw).imp_right (h.mem_seen b hb))
      seen := fun b hb => ?_
      work := fun b hb => ?_
      closed := fun z hz => ?_
      needed := fun z hz => ?_ }, (hphi y).mpr (.inl rfl), fun z hz => (hphi z).mpr (.inr hz),
      fun z hz => (hseen z).mpr (.inr hz), ?_⟩
    · rcases (hseen b).mp hb with rfl | hb
      · exact ⟨hyorder, (hwritten b).mpr (.inl rfl)⟩
      · exact ⟨(h.seen b hb).1, (hwritten b).mpr (.inr (h.seen b hb).2)⟩
    · rw [hseen]
      rcases hcases with ⟨-, heq⟩ | ⟨-, heq⟩ <;> rw [heq] at hb
      · exact .inr (h.work b hb)
      · exact (mem_cons.mp hb).imp_right (h.work b)
    · -- a block that is new to this turn is on the list
      by_cases hzseen : z ∈ s.seen
      · exact (h.closed z hzseen).imp_right (.imp (hlist z) fun hall w hw =>
          (hphi w).mpr (.inr (hall w hw)))
      · obtain rfl := ((hseen z).mp hz).resolve_right hzseen
        rcases hcases with ⟨hzs, -⟩ | ⟨-, heq⟩
        · exact absurd hzs hzseen
        · exact .inr (.inl (by simp [heq]))
    · rcases (hphi z).mp hz with rfl | hz
      · exact h.needsPhi hx hy
      · exact h.needed z hz
    · rcases hcases with ⟨-, heq⟩ | ⟨hnew, heq⟩ <;> rw [heq]
      · exact le_rfl
      · exact remaining_insert _ _ hyorder hnew

theorem Sweep.visits (h : start.Sweep cur v E s) (hf : start.Framed) (hx : x ∈ s.seen)
    {ys : List BlockId} (hys : ∀ y ∈ ys, y ∈ start.frontierOf x) :
    start.Sweep cur v E (ys.foldl (Placing.visit v) s) ∧
      (∀ y ∈ ys, y ∈ (ys.foldl (Placing.visit v) s).withPhi) ∧
      (∀ z ∈ s.withPhi, z ∈ (ys.foldl (Placing.visit v) s).withPhi) ∧
      start.remaining (ys.foldl (Placing.visit v) s) ≤ start.remaining s := by
  induction ys generalizing s with
  | nil => exact ⟨h, by simp, fun _ => id, le_rfl⟩
  | cons y ys ih =>
    obtain ⟨h₁, hy, hphi, hseen, hrem⟩ := h.visit hf hx (hys y (by simp))
    obtain ⟨h₂, hall, hphi₂, hrem₂⟩ :=
      ih h₁ (hseen x hx) fun z hz => hys z (mem_cons_of_mem _ hz)
    refine ⟨h₂, fun z hz => ?_, fun z hz => hphi₂ z (hphi z hz), hrem₂.trans hrem⟩
    rcases mem_cons.mp hz with rfl | hz
    · exact hphi₂ z hy
    · exact hall z hz

/-- Every step takes a block off the list, so that the work comes to an end. -/
theorem Sweep.exists_run (h : start.Sweep cur v (fun _ => False) s) (hf : start.Framed)
    {steps : Nat} (hsteps : start.remaining s < steps) :
    ∃ s', Placing.run v steps s = .ok s' ∧ start.Sweep cur v (fun _ => False) s' ∧
      s'.work = [] := by
  induction steps generalizing s with
  | zero => omega
  | succ steps ih =>
    rw [Placing.run]
    cases hwork : s.work with
    | nil => exact ⟨s, rfl, h, hwork⟩
    | cons b rest =>
      have hb : b ∈ s.seen := h.work b (by simp [hwork])
      have hpop : start.Sweep cur v (· = b) { s with work := rest } :=
        { h with
          work := fun c hc => h.work c (by simp [hwork, hc])
          closed := fun z hz => by
            rcases h.closed z hz with hF | hw | hall
            · exact hF.elim
            · rw [hwork, mem_cons] at hw
              exact hw.imp_right .inl
            · exact .inr (.inr hall) }
      have hfront : s.fn.frontierOf b = start.frontierOf b := h.fn.frontierOf b
      have hys : ∀ y ∈ s.fn.orderedFrontier b, y ∈ start.frontierOf b :=
        fun y hy => hfront ▸ mem_orderedFrontier.mp hy
      obtain ⟨h₁, hall, -, hrem⟩ := hpop.visits hf hb hys
      refine ih { h₁ with closed := fun z hz => ?_ } ?_
      · rcases h₁.closed z hz with rfl | h'
        · exact .inr (.inr fun y hy => hall y (mem_orderedFrontier.mpr (hfront ▸ hy)))
        · exact .inr h'
      · have hpopped : start.remaining { s with work := rest } + 1 = start.remaining s := by
          have hseen : ({ s with work := rest } : Placing).seen = s.seen := rfl
          simp only [remaining, hwork, hseen, length_cons]
          omega
        omega

/-- The blocks that write `v` have phi nodes for it in their frontiers, and only their iterated
frontier has any. -/
structure PhisClosed (start cur : Func) (v : Variable) : Prop where
  closed : ∀ x ∈ start.order, ((cur.block x).written.get? v).isSome →
    ∀ y ∈ start.frontierOf x, ((cur.block y).pending.get? v).isSome
  needed : ∀ y, ((cur.block y).pending.get? v).isSome → start.NeedsPhi v y

/-- A block with a phi node is in the frontier of a block that writes the variable now. -/
theorem PhisClosed.exists_writer (h : start.PhisClosed cur v) (hplaced : start.Placed cur)
    (hf : start.Framed) (hy : start.NeedsPhi v y) :
    y ∈ start.order ∧ ((cur.block y).pending.get? v).isSome ∧
      ∃ x ∈ start.order, ((cur.block x).written.get? v).isSome ∧ y ∈ start.frontierOf x := by
  have hnext : ∀ {x y}, x ∈ start.order → ((cur.block x).written.get? v).isSome →
      y ∈ start.frontierOf x → y ∈ start.order ∧ ((cur.block y).pending.get? v).isSome ∧
        ∃ x ∈ start.order, ((cur.block x).written.get? v).isSome ∧ y ∈ start.frontierOf x :=
    fun hx hw hy => ⟨hf.frontier _ hx _ hy, h.closed _ hx hw _ hy, _, hx, hw, hy⟩
  induction hy with
  | write hx hw hy =>
    refine hnext hx ?_ hy
    rw [hplaced.written, Option.isSome_or, hw, Bool.true_or]
  | phi _ hy ih =>
    refine hnext ih.1 ?_ hy
    rw [hplaced.written, Option.isSome_or, ih.2.1, Bool.or_true]

theorem exists_placeVariable (hdated : s.Dated) (h : start.Placed s.fn) (hf : start.Framed)
    (hv : ∀ b, (s.fn.block b).pending.get? v = none) {bs : List BlockId}
    (hbs : ∀ b, b ∈ bs ↔ b ∈ start.order ∧ ((start.block b).written.get? v).isSome) :
    ∃ s', s.placeVariable v bs = .ok s' ∧ s'.Dated ∧ start.Placed s'.fn ∧
      (∀ b w, w ≠ v → (s'.fn.block b).pending.get? w = (s.fn.block b).pending.get? w) ∧
      start.PhisClosed s'.fn v := by
  have hwritten : ∀ b, (s.fn.block b).written.get? v = (start.block b).written.get? v := by
    intro b
    rw [h.written, hv b, Option.or_none]
  obtain ⟨hnext, hphi, hseen⟩ := hdated.next bs
  have hstart : start.Sweep s.fn v (fun _ => False) (s.next bs) :=
    { hnext with
      fn := h
      others := fun _ _ _ => rfl
      mem_withPhi := fun b => by simp [hphi, show (s.next bs).fn = s.fn from rfl, hv b]
      mem_seen := fun b hb hw => (hseen b).mpr ((hbs b).mpr ⟨hb, hwritten b ▸ hw⟩)
      seen := fun b hb => (hbs b).mp ((hseen b).mp hb) |>.imp_right (hwritten b ▸ ·)
      work := fun b hb => (hseen b).mpr (mem_reverse.mp hb)
      closed := fun x hx => .inr (.inl (mem_reverse.mpr ((hseen x).mp hx)))
      needed := by simp [hphi] }
  have hsteps : start.remaining (s.next bs) < s.fn.blocks.size + bs.length + 1 := by
    have h₁ : (start.order.filter _).length ≤ _ := length_filter_le (· ∉ (s.next bs).seen) _
    have h₂ := Graph.length_le_of_lt hf.nodup hf.lt
    have h₃ := h.size
    have h₄ : (s.next bs).work.length = bs.length := length_reverse
    rw [remaining, h₄]
    omega
  obtain ⟨s', hrun, hs, hwork⟩ := hstart.exists_run hf hsteps
  refine ⟨s', hrun, hs.toDated, hs.fn, hs.others, fun x hx hw y hy => ?_, fun y hy =>
    hs.needed y ((hs.mem_withPhi y).mpr hy)⟩
  rcases hs.closed x (hs.mem_seen x hx hw) with h' | h' | hall
  · exact h'.elim
  · simp [hwork] at h'
  · exact (hs.mem_withPhi y).mp (hall y hy)

/-! ## All variables -/

theorem assignments_spec (fn : Func) :
    fn.assignments.Ordered ∧ ∀ v b, b ∈ (fn.assignments.get? v).getD [] ↔
      b ∈ fn.order ∧ ((fn.block b).written.get? v).isSome := by
  rw [assignments]
  refine foldl_invariant (fun done (table : Table Variable (List BlockId)) =>
    table.Ordered ∧ ∀ v b, b ∈ (table.get? v).getD [] ↔
      b ∈ done ∧ ((fn.block b).written.get? v).isSome) ⟨Table.ordered_empty, by simp⟩ ?_
  rintro done b rest table - ⟨hord, hmem⟩
  have hkeys := foldl_invariant (l := (fn.block b).written.keys) (s := table)
    (f := fun table v => table.insert v ((table.get? v).getD [] ++ [b]))
    (fun keys (now : Table Variable (List BlockId)) => now.Ordered ∧ ∀ v c,
      c ∈ (now.get? v).getD [] ↔ c ∈ (table.get? v).getD [] ∨ c = b ∧ v ∈ keys)
    ⟨hord, by simp⟩ (by
      rintro keys v - now - ⟨hord, hmem⟩
      refine ⟨hord.insert _ _, fun w c => ?_⟩
      rw [Table.get?_insert]
      by_cases hvw : v = w
      · subst hvw
        simp only [if_pos, Option.getD_some, mem_append, hmem v c, mem_singleton]
        constructor
        · rintro ((h | h) | h) <;> simp [h]
        · rintro (h | ⟨h, -⟩) <;> simp [h]
      · simp [hvw, hmem w c, Ne.symm hvw])
  refine ⟨hkeys.1, fun v c => ?_⟩
  rw [hkeys.2 v c, hmem v c, Table.mem_keys, ← Option.isSome_iff_exists, mem_append,
    mem_singleton, or_and_right]
  exact or_congr_right (and_congr_right fun hc => by rw [hc])

/-- Phi nodes can be placed for all variables. -/
theorem exists_placePhis (hf : start.Framed) (hp : ∀ b, (start.block b).pending = .empty) :
    ∃ cur, start.placePhis = .ok cur ∧ start.Placed cur ∧ ∀ v, start.PhisClosed cur v := by
  obtain ⟨hord, hmem⟩ := assignments_spec start
  have hentry : ∀ e ∈ start.assignments.entries, ∀ b, b ∈ e.2 ↔
      b ∈ start.order ∧ ((start.block b).written.get? e.1).isSome := by
    intro e he b
    rw [← hmem e.1 b, (Table.Ordered.mem_entries hord).mp he]
    rfl
  have hstart : Placing.Dated { fn := start } := ⟨fun _ => le_rfl, fun _ => le_rfl⟩
  obtain ⟨s, hok, -, hplaced, hdone, hrest⟩ := exists_foldlM (l := start.assignments.entries)
    (s := { fn := start }) (f := fun (s : Placing) e => s.placeVariable e.1 e.2)
    (fun done s => s.Dated ∧ start.Placed s.fn ∧
      (∀ v ∈ done.map (·.1), start.PhisClosed s.fn v) ∧
      ∀ v, v ∉ done.map (·.1) → ∀ b, (s.fn.block b).pending.get? v = none)
    ⟨hstart, .refl hp, by simp, fun v _ b => by simp [hp b]⟩ (by
      rintro done ⟨v, bs⟩ rest s hsplit ⟨hdated, hplaced, hdone, hrest⟩
      have hkeys : (done.map (·.1) ++ v :: rest.map (·.1)).Nodup := by
        have := hord.nodup_keys
        rw [Table.keys, hsplit] at this
        simpa using this
      have hv : v ∉ done.map (·.1) := fun hv =>
        (nodup_append.mp hkeys).2.2 v hv v (by simp) rfl
      obtain ⟨s', hok, hdated', hplaced', hothers, hclosed⟩ := exists_placeVariable hdated hplaced
        hf (hrest v hv) (hentry (v, bs) (by rw [hsplit]; simp))
      refine ⟨s', hok, hdated', hplaced', fun w hw => ?_, fun w hw b => ?_⟩
      · -- the turn of `v` leaves the phi nodes of earlier variables alone
        by_cases hwv : w = v
        · exact hwv ▸ hclosed
        · have hw' : w ∈ done.map (·.1) := by simpa [hwv] using hw
          have hwritten : ∀ b, (s'.fn.block b).written.get? w = (s.fn.block b).written.get? w := by
            intro b
            rw [hplaced'.written, hplaced.written, hothers b w hwv]
          obtain ⟨hclosed', hneeded⟩ := hdone w hw'
          refine ⟨fun x hx hxw y hy => ?_, fun y hy => ?_⟩
          · rw [hothers y w hwv]
            exact hclosed' x hx (hwritten x ▸ hxw) y hy
          · rw [hothers y w hwv] at hy
            exact hneeded y hy
      · rw [map_append, mem_append, not_or] at hw
        rw [hothers b w fun h => hw.2 (by simp [h])]
        exact hrest w hw.1 b)
  refine ⟨s.fn, by rw [placePhis, hok]; rfl, hplaced, fun v => ?_⟩
  by_cases hv : v ∈ start.assignments.entries.map (·.1)
  · exact hdone v hv
  · -- a variable that no block in order writes
    have hnone := hrest v hv
    have hwritten : ∀ x ∈ start.order, (s.fn.block x).written.get? v = none := by
      intro x hx
      have hget : start.assignments.get? v = none := Table.get?_eq_none.mpr hv
      have := (hmem v x).not.mp (by rw [hget]; simp)
      rw [hplaced.written, hnone x, Option.or_none]
      simpa [hx] using this
    exact ⟨fun x hx hxw => by simp [hwritten x hx] at hxw, fun y hy => by simp [hnone y] at hy⟩

end Func

end SsaBlocks
