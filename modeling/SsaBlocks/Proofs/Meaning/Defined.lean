import Mathlib.Order.Lattice.Nat
import SsaBlocks.Proofs.Meaning.Loads
import SsaBlocks.Proofs.Simplify.Removal
import SsaBlocks.Proofs.Simplify.Repeats

/-!
# Functions whose definitions dominate their uses

Nothing is asked here of the edges of a graph: what counts is where control can go, instruction by
instruction. If every temporary comes from one place, and that place is passed on every way to a use,
then removing repeated loads changes nothing that can be seen of a run, as long as the traversal
finds every block that control can reach. It leaves no repeated loads, and a second pass does
nothing.

The traversal may miss a block that control can reach: one that owns itself, after an empty block at
the end of its loop has been removed. Such a block goes on using the result of a load that is gone.

## Main results

* `Func.DefinesFirst.availability`: what is available by dominance of places
* `Func.DefinesFirst.trace_removeRedundantLoads`: removing repeated loads
-/

namespace SsaBlocks

open SsaBlocks.Flow

namespace Flow

variable {α : Type} {r : α → α → Prop} {e a b c : α}

/-- What dominates a strict dominator dominates strictly. -/
theorem StrictlyDominates.trans_right (hab : StrictlyDominates r e a b) (hbc : Dominates r e b c)
    (hc : Reachable r e c) : StrictlyDominates r e a c := by
  refine ⟨hab.1.trans hbc, ?_⟩
  rintro rfl
  exact hab.2 (hab.1.antisymm hbc (hbc.reachable hc))

/-- A node that a set cannot be left but through. -/
theorem Dominates.of_closed {S : α → Prop} (he : S e) (hS : ∀ x y, S x → r x y → S y ∨ y = a)
    (hb : ¬ S b) : Dominates r e a b := by
  intro l hl
  induction hl with
  | nil => exact absurd he hb
  | cons hstep hwalk ih =>
    rcases hS _ _ he hstep with hy | rfl
    · exact (ih hy hb).imp_left (List.mem_cons_of_mem _)
    · cases hwalk with
      | nil => exact .inr rfl
      | cons => exact .inl (by simp)

/-- The length of a shortest walk from the entry. -/
noncomputable def distance (r : α → α → Prop) (e b : α) : Nat :=
  sInf {n | ∃ l, Walk r e b l ∧ l.length = n}

theorem exists_walk_distance (hb : Reachable r e b) :
    ∃ l, Walk r e b l ∧ l.length = distance r e b := by
  obtain ⟨l, hl⟩ := hb
  exact Nat.sInf_mem (s := {n | ∃ l, Walk r e b l ∧ l.length = n}) ⟨l.length, l, hl, rfl⟩

theorem StrictlyDominates.distance_lt (h : StrictlyDominates r e a b) (hb : Reachable r e b) :
    distance r e a < distance r e b := by
  obtain ⟨l, hl, hlen⟩ := exists_walk_distance hb
  obtain ⟨m, n, rfl⟩ := List.append_of_mem (h.mem hl)
  have hle : distance r e a ≤ m.length := Nat.sInf_le ⟨m, hl.split.1, rfl⟩
  rw [← hlen, List.length_append, List.length_cons]
  omega

theorem Dominates.distance_le (h : Dominates r e a b) (hb : Reachable r e b) :
    distance r e a ≤ distance r e b := by
  by_cases hab : a = b
  · rw [hab]
  · exact (StrictlyDominates.distance_lt ⟨h, hab⟩ hb).le

end Flow

namespace Func

variable {fn : Func} {b c : BlockId} {n m i : Nat} {t : Temp} {p : BlockId × Nat}

/-- Control goes from one place to another: to the next instruction of the block, unless the block is
left. -/
inductive Proceeds (fn : Func) : BlockId × Nat → BlockId × Nat → Prop
  | next {b : BlockId} {n : Nat} {inst : Instruction} (hinst : (fn.block b).code[n]? = some inst)
      (hopen : inst.isTerminator = false) : Proceeds fn (b, n) (b, n + 1)
  | leave {b c : BlockId} {n : Nat} (h : fn.Leaves b n c) : Proceeds fn (b, n) (c, 0)

/-- Control can come to the place. -/
def ComesTo (fn : Func) (p : BlockId × Nat) : Prop :=
  Reachable fn.Proceeds (fn.entry, 0) p

/-- The source comes before the place, whichever way control comes there. -/
def Source.Precedes (fn : Func) (p : BlockId × Nat) : Source → Prop
  | .param _ => True
  | .read c _ => Dominates fn.Proceeds (fn.entry, 0) (c, 0) p
  | .result c i => StrictlyDominates fn.Proceeds (fn.entry, 0) (c, i) p

/-- The temporary has been defined before the place. -/
def Defined (fn : Func) (p : BlockId × Nat) (t : Temp) : Prop :=
  ∃ s, fn.Makes s t ∧ Source.Precedes fn p s

/-- Every temporary has one definition, and it dominates the uses of the temporary: as an operand,
and as what a variable holds when a block is left. -/
structure DefinesFirst (fn : Func) : Prop where
  single : ∀ s s' t, fn.Makes s t → fn.Makes s' t → s = s'
  operands : ∀ b n inst t, (fn.block b).code[n]? = some inst → t ∈ inst.operands →
    fn.Defined (b, n) t
  written : ∀ b n c v t, fn.Leaves b n c → (fn.block b).written.get? v = some t →
    fn.Defined (b, n) t

theorem proceeds_succ (h : fn.Proceeds p (b, n + 1)) : p = (b, n) := by
  cases h with
  | next => rfl

theorem ComesTo.proceeds (h : fn.ComesTo (b, n + 1)) : fn.Proceeds (b, n) (b, n + 1) := by
  obtain ⟨l, hl⟩ := h
  rcases hl.eq_nil_or_snoc with ⟨-, heq⟩ | ⟨m, p, -, -, hp⟩
  · cases heq
  · rwa [proceeds_succ hp] at hp

theorem dominates_succ : Dominates fn.Proceeds (fn.entry, 0) (b, n) (b, n + 1) := by
  refine .of_forall_pred (by simp) fun p hp => ?_
  rw [proceeds_succ hp]
  exact .refl _

theorem dominates_of_le (hmn : m ≤ n) : Dominates fn.Proceeds (fn.entry, 0) (b, m) (b, n) := by
  induction hmn with
  | refl => exact .refl _
  | step _ ih => exact ih.trans dominates_succ

/-- What is defined at a dominator is defined. -/
theorem Defined.of_dominates {q : BlockId × Nat} (h : fn.Defined p t)
    (hpq : Dominates fn.Proceeds (fn.entry, 0) p q) (hq : fn.ComesTo q) : fn.Defined q t := by
  obtain ⟨s, hs, hbefore⟩ := h
  refine ⟨s, hs, ?_⟩
  cases s with
  | param i => trivial
  | read c v => exact Dominates.trans hbefore hpq
  | result c i => exact StrictlyDominates.trans_right hbefore hpq hq

/-- What is defined at a place was defined at the place before, or there, or is a placeholder of the
block that is entered. -/
theorem Defined.pred {q : BlockId × Nat} (h : fn.Defined q t) (hpq : fn.Proceeds p q)
    (hread : ∀ v, q.2 = 0 → ¬ fn.Makes (.read q.1 v) t) :
    fn.Defined p t ∨ fn.Makes (.result p.1 p.2) t := by
  obtain ⟨s, hs, hbefore⟩ := h
  cases s with
  | param i => exact .inl ⟨.param i, hs, trivial⟩
  | read c v =>
    refine .inl ⟨.read c v, hs, StrictlyDominates.pred ⟨hbefore, ?_⟩ hpq⟩
    rintro rfl
    exact hread v rfl hs
  | result c i =>
    have hdom := StrictlyDominates.pred hbefore hpq
    by_cases hp : (c, i) = p
    · subst hp
      exact .inr hs
    · exact .inl ⟨.result c i, hs, hdom, hp⟩

theorem Leaves.not_makes (h : fn.Leaves b n c) : ¬ fn.Makes (.result b n) t := by
  rintro ⟨inst, hinst, hres⟩
  rcases h with ⟨inst', hinst', hc⟩ | ⟨rfl, -⟩
  · obtain rfl : inst = inst' := Option.some.inj (hinst.symm.trans hinst')
    cases inst <;> simp_all [Instruction.targets, Instruction.result?]
  · simp at hinst

namespace DefinesFirst

variable (h : fn.DefinesFirst)
include h

theorem precedes_of_makes {s : Source} (ht : fn.Defined p t) (hs : fn.Makes s t) :
    s.Precedes fn p := by
  obtain ⟨s', hs', hbefore⟩ := ht
  obtain rfl := h.single s s' t hs hs'
  exact hbefore

/-- What is available by dominance of places, which are ranked by how far they are. -/
noncomputable def availability (hfound : ∀ b n, fn.ComesTo (b, n) → b ∈ fn.canonicalOrder) :
    fn.Availability where
  At b n := fn.ComesTo (b, n)
  Has b n t := fn.Defined (b, n) t
  rank b n := distance fn.Proceeds (fn.entry, 0) (b, n)
  single := h.single
  mem := hfound _ _
  at_of_le hat hle := (dominates_of_le hle).reachable hat
  next hat hinst hopen := Reachable.step hat (.next hinst hopen)
  rank_le hat hle := (dominates_of_le hle).distance_le hat
  mono hat hle ht := ht.of_dominates (dominates_of_le hle) hat
  result hat hs := ⟨_, hs, dominates_succ, by simp⟩
  of_succ hat ht := ht.pred hat.proceeds (by simp)
  result_lt hat ht hs := by
    have hdom : StrictlyDominates .. := h.precedes_of_makes ht hs
    exact ⟨hdom.1.reachable hat, hdom.distance_lt hat⟩
  read_le hat ht hs := Dominates.distance_le (h.precedes_of_makes ht hs) hat
  trans hat ht hs hu := by
    have hdom : StrictlyDominates .. := h.precedes_of_makes ht hs
    exact hu.of_dominates hdom.1 hat
  operand _ hinst ht := h.operands _ _ _ _ hinst ht
  written _ hleaves hw := h.written _ _ _ _ _ hleaves hw
  enter hat hleaves := Reachable.step hat (.leave hleaves)
  before _ hleaves ht hread :=
    (ht.pred (.leave hleaves) fun v _ => hread v).resolve_right hleaves.not_makes
  start := .refl ..
  start_result ht hs := (h.precedes_of_makes ht hs : StrictlyDominates ..).ne_entry rfl

end DefinesFirst

/-- Without blocks, the traversal finds the entry alone. -/
theorem mem_canonicalOrder_of_size_le (hentry : fn.blocks.size ≤ fn.entry)
    (hb : b ∈ fn.canonicalOrder) : b = fn.entry := by
  induction hidx : fn.canonicalOrder.idxOf b using Nat.strong_induction_on generalizing b with
  | _ k ih =>
    rcases exists_owner_before hb with rfl | ⟨o, ho, hob, hlt⟩
    · rfl
    · obtain rfl := ih _ (hidx ▸ hlt) ho rfl
      have hchild := (owns_iff.mp hob).1
      simp [Graph.block_of_size_le hentry] at hchild

theorem removeRedundantLoads_of_size_le (hentry : fn.blocks.size ≤ fn.entry) :
    fn.removeRedundantLoads = fn := by
  refine removeRedundantLoads_of_noRepeats fun b hb => ?_
  rw [mem_canonicalOrder_of_size_le hentry hb, Graph.block_of_size_le hentry]
  simp [NoRepeats]

/-- If definitions dominate uses and the traversal finds what control can reach, removing repeated
loads changes nothing that can be seen of a run, from any memory and whatever calls do. In the blocks
that the traversal finds no load is repeated any more, and a second pass changes nothing. -/
theorem DefinesFirst.trace_removeRedundantLoads (h : fn.DefinesFirst) :
    ((∀ b n, fn.ComesTo (b, n) → b ∈ fn.canonicalOrder) → ∀ world k args g,
      fn.removeRedundantLoads.trace world k args g = fn.trace world k args g) ∧
    (∀ b ∈ fn.canonicalOrder, NoRepeats (fn.removeRedundantLoads.block b).code) ∧
    fn.removeRedundantLoads.removeRedundantLoads = fn.removeRedundantLoads := by
  refine ⟨fun hfound world k args g => ?_, fun b => noRepeats_removeRedundantLoads,
    removeRedundantLoads_idem fn⟩
  by_cases hentry : fn.entry < fn.blocks.size
  · have A := h.availability hfound
    obtain ⟨R, htrimmed⟩ := exists_trimmed A.distinctResults hentry
    exact htrimmed.trace_eq A world k args g
  · rw [removeRedundantLoads_of_size_le (Nat.not_lt.mp hentry)]

/-! ## Two loops -/

/-- The instructions of all blocks, with their places. -/
def allCode (fn : Func) : List (BlockId × Nat × Instruction) :=
  (List.range fn.blocks.size).flatMap fun b => (fn.block b).code.zipIdx.map fun e => (b, e.2, e.1)

theorem mem_allCode {inst : Instruction} (h : (fn.block b).code[n]? = some inst) :
    (b, n, inst) ∈ fn.allCode := by
  have hb : b < fn.blocks.size := by
    by_contra hb
    simp [Graph.block_of_size_le (Nat.not_lt.mp hb)] at h
  refine List.mem_flatMap.mpr ⟨b, List.mem_range.mpr hb, List.mem_map.mpr ⟨(inst, n), ?_, rfl⟩⟩
  exact List.mk_mem_zipIdx_iff_getElem?.mpr h

/-- In a function without parameters and variables all temporaries are results. -/
theorem DefinesFirst.of_allCode (sources : List Source) (hparams : fn.paramTemps = [])
    (hbare : ∀ b < fn.blocks.size, (fn.block b).awaited = .empty ∧ (fn.block b).written = .empty)
    (hsources : ∀ e ∈ fn.allCode, ∀ t ∈ e.2.2.result?, sources[t]? = some (.result e.1 e.2.1))
    (hoperands : ∀ e ∈ fn.allCode, ∀ t ∈ e.2.2.operands, fn.Defined (e.1, e.2.1) t) :
    fn.DefinesFirst := by
  have hempty := forall_block fn (P := fun blk => blk.awaited = .empty ∧ blk.written = .empty)
    ⟨rfl, rfl⟩ hbare
  have hsource : ∀ s t, fn.Makes s t → sources[t]? = some s := by
    intro s t hs
    cases s with
    | param i => simp [Makes, hparams] at hs
    | read b v => simp [Makes, (hempty b).1] at hs
    | result b i =>
      obtain ⟨inst, hinst, hres⟩ := hs
      exact hsources _ (mem_allCode hinst) t hres
  refine ⟨fun s s' t hs hs' => ?_, fun b n inst t hinst => hoperands _ (mem_allCode hinst) t,
    fun b n c v t _ hw => ?_⟩
  · exact Option.some.inj ((hsource s t hs).symm.trans (hsource s' t hs'))
  · simp [(hempty b).2] at hw

/-- All but the start comes after the first instruction of the entry, if that ends no block. -/
theorem dominates_of_ne_entry {inst : Instruction} (hinst : (fn.block fn.entry).code[0]? = some inst)
    (hopen : inst.isTerminator = false) (hp : p ≠ (fn.entry, 0)) :
    Dominates fn.Proceeds (fn.entry, 0) (fn.entry, 1) p := by
  refine .of_closed (S := (· = (fn.entry, 0))) rfl (fun x y hx hstep => .inr ?_) hp
  subst hx
  cases hstep with
  | next => rfl
  | leave h =>
    rcases h with ⟨inst', hinst', hc⟩ | ⟨hlen, -⟩
    · obtain rfl : inst = inst' := Option.some.inj (hinst.symm.trans hinst')
      cases inst <;> simp_all [Instruction.targets, Instruction.isTerminator]
    · have := (List.getElem?_eq_some_iff.mp hinst).1
      omega

theorem ComesTo.of_closed {P : BlockId → Prop} (h : fn.ComesTo p) (hentry : P fn.entry)
    (hleaves : ∀ b n c, P b → fn.Leaves b n c → P c) : P p.1 := by
  obtain ⟨l, hl⟩ := h
  suffices hwalk : ∀ {x y : BlockId × Nat} {l}, Walk fn.Proceeds x y l → P x.1 → P y.1 from
    hwalk hl hentry
  intro x y l hl
  induction hl with
  | nil => exact id
  | cons hstep _ ih =>
    intro hx
    cases hstep with
    | next => exact ih hx
    | leave h => exact ih (hleaves _ _ _ hx h)

def level : Variable := { id := 1, name := "level", kind := .globalVar, type := .int }

def limit : Variable := { id := 2, name := "limit", kind := .globalVar, type := .int }

/-- A loop that calls with what was loaded before it and in it. -/
def pumping : Func :=
  { name := "pump", params := [], resultType := .int
    blocks := #[
      { children := [1], code := [.load 0 level, .load 1 level, .store limit 1] },
      { parents := [1, 0], children := [2, 1]
        code := [.load 2 limit, .load 3 limit, .call (some 4) "turn" [1, 3], .branch 4 2 1] },
      { parents := [1], code := [.ret (some 1)] }] }

theorem definesFirst_pumping : pumping.DefinesFirst := by
  have hcode : pumping.allCode = [(0, 0, .load 0 level), (0, 1, .load 1 level),
      (0, 2, .store limit 1), (1, 0, .load 2 limit), (1, 1, .load 3 limit),
      (1, 2, .call (some 4) "turn" [1, 3]), (1, 3, .branch 4 2 1), (2, 0, .ret (some 1))] := rfl
  refine .of_allCode [.result 0 0, .result 0 1, .result 1 0, .result 1 1, .result 1 2]
    rfl (by decide) (by simp [hcode, Instruction.result?]) ?_
  have hone : ∀ p : BlockId × Nat, p ≠ (0, 0) → p ≠ (0, 1) → pumping.Defined p 1 :=
    fun p h₀ h₁ => ⟨.result 0 1, ⟨_, rfl, rfl⟩, dominates_of_ne_entry rfl rfl h₀, h₁.symm⟩
  have hthree : pumping.Defined (1, 2) 3 :=
    ⟨.result 1 1, ⟨_, rfl, rfl⟩, dominates_of_le (by decide), by decide⟩
  have hfour : pumping.Defined (1, 3) 4 :=
    ⟨.result 1 2, ⟨_, rfl, rfl⟩, dominates_of_le (by decide), by decide⟩
  simp [hcode, Instruction.operands, hone, hthree, hfour]

theorem comesTo_pumping (h : pumping.ComesTo p) : p.1 ∈ pumping.canonicalOrder := by
  have hchildren : ∀ b, ∀ c ∈ (pumping.block b).children, c ∈ pumping.canonicalOrder :=
    forall_block _ (P := fun blk => ∀ c ∈ blk.children, c ∈ pumping.canonicalOrder) (by simp)
      (by decide)
  have htargets : ∀ e ∈ pumping.allCode, ∀ c ∈ e.2.2.targets, c ∈ pumping.canonicalOrder := by
    decide
  refine h.of_closed (P := (· ∈ pumping.canonicalOrder)) (by decide) fun b n c _ hleaves => ?_
  rcases hleaves with ⟨inst, hinst, hc⟩ | ⟨-, hc⟩
  · exact htargets _ (mem_allCode hinst) c hc
  · exact hchildren b c (by simp [hc])

/-- Two of four loads are left, and no difference can be seen. -/
theorem pumping_unchanged : pumping.DefinesFirst ∧
    (∀ b n, pumping.ComesTo (b, n) → b ∈ pumping.canonicalOrder) ∧
    (∀ world k args g, pumping.removeRedundantLoads.trace world k args g =
      pumping.trace world k args g) ∧
    pumping.removeRedundantLoads.allCode = [(0, 0, .load 0 level), (0, 1, .store limit 0),
      (1, 0, .load 2 limit), (1, 1, .call (some 4) "turn" [0, 2]), (1, 2, .branch 4 2 1),
      (2, 0, .ret (some 0))] :=
  ⟨definesFirst_pumping, fun _ _ => comesTo_pumping,
    definesFirst_pumping.trace_removeRedundantLoads.1 fun _ _ => comesTo_pumping, by decide⟩

/-- A loop that an empty block closes, with two loads before it. -/
def spinning : Func :=
  { name := "spin", params := [], resultType := .void
    blocks := #[
      { children := [1], code := [.load 0 level, .load 1 level] },
      { parents := [2, 0], children := [2], code := [.call none "tick" [1]] },
      { parents := [1], children := [1] }] }

/-- The loop without the empty block. -/
def strayed : Func :=
  { name := "spin", params := [], resultType := .void
    blocks := #[
      { children := [1], code := [.load 0 level, .load 1 level] },
      { parents := [0, 1], children := [1], code := [.call none "tick" [1]] },
      {}] }

theorem definesFirst_strayed : strayed.DefinesFirst := by
  have hcode : strayed.allCode = [(0, 0, .load 0 level), (0, 1, .load 1 level),
      (1, 0, .call none "tick" [1])] := rfl
  refine .of_allCode [.result 0 0, .result 0 1] rfl (by decide)
    (by simp [hcode, Instruction.result?]) ?_
  have hone : strayed.Defined (1, 0) 1 :=
    ⟨.result 0 1, ⟨_, rfl, rfl⟩, dominates_of_ne_entry rfl rfl (by decide), by decide⟩
  simp [hcode, Instruction.operands, hone]

/-- The traversal does not find the block that owns itself, and the call in it is made with a
temporary that has no value any more. -/
theorem strayed_calls_differ : spinning.removeRedundantBlocks.toOption = some strayed ∧
    strayed.DefinesFirst ∧ strayed.ComesTo (1, 0) ∧ 1 ∉ strayed.canonicalOrder ∧
    (strayed.trace (fun _ _ _ g => .value (0, g)) 1 [] (Table.empty.insert level 7) []).1 =
      [.call "tick" [7]] ∧
    (strayed.removeRedundantLoads.trace (fun _ _ _ g => .value (0, g)) 1 []
      (Table.empty.insert level 7) []).1 = [.call "tick" [0]] := by
  have hwalk : strayed.ComesTo (1, 0) :=
    (((Reachable.refl _ (0, 0)).step (.next rfl rfl)).step (.next rfl rfl)).step
      (.leave (.inr ⟨rfl, rfl⟩))
  exact ⟨by decide, definesFirst_strayed, hwalk, by decide, by decide, by decide⟩

end Func

end SsaBlocks
