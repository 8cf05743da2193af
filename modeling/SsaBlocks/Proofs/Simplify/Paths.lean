import SsaBlocks.Proofs.Simplify.Removal

/-!
# Paths through the blocks that are left

A path through a function goes from block to block and says of each visit what is executed there,
which variables are read and written, and by which way the block is left. Taking out a block that
does nothing takes its visits out of the paths and leaves the rest of them as it was, for whatever
block was left to the removed one is now left by the same way to its child.

The edges of the blocks that are left keep agreeing: parents and children tell the same edges, each
of them once, jumps lead to the children, and no edge leads to a removed block or comes from one.

## Main results

* `Func.Bypassed.path_iff`, `Func.Emptying.path_iff`: the paths after one removal and after several
* `Func.Agreeing.contracted_of_removal`: what the pass leaves
-/

namespace SsaBlocks

open List

namespace Instruction

/-- The instruction without the blocks that it jumps to. -/
def unaimed : Instruction → Instruction
  | jump _ => jump 0
  | branch c _ _ => branch c 0 0
  | i => i

@[simp] theorem unaimed_retarget (b c : BlockId) (i : Instruction) :
    (i.retarget b c).unaimed = i.unaimed := by
  cases i <;> rfl

end Instruction

/-- The ways by which a block is left: by a jump or at its end, or by a branch whose condition
holds or fails. -/
inductive Way where
  | onward
  | holds
  | fails
deriving DecidableEq

/-- The block that the instruction leads to. -/
def Instruction.aim? : Instruction → Way → Option BlockId
  | jump t, .onward => some t
  | branch _ _ t, .holds => some t
  | branch _ e _, .fails => some e
  | _, _ => none

/-- A visit of a block: what is executed there, which variables are read on entry and hold new
values at the end, and by which way the block is left. -/
structure Visit where
  block : BlockId
  code : List Instruction
  reads : Table Variable Temp
  writes : Table Variable Temp
  way : Way

namespace Instruction

variable {i : Instruction} {e : Way} {y : BlockId}

@[simp] theorem aim?_retarget (b c : BlockId) (i : Instruction) (e : Way) :
    (i.retarget b c).aim? e = (i.aim? e).map fun t => if t = b then c else t := by
  cases i <;> cases e <;> rfl

theorem mem_targets_of_aim? (h : i.aim? e = some y) : y ∈ i.targets := by
  cases i <;> cases e <;> simp_all [aim?, targets]

end Instruction

namespace Func

open SsaBlocks.Flow

variable {fn fn' cur next : Func} {b c x y z : BlockId} {e : Way} {blocks : List BlockId}
  {C : Set BlockId} {l m : List Visit}

/-- What a visit of a block shows. -/
def visit (fn : Func) (x : BlockId) (way : Way) : Visit where
  block := x
  code := ((fn.block x).code.filter Instruction.isCode).map Instruction.unaimed
  reads := (fn.block x).awaited
  writes := (fn.block x).written
  way := way

/-- The block after `x`: where its first jump, branch or return leads, or else its only child. -/
def successor? (fn : Func) (x : BlockId) (way : Way) : Option BlockId :=
  match (fn.block x).code.find? Instruction.isTerminator with
  | some i => i.aim? way
  | none => if way = .onward ∧ (fn.block x).children.length = 1 then (fn.block x).children.head?
    else none

/-- A path from one block to another, with the visits of the blocks that it leaves. -/
inductive Path (fn : Func) : BlockId → List Visit → BlockId → Prop
  | nil (x : BlockId) : Path fn x [] x
  | cons {x y z : BlockId} {e : Way} {l : List Visit} : fn.successor? x e = some y →
      Path fn y l z → Path fn x (fn.visit x e :: l) z

theorem Path.append (h : fn.Path x l y) (k : fn.Path y m z) : fn.Path x (l ++ m) z := by
  induction h with
  | nil => exact k
  | cons hnext _ ih => exact .cons hnext (ih k)

open scoped Classical in
/-- The visits of the blocks in `C`. -/
noncomputable def visitsTo (C : Set BlockId) (l : List Visit) : List Visit :=
  l.filter (·.block ∈ C)

section visitsTo

theorem mem_visitsTo {v : Visit} : v ∈ visitsTo C l ↔ v ∈ l ∧ v.block ∈ C := by
  simp [visitsTo]

theorem visitsTo_eq_filter {p : Visit → Bool} (h : ∀ v ∈ l, v.block ∈ C ↔ p v) :
    visitsTo C l = l.filter p :=
  filter_congr fun v hv => by simp [h v hv]

theorem visitsTo_eq_self (h : ∀ v ∈ l, v.block ∈ C) : visitsTo C l = l :=
  filter_eq_self.mpr fun v hv => by simpa using h v hv

theorem visitsTo_diff (l : List Visit) :
    visitsTo (C \ {b}) l = (visitsTo C l).filter (·.block ≠ b) := by
  rw [visitsTo, visitsTo, filter_filter]
  refine filter_congr fun v _ => Bool.eq_iff_iff.mpr ?_
  simp [and_comm]

end visitsTo

/-- The edges of the blocks in `C` agree: parents and children tell the same ones without repeating
any, they stay inside of `C`, a jump, branch or return has the children as its targets, and a block
without one has at most one child. -/
structure Agreeing (fn : Func) (C : Set BlockId) : Prop where
  entry_lt : fn.entry < fn.blocks.size
  entry_mem : fn.entry ∈ C
  home : (fn.block fn.entry).home = fn.entry
  mutual_edges : ∀ x y, fn.Child x y ↔ fn.Edge x y
  nodup_children : ∀ x, (fn.block x).children.Nodup
  nodup_parents : ∀ x, (fn.block x).parents.Nodup
  children_mem : ∀ x ∈ C, ∀ y, fn.Child x y → y ∈ C
  parents_mem : ∀ x ∈ C, ∀ y, fn.Edge y x → y ∈ C
  targets : ∀ x ∈ C, ∀ i ∈ (fn.block x).code, i.isTerminator → ∀ y, y ∈ i.targets ↔ fn.Child x y
  falls : ∀ x ∈ C, (∀ i ∈ (fn.block x).code, i.isTerminator = false) →
    (fn.block x).children.length ≤ 1

namespace Agreeing

variable (ha : fn.Agreeing C)
include ha

theorem meshed : fn.Meshed C where
  entry_mem := ha.entry_mem
  home := ha.home
  counted x y := by
    rw [List.Nodup.count (ha.nodup_parents y), List.Nodup.count (ha.nodup_children x)]
    have hiff : y ∈ (fn.block x).children ↔ x ∈ (fn.block y).parents := ha.mutual_edges x y
    simp [hiff]
  edge x y := (ha.mutual_edges x y).mp
  closed := ha.children_mem
  single x y _ _ := nodup_iff_count_le_one.mp (ha.nodup_children x) y

theorem child_of_successor? (hx : x ∈ C) (h : fn.successor? x e = some y) : fn.Child x y := by
  rw [successor?] at h
  split at h
  · next i hi =>
    exact (ha.targets x hx i (mem_of_find?_eq_some hi) (find?_some hi) y).mp
      (Instruction.mem_targets_of_aim? h)
  · split at h
    · exact mem_of_mem_head? h
    · cases h

theorem mem_of_walk {l : List BlockId} (hl : Walk fn.Child x y l) (hx : x ∈ C) : y ∈ C := by
  induction hl with
  | nil => exact hx
  | cons hxy _ ih => exact ih (ha.children_mem _ hx _ hxy)

theorem mem_of_path (hp : fn.Path x l z) (hx : x ∈ C) : ∀ v ∈ l, v.block ∈ C := by
  induction hp with
  | nil => simp
  | cons hnext _ ih =>
    exact forall_mem_cons.mpr
      ⟨hx, ih (ha.children_mem _ hx _ (ha.child_of_successor? hx hnext))⟩

end Agreeing

theorem Idle.find?_isTerminator (hd : fn.Idle b c) :
    (fn.block b).code.find? Instruction.isTerminator = none :=
  find?_eq_none.mpr fun i hi => by
    simp [Instruction.isTerminator_of_not_isCode (hd.comments i hi)]

theorem Idle.successor?_eq_some (hd : fn.Idle b c) :
    fn.successor? b e = some y ↔ e = .onward ∧ y = c := by
  rw [successor?, hd.find?_isTerminator, hd.children]
  by_cases he : e = .onward <;> simp [he, eq_comm]

namespace Bypassed

variable (h : fn.Bypassed fn' blocks b c) (hd : fn.Idle b c)
include h hd

theorem visit_eq (hx : x ≠ b) (e : Way) : fn'.visit x e = fn.visit x e := by
  have hcomments : (fn.block b).code.filter Instruction.isCode = [] :=
    filter_eq_nil_iff.mpr fun i hi => by simp [hd.comments i hi]
  have hcode : ((fn'.block x).code.filter Instruction.isCode).map Instruction.unaimed =
      ((fn.block x).code.filter Instruction.isCode).map Instruction.unaimed := by
    rw [h.code_eq hx, filter_append, filter_map]
    split <;> split <;> simp [hcomments, Function.comp_def]
  simp only [visit, hcode, h.written x, h.awaited x]

/-- The instruction that ends a block, with its jump redirected. -/
theorem find?_isTerminator (hx : x ≠ b) (hmem : x ∈ blocks) :
    (fn'.block x).code.find? Instruction.isTerminator =
      ((fn.block x).code.find? Instruction.isTerminator).map (Instruction.retarget b c) := by
  rw [h.code_eq hx, find?_append, find?_map, if_pos hmem]
  split <;> simp [hd.find?_isTerminator, Function.comp_def]

variable (ha : fn.Agreeing C)
include ha

omit hd in
theorem children_eq_nil (hxb : x ≠ b) (hnil : (fn.block x).children = []) :
    (fn'.block x).children = [] := by
  have hcount := ha.meshed.counted x b
  rw [hnil, count_nil, Nat.le_zero] at hcount
  rw [h.children_eq hxb, hcount, hnil]
  rfl

/-- A block is left by the same ways, around the removed block. -/
theorem successor?_eq (hx : x ∈ C) (hxb : x ≠ b) (hmem : x ∈ blocks) :
    fn'.successor? x e = (fn.successor? x e).map fun t => if t = b then c else t := by
  rw [successor?, successor?, h.find?_isTerminator hd hxb hmem]
  cases hfind : (fn.block x).code.find? Instruction.isTerminator with
  | some i => simp
  | none =>
    have hle := ha.falls x hx fun i hi => by simpa using find?_eq_none.mp hfind i hi
    rcases hchildren : (fn.block x).children with _ | ⟨y, _ | ⟨_, _⟩⟩
    · simp [h.children_eq_nil ha hxb hchildren]
    · have hedge : fn.Edge x y := (ha.mutual_edges x y).mp (by simp [Graph.Child, hchildren])
      rw [h.children_singleton hd ha.meshed.counted hxb hchildren hedge]
      by_cases he : e = .onward <;> simp [he]
    · simp [hchildren] at hle

variable (hblocks : ∀ x ∈ C, x ∈ blocks)
include hblocks

/-- A path that does not start at the removed block was there before, with visits of that block. -/
theorem exists_path (hp : fn'.Path x l z) (hx : x ∈ C) (hxb : x ≠ b) :
    ∃ m, fn.Path x m z ∧ m.filter (·.block ≠ b) = l := by
  induction hp with
  | nil x => exact ⟨[], .nil x, rfl⟩
  | @cons x y z e l hnext _ ih =>
    rw [h.successor?_eq hd ha hx hxb (hblocks x hx), Option.map_eq_some_iff] at hnext
    obtain ⟨t, ht, rfl⟩ := hnext
    have htC : t ∈ C := ha.children_mem x hx t (ha.child_of_successor? hx ht)
    have hkeep : (fn.visit x e).block ≠ b := hxb
    by_cases htb : t = b
    · subst htb
      rw [if_pos rfl] at ih
      have hcC : c ∈ C := ha.children_mem t htC c (by simp [Graph.Child, hd.children])
      obtain ⟨m, hm, rfl⟩ := ih hcC hd.ne_child
      refine ⟨fn.visit x e :: fn.visit t .onward :: m,
        .cons ht (.cons (hd.successor?_eq_some.mpr ⟨rfl, rfl⟩) hm), ?_⟩
      have hdrop : (fn.visit t .onward).block = t := rfl
      simp [hkeep, hdrop, h.visit_eq hd hxb]
    · rw [if_neg htb] at ih
      obtain ⟨m, hm, rfl⟩ := ih htC htb
      exact ⟨fn.visit x e :: m, .cons ht hm, by simp [hkeep, h.visit_eq hd hxb]⟩

/-- A path leads around the removed block. -/
theorem path_around (hp : fn.Path x l z) (hx : x ∈ C) (hz : z ≠ b) :
    fn'.Path (if x = b then c else x) (l.filter (·.block ≠ b)) z := by
  induction hp with
  | nil x =>
    rw [if_neg hz]
    exact .nil x
  | @cons x y z e l hnext _ ih =>
    have hy : y ∈ C := ha.children_mem x hx y (ha.child_of_successor? hx hnext)
    by_cases hxb : x = b
    · subst hxb
      obtain ⟨rfl, rfl⟩ := hd.successor?_eq_some.mp hnext
      have hdrop : (fn.visit x .onward).block = x := rfl
      simpa [hdrop, hd.ne_child] using ih hy hz
    · have hkeep : (fn.visit x e).block ≠ b := hxb
      have hnext' : fn'.successor? x e = some (if y = b then c else y) := by
        rw [h.successor?_eq hd ha hx hxb (hblocks x hx), hnext]
        rfl
      rw [if_neg hxb, filter_cons_of_pos (by simpa using hkeep), ← h.visit_eq hd hxb]
      exact .cons hnext' (ih hy hz)

/-- The paths are those of before without the visits of the removed block. -/
theorem path_iff (hx : x ∈ C) (hxb : x ≠ b) (hz : z ≠ b) :
    fn'.Path x l z ↔ ∃ m, fn.Path x m z ∧ m.filter (·.block ≠ b) = l := by
  refine ⟨fun hp => h.exists_path hd ha hblocks hp hx hxb, ?_⟩
  rintro ⟨m, hp, rfl⟩
  simpa [hxb] using h.path_around hd ha hblocks hp hx hz

variable (hb : b ∈ C) (hrem : fn.isRemovable b)
include hb hrem

/-- The edges and jumps of the blocks that are left agree. -/
theorem agreeing : fn'.Agreeing (C \ {b}) where
  entry_lt := by
    rw [h.thins.edits.entry, h.thins.edits.size]
    exact ha.entry_lt
  entry_mem := (h.meshed hd ha.meshed hb hrem).entry_mem
  home := (h.meshed hd ha.meshed hb hrem).home
  mutual_edges x y := by
    rw [(h.meshed hd ha.meshed hb hrem).child_eq]
  nodup_children x := by
    by_cases hx : x = b
    · simp [hx, h.gone]
    refine nodup_iff_count_le_one.mpr fun y => ?_
    by_cases hy : y = b
    · rw [count_eq_zero.mpr]
      · exact Nat.zero_le 1
      · intro hmem
        rcases (h.child_iff hd ha.meshed hb hrem hx).mp hmem with ⟨hne, -⟩ | ⟨hc, -⟩
        · exact hne hy
        · exact hd.ne_child (hc.symm.trans hy)
    · exact h.single hd ha.meshed hb hrem hy
        (nodup_iff_count_le_one.mp (ha.nodup_children x) y)
  nodup_parents y := by
    by_cases hy : y = b
    · simp [hy, h.gone]
    rw [h.kept y hy]
    split
    · refine nodup_iff_count_le_one.mpr fun a => ?_
      have hle := nodup_iff_count_le_one.mp (ha.nodup_parents c) a
      rw [count_inheritParents]
      split
      · exact le_rfl
      · split
        · exact Nat.zero_le 1
        · exact hle
    · exact ha.nodup_parents y
  children_mem := (h.meshed hd ha.meshed hb hrem).closed
  parents_mem y hy x hxy := by
    rcases (h.edge_iff hd ha.meshed.counted).mp hxy with ⟨-, hxb⟩ | ⟨-, hx, hxy⟩
    · refine ⟨ha.parents_mem b hb x hxb, ?_⟩
      rintro rfl
      exact hd.ne_child ((hd.edge_iff ha.meshed.counted).mp hxb).symm
    · exact ⟨ha.parents_mem y hy.1 x hxy, hx⟩
  targets x hx i hi hterm y := by
    rw [h.child_iff hd ha.meshed hb hrem hx.2]
    rw [h.code_eq hx.2, if_pos (hblocks x hx.1), mem_append, mem_map] at hi
    rcases hi with hi | ⟨j, hj, rfl⟩
    · -- what the child inherits are comments, which do not end a block
      have hcomment : i ∈ (fn.block b).code := by
        split at hi
        · exact hi
        · cases hi
      rw [Instruction.isTerminator_of_not_isCode (hd.comments i hcomment)] at hterm
      cases hterm
    · rw [Instruction.isTerminator_retarget] at hterm
      have htargets := ha.targets x hx.1 j hj hterm
      rw [Instruction.targets_retarget, mem_map, ← htargets, ← htargets]
      constructor
      · rintro ⟨t, ht, rfl⟩
        split
        · next htb => exact .inr ⟨rfl, htb ▸ ht⟩
        · next htb => exact .inl ⟨htb, ht⟩
      · rintro (⟨hyb, hy⟩ | ⟨rfl, hbt⟩)
        · exact ⟨y, hy, if_neg hyb⟩
        · exact ⟨b, hbt, if_pos rfl⟩
  falls x hx hnone := by
    have hsame : ∀ i ∈ (fn.block x).code, i.isTerminator = false := by
      intro i hi
      have hmem : i.retarget b c ∈ (fn'.block x).code := by
        rw [h.code_eq hx.2, if_pos (hblocks x hx.1)]
        exact mem_append_right _ (mem_map_of_mem hi)
      simpa using hnone _ hmem
    have hle := ha.falls x hx.1 hsame
    rcases hchildren : (fn.block x).children with _ | ⟨y, _ | ⟨_, _⟩⟩
    · rw [h.children_eq_nil ha hx.2 hchildren]
      exact Nat.zero_le 1
    · have hedge : fn.Edge x y := (ha.mutual_edges x y).mp (by simp [Graph.Child, hchildren])
      rw [h.children_singleton hd ha.meshed.counted hx.2 hchildren hedge]
      exact le_rfl
    · simp [hchildren] at hle

end Bypassed

namespace Emptying

variable (h : Emptying fn blocks C cur)
include h

theorem mem_blocks (hx : x ∈ C) : x ∈ blocks := by
  induction h with
  | start => exact hx
  | bypass _ _ _ _ _ ih => exact ih hx.1

theorem visit_eq (hx : x ∈ C) (e : Way) : cur.visit x e = fn.visit x e := by
  induction h with
  | start => rfl
  | bypass _ _ _ hd hby ih => exact (hby.visit_eq hd hx.2 e).trans (ih hx.1)

variable (ha : fn.Agreeing {x | x ∈ blocks})
include ha

theorem agreeing : cur.Agreeing C := by
  induction h with
  | start => exact ha
  | bypass run hb hrem hd hby ih =>
    exact hby.agreeing hd ih (fun x hx => run.mem_blocks hx) hb hrem

/-- The paths between blocks that are left are those of before without the visits of blocks that
are gone. -/
theorem path_iff (hx : x ∈ C) (hz : z ∈ C) :
    cur.Path x l z ↔ ∃ m, fn.Path x m z ∧ visitsTo C m = l := by
  induction h generalizing l with
  | start =>
    have hall : ∀ m, fn.Path x m z → visitsTo {x | x ∈ blocks} m = m := fun m hp =>
      visitsTo_eq_self (ha.mem_of_path hp hx)
    refine ⟨fun hp => ⟨l, hp, hall l hp⟩, ?_⟩
    rintro ⟨m, hp, rfl⟩
    rwa [hall m hp]
  | @bypass C cur next b c run hb hrem hd hby ih =>
    rw [hby.path_iff hd (run.agreeing ha) (fun x hx => run.mem_blocks hx) hx.1 hx.2 hz.2]
    simp only [ih hx.1 hz.1]
    constructor
    · rintro ⟨_, ⟨m, hp, rfl⟩, rfl⟩
      exact ⟨m, hp, visitsTo_diff m⟩
    · rintro ⟨m, hp, rfl⟩
      exact ⟨_, ⟨m, hp, rfl⟩, (visitsTo_diff m).symm⟩

/-- A block that is gone leads to one that is left, past blocks that are gone. -/
theorem exists_landing (hx : x ∈ blocks) :
    ∃ m, ∃ y ∈ C, fn.Path x m y ∧ ∀ v ∈ m, v.block ∉ C := by
  induction h with
  | start => exact ⟨[], x, hx, .nil x, by simp⟩
  | @bypass C cur next b c run hb hrem hd hby ih =>
    obtain ⟨m, y, hy, hp, hm⟩ := ih
    by_cases hyb : y = b
    · subst hyb
      have hc : c ∈ C := (run.agreeing ha).children_mem y hb c (by simp [Graph.Child, hd.children])
      have hstep : cur.Path y [cur.visit y .onward] c :=
        .cons (hd.successor?_eq_some.mpr ⟨rfl, rfl⟩) (.nil c)
      obtain ⟨m', hp', hfilter⟩ := (run.path_iff ha hb hc).mp hstep
      refine ⟨m ++ m', c, ⟨hc, hd.ne_child⟩, hp.append hp', fun v hv hvC => ?_⟩
      rcases mem_append.mp hv with hv | hv
      · exact hm v hv hvC.1
      · have hmem : v ∈ [cur.visit y .onward] := by
          rw [← hfilter]
          exact mem_visitsTo.mpr ⟨hv, hvC.1⟩
        exact hvC.2 (congrArg Visit.block (mem_singleton.mp hmem))
    · exact ⟨m, y, ⟨hy, hyb⟩, hp, fun v hv hvC => hm v hv hvC.1⟩

end Emptying

/-- The blocks of the order that do something. -/
def busyBlocks (fn : Func) : Set BlockId :=
  {x | x ∈ fn.canonicalOrder ∧ fn.isRemovable x = false}

/-- The function `fn'` is `fn` without the blocks that do nothing: none is left, another pass
changes nothing, the edges and jumps agree and mention no removed block, and the paths visit the
same other blocks in the same order. -/
structure Contracted (fn fn' : Func) : Prop where
  entry : fn'.entry = fn.entry
  busy : ∀ x, Reachable fn'.Child fn'.entry x → fn'.isRemovable x = false
  stable : fn'.removeRedundantBlocks = .ok fn'
  agreeing : fn'.Agreeing fn.busyBlocks
  visit : ∀ x ∈ fn.busyBlocks, ∀ e, fn'.visit x e = fn.visit x e
  path : ∀ x ∈ fn.busyBlocks, ∀ z ∈ fn.busyBlocks, ∀ l, fn'.Path x l z ↔
    ∃ m, fn.Path x m z ∧ m.filter (fun v => !fn.isRemovable v.block) = l
  landing : ∀ x ∈ fn.canonicalOrder, fn.isRemovable x → ∃ m, ∃ y ∈ fn.busyBlocks,
    fn.Path x m y ∧ ∀ v ∈ m, fn.isRemovable v.block

theorem removeRedundantBlocks_of_busy (h : ∀ b ∈ fn.canonicalOrder, fn.isRemovable b = false) :
    fn.removeRedundantBlocks = .ok fn := by
  suffices hall : ∀ l : List BlockId, (∀ b ∈ l, fn.isRemovable b = false) →
      l.foldlM (removeIfRedundant fn.canonicalOrder) fn = .ok fn from hall _ h
  intro l hl
  induction l with
  | nil => rfl
  | cons b l ih =>
    obtain ⟨hb, hl⟩ := forall_mem_cons.mp hl
    have hskip : removeIfRedundant fn.canonicalOrder fn b = .ok fn := by
      simp [removeIfRedundant, hb]
    rw [foldlM_cons, hskip, ok_bind]
    exact ih hl

/-- **Removing blocks that do nothing** is complete, keeps the edges and jumps in agreement, and
keeps what is visited. -/
theorem Agreeing.contracted_of_removal (ha : fn.Agreeing {x | x ∈ fn.canonicalOrder})
    (hok : fn.removeRedundantBlocks = .ok fn') : fn.Contracted fn' := by
  have run : Emptying fn fn.canonicalOrder fn.busyBlocks fn' :=
    ha.meshed.emptying ha.entry_lt hok
  have hagreeing := run.agreeing ha
  have hbusy : ∀ x, Reachable fn'.Child fn'.entry x → fn'.isRemovable x = false := by
    rintro x ⟨l, hl⟩
    rw [run.isRemovable_eq]
    exact (hagreeing.mem_of_walk hl hagreeing.entry_mem).2
  refine ⟨run.edits.entry, hbusy, ?_, hagreeing, fun x hx e => run.visit_eq hx e, ?_, ?_⟩
  · refine removeRedundantBlocks_of_busy fun b hb => hbusy b ?_
    obtain ⟨l, hl⟩ := mem_canonicalOrder.mp hb
    exact ⟨l, hl.mono fun a z haz => (owns_iff.mp haz).1⟩
  · intro x hx z hz l
    rw [run.path_iff ha hx hz]
    refine exists_congr fun m => and_congr_right fun hp => ?_
    rw [visitsTo_eq_filter fun v hv => ?_]
    have hv : v.block ∈ fn.canonicalOrder := ha.mem_of_path hp hx.1 v hv
    simp [busyBlocks, hv]
  · intro x hx _
    obtain ⟨m, y, hy, hp, hm⟩ := run.exists_landing ha hx
    refine ⟨m, y, hy, hp, fun v hv => ?_⟩
    have hmem : v.block ∈ fn.canonicalOrder := ha.mem_of_path hp hx v hv
    by_contra hrem
    exact hm v hv ⟨hmem, by simpa using hrem⟩

theorem agreeing_forked : forked.Agreeing {x | x ∈ forked.canonicalOrder} where
  entry_lt := by decide
  entry_mem := by decide
  home := by decide
  mutual_edges x y := by rw [spanned_forked.meshed.child_eq]
  nodup_children := forked.forall_block (P := fun blk => blk.children.Nodup) (by decide) (by decide)
  nodup_parents := forked.forall_block (P := fun blk => blk.parents.Nodup) (by decide) (by decide)
  children_mem := spanned_forked.meshed.closed
  parents_mem := by
    have hparents : ∀ x ∈ forked.canonicalOrder, ∀ y ∈ (forked.block x).parents,
        y ∈ forked.canonicalOrder := by decide
    exact hparents
  targets := by
    have htargets : ∀ x ∈ forked.canonicalOrder, ∀ i ∈ (forked.block x).code, i.isTerminator →
        i.targets = (forked.block x).children := by decide
    intro x hx i hi hterm y
    rw [htargets x hx i hi hterm]
    exact Iff.rfl
  falls := by
    have hfalls : ∀ x ∈ forked.canonicalOrder,
        (∀ i ∈ (forked.block x).code, i.isTerminator = false) →
          (forked.block x).children.length ≤ 1 := by decide
    exact hfalls

theorem forked_contracted : ∃ fn', forked.removeRedundantBlocks = .ok fn' ∧
    forked.Contracted fn' ∧ forked.busyBlocks = {0, 1, 4} ∧
    fn'.Path 1 [forked.visit 1 .holds, forked.visit 4 .onward] 1 := by
  have hdone : forked.removeRedundantBlocks.toOption.isSome = true := by decide
  cases hok : forked.removeRedundantBlocks with
  | error fault => simp [hok, Except.toOption] at hdone
  | ok fn' =>
    have hcontracted := agreeing_forked.contracted_of_removal hok
    have hbusy : ∀ x, x ∈ forked.busyBlocks ↔ x ∈ [0, 1, 4] := by
      have horder : forked.canonicalOrder = [0, 1, 2, 3, 4] := by decide
      have hremovable : ∀ x ∈ [0, 1, 2, 3, 4], forked.isRemovable x = false ↔ x ∈ [0, 1, 4] := by
        decide
      have hsub : ∀ x ∈ [0, 1, 4], x ∈ [0, 1, 2, 3, 4] := by decide
      intro x
      rw [busyBlocks, horder]
      exact ⟨fun hx => (hremovable x hx.1).mp hx.2, fun hx =>
        ⟨hsub x hx, (hremovable x (hsub x hx)).mpr hx⟩⟩
    have hpath : forked.Path 1
        [forked.visit 1 .holds, forked.visit 3 .onward, forked.visit 4 .onward] 1 :=
      .cons (by decide : _ = some 3) (.cons (by decide : _ = some 4)
        (.cons (by decide : _ = some 1) (.nil 1)))
    have hone : 1 ∈ forked.busyBlocks := (hbusy 1).mpr (by decide)
    exact ⟨fn', rfl, hcontracted, Set.ext fun x => by simp [hbusy],
      (hcontracted.path 1 hone 1 hone _).mpr ⟨_, hpath, by rfl⟩⟩

end Func

end SsaBlocks
