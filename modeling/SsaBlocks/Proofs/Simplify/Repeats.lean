import SsaBlocks.Proofs.Simplify.Scan

/-!
# No load is repeated

While a block is scanned, a variable is unknown exactly when every access to it that was kept is
followed by a call. So no load that is kept repeats another, whatever the function, and where no load
is repeated a scan keeps everything.
-/

namespace SsaBlocks

namespace Instruction

variable {f : Temp → Temp} {v : Variable}

/-- The instruction loads or stores the variable. -/
def accesses (v : Variable) : Instruction → Bool
  | load _ w => w = v
  | store w _ => w = v
  | _ => false

def isCall : Instruction → Bool
  | call .. => true
  | _ => false

@[simp] theorem accesses_substitute (inst : Instruction) :
    (inst.substitute f).accesses v = inst.accesses v := by
  cases inst <;> rfl

@[simp] theorem isCall_substitute (inst : Instruction) :
    (inst.substitute f).isCall = inst.isCall := by
  cases inst <;> rfl

theorem accesses_of_isCall {inst : Instruction} (h : inst.isCall) : inst.accesses v = false := by
  cases inst <;> simp_all [isCall, accesses]

/-- A variable is unknown after a call, or if it was unknown and is not accessed. -/
theorem learn_eq_none_iff {known : Variable → Option Temp} (inst : Instruction) :
    inst.learn f known v = none ↔ inst.isCall ∨ known v = none ∧ inst.accesses v = false := by
  cases inst with
  | load d w | store w t =>
    by_cases h : w = v
    · simp [learn, isCall, accesses, h]
    · simp [learn, isCall, accesses, h, Function.update_of_ne (Ne.symm h)]
  | _ => simp [learn, isCall, accesses]

end Instruction

variable {code : List Instruction} {inst : Instruction} {f : Temp → Temp} {v : Variable}

/-- Every access to the variable is followed by a call. -/
def Forgets (code : List Instruction) (v : Variable) : Prop :=
  ∀ (m : Nat) (i : Instruction), code[m]? = some i → i.accesses v →
    ∃ (k : Nat) (call : Instruction), m < k ∧ code[k]? = some call ∧ call.isCall

/-- No load of a variable follows a load or a store of it without a call in between. -/
def NoRepeats (code : List Instruction) : Prop :=
  ∀ (n : Nat) (d : Temp) (v : Variable), code[n]? = some (.load d v) → Forgets (code.take n) v

theorem forgets_append_iff :
    Forgets (code ++ [inst]) v ↔ inst.isCall ∨ Forgets code v ∧ inst.accesses v = false := by
  have hlast : (code ++ [inst])[code.length]? = some inst := by simp
  have hpast : ∀ {m : Nat} {i : Instruction}, (code ++ [inst])[m]? = some i → code.length < m → False := by
    intro m i hi hm
    have := (List.getElem?_eq_some_iff.mp hi).1
    simp only [List.length_append, List.length_singleton] at this
    omega
  constructor
  · intro h
    by_cases hcall : inst.isCall
    · exact .inl hcall
    refine .inr ⟨fun m i hi hacc => ?_, ?_⟩
    · have hm := (List.getElem?_eq_some_iff.mp hi).1
      obtain ⟨k, call, hk, hget, hcall'⟩ := h m i (by rwa [List.getElem?_append_left hm]) hacc
      rcases Nat.lt_trichotomy k code.length with hlt | rfl | hgt
      · exact ⟨k, call, hk, by rwa [List.getElem?_append_left hlt] at hget, hcall'⟩
      · obtain rfl : inst = call := Option.some.inj (hlast.symm.trans hget)
        exact absurd hcall' hcall
      · exact (hpast hget hgt).elim
    · by_contra hacc
      obtain ⟨k, call, hk, hget, -⟩ := h code.length inst hlast (by simpa using hacc)
      exact hpast hget hk
  · intro h m i hi hacc
    rcases Nat.lt_trichotomy m code.length with hlt | rfl | hgt
    · rcases h with hcall | ⟨h, -⟩
      · exact ⟨code.length, inst, hlt, hlast, hcall⟩
      · rw [List.getElem?_append_left hlt] at hi
        obtain ⟨k, call, hk, hget, hcall⟩ := h m i hi hacc
        have hk' := (List.getElem?_eq_some_iff.mp hget).1
        exact ⟨k, call, hk, by rwa [List.getElem?_append_left hk'], hcall⟩
    · obtain rfl : inst = i := Option.some.inj (hlast.symm.trans hi)
      rcases h with hcall | ⟨-, hnot⟩
      · rw [Instruction.accesses_of_isCall hcall] at hacc
        cases hacc
      · rw [hnot] at hacc
        cases hacc
    · exact (hpast hi hgt).elim

theorem forgets_map_substitute :
    Forgets (code.map (Instruction.substitute f)) v ↔ Forgets code v := by
  simp only [Forgets, List.getElem?_map, Option.map_eq_some_iff]
  constructor
  · intro h m i hi hacc
    obtain ⟨k, _, hk, ⟨call, hget, rfl⟩, hcall⟩ := h m _ ⟨i, hi, rfl⟩ (by simpa using hacc)
    exact ⟨k, call, hk, hget, by simpa using hcall⟩
  · rintro h m _ ⟨i, hi, rfl⟩ hacc
    obtain ⟨k, call, hk, hget, hcall⟩ := h m i hi (by simpa using hacc)
    exact ⟨k, _, hk, ⟨call, hget, rfl⟩, by simpa using hcall⟩

theorem noRepeats_map_substitute :
    NoRepeats (code.map (Instruction.substitute f)) ↔ NoRepeats code := by
  have hload : ∀ (n : Nat) (d : Temp) (v : Variable), (code.map (Instruction.substitute f))[n]? = some (.load d v) ↔
      code[n]? = some (.load d v) := by
    intro n d v
    rw [List.getElem?_map]
    constructor
    · intro h
      obtain ⟨i, hi, heq⟩ := Option.map_eq_some_iff.mp h
      rw [hi]
      cases i <;> simp_all [Instruction.substitute]
    · intro h
      rw [h]
      rfl
  simp only [NoRepeats, hload, ← List.map_take, forgets_map_substitute]

theorem NoRepeats.append (h : NoRepeats code)
    (hload : ∀ d v, inst = .load d v → Forgets code v) : NoRepeats (code ++ [inst]) := by
  intro n d v hn
  rcases Nat.lt_trichotomy n code.length with hlt | rfl | hgt
  · rw [List.getElem?_append_left hlt] at hn
    rw [List.take_append_of_le_length hlt.le]
    exact h n d v hn
  · rw [List.take_left]
    exact hload d v (by simpa using hn)
  · have := (List.getElem?_eq_some_iff.mp hn).1
    simp only [List.length_append, List.length_singleton] at this
    omega

namespace LoadScan

variable {s : LoadScan}

/-- A variable is unknown when what was kept forgets it. -/
structure Attentive (s : LoadScan) : Prop where
  unknown : ∀ v, s.known.get? v = none ↔ Forgets s.kept v
  noRepeats : NoRepeats s.kept

theorem Attentive.start (r : Substitution) :
    Attentive { replaced := r, known := .empty, kept := [] } :=
  ⟨fun v => by simp [Forgets], by simp [NoRepeats]⟩

theorem Attentive.step (h : s.Attentive) (inst : Instruction) : (s.step inst).Attentive := by
  rcases s.step_cases inst with ⟨d, v, u, -, -, hstep⟩ | ⟨hload, -, hkept, hknown⟩
  · rw [hstep]
    exact ⟨h.unknown, h.noRepeats⟩
  · refine ⟨fun v => ?_, ?_⟩
    · rw [hkept, hknown, Instruction.learn_eq_none_iff, forgets_append_iff, h.unknown,
        Instruction.isCall_substitute, Instruction.accesses_substitute]
    · rw [hkept]
      refine h.noRepeats.append fun d v hinst => (h.unknown v).mp (hload d v ?_)
      cases inst <;> simp_all [Instruction.substitute]

theorem Attentive.foldl (h : s.Attentive) (code : List Instruction) :
    (code.foldl LoadScan.step s).Attentive := by
  induction code generalizing s with
  | nil => exact h
  | cons inst code ih => exact ih (h.step inst)

/-- Where no load is repeated, all is kept. -/
theorem foldl_of_noRepeats (h : NoRepeats code) :
    (code.foldl step { replaced := .empty, known := .empty, kept := [] }).replaced = .empty ∧
      (code.foldl step { replaced := .empty, known := .empty, kept := [] }).kept = code := by
  suffices hscan : ((code.foldl step { replaced := .empty, known := .empty, kept := [] }).replaced =
      .empty ∧ (code.foldl step { replaced := .empty, known := .empty, kept := [] }).kept = code) ∧
      (code.foldl step { replaced := .empty, known := .empty, kept := [] }).Attentive from hscan.1
  refine foldl_invariant (fun done (s : LoadScan) =>
    (s.replaced = .empty ∧ s.kept = done) ∧ s.Attentive) ⟨⟨rfl, rfl⟩, .start _⟩ ?_
  rintro done inst rest s hsplit ⟨⟨hreplaced, hkept⟩, hs⟩
  refine ⟨?_, hs.step inst⟩
  rcases s.step_cases inst with ⟨d, v, u, rfl, hu, -⟩ | ⟨-, hreplaced', hkept', -⟩
  · -- the variable would be known although the code before the load forgets it
    have hforgets := h done.length d v (by simp [hsplit])
    rw [hsplit, List.take_left, ← hkept, ← hs.unknown, hu] at hforgets
    cases hforgets
  · have hid : s.replaced.apply = id := by
      funext t
      rw [hreplaced]
      exact Substitution.apply_of_none (by simp)
    rw [hreplaced', hkept', hid, Instruction.substitute_id, hkept]
    exact ⟨hreplaced, rfl⟩

end LoadScan

namespace Func

variable {fn : Func} {b : BlockId}

theorem proj_substitute {β : Type} (π : Block → β) {r : Substitution}
    (hπ : ∀ blk, π (Block.substitute r.close.apply blk) = π blk) (fn : Func)
    (blocks : List BlockId) (b : BlockId) : π ((fn.substitute blocks r).block b) = π (fn.block b) :=
  proj_block_foldl π (fun _ _ _ => proj_block_modify π hπ) blocks fn

theorem noRepeats_removeLoadsIn (fn : Func) (r : Substitution) (b : BlockId) :
    NoRepeats ((removeLoadsIn (fn, r) b).1.block b).code := by
  by_cases hb : b < fn.blocks.size
  · rw [removeLoadsIn, block_modify_self hb]
    exact ((LoadScan.Attentive.start r).foldl (fn.block b).code).noRepeats
  · rw [removeLoadsIn, Graph.block_of_size_le (by simpa using hb)]
    simp [NoRepeats]

/-- The pass leaves no repeated loads in the blocks that it goes through. -/
theorem noRepeats_removeRedundantLoads (hb : b ∈ fn.canonicalOrder) :
    NoRepeats (fn.removeRedundantLoads.block b).code := by
  have hscanned : ∀ b ∈ fn.canonicalOrder,
      NoRepeats ((fn.canonicalOrder.foldl removeLoadsIn (fn, .empty)).1.block b).code := by
    refine foldl_invariant (fun done (s : Func × Substitution) =>
      ∀ b ∈ done, NoRepeats (s.1.block b).code) (by simp) ?_
    rintro done c rest ⟨cur, r⟩ - h b hb
    by_cases hbc : b = c
    · subst hbc
      exact noRepeats_removeLoadsIn cur r b
    · rw [removeLoadsIn, block_modify_ne (Ne.symm hbc)]
      exact h b (by simpa [hbc] using hb)
  -- the replacement of operands makes no repeats, and unmakes none
  rw [removeRedundantLoads, proj_substitute (fun blk => NoRepeats blk.code)
    fun blk => propext noRepeats_map_substitute]
  exact hscanned b hb

theorem removeRedundantLoads_of_noRepeats
    (h : ∀ b ∈ fn.canonicalOrder, NoRepeats (fn.block b).code) : fn.removeRedundantLoads = fn := by
  have hscan : fn.canonicalOrder.foldl removeLoadsIn (fn, .empty) = (fn, .empty) := by
    refine foldl_invariant (fun _ (s : Func × Substitution) => s = (fn, .empty)) rfl ?_
    rintro done b rest _ hsplit rfl
    obtain ⟨hreplaced, hkept⟩ := LoadScan.foldl_of_noRepeats (h b (by simp [hsplit]))
    rw [removeLoadsIn, hreplaced, hkept, modify_eq_self rfl]
  have hid : Substitution.apply (Substitution.close .empty) = id :=
    funext fun t => Substitution.close_apply_of_none (by simp)
  simp only [removeRedundantLoads, hscan, Func.substitute, hid]
  refine foldl_invariant (fun _ (cur : Func) => cur = fn) rfl ?_
  rintro done b rest _ - rfl
  exact modify_eq_self (Block.substitute_id _)

theorem sameShape_removeRedundantLoads (fn : Func) : fn.SameShape fn.removeRedundantLoads := by
  have hscan : fn.SameShape (fn.canonicalOrder.foldl removeLoadsIn (fn, .empty)).1 := by
    refine foldl_invariant (fun _ (s : Func × Substitution) => fn.SameShape s.1)
      ⟨rfl, rfl, fun _ => rfl, fun _ => rfl⟩ ?_
    rintro - b - ⟨cur, r⟩ - hcur
    exact hcur.trans ⟨rfl, by simp [removeLoadsIn],
      fun _ => proj_block_modify (·.parents) fun _ => rfl,
      fun _ => proj_block_modify (·.children) fun _ => rfl⟩
  have hedits : Edits _ fn.removeRedundantLoads := .foldl (fun _ _ => .modify ..) _ _
  exact hscan.trans ⟨hedits.entry, hedits.size, proj_substitute (·.parents) (fun _ => rfl) _ _,
    proj_substitute (·.children) (fun _ => rfl) _ _⟩

/-- A second pass changes nothing. -/
theorem removeRedundantLoads_idem (fn : Func) :
    fn.removeRedundantLoads.removeRedundantLoads = fn.removeRedundantLoads := by
  refine removeRedundantLoads_of_noRepeats fun b hb => ?_
  rw [(sameShape_removeRedundantLoads fn).canonicalOrder] at hb
  exact noRepeats_removeRedundantLoads hb

end Func

end SsaBlocks
