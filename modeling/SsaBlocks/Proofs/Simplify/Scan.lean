import SsaBlocks.Simplify.Loads
import SsaBlocks.Proofs.Func.Ready

/-!
# Scanning for repeated loads

A scan goes through the blocks once and drops the loads of variables that are known to be held by a
temporary. What it replaces the result of such a load by is what it knew of the variable then, with
the replacements that it had found until then: an operand of a store may itself be the result of a
load that was dropped.

If no two instructions have the same result, an entry of the table of replacements is never changed.
So each instruction that is kept has its operands replaced by what the final table has for them, or
not yet, and the code that is kept can be told from the final table alone.
-/

namespace SsaBlocks

open List

namespace Instruction

theorem substitute_congr {f f' : Temp → Temp} {inst : Instruction}
    (h : ∀ t ∈ inst.operands, f t = f' t) : inst.substitute f = inst.substitute f' := by
  cases inst with
  | call d callee args =>
    simp only [substitute, call.injEq, map_inj_left, true_and]
    exact h
  | ret t =>
    cases t with
    | none => rfl
    | some t => simp_all [substitute, operands]
  | _ => simp_all [substitute, operands]

theorem isTerminator_substitute (f : Temp → Temp) (inst : Instruction) :
    (inst.substitute f).isTerminator = inst.isTerminator := by
  cases inst <;> rfl

/-- The temporaries that are known to hold variables, after an instruction. -/
def learn (f : Temp → Temp) (known : Variable → Option Temp) :
    Instruction → Variable → Option Temp
  | load d v => Function.update known v (some d)
  | store v t => Function.update known v (some (f t))
  | call .. => fun _ => none
  | _ => known

end Instruction

/-- The temporary `u` is `t` or what `t` is replaced by. -/
def Substitution.Leads (R : Substitution) (t u : Temp) : Prop :=
  u = t ∨ R.get? t = some u

/-- What is kept of some code: loads of known variables are dropped, their results being replaced by
what is known, and the operands of what is kept may have been replaced. -/
inductive Trims (R : Substitution) :
    (Variable → Option Temp) → List Instruction → List Instruction → Prop
  | nil (known : Variable → Option Temp) : Trims R known [] []
  | drop {known : Variable → Option Temp} {code kept : List Instruction} {d u : Temp} {v : Variable}
      (hknown : known v = some u) (hd : R.get? d = some u) (h : Trims R known code kept) :
      Trims R known (.load d v :: code) kept
  | keep {known : Variable → Option Temp} {code kept : List Instruction} {inst : Instruction}
      {f : Temp → Temp} (hf : ∀ t, R.Leads t (f t))
      (hresult : ∀ d, inst.result? = some d → R.get? d = none)
      (h : Trims R (inst.learn f known) code kept) :
      Trims R known (inst :: code) (inst.substitute f :: kept)

/-- The places of the instructions that are kept. -/
theorem Trims.exists_places {R : Substitution} {known : Variable → Option Temp}
    {code kept : List Instruction} (h : Trims R known code kept) :
    ∃ e : Nat → Nat, StrictMono e ∧
      (∀ i, ∃ f : Temp → Temp, (∀ t, R.Leads t (f t)) ∧
        kept[i]? = (code[e i]?).map (Instruction.substitute f)) ∧
      ∀ n inst, code[n]? = some inst →
        (∃ i, e i = n) ∨ ∃ d u, inst.result? = some d ∧ R.get? d = some u := by
  induction h with
  | nil => exact ⟨id, strictMono_id, fun i => ⟨id, fun _ => .inl rfl, by simp⟩, by simp⟩
  | drop _ hd _ ih =>
    obtain ⟨e, hmono, hcode, hcover⟩ := ih
    refine ⟨fun i => e i + 1, fun i j hij => Nat.succ_lt_succ (hmono hij), hcode, ?_⟩
    intro n inst hinst
    cases n with
    | zero =>
      cases hinst
      exact .inr ⟨_, _, rfl, hd⟩
    | succ n =>
      rcases hcover n inst hinst with ⟨i, hi⟩ | hdropped
      · exact .inl ⟨i, congrArg (· + 1) hi⟩
      · exact .inr hdropped
  | keep hf _ _ ih =>
    obtain ⟨e, hmono, hcode, hcover⟩ := ih
    refine ⟨fun i => if i = 0 then 0 else e (i - 1) + 1, strictMono_nat_of_lt_succ ?_, ?_, ?_⟩
    · intro i
      cases i with
      | zero => simp
      | succ i => simpa using hmono (Nat.lt_succ_self i)
    · intro i
      cases i with
      | zero => exact ⟨_, hf, rfl⟩
      | succ i => simpa using hcode i
    · intro n inst hinst
      cases n with
      | zero => exact .inl ⟨0, rfl⟩
      | succ n =>
        rcases hcover n inst hinst with ⟨i, hi⟩ | hdropped
        · exact .inl ⟨i + 1, by simp [hi]⟩
        · exact .inr hdropped

namespace LoadScan

variable {s : LoadScan} {t : Temp}

/-- A load of a known variable is dropped; all else is kept and may teach something. -/
theorem step_cases (s : LoadScan) (inst : Instruction) :
    (∃ d v u, inst = .load d v ∧ s.known.get? v = some u ∧
      s.step inst = { s with replaced := s.replaced.insert d u }) ∨
    ((∀ d v, inst = .load d v → s.known.get? v = none) ∧
      (s.step inst).replaced = s.replaced ∧
      (s.step inst).kept = s.kept ++ [inst.substitute s.replaced.apply] ∧
      (s.step inst).known.get? = inst.learn s.replaced.apply s.known.get?) := by
  cases inst with
  | load d v =>
    cases hknown : s.known.get? v with
    | some u => exact .inl ⟨d, v, u, rfl, hknown, by simp [step, Instruction.substitute, hknown]⟩
    | none =>
      refine .inr ⟨by simp [hknown], ?_⟩
      simp only [step, Instruction.substitute, hknown, Instruction.learn, true_and]
      funext w
      simp only [Table.get?_insert, Function.update_apply, eq_comm]
  | store v t =>
    refine .inr ⟨by simp, rfl, rfl, ?_⟩
    funext w
    simp only [step, Instruction.substitute, Instruction.learn, Table.get?_insert,
      Function.update_apply, eq_comm]
  | _ => exact .inr ⟨by simp, rfl, rfl, rfl⟩

/-- Only the results of scanned instructions are replaced. -/
theorem get?_step {inst : Instruction} (ht : inst.result? ≠ some t) :
    (s.step inst).replaced.get? t = s.replaced.get? t := by
  rcases s.step_cases inst with ⟨d, v, u, rfl, -, hstep⟩ | ⟨-, hreplaced, -⟩
  · have hne : d ≠ t := fun h => ht (congrArg some h)
    rw [hstep, Table.get?_insert, if_neg hne]
  · rw [hreplaced]

theorem get?_foldl {code : List Instruction} (ht : ∀ inst ∈ code, inst.result? ≠ some t) :
    (code.foldl step s).replaced.get? t = s.replaced.get? t := by
  induction code generalizing s with
  | nil => rfl
  | cons inst code ih =>
    rw [foldl_cons, ih fun i hi => ht i (mem_cons_of_mem _ hi),
      get?_step (ht inst (by simp))]

/-- What a scan keeps, if the results of the code are new and distinct. -/
theorem exists_trims {code : List Instruction} {R : Substitution}
    (hnodup : (code.filterMap Instruction.result?).Nodup)
    (hnew : ∀ t ∈ code.filterMap Instruction.result?, s.replaced.get? t = none)
    (hR : ∀ t, s.replaced.get? t ≠ none ∨ t ∈ code.filterMap Instruction.result? →
      R.get? t = (code.foldl step s).replaced.get? t) :
    ∃ kept, (code.foldl step s).kept = s.kept ++ kept ∧ Trims R s.known.get? code kept := by
  induction code generalizing s with
  | nil => exact ⟨[], by simp, .nil _⟩
  | cons inst code ih =>
    have hrest : ∀ t ∈ code.filterMap Instruction.result?, inst.result? ≠ some t ∧
        t ∈ (inst :: code).filterMap Instruction.result? := by
      intro t ht
      cases hres : inst.result? with
      | none => simpa [filterMap_cons, hres] using ht
      | some d =>
        rw [filterMap_cons_some hres, nodup_cons] at hnodup
        refine ⟨fun h => hnodup.1 (Option.some.inj h ▸ ht), ?_⟩
        rw [filterMap_cons_some hres]
        exact mem_cons_of_mem _ ht
    have hnodup' : (code.filterMap Instruction.result?).Nodup := by
      rw [filterMap_cons] at hnodup
      split at hnodup
      · exact hnodup
      · exact hnodup.of_cons
    have hresult : ∀ d, inst.result? = some d →
        R.get? d = (s.step inst).replaced.get? d := by
      intro d hd
      rw [hR d (.inr (by simp [hd])), foldl_cons, get?_foldl]
      intro i hi hres
      exact (hrest d (mem_filterMap.mpr ⟨i, hi, hres⟩)).1 hd
    -- the step decides about the result of `inst` only, as results are distinct
    obtain ⟨kept, hkept, htrims⟩ := ih (s := s.step inst) hnodup'
      (fun t ht => by
        rw [get?_step (hrest t ht).1]
        exact hnew t (hrest t ht).2)
      (fun t ht => by
        refine hR t ?_
        rcases ht with ht | ht
        · by_cases hres : inst.result? = some t
          · exact .inr (by simp [hres])
          · exact .inl (get?_step hres ▸ ht)
        · exact .inr (hrest t ht).2)
    rw [foldl_cons]
    rcases s.step_cases inst with ⟨d, v, u, rfl, hu, hstep⟩ | ⟨-, hreplaced, hkeep, hknown⟩
    · refine ⟨kept, by rw [hkept, hstep], .drop hu ?_ (by rwa [hstep] at htrims)⟩
      rw [hresult d rfl, hstep]
      simp
    · refine ⟨_ :: kept, by rw [hkept, hkeep, append_assoc]; rfl, ?_⟩
      refine .keep (fun t => ?_) (fun d hd => ?_) (hknown ▸ htrims)
      · cases hget : s.replaced.get? t with
        | none => exact .inl (Substitution.apply_of_none hget)
        | some u =>
          refine .inr ?_
          rw [Substitution.apply_of_some hget, ← hget, hR t (.inl (by simp [hget])), get?_foldl]
          intro i hi hres
          have := hnew t (mem_filterMap.mpr ⟨i, hi, hres⟩)
          simp [hget] at this
      · rw [hresult d hd, hreplaced]
        exact hnew d (by simp [hd])

end LoadScan

namespace Func

variable {fn : Func} {done rest : List BlockId} {b c : BlockId} {n i : Nat} {t u d : Temp}

/-- What is known when some blocks have been scanned. -/
structure Scans (fn : Func) (done : List BlockId) (cur : Func) (r : Substitution) : Prop where
  edits : fn.Edits cur
  undone : ∀ b ∉ done, cur.block b = fn.block b
  keys : ∀ t, r.get? t ≠ none → ∃ c ∈ done, t ∈ fn.results c
  trims : ∀ b ∈ done, ∃ kept, cur.block b = { fn.block b with code := kept } ∧
    ∀ R : Substitution, (∀ c ∈ done, ∀ t ∈ fn.results c, R.get? t = r.get? t) →
      Trims R (fun _ => none) (fn.block b).code kept

theorem Scans.step (hdistinct : fn.DistinctResults) (hb : b ∉ done) (hlt : b < fn.blocks.size)
    {cur : Func} {r : Substitution} (h : fn.Scans done cur r) :
    fn.Scans (done ++ [b]) (removeLoadsIn (cur, r) b).1 (removeLoadsIn (cur, r) b).2 := by
  simp only [removeLoadsIn, h.undone b hb]
  set scan := (fn.block b).code.foldl LoadScan.step { replaced := r, known := .empty, kept := [] }
    with hscan
  -- the results of the blocks before are not made in this one
  have hother : ∀ c ∈ done, ∀ t ∈ fn.results c, t ∉ fn.results b := by
    intro c hc t ht
    refine hdistinct.not_mem_results ht ?_
    rintro rfl
    exact hb hc
  have hsame : ∀ t, t ∉ fn.results b → scan.replaced.get? t = r.get? t := by
    intro t ht
    refine LoadScan.get?_foldl fun inst hinst hres => ?_
    exact ht (mem_filterMap.mpr ⟨inst, hinst, hres⟩)
  refine ⟨h.edits.trans (.modify ..), fun c hc => ?_, fun t ht => ?_, fun c hc => ?_⟩
  · rw [mem_append, mem_singleton, not_or] at hc
    rw [block_modify_ne (Ne.symm hc.2), h.undone c hc.1]
  · by_cases hmem : t ∈ fn.results b
    · exact ⟨b, by simp, hmem⟩
    · obtain ⟨c, hc, hct⟩ := h.keys t (hsame t hmem ▸ ht)
      exact ⟨c, mem_append_left _ hc, hct⟩
  · by_cases hcb : c = b
    · subst hcb
      refine ⟨scan.kept, by rw [block_modify_self (h.edits.size ▸ hlt), h.undone c hb],
        fun R hR => ?_⟩
      obtain ⟨kept, hkept, htrims⟩ := LoadScan.exists_trims (R := R)
        (s := { replaced := r, known := .empty, kept := [] }) (hdistinct.nodup_results c)
        (fun t ht => by
          by_contra hne
          obtain ⟨e, he, het⟩ := h.keys t hne
          exact hother e he t het ht)
        (fun t ht => by
          rcases ht with ht | ht
          · obtain ⟨e, he, het⟩ := h.keys t ht
            exact hR e (mem_append_left _ he) t het
          · exact hR c (by simp) t ht)
      have hnone : (Table.empty : Table Variable Temp).get? = fun _ => none := funext fun v => by simp
      rw [hscan, hkept, nil_append]
      rwa [hnone] at htrims
    · have hc : c ∈ done := by simpa [hcb] using hc
      obtain ⟨kept, hblock, htrims⟩ := h.trims c hc
      refine ⟨kept, by rw [block_modify_ne (Ne.symm hcb), hblock], fun R hR => ?_⟩
      refine htrims R fun e he t ht => ?_
      rw [hR e (mem_append_left _ he) t ht, hsame t (hother e he t ht)]

/-- The function `fn'` is `fn` without repeated loads, and `R` are the replacements of their
results. -/
structure Trimmed (fn fn' : Func) (R : Substitution) : Prop where
  thins : fn.Thins fn'
  block : ∀ b ∈ fn.canonicalOrder, ∃ kept, Trims R (fun _ => none) (fn.block b).code kept ∧
    fn'.block b = Block.substitute R.close.apply { fn.block b with code := kept }
  other : ∀ b ∉ fn.canonicalOrder, fn'.block b = fn.block b
  keys : ∀ t u, R.get? t = some u → ∃ c ∈ fn.canonicalOrder, t ∈ fn.results c

/-- The results of the instructions that are kept are among those that were scanned. -/
theorem results_scan_sublist (code : List Instruction) (s : LoadScan) :
    ((code.foldl LoadScan.step s).kept.filterMap Instruction.result?).Sublist
      (s.kept.filterMap Instruction.result? ++ code.filterMap Instruction.result?) := by
  induction code generalizing s with
  | nil => simp
  | cons inst code ih =>
    refine (ih (s.step inst)).trans ?_
    have hcons : (inst :: code).filterMap Instruction.result? =
        [inst].filterMap Instruction.result? ++ code.filterMap Instruction.result? := by
      rw [← filterMap_append]
      rfl
    rw [hcons, ← append_assoc]
    refine List.Sublist.append_right ?_ _
    rcases s.step_cases inst with ⟨d, v, u, -, -, hstep⟩ | ⟨-, -, hkept, -⟩
    · rw [hstep]
      exact sublist_append_left _ _
    · rw [hkept, filterMap_append]
      simp [filterMap_cons]

theorem thins_substitute (fn : Func) (blocks : List BlockId) (s : Substitution) :
    fn.Thins (fn.substitute blocks s) := by
  refine Thins.foldl (fun fn b => .modify ⟨?_, .refl _, rfl, rfl, fun _ => id⟩) blocks fn
  have hsame : Instruction.result? ∘ Instruction.substitute s.close.apply = Instruction.result? :=
    funext fun i => Instruction.result?_substitute _ i
  rw [Block.substitute, filterMap_map, hsame]

theorem thins_removeRedundantLoads (fn : Func) : fn.Thins fn.removeRedundantLoads := by
  have hscan : fn.Thins (fn.canonicalOrder.foldl removeLoadsIn (fn, .empty)).1 := by
    refine foldl_invariant (fun _ (s : Func × Substitution) => fn.Thins s.1) (.refl fn) ?_
    rintro - b - ⟨cur, replaced⟩ - hcur
    exact hcur.trans (.modify ⟨results_scan_sublist _ _, .refl _, rfl, rfl, fun _ => id⟩)
  exact hscan.trans (thins_substitute _ _ _)

theorem exists_trimmed (hdistinct : fn.DistinctResults) (hentry : fn.entry < fn.blocks.size) :
    ∃ R, fn.Trimmed fn.removeRedundantLoads R := by
  have hscans : fn.Scans fn.canonicalOrder
      (fn.canonicalOrder.foldl removeLoadsIn (fn, .empty)).1
      (fn.canonicalOrder.foldl removeLoadsIn (fn, .empty)).2 := by
    refine foldl_invariant (fun done (s : Func × Substitution) => fn.Scans done s.1 s.2) ?_ ?_
    · exact ⟨.refl fn, fun _ _ => rfl, by simp, by simp⟩
    · intro done b rest s hsplit h
      have hnodup := nodup_canonicalOrder fn
      rw [hsplit] at hnodup
      exact h.step hdistinct (fun hb => (nodup_append.mp hnodup).2.2 b hb b (by simp) rfl)
        (mem_canonicalOrder_lt (by simp [hsplit]) hentry)
  generalize hstate : fn.canonicalOrder.foldl removeLoadsIn (fn, .empty) = state at hscans
  obtain ⟨cur, R⟩ := state
  have hdef : fn.removeRedundantLoads = cur.substitute fn.canonicalOrder R := by
    simp only [removeRedundantLoads, hstate]
  have hblock : ∀ b, fn.removeRedundantLoads.block b = if b ∈ fn.canonicalOrder then
      (cur.block b).substitute R.close.apply else cur.block b := by
    intro b
    rw [hdef, Func.substitute]
    refine block_foldl_modify (fun _ => Block.substitute R.close.apply) (nodup_canonicalOrder fn)
      (fun c hc => ?_) b
    rw [hscans.edits.size]
    exact mem_canonicalOrder_lt hc hentry
  refine ⟨R, thins_removeRedundantLoads fn, fun b hb => ?_, fun b hb => ?_,
    fun t u ht => hscans.keys t (by simp [ht])⟩
  · obtain ⟨kept, hkept, htrims⟩ := hscans.trims b hb
    exact ⟨kept, htrims R fun _ _ _ _ => rfl, by rw [hblock, if_pos hb, hkept]⟩
  · rw [hblock, if_neg hb, hscans.undone b hb]

end Func

end SsaBlocks
