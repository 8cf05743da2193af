import SsaBlocks.Proofs.Meaning.Trace
import SsaBlocks.Proofs.Simplify.Loads

/-!
# Removing repeated loads keeps the meaning

A function is run side by side with itself without repeated loads. What a temporary has been renamed
to has its value, and so has what a temporary that is known to hold a variable has been renamed to:
it has the value that the variable has in memory. So all that can be seen of the runs is the same,
whatever calls do.
-/

namespace SsaBlocks

theorem Globals.value_insert (g : Globals) (v w : Variable) (x : Int64) :
    Globals.value (g.insert v x) w = if v = w then x else g.value w := by
  rw [Globals.value, Table.get?_insert]
  split <;> rfl

namespace Func

variable {fn fn' : Func} {R : Substitution} {b c : BlockId} {n : Nat} {s s' : Variables}
  {g : Globals} {t u d : Temp} {known : Variable → Option Temp} {inst : Instruction}
  {f : Temp → Temp} {A : fn.Availability}

/-- What is known before the instruction `n` of the block `b`. -/
structure Alike (A : fn.Availability) (R : Substitution) (b : BlockId) (n : Nat)
    (s s' : Variables) : Prop where
  temps : ∀ t, A.Has b n t → s'.temps (R.close.apply t) = s.temps t
  vars : s'.vars = s.vars

/-- The temporaries that are known to hold variables have their values in memory. -/
def Remembers (A : fn.Availability) (R : Substitution) (b : BlockId) (n : Nat)
    (known : Variable → Option Temp) (s : Variables) (g : Globals) : Prop :=
  ∀ v u, known v = some u → A.Has b n u ∧ s.temps (R.close.apply u) = g.value v

theorem Alike.succ (ha : Alike A R b n s s') (hat : A.At b (n + 1))
    (hinst : (fn.block b).code[n]? = some inst) (hnone : inst.result? = none) :
    Alike A R b (n + 1) s s' where
  temps t ht := by
    rcases A.of_succ hat ht with ht | ⟨inst', hinst', hres⟩
    · exact ha.temps t ht
    · obtain rfl : inst = inst' := Option.some.inj (hinst.symm.trans hinst')
      rw [hnone] at hres
      cases hres
  vars := ha.vars

theorem Remembers.succ (hk : Remembers A R b n known s g) (hat : A.At b (n + 1)) :
    Remembers A R b (n + 1) known s g :=
  fun v u hu => ⟨A.mono hat (Nat.le_succ n) (hk v u hu).1, (hk v u hu).2⟩

section Renamed

variable (h : fn.Trimmed fn' R)
include h

/-- The result of an instruction is set on both sides. -/
theorem Alike.set (ha : Alike A R b n s s') (hat : A.At b (n + 1))
    (hd : fn.Makes (.result b n) d) (hnone : R.get? d = none) (w : Int64) :
    Alike A R b (n + 1) { s with temps := Function.update s.temps d w }
      { s' with temps := Function.update s'.temps d w } where
  temps t ht := by
    have hat' := A.at_of_le hat (Nat.le_succ n)
    by_cases htd : t = d
    · subst htd
      simp only [Substitution.close_apply_of_none hnone, Function.update_self]
    · rcases A.of_succ hat ht with ht | ht
      · have hne := A.ne_result hat' (A.has_renamed h hat' ht) hd
        simp only [Function.update_of_ne htd, Function.update_of_ne hne]
        exact ha.temps t ht
      · obtain ⟨inst, hinst, hres⟩ := hd
        obtain ⟨inst', hinst', hres'⟩ := ht
        obtain rfl : inst = inst' := Option.some.inj (hinst.symm.trans hinst')
        exact absurd (Option.some.inj (hres'.symm.trans hres)) htd
  vars := ha.vars

/-- The result of a load that is dropped is replaced by what was known. -/
theorem Alike.drop {v : Variable} (ha : Alike A R b n s s') (hk : Remembers A R b n known s' g)
    (hat : A.At b (n + 1)) (hinst : (fn.block b).code[n]? = some (.load d v))
    (hknown : known v = some u) (hd : R.get? d = some u) :
    Alike A R b (n + 1) { s with temps := Function.update s.temps d (g.value v) } s' where
  temps t ht := by
    have hmakes : fn.Makes (.result b n) d := ⟨_, hinst, rfl⟩
    by_cases htd : t = d
    · subst htd
      simp only [← A.renamed_of_leads h hat ht (.inr hd), (hk v u hknown).2, Function.update_self]
    · rcases A.of_succ hat ht with ht | ⟨inst', hinst', hres⟩
      · simp only [Function.update_of_ne htd]
        exact ha.temps t ht
      · obtain rfl : Instruction.load d v = inst' := Option.some.inj (hinst.symm.trans hinst')
        exact absurd (Option.some.inj hres).symm htd
  vars := ha.vars

/-- What is remembered after an instruction that sets a result. -/
theorem Remembers.set (hk : Remembers A R b n known s' g) (hat : A.At b (n + 1))
    (hinst : (fn.block b).code[n]? = some inst) (hd : inst.result? = some d)
    (hnone : R.get? d = none) {w : Int64} {g' : Globals}
    (heffect : fn.onVariables.Effect s g inst w g') :
    Remembers A R b (n + 1) (inst.learn f known)
      { s' with temps := Function.update s'.temps d w } g' := by
  have hat' := A.at_of_le hat (Nat.le_succ n)
  have hmakes : fn.Makes (.result b n) d := ⟨inst, hinst, hd⟩
  have hold : g' = g → Remembers A R b (n + 1) known
      { s' with temps := Function.update s'.temps d w } g' := by
    intro hg v u hu
    obtain ⟨hav, hval⟩ := hk v u hu
    refine ⟨A.mono hat (Nat.le_succ n) hav, ?_⟩
    rw [hg, ← hval]
    exact Function.update_of_ne (A.ne_result hat' (A.has_renamed h hat' hav) hmakes) ..
  intro v u hu
  cases inst with
  | load e v' =>
    obtain rfl : e = d := Option.some.inj hd
    obtain ⟨rfl, rfl⟩ := heffect
    simp only [Instruction.learn, Function.update_apply] at hu
    split at hu
    · rename_i hv
      obtain rfl : e = u := Option.some.inj hu
      subst hv
      refine ⟨A.result hat hmakes, ?_⟩
      rw [Substitution.close_apply_of_none hnone]
      exact Function.update_self ..
    · exact hold rfl v u hu
  | call => cases hu
  | const | binary | unary => exact hold heffect v u hu
  | _ => cases hd

/-- What is remembered after an instruction that sets no result. -/
theorem Remembers.keep (ha : Alike A R b n s s') (hk : Remembers A R b n known s' g)
    (hat : A.At b (n + 1)) (hinst : (fn.block b).code[n]? = some inst)
    (hnone : inst.result? = none) (hf : ∀ t, R.Leads t (f t)) {w : Int64} {g' : Globals}
    (heffect : fn.onVariables.Effect s g inst w g') :
    Remembers A R b (n + 1) (inst.learn f known) s' g' := by
  have hat' := A.at_of_le hat (Nat.le_succ n)
  intro v u hu
  cases inst with
  | store v' t =>
    obtain ⟨x, hx, rfl⟩ := heffect
    obtain rfl : s.temps t = x := Except.ok.inj hx
    simp only [Instruction.learn, Function.update_apply] at hu
    split at hu
    · rename_i hv
      obtain rfl : f t = u := Option.some.inj hu
      have hav : A.Has b n t := A.operand hat' hinst (by simp [Instruction.operands])
      refine ⟨A.mono hat (Nat.le_succ n) ?_, ?_⟩
      · rcases hf t with heq | hget
        · rwa [heq]
        · exact A.has_of_get? h hat' hav hget
      · rw [A.renamed_of_leads h hat' hav (hf t), ha.temps t hav, hv, Globals.value_insert,
          if_pos rfl]
    · rename_i hv
      rw [Globals.value_insert, if_neg (Ne.symm hv)]
      exact hk.succ hat v u hu
  | call => cases hu
  | const | binary | unary | load => cases hnone
  | comment | jump | branch | ret => exact heffect ▸ hk.succ hat v u hu

omit h in
/-- The same is seen of an instruction when its operands have the same values. -/
theorem Alike.seen (ha : Alike A R b n s s') (hat : A.At b n)
    (hinst : (fn.block b).code[n]? = some inst) :
    (inst.substitute R.close.apply).seen s' = inst.seen s := by
  have hoperand : ∀ t ∈ inst.operands, s'.temps (R.close.apply t) = s.temps t :=
    fun t ht => ha.temps t (A.operand hat hinst ht)
  cases inst with
  | store v t => simp [Instruction.substitute, Instruction.seen, hoperand t (by simp [Instruction.operands])]
  | call d callee args =>
    simp only [Instruction.substitute, Instruction.seen, List.map_map, List.cons.injEq,
      Event.call.injEq, true_and, and_true]
    exact List.map_congr_left hoperand
  | ret t => cases t <;> rfl
  | _ => rfl

/-- What is known after an instruction. One that ends the block is where the block is left. -/
def AlikeAfter (A : fn.Availability) (R : Substitution) (b : BlockId) (n : Nat)
    (known : Variable → Option Temp) (inst : Instruction) (s s' : Variables) (g : Globals) : Prop :=
  (inst.isTerminator = false → A.At b (n + 1) ∧ Alike A R b (n + 1) s s' ∧
    Remembers A R b (n + 1) known s' g) ∧
  (inst.isTerminator → Alike A R b n s s')

theorem Alike.instruction (ha : Alike A R b n s s') (hk : Remembers A R b n known s' g)
    (hat : A.At b n) (hinst : (fn.block b).code[n]? = some inst) (hf : ∀ t, R.Leads t (f t))
    (hresult : ∀ d, inst.result? = some d → R.get? d = none) (world : World) :
    Traced.Follows (Storage.SameMove (AlikeAfter A R b n (inst.learn f known) inst) inst)
      (fn.traceInstruction world s g inst)
      (fn'.traceInstruction world s' g (inst.substitute R.close.apply)) := by
  intro events
  have hname : fn'.name = fn.name := by rw [← h.thins.edits.eq]
  simp only [traceInstruction, ha.seen hat hinst, true_and]
  refine Storage.tracks_exec hname (fun _ _ => id) (fun _ _ _ => .refl) ?_ ?_ ?_
  · intro x hx
    refine ⟨s.temps x, rfl, ?_⟩
    rw [← ha.temps x (A.operand hat hinst hx)]
    rfl
  · intro d w g' hd heffect
    have hterm := Trimmed.isTerminator_of_result? hd
    have hat' := A.next hat hinst hterm
    refine ⟨_, _, rfl, rfl, fun _ => ⟨hat', ?_, ?_⟩, fun hterm' => ?_⟩
    · exact ha.set h hat' ⟨inst, hinst, hd⟩ (hresult d hd) w
    · exact hk.set h hat' hinst hd (hresult d hd) heffect
    · rw [hterm] at hterm'
      cases hterm'
  · intro w g' hnone heffect
    refine ⟨fun hterm => ?_, fun _ => ha⟩
    have hat' := A.next hat hinst hterm
    exact ⟨hat', ha.succ hat' hinst hnone, hk.keep h ha hat' hinst hnone hf heffect⟩

/-- What is known when the instructions of a block have been executed on both sides. -/
def AlikeAtExit (A : fn.Availability) (R : Substitution) (b : BlockId)
    (r r' : Move × Variables × Globals) : Prop :=
  r'.1 = r.1 ∧ r'.2.2 = r.2.2 ∧ ∃ k, A.At b k ∧ Alike A R b k r.2.1 r'.2.1 ∧
    (∀ c, r.1 = .goTo c → fn.Leaves b k c) ∧ (r.1 = .next → k = (fn.block b).code.length)

omit h in
theorem traceCode_load (world : World) (d : Temp) (v : Variable) (code : List Instruction)
    (s : Variables) (g : Globals) : fn.traceCode world (.load d v :: code) s g =
      fn.traceCode world code { s with temps := Function.update s.temps d (g.value v) } g := by
  funext events
  show fn.traceCode world code _ g (events ++ []) = _
  rw [List.append_nil]

theorem Alike.traceCode {code kept : List Instruction} (htrims : Trims R known code kept)
    (hcode : (fn.block b).code.drop n = code) (hlen : n ≤ (fn.block b).code.length)
    (hat : A.At b n) (ha : Alike A R b n s s') (hk : Remembers A R b n known s' g)
    (world : World) :
    Traced.Follows (AlikeAtExit A R b) (fn.traceCode world code s g)
      (fn'.traceCode world (kept.map (Instruction.substitute R.close.apply)) s' g) := by
  induction htrims generalizing n s s' g with
  | nil known =>
    refine .pure ⟨rfl, rfl, n, hat, ha, by simp, fun _ => ?_⟩
    exact Nat.le_antisymm hlen (List.drop_eq_nil_iff.mp hcode)
  | drop hknown hd _ ih =>
    obtain ⟨hinst, hlt, hcode', -⟩ := drop_eq_cons hcode
    have hat' := A.next hat hinst rfl
    rw [traceCode_load]
    exact ih hcode' hlt hat' (ha.drop h hk hat' hinst hknown hd) (hk.succ hat')
  | @keep known code kept inst f hf hresult _ ih =>
    obtain ⟨hinst, hlt, hcode', -⟩ := drop_eq_cons hcode
    rw [List.map_cons, A.substitute_renamed h hat hinst hf]
    refine (ha.instruction h hk hat hinst hf hresult world).bind ?_
    rintro ⟨move, s₁, g₁⟩ ⟨move', s₁', g₁'⟩ ⟨hmove, hafter, hg, htargets, hnext, hend⟩
    obtain rfl : move = move' := hmove
    obtain rfl : g₁ = g₁' := hg
    cases move with
    | next =>
      obtain ⟨hat', ha', hk'⟩ := hafter.1 (hnext rfl)
      exact ih hcode' hlt hat' ha' hk'
    | goTo target =>
      refine .pure ⟨rfl, rfl, n, hat, hafter.2 (hend (by simp)), fun c hc => ?_, by simp⟩
      exact .inl ⟨inst, hinst, htargets c hc⟩
    | ret w => exact .pure ⟨rfl, rfl, n, hat, hafter.2 (hend (by simp)), by simp, by simp⟩

end Renamed

namespace Trimmed

variable (h : fn.Trimmed fn' R)
include h

theorem placeholder?_eq : fn'.placeholder? = fn.placeholder? := by
  funext b t
  rw [Func.placeholder?, Func.placeholder?, h.awaited]

theorem blockText_eq (b : BlockId) : fn'.blockText b = fn.blockText b := by
  have hindex : (fn'.block b).index = (fn.block b).index :=
    h.proj (·.index) (fun _ _ _ _ => rfl) b
  simp only [Graph.blockText, Graph.blockNumber, hindex, h.home]

/-- What comes from before a block does not stand for a placeholder of the block. -/
theorem placeholder?_renamed (hat : A.At c 0) (ht : A.Has c 0 t)
    (hread : ∀ v, ¬ fn.Makes (.read c v) t) : fn.placeholder? c (R.close.apply t) = none := by
  refine placeholder?_eq_none fun v hv => ?_
  cases hget : R.get? t with
  | none =>
    rw [Substitution.close_apply_of_none hget] at hv
    exact hread v hv
  | some u =>
    -- the placeholder would be available where the result was made, which comes before the block
    obtain ⟨e, -, i, hi⟩ := Availability.exists_makes h hget
    obtain ⟨hat', hlt⟩ := A.result_lt hat ht hi
    have hu := A.has_renamed h hat' (A.has_replacement h hat' hi hget)
    rw [A.renamed_of_leads h hat ht (.inr hget)] at hu
    exact Nat.lt_irrefl _ (hlt.trans_le (A.read_le hat' hu hv))

/-- Both sides enter a block alike. -/
theorem enter_alike (hat : A.At b n) (hleaves : fn.Leaves b n c) (ha : Alike A R b n s s') :
    ∃ s₁ s₁', fn.onVariables.enter (some b) c (fn.onVariables.leave b s) = .ok s₁ ∧
      fn'.onVariables.enter (some b) c (fn'.onVariables.leave b s') = .ok s₁' ∧
      Alike A R c 0 s₁ s₁' := by
  have hvars : (fn'.onVariables.leave b s').vars = (fn.onVariables.leave b s).vars := by
    funext v
    simp only [onVariables, h.written (A.mem hat)]
    cases hw : (fn.block b).written.get? v with
    | some t => exact ha.temps t (A.written hat hleaves hw)
    | none => exact congrFun ha.vars v
  refine ⟨_, _, rfl, rfl, fun t ht => ?_, hvars⟩
  have hat' := A.enter hat hleaves
  simp only [h.placeholder?_eq]
  by_cases hread : ∃ v, fn.Makes (.read c v) t
  · obtain ⟨v, hv⟩ := hread
    have hfixed : R.close.apply t = t :=
      Availability.renamed_of_not_result h fun e i hi => by cases A.single _ _ t hv hi
    rw [hfixed, placeholder?_eq_some A.single hv]
    exact congrFun hvars v
  · have hread : ∀ v, ¬ fn.Makes (.read c v) t := fun v hv => hread ⟨v, hv⟩
    rw [h.placeholder?_renamed hat' ht hread, placeholder?_eq_none hread]
    exact ha.temps t (A.before hat hleaves ht hread)

theorem traceAfter {r r' : Move × Variables × Globals} (hexit : AlikeAtExit A R b r r')
    {go go' : BlockId → Variables → Globals → Traced (Int64 × Globals)}
    (hgo : ∀ c k, A.At b k → fn.Leaves b k c → Alike A R b k r.2.1 r'.2.1 →
      Traced.Follows Eq (go c r.2.1 r.2.2) (go' c r'.2.1 r.2.2)) :
    Traced.Follows Eq (fn.traceAfter b go r) (fn'.traceAfter b go' r') := by
  obtain ⟨move, s, g⟩ := r
  obtain ⟨move', s', g'⟩ := r'
  obtain ⟨hmove, hg, k, hat, ha, htargets, hnext⟩ := hexit
  obtain rfl : move' = move := hmove
  obtain rfl : g' = g := hg
  cases move' with
  | ret w => exact .pure rfl
  | goTo target => exact hgo target k hat (htargets target rfl) ha
  | next =>
    have hname : fn'.name = fn.name := by rw [← h.thins.edits.eq]
    simp only [Func.traceAfter, h.sameShape.children, h.blockText_eq, hname]
    rcases hchildren : (fn.block b).children with _ | ⟨c, _ | ⟨d, rest⟩⟩
    · exact .lift .refl
    · exact hgo c k hat (.inr ⟨hnext rfl, hchildren⟩) ha
    · exact .lift .refl

theorem traceBlocks (hat : A.At b 0) (ha : Alike A R b 0 s s') (world : World) (k : Nat)
    (g : Globals) :
    Traced.Follows Eq (fn.traceBlocks world k b (fn.block b).code s g)
      (fn'.traceBlocks world k b (fn'.block b).code s' g) := by
  -- by induction on the number of blocks that are left
  induction k generalizing b s s' g with
  | zero =>
    obtain ⟨kept, htrims, hblock⟩ := h.block b (A.mem hat)
    rw [show (fn'.block b).code = kept.map (Instruction.substitute R.close.apply) by rw [hblock]; rfl]
    refine (ha.traceCode h htrims rfl (Nat.zero_le _) hat (by simp [Remembers]) world).bind ?_
    exact fun r r' hexit => h.traceAfter hexit fun _ _ _ _ _ => .lift .never
  | succ k ih =>
    obtain ⟨kept, htrims, hblock⟩ := h.block b (A.mem hat)
    have hname : fn'.name = fn.name := by rw [← h.thins.edits.eq]
    rw [show (fn'.block b).code = kept.map (Instruction.substitute R.close.apply) by rw [hblock]; rfl]
    refine (ha.traceCode h htrims rfl (Nat.zero_le _) hat (by simp [Remembers]) world).bind ?_
    refine fun r r' hexit => h.traceAfter hexit fun c m hat hleaves ha => ?_
    obtain ⟨s₁, s₁', hs, hs', ha'⟩ := h.enter_alike hat hleaves ha
    rw [hs, hs', hname]
    exact ih (A.enter hat hleaves) ha' r.2.2

/-- Removing repeated loads changes nothing that can be seen. -/
theorem trace_eq (A : fn.Availability) (world : World) (k : Nat) (args : List Int64) (g : Globals) :
    fn'.trace world k args g = fn.trace world k args g := by
  have hname : fn'.name = fn.name := by rw [← h.thins.edits.eq]
  have hstart : fn'.onVariables.enter none fn.entry (fn'.onVariables.start args) =
      fn.onVariables.enter none fn.entry (fn.onVariables.start args) := by
    simp only [onVariables, h.placeholder?_eq, h.paramTemps]
  rw [trace, trace, h.thins.edits.entry, hname, hstart]
  refine (h.traceBlocks A.start ⟨fun t ht => ?_, rfl⟩ world k g).eq
  rw [Availability.renamed_of_not_result h fun c i => A.start_result ht]

/-- Removing repeated loads keeps the meaning. -/
theorem meaning_eq (A : fn.Availability) (C : Callee) (args : List Int64) (g : Globals) :
    fn'.onVariables.meaning fn' C args g = fn.onVariables.meaning fn C args g := by
  rw [Storage.meaning, Storage.meaning]
  congr 1
  funext k
  rw [← trace_ending k args g [], h.trace_eq A, trace_ending]

end Trimmed

end Func

end SsaBlocks
