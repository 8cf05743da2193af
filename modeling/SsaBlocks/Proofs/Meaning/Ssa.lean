import SsaBlocks.Proofs.Meaning.Registers
import SsaBlocks.Proofs.Meaning.Tracking
import SsaBlocks.Proofs.Phi.SsaForm

/-!
# SSA construction keeps the meaning

A function in SSA form is run on registers side by side with the function it comes from, run on
variables. The registers of what the temporaries have been renamed to hold the values of the
temporaries, and the register of what a variable leaves a block with holds the value of the
variable, as far as these have registers. The two runs are alike until a phi node has to be set that
takes its value from a temporary without a register.
-/

namespace SsaBlocks

open List

namespace Func

open SsaBlocks.Flow

variable {fn fin : Func} {σ : Temp → Temp} {rank : Temp → Nat}
  {phi out : Variable → BlockId → Option Temp} {regs : Array Int64} {b p : BlockId} {t d : Temp}
  {w : Int64}

/-- All phi nodes take their values from temporaries that have been numbered. -/
def PhisNumbered (fin : Func) : Prop :=
  ∀ b ∈ fin.order, ∀ n ∈ (fin.block b).phis, ∀ e ∈ n.edges, (fin.tempIndex? e.2).isSome

/-- A temporary that has not been numbered is an excuse, unless there is none in phi nodes. -/
structure Excuses (fin : Func) (E : EvalFailure → Prop) : Prop where
  under : ∀ e names, E e → E (e.under names)
  unnumbered : ¬ fin.PhisNumbered → ∀ k, E (.fault (.temporaryNotNumbered k))

namespace SsaForm

variable (h : fn.SsaForm fin σ rank phi out)
include h

theorem registered : fin.Registered := ⟨h.index_inj, h.index_lt⟩

theorem phiValue_or (hb : b ∈ fn.canonicalOrder) (hpb : fn.Edge p b) {ρ : Variable → Int64}
    (hvars : ∀ v u, out v p = some u → fin.Holds regs (σ u) (ρ v)) {n : Phi}
    (hn : n ∈ (fin.block b).phis) :
    Frame.phiValue fin regs b (some p) n = .ok (ρ n.var) ∨ ¬ fin.PhisNumbered ∧
      ∃ k, Frame.phiValue fin regs b (some p) n = .error (.fault (.temporaryNotNumbered k)) := by
  obtain ⟨-, -, hedges⟩ := h.node b hb n hn
  obtain ⟨u, hu, hfind⟩ := hedges p hpb
  have hvalue : Frame.phiValue fin regs b (some p) n = Frame.read fin regs (σ u) := by
    rw [Frame.phiValue, hfind]
  rw [hvalue]
  rcases (hvars n.var u hu).read_or with hread | ⟨hnone, k, hread⟩
  · exact .inl hread
  · refine .inr ⟨fun hclosed => ?_, k, hread⟩
    have := hclosed b (h.order ▸ hb) n hn _ (mem_of_find?_eq_some hfind)
    simp [hnone] at this

/-- On entering a block its phi nodes take the values of their variables, unless one of them takes
its value from a temporary that has not been numbered. -/
theorem enterPhis_or (hb : b ∈ fn.canonicalOrder) (hpb : fn.Edge p b) {ρ : Variable → Int64}
    (hvars : ∀ v u, out v p = some u → fin.Holds regs (σ u) (ρ v))
    (hsize : regs.size = fin.temporaryCount) :
    (¬ fin.PhisNumbered ∧
      ∃ k, Frame.enterPhis fin regs b (some p) = .error (.fault (.temporaryNotNumbered k))) ∨
      ∃ regs', Frame.enterPhis fin regs b (some p) = .ok regs' ∧
        regs'.size = fin.temporaryCount ∧
        (∀ n ∈ (fin.block b).phis, fin.Holds regs' n.dest (ρ n.var)) ∧
        ∀ t w, (∀ n ∈ (fin.block b).phis, t ≠ n.dest) → fin.Holds regs t w →
          fin.Holds regs' t w := by
  cases hread : (fin.block b).phis.mapM (Frame.phiValue fin regs b (some p)) with
  | error e =>
    obtain ⟨n, hn, he⟩ := exists_of_mapM_eq_error hread
    rcases h.phiValue_or hb hpb hvars hn with hok | ⟨hopen, k, hk⟩
    · cases hok.symm.trans he
    · cases hk.symm.trans he
      rw [Frame.enterPhis, hread]
      exact .inl ⟨hopen, k, rfl⟩
  | ok values =>
    have hvalues : ∀ n ∈ (fin.block b).phis,
        Frame.phiValue fin regs b (some p) n = .ok (ρ n.var) := by
      intro n hn
      rcases h.phiValue_or hb hpb hvars hn with hok | ⟨-, k, hk⟩
      · exact hok
      · obtain ⟨w, hw⟩ := forall_of_mapM_eq_ok hread n hn
        cases hk.symm.trans hw
    have hindex : ∀ n ∈ (fin.block b).phis, (fin.tempIndex? n.dest).isSome := by
      intro n hn
      obtain ⟨hphi, hscope, -⟩ := h.node b hb n hn
      exact (h.kept b hb n.var n.dest hphi).1.mpr hscope
    obtain ⟨regs', henter, hsize', hdests, hkeep⟩ :=
      h.registered.exists_enterPhis hvalues hindex (h.dests b hb) hsize
    exact .inr ⟨regs', henter, hsize', hdests, fun t w => h.registered.holds_of_ne hkeep⟩

end SsaForm

/-! ## Invariants -/

/-- What is known before the instruction `n` of the block `b`. -/
structure Inside (fn fin : Func) (σ : Temp → Temp) (phi out : Variable → BlockId → Option Temp)
    (b : BlockId) (n : Nat) (s : Variables) (regs : Array Int64) : Prop where
  size : regs.size = fin.temporaryCount
  temps : ∀ t, fn.Available b n t → fin.Holds regs (σ t) (s.temps t)
  phis : ∀ v d, phi v b = some d → fin.Holds regs d (s.vars v)
  vars : ∀ v u, (fn.block b).written.get? v = none → phi v b = none → out v b = some u →
    fin.Holds regs (σ u) (s.vars v)

/-- What is known on leaving the block `p`. -/
structure Left (fn fin : Func) (σ : Temp → Temp) (out : Variable → BlockId → Option Temp)
    (p : BlockId) (s : Variables) (regs : Array Int64) : Prop where
  size : regs.size = fin.temporaryCount
  temps : ∀ t, fn.Available p (fn.block p).code.length t → fin.Holds regs (σ t) (s.temps t)
  vars : ∀ v u, out v p = some u → fin.Holds regs (σ u) (s.vars v)

variable {s : Variables}

theorem Inside.left (h : fn.SsaForm fin σ rank phi out) (hr : fn.Ready)
    (hb : b ∈ fn.canonicalOrder)
    (hin : fn.Inside fin σ phi out b (fn.block b).code.length s regs) :
    fn.Left fin σ out b (fn.onVariables.leave b s) regs where
  size := hin.size
  temps := hin.temps
  vars v u hu := by
    simp only [onVariables]
    cases hw : (fn.block b).written.get? v with
    | some t =>
      obtain rfl : t = u := Option.some.inj ((h.out_written b hb v t hw).symm.trans hu)
      exact hin.temps t (hr.written b hb v t hw)
    | none =>
      cases hphi : phi v b with
      | some d =>
        obtain rfl : d = u := Option.some.inj ((h.out_phi b hb v d hw hphi).symm.trans hu)
        rw [h.fixed_phi v b d hphi]
        exact hin.phis v d hphi
      | none => exact hin.vars v u hw hphi hu

/-! ## Ranks -/

namespace SsaForm

variable (h : fn.SsaForm fin σ rank phi out)
include h

/-- A variable that a block does not set keeps what it had before the block. -/
theorem rank_vars_le {v : Variable} {u : Temp} (hb : b ∈ fn.canonicalOrder)
    (hw : (fn.block b).written.get? v = none) (hphi : phi v b = none) (hu : out v b = some u) :
    rank (σ u) ≤ fn.canonicalOrder.idxOf b := by
  rcases exists_owner_before hb with rfl | ⟨p, -, hp, -⟩
  · rw [h.out_entry v hw] at hu
    cases hu
  · rw [h.out_edge p b v hp.edge hw hphi] at hu
    exact (h.rank_le u).trans (h.rank_out p b v u hp.edge hphi hu)

variable (hr : fn.Ready)
include hr

/-- A placeholder without a phi node stands for something from before the block. -/
theorem rank_read_le {v : Variable} (hb : b ∈ fn.canonicalOrder) (ht : fn.Makes (.read b v) t)
    (hphi : phi v b = none) : rank (σ t) ≤ fn.canonicalOrder.idxOf b := by
  rcases exists_owner_before hb with rfl | ⟨p, -, hp, -⟩
  · exact absurd (liveIn_of_awaited ht) (hr.live_entry v)
  · obtain ⟨u, hu, hσ⟩ := h.read p b v t hp.edge ht hphi
    rw [hσ]
    exact (h.rank_le u).trans (h.rank_out p b v u hp.edge hphi hu)

/-- What is available at the top of a block and does not come from it is from before it. -/
theorem rank_available_le {c : Source} (hb : b ∈ fn.canonicalOrder) (hmakes : fn.Makes c t)
    (hbefore : c.Before fn b 0) (hread : ∀ v, c ≠ .read b v) :
    rank (σ t) ≤ fn.canonicalOrder.idxOf b := by
  have hrooted := hr.rooted
  refine (h.rank_le t).trans ?_
  match c, hmakes, hbefore with
  | .param i, hmakes, _ =>
    rw [h.rank_param i t hmakes]
    exact Nat.zero_le _
  | .read c v, hmakes, hc =>
    have hne : c ≠ b := by
      rintro rfl
      exact hread v rfl
    rw [h.rank_read c (hrooted.dominator_mem hc hb) v t hmakes]
    exact idxOf_lt_of_strictlyDominates ⟨hc, hne⟩ hb
  | .result c i, hmakes, .inl hc => exact absurd hc.2 (Nat.not_lt_zero i)
  | .result c i, hmakes, .inr hc =>
    rw [h.rank_result c (hrooted.dominator_mem hc.1 hb) i t hmakes]
    exact idxOf_lt_of_strictlyDominates hc hb

/-- What is available before an instruction does not stand for the result of that instruction. -/
theorem available_ne {n : Nat} {t : Temp} (hb : b ∈ fn.canonicalOrder) (ht : fn.Available b n t)
    (hd : fn.Makes (.result b n) d) (hne : t ≠ d) : σ t ≠ d := by
  obtain ⟨c, hmakes, hbefore⟩ := ht
  match c, hmakes, hbefore with
  | .param i, hmakes, _ => rwa [h.fixed_param i t hmakes]
  | .result c i, hmakes, _ => rwa [h.fixed_result c i t hmakes]
  | .read c v, hmakes, hc =>
    cases hphi : phi v c with
    | some e =>
      obtain rfl := h.read_phi c v t e hmakes hphi
      rwa [h.fixed_phi v c e hphi]
    | none =>
      rintro rfl
      have hle := h.rank_read_le hr (hr.rooted.dominator_mem hc hb) hmakes hphi
      rw [h.rank_result b hb n _ hd] at hle
      by_cases hcb : c = b
      · subst hcb
        exact Nat.not_succ_le_self _ hle
      · exact Nat.lt_asymm hle (idxOf_lt_of_strictlyDominates ⟨hc, hcb⟩ hb)

end SsaForm

/-- Entering a block. -/
theorem Left.enter (h : fn.SsaForm fin σ rank phi out) (hr : fn.Ready) (hpb : fn.Edge p b)
    (hl : fn.Left fin σ out p s regs) :
    (¬ fin.PhisNumbered ∧
      ∃ k, fin.onRegisters.enter (some p) b regs = .error (.fault (.temporaryNotNumbered k))) ∨
      ∃ s' regs', fn.onVariables.enter (some p) b s = .ok s' ∧
        fin.onRegisters.enter (some p) b regs = .ok regs' ∧
        fn.Inside fin σ phi out b 0 s' regs' := by
  have hb : b ∈ fn.canonicalOrder := (hr.rooted.edge_mem hpb).2
  rcases h.enterPhis_or hb hpb hl.vars hl.size with hfault | ⟨regs', henter, hsize, hdests, hkeep⟩
  · exact .inl hfault
  refine .inr ⟨_, regs', rfl, henter, ?_⟩
  -- what comes from before the block is not the result of a phi node of the block
  have hold : ∀ t w, rank t ≤ fn.canonicalOrder.idxOf b → fin.Holds regs t w →
      fin.Holds regs' t w := by
    intro t w ht hw
    refine hkeep t w (fun n hn htn => ?_) hw
    rw [htn, h.rank_phi b hb n.var n.dest (h.node b hb n hn).1] at ht
    exact Nat.not_succ_le_self _ ht
  have hphis : ∀ v d, phi v b = some d → fin.Holds regs' d (s.vars v) := by
    intro v d hd i hi
    obtain ⟨hkept, hnode⟩ := h.kept b hb v d hd
    obtain ⟨n, hn, rfl, rfl⟩ := hnode (hkept.mp (by simp [hi]))
    exact hdests n hn i hi
  refine ⟨hsize, ?_, hphis, fun v u hw hphi hu => ?_⟩
  · rintro t ⟨c, hmakes, hbefore⟩
    by_cases hread : ∃ v, c = .read b v
    · obtain ⟨v, rfl⟩ := hread
      simp only [placeholder?_eq_some hr.single hmakes]
      cases hphi : phi v b with
      | some d =>
        obtain rfl := h.read_phi b v t d hmakes hphi
        rw [h.fixed_phi v b d hphi]
        exact hphis v d hphi
      | none =>
        obtain ⟨u, hu, hσ⟩ := h.read p b v t hpb hmakes hphi
        refine hold _ _ (h.rank_read_le hr hb hmakes hphi) ?_
        rw [hσ]
        exact hl.vars v u hu
    · have hread : ∀ v, c ≠ .read b v := fun v hv => hread ⟨v, hv⟩
      have hnone : fn.placeholder? b t = none :=
        placeholder?_eq_none fun v hv => hread v (hr.single _ _ t hmakes hv)
      simp only [hnone]
      exact hold _ _ (h.rank_available_le hr hb hmakes hbefore hread)
        (hl.temps t (available_pred hpb hmakes hbefore hread))
  · rw [h.out_edge p b v hpb hw hphi] at hu
    exact hold _ _ ((h.rank_le u).trans (h.rank_out p b v u hpb hphi hu)) (hl.vars v u hu)

/-- The result of an instruction is set. -/
theorem Inside.set {n : Nat} (h : fn.SsaForm fin σ rank phi out) (hr : fn.Ready)
    (hb : b ∈ fn.canonicalOrder) (hin : fn.Inside fin σ phi out b n s regs)
    (hd : fn.Makes (.result b n) d) (w : Int64) :
    ∃ s' regs', fn.onVariables.set s d w = .ok s' ∧ fin.onRegisters.set regs d w = .ok regs' ∧
      fn.Inside fin σ phi out b (n + 1) s' regs' := by
  obtain ⟨regs', hwrite, hsize, hdest, hkeep⟩ :=
    h.registered.exists_write (h.index_result b hb n d hd) hin.size w
  have hold : ∀ t w', t ≠ d → fin.Holds regs t w' → fin.Holds regs' t w' := by
    intro t w' hne ht i hi
    rw [hkeep i fun hd => hne (h.index_inj t d i hi hd), ht i hi]
  have hrank := h.rank_result b hb n d hd
  refine ⟨_, regs', rfl, hwrite, hsize, fun t ht => ?_, fun v e he => ?_, fun v u hw hphi hu => ?_⟩
  · by_cases htd : t = d
    · subst htd
      simp only [Function.update_self, h.fixed_result b n t hd]
      exact hdest
    · simp only [Function.update_of_ne htd]
      rcases ht.of_succ with ht | ⟨inst, hinst, ht⟩
      · exact hold _ _ (h.available_ne hr hb ht hd htd) (hin.temps t ht)
      · obtain ⟨inst', hinst', hd⟩ := hd
        cases hinst.symm.trans hinst'
        exact absurd (Option.some.inj (ht.symm.trans hd)) htd
  · refine hold e _ ?_ (hin.phis v e he)
    rintro rfl
    exact h.phi_ne_result v b e n he hd
  · refine hold _ _ ?_ (hin.vars v u hw hphi hu)
    intro heq
    have hle := h.rank_vars_le hb hw hphi hu
    rw [heq, hrank] at hle
    exact Nat.not_succ_le_self _ hle

variable {C C' : Callee} {E : EvalFailure → Prop}

theorem Inside.exec {n : Nat} {inst : Instruction} (h : fn.SsaForm fin σ rank phi out)
    (hr : fn.Ready) (hE : fin.Excuses E) (hC : Callee.Tracks E C C') (hb : b ∈ fn.canonicalOrder)
    (hin : fn.Inside fin σ phi out b n s regs) (hinst : (fn.block b).code[n]? = some inst)
    (g : Globals) :
    Ending.Tracks E
      (Storage.SameMove (fun s regs _ => fn.Inside fin σ phi out b (n + 1) s regs) inst)
      (fn.onVariables.exec fn C s g inst)
      (fin.onRegisters.exec fin C' regs g (inst.substitute σ)) := by
  refine Storage.tracks_exec h.name hE.under hC ?_ ?_ ?_
  · intro x hx
    have hav := hr.operands b hb n inst hinst x hx
    exact ⟨s.temps x, rfl, (hin.temps x hav).read (h.index_available b hb n x hav)⟩
  · intro d w _ hd _
    exact hin.set h hr hb ⟨inst, hinst, hd⟩ w
  · intro _ _ hnone _
    refine ⟨hin.size, fun t ht => ?_, hin.phis, hin.vars⟩
    rcases ht.of_succ with ht | ⟨inst', hinst', ht⟩
    · exact hin.temps t ht
    · cases hinst.symm.trans hinst'
      rw [hnone] at ht
      cases ht

theorem Inside.runCode (h : fn.SsaForm fin σ rank phi out) (hr : fn.Ready)
    (hE : fin.Excuses E) (hC : Callee.Tracks E C C') (hb : b ∈ fn.canonicalOrder) {n : Nat}
    {code : List Instruction} (hcode : (fn.block b).code.drop n = code)
    (hlen : n ≤ (fn.block b).code.length)
    (hpast : ∀ i ∈ (fn.block b).code.take n, i.isTerminator = false)
    (hin : fn.Inside fin σ phi out b n s regs) (g : Globals) :
    Ending.Tracks E
      (Storage.AtExit fn (fn.Inside fin σ phi out b (fn.block b).code.length) b)
      (fn.onVariables.runCode fn C code s g)
      (fin.onRegisters.runCode fin C' (code.map (Instruction.substitute σ)) regs g) := by
  induction code generalizing n s regs g with
  | nil =>
    have hn : n = (fn.block b).code.length := Nat.le_antisymm hlen (drop_eq_nil_iff.mp hcode)
    refine .value ⟨rfl, rfl, hn ▸ hin, by simp, fun _ => hr.exists_child hb ?_⟩
    rwa [hn, take_length] at hpast
  | cons inst code ih =>
    obtain ⟨hinst, hlt, hcode', htake⟩ := drop_eq_cons hcode
    rw [map_cons, Storage.runCode, Storage.runCode]
    refine (hin.exec h hr hE hC hb hinst g).bind ?_
    rintro ⟨move, s', g'⟩ ⟨move', regs', g''⟩ hmove
    obtain ⟨rfl, hin', rfl, -, hnext, -⟩ := id hmove
    cases move with
    | next =>
      refine ih hcode' hlt (fun i hi => ?_) hin' g'
      rw [htake] at hi
      rcases mem_append.mp hi with hi | hi
      · exact hpast i hi
      · cases mem_singleton.mp hi
        exact hnext rfl
    | goTo | ret => exact .value (hmove.atExit hr hb hinst (by simp) fun hlast hin => hlast ▸ hin)

theorem SsaForm.simulates (h : fn.SsaForm fin σ rank phi out) (hr : fn.Ready)
    (hE : fin.Excuses E) (hC : Callee.Tracks E C C') :
    Storage.Simulates E fn fin fn.onVariables fin.onRegisters C C'
      (fun b => fn.Inside fin σ phi out b 0)
      (fun b => fn.Inside fin σ phi out b (fn.block b).code.length) where
  name := h.name
  entry := h.entry
  children b _ := h.children b
  code b hb s regs g hin := by
    rw [h.code b hb]
    exact hin.runCode h hr hE hC hb rfl (Nat.zero_le _) (by simp) g
  enter b hb c hbc s regs hin := by
    refine ⟨(hr.rooted.edge_mem hbc).2, ?_⟩
    rcases (hin.left h hr hb).enter h hr hbc with ⟨hopen, k, hfault⟩ | hok
    · exact .inl ⟨_, hfault, hE.unnumbered hopen k⟩
    · exact .inr hok

theorem getElem?_foldl_setIfInBounds (args : List Int64) (k : Nat) (regs : Array Int64) (i : Nat) :
    ((args.zipIdx k).foldl (fun regs e => regs.setIfInBounds e.2 e.1) regs)[i]? =
      if k ≤ i ∧ i < k + args.length ∧ i < regs.size then args[i - k]? else regs[i]? := by
  induction args generalizing k regs with
  | nil =>
    rw [if_neg (by simp only [length_nil]; omega)]
    rfl
  | cons w args ih =>
    rw [zipIdx_cons, foldl_cons, ih]
    simp only [Array.size_setIfInBounds, length_cons, Array.getElem?_setIfInBounds]
    by_cases hik : k = i
    · subst hik
      by_cases hlt : k < regs.size
      · simp [hlt]
      · simp [hlt]
    · by_cases hle : k ≤ i
      · have hsub : i - k = (i - (k + 1)) + 1 := by omega
        have hiff : (k + 1 ≤ i ∧ i < k + 1 + args.length ∧ i < regs.size) ↔
            (k ≤ i ∧ i < k + (args.length + 1) ∧ i < regs.size) := by omega
        simp only [hiff, hik, if_false, hsub, getElem?_cons_succ]
      · simp [hle, hik, show ¬ k + 1 ≤ i by omega]

theorem size_foldl_setIfInBounds (args : List (Int64 × Nat)) (regs : Array Int64) :
    (args.foldl (fun regs e => regs.setIfInBounds e.2 e.1) regs).size = regs.size := by
  induction args generalizing regs with
  | nil => rfl
  | cons e args ih => rw [foldl_cons, ih, Array.size_setIfInBounds]

theorem lookup_zip {l : List Temp} {args : List Int64} (hl : l.Nodup) {i : Nat}
    (ht : l[i]? = some t) (hw : args[i]? = some w) : (l.zip args).lookup t = some w := by
  induction l generalizing args i with
  | nil => simp at ht
  | cons u l ih =>
    cases args with
    | nil => simp at hw
    | cons w' args =>
      rw [nodup_cons] at hl
      cases i with
      | zero =>
        simp only [getElem?_cons_zero, Option.some.injEq] at ht hw
        simp [ht, hw]
      | succ i =>
        simp only [getElem?_cons_succ] at ht hw
        have hne : (t == u) = false := by
          rw [beq_eq_false_iff_ne]
          rintro rfl
          exact hl.1 (mem_of_getElem? ht)
        rw [zip_cons_cons, lookup_cons, hne]
        exact ih hl.2 ht hw

theorem Fresh.nodup_paramTemps (h : fn.Fresh) : fn.paramTemps.Nodup := by
  rw [List.Nodup, pairwise_iff_getElem]
  intro i j hi hj hij heq
  cases h.single (.param i) (.param j) _ (List.getElem?_eq_getElem hi)
    (heq ▸ List.getElem?_eq_getElem hj)
  exact Nat.lt_irrefl _ hij

/-- Entering the function. -/
theorem Inside.start (h : fn.SsaForm fin σ rank phi out) (hr : fn.Ready) {args : List Int64}
    (hargs : args.length = fn.params.length) :
    ∃ s regs, fn.onVariables.enter none fn.entry (fn.onVariables.start args) = .ok s ∧
      fin.onRegisters.enter none fn.entry (fin.onRegisters.start args) = .ok regs ∧
      fn.Inside fin σ phi out fn.entry 0 s regs := by
  have hentry : fn.entry ∈ fn.canonicalOrder := mem_canonicalOrder.mpr (.refl ..)
  have hphis : (fin.block fn.entry).phis = [] := by
    refine eq_nil_iff_forall_not_mem.mpr fun n hn => ?_
    have := (h.node fn.entry hentry n hn).1
    rw [h.phi_entry] at this
    cases this
  refine ⟨_, fin.onRegisters.start args, rfl, ?_, ?_⟩
  · simp only [onRegisters, Frame.enterPhis, hphis]
    rfl
  · have hsize : (fin.onRegisters.start args).size = fin.temporaryCount := by
      simp only [onRegisters, size_foldl_setIfInBounds, Array.size_replicate]
    refine ⟨hsize, ?_, fun v d hd => ?_, fun v u hw _ hu => ?_⟩
    · rintro t ⟨c, hmakes, hbefore⟩
      cases c with
      | read c v =>
        -- nothing is read in the entry before it is written
        have hce : c = fn.entry := by
          rcases hbefore [] (.nil _) with hmem | rfl
          · simp at hmem
          · rfl
        subst hce
        exact absurd (liveIn_of_awaited hmakes) (hr.live_entry v)
      | result c i =>
        rcases hbefore with hc | hc
        · exact absurd hc.2 (Nat.not_lt_zero i)
        · exact absurd rfl hc.ne_entry
      | param i =>
        have hnone : fn.placeholder? fn.entry t = none :=
          placeholder?_eq_none fun v hv => by cases hr.single _ _ t hmakes hv
        have hlt : i < args.length := by
          rw [hargs, ← hr.params]
          exact (List.getElem?_eq_some_iff.mp hmakes).1
        have hw : args[i]? = some args[i] := List.getElem?_eq_getElem hlt
        rw [h.fixed_param i t hmakes]
        intro j hj
        obtain rfl : i = j := Option.some.inj ((h.index_param i t hmakes).symm.trans hj)
        have hlookup := lookup_zip hr.toFresh.nodup_paramTemps hmakes hw
        simp only [hnone, onVariables, hlookup, Option.getD_some]
        simp only [onRegisters, getElem?_foldl_setIfInBounds, Array.size_replicate]
        rw [if_pos ⟨Nat.zero_le i, by omega, h.index_lt t i hj⟩]
        exact hw
    · rw [h.phi_entry] at hd
      cases hd
    · rw [h.out_entry v hw] at hu
      cases hu

/-- The function in SSA form does what the function does on variables, up to temporaries that have
not been numbered. -/
theorem SsaForm.tracks_meaning (h : fn.SsaForm fin σ rank phi out) (hr : fn.Ready)
    (hE : fin.Excuses E) (hC : Callee.Tracks E C C') {args : List Int64}
    (hargs : args.length = fn.params.length) (g : Globals) :
    Ending.Tracks E Eq (fn.onVariables.meaning fn C args g)
      (fin.onRegisters.meaning fin C' args g) := by
  obtain ⟨s, regs, hs, hregs, hin⟩ := Inside.start h hr hargs
  exact (h.simulates hr hE hC).meaning hs hregs hin (mem_canonicalOrder.mpr (.refl ..)) g

end Func

end SsaBlocks
