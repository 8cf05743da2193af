import SsaBlocks.Lower.Basic
import SsaBlocks.Proofs.Func.Established
import SsaBlocks.Proofs.Typed.Scoped

/-!
# Steps of lowering

Lowering may give up on a construct that it does not support; it is never refused by the function
that it fills. `Ensures` states what a step promises, and the lemmas below are its rules.

The variables that lowering makes are numbered by a supply. If it gives every number once, a new
variable is new to the function, so no block has read it. `Tidy` keeps this, together with the fact
that a variable which a block reads before writing it is established there. A variable may have been
made and not be in use yet; such variables are *reserved*.
-/

namespace SsaBlocks.Lower

open List

open SsaBlocks.Source (Pos)
open SsaBlocks.Typed
open Func

variable {α β : Type} {m : Lower α} {k : α → Lower β} {c : Context} {s s' s'' : State}
  {Q Q' : α → State → Prop} {R : β → State → Prop}

/-- A step of lowering that may give up on what it is given, but is never refused by the function:
if it succeeds, its result and the state afterwards are as required. -/
def Ensures (m : Lower α) (c : Context) (s : State) (Q : α → State → Prop) : Prop :=
  match m c s with
  | .ok r => Q r.1 r.2
  | .error (.unsupported _ _) => True
  | .error (.fault _) => False

namespace Ensures

theorem pure {a : α} (h : Q a s) : Ensures (Pure.pure a) c s Q := h

theorem unsupported (pos : Pos) (what : String) : Ensures (Lower.unsupported pos what) c s Q :=
  trivial

theorem mono (h : Ensures m c s Q) (hQ : ∀ a s', Q a s' → Q' a s') : Ensures m c s Q' := by
  unfold Ensures at h ⊢
  cases hm : m c s with
  | ok r =>
    rw [hm] at h
    exact hQ r.1 r.2 h
  | error e =>
    rw [hm] at h
    cases e with
    | unsupported pos what => trivial
    | fault f => exact h

theorem bind_apply (m : Lower α) (k : α → Lower β) (c : Context) (s : State) :
    (m >>= k) c s = (m c s) >>= fun r => k r.1 c r.2 := rfl

theorem bind (h : Ensures m c s Q) (hk : ∀ a s', Q a s' → Ensures (k a) c s' R) :
    Ensures (m >>= k) c s R := by
  unfold Ensures at h ⊢
  rw [bind_apply]
  cases hm : m c s with
  | ok r =>
    rw [hm] at h
    exact hk r.1 r.2 h
  | error e =>
    rw [hm] at h
    cases e with
    | unsupported pos what => trivial
    | fault f => exact h

/-- Goes on unless something is not supported. -/
theorem supported {p : Prop} [Decidable p] {k : PUnit → Lower β} {pos : Pos} {what : String}
    (hk : ¬ p → Ensures (k ⟨⟩) c s R) :
    Ensures (if p then (Lower.unsupported pos what >>= k) else k ⟨⟩) c s R := by
  split
  · exact bind (Q := fun _ _ => False) (unsupported pos what) fun _ _ hfalse => hfalse.elim
  · next hp => exact hk hp

theorem forM_cons {f : β → Lower PUnit} {a : β} {l : List β} {P T : PUnit → State → Prop}
    (h : Ensures (f a) c s P) (hk : ∀ s', P ⟨⟩ s' → Ensures (l.forM f) c s' T) :
    Ensures ((a :: l).forM f) c s T :=
  h.bind fun _ s' => hk s'

/-- A step whose outcome is known. -/
theorem bind_ok (a : α) (s' : State) (h : m c s = .ok (a, s')) (hk : Ensures (k a) c s' R) :
    Ensures (m >>= k) c s R := by
  unfold Ensures at hk ⊢
  rw [bind_apply, h]
  exact hk

theorem map {f : α → β} (h : Ensures m c s fun a s' => R (f a) s') :
    Ensures (f <$> m) c s R := by
  have happly : (f <$> m) c s = (m c s) >>= fun r => .ok (f r.1, r.2) := rfl
  unfold Ensures at h ⊢
  rw [happly]
  cases hm : m c s with
  | ok r =>
    rw [hm] at h
    exact h
  | error e =>
    rw [hm] at h
    cases e with
    | unsupported pos what => trivial
    | fault f => exact h

theorem discard (h : Ensures m c s Q) :
    Ensures (Functor.discard m) c s fun _ s' => ∃ a, Q a s' := by
  exact map (f := fun _ => ()) (h.mono fun a s' hQ => ⟨a, hQ⟩)

theorem build_apply {step : Build α} {a : α} {fn : Func} (h : step s.fn = (.ok a, fn)) :
    Lower.build step c s = .ok (a, { s with fn }) := by
  have hget : (get : Lower State) c s = .ok (s, s) := rfl
  rw [Lower.build, bind_apply, hget, ok_bind]
  simp only [h]
  rfl

theorem build_bind {step : Build α} {a : α} {fn : Func} (h : step s.fn = (.ok a, fn))
    (hk : Ensures (k a) c { s with fn } R) : Ensures (Lower.build step >>= k) c s R :=
  bind_ok _ _ (build_apply h) hk

theorem build {step : Build α} {a : α} {fn : Func} (h : step s.fn = (.ok a, fn))
    (hQ : Q a { s with fn }) : Ensures (Lower.build step) c s Q := by
  unfold Ensures
  rw [build_apply h]
  exact hQ

end Ensures

/-! ## Variables -/

variable {reserved : List Variable} {b b' x : BlockId} {os outs : Multiset BlockId} {v w : Variable}
  {u : Temp} {us us' : List Temp} {ids ids' : List VarId} {fn : Func}

/-- The variable has been made. -/
def Made (c : Context) (s : State) (v : Variable) : Prop :=
  ∃ k < s.made, v.id = c.supply k

/-- The variables in use have been made and are not reserved, and those that a block reads before
writing them are established there and not declared by it. -/
structure Tidy (c : Context) (reserved : List Variable) (s : State) : Prop where
  injective : Function.Injective c.supply
  made : ∀ v ∈ reserved, Made c s v
  bound : ∀ id v, (id, v) ∈ s.bindings → v ∉ reserved ∧ Made c s v
  awaited : ∀ b v u, (s.fn.block b).awaited.get? v = some u →
    v ∉ reserved ∧ Made c s v ∧ s.fn.Established v b ∧ v ∉ (s.fn.block b).declared

namespace Tidy

/-- The next variable differs from those that have been made. -/
theorem ne_next (h : Tidy c reserved s) (hv : v.id = c.supply s.made) (hw : Made c s w) :
    w ≠ v := by
  rintro rfl
  obtain ⟨k, hk, hid⟩ := hw
  have heq : k = s.made := h.injective (hid.symm.trans hv)
  exact absurd heq hk.ne

theorem made_succ (hv : Made c s v) : Made c { s with made := s.made + 1 } v := by
  obtain ⟨k, hk, hid⟩ := hv
  exact ⟨k, hk.trans (Nat.lt_succ_self _), hid⟩

/-- A new variable is reserved. -/
theorem newVariable (h : Tidy c reserved s) (hv : v.id = c.supply s.made) :
    Tidy c (v :: reserved) { s with made := s.made + 1 } ∧ v ∉ reserved := by
  have hnot : ∀ w, w ∉ reserved ∧ Made c s w → w ∉ v :: reserved := by
    rintro w ⟨hw, hmade⟩ hmem
    rcases mem_cons.mp hmem with rfl | hmem
    · exact h.ne_next hv hmade rfl
    · exact hw hmem
  refine ⟨⟨h.injective, ?_, ?_, ?_⟩, fun hmem => h.ne_next hv (h.made v hmem) rfl⟩
  · intro w hw
    rcases mem_cons.mp hw with rfl | hw
    · exact ⟨s.made, Nat.lt_succ_self _, hv⟩
    · exact made_succ (h.made w hw)
  · intro id w hw
    have hbound := h.bound id w hw
    exact ⟨hnot w hbound, made_succ hbound.2⟩
  · intro b w u hu
    obtain ⟨hw, hmade, hrest⟩ := h.awaited b w u hu
    exact ⟨hnot w ⟨hw, hmade⟩, made_succ hmade, hrest⟩

/-- A variable is no longer reserved. -/
theorem release (h : Tidy c (v :: reserved) s) : Tidy c reserved s where
  injective := h.injective
  made w hw := h.made w (mem_cons_of_mem v hw)
  bound id w hw := by
    obtain ⟨hmem, hmade⟩ := h.bound id w hw
    exact ⟨fun hw => hmem (mem_cons_of_mem v hw), hmade⟩
  awaited b w u hu := by
    obtain ⟨hmem, hrest⟩ := h.awaited b w u hu
    exact ⟨fun hw => hmem (mem_cons_of_mem v hw), hrest⟩

/-- A reserved variable gets a number that stands for it. -/
theorem bind (h : Tidy c (v :: reserved) s) (hv : v ∉ reserved) (id : VarId) :
    Tidy c reserved { s with bindings := (id, v) :: s.bindings } where
  injective := h.injective
  made := h.release.made
  bound id' w hw := by
    rcases mem_cons.mp hw with heq | hw
    · obtain ⟨-, rfl⟩ := Prod.mk.inj heq
      exact ⟨hv, h.made w (mem_cons_self ..)⟩
    · exact h.release.bound id' w hw
  awaited := h.release.awaited

/-- A reserved variable is declared. -/
theorem declare (h : Tidy c reserved s) (hv : v ∈ reserved) (b : BlockId) (u : Temp) :
    Tidy c reserved { s with fn := s.fn.declare b v u } where
  injective := h.injective
  made := h.made
  bound := h.bound
  awaited x w t ht := by
    have hawaited : ((s.fn.declare b v u).block x).awaited = (s.fn.block x).awaited :=
      proj_block_modify Block.awaited fun _ => rfl
    have hedge : (s.fn.declare b v u).Edge = s.fn.Edge := by
      funext a y
      rw [Graph.Edge, Graph.Edge]
      exact congrArg (a ∈ ·) (proj_block_modify Block.parents fun _ => rfl)
    rw [hawaited] at ht
    obtain ⟨hw, hmade, hestablished, hundeclared⟩ := h.awaited x w t ht
    refine ⟨hw, hmade, ?_, ?_⟩
    · rw [Established, hedge]
      refine Flow.Passes.mono hestablished fun y hy => ?_
      by_cases hyb : y = b
      · subst hyb
        have hlt : y < s.fn.blocks.size := by
          by_contra hlt
          rw [Graph.block_of_size_le (Nat.not_lt.mp hlt)] at hy
          exact KeySet.not_mem_empty w hy
        rw [Func.declare, block_modify_self hlt]
        exact KeySet.mem_insert.mpr (.inr hy)
      · rwa [Func.declare, block_modify_ne (Ne.symm hyb)]
    · by_cases hxb : x = b
      · subst hxb
        rw [Func.declare, block_modify_self (Quiet.lt_of_awaited ht)]
        intro hmem
        rcases KeySet.mem_insert.mp hmem with rfl | hmem
        · exact hw hv
        · exact hundeclared hmem
      · rwa [Func.declare, block_modify_ne (Ne.symm hxb)]

/-- A variable is read that is established and not written. -/
theorem await (h : Tidy c reserved s) (hb : b < s.fn.blocks.size) (hv : v ∉ reserved)
    (hmade : Made c s v) (hestablished : s.fn.Established v b)
    (hundeclared : v ∉ (s.fn.block b).declared) (u : Temp) :
    Tidy c reserved { s with fn := (s.fn.addTemp b).await b v u } where
  injective := h.injective
  made := h.made
  bound := h.bound
  awaited x w t ht := by
    have hdeclared : ∀ y, (((s.fn.addTemp b).await b v u).block y).declared =
        (s.fn.block y).declared := fun y => proj_block_modify Block.declared fun _ => rfl
    have hedge : ((s.fn.addTemp b).await b v u).Edge = s.fn.Edge := by
      funext a y
      rw [Graph.Edge, Graph.Edge]
      exact congrArg (a ∈ ·) (proj_block_modify Block.parents fun _ => rfl)
    have hsame : w ∉ reserved ∧ Made c s w ∧ s.fn.Established w x ∧
        w ∉ (s.fn.block x).declared := by
      by_cases hxb : x = b
      · subst hxb
        have hblock : ((s.fn.addTemp x).await x v u).block x = _ := block_await_self hb v u
        rw [hblock, Table.get?_insert] at ht
        split at ht
        · next hwv =>
          subst hwv
          exact ⟨hv, hmade, hestablished, hundeclared⟩
        · exact h.awaited x w t ht
      · have hblock : ((s.fn.addTemp b).await b v u).block x = _ := block_await_ne hxb v u
        rw [hblock] at ht
        exact h.awaited x w t ht
    refine ⟨hsame.1, hsame.2.1, ?_, ?_⟩
    · rw [Established, hedge]
      simp only [hdeclared]
      exact hsame.2.2.1
    · rw [hdeclared]
      exact hsame.2.2.2

end Tidy

/-- Variables are kept in order, whichever are reserved. -/
def Keeps (c : Context) (s s' : State) : Prop :=
  ∀ reserved, Tidy c reserved s → Tidy c reserved s'

namespace Keeps

theorem refl (c : Context) (s : State) : Keeps c s s := fun _ h => h

theorem trans (h : Keeps c s s') (k : Keeps c s' s'') : Keeps c s s'' :=
  fun reserved htidy => k reserved (h reserved htidy)

theorem of_quiet (h : s.fn.Quiet fn) : Keeps c s { s with fn } := by
  intro reserved htidy
  refine ⟨htidy.injective, htidy.made, htidy.bound, fun b v u hu => ?_⟩
  rw [h.awaited] at hu
  obtain ⟨hv, hmade, hestablished, hundeclared⟩ := htidy.awaited b v u hu
  refine ⟨hv, hmade, h.established b v u hu hestablished, ?_⟩
  rwa [h.declared]

end Keeps

/-- The variables that the numbers stand for are established in the block. -/
def Visible (s : State) (ids : List VarId) (b : BlockId) : Prop :=
  ∀ id ∈ ids, ∀ v, s.bindings.lookup id = some v → s.fn.Established v b

namespace Visible

theorem nil (s : State) (b : BlockId) : Visible s [] b :=
  fun _ hid => absurd hid (not_mem_nil)

theorem mono (h : Visible s ids b) (hids : ∀ id ∈ ids', id ∈ ids) : Visible s ids' b :=
  fun id hid => h id (hids id hid)

/-- What is visible where a stretch starts is visible in all that has grown from there. -/
theorem of_fills (h : Visible s ids b) (hfills : s.fn.Fills s'.fn b os outs)
    (hlookup : ∀ id ∈ ids, s'.bindings.lookup id = s.bindings.lookup id)
    (hx : s.fn.Within b x) : Visible s' ids x := by
  intro id hid v hv
  rw [hlookup id hid] at hv
  exact hfills.established (h id hid v hv) hx

end Visible

/-! ## Computing temporaries -/

/-- Temporaries have been computed from a block on, ending in the block `b'`. -/
structure Evaluates (c : Context) (s s' : State) (b : BlockId) (os : Multiset BlockId)
    (ids : List VarId) (us : List Temp) (b' : BlockId) : Prop where
  fills : s.fn.Fills s'.fn b os {b'}
  known : ∀ u ∈ us, s'.fn.Known b' u
  bindings : s'.bindings = s.bindings
  keeps : Visible s ids b → Keeps c s s'

namespace Evaluates

theorem refl (h : s.fn.Filling b os) : Evaluates c s s b os [] [] b :=
  ⟨.start h, by simp, rfl, fun _ => .refl c s⟩

variable (h : Evaluates c s s' b os ids us b')
include h

theorem filling : s'.fn.Filling b' os :=
  h.fills.filling_next

theorem within : s.fn.Within b b' :=
  h.fills.within b' (Multiset.mem_singleton_self b')

theorem visible (hvisible : Visible s ids' b) : Visible s' ids' b' :=
  hvisible.of_fills h.fills (fun id _ => by rw [h.bindings]) h.within

theorem trans {b'' : BlockId} (k : Evaluates c s' s'' b' os ids' us' b'') :
    Evaluates c s s'' b os (ids ++ ids') (us ++ us') b'' where
  fills := h.fills.trans_next k.fills
  known u hu := by
    rcases mem_append.mp hu with hu | hu
    · exact k.fills.known (h.known u hu) (Multiset.mem_singleton_self b'')
    · exact k.known u hu
  bindings := k.bindings.trans h.bindings
  keeps hvisible := by
    have hleft : Visible s ids b := hvisible.mono fun _ => mem_append_left ids'
    have hright : Visible s ids' b := hvisible.mono fun _ => mem_append_right ids
    exact (h.keeps hleft).trans (k.keeps (h.visible hright))

theorem mono (hids : ∀ id ∈ ids, id ∈ ids')
    (hus : ∀ u ∈ us', u ∈ us) : Evaluates c s s' b os ids' us' b' :=
  ⟨h.fills, fun u hu => h.known u (hus u hu), h.bindings, fun hv => h.keeps (hv.mono hids)⟩

end Evaluates

theorem ensures_add (inst : Instruction) (h : s.fn.Filling b os) (hinst : inst.isTerminator = false)
    (hoperands : ∀ u ∈ inst.operands, s.fn.Known b u) (hresult : inst.result? = none) :
    Ensures (build (.add b inst)) c s fun _ s' => Evaluates c s s' b os [] [] b := by
  have hstart := Fills.start h
  have hadd : Build.add b inst s.fn = (.ok (), s.fn.append b inst) := by
    rw [Build.add_apply, h.exits.head.code.isTerminated]
    rfl
  refine .build hadd ⟨?_, by simp, rfl, fun _ => .of_quiet (.append b inst)⟩
  exact Fills.append hstart inst hinst hoperands hresult

theorem ensures_define (inst : Temp → Instruction) (h : s.fn.Filling b os)
    (hinst : ∀ t, (inst t).isTerminator = false)
    (hoperands : ∀ t, ∀ u ∈ (inst t).operands, s.fn.Known b u)
    (hresult : ∀ t, (inst t).result? = some t) :
    Ensures (build (.define b inst)) c s fun u s' => Evaluates c s s' b os [] [u] b := by
  have hstart : s.fn.Fills s.fn b os (b ::ₘ 0) := Fills.start h
  have hdefine : Build.define b inst s.fn =
      (.ok s.fn.temps.size, (s.fn.addTemp b).append b (inst s.fn.temps.size)) := by
    rw [Build.define_apply, h.exits.head.code.isTerminated]
    rfl
  refine .build hdefine ⟨?_, ?_, rfl, fun _ => .of_quiet (.define b _)⟩
  · exact hstart.define _ (hinst _) (hoperands _) (hresult _)
  · intro u hu
    rw [mem_singleton.mp hu]
    exact hstart.known_define (hresult _)

/-- A call whose result is not used. -/
theorem ensures_call (h : s.fn.Filling b os) (callee : String)
    (hus : ∀ u ∈ us, s.fn.Known b u) :
    Ensures (build (.call b callee true us)) c s fun _ s' => Evaluates c s s' b os [] [] b := by
  have hstart : s.fn.Fills s.fn b os (b ::ₘ 0) := Fills.start h
  have hcall : Build.call b callee true us s.fn =
      (.ok none, s.fn.append b (.call none callee us)) := by
    rw [Build.call_apply, if_pos rfl, Build.add_apply, h.exits.head.code.isTerminated]
    rfl
  exact .build hcall ⟨hstart.append _ rfl hus rfl, by simp, rfl, fun _ => .of_quiet (.append b _)⟩

theorem ensures_ret {value : Option Temp} (h : s.fn.Filling b os)
    (hvalue : ∀ u ∈ value, s.fn.Known b u) :
    Ensures (build (.ret b value)) c s fun _ s' => s.fn.Fills s'.fn b os 0 ∧
      s'.bindings = s.bindings ∧ Keeps c s s' := by
  have hstart : s.fn.Fills s.fn b os (b ::ₘ 0) := Fills.start h
  have hret : Build.ret b value s.fn = (.ok (), s.fn.append b (.ret value)) := by
    rw [Build.ret, Build.add_apply, h.exits.head.code.isTerminated]
    rfl
  exact .build hret ⟨hstart.ret hvalue, rfl, .of_quiet (.append b _)⟩

theorem ensures_const (h : s.fn.Filling b os) (type : ValueType) (value : Int64) :
    Ensures (build (.const b type value)) c s fun u s' => Evaluates c s s' b os [] [u] b := by
  have hstart : s.fn.Fills s.fn b os (b ::ₘ 0) := Fills.start h
  have hconst := Build.const_apply s.fn b type value
  cases hlookup : (s.fn.block b).constants.lookup (type, value) with
  | some t =>
    -- the constant is an instruction of the block
    rw [hlookup] at hconst
    refine .build hconst ⟨hstart, ?_, rfl, fun _ => .refl c s⟩
    intro u hu
    rw [mem_singleton.mp hu]
    obtain ⟨l, l', hsplit, -⟩ := lookup_eq_some_iff.mp hlookup
    obtain ⟨n, hn⟩ := h.formed.sourced.constants b (type, value) t (by simp [hsplit])
    exact ⟨.result b n, ⟨_, hn, rfl⟩, .inl ⟨rfl, (List.getElem?_eq_some_iff.mp hn).1⟩⟩
  | none =>
    rw [hlookup, h.exits.head.code.isTerminated] at hconst
    have hdefine := hstart.define (.const s.fn.temps.size type value) rfl
      (by simp [Instruction.operands]) rfl
    have hlt : b < (s.fn.addTemp b).blocks.size := h.exits.head.lt
    have hcode : (((s.fn.addTemp b).append b (.const s.fn.temps.size type value)).block b).code[
        (s.fn.block b).code.length]? = some (.const s.fn.temps.size type value) := by
      rw [block_append_self hlt]
      exact getElem?_concat_length
    refine .build hconst ⟨hdefine.keepConst hcode, ?_, rfl, fun _ => .of_quiet ?_⟩
    · intro u hu
      rw [mem_singleton.mp hu]
      have hnext := Fills.start hdefine.filling
      rw [← Multiset.cons_zero] at hnext
      have hkeep := hnext.keepConst hcode
      exact hkeep.known (hstart.known_define rfl) (Multiset.mem_singleton_self b)
    · exact (Quiet.define b _).trans (.keepConst b type value _)

/-- The value of a variable, which the block may have to await. -/
theorem ensures_read (h : s.fn.Filling b os) (v : Variable) :
    Ensures (build (.read b v)) c s fun u s' =>
      s.fn.Fills s'.fn b os {b} ∧ s'.fn.Known b u ∧ s'.bindings = s.bindings ∧
        ∀ reserved, Tidy c reserved s → v ∉ reserved → Made c s v → s.fn.Established v b →
          Tidy c reserved s' := by
  have hstart : s.fn.Fills s.fn b os (b ::ₘ 0) := Fills.start h
  have hread := Build.read_apply s.fn b v
  cases hwritten : (s.fn.block b).written.get? v with
  | some t =>
    rw [hwritten] at hread
    exact .build hread ⟨hstart, h.formed.sourced.written b v t hwritten, rfl,
      fun _ htidy _ _ _ => htidy⟩
  | none =>
    rw [hwritten] at hread
    cases hawaited : (s.fn.block b).awaited.get? v with
    | some t =>
      rw [hawaited] at hread
      refine .build hread ⟨hstart, ?_, rfl, fun _ htidy _ _ _ => htidy⟩
      exact ⟨.read b v, hawaited, Flow.Dominates.refl b⟩
    | none =>
      rw [hawaited] at hread
      have hlt : b < (s.fn.addTemp b).blocks.size := h.exits.head.lt
      refine .build hread ⟨hstart.await hawaited, ?_, rfl, ?_⟩
      · refine ⟨.read b v, ?_, Flow.Dominates.refl b⟩
        rw [Makes, block_await_self hlt, Table.get?_insert, if_pos rfl]
      · intro reserved htidy hv hmade hestablished
        refine htidy.await h.exits.head.lt hv hmade hestablished (fun hdeclared => ?_) _
        -- what a block declares it has written
        have hw := h.formed.inherits.declared_written b v hdeclared
        rw [Graph.Writes, hwritten] at hw
        cases hw

theorem mem_of_lookup {id : VarId} {bindings : Bindings} (h : bindings.lookup id = some v) :
    (id, v) ∈ bindings := by
  obtain ⟨l, l', hsplit, -⟩ := lookup_eq_some_iff.mp h
  simp [hsplit]

/-- The value of a variable that a number stands for. -/
theorem ensures_read_bound {id : VarId} (h : s.fn.Filling b os)
    (hv : s.bindings.lookup id = some v) :
    Ensures (build (.read b v)) c s fun u s' => Evaluates c s s' b os [id] [u] b := by
  refine (ensures_read h v).mono ?_
  rintro u s' ⟨hfills, hknown, hbindings, htidy⟩
  refine ⟨hfills, by simpa using hknown, hbindings, fun hvisible reserved ht => ?_⟩
  obtain ⟨hreserved, hmade⟩ := ht.bound id v (mem_of_lookup hv)
  exact htidy reserved ht hreserved hmade (hvisible id (mem_singleton_self id) v hv)

theorem ensures_valueType (pos : Pos) (type : SourceType) :
    Ensures (valueType pos type) c s fun _ s' => s' = s := by
  cases type with
  | value t => exact Ensures.pure rfl
  | other text => exact .unsupported ..

theorem ensures_newVariable (name : String) (kind : VarKind) (type : ValueType) :
    Ensures (newVariable name kind type) c s fun v s' =>
      s' = { s with made := s.made + 1 } ∧ v.id = c.supply s.made :=
  ⟨rfl, rfl⟩

/-! ## Scopes -/

variable {Γ Γ' Γ'' : List VarId} {next : Option BlockId}

/-- The numbers in scope stand for what they stood for, and those in `Γ'` are visible in the next
block. -/
structure Scopes (c : Context) (s s' : State) (Γ Γ' : List VarId) (next : Option BlockId) :
    Prop where
  keeps : Keeps c s s'
  lookup : ∀ id ∈ Γ, s'.bindings.lookup id = s.bindings.lookup id
  visible : ∀ x ∈ next, Visible s' Γ' x

namespace Scopes

theorem trans (h : Scopes c s s' Γ Γ' (some b)) (k : Scopes c s' s'' Γ' Γ'' next) (hΓ : Γ ⊆ Γ') :
    Scopes c s s'' Γ Γ'' next where
  keeps := h.keeps.trans k.keeps
  lookup id hid := (k.lookup id (hΓ hid)).trans (h.lookup id hid)
  visible := k.visible

theorem mono (h : Scopes c s s' Γ Γ' next) (hΓ : Γ'' ⊆ Γ') : Scopes c s s' Γ Γ'' next :=
  ⟨h.keeps, h.lookup, fun x hx => (h.visible x hx).mono fun _ hid => hΓ hid⟩

end Scopes

theorem Evaluates.scopes (h : Evaluates c s s' b os ids us b') (hvisible : Visible s Γ b)
    (hids : ids ⊆ Γ) : Scopes c s s' Γ Γ (some b') where
  keeps := h.keeps (hvisible.mono fun _ hid => hids hid)
  lookup id _ := by rw [h.bindings]
  visible x hx := by
    obtain rfl := Option.mem_some.mp hx
    exact h.visible hvisible

/-- A statement of one block: nothing but the block is changed, and the numbers `new` come into
scope. -/
structure Declares (c : Context) (s s' : State) (b : BlockId) (os : Multiset BlockId)
    (ids new : List VarId) : Prop where
  fills : s.fn.Fills s'.fn b os {b}
  scopes : ∀ Γ, Visible s Γ b → ids ⊆ Γ → Keeps c s s' ∧
    (∀ id, id ∉ new → s'.bindings.lookup id = s.bindings.lookup id) ∧ Visible s' (new ++ Γ) b

namespace Declares

theorem refl (h : s.fn.Filling b os) : Declares c s s b os [] [] :=
  ⟨.start h, fun _ hvisible _ => ⟨.refl c s, fun _ _ => rfl, hvisible⟩⟩

theorem trans {new new' : List VarId} (h : Declares c s s' b os ids new)
    (k : Declares c s' s'' b os ids' new') :
    Declares c s s'' b os (ids ++ ids') (new ++ new') where
  fills := h.fills.trans_next k.fills
  scopes Γ hvisible hids := by
    rw [append_subset] at hids
    obtain ⟨hkeeps, hlookup, hvisible'⟩ := h.scopes Γ hvisible hids.1
    obtain ⟨kkeeps, klookup, kvisible⟩ := k.scopes (new ++ Γ) hvisible'
      (subset_append_of_subset_right new hids.2)
    refine ⟨hkeeps.trans kkeeps, fun id hid => ?_, kvisible.mono fun id hid => ?_⟩
    · rw [mem_append, not_or] at hid
      rw [klookup id hid.2, hlookup id hid.1]
    · simp only [mem_append] at hid ⊢
      tauto

theorem of_evaluates (h : Evaluates c s s' b os ids us b) : Declares c s s' b os ids [] where
  fills := h.fills
  scopes Γ hvisible hids := by
    have hscopes := h.scopes hvisible hids
    exact ⟨hscopes.keeps, fun id _ => by rw [h.bindings], hscopes.visible b rfl⟩

theorem mono {new : List VarId} (h : Declares c s s' b os ids new) (hids : ids ⊆ ids') :
    Declares c s s' b os ids' new :=
  ⟨h.fills, fun Γ hvisible hΓ => h.scopes Γ hvisible (List.Subset.trans hids hΓ)⟩

theorem toScopes {new : List VarId} (h : Declares c s s' b os ids new) (hvisible : Visible s Γ b)
    (hids : ids ⊆ Γ) (hnew : List.Disjoint new Γ) : Scopes c s s' Γ (new ++ Γ) (some b) := by
  obtain ⟨hkeeps, hlookup, hvisible'⟩ := h.scopes Γ hvisible hids
  refine ⟨hkeeps, fun id hid => hlookup id fun hmem => hnew hmem hid, fun x hx => ?_⟩
  obtain rfl := Option.mem_some.mp hx
  exact hvisible'

end Declares

theorem ensures_declare (h : s.fn.Filling b os) (binder : Binder) (hu : s.fn.Known b u) :
    Ensures (declare b binder u) c s fun _ s' => Declares c s s' b os [] [binder.id] := by
  unfold declare
  refine (ensures_valueType ..).bind fun type s₁ hs₁ => ?_
  subst hs₁
  refine (ensures_newVariable ..).bind fun v s₂ hv => ?_
  obtain ⟨rfl, hid⟩ := hv
  refine .bind_ok () { s₁ with
    made := s₁.made + 1, bindings := (binder.id, v) :: s₁.bindings } rfl ?_
  have hstart : s₁.fn.Fills s₁.fn b os (b ::ₘ 0) := Fills.start h
  refine .build (Build.declare_apply ..) ⟨hstart.declare hu v, fun Γ hvisible _ => ⟨?_, ?_, ?_⟩⟩
  · intro reserved htidy
    obtain ⟨hnew, hreserved⟩ := htidy.newVariable hid
    exact (hnew.declare (mem_cons_self ..) b u).bind hreserved binder.id
  · intro id hne
    rw [mem_singleton] at hne
    rw [lookup_cons, beq_false_of_ne hne]
  · intro id hmem w hw
    by_cases heq : id = binder.id
    · -- the new variable is declared by the block
      have hwv : v = w := by simpa [heq] using hw
      subst hwv
      refine Established.of_declared ?_
      rw [Func.declare, block_modify_self h.exits.head.lt]
      exact KeySet.mem_insert.mpr (.inl rfl)
    · have hmem' : id ∈ Γ := by simpa [heq] using hmem
      have hw' : s₁.bindings.lookup id = some w := by
        rwa [lookup_cons, beq_false_of_ne heq] at hw
      exact (hstart.declare hu v).established (hvisible id hmem' w hw') (.refl ..)

theorem ensures_assign (h : s.fn.Filling b os) (target : Target) (hu : s.fn.Known b u) :
    Ensures (assign b target u) c s fun _ s' => Declares c s s' b os target.uses target.binds := by
  have hstart : s.fn.Fills s.fn b os (b ::ₘ 0) := Fills.start h
  cases target with
  | blank => exact Ensures.pure (.refl h)
  | declare binder => exact ensures_declare h binder hu
  | unsupported pos what => exact .unsupported pos what
  | var pos name id =>
    unfold assign
    refine .bind_ok s s rfl (.bind_ok c s rfl ?_)
    cases hbound : s.bindings.lookup id with
    | some v =>
      refine .build (Build.write_apply ..) ⟨hstart.write hu v, fun Γ hvisible _ => ⟨?_, ?_, ?_⟩⟩
      · exact .of_quiet (.write b v u)
      · exact fun _ _ => rfl
      · exact hvisible.of_fills (hstart.write hu v) (fun _ _ => rfl) (.refl ..)
    | none =>
      cases hglobal : c.globals.lookup id with
      | some v =>
        refine (ensures_add _ h rfl ?_ rfl).mono fun _ s' hs' => (Declares.of_evaluates hs').mono ?_
        · simpa [Instruction.operands] using hu
        · simp
      | none => exact .unsupported ..

end SsaBlocks.Lower
