import SsaBlocks.Proofs.Compile.Program
import SsaBlocks.Proofs.Lower.Demands

/-!
# What compiled programs demand

A checked file supplies what its trees demand, and so do the functions that it is lowered to. The
functions that they call are there and take as many arguments as they are given, also the
initializers, which only the function that sets up the globals calls. Functions that are imported are
not there.
-/

namespace SsaBlocks

open SsaBlocks.Typed

namespace Program

/-- What the functions of a program supply, and what is missing as it was imported. -/
def Serves (F : String → Prop) (p : Program) : Demand → Prop
  | .var _ => True
  | .func name n => (∃ fn, p.lookup? name = some fn ∧ fn.params.length = n) ∨
    (F name ∧ p.lookup? name = none)
  | .op _ => False

theorem lookup?_of_mem {p : Program} {fn : Func} (hnodup : (p.functions.map Func.name).Nodup)
    (h : fn ∈ p.functions) : p.lookup? fn.name = some fn := by
  have hsome : (p.lookup? fn.name).isSome :=
    List.find?_isSome.mpr ⟨fn, h, beq_self_eq_true fn.name⟩
  obtain ⟨other, hother⟩ := Option.isSome_iff_exists.mp hsome
  have hname : other.name = fn.name := by simpa using List.find?_some hother
  rw [hother, List.inj_on_of_nodup_map hnodup (List.mem_of_find?_eq_some hother) h hname]

end Program

namespace Outline

variable {F : String → Prop} {o : Outline} {ds : List Decl} {first : Nat} {fns : List Func}
  {fn : Func}

theorem lower_eq_ok {m : Lower Unit} (h : o.lower m = .ok fn) :
    ∃ c s s', m c s = .ok ((), s') ∧ s'.fn = fn := by
  rw [lower, Lower.run] at h
  rcases hrun : m ⟨o.bindings, o.supply⟩ ⟨Func.make "" [] .void, [], 0, 0⟩ with e | ⟨u, s'⟩
  · rw [hrun] at h
    cases h
  · rw [hrun] at h
    cases h
    exact ⟨_, _, s', hrun, rfl⟩

theorem demandsIn_of_lowerDecl {D : Demand → Prop} {name : String} {f : Function}
    (hf : ∀ d ∈ Stmt.demandsOf f.body, D d) (h : o.lowerDecl (name, .func f) = .ok fn) :
    ∃ ps, fn.DemandsIn D ps ∧ ps.length = f.params.length ∧
      ∀ p ∈ f.params, ∀ text, p.type ≠ .other text := by
  obtain ⟨c, s, s', hrun, rfl⟩ := lower_eq_ok h
  exact Lower.triple_iff.mp (Lower.emits_function name f hf) c s () s' trivial hrun

/-- All functions of a file are lowered, and nothing else but the one that sets up the globals. -/
theorem mem_of_lowerAll (h : o.lowerAll first = .ok fns) :
    (∀ p ∈ o.functions, ∃ fn ∈ fns, o.lowerDecl p = .ok fn) ∧
    ∀ fn ∈ fns, (∃ p ∈ o.functions, o.lowerDecl p = .ok fn) ∨
      o.lower (Lower.initFunction o.initSpecs o.initializers) = .ok fn := by
  obtain ⟨decls, hdecls, h⟩ := bind_eq_ok.mp h
  have hall := mapM_eq_ok.mp (gather_eq_ok.mp hdecls)
  have hinit : ∃ l, fns = decls ++ l ∧
      ∀ fn ∈ l, o.lower (Lower.initFunction o.initSpecs o.initializers) = .ok fn := by
    split at h
    · exact ⟨[], by simpa using (Except.ok.inj h).symm, by simp⟩
    · obtain ⟨fn, hfn, h⟩ := bind_eq_ok.mp h
      exact ⟨[fn], (Except.ok.inj h).symm, by simpa using hfn⟩
  obtain ⟨l, rfl, hl⟩ := hinit
  constructor
  · intro p hp
    obtain ⟨i, hi, rfl⟩ := List.mem_iff_getElem.mp hp
    have hi' : i < decls.length := hall.length_eq ▸ hi
    exact ⟨decls[i], List.mem_append_left l (List.getElem_mem hi'), hall.get hi hi'⟩
  · intro fn hfn
    rcases List.mem_append.mp hfn with hfn | hfn
    · obtain ⟨i, hi', rfl⟩ := List.mem_iff_getElem.mp hfn
      have hi : i < o.functions.length := hall.length_eq ▸ hi'
      exact .inl ⟨o.functions[i], List.getElem_mem hi, hall.get hi hi'⟩
    · exact .inr (hl fn hfn)

variable (hc : Checked F ds) (ho : o.Covers ds) (hfns : o.lowerAll first = .ok fns)
  (hnodup : (fns.map Func.name).Nodup) (globals : List Variable)
include hc ho hfns hnodup

theorem serves_of_takes {name : String} {d : Decl} {n : Nat} (hp : (name, d) ∈ o.functions)
    (htakes : d.Takes n) : Program.Serves F ⟨fns, globals⟩ (.func name n) := by
  obtain ⟨fn, hfn, hlower⟩ := (mem_of_lowerAll hfns).1 _ hp
  obtain ⟨hmem, hfunc⟩ := mem_of_mem_namedFrom (ho.functions ▸ hp)
  obtain ⟨⟨f, rfl⟩, hlowered⟩ := (accepts_lowerDecl hc _ hmem hfunc).of_eq_ok hlower
  have hname := Program.lookup?_of_mem (p := ⟨fns, globals⟩) hnodup hfn
  rw [hlowered.name] at hname
  obtain ⟨ps, hdemands, hlength, htypes⟩ :=
    demandsIn_of_lowerDecl (D := fun _ => True) (fun _ _ => trivial) hlower
  refine .inl ⟨fn, hname, ?_⟩
  rcases htakes with htakes | ⟨p, hp, text, htext⟩
  · rw [hdemands.params, hlength, htakes]
  · exact absurd htext (htypes p hp text)

omit hnodup in
/-- A function that is imported is not one of the program. -/
theorem lookup?_of_imported {name : String} (hF : F name)
    (hother : ∀ d ∈ ds, d.uniqueName? ≠ some name) :
    Program.lookup? ⟨fns, globals⟩ name = none := by
  obtain ⟨hall, hlowered⟩ := (accepts_lowerAll hc ho first).of_eq_ok hfns
  refine List.find?_eq_none.mpr fun fn hfn => ?_
  have hmem : fn.name ∈ o.names := Func.LoweredAs.names_eq hlowered ▸ List.mem_map_of_mem hfn
  rw [beq_iff_eq]
  rintro rfl
  exact hc.notMem_names ho hall hF hother hmem

theorem serves_of_supplies {d : Demand} (hd : Supplies F ds d) :
    Program.Serves F ⟨fns, globals⟩ d := by
  cases d with
  | var id => trivial
  | func name n =>
    obtain ⟨hinit, d, hmem, hname, htakes⟩ | ⟨hF, hother⟩ := hd
    case inr => exact .inr ⟨hF, lookup?_of_imported hc ho hfns globals hF hother⟩
    obtain ⟨p, hp, rfl, hpname⟩ := exists_mem_namedFrom (k := 0) hmem hname
    rw [← hpname hinit]
    exact serves_of_takes hc ho hfns hnodup globals (ho.functions ▸ hp) htakes
  | op op => cases hd

/-- What the functions of a checked file demand, they supply. -/
theorem demandsIn_of_lowerAll (hfn : fn ∈ fns) :
    ∃ ps, fn.DemandsIn (Program.Serves F ⟨fns, globals⟩) ps := by
  have hserves : ∀ d, Supplies F ds d → Program.Serves F ⟨fns, globals⟩ d :=
    fun d => serves_of_supplies hc ho hfns hnodup globals
  rcases (mem_of_lowerAll hfns).2 fn hfn with ⟨⟨name, d⟩, hp, hlower⟩ | hlower
  · obtain ⟨hmem, hfunc⟩ := mem_of_mem_namedFrom (ho.functions ▸ hp)
    obtain ⟨⟨f, rfl⟩, -⟩ := (accepts_lowerDecl hc _ hmem hfunc).of_eq_ok hlower
    obtain ⟨ps, hdemands, -⟩ :=
      demandsIn_of_lowerDecl (fun d hd => hserves d (hc.bodies f hmem d hd)) hlower
    exact ⟨ps, hdemands⟩
  · obtain ⟨c, s, s', hrun, rfl⟩ := lower_eq_ok hlower
    refine ⟨[], Lower.triple_iff.mp (Lower.emits_initFunction _ _ ?_ ?_) c s () s' trivial hrun⟩
    · intro spec hspec d hd
      rw [ho.initSpecs] at hspec
      obtain ⟨decl, hdecl, hspec⟩ := List.mem_flatMap.mp hspec
      cases decl with
      | vars specs => exact hserves d (hc.values specs hdecl spec (List.mem_filter.mp hspec).1 d hd)
      | _ => cases hspec
    · intro i hi
      rw [ho.initializers] at hi
      obtain ⟨d, hp, hinit⟩ := exists_initializer (k := 0) hi
      rw [Nat.zero_add] at hp
      refine serves_of_takes hc ho hfns hnodup globals (ho.functions ▸ hp) ?_
      cases d with
      | func f =>
        have hparams := hc.initializer f (mem_of_mem_namedFrom hp).1 (Option.some.inj hinit)
        exact .inl (by rw [hparams]; rfl)
      | _ => trivial

end Outline

end SsaBlocks
