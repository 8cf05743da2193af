/-!
# Tables and sets of ranked keys

Variables and blocks are numbered in the order in which they are made. A `Table` is a finite map
whose entries stand in increasing rank of their keys and a `KeySet` is a finite set kept the same
way, so that listing either of them gives the order of creation and equal contents are equal lists.
-/

namespace SsaBlocks

/-- Keys that carry a rank, the order in which they are listed. -/
class Ranked (κ : Type) where
  rank : κ → Nat

instance : Ranked Nat := ⟨fun n => n⟩

/-- A finite map with its entries in increasing rank. -/
structure Table (κ ν : Type) where
  entries : List (κ × ν) := []
deriving DecidableEq, Repr, Inhabited

namespace Table

variable {κ ν μ : Type}

def empty : Table κ ν := ⟨[]⟩

/-- The value of the first entry for `k`. -/
def find? [DecidableEq κ] (k : κ) : List (κ × ν) → Option ν
  | [] => none
  | e :: rest => if e.1 = k then some e.2 else find? k rest

def get? [DecidableEq κ] (m : Table κ ν) (k : κ) : Option ν :=
  find? k m.entries

def contains [DecidableEq κ] (m : Table κ ν) (k : κ) : Bool :=
  (m.get? k).isSome

/-- Puts the entry for `k` in its place, over an earlier entry for `k`. -/
def place [DecidableEq κ] [Ranked κ] (k : κ) (v : ν) : List (κ × ν) → List (κ × ν)
  | [] => [(k, v)]
  | e :: rest =>
    if e.1 = k then (k, v) :: rest
    else if Ranked.rank k < Ranked.rank e.1 then (k, v) :: e :: rest
    else e :: place k v rest

def insert [DecidableEq κ] [Ranked κ] (m : Table κ ν) (k : κ) (v : ν) : Table κ ν :=
  ⟨place k v m.entries⟩

def erase [DecidableEq κ] (m : Table κ ν) (k : κ) : Table κ ν :=
  ⟨m.entries.filter fun e => e.1 ≠ k⟩

def mapValues (f : ν → μ) (m : Table κ ν) : Table κ μ :=
  ⟨m.entries.map fun e => (e.1, f e.2)⟩

def keys (m : Table κ ν) : List κ :=
  m.entries.map (·.1)

def size (m : Table κ ν) : Nat :=
  m.entries.length

def isEmpty (m : Table κ ν) : Bool :=
  m.entries.isEmpty

@[simp] theorem get?_empty [DecidableEq κ] (k : κ) : (empty : Table κ ν).get? k = none := rfl

theorem find?_place [DecidableEq κ] [Ranked κ] (k k' : κ) (v : ν) (l : List (κ × ν)) :
    find? k' (place k v l) = if k = k' then some v else find? k' l := by
  induction l with
  | nil => simp [place, find?]
  | cons e rest ih =>
    unfold place
    split
    · next h => subst h; by_cases h' : e.1 = k' <;> simp [find?, h']
    · split
      · by_cases h' : k = k' <;> simp [find?, h']
      · next h _ =>
        by_cases h' : e.1 = k'
        · have : k ≠ k' := fun hk => h (h'.trans hk.symm)
          simp [find?, h', this]
        · simp [find?, h', ih]

@[simp] theorem get?_insert [DecidableEq κ] [Ranked κ] (m : Table κ ν) (k k' : κ) (v : ν) :
    (m.insert k v).get? k' = if k = k' then some v else m.get? k' :=
  find?_place k k' v m.entries

theorem find?_filter_ne [DecidableEq κ] (k k' : κ) (l : List (κ × ν)) :
    find? k' (l.filter fun e => e.1 ≠ k) = if k = k' then none else find? k' l := by
  induction l with
  | nil => simp [find?]
  | cons e rest ih =>
    by_cases h : e.1 = k
    · by_cases h' : k = k' <;> simp_all [find?]
    · by_cases h' : e.1 = k'
      · have : k ≠ k' := fun hk => h (h'.trans hk.symm)
        simp_all [find?]
      · by_cases h'' : k = k' <;> simp_all [find?]

@[simp] theorem get?_erase [DecidableEq κ] (m : Table κ ν) (k k' : κ) :
    (m.erase k).get? k' = if k = k' then none else m.get? k' :=
  find?_filter_ne k k' m.entries

theorem find?_map [DecidableEq κ] (f : ν → μ) (k : κ) (l : List (κ × ν)) :
    find? k (l.map fun e => (e.1, f e.2)) = (find? k l).map f := by
  induction l with
  | nil => rfl
  | cons e rest ih => by_cases h : e.1 = k <;> simp [find?, h, ih]

@[simp] theorem get?_mapValues [DecidableEq κ] (f : ν → μ) (m : Table κ ν) (k : κ) :
    (m.mapValues f).get? k = (m.get? k).map f :=
  find?_map f k m.entries

end Table

/-- A finite set with its members in increasing rank. -/
structure KeySet (κ : Type) where
  members : List κ := []
deriving DecidableEq, Repr, Inhabited

namespace KeySet

variable {κ : Type}

def empty : KeySet κ := ⟨[]⟩

instance : Membership κ (KeySet κ) := ⟨fun s k => k ∈ s.members⟩

instance [DecidableEq κ] (k : κ) (s : KeySet κ) : Decidable (k ∈ s) :=
  inferInstanceAs (Decidable (k ∈ s.members))

theorem mem_def {k : κ} {s : KeySet κ} : k ∈ s ↔ k ∈ s.members := Iff.rfl

def contains [DecidableEq κ] (s : KeySet κ) (k : κ) : Bool :=
  decide (k ∈ s)

/-- Puts `k` in its place unless it is there. -/
def place [DecidableEq κ] [Ranked κ] (k : κ) : List κ → List κ
  | [] => [k]
  | e :: rest =>
    if e = k then e :: rest
    else if Ranked.rank k < Ranked.rank e then k :: e :: rest
    else e :: place k rest

def insert [DecidableEq κ] [Ranked κ] (s : KeySet κ) (k : κ) : KeySet κ :=
  ⟨place k s.members⟩

def erase [DecidableEq κ] (s : KeySet κ) (k : κ) : KeySet κ :=
  ⟨s.members.filter fun e => e ≠ k⟩

def ofList [DecidableEq κ] [Ranked κ] (l : List κ) : KeySet κ :=
  l.foldl insert empty

def union [DecidableEq κ] [Ranked κ] (s t : KeySet κ) : KeySet κ :=
  t.members.foldl insert s

def inter [DecidableEq κ] (s t : KeySet κ) : KeySet κ :=
  ⟨s.members.filter fun e => t.contains e⟩

def subset [DecidableEq κ] (s t : KeySet κ) : Bool :=
  s.members.all fun e => t.contains e

@[simp] theorem not_mem_empty (k : κ) : ¬ k ∈ (empty : KeySet κ) := by
  simp [mem_def, empty]

@[simp] theorem contains_iff [DecidableEq κ] {s : KeySet κ} {k : κ} :
    s.contains k = true ↔ k ∈ s := by
  simp [contains]

theorem mem_place [DecidableEq κ] [Ranked κ] {k k' : κ} {l : List κ} :
    k' ∈ place k l ↔ k' = k ∨ k' ∈ l := by
  induction l with
  | nil => simp [place]
  | cons e rest ih =>
    unfold place
    split
    · next h => subst h; simp
    · split
      · simp
      · simp [ih, or_left_comm]

@[simp] theorem mem_insert [DecidableEq κ] [Ranked κ] {s : KeySet κ} {k k' : κ} :
    k' ∈ s.insert k ↔ k' = k ∨ k' ∈ s :=
  mem_place

@[simp] theorem mem_erase [DecidableEq κ] {s : KeySet κ} {k k' : κ} :
    k' ∈ s.erase k ↔ k' ∈ s ∧ k' ≠ k := by
  simp [mem_def, erase]

theorem mem_foldl_insert [DecidableEq κ] [Ranked κ] {l : List κ} {s : KeySet κ} {k : κ} :
    k ∈ l.foldl insert s ↔ k ∈ s ∨ k ∈ l := by
  induction l generalizing s with
  | nil => simp
  | cons e rest ih =>
    simp only [List.foldl_cons, ih, mem_insert, List.mem_cons]
    constructor
    · rintro ((h | h) | h) <;> simp [h]
    · rintro (h | h | h) <;> simp [h]

@[simp] theorem mem_ofList [DecidableEq κ] [Ranked κ] {l : List κ} {k : κ} :
    k ∈ ofList l ↔ k ∈ l := by
  simp [ofList, mem_foldl_insert]

@[simp] theorem mem_union [DecidableEq κ] [Ranked κ] {s t : KeySet κ} {k : κ} :
    k ∈ s.union t ↔ k ∈ s ∨ k ∈ t :=
  mem_foldl_insert

@[simp] theorem mem_inter [DecidableEq κ] {s t : KeySet κ} {k : κ} :
    k ∈ s.inter t ↔ k ∈ s ∧ k ∈ t := by
  simp [inter, mem_def, contains]

end KeySet

end SsaBlocks
