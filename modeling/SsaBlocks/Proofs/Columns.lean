import SsaBlocks.Listing

/-!
# Columns of the output

The column that output knows is the number of bytes after its last newline, in whatever pieces it
has been written. So the text of every line of a listing starts at column 8, however long the names
and the numbers before it are.

## Main results

* `columns_of_output`: what the column of output is, and where the lines of a listing start
-/

namespace SsaBlocks

namespace ColumnText

variable {w : ColumnText}

/-! ## The column of the end -/

/-- The number of bytes after the last newline. -/
def endColumn (bytes : ByteArray) : Nat :=
  (bytes.data.toList.reverse.takeWhile (· ≠ '\n'.toUInt8)).length

theorem endColumn_push (l : List UInt8) (byte : UInt8) :
    endColumn ⟨⟨l ++ [byte]⟩⟩ = advance (endColumn ⟨⟨l⟩⟩) byte := by
  by_cases h : byte = '\n'.toUInt8
  · simp [endColumn, advance, h]
  · simp [endColumn, advance, h]

/-- Bytes move the column of the end as they move the column that output knows. -/
theorem endColumn_append (bytes more : ByteArray) :
    endColumn (bytes ++ more) = more.data.foldl advance (endColumn bytes) := by
  obtain ⟨⟨l⟩⟩ := bytes
  obtain ⟨⟨l'⟩⟩ := more
  have happend : ∀ l : List UInt8, (⟨⟨l⟩⟩ ++ ⟨⟨l'⟩⟩ : ByteArray) = ⟨⟨l ++ l'⟩⟩ := by
    intro l
    ext1
    simp
  rw [happend, List.foldl_toArray]
  clear happend
  induction l' generalizing l with
  | nil => simp
  | cons byte l' ih => rw [List.foldl_cons, ← endColumn_push, ← ih, List.append_assoc]; rfl

/-- Output knows the column of its end. -/
def Tracks (w : ColumnText) : Prop :=
  w.column = endColumn w.bytes

theorem Tracks.writeBytes (h : w.Tracks) (bytes : ByteArray) : (w.writeBytes bytes).Tracks := by
  rw [Tracks, ColumnText.writeBytes, endColumn_append, h]

@[simp] theorem write_write (w : ColumnText) (s t : String) :
    (w.write s).write t = w.write (s ++ t) := by
  simp [write, writeBytes, ByteArray.append_assoc]

/-! ## Indentation -/

/-- So many blanks. -/
def blanks (n : Nat) : String :=
  String.ofList (List.replicate n ' ')

theorem column_write_blanks (w : ColumnText) (n : Nat) :
    (w.write (blanks n)).column = w.column + n := by
  induction n generalizing w with
  | zero => rfl
  | succ n ih =>
    have hsucc : blanks (n + 1) = " " ++ blanks n := by
      simp [blanks, List.replicate_succ]
    rw [hsucc, ← write_write, ih]
    have hone : (w.write " ").column = w.column + 1 := rfl
    omega

/-- What is written to come to a column. -/
def padding (w : ColumnText) (column : Int) : String :=
  if column < w.column then "\n" ++ blanks column.toNat else blanks (column - w.column).toNat

theorem indentTo_eq (w : ColumnText) (column : Int) :
    w.indentTo column = w.write (w.padding column) := by
  -- no blanks are written where none are needed
  have hpad : ∀ w : ColumnText, (if (w.column : Int) < column then
      w.write (blanks (column - w.column).toNat) else w) =
        w.write (blanks (column - w.column).toNat) := by
    intro w
    split
    · rfl
    · next h =>
      rw [show (column - w.column).toNat = 0 by omega]
      simp [blanks, write, writeBytes]
  rw [padding]
  split
  · next h =>
    have hline : w.indentTo column = w.newline.write (blanks (column - w.newline.column).toNat) := by
      rw [indentTo, if_pos h]
      exact hpad w.newline
    rw [hline, newline, write_write, show (w.write "\n").column = 0 from rfl,
      Int.natCast_zero, Int.sub_zero]
  · next h =>
    rw [indentTo, if_neg h]
    exact hpad w

theorem column_indentTo (w : ColumnText) (column : Nat) : (w.indentTo column).column = column := by
  rw [indentTo_eq, padding]
  split
  · rw [← write_write, column_write_blanks]
    have hzero : (w.write "\n").column = 0 := rfl
    omega
  · rw [column_write_blanks]
    omega

/-! ## Actions -/

/-- What can be done to output. -/
inductive Action where
  | write (bytes : ByteArray)
  | newline
  | indentTo (column : Nat)

def Action.apply (w : ColumnText) : Action → ColumnText
  | write bytes => w.writeBytes bytes
  | newline => w.newline
  | indentTo column => w.indentTo column

theorem Tracks.apply (h : w.Tracks) (action : Action) : (action.apply w).Tracks := by
  cases action with
  | write bytes => exact h.writeBytes bytes
  | newline => exact h.writeBytes _
  | indentTo column =>
    rw [Action.apply, indentTo_eq]
    exact h.writeBytes _

/-- The output after a number of actions. -/
def run (actions : List Action) : ColumnText :=
  actions.foldl Action.apply {}

theorem tracks_run (actions : List Action) : (run actions).Tracks := by
  suffices h : ∀ w : ColumnText, w.Tracks → (actions.foldl Action.apply w).Tracks from h {} rfl
  induction actions with
  | nil => exact fun _ hw => hw
  | cons action actions ih => exact fun _ hw => ih _ (hw.apply action)

/-! ## Listings -/

/-- Output that a text has been written to. -/
def of (s : String) : ColumnText :=
  ({} : ColumnText).write s

theorem write_of (s t : String) : (of s).write t = of (s ++ t) :=
  write_write _ s t

theorem column_of (s : String) : (of s).column = endColumn s.toUTF8 := by
  have hstart : ({} : ColumnText).Tracks := rfl
  have hbytes : (of s).bytes = s.toUTF8 := ByteArray.empty_append
  rw [← hbytes]
  exact hstart.writeBytes s.toUTF8

theorem text_of (s : String) : (of s).text = s := by
  have hbytes : (of s).bytes = s.toByteArray := ByteArray.empty_append
  rw [text, hbytes, String.fromUTF8?, dif_pos s.isValidUTF8]
  rfl

/-- The text `all` continues `before` with the texts, each of which starts at the column and ends
its line. -/
def LaidOut (column : Nat) (before : String) : List String → String → Prop
  | [], all => ∃ rest, all = before ++ rest
  | s :: texts, all => ∃ gap, endColumn (before ++ gap).toUTF8 = column ∧
    LaidOut column (before ++ gap ++ s ++ "\n") texts all

variable {column : Nat} {a b c : String} {texts texts' : List String}

theorem LaidOut.of_append (h : LaidOut column (a ++ b) texts c) : LaidOut column a texts c := by
  cases texts with
  | nil =>
    obtain ⟨rest, rfl⟩ := h
    exact ⟨b ++ rest, String.append_assoc⟩
  | cons s texts =>
    obtain ⟨gap, hstart, h⟩ := h
    refine ⟨b ++ gap, ?_, ?_⟩
    · rw [← String.append_assoc]
      exact hstart
    · rw [← String.append_assoc]
      exact h

theorem LaidOut.append (h : LaidOut column a texts b) (h' : LaidOut column b texts' c) :
    LaidOut column a (texts ++ texts') c := by
  induction texts generalizing a with
  | nil =>
    obtain ⟨rest, rfl⟩ := h
    exact h'.of_append
  | cons s texts ih =>
    obtain ⟨gap, hstart, h⟩ := h
    exact ⟨gap, hstart, ih h⟩

/-- Writing texts for one thing after the other. -/
theorem exists_laidOut_foldl {α : Type} {step : ColumnText × Nat → α → ColumnText × Nat}
    {texts : α → List String}
    (hstep : ∀ s n a, ∃ s' n', step (of s, n) a = (of s', n') ∧ LaidOut column s (texts a) s')
    (l : List α) (s : String) (n : Nat) :
    ∃ s' n', l.foldl step (of s, n) = (of s', n') ∧ LaidOut column s (l.flatMap texts) s' := by
  induction l generalizing s n with
  | nil => exact ⟨s, n, rfl, "", String.append_empty.symm⟩
  | cons a l ih =>
    obtain ⟨s₁, n₁, h₁, hlaid₁⟩ := hstep s n a
    obtain ⟨s₂, n₂, h₂, hlaid₂⟩ := ih s₁ n₁
    exact ⟨s₂, n₂, by rw [List.foldl_cons, h₁, h₂], hlaid₁.append hlaid₂⟩

end ColumnText

namespace Func

open ColumnText

variable (fn : Func)

theorem exists_listHeader_of (b : BlockId) (s : String) :
    ∃ t, fn.listHeader b (of s) = of (s ++ t) := by
  simp only [listHeader, newline, indentTo_eq, write_of]
  cases (fn.block b).idom with
  | none | some => exact ⟨_, by simp only [write_of, String.append_assoc]; rfl⟩

/-- A line ends with its text, which starts at column 8. -/
theorem exists_listLine_of (s : String) (n : Nat) (line : Line) :
    ∃ s' n', fn.listLine (of s, n) line = (of s', n') ∧ LaidOut 8 s [fn.lineText line] s' := by
  obtain ⟨mark, n', hmark⟩ : ∃ mark n', (if line.isCode then
      (((of s).indentTo 2).write (toString n), n + 1) else (of s, n)) = (of (s ++ mark), n') := by
    split
    · exact ⟨_, _, by rw [indentTo_eq, write_of, write_of, String.append_assoc]⟩
    · exact ⟨"", n, by rw [String.append_empty]⟩
  have hindent : (of (s ++ mark)).indentTo 8 = of (s ++ (mark ++ (of (s ++ mark)).padding 8)) := by
    rw [indentTo_eq, write_of, String.append_assoc]
  refine ⟨s ++ (mark ++ (of (s ++ mark)).padding 8) ++ fn.lineText line ++ "\n", n', ?_, ?_⟩
  · simp only [listLine, hmark, hindent, newline, write_of]
  · refine ⟨mark ++ (of (s ++ mark)).padding 8, ?_, "", String.append_empty.symm⟩
    rw [← column_of, ← hindent]
    exact column_indentTo _ 8

theorem exists_listBlock_of (s : String) (n : Nat) (b : BlockId) :
    ∃ s' n', fn.listBlock (of s, n) b = (of s', n') ∧
      LaidOut 8 s ((fn.block b).lines.map fn.lineText) s' := by
  obtain ⟨t, hheader⟩ := fn.exists_listHeader_of b s
  obtain ⟨s', n', hlines, hlaid⟩ :=
    exists_laidOut_foldl fn.exists_listLine_of (fn.block b).lines (s ++ t) n
  refine ⟨s', n', by rw [listBlock, hheader, hlines], ?_⟩
  rw [List.map_eq_flatMap]
  exact hlaid.of_append

/-- In the listing of a function the text of every line starts at column 8. -/
theorem laidOut_listing :
    LaidOut 8 "" (fn.orderedBlocks.flatMap fun b => (fn.block b).lines.map fn.lineText)
      fn.listing := by
  have hstart : (({} : ColumnText).write fn.signatureText).newline = of (fn.signatureText ++ "\n") :=
    write_of fn.signatureText "\n"
  obtain ⟨s, n, hfold, hlaid⟩ :=
    exists_laidOut_foldl fn.exists_listBlock_of fn.orderedBlocks (fn.signatureText ++ "\n") 0
  have hlisting : fn.listing = s := by
    rw [listing, hstart, hfold, text_of]
  rw [hlisting]
  rw [← String.empty_append (s := fn.signatureText ++ "\n")] at hlaid
  exact hlaid.of_append

end Func

/-- The column of output is the number of bytes after the last newline, after any actions and in
whatever pieces bytes are written. Moving to a column leads there and writes at most one newline and
then only blanks. So the texts of all lines of a listing start at column 8. -/
theorem columns_of_output :
    (∀ actions, (ColumnText.run actions).column =
        ColumnText.endColumn (ColumnText.run actions).bytes ∧
      ∀ column : Nat, ((ColumnText.run actions).indentTo column).column = column ∧
        ∃ newline ∈ ["", "\n"], ∃ n, ((ColumnText.run actions).indentTo column).bytes =
          (ColumnText.run actions).bytes ++ (newline ++ ColumnText.blanks n).toUTF8) ∧
    ∀ fn : Func, ColumnText.LaidOut 8 ""
      (fn.orderedBlocks.flatMap fun b => (fn.block b).lines.map fn.lineText) fn.listing := by
  refine ⟨fun actions => ⟨ColumnText.tracks_run actions, fun column => ?_⟩, Func.laidOut_listing⟩
  refine ⟨ColumnText.column_indentTo _ column, ?_⟩
  rw [ColumnText.indentTo_eq, ColumnText.padding]
  split
  · exact ⟨"\n", by simp, _, rfl⟩
  · exact ⟨"", by simp, _, by rw [String.empty_append]; rfl⟩

end SsaBlocks
