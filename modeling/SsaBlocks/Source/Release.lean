import SsaBlocks.Text.Class

/-!
# Releases of the language

A comment of the form `//go:build` before all tokens of a file tells under which conditions the file
is to be used. Such a condition may imply that the language has a certain release at least; the file
is then read by the rules of that release.
-/

namespace SsaBlocks.Source

/-- A condition on the surroundings, of tags that are set or not. -/
inductive BuildCondition
  | tag (name : String)
  | negation (c : BuildCondition)
  | conjunction (a b : BuildCondition)
  | disjunction (a b : BuildCondition)
deriving DecidableEq, Repr

namespace BuildCondition

/-! ## Reading conditions -/

/-- A word of a condition: a tag, or an operator or a parenthesis. -/
inductive Word
  | tag (name : String)
  | op (text : String)
deriving DecidableEq

def isTagPart (c : Char) : Bool :=
  Text.isLetter c || Text.isDigit c || c == '_' || c == '.'

/-- The words of a condition. The fuel counts characters. -/
def wordsUpTo : Nat → List Char → Option (List Word)
  | _, [] => some []
  | 0, _ => none
  | fuel + 1, c :: rest =>
    if c == ' ' || c == '\t' then wordsUpTo fuel rest
    else if c == '(' || c == ')' || c == '!' then
      (wordsUpTo fuel rest).map (.op c.toString :: ·)
    else if c == '&' || c == '|' then
      match rest with
      | d :: rest =>
        if d == c then (wordsUpTo fuel rest).map (.op (String.ofList [c, c]) :: ·) else none
      | [] => none
    else if isTagPart c then
      (wordsUpTo fuel (rest.dropWhile isTagPart)).map
        (.tag (String.ofList (c :: rest.takeWhile isTagPart)) :: ·)
    else none

/-- The parts of a condition. -/
inductive Level
  | disjunction
  | conjunction
  | negation

/-- The operands of an operator after the first. The fuel counts them. -/
def chainUpTo (operand : List Word → Option (BuildCondition × List Word)) (op : String)
    (join : BuildCondition → BuildCondition → BuildCondition) :
    Nat → BuildCondition × List Word → Option (BuildCondition × List Word)
  | 0, read => some read
  | n + 1, (a, ws) =>
    if ws.head? == some (.op op) then do
      let (b, ws) ← operand ws.tail
      chainUpTo operand op join n (join a b, ws)
    else some (a, ws)

/-- Reads a part of a condition. The fuel bounds the nesting. -/
def parseUpTo : Nat → Level → List Word → Option (BuildCondition × List Word)
  | 0, _, _ => none
  | fuel + 1, .disjunction, ws =>
    let operand := parseUpTo fuel .conjunction
    (operand ws).bind (chainUpTo operand "||" disjunction ws.length)
  | fuel + 1, .conjunction, ws =>
    let operand := parseUpTo fuel .negation
    (operand ws).bind (chainUpTo operand "&&" conjunction ws.length)
  | fuel + 1, .negation, ws =>
    match ws with
    | .tag name :: ws => some (tag name, ws)
    | .op "!" :: ws =>
      -- A negation is not negated again without parentheses.
      if ws.head? == some (.op "!") then none
      else (parseUpTo fuel .negation ws).map fun p => (negation p.1, p.2)
    | .op "(" :: ws =>
      match parseUpTo fuel .disjunction ws with
      | some (c, .op ")" :: ws) => some (c, ws)
      | _ => none
    | _ => none

def parse? (text : List Char) : Option BuildCondition := do
  let ws ← wordsUpTo text.length text
  let (c, rest) ← parseUpTo (4 * ws.length + 4) .disjunction ws
  if rest.isEmpty then some c else none

/-! ## The release that a condition implies -/

def afterFirst? (word : List Char) : List Char → Option (List Char)
  | [] => none
  | c :: cs => if word.isPrefixOf (c :: cs) then some ((c :: cs).drop word.length)
    else afterFirst? word cs

def releaseOf (tag : String) : Option Nat :=
  if tag == "go1" then some 0
  else do
    let digits ← afterFirst? "go1.".toList tag.toList
    if digits.isEmpty || !digits.all Char.isDigit then none
    let n := digits.foldl (fun n c => 10 * n + (c.toNat - '0'.toNat)) 0
    if n < 0x8000000000000000 then some n else none

/-- The release that follows from either of two conditions. -/
def either : Option Nat → Option Nat → Option Nat
  | some m, some n => some (min m n)
  | _, _ => none

/-- The release that follows from both of two conditions. -/
def both : Option Nat → Option Nat → Option Nat
  | some m, some n => some (max m n)
  | some m, none => some m
  | none, n => n

/-- The least release under which a condition can hold, or fail to hold, if it implies one. That a
tag is not set implies nothing. -/
def release? : Bool → BuildCondition → Option Nat
  | holds, tag name => if holds then releaseOf name else none
  | holds, negation c => release? (!holds) c
  | holds, conjunction a b =>
    (if holds then both else either) (release? holds a) (release? holds b)
  | holds, disjunction a b =>
    (if holds then either else both) (release? holds a) (release? holds b)

def word : List Char := "go:build".toList

def ofComment? (text : List Char) : Option BuildCondition :=
  let rest := text.drop word.length
  if word.isPrefixOf text && rest.head?.any Text.isSpace then parse? (Text.trim rest) else none

end BuildCondition

/-- The release of the language that this library knows. -/
def currentRelease : Nat := 27

/-- The first release that a file can choose. Files that ask for an earlier one get this. -/
def firstRelease : Nat := 21

end SsaBlocks.Source
