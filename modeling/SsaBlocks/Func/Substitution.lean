import SsaBlocks.Func.Basic

/-!
# Substitution of temporaries

A substitution sends some temporaries to others. Applied to a list of blocks it is closed first:
each temporary goes to the end of the chain of replacements that starts at it, which takes at most
as many links as there are entries.
-/

namespace SsaBlocks

abbrev Substitution := Table Temp Temp

namespace Substitution

def apply (s : Substitution) (t : Temp) : Temp :=
  (s.get? t).getD t

/-- Follows the chain of replacements from a temporary, for at most a number of links. -/
def follow (s : Substitution) : Nat → Temp → Temp
  | 0, t => t
  | links + 1, t =>
    match s.get? t with
    | none => t
    | some next => if next = t then t else follow s links next

/-- Sends each temporary to the end of its chain. -/
def close (s : Substitution) : Substitution :=
  s.mapValues (s.follow s.size)

/-- All replacements of both; those of the second come first. -/
def merge (s r : Substitution) : Substitution :=
  r.entries.foldl (fun s e => s.insert e.1 e.2) s

end Substitution

namespace Block

def substituteCode (f : Temp → Temp) (b : Block) : Block :=
  { b with code := b.code.map (Instruction.substitute f) }

/-- Replaces the temporaries that the variables hold. -/
def substituteWritten (f : Temp → Temp) (b : Block) : Block :=
  { b with written := b.written.mapValues f }

/-- Replaces the temporaries read by the instructions, carried by the edges of the phi nodes and
held by the variables. -/
def substitute (f : Temp → Temp) (b : Block) : Block :=
  { b with
    code := b.code.map (Instruction.substitute f)
    phis := b.phis.map (Phi.substitute f)
    written := b.written.mapValues f }

end Block

namespace Func

/-- Applies a substitution, closed, to the given blocks. -/
def substitute (fn : Func) (blocks : List BlockId) (s : Substitution) : Func :=
  blocks.foldl (fun fn b => fn.modify b (Block.substitute s.close.apply)) fn

end Func

end SsaBlocks
