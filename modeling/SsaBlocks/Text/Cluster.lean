import SsaBlocks.Text.Class
import SsaBlocks.Text.Extend
import SsaBlocks.Text.Pictograph
import SsaBlocks.Text.SpacingMark

/-!
# Clusters

What a reader takes for one character can be a sequence of code points: a letter with its accents, a
syllable that is written as its sounds, a flag that is a pair of letters, a pictograph that is joined
from others. Such a sequence is a cluster. A text is cut into clusters from its start; whether a
cluster begins at a code point depends on its class and on a state that stands for the text before
it.
-/

namespace SsaBlocks.Text

/-- What a code point does in a cluster. -/
inductive ClusterClass
  | other
  | carriageReturn
  | lineFeed
  | control
  | extend
  | joiner
  | spacingMark
  | preceding
  | leadingSound
  | vowelSound
  | trailingSound
  | openSyllable
  | closedSyllable
  | regional
  | pictograph
deriving DecidableEq, Repr

namespace ClusterClass

def controlRuns : List Nat := [
  0, 10, 1, 2, 1, 18, 95, 33, 13, 1, 1390, 1, 4593, 1, 2044, 1, 2, 2, 24, 7, 49, 16, 56975, 1, 240,
  12, 13364, 16, 34912, 4, 5327, 8, 798341, 32, 96, 128, 240, 3600]

/-- The runs of the characters that belong to the one after them. -/
def precedingRuns : List Nat := [
  1536, 6, 215, 1, 49, 1, 384, 2, 80, 1, 1131, 1, 66414, 1, 15, 1, 244, 2, 1915, 1, 1, 1, 248, 1,
  73, 6, 700, 1, 443, 1]

/-- The class of a sound, a syllable or any other code point that is in none of the tables. -/
def ofSound (n : Nat) : ClusterClass :=
  if (0x1100 ≤ n && n ≤ 0x115F) || (0xA960 ≤ n && n ≤ 0xA97C) then leadingSound
  else if (0x1160 ≤ n && n ≤ 0x11A7) || (0xD7B0 ≤ n && n ≤ 0xD7C6) then vowelSound
  else if (0x11A8 ≤ n && n ≤ 0x11FF) || (0xD7CB ≤ n && n ≤ 0xD7FB) then trailingSound
  else if 0xAC00 ≤ n && n ≤ 0xD7A3 then
    -- The syllables without a trailing sound come first among those with the same other sounds.
    if (n - 0xAC00) % 28 = 0 then openSyllable else closedSyllable
  else other

def ofChar (c : Char) : ClusterClass :=
  let n := c.toNat
  if 32 ≤ n && n < 127 then other
  else if n = 13 then carriageReturn
  else if n = 10 then lineFeed
  else if n = 0x200D then joiner
  else if 0x1F1E6 ≤ n && n ≤ 0x1F1FF then regional
  else if inRuns controlRuns n then control
  else if inRuns extendRuns n then extend
  else if inRuns spacingMarkRuns n then spacingMark
  else if inRuns precedingRuns n then preceding
  else if inRuns pictographRuns n then pictograph
  else ofSound n

end ClusterClass

/-- What the text so far means for the next code point. -/
inductive ClusterState
  | plain
  | carriageReturn
  | control
  | leadingSound
  | vowelSound
  | trailingSound
  | preceding
  | pictograph
  | joined
  | oddRegional
  | evenRegional
deriving DecidableEq, Repr

namespace ClusterState

/-- The state after a code point that is at the start of a cluster, or that does not depend on the
text before it. -/
def after : ClusterClass → ClusterState
  | .carriageReturn => carriageReturn
  | .lineFeed | .control => control
  | .leadingSound => leadingSound
  | .vowelSound | .openSyllable => vowelSound
  | .trailingSound | .closedSyllable => trailingSound
  | .preceding => preceding
  | .pictograph => pictograph
  | .regional => oddRegional
  | .other | .extend | .joiner | .spacingMark => plain

/-- Whether a code point begins a cluster in every state that no rule is about. -/
def begins : ClusterClass → Bool
  | .extend | .joiner | .spacingMark => false
  | _ => true

/-- The state after one more code point, and whether it begins a cluster. -/
def step : ClusterState → ClusterClass → ClusterState × Bool
  | carriageReturn, .lineFeed => (plain, false)
  | leadingSound, .leadingSound => (leadingSound, false)
  | leadingSound, .vowelSound | leadingSound, .openSyllable => (vowelSound, false)
  | leadingSound, .closedSyllable => (trailingSound, false)
  | vowelSound, .vowelSound => (vowelSound, false)
  | vowelSound, .trailingSound | trailingSound, .trailingSound => (trailingSound, false)
  | pictograph, .extend => (pictograph, false)
  | pictograph, .joiner => (joined, false)
  | joined, .pictograph => (pictograph, false)
  | oddRegional, .regional => (evenRegional, false)
  | carriageReturn, c | control, c => (after c, true)
  | preceding, c => (after c, c == .carriageReturn || c == .lineFeed || c == .control)
  | _, c => (after c, begins c)

end ClusterState

def continueCluster : ClusterState → List Char → List Char × List (List Char)
  | _, [] => ([], [])
  | state, c :: rest =>
    let (state, new) := state.step (.ofChar c)
    let (cluster, later) := continueCluster state rest
    if new then ([], (c :: cluster) :: later) else (c :: cluster, later)

def clusters (cs : List Char) : List (List Char) :=
  match continueCluster .plain cs with
  | ([], later) => later
  | (first, later) => first :: later

end SsaBlocks.Text
