/-!
# Pictographs

The code points that a joiner links to the pictograph before it, as the lengths of the runs outside
and inside of the class.
-/

namespace SsaBlocks.Text

def pictographRuns : List Nat := [
  169,1,4,1,8077,1,12,1,216,1,22,1,90,6,15,2,367,2,12,1,95,1,70,1,25,11,4,3,199,1,231,2,10,1,9,1,58,
  4,1,6,1,12,1,114,10,118,2,11,1,1,1,1,6,1,3,1,6,1,10,2,15,1,2,1,4,1,1,1,4,3,1,1,11,5,45,3,9,1,14,1,
  14,1,372,2,463,3,19,2,51,1,4,1,1242,1,12,1,601,1,1,1,114022,256,13,3,31,1,60,6,12,2,14,1,2,10,18,
  57,27,15,10,1,20,1,2,9,1,4,9,434,5,318,8,266,48,128,116,12,85,43,12,4,56,8,10,6,40,8,30,82,12,47,
  1,10,1,441,256,1022]

end SsaBlocks.Text
