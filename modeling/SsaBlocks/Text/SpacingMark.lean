/-!
# Spacing marks

The code points of the marks that take a column and belong to the character before them, as
the lengths of the runs outside and inside of the class.
-/

namespace SsaBlocks.Text

def spacingMarkRuns : List Nat := [
  2307,1,55,1,2,3,8,4,1,2,50,2,59,2,6,2,2,2,54,1,58,3,66,1,58,3,8,1,1,2,53,2,60,1,6,2,2,2,114,1,1,2,
  3,3,1,3,52,3,61,4,61,2,58,1,1,2,1,2,2,2,1,2,39,1,14,2,59,2,5,3,1,3,53,2,76,2,6,7,19,2,63,1,127,1,
  138,2,63,1,177,1,9,2,25,2,44,1,1680,1,30,1,129,1,7,8,1,2,346,4,2,3,4,2,1,6,224,2,58,1,1,1,21,6,
  145,1,54,1,1,5,1,2,61,1,30,1,4,2,2,1,60,1,2,3,1,1,3,2,48,8,8,2,171,1,21,1,35627,2,2,1,88,2,50,16,
  142,2,47,1,48,2,4,2,2,3,110,2,2,2,24,1,157,1,2,2,5,1,237,2,1,2,1,2,1,1,25619,1,1,1,127,1,45,3,4,2,
  115,1,24,2,59,1,48,3,9,2,13,1,93,3,3,2,1,1,170,3,31,2,59,1,1,4,2,2,2,3,20,2,209,3,8,2,3,1,107,2,6,
  1,1,2,1,1,2,1,238,2,6,4,2,1,113,3,8,2,1,1,109,1,1,2,6,1,111,1,261,3,9,1,248,5,1,2,4,1,2,1,1,1,142,
  3,8,4,4,1,84,1,29,2,62,1,407,1,14,1,106,1,7,1,2,1,213,5,4,2,1,1,350,2,12,1,48,2,8,2,1,1,20495,55,
  104,2,24948,1,6,1]

end SsaBlocks.Text
