/-!
# Combining characters

The code points whose names call them combining, as the lengths of the runs outside and inside of
the class. They take no column of their own.
-/

namespace SsaBlocks.Text

def combiningRuns : List Nat := [
  768,112,275,7,865,9,1036,1,3,1,251,2,1627,3,1823,1,48,17,170,9,588,58,1,5,720,33,3070,3,238,32,
  665,2,30164,4,1,10,32,2,80,2,494,18,21806,16,973,1,376,5,2864,2,153,11,943,2,57,2,41,7,3,5,22395,
  5,26224,5,3,6,8,8,2,7,30,4,148,3,3515,7,1,17,2,7,1,2,1,5,2213,7]

end SsaBlocks.Text
