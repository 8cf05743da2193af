/-!
# Capital letters

The code points of the capital letters, as the lengths of the runs outside and inside of the class.
-/

namespace SsaBlocks.Text

/-- Runs of length one, where capital and small letters take turns. -/
def ones (n : Nat) : List Nat := List.replicate n 1

def upperRuns : List Nat :=
  [65,26,101,23,1,7,33] ++ ones 55 ++ [2,1,1,1,1,1,1,1,1,1,1,1,1,1,1,1,2] ++ ones 46 ++ [2,1,1,1,1,
  3,2,1,1,1,2,1,3,2,4,1,2,1,3,3,2,1,2,1,1,1,1,1,2,1,1,2,1,1,2,1,3,1,1,1,2,3,1,7,1,2,1,2,1,2,1,1,1,1,
  1,1,1,1,1,1,1,1,1,1,1,2,1,1,1,1,1,1,1,1,1,1,1,1,1,1,1,1,1,2,1,2,1,1,3] ++ ones 58 ++ [7,2,1,2,2,1,
  1,4,1,1,1,1,1,1,1,1,289,1,1,1,3,1,8,1,6,1,1,3,1,1,1,2,1,17,1,9,35,1,2,3,3] ++ ones 23 ++ [5,1,2,1,
  1,2,2,51,48] ++ ones 33 ++ [9] ++ ones 54 ++ [2,1,1,1,1,1,1,1,1,1,1,1,1,2] ++ ones 95 ++ [2,38,
  2889,38,1,1,5,1,722,86,2195,1,6,43,2,3,320] ++ ones 149 ++ [9] ++ ones 97 ++ [9,8,8,6,10,8,8,8,8,
  6,11,1,1,1,1,1,1,1,8,8,72,4,12,4,12,4,12,5,11,4,262,1,4,1,3,3,2,3,2,1,3,5,6,1,1,1,1,1,1,4,2,4,10,
  2,5,1,61,1,2684,48,48,1,1,3,2,1,1,1,1,1,1,4,1,1,2,1,8,3] ++ ones 98 ++ [8,1,1,1,4,1,31053] ++
  ones 45 ++ [19] ++ ones 27 ++ [135,1,1,1,1,1,1,1,1,1,1,1,1,1,3] ++ ones 61 ++ [10,1,1,1,1,2,1,1,1,
  1,1,1,1,1,4,1,1,1,2,1,1,1,3] ++ ones 20 ++ [5,1,5,1,1,1,1,1,1,1,1,1,1,1,1,1,1,1,4,1,1,1,2,1,1,1,1,
  1,1,1,1,1,1,1,1,1,1,1,1,24,1,22315,26,1221,40,136,36,156,11,1,15,1,7,1,2,1770,51,157,22,2874,32,
  21888,32,64,25,25927,26,26,26,26,26,26,1,1,2,2,1,2,2,2,4,1,8,26,26,26,2,1,4,2,8,1,7,27,2,1,4,1,5,
  1,1,3,7,27,26,26,26,26,26,26,26,26,26,26,26,30,25,33,25,33,25,33,25,33,25,33,1,4405,34]

end SsaBlocks.Text
