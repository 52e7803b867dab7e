/-!
# Punctuation and symbols

Two classes of the printable characters of Unicode 14, as far as they lie in the basic plane. The
punctuation marks are the characters of the categories for punctuation, and all in the blocks for
general punctuation, supplemental punctuation and CJK punctuation. The symbols are the other
characters of the categories for symbols and numbers, those with the worth of a digit excepted, and
the number forms that are letters with case.

Each class is stored as the code points at which it begins and ends among the printable characters,
so that a printable character is in it when an odd number of them lie at or below it.
-/

namespace SchemaForge.Text

/-- The code points at which punctuation begins and ends, in ascending order. -/
def punctuationChanges : List Nat := [
  33, 36, 37, 43, 44, 48, 58, 60, 63, 65, 91, 94, 95, 96, 123, 124, 125, 126, 161, 162, 167, 168,
  171, 172, 182, 184, 187, 188, 191, 192, 894, 895, 903, 904, 1370, 1376, 1417, 1421, 1470, 1471,
  1472, 1473, 1475, 1476, 1478, 1479, 1523, 1542, 1545, 1547, 1548, 1550, 1563, 1568, 1642, 1646,
  1748, 1749, 1792, 1808, 2039, 2042, 2096, 2112, 2142, 2144, 2404, 2406, 2416, 2417, 2557, 2558,
  2678, 2689, 2800, 2801, 3191, 3192, 3204, 3205, 3572, 3585, 3663, 3664, 3674, 3713, 3844, 3859,
  3860, 3861, 3898, 3902, 3973, 3974, 4048, 4053, 4057, 4096, 4170, 4176, 4347, 4348, 4960, 4969,
  5120, 5121, 5742, 5743, 5787, 5792, 5867, 5870, 5941, 5952, 6100, 6103, 6104, 6107, 6144, 6155,
  6468, 6470, 6686, 6688, 6816, 6823, 6824, 6832, 7002, 7009, 7037, 7040, 7164, 7168, 7227, 7232,
  7294, 7296, 7360, 7376, 7379, 7380, 8208, 8304, 8317, 8319, 8333, 8336, 8968, 8972, 9001, 9003,
  10088, 10102, 10181, 10183, 10214, 10224, 10627, 10649, 10712, 10716, 10748, 10750, 11513, 11517,
  11518, 11520, 11632, 11647, 11776, 11904, 12289, 12353, 12448, 12449, 12539, 12540, 42238, 42240,
  42509, 42512, 42611, 42612, 42622, 42623, 42738, 42752, 43124, 43136, 43214, 43216, 43256, 43259,
  43260, 43261, 43310, 43312, 43359, 43360, 43457, 43471, 43486, 43488, 43612, 43616, 43742, 43744,
  43760, 43762, 44011, 44012, 64830, 64832, 65040, 65056, 65072, 65122, 65123, 65124, 65128, 65129,
  65130, 65136, 65281, 65284, 65285, 65291, 65292, 65296, 65306, 65308, 65311, 65313, 65339, 65342,
  65343, 65344, 65371, 65372, 65373, 65374, 65375, 65382]

/-- The code points at which symbols begin and end, in ascending order. -/
def symbolChanges : List Nat := [
  36, 37, 43, 44, 60, 63, 94, 95, 96, 97, 124, 125, 126, 161, 162, 167, 168, 170, 172, 178, 180,
  181, 184, 185, 188, 191, 215, 216, 247, 248, 706, 710, 722, 736, 741, 748, 749, 750, 751, 768,
  885, 886, 900, 902, 1014, 1015, 1154, 1155, 1421, 1425, 1542, 1545, 1547, 1548, 1550, 1552, 1758,
  1759, 1769, 1770, 1789, 1791, 2038, 2039, 2046, 2048, 2184, 2185, 2546, 2556, 2801, 2809, 2928,
  2929, 2930, 2946, 3056, 3072, 3192, 3200, 3407, 3412, 3416, 3423, 3440, 3450, 3647, 3648, 3841,
  3844, 3859, 3860, 3861, 3864, 3866, 3872, 3882, 3893, 3894, 3895, 3896, 3897, 4030, 4038, 4039,
  4048, 4053, 4057, 4254, 4256, 4978, 4992, 5008, 5024, 5741, 5742, 5870, 5873, 6107, 6108, 6128,
  6144, 6464, 6468, 6622, 6656, 7009, 7019, 7028, 7037, 8125, 8126, 8127, 8130, 8141, 8144, 8157,
  8160, 8173, 8178, 8189, 8208, 8314, 8317, 8330, 8333, 8352, 8400, 8448, 8450, 8451, 8455, 8456,
  8458, 8468, 8469, 8470, 8473, 8478, 8484, 8485, 8486, 8487, 8488, 8489, 8490, 8494, 8495, 8506,
  8508, 8512, 8517, 8522, 8526, 8527, 8968, 8972, 9001, 9003, 9312, 9321, 9332, 9341, 9352, 9361,
  9450, 9451, 9461, 9470, 9471, 9472, 10088, 10111, 10112, 10121, 10122, 10131, 10181, 10183,
  10214, 10224, 10627, 10649, 10712, 10716, 10748, 10750, 11264, 11493, 11499, 11517, 11518, 11904,
  12289, 12443, 12445, 12688, 12704, 12736, 12784, 12800, 13312, 19904, 19968, 42128, 42192, 42726,
  42736, 42752, 42775, 42784, 42786, 42889, 42891, 43048, 43052, 43056, 43072, 43639, 43642, 43867,
  43868, 43882, 43888, 64297, 64298, 64434, 64467, 64832, 64848, 64975, 65008, 65020, 65024, 65122,
  65123, 65124, 65128, 65129, 65130, 65284, 65285, 65291, 65292, 65308, 65311, 65342, 65343, 65344,
  65345, 65372, 65373, 65374, 65375, 65504, 65536]

/-- A punctuation mark, among printable characters. -/
def isPunctuation (c : Char) : Bool := punctuationChanges.countP (· ≤ c.toNat) % 2 == 1

/-- A symbol, among printable characters. -/
def isSymbol (c : Char) : Bool := symbolChanges.countP (· ≤ c.toNat) % 2 == 1

end SchemaForge.Text
