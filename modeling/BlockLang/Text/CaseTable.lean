import BlockLang.Text.Ranges

/-!
# Case mappings

The mappings of single characters. Letters come in pairs: in some stretches the small letter follows
its capital letter, and elsewhere a run of capital letters has the small ones at one distance. A few
letters map one way only, and a few map to several characters.
-/

namespace BlockLang.Text

/-- So many code points from `first` on map to those at the distance. -/
structure Run where
  first : Nat
  count : Nat
  distance : Int
deriving Repr

/-- Where a capital letter and its small letter take turns. -/
def alternatingRanges : List (Nat × Nat) := rangesOf [
  256, 48, 2, 6, 1, 16, 1, 46, 1, 6, 3, 4, 1, 2, 2, 2, 4, 2, 5, 2, 6, 6, 1, 2, 3, 2, 1, 2, 2, 4, 1,
  2, 2, 2, 15, 16, 1, 18, 4, 2, 2, 40, 2, 18, 7, 2, 4, 2, 3, 10, 288, 4, 2, 2, 96, 24, 7, 2, 1, 2,
  100, 34, 8, 54, 1, 14, 1, 96, 5977, 2, 373, 150, 10, 96, 643, 2, 2779, 2, 5, 6, 5, 2, 1, 2, 9,
  100, 7, 4, 3, 2, 31052, 46, 18, 28, 134, 14, 2, 62, 9, 4, 1, 10, 3, 2, 3, 4, 2, 20, 10, 16, 3, 4,
  1, 16, 25, 2]

/-- Other capital letters, with the small ones at the distance. -/
def capitalRuns : List Run := [
  ⟨0x41, 26, 32⟩, ⟨0xC0, 23, 32⟩, ⟨0xD8, 7, 32⟩, ⟨0x178, 1, -121⟩, ⟨0x181, 1, 210⟩, ⟨0x186, 1, 206⟩,
  ⟨0x189, 2, 205⟩, ⟨0x18E, 1, 79⟩, ⟨0x18F, 1, 202⟩, ⟨0x190, 1, 203⟩, ⟨0x193, 1, 205⟩,
  ⟨0x194, 1, 207⟩, ⟨0x196, 1, 211⟩, ⟨0x197, 1, 209⟩, ⟨0x19C, 1, 211⟩, ⟨0x19D, 1, 213⟩,
  ⟨0x19F, 1, 214⟩, ⟨0x1A6, 1, 218⟩, ⟨0x1A9, 1, 218⟩, ⟨0x1AE, 1, 218⟩, ⟨0x1B1, 2, 217⟩,
  ⟨0x1B7, 1, 219⟩, ⟨0x1C4, 1, 2⟩, ⟨0x1C7, 1, 2⟩, ⟨0x1CA, 1, 2⟩, ⟨0x1F1, 1, 2⟩, ⟨0x1F6, 1, -97⟩,
  ⟨0x1F7, 1, -56⟩, ⟨0x220, 1, -130⟩, ⟨0x23A, 1, 10795⟩, ⟨0x23D, 1, -163⟩, ⟨0x23E, 1, 10792⟩,
  ⟨0x243, 1, -195⟩, ⟨0x244, 1, 69⟩, ⟨0x245, 1, 71⟩, ⟨0x37F, 1, 116⟩, ⟨0x386, 1, 38⟩, ⟨0x388, 3, 37⟩,
  ⟨0x38C, 1, 64⟩, ⟨0x38E, 2, 63⟩, ⟨0x391, 17, 32⟩, ⟨0x3A3, 9, 32⟩, ⟨0x3CF, 1, 8⟩, ⟨0x3F9, 1, -7⟩,
  ⟨0x3FD, 3, -130⟩, ⟨0x400, 16, 80⟩, ⟨0x410, 32, 32⟩, ⟨0x4C0, 1, 15⟩, ⟨0x531, 38, 48⟩,
  ⟨0x10A0, 38, 7264⟩, ⟨0x10C7, 1, 7264⟩, ⟨0x10CD, 1, 7264⟩, ⟨0x13A0, 80, 38864⟩, ⟨0x13F0, 6, 8⟩,
  ⟨0x1C90, 43, -3008⟩, ⟨0x1CBD, 3, -3008⟩, ⟨0x1F08, 8, -8⟩, ⟨0x1F18, 6, -8⟩, ⟨0x1F28, 8, -8⟩,
  ⟨0x1F38, 8, -8⟩, ⟨0x1F48, 6, -8⟩, ⟨0x1F59, 1, -8⟩, ⟨0x1F5B, 1, -8⟩, ⟨0x1F5D, 1, -8⟩,
  ⟨0x1F5F, 1, -8⟩, ⟨0x1F68, 8, -8⟩, ⟨0x1FB8, 2, -8⟩, ⟨0x1FBA, 2, -74⟩, ⟨0x1FC8, 4, -86⟩,
  ⟨0x1FD8, 2, -8⟩, ⟨0x1FDA, 2, -100⟩, ⟨0x1FE8, 2, -8⟩, ⟨0x1FEA, 2, -112⟩, ⟨0x1FEC, 1, -7⟩,
  ⟨0x1FF8, 2, -128⟩, ⟨0x1FFA, 2, -126⟩, ⟨0x2132, 1, 28⟩, ⟨0x2160, 16, 16⟩, ⟨0x24B6, 26, 26⟩,
  ⟨0x2C00, 48, 48⟩, ⟨0x2C62, 1, -10743⟩, ⟨0x2C63, 1, -3814⟩, ⟨0x2C64, 1, -10727⟩,
  ⟨0x2C6D, 1, -10780⟩, ⟨0x2C6E, 1, -10749⟩, ⟨0x2C6F, 1, -10783⟩, ⟨0x2C70, 1, -10782⟩,
  ⟨0x2C7E, 2, -10815⟩, ⟨0xA77D, 1, -35332⟩, ⟨0xA78D, 1, -42280⟩, ⟨0xA7AA, 1, -42308⟩,
  ⟨0xA7AB, 1, -42319⟩, ⟨0xA7AC, 1, -42315⟩, ⟨0xA7AD, 1, -42305⟩, ⟨0xA7AE, 1, -42308⟩,
  ⟨0xA7B0, 1, -42258⟩, ⟨0xA7B1, 1, -42282⟩, ⟨0xA7B2, 1, -42261⟩, ⟨0xA7B3, 1, 928⟩, ⟨0xA7C4, 1, -48⟩,
  ⟨0xA7C5, 1, -42307⟩, ⟨0xA7C6, 1, -35384⟩, ⟨0xA7CB, 1, -42343⟩, ⟨0xA7DC, 1, -42561⟩,
  ⟨0xFF21, 26, 32⟩, ⟨0x10400, 40, 40⟩, ⟨0x104B0, 36, 40⟩, ⟨0x10570, 11, 39⟩, ⟨0x1057C, 15, 39⟩,
  ⟨0x1058C, 7, 39⟩, ⟨0x10594, 2, 39⟩, ⟨0x10C80, 51, 64⟩, ⟨0x10D50, 22, 32⟩, ⟨0x118A0, 32, 32⟩,
  ⟨0x16E40, 32, 32⟩, ⟨0x16EA0, 25, 27⟩, ⟨0x1E900, 34, 34⟩]

/-- Characters whose upper case has another lower case. -/
def upperRuns : List Run := [
  ⟨0xB5, 1, 743⟩, ⟨0x131, 1, -232⟩, ⟨0x17F, 1, -300⟩, ⟨0x1C5, 1, -1⟩, ⟨0x1C8, 1, -1⟩,
  ⟨0x1CB, 1, -1⟩, ⟨0x1F2, 1, -1⟩, ⟨0x345, 1, 84⟩, ⟨0x3C2, 1, -31⟩, ⟨0x3D0, 1, -62⟩, ⟨0x3D1, 1, -57⟩,
  ⟨0x3D5, 1, -47⟩, ⟨0x3D6, 1, -54⟩, ⟨0x3F0, 1, -86⟩, ⟨0x3F1, 1, -80⟩, ⟨0x3F5, 1, -96⟩,
  ⟨0x1C80, 1, -6254⟩, ⟨0x1C81, 1, -6253⟩, ⟨0x1C82, 1, -6244⟩, ⟨0x1C83, 2, -6242⟩,
  ⟨0x1C85, 1, -6243⟩, ⟨0x1C86, 1, -6236⟩, ⟨0x1C87, 1, -6181⟩, ⟨0x1C88, 1, 35266⟩, ⟨0x1E9B, 1, -59⟩,
  ⟨0x1FBE, 1, -7205⟩]

/-- Characters whose lower case has another upper case. -/
def lowerRuns : List Run := [
  ⟨0x1C5, 1, 1⟩, ⟨0x1C8, 1, 1⟩, ⟨0x1CB, 1, 1⟩, ⟨0x1F2, 1, 1⟩, ⟨0x3F4, 1, -60⟩, ⟨0x1E9E, 1, -7615⟩,
  ⟨0x1F88, 8, -8⟩, ⟨0x1F98, 8, -8⟩, ⟨0x1FA8, 8, -8⟩, ⟨0x1FBC, 1, -9⟩, ⟨0x1FCC, 1, -9⟩,
  ⟨0x1FFC, 1, -9⟩, ⟨0x2126, 1, -7517⟩, ⟨0x212A, 1, -8383⟩, ⟨0x212B, 1, -8262⟩]

/-- Characters whose upper case is a letter and a capital iota. -/
def iotaRuns : List Run := [
  ⟨0x1F80, 8, -120⟩, ⟨0x1F88, 8, -128⟩, ⟨0x1F90, 8, -104⟩, ⟨0x1F98, 8, -112⟩, ⟨0x1FA0, 8, -56⟩,
  ⟨0x1FA8, 8, -64⟩, ⟨0x1FB2, 1, 8⟩, ⟨0x1FB3, 1, -7202⟩, ⟨0x1FB4, 1, -7214⟩, ⟨0x1FBC, 1, -7211⟩,
  ⟨0x1FC2, 1, 8⟩, ⟨0x1FC3, 1, -7212⟩, ⟨0x1FC4, 1, -7227⟩, ⟨0x1FCC, 1, -7221⟩, ⟨0x1FF2, 1, 8⟩,
  ⟨0x1FF3, 1, -7242⟩, ⟨0x1FF4, 1, -7269⟩, ⟨0x1FFC, 1, -7251⟩]

/-- Characters whose upper case is several other characters. -/
def upperSpecial : List (Nat × List Nat) := [
  (0xDF, [0x53, 0x53]), (0x149, [0x2BC, 0x4E]), (0x1F0, [0x4A, 0x30C]),
  (0x390, [0x399, 0x308, 0x301]), (0x3B0, [0x3A5, 0x308, 0x301]), (0x587, [0x535, 0x552]),
  (0x1E96, [0x48, 0x331]), (0x1E97, [0x54, 0x308]), (0x1E98, [0x57, 0x30A]),
  (0x1E99, [0x59, 0x30A]), (0x1E9A, [0x41, 0x2BE]), (0x1F50, [0x3A5, 0x313]),
  (0x1F52, [0x3A5, 0x313, 0x300]), (0x1F54, [0x3A5, 0x313, 0x301]), (0x1F56, [0x3A5, 0x313, 0x342]),
  (0x1FB6, [0x391, 0x342]), (0x1FB7, [0x391, 0x342, 0x399]), (0x1FC6, [0x397, 0x342]),
  (0x1FC7, [0x397, 0x342, 0x399]), (0x1FD2, [0x399, 0x308, 0x300]), (0x1FD3, [0x399, 0x308, 0x301]),
  (0x1FD6, [0x399, 0x342]), (0x1FD7, [0x399, 0x308, 0x342]), (0x1FE2, [0x3A5, 0x308, 0x300]),
  (0x1FE3, [0x3A5, 0x308, 0x301]), (0x1FE4, [0x3A1, 0x313]), (0x1FE6, [0x3A5, 0x342]),
  (0x1FE7, [0x3A5, 0x308, 0x342]), (0x1FF6, [0x3A9, 0x342]), (0x1FF7, [0x3A9, 0x342, 0x399]),
  (0xFB00, [0x46, 0x46]), (0xFB01, [0x46, 0x49]), (0xFB02, [0x46, 0x4C]),
  (0xFB03, [0x46, 0x46, 0x49]), (0xFB04, [0x46, 0x46, 0x4C]), (0xFB05, [0x53, 0x54]),
  (0xFB06, [0x53, 0x54]), (0xFB13, [0x544, 0x546]), (0xFB14, [0x544, 0x535]),
  (0xFB15, [0x544, 0x53B]), (0xFB16, [0x54E, 0x546]), (0xFB17, [0x544, 0x53D])]

/-- Characters whose lower case is several characters. -/
def lowerSpecial : List (Nat × List Nat) := [
  (0x130, [0x69, 0x307])]

def Run.covers (r : Run) (n : Nat) : Bool := r.first ≤ n && n < r.first + r.count

/-- From what the run maps to back to where it starts. -/
def Run.back (r : Run) : Run := ⟨(r.first + r.distance).toNat, r.count, -r.distance⟩

/-- The character at the distance that one of the runs gives. -/
def Run.map? (runs : List Run) (n : Nat) : Option Nat := do
  let r ← runs.find? (·.covers n)
  return (n + r.distance).toNat

/-- How many places after the first capital letter of its stretch the character stands. -/
def placeIn? (ranges : List (Nat × Nat)) (n : Nat) : Option Nat := do
  let (low, _) ← ranges.find? fun (low, high) => low ≤ n && n ≤ high
  return n - low

/-- The characters that `c` maps to: those listed, or one, which is `c` itself without a mapping. -/
def mapChar (special : List (Nat × List Nat)) (map? : Nat → Option Nat) (c : Char) : List Char :=
  match special.lookup c.toNat with
  | some ns => ns.map Char.ofNat
  | none => [((map? c.toNat).map Char.ofNat).getD c]

def upperChar (c : Char) : List Char :=
  match Run.map? iotaRuns c.toNat with
  | some n => [Char.ofNat n, Char.ofNat 0x399]
  | none => mapChar upperSpecial (fun n => Run.map? (capitalRuns.map .back ++ upperRuns) n <|> do
      guard ((← placeIn? alternatingRanges n) % 2 = 1)
      return n - 1) c

def lowerChar (c : Char) : List Char :=
  mapChar lowerSpecial (fun n => Run.map? (capitalRuns ++ lowerRuns) n <|> do
    guard ((← placeIn? alternatingRanges n) % 2 = 0)
    return n + 1) c

end BlockLang.Text
