import Qirc.Text.Packed

/-!
# Display width

How many cells of a terminal a text takes: wide and full-width characters of East Asia take two,
controls and combining marks none, all others one. A cluster is as wide as its first code point
that has a width.
-/

namespace Qirc.Text

/-!
## Clusters

What a reader takes for one character may be several code points: a base with marks, a syllable
block, a flag, a joined pictograph. A cluster is the longest run that no boundary rule of the
Unicode text segmentation divides (Unicode 15); the classes are tables of runs of code points.
-/

/-- Marks that extend what is before them. -/
def extenders : List Nat := unpack <|
  "BDoEiKphKdBtbbbcbcbbCulBwvqbDxhcgccbeBjbBeBbDnlCgjjbyebjbdbfBrdCiiBqybBgCdbbbeiebdhkcBdbCgbbb" ++
  "ceibjbkcBabccCfbececcddbBecdblcCfbefbcebucwgbbCgbbcbeibhdkcBebChbbbmbjbBobdbCdbbdfdbehclcBdbC" ++
  "gbcbcbdbfchclcBccCfcbbceibjbkcBdbCubebcdbbibDdbchmiDubcjlhCvcBbbbbbbCdobfbcflbBkjbDyebgbccczc" ++
  "edqenbccgbpbBBbdBKkdBdcBecBecCmcbhibcljbBtdbbEncBibEodecjbgdIlccbCgbbhbbbbcigkcbBwBfBxeBwhbbf" ++
  "bBojmcBgeccbdCebbcdbbdCgiccFwdbnbhebgbdcHqCmUebHnBhEOcdFlbDsBgVigEbcBSQeebkBgcDccKmbdbebzcfbF" ++
  "vcBasnbBmizlBudBwbceccBnbCpgccccmbibBvbBzbbdccfcbbBqcibJebcbebBDZsbBCjqqqOccXhbIsbFtfCMgdbcfe" ++
  "BodebGjcWbeOxcDcdCslBxeEtbCcpBpbcckdBxecchbCjdBkfbiCkbmcCajkecbDrdcbbcgbcbGbbdivcCfcbbbbwbohd" ++
  "fHnicdbbxbDdbcgbbcbbcbcJbbcegcbcBbcDhicbbcEcbbbcgbbDxdcebfJzjbcJlbkcbbebFoeccebBgkBogceibjgcd" ++
  "BunbcPqhbgbbDewchbcbcEsgdbbcbhbbCucdbbbNjclcCaffbbbHYrbgpURqfChhBOibCleDdbBDBkcGYzBucxUwbbdef" ++
  "iichBeeFsdCYdCdeByibobwfbpCAihbrchbcbfDwbGehOlbCjeToeBMehEfhEBgfBSXYuDsEyJg"

/-- Marks with a width of their own that belong to what is before them. -/
def spacingMarks : List Nat := unpack <|
  "DKtbCdbcdiebcBycChcgcccCcbCgdCobCgdibbcCbcCibgcccEkbbcddbdCadCjeCjcCgbbcbcccbcBnbocChcfdbdCbc" ++
  "CycghtcClbExbFicClbGvbjczcBsbCMqbBebEzbhibcNiecdecbgIqcCgbbbvgFpbCcbbfbcCjbBebeccbCibcdbbdcBw" ++
  "iicGpbvbCAShccbDkcByqFmcBvbBwceccdEgcccybGbbccfbJdcbcbcbbBLXjbbbExbBtdecElbycChbBwdjcnbDpddcb" ++
  "bGodBfcChbbecccducIbdicdbEdcgbbcbbcbJecgecbEjdicbbEfbbcgbEhbKbdjbJofbcebcbbbFmdieebDgbBdcCkbP" ++
  "rbobEcbhbcbIffecbbNmcmbBwcicbbBEIhCdEacBKXobgb"

/-- Marks that belong to what is after them. -/
def leadingMarks : List Nat := unpack <|
  "CHcgIhbBxbOucDcbBRnbDUGkbpbJkcCVrbbbJobCvgBAybRbb"

/-- Controls and separators. -/
def controls : List Nat := unpack <|
  "akbcbsDrBhnbCBmbGUrbDAqbccyhBxqDGHjbJgmTUaqBZQueHWxiBTKZlBgDsEyJgFIm"

/-- Pictographs that a joiner can join. -/
def pictographs : List Nat := unpack <|
  "GnbebLYrbmbIibwbDmgpcOdcmbDrbCsbzledHrbIxckbjbCgebgbmbEkkEoclbbbbgbdbgbkcpbcbebbbedbblfBtdjbo" ++
  "bobOicRvdtcBzbebBVubmbXdbbbGMRmJwndBfbCigmcobcksCfBbpkbubcjbejQsfMgiKgBwEyEmmDhBrmeCeikgBoiBe" ++
  "DemBvbkbQzJwBNi"

inductive ClusterClass where
  | other
  | control
  | extender
  | joiner
  | spacing
  | leading
  | regional
  | pictograph
  | initial
  | vowel
  | final
  | openSyllable
  | closedSyllable
  deriving DecidableEq, Repr, Inhabited

def clusterClass (c : Char) : ClusterClass :=
  let n := c.toNat
  if n = 10 ∨ n = 13 ∨ inRuns controls n then .control
  else if n < 0xA9 then .other
  else if n = 0x200D then .joiner
  else if inRuns extenders n then .extender
  else if inRuns spacingMarks n then .spacing
  else if inRuns leadingMarks n then .leading
  else if 0x1F1E6 ≤ n ∧ n ≤ 0x1F1FF then .regional
  else if (0x1100 ≤ n ∧ n ≤ 0x115F) ∨ (0xA960 ≤ n ∧ n ≤ 0xA97C) then .initial
  else if (0x1160 ≤ n ∧ n ≤ 0x11A7) ∨ (0xD7B0 ≤ n ∧ n ≤ 0xD7C6) then .vowel
  else if (0x11A8 ≤ n ∧ n ≤ 0x11FF) ∨ (0xD7CB ≤ n ∧ n ≤ 0xD7FB) then .final
  else if 0xAC00 ≤ n ∧ n ≤ 0xD7A3 then
    if (n - 0xAC00) % 28 = 0 then .openSyllable else .closedSyllable
  else if inRuns pictographs n then .pictograph
  else .other

/-- What a cluster under construction looks like from its end. -/
structure ClusterEnd where
  last : ClusterClass
  /-- Whether it ends in a pictograph with extenders and, if the last one is a joiner, that. -/
  joinable : Bool
  /-- Whether it ends in an odd number of regional letters. -/
  openFlag : Bool

/-- Whether the next code point belongs to the cluster. -/
def ClusterEnd.takes (e : ClusterEnd) (next : ClusterClass) : Bool :=
  if e.last = .control ∨ next = .control then false
  else
    match e.last, next with
    | .initial, .initial | .initial, .vowel | .initial, .openSyllable | .initial, .closedSyllable =>
      true
    | .openSyllable, .vowel | .openSyllable, .final | .vowel, .vowel | .vowel, .final => true
    | .closedSyllable, .final | .final, .final => true
    | _, .extender | _, .joiner | _, .spacing => true
    | .leading, _ => true
    | .joiner, .pictograph => e.joinable
    | .regional, .regional => e.openFlag
    | _, _ => false

def ClusterEnd.after (e : Option ClusterEnd) (c : ClusterClass) : ClusterEnd :=
  { last := c
    joinable := c = .pictograph ||
      (match e with
        | some e => e.joinable && e.last ≠ .joiner && (c = .extender || c = .joiner)
        | none => false)
    openFlag := c = .regional && !(match e with
      | some e => e.openFlag
      | none => false) }

/-- Clusters, after one that is under construction. -/
def clustersFrom (open_ : List Char) (e : ClusterEnd) : List Char → List (List Char)
  | [] => [open_.reverse]
  | c :: cs =>
    let next := clusterClass c
    if e.takes next || (open_.head? = some '\r' && c = '\n') then
      clustersFrom (c :: open_) (ClusterEnd.after (some e) next) cs
    else open_.reverse :: clustersFrom [c] (ClusterEnd.after none next) cs

def clusters : List Char → List (List Char)
  | [] => []
  | c :: cs => clustersFrom [c] (ClusterEnd.after none (clusterClass c)) cs

/-- Wide and full-width characters (Unicode 15). -/
def wide : List Nat := unpack <|
  "GLkDsGSocncHiedbcbUbcvcBymBrbtbnbicrcfcibfbvbhcbbebcbhbecBcbBjbbbedbbCjdybobBHbcBzbebBFeBabDl" ++
  "mIgBameClcDicDzfBrbDqbDgmBvbBoiKKeCmBGUfdCdBThBdYtQNsMQmTsBEekwBjbtbeFtDsExhBQKnflcoJCaiBVqBq" ++
  "jNFrebhbcbLfpbBddcboeiPgXCybHubHibckDxdnBsejhcogFyBhmjbCsbwmBrefmrdbdCtbbbHfcClnebysbBacnbDiD" ++
  "hBwCsgbddcdeelchjItmebKxBvbkbHdEindjhBubhioejhjBXnDSYocDSYo"

/-- Controls and combining marks. -/
def weightless : List Nat := unpack <|
  "aBgDrBhnbWwEiKpfYxbIljBNwbdbJebmcCKpdBTzfXzbBwBfGajWqCmUdfyhChgDsBhEOcdJeBgZpcBSQeebkBgcDccTa" ++
  "sBGGsqHzbJpdccTpbOmfEGecFxlBxeBIgcCfcBphdfBHDjfBLXbBucxUwfdgiichBeeFsdFFfhbrchbcbfDwbDDgh"

def charWidth (c : Char) : Nat :=
  let n := c.toNat
  if inRuns weightless n then 0
  else if n < 0x300 then 1
  else if inRuns wide n then 2
  else 1

def clusterWidth (cs : List Char) : Nat := ((cs.map charWidth).find? (0 < ·)).getD 0

def width (s : String) : Nat := (clusters s.toList).foldl (fun n k => n + clusterWidth k) 0

/-- The clusters at the front that fit into a width. -/
def fitting (room : Nat) : List (List Char) → List Char
  | [] => []
  | k :: ks =>
    if clusterWidth k ≤ room then k ++ fitting (room - clusterWidth k) ks else []

/-- A text that is too wide for its room is cut and ends in three dots, three cells before the end
of the room. -/
def shortened (room : Nat) (s : String) : String :=
  if width s ≤ room then s
  else String.ofList (fitting (room - 6) (clusters s.toList)) ++ "..."

end Qirc.Text
