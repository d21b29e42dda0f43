import Qirc.Text.Packed
import Qirc.Text.Utf8

/-!
# Quoted text

A quoted text stands between double quotes. Printable characters stand for themselves, the quote
and the backslash are escaped, and every other character or stray byte is written by a short escape
or by its number in hexadecimal.
-/

namespace Qirc.Text

/-- Printable runs outside ASCII. -/
def printableRuns : List Nat := unpack <|
  "GfmbBBmcgehbbbubPhbBmcBycdbCdiBbegrwbHkbBwcChcDxoChcBxcpbBccbblfBfjCwbGfbicccwbhbbdecjccceibe" ++
  "cbfczcdbgeccwbhbcbcbccbbfeccddbhebbhrkdbjbdbwbhbcbfckbdbdcbpecmhhbdbicccwbhbcbfcjcccdhdecbfcs" ++
  "kcbgddbedcbbbcdcdddmefddbecbgbovfnbdbxbqcjbdbehcbdcbceckhwbdbxbkbfcjbdbehcgcbeckbdmnbdbBzbdbg" ++
  "eqcBabdbsdybjbbchdbegbbbigkcdmCgeBdBlcbbbfbybbbxcfbbbhbkceBgCubBkeBnbBkbpbnBlHqbbfbcOnbechbbb" ++
  "ecBpbecBhbechbbbecpbCfbecCpcBgdBagDicgcYqbBcdDlhwjyjumnbdbcmDqckgkgoblgDlhBrfCskBfbmemebdBqcf" ++
  "lBseBagldCkcCnbBdclgkgocBfBxCzdBvbEmiCidpdCihBrcliBrfUocgcBmcgcibbbbbbbBfcCbbpbocgbtcdbjryiBv" ++
  "rccBbbndBhpBhpFkeZnzlvCRscBgbNlfBtbbfbcCehcoyjhbhbhbhbhbhbhbhbEwBiBabDlmIgBamfClbDicDzfBrbDqb" ++
  "DgmBvbBRIrdCdjNkuHciHvfcbbbfyChdkgCeiCsimgEmlBedDableBhbCdjockcDzyBckgcgcgjhbhbCieEwckgQNsmxe" ++
  "BxMNcOccEcBmhmffBabfbbbcbcbEvqRdcCchbBgBqgBzbtbeefbFfeHidgcgcgcddhbhnccmbBabtbcbpcoBiEtfdeBtd" ++
  "DkbndbBvBuFaBddBxpBceBkjBefBrfBebBleoBqGcckgBkeBkeBoiCalmbpbhbcblbpbhbcCpLzjwkiygbBqbjCrgcbbB" ++
  "sbcdbcxbCuijBwtbcfBhdBbfbCmCeeucBybcfibdbBdcdekhjhCmBgBnemjCcdBdcBbfBahemhDcCvCdBznBzhBuikLiB" ++
  "fbBqbdccCxBriBqwBaBmBcuxjDaeBkjCkbfnzhkgCbbsiBnjDsbulsbBvCkhbbbebpblgChfkgebicccwbhbcbfbkcccd" ++
  "cbgbfhchdfFjDobfBeCuikGkCccBmBiCrlkgntCggkCcBbcpexHdCiDwDfmicbcibcbBebccmjkCsicBuclBbCuiDfnCv" ++
  "hkJmjbBtbokBddBgcwboCvhbcbBsdbbcbjikggbcbBlbcbghkLyzhrbBpdBcDibpBynBJnDyEhbflHoDXkDvnBPgqwFYg" ++
  "WlMUbVxhBfbkeDdbkgBecgkCskkbhbvftBAmDnDxCxeCfhrCmflcoJCaiBVqBqjNFrebhbcbLfpbBddcboeiPgDKuEdfn" ++
  "djhkceGYyBucxjEmCiJmkBncCwiEivCsEsumumDjjzFfDhbCtbccbcccebmbbbhbCnbecibhbBcbebfbbdhbNccLgcBBa" ++
  "pfbpBQmBfggIfhbrchbcbffCkBhbEiBtdockecMiBfrCgfbRwBqBCohbebcbpbHpcqBpCyekecBEfCqCyCjHmebBbbcbb" ++
  "cbbkbebbbbgbebbbbbbdbcbbcbbbbbbbbbbcbbcebhbebebbbkbrfdbfbrCacKkBseDwmpcpbpbBlkGsCeBdnBsejhcog" ++
  "FyBLwerdndEpeDrgmebpmeCeikgBoiBeccDaNcmocndjhBubhioejhjhFrbCdBlkBNqCLFcBgGDugIocINqoLBlEPjUwC" ++
  "FyHHzfGFgBONHgJg"

/-- Letters, marks, numbers, punctuation, symbols and the ASCII space. -/
def isPrintable (c : Char) : Bool :=
  let n := c.toNat
  if n < 0x80 then 0x20 ≤ n && n < 0x7F
  else inRuns printableRuns n

/-- A number in hexadecimal with at least `width` digits. -/
def hexDigits (width n : Nat) : String :=
  let digits := Nat.toDigits 16 n
  String.ofList (List.replicate (width - digits.length) '0' ++ digits)

def quoteChar (c : Char) : String :=
  if c = '"' then "\\\""
  else if c = '\\' then "\\\\"
  else if isPrintable c then c.toString
  else
    match strayByte? c, c.toNat with
    | some b, _ => "\\x" ++ hexDigits 2 b.toNat
    | none, 7 => "\\a"
    | none, 8 => "\\b"
    | none, 12 => "\\f"
    | none, 10 => "\\n"
    | none, 13 => "\\r"
    | none, 9 => "\\t"
    | none, 11 => "\\v"
    | none, n =>
      if n < 0x20 ∨ n = 0x7F then "\\x" ++ hexDigits 2 n
      else if n < 0x10000 then "\\u" ++ hexDigits 4 n
      else "\\U" ++ hexDigits 8 n

def quote (s : String) : String :=
  "\"" ++ String.join (s.toList.map quoteChar) ++ "\""

end Qirc.Text
