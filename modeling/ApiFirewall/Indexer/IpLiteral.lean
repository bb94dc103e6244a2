import Mathlib.Data.Nat.Notation

/-!
# Literals of IP addresses

The texts that the index accepts where it maps a member to an address: four decimal octets without
leading zeros, or groups of at most four hexadecimal digits, eight of them or fewer around one
`::`, where the last two groups can be written as four octets.
-/

namespace ApiFirewall.Indexer

/-- A number from 0 to 255 without leading zeros. -/
def isOctet (cs : List Char) : Bool :=
  !cs.isEmpty && cs.all Char.isDigit && (cs.length = 1 || cs.head? ≠ some '0') &&
    cs.length ≤ 3 && cs.foldl (fun n c => 10 * n + (c.toNat - '0'.toNat)) 0 ≤ 255

/-- Four octets with dots between them. -/
def isIpv4 (cs : List Char) : Bool :=
  let octets := cs.splitOn '.'
  octets.length = 4 && octets.all isOctet

/-- A hexadecimal digit. -/
def isHexDigit (c : Char) : Bool :=
  c.isDigit || ('a' ≤ c && c ≤ 'f') || ('A' ≤ c && c ≤ 'F')

/-- Up to four hexadecimal digits. -/
def isHextet (cs : List Char) : Bool := !cs.isEmpty && cs.length ≤ 4 && cs.all isHexDigit

/-- The pieces between colons; an empty text has none. -/
def hextets (cs : List Char) : List (List Char) := if cs.isEmpty then [] else cs.splitOn ':'

/-- How many groups the pieces stand for; the last one can be four octets. -/
def groupCount : List (List Char) → Option ℕ
  | [] => some 0
  | [last] => if isHextet last then some 1 else if isIpv4 last then some 2 else none
  | first :: rest => if isHextet first then (groupCount rest).map (· + 1) else none

/-- The texts before and after the first `::`. -/
def splitAtGap : List Char → Option (List Char × List Char)
  | ':' :: ':' :: rest => some ([], rest)
  | c :: rest => (splitAtGap rest).map fun sides => (c :: sides.1, sides.2)
  | [] => none

/-- Eight groups, or fewer and a gap that stands for the others. -/
def isIpv6 (cs : List Char) : Bool :=
  match splitAtGap cs with
  | none => groupCount (hextets cs) = some 8
  | some (before, after) =>
    (hextets before).all isHextet &&
      (groupCount (hextets after)).any fun n => (hextets before).length + n ≤ 7

/-- The text is a literal of an address. -/
def isIpLiteral (s : String) : Bool := isIpv4 s.toList || isIpv6 s.toList

example : ["10.0.0.1", "::", "::1", "2001:db8::ff00:42:8329", "1:2:3:4:5:6:7::", "::ffff:10.0.0.1",
    "0:0:0:0:0:0:0:1"].all isIpLiteral = true := by decide +kernel

example : ["", "unknown", "10.0.0", "10.0.0.256", "010.0.0.1", "10.0.0.1:80", ":::", "1::2::3", "1:2",
    "12345::", "1:2:3:4:5:6:7:8::", "fe80::1%eth0", "10.0.0.1::"].all
      (fun s => !isIpLiteral s) = true := by decide +kernel

end ApiFirewall.Indexer
