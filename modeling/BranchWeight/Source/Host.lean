import BranchWeight.Text.Pieces
import BranchWeight.Text.Quoted

/-!
Hosts. In a text that starts with two slashes a host follows, up to the next slash, question mark or number sign.
Where it holds brackets, what they enclose has to be a numeric address of the long kind or one of a later kind, and
nothing may stand beside them but a user in front and a colon with its number behind. A host must not hold a character
that stands for a mark of an address.
-/

namespace BranchWeight

namespace Host

inductive HostError where
  | misplacedBracket
  | notNumeric (host : String)
  | shortInBrackets
  | laterKind
  | disguisedMark (host : String)
deriving DecidableEq, Repr

def HostError.message : HostError → String
  | .misplacedBracket => "Invalid IPv6 URL"
  | .notNumeric host => quoted host ++ " does not appear to be an IPv4 or IPv6 address"
  | .shortInBrackets => "An IPv4 address cannot be in brackets"
  | .laterKind => "IPvFuture address is invalid"
  | .disguisedMark host => "netloc '" ++ host ++ "' contains invalid characters under NFKC normalization"

/-- The characters that are compatible with a mark or with a text that holds one. -/
def disguisedMarks : List Nat :=
  [0x2047, 0x2048, 0x2049, 0x2100, 0x2101, 0x2105, 0x2106, 0x2a74, 0xfe13, 0xfe16, 0xfe55, 0xfe56, 0xfe5f, 0xfe6b,
    0xff03, 0xff0f, 0xff1a, 0xff1f, 0xff20]

def isHexDigit (c : Char) : Bool := c.isDigit || ('a' ≤ c && c ≤ 'f') || ('A' ≤ c && c ≤ 'F')

/-- A decimal number up to 255 without leading zeros. -/
def isOctet (digits : List Char) : Bool :=
  !digits.isEmpty && digits.all Char.isDigit && digits.length ≤ 3 &&
    (digits.length = 1 || digits.head? ≠ some '0') &&
    digits.foldl (fun n c => n * 10 + (c.toNat - '0'.toNat)) 0 ≤ 255

/-- Four octets with dots between them. -/
def isShortNumeric (text : List Char) : Bool :=
  let octets := pieces '.' text
  octets.length = 4 && octets.all isOctet

def isGroup (digits : List Char) : Bool := !digits.isEmpty && digits.all isHexDigit && digits.length ≤ 4

/-- The groups on one side of a gap; the gap may reach to the end. -/
def besideGap (groups : List (List Char)) : List (List Char) := if groups = [[]] then [] else groups

/-- Eight groups, or fewer with one gap where an empty one stands between others. -/
def areGroups (groups : List (List Char)) : Bool :=
  let inner := groups.tail.dropLast
  match (inner.filter List.isEmpty).length with
  | 0 => groups.length = 8 && groups.all isGroup
  | 1 =>
    let gap := 1 + (inner.takeWhile (!·.isEmpty)).length
    let given := besideGap (groups.take gap) ++ besideGap (groups.drop (gap + 1))
    given.length ≤ 7 && given.all isGroup
  | _ => false

/-- The last group may be written as four octets, which count as two groups. -/
def isLongNumeric (text : List Char) : Bool :=
  let groups := pieces ':' text
  match groups.getLast? with
  | some last =>
    3 ≤ groups.length &&
      if last.contains '.' then isShortNumeric last && areGroups (groups.dropLast ++ [['0'], ['0']])
      else areGroups groups
  | none => false

/-- A zone may follow a long address after a percent sign. -/
def isLongWithZone (text : List Char) : Bool :=
  match pieces '%' text with
  | [address] => isLongNumeric address
  | [address, zone] => isLongNumeric address && !zone.isEmpty
  | _ => false

/-- A version in hexadecimal digits, a dot, and something after it. -/
def isLaterKind (text : List Char) : Bool :=
  let version := text.takeWhile isHexDigit
  match text.dropWhile isHexDigit with
  | '.' :: rest => !version.isEmpty && !rest.isEmpty
  | _ => false

/-- What follows the user: all after the last at sign. -/
def afterUser (host : List Char) : List Char := (host.reverse.takeWhile (· ≠ '@')).reverse

/-- What has to be numeric: the inside of the brackets, behind which at most a colon goes on, or all up to a colon if
the brackets stand in the user. -/
def numericPart (host : List Char) : Except HostError (List Char) :=
  match host with
  | '[' :: rest =>
    match (rest.dropWhile (· ≠ ']')).drop 1 with
    | [] => .ok (rest.takeWhile (· ≠ ']'))
    | ':' :: _ => .ok (rest.takeWhile (· ≠ ']'))
    | _ => .error .misplacedBracket
  | _ => if host.contains '[' then .error .misplacedBracket else .ok (host.takeWhile (· ≠ ':'))

def checkNumeric : List Char → Except HostError Unit
  | 'v' :: rest => if isLaterKind rest then .ok () else .error .laterKind
  | text =>
    if isShortNumeric text then .error .shortInBrackets
    else if isLongWithZone text then .ok ()
    else .error (.notNumeric (String.ofList text))

def checkBrackets (host : List Char) : Except HostError Unit :=
  if host.contains '[' != host.contains ']' then .error .misplacedBracket
  else if !host.contains '[' then .ok ()
  else numericPart (afterUser host) >>= checkNumeric

/-- Checks the host of a text that may start with one. -/
def check (text : List Char) : Except HostError Unit :=
  match text with
  | '/' :: '/' :: rest => do
    let host := rest.takeWhile fun c => c ≠ '/' && c ≠ '?' && c ≠ '#'
    checkBrackets host
    if host.any fun c => disguisedMarks.contains c.toNat then throw (.disguisedMark (String.ofList host))
  | _ => .ok ()

end Host

end BranchWeight
