import BranchWeight.Source.Host
import BranchWeight.Source.SystemError
import BranchWeight.Text.Blank

/-!
Addresses. A text that starts with a known scheme and a colon is an address and not a path. When the scheme is looked
for, controls and spaces in front do not count, nor do tabs and line ends anywhere; what the address asks for is then
read off the text as it is written.
-/

namespace BranchWeight

/-- The scheme, in lower case, and what follows the colon. -/
structure Address where
  scheme : String
  rest : String
deriving DecidableEq, Repr

/-- Why nothing comes from an address. -/
inductive AddressError where
  | unknownScheme (scheme : String)
  | noHost
  | noServer
  | unreadable (error : SystemError) (name : String)
deriving DecidableEq, Repr

def AddressError.reason : AddressError → String
  | .unknownScheme scheme => "unknown url type: " ++ scheme
  | .noHost => "no host given"
  | .noServer => "ftp error: no host given"
  | .unreadable error name => error.message name

def AddressError.message (error : AddressError) : String := "<urlopen error " ++ error.reason ++ ">"

namespace Address

def schemes : List String :=
  ["file", "ftp", "git", "git+ssh", "gopher", "hdl", "http", "https", "imap", "mms", "nfs", "nntp", "prospero", "rsync",
    "rtsp", "rtspu", "sftp", "shttp", "sip", "sips", "snews", "svn", "svn+ssh", "tel", "telnet", "wais", "ws", "wss"]

def isSchemeChar (c : Char) : Bool := c.isAlphanum || c = '+' || c = '-' || c = '.'

/-- The characters of a text that count when its scheme is looked for. -/
def counted (text : String) : List Char :=
  (text.toList.dropWhile fun c => c.toNat ≤ 0x20).filter fun c => c ≠ '\t' && c ≠ '\n' && c ≠ '\r'

/-- Cuts a text at its first colon. -/
def cut (text : List Char) : List Char × List Char :=
  (text.takeWhile (· ≠ ':'), (text.dropWhile (· ≠ ':')).drop 1)

/-- A scheme, if the text has one, and what follows it. -/
def split (text : List Char) : Option String × List Char :=
  let (front, rest) := cut text
  if text.contains ':' && front.head?.any Char.isAlpha && front.all isSchemeChar then
    (some (String.ofList (front.map Char.toLower)), rest)
  else (none, text)

/-- The text up to its last number sign. -/
def withoutFragment (text : List Char) : List Char :=
  if text.contains '#' then ((text.reverse.dropWhile (· ≠ '#')).drop 1).reverse else text

/-- The scheme and the rest as they are written. -/
def read (text : String) : Address :=
  let (front, rest) := cut (withoutFragment (trimBlank text).toList)
  ⟨String.ofList (front.map Char.toLower), String.ofList rest⟩

/-- The address that a text is, if it is one. -/
def ofText? (text : String) : Except Host.HostError (Option Address) := do
  let (scheme?, rest) := split (counted text)
  Host.check rest
  return if scheme?.any schemes.contains then some (read text) else none

end Address

end BranchWeight
