import BranchWeight.Text.Printable

/-!
Names in messages. A name stands between quotes, with its unprintable characters spelled out, so that a message
stays on one line and shows where the name ends.
-/

namespace BranchWeight

/-- Lower-case hexadecimal digits, at least `width` of them. -/
def hexPadded (width n : Nat) : List Char :=
  let digits := Nat.toDigits 16 n
  List.replicate (width - digits.length) '0' ++ digits

/-- A character that is not printed, by its code point in the shortest of the three forms. -/
def spelledOut (c : Char) : List Char :=
  if c.toNat < 0x100 then '\\' :: 'x' :: hexPadded 2 c.toNat
  else if c.toNat < 0x10000 then '\\' :: 'u' :: hexPadded 4 c.toNat
  else '\\' :: 'U' :: hexPadded 8 c.toNat

def quotedChar (mark c : Char) : List Char :=
  if c = mark || c = '\\' then ['\\', c]
  else if c = '\t' then ['\\', 't']
  else if c = '\n' then ['\\', 'n']
  else if c = '\r' then ['\\', 'r']
  else if isPrintable c then [c]
  else spelledOut c

/-- Single quotes, unless the name holds one and no double quote. -/
def quoteMark (name : List Char) : Char :=
  if name.contains '\'' && !name.contains '"' then '"' else '\''

def quoted (name : String) : String :=
  let mark := quoteMark name.toList
  String.ofList (mark :: name.toList.flatMap (quotedChar mark) ++ [mark])

end BranchWeight
