import BranchWeight.Number.HalfUp
import BranchWeight.Source.Address
import BranchWeight.Source.Path
import BranchWeight.Text.Utf8

/-!
What can go wrong, and how it is said.
-/

namespace BranchWeight

inductive Fault where
  /-- Bytes that are no text. -/
  | undecodable (error : Utf8.DecodeError)
  /-- A successor that no vertex has as its id. -/
  | successorOutOfRange (id : Nat)
  /-- A number that cannot be rounded to the places asked for. -/
  | unrounded (error : Binary64.RoundingError)
  /-- A metric that is not registered, or that its group did not produce. -/
  | unknownName (name : String)
  | missingRoot (root : Path)
  | noSources (root : Path)
  | noMetrics (root : Path)
  /-- A folder where a file is needed. -/
  | isFolder (path : Path)
  /-- The folder that is to hold the output does not exist. -/
  | missingFolder (folder : Path)
  /-- The path, or a component of it, has more bytes than the system allows. -/
  | nameTooLong (path : Path)
  /-- A name that the system would cut short. -/
  | nullInPath
  /-- A text that starts like an address, with a host that cannot be one. -/
  | badHost (error : Host.HostError)
  /-- An address that nothing comes from. -/
  | badAddress (error : AddressError)
  /-- The packer that an output asks for is not there. -/
  | noPacker (name : String)
  | endOfInput
  | unknownHome
deriving DecidableEq, Repr

def Fault.message : Fault → String
  | .undecodable e => e.message
  | .successorOutOfRange id =>
    if id < twoPow 63 then "bytearray index out of range" else "cannot fit 'int' into an index-sized integer"
  | .unrounded e => e.message
  | .unknownName name => quoted name
  | .missingRoot root => "Source root " ++ root.text ++ " does not exist."
  | .noSources root => "No *.scala files found in " ++ root.text ++ "."
  | .noMetrics root => "No metrics computed for " ++ root.text ++ "."
  | .isFolder path => SystemError.isFolder.message path.text
  | .missingFolder folder => "Cannot save file into a non-existent directory: '" ++ folder.text ++ "'"
  | .nameTooLong path => SystemError.nameTooLong.message path.text
  | .nullInPath => "embedded null byte"
  | .badHost e => e.message
  | .badAddress e => e.message
  | .noPacker name =>
    "`Import " ++ name ++ "` failed.  Use pip, conda, or your preferred package management tool to install the " ++
      name ++ " package."
  | .endOfInput => "EOF when reading a line"
  | .unknownHome => "Could not determine home directory."

end BranchWeight
