import BranchWeight.Report.Packing
import BranchWeight.Report.Table
import BranchWeight.Source.Home
import BranchWeight.Source.Listing
import BranchWeight.Text.Percent

/-!
Writing a report, step by step on the disk. All rows are computed and the output is looked for before a file is opened.
The paths in the rows are texts, so the table can be encoded, and nothing is left that could fail once a file is open.
The output may be given in a home folder; the line that tells of the report shows it as it was given. The end of its
name may ask for a packed report. An output that is an address is fetched, and the report that replaces what came from
there goes nowhere.
-/

namespace BranchWeight

/-- What is left behind: the disk, what was printed, and whether all went through. -/
structure Outcome where
  disk : Disk
  printed : String
  result : Except Fault Unit

/-- How far the work on a report has come: the disk as it is now, and what has been printed. -/
structure Progress where
  disk : Disk
  printed : String

/-- A part of the work. What it has done stays done when a fault ends it. -/
abbrev Job := EStateM Fault Progress

namespace Job

/-- Asks something of the disk. -/
def ask {α : Type} (question : Disk → Except Fault α) : Job α := fun p =>
  match question p.disk with
  | .ok answer => .ok answer p
  | .error fault => .error fault p

/-- Opens a file to write it anew: it is made if it is not there, and what it held is gone. -/
def openFile (place : Place) : Job Unit := modify fun p => { p with disk := p.disk.put place (.file []) }

/-- Fills a file that has been opened. -/
def fillFile (place : Place) (content : Bytes) : Job Unit :=
  modify fun p => { p with disk := p.disk.put place (.file content) }

def print (text : String) : Job Unit := modify fun p => { p with printed := p.printed ++ text }

/-- Does a job, starting with a disk and with nothing printed. -/
def outcome (job : Job Unit) (d : Disk) : Outcome :=
  match job ⟨d, ""⟩ with
  | .ok () p => ⟨p.disk, p.printed, .ok ()⟩
  | .error fault p => ⟨p.disk, p.printed, .error fault⟩

end Job

/-- The folder that is to hold an output has to exist. -/
def checkFolder (d : Disk) (output : Path) : Except Fault Unit := do
  match ← d.find? output.parent with
  | some (_, .folder) => return ()
  | _ => throw (.missingFolder output.parent)

/-- The place of an output whose folder exists. It must not be a folder itself. -/
def outputPlace (d : Disk) (output : Path) : Except Fault Place := do
  if output.holdsNull then throw .nullInPath
  match d.locate output with
  | .ok place => if d.isFolder place then throw (.isFolder output) else return place
  -- The folder has been found, so nothing but the length is left.
  | .error _ => throw (.nameTooLong output)

/-- The path of an output with the home folder written out; an unknown user counts as an ordinary name. -/
def outputPath (homes : Homes) (output : Path) : Except Fault Path := do
  return (← output.expandHome? homes).getD output

/-- Fetches what is at an address. Only files of this machine can be, since no address here has a host. -/
def fetch (d : Disk) (address : Address) : Except Fault Unit :=
  match address.scheme with
  | "file" =>
    let name := Percent.unescape address.rest
    if name.toList.contains '\x00' then .error .nullInPath
    else match d.look name with
      | .ok (_, .file _) => .ok ()
      | .ok (_, .folder) => .error (.badAddress (.unreadable .isFolder name))
      | .error e => .error (.badAddress (.unreadable e name))
  | "http" => .error (.badAddress .noHost)
  | "https" => .error (.badAddress .noHost)
  | "ftp" => .error (.badAddress .noServer)
  | scheme => .error (.badAddress (.unknownScheme scheme))

def outputAddress? (output : Path) : Except Fault (Option Address) :=
  match Address.ofText? output.text with
  | .ok address? => .ok address?
  | .error e => .error (.badHost e)

/-- Where a report goes, under which name, and how it is packed. -/
structure Destination where
  place : Place
  name : String
  packing : Packing

/-- The destination of a report; there is none if the output is an address. The packer has to be there in any case,
but it is not looked for before something has come from the address or the folder has been found. -/
def destination? (d : Disk) (homes : Homes) (output : Path) : Except Fault (Option Destination) := do
  match ← outputAddress? output with
  | some address =>
    fetch d address
    discard (Packing.ofText output.text output.name)
    return none
  | none =>
    let path ← outputPath homes output
    checkFolder d path
    let packing ← Packing.ofText output.text path.name
    return some ⟨← outputPlace d path, path.name, packing⟩

/-- Brings a report to its destination, if there is one. -/
def deliver (target? : Option Destination) (report : Bytes) : Job Unit :=
  match target? with
  | some target => do
    Job.openFile target.place
    Job.fillFile target.place (target.packing.write target.name report)
  | none => pure ()

/-- The line that tells of a report. -/
def reportLine (output : Path) (count : Nat) : String := output.text ++ " (rows: " ++ toString count ++ ")\n"

/-- Writes the report on some sources and tells of it. -/
def writeReport (grammar : Grammar) (homes : Homes) (root output : Path) (sources : OrderedMap String String) :
    Job Unit := do
  let rows ← Job.ask fun _ => rowsOf grammar sources
  if rows.isEmpty then throw (.noMetrics root)
  let target? ← Job.ask fun d => destination? d homes output
  deliver target? (Utf8.encode (Csv.write (table rows)))
  Job.print (reportLine output rows.length)

/-- A report on given sources. -/
def reportOn (grammar : Grammar) (d : Disk) (homes : Homes) (root output : Path)
    (sources : OrderedMap String String) : Outcome :=
  Job.outcome (writeReport grammar homes root output sources) d

/-- A report on the sources below a folder. -/
def report (grammar : Grammar) (d : Disk) (homes : Homes) (root output : Path) : Outcome :=
  Job.outcome (do writeReport grammar homes root output (← Job.ask fun d => d.gather root)) d

end BranchWeight
