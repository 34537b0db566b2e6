import BranchWeight.Text.Quoted

/-!
What the system answers when it cannot follow a name.
-/

namespace BranchWeight

inductive SystemError where
  | notFound
  | notFolder
  | isFolder
  | nameTooLong
deriving DecidableEq, Repr

def SystemError.text : SystemError → String
  | .notFound => "[Errno 2] No such file or directory"
  | .notFolder => "[Errno 20] Not a directory"
  | .isFolder => "[Errno 21] Is a directory"
  | .nameTooLong => "[Errno 36] File name too long"

def SystemError.message (error : SystemError) (name : String) : String := error.text ++ ": " ++ quoted name

end BranchWeight
