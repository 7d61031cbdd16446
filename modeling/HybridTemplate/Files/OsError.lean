set_option autoImplicit false

namespace HybridTemplate.Files

inductive OsError where
  | noEntry
  | execFormat
  | permissionDenied
  | alreadyExists
  | notDirectory
  | isDirectory
  | invalidArgument
  | nameTooLong
  | tooManyLinks
deriving DecidableEq, Repr

namespace OsError

def number : OsError → Nat
  | noEntry => 2
  | execFormat => 8
  | permissionDenied => 13
  | alreadyExists => 17
  | notDirectory => 20
  | isDirectory => 21
  | invalidArgument => 22
  | nameTooLong => 36
  | tooManyLinks => 40

def description : OsError → String
  | noEntry => "No such file or directory"
  | execFormat => "Exec format error"
  | permissionDenied => "Permission denied"
  | alreadyExists => "File exists"
  | notDirectory => "Not a directory"
  | isDirectory => "Is a directory"
  | invalidArgument => "Invalid argument"
  | nameTooLong => "File name too long"
  | tooManyLinks => "Too many levels of symbolic links"

def message (e : OsError) : String := s!"{e.description} (os error {e.number})"

end OsError
end HybridTemplate.Files
