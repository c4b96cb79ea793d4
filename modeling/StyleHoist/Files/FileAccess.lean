import StyleHoist.Files.Path

/-!
Access to files, as far as a conversion needs it: a file is read as a whole and written as a
whole, and either can fail for one of a few reasons.
-/

set_option autoImplicit false
set_option relaxedAutoImplicit false

namespace StyleHoist

inductive Fault where
  | notFound
  /-- A component of a path is a file where a directory is needed. -/
  | notADirectory
  | isADirectory
  /-- A component or a whole path is longer than the system takes. -/
  | nameTooLong
  /-- A path contains the byte zero. -/
  | zeroByte
  /-- The content of a file is not UTF-8. -/
  | malformedText
  /-- Anything else, in the words of the system. -/
  | other (reason : Bytes)
  deriving DecidableEq

def Fault.message : Fault → Bytes
  | notFound => utf8 "No such file or directory (os error 2)"
  | notADirectory => utf8 "Not a directory (os error 20)"
  | isADirectory => utf8 "Is a directory (os error 21)"
  | nameTooLong => utf8 "File name too long (os error 36)"
  | zeroByte => utf8 "file name contained an unexpected NUL byte"
  | malformedText => utf8 "stream did not contain valid UTF-8"
  | other reason => reason

/-- A setting in which files are read and written. -/
class FileAccess (m : Type → Type) where
  read : Path → m (Except Fault Bytes)
  write : Path → Bytes → m (Except Fault Unit)

end StyleHoist
