/-!
# File faults

Why a file cannot be read or written, in the words of the operating system.
-/

namespace NetScribe.Files

/-- Why a file operation fails. -/
inductive Fault where
  | notFound
  | notDirectory
  | isDirectory
  | nameTooLong
  | nulByte
  | notText
  /-- Anything else, in words. -/
  | other (message : String)
  deriving DecidableEq, Inhabited, Repr

/-- The reason in words. -/
def Fault.message : Fault → String
  | notFound => "No such file or directory (os error 2)"
  | notDirectory => "Not a directory (os error 20)"
  | isDirectory => "Is a directory (os error 21)"
  | nameTooLong => "File name too long (os error 36)"
  | nulByte => "file name contained an unexpected NUL byte"
  | notText => "stream did not contain valid UTF-8"
  | other message => message

end NetScribe.Files
