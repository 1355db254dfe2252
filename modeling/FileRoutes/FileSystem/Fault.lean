import FileRoutes.Text.Basic

/-!
# Why an operation on the file system fails

Each fault is a cause of its own.  Most of them carry the operating system's number and are shown
with it; the others are found before the system is asked, or in what it answered.
-/

namespace FileRoutes

/-- The cause of a failed operation on the file system. -/
inductive Fault where
  /-- A name on the way, or the entry itself, does not exist. -/
  | missing
  /-- The permission bits forbid it. -/
  | denied
  /-- There is an entry already. -/
  | exists
  /-- Something other than a directory stands where one is needed. -/
  | notDirectory
  /-- A directory stands where none is allowed. -/
  | isDirectory
  /-- The entry is not of the kind that the operation is about. -/
  | unsuitable
  /-- A name or a path has too many bytes. -/
  | nameTooLong
  /-- Too many links had to be followed. -/
  | tooManyLinks
  /-- A path holds a zero byte. -/
  | zeroByte
  /-- What is to be copied is no file. -/
  | notRegular
  /-- A name is not UTF-8. -/
  | nameNotText
  /-- The contents of a file are not UTF-8. -/
  | contentsNotText
  deriving DecidableEq

namespace Fault

/-- The description of a fault. -/
def message : Fault → Text
  | missing => "No such file or directory (os error 2)"
  | denied => "Permission denied (os error 13)"
  | «exists» => "File exists (os error 17)"
  | notDirectory => "Not a directory (os error 20)"
  | isDirectory => "Is a directory (os error 21)"
  | unsuitable => "Invalid argument (os error 22)"
  | nameTooLong => "File name too long (os error 36)"
  | tooManyLinks => "Too many levels of symbolic links (os error 40)"
  | zeroByte => "file name contained an unexpected NUL byte"
  | notRegular => "the source path is neither a regular file nor a symlink to a regular file"
  | nameNotText => "file name is not valid UTF-8"
  | contentsNotText => "stream did not contain valid UTF-8"

end Fault

end FileRoutes
