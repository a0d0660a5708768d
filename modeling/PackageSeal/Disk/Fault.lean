/-!
# What file access can report

The causes for which reading, writing or listing fails, and the wording of each. Those that the
system reports carry its number.
-/

namespace PackageSeal

/-- Why an access failed. -/
inductive IoError where
  | notFound
  | alreadyExists
  | notDirectory
  | isDirectory
  | notEmpty
  | nameTooLong
  | linkLoop
  | invalidArgument
  /-- The path holds a NUL. -/
  | nulInPath
  /-- A content read as text is not UTF-8. -/
  | notUtf8Content
  /-- A listed name is not UTF-8; the path is the readable form. -/
  | notUtf8Path (shown : String)
  /-- The receiver took no more octets. -/
  | refused
  /-- A content ended before its declared size. -/
  | shortContent (name : String) (declared copied : Nat)
  /-- A cause known by its wording only. -/
  | other (text : String)
deriving DecidableEq

namespace IoError

/-- The wording of a cause. -/
def message : IoError → String
  | notFound => "No such file or directory (os error 2)"
  | alreadyExists => "File exists (os error 17)"
  | notDirectory => "Not a directory (os error 20)"
  | isDirectory => "Is a directory (os error 21)"
  | invalidArgument => "Invalid argument (os error 22)"
  | nameTooLong => "File name too long (os error 36)"
  | notEmpty => "Directory not empty (os error 39)"
  | linkLoop => "Too many levels of symbolic links (os error 40)"
  | nulInPath => "file name contained an unexpected NUL byte"
  | notUtf8Content => "stream did not contain valid UTF-8"
  | notUtf8Path shown => s!"PathBuf contains invalid UTF-8: {shown}"
  | refused => "failed to write whole buffer"
  | shortContent name declared copied => s!"{name}: expected {declared} bytes, read {copied}"
  | other text => text

end IoError

end PackageSeal
