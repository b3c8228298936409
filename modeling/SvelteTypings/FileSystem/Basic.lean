import SvelteTypings.Failure

/-!
# File systems

What the program needs to know of files. A file system is given by three questions about paths, and
by a bound on how many files can be reached through them: every run that follows imports ends
because it loads no more files than that.
-/

namespace SvelteTypings

structure FileSystem where
  /-- There is a file or directory at the path. -/
  present : Path → Bool
  isDirectory : Path → Bool
  /-- The text of a file, or why it cannot be read. -/
  read : Path → Except String String
  /-- No more normalised paths than this can be read, however many spellings each of them has. -/
  capacity : Nat

namespace FileSystem

def isFile (fs : FileSystem) (p : Path) : Bool := fs.present p && !fs.isDirectory p

/-- The text of a file, `none` if there is none. -/
def textOf? (fs : FileSystem) (p : Path) : Except Failure (Option String) :=
  if fs.isFile p then
    match fs.read p with
    | .ok text => .ok (some text)
    | .error reason => .error (.io reason)
  else .ok none

end FileSystem

end SvelteTypings
