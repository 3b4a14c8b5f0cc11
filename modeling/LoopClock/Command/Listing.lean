import LoopClock.Command.Run

/-! Files kept in memory, with the answers a system gives to paths into them. -/
namespace LoopClock.Command

/-- A place in the file system as the names that lead to it from the root. -/
abbrev Path := List String

/-- The files there are, and what has been printed so far. -/
structure Listing where
  files : List (Path × String)
  out : String := ""
  err : String := ""

namespace Listing

def notFound : String := "No such file or directory (os error 2)"
def notDirectory : String := "Not a directory (os error 20)"
def isDirectory : String := "Is a directory (os error 21)"
def noSpace : String := "No space left on device (os error 28)"
def nameTooLong : String := "File name too long (os error 36)"

/-- Where relative paths start. -/
def workingDirectory : Path := ["tmp", "work"]

/-- Directories that are there from the start, besides those that lead to the working one. -/
def systemDirectories : List String :=
  ["bin", "boot", "dev", "etc", "home", "lib", "media", "mnt", "opt", "proc", "root", "run", "sbin",
   "srv", "sys", "usr", "var"]

inductive Device where
  | null
  | full
  | out
  | err
  deriving DecidableEq, Repr

def device? (p : Path) : Option Device :=
  [(["dev", "null"], .null), (["dev", "zero"], .null), (["dev", "stdin"], .null),
   (["dev", "full"], .full), (["dev", "stdout"], .out), (["dev", "stderr"], .err)].lookup p

/-- What is at a place. -/
inductive Entry where
  | file (text : String)
  | directory
  | device (d : Device)
  deriving DecidableEq, Repr

def isDir (l : Listing) (p : Path) : Bool :=
  p.isPrefixOf workingDirectory || systemDirectories.any (p == [·])
    || l.files.any fun f => p.length < f.1.length && p.isPrefixOf f.1

def lookup? (l : Listing) (p : Path) : Option Entry :=
  if l.isDir p then some .directory
  else match device? p with
    | some d => some (.device d)
    | none => (l.files.lookup p).map .file

def splitSlashes (cs : List Char) : List (List Char) :=
  match cs with
  | [] => [[]]
  | c :: cs =>
    match c == '/', splitSlashes cs with
    | true, parts => [] :: parts
    | false, part :: parts => (c :: part) :: parts
    | false, [] => [[c]]

/-- The names on a path. -/
def names (path : String) : List String :=
  ((splitSlashes path.toList).map String.ofList).filter (· ≠ "")

/-- Goes from directory to directory. The parent of the root is the root. -/
def follow (l : Listing) (dir : Path) : List String → Except String Path
  | [] => .ok dir
  | name :: rest =>
    if name = "." then l.follow dir rest
    else if name = ".." then l.follow dir.dropLast rest
    else if 255 < name.utf8ByteSize then .error nameTooLong
    else match l.lookup? (dir ++ [name]) with
      | some .directory => l.follow (dir ++ [name]) rest
      | some _ => .error notDirectory
      | none => .error notFound

/-- What a path leads to. -/
inductive Goal where
  | directory
  /-- The name `name` in a directory, written with a slash behind it or without. -/
  | named (dir : Path) (name : String) (slash : Bool)
  deriving DecidableEq, Repr

/-- All names of a path but the last one have to be those of directories. -/
def goal (l : Listing) (path : String) : Except String Goal := do
  if path = "" then throw notFound
  if 4096 ≤ path.utf8ByteSize then throw nameTooLong
  let names := names path
  match names.getLast? with
  | none => return .directory
  | some last =>
    let dir ← l.follow (if path.startsWith "/" then [] else workingDirectory) names.dropLast
    if last = "." ∨ last = ".." then return .directory
    else return .named dir last (path.endsWith "/")

/-- Only a directory can be read under a name with a slash behind it. -/
def read (l : Listing) (path : String) : Except String String := do
  match ← l.goal path with
  | .directory => throw isDirectory
  | .named dir name slash =>
    if 255 < name.utf8ByteSize then throw nameTooLong
    match l.lookup? (dir ++ [name]) with
    | none => throw notFound
    | some .directory => throw isDirectory
    | some (.file text) => if slash then throw notDirectory else return text
    | some (.device _) => if slash then throw notDirectory else return ""

def content? (l : Listing) (path : String) : Option String :=
  match l.read path with
  | .ok text => some text
  | .error _ => none

/-- Where something can be written. No file can have a slash behind its name. -/
def target (l : Listing) (path : String) : Except String Path := do
  match ← l.goal path with
  | .directory | .named _ _ true => throw isDirectory
  | .named dir name false =>
    if 255 < name.utf8ByteSize then throw nameTooLong
    if l.lookup? (dir ++ [name]) = some .directory then throw isDirectory
    return dir ++ [name]

/-- Puts a text in the place of a file, or hands it to a device. A full device takes no text but
the empty one. -/
def put (l : Listing) (p : Path) (text : String) : Except String Listing :=
  match device? p with
  | none => .ok { l with files := l.files.filter (·.1 != p) ++ [(p, text)] }
  | some .null => .ok l
  | some .full => if text = "" then .ok l else .error noSpace
  | some .out => .ok { l with out := l.out ++ text }
  | some .err => .ok { l with err := l.err ++ text }

def write (l : Listing) (path text : String) : Except String Listing := do
  l.put (← l.target path) text

/-- The files with these names in the working directory. -/
def ofFiles (files : List (String × String)) : Listing :=
  ⟨files.map fun f => (workingDirectory ++ names f.1, f.2), "", ""⟩

def access : Access (StateM Listing) :=
  let write (path text : String) : StateM Listing (Except String Unit) := modifyGet fun l =>
    match l.write path text with
    | .ok l' => (.ok (), l')
    | .error e => (.error e, l)
  { create := fun path => write path ""
    read := fun path => return (← get).read path
    write
    print := fun text => modify fun l => { l with out := l.out ++ text }
    warn := fun text => modify fun l => { l with err := l.err ++ text } }

end Listing

/-- Runs the command on files kept in memory. -/
def runOn (l : Listing) (args : List String) : UInt32 × Listing := (run Listing.access args).run l

end LoopClock.Command
