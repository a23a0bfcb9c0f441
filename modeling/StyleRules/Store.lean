import StyleRules.Path
import StyleRules.Text.Utf8

namespace StyleRules

/-- What stands at a path. -/
inductive Entry where
  | directory
  | file (bytes : Bytes)
  deriving DecidableEq, Repr

/-- Why a path cannot be used as wished. -/
inductive StoreFault where
  | missing
  | isDirectory
  | notDirectory
  | taken
  deriving DecidableEq, Repr

def StoreFault.message : StoreFault → Text
  | missing => "no such file or directory".toList
  | isDirectory => "is a directory".toList
  | notDirectory => "not a directory".toList
  | taken => "file exists".toList

/-- Files and directories by their path. The root is always a directory. -/
structure Store where
  entries : List (Path × Entry) := []
  deriving Repr

namespace Store

def entryAt? (s : Store) (p : Path) : Option Entry :=
  if p = .root then some .directory else (s.entries.find? (·.1 = p)).map (·.2)

def isDirectory (s : Store) (p : Path) : Bool := s.entryAt? p == some .directory

def isFile (s : Store) (p : Path) : Bool :=
  match s.entryAt? p with
  | some (.file _) => true
  | _ => false

/-- Whether a directory on the way to a path is a file. -/
def blocked (s : Store) (p : Path) : Bool :=
  (List.range p.parts.length).any fun n => s.isFile ⟨p.parts.take n⟩

/-- Why nothing is found at a path. -/
def absence (s : Store) (p : Path) : StoreFault :=
  if s.blocked p then .notDirectory else .missing

def read (s : Store) (p : Path) : Except StoreFault Bytes :=
  match s.entryAt? p with
  | some (.file bytes) => .ok bytes
  | some .directory => .error .isDirectory
  | none => .error (s.absence p)

/-- Puts an entry at a path in place of what stood there. -/
def put (s : Store) (p : Path) (e : Entry) : Store :=
  { entries := s.entries.filter (·.1 ≠ p) ++ [(p, e)] }

/-- Writes a file; its directory has to be there. -/
def write (s : Store) (p : Path) (bytes : Bytes) : Except StoreFault Store :=
  if s.isDirectory p then .error .isDirectory
  else if s.isDirectory p.parent then .ok (s.put p (.file bytes))
  else .error (s.absence p)

/-- Makes a directory and every directory on the way to it that is missing. -/
def makeDirectories (s : Store) (p : Path) : Except StoreFault Store :=
  if s.isFile p then .error .taken
  else if s.blocked p then .error .notDirectory
  else
    let missing := (List.range (p.parts.length + 1)).map (fun n => Path.mk (p.parts.take n))
      |>.filter fun q => !s.isDirectory q
    .ok { entries := s.entries ++ missing.map fun q => (q, .directory) }

/-- Takes away a file, or a directory with all that is in it. -/
def remove (s : Store) (p : Path) : Except StoreFault Store :=
  match s.entryAt? p with
  | some _ => .ok { entries := s.entries.filter fun e => !e.1.isWithin p }
  | none => .error (s.absence p)

/-- The paths below a directory, in the order of their names. -/
def below (s : Store) (directory : Path) : List Path :=
  sortBy Path.atMost ((s.entries.map (·.1)).filter (·.isBelow directory))

/-- A file name of 32 hexadecimal digits. -/
def scratchName (n : Nat) (suffix : Text) : Text :=
  let digits := Nat.toDigits 16 n
  List.replicate (32 - digits.length) '0' ++ digits ++ suffix

/-- A path in a directory at which nothing stands yet. -/
def freshPath (s : Store) (directory : Path) (suffix : Text) : Path :=
  let candidates := (List.range (s.entries.length + 1)).map fun n =>
    directory.child (scratchName n suffix)
  (candidates.find? fun p => (s.entryAt? p).isNone).getD (directory.child (scratchName 0 suffix))

end Store

end StyleRules
