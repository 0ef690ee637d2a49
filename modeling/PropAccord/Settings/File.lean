import PropAccord.Disk.Basic
import PropAccord.Settings.Basic
import PropAccord.Toml.Document

/-!
# Settings files

The settings of a workspace stand in the section `sync` of a TOML file in its root. A file that is
not there, cannot be read or is not valid counts as empty. Three things are errors: a path that
cannot name a file, an integer that is too long to be read, and values that are nested too deeply.
-/

namespace PropAccord.Settings

set_option autoImplicit false

def fileName : Text := "propsync.toml".toList

/-- The settings file of a workspace: the one that is named, or else the one in the root. -/
def place (root : Path) (file : Option Path) : Path := file.getD (root.join (.ofText fileName))

inductive Fault where
  | unreadable (f : ReadFault)
  | longInteger (digits : Nat)
  | tooDeep
deriving DecidableEq, Repr

def Fault.message : Fault → Text
  | .unreadable f => f.message
  | .longInteger digits =>
    "Exceeds the limit (".toList ++ Text.ofNat Toml.maxDigits ++
      " digits) for integer string conversion: value has ".toList ++ Text.ofNat digits ++
      " digits; use sys.set_int_max_str_digits() to increase the limit".toList
  | .tooDeep => "maximum recursion depth exceeded".toList

def load (d : Disk) (root : Path) (file : Option Path) : Except Fault Table :=
  match d.readText (place root file) with
  | .error .nullByte => .error (.unreadable .nullByte)
  | .error _ => .ok []
  | .ok text =>
    match Toml.parse text with
    | .ok table => .ok table
    | .error .invalid => .ok []
    | .error (.longInteger digits) => .error (.longInteger digits)
    | .error .tooDeep => .error .tooDeep

def sectionOf (table : Table) : Table :=
  match table.get? "sync".toList with
  | some (.table fields) => fields
  | _ => []

def loadSection (d : Disk) (root : Path) (file : Option Path) : Except Fault Table :=
  sectionOf <$> load d root file

def ofFile (d : Disk) (root : Path) (file : Option Path) : Except Fault Settings :=
  (fun fields => ofSection (.table fields)) <$> loadSection d root file

end PropAccord.Settings
