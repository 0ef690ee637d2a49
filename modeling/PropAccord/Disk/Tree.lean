import PropAccord.Text.Utf8

/-!
# Trees of files

A tree is a file with its bytes or a folder with its entries, and there are no links. Places in a tree
are lists of names from the top.
-/

namespace PropAccord

set_option autoImplicit false

inductive Tree where
  | file (bytes : Bytes)
  | folder (entries : List (Text × Tree))

namespace Tree

def entries : Tree → List (Text × Tree)
  | .file _ => []
  | .folder entries => entries

def child? (tree : Tree) (name : Text) : Option Tree := tree.entries.lookup name

def find? : List Text → Tree → Option Tree
  | [], tree => some tree
  | name :: rest, tree => (tree.child? name).bind (find? rest)

def setEntry (name : Text) (tree : Tree) : List (Text × Tree) → List (Text × Tree)
  | [] => [(name, tree)]
  | entry :: rest =>
    if entry.1 = name then (name, tree) :: rest else entry :: setEntry name tree rest

/-- The tree with something put at a place; folders on the way are made as needed. -/
def put (node : Tree) : List Text → Tree → Tree
  | [], _ => node
  | name :: rest, tree =>
    .folder (setEntry name (put node rest ((tree.child? name).getD (.folder []))) tree.entries)

def remove : List Text → Tree → Tree
  | [], tree => tree
  | name :: rest, tree =>
    match tree.child? name with
    | none => tree
    | some below =>
      if rest.isEmpty then .folder (tree.entries.filter (·.1 ≠ name))
      else .folder (setEntry name (remove rest below) tree.entries)

mutual

def files (place : List Text) : Tree → List (List Text × Bytes)
  | .file bytes => [(place, bytes)]
  | .folder entries => filesOf place entries

def filesOf (place : List Text) : List (Text × Tree) → List (List Text × Bytes)
  | [] => []
  | (name, tree) :: rest => files (place ++ [name]) tree ++ filesOf place rest

end

end Tree

end PropAccord
