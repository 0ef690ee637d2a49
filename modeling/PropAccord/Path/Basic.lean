import PropAccord.Text.Basic

/-!
# Paths

A path is an anchor and its segments. Empty segments and single dots vanish when a path is read;
double dots stay, since what they lead to depends on the tree. A path may begin at the working
directory, at the root, or at the alternative root that is written with exactly two slashes.
-/

namespace PropAccord

set_option autoImplicit false

inductive Anchor where
  | relative
  | root
  | doubleRoot
deriving DecidableEq, Repr

def Anchor.text : Anchor → Text
  | .relative => []
  | .root => ['/']
  | .doubleRoot => ['/', '/']

structure Path where
  anchor : Anchor
  segments : List Text
deriving DecidableEq, Repr

namespace Path

/-- The segments of a text between slashes, without the empty ones and the single dots. -/
def segmentsOf (t : Text) : List Text :=
  (t.splitOn '/').filter fun segment => segment ≠ [] ∧ segment ≠ ['.']

def ofText (t : Text) : Path where
  anchor := match (t.takeWhile (· == '/')).length with
    | 0 => .relative
    | 2 => .doubleRoot
    | _ => .root
  segments := segmentsOf t

/-- The written form of a path; the empty relative path is a dot. -/
def text (p : Path) : Text :=
  if p.anchor = .relative ∧ p.segments = [] then ['.']
  else p.anchor.text ++ Text.join ['/'] p.segments

def isAbsolute (p : Path) : Bool := p.anchor ≠ .relative

/-- A null character stands in the path, so it cannot name a file. -/
def hasNull (p : Path) : Bool := p.segments.any fun segment => segment.any (· == '\x00')

def join (p q : Path) : Path :=
  if q.isAbsolute then q else ⟨p.anchor, p.segments ++ q.segments⟩

def name (p : Path) : Text := p.segments.getLast?.getD []

/-- The last dot of the name and what follows it, unless the dot is the first or last character. -/
def suffix (p : Path) : Text :=
  let reversed := p.name.reverse
  let extension := reversed.takeWhile (· ≠ '.')
  match reversed.dropWhile (· ≠ '.') with
  | _ :: _ :: _ => if extension.isEmpty then [] else '.' :: extension.reverse
  | _ => []

/-- Follows segments from a place given by the segments that lead to it, the nearest first. -/
def follow (place : List Text) : List Text → List Text
  | [] => place
  | segment :: rest =>
    if segment = ['.', '.'] then follow (place.drop 1) rest else follow (segment :: place) rest

/-- The segments from the root to where the path leads, when no name on it is a link. -/
def resolve (cwd : List Text) (p : Path) : List Text :=
  (follow (if p.isAbsolute then [] else cwd.reverse) p.segments).reverse

def below? : List Text → List Text → Option (List Text)
  | [], rest => some rest
  | _ :: _, [] => none
  | a :: base, b :: rest => if a = b then below? base rest else none

/-- The path as seen from `root` when it lies there, and as it is otherwise. A path with a null
character lies nowhere. -/
def relativeText (cwd : List Text) (root p : Path) : Text :=
  if root.hasNull || p.hasNull then p.text
  else match below? (root.resolve cwd) (p.resolve cwd) with
    | some segments => text ⟨.relative, segments⟩
    | none => p.text

end Path

end PropAccord
