import PropAccord.Path.Basic

/-!
# Test files

Fixtures and specifications are never edited. They are told by their path below the root: a folder
`test`, `tests` or `__tests__`, or `.test.` or `.spec.` inside a name. Backslashes count as slashes.
-/

namespace PropAccord.Path

set_option autoImplicit false

/-- A path with slashes only, and exactly one in front. -/
def slashed (relative : Text) : Text :=
  '/' :: (relative.map fun c => if c = '\\' then '/' else c).dropWhile (· == '/')

def testMarks : List Text :=
  [".test.".toList, ".spec.".toList, "/__tests__/".toList, "/test/".toList, "/tests/".toList]

def isTestText (relative : Text) : Bool :=
  testMarks.any fun mark => Text.contains mark (slashed relative)

/-- The path, as seen from the root, names a test file. -/
def isTestFile (cwd : List Text) (root p : Path) : Bool := isTestText (relativeText cwd root p)

end PropAccord.Path
