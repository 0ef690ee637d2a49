import PropAccord.Path.Basic
import PropAccord.Text.Quoted
import PropAccord.Uri.Address

/-!
# File URIs

An editor names documents by URIs. The URI of an absolute path is `file://` and the path with its
UTF-8 bytes percent-encoded. Reading goes the other way: of a `file` URI the path part counts,
without host, query and fragment; every other URI is taken for a path as it stands.
-/

namespace PropAccord

set_option autoImplicit false

namespace Uri

def ofPath? (p : Path) : Option Text :=
  if p.isAbsolute then some ("file://".toList ++ Percent.encode p.text) else none

inductive Fault where
  | misplacedBrackets
  | laterVersion
  | version4
  | notAnAddress (host : Text)
  | foldsToDelimiter (authority : Text)
deriving DecidableEq, Repr

def Fault.message : Fault → Text
  | .misplacedBrackets => "Invalid IPv6 URL".toList
  | .laterVersion => "IPvFuture address is invalid".toList
  | .version4 => "An IPv4 address cannot be in brackets".toList
  | .notAnAddress host =>
    Text.quoted host ++ " does not appear to be an IPv4 or IPv6 address".toList
  | .foldsToDelimiter authority =>
    "netloc '".toList ++ authority ++
      "' contains invalid characters under NFKC normalization".toList

/-- Characters whose compatibility form holds a delimiter of URIs. -/
def foldsToDelimiter (c : Char) : Bool :=
  [0x2047, 0x2048, 0x2049, 0x2100, 0x2101, 0x2105, 0x2106, 0x2A74, 0xFE13, 0xFE16, 0xFE55, 0xFE56,
    0xFE5F, 0xFE6B, 0xFF03, 0xFF0F, 0xFF1A, 0xFF1F, 0xFF20].contains c.toNat

def afterUser (authority : Text) : Text := (authority.reverse.takeWhile (· ≠ '@')).reverse

/-- The host of an authority: what stands between the user and the colon. A host in brackets has
nothing before it, and behind it comes the colon or nothing. -/
def hostOf (authority : Text) : Except Fault Text :=
  let place := afterUser authority
  match place.dropWhile (· ≠ '[') with
  | [] => .ok (place.takeWhile (· ≠ ':'))
  | _ :: inside =>
    let behind := (inside.dropWhile (· ≠ ']')).drop 1
    if place.head? ≠ some '[' ∨ (behind ≠ [] ∧ behind.head? ≠ some ':') then
      .error .misplacedBrackets
    else .ok (inside.takeWhile (· ≠ ']'))

def checkHost (host : Text) : Except Fault Unit :=
  if host.head? = some 'v' then
    if Address.isLaterVersion host then .ok () else .error .laterVersion
  else if Address.isVersion4 host then .error .version4
  else if Address.isVersion6 host then .ok ()
  else .error (.notAnAddress host)

def checkBrackets (authority : Text) : Except Fault Unit :=
  let opened := authority.any (· == '[')
  let closed := authority.any (· == ']')
  if opened != closed then .error .misplacedBrackets
  else if !opened then .ok ()
  else do checkHost (← hostOf authority)

def checkAuthority (authority : Text) : Except Fault Unit := do
  checkBrackets authority
  if authority.any foldsToDelimiter then .error (.foldsToDelimiter authority)

/-- A URI without the control characters and spaces it begins with, and without tabs and line
ends. -/
def clean (uri : Text) : Text :=
  (uri.dropWhile fun c => c.toNat ≤ 0x20).filter fun c => c ≠ '\t' ∧ c ≠ '\r' ∧ c ≠ '\n'

def isSchemeChar (c : Char) : Bool := c.isAlphanum || c == '+' || c == '-' || c == '.'

def splitScheme (uri : Text) : Text × Text :=
  let scheme := uri.takeWhile (· ≠ ':')
  match uri.dropWhile (· ≠ ':') with
  | _ :: rest =>
    if scheme.head?.any Char.isAlpha && scheme.all isSchemeChar then
      (scheme.map Char.toLower, rest)
    else ([], uri)
  | [] => ([], uri)

def endsAuthority (c : Char) : Bool := c == '/' || c == '?' || c == '#'

def splitAuthority : Text → Text × Text
  | '/' :: '/' :: rest =>
    (rest.takeWhile (!endsAuthority ·), rest.dropWhile (!endsAuthority ·))
  | rest => ([], rest)

def toPath (uri : Text) : Except Fault Path := do
  let (scheme, rest) := splitScheme (clean uri)
  let (authority, rest) := splitAuthority rest
  checkAuthority authority
  if scheme = "file".toList then
    return Path.ofText (Percent.decode ((rest.before '#').before '?'))
  else return Path.ofText uri

end Uri

end PropAccord
