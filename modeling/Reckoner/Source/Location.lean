import Reckoner.Text.Percent
import Reckoner.Text.Split

/-!
# Locations

Handlers are chosen by the scheme of a URL, and the one of the file system asks for the name of a
file there; how a URL is read, and what else it has, is left open (`Url`). The reading below is as
close as the handlers here need it.

    scheme ':' ['//' [user '@'] host [':' port]] path ['?' query] ['#' fragment]

A text that starts with a scheme and a colon names a place by scheme, host and path; user, port,
query and fragment do not matter here. A path that starts with a slash is taken apart at its slashes
and its dot segments are resolved; any other is opaque and kept as it stands. A text without a scheme
is no location. Hosts are not looked into beyond the characters that none has, so that numbers out of
range in addresses and names in other alphabets pass, and drive letters are segments like any other.
-/

namespace Reckoner

/-- URLs of some kind, and what is asked of them. -/
class Url (υ : Type) where
  read? : String → Option υ
  /-- In lower case. -/
  scheme : υ → String
  /-- The name of the file at a URL of this host. -/
  fileName? : υ → Option String

/-- A place that can be opened by a handler of its scheme. -/
structure Location where
  /-- In lower case. -/
  scheme : String
  host : Option String
  /-- Percent-encoded. -/
  path : String
  deriving DecidableEq, Repr

namespace Location

/-- The schemes of the network, whose locations always have a host. -/
def networkSchemes : List String :=
  ["http", "https", "ws", "wss", "ftp"]

/-- The text without controls and spaces at its ends, and without tabs and line ends. -/
def clean (cs : List Char) : List Char :=
  let isEdge (c : Char) : Bool := c.toNat ≤ 0x20
  ((cs.dropWhile isEdge).reverse.dropWhile isEdge).reverse.filter
    fun c => c ≠ '\t' && c ≠ '\n' && c ≠ '\r'

/-- The scheme in lower case, and what follows its colon. -/
def splitScheme? (cs : List Char) : Option (String × List Char) :=
  let (name, rest) := cs.span fun c => c.isAlphanum || c = '+' || c = '-' || c = '.'
  match name, rest with
  | c :: _, ':' :: rest =>
    if c.isAlpha then some (String.ofList (name.map Char.toLower), rest) else none
  | _, _ => none

/-- What stands before query and fragment. -/
def beforeQuery (cs : List Char) : List Char :=
  cs.takeWhile fun c => c ≠ '?' && c ≠ '#'

/-- Whether a character of an opaque path stands for itself. -/
def isPlain (c : Char) : Bool :=
  0x20 ≤ c.toNat && c.toNat < 0x7F

/-- Whether a character of a path with segments stands for itself. -/
def isPathChar (c : Char) : Bool :=
  isPlain c && !([' ', '"', '#', '<', '>', '?', '\x60', '\x7b', '\x7d'].contains c)

/-- A segment with its encoded dots as dots. -/
def plainDots : List Char → List Char
  | [] => []
  | c :: rest =>
    match c, rest with
    | '%', '2' :: e :: rest =>
      if e = 'e' || e = 'E' then '.' :: plainDots rest else c :: plainDots ('2' :: e :: rest)
    | c, rest => c :: plainDots rest

/-- Resolves dot segments: one dot is dropped, two take the segment before with them. A path that
ends in either ends in a slash. `done` holds the segments before, the last of them first. -/
def resolveDots (done : List (List Char)) : List (List Char) → List (List Char)
  | [] => done.reverse
  | s :: rest =>
    let last := if rest.isEmpty then [[]] else []
    if plainDots s = ['.', '.'] then resolveDots (last ++ done.tail) rest
    else if plainDots s = ['.'] then resolveDots (last ++ done) rest
    else resolveDots (s :: done) rest

/-- The segments of what follows the first slash of a path. -/
def segments (cs : List Char) : List (List Char) :=
  resolveDots [] (Text.split '/' (Text.Percent.encode isPathChar cs))

/-- The path with the given segments. -/
def joined (segments : List (List Char)) : String :=
  String.ofList ('/' :: ['/'].intercalate segments)

/-- Whether no host has the character. -/
def isForbidden (c : Char) : Bool :=
  c.toNat ≤ 0x20 || c.toNat = 0x7F || "#/:<>?@[\\]^|%".toList.contains c

/-- A host, decoded and in lower case; an address in brackets stays as it is. -/
def readHost? (cs : List Char) : Option String :=
  if cs.head? = some '[' && cs.getLast? = some ']' then some (String.ofList cs)
  else (Text.Percent.decodeText? cs).bind fun host =>
    if host.toList.any isForbidden then none else some (host.map Char.toLower)

/-- Whether the digits are a port; none are as well. -/
def isPort (cs : List Char) : Bool :=
  cs.all Char.isDigit && (String.ofList cs).toNat?.all (· < 0x10000)

/-- The host that stands behind the user and in front of the port, if the port is one. A colon in
brackets belongs to an address. -/
def hostOf? (authority : List Char) : Option (List Char) :=
  let place := (authority.reverse.takeWhile (· ≠ '@')).reverse
  let address := if place.head? = some '[' then place.takeWhile (· ≠ ']') else []
  let (host, port) := (place.drop address.length).span (· ≠ ':')
  if isPort (port.drop 1) then some (address ++ host) else none

/-- Splits what follows two slashes in front of the next one. -/
def splitAuthority (cs : List Char) : List Char × List Char :=
  cs.span (· ≠ '/')

/-- A location of the file system. The local host is no host, a path without a slash starts with
one, and slashes in a row at its front are one. -/
def ofFile? (cs : List Char) : Option Location := do
  let (host, path) := match cs with
    | '/' :: '/' :: rest => splitAuthority rest
    | rest => ([], rest)
  let host ← readHost? host
  let path := segments (path.dropWhile (· = '/'))
  return ⟨"file", if host = "" || host = "localhost" then none else some host,
    joined (path.dropWhile List.isEmpty)⟩

/-- A location of the network, if it has a host. Its path is never empty. -/
def ofNetwork? (scheme : String) (cs : List Char) : Option Location := do
  let (authority, path) := splitAuthority (cs.dropWhile (· = '/'))
  let host ← (hostOf? authority).bind readHost?
  if host = "" then none else some ⟨scheme, some host, joined (segments (path.drop 1))⟩

/-- A location of any other scheme, whose host is opaque as well. -/
def ofOther? (scheme : String) (cs : List Char) : Option Location :=
  match cs with
  | '/' :: '/' :: rest => do
    let (authority, path) := splitAuthority rest
    let host ← hostOf? authority
    if host.any fun c => c ≠ '%' && isForbidden c then none
    else some ⟨scheme, some (String.ofList host),
      if path.isEmpty then "" else joined (segments (path.drop 1))⟩
  | '/' :: rest => some ⟨scheme, none, joined (segments rest)⟩
  | rest => some ⟨scheme, none, String.ofList (Text.Percent.encode isPlain rest)⟩

/-- Reads a location. In locations of files and of the network a backslash is a slash. -/
def read? (text : String) : Option Location :=
  match splitScheme? (clean text.toList) with
  | none => none
  | some (scheme, rest) =>
    let rest := beforeQuery rest
    let slashed := rest.map fun c => if c = '\\' then '/' else c
    if scheme = "file" then ofFile? slashed
    else if networkSchemes.contains scheme then ofNetwork? scheme slashed
    else ofOther? scheme rest

/-- The name of the file at a location of this host. -/
def fileName? (l : Location) : Option String :=
  if l.host = none then Text.Percent.decodeText? l.path.toList else none

instance : Url Location := ⟨read?, scheme, fileName?⟩

end Location

end Reckoner
