import Noeta.Lib.Rfc3986
import Mathlib.Data.Char

/-!
# URLs

The URL arithmetic of the HTTP layer: where scheme, authority, path and query of a URL stand, its
origin, and the absolute URL a reference resolves to. A URL is the list of its characters.
-/

namespace Noeta.Ext

open Noeta.Lib.Rfc3986

/-! ## Splitting -/

/-- The parts before and after the first occurrence of a character. -/
def splitOnce (sep : Char) (t : Text) : Option (Text × Text) :=
  match beyond [sep] t with
  | _ :: after => some (upTo [sep] t, after)
  | [] => none

/-- The parts before and after the last occurrence of a character. -/
def rsplitOnce (sep : Char) (t : Text) : Option (Text × Text) :=
  (splitOnce sep t.reverse).map fun (after, before) => (before.reverse, after.reverse)

/-- The parts before and after the first `://`. -/
def splitScheme : Text → Option (Text × Text)
  | ':' :: '/' :: '/' :: rest => some ([], rest)
  | c :: t => (splitScheme t).map fun (before, after) => (c :: before, after)
  | [] => none

def toAsciiLowercase (t : Text) : Text := t.map Char.toLower

/-- The characters with the `White_Space` property. -/
def isWhitespace (c : Char) : Bool :=
  let n := c.toNat
  (0x09 ≤ n && n ≤ 0x0D) || n = 0x20 || n = 0x85 || n = 0xA0 || n = 0x1680 ||
    (0x2000 ≤ n && n ≤ 0x200A) || n = 0x2028 || n = 0x2029 || n = 0x202F || n = 0x205F || n = 0x3000

def trim (t : Text) : Text := ((t.dropWhile isWhitespace).reverse.dropWhile isWhitespace).reverse

/-- The value of some digits, where it fits. -/
def parseDigits (t : Text) : Option UInt16 :=
  if t ≠ [] ∧ t.all Char.isDigit then
    let n := t.foldl (fun n c => 10 * n + (c.toNat - '0'.toNat)) 0
    if n < UInt16.size then some (UInt16.ofNat n) else none
  else none

/-- `str::parse::<u16>`, which takes a leading plus sign. -/
def parsePort : Text → Option UInt16
  | '+' :: t => parseDigits t
  | t => parseDigits t

/-! ## Structure -/

def validScheme : Text → Bool
  | [] => false
  | c :: t => c.isAlpha && t.all fun c => c.isAlphanum || c = '+' || c = '-' || c = '.'

def schemeOf (url : Text) : Option Text :=
  match splitScheme url with
  | some (scheme, _) => if validScheme scheme then some scheme else none
  | none => none

def hasScheme (reference : Text) : Bool := (schemeOf reference).isSome

def afterScheme (url : Text) : Text :=
  match schemeOf url with
  | some scheme => url.drop (scheme.length + 3)
  | none => url

def authorityOf (url : Text) : Text :=
  match schemeOf url with
  | some scheme => upTo ['/', '?', '#'] (url.drop (scheme.length + 3))
  | none => []

/-- The authority without its userinfo. -/
def hostPort (url : Text) : Text :=
  match rsplitOnce '@' (authorityOf url) with
  | some (_, after) => after
  | none => authorityOf url

def hostOf (url : Text) : Text :=
  let host := hostPort url
  if ']' ∈ host then upTo [']'] host ++ [']']
  else
    match rsplitOnce ':' host with
    | some (before, _) => before
    | none => host

def portOf (url : Text) : Option UInt16 :=
  let host := hostPort url
  let afterHost := if ']' ∈ host then (beyond [']'] host).drop 1 else host
  (rsplitOnce ':' afterHost).bind fun (_, p) => parsePort p

def pathOf (url : Text) : Text :=
  let rest := afterScheme url
  let fromPath :=
    match schemeOf url with
    | some _ =>
      match beyond ['/', '?', '#'] rest with
      | '/' :: path => '/' :: path
      | _ => ['/']
    | none => rest
  match upTo ['?', '#'] fromPath with
  | [] => ['/']
  | path => path

/-! ## Origins -/

def defaultPort (scheme : Text) : Option UInt16 :=
  if toAsciiLowercase scheme = "http".toList ∨ toAsciiLowercase scheme = "ws".toList then some 80
  else if toAsciiLowercase scheme = "https".toList ∨ toAsciiLowercase scheme = "wss".toList then
    some 443
  else none

/-- A port in decimal. -/
def showPort (port : UInt16) : Text := Nat.toDigits 10 port.toNat

/-- The scheme is the protected one of its pair. -/
def isSecure (url : Text) : Bool :=
  match schemeOf url with
  | some scheme =>
    let scheme := toAsciiLowercase scheme
    scheme = "https".toList || scheme = "wss".toList
  | none => false

def originOf (url : Text) : Text :=
  let scheme := toAsciiLowercase ((schemeOf url).getD [])
  let host := toAsciiLowercase (hostOf url)
  match (portOf url).filter fun p => some p ≠ defaultPort scheme with
  | some port => scheme ++ "://".toList ++ host ++ [':'] ++ showPort port
  | none => scheme ++ "://".toList ++ host

def sameOrigin (a b : Text) : Bool := originOf a = originOf b

/-! ## Resolution -/

def originPrefix (url : Text) : Text :=
  match schemeOf url with
  | some scheme => scheme ++ "://".toList ++ authorityOf url
  | none => []

def splitQuery (reference : Text) : Text × Option Text :=
  match splitOnce '?' reference with
  | some (path, query) => (path, some query)
  | none => (reference, none)

def stripFragment (reference : Text) : Text :=
  match splitOnce '#' reference with
  | some (before, _) => before
  | none => reference

/-- The loop over the segments of a path, with what it has kept. -/
def keepSegments : List Text → List Text → List Text
  | [], out => out
  | segment :: rest, out =>
    let last := rest = []
    if segment = ['.'] then keepSegments rest (if last then out ++ [[]] else out)
    else if segment = ['.', '.'] then
      keepSegments rest (if last then out.dropLast ++ [[]] else out.dropLast)
    else keepSegments rest (out ++ [segment])

def removeDotSegments (path : Text) : Text :=
  match path with
  | '/' :: body => '/' :: ['/'].intercalate (keepSegments (body.splitOn '/') [])
  | body => ['/'].intercalate (keepSegments (body.splitOn '/') [])

def mergePaths (basePath reference : Text) : Text :=
  match rsplitOnce '/' basePath with
  | some (before, _) => before ++ ['/'] ++ reference
  | none => '/' :: reference

/-- The `path?query` tail of an absolute URL. -/
def afterPathStart (url : Text) : Text := beyond ['/', '?'] (afterScheme url)

/-- A path and a query after what stands before them. -/
def withQuery (before path : Text) : Option Text → Text
  | some query => before ++ path ++ ['?'] ++ query
  | none => before ++ path

def normalize (url : Text) : Text :=
  let (path, query) := splitQuery (afterPathStart url)
  withQuery (originPrefix url) (removeDotSegments (if path = [] then ['/'] else path)) query

def resolveReference (base reference : Text) : Text :=
  let reference := trim (stripFragment reference)
  if hasScheme reference then normalize reference
  else
    let base := stripFragment base
    match reference with
    | '/' :: '/' :: rest => normalize ((schemeOf base).getD "https".toList ++ "://".toList ++ rest)
    | [] => base
    | '?' :: query => withQuery (originPrefix base) (pathOf base) (some query)
    | reference =>
      let (refPath, refQuery) := splitQuery reference
      let merged := if refPath.head? = some '/' then refPath else mergePaths (pathOf base) refPath
      withQuery (originPrefix base) (removeDotSegments merged) refQuery

example : resolveReference "http://a/b/c/d;p?q".toList "../../g".toList = "http://a/g".toList := by
  decide +kernel

end Noeta.Ext
