/-
# The cookie jar

Parsing of `Set-Cookie` values, the jar, and the `Cookie` header for a request. Strings are lists of
characters. The jar is kept in the order of its keys.

An entry of the jar remembers who set the cookie and with what `Domain` attribute, which the code
does not. Storing a cookie is one step: the jar is unlocked between the cookies of one response.
-/

import Mathlib.Algebra.Group.Int.Defs
import Mathlib.Algebra.Group.Nat.Defs
import Mathlib.Data.List.DropRight

namespace SmartOs.Net.Cookies

abbrev Str := List Char

/-! ## Text -/

/-- `char::is_whitespace`. -/
def isWhitespace (c : Char) : Bool :=
  let n := c.toNat
  (9 ≤ n && n ≤ 13) || n == 0x20 || n == 0x85 || n == 0xA0 || n == 0x1680 ||
    (0x2000 ≤ n && n ≤ 0x200A) || n == 0x2028 || n == 0x2029 || n == 0x202F || n == 0x205F ||
    n == 0x3000

variable (s : Str)

def trimStart : Str := s.dropWhile isWhitespace

def trim : Str := (trimStart s).rdropWhile isWhitespace

def toAsciiLowercase : Str := s.map Char.toLower

/-- What stands before and after the first `c`. -/
def splitOnce (c : Char) : Str → Option (Str × Str)
  | [] => none
  | d :: s =>
    if d = c then some ([], s) else (splitOnce c s).map fun parts => (d :: parts.1, parts.2)

/-- The number that digits stand for; there has to be one at least. -/
def parseDigits : Option ℕ :=
  if s ≠ [] ∧ s.all Char.isDigit then some (s.foldl (fun n c => 10 * n + (c.toNat - 48)) 0)
  else none

/-- `str::parse::<i64>`. -/
def parseI64 : Option ℤ :=
  let parsed : Option ℤ :=
    match s with
    | '-' :: digits => (parseDigits digits).map fun n => -(n : ℤ)
    | '+' :: digits => (parseDigits digits).map fun n => (n : ℤ)
    | digits => (parseDigits digits).map fun n => (n : ℤ)
  parsed.filter fun n => -2 ^ 63 ≤ n ∧ n < 2 ^ 63

/-! ## Cookies -/

structure Cookie where
  name : Str
  value : Str
  domain : Str
  path : Str
  expiresS : Option ℕ
  secure : Bool
  httpOnly : Bool
  deriving DecidableEq

namespace Cookie

def isExpired (c : Cookie) (nowSecs : ℕ) : Bool :=
  match c.expiresS with
  | some d => d ≤ nowSecs
  | none => false

def matchDomain (c : Cookie) (host : Str) : Bool :=
  let h := toAsciiLowercase host
  let d := toAsciiLowercase c.domain
  if d = [] then true
  else if h = d then true
  else if d <:+ h then
    let prefixLen := h.length - d.length
    if prefixLen = 0 then true else h.getD (prefixLen - 1) ' ' = '.'
  else false

def matchPath (c : Cookie) (reqPath : Str) : Bool :=
  if c.path = [] ∨ c.path = ['/'] then true
  else if reqPath = c.path then true
  else if c.path <+: reqPath then
    let next := reqPath.drop c.path.length
    c.path.getLast? = some '/' ∨ next.head? = some '/'
  else false

end Cookie

structure Key where
  domain : Str
  path : Str
  name : Str
  deriving DecidableEq

def Cookie.key (c : Cookie) : Key := ⟨c.domain, c.path, c.name⟩

/-- The order of strings, and of keys by their fields. -/
def Key.before (k l : Key) : Bool :=
  k.domain < l.domain ∨ k.domain = l.domain ∧
    (k.path < l.path ∨ k.path = l.path ∧ k.name < l.name)

/-! ## Parsing -/

def defaultPath (reqPath : Str) : Str :=
  if reqPath.head? ≠ some '/' then ['/']
  else
    let front := (reqPath.rdropWhile (· ≠ '/')).dropLast
    if front = [] then ['/'] else front

/-- The name, in lower case, and the value of each attribute. -/
def attributes (attrs : Str) : List (Str × Str) :=
  ((attrs.splitOn ';').map trim).filterMap fun attr =>
    if attr = [] then none
    else
      match splitOnce '=' attr with
      | some (k, v) => some (toAsciiLowercase (trim k), trim v)
      | none => some (toAsciiLowercase attr, [])

/-- What a `Domain` attribute names: its value without leading dots and in lower case. -/
def namedDomain (v : Str) : Option Str :=
  let d := toAsciiLowercase (v.dropWhile (· = '.'))
  if d ≠ [] then some d else none

/-- The effect of an attribute on the cookie so far. -/
def applyAttribute (now : ℕ) (c : Cookie) (attr : Str × Str) : Cookie :=
  let (k, v) := attr
  if k = "domain".toList then
    match namedDomain v with
    | some d => { c with domain := d }
    | none => c
  else if k = "path".toList then if v ≠ [] then { c with path := v } else c
  else if k = "max-age".toList then
    match parseI64 v with
    | some n =>
      if n ≤ 0 then { c with expiresS := some 0 }
      else { c with expiresS := some ((now + n.toNat) % 2 ^ 64) }
    | none => c
  else if k = "expires".toList then
    if c.expiresS = none then { c with expiresS := some ((now + 3600) % 2 ^ 64) } else c
  else if k = "secure".toList then { c with secure := true }
  else if k = "httponly".toList then { c with httpOnly := true }
  else c

def unquote (value : Str) : Str :=
  if 2 ≤ value.length ∧ value.head? = some '"' ∧ value.getLast? = some '"' then
    (value.drop 1).dropLast
  else value

/-- The part before the attributes, and the attributes. -/
def headAndAttrs (raw : Str) : Str × Str := (splitOnce ';' raw).getD (raw, [])

def parseSetCookie (now : ℕ) (raw host reqPath : Str) : Option Cookie :=
  let raw := trim raw
  if raw = [] then none
  else
    let (head, attrs) := headAndAttrs raw
    match splitOnce '=' head with
    | none => none
    | some (name, value) =>
      let name := trim name
      if name = [] then none
      else
        let cookie : Cookie :=
          { name
            value := unquote (trim value)
            domain := toAsciiLowercase host
            path := defaultPath reqPath
            expiresS := none
            secure := false
            httpOnly := false }
        some ((attributes attrs).foldl (applyAttribute now) cookie)

def looksLikeCookieStart : Bool :=
  match splitOnce '=' (trimStart s) with
  | none => false
  | some (key, _) => ';' ∉ key ∧ key.all fun c => c.isAlphanum || c = '_' || c = '-' || c = '.'

/-- The entries of a header from `current` on, which has been read. -/
def splitEntries (current : Str) : Str → List Str
  | [] => [trim current]
  | c :: rest =>
    if c = ',' ∧ looksLikeCookieStart rest then trim current :: splitEntries [] rest
    else splitEntries (current ++ [c]) rest

def splitSetCookieEntries (raw : Str) : List Str := (splitEntries [] raw).filter (· ≠ [])

/-! ## The jar -/

/-- A cookie with the host that set it and the `Domain` attribute it was set with, if any. -/
structure Entry where
  cookie : Cookie
  setter : Str
  domainAttr : Option Str
  deriving DecidableEq

structure Jar where
  entries : List Entry
  /-- `uptime_secs` -/
  now : ℕ

def Jar.empty : Jar := ⟨[], 0⟩

/-- `BTreeMap::insert`. -/
def insertEntry (e : Entry) : List Entry → List Entry
  | [] => [e]
  | f :: entries =>
    if f.cookie.key = e.cookie.key then e :: entries
    else if e.cookie.key.before f.cookie.key then e :: f :: entries
    else f :: insertEntry e entries

/-- The domain that the attribute names, if it is a `Domain` attribute. -/
def attrDomain (attr : Str × Str) : Option Str :=
  if attr.1 = "domain".toList then namedDomain attr.2 else none

/-- The domain that the last `Domain` attribute with a value names. -/
def domainAttribute (raw : Str) : Option Str :=
  ((attributes (headAndAttrs (trim raw)).2).filterMap attrDomain).getLast?

/-- What a value stores: nothing if it is not a cookie. -/
def parsedEntry (now : ℕ) (raw host reqPath : Str) : Option Entry :=
  (parseSetCookie now raw host reqPath).map fun c => ⟨c, host, domainAttribute raw⟩

/-- The entries that are left once the expired ones have been dropped. -/
def Jar.retained (jar : Jar) : List Entry :=
  jar.entries.filter fun e => !e.cookie.isExpired jar.now

def Jar.sent (jar : Jar) (host path scheme : Str) : List Entry :=
  jar.retained.filter fun e =>
    !(e.cookie.secure && scheme ≠ "https".toList) && e.cookie.matchDomain host &&
      e.cookie.matchPath path

/-- The value of the header, and the jar after that. -/
def Jar.headerFor (jar : Jar) (host path scheme : Str) : Str × Jar :=
  ("; ".toList.intercalate
    ((jar.sent host path scheme).map fun e => e.cookie.name ++ '=' :: e.cookie.value),
    { jar with entries := jar.retained })

/-- A step of the jar: a value of a response or a script is stored, a header is built, the jar is
cleared, or time passes. -/
inductive Event where
  | store (raw host reqPath : Str)
  | headerFor (host path scheme : Str)
  | clear
  | elapse (secs : ℕ)

def Jar.step (jar : Jar) : Event → Jar
  | .store raw host reqPath =>
    match parsedEntry jar.now raw host reqPath with
    | some e => { jar with entries := insertEntry e jar.entries }
    | none => jar
  | .headerFor host path scheme => (jar.headerFor host path scheme).2
  | .clear => { jar with entries := [] }
  | .elapse secs => { jar with now := jar.now + secs }

/-- The steps of `ingest_set_cookies`, from the `set-cookie` header if there is one. -/
def ingestSetCookies (setCookie : Option Str) (requestHost requestPath : Str) : List Event :=
  match setCookie with
  | none => []
  | some raw =>
    (splitSetCookieEntries raw).map fun entry => .store entry requestHost requestPath

/-- The step of `set_from_js`. -/
def setFromJs (value requestHost : Str) : List Event := [.store value requestHost ['/']]

def Jar.run (jar : Jar) (events : List Event) : Jar := events.foldl Jar.step jar

end SmartOs.Net.Cookies
