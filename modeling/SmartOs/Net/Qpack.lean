/-
# QPACK

The variable-length integers of QUIC and the QPACK decoder, which knows the static table and literal
fields. The decoder stops at the first field that it cannot read and keeps what it has. There is no
result where the code panics: a string whose length wraps around the address space.

`lossy` is the conversion of bytes to text that replaces what is not UTF-8.
-/

import SmartOs.Math.BigEndian
import SmartOs.Net.Hpack

open SmartOs.Math
open SmartOs.Net.Hpack (Header)

namespace SmartOs.Net.Quic

/-- The integer at the front, and what comes after it. Its first two bits tell how long it is. -/
def decodeVarint : List UInt8 → Option (ℕ × List UInt8)
  | [] => none
  | b :: rest =>
    let more := 2 ^ (b >>> 6).toNat - 1
    if rest.length < more then none
    else some (ofBeBytes ((b &&& 0x3F) :: rest.take more), rest.drop more)

def qpackStatic : List Header :=
  [(":authority", ""), (":path", "/"), ("age", "0"), ("content-disposition", ""),
    ("content-length", "0"), ("cookie", ""), ("date", ""), ("etag", ""),
    ("if-modified-since", ""), ("if-none-match", ""), ("last-modified", ""), ("link", ""),
    ("location", ""), ("referer", ""), ("set-cookie", ""), (":method", "CONNECT"),
    (":method", "DELETE"), (":method", "GET"), (":method", "HEAD"), (":method", "OPTIONS"),
    (":method", "POST"), (":method", "PUT"), (":scheme", "http"), (":scheme", "https"),
    (":status", "103"), (":status", "200"), (":status", "304"), (":status", "404"),
    (":status", "503"), ("accept", "*/*"), ("accept", "application/dns-message"),
    ("accept-encoding", "gzip, deflate, br"), ("accept-ranges", "bytes"),
    ("access-control-allow-headers", "cache-control"),
    ("access-control-allow-headers", "content-type"), ("access-control-allow-origin", "*"),
    ("cache-control", "max-age=0"), ("cache-control", "max-age=2592000"),
    ("cache-control", "max-age=604800"), ("cache-control", "no-cache"),
    ("cache-control", "no-store"), ("cache-control", "public, max-age=31536000"),
    ("content-encoding", "br"), ("content-encoding", "gzip"),
    ("content-type", "application/dns-message"), ("content-type", "application/javascript"),
    ("content-type", "application/json"), ("content-type", "application/x-www-form-urlencoded"),
    ("content-type", "image/gif"), ("content-type", "image/jpeg"), ("content-type", "image/png"),
    ("content-type", "text/css"), ("content-type", "text/html; charset=utf-8"),
    ("content-type", "text/plain"), ("content-type", "text/plain;charset=utf-8"),
    ("range", "bytes=0-"), ("strict-transport-security", "max-age=31536000"),
    ("strict-transport-security", "max-age=31536000; includesubdomains"),
    ("strict-transport-security", "max-age=31536000; includesubdomains; preload"),
    ("vary", "accept-encoding"), ("vary", "origin"), ("x-content-type-options", "nosniff"),
    ("x-xss-protection", "1; mode=block"), (":status", "100"), (":status", "204"),
    (":status", "206"), (":status", "302"), (":status", "400"), (":status", "403"),
    (":status", "421"), (":status", "425"), (":status", "500"), ("accept-language", ""),
    ("access-control-allow-credentials", "FALSE"), ("access-control-allow-credentials", "TRUE"),
    ("access-control-allow-headers", "*"), ("access-control-allow-methods", "get"),
    ("access-control-allow-methods", "get, post, options"),
    ("access-control-allow-methods", "options"),
    ("access-control-expose-headers", "content-length"),
    ("access-control-request-headers", "content-type"), ("access-control-request-method", "get"),
    ("access-control-request-method", "post"), ("alt-svc", "clear"), ("authorization", ""),
    ("content-security-policy", "script-src 'none'; object-src 'none'; base-uri 'none'"),
    ("early-data", "1"), ("expect-ct", ""), ("forwarded", ""), ("if-range", ""), ("origin", ""),
    ("purpose", "prefetch"), ("server", ""), ("timing-allow-origin", "*"),
    ("upgrade-insecure-requests", "1"), ("user-agent", ""), ("x-forwarded-for", ""),
    ("x-frame-options", "deny"), ("x-frame-options", "sameorigin")]

/-- An integer with a prefix of `n` bits; it is the integer of HPACK. -/
def qpackDecodeInt (n : ℕ) (src : List UInt8) : Option (ℕ × List UInt8) :=
  match Hpack.decodeInteger n src with
  | .ok value rest => some (value, rest)
  | .error _ _ => none

section Decode

variable (lossy : List UInt8 → String)

/-- A string at the end `src` of `total` bytes. The bit for Huffman coding is not looked at. -/
def qpackDecodeStr (total : ℕ) (src : List UInt8) : Option (Option (String × List UInt8)) :=
  match qpackDecodeInt 7 src with
  | none => some none
  | some (len, rest) =>
    let start := total - rest.length
    if 2 ^ 64 ≤ start + len then none
    else if rest.length < len then some none
    else some (some (lossy (rest.take len), rest.drop len))

/-- What one field adds, and what comes after it; no field where the decoder stops. -/
def qpackField (total : ℕ) (b : UInt8) (rest : List UInt8) :
    Option (Option (List Header × List UInt8)) :=
  if b &&& 0x80 ≠ 0 then
    match qpackDecodeInt 6 (b :: rest) with
    | none => some none
    | some (idx, rest) =>
      some (some (if b &&& 0x40 ≠ 0 then (qpackStatic[idx]?).toList else [], rest))
  else if b &&& 0xC0 = 0x40 then
    match qpackDecodeInt 4 (b :: rest) with
    | none => some none
    | some (idx, rest) => do
      let some (value, rest) ← qpackDecodeStr lossy total rest | some none
      some (some ([(((qpackStatic[idx]?).map (·.1)).getD "", value)], rest))
  else if b &&& 0xE0 = 0x20 then do
    let some (name, rest) ← qpackDecodeStr lossy total rest | some none
    let some (value, rest) ← qpackDecodeStr lossy total rest | some none
    some (some ([(name, value)], rest))
  else some (some ([], rest))

/-- The fields from `src` on. Each of them takes a byte at least. -/
def qpackFields (total : ℕ) : (fuel : ℕ) → (src : List UInt8) → Option (List Header)
  | 0, _ => some []
  | _, [] => some []
  | fuel + 1, b :: rest => do
    let some (headers, rest) ← qpackField lossy total b rest | some []
    let more ← qpackFields total fuel rest
    some (headers ++ more)

/-- The insert count and the base are read and not used. -/
def qpackDecode (src : List UInt8) : Option (List Header) :=
  match decodeVarint src with
  | none => some []
  | some (_, rest) =>
    match decodeVarint rest with
    | none => some []
    | some (_, rest) => qpackFields lossy src.length src.length rest

end Decode

end SmartOs.Net.Quic
