/-
# Packages

`smartpack/src/pkg.rs`: a package is a SmartPack map with a manifest, a payload and a signature, and
the manifest is a map with three texts and a list of capabilities. Reading looks for each key by its
text, in whatever map has been decoded, and ignores capabilities that are not texts.
-/

import SmartOs.SmartPack.RoundTrip

namespace SmartOs.SmartPack

open Value

namespace Value

def asStr : Value → Option String
  | .string s => some s
  | _ => none

def asBytes : Value → Option (List UInt8)
  | .binary b => some b
  | _ => none

def asArray : Value → Option (List Value)
  | .array items => some items
  | _ => none

def asMap : Value → Option (List (Value × Value))
  | .map pairs => some pairs
  | _ => none

end Value

structure SmartPkg where
  name : String
  version : String
  description : String
  capabilities : List String
  binaryPayload : List UInt8
  signature : List UInt8

namespace SmartPkg

def manifest (p : SmartPkg) : Value :=
  .map [(.string "name", .string p.name), (.string "version", .string p.version),
    (.string "description", .string p.description),
    (.string "capabilities", .array (p.capabilities.map .string))]

def root (p : SmartPkg) : Value :=
  .map [(.string "manifest", p.manifest), (.string "payload", .binary p.binaryPayload),
    (.string "signature", .binary p.signature)]

def encode (p : SmartPkg) : Except EncodeError (List UInt8) := SmartPack.encode p.root

/-- `ok_or` -/
def okOr {α : Type} (message : String) (o : Option α) : Except String α :=
  o.elim (.error message) .ok

/-- The value under the first key that is this text. -/
def get (pairs : List (Value × Value)) (key : String) : Option Value :=
  (pairs.find? fun pair => pair.1.asStr = some key).map Prod.snd

def decode (bytes : List UInt8) : Except String SmartPkg := do
  let root ← okOr "Failed to decode SmartPack" (SmartPack.decode bytes).toOption
  let map ← okOr "Root is not a map" root.asMap
  let manifestVal ← okOr "Missing manifest" (get map "manifest")
  let payloadVal ← okOr "Missing payload" (get map "payload")
  let signatureVal ← okOr "Missing signature" (get map "signature")
  let manifestMap ← okOr "Manifest is not a map" manifestVal.asMap
  let name ← okOr "Missing name" ((get manifestMap "name").bind Value.asStr)
  let version ← okOr "Missing version" ((get manifestMap "version").bind Value.asStr)
  let description ← okOr "Missing description" ((get manifestMap "description").bind Value.asStr)
  let capabilities := ((get manifestMap "capabilities").bind Value.asArray).getD []
  let binaryPayload ← okOr "Payload is not binary" payloadVal.asBytes
  let signature ← okOr "Signature is not binary" signatureVal.asBytes
  return ⟨name, version, description, capabilities.filterMap Value.asStr, binaryPayload, signature⟩

/-- What `decode` can report. -/
def messages : List String :=
  ["Failed to decode SmartPack", "Root is not a map", "Missing manifest", "Missing payload",
    "Missing signature", "Manifest is not a map", "Missing name", "Missing version",
    "Missing description", "Payload is not binary", "Signature is not binary"]

/-- All lengths fit in a `u32`. -/
structure Fits (p : SmartPkg) : Prop where
  name : (strBytes p.name).length < 2 ^ 32
  version : (strBytes p.version).length < 2 ^ 32
  description : (strBytes p.description).length < 2 ^ 32
  count : p.capabilities.length < 2 ^ 32
  capabilities : ∀ c ∈ p.capabilities, (strBytes c).length < 2 ^ 32
  binaryPayload : p.binaryPayload.length < 2 ^ 32
  signature : p.signature.length < 2 ^ 32

theorem normItems_strings (texts : List String) :
    normItems (texts.map .string) = texts.map .string := by
  induction texts with
  | nil => rfl
  | cons text texts ih => simp [normItems, Value.norm, ih]

theorem depthItems_strings (texts : List String) : depthItems (texts.map .string) = 0 := by
  induction texts with
  | nil => rfl
  | cons text texts ih => simp [depthItems, depth, ih]

theorem allItems_strings {good : Value → Prop} {texts : List String}
    (all : ∀ text ∈ texts, good (.string text)) : Value.AllItems good (texts.map .string) := by
  induction texts with
  | nil => trivial
  | cons text texts ih =>
    exact ⟨all text List.mem_cons_self, ih fun later there => all later (.tail text there)⟩

theorem noExtension_root (p : SmartPkg) : p.root.NoExtension := by
  have texts : Value.AllItems Value.NotExtension (p.capabilities.map .string) :=
    allItems_strings fun _ _ => trivial
  simp [root, manifest, Value.NoExtension, Value.All, Value.AllPairs, Value.NotExtension, texts]

variable {p : SmartPkg}

theorem Fits.lengthsFit (fits : p.Fits) : p.root.LengthsFit := by
  have texts : Value.AllItems Value.LengthFits (p.capabilities.map .string) :=
    allItems_strings fits.capabilities
  have three : 3 < 2 ^ 32 := by decide
  have four : 4 < 2 ^ 32 := by decide
  have key (k : String) (short : (strBytes k).length < 2 ^ 32) : (string k).LengthsFit :=
    short
  refine ⟨three, key _ (by decide), ⟨four, key _ (by decide), fits.name, key _ (by decide),
    fits.version, key _ (by decide), fits.description, key _ (by decide), ⟨?_, texts⟩, trivial⟩,
    key _ (by decide), fits.binaryPayload, key _ (by decide), fits.signature, trivial⟩
  exact (List.length_map ..).trans_lt fits.count

/-- The bytes of a package hold its root, in which there is no integer that could be narrowed. -/
theorem Fits.decode_wire (fits : p.Fits) : SmartPack.decode p.root.wire = .ok p.root := by
  have norm : p.root.norm = p.root := by
    simp [root, manifest, Value.norm, normPairs, normItems_strings]
  have shallow : p.root.depth = 3 := by
    simp [root, manifest, depth, depthPairs, depthItems_strings]
  have outcome := decodeValue_wire p.root fits.lengthsFit []
  rw [List.append_nil, norm, shallow] at outcome
  rcases outcome with ⟨ok, -⟩ | ⟨e, d, -, ⟨-, ext⟩ | ⟨-, deep⟩⟩
  · rw [SmartPack.decode, ok]
  · exact absurd p.noExtension_root ext
  · exact absurd deep (by decide)

/-- The result is a package or one of the messages. -/
def Reports {α : Type} (x : Except String α) : Prop :=
  (∃ a, x = .ok a) ∨ ∃ message ∈ messages, x = .error message

theorem Reports.okOr_bind {α β : Type} {message : String} {o : Option α} {f : α → Except String β}
    (listed : message ∈ messages) (next : ∀ a, Reports (f a)) : Reports (okOr message o >>= f) := by
  cases o with
  | none => exact .inr ⟨message, listed, rfl⟩
  | some a => exact next a

theorem reports_decode (bytes : List UInt8) : Reports (decode bytes) := by
  iterate 9 refine .okOr_bind (by decide) fun _ => ?_
  iterate 2 refine .okOr_bind (by decide) fun _ => ?_
  exact .inl ⟨_, rfl⟩

/-- Decoding an encoded package gives it back, and decoding any bytes gives a package or one of the
messages. -/
theorem decode_encode (p : SmartPkg) (fits : p.Fits) :
    (∃ bytes, p.encode = .ok bytes ∧ decode bytes = .ok p) ∧ ∀ bytes,
      (∃ q, decode bytes = .ok q) ∨ ∃ message ∈ messages, decode bytes = .error message := by
  refine ⟨⟨p.root.wire, encode_eq_ok p.root fits.lengthsFit, ?_⟩, reports_decode⟩
  have texts : (p.capabilities.map string).filterMap asStr = p.capabilities := by
    rw [List.filterMap_map]
    exact List.filterMap_some
  rw [decode, fits.decode_wire]
  show Except.ok (SmartPkg.mk p.name p.version p.description
    ((p.capabilities.map string).filterMap asStr) p.binaryPayload p.signature) = .ok p
  rw [texts]

theorem decode_encode_sample : ∃ bytes, encode ⟨"a", "1", "", ["net"], [0x7F], []⟩ = .ok bytes ∧
      decode bytes = .ok ⟨"a", "1", "", ["net"], [0x7F], []⟩ :=
  (decode_encode _ ⟨by decide, by decide, by decide, by decide, by decide, by decide, by decide⟩).1

end SmartPkg

end SmartOs.SmartPack
