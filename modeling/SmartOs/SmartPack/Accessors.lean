/-
# Zero-copy accessors

`decode_str_ref` and `decode_bin_ref` have a tag dispatch of their own. They accept what
`decode_value` decodes to a string or a binary, and nothing else, and stop at the same place.
-/

import SmartOs.SmartPack.RoundTrip

namespace SmartOs.SmartPack

open SmartOs.CS

variable {α : Type} {P : Value → Prop} {self : DecodeM Value}

/-! ## Results of a dispatch -/

/-- What the computation returns satisfies `P`. -/
def Returns (P : Value → Prop) (x : DecodeM Value) : Prop := ∀ d v d', x d = .ok v d' → P v

theorem Returns.bind {x : DecodeM α} {f : α → DecodeM Value} (all : ∀ a, Returns P (f a)) :
    Returns P (x >>= f) := by
  intro d v d' ok
  obtain ⟨a, d₁, -, second⟩ := bind_eq_ok_iff.mp ok
  exact all a d₁ v d' second

theorem Returns.pure {v : Value} (holds : P v) : Returns P (pure v) := by
  intro d w d' ok
  cases ok
  exact holds

theorem Returns.throw {e : DecodeError} : Returns P (throw e) := nofun

theorem Returns.ite {c : Prop} [Decidable c] {x y : DecodeM Value} (yes : c → Returns P x)
    (no : Returns P y) : Returns P (if c then x else y) := by
  split_ifs with h
  · exact yes h
  · exact no

/-- Strings and binaries come from tags of their family. -/
def Value.From (tag : UInt8) : Value → Prop
  | .string _ => strForm.Matches tag
  | .binary _ => binForm.Matches tag
  | _ => True

theorem decodeTag_from (tag : UInt8) : Returns (Value.From tag) (decodeTag self tag) := by
  have uuid : Returns (Value.From tag) readUuid := by
    refine .bind fun bytes => ?_
    split_ifs
    · exact .pure trivial
    · exact .throw
  have array (count : ℕ) : Returns (Value.From tag) (decodeArrayValues self count) :=
    .bind fun _ => .bind fun _ => .bind fun _ => .pure trivial
  have map (count : ℕ) : Returns (Value.From tag) (decodeMapValues self count) :=
    .bind fun _ => .bind fun _ => .bind fun _ => .pure trivial
  repeat' refine Returns.ite (fun family => ?_) ?_
  all_goals first
    | exact .pure trivial
    | exact .bind fun _ => .pure trivial
    | exact .bind fun _ => .bind fun _ => .pure family
    | exact .bind array
    | exact .bind map
    | exact uuid
    | exact .throw

/-! ## The accessors -/

/-- An accessor for a family of tags, if only these tags lead to the constructor. -/
theorem accessor_eq_ok_iff {form : LengthForm} {read : ℕ → DecodeM α} {wrap : α → Value}
    (inj : ∀ a b, wrap a = wrap b → a = b)
    (own : ∀ tag, form.Matches tag → decodeTag decodeValue tag =
      form.readLength tag >>= fun len => read len >>= fun a => pure (wrap a))
    (only : ∀ tag a, (wrap a).From tag → form.Matches tag) (d d' : Decoder) (a : α) :
    (readByte >>= fun tag => if form.Matches tag then form.readLength tag >>= read
      else throw (.invalidTag tag)) d = .ok a d' ↔ decodeValue d = .ok (wrap a) d' := by
  rw [decodeValue_eq, decodeBody, bind_eq_ok_iff, bind_eq_ok_iff]
  refine exists_congr fun tag => exists_congr fun d₁ => and_congr_right fun _ => ?_
  by_cases family : form.Matches tag
  · rw [if_pos family, own tag family, bind_eq_ok_iff, bind_eq_ok_iff]
    refine exists_congr fun len => exists_congr fun d₂ => and_congr_right fun _ => ?_
    rw [bind_eq_ok_iff]
    constructor
    · intro ok
      exact ⟨a, d', ok, rfl⟩
    · rintro ⟨b, d₃, ok, returned⟩
      obtain ⟨same, rfl⟩ := pure_eq_ok_iff.mp returned
      rwa [inj b a same] at ok
  · rw [if_neg family]
    constructor
    · intro ok
      cases ok
    · intro ok
      exact absurd (only tag a (decodeTag_from tag d₁ _ d' ok)) family

theorem decodeStrRef_eq_ok_iff {d d' : Decoder} {s : String} :
    decodeStrRef d = .ok s d' ↔ decodeValue d = .ok (.string s) d' :=
  accessor_eq_ok_iff (fun _ _ => Value.string.inj) (fun _ => decodeTag_str _) (fun _ _ => id) d d' s

theorem decodeBinRef_eq_ok_iff {d d' : Decoder} {b : List UInt8} :
    decodeBinRef d = .ok b d' ↔ decodeValue d = .ok (.binary b) d' :=
  accessor_eq_ok_iff (fun _ _ => Value.binary.inj) (fun _ => decodeTag_bin _) (fun _ _ => id) d d' b

/-! ## Positions -/

/-- The decoder has moved forward inside its data. -/
def Within (d d' : Decoder) : Prop :=
  d'.data = d.data ∧ d.pos ≤ d'.pos ∧ (d.pos ≤ d.data.length → d'.pos ≤ d.data.length)

instance : IsTrans Decoder Within where
  trans d₁ d₂ d₃ := by
    rintro ⟨data, forward, inside⟩ ⟨data', forward', inside'⟩
    rw [data] at data' inside'
    exact ⟨data', forward.trans forward', fun start => inside' (inside start)⟩

variable (d : Decoder)

theorem Within.refl : Within d d := ⟨rfl, le_rfl, id⟩

theorem keeps_readBytes (n : ℕ) (d : Decoder) : Keeps Within (readBytes n) d := by
  unfold Keeps
  rw [readBytes, get_bind_apply]
  split_ifs with short
  · exact .refl d
  · exact ⟨rfl, Nat.le_add_right _ _, fun _ => not_lt.mp short⟩

theorem keeps_readByte : Keeps Within readByte d := by
  unfold Keeps
  rw [readByte, get_bind_apply]
  cases there : d.data[d.pos]? with
  | none => exact .refl d
  | some b => exact ⟨rfl, Nat.le_succ _, fun _ => (List.getElem?_eq_some_iff.mp there).1⟩

theorem keeps_readLength (form : LengthForm) (tag : UInt8) (d : Decoder) :
    Keeps Within (form.readLength tag) d := by
  have returns {β : Type} (b : β) (d' : Decoder) : Keeps Within (pure b : DecodeM β) d' := .refl d'
  unfold LengthForm.readLength
  split_ifs
  · exact .refl d
  · exact (keeps_readByte d).bind fun _ _ _ => returns _ _
  · exact ((keeps_readBytes 2 d).bind fun _ _ _ => returns _ _).bind fun _ _ _ => returns _ _
  · exact ((keeps_readBytes 4 d).bind fun _ _ _ => returns _ _).bind fun _ _ _ => returns _ _

theorem keeps_readStr (len : ℕ) (d : Decoder) : Keeps Within (readStr len) d := by
  refine (keeps_readBytes len d).bind fun bytes d' _ => ?_
  cases fromUtf8 bytes <;> exact Within.refl d'

theorem keeps_decodeStrRef : Keeps Within decodeStrRef d := by
  refine (keeps_readByte d).bind fun tag d₁ _ => ?_
  split_ifs
  · exact (keeps_readLength _ tag d₁).bind fun len d₂ _ => keeps_readStr len d₂
  · exact Within.refl d₁

theorem keeps_decodeBinRef : Keeps Within decodeBinRef d := by
  refine (keeps_readByte d).bind fun tag d₁ _ => ?_
  split_ifs
  · exact (keeps_readLength _ tag d₁).bind fun len d₂ _ => keeps_readBytes len d₂
  · exact Within.refl d₁

/-- The accessors agree with `decode_value` on what is a string and what is a binary, and whether
they succeed or fail, the position stays inside the data. -/
theorem accessors_agree (d : Decoder) :
    (∀ s d', decodeStrRef d = .ok s d' ↔ decodeValue d = .ok (.string s) d') ∧
      (∀ b d', decodeBinRef d = .ok b d' ↔ decodeValue d = .ok (.binary b) d') ∧
      Within d (finalState (decodeStrRef d)) ∧ Within d (finalState (decodeBinRef d)) :=
  ⟨fun _ _ => decodeStrRef_eq_ok_iff, fun _ _ => decodeBinRef_eq_ok_iff, keeps_decodeStrRef d,
    keeps_decodeBinRef d⟩

end SmartOs.SmartPack
