/-
# DNS responses

What `parse_response` finds in a well-formed message with one question. A message is well formed if
its sections parse: names are labels ended by the root or by a pointer backwards to a name, and
records follow each other up to the end of the message, as many as the header counts.

The parser takes the number of answers from the field that counts the questions. So it looks at one
record only, the first after the question, whichever section that is in.
-/

import SmartOs.Net.Ipv4

namespace SmartOs.Net.Dns

open List

def qtypeA : UInt16 := 1

/-! ## The parser -/

/-- The loop of `skip_name`; no result if it does not end within `fuel` rounds. -/
def skipNameLoop (data : List UInt8) : (fuel pos : ℕ) → (jumped : Bool) → (endPos : ℕ) →
    Option (Option ℕ)
  | 0, _, _, _ => none
  | fuel + 1, pos, jumped, endPos =>
    if data.length ≤ pos then some none
    else
      let len := (data.getD pos 0).toNat
      if len = 0 then some (some (if jumped then endPos else pos + 1))
      else if len &&& 0xC0 = 0xC0 then
        if data.length ≤ pos + 1 then some none
        else
          let offset := (len &&& 0x3F) <<< 8 ||| (data.getD (pos + 1) 0).toNat
          skipNameLoop data fuel offset true (if jumped then endPos else pos + 2)
      else skipNameLoop data fuel (pos + 1 + len) jumped endPos

def skipName (fuel : ℕ) (data : List UInt8) (pos : ℕ) : Option (Option ℕ) :=
  skipNameLoop data fuel pos false 0

/-- The loop over `count` records from `pos` on. -/
def parseRecords (fuel : ℕ) (data : List UInt8) : (count pos : ℕ) →
    Option (Option (Ipv4Addr × UInt32))
  | 0, _ => some none
  | count + 1, pos =>
    if data.length ≤ pos then some none
    else
      match skipName fuel data pos with
      | none => none
      | some none => some none
      | some (some pos) =>
        if data.length < pos + 10 then some none
        else
          let rtype := readBe16 data pos
          let ttl := readBe32 data (pos + 4)
          let rdlength := (readBe16 data (pos + 8)).toNat
          let pos := pos + 10
          if data.length < pos + rdlength then some none
          else if rtype = qtypeA ∧ rdlength = 4 then
            some (some (#v[data.getD pos 0, data.getD (pos + 1) 0, data.getD (pos + 2) 0,
              data.getD (pos + 3) 0], ttl))
          else parseRecords fuel data count (pos + rdlength)

def parseResponse (fuel : ℕ) (data : List UInt8) : Option (Option (Ipv4Addr × UInt32)) :=
  if data.length < 12 then some none
  else
    let ancount := (readBe16 data 4).toNat
    if ancount = 0 then some none
    else
      match skipName fuel data 12 with
      | none => none
      | some none => some none
      | some (some pos) =>
        if data.length < pos + 4 then some none
        else parseRecords fuel data ancount (pos + 4)

/-! ## Messages -/

/-- The position that the pointer at `pos` gives. -/
def pointerTarget (data : List UInt8) (pos : ℕ) : ℕ :=
  ((data.getD pos 0).toNat - 192) * 256 + (data.getD (pos + 1) 0).toNat

/-- A name lies at `pos` and ends before the second position. -/
inductive NameAt (data : List UInt8) : ℕ → ℕ → Prop
  | root {pos : ℕ} (inside : pos < data.length) (zero : (data.getD pos 0).toNat = 0) :
      NameAt data pos (pos + 1)
  | label {pos next : ℕ} (inside : pos < data.length) (nonempty : 0 < (data.getD pos 0).toNat)
      (short : (data.getD pos 0).toNat < 64)
      (rest : NameAt data (pos + 1 + (data.getD pos 0).toNat) next) : NameAt data pos next
  | pointer {pos next : ℕ} (inside : pos + 1 < data.length)
      (mark : 192 ≤ (data.getD pos 0).toNat) (backward : pointerTarget data pos < pos)
      (name : NameAt data (pointerTarget data pos) next) : NameAt data pos (pos + 2)

structure Record where
  rtype : UInt16
  rclass : UInt16
  ttl : UInt32
  rdata : List UInt8

namespace Record

variable (record : Record)

def IsA : Prop := record.rtype = qtypeA ∧ record.rdata.length = 4

instance : Decidable record.IsA := inferInstanceAs (Decidable (_ ∧ _))

/-- What is returned for an address record. -/
def answer : Ipv4Addr × UInt32 :=
  (#v[record.rdata.getD 0 0, record.rdata.getD 1 0, record.rdata.getD 2 0, record.rdata.getD 3 0],
    record.ttl)

end Record

/-- A record lies at `pos` and ends before `next`. -/
def RecordAt (data : List UInt8) (pos : ℕ) (record : Record) (next : ℕ) : Prop :=
  ∃ q, NameAt data pos q ∧ next = q + 10 + record.rdata.length ∧ next ≤ data.length ∧
    readBe16 data q = record.rtype ∧ readBe16 data (q + 2) = record.rclass ∧
    readBe32 data (q + 4) = record.ttl ∧
    (readBe16 data (q + 8)).toNat = record.rdata.length ∧
    (data.drop (q + 10)).take record.rdata.length = record.rdata

/-- Records lie one after the other from `pos` on, up to the end of the message. -/
inductive RecordsAt (data : List UInt8) : ℕ → List Record → Prop
  | nil : RecordsAt data data.length []
  | cons {pos next : ℕ} {record : Record} {records : List Record} :
      RecordAt data pos record next → RecordsAt data next records →
      RecordsAt data pos (record :: records)

/-- A well-formed message with one question. -/
structure Message where
  data : List UInt8
  answers : List Record
  authority : List Record
  additional : List Record
  questionEnd : ℕ
  header : 12 ≤ data.length
  qdcount : readBe16 data 4 = 1
  ancount : (readBe16 data 6).toNat = answers.length
  nscount : (readBe16 data 8).toNat = authority.length
  arcount : (readBe16 data 10).toNat = additional.length
  question : NameAt data 12 questionEnd
  questionFits : questionEnd + 4 ≤ data.length
  records : RecordsAt data (questionEnd + 4) (answers ++ authority ++ additional)

/-- The address and the lifetime of the first address record. -/
def firstA (records : List Record) : Option (Ipv4Addr × UInt32) :=
  (records.find? fun record => record.IsA).map Record.answer

variable {records : List Record}

theorem firstA_eq_none_iff : firstA records = none ↔ ∀ record ∈ records, ¬ record.IsA := by
  simp [firstA]

theorem firstA_cons (record : Record) :
    firstA (record :: records) = if record.IsA then some record.answer else firstA records := by
  rw [firstA, find?_cons]
  by_cases address : record.IsA
  · rw [decide_eq_true address, if_pos address]
    rfl
  · rw [decide_eq_false address, if_neg address]
    rfl

/-! ## What the parser finds -/

theorem pointer_mark_iff : ∀ len < 256, len &&& 0xC0 = 0xC0 ↔ 192 ≤ len := by
  decide +kernel

variable {data : List UInt8} {pos next : ℕ}

theorem offset_eq (mark : 192 ≤ (data.getD pos 0).toNat) :
    ((data.getD pos 0).toNat &&& 0x3F) <<< 8 ||| (data.getD (pos + 1) 0).toNat =
      pointerTarget data pos := by
  have byte := (data.getD pos 0).toNat_lt
  have low : (data.getD pos 0).toNat &&& 0x3F = (data.getD pos 0).toNat % 2 ^ 6 :=
    Nat.and_two_pow_sub_one_eq_mod _ 6
  rw [← Nat.shiftLeft_add_eq_or_of_lt (data.getD (pos + 1) 0).toNat_lt, pointerTarget]
  omega

theorem skipNameLoop_of_nameAt (name : NameAt data pos next) :
    ∃ n, ∀ fuel, n ≤ fuel → ∀ jumped endPos,
      skipNameLoop data fuel pos jumped endPos = some (some (if jumped then endPos else next)) := by
  induction name with
  | root inside zero =>
    refine ⟨1, fun fuel enough jumped endPos => ?_⟩
    obtain ⟨fuel, rfl⟩ := Nat.exists_eq_add_of_le' enough
    rw [skipNameLoop, if_neg (not_le.mpr inside), if_pos zero]
  | @label pos next inside nonempty short rest ih =>
    obtain ⟨n, ends⟩ := ih
    refine ⟨n + 1, fun fuel enough jumped endPos => ?_⟩
    obtain ⟨fuel, rfl⟩ := Nat.exists_eq_add_of_le' (Nat.le_of_add_left_le enough)
    have unmarked : ¬ (data.getD pos 0).toNat &&& 0xC0 = 0xC0 := by
      rw [pointer_mark_iff _ (by omega)]
      omega
    rw [skipNameLoop, if_neg (not_le.mpr inside)]
    rw [if_neg nonempty.ne', if_neg unmarked]
    exact ends fuel (by omega) jumped endPos
  | @pointer pos next inside mark backward name ih =>
    obtain ⟨n, ends⟩ := ih
    refine ⟨n + 1, fun fuel enough jumped endPos => ?_⟩
    obtain ⟨fuel, rfl⟩ := Nat.exists_eq_add_of_le' (Nat.le_of_add_left_le enough)
    have marked := (pointer_mark_iff _ (data.getD pos 0).toNat_lt).mpr mark
    rw [skipNameLoop, if_neg (by omega)]
    rw [if_neg (by omega), if_pos marked, if_neg (by omega), offset_eq mark,
      ends fuel (by omega) true, if_pos rfl]

theorem NameAt.lt (name : NameAt data pos next) : pos < data.length := by
  cases name <;> omega

theorem getD_of_take_drop {rdata : List UInt8} (taken : (data.drop pos).take rdata.length = rdata)
    {i : ℕ} (inside : i < rdata.length) : data.getD (pos + i) 0 = rdata.getD i 0 := by
  rw [← taken, getD_eq_getElem?_getD, getD_eq_getElem?_getD, getElem?_take,
    if_pos inside, getElem?_drop]

/-- From where records lie, the first address record among those counted is found. -/
theorem parseRecords_of_recordsAt (lie : RecordsAt data pos records)
    (count : ℕ) : ∃ n, ∀ fuel, n ≤ fuel →
      parseRecords fuel data count pos = some (firstA (records.take count)) := by
  induction lie generalizing count with
  | nil =>
    refine ⟨0, fun fuel _ => ?_⟩
    cases count with
    | zero => rfl
    | succ count => rw [parseRecords, if_pos le_rfl, take_nil, firstA, find?_nil, Option.map_none]
  | @cons pos next record records lies _ ih =>
    cases count with
    | zero => exact ⟨0, fun fuel _ => rfl⟩
    | succ count =>
      obtain ⟨q, name, rfl, inside, rtype, -, ttl, rdlength, rdata⟩ := lies
      obtain ⟨n, skips⟩ := skipNameLoop_of_nameAt name
      obtain ⟨m, parses⟩ := ih count
      refine ⟨max n m, fun fuel enough => ?_⟩
      rw [parseRecords, if_neg (not_le.mpr name.lt), skipName, skips fuel (by omega)]
      simp only [rdlength, rtype, ttl, Bool.false_eq_true, if_false]
      rw [if_neg (by omega), if_neg (by omega), take_succ_cons, firstA_cons]
      by_cases address : record.rtype = qtypeA ∧ record.rdata.length = 4
      · have bytes := fun i (small : i < 4) => getD_of_take_drop rdata (address.2.symm ▸ small)
        rw [if_pos address, if_pos (show record.IsA from address), Record.answer,
          ← bytes 0 (by decide), ← bytes 1 (by decide), ← bytes 2 (by decide),
          ← bytes 3 (by decide)]
      · rw [if_neg address, if_neg (show ¬ record.IsA from address), parses fuel (by omega)]

/-- The parser finds the first address record among as many records after the question as there
are questions. -/
theorem parseResponse_message (m : Message) : ∃ n, ∀ fuel, n ≤ fuel → parseResponse fuel m.data =
      some (firstA ((m.answers ++ m.authority ++ m.additional).take 1)) := by
  obtain ⟨n, skips⟩ := skipNameLoop_of_nameAt m.question
  obtain ⟨k, parses⟩ := parseRecords_of_recordsAt m.records 1
  refine ⟨max n k, fun fuel enough => ?_⟩
  have one : (readBe16 m.data 4).toNat = 1 := by
    rw [m.qdcount]
    rfl
  rw [parseResponse, if_neg (not_lt.mpr m.header), one]
  simp only [Nat.one_ne_zero]
  rw [skipName, skips fuel (by omega)]
  simp only [Bool.false_eq_true, if_false]
  rw [if_neg (not_lt.mpr m.questionFits), parses fuel (by omega)]

/-- The first record after the question decides: it is an address record in the answer section, or
it is not one and no answer is. -/
def FirstDecides (m : Message) : Prop :=
  match m.answers with
  | [] => ∀ record ∈ (m.authority ++ m.additional).head?, ¬ record.IsA
  | first :: answers => first.IsA ∨ ∀ record ∈ answers, ¬ record.IsA

theorem firstDecides_iff (m : Message) : FirstDecides m ↔
    firstA ((m.answers ++ m.authority ++ m.additional).take 1) = firstA m.answers := by
  unfold FirstDecides
  cases m.answers with
  | nil =>
    rw [nil_append, show firstA [] = none from rfl, firstA_eq_none_iff]
    cases m.authority ++ m.additional <;> simp
  | cons first answers =>
    rw [cons_append, cons_append, take_succ_cons, take_zero, firstA_cons, firstA_cons]
    by_cases address : first.IsA
    · simp [address]
    rw [if_neg address, if_neg address, show firstA [] = none from rfl, eq_comm, firstA_eq_none_iff]
    simp [address]

/-- The parser returns the first address record of the answer section of a well-formed message
exactly if the first record after the question decides that. -/
theorem parseResponse_eq_firstA_iff (m : Message) :
    (∃ n, ∀ fuel, n ≤ fuel → parseResponse fuel m.data = some (firstA m.answers)) ↔
      FirstDecides m := by
  obtain ⟨k, parses⟩ := parseResponse_message m
  rw [firstDecides_iff]
  constructor
  · rintro ⟨n, returns⟩
    have both := (parses (max n k) (by omega)).symm.trans (returns (max n k) (by omega))
    exact Option.some.inj both
  · intro same
    exact ⟨k, fun fuel enough => same ▸ parses fuel enough⟩

/-! ## An alias before the address -/

/-- A response for the name `a`: an alias record and then an address record, with pointers to the
name in the question. -/
def aliasedData : List UInt8 :=
  [0, 1, 0x81, 0x80, 0, 1, 0, 2, 0, 0, 0, 0, 1, 97, 0, 0, 1, 0, 1,
    0xC0, 12, 0, 5, 0, 1, 0, 0, 0, 60, 0, 2, 0xC0, 12,
    0xC0, 12, 0, 1, 0, 1, 0, 0, 0, 60, 0, 4, 93, 184, 216, 34]

theorem aliasedName : NameAt aliasedData 12 15 :=
  @NameAt.label aliasedData 12 15 (by decide) (by decide) (by decide)
    (@NameAt.root aliasedData 14 (by decide) (by decide))

def aliased : Message where
  data := aliasedData
  answers := [⟨5, 1, 60, [0xC0, 12]⟩, ⟨1, 1, 60, [93, 184, 216, 34]⟩]
  authority := []
  additional := []
  questionEnd := 15
  header := by decide
  qdcount := by decide
  ancount := by decide
  nscount := by decide
  arcount := by decide
  question := aliasedName
  questionFits := by decide
  records := by
    have first := @NameAt.pointer aliasedData 19 15 (by decide) (by decide) (by decide) aliasedName
    have second := @NameAt.pointer aliasedData 33 15 (by decide) (by decide) (by decide) aliasedName
    exact .cons ⟨21, first, rfl, by decide⟩ (.cons ⟨35, second, rfl, by decide⟩ .nil)

/-- The address behind the alias is not found. -/
theorem not_parseResponse_eq_firstA : ¬ ∀ m : Message, ∃ n, ∀ fuel, n ≤ fuel →
      parseResponse fuel m.data = some (firstA m.answers) := by
  intro returns
  obtain ⟨n, right⟩ := returns aliased
  obtain ⟨k, found⟩ := parseResponse_message aliased
  have both := (found (max n k) (by omega)).symm.trans (right (max n k) (by omega))
  exact absurd both (by decide)

end SmartOs.Net.Dns
