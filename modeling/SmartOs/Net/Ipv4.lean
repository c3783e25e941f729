/-
# IPv4 packets

Building and parsing of packets with a header of 20 bytes, and the internet checksum. The sum runs
in 32 bits, which is enough for any header and any segment that fits a packet, so it is the sum of
the words, and the checksum makes the header sum to all ones.
-/

import SmartOs.Math.BigEndian
import SmartOs.Math.OnesComplement

namespace SmartOs.Net

open Math Nat

variable {data : List UInt8}

abbrev Ipv4Addr := Vector UInt8 4

theorem Ipv4Addr.toList_eq (ip : Ipv4Addr) : ip.toList = [ip[0], ip[1], ip[2], ip[3]] := by
  refine List.ext_getElem (by simp) fun i inside _ => ?_
  have small : i < 4 := by simpa using inside
  interval_cases i <;> simp

theorem Ipv4Addr.mk_eq (ip : Ipv4Addr) : #v[ip[0], ip[1], ip[2], ip[3]] = ip := by
  rw [← Vector.toList_inj, ip.toList_eq]
  rfl

/-! ## Fields in network order -/

def be16 (x : UInt16) : List UInt8 := beBytesOn 2 x.toNat

def be32 (x : UInt32) : List UInt8 := beBytesOn 4 x.toNat

def readBe16 (data : List UInt8) (i : ℕ) : UInt16 :=
  UInt16.ofNat (ofBeBytes ((data.drop i).take 2))

def readBe32 (data : List UInt8) (i : ℕ) : UInt32 :=
  UInt32.ofNat (ofBeBytes ((data.drop i).take 4))

variable (x : UInt16)

@[simp] theorem length_be16 : (be16 x).length = 2 := length_beBytesOn 2 _

@[simp] theorem length_be32 (x : UInt32) : (be32 x).length = 4 := length_beBytesOn 4 _

variable {rest : List UInt8} {i : ℕ}

theorem readBe16_of_drop {x : UInt16} (field : data.drop i = be16 x ++ rest) :
    readBe16 data i = x := by
  rw [readBe16, field, be16, List.take_left' (length_beBytesOn 2 _),
    ofBeBytes_beBytesOn x.toNat_lt, UInt16.ofNat_toNat]

theorem readBe32_of_drop {x : UInt32} (field : data.drop i = be32 x ++ rest) :
    readBe32 data i = x := by
  rw [readBe32, field, be32, List.take_left' (length_beBytesOn 4 _),
    ofBeBytes_beBytesOn x.toNat_lt, UInt32.ofNat_toNat]

/-! ## The checksum -/

/-- The 16-bit words of `data` added to `sum`, an odd last byte as a high half. -/
def addWords (sum : UInt32) : List UInt8 → UInt32
  | [] => sum
  | [byte] => sum + (byte.toUInt32 <<< 8)
  | high :: low :: data => addWords (sum + (high.toUInt32 <<< 8 ||| low.toUInt32)) data

def foldRound (sum : UInt32) : UInt32 := (sum &&& (0xFFFF : UInt32)) + (sum >>> 16)

variable (sum : UInt32)

theorem toNat_foldRound : (foldRound sum).toNat = sum.toNat % 65536 + sum.toNat / 65536 := by
  have low : (sum &&& (0xFFFF : UInt32)).toNat = sum.toNat % 2 ^ 16 :=
    and_two_pow_sub_one_eq_mod _ 16
  have high : (sum >>> 16).toNat = sum.toNat / 2 ^ 16 := shiftRight_eq_div_pow _ 16
  have word := sum.toNat_lt
  rw [foldRound, UInt32.toNat_add]
  omega

/-- The loop that folds the carries. -/
def foldCarries (sum : UInt32) : UInt32 :=
  if sum > 0xFFFF then foldCarries (foldRound sum) else sum
termination_by sum.toNat
decreasing_by
  rename_i large
  have big : 0xFFFF < sum.toNat := large
  rw [toNat_foldRound]
  omega

/-- The complement of the folded sum of `data`, on top of what `sum` has already. -/
def checksumFrom (sum : UInt32) (data : List UInt8) : UInt16 :=
  (~~~ foldCarries (addWords sum data)).toUInt16

def computeChecksum (header : List UInt8) : UInt16 := checksumFrom 0 header

/-- A checksum written to the two bytes from `i` on. -/
def putChecksum (data : List UInt8) (i : ℕ) (cksum : UInt16) : List UInt8 :=
  (data.set i (cksum >>> 8).toUInt8).set (i + 1) (cksum &&& 0xFF).toUInt8

variable (high : UInt8)

theorem toNat_high : (high.toUInt32 <<< 8).toNat = 256 * high.toNat := by
  have := high.toNat_lt
  have shifted : (high.toUInt32 <<< 8).toNat = high.toNat <<< 8 % 2 ^ 32 := rfl
  omega

theorem toNat_high_or_low (low : UInt8) :
    (high.toUInt32 <<< 8 ||| low.toUInt32).toNat = 256 * high.toNat + low.toNat := by
  have merged := shiftLeft_add_eq_or_of_lt low.toNat_lt high.toNat
  rw [UInt32.toNat_or, toNat_high, UInt8.toNat_toUInt32, mul_comm, show high.toNat * 256 =
    high.toNat <<< 8 from (shiftLeft_eq _ 8).symm, ← merged]

theorem toNat_high_or_low_le (low : UInt8) :
    (high.toUInt32 <<< 8 ||| low.toUInt32).toNat ≤ 65535 := by
  have highByte := high.toNat_lt
  have lowByte := low.toNat_lt
  rw [toNat_high_or_low]
  omega

theorem toNat_addWords (data : List UInt8) :
    (addWords sum data).toNat = (sum.toNat + wordSum data) % 2 ^ 32 := by
  fun_induction addWords sum data with
  | case1 sum =>
    rw [wordSum_nil, add_zero, mod_eq_of_lt sum.toNat_lt]
  | case2 sum byte => rw [UInt32.toNat_add, toNat_high, wordSum_singleton]
  | case3 sum high low data ih =>
    rw [ih, UInt32.toNat_add, toNat_high_or_low, wordSum_cons_cons, mod_add_mod, add_assoc]

theorem toNat_foldCarries : (foldCarries sum).toNat = foldCarry sum.toNat := by
  fun_induction foldCarries sum with
  | case1 sum large ih =>
    have big : 65535 < sum.toNat := large
    rw [ih, toNat_foldRound]
    conv_rhs => rw [foldCarry, if_pos big]
  | case2 sum small =>
    have fits : ¬ 65535 < sum.toNat := small
    rw [foldCarry, if_neg fits]

theorem toNat_halves : 256 * (x >>> 8).toUInt8.toNat + (x &&& 0xFF).toUInt8.toNat = x.toNat := by
  have word := x.toNat_lt
  have high : (x >>> 8).toUInt8.toNat = x.toNat >>> 8 % 2 ^ 8 := rfl
  have low : (x &&& 0xFF).toUInt8.toNat = (x.toNat &&& (2 ^ 8 - 1)) % 2 ^ 8 := rfl
  rw [low, and_two_pow_sub_one_eq_mod]
  omega

theorem be16_eq_halves : be16 x = [(x >>> 8).toUInt8, (x &&& 0xFF).toUInt8] := by
  have value : ofBeBytes [(x >>> 8).toUInt8, (x &&& 0xFF).toUInt8] = x.toNat := by
    rw [← toNat_halves x, ofBeBytes_cons, ofBeBytes_cons, ofBeBytes_nil, List.length_singleton,
      List.length_nil]
    omega
  have fits : x.toNat < 256 ^ 2 := x.toNat_lt
  exact ((eq_beBytesOn_iff fits).mpr ⟨rfl, value⟩).symm

theorem putChecksum_append {front : List UInt8} (length : front.length = i) {a b : UInt8}
    (cksum : UInt16) :
    putChecksum (front ++ [a, b] ++ rest) i cksum = front ++ be16 cksum ++ rest := by
  subst length
  rw [be16_eq_halves, putChecksum]
  simp

section Sum

variable {sum : UInt32} {data : List UInt8}

theorem toNat_checksumFrom (fits : sum.toNat + wordSum data < 2 ^ 32) :
    (checksumFrom sum data).toNat = 65535 - foldCarry (sum.toNat + wordSum data) := by
  have folded : (foldCarries (addWords sum data)).toNat = foldCarry (sum.toNat + wordSum data) := by
    rw [toNat_foldCarries, toNat_addWords, mod_eq_of_lt fits]
  have bound := foldCarry_le (sum.toNat + wordSum data)
  have inverted : (~~~ foldCarries (addWords sum data)).toNat =
      2 ^ 32 - 1 - (foldCarries (addWords sum data)).toNat := BitVec.toNat_not
  have narrowed : (checksumFrom sum data).toNat =
      (~~~ foldCarries (addWords sum data)).toNat % 2 ^ 16 := rfl
  omega

theorem checksumFrom_eq_zero_iff (fits : sum.toNat + wordSum data < 2 ^ 32)
    (pos : 0 < sum.toNat + wordSum data) :
    checksumFrom sum data = 0 ↔ sum.toNat + wordSum data ≡ 0 [MOD 65535] := by
  have bound := foldCarry_le (sum.toNat + wordSum data)
  rw [← foldCarry_eq_ones_iff pos, ← UInt16.toNat_inj, toNat_checksumFrom fits, UInt16.toNat_zero]
  omega

/-- The checksum of the data, in a place where the data has zeros, completes the sum. -/
theorem checksumFrom_putChecksum (inside : 2 * i + 1 < data.length) (blank : wordAt data i = 0)
    (fits : sum.toNat + wordSum data + 65535 < 2 ^ 32) (pos : 0 < sum.toNat + wordSum data) :
    checksumFrom sum (putChecksum data (2 * i) (checksumFrom sum data)) = 0 := by
  have own := toNat_checksumFrom (lt_of_le_of_lt (le_add_right _ 65535) fits)
  have total : wordSum (putChecksum data (2 * i) (checksumFrom sum data)) =
      wordSum data + (65535 - foldCarry (sum.toNat + wordSum data)) := by
    rw [putChecksum, wordSum_set inside blank, toNat_halves, own]
  have bound := foldCarry_le (sum.toNat + wordSum data)
  have congruent := foldCarry_modEq (sum.toNat + wordSum data)
  rw [checksumFrom_eq_zero_iff (by omega) (by omega)]
  unfold Nat.ModEq at *
  omega

end Sum

/-! ## Packets -/

namespace Ipv4

def protoTcp : UInt8 := 6
def ipv4HeaderLen : ℕ := 20

structure Ipv4Header where
  versionIhl : UInt8
  dscpEcn : UInt8
  totalLength : UInt16
  identification : UInt16
  flagsFragment : UInt16
  ttl : UInt8
  protocol : UInt8
  checksum : UInt16
  srcIp : Ipv4Addr
  dstIp : Ipv4Addr

/-- The fields of a header, from data that is long enough for one. -/
def readHeader (data : List UInt8) : Ipv4Header where
  versionIhl := data.getD 0 0
  dscpEcn := data.getD 1 0
  totalLength := readBe16 data 2
  identification := readBe16 data 4
  flagsFragment := readBe16 data 6
  ttl := data.getD 8 0
  protocol := data.getD 9 0
  checksum := readBe16 data 10
  srcIp := #v[data.getD 12 0, data.getD 13 0, data.getD 14 0, data.getD 15 0]
  dstIp := #v[data.getD 16 0, data.getD 17 0, data.getD 18 0, data.getD 19 0]

/-- The header and the payload of a packet. There is no result where the code panics, which is
where the total length ends before the header does. -/
def parse (data : List UInt8) : Option (Option (Ipv4Header × List UInt8)) :=
  if data.length < ipv4HeaderLen then some none
  else if data.getD 0 0 >>> 4 ≠ 4 then some none
  else
    let ihl := (data.getD 0 0 &&& 0x0F).toNat * 4
    if ihl < ipv4HeaderLen ∨ data.length < ihl then some none
    else
      let header := readHeader data
      let actualLen := min header.totalLength.toNat data.length
      if actualLen < ihl then none else some (some (header, (data.take actualLen).drop ihl))

/-- The header with zeros for the checksum. -/
def blankHeader (id : UInt16) (srcIp dstIp : Ipv4Addr) (protocol : UInt8) (totalLength : UInt16) :
    List UInt8 :=
  [0x45, 0x00] ++ be16 totalLength ++ be16 id ++ be16 0x4000 ++ [64, protocol] ++ [0, 0] ++
    srcIp.toList ++ dstIp.toList

/-- The packet, and the identification counter after the call. -/
def build (idCounter : UInt16) (srcIp dstIp : Ipv4Addr) (protocol : UInt8) (payload : List UInt8) :
    List UInt8 × UInt16 :=
  let totalLength := UInt16.ofNat (ipv4HeaderLen + payload.length)
  let packet := blankHeader idCounter srcIp dstIp protocol totalLength
  let cksum := computeChecksum (packet.take ipv4HeaderLen)
  (putChecksum packet 10 cksum ++ payload, idCounter + 1)

def header (id : UInt16) (srcIp dstIp : Ipv4Addr) (protocol : UInt8) (totalLength cksum : UInt16) :
    List UInt8 :=
  [0x45, 0x00] ++ be16 totalLength ++ be16 id ++ be16 0x4000 ++ [64, protocol] ++ be16 cksum ++
    srcIp.toList ++ dstIp.toList

variable {payload : List UInt8}

section Layout

variable (id : UInt16) (srcIp dstIp : Ipv4Addr) (protocol : UInt8) (totalLength cksum : UInt16)

@[simp] theorem length_header :
    (header id srcIp dstIp protocol totalLength cksum).length = ipv4HeaderLen := by
  simp [header, ipv4HeaderLen]

@[simp] theorem length_blankHeader :
    (blankHeader id srcIp dstIp protocol totalLength).length = ipv4HeaderLen := by
  simp [blankHeader, ipv4HeaderLen]

theorem putChecksum_blankHeader :
    putChecksum (blankHeader id srcIp dstIp protocol totalLength) 10 cksum =
      header id srcIp dstIp protocol totalLength cksum := by
  rw [blankHeader, List.append_assoc _ srcIp.toList, putChecksum_append (by simp), header,
    List.append_assoc _ srcIp.toList]

/-- What is read from a packet with a header of that form. -/
def sentHeader : Ipv4Header where
  versionIhl := 0x45
  dscpEcn := 0
  totalLength := totalLength
  identification := id
  flagsFragment := 0x4000
  ttl := 64
  protocol := protocol
  checksum := cksum
  srcIp := srcIp
  dstIp := dstIp

theorem readHeader_append (payload : List UInt8) :
    readHeader (header id srcIp dstIp protocol totalLength cksum ++ payload) =
      sentHeader id srcIp dstIp protocol totalLength cksum := by
  rw [header, srcIp.toList_eq, dstIp.toList_eq, Ipv4Header.mk.injEq]
  exact ⟨rfl, rfl, readBe16_of_drop rfl, readBe16_of_drop rfl, readBe16_of_drop rfl, rfl, rfl,
    readBe16_of_drop rfl, srcIp.mk_eq, dstIp.mk_eq⟩

/-- A packet with a header of that form and the right length is parsed into its parts. -/
theorem parse_header_append (length : totalLength.toNat = ipv4HeaderLen + payload.length) :
    parse (header id srcIp dstIp protocol totalLength cksum ++ payload) =
      some (some (sentHeader id srcIp dstIp protocol totalLength cksum, payload)) := by
  have fields := readHeader_append id srcIp dstIp protocol totalLength cksum payload
  have first : (header id srcIp dstIp protocol totalLength cksum ++ payload).getD 0 0 = 0x45 := rfl
  have size : (header id srcIp dstIp protocol totalLength cksum ++ payload).length =
      totalLength.toNat := by
    rw [List.length_append, length_header, length]
  have long : ¬ totalLength.toNat < ipv4HeaderLen := by omega
  have rest : (header id srcIp dstIp protocol totalLength cksum ++ payload).drop ipv4HeaderLen =
      payload := List.drop_left' (length_header ..)
  have ihl : ((0x45 : UInt8) &&& 0x0F).toNat * 4 = ipv4HeaderLen := rfl
  have total : (sentHeader id srcIp dstIp protocol totalLength cksum).totalLength = totalLength :=
    rfl
  rw [parse, size, if_neg long, first, if_neg (by decide)]
  simp only [ihl, fields, total]
  rw [if_neg (by omega), min_self, if_neg long, List.take_of_length_le (le_of_eq size), rest]

theorem wordSum_first_pos (rest : List UInt8) : 0 < wordSum (0x45 :: 0x00 :: rest) := by
  rw [wordSum_cons_cons]
  exact Nat.add_pos_left (by decide) _

theorem computeChecksum_header : computeChecksum (header id srcIp dstIp protocol totalLength
      (computeChecksum (blankHeader id srcIp dstIp protocol totalLength))) = 0 := by
  have length := length_blankHeader id srcIp dstIp protocol totalLength
  have bound := wordSum_le (blankHeader id srcIp dstIp protocol totalLength)
  have pos : 0 < wordSum (blankHeader id srcIp dstIp protocol totalLength) := wordSum_first_pos _
  rw [length, ipv4HeaderLen] at bound
  rw [← putChecksum_blankHeader]
  refine checksumFrom_putChecksum (i := 5) ?_ rfl ?_ ?_
  · rw [length]
    decide
  · rw [UInt32.toNat_zero]
    omega
  · rwa [UInt32.toNat_zero, zero_add]

/-- A header passes the check exactly if its words sum up to zero. -/
theorem computeChecksum_header_eq_zero_iff :
    computeChecksum (header id srcIp dstIp protocol totalLength cksum) = 0 ↔
      wordSum (header id srcIp dstIp protocol totalLength cksum) ≡ 0 [MOD 65535] := by
  have bound := wordSum_le (header id srcIp dstIp protocol totalLength cksum)
  have pos : 0 < wordSum (header id srcIp dstIp protocol totalLength cksum) := wordSum_first_pos _
  rw [length_header, ipv4HeaderLen] at bound
  rw [computeChecksum, checksumFrom_eq_zero_iff] <;> rw [UInt32.toNat_zero, zero_add]
  · omega
  · exact pos

end Layout

theorem toNat_totalLength (fits : payload.length ≤ 65515) :
    (UInt16.ofNat (ipv4HeaderLen + payload.length)).toNat = ipv4HeaderLen + payload.length := by
  refine UInt16.toNat_ofNat_of_lt' ?_
  rw [ipv4HeaderLen, UInt16.size]
  omega

variable (idCounter : UInt16)

theorem build_eq (srcIp dstIp : Ipv4Addr) (protocol : UInt8) :
    (build idCounter srcIp dstIp protocol payload).1 =
      header idCounter srcIp dstIp protocol (UInt16.ofNat (ipv4HeaderLen + payload.length))
        (computeChecksum (blankHeader idCounter srcIp dstIp protocol
          (UInt16.ofNat (ipv4HeaderLen + payload.length)))) ++ payload := by
  rw [build, List.take_of_length_le (le_of_eq (length_blankHeader ..)), putChecksum_blankHeader]

theorem parse_build (srcIp dstIp : Ipv4Addr) (protocol : UInt8) (fits : payload.length ≤ 65515) :
    ∃ cksum, parse (build idCounter srcIp dstIp protocol payload).1 =
      some (some (sentHeader idCounter srcIp dstIp protocol
        (UInt16.ofNat (ipv4HeaderLen + payload.length)) cksum, payload)) := by
  rw [build_eq]
  exact ⟨_, parse_header_append _ _ _ _ _ _ (toNat_totalLength fits)⟩

/-- The header of a packet that is built passes the check, and its words sum up to zero. -/
theorem computeChecksum_build (srcIp dstIp : Ipv4Addr) (protocol : UInt8) (payload : List UInt8) :
    computeChecksum ((build idCounter srcIp dstIp protocol payload).1.take ipv4HeaderLen) = 0 ∧
      wordSum ((build idCounter srcIp dstIp protocol payload).1.take ipv4HeaderLen) ≡ 0
        [MOD 65535] := by
  rw [build_eq, List.take_left' (length_header ..), ← computeChecksum_header_eq_zero_iff, and_self]
  exact computeChecksum_header ..

end Ipv4

end SmartOs.Net
