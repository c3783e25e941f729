/-
# TCP segments in packets

Building and parsing of segments and their checksum with the pseudo-header of the two addresses.
A segment that is built, put into a packet and parsed again comes back as it was. Both checksums
hold, and a segment with one word changed, other than by a multiple of 65535, fails the check.
-/

import SmartOs.Net.Ipv4
import SmartOs.Net.Tcp

namespace SmartOs.Net.Tcp

open Math

def tcpHeaderMin : ℕ := 20

/-- The header of a segment, with the fields that the state machine does not read. -/
structure WireHeader extends TcpHeader where
  dataOffset : UInt8
  checksum : UInt16
  urgentPtr : UInt16
  deriving DecidableEq

/-- The fields of a header, from data that is long enough for one. -/
def readHeader (data : List UInt8) : WireHeader where
  srcPort := readBe16 data 0
  dstPort := readBe16 data 2
  seqNum := readBe32 data 4
  ackNum := readBe32 data 8
  dataOffset := data.getD 12 0 >>> 4
  flags := data.getD 13 0
  windowSize := readBe16 data 14
  checksum := readBe16 data 16
  urgentPtr := readBe16 data 18

def parse (data : List UInt8) : Option (WireHeader × List UInt8) :=
  if data.length < tcpHeaderMin then none
  else
    let dataOffset := (data.getD 12 0 >>> 4).toNat * 4
    if dataOffset < tcpHeaderMin ∨ data.length < dataOffset then none
    else some (readHeader data, data.drop dataOffset)

/-- The sum of the pseudo-header. -/
def pseudoHeader (srcIp dstIp : Ipv4Addr) (length : ℕ) : UInt32 :=
  (srcIp[0]!.toUInt32 <<< 8 ||| srcIp[1]!.toUInt32) +
    (srcIp[2]!.toUInt32 <<< 8 ||| srcIp[3]!.toUInt32) +
    (dstIp[0]!.toUInt32 <<< 8 ||| dstIp[1]!.toUInt32) +
    (dstIp[2]!.toUInt32 <<< 8 ||| dstIp[3]!.toUInt32) + Ipv4.protoTcp.toUInt32 + UInt32.ofNat length

def tcpChecksum (srcIp dstIp : Ipv4Addr) (tcpSegment : List UInt8) : UInt16 :=
  checksumFrom (pseudoHeader srcIp dstIp tcpSegment.length) tcpSegment

/-- The segment with zeros for the checksum. -/
def blankSegment (srcPort dstPort : UInt16) (seqNum ackNum : UInt32) (flags : UInt8)
    (window : UInt16) (payload : List UInt8) : List UInt8 :=
  be16 srcPort ++ be16 dstPort ++ be32 seqNum ++ be32 ackNum ++ [0x50, flags] ++ be16 window ++
    [0, 0] ++ ([0, 0] ++ payload)

def buildSegment (srcPort dstPort : UInt16) (seqNum ackNum : UInt32) (flags : UInt8)
    (window : UInt16) (payload : List UInt8) (srcIp dstIp : Ipv4Addr) : List UInt8 :=
  let segment := blankSegment srcPort dstPort seqNum ackNum flags window payload
  putChecksum segment 16 (tcpChecksum srcIp dstIp segment)

/-! ## The pseudo-header -/

/-- What stands in front of a segment for its checksum, as bytes. -/
def pseudoBytes (srcIp dstIp : Ipv4Addr) (length : ℕ) : List UInt8 :=
  srcIp.toList ++ dstIp.toList ++ [0, Ipv4.protoTcp] ++ be16 (UInt16.ofNat length)

/-- For a segment that fits a packet, the code adds up the words of the pseudo-header without losing
a carry. The sum is not zero and leaves room for that of the segment. -/
theorem toNat_pseudoHeader (srcIp dstIp : Ipv4Addr) {length : ℕ} (fits : length ≤ 65535) :
    0 < (pseudoHeader srcIp dstIp length).toNat ∧
      (pseudoHeader srcIp dstIp length).toNat ≤ 6 * 65535 ∧
      ∀ segment, wordSum (pseudoBytes srcIp dstIp length ++ segment) =
        (pseudoHeader srcIp dstIp length).toNat + wordSum segment := by
  have six : Ipv4.protoTcp.toUInt32.toNat = 6 := rfl
  have size : (UInt32.ofNat length).toNat = length := UInt32.toNat_ofNat_of_lt' (by
    rw [UInt32.size]
    omega)
  have src := toNat_high_or_low_le srcIp[0]! srcIp[1]!
  have src' := toNat_high_or_low_le srcIp[2]! srcIp[3]!
  have dst := toNat_high_or_low_le dstIp[0]! dstIp[1]!
  have dst' := toNat_high_or_low_le dstIp[2]! dstIp[3]!
  simp only [pseudoHeader, UInt32.toNat_add]
  refine ⟨by omega, by omega, fun segment => ?_⟩
  have size' : (UInt16.ofNat length).toNat = length := UInt16.toNat_ofNat_of_lt' (by
    rw [UInt16.size]
    omega)
  have halves := toNat_halves (UInt16.ofNat length)
  have protocol : 256 * (0 : UInt8).toNat + Ipv4.protoTcp.toNat = 6 := rfl
  have bytes (ip : Ipv4Addr) : ip.toList = [ip[0]!, ip[1]!, ip[2]!, ip[3]!] := ip.toList_eq
  simp only [pseudoBytes, bytes, be16_eq_halves, List.cons_append, List.nil_append,
    wordSum_cons_cons, toNat_high_or_low] at *
  omega

theorem tcpChecksum_fits (srcIp dstIp : Ipv4Addr) {segment : List UInt8}
    (fits : segment.length ≤ 65535) :
    (pseudoHeader srcIp dstIp segment.length).toNat + wordSum segment + 65535 < 2 ^ 32 := by
  have pseudo := (toNat_pseudoHeader srcIp dstIp fits).2.1
  have bound := wordSum_le segment
  omega

theorem tcpChecksum_eq_zero_iff (srcIp dstIp : Ipv4Addr) {segment : List UInt8}
    (fits : segment.length ≤ 65535) : tcpChecksum srcIp dstIp segment = 0 ↔
      (pseudoHeader srcIp dstIp segment.length).toNat + wordSum segment ≡ 0 [MOD 65535] := by
  have room := tcpChecksum_fits srcIp dstIp fits
  have positive := (toNat_pseudoHeader srcIp dstIp fits).1
  exact checksumFrom_eq_zero_iff (by omega) (by omega)

/-- If a segment passes the check, one with a word changed by other than a multiple of 65535 does
not. -/
theorem tcpChecksum_ne_zero_of_changed {srcIp dstIp : Ipv4Addr} {segment changed : List UInt8}
    (fits : segment.length ≤ 65535) (passes : tcpChecksum srcIp dstIp segment = 0)
    (length : changed.length = segment.length) {i : ℕ}
    (others : ∀ j, j ≠ i → wordAt changed j = wordAt segment j)
    (differs : ¬ wordAt changed i ≡ wordAt segment i [MOD 65535]) :
    tcpChecksum srcIp dstIp changed ≠ 0 := by
  intro ok
  have sums := wordSum_add_wordAt length others
  rw [tcpChecksum_eq_zero_iff srcIp dstIp fits] at passes
  rw [tcpChecksum_eq_zero_iff srcIp dstIp (length.symm ▸ fits), length] at ok
  unfold Nat.ModEq at *
  omega

/-! ## Layout -/

/-- The segment with a checksum. -/
def segment (srcPort dstPort : UInt16) (seqNum ackNum : UInt32) (flags : UInt8) (window : UInt16)
    (payload : List UInt8) (cksum : UInt16) : List UInt8 :=
  be16 srcPort ++ be16 dstPort ++ be32 seqNum ++ be32 ackNum ++ [0x50, flags] ++ be16 window ++
    be16 cksum ++ ([0, 0] ++ payload)

section Layout

variable (srcPort dstPort : UInt16) (seqNum ackNum : UInt32) (flags : UInt8) (window : UInt16)
  (payload : List UInt8)

@[simp] theorem length_blankSegment :
    (blankSegment srcPort dstPort seqNum ackNum flags window payload).length =
      tcpHeaderMin + payload.length := by
  simp [blankSegment, tcpHeaderMin]
  omega

variable (cksum : UInt16)

@[simp] theorem length_segment :
    (segment srcPort dstPort seqNum ackNum flags window payload cksum).length =
      tcpHeaderMin + payload.length := by
  simp [segment, tcpHeaderMin]
  omega

theorem putChecksum_blankSegment :
    putChecksum (blankSegment srcPort dstPort seqNum ackNum flags window payload) 16 cksum =
      segment srcPort dstPort seqNum ackNum flags window payload cksum :=
  putChecksum_append (by simp) cksum

/-- What is read from a segment. -/
def sentHeader (cksum : UInt16) : WireHeader where
  srcPort := srcPort
  dstPort := dstPort
  seqNum := seqNum
  ackNum := ackNum
  dataOffset := 5
  flags := flags
  windowSize := window
  checksum := cksum
  urgentPtr := 0

theorem parse_segment : parse (segment srcPort dstPort seqNum ackNum flags window payload cksum) =
      some (sentHeader srcPort dstPort seqNum ackNum flags window cksum, payload) := by
  have offset : (segment srcPort dstPort seqNum ackNum flags window payload cksum).getD 12 0 =
      0x50 := rfl
  have rest : (segment srcPort dstPort seqNum ackNum flags window payload cksum).drop tcpHeaderMin =
      payload := rfl
  have fields : readHeader (segment srcPort dstPort seqNum ackNum flags window payload cksum) =
      sentHeader srcPort dstPort seqNum ackNum flags window cksum := by
    rw [readHeader, sentHeader, WireHeader.mk.injEq, TcpHeader.mk.injEq, offset]
    exact ⟨⟨readBe16_of_drop rfl, readBe16_of_drop rfl, readBe32_of_drop rfl,
      readBe32_of_drop rfl, rfl, readBe16_of_drop rfl⟩, by decide, readBe16_of_drop rfl,
      readBe16_of_drop rfl⟩
  have dataOffset : ((0x50 : UInt8) >>> 4).toNat * 4 = tcpHeaderMin := rfl
  rw [parse, length_segment, if_neg (by omega), offset]
  simp only [dataOffset]
  rw [if_neg (by omega), fields, rest]

theorem tcpChecksum_buildSegment (srcIp dstIp : Ipv4Addr) (fits : payload.length ≤ 65515) :
    tcpChecksum srcIp dstIp
      (buildSegment srcPort dstPort seqNum ackNum flags window payload srcIp dstIp) = 0 := by
  have length := length_blankSegment srcPort dstPort seqNum ackNum flags window payload
  have size : (blankSegment srcPort dstPort seqNum ackNum flags window payload).length ≤ 65535 := by
    rw [length, tcpHeaderMin]
    omega
  have room := tcpChecksum_fits srcIp dstIp size
  have positive := (toNat_pseudoHeader srcIp dstIp size).1
  have same : (buildSegment srcPort dstPort seqNum ackNum flags window payload srcIp dstIp).length =
      (blankSegment srcPort dstPort seqNum ackNum flags window payload).length := by
    simp [buildSegment, putChecksum]
  rw [tcpChecksum, same]
  refine checksumFrom_putChecksum (i := 8) ?_ rfl room (by omega)
  rw [length, tcpHeaderMin]
  omega

end Layout

/-- A segment in a packet. With a payload that fits, both layers of headers are parsed into what
they were built from, both checksums hold, also as sums of words, and no change of a single word of
the segment is left undetected unless the two values agree modulo 65535. -/
theorem parse_build_buildSegment (idCounter srcPort dstPort : UInt16) (seqNum ackNum : UInt32)
    (flags : UInt8) (window : UInt16) (srcIp dstIp : Ipv4Addr) (payload : List UInt8)
    (fits : payload.length ≤ 65495) :
    let built := buildSegment srcPort dstPort seqNum ackNum flags window payload srcIp dstIp
    let packet := (Ipv4.build idCounter srcIp dstIp Ipv4.protoTcp built).1
    (∃ cksum, Ipv4.parse packet = some (some (Ipv4.sentHeader idCounter srcIp dstIp Ipv4.protoTcp
        (UInt16.ofNat (40 + payload.length)) cksum, built))) ∧
    (∃ cksum, parse built =
      some (sentHeader srcPort dstPort seqNum ackNum flags window cksum, payload)) ∧
    (computeChecksum (packet.take Ipv4.ipv4HeaderLen) = 0 ∧
      wordSum (packet.take Ipv4.ipv4HeaderLen) ≡ 0 [MOD 65535]) ∧
    (tcpChecksum srcIp dstIp built = 0 ∧
      wordSum (pseudoBytes srcIp dstIp built.length ++ built) ≡ 0 [MOD 65535]) ∧
    ∀ (changed : List UInt8) (i : ℕ), changed.length = built.length →
      (∀ j, j ≠ i → wordAt changed j = wordAt built j) →
      ¬ wordAt changed i ≡ wordAt built i [MOD 65535] → tcpChecksum srcIp dstIp changed ≠ 0 := by
  intro built packet
  have layout : built = segment srcPort dstPort seqNum ackNum flags window payload _ :=
    putChecksum_blankSegment srcPort dstPort seqNum ackNum flags window payload _
  have length : built.length = 20 + payload.length := by
    rw [layout, length_segment, tcpHeaderMin]
  have total : Ipv4.ipv4HeaderLen + built.length = 40 + payload.length := by
    rw [Ipv4.ipv4HeaderLen]
    omega
  have passes : tcpChecksum srcIp dstIp built = 0 :=
    tcpChecksum_buildSegment srcPort dstPort seqNum ackNum flags window payload srcIp dstIp
      (by omega)
  refine ⟨?_, ?_, ?_, ⟨passes, ?_⟩, ?_⟩
  · rw [← total]
    exact Ipv4.parse_build idCounter srcIp dstIp Ipv4.protoTcp (by omega)
  · exact ⟨_, (congrArg parse layout).trans (parse_segment ..)⟩
  · exact Ipv4.computeChecksum_build idCounter srcIp dstIp Ipv4.protoTcp built
  · rw [(toNat_pseudoHeader srcIp dstIp (by omega)).2.2]
    exact (tcpChecksum_eq_zero_iff srcIp dstIp (by omega)).mp passes
  · intro changed i same others differs
    exact tcpChecksum_ne_zero_of_changed (by omega) passes same others differs

/-- A segment with three bytes between two hosts, and the same segment with another source port. -/
theorem parse_build_buildSegment_three :
    let built := buildSegment 49152 80 1 1 Flag.ack windowSize [71, 69, 84] #v[10, 0, 2, 15]
      #v[10, 0, 2, 2]
    (∃ cksum, parse built =
      some (sentHeader 49152 80 1 1 Flag.ack windowSize cksum, [71, 69, 84])) ∧
      wordSum (pseudoBytes #v[10, 0, 2, 15] #v[10, 0, 2, 2] 23 ++ built) ≡ 0 [MOD 65535] ∧
      tcpChecksum #v[10, 0, 2, 15] #v[10, 0, 2, 2] (built.set 0 0xC1) ≠ 0 := by
  obtain ⟨-, parsed, -, ⟨-, sum⟩, detected⟩ := parse_build_buildSegment 1 49152 80 1 1 Flag.ack
    windowSize #v[10, 0, 2, 15] #v[10, 0, 2, 2] [71, 69, 84] (by decide)
  refine ⟨parsed, sum, detected _ 0 List.length_set ?_ (by decide)⟩
  intro j other
  simp only [wordAt, List.getD_eq_getElem?_getD]
  rw [List.getElem?_set_ne (by omega), List.getElem?_set_ne (by omega)]

/-! ## Packets from the network -/

/-- Both layers are parsed without a panic: the payload of the packet runs from the end of its
header up to its total length or its end, and a segment in it reads only bytes that are there. -/
def ParsesSafely (data : List UInt8) : Prop :=
  ∃ result, Ipv4.parse data = some result ∧ ∀ header payload, result = some (header, payload) →
    payload = (data.take (min header.totalLength.toNat data.length)).drop
      ((header.versionIhl &&& 0x0F).toNat * 4) ∧
    (header.protocol = Ipv4.protoTcp → ∀ segment rest, parse payload = some (segment, rest) →
      tcpHeaderMin ≤ segment.dataOffset.toNat * 4 ∧ segment.dataOffset.toNat * 4 ≤ payload.length ∧
      rest = payload.drop (segment.dataOffset.toNat * 4))

theorem dataOffset_of_parse {data rest : List UInt8} {segment : WireHeader}
    (parsed : parse data = some (segment, rest)) :
    tcpHeaderMin ≤ segment.dataOffset.toNat * 4 ∧ segment.dataOffset.toNat * 4 ≤ data.length ∧
      rest = data.drop (segment.dataOffset.toNat * 4) := by
  simp only [parse, Option.ite_none_left_eq_some, Option.some.injEq, Prod.mk.injEq] at parsed
  obtain ⟨-, inside, rfl, rfl⟩ := parsed
  rw [not_or, not_lt, not_lt] at inside
  exact ⟨inside.1, inside.2, rfl⟩

/-- The parser panics on a packet with a header in place whose total length ends inside that
header, and on no other. -/
theorem parsesSafely_iff (data : List UInt8) : ParsesSafely data ↔
    data.length < Ipv4.ipv4HeaderLen ∨ data.getD 0 0 >>> 4 ≠ 4 ∨
    (data.getD 0 0 &&& 0x0F).toNat * 4 < Ipv4.ipv4HeaderLen ∨
    data.length < (data.getD 0 0 &&& 0x0F).toNat * 4 ∨
    (data.getD 0 0 &&& 0x0F).toNat * 4 ≤ (readBe16 data 2).toNat := by
  have total : (Ipv4.readHeader data).totalLength = readBe16 data 2 := rfl
  rw [ParsesSafely, Ipv4.parse]
  simp only [total]
  split_ifs with short version length cut
  · exact iff_of_true ⟨none, rfl, by rintro _ _ ⟨⟩⟩ (.inl short)
  · exact iff_of_true ⟨none, rfl, by rintro _ _ ⟨⟩⟩ (.inr (.inl version))
  · exact iff_of_true ⟨none, rfl, by rintro _ _ ⟨⟩⟩ (by omega)
  · refine iff_of_false (by rintro ⟨_, ⟨⟩, _⟩) ?_
    rintro (_ | other | _)
    · omega
    · exact version other
    · omega
  · refine iff_of_true ⟨_, rfl, ?_⟩ (by omega)
    rintro _ _ ⟨⟩
    exact ⟨rfl, fun _ _ _ parsed => dataOffset_of_parse parsed⟩

/-- A header with a total length of zero. -/
theorem not_parsesSafely_zero_length : ¬ ParsesSafely (0x45 :: List.replicate 19 0) := by
  rintro ⟨_, ⟨⟩, -⟩

end SmartOs.Net.Tcp
