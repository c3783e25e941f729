/-
# DEFLATE decompression

The bit reader, the Huffman tables and the block driver of `net/inflate.rs`. Functions that take
the reader by mutable reference are computations over it; the output is passed along as a list.

The loops of the source end because every round consumes input, except the loop over the code
lengths of a dynamic block, where every round produces at least one length.
-/

import Mathlib.Data.List.Sort
import SmartOs.CS.Reader

namespace SmartOs.Net.Inflate

open CS List

inductive InflateError where
  | truncated
  | badHeader (message : String)
  | badBlock (message : String)
  | emptyHuffman
  | symbolNotInTree
  | badBackref
  deriving DecidableEq

/-! ## The bit reader -/

/-- At most 20 bits are ever held in `buf`, so it is not truncated to 32. -/
structure BitReader where
  src : List UInt8
  pos : ℕ
  buf : ℕ
  bits : ℕ

/-- Computations that read from the bit reader. -/
abbrev Inflater := EStateM InflateError BitReader

variable {br' br : BitReader} {n : ℕ}

namespace BitReader

def new (src : List UInt8) : BitReader := ⟨src, 0, 0, 0⟩

/-- The loop of `read_bits`: take bytes until `n` bits are held. -/
def fill (n : ℕ) (br : BitReader) : EStateM.Result InflateError BitReader Unit :=
  if br.bits < n then
    match br.src[br.pos]? with
    | none => .error .truncated br
    | some byte =>
      fill n { br with
        buf := br.buf ||| byte.toNat <<< br.bits
        pos := br.pos + 1
        bits := br.bits + 8 }
  else .ok () br
termination_by n - br.bits

/-- The end of `read_bits`: hand out the low `n` bits. -/
def takeBits (n : ℕ) : Inflater ℕ := fun br =>
  .ok (br.buf &&& (1 <<< n - 1)) { br with buf := br.buf >>> n, bits := br.bits - n }

def readBits (n : ℕ) : Inflater ℕ := do
  fill n
  takeBits n

def alignToByte : Inflater Unit := fun br =>
  let extra := br.bits &&& 7
  .ok () (if extra > 0 then { br with buf := br.buf >>> extra, bits := br.bits - extra } else br)

def readByte : Inflater UInt8 := do
  return .ofNat (← readBits 8)

def readU16Le : Inflater ℕ := do
  let lo ← readByte
  let hi ← readByte
  return lo.toNat ||| hi.toNat <<< 8

/-- The number of bits that can still be read. -/
def left (br : BitReader) : ℕ := br.bits + 8 * (br.src.length - br.pos)

theorem fill_left (filled : fill n br = .ok () br') : br'.left = br.left ∧ n ≤ br'.bits := by
  fun_induction fill n br with
  | case1 br more ended => cases filled
  | case2 br more byte found ih =>
    obtain ⟨same, enough⟩ := ih filled
    obtain ⟨inside, -⟩ := List.getElem?_eq_some_iff.mp found
    refine ⟨same.trans ?_, enough⟩
    simp only [left]
    omega
  | case3 br enough =>
    cases filled
    exact ⟨rfl, not_lt.mp enough⟩

theorem readBits_consumes (n : ℕ) : Consumes left n (readBits n) := by
  intro s v s' ok
  obtain ⟨_, filled, done, taken⟩ := bind_eq_ok_iff.mp ok
  obtain ⟨same, enough⟩ := fill_left done
  cases taken
  simp only [left] at same ⊢
  omega

theorem alignToByte_consumes : Consumes left 0 alignToByte := by
  intro s v s' ok
  cases ok
  split
  · simp only [left]
    omega
  · exact le_refl _

theorem readByte_consumes : Consumes left 0 readByte :=
  ((readBits_consumes 8).mono (Nat.zero_le 8)).bind_left fun _ => .pure _

theorem readU16Le_consumes : Consumes left 0 readU16Le :=
  readByte_consumes.bind_left fun _ => readByte_consumes.bind_left fun _ => .pure _

end BitReader

open BitReader

/-! ## Huffman tables -/

structure HuffTable where
  maxLen : ℕ
  firstCode : List ℕ
  symOffset : List ℕ
  syms : List ℕ
  deriving DecidableEq

variable (lengths : List ℕ) (table : HuffTable)

/-- `bl_count`: how many symbols have each length. -/
def blCount : List ℕ :=
  lengths.foldl (fun counts l => if 0 < l ∧ l < 16 then counts.modify l (· + 1) else counts)
    (replicate 16 0)

/-- One round of the loop for `next_code`, with the running code. -/
def nextCodeRound (counts : List ℕ) (acc : ℕ × List ℕ) (bits : ℕ) : ℕ × List ℕ :=
  let code := (acc.1 + counts.getD (bits - 1) 0) <<< 1
  (code, acc.2.set bits code)

/-- `next_code`: the first code of each length. -/
def nextCode : List ℕ :=
  ((range' 1 15).foldl (nextCodeRound (blCount lengths)) (0, replicate 16 0)).2

/-- The order of the table: by length, then by symbol. -/
def entryLe (a b : ℕ × ℕ) : Bool := a.1 < b.1 ∨ a.1 = b.1 ∧ a.2 ≤ b.2

/-- The pairs of length and symbol, without the symbols of length zero, in order. -/
def entries : List (ℕ × ℕ) :=
  (lengths.zipIdx.filter fun entry => 0 < entry.1).mergeSort entryLe

/-- The variables of the loop that fills the table. -/
structure TableState where
  prevLen : ℕ
  idx : ℕ
  firstCode : List ℕ
  symOffset : List ℕ
  syms : List ℕ

def TableState.empty : TableState := ⟨0, 0, replicate 16 0, replicate 16 0, []⟩

/-- When a greater length comes, the tables are set for all lengths up to it. -/
def TableState.grow (next : List ℕ) (st : TableState) (length : ℕ) : TableState :=
  let fills := range' (st.prevLen + 1) (length - st.prevLen)
  { st with
    symOffset := fills.foldl (fun offsets fill => offsets.set fill st.idx) st.symOffset
    firstCode := fills.foldl (fun codes fill => codes.set fill (next.getD fill 0)) st.firstCode
    prevLen := length }

/-- One entry of the table. -/
def TableState.add (next : List ℕ) (st : TableState) (entry : ℕ × ℕ) : TableState :=
  let st := if entry.1 ≠ st.prevLen then st.grow next entry.1 else st
  { st with syms := st.syms ++ [entry.2], idx := st.idx + 1 }

/-- The tables behind the greatest length in use stay zero. -/
def buildHuff : HuffTable :=
  let st := (entries lengths).foldl (TableState.add (nextCode lengths)) .empty
  { maxLen := ((entries lengths).getLast?.map (·.1)).getD 0
    firstCode := st.firstCode
    symOffset := st.symOffset
    syms := st.syms }

/-- The number of codes of a length, as `decode_symbol` computes it from the table. -/
def HuffTable.count (length : ℕ) : ℕ :=
  if length < 15 then table.symOffset.getD (length + 1) 0 - table.symOffset.getD length 0
  else table.syms.length - table.symOffset.getD length 0

/-- The loop of `decode_symbol`, with `rounds` lengths left to try. -/
def decodeFrom (code length : ℕ) : ℕ → Inflater ℕ
  | 0 => throw .symbolNotInTree
  | rounds + 1 => do
    let bit ← readBits 1
    let code := code <<< 1 ||| bit
    let first := table.firstCode.getD length 0
    if first ≤ code ∧ code < first + table.count length then
      return table.syms.getD (table.symOffset.getD length 0 + (code - first)) 0
    else decodeFrom code (length + 1) rounds

def decodeSymbol : Inflater ℕ :=
  if table.maxLen = 0 then throw .emptyHuffman else decodeFrom table 0 1 table.maxLen

/-! ## Lengths and distances -/

variable (litlen dist : HuffTable) (out : List UInt8) (sym : ℕ)

def lenBase : List ℕ :=
  [3, 4, 5, 6, 7, 8, 9, 10, 11, 13, 15, 17, 19, 23, 27, 31,
    35, 43, 51, 59, 67, 83, 99, 115, 131, 163, 195, 227, 258]

def lenExtra : List ℕ :=
  [0, 0, 0, 0, 0, 0, 0, 0, 1, 1, 1, 1, 2, 2, 2, 2, 3, 3, 3, 3, 4, 4, 4, 4, 5, 5, 5, 5, 0]

def distBase : List ℕ :=
  [1, 2, 3, 4, 5, 7, 9, 13, 17, 25, 33, 49, 65, 97, 129, 193,
    257, 385, 513, 769, 1025, 1537, 2049, 3073, 4097, 6145, 8193, 12289, 16385, 24577]

def distExtra : List ℕ :=
  [0, 0, 0, 0, 1, 1, 2, 2, 3, 3, 4, 4, 5, 5, 6, 6, 7, 7, 8, 8, 9, 9, 10, 10, 11, 11, 12, 12, 13, 13]

/-- A base value and, if the table says so, some more bits to add. -/
def readExtended (base extra : ℕ) : Inflater ℕ :=
  if extra > 0 then do return base + (← readBits extra) else return base

def readLength : Inflater ℕ :=
  if sym - 257 ≥ 29 then throw (.badBlock "bad length symbol")
  else readExtended (lenBase.getD (sym - 257) 0) (lenExtra.getD (sym - 257) 0)

def readDistance : Inflater ℕ :=
  if sym ≥ 30 then throw (.badBlock "bad distance symbol")
  else readExtended (distBase.getD sym 0) (distExtra.getD sym 0)

/-! ## Compressed data -/

/-- The copy of a back-reference, byte by byte from `start` on. -/
def copyFrom (start length : ℕ) (out : List UInt8) : List UInt8 :=
  (range length).foldl (fun out i => out ++ [out.getD (start + i) 0]) out

/-- One round of `inflate_huff`, which ends with the symbol 256. -/
def huffRound : Inflater (List UInt8 ⊕ List UInt8) := do
  let sym ← decodeSymbol litlen
  if sym < 256 then return .inl (out ++ [.ofNat sym])
  else if sym = 256 then return .inr out
  else
    let length ← readLength sym
    let dsym ← decodeSymbol dist
    let backd ← readDistance dsym
    if backd = 0 ∨ backd > out.length then throw .badBackref
    else return .inl (copyFrom (out.length - backd) length out)

theorem decodeFrom_consumes (code length rounds : ℕ) : Consumes left 0 (decodeFrom table code length
    rounds) := by
  induction rounds generalizing code length with
  | zero => exact .throw _
  | succ rounds ih =>
    apply ((readBits_consumes 1).mono (Nat.zero_le 1)).bind_left
    intro bit
    dsimp only
    split
    · exact .pure _
    · exact ih _ _

theorem decodeSymbol_consumes : Consumes left 1 (decodeSymbol table) := by
  rw [decodeSymbol]
  split
  · exact .throw _
  rename_i coded
  obtain ⟨rounds, length⟩ := Nat.exists_eq_succ_of_ne_zero coded
  rw [length]
  apply (readBits_consumes 1).bind_left
  intro bit
  dsimp only
  split
  · exact .pure _
  · exact decodeFrom_consumes _ _ _ _

theorem readExtended_consumes (base extra : ℕ) : Consumes left 0 (readExtended base extra) := by
  rw [readExtended]
  split
  · exact ((readBits_consumes extra).mono (Nat.zero_le _)).bind_left fun _ => .pure _
  · exact .pure _

theorem readLength_consumes : Consumes left 0 (readLength sym) := by
  rw [readLength]
  split
  · exact .throw _
  · exact readExtended_consumes _ _

theorem readDistance_consumes : Consumes left 0 (readDistance sym) := by
  rw [readDistance]
  split
  · exact .throw _
  · exact readExtended_consumes _ _

theorem huffRound_consumes : Consumes left 1 (huffRound litlen dist out) := by
  apply (decodeSymbol_consumes litlen).bind_left
  intro sym
  split
  · exact .pure _
  split
  · exact .pure _
  apply (readLength_consumes sym).bind_left
  intro length
  apply ((decodeSymbol_consumes dist).mono (Nat.zero_le 1)).bind_left
  intro dsym
  apply (readDistance_consumes dsym).bind_left
  intro backd
  split
  · exact .throw _
  · exact .pure _

theorem huffRound_shrinks : Shrinks (fun _ => left) (huffRound litlen dist) := by
  intro out br out' br' round
  exact huffRound_consumes litlen dist out round

def inflateHuff : Inflater (List UInt8) :=
  loop (fun _ => left) (huffRound litlen dist) (huffRound_shrinks litlen dist) out

def fixedLitlenLengths : List ℕ :=
  replicate 144 8 ++ replicate 112 9 ++ replicate 24 7 ++ replicate 8 8

def fixedDistLengths : List ℕ := replicate 30 5

def fixedLitlen : HuffTable := buildHuff fixedLitlenLengths

def fixedDist : HuffTable := buildHuff fixedDistLengths

/-! ## Dynamic tables -/

def clOrder : List ℕ := [16, 17, 18, 0, 8, 7, 9, 6, 10, 5, 11, 4, 12, 3, 13, 2, 14, 1, 15]

/-- The lengths of the code length codes, in the order of the format. -/
def readClLengths (hclen : ℕ) : Inflater (List ℕ) :=
  (clOrder.take hclen).foldlM (fun cl s => do return cl.set s (← readBits 3))
    (replicate 19 0)

variable (clTable : HuffTable) (total value : ℕ)

/-- Append a length `n` times, but no more than `total` in all. -/
def pushRun (lengths : List ℕ) : ℕ → Inflater (List ℕ)
  | 0 => return lengths
  | n + 1 =>
    if lengths.length ≥ total then throw (.badBlock "CL overflow")
    else pushRun (lengths ++ [value]) n

/-- A symbol that stands for a run: its length is `base` and `k` more bits. -/
def readRun (base k : ℕ) (lengths : List ℕ) : Inflater (List ℕ ⊕ List ℕ) := do
  let n ← readBits k
  return .inl (← pushRun total value lengths (n + base))

/-- One round of the loop over the code lengths. -/
def lengthRound (lengths : List ℕ) : Inflater (List ℕ ⊕ List ℕ) :=
  if lengths.length < total then do
    let sym ← decodeSymbol clTable
    if sym ≤ 15 then return .inl (lengths ++ [sym])
    else if sym = 16 then
      match lengths.getLast? with
      | none => throw (.badBlock "CL repeat with no prior")
      | some prev => readRun total prev 3 2 lengths
    else if sym = 17 then readRun total 0 3 3 lengths
    else if sym = 18 then readRun total 0 11 7 lengths
    else throw (.badBlock "bad CL symbol")
  else return .inr lengths

theorem pushRun_length {total value : ℕ} {lengths lengths' : List ℕ}
    (pushed : pushRun total value lengths n br = .ok lengths' br') :
    lengths'.length = lengths.length + n := by
  induction n generalizing lengths with
  | zero =>
    cases pushed
    rfl
  | succ n ih =>
    rw [pushRun] at pushed
    split at pushed
    · cases pushed
    · rw [ih pushed, length_append, length_singleton]
      omega

theorem readRun_grows {total value base k : ℕ} {lengths lengths' : List ℕ}
    (ran : readRun total value base k lengths br = .ok (.inl lengths') br') (some : 0 < base) :
    lengths.length < lengths'.length := by
  obtain ⟨n, br₁, -, pushed⟩ := bind_eq_ok_iff.mp ran
  obtain ⟨run, br₂, pushed, returned⟩ := bind_eq_ok_iff.mp pushed
  cases returned
  rw [pushRun_length pushed]
  omega

theorem lengthRound_shrinks : Shrinks (fun lengths _ => total - lengths.length) (lengthRound clTable
    total) := by
  intro lengths br lengths' br' round
  rw [lengthRound] at round
  split at round
  · rename_i more
    have grows : lengths.length < lengths'.length := by
      obtain ⟨sym, br₁, -, round⟩ := bind_eq_ok_iff.mp round
      split at round
      · cases round
        simp
      split at round
      · cases last : lengths.getLast? with
        | none =>
          rw [last] at round
          cases round
        | some prev =>
          rw [last] at round
          exact readRun_grows round (by omega)
      · split at round
        · exact readRun_grows round (by omega)
        split at round
        · exact readRun_grows round (by omega)
        · cases round
    dsimp only
    omega
  · cases round

def readCodeLengths : Inflater (List ℕ) :=
  loop _ (lengthRound clTable total) (lengthRound_shrinks clTable total) []

def readDynamicCodes : Inflater (HuffTable × HuffTable) := do
  let hlit := (← readBits 5) + 257
  let hdist := (← readBits 5) + 1
  let hclen := (← readBits 4) + 4
  let clLengths ← readClLengths hclen
  let lengths ← readCodeLengths (buildHuff clLengths) (hlit + hdist)
  return (buildHuff (lengths.take hlit), buildHuff (lengths.drop hlit))

/-! ## Blocks -/

def readBytes (out : List UInt8) : ℕ → Inflater (List UInt8)
  | 0 => return out
  | n + 1 => do
    let byte ← readByte
    readBytes (out ++ [byte]) n

def inflateStored (out : List UInt8) : Inflater (List UInt8) := do
  alignToByte
  let len ← readU16Le
  let nlen ← readU16Le
  if len ^^^ 0xFFFF ≠ nlen then throw (.badBlock "stored LEN/NLEN mismatch")
  else readBytes out len

/-- The contents of a block of the given type. -/
def inflateBlock (btype : ℕ) (out : List UInt8) : Inflater (List UInt8) :=
  match btype with
  | 0 => inflateStored out
  | 1 => inflateHuff fixedLitlen fixedDist out
  | 2 => do
    let (lit, dist) ← readDynamicCodes
    inflateHuff lit dist out
  | _ => throw (.badBlock "reserved type")

/-- One round of `inflate_blocks`, which ends after the block marked as the last. -/
def blockRound (out : List UInt8) : Inflater (List UInt8 ⊕ List UInt8) := do
  let bfinal ← readBits 1
  let btype ← readBits 2
  let out ← inflateBlock btype out
  return if bfinal = 1 then .inr out else .inl out

theorem readClLengths_consumes (hclen : ℕ) : Consumes left 0 (readClLengths hclen) := by
  rw [readClLengths]
  generalize replicate 19 0 = start
  induction clOrder.take hclen generalizing start with
  | nil => exact .pure _
  | cons s rest ih =>
    apply Consumes.bind_left _ fun _ => ih _
    exact ((readBits_consumes 3).mono (Nat.zero_le 3)).bind_left fun _ => .pure _

theorem pushRun_consumes (lengths : List ℕ) (n : ℕ) : Consumes left 0 (pushRun total value lengths
    n) := by
  induction n generalizing lengths with
  | zero => exact .pure _
  | succ n ih =>
    rw [pushRun]
    split
    · exact .throw _
    · exact ih _

theorem readRun_consumes (base k : ℕ) (lengths : List ℕ) : Consumes left 0 (readRun total value base
    k lengths) :=
  ((readBits_consumes k).mono (Nat.zero_le k)).bind_left fun _ =>
    (pushRun_consumes _ _ _ _).bind_left fun _ => .pure _

theorem lengthRound_consumes (lengths : List ℕ) : Consumes left 0 (lengthRound clTable total
    lengths) := by
  rw [lengthRound]
  split
  · apply ((decodeSymbol_consumes clTable).mono (Nat.zero_le 1)).bind_left
    intro sym
    split
    · exact .pure _
    split
    · split
      · exact .throw _
      · exact readRun_consumes _ _ _ _ _
    · split
      · exact readRun_consumes _ _ _ _ _
      split
      · exact readRun_consumes _ _ _ _ _
      · exact .throw _
  · exact .pure _

theorem readDynamicCodes_consumes : Consumes left 0 readDynamicCodes := by
  have bits (n : ℕ) : Consumes left 0 (readBits n) := (readBits_consumes n).mono (Nat.zero_le n)
  exact (bits 5).bind_left fun _ => (bits 5).bind_left fun _ => (bits 4).bind_left fun _ =>
    (readClLengths_consumes _).bind_left fun _ =>
      (Consumes.loop (lengthRound_consumes _ _) []).bind_left fun _ => .pure _

theorem readBytes_consumes (out : List UInt8) (n : ℕ) : Consumes left 0 (readBytes out n) := by
  induction n generalizing out with
  | zero => exact .pure _
  | succ n ih => exact readByte_consumes.bind_left fun _ => ih _

theorem inflateStored_consumes (out : List UInt8) : Consumes left 0 (inflateStored out) := by
  apply alignToByte_consumes.bind_left
  intro _
  apply readU16Le_consumes.bind_left
  intro len
  apply readU16Le_consumes.bind_left
  intro nlen
  split
  · exact .throw _
  · exact readBytes_consumes _ _

theorem inflateHuff_consumes (litlen dist : HuffTable) (out : List UInt8) :
    Consumes left 0 (inflateHuff litlen dist out) :=
  Consumes.loop (fun out => (huffRound_consumes litlen dist out).mono (Nat.zero_le 1)) out

theorem inflateBlock_consumes (btype : ℕ) (out : List UInt8) :
    Consumes left 0 (inflateBlock btype out) := by
  unfold inflateBlock
  split
  · exact inflateStored_consumes out
  · exact inflateHuff_consumes _ _ out
  · exact readDynamicCodes_consumes.bind_left fun _ => inflateHuff_consumes _ _ out
  · exact .throw _

theorem blockRound_shrinks : Shrinks (fun _ => left) blockRound := by
  intro out br out' br' round
  have consumes : Consumes left 1 (blockRound out) :=
    (readBits_consumes 1).bind_left fun _ =>
      ((readBits_consumes 2).mono (Nat.zero_le 2)).bind_left fun btype =>
        (inflateBlock_consumes btype out).bind_left fun _ => .pure _
  exact consumes round

def inflateBlocks (out : List UInt8) : Inflater (List UInt8) :=
  loop (fun _ => left) blockRound blockRound_shrinks out

/-- A raw stream, without a wrapper. -/
def inflate (data : List UInt8) : Except InflateError (List UInt8) :=
  match inflateBlocks [] (.new data) with
  | .ok out _ => .ok out
  | .error e _ => .error e

/-! ## Wrappers -/

end SmartOs.Net.Inflate
