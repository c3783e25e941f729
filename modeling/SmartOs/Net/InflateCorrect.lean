/-
# Decompression against the format

For every valid DEFLATE stream, `inflate` returns the data of the stream exactly if all symbols
in the stream are usable for the tables of the decompressor. The parts of the decompressor are
followed in the order in which the parts of a block are written.
-/

import SmartOs.Net.Deflate
import SmartOs.Net.InflateHuffman

namespace SmartOs.Net.Inflate

open CS Math BitReader CanonicalCode Deflate List Nat

/-! ## Stored blocks -/

theorem readByte_runs (byte : UInt8) (rest : List Bool) :
    Runs Holds readByte (lsbBits 8 byte.toNat ++ rest) byte rest := by
  have bits := readBits_runs (n := 8) byte.toNat_lt rest
  have value : UInt8.ofNat byte.toNat = byte := UInt8.ofNat_toNat
  refine bits.bind ?_
  rw [value]
  exact Runs.pure byte rest

variable {v total pos : ℕ} {rest : List Bool} {out : List UInt8} {cl lengths : List ℕ}

theorem readU16Le_runs (small : v < 2 ^ 16) :
    Runs Holds readU16Le (lsbBits 16 v ++ rest) v rest := by
  have low : (UInt8.ofNat v).toNat = v % 2 ^ 8 := UInt8.toNat_ofNat'
  have high : (UInt8.ofNat (v / 2 ^ 8)).toNat = v / 2 ^ 8 := by
    rw [UInt8.toNat_ofNat', mod_eq_of_lt (by omega)]
  have split : lsbBits 16 v =
      lsbBits 8 (UInt8.ofNat v).toNat ++ lsbBits 8 (UInt8.ofNat (v / 2 ^ 8)).toNat := by
    rw [high, lsbBits_add 8 8]
    congr 1
    apply lsbBits_congr
    rw [low, mod_mod]
  have value : (UInt8.ofNat v).toNat ||| (UInt8.ofNat (v / 2 ^ 8)).toNat <<< 8 = v := by
    rw [low, Nat.or_comm, ← shiftLeft_add_eq_or_of_lt (mod_lt _ (by decide))]
    omega
  rw [split]
  refine (readByte_runs _ _).bind ((readByte_runs _ _).bind ?_)
  rw [value]
  exact Runs.pure v rest

theorem readBytes_runs (out data : List UInt8) (rest : List Bool) :
    Runs Holds (readBytes out data.length) (bytesBits data ++ rest) (out ++ data) rest := by
  induction data generalizing out with
  | nil =>
    rw [append_nil]
    exact Runs.pure out rest
  | cons byte data ih =>
    refine (readByte_runs byte _).bind ?_
    have later := ih (out ++ [byte])
    rwa [append_assoc] at later

theorem xor_ones (small : v < 2 ^ 16) : v ^^^ 0xFFFF = 65535 - v := by
  apply eq_of_testBit_eq
  intro i
  have ones := @testBit_two_pow_sub_one 16 i
  have complement := testBit_two_pow_sub_succ small i
  rw [show 2 ^ 16 - (v + 1) = 65535 - v by omega] at complement
  rw [testBit_xor, complement, ones]
  by_cases inside : i < 16
  · simp [inside]
  have above : v.testBit i = false :=
    testBit_lt_two_pow (small.trans_le (Nat.pow_le_pow_right (by decide) (by omega)))
  simp [above]

theorem alignToByte_runs_padding {padding body : List Bool} (short : padding.length < 8)
    (aligned : body.length % 8 = 0) : Runs Holds alignToByte (padding ++ body) () body := by
  have skips := alignToByte_runs (padding ++ body)
  have length : (padding ++ body).length % 8 = padding.length := by
    rw [length_append]
    omega
  rwa [length, drop_left] at skips

theorem inflateStored_runs {padding : List Bool} {data : List UInt8} (short : padding.length < 8)
    (size : data.length < 2 ^ 16) (aligned : rest.length % 8 = 0) :
    Runs Holds (inflateStored out) ((Block.stored padding data).body ++ rest) (out ++ data)
      rest := by
  rw [Block.body, append_assoc, append_assoc, append_assoc]
  have boundary : (lsbBits 16 data.length ++ (lsbBits 16 (65535 - data.length) ++
      (bytesBits data ++ rest))).length % 8 = 0 := by
    simp only [length_append, length_lsbBits, length_bytesBits]
    omega
  refine (alignToByte_runs_padding short boundary).bind ((readU16Le_runs size).bind
    ((readU16Le_runs (by omega)).bind ?_))
  rw [xor_ones size, if_neg (by simp)]
  exact readBytes_runs out data rest

/-! ## Compressed data -/

theorem readExtended_runs (base : ℕ) {extra : ℕ} (small : v < 2 ^ extra) :
    Runs Holds (readExtended base extra) (lsbBits extra v ++ rest) (base + v) rest := by
  rw [readExtended]
  split
  · exact (readBits_runs small rest).bind (Runs.pure _ rest)
  rename_i none
  obtain rfl : extra = 0 := by omega
  obtain rfl : v = 0 := by simpa using small
  exact Runs.pure base rest

/-- The tables of the source are those of the format. -/
theorem lenBase_eq :
    ∀ i < 29, lenBase.getD i 0 = lengthBase i ∧ lenExtra.getD i 0 = lengthExtra i := by
  decide

theorem distBase_eq :
    ∀ i < 30, distBase.getD i 0 = distanceBase i ∧ distExtra.getD i 0 = distanceExtra i := by
  decide

theorem readLength_runs {i : ℕ} (symbol : i < 29) (small : v < 2 ^ lengthExtra i) :
    Runs Holds (readLength (257 + i)) (lsbBits (lengthExtra i) v ++ rest) (lengthBase i + v)
      rest := by
  rw [readLength, Nat.add_sub_cancel_left, if_neg (by omega), (lenBase_eq i symbol).1,
    (lenBase_eq i symbol).2]
  exact readExtended_runs _ small

theorem readDistance_runs {i : ℕ} (symbol : i < 30) (small : v < 2 ^ distanceExtra i) :
    Runs Holds (readDistance i) (lsbBits (distanceExtra i) v ++ rest) (distanceBase i + v)
      rest := by
  rw [readDistance, if_neg (by omega), (distBase_eq i symbol).1, (distBase_eq i symbol).2]
  exact readExtended_runs _ small

/-- The loop copies the last bytes as often as needed. -/
theorem copyFrom_eq {distance : ℕ} (pos : 0 < distance) (bounded : distance ≤ out.length)
    (length : ℕ) :
    copyFrom (out.length - distance) length out = out ++ backReference out distance length := by
  induction length with
  | zero => simp [copyFrom, backReference]
  | succ n ih =>
    have last : (out ++ backReference out distance n).getD (out.length - distance + n) 0 =
        (out.drop (out.length - distance)).getD (n % distance) 0 := by
      simp only [getD_eq_getElem?_getD, getElem?_drop]
      by_cases inside : n < distance
      · rw [getElem?_append_left (by omega), mod_eq_of_lt inside]
      -- the copy has reached bytes that it wrote itself
      rw [getElem?_append_right (by omega),
        show out.length - distance + n - out.length = n - distance by omega, backReference,
        getElem?_map, getElem?_range (by omega), mod_eq_sub_mod (by omega)]
      simp
    rw [copyFrom] at ih ⊢
    rw [range_succ, foldl_append, ih, foldl_cons, last]
    simp [backReference, range_succ]

/-- The decompressor can decode the symbols of a token. -/
def UsableToken (lit dist : List ℕ) : Token → Prop
  | .literal byte => Usable lit byte.toNat
  | .copy length _ distance _ => Usable lit (257 + length) ∧ Usable dist distance

instance (lit dist : List ℕ) : (token : Token) → Decidable (UsableToken lit dist token)
  | .literal _ => inferInstanceAs (Decidable (Usable ..))
  | .copy .. => inferInstanceAs (Decidable (_ ∧ _))

theorem distanceBase_pos (i : ℕ) : 0 < distanceBase i := by
  rw [distanceBase]
  split <;> omega

section Data

variable {lit dist : List ℕ} (legalLit : Legal lit 15) (legalDist : Legal dist 15)

include legalLit in
theorem huffRound_literal {byte : UInt8} (coded : lengthOf lit byte.toNat ≠ 0) (table : HuffTable) :
    Decides Holds (Usable lit byte.toNat) (huffRound (buildHuff lit) table out)
      (codeword lit byte.toNat ++ rest) (.inl (out ++ [byte])) rest := by
  refine (decodeSymbol_decides legalLit coded rest).bind_runs ?_
  have small := byte.toNat_lt
  rw [if_pos (by omega), UInt8.ofNat_toNat]
  exact Runs.pure _ rest

include legalLit in
theorem huffRound_end (coded : lengthOf lit 256 ≠ 0) (table : HuffTable) :
    Decides Holds (Usable lit 256) (huffRound (buildHuff lit) table out)
      (codeword lit 256 ++ rest) (.inr out) rest := by
  refine (decodeSymbol_decides legalLit coded rest).bind_runs ?_
  rw [if_neg (by decide), if_pos rfl]
  exact Runs.pure _ rest

include legalLit legalDist in
theorem huffRound_decides {token : Token} (valid : token.Valid lit dist out) :
    Decides Holds (UsableToken lit dist token) (huffRound (buildHuff lit) (buildHuff dist) out)
      (token.bits lit dist ++ rest) (.inl (token.apply out)) rest := by
  cases token with
  | literal byte => exact huffRound_literal legalLit valid _
  | copy length lengthBits distance distanceBits =>
    obtain ⟨lengthSmall, lengthFits, distanceSmall, distanceFits, lengthCoded, distanceCoded,
      inside⟩ := valid
    have positive := distanceBase_pos distance
    rw [Token.bits, append_assoc, append_assoc, append_assoc]
    refine (decodeSymbol_decides legalLit lengthCoded _).bind ?_
    rw [if_neg (by omega), if_neg (by omega)]
    refine (readLength_runs lengthSmall lengthFits).bind_decides
      ((decodeSymbol_decides legalDist distanceCoded _).bind_runs
        ((readDistance_runs distanceSmall distanceFits).bind ?_))
    rw [if_neg (by omega), copyFrom_eq (by omega) inside]
    exact Runs.pure _ rest

include legalLit legalDist in
theorem inflateHuff_decides {tokens : List Token}
    (valid : ValidTokens lit dist out tokens) (rest : List Bool) :
    Decides Holds ((∀ token ∈ tokens, UsableToken lit dist token) ∧ Usable lit 256)
      (inflateHuff (buildHuff lit) (buildHuff dist) out)
      (tokensBits lit dist tokens ++ rest) (tokens.foldl Token.apply out) rest := by
  induction tokens generalizing out with
  | nil =>
    have ended : Decides Holds (Usable lit 256) (inflateHuff (buildHuff lit) (buildHuff dist) out)
        (codeword lit 256 ++ rest) out rest := (huffRound_end legalLit valid _).loop_done
    exact ended.congr (by simp)
  | cons token tokens ih =>
    obtain ⟨first, later⟩ := valid
    rw [tokensBits, append_assoc]
    have both := (huffRound_decides legalLit legalDist first).loop_more (ih later)
    exact both.congr (by rw [forall_mem_cons, and_assoc])

end Data

/-! ## Dynamic tables -/

theorem readClLengths_foldlM (small : ∀ l ∈ cl, l < 2 ^ 3) (order acc : List ℕ) (rest : List Bool) :
    Runs Holds (order.foldlM (fun acc s => do return acc.set s (← readBits 3)) acc)
      (order.flatMap (fun s => lsbBits 3 (cl.getD s 0)) ++ rest)
      (order.foldl (fun acc s => acc.set s (cl.getD s 0)) acc) rest := by
  induction order generalizing acc with
  | nil => exact Runs.pure acc rest
  | cons s order ih =>
    have fits : cl.getD s 0 < 2 ^ 3 := by
      rw [getD_eq_getElem?_getD]
      cases here : cl[s]? with
      | none => simp
      | some l => exact small l (mem_of_getElem? here)
    have first (tail : List Bool) : Runs Holds (do return acc.set s (← readBits 3))
        (lsbBits 3 (cl.getD s 0) ++ tail) (acc.set s (cl.getD s 0)) tail :=
      (readBits_runs fits tail).bind (Runs.pure _ tail)
    exact (first _).bind (ih _)

theorem mem_codeLengthOrder : ∀ s ∈ codeLengthOrder, s < 19 := by
  decide

theorem readClLengths_runs {header : Header} (valid : header.Valid) :
    Runs Holds (readClLengths (header.hclen + 4))
      (header.listed.flatMap (fun s => lsbBits 3 (header.cl.getD s 0)) ++ rest) header.cl rest := by
  have runs := readClLengths_foldlM valid.small header.listed (replicate 19 0) rest
  have inside : ∀ s ∈ header.listed, s < (replicate 19 0).length := by
    intro s mem
    exact mem_codeLengthOrder s (mem_of_mem_take mem)
  obtain ⟨length, values⟩ := foldl_set_spec (replicate 19 0) (header.cl.getD · 0) _ inside
  have result : header.listed.foldl (fun acc s => acc.set s (header.cl.getD s 0))
      (replicate 19 0) = header.cl := by
    apply ext_getElem
    · rw [length, length_replicate, valid.size]
    intro s here there
    have small : s < 19 := valid.size ▸ there
    have value := values s
    rw [getD_eq_getElem _ _ here, getD_eq_getElem _ _ there] at value
    rw [value]
    split
    · rfl
    · rename_i unlisted
      rw [getD_replicate _ small, ← valid.unlisted s small unlisted, getD_eq_getElem _ _ there]
  rw [result] at runs
  exact runs

theorem pushRun_runs {value n : ℕ} (fits : lengths.length + n ≤ total) (bits : List Bool) :
    Runs Holds (pushRun total value lengths n) bits (lengths ++ replicate n value) bits := by
  induction n generalizing lengths with
  | zero =>
    rw [replicate_zero, append_nil]
    exact Runs.pure lengths bits
  | succ n ih =>
    rw [pushRun, if_neg (by omega)]
    have fits' : (lengths ++ [value]).length + n ≤ total := by
      rw [length_append, length_singleton]
      omega
    have later := ih fits'
    rwa [append_assoc] at later

theorem readRun_runs {value base k : ℕ} (small : v < 2 ^ k)
    (fits : lengths.length + (v + base) ≤ total) :
    Runs Holds (readRun total value base k lengths) (lsbBits k v ++ rest)
      (.inl (lengths ++ replicate (v + base) value)) rest :=
  (readBits_runs small rest).bind ((pushRun_runs fits rest).bind (Runs.pure _ rest))

theorem lengthRound_decides {run : LengthRun} (legal : Legal cl 15) (valid : run.Valid cl lengths)
    (more : lengths.length < total) (fits : (run.apply lengths).length ≤ total) :
    Decides Holds (Usable cl run.symbol) (lengthRound (buildHuff cl) total lengths)
      (run.bits cl ++ rest) (.inl (run.apply lengths)) rest := by
  obtain ⟨coded, values⟩ := valid
  rw [LengthRun.bits, append_assoc, lengthRound, if_pos more]
  refine (decodeSymbol_decides legal coded _).bind_runs ?_
  cases run with
  | single length =>
    rw [LengthRun.symbol, if_pos values]
    exact Runs.pure _ rest
  | again bits =>
    obtain ⟨small, nonempty⟩ := values
    have last : lengths.getLast? = some (lengths.getLastD 0) := by
      rw [getLastD_eq_getLast?, getLast?_eq_some_getLast nonempty]
      rfl
    rw [last]
    exact readRun_runs small (by simpa [LengthRun.apply] using fits)
  | zeros | manyZeros =>
    exact readRun_runs values (by simpa [LengthRun.apply] using fits)

theorem length_apply_lt (lengths : List ℕ) (run : LengthRun) :
    lengths.length < (run.apply lengths).length := by
  cases run <;> simp [LengthRun.apply]

theorem length_le_foldl (lengths : List ℕ) (runs : List LengthRun) :
    lengths.length ≤ (runs.foldl LengthRun.apply lengths).length := by
  induction runs generalizing lengths with
  | nil => exact le_refl _
  | cons run runs ih => exact (length_apply_lt lengths run).le.trans (ih _)

theorem lengthLoop_decides {runs : List LengthRun} (legal : Legal cl 15)
    (valid : ValidRuns cl lengths runs)
    (exact_ : (runs.foldl LengthRun.apply lengths).length = total) (rest : List Bool) :
    Decides Holds (∀ run ∈ runs, Usable cl run.symbol)
      (loop _ (lengthRound (buildHuff cl) total) (lengthRound_shrinks _ _) lengths)
      (runs.flatMap (LengthRun.bits cl) ++ rest) (runs.foldl LengthRun.apply lengths) rest := by
  induction runs generalizing lengths with
  | nil =>
    have ended :
        Runs Holds (lengthRound (buildHuff cl) total lengths) rest (.inr lengths) rest := by
      rw [lengthRound, if_neg (by simpa using exact_.ge)]
      exact Runs.pure _ rest
    exact ended.decides.loop_done.congr (by simp)
  | cons run runs ih =>
    obtain ⟨first, later⟩ := valid
    have grows := length_apply_lt lengths run
    have bound := length_le_foldl (run.apply lengths) runs
    rw [foldl_cons] at exact_
    rw [flatMap_cons, append_assoc]
    have both := (lengthRound_decides legal first (by omega) (by omega)).loop_more
      (ih later exact_)
    exact both.congr (by rw [forall_mem_cons])

theorem readDynamicCodes_decides {header : Header} (valid : header.Valid) :
    Decides Holds (∀ run ∈ header.runs, Usable header.cl run.symbol) readDynamicCodes
      (header.bits ++ rest) (buildHuff header.lit, buildHuff header.dist) rest := by
  simp only [Header.bits, append_assoc]
  refine (readBits_runs valid.hlit _).bind_decides ((readBits_runs valid.hdist _).bind_decides
    ((readBits_runs valid.hclen _).bind_decides ((readClLengths_runs valid).bind_decides ?_)))
  exact (lengthLoop_decides valid.cl valid.runs valid.total rest).bind_runs (Runs.pure _ rest)

/-! ## Blocks and streams -/

/-- The decompressor can decode the symbols of a block. Those of the fixed codes are the
literals below 144 and the lengths, but no distances. -/
def UsableBlock : Block → Prop
  | .stored _ _ => True
  | .fixed tokens => ∀ token ∈ tokens, UsableToken fixedLit Deflate.fixedDist token
  | .dynamic header tokens => (∀ run ∈ header.runs, Usable header.cl run.symbol) ∧
      (∀ token ∈ tokens, UsableToken header.lit header.dist token) ∧ Usable header.lit 256

instance (block : Block) : Decidable (UsableBlock block) := by
  cases block <;> unfold UsableBlock <;> infer_instance

theorem fixedLit_legal : Legal fixedLit 15 := by
  decide +kernel

theorem fixedDist_legal : Legal Deflate.fixedDist 15 := by
  decide +kernel

theorem usable_fixed_end : Usable fixedLit 256 := by
  decide +kernel

theorem inflateBlock_decides {block : Block} (valid : block.Valid pos out)
    (aligned : (pos + (3 + (block.body ++ rest).length)) % 8 = 0) :
    Decides Holds (UsableBlock block) (inflateBlock block.type out) (block.body ++ rest)
      (block.apply out) rest := by
  cases block with
  | stored padding data =>
    obtain ⟨short, boundary, size⟩ := valid
    have restAligned : rest.length % 8 = 0 := by
      simp only [Block.body, length_append, length_lsbBits, length_bytesBits] at aligned
      omega
    exact (inflateStored_runs short size restAligned).decides
  | fixed tokens =>
    have data := inflateHuff_decides fixedLit_legal fixedDist_legal valid rest
    exact data.congr (and_iff_left usable_fixed_end)
  | dynamic header tokens =>
    obtain ⟨validHeader, validTokens⟩ := valid
    rw [Block.body, append_assoc]
    exact (readDynamicCodes_decides validHeader).bind
      (inflateHuff_decides validHeader.lit validHeader.dist validTokens rest)

theorem type_lt (block : Block) : block.type < 2 ^ 2 := by
  cases block <;> simp [Block.type]

theorem blockRound_decides {block : Block} (valid : block.Valid pos out) (final : Bool)
    (aligned : (pos + (block.bits final ++ rest).length) % 8 = 0) :
    Decides Holds (UsableBlock block) (blockRound out) (block.bits final ++ rest)
      (if final then .inr (block.apply out) else .inl (block.apply out)) rest := by
  have length : (block.bits final ++ rest).length = 3 + (block.body ++ rest).length := by
    simp only [Block.bits, length_append, length_cons, length_lsbBits]
    omega
  rw [length] at aligned
  refine (readBit_runs final _).bind_decides ((readBits_runs (type_lt block) _).bind_decides
    ((inflateBlock_decides valid aligned).bind_runs ?_))
  cases final <;> exact Runs.pure _ rest

theorem inflateBlocks_decides {blocks : List Block} (valid : ValidStream pos out blocks)
    (aligned : (pos + (streamBits blocks ++ rest).length) % 8 = 0) :
    Decides Holds (∀ block ∈ blocks, UsableBlock block) (inflateBlocks out)
      (streamBits blocks ++ rest) (blocks.foldl Block.apply out) rest := by
  induction blocks generalizing pos out with
  | nil => exact absurd valid id
  | cons block blocks ih =>
    cases blocks with
    | nil =>
      have last : Decides Holds (UsableBlock block) (inflateBlocks out) (block.bits true ++ rest)
          (block.apply out) rest := (blockRound_decides valid true aligned).loop_done
      exact last.congr (by simp)
    | cons next blocks =>
      obtain ⟨first, later⟩ := valid
      rw [streamBits_cons_cons, append_assoc] at aligned ⊢
      have round := blockRound_decides first false aligned
      have both := round.loop_more (ih later (by
        rw [length_append] at aligned
        omega))
      exact both.congr (by simp)

/-- Decompression is right exactly on the streams whose symbols are all usable: whatever
follows the stream, `inflate` returns its data if and only if every symbol in it is shorter
than the longest codeword of its code, or that codeword has 15 bits. The same holds for
`decode_symbol` on the codewords of any legal code. -/
theorem inflate_eq_ok_iff (blocks : List Block) (data : List UInt8) (lengths : List ℕ) (s : ℕ)
    (br : BitReader) (rest : List Bool) :
    (ValidStream 0 [] blocks → bytesBits data = streamBits blocks ++ rest →
      (inflate data = .ok (streamData blocks) ↔ ∀ block ∈ blocks, UsableBlock block)) ∧
    (Legal lengths 15 → lengthOf lengths s ≠ 0 → Holds br (codeword lengths s ++ rest) →
      ((∃ br', decodeSymbol (buildHuff lengths) br = .ok s br' ∧ Holds br' rest) ↔
        Usable lengths s)) := by
  constructor
  · intro valid encodes
    have holds := holds_new data
    rw [encodes] at holds
    have aligned : (0 + (streamBits blocks ++ rest).length) % 8 = 0 := by
      rw [← encodes, length_bytesBits]
      omega
    have decides := inflateBlocks_decides valid aligned
    constructor
    · intro ok
      by_contra unusable
      obtain ⟨e, br, failed⟩ := decides.fails unusable _ holds
      rw [inflate, failed] at ok
      cases ok
    · intro usable
      obtain ⟨br, ran, -⟩ := decides.runs usable _ holds
      rw [inflate, ran]
      rfl
  · intro legal coded holds
    have decides := decodeSymbol_decides legal coded rest
    constructor
    · rintro ⟨br', ran, -⟩
      by_contra unusable
      obtain ⟨e, br'', failed⟩ := decides.fails unusable br holds
      rw [ran] at failed
      cases failed
    · intro usable
      exact decides.runs usable br holds

/-- Two literals in the fixed code, and the shortest of three codewords. -/
theorem inflate_two_literals : inflate [75, 76, 2, 0] = .ok [97, 98] ∧
      ∃ br, decodeSymbol (buildHuff [1, 2, 2]) (.new [0]) = .ok 0 br ∧
        Holds br (replicate 7 false) := by
  have valid : ValidStream 0 [] [.fixed [.literal 97, .literal 98]] := by
    show ValidTokens _ _ _ _
    decide +kernel
  exact ⟨((inflate_eq_ok_iff _ [75, 76, 2, 0] [] 0 (.new []) (replicate 6 false)).1 valid
      (by decide +kernel)).mpr (by decide +kernel),
    ((inflate_eq_ok_iff [] [] [1, 2, 2] 0 (.new [0]) (replicate 7 false)).2 (by decide +kernel)
      (by decide +kernel) (holds_new [0])).mpr (by decide +kernel)⟩

/-- A literal above 143 in the fixed code has a codeword of the greatest length. -/
theorem inflate_literal_fails :
    ¬ ∀ (blocks : List Block) (data : List UInt8) (rest : List Bool), ValidStream 0 [] blocks →
      bytesBits data = streamBits blocks ++ rest → inflate data = .ok (streamData blocks) := by
  intro claim
  have valid : ValidStream 0 [] [.fixed [.literal 200]] := by
    show ValidTokens _ _ _ _
    decide +kernel
  have encodes : bytesBits [59, 1, 0] =
      streamBits [.fixed [.literal 200]] ++ replicate 5 false := by decide +kernel
  have decoded := claim _ _ _ valid encodes
  have holds := holds_new [59, 1, 0]
  rw [encodes] at holds
  obtain ⟨e, br, failed⟩ := (inflateBlocks_decides valid (by decide +kernel)).fails
    (by decide +kernel) _ holds
  rw [inflate, failed] at decoded
  cases decoded

end SmartOs.Net.Inflate
