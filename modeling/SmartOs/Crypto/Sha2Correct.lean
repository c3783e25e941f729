/-
# The hashers meet the standard

However a message is split into calls of `update`, `finalize` returns its hash value as
`Fips180` defines it. The argument has three parts: the constants of the code are the roots that
the standard names, the compression function is that of the standard on every buffer, and the
buffer with its index is the rest of the message behind the blocks that are already compressed.
-/

import SmartOs.Crypto.Sha2

namespace SmartOs.Crypto

open CS Math Fips180 List Nat Sha2Variant

/-! ## Constants -/

/-- The bits follow some integer part in the root. -/
def isFraction (k w p : ℕ) (bits : BitVec w) : Bool :=
  (List.range 8).any fun whole =>
    let root := whole * 2 ^ w + bits.toNat
    root ^ k ≤ p * 2 ^ (k * w) && p * 2 ^ (k * w) < (root + 1) ^ k

theorem fractionBits_eq_of_isFraction {k w p : ℕ} {bits : BitVec w}
    (check : isFraction k w p bits) : fractionBits k w p = bits := by
  obtain ⟨whole, -, bounds⟩ := any_eq_true.mp check
  rw [Bool.and_eq_true, decide_eq_true_eq, decide_eq_true_eq] at bounds
  rw [fractionBits, nthRoot_eq_of_le_of_lt bounds.1 bounds.2]
  refine BitVec.eq_of_toNat_eq ?_
  rw [BitVec.toNat_ofNat, mul_add_mod_self_right, mod_eq_of_lt bits.isLt]

/-- The primes behind the constants. -/
def primeTable : List ℕ :=
  [2, 3, 5, 7, 11, 13, 17, 19, 23, 29, 31, 37, 41, 43, 47, 53, 59, 61, 67, 71, 73, 79, 83, 89, 97,
   101, 103, 107, 109, 113, 127, 131, 137, 139, 149, 151, 157, 163, 167, 173, 179, 181, 191, 193,
   197, 199, 211, 223, 227, 229, 233, 239, 241, 251, 257, 263, 269, 271, 277, 281, 283, 293, 307,
   311, 313, 317, 331, 337, 347, 349, 353, 359, 367, 373, 379, 383, 389, 397, 401, 409]

/-- Trial division up to 20 is enough below 441. -/
theorem prime_iff_of_lt {n : ℕ} (small : n < 441) :
    n.Prime ↔ 2 ≤ n ∧ ∀ m < 21, 2 ≤ m → m * m ≤ n → ¬m ∣ n := by
  rw [prime_def_le_sqrt]
  refine and_congr_right fun _ => ⟨fun all m _ two square => all m two (le_sqrt.mpr square), ?_⟩
  intro all m two root
  have square := le_sqrt.mp root
  refine all m ?_ two square
  by_contra large
  have : 21 * 21 ≤ m * m := Nat.mul_le_mul (by omega) (by omega)
  omega

theorem primes_eq : primes = primeTable := by
  have trial : primes = (range 410).filter fun n =>
      2 ≤ n ∧ ∀ m < 21, 2 ≤ m → m * m ≤ n → ¬m ∣ n := by
    refine filter_congr fun n mem => decide_eq_decide.mpr (prime_iff_of_lt ?_)
    rw [mem_range] at mem
    omega
  rw [trial]
  decide +kernel

theorem constants_eq {w n : ℕ} {k : List (BitVec w)}
    (check : ∀ t < n, isFraction 3 w (primeTable.getD t 0) (k.getD t 0)) :
    ∀ t < n, k.getD t 0 = constant w t := by
  intro t inside
  rw [constant, primes_eq, fractionBits_eq_of_isFraction (check t inside)]

theorem k256_eq : ∀ t < 64, k256.getD t 0 = constant 32 t := constants_eq (by decide +kernel)

theorem k512_eq : ∀ t < 80, k512.getD t 0 = constant 64 t := constants_eq (by decide +kernel)

/-- Eight words are the square roots of eight primes. -/
theorem initial_eq {w first : ℕ} {x : Words w}
    (check : ∀ i < 8, isFraction 2 w (primeTable.getD (first + i) 0) (x.toList.getD i 0)) :
    initial w first = x := by
  have root (i : ℕ) (inside : i < 8) :
      fractionBits 2 w (primes.getD (first + i) 0) = x.toList.getD i 0 := by
    rw [primes_eq]
    exact fractionBits_eq_of_isFraction (check i inside)
  ext1
  · exact root 0 (by decide)
  · exact root 1 (by decide)
  · exact root 2 (by decide)
  · exact root 3 (by decide)
  · exact root 4 (by decide)
  · exact root 5 (by decide)
  · exact root 6 (by decide)
  · exact root 7 (by decide)

theorem h256Init_eq : initial 32 0 = h256Init := initial_eq (by decide +kernel)

theorem h512Init_eq : initial 64 0 = h512Init := initial_eq (by decide +kernel)

theorem h384Init_eq : initial 64 8 = h384Init := initial_eq (by decide +kernel)

/-! ## The compression function -/

/-- The code has the constants of the standard. -/
structure Implements {w : ℕ} (v : Sha2Variant w) (fam : Family w) : Prop where
  wordLen : v.wordLen = wordBytes w
  positive : 0 < wordBytes w
  bufLen : v.bufLen = blockBytes w
  lenPos : v.lenPos + lengthBytes w = blockBytes w
  lenBits : v.lenBits = 8 * lengthBytes w
  rounds : v.rounds = fam.rounds
  enough : 16 ≤ v.rounds
  constants : ∀ t < v.rounds, v.k.getD t 0 = constant w t
  schedule0 : v.schedule0 = fam.sigma0
  schedule1 : v.schedule1 = fam.sigma1
  round0 : v.round0 = fam.sum0
  round1 : v.round1 = fam.sum1

theorem implements32 : Implements sha256Variant family32 :=
  ⟨rfl, by decide, rfl, rfl, rfl, rfl, by decide, k256_eq, rfl, rfl, rfl, rfl⟩

theorem implements64 : Implements sha512Variant family64 :=
  ⟨rfl, by decide, rfl, rfl, rfl, rfl, by decide, k512_eq, rfl, rfl, rfl, rfl⟩

theorem schedule_of_le {w : ℕ} (fam : Family w) (block : List UInt8) {t : ℕ} (late : 16 ≤ t) :
    fam.schedule block t = smallSigma fam.sigma1 (fam.schedule block (t - 2)) +
      fam.schedule block (t - 7) + smallSigma fam.sigma0 (fam.schedule block (t - 15)) +
      fam.schedule block (t - 16) := by
  rw [Family.schedule, if_neg (not_lt.mpr late)]

variable {buf : List UInt8}

namespace Implements

variable {w : ℕ} {v : Sha2Variant w} {fam : Family w} (imp : Implements v fam)

include imp

theorem expandStep_words {ws : List (BitVec w)} {i : ℕ} (late : 16 ≤ i) (inside : i < ws.length)
    (words : ∀ t < i, ws.getD t 0 = fam.schedule buf t) :
    ∀ t < i + 1, (v.expandStep ws i).getD t 0 = fam.schedule buf t := by
  intro t before
  rw [expandStep, getD_eq_getElem?_getD]
  rcases Nat.lt_succ_iff_lt_or_eq.mp before with old | rfl
  · rw [getElem?_set_ne (by omega), ← getD_eq_getElem?_getD, words t old]
  rw [getElem?_set_self inside, words _ (by omega), words _ (by omega), words _ (by omega),
    words _ (by omega), imp.schedule0, imp.schedule1, schedule_of_le fam buf late]
  -- the code adds the four terms in another order
  change _ + smallSigma fam.sigma0 _ + _ + smallSigma fam.sigma1 _ = _
  ac_rfl

theorem expand_steps {n : ℕ} (inside : 16 + n ≤ v.rounds) :
    ((range' 16 n).foldl v.expandStep (v.loadWords buf)).length = v.rounds ∧
      ∀ t < 16 + n, ((range' 16 n).foldl v.expandStep (v.loadWords buf)).getD t 0 =
        fam.schedule buf t := by
  induction n with
  | zero =>
    refine ⟨by simp [loadWords], fun t first => ?_⟩
    rw [Family.schedule, word, ← imp.wordLen]
    simp [loadWords, show t < v.rounds by omega, first]
  | succ n ih =>
    obtain ⟨length, words⟩ := ih (by omega)
    rw [range'_concat, foldl_append, foldl_cons, foldl_nil, one_mul]
    refine ⟨by rw [expandStep, length_set, length], ?_⟩
    refine imp.expandStep_words (Nat.le_add_right 16 n) ?_ words
    rw [length]
    exact inside

theorem expand_eq {t : ℕ} (inside : t < v.rounds) : (v.expand buf).getD t 0 = fam.schedule buf t :=
  (imp.expand_steps (add_sub_of_le imp.enough).le).2 t
    (by rwa [add_sub_of_le imp.enough])

theorem compress_eq (state : Words w) : v.compress state buf = fam.hashBlock state buf := by
  have round (x : Words w) (t : ℕ) (inside : t ∈ range v.rounds) :
      v.compressRound (v.expand buf) x t = fam.round buf x t := by
    rw [mem_range] at inside
    rw [compressRound, imp.expand_eq inside, imp.constants t inside, imp.round0, imp.round1]
    rfl
  rw [compress, Family.hashBlock, ← imp.rounds, foldl_ext _ _ _ round]

end Implements

/-! ## The buffer -/

namespace Sha2

variable {w : ℕ} {v : Sha2Variant w}

/-- The words and the bytes that wait for the next block. -/
def pending (h : Sha2 v) : Words w × List UInt8 := (h.state, h.buf.take h.idx)

theorem length_pending (h : Sha2 v) : h.pending.2.length = h.idx := by
  rw [pending, length_take_of_le (h.idx_lt.le.trans h.length_buf.ge)]

theorem length_marked (h : Sha2 v) (b : UInt8) : (h.buf.set h.idx b).length = v.bufLen := by
  rw [length_set, h.length_buf]

variable {idx : ℕ}

theorem take_set_succ (inside : idx < buf.length) (b : UInt8) :
    (buf.set idx b).take (idx + 1) = buf.take idx ++ [b] := by
  rw [take_succ_eq_append_getElem (by rwa [length_set]), getElem_set_self, take_set_of_le le_rfl]

theorem take_set (h : Sha2 v) (b : UInt8) :
    (h.buf.set h.idx b).take (h.idx + 1) = h.pending.2 ++ [b] :=
  take_set_succ (h.idx_lt.trans_eq h.length_buf.symm) b

theorem pending_put (h : Sha2 v) (b : UInt8) :
    (h.put b).pending = absorb v.bufLen v.compress h.pending b := by
  rw [absorb, length_pending, put]
  split_ifs with full
  · have whole : h.pending.2 ++ [b] = h.buf.set h.idx b := by
      rw [← h.take_set, take_of_length_le (by rw [h.length_marked, full])]
    rw [whole]
    rfl
  · rw [pending, h.take_set]
    rfl

theorem len_put (h : Sha2 v) (b : UInt8) : (h.put b).len = (h.len + 1) % 2 ^ v.lenBits := by
  rw [put]
  split_ifs <;> rfl

theorem pending_update (h : Sha2 v) (data : List UInt8) :
    (h.update data).pending = data.foldl (absorb v.bufLen v.compress) h.pending := by
  induction data generalizing h with
  | nil => rfl
  | cons b data ih => rw [foldl_cons, ← pending_put, ← ih]; rfl

theorem len_update {h : Sha2 v} (bound : h.len < 2 ^ v.lenBits) (data : List UInt8) :
    (h.update data).len = (h.len + data.length) % 2 ^ v.lenBits := by
  induction data generalizing h with
  | nil => exact (mod_eq_of_lt bound).symm
  | cons b data ih =>
    have next : (h.put b).len < 2 ^ v.lenBits := by
      rw [len_put]
      exact mod_lt _ (Nat.two_pow_pos _)
    change ((h.put b).update data).len = _
    rw [ih next, len_put, mod_add_mod, length_cons, add_assoc, add_comm 1]

/-- Only the bytes count, not how they were split. -/
theorem foldl_update (h : Sha2 v) (pieces : List (List UInt8)) :
    pieces.foldl update h = h.update pieces.flatten := by
  induction pieces generalizing h with
  | nil => rfl
  | cons piece pieces ih => rw [foldl_cons, ih, flatten_cons, update, update, update, foldl_append]

/-! ## Padding -/

theorem zeroFill_eq {limit : ℕ} (ordered : idx ≤ limit) (inside : limit ≤ buf.length) :
    zeroFill buf idx limit = buf.take idx ++ (replicate (limit - idx) 0 ++ buf.drop limit) := by
  obtain ⟨count, rfl⟩ := Nat.exists_eq_add_of_le ordered
  rw [zeroFill, Nat.add_sub_cancel_left]
  induction count generalizing buf idx with
  | zero => simp
  | succ count ih =>
    rw [range'_succ, foldl_cons, show idx + (count + 1) = idx + 1 + count by omega,
      ih (by omega) (by rw [length_set]; omega), take_set_succ (by omega),
      drop_set_of_lt (by omega), append_assoc]
    rfl

theorem take_zeroFill {limit : ℕ} (ordered : idx ≤ limit) (inside : limit ≤ buf.length) :
    (zeroFill buf idx limit).take limit = buf.take idx ++ replicate (limit - idx) 0 := by
  rw [zeroFill_eq ordered inside, ← append_assoc, take_left']
  rw [length_append, length_take_of_le (ordered.trans inside), length_replicate,
    add_sub_of_le ordered]

/-- The bytes of the words. -/
def digest (v : Sha2Variant w) (x : Words w) : List UInt8 :=
  x.toList.flatMap fun y => beBytesOn v.wordLen y.toNat

/-- The length at the end of the last block. -/
def lengthPart (h : Sha2 v) : List UInt8 :=
  beBytesOn (v.lenBits / 8) (h.len * 8 % 2 ^ v.lenBits)

theorem finalize_of_room (h : Sha2 v) (limit : v.lenPos ≤ v.bufLen) (room : h.idx + 1 ≤ v.lenPos) :
    h.finalize = digest v (v.compress h.state
      (h.pending.2 ++ (0x80 :: replicate (v.lenPos - (h.idx + 1)) 0 ++ h.lengthPart))) := by
  have last : (zeroFill (h.buf.set h.idx 0x80) (h.idx + 1) v.lenPos).take v.lenPos =
      h.pending.2 ++ 0x80 :: replicate (v.lenPos - (h.idx + 1)) 0 := by
    rw [take_zeroFill room (limit.trans (h.length_marked _).ge), h.take_set, append_assoc]
    rfl
  unfold finalize
  simp only [if_neg (not_lt.mpr room), last]
  rw [append_assoc]
  rfl

theorem length_filled (h : Sha2 v) : (h.pending.2 ++ 0x80 ::
    replicate (v.bufLen - (h.idx + 1)) (0 : UInt8)).length = v.bufLen := by
  rw [length_append, length_pending, length_cons, length_replicate]
  have := h.idx_lt
  omega

theorem finalize_of_full (h : Sha2 v) (limit : v.lenPos ≤ v.bufLen) (full : v.lenPos < h.idx + 1) :
    h.finalize = digest v (v.compress
      (v.compress h.state (h.pending.2 ++ 0x80 :: replicate (v.bufLen - (h.idx + 1)) 0))
      (replicate v.lenPos 0 ++ h.lengthPart)) := by
  have filled : zeroFill (h.buf.set h.idx 0x80) (h.idx + 1) v.bufLen =
      h.pending.2 ++ 0x80 :: replicate (v.bufLen - (h.idx + 1)) 0 := by
    rw [zeroFill_eq h.idx_lt (h.length_marked _).ge, h.take_set,
      drop_of_length_le (h.length_marked _).le, append_nil, append_assoc]
    rfl
  unfold finalize
  simp only [if_pos full, filled]
  rw [take_zeroFill (zero_le _) (limit.trans h.length_filled.ge)]
  rfl

theorem zeros_formula {block len total r : ℕ} (rest : total % block = r) (inside : r < block)
    (fits : len < block) : (block - (total + 1 + len) % block) % block =
      if r + 1 + len ≤ block then block - len - (r + 1)
      else block - (r + 1) + (block - len) := by
  have used : (total + 1 + len) % block = (r + 1 + len) % block := by
    rw [add_assoc, ← mod_add_mod, rest, add_assoc]
  rw [used]
  split_ifs with one
  · rcases one.lt_or_eq with less | equal
    · rw [mod_eq_of_lt less, mod_eq_of_lt (by omega)]
      omega
    · rw [equal, mod_self, Nat.sub_zero, mod_self]
      omega
  · have wrapped : (r + 1 + len) % block = r + 1 + len - block := by
      rw [mod_eq_sub_mod (by omega), mod_eq_of_lt (by omega)]
    rw [mod_eq_of_lt (by omega)]
    omega

section Finalize

variable {fam : Family w} (imp : Implements v fam)

include imp

theorem blockBytes_pos : 0 < blockBytes w := by
  have := imp.positive
  unfold blockBytes
  omega

/-- The blocks of a padded message: those of the message, then the rest with the padding. -/
theorem hash_eq (init : Words w) (message : List UInt8) :
    fam.hash init message = digest v ((blocks v.bufLen (remainder v.bufLen message ++
      (0x80 :: replicate (zeros w message.length) 0 ++
        beBytesOn (lengthBytes w) (8 * message.length)))).foldl v.compress
      ((blocks v.bufLen message).foldl v.compress init)) := by
  have same : v.compress = fam.hashBlock := by
    funext state buf
    exact imp.compress_eq state
  have positive := blockBytes_pos imp
  rw [Family.hash, pad, blocks_append_eq positive, foldl_append, same, imp.bufLen, digest,
    imp.wordLen]

theorem finalize_eq (h : Sha2 v) {init : Words w} {message : List UInt8}
    (pending : h.pending = ((blocks v.bufLen message).foldl v.compress init,
      remainder v.bufLen message))
    (len : h.len = message.length) (small : message.length * 8 < 2 ^ v.lenBits) :
    h.finalize = fam.hash init message := by
  have state : h.state = (blocks v.bufLen message).foldl v.compress init :=
    congrArg Prod.fst pending
  have rest : h.pending.2 = remainder v.bufLen message := congrArg Prod.snd pending
  have index : message.length % v.bufLen = h.idx := by
    rw [← length_remainder, ← rest, length_pending]
  have limit : v.lenPos + lengthBytes w = v.bufLen := imp.lenPos.trans imp.bufLen.symm
  have lengthPart_eq : h.lengthPart = beBytesOn (lengthBytes w) (8 * message.length) := by
    rw [lengthPart, len, mod_eq_of_lt small, imp.lenBits,
      Nat.mul_div_cancel_left _ (by decide), mul_comm]
  have lengthPart_length : h.lengthPart.length = lengthBytes w := by
    rw [lengthPart_eq, length_beBytesOn]
  have short : lengthBytes w < v.bufLen := by
    have := imp.positive
    rw [imp.bufLen, lengthBytes, blockBytes]
    omega
  have used := h.idx_lt
  have pos : 0 < v.bufLen := by omega
  have zeroCount := zeros_formula index used short
  rw [imp.bufLen] at zeroCount
  rw [hash_eq imp, ← rest, ← state, zeros, zeroCount, ← imp.bufLen, ← lengthPart_eq]
  by_cases room : h.idx + 1 ≤ v.lenPos
  · rw [finalize_of_room h (by omega) room, if_pos (by omega),
      show v.bufLen - lengthBytes w - (h.idx + 1) = v.lenPos - (h.idx + 1) by omega,
      blocks_of_length_eq pos]
    · rfl
    · simp only [length_append, length_cons, length_replicate, length_pending]
      omega
  · rw [finalize_of_full h (by omega) (by omega), if_neg (by omega),
      show v.bufLen - lengthBytes w = v.lenPos by omega, replicate_add]
    have second : (replicate v.lenPos (0 : UInt8) ++ h.lengthPart).length = v.bufLen := by
      rw [length_append, length_replicate, lengthPart_length, limit]
    have split : h.pending.2 ++ (0x80 :: (replicate (v.bufLen - (h.idx + 1)) (0 : UInt8) ++
        replicate v.lenPos 0) ++ h.lengthPart) =
        (h.pending.2 ++ 0x80 :: replicate (v.bufLen - (h.idx + 1)) 0) ++
          (replicate v.lenPos 0 ++ h.lengthPart) := by
      simp only [append_assoc, cons_append]
    rw [split, blocks_append pos h.length_filled, blocks_of_length_eq pos second]
    rfl

end Finalize

/-- The hasher over all calls: only what was fed counts. -/
theorem finalize_foldl_update {fam : Family w} (imp : Implements v fam) (pos : 0 < v.bufLen)
    (init : Words w) (pieces : List (List UInt8))
    (small : pieces.flatten.length * 8 < 2 ^ v.lenBits) :
    (pieces.foldl update (start pos init : Sha2 v)).finalize = fam.hash init pieces.flatten := by
  rw [foldl_update]
  refine finalize_eq imp _ ?_ ?_ small
  · rw [pending_update]
    exact foldl_absorb pos v.compress init pieces.flatten
  · have zero : (start pos init : Sha2 v).len = 0 := rfl
    rw [len_update (by rw [zero]; exact Nat.two_pow_pos _), zero, zero_add]
    exact mod_eq_of_lt (by omega)

end Sha2

/-- Over every way to split a message, `Sha256` and `Sha512` return its hash value, and `sha384`
does so in one call. -/
theorem sha2_meets_standard : (∀ pieces : List (List UInt8), pieces.flatten.length < 2 ^ 61 →
      (pieces.foldl Sha2.update Sha256.new).finalize = Fips180.sha256 pieces.flatten) ∧
    (∀ pieces : List (List UInt8), pieces.flatten.length < 2 ^ 61 →
      (pieces.foldl Sha2.update Sha512.new).finalize = Fips180.sha512 pieces.flatten) ∧
    ∀ data : List UInt8, data.length < 2 ^ 61 → sha384 data = Fips180.sha384 data := by
  refine ⟨fun pieces small => ?_, fun pieces small => ?_, fun data small => ?_⟩
  · rw [Fips180.sha256, h256Init_eq]
    exact Sha2.finalize_foldl_update implements32 _ h256Init pieces (by
      change _ < 2 ^ 64
      omega)
  · rw [Fips180.sha512, h512Init_eq]
    exact Sha2.finalize_foldl_update implements64 _ h512Init pieces (by
      change _ < 2 ^ 128
      omega)
  rw [Fips180.sha384, h384Init_eq]
  have whole := Sha2.finalize_foldl_update implements64 (by decide) h384Init [data] (by
    rw [flatten_singleton]
    change _ < 2 ^ 128
    omega)
  rw [flatten_singleton] at whole
  rw [← whole]
  rfl

/-- The message `abc`, split and whole. -/
theorem sha2_meets_standard_abc :
    ([[97], [98, 99]].foldl Sha2.update Sha256.new).finalize = Fips180.sha256 [97, 98, 99] ∧
    ([[97, 98], [], [99]].foldl Sha2.update Sha512.new).finalize = Fips180.sha512 [97, 98, 99] ∧
    sha384 [97, 98, 99] = Fips180.sha384 [97, 98, 99] :=
  ⟨sha2_meets_standard.1 [[97], [98, 99]] (by decide),
    sha2_meets_standard.2.1 [[97, 98], [], [99]] (by decide),
    sha2_meets_standard.2.2 [97, 98, 99] (by decide)⟩

example : sha256 [97, 98, 99] =
    [0xba, 0x78, 0x16, 0xbf, 0x8f, 0x01, 0xcf, 0xea, 0x41, 0x41, 0x40, 0xde, 0x5d, 0xae, 0x22, 0x23,
     0xb0, 0x03, 0x61, 0xa3, 0x96, 0x17, 0x7a, 0x9c, 0xb4, 0x10, 0xff, 0x61, 0xf2, 0x00, 0x15,
     0xad] := by
  decide +kernel

end SmartOs.Crypto
