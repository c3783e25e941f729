/-
# Copying to user space, byte by byte

`copy_to_user` works page by page: each round translates one address and copies up to the
end of its page. `copyToUser_eq` shows that this is the same as writing byte after byte,
each to its own translation, up to the first address that is not mapped.
-/

import SmartOs.Memory.Kernel

namespace SmartOs.Memory

open SmartOs.CS List

/-! ## Pages and offsets -/

theorem pageOffset_eq (addr : ℕ) : pageOffset addr = addr % 4096 :=
  Nat.and_two_pow_sub_one_eq_mod addr 12

variable {addr addr' : ℕ}

theorem pageOf_congr (same : addr / 4096 = addr' / 4096) : pageOf addr = pageOf addr' := by
  have index (shift : ℕ) (h : shift = 39 ∨ shift = 30 ∨ shift = 21 ∨ shift = 12) :
      tableIndex shift addr = tableIndex shift addr' := by
    rw [tableIndex_eq, tableIndex_eq]
    rcases h with rfl | rfl | rfl | rfl <;> omega
  simp [pageOf, index 39 (by simp), index 30 (by simp), index 21 (by simp), index 12 (by simp)]

theorem addr_eq_of_page (user : addr < userEnd) (user' : addr' < userEnd)
    (page : pageOf addr = pageOf addr') (offset : pageOffset addr = pageOffset addr') :
    addr = addr' := by
  -- the four indices and the offset are the 47 bits of the address
  injection page with _ h4 rest
  injection rest with _ h3 rest
  injection rest with _ h2 rest
  injection rest with _ h1
  simp only [Fin.ext_iff, Fin.val_ofNat, tableIndex_eq] at h1 h2 h3 h4
  rw [pageOffset_eq, pageOffset_eq] at offset
  unfold userEnd at user user'
  omega

variable {offset frame : ℕ} {pml4 : Space}

theorem translateUserAddr_eq_some : translateUserAddr pml4 addr = some (frame, offset) ↔
      addr < userEnd ∧ offset = pageOffset addr ∧
        ∃ pte, pml4.lookup (pageOf addr) = some pte ∧ pte.frame = frame := by
  unfold translateUserAddr
  by_cases user : addr < userEnd
  · rw [if_neg (not_le.mpr user)]
    simp only [Option.map_eq_some_iff, Prod.mk.injEq, user, true_and]
    constructor
    · rintro ⟨pte, found, rfl, rfl⟩
      exact ⟨rfl, pte, found, rfl⟩
    · rintro ⟨rfl, pte, found, rfl⟩
      exact ⟨pte, found, rfl, rfl⟩
  · rw [if_pos (not_lt.mp user)]
    simp [user]

theorem translateUserAddr_succ (translated : translateUserAddr pml4 addr = some (frame, offset))
    (inside : offset + 1 < 4096) :
    translateUserAddr pml4 (addr + 1) = some (frame, offset + 1) := by
  obtain ⟨user, rfl, found⟩ := translateUserAddr_eq_some.mp translated
  rw [pageOffset_eq] at inside
  have page : pageOf (addr + 1) = pageOf addr := pageOf_congr (by omega)
  refine translateUserAddr_eq_some.mpr ⟨?_, ?_, page ▸ found⟩
  · unfold userEnd at user ⊢
    omega
  · rw [pageOffset_eq, pageOffset_eq]
    omega

/-! ## Writing bytes -/

variable (data : ℕ → ℕ → UInt8)

theorem writeBytes_singleton (frame offset : ℕ) (byte : UInt8) (frame' offset' : ℕ) :
    writeBytes data frame offset [byte] frame' offset' =
      if frame' = frame ∧ offset' = offset then byte else data frame' offset' := by
  unfold writeBytes
  by_cases same : frame' = frame
  · subst same
    rw [Function.update_self]
    rcases lt_trichotomy offset' offset with below | rfl | above
    · rw [if_neg (by omega), if_neg (by omega)]
    · simp
    rw [if_pos (by omega), if_neg (by omega)]
    obtain ⟨k, hk⟩ : ∃ k, offset' - offset = k + 1 := ⟨offset' - offset - 1, by omega⟩
    rw [hk]
    rfl
  · rw [Function.update_of_ne same, if_neg fun h => same h.1]

theorem writeBytes_nil : writeBytes data frame offset [] = data := by
  funext frame' offset'
  by_cases same : frame' = frame
  · subst same
    simp [writeBytes]
  · simp [writeBytes]

theorem writeBytes_cons (byte : UInt8) (bytes : List UInt8) :
    writeBytes data frame offset (byte :: bytes) =
      writeBytes (writeBytes data frame offset [byte]) frame (offset + 1) bytes := by
  funext frame' offset'
  by_cases same : frame' = frame
  · subst same
    simp only [writeBytes, Function.update_self]
    rcases lt_trichotomy offset' offset with below | rfl | above
    · rw [if_neg (by omega), if_neg (by omega), if_neg (by omega)]
    · simp
    obtain ⟨k, hk⟩ : ∃ k, offset' - offset = k + 1 := ⟨offset' - offset - 1, by omega⟩
    have shifted : offset' - (offset + 1) = k := by omega
    rw [if_pos (by omega), if_pos (by omega), if_pos (by omega), hk, shifted]
    rfl
  · simp [writeBytes, same]

/-! ## The loop of `copy_to_user` -/

/-- The bytes that `copy_to_user` gets to write, with their addresses: it stops at the
first address that is not mapped. -/
def copied (pml4 : Space) : (dstVaddr : ℕ) → List UInt8 → List (ℕ × UInt8)
  | _, [] => []
  | dstVaddr, byte :: src =>
    if (translateUserAddr pml4 dstVaddr).isSome then
      (dstVaddr, byte) :: copied pml4 (dstVaddr + 1) src else []

/-- Write one byte to a user address, if it is mapped. -/
def pokeUser (pml4 : Space) (data : ℕ → ℕ → UInt8) (write : ℕ × UInt8) : ℕ → ℕ → UInt8 :=
  match translateUserAddr pml4 write.1 with
  | none => data
  | some (frame, offset) => writeBytes data frame offset [write.2]

/-- Bytes that stay inside one page can be written at once. -/
theorem foldl_pokeUser_chunk (chunk rest : List UInt8) {dstVaddr : ℕ} (data : ℕ → ℕ → UInt8)
    (translated : translateUserAddr pml4 dstVaddr = some (frame, offset))
    (inside : offset + chunk.length ≤ 4096) :
    (copied pml4 dstVaddr (chunk ++ rest)).foldl (pokeUser pml4) data =
      (copied pml4 (dstVaddr + chunk.length) rest).foldl (pokeUser pml4)
        (writeBytes data frame offset chunk) := by
  induction chunk generalizing dstVaddr offset data with
  | nil => rw [writeBytes_nil, nil_append, length_nil, add_zero]
  | cons byte chunk ih =>
    rw [length_cons] at inside
    -- the first byte of the chunk is written on its own, then the rest by induction
    have head : (copied pml4 dstVaddr (byte :: chunk ++ rest)).foldl (pokeUser pml4) data =
        (copied pml4 (dstVaddr + 1) (chunk ++ rest)).foldl (pokeUser pml4)
          (writeBytes data frame offset [byte]) := by
      simp [copied, pokeUser, translated]
    rw [head, writeBytes_cons data byte chunk, length_cons, add_comm chunk.length, ← add_assoc]
    cases chunk with
    -- the byte was the last one: the next address need not be in the same page
    | nil => rw [writeBytes_nil, nil_append, length_nil]
    | cons next chunk =>
      rw [length_cons] at inside
      exact ih _ (translateUserAddr_succ translated (by omega)) (by rw [length_cons]; omega)

theorem copyChunks_eq (rounds dstVaddr : ℕ) (src : List UInt8) (data : ℕ → ℕ → UInt8)
    (enough : src.length ≤ rounds) : copyChunks pml4 rounds dstVaddr src data =
      (copied pml4 dstVaddr src).foldl (pokeUser pml4) data := by
  induction rounds generalizing dstVaddr src data with
  | zero =>
    obtain rfl := length_eq_zero_iff.mp (Nat.le_zero.mp enough)
    rfl
  | succ rounds ih =>
    cases src with
    | nil => rfl
    | cons byte src =>
      cases translated : translateUserAddr pml4 dstVaddr with
      | none => simp [copyChunks, copied, translated]
      | some place =>
        obtain ⟨frame, offset⟩ := place
        have inside : offset < 4096 := by
          obtain ⟨-, rfl, -⟩ := translateUserAddr_eq_some.mp translated
          rw [pageOffset_eq]
          exact Nat.mod_lt _ (Nat.succ_pos _)
        simp only [copyChunks, translated]
        -- one round is a chunk that ends with the page or with the source
        generalize split : min (4096 - offset) (byte :: src).length = bytesToCopy
        have taken : ((byte :: src).take bytesToCopy).length = bytesToCopy := by
          rw [length_take]
          omega
        have chunk := foldl_pokeUser_chunk ((byte :: src).take bytesToCopy)
          ((byte :: src).drop bytesToCopy) data translated (by omega)
        rw [take_append_drop, taken] at chunk
        rw [chunk]
        refine ih _ _ _ ?_
        rw [length_cons] at enough split
        rw [length_drop, length_cons]
        omega

/-- Copying page by page writes the same bytes as copying byte by byte. -/
theorem copyToUser_eq (pml4 : Space) (dstVaddr : ℕ) (src : List UInt8) (data : ℕ → ℕ → UInt8) :
    copyToUser pml4 dstVaddr src data = (copied pml4 dstVaddr src).foldl (pokeUser pml4) data :=
  copyChunks_eq src.length dstVaddr src data le_rfl

/-- Only mapped addresses of the destination range are written. -/
theorem mem_copied {dstVaddr : ℕ} {src : List UInt8} {write : ℕ × UInt8}
    (mem : write ∈ copied pml4 dstVaddr src) :
    dstVaddr ≤ write.1 ∧ write.1 < dstVaddr + src.length ∧
      (translateUserAddr pml4 write.1).isSome := by
  induction src generalizing dstVaddr with
  | nil => cases mem
  | cons byte src ih =>
    rw [copied] at mem
    split_ifs at mem with mapped
    · rw [length_cons]
      rcases mem_cons.mp mem with rfl | later
      · exact ⟨le_rfl, by omega, mapped⟩
      · obtain ⟨above, below, found⟩ := ih later
        exact ⟨by omega, by omega, found⟩
    · cases mem

end SmartOs.Memory
