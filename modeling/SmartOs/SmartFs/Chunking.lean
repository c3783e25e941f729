/-
# Content-defined chunks

`smartfs/chunking.rs`: data is cut where a rolling hash hits a pattern, and each chunk is kept
once, under its 32-bit FNV-1a hash. A chunk whose hash is already a key is not stored, whatever
the bytes under that key are.

The value of the rolling hash depends on the bytes of the current chunk only, so chunks after a
boundary do not depend on what was before it. Cutting loses nothing. The store holds under each hash
the first chunk that came with it, so what `reassemble` returns is the data with every chunk
replaced by the first one of its hash.
-/

import Mathlib.Data.UInt

namespace SmartOs.SmartFs

open List

def minChunk : ℕ := 256
def maxChunk : ℕ := 8192
def chunkModulus : UInt32 := 2048
def chunkPattern : UInt32 := 0
def windowSize : ℕ := 32

structure Chunk where
  offset : ℕ
  length : ℕ
  hash : UInt32

def fnv1a (data : List UInt8) : UInt32 :=
  data.foldl (fun hash byte => (hash ^^^ byte.toUInt32) * 0x01000193) 0x811c9dc5

/-- The rolling hash at index `i`, from the one before it. -/
def roll (data : List UInt8) (i chunkLen : ℕ) (hash : UInt32) (byte : UInt8) : UInt32 :=
  let hash := hash * 31 + byte.toUInt32
  if windowSize < chunkLen then
    hash - (data.getD (i - windowSize) 0).toUInt32 * 31 ^ windowSize
  else hash

/-- The loop of `chunk_data` from index `i` on; the first list is all the data, the second what
is left of it at `i`. -/
def chunkLoop (data : List UInt8) : List UInt8 → (i start : ℕ) → UInt32 → List Chunk
  | [], _, _, _ => []
  | byte :: rest, i, start, hash =>
    let chunkLen := i - start + 1
    let hash := roll data i chunkLen hash byte
    if (minChunk ≤ chunkLen ∧ hash % chunkModulus = chunkPattern) ∨ maxChunk ≤ chunkLen ∨
        i = data.length - 1 then
      ⟨start, chunkLen, fnv1a ((data.drop start).take chunkLen)⟩ ::
        chunkLoop data rest (i + 1) (i + 1) 0
    else chunkLoop data rest (i + 1) start hash

def chunkData (data : List UInt8) : List Chunk := chunkLoop data data 0 0 0

/-- The slice of the data that a chunk stands for. -/
def Chunk.slice (data : List UInt8) (chunk : Chunk) : List UInt8 :=
  (data.drop chunk.offset).take chunk.length

/-- The bytes of the chunks of the data. -/
def pieces (data : List UInt8) : List (List UInt8) := (chunkData data).map (Chunk.slice data)

/-! ## Cutting -/

/-- The polynomial of the bytes in base 31. -/
def polyHash (bytes : List UInt8) : UInt32 := bytes.foldl (fun hash b => hash * 31 + b.toUInt32) 0

/-- The polynomial of the last bytes of a chunk, as many as the window has. -/
def windowHash (chunk : List UInt8) : UInt32 :=
  polyHash (chunk.drop (chunk.length - min windowSize chunk.length))

theorem polyHash_concat (bytes : List UInt8) (b : UInt8) :
    polyHash (bytes ++ [b]) = polyHash bytes * 31 + b.toUInt32 := by
  simp [polyHash]

theorem polyHash_cons (b : UInt8) (bytes : List UInt8) :
    polyHash (b :: bytes) = b.toUInt32 * 31 ^ bytes.length + polyHash bytes := by
  induction bytes using reverseRecOn with
  | nil => simp [polyHash]
  | append_singleton bytes last ih =>
    rw [← cons_append, polyHash_concat, polyHash_concat, length_append, length_singleton]
    grind

theorem roll_windowHash {data chunk rest : List UInt8} {start : ℕ} {byte : UInt8}
    (here : data.drop start = chunk ++ byte :: rest) :
    roll data (start + chunk.length) (chunk.length + 1) (windowHash chunk) byte =
      windowHash (chunk ++ [byte]) := by
  unfold roll windowHash
  rw [length_append, length_singleton]
  by_cases long : windowSize < chunk.length + 1
  · rw [min_eq_left (by omega), min_eq_left (by omega)]
    have inside : chunk.length - windowSize < chunk.length := by
      have : 0 < windowSize := by decide
      omega
    have old : data.getD (start + chunk.length - windowSize) 0 =
        chunk[chunk.length - windowSize] := by
      have there := congrArg (fun l => l[chunk.length - windowSize]?) here
      simp only [getElem?_drop, getElem?_append_left inside, getElem?_eq_getElem inside] at there
      rw [getD_eq_getElem?_getD, ← Nat.add_sub_assoc (by omega)] at *
      rw [there, Option.getD_some]
    have next : chunk.length + 1 - windowSize = chunk.length - windowSize + 1 := by omega
    have size : chunk.length - (chunk.length - windowSize + 1) = 31 := by
      have : windowSize = 32 := rfl
      omega
    rw [old, drop_eq_getElem_cons inside, polyHash_cons, drop_append_of_le_length (by omega),
      polyHash_concat, length_drop, size]
    unfold windowSize
    grind
  · rw [if_neg long, min_eq_right (by omega), min_eq_right (by omega), Nat.sub_self,
      Nat.sub_self, drop_zero, drop_zero, polyHash_concat]

/-- Cut data where a value of the chunk so far hits the pattern; `start` is where that chunk
starts. -/
def cutBy (value : List UInt8 → UInt32) : (chunk rest : List UInt8) → (start : ℕ) → List Chunk
  | _, [], _ => []
  | chunk, byte :: rest, start =>
    let chunk := chunk ++ [byte]
    if (minChunk ≤ chunk.length ∧ value chunk % chunkModulus = chunkPattern) ∨
        maxChunk ≤ chunk.length ∨ rest = [] then
      ⟨start, chunk.length, fnv1a chunk⟩ :: cutBy value [] rest (start + chunk.length)
    else cutBy value chunk rest start

/-- The loop tests the polynomial of the window of the current chunk. -/
theorem chunkLoop_eq_cutBy {data chunk rest : List UInt8} {start : ℕ}
    (here : data.drop start = chunk ++ rest) :
    chunkLoop data rest (start + chunk.length) start (windowHash chunk) =
      cutBy windowHash chunk rest start := by
  induction rest generalizing chunk start with
  | nil => rfl
  | cons byte rest ih =>
    have length := congrArg length here
    simp only [length_drop, length_append, length_cons] at length
    have size : start + chunk.length - start + 1 = chunk.length + 1 := by omega
    have last : start + chunk.length = data.length - 1 ↔ rest = [] := by
      rw [← length_eq_zero_iff]
      omega
    have joined : chunk ++ byte :: rest = chunk ++ [byte] ++ rest := by simp
    have grown : (chunk ++ [byte]).length = chunk.length + 1 := by simp
    have taken : (data.drop start).take (chunk.length + 1) = chunk ++ [byte] := by
      rw [here, joined, ← grown, take_left]
    have later : data.drop (start + (chunk.length + 1)) = [] ++ rest := by
      rw [← drop_drop, here, joined, ← grown, drop_left, nil_append]
    simp only [chunkLoop, cutBy, size, roll_windowHash here, last, taken, grown]
    split
    · rw [← ih later]
      rfl
    · rw [← ih (here.trans joined), grown]
      rfl

section CutBy

variable {value : List UInt8 → UInt32}

theorem cutBy_bounds {chunk rest : List UInt8} {start : ℕ} (short : chunk.length < maxChunk)
    {c : Chunk} (mem : c ∈ cutBy value chunk rest start) :
    start + chunk.length < c.offset + c.length ∧ c.length ≤ maxChunk ∧
      (c.length < minChunk → c.offset + c.length = start + chunk.length + rest.length) := by
  induction rest generalizing chunk start with
  | nil => cases mem
  | cons byte rest ih =>
    have grown : (chunk ++ [byte]).length = chunk.length + 1 := by simp
    have small : minChunk < maxChunk := by decide
    rw [cutBy, grown] at mem
    rw [length_cons]
    split at mem
    · rename_i cut
      rcases mem_cons.mp mem with rfl | mem
      · refine ⟨Nat.lt_succ_self _, short, fun less => ?_⟩
        dsimp only at less ⊢
        obtain ⟨large, -⟩ | large | rfl := cut
        · omega
        · omega
        · simp [add_assoc]
      · have := @ih [] _ (by decide) mem
        rw [length_nil] at this
        omega
    · rename_i inside
      have := ih (grown ▸ Nat.lt_of_not_le fun large => inside (.inr (.inl large))) mem
      omega

/-- Chunks that follow each other from one place to another. -/
def Tiles : (start : ℕ) → List Chunk → (stop : ℕ) → Prop
  | start, [], stop => start = stop
  | start, c :: cs, stop => c.offset = start ∧ Tiles (start + c.length) cs stop

theorem tiles_cutBy {chunk rest : List UInt8} (start : ℕ) (ended : rest = [] → chunk = []) :
    Tiles start (cutBy value chunk rest start) (start + chunk.length + rest.length) := by
  induction rest generalizing chunk start with
  | nil => simp [ended rfl, cutBy, Tiles]
  | cons byte rest ih =>
    rw [cutBy]
    split
    · have later := @ih [] (start + (chunk ++ [byte]).length) fun _ => rfl
      exact ⟨rfl, by simpa [add_assoc, add_comm 1] using later⟩
    · rename_i inside
      have later := @ih (chunk ++ [byte]) start fun last => absurd (.inr (.inr last)) inside
      simpa [add_assoc, add_comm 1] using later

/-- After a boundary the chunks do not depend on what was before it. -/
theorem cutBy_append {chunk a b : List UInt8} {start : ℕ} (short : chunk.length < maxChunk)
    (boundary : (a = [] ∧ chunk = []) ∨ ∃ c ∈ cutBy value chunk (a ++ b) start,
      c.offset + c.length = start + chunk.length + a.length) : cutBy value chunk (a ++ b) start =
      cutBy value chunk a start ++ cutBy value [] b (start + chunk.length + a.length) := by
  induction a generalizing chunk start with
  | nil =>
    obtain ⟨-, rfl⟩ | ⟨c, mem, stop⟩ := boundary
    · rfl
    · exact absurd stop (Nat.ne_of_gt (cutBy_bounds short mem).1)
  | cons byte a ih =>
    have grown : (chunk ++ [byte]).length = chunk.length + 1 := by simp
    obtain ⟨⟨⟩, -⟩ | ⟨c, mem, stop⟩ := boundary
    rw [length_cons, ← add_assoc, add_right_comm] at stop ⊢
    simp only [cons_append, cutBy, grown] at mem ⊢
    -- without the end of the data as a reason to cut
    by_cases cut : (minChunk ≤ chunk.length + 1 ∧
      value (chunk ++ [byte]) % chunkModulus = chunkPattern) ∨ maxChunk ≤ chunk.length + 1
    · rw [if_pos (by tauto)] at mem ⊢
      rw [if_pos (by tauto)]
      congr 1
      refine ih (by decide) ?_
      rcases mem_cons.mp mem with rfl | mem
      · exact .inl ⟨length_eq_zero_iff.mp (by dsimp only at stop; omega), rfl⟩
      · exact .inr ⟨c, mem, by rw [length_nil]; omega⟩
    · have room : (chunk ++ [byte]).length < maxChunk := by
        rw [grown]
        exact Nat.lt_of_not_le fun large => cut (.inr large)
      by_cases last : a ++ b = []
      · obtain ⟨rfl, rfl⟩ := append_eq_nil_iff.mp last
        simp [cutBy]
      rw [if_neg (by tauto)] at mem ⊢
      have inner : a ≠ [] := by
        rintro rfl
        have := (cutBy_bounds room mem).1
        rw [length_nil] at stop
        omega
      rw [if_neg (by tauto), ih room (.inr ⟨c, mem, by omega⟩), grown]
      rfl

/-- The chunk, `k` bytes further on. -/
def Chunk.shift (k : ℕ) (c : Chunk) : Chunk := { c with offset := k + c.offset }

theorem cutBy_shift (chunk rest : List UInt8) (start k : ℕ) :
    cutBy value chunk rest (k + start) = (cutBy value chunk rest start).map (Chunk.shift k) := by
  induction rest generalizing chunk start with
  | nil => rfl
  | cons byte rest ih =>
    rw [cutBy, cutBy]
    split
    · rw [map_cons, ← ih, add_assoc]
      rfl
    · exact ih _ _

theorem hash_of_mem_cutBy {data chunk rest : List UInt8} {start : ℕ}
    (here : data.drop start = chunk ++ rest) {c : Chunk} (mem : c ∈ cutBy value chunk rest start) :
    c.hash = fnv1a (c.slice data) := by
  induction rest generalizing chunk start with
  | nil => cases mem
  | cons byte rest ih =>
    have joined : data.drop start = (chunk ++ [byte]) ++ rest := here.trans (by simp)
    rw [cutBy] at mem
    split at mem
    · rcases mem_cons.mp mem with rfl | mem
      · rw [Chunk.slice, joined, take_left]
      · exact ih (by rw [← drop_drop, joined, drop_left, nil_append]) mem
    · exact ih joined mem

end CutBy

variable (data : List UInt8) {chunk : Chunk}

theorem chunkData_eq_cutBy : chunkData data = cutBy windowHash [] data 0 :=
  @chunkLoop_eq_cutBy data [] data 0 rfl

theorem tiles_chunkData : Tiles 0 (chunkData data) data.length := by
  have tiles := @tiles_cutBy windowHash [] data 0 fun _ => rfl
  rwa [← chunkData_eq_cutBy, length_nil, Nat.zero_add] at tiles

theorem hash_of_mem_chunkData {data : List UInt8} (mem : chunk ∈ chunkData data) :
    chunk.hash = fnv1a (chunk.slice data) :=
  @hash_of_mem_cutBy windowHash data [] data 0 rfl chunk (chunkData_eq_cutBy data ▸ mem)

/-- A chunk ends after the first `n` bytes, or these are none. -/
def Boundary (data : List UInt8) (n : ℕ) : Prop :=
  n = 0 ∨ ∃ c ∈ chunkData data, c.offset + c.length = n

/-- The chunks follow each other from the start of the data to its end. Their lengths are in range,
except that the last one may be short, and they have the hashes of their bytes. What comes before a
boundary and what comes after it is cut on its own. The value tested at each byte is the polynomial
of the window, which the loop keeps up to date. -/
theorem chunkData_spec (data : List UInt8) : Tiles 0 (chunkData data) data.length ∧
      (∀ c ∈ chunkData data, c.length ≤ maxChunk ∧
        (c.length < minChunk → c.offset + c.length = data.length) ∧ c.hash = fnv1a (c.slice data)) ∧
      (∀ a b, data = a ++ b → Boundary data a.length →
        chunkData data = chunkData a ++ (chunkData b).map (Chunk.shift a.length)) ∧
      chunkData data = cutBy windowHash [] data 0 ∧
      ∀ start chunk byte rest, data.drop start = chunk ++ byte :: rest →
        roll data (start + chunk.length) (chunk.length + 1) (windowHash chunk) byte =
          windowHash (chunk ++ [byte]) := by
  have bounds {c : Chunk} (mem : c ∈ chunkData data) :=
    @cutBy_bounds windowHash [] data 0 (by decide) c (chunkData_eq_cutBy data ▸ mem)
  refine ⟨tiles_chunkData data, fun c mem => ?_, ?_, chunkData_eq_cutBy data,
    fun _ _ _ _ => roll_windowHash⟩
  · have := bounds mem
    simp only [length_nil, Nat.zero_add] at this
    exact ⟨this.2.1, this.2.2, hash_of_mem_chunkData mem⟩
  rintro a b rfl boundary
  have split := @cutBy_append windowHash [] a b 0 (by decide) ?_
  · have shifted := @cutBy_shift windowHash [] b 0 a.length
    rw [chunkData_eq_cutBy, split, chunkData_eq_cutBy, chunkData_eq_cutBy, ← shifted]
    simp
  · rw [← chunkData_eq_cutBy]
    simpa [Boundary] using boundary

/-! ## The store -/

structure ChunkStore where
  chunks : UInt32 → Option (List UInt8)
  totalSeen : ℕ
  dedupHits : ℕ

namespace ChunkStore

def new : ChunkStore := ⟨fun _ => none, 0, 0⟩

/-- One turn of the loop of `store_chunks`. -/
def add (data : List UInt8) (store : ChunkStore) (chunk : Chunk) : ChunkStore :=
  let store := { store with totalSeen := store.totalSeen + 1 }
  if (store.chunks chunk.hash).isSome then { store with dedupHits := store.dedupHits + 1 }
  else { store with chunks := Function.update store.chunks chunk.hash (some (chunk.slice data)) }

end ChunkStore

def storeChunks (data : List UInt8) (store : ChunkStore) : List UInt32 × ChunkStore :=
  ((chunkData data).map Chunk.hash, (chunkData data).foldl (ChunkStore.add data) store)

def reassemble (store : ChunkStore) : List UInt32 → Except String (List UInt8)
  | [] => .ok []
  | hash :: hashes =>
    match store.chunks hash with
    | none => .error "Chunk not found in store"
    | some chunk => (reassemble store hashes).map (chunk ++ ·)

/-- A sequence of calls of `store_chunks`: the hash lists in order and the store at the end. -/
def storeAll : List (List UInt8) → ChunkStore → List (List UInt32) × ChunkStore
  | [], store => ([], store)
  | data :: rest, store =>
    let stored := storeChunks data store
    let others := storeAll rest stored.2
    (stored.1 :: others.1, others.2)

theorem add_chunks {data : List UInt8} (own : chunk.hash = fnv1a (chunk.slice data))
    (store : ChunkStore) (key : UInt32) : (store.add data chunk).chunks key =
      (store.chunks key).or ([chunk.slice data].find? (fnv1a · == key)) := by
  rw [ChunkStore.add, find?_singleton, ← own]
  split
  · rename_i known
    by_cases same : chunk.hash = key
    · subst same
      rw [Option.or_of_isSome known]
    · rw [if_neg (by simpa using same), Option.or_none]
  · rename_i fresh
    dsimp only at fresh ⊢
    by_cases same : chunk.hash = key
    · subst same
      rw [Function.update_self, if_pos (beq_self_eq_true _), Option.not_isSome_iff_eq_none.mp fresh,
        Option.none_or]
    · rw [Function.update_of_ne (Ne.symm same), if_neg (by simpa using same), Option.or_none]

/-- Under each hash the store holds the first chunk that came with it. -/
theorem chunks_foldl_add {data : List UInt8} {cut : List Chunk}
    (own : ∀ chunk ∈ cut, chunk.hash = fnv1a (chunk.slice data)) (store : ChunkStore)
    (key : UInt32) : (cut.foldl (ChunkStore.add data) store).chunks key =
      (store.chunks key).or ((cut.map (Chunk.slice data)).find? (fnv1a · == key)) := by
  induction cut generalizing store with
  | nil => rw [foldl_nil, map_nil, find?_nil, Option.or_none]
  | cons chunk cut ih =>
    obtain ⟨first, others⟩ := forall_mem_cons.mp own
    rw [foldl_cons, ih others, add_chunks first, Option.or_assoc, ← find?_append,
      map_cons, singleton_append]

variable (datas : List (List UInt8))

theorem chunks_storeAll (store : ChunkStore) (key : UInt32) : (storeAll datas store).2.chunks key =
      (store.chunks key).or ((datas.flatMap pieces).find? (fnv1a · == key)) := by
  induction datas generalizing store with
  | nil => rw [storeAll, flatMap_nil, find?_nil, Option.or_none]
  | cons data datas ih =>
    rw [storeAll, ih, storeChunks, chunks_foldl_add (fun _ => hash_of_mem_chunkData),
      Option.or_assoc, ← find?_append, flatMap_cons, pieces]

theorem storeAll_hashes (store : ChunkStore) :
    (storeAll datas store).1 = datas.map fun data => (pieces data).map fnv1a := by
  induction datas generalizing store with
  | nil => rfl
  | cons data datas ih =>
    have own : (chunkData data).map Chunk.hash = (pieces data).map fnv1a := by
      rw [pieces, map_map]
      exact map_congr_left fun chunk mem => hash_of_mem_chunkData mem
    rw [storeAll, ih, storeChunks, map_cons, own]

/-! ## Reassembling -/

/-- The first chunk of the sequence of data with the hash of this one. -/
def earliest (datas : List (List UInt8)) (piece : List UInt8) : List UInt8 :=
  ((datas.flatMap pieces).find? (fnv1a · == fnv1a piece)).getD []

theorem find?_eq_earliest {datas : List (List UInt8)} {piece : List UInt8}
    (mem : piece ∈ datas.flatMap pieces) :
    (datas.flatMap pieces).find? (fnv1a · == fnv1a piece) = some (earliest datas piece) := by
  have found : ((datas.flatMap pieces).find? (fnv1a · == fnv1a piece)).isSome :=
    find?_isSome.mpr ⟨piece, mem, beq_self_eq_true _⟩
  obtain ⟨first, eq⟩ := Option.isSome_iff_exists.mp found
  rw [earliest, eq, Option.getD_some]

theorem reassemble_map_fnv1a {parts : List (List UInt8)}
    (mem : ∀ piece ∈ parts, piece ∈ datas.flatMap pieces) :
    reassemble (storeAll datas .new).2 (parts.map fnv1a) =
      .ok (parts.flatMap (earliest datas)) := by
  induction parts with
  | nil => rfl
  | cons piece parts ih =>
    obtain ⟨first, others⟩ := forall_mem_cons.mp mem
    have stored : (storeAll datas .new).2.chunks (fnv1a piece) = some (earliest datas piece) := by
      rw [chunks_storeAll, ← find?_eq_earliest first]
      exact Option.none_or
    rw [map_cons, reassemble, stored, ih others]
    rfl

/-- What is stored is what is read: after all calls each hash list gives its data back. -/
def ReadsBack (datas : List (List UInt8)) : Prop :=
  ∀ (i : ℕ) (data : List UInt8) (hashes : List UInt32), datas[i]? = some data →
    (storeAll datas .new).1[i]? = some hashes →
      reassemble (storeAll datas .new).2 hashes = .ok data

/-- Data is never substituted exactly if every piece of data stays the same when each of its
chunks is replaced by the first chunk of the whole sequence that has the same hash. -/
theorem readsBack_iff_earliest (datas : List (List UInt8)) :
    ReadsBack datas ↔ ∀ data ∈ datas, (pieces data).flatMap (earliest datas) = data := by
  have result : ∀ data ∈ datas, reassemble (storeAll datas .new).2 ((pieces data).map fnv1a) =
      .ok ((pieces data).flatMap (earliest datas)) := fun data mem =>
    reassemble_map_fnv1a datas fun piece part => mem_flatMap.mpr ⟨data, mem, part⟩
  constructor
  · intro readsBack data mem
    obtain ⟨i, at_i⟩ := mem_iff_getElem?.mp mem
    have back := readsBack i data ((pieces data).map fnv1a) at_i
      (by rw [storeAll_hashes, getElem?_map, at_i, Option.map_some])
    rw [result data mem] at back
    exact Except.ok.inj back
  · intro same i data hashes at_i hashes_i
    have mem := mem_of_getElem? at_i
    rw [storeAll_hashes, getElem?_map, at_i, Option.map_some, Option.some.injEq] at hashes_i
    rw [← hashes_i, result data mem, same data mem]

/-- The data `"altarage"` and then `"zinke"`: both are one chunk, and the chunks have one hash. -/
theorem zinke_substituted : ¬ ReadsBack
    [[0x61, 0x6c, 0x74, 0x61, 0x72, 0x61, 0x67, 0x65], [0x7a, 0x69, 0x6e, 0x6b, 0x65]] := by
  intro readsBack
  have second := readsBack 1 _ _ rfl rfl
  revert second
  decide +kernel

end SmartOs.SmartFs
