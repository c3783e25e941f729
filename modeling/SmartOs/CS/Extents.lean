/-
# Extents

A store of numbered sectors in which every object has an extent of its own: a table of objects
whose extents lie in the space for them and do not overlap, together with the set of sectors in
use. Objects come and go; a new one takes sectors that are not in use.

`firstFit` is the search for a run of free sectors of a given length. It finds one exactly if
there is one.
-/

import Mathlib.Data.Set.Lattice
import Mathlib.Algebra.Order.Group.Nat
import Mathlib.Order.CompletePartialOrder

namespace SmartOs.CS

/-! ## Tables of extents -/

section Table

variable {ι α : Type}

/-- The objects of the table have disjoint extents in `space`, and exactly these and the
reserved sectors are in use. -/
structure Laid (extent : α → Set ℕ) (space reserved : Set ℕ) (table : ι → Option α)
    (used : Set ℕ) : Prop where
  inside : ∀ {i a}, table i = some a → extent a ⊆ space
  disjoint : ∀ {i j a b}, table i = some a → table j = some b → i ≠ j →
    Disjoint (extent a) (extent b)
  used_iff : ∀ {s}, s ∈ used ↔ s ∈ reserved ∨ ∃ i a, table i = some a ∧ s ∈ extent a

variable {extent : α → Set ℕ} {space reserved used : Set ℕ} {table : ι → Option α}

theorem Laid.empty : Laid extent space reserved (fun _ : ι => none) reserved where
  inside found := by cases found
  disjoint found := by cases found
  used_iff := by simp

variable [DecidableEq ι] {i : ι}

theorem update_eq_some_iff {j : ι} {entry : Option α} {b : α} :
    Function.update table i entry j = some b ↔
      j = i ∧ entry = some b ∨ j ≠ i ∧ table j = some b := by
  by_cases same : j = i
  · subst same
    simp
  · simp [same]

/-- A new object takes sectors that are not in use. -/
theorem Laid.insert (laid : Laid extent space reserved table used) {a : α}
    (vacant : table i = none) (inside : extent a ⊆ space) (free : Disjoint (extent a) used) :
    Laid extent space reserved (Function.update table i (some a)) (used ∪ extent a) := by
  have apart {j : ι} {b : α} (found : table j = some b) : Disjoint (extent a) (extent b) :=
    free.mono_right fun s mem => laid.used_iff.mpr (.inr ⟨j, b, found, mem⟩)
  refine ⟨fun {j b} found => ?_, fun {j k b c} foundJ foundK ne => ?_, fun {s} => ?_⟩
  · rcases update_eq_some_iff.mp found with ⟨-, new⟩ | ⟨-, old⟩
    · cases new
      exact inside
    · exact laid.inside old
  · rcases update_eq_some_iff.mp foundJ with ⟨rfl, newJ⟩ | ⟨-, oldJ⟩
    · cases newJ
      rcases update_eq_some_iff.mp foundK with ⟨rfl, -⟩ | ⟨-, oldK⟩
      · exact absurd rfl ne
      · exact apart oldK
    · rcases update_eq_some_iff.mp foundK with ⟨-, newK⟩ | ⟨-, oldK⟩
      · cases newK
        exact (apart oldJ).symm
      · exact laid.disjoint oldJ oldK ne
  · rw [Set.mem_union, laid.used_iff]
    constructor
    · rintro ((kept | ⟨j, b, found, mem⟩) | new)
      · exact .inl kept
      · have other : j ≠ i := by
          rintro rfl
          rw [vacant] at found
          cases found
        exact .inr ⟨j, b, update_eq_some_iff.mpr (.inr ⟨other, found⟩), mem⟩
      · exact .inr ⟨i, a, Function.update_self .., new⟩
    · rintro (kept | ⟨j, b, found, mem⟩)
      · exact .inl (.inl kept)
      rcases update_eq_some_iff.mp found with ⟨-, new⟩ | ⟨-, old⟩
      · cases new
        exact .inr mem
      · exact .inl (.inr ⟨j, b, old, mem⟩)

/-- The sectors of an object that goes are free again. -/
theorem Laid.remove (laid : Laid extent space reserved table used)
    (outside : Disjoint space reserved) {a : α} (found : table i = some a) :
    Laid extent space reserved (Function.update table i none) (used \ extent a) := by
  have old {j : ι} {b : α} (kept : Function.update table i none j = some b) :
      j ≠ i ∧ table j = some b := by
    rcases update_eq_some_iff.mp kept with ⟨-, new⟩ | old
    · cases new
    · exact old
  refine ⟨fun kept => laid.inside (old kept).2, fun keptJ keptK => ?_, fun {s} => ?_⟩
  · exact laid.disjoint (old keptJ).2 (old keptK).2
  rw [Set.mem_sdiff, laid.used_iff]
  constructor
  · rintro ⟨kept | ⟨j, b, foundB, mem⟩, gone⟩
    · exact .inl kept
    have other : j ≠ i := by
      rintro rfl
      rw [found] at foundB
      cases foundB
      exact gone mem
    exact .inr ⟨j, b, update_eq_some_iff.mpr (.inr ⟨other, foundB⟩), mem⟩
  · rintro (kept | ⟨j, b, keptB, mem⟩)
    · refine ⟨.inl kept, fun mem => ?_⟩
      exact Set.disjoint_left.mp outside (laid.inside found mem) kept
    · obtain ⟨other, foundB⟩ := old keptB
      refine ⟨.inr ⟨j, b, foundB, mem⟩, fun gone => ?_⟩
      exact Set.disjoint_left.mp (laid.disjoint foundB found other) mem gone

end Table

/-! ## First fit -/

section FirstFit

variable {free : ℕ → Bool} {count : ℕ}

/-- Look at `rest` sectors from `sector` on for a run of `count` free ones. The sectors before
`sector` end in a run of length `runLen` that starts at `runStart`. -/
def firstFit (free : ℕ → Bool) (count : ℕ) : (rest sector runStart runLen : ℕ) → Option ℕ
  | 0, _, _, _ => none
  | rest + 1, sector, runStart, runLen =>
    if free sector then
      let start := if runLen = 0 then sector else runStart
      if count ≤ runLen + 1 then some start
      else firstFit free count rest (sector + 1) start (runLen + 1)
    else firstFit free count rest (sector + 1) runStart 0

/-- A run of free sectors inside the bounds. -/
structure FreeRun (free : ℕ → Bool) (count low high start : ℕ) : Prop where
  low_le : low ≤ start
  le_high : start + count ≤ high
  free : ∀ s, start ≤ s → s < start + count → free s

variable {runStart rest sector runLen start low : ℕ}

theorem firstFit_sound
    (found : firstFit free count rest sector runStart runLen = some start) (low_le : low ≤ sector)
    (short : runLen < count)
    (run : runLen ≠ 0 → low ≤ runStart ∧ runStart + runLen = sector ∧ ∀ s, runStart ≤ s → s <
      sector → free s) : FreeRun free count low (sector + rest) start := by
  induction rest generalizing sector runStart runLen with
  | zero => cases found
  | succ rest ih =>
    rw [firstFit] at found
    split at found
    · rename_i freeSector
      -- the run with this sector
      have longer : low ≤ (if runLen = 0 then sector else runStart) ∧
          (if runLen = 0 then sector else runStart) + (runLen + 1) = sector + 1 ∧
          ∀ s, (if runLen = 0 then sector else runStart) ≤ s → s < sector + 1 → free s := by
        split
        · rename_i none
          refine ⟨low_le, by omega, fun s after before => ?_⟩
          rwa [show s = sector by omega]
        rename_i some
        obtain ⟨lowRun, ends, frees⟩ := run some
        refine ⟨lowRun, by omega, fun s after before => ?_⟩
        rcases lt_or_ge s sector with earlier | last
        · exact frees s after earlier
        · rwa [show s = sector by omega]
      obtain ⟨lowRun, ends, frees⟩ := longer
      dsimp only at found
      split at found
      · rename_i enough
        cases found
        exact ⟨lowRun, by omega, fun s after before => frees s after (by omega)⟩
      · have longerFit := ih found (by omega) (by omega) (fun _ => ⟨lowRun, ends, frees⟩)
        rwa [add_right_comm] at longerFit
    · have fit := ih found (by omega) (by omega) (fun ne => absurd rfl ne)
      rwa [add_right_comm] at fit

theorem firstFit_complete (short : runLen < count)
    (fit : FreeRun free count (sector - runLen) (sector + rest) start) (bound : runLen ≤ sector) :
    (firstFit free count rest sector runStart runLen).isSome := by
  induction rest generalizing sector runStart runLen with
  | zero =>
    have := fit.low_le
    have := fit.le_high
    omega
  | succ rest ih =>
    rw [firstFit]
    split
    · dsimp only
      split
      · rfl
      refine ih (by omega) ⟨?_, ?_, fit.free⟩ (by omega)
      · have := fit.low_le
        omega
      · have := fit.le_high
        omega
    · rename_i taken
      -- a run that starts before the taken sector would contain it
      have later : sector < start := by
        by_contra before
        have := fit.low_le
        exact taken (fit.free sector (by omega) (by omega))
      refine ih (by omega) ⟨by omega, ?_, fit.free⟩ (by omega)
      have := fit.le_high
      omega

/-- Where the next sectors are free the run goes on, and is the one that is found. -/
theorem firstFit_of_free (short : runLen < count) (room : count ≤ runLen + rest)
    (run : ∀ s, sector ≤ s → s + runLen < sector + count → free s) :
    firstFit free count rest sector runStart runLen =
      some (if runLen = 0 then sector else runStart) := by
  induction rest generalizing sector runStart runLen with
  | zero => omega
  | succ rest ih =>
    rw [firstFit, if_pos (run sector le_rfl (by omega))]
    dsimp only
    split_ifs with full
    · rfl
    · rfl
    all_goals
      rw [ih (by omega) (by omega) fun s first last => run s (by omega) (by omega)]
      rfl

theorem firstFit_isSome_iff (pos : 0 < count) : (firstFit free count rest low runStart 0).isSome ↔
      ∃ start, FreeRun free count low (low + rest) start := by
  constructor
  · intro found
    obtain ⟨start, equal⟩ := Option.isSome_iff_exists.mp found
    exact ⟨start, firstFit_sound equal le_rfl pos (fun ne => absurd rfl ne)⟩
  · rintro ⟨start, fit⟩
    exact firstFit_complete pos (by rwa [Nat.sub_zero]) (Nat.zero_le _)

end FirstFit

end SmartOs.CS
