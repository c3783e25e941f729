/-
# Frames in a stream that comes in chunks

A receiver keeps what it has not used in a buffer. To each chunk it decodes frames from the front of
the buffer while there are any. If the encodings of the frames are decoded with whatever follows
them, and no proper beginning of one is taken for a frame, the frames are handled one after the
other, no matter how their concatenation was cut into chunks.
-/

import Mathlib.Data.List.Forall2

namespace SmartOs.CS

open List

variable {α β σ : Type}

/-- A decoder of frames at the front of a stream: the frame and the number of items it takes. There
is no result where the decoder aborts, and no frame while the input is incomplete. -/
structure Decoder (α β : Type) where
  decode : List α → Option (Option (β × ℕ))
  empty : decode [] = some none
  consumes : ∀ {data b n}, decode data = some (some (b, n)) → 0 < n ∧ n ≤ data.length

namespace Decoder

variable (d : Decoder α β) (handle : σ → β → σ) (done : σ → Bool)

/-- Decode and handle frames while there are any in the buffer. -/
def drain (s : σ) (buffer : List α) : Option (σ × List α) :=
  match _ : d.decode buffer with
  | none => none
  | some none => some (s, buffer)
  | some (some (b, n)) => drain (handle s b) (buffer.drop n)
termination_by buffer.length
decreasing_by
  rename_i found
  have := d.consumes found
  rw [length_drop]
  omega

/-- A chunk arrives. A receiver that is done does not look at it. -/
def feed (s : σ × List α) (chunk : List α) : Option (σ × List α) :=
  if done s.1 then some s else d.drain handle s.1 (s.2 ++ chunk)

/-- An encoding of a frame. -/
structure Code (b : β) (e : List α) : Prop where
  whole : ∀ rest, d.decode (e ++ rest) = some (some (b, e.length))
  incomplete : ∀ {p}, p <+: e → p ≠ e → d.decode p = some none

variable {d handle done} {s : σ} {buffer : List α} {e : List α} {b : β}

theorem drain_of_incomplete (incomplete : d.decode buffer = some none) :
    d.drain handle s buffer = some (s, buffer) := by
  unfold drain
  split
  · rename_i found
    cases incomplete.symm.trans found
  · rfl
  · rename_i found
    cases incomplete.symm.trans found

theorem Code.ne_nil (code : d.Code b e) : e ≠ [] := by
  have consumed := d.consumes (code.whole [])
  exact ne_nil_of_length_pos consumed.1

theorem Code.drain_append (code : d.Code b e) (rest : List α) :
    d.drain handle s (e ++ rest) = d.drain handle (handle s b) rest := by
  conv_lhs => unfold drain
  have whole := code.whole rest
  split
  all_goals
    rename_i found
    cases whole.symm.trans found
  rw [drop_left]

variable {bs : List β} {es : List (List α)}

theorem drain_codes (codes : List.Forall₂ d.Code bs es) (rest : List α) :
    d.drain handle s (es.flatten ++ rest) = d.drain handle (bs.foldl handle s) rest := by
  induction codes generalizing s with
  | nil => rfl
  | cons code _ ih => rw [flatten_cons, append_assoc, code.drain_append, ih, foldl_cons]

/-- What is kept in the buffer when `es` are to come: a proper beginning of the first of them. -/
def Pending (buffer : List α) : List (List α) → Prop
  | [] => buffer = []
  | e :: _ => buffer <+: e ∧ buffer ≠ e

theorem Pending.incomplete (pending : Pending buffer es) (codes : List.Forall₂ d.Code bs es) :
    d.decode buffer = some none := by
  cases codes with
  | nil =>
    cases pending
    exact d.empty
  | cons code _ => exact code.incomplete pending.1 pending.2

theorem pending_nil (codes : List.Forall₂ d.Code bs es) : Pending [] es := by
  cases codes with
  | nil => rfl
  | cons code _ => exact .intro nil_prefix code.ne_nil.symm

/-- A beginning of a concatenation is some of its parts and a proper beginning of the next. -/
theorem exists_pending (front back : List α) (cut : front ++ back = es.flatten) :
    ∃ done rest todo, es = done ++ todo ∧ front = done.flatten ++ rest ∧ Pending rest todo := by
  induction es generalizing front with
  | nil =>
    obtain ⟨rfl, -⟩ := append_eq_nil_iff.mp cut
    exact ⟨[], [], [], rfl, rfl, rfl⟩
  | cons e es ih =>
    rw [flatten_cons] at cut
    by_cases inside : front <+: e ∧ front ≠ e
    · exact ⟨[], front, e :: es, rfl, rfl, inside⟩
    -- the first part has been passed
    have passed : e <+: front := by
      have first : e <+: front ++ back := ⟨es.flatten, cut.symm⟩
      obtain shorter | longer := prefix_or_prefix_of_prefix first (prefix_append ..)
      · exact shorter
      · exact (not_and_not_right.mp inside longer) ▸ prefix_rfl
    obtain ⟨front, rfl⟩ := passed
    rw [append_assoc, append_cancel_left_eq] at cut
    obtain ⟨parts, rest, todo, rfl, rfl, pending⟩ := ih front cut
    exact ⟨e :: parts, rest, todo, rfl, by rw [flatten_cons, append_assoc], pending⟩

/-- However the encodings are cut into chunks, their frames are handled in order and nothing is
left, if the receiver is not done before the last of them. -/
theorem foldlM_feed (codes : List.Forall₂ d.Code bs es) (chunks : List (List α))
    (cut : buffer ++ chunks.flatten = es.flatten) (pending : Pending buffer es)
    (busy : ∀ front, front <+: bs → front ≠ bs → done (front.foldl handle s) = false) :
    chunks.foldlM (d.feed handle done) (s, buffer) = some (bs.foldl handle s, []) := by
  induction chunks generalizing s buffer es bs with
  | nil =>
    rw [flatten_nil, append_nil] at cut
    cases codes with
    | nil =>
      cases pending
      rfl
    | cons code _ =>
      -- all of the first encoding would be in the buffer
      rw [flatten_cons] at cut
      have whole := pending.1.eq_of_length_le (by rw [cut, length_append]; omega)
      exact absurd whole pending.2
  | cons chunk chunks ih =>
    rw [flatten_cons] at cut
    rw [foldlM_cons, feed]
    cases finished : done s with
    | true =>
      -- nothing is to come, so the chunk is empty
      have last : [] = bs := by
        by_contra more
        exact absurd (busy [] nil_prefix more) (by simp [finished])
      subst last
      cases codes
      rw [flatten_nil, append_eq_nil_iff, append_eq_nil_iff] at cut
      obtain ⟨rfl, -, rest⟩ := cut
      exact ih .nil (by rw [rest]; rfl) rfl busy
    | false =>
      obtain ⟨parts, rest, todo, rfl, front, next⟩ := exists_pending (buffer ++ chunk)
        chunks.flatten (by rw [append_assoc, cut])
      obtain ⟨now, later, rfl, first, second⟩ : ∃ now later, bs = now ++ later ∧
          List.Forall₂ d.Code now parts ∧ List.Forall₂ d.Code later todo :=
        ⟨_, _, (take_append_drop parts.length bs).symm, forall₂_take_append _ _ _ codes,
          forall₂_drop_append _ _ _ codes⟩
      rw [← append_assoc, front, flatten_append, append_assoc, append_cancel_left_eq] at cut
      simp only [Bool.false_eq_true, if_false]
      rw [front, drain_codes first, drain_of_incomplete (next.incomplete second)]
      rw [foldl_append]
      refine ih second cut next fun more within proper => ?_
      rw [← foldl_append]
      exact busy _ ((prefix_append_right_inj now).mpr within) fun same =>
        proper (append_cancel_left same)

end Decoder

end SmartOs.CS
