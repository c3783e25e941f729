/-
# Radix trees

A tree with a fixed number of levels. A node at level `n + 1` has a label, a gate and one
slot for each index below `width n`; a slot is absent or holds a tree of level `n`, and the
values sit at level `0`. A path of indices leads to at most one value, and is open if all
gates on it are.

Inserting a value creates the missing nodes on the way down, taking a label for each from
a supply. When the supply runs dry the nodes created so far stay in the tree. An insertion
may open the gates on its way, and never closes one.
-/

import Mathlib.Data.List.FinRange

namespace SmartOs.CS

open Function List

/-- The indices from a tree of level `n` down to a value. -/
inductive TreePath (width : ℕ → ℕ) : ℕ → Type
  | nil : TreePath width 0
  | cons {n : ℕ} (i : Fin (width n)) (rest : TreePath width n) : TreePath width (n + 1)
  deriving DecidableEq

/-- A slot for a tree of level `n` with labels `ν` on its nodes and values `α`. -/
inductive RadixTree (width : ℕ → ℕ) (ν α : Type) : ℕ → Type
  | absent {n : ℕ} : RadixTree width ν α n
  | leaf (value : α) : RadixTree width ν α 0
  | node {n : ℕ} (label : ν) (gate : Bool) (children : Fin (width n) → RadixTree width ν α n) :
      RadixTree width ν α (n + 1)

/-- Where labels come from: a state, a way to draw a label, and which are available. -/
structure Supply (σ ν : Type) where
  draw : σ → Option (ν × σ)
  Available : σ → ν → Prop
  draw_spec : ∀ {s s' label}, draw s = some (label, s') →
    Available s label ∧ ∀ other, Available s' other ↔ Available s other ∧ other ≠ label

namespace RadixTree

variable {width : ℕ → ℕ} {σ ν α : Type} {n : ℕ}

/-- The value at the end of a path. -/
def lookup : {n : ℕ} → RadixTree width ν α n → TreePath width n → Option α
  | _, .absent, _ => none
  | _, .leaf value, .nil => some value
  | _, .node _ _ children, .cons i rest => (children i).lookup rest

/-- The path leads to a value, and all gates on it are open. -/
def isOpen : {n : ℕ} → RadixTree width ν α n → TreePath width n → Bool
  | _, .absent, _ => false
  | _, .leaf _, .nil => true
  | _, .node _ gate children, .cons i rest => gate && (children i).isOpen rest

/-- Change the value at the end of a path, if there is one. -/
def modify (f : α → α) : {n : ℕ} → RadixTree width ν α n → TreePath width n → RadixTree width ν α n
  | _, .absent, _ => .absent
  | _, .leaf value, .nil => .leaf (f value)
  | _, .node label gate children, .cons i rest =>
    .node label gate (update children i ((children i).modify f rest))

/-- The values with their paths, in index order. -/
def leaves : {n : ℕ} → RadixTree width ν α n → List (TreePath width n × α)
  | _, .absent => []
  | _, .leaf value => [(.nil, value)]
  | _, .node _ _ children =>
    (finRange _).flatMap fun i => (children i).leaves.map fun (rest, value) =>
      (.cons i rest, value)

/-- The label occurs on some node. -/
def Labels : {n : ℕ} → RadixTree width ν α n → ν → Prop
  | _, .absent, _ => False
  | _, .leaf _, _ => False
  | _, .node label _ children, other => other = label ∨ ∃ i, (children i).Labels other

/-- Insert a value at a path that has none yet, and open the gates on it if `opens`. Returns
the tree, what is left of the supply, and whether the value was inserted. -/
def insert (supply : Supply σ ν) (opens : Bool) (value : α) :
    {n : ℕ} → RadixTree width ν α n → TreePath width n → σ → RadixTree width ν α n × σ × Bool
  | _, .absent, .nil, s => (.leaf value, s, true)
  -- a value that is there already stays
  | _, .leaf old, .nil, s => (.leaf old, s, false)
  | _, .node label gate children, .cons i rest, s =>
    let (child, s', done) := (children i).insert supply opens value rest s
    (.node label (gate || opens) (update children i child), s', done)
  | _, .absent, .cons i rest, s =>
    match supply.draw s with
    | none => (.absent, s, false)
    | some (label, s') =>
      let (child, s'', done) := insert supply opens value .absent rest s'
      (.node label opens (update (fun _ => .absent) i child), s'', done)

/-! ## Changing a value -/

theorem lookup_modify (f : α → α) (t : RadixTree width ν α n) (p q : TreePath width n) :
    (t.modify f p).lookup q = if q = p then (t.lookup q).map f else t.lookup q := by
  induction p with
  | nil =>
    cases q
    cases t <;> rfl
  | cons i rest ih =>
    cases q with
    | cons j rest' =>
      cases t with
      | absent => simp [modify, lookup]
      | node label gate children =>
        by_cases same : j = i
        · subst same
          simp [modify, lookup, ih]
        · simp [modify, lookup, same]

variable {t : RadixTree width ν α n} {p : TreePath width n}

theorem isOpen_modify (f : α → α) (q : TreePath width n) :
    (t.modify f p).isOpen q = t.isOpen q := by
  induction p with
  | nil =>
    cases q
    cases t <;> rfl
  | cons i rest ih =>
    cases q with
    | cons j rest' =>
      cases t with
      | absent => rfl
      | node label gate children =>
        by_cases same : j = i
        · subst same
          simp [modify, isOpen, ih]
        · simp [modify, isOpen, same]

theorem labels_modify {f : α → α} {l : ν} : (t.modify f p).Labels l ↔ t.Labels l := by
  induction p with
  | nil => cases t <;> rfl
  | cons i rest ih =>
    cases t with
    | absent => rfl
    | node label gate children =>
      refine or_congr_right (exists_congr fun j => ?_)
      by_cases same : j = i
      · subst same
        rw [update_self, ih]
      · rw [update_of_ne same]

/-! ## Listing the values -/

theorem mem_leaves {value : α} : (p, value) ∈ t.leaves ↔ t.lookup p = some value := by
  induction p with
  | nil => cases t <;> simp [leaves, lookup, eq_comm]
  | cons i rest ih =>
    cases t with
    | absent => simp [leaves, lookup]
    | node label gate children => simp [leaves, lookup, ih]

theorem nodup_leaves (t : RadixTree width ν α n) : (t.leaves.map Prod.fst).Nodup := by
  induction t with
  | absent => exact nodup_nil
  | leaf value => exact nodup_singleton _
  | node label gate children ih =>
    simp only [leaves, map_flatMap, map_map]
    refine nodup_flatMap.mpr
      ⟨fun i _ => ?_, (nodup_finRange _).imp fun {i j} distinct => ?_⟩
    · -- paths below one child: those of the child with the same first index
      have below := (ih i).map (f := TreePath.cons i) fun p q same => by cases same; rfl
      rwa [map_map] at below
    -- paths below different children differ in their first index
    intro p left right
    simp only [mem_map] at left right
    obtain ⟨_, -, rfl⟩ := left
    obtain ⟨_, -, same⟩ := right
    exact distinct (TreePath.cons.inj same).1.symm

/-! ## Inserting a value -/

/-- What an insertion at `p` does, successful or not. -/
structure Inserted (supply : Supply σ ν) (value : α) (t : RadixTree width ν α n)
    (p : TreePath width n) (s : σ) (result : RadixTree width ν α n × σ × Bool) : Prop where
  lookup_eq : ∀ q, result.1.lookup q =
    if result.2.2 ∧ q = p then some value else t.lookup q
  vacant : result.2.2 → t.lookup p = none
  labels_mono : ∀ l, t.Labels l → result.1.Labels l
  labels_new : ∀ l, result.1.Labels l →
    t.Labels l ∨ (supply.Available s l ∧ ¬supply.Available result.2.1 l)
  available : ∀ l, supply.Available result.2.1 l → supply.Available s l

theorem insert_spec (supply : Supply σ ν) (opens : Bool) (value : α) (t : RadixTree width ν α n)
    (p : TreePath width n) (s : σ) :
    Inserted supply value t p s (t.insert supply opens value p s) := by
  induction p generalizing s with
  | nil =>
    cases t with
    | absent => exact ⟨fun q => by cases q; simp [insert, lookup], fun _ => rfl, by simp [Labels],
        by simp [insert, Labels], fun _ => id⟩
    | leaf old => exact ⟨fun q => by cases q; simp [insert], by simp [insert],
        by simp [Labels], by simp [insert], fun _ => id⟩
  | cons i rest ih =>
    -- everything happens below child `i`; the other children are as they were
    have node (label : ν) (gate : Bool) (children : Fin (width _) → RadixTree width ν α _) (s : σ) :
        Inserted supply value (.node label gate children) (.cons i rest) s
          (insert supply opens value (.node label gate children) (.cons i rest) s) := by
      have below := ih (children i) s
      refine ⟨fun q => ?_, below.vacant, fun l old => ?_, fun l new => ?_, below.available⟩
      · cases q with
        | cons j rest' =>
          by_cases same : j = i
          · subst same
            simpa [insert, lookup] using below.lookup_eq rest'
          · simp [insert, lookup, same]
      · rcases old with rfl | ⟨j, old⟩
        · exact .inl rfl
        refine .inr ⟨j, ?_⟩
        by_cases same : j = i
        · subst same
          simpa using below.labels_mono l old
        · simpa [same] using old
      · rcases new with rfl | ⟨j, new⟩
        · exact .inl (.inl rfl)
        by_cases same : j = i
        · subst same
          rw [update_self] at new
          exact (below.labels_new l new).imp_left fun old => .inr ⟨j, old⟩
        · rw [update_of_ne same] at new
          exact .inl (.inr ⟨j, new⟩)
    cases t with
    | node label gate children => exact node label gate children s
    | absent =>
      cases drawn : supply.draw s with
      | none =>
        have stuck : insert supply opens value .absent (.cons i rest) s =
            ((.absent : RadixTree width ν α _), s, false) := by
          simp [insert, drawn]
        rw [stuck]
        exact ⟨fun q => by simp, by simp, fun _ => id, fun _ => .inl, fun _ => id⟩
      | some next =>
        obtain ⟨label, s'⟩ := next
        obtain ⟨free, left⟩ := supply.draw_spec drawn
        -- a node without children is filled from what the supply has left
        have filled := node label opens (fun _ => .absent) s'
        have made : insert supply opens value .absent (.cons i rest) s =
            insert supply opens value (.node label opens fun _ => .absent) (.cons i rest) s' := by
          simp [insert, drawn]
        rw [made]
        refine ⟨fun q => ?_, fun _ => rfl, fun l => False.elim, fun l new => .inr ?_,
          fun l last => ((left l).mp (filled.available l last)).1⟩
        · cases q
          exact filled.lookup_eq _
        rcases filled.labels_new l new with (rfl | ⟨_, none⟩) | ⟨before, after⟩
        · exact ⟨free, fun last => ((left _).mp (filled.available _ last)).2 rfl⟩
        · exact absurd none id
        · exact ⟨((left l).mp before).1, after⟩

/-! ## The label at the root -/

/-- The root's label does not occur again below it. -/
def RootApart : {n : ℕ} → RadixTree width ν α n → Prop
  | _, .absent => True
  | _, .leaf _ => True
  | _, .node label _ children => ∀ i, ¬(children i).Labels label

theorem RootApart.modify (apart : t.RootApart) (f : α → α)
    (p : TreePath width n) : (t.modify f p).RootApart := by
  cases p with
  | nil => cases t <;> trivial
  | cons i rest =>
    cases t with
    | absent => trivial
    | node label gate children =>
      intro j
      by_cases same : j = i
      · subst same
        rw [update_self, labels_modify]
        exact apart j
      · rw [update_of_ne same]
        exact apart j

/-- An insertion only uses labels that were available, so it does not repeat one that was
not. -/
theorem RootApart.insert {t : RadixTree width ν α (n + 1)} (apart : t.RootApart)
    (supply : Supply σ ν) {s : σ} (taken : ∀ l, t.Labels l → ¬supply.Available s l)
    (opens : Bool) (value : α) (p : TreePath width (n + 1)) :
    (t.insert supply opens value p s).1.RootApart := by
  cases p with
  | cons i rest =>
    cases t with
    | node label gate children =>
      intro j
      by_cases same : j = i
      · subst same
        rw [update_self]
        intro repeated
        rcases (insert_spec supply opens value (children j) rest s).labels_new label repeated with
          old | ⟨available, -⟩
        · exact apart j old
        · exact taken label (.inl rfl) available
      · rw [update_of_ne same]
        exact apart j
    | absent =>
      rw [RadixTree.insert]
      cases drawn : supply.draw s with
      | none => trivial
      | some next =>
        obtain ⟨label, s'⟩ := next
        intro j
        by_cases same : j = i
        · subst same
          rw [update_self]
          intro repeated
          have spec := insert_spec supply opens value .absent rest s'
          obtain ⟨available, -⟩ := (spec.labels_new label repeated).resolve_left id
          exact (((supply.draw_spec drawn).2 label).mp available).2 rfl
        · rw [update_of_ne same]
          exact id

/-! ## Closed gates -/

/-- The gate at the root is closed. -/
def Closed : {n : ℕ} → RadixTree width ν α n → Prop
  | _, .absent => True
  | _, .leaf _ => True
  | _, .node _ gate _ => gate = false

/-- The gates of the nodes below the root are closed. -/
def ClosedBelow : {n : ℕ} → RadixTree width ν α n → Prop
  | _, .absent => True
  | _, .leaf _ => True
  | _, .node _ _ children => ∀ i, (children i).Closed

theorem Closed.isOpen {t : RadixTree width ν α (n + 1)} (closed : t.Closed)
    (p : TreePath width (n + 1)) : t.isOpen p = false := by
  cases p
  cases t with
  | absent => rfl
  | node label gate children => simp [RadixTree.isOpen, show gate = false from closed]

theorem ClosedBelow.isOpen {t : RadixTree width ν α (n + 2)} (closed : t.ClosedBelow)
    (p : TreePath width (n + 2)) : t.isOpen p = false := by
  cases p with
  | cons i rest =>
    cases t with
    | absent => rfl
    | node label gate children => simp [RadixTree.isOpen, (closed i).isOpen rest]

variable (supply : Supply σ ν) (value : α) (s : σ)

/-- An insertion that opens nothing leaves the gates closed. -/
theorem Closed.insert {t : RadixTree width ν α (n + 1)} (closed : t.Closed)
    (p : TreePath width (n + 1)) : (t.insert supply false value p s).1.Closed := by
  cases p
  cases t with
  | node label gate children => exact (Bool.or_false gate).trans closed
  | absent =>
    rw [RadixTree.insert]
    cases supply.draw s with
    | none => trivial
    | some next => rfl

theorem ClosedBelow.insert {t : RadixTree width ν α (n + 2)} (closed : t.ClosedBelow)
    (p : TreePath width (n + 2)) : (t.insert supply false value p s).1.ClosedBelow := by
  have at_child {children : Fin (width (n + 1)) → RadixTree width ν α (n + 1)}
      (closed : ∀ i, (children i).Closed) (i : Fin _) (rest : TreePath width (n + 1)) (s : σ) :
      ∀ j, (update children i ((children i).insert supply false value rest s).1 j).Closed := by
    intro j
    by_cases same : j = i
    · subst same
      rw [update_self]
      exact (closed j).insert supply value s rest
    · rw [update_of_ne same]
      exact closed j
  cases p with
  | cons i rest =>
    cases t with
    | node label gate children => exact at_child closed i rest s
    | absent =>
      rw [RadixTree.insert]
      cases supply.draw s with
      | none => trivial
      | some next => exact @at_child (fun _ => .absent) (fun _ => trivial) i rest next.2

end RadixTree

end SmartOs.CS
