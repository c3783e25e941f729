/-
# Evaluation of spreadsheets

A formula is evaluated by evaluating the cells it refers to, without a check for cycles. So the
recursion ends exactly if no cell that the formula leads to leads back to itself.

Numbers are a parameter, and the memory for the cells of a range is not modelled. There is fuel for
the depth of the recursion.
-/

import Mathlib.Data.Fintype.Pigeonhole
import Mathlib.Data.Fintype.Prod
import Mathlib.Order.OrderIsoNat
import SmartOs.Net.Cookies

namespace SmartOs.Apps

open List Net.Cookies Relation

/-! ## Formulas -/

/-- Floating-point numbers. -/
structure Numbers (F : Type) where
  parse : Str → Option F
  ofNat : ℕ → F
  (add sub mul div min max : F → F → F)
  (largest least : F)
  isZero : F → Bool

inductive CellValue (F : Type) where
  | empty
  | text (s : Str)
  | number (n : F)
  | error (e : String)

/-- Column and row. -/
abbrev Cell := ℕ × ℕ

/-- `str::parse::<usize>`. -/
def parseUsize (s : Str) : Option ℕ :=
  (parseDigits (if s.head? = some '+' then s.tail else s)).filter (· < 2 ^ 64)

def parseCellAddr (s : Str) : Option Cell :=
  match trim s with
  | [] => none
  | c :: digits =>
    if 'A' ≤ c ∧ c ≤ 'Z' then
      ((parseUsize digits).filter (· ≠ 0)).map fun row => (c.toNat - 'A'.toNat, row - 1)
    else none

/-- The numbers between two, both included. -/
def between (a b : ℕ) : List ℕ := range' (min a b) (max a b - min a b + 1)

def parseRange (range : Str) : List Cell :=
  match splitOnce ':' range with
  | some (start, finish) =>
    match parseCellAddr start, parseCellAddr finish with
    | some (c₁, r₁), some (c₂, r₂) =>
      (between r₁ r₂).flatMap fun r => (between c₁ c₂).map fun c => (c, r)
    | _, _ => []
  | none => (parseCellAddr range).toList

inductive RangeFn where
  | sum | avg | min | max | count

/-- What stands in the parentheses of a function. -/
def argument (name : String) (expr : Str) : Option Str :=
  if name.toList <+: expr ∧ (expr.drop name.length).getLast? = some ')' then
    some (expr.drop name.length).dropLast
  else none

/-- The function that is called, and the range. -/
def rangeCall (expr : Str) : Option (RangeFn × Str) :=
  let functions := [("SUM(", RangeFn.sum), ("AVG(", .avg), ("MIN(", .min), ("MAX(", .max),
    ("COUNT(", .count)]
  functions.findSome? fun (name, f) => (argument name expr).map (f, ·)

/-- The parts before and after the last `op`, if there is something before it. -/
def splitLast (expr : Str) (op : Char) : Option (Char × Str × Str) :=
  match expr.reverse.dropWhile (· ≠ op) with
  | _ :: c :: front => some (op, (c :: front).reverse, (expr.reverse.takeWhile (· ≠ op)).reverse)
  | _ => none

def splitArith (expr : Str) : Option (Char × Str × Str) :=
  ['+', '-', '*', '/'].findSome? (splitLast expr)

def formula : Str → Option Str
  | '=' :: expr => some (trim expr)
  | _ => none

/-! ## Evaluation -/

/-- 20 rows of 10 columns. -/
abbrev Spreadsheet := Fin 20 → Fin 10 → Str

def getRaw (sheet : Spreadsheet) (cell : Cell) : Str :=
  if h : cell.1 < 10 ∧ cell.2 < 20 then sheet ⟨cell.2, h.2⟩ ⟨cell.1, h.1⟩ else []

section

variable {F : Type} (N : Numbers F)

namespace RangeFn

def apply (numbers : List F) : RangeFn → CellValue F
  | sum => .number (numbers.foldl N.add (N.ofNat 0))
  | avg =>
    if numbers = [] then .error "DIV0"
    else .number (N.div (numbers.foldl N.add (N.ofNat 0)) (N.ofNat numbers.length))
  | min => .number (numbers.foldl N.min N.largest)
  | max => .number (numbers.foldl N.max N.least)
  | count => .number (N.ofNat numbers.length)

end RangeFn

def arith (op : Char) : CellValue F → CellValue F → CellValue F
  | .number a, .number b =>
    match op with
    | '+' => .number (N.add a b)
    | '-' => .number (N.sub a b)
    | '*' => .number (N.mul a b)
    | '/' => if N.isZero b then .error "DIV0" else .number (N.div a b)
    | _ => .error "OP"
  | _, _ => .error "TYPE"

section

variable (eval : Cell → Option (CellValue F))

def evalTerm (s : Str) : Option (CellValue F) :=
  match N.parse (trim s) with
  | some n => some (.number n)
  | none =>
    match parseCellAddr s with
    | some cell => eval cell
    | none => some (.error "REF")

def evalFormula (expr : Str) : Option (CellValue F) :=
  match rangeCall expr with
  | some (f, range) => do
    let values ← (parseRange range).mapM eval
    return f.apply N (values.filterMap fun | .number n => some n | _ => none)
  | none =>
    match splitArith expr with
    | some (op, l, r) => do return arith N op (← evalTerm N eval l) (← evalTerm N eval r)
    | none => evalTerm N eval expr

end

/-- The value of a cell without a formula. -/
def constant (raw : Str) : CellValue F :=
  if raw = [] then .empty else (N.parse raw).elim (.text raw) .number

/-- There is no value if the recursion is deeper than the fuel. -/
def eval (sheet : Spreadsheet) : ℕ → Cell → Option (CellValue F)
  | 0, _ => none
  | fuel + 1, cell =>
    match formula (getRaw sheet cell) with
    | some expr => evalFormula N (eval sheet fuel) expr
    | none => some (constant N (getRaw sheet cell))

/-! ## References -/

def termRefs (s : Str) : List Cell :=
  if (N.parse (trim s)).isSome then [] else (parseCellAddr s).toList

def formulaRefs (expr : Str) : List Cell :=
  match rangeCall expr with
  | some (_, range) => parseRange range
  | none =>
    match splitArith expr with
    | some (_, l, r) => termRefs N l ++ termRefs N r
    | none => termRefs N expr

/-- The cells that the formula in a cell refers to. -/
def refs (sheet : Spreadsheet) (cell : Cell) : List Cell :=
  match formula (getRaw sheet cell) with
  | some expr => formulaRefs N expr
  | none => []

variable {N} {sheet : Spreadsheet} {cell c : Cell} {fuel : ℕ} {rec : Cell → Option (CellValue F)}

theorem isSome_evalTerm {s : Str} :
    (evalTerm N rec s).isSome ↔ ∀ c ∈ termRefs N s, (rec c).isSome := by
  unfold evalTerm termRefs
  cases N.parse (trim s) with
  | some n => simp
  | none => cases parseCellAddr s <;> simp

theorem isSome_evalFormula {expr : Str} :
    (evalFormula N rec expr).isSome ↔ ∀ c ∈ formulaRefs N expr, (rec c).isSome := by
  unfold evalFormula formulaRefs
  cases rangeCall expr with
  | some call =>
    have values : ∀ l : List Cell, (l.mapM rec).isSome ↔ ∀ c ∈ l, (rec c).isSome := by
      intro l
      induction l with
      | nil => simp
      | cons c l ih =>
        rw [mapM_cons, forall_mem_cons, ← ih]
        cases rec c <;> cases l.mapM rec <;> simp
    obtain ⟨f, range⟩ := call
    dsimp only
    rw [← values]
    cases (parseRange range).mapM rec <;> simp
  | none =>
    cases splitArith expr with
    | none => exact isSome_evalTerm
    | some parts =>
      obtain ⟨op, l, r⟩ := parts
      dsimp only
      rw [forall_mem_append, ← isSome_evalTerm, ← isSome_evalTerm]
      cases evalTerm N rec l <;> cases evalTerm N rec r <;> simp

theorem isSome_eval_succ : (eval N sheet (fuel + 1) cell).isSome ↔
    ∀ c ∈ refs N sheet cell, (eval N sheet fuel c).isSome := by
  rw [eval, refs]
  cases formula (getRaw sheet cell) with
  | none => simp
  | some expr => exact isSome_evalFormula

theorem isSome_eval_mono {more : ℕ} (le : fuel ≤ more) (done : (eval N sheet fuel cell).isSome) :
    (eval N sheet more cell).isSome := by
  induction fuel generalizing cell more with
  | zero => cases done
  | succ fuel ih =>
    obtain ⟨more, rfl⟩ := Nat.exists_eq_add_of_lt le
    rw [isSome_eval_succ] at *
    exact fun c mem => ih (by omega) (done c mem)

/-- The evaluation of a cell ends. -/
def Terminates (N : Numbers F) (sheet : Spreadsheet) (cell : Cell) : Prop :=
  ∃ fuel, (eval N sheet fuel cell).isSome

/-- The formula of the first cell refers to the second. -/
def Refers (N : Numbers F) (sheet : Spreadsheet) (cell c : Cell) : Prop := c ∈ refs N sheet cell

theorem terminates_iff_acc : Terminates N sheet cell ↔ Acc (flip (Refers N sheet)) cell := by
  constructor
  · rintro ⟨fuel, done⟩
    induction fuel generalizing cell with
    | zero => cases done
    | succ fuel ih => exact .intro _ fun c mem => ih (isSome_eval_succ.mp done c mem)
  intro acc
  induction acc with
  | intro cell _ ih =>
    -- fuel that is enough for all references
    have common : ∀ l ⊆ refs N sheet cell, ∃ fuel, ∀ c ∈ l, (eval N sheet fuel c).isSome := by
      intro l sub
      induction l with
      | nil => exact ⟨0, by simp⟩
      | cons c l ihl =>
        obtain ⟨here, later⟩ := cons_subset.mp sub
        obtain ⟨m, first⟩ := ih c here
        obtain ⟨n, others⟩ := ihl later
        refine ⟨max m n, forall_mem_cons.mpr ⟨isSome_eval_mono (le_max_left _ _) first, ?_⟩⟩
        exact fun c mem => isSome_eval_mono (le_max_right _ _) (others c mem)
    obtain ⟨fuel, done⟩ := common _ (Subset.refl _)
    exact ⟨fuel + 1, isSome_eval_succ.mpr done⟩

theorem Refers.inside (refers : Refers N sheet cell c) : cell.1 < 10 ∧ cell.2 < 20 := by
  by_contra outside
  simp [Refers, refs, getRaw, outside, formula] at refers

end

/-- The evaluation of a cell ends exactly if no cell that it leads to leads back to itself. -/
theorem terminates_iff {F : Type} (N : Numbers F) (sheet : Spreadsheet) (cell : Cell) :
    Terminates N sheet cell ↔ ¬∃ c, ReflTransGen (Refers N sheet) cell c ∧
      TransGen (Refers N sheet) c c := by
  rw [terminates_iff_acc]
  constructor
  · intro acc
    induction acc with
    | intro cell _ ih =>
      rintro ⟨c, path, cycle⟩
      obtain ⟨d, first, rest⟩ := TransGen.head'_iff.mp (TransGen.trans_right path cycle)
      exact ih d first ⟨c, rest, cycle⟩
  · intro free
    by_contra endless
    obtain ⟨f, rfl, step⟩ := not_acc_iff_exists_descending_chain.mp endless
    have twice {m n : ℕ} (lt : m < n) (same : f m = f n) : False := by
      have path := Nat.rel_of_forall_rel_succ_of_le (ReflTransGen (Refers N sheet))
        (fun n => .single (step n)) (Nat.zero_le m)
      have cycle := Nat.rel_of_forall_rel_succ_of_lt (TransGen (Refers N sheet))
        (fun n => .single (step n)) lt
      rw [← same] at cycle
      exact free ⟨f m, path, cycle⟩
    -- all cells of the chain are in the sheet, so one of them comes twice
    have inside (n : ℕ) := Refers.inside (step n)
    obtain ⟨i, j, ne, same⟩ := Finite.exists_ne_map_eq_of_infinite fun n =>
      ((⟨_, (inside n).1⟩, ⟨_, (inside n).2⟩) : Fin 10 × Fin 20)
    have equal : f i = f j := by
      rw [Prod.mk.injEq, Fin.mk.injEq, Fin.mk.injEq] at same
      exact Prod.ext same.1 same.2
    rcases lt_or_gt_of_ne ne with lt | lt
    · exact twice lt equal
    · exact twice lt equal.symm

/-- Text is no number. -/
def noNumbers : Numbers Unit :=
  let op := fun (_ _ : Unit) => ()
  ⟨fun _ => none, fun _ => (), op, op, op, op, op, op, (), (), fun _ => false⟩

/-- A cell that refers to itself. -/
theorem not_terminates_self : ¬Terminates noNumbers (fun _ _ => "=A1".toList) (0, 0) := by
  rintro ⟨fuel, done⟩
  induction fuel with
  | zero => cases done
  | succ fuel ih => exact ih (isSome_eval_succ.mp done (0, 0) (by decide))

end SmartOs.Apps
