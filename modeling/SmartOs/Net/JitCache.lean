/-
# The cache of compiled code

The cache knows a function by a 64-bit key only. What it has under a key is the code of the op list
of one tick, the fiftieth with that key, and that is what a lookup returns for every op list with
the key. The keys of different op lists collide already for lists of one op, since the tag of an op
and its operand are combined by an exclusive or.
-/

import SmartOs.Net.Jit

namespace SmartOs.Net.Jit

open List Function

/-- An op list that the compiler accepts. -/
def Compiles (ops : List JitOp) : Bool := (compile ops).toOption.isSome

/-- The ticks with a key that come when the counter of the key is at the threshold. The counter has
32 bits. -/
def hotTicks (ticked : List (List JitOp)) (key : FuncKey) : List (List JitOp) :=
  (((ticked.filter fun ops => fromOps ops = key).zipIdx 1).filter fun tick =>
    tick.2 % 2 ^ 32 = 50).map Prod.fst

/-- The op list that is compiled under a key: that of the first hot tick that the compiler accepts.
-/
def compiledTick (ticked : List (List JitOp)) (key : FuncKey) : Option (List JitOp) :=
  (hotTicks ticked key).find? Compiles

theorem exists_of_compiledTick {ticked : List (List JitOp)} {key : FuncKey} {first : List JitOp}
    (found : compiledTick ticked key = some first) : ∃ cf, (compile first).toOption = some cf := by
  have ok : Compiles first := find?_some found
  exact Option.isSome_iff_exists.mp ok

/-- The two op lists have the same code, if any. -/
def SameCode (ops ops' : List JitOp) : Prop :=
  (compile ops).toOption.map CompiledFunc.code = (compile ops').toOption.map CompiledFunc.code
  deriving Decidable

variable (key : FuncKey)

namespace JitCache

def ticks (ticked : List (List JitOp)) : JitCache :=
  ticked.foldl (fun cache ops => (cache.tick ops).2) new

variable (ticked : List (List JitOp))

variable (ops : List JitOp)

theorem ticks_append_singleton : ticks (ticked ++ [ops]) = ((ticks ticked).tick ops).2 := by
  rw [ticks, foldl_append]
  rfl

theorem filter_append_singleton : (ticked ++ [ops]).filter (fun ops => fromOps ops = key) =
    ticked.filter (fun ops => fromOps ops = key) ++ if fromOps ops = key then [ops] else [] := by
  rw [filter_append, filter_singleton]
  simp

theorem hotCounts_ticks : (ticks ticked).hotCounts key = UInt32.ofNat (ticked.filter fun ops =>
    fromOps ops = key).length := by
  induction ticked using reverseRecOn with
  | nil => rfl
  | append_singleton ticked ops ih =>
    have counted : ((ticks ticked).tick ops).2.hotCounts =
        update (ticks ticked).hotCounts (fromOps ops)
          ((ticks ticked).hotCounts (fromOps ops) + 1) := by
      unfold tick
      dsimp only
      split
      · split <;> rfl
      · rfl
    rw [ticks_append_singleton, counted, filter_append_singleton]
    by_cases this : key = fromOps ops
    · subst this
      rw [update_self, ih, if_pos rfl, length_append, UInt32.ofNat_add]
      rfl
    · rw [update_of_ne this, ih, if_neg (Ne.symm this), append_nil]

theorem ofNat_add_one_eq_hotThreshold_iff (n : ℕ) :
    UInt32.ofNat n + 1 = hotThreshold ↔ (1 + n) % 2 ^ 32 = 50 := by
  have sum : (UInt32.ofNat n + 1).toNat = (1 + n) % 2 ^ 32 := by
    rw [UInt32.toNat_add, UInt32.toNat_ofNat', UInt32.toNat_one, Nat.mod_add_mod, add_comm]
  rw [← UInt32.toNat_inj, sum]
  rfl

theorem hotTicks_append_singleton : hotTicks (ticked ++ [ops]) key = hotTicks ticked key ++ (if
    fromOps ops = key ∧ (ticks ticked).hotCounts key + 1 = hotThreshold then [ops] else []) := by
  simp only [hotTicks, filter_append_singleton, hotCounts_ticks, ofNat_add_one_eq_hotThreshold_iff]
  by_cases this : fromOps ops = key
  · rw [if_pos this, zipIdx_append, filter_append, map_append]
    simp only [zipIdx_singleton, this, true_and]
    by_cases hot : (1 + (ticked.filter fun ops => fromOps ops = key).length) % 2 ^ 32 = 50
    · rw [filter_cons_of_pos (by simpa using hot), if_pos hot]
      rfl
    · rw [filter_cons_of_neg (by simpa using hot), if_neg hot]
      rfl
  · simp [this]

/-- The entries after a tick: a new one if the function has become hot, there is none yet and the
compiler accepts it. -/
theorem compiled_tick (cache : JitCache) (ops : List JitOp) (key : FuncKey) :
    (cache.tick ops).2.compiled key =
      if fromOps ops = key ∧ cache.hotCounts key + 1 = hotThreshold then
        (cache.compiled key).or (compile ops).toOption else cache.compiled key := by
  unfold tick
  dsimp only
  by_cases this : fromOps ops = key
  · subst this
    cases before : cache.compiled (fromOps ops) with
    | some cf => simp [before]
    | none =>
      by_cases hot : cache.hotCounts (fromOps ops) + 1 = hotThreshold
      · rw [if_pos ⟨hot, rfl⟩, if_pos ⟨rfl, hot⟩]
        cases compiled : compile ops with
        | error message => exact before
        | ok cf => exact update_self ..
      · rw [if_neg fun both => hot both.1, if_neg fun both => hot both.2]
        exact before
  · have other : ¬ (fromOps ops = key ∧ cache.hotCounts key + 1 = hotThreshold) :=
      fun both => this both.1
    split
    · split
      · exact update_of_ne (Ne.symm this) ..
      · rfl
    · rfl

theorem compiled_ticks : (ticks ticked).compiled key = (compiledTick ticked key).bind fun ops =>
    (compile ops).toOption := by
  induction ticked using reverseRecOn with
  | nil => rfl
  | append_singleton ticked ops ih =>
    rw [ticks_append_singleton, compiled_tick, compiledTick, hotTicks_append_singleton, ih]
    split
    · -- the last tick counts if no tick before it has been compiled
      cases found : compiledTick ticked key with
      | none =>
        rw [compiledTick] at found
        cases compiled : compile ops <;> simp [found, Compiles, compiled, Except.toOption]
      | some first =>
        obtain ⟨cf, compiled⟩ := exists_of_compiledTick found
        rw [compiledTick] at found
        simp [found, compiled]
    · simp [compiledTick]

end JitCache

/-- After any ticks, what a lookup of `ops` returns is the code of `ops`, exactly if the op list
compiled under the key of `ops` has the code of `ops`. -/
theorem lookup_code_iff (ticked : List (List JitOp)) (ops : List JitOp) :
    (∀ cf, (JitCache.ticks ticked).lookup ops = some cf →
      ∃ own, compile ops = .ok own ∧ cf.code = own.code) ↔
      ∀ first, compiledTick ticked (fromOps ops) = some first → SameCode first ops := by
  rw [JitCache.lookup, JitCache.compiled_ticks]
  constructor
  · intro right first found
    obtain ⟨cf, compiled⟩ := exists_of_compiledTick found
    obtain ⟨own, compiled', same⟩ := right cf (by rw [found, Option.bind_some, compiled])
    rw [SameCode, compiled, compiled']
    exact congrArg some same
  · intro same cf found
    obtain ⟨first, tick, compiled⟩ := Option.bind_eq_some_iff.mp found
    have equal := same first tick
    rw [SameCode, compiled] at equal
    cases own : compile ops with
    | error message =>
      rw [own] at equal
      cases equal
    | ok own' =>
      rw [own] at equal
      exact ⟨own', rfl, Option.some.inj equal⟩

/-- Fifty ticks on a function that returns two make a lookup of another one succeed with its code.
-/
theorem not_lookup_code : ¬ ∀ (ticked : List (List JitOp)) (ops : List JitOp) (cf : CompiledFunc),
      (JitCache.ticks ticked).lookup ops = some cf →
        ∃ own, compile ops = .ok own ∧ cf.code = own.code := by
  intro right
  have found : compiledTick (replicate 50 [.pushInt 2, .return]) (fromOps [.pop, .return]) =
      some [.pushInt 2, .return] := by decide +kernel
  have entry : (JitCache.ticks (replicate 50 [.pushInt 2, .return])).lookup [.pop, .return] =
      (compile [.pushInt 2, .return]).toOption := by
    rw [JitCache.lookup, JitCache.compiled_ticks, found, Option.bind_some]
  obtain ⟨cf, compiled⟩ := exists_of_compiledTick found
  obtain ⟨own, second, same⟩ := right _ [.pop, .return] cf (entry.trans compiled)
  have codes : SameCode [.pushInt 2, .return] [.pop, .return] := by
    rw [SameCode, compiled, second]
    exact congrArg some same
  exact absurd codes (by decide)

end SmartOs.Net.Jit
