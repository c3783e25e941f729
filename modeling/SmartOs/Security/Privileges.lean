/-
# The privileges of processes

What a process may do is spread over three tables with an entry per process: the capability
tokens of the system itself, the capability sets of the Linux ABI and the filters for system
calls. A process without an entry is not restricted by the table.

The rights of a process are the sets that the checks of the three tables accept. Denials are
also written to the audit log, which nothing here reads.
-/

import Mathlib.Data.Set.Basic

namespace SmartOs.Security

abbrev Pid := UInt64

/-! ## Capability tokens -/

inductive SmartCap where
  | vfsReadProtected | vfsWrite | vfsMutate | vfsRawDisk | vfsMount
  | netBindPrivileged | netRaw | netConnect | netUdp | netDns | netAdmin
  | sysExec | sysFork | sysKill | sysNice | sysModules | sysAuditRead | sysBoot | sysMmap
  | ipcPort | ipcSend
  | debugTrace | debugPerf
  deriving DecidableEq

namespace SmartCap

def number : SmartCap → UInt64
  | vfsReadProtected => 0
  | vfsWrite => 1
  | vfsMutate => 2
  | vfsRawDisk => 3
  | vfsMount => 4
  | netBindPrivileged => 8
  | netRaw => 9
  | netConnect => 10
  | netUdp => 11
  | netDns => 12
  | netAdmin => 13
  | sysExec => 16
  | sysFork => 17
  | sysKill => 18
  | sysNice => 19
  | sysModules => 20
  | sysAuditRead => 21
  | sysBoot => 22
  | sysMmap => 23
  | ipcPort => 24
  | ipcSend => 25
  | debugTrace => 32
  | debugPerf => 33

def bit (cap : SmartCap) : UInt64 := 1 <<< cap.number

end SmartCap

structure CapGrants where
  granted : UInt64
  inheritable : Bool
  label : String
  deriving DecidableEq

namespace CapGrants

def all : CapGrants := ⟨0xFFFFFFFFFFFFFFFF, true, "root"⟩

def userDefault : CapGrants :=
  ⟨SmartCap.netConnect.bit ||| SmartCap.netUdp.bit ||| SmartCap.netDns.bit ||| SmartCap.sysExec.bit
    ||| SmartCap.sysFork.bit ||| SmartCap.sysNice.bit ||| SmartCap.ipcSend.bit
    ||| SmartCap.sysMmap.bit, false, "user"⟩

def sandboxed : CapGrants := ⟨0, false, "sandbox"⟩

def has (g : CapGrants) (cap : SmartCap) : Bool := g.granted &&& cap.bit != 0

def grant (g : CapGrants) (cap : SmartCap) : CapGrants :=
  { g with granted := g.granted ||| cap.bit }

def revoke (g : CapGrants) (cap : SmartCap) : CapGrants :=
  { g with granted := g.granted &&& ~~~cap.bit }

end CapGrants

/-! ## Capability sets of the Linux ABI -/

def capBit (cap : UInt8) : UInt64 := 1 <<< cap.toUInt64

def capSetpcap : UInt8 := 8
def capNetBindService : UInt8 := 10
def capSysNice : UInt8 := 23

structure CapSet where
  effective : UInt64
  permitted : UInt64
  inheritable : UInt64
  deriving DecidableEq

namespace CapSet

def all : CapSet := ⟨0xFFFFFFFFFFFFFFFF, 0xFFFFFFFFFFFFFFFF, 0⟩

def nonRootDefault : CapSet :=
  let keep := capBit capNetBindService ||| capBit capSysNice
  ⟨keep, keep, 0⟩

def has (cs : CapSet) (cap : UInt8) : Bool := cs.effective &&& capBit cap != 0

end CapSet

/-! ## Filters for system calls -/

inductive SeccompMode where
  | disabled
  | strict
  | filter
  deriving DecidableEq

/-- The system calls below 256 that are allowed, in four words. -/
structure SyscallMask where
  words : Fin 4 → UInt64

namespace SyscallMask

def empty : SyscallMask := ⟨fun _ => 0⟩

def word (nr : UInt64) : Fin 4 := ⟨(nr / 64).toNat % 4, Nat.mod_lt _ (by decide)⟩

def allow (m : SyscallMask) (nr : UInt64) : SyscallMask :=
  if nr < 256 then
    ⟨Function.update m.words (word nr) (m.words (word nr) ||| 1 <<< (nr % 64))⟩
  else m

def isAllowed (m : SyscallMask) (nr : UInt64) : Bool :=
  if 256 ≤ nr then false
  else m.words (word nr) &&& 1 <<< (nr % 64) != 0

end SyscallMask

def strictMask : SyscallMask := [0, 1, 15, 60, 231].foldl SyscallMask.allow SyscallMask.empty

structure SeccompState where
  mode : SeccompMode
  mask : SyscallMask

/-- What the filter says about a system call. -/
def SeccompState.allows (state : SeccompState) (nr : UInt64) : Bool :=
  match state.mode with
  | .disabled => true
  | .strict | .filter => state.mask.isAllowed nr

/-! ## The tables -/

/-- `GRANTS`, `CAPSETS` and `STATES`. -/
structure Privileges where
  grants : Pid → Option CapGrants
  capsets : Pid → Option CapSet
  states : Pid → Option SeccompState

variable (t : Privileges)

namespace Privileges

variable (pid : Pid)

section Tokens

def assign (g : CapGrants) (t : Privileges) : Privileges :=
  { t with grants := Function.update t.grants pid (some g) }

def assignDefault : Privileges → Privileges := assign pid CapGrants.userDefault

def remove (t : Privileges) : Privileges :=
  { t with grants := Function.update t.grants pid none }

def capCheckRaw (cap : SmartCap) : Bool :=
  if pid = 0 then true else ((t.grants pid).map (·.has cap)).getD true

def capCheck (cap : SmartCap) : Except String Unit :=
  if pid = 0 then .ok ()
  else if ((t.grants pid).map (·.has cap)).getD true then .ok ()
  else .error "EPERM: capability denied"

def grant (caller target : Pid) (cap : SmartCap) (t : Privileges) : Except String Privileges :=
  if caller ≠ 0 ∧ ¬ t.capCheckRaw caller .sysModules then .error "EPERM"
  else .ok (t.assign target (((t.grants target).getD CapGrants.userDefault).grant cap))

def revoke (caller target : Pid) (cap : SmartCap) (t : Privileges) : Except String Privileges :=
  if caller ≠ 0 ∧ ¬ t.capCheckRaw caller .sysModules then .error "EPERM"
  else .ok { t with grants :=
      Function.update t.grants target ((t.grants target).map (·.revoke cap)) }

end Tokens

section Linux

def assignCaps (caps : CapSet) (t : Privileges) : Privileges :=
  { t with capsets := Function.update t.capsets pid (some caps) }

def removeCaps (t : Privileges) : Privileges :=
  { t with capsets := Function.update t.capsets pid none }

def hasCap (cap : UInt8) : Bool :=
  if pid = 0 then true else ((t.capsets pid).map (·.has cap)).getD true

def capget : CapSet :=
  if pid = 0 then CapSet.all else (t.capsets pid).getD CapSet.all

def capset (target caller : Pid) (caps : CapSet) (t : Privileges) : Except String Privileges :=
  if caller ≠ 0 ∧ ¬ t.hasCap caller capSetpcap then .error "EPERM: need CAP_SETPCAP"
  else .ok (t.assignCaps target caps)

def dropForNonRoot (uid : UInt32) (t : Privileges) : Privileges :=
  if uid ≠ 0 then t.assignCaps pid CapSet.nonRootDefault else t

end Linux

section Seccomp

def setStrict (t : Privileges) : Privileges :=
  { t with states := Function.update t.states pid (some ⟨.strict, strictMask⟩) }

def setFilter (mask : SyscallMask) (t : Privileges) : Privileges :=
  { t with states := Function.update t.states pid (some ⟨.filter, mask⟩) }

def disable (t : Privileges) : Privileges :=
  { t with states := Function.update t.states pid none }

def check (nr : UInt64) : Bool :=
  if pid = 0 then true
  else match t.states pid with
    | some state => state.allows nr
    | none => true

/-- `prctl(PR_SET_SECCOMP, mode)`, with the value it returns. -/
def handlePrctlSetSeccomp (mode : UInt64) (t : Privileges) : UInt64 × Privileges :=
  if mode = 0 then (0, t.disable pid)
  else if mode = 1 then (0, t.setStrict pid)
  else (0xFFFFFFFFFFFFFFFF, t)

end Seccomp

end Privileges

/-! ## Rights -/

/-- The positions of the ones of a word. -/
def bits (w : UInt64) : Set ℕ := { i | w.toBitVec.getLsbD i }

theorem bits_subset_iff {a b : UInt64} : bits a ⊆ bits b ↔ a &&& b = a := by
  rw [← UInt64.toBitVec_inj, UInt64.toBitVec_and]
  constructor
  · intro subset
    refine BitVec.eq_of_getLsbD_eq fun i _ => ?_
    rw [BitVec.getLsbD_and, Bool.and_eq_left_iff_imp]
    exact fun one => subset one
  · intro same i one
    have both : (a.toBitVec &&& b.toBitVec).getLsbD i := by rwa [same]
    rw [BitVec.getLsbD_and, Bool.and_eq_true] at both
    exact both.2

@[ext] structure Rights where
  tokens : Set SmartCap
  effective : Set ℕ
  permitted : Set ℕ
  syscalls : Set UInt64

/-- Rights are compared as sets. -/
instance : PartialOrder Rights where
  le a b := a.tokens ⊆ b.tokens ∧ a.effective ⊆ b.effective ∧ a.permitted ⊆ b.permitted ∧
    a.syscalls ⊆ b.syscalls
  le_refl _ := ⟨subset_rfl, subset_rfl, subset_rfl, subset_rfl⟩
  le_trans _ _ _ h k := ⟨h.1.trans k.1, h.2.1.trans k.2.1, h.2.2.1.trans k.2.2.1,
    h.2.2.2.trans k.2.2.2⟩
  le_antisymm _ _ h k := Rights.ext (h.1.antisymm k.1) (h.2.1.antisymm k.2.1)
    (h.2.2.1.antisymm k.2.2.1) (h.2.2.2.antisymm k.2.2.2)

def Privileges.rights (pid : Pid) : Rights where
  tokens := { cap | t.capCheck pid cap = .ok () }
  effective := bits (t.capget pid).effective
  permitted := bits (t.capget pid).permitted
  syscalls := { nr | t.check pid nr }

end SmartOs.Security
