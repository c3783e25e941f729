/-
# Fork and privileges

A forked process is made by the constructor for all user processes. That one enters the new
process in the table of the Linux capability sets, according to the user of the session, and in
neither of the other two. So the child of a sandboxed process is not sandboxed.

The first part of the file is the calls that change privileges. The second part compares the
rights of a child with those of its parent, in any state, and in states that are reached by calls
that name only processes that exist.
-/

import SmartOs.CS.Run
import SmartOs.Process.Scheduler
import SmartOs.Security.Privileges

namespace SmartOs.Security

open CS Process Function Option Privileges

/-! ## Processes -/

structure Process where
  pid : Pid
  name : String
  pageTable : Option UInt64
  threads : List UInt64
  state : ProcessState
  parentPid : Pid
  exitCode : Option Int32
  children : List Pid
  isLinux : Bool
  uid : UInt32
  gid : UInt32
  deriving DecidableEq

/-- The process table, `NEXT_PID`, the user of the session and the privileges. -/
structure System where
  processTable : Pid → Option Process
  nextPid : Pid
  session : Option UInt32
  privileges : Privileges

namespace System

def sessionUid (s : System) : UInt32 := s.session.getD 1000

end System

def Process.newKernel (name : String) : Process :=
  ⟨0, name, none, [], .running, 0, none, [], false, 0, 0⟩

/-- The capability set of a new process. -/
def CapSet.initial (uid : UInt32) : CapSet := if uid = 0 then CapSet.all else CapSet.nonRootDefault

def Process.user (pid : Pid) (name : String) (pml4 : UInt64) (isLinux : Bool) (uid : UInt32) :
    Process :=
  ⟨pid, name, some pml4, [], .running, 0, none, [], isLinux, uid, uid⟩

/-- The constructor of user processes, which also hands out the process id. -/
def Process.newUser (name : String) (pml4 : UInt64) (isLinux : Bool) (s : System) :
    Process × System :=
  (user s.nextPid name pml4 isLinux s.sessionUid, { s with
      nextPid := s.nextPid + 1
      privileges := s.privileges.assignCaps s.nextPid (CapSet.initial s.sessionUid) })

/-- Enter the child into the process table and the list of its parent. -/
def System.adopt (pid : Pid) (child : Process) (s : System) : System :=
  let table := update s.processTable child.pid (some child)
  { s with processTable := update table pid ((table pid).map fun parent =>
      { parent with children := parent.children ++ [child.pid] }) }

/-- Fork for the process `current`; `cowFork` clones its address space and `childTid` is the
thread of the child. There is no result where the code panics. -/
def handleFork (current : Option Pid) (cowFork : UInt64 → Option UInt64) (childTid : UInt64)
    (s : System) : Option (UInt64 × System) :=
  let pid := current.getD 0
  if pid = 0 then some (0xFFFFFFFFFFFFFFFF, s)
  else
    match s.processTable pid with
    | none => some (0xFFFFFFFFFFFFFFFF, s)
    | some proc => do
      let pml4 ← proc.pageTable
      let childPml4 ← cowFork pml4
      let made := Process.newUser "forked" childPml4 proc.isLinux s
      let child := { made.1 with parentPid := pid, threads := made.1.threads ++ [childTid] }
      some (child.pid, made.2.adopt pid child)

/-! ## Calls -/

/-- Everything that changes privileges, and the start of processes. -/
inductive Call where
  | assign (pid : Pid) (g : CapGrants)
  | assignDefault (pid : Pid)
  | remove (pid : Pid)
  | grant (caller target : Pid) (cap : SmartCap)
  | revoke (caller target : Pid) (cap : SmartCap)
  | assignCaps (pid : Pid) (caps : CapSet)
  | removeCaps (pid : Pid)
  | capset (target caller : Pid) (caps : CapSet)
  | dropForNonRoot (pid : Pid) (uid : UInt32)
  | setStrict (pid : Pid)
  | setFilter (pid : Pid) (mask : SyscallMask)
  | disable (pid : Pid)
  | prctl (pid : Pid) (mode : UInt64)
  | session (uid : Option UInt32)
  | spawn (name : String) (pml4 : UInt64) (isLinux : Bool) (tid : UInt64)
  | fork (current : Option Pid) (childPml4 : UInt64) (childTid : UInt64)

/-- A call that changes the tables of privileges only; one that fails changes nothing. -/
def Call.onPrivileges (t : Privileges) : Call → Privileges
  | .assign pid g => t.assign pid g
  | .assignDefault pid => t.assignDefault pid
  | .remove pid => t.remove pid
  | .grant caller target cap => (t.grant caller target cap).toOption.getD t
  | .revoke caller target cap => (t.revoke caller target cap).toOption.getD t
  | .assignCaps pid caps => t.assignCaps pid caps
  | .removeCaps pid => t.removeCaps pid
  | .capset target caller caps => (t.capset target caller caps).toOption.getD t
  | .dropForNonRoot pid uid => t.dropForNonRoot pid uid
  | .setStrict pid => t.setStrict pid
  | .setFilter pid mask => t.setFilter pid mask
  | .disable pid => t.disable pid
  | .prctl pid mode => (t.handlePrctlSetSeccomp pid mode).2
  | .session _ | .spawn .. | .fork .. => t

/-- Start a process, as `spawn_user_process` does. -/
def System.spawn (name : String) (pml4 : UInt64) (isLinux : Bool) (tid : UInt64) (s : System) :
    System :=
  let made := Process.newUser name pml4 isLinux s
  let proc := { made.1 with threads := made.1.threads ++ [tid] }
  { made.2 with processTable := Function.update s.processTable proc.pid (some proc) }

/-- The state after a call; none where the code panics. -/
def Call.perform (s : System) : Call → Option System
  | .session uid => some { s with session := uid }
  | .spawn name pml4 isLinux tid => some (s.spawn name pml4 isLinux tid)
  | .fork current childPml4 childTid =>
    (handleFork current (fun _ => some childPml4) childTid s).map Prod.snd
  | call => some { s with privileges := call.onPrivileges s.privileges }

/-- After the initialisation of processes and capabilities. -/
def boot : System where
  processTable := Function.update (fun _ => none) 0 (some (Process.newKernel "kernel"))
  nextPid := 1
  session := none
  privileges :=
    ⟨update (fun _ => none) 1 (some CapGrants.all), fun _ => none, fun _ => none⟩

/-! ## What fork does -/

/-- The entry of the child, also if the ids have wrapped around and it takes that of its parent. -/
theorem adopt_child (pid : Pid) (child : Process) (s : System) :
    ∃ children, (s.adopt pid child).processTable child.pid = some { child with children } := by
  by_cases same : pid = child.pid
  · refine ⟨child.children ++ [child.pid], ?_⟩
    rw [System.adopt, same]
    simp
  · refine ⟨child.children, ?_⟩
    rw [System.adopt]
    simp [Ne.symm same]

variable {s s' : System} {p c : Pid} {parent : Process} {cap : SmartCap} {call : Call}
  {cowFork : UInt64 → Option UInt64} {childTid : UInt64}

/-- The child `c`, in `s'`, has no right that its parent `p` did not have in `s`. -/
structure Confined (s : System) (p : Pid) (s' : System) (c : Pid) : Prop where
  rights : s'.privileges.rights c ≤ s.privileges.rights p
  owner : ∀ parent child, s.processTable p = some parent → s'.processTable c = some child →
    child.uid = parent.uid ∧ child.gid = parent.gid

/-- The capability set for the process id that is handed out next. -/
def System.nextCaps (s : System) : CapSet :=
  if s.nextPid = 0 then CapSet.all else CapSet.initial s.sessionUid

/-- When fork gives the child nothing new: what the parent may not do is already forbidden for the
process id that is handed out next, the parent has the capability set of new processes, and the
session belongs to its owner. -/
structure ForkSafe (s : System) (p : Pid) (parent : Process) : Prop where
  tokens : ∀ cap, s.privileges.capCheckRaw p cap = false →
    s.nextPid ≠ 0 ∧ ∃ g, s.privileges.grants s.nextPid = some g ∧ g.has cap = false
  effective : s.nextCaps.effective &&& (s.privileges.capget p).effective = s.nextCaps.effective
  permitted : s.nextCaps.permitted &&& (s.privileges.capget p).permitted = s.nextCaps.permitted
  owner : parent.uid = s.sessionUid ∧ parent.gid = s.sessionUid
  syscalls : ∀ nr, s.privileges.check p nr = false →
    s.nextPid ≠ 0 ∧ ∃ state, s.privileges.states s.nextPid = some state ∧ state.allows nr = false

variable {u : Privileges}

namespace Privileges

variable {t : Privileges} {pid : Pid}

theorem capCheck_eq_ok_iff : t.capCheck pid cap = .ok () ↔ t.capCheckRaw pid cap := by
  rw [capCheck, capCheckRaw]
  split_ifs with kernel granted
  · exact iff_of_true rfl rfl
  · exact iff_of_true rfl granted
  · exact iff_of_false nofun granted

theorem capCheckRaw_eq_false_iff : t.capCheckRaw pid cap = false ↔
    pid ≠ 0 ∧ ∃ g, t.grants pid = some g ∧ g.has cap = false := by
  rw [capCheckRaw]
  cases t.grants pid <;> by_cases kernel : pid = 0 <;> simp

theorem check_eq_false_iff {nr : UInt64} : t.check pid nr = false ↔
    pid ≠ 0 ∧ ∃ state, t.states pid = some state ∧ state.allows nr = false := by
  rw [check]
  cases t.states pid <;> by_cases kernel : pid = 0 <;> simp

theorem capget_assignCaps (caps : CapSet) :
    (t.assignCaps pid caps).capget pid = if pid = 0 then CapSet.all else caps := by
  simp [capget, assignCaps]

theorem tokens_subset_iff :
    (t.rights c).tokens ⊆ (u.rights p).tokens ↔ ∀ cap, u.capCheckRaw p cap = false →
      c ≠ 0 ∧ ∃ g, t.grants c = some g ∧ g.has cap = false := by
  refine forall_congr' fun cap => ?_
  rw [← capCheckRaw_eq_false_iff]
  change (t.capCheck c cap = .ok () → u.capCheck p cap = .ok ()) ↔ _
  rw [capCheck_eq_ok_iff, capCheck_eq_ok_iff, ← not_imp_not]
  simp

theorem syscalls_subset_iff :
    (t.rights c).syscalls ⊆ (u.rights p).syscalls ↔ ∀ nr, u.check p nr = false →
      c ≠ 0 ∧ ∃ state, t.states c = some state ∧ state.allows nr = false := by
  refine forall_congr' fun nr => ?_
  rw [← check_eq_false_iff]
  change (t.check c nr → u.check p nr) ↔ _
  rw [← not_imp_not]
  simp

end Privileges

section

variable (user : p ≠ 0) (found : s.processTable p = some parent)
  (forked : handleFork (some p) cowFork childTid s = some (c, s'))

include user found forked

/-- A fork that makes a child. The new entry is in the table of the Linux capability sets only. -/
theorem handleFork_created : c = s.nextPid ∧ s'.privileges.capget c = s.nextCaps ∧
      s'.privileges.grants = s.privileges.grants ∧ s'.privileges.states = s.privileges.states ∧
      ∃ child, s'.processTable c = some child ∧ child.uid = s.sessionUid ∧
        child.gid = s.sessionUid := by
  simp only [handleFork, getD_some, if_neg user, found, bind_eq_bind, bind_eq_some_iff] at forked
  obtain ⟨pml4, -, childPml4, -, rfl, rfl⟩ := forked
  obtain ⟨children, entry⟩ := adopt_child p
    { Process.user s.nextPid "forked" childPml4 parent.isLinux s.sessionUid with
      parentPid := p, threads := [childTid] }
    (Process.newUser "forked" childPml4 parent.isLinux s).2
  exact ⟨rfl, capget_assignCaps _, rfl, rfl, _, entry, rfl, rfl⟩

theorem forkSafe_of_confined (confined : Confined s p s' c) : ForkSafe s p parent := by
  obtain ⟨rfl, caps, grants, states, child, entry, uid, gid⟩ :=
    handleFork_created user found forked
  obtain ⟨⟨tokens, effective, permitted, syscalls⟩, owner⟩ := confined
  obtain ⟨sameUid, sameGid⟩ := owner parent child found entry
  refine ⟨?_, ?_, ?_, ⟨sameUid.symm.trans uid, sameGid.symm.trans gid⟩, ?_⟩
  · rw [← grants]
    exact tokens_subset_iff.mp tokens
  · rw [← caps]
    exact bits_subset_iff.mp effective
  · rw [← caps]
    exact bits_subset_iff.mp permitted
  · rw [← states]
    exact syscalls_subset_iff.mp syscalls

theorem ForkSafe.confined (safe : ForkSafe s p parent) : Confined s p s' c := by
  obtain ⟨rfl, caps, grants, states, child, entry, uid, gid⟩ :=
    handleFork_created user found forked
  obtain ⟨tokens, effective, permitted, owner, syscalls⟩ := safe
  rw [← grants] at tokens
  rw [← states] at syscalls
  rw [← caps] at effective permitted
  refine ⟨⟨tokens_subset_iff.mpr tokens, bits_subset_iff.mpr effective,
    bits_subset_iff.mpr permitted, syscalls_subset_iff.mpr syscalls⟩, ?_⟩
  intro parent' child' found' entry'
  cases found.symm.trans found'
  cases entry.symm.trans entry'
  exact ⟨uid.trans owner.1.symm, gid.trans owner.2.symm⟩

end

/-- In every state, fork gives the child no right that the parent does not have exactly if what
the parent may not do is forbidden for the next process id. -/
theorem fork_confined_iff {s s' : System} {p c : Pid} {parent : Process} {childTid : UInt64}
    {cowFork : UInt64 → Option UInt64} (user : p ≠ 0) (found : s.processTable p = some parent)
    (forked : handleFork (some p) cowFork childTid s = some (c, s')) :
    Confined s p s' c ↔ ForkSafe s p parent :=
  ⟨forkSafe_of_confined user found forked, ForkSafe.confined user found forked⟩

/-! ## Runs -/

/-- The process whose entry a call changes. -/
def Call.target : Call → Option Pid
  | .assign pid _ | .assignDefault pid | .remove pid => some pid
  | .grant _ target _ | .revoke _ target _ => some target
  | .assignCaps pid _ | .removeCaps pid | .dropForNonRoot pid _ => some pid
  | .capset target _ _ => some target
  | .setStrict pid | .setFilter pid _ | .disable pid | .prctl pid _ => some pid
  | .session _ | .spawn .. | .fork .. => none

/-- The call is about a process that exists or has existed, and process ids have not run out. -/
def Call.Known (s : System) (call : Call) : Prop :=
  (∀ pid, call.target = some pid → pid < s.nextPid) ∧ s.nextPid < 0xFFFFFFFFFFFFFFFF

/-- Processes have ids that were handed out. Of the others the tables know only the first, which
has its tokens from the start. -/
structure Fresh (s : System) : Prop where
  handed : ∀ {pid proc}, s.processTable pid = some proc → pid < s.nextPid
  grants : ∀ {pid}, s.nextPid ≤ pid → pid ≠ 1 → s.privileges.grants pid = none
  states : ∀ {pid}, s.nextPid ≤ pid → s.privileges.states pid = none

theorem fresh_boot : Fresh boot where
  handed {pid proc} found := by
    by_cases kernel : pid = 0
    · rw [kernel]
      decide
    · simp [boot, kernel] at found
  grants {pid} _ other := by simp [boot, other]
  states _ := rfl

/-- Everything a call can do to the tables: one entry of the target changes, in one of them. -/
inductive Entered (t : Privileges) (call : Call) : Privileges → Prop
  | same : Entered t call t
  | grants {pid : Pid} (target : call.target = some pid) (g : Option CapGrants) :
      Entered t call { t with grants := update t.grants pid g }
  | capsets {pid : Pid} (target : call.target = some pid) (caps : Option CapSet) :
      Entered t call { t with capsets := update t.capsets pid caps }
  | states {pid : Pid} (target : call.target = some pid) (state : Option SeccompState) :
      Entered t call { t with states := update t.states pid state }

theorem onPrivileges_entered (t : Privileges) (call : Call) :
    Entered t call (call.onPrivileges t) := by
  cases call with
  | assign | assignDefault | remove => exact .grants rfl _
  | grant caller target cap =>
    rw [Call.onPrivileges, grant]
    split_ifs
    · exact .same
    · exact .grants rfl _
  | revoke caller target cap =>
    rw [Call.onPrivileges, revoke]
    split_ifs
    · exact .same
    · exact .grants rfl _
  | assignCaps | removeCaps => exact .capsets rfl _
  | capset target caller caps =>
    rw [Call.onPrivileges, capset]
    split_ifs
    · exact .same
    · exact .capsets rfl _
  | dropForNonRoot pid uid =>
    rw [Call.onPrivileges, dropForNonRoot]
    split_ifs
    · exact .capsets rfl _
    · exact .same
  | setStrict | setFilter | disable => exact .states rfl _
  | prctl pid mode =>
    rw [Call.onPrivileges, handlePrctlSetSeccomp]
    split_ifs
    · exact .states rfl _
    · exact .states rfl _
    · exact .same
  | session | spawn | fork => exact .same

theorem fresh_entered (fresh : Fresh s) (known : call.Known s)
    (entered : Entered s.privileges call u) : Fresh { s with privileges := u } := by
  have other {pid target : Pid} (named : call.target = some target) (later : s.nextPid ≤ pid) :
      pid ≠ target := by
    rintro rfl
    exact absurd (known.1 _ named) (UInt64.not_lt.mpr later)
  cases entered with
  | same => exact fresh
  | grants target g =>
    exact ⟨fresh.handed, fun later notFirst => (update_of_ne (other target later) _ _).trans
      (fresh.grants later notFirst), fresh.states⟩
  | capsets target caps => exact ⟨fresh.handed, fresh.grants, fresh.states⟩
  | states target state =>
    exact ⟨fresh.handed, fresh.grants, fun later =>
      (update_of_ne (other target later) _ _).trans (fresh.states later)⟩

theorem lt_succ_iff {a n : Pid} (left : n < 0xFFFFFFFFFFFFFFFF) : a < n + 1 ↔ a ≤ n := by
  have bound : n.toNat < 18446744073709551615 := left
  rw [UInt64.lt_iff_toNat_lt, UInt64.le_iff_toNat_le, UInt64.toNat_add,
    show (1 : UInt64).toNat = 1 from rfl]
  omega

section

variable (fresh : Fresh s) (left : s.nextPid < 0xFFFFFFFFFFFFFFFF)

include fresh left

theorem fresh_newUser (name : String) (pml4 : UInt64) (isLinux : Bool)
    {table : Pid → Option Process}
    (handed : ∀ {pid proc}, table pid = some proc → pid = s.nextPid ∨ pid < s.nextPid) :
    Fresh { (Process.newUser name pml4 isLinux s).2 with processTable := table } := by
  have later {pid : Pid} (after : s.nextPid + 1 ≤ pid) : s.nextPid ≤ pid := by
    by_contra before
    exact UInt64.not_lt.mpr after
      ((lt_succ_iff left).mpr (UInt64.le_of_lt (UInt64.not_le.mp before)))
  refine ⟨fun found => (lt_succ_iff left).mpr ?_, fun after => fresh.grants (later after),
    fun after => fresh.states (later after)⟩
  rcases handed found with rfl | before
  · exact UInt64.le_refl _
  · exact UInt64.le_of_lt before

theorem fresh_spawn (name : String) (pml4 : UInt64) (isLinux : Bool) (tid : UInt64) :
    Fresh (s.spawn name pml4 isLinux tid) := by
  refine fresh_newUser fresh left name pml4 isLinux fun {pid proc} found => ?_
  by_cases new : pid = s.nextPid
  · exact .inl new
  · exact .inr (fresh.handed ((update_of_ne new _ _).symm.trans found))

theorem fresh_fork {current : Option Pid} {childTid c : UInt64}
    (forked : handleFork current cowFork childTid s = some (c, s')) : Fresh s' := by
  rw [handleFork] at forked
  split_ifs at forked with kernel
  · cases forked
    exact fresh
  cases found : s.processTable (current.getD 0) with
  | none =>
    rw [found] at forked
    cases forked
    exact fresh
  | some parent =>
    simp only [found, bind_eq_bind, bind_eq_some_iff] at forked
    obtain ⟨pml4, -, childPml4, -, -, rfl⟩ := forked
    refine fresh_newUser fresh left "forked" childPml4 parent.isLinux fun {pid proc} entry => ?_
    by_cases new : pid = s.nextPid
    · exact .inl new
    refine .inr ?_
    by_cases own : pid = current.getD 0
    · rw [own]
      exact fresh.handed found
    · exact fresh.handed ((update_of_ne new _ _).symm.trans
        ((update_of_ne own _ _).symm.trans entry))

end

theorem fresh_perform (fresh : Fresh s) (known : call.Known s)
    (done : call.perform s = some s') : Fresh s' := by
  cases call with
  | session uid =>
    cases done
    exact ⟨fresh.handed, fresh.grants, fresh.states⟩
  | spawn name pml4 isLinux tid =>
    cases done
    exact fresh_spawn fresh known.2 name pml4 isLinux tid
  | fork current childPml4 childTid =>
    obtain ⟨⟨c, t⟩, forked, rfl⟩ := map_eq_some_iff.mp done
    exact fresh_fork fresh known.2 forked
  | _ =>
    cases done
    exact fresh_entered fresh known (onPrivileges_entered _ _)

/-- A process that none of the tables restricts, of the user of the session. -/
structure Unrestricted (s : System) (p : Pid) (parent : Process) : Prop where
  tokens : ∀ cap, s.privileges.capCheckRaw p cap
  effective : (CapSet.initial s.sessionUid).effective &&& (s.privileges.capget p).effective =
    (CapSet.initial s.sessionUid).effective
  permitted : (CapSet.initial s.sessionUid).permitted &&& (s.privileges.capget p).permitted =
    (CapSet.initial s.sessionUid).permitted
  owner : parent.uid = s.sessionUid ∧ parent.gid = s.sessionUid
  syscalls : ∀ nr, s.privileges.check p nr

/-- As long as calls name only processes that exist, fork confines the children of processes that
are not restricted at all, and no others. -/
theorem confined_iff_unrestricted {calls : List Call} {cowFork : UInt64 → Option UInt64}
    {childTid : UInt64} {s' : System} {c : Pid}
    (run : Run (Guarded Call.Known fun s call s' => call.perform s = some s') boot calls s)
    (user : p ≠ 0) (found : s.processTable p = some parent)
    (forked : handleFork (some p) cowFork childTid s = some (c, s')) :
    Confined s p s' c ↔ Unrestricted s p parent := by
  have fresh : Fresh s :=
    run.invariant (fun step fresh => fresh_perform fresh step.1 step.2) fresh_boot
  have later : 1 < s.nextPid.toNat := by
    have handed : p.toNat < s.nextPid.toNat := fresh.handed found
    have pos : p.toNat ≠ 0 := fun zero => user (UInt64.toNat_inj.mp zero)
    omega
  have notZero : s.nextPid ≠ 0 := fun zero => by simp [zero] at later
  have notOne : s.nextPid ≠ 1 := fun one => by simp [one] at later
  -- nothing is forbidden to the child
  have grants : s.privileges.grants s.nextPid = none := fresh.grants (UInt64.le_refl _) notOne
  have states : s.privileges.states s.nextPid = none := fresh.states (UInt64.le_refl _)
  have caps : s.nextCaps = CapSet.initial s.sessionUid := if_neg notZero
  constructor
  · intro confined
    obtain ⟨tokens, effective, permitted, owner, syscalls⟩ :=
      forkSafe_of_confined user found forked confined
    rw [caps] at effective permitted
    exact ⟨by simpa [grants] using tokens, effective, permitted, owner,
      by simpa [states] using syscalls⟩
  · rintro ⟨tokens, effective, permitted, owner, syscalls⟩
    rw [← caps] at effective permitted
    exact ForkSafe.confined user found forked
      ⟨by simp [tokens], effective, permitted, owner, by simp [syscalls]⟩

theorem confined_iff_unrestricted_first : ∃ s s' c parent,
    Run (Guarded Call.Known fun s call s' => call.perform s = some s') boot
        [.spawn "init" 4096 false 1] s ∧
      handleFork (some 1) (fun _ => some 8192) 2 s = some (c, s') ∧
      (Confined s 1 s' c ↔ Unrestricted s 1 parent) := by
  have run : Run (Guarded Call.Known fun s call s' => call.perform s = some s') boot
      [.spawn "init" 4096 false 1] (boot.spawn "init" 4096 false 1) :=
    .cons ⟨⟨nofun, by decide⟩, rfl⟩ (.nil _)
  obtain ⟨c, s', forked⟩ : ∃ c s', handleFork (some 1) (fun _ => some 8192) 2
      (boot.spawn "init" 4096 false 1) = some (c, s') := ⟨_, _, rfl⟩
  exact ⟨_, s', c, _, run, forked, confined_iff_unrestricted run (by decide) rfl forked⟩

/-! ## A sandbox that is left -/

/-- The first process, and a sandbox for it. -/
def sandboxing : List Call :=
  [.spawn "app" 4096 false 1, .assign 1 CapGrants.sandboxed, .setStrict 1]

/-- The child of the sandboxed process may do what its parent may not. -/
theorem sandbox_left_by_fork : ∃ s s' c,
    Run (fun s call s' => Call.perform s call = some s') boot sandboxing s ∧
      handleFork (some 1) (fun _ => some 8192) 2 s = some (c, s') ∧ c = 2 ∧
      ¬ Confined s 1 s' c := by
  refine ⟨_, _, 2, .cons rfl (.cons rfl (.cons rfl (.nil _))), rfl, rfl, fun confined => ?_⟩
  have allowed := Set.mem_of_subset_of_mem (a := SmartCap.netConnect) confined.rights.1 rfl
  cases allowed

/-- The first process keeps the tokens it has from the start, and its child has no others. -/
theorem first_process_confined : ∃ s s' c parent,
    Run (fun s call s' => Call.perform s call = some s') boot [.spawn "init" 4096 false 1] s ∧
      s.processTable 1 = some parent ∧
      handleFork (some 1) (fun _ => some 8192) 2 s = some (c, s') ∧ ForkSafe s 1 parent ∧
      Confined s 1 s' c := by
  have safe : ForkSafe (boot.spawn "init" 4096 false 1) 1
      { Process.user 1 "init" 4096 false 1000 with threads := [1] } := by
    refine ⟨fun cap denied => ?_, by decide, by decide, by decide, fun nr denied => ?_⟩
    · cases cap <;> exact absurd denied (by decide)
    · cases denied
  obtain ⟨c, s', forked⟩ : ∃ c s', handleFork (some 1) (fun _ => some 8192) 2
      (boot.spawn "init" 4096 false 1) = some (c, s') := ⟨_, _, rfl⟩
  exact ⟨_, s', c, _, .cons rfl (.nil _), rfl, forked, safe,
    (fork_confined_iff (by decide) rfl forked).mpr safe⟩

end SmartOs.Security
