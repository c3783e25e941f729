/-
# The VFS roots of processes

A process with a root of its own is meant to see only what is below it. `resolve_path` works on
characters: it puts the root in front of a path unless the path starts with it, and leaves `..`
to the filesystem. So a path below the root leads out of it again.
-/

import Mathlib.Data.List.DropRight
import SmartOs.Security.Privileges
import SmartOs.Vfs.Listing

namespace SmartOs.Security

open List Vfs

/-- The roots that were set. -/
abbrev VfsRoots := Pid → Option FilePath

/-- Give a process a root. -/
def setVfsRoot (roots : VfsRoots) (pid : Pid) (root : FilePath) : VfsRoots :=
  Function.update roots pid (some root)

/-- The root of a process, `/` if none was set. -/
def vfsRoot (roots : VfsRoots) (pid : Pid) : FilePath := (roots pid).getD ['/']

/-- The path that a process means by a string. -/
def resolvePath (roots : VfsRoots) (pid : Pid) (path : FilePath) : FilePath :=
  let root := vfsRoot roots pid
  let rootTrim := (root.reverse.dropWhile (· = '/')).reverse
  if root = ['/'] ∨ ['/'] <+: path then
    if rootTrim = [] then path
    else if rootTrim <+: path then path
    else rootTrim ++ path
  else rootTrim ++ '/' :: path

/-! ## Paths below the root -/

/-- Follow one component of a path. -/
def follow (place : List FilePath) (name : FilePath) : List FilePath :=
  if name = [] ∨ name = ['.'] then place
  else if name = ['.', '.'] then place.dropLast
  else place ++ [name]

variable (root path : FilePath)

/-- The components of a path without dots. -/
def resolved : List FilePath := (path.splitOn '/').foldl follow []

/-- The path leads to the root or below it. -/
def InRoot : Prop := resolved root <+: resolved path
  deriving Decidable

/-! ## Where a path leads from a place -/

/-- Some steps up and then some names down. -/
structure Route where
  ups : ℕ
  downs : List FilePath

/-- One component more. A step up takes back a name, if there is one. -/
def Route.extend (route : Route) (name : FilePath) : Route :=
  if name = [] ∨ name = ['.'] then route
  else if name = ['.', '.'] then
    if route.downs = [] then { route with ups := route.ups + 1 }
    else { route with downs := route.downs.dropLast }
  else { route with downs := route.downs ++ [name] }

/-- The route that a path describes. -/
def routeOf : Route := (path.splitOn '/').foldl Route.extend ⟨0, []⟩

/-- Where a route leads from a place. -/
def Route.destination (route : Route) (place : List FilePath) : List FilePath :=
  place.rdrop route.ups ++ route.downs

/-- The path comes back to the root if it leaves it: the names it goes down begin with as many of
the last names of the root as it goes up. -/
def Returns : Prop :=
  (resolved root).rtake (routeOf path).ups <+: (routeOf path).downs
  deriving Decidable

theorem Route.destination_extend (route : Route) (place : List FilePath) (name : FilePath) :
    (route.extend name).destination place = follow (route.destination place) name := by
  unfold extend follow destination
  split_ifs with dot dots none
  · rfl
  · -- a step up from the place itself
    rw [none, append_nil, append_nil, rdrop, rdrop, dropLast_eq_take, take_take, length_take]
    dsimp only
    congr 1
    omega
  · rw [dropLast_append_of_ne_nil none]
  · rw [append_assoc]

/-- Following the components one by one leads where their route does. -/
theorem foldl_follow (names : List FilePath) (route : Route) (place : List FilePath) :
    names.foldl follow (route.destination place) =
      (names.foldl Route.extend route).destination place := by
  induction names generalizing route with
  | nil => rfl
  | cons name names ih => rw [foldl_cons, foldl_cons, ← Route.destination_extend, ih]

theorem splitOn_append (front rest : FilePath) :
    (front ++ '/' :: rest).splitOn '/' = front.splitOn '/' ++ rest.splitOn '/' :=
  splitOnP_append_cons _ _ rfl

/-- A slash in front makes no difference. -/
theorem routeOf_cons (rest : FilePath) : routeOf ('/' :: rest) = routeOf rest := by
  change foldl _ _ (([] ++ '/' :: rest).splitOn '/') = _
  rw [splitOn_append]
  rfl

/-- A path that is put behind the root is followed from the root on. -/
theorem inRoot_append_iff (rest : FilePath) : InRoot root (root ++ '/' :: rest) ↔ Returns root
    rest := by
  have whole : resolved (root ++ '/' :: rest) = (routeOf rest).destination (resolved root) := by
    rw [resolved, splitOn_append, foldl_append, routeOf, ← foldl_follow]
    simp [Route.destination, resolved]
  have split : resolved root =
      (resolved root).rdrop (routeOf rest).ups ++ (resolved root).rtake (routeOf rest).ups :=
    (take_append_drop _ _).symm
  rw [InRoot, whole, Route.destination, Returns]
  nth_rewrite 1 [split]
  exact prefix_append_right_inj _

/-! ## The condition -/

theorem trim_normalised {root : FilePath} (normalised : Normalised root)
    (other : root ≠ ['/']) : (root.reverse.dropWhile (· = '/')).reverse = root := by
  cases normalised with
  | root => exact absurd rfl other
  | child parent last eq =>
    obtain ⟨front, rfl, -⟩ := (ChildOf.mk parent last eq).exists_front
    exact trimmed_append last

theorem slash_of_normalised {root : FilePath} (normalised : Normalised root) : ['/'] <+: root := by
  induction normalised with
  | root => exact prefix_rfl
  | child _ _ eq ih =>
    rw [eq, childPath]
    split_ifs
    · exact ⟨_, rfl⟩
    · exact ih.trans (prefix_append _ _)

/-- A path that starts with the characters of the root stays as it is, and has to lead below the
root by itself. Any other path is put behind the root, and has to come back to it. -/
theorem resolvePath_inRoot_iff (roots : VfsRoots) (pid : Pid) {root : FilePath}
    (normalised : Normalised root) (path : FilePath) :
    InRoot root (resolvePath (setVfsRoot roots pid root) pid path) ↔
      if root <+: path then InRoot root path else Returns root path := by
  have this_root : vfsRoot (setVfsRoot roots pid root) pid = root := by
    simp [vfsRoot, setVfsRoot]
  rw [resolvePath, this_root]
  by_cases top : root = ['/']
  · -- everything is below the root of the filesystem
    have none : resolved root = [] := by rw [top]; decide
    refine iff_of_true (none.symm ▸ nil_prefix : resolved root <+: _) ?_
    split_ifs
    · exact (none.symm ▸ nil_prefix : resolved root <+: _)
    · rw [Returns, none, rtake_nil]
      exact nil_prefix
  rw [trim_normalised normalised top]
  by_cases absolute : ['/'] <+: path
  · simp only [absolute, or_true, if_true, normalised.ne_nil, if_false]
    split_ifs
    · rfl
    · obtain ⟨rest, rfl⟩ := absolute
      rw [singleton_append, inRoot_append_iff, Returns, Returns, routeOf_cons]
  · have outside : ¬root <+: path := fun starts =>
      absolute ((slash_of_normalised normalised).trans starts)
    rw [if_neg (not_or.mpr ⟨top, absolute⟩), if_neg outside, inRoot_append_iff]

theorem normalised_srv : Normalised "/srv".toList := .child .root ⟨by decide, by decide⟩ rfl

theorem resolvePath_inRoot_srv :
    let inside (path : FilePath) := InRoot "/srv".toList
      (resolvePath (setVfsRoot (fun _ => none) 1 "/srv".toList) 1 path)
    inside "a".toList ∧ inside "/etc".toList ∧ inside "../srv/a".toList ∧
      ¬inside "/srvx".toList ∧ ¬inside "..".toList := by
  intro inside
  have iff (path : FilePath) : inside path ↔ _ :=
    resolvePath_inRoot_iff (fun _ => none) 1 normalised_srv path
  rw [iff, iff, iff, iff, iff]
  decide

/-- A path that starts with the root and climbs out of it. -/
theorem not_inRoot_srv : Normalised "/srv".toList ∧ ¬InRoot "/srv".toList
    (resolvePath (setVfsRoot (fun _ => none) 1 "/srv".toList) 1 "/srv/../etc".toList) :=
  ⟨normalised_srv, by decide⟩

end SmartOs.Security
