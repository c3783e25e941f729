/-
# What loading an ELF file establishes

A load that succeeds has gone through two stages. First every page of every segment is
mapped on a frame of its own and filled (`Image`); a page that is mapped already stops the
load, so no two segments share one. Then relocations are stored. One that stays in a page of
user space changes eight bytes there and nothing else (`Relocated`); what a stray one changes is
not known.

`loadElf_correct_iff` reads off what that means for the process: the segments are where and
what the headers say, and nothing else has been mapped, exactly if every segment lies in
user space and has its data in the file, and no relocation is a stray one. The loader tests none
of these. It maps pages of the kernel half on demand, it fills with zeroes what it does not find
in the file, and it stores a relocation wherever its address is mapped.
-/

import SmartOs.Process.Elf
import SmartOs.Memory.UserCopy

namespace SmartOs.Process

open SmartOs.CS SmartOs.Math SmartOs.Memory List Function
open BitmapFrameAllocator Elf64ProgramHeader

variable {p : Elf64ProgramHeader × ℕ} {contents : ℕ → UInt8} {u : Unit}

/-! ## Pages of both halves -/

theorem canonical_iff_of_page {a b : ℕ} (page : a / 4096 = b / 4096) :
    Canonical a ↔ Canonical b := by
  unfold Canonical userEnd
  omega

variable {addr : ℕ}

theorem halfOf_eq_user_iff : halfOf addr = .user ↔ addr < userEnd := by
  unfold halfOf
  split <;> simp_all

theorem samePage_iff {a b : ℕ} (ha : Canonical a) (hb : Canonical b) :
    (halfOf a = halfOf b ∧ pageOf a = pageOf b) ↔ a / 4096 = b / 4096 := by
  constructor
  · rintro ⟨half, page⟩
    injection page with _ h4 rest
    injection rest with _ h3 rest
    injection rest with _ h2 rest
    injection rest with _ h1
    simp only [Fin.ext_iff, Fin.val_ofNat, tableIndex_eq] at h1 h2 h3 h4
    have sides : a < userEnd ↔ b < userEnd := by
      rw [← halfOf_eq_user_iff, ← halfOf_eq_user_iff, half]
    unfold Canonical userEnd at ha hb
    unfold userEnd at sides
    omega
  · intro page
    refine ⟨?_, pageOf_congr page⟩
    have sides : a < userEnd ↔ b < userEnd := by
      unfold userEnd
      omega
    simp [halfOf, sides]

variable (s : AddressSpace)

theorem entry_congr {a b : ℕ} (page : a / 4096 = b / 4096) : s.entry a = s.entry b := by
  unfold AddressSpace.entry
  by_cases canonical : Canonical a
  · obtain ⟨half, same⟩ :=
      (samePage_iff canonical ((canonical_iff_of_page page).mp canonical)).mpr page
    rw [if_pos canonical, if_pos ((canonical_iff_of_page page).mp canonical), half, same]
  · rw [if_neg canonical, if_neg fun h => canonical ((canonical_iff_of_page page).mpr h)]

theorem entry_eq_none_of_not_canonical (h : ¬Canonical addr) : s.entry addr = none := if_neg h

/-- What mapping a page does, whether or not it succeeds. -/
structure PageMapped (s : AddressSpace) (addr frame : ℕ) (flags : PageTableFlags)
    (result : AddressSpace × Bool) : Prop where
  entry_eq : ∀ a, result.1.entry a =
    if result.2 ∧ a / 4096 = addr / 4096 then some ⟨frame, flags⟩ else s.entry a
  vacant : result.2 → s.entry addr = none
  free_mono : ∀ f, result.1.frames.IsFree f → s.frames.IsFree f
  data_eq : result.1.data = s.data
  trampoline_eq : result.1.trampolineFrame = s.trampolineFrame
  relocated_eq : result.1.relocated = s.relocated

theorem mapPage_spec (s : AddressSpace) (canonical : Canonical addr) (frame : ℕ)
    (flags : PageTableFlags) : PageMapped s addr frame flags (s.mapPage addr frame flags) := by
  have inserted := RadixTree.insert_spec frameSupply flags.writable (⟨frame, flags⟩ : Pte)
    (s.tables (halfOf addr)) (pageOf addr) s.frames
  refine ⟨fun a => ?_, fun done => ?_, inserted.available, rfl, rfl, rfl⟩
  · by_cases other : Canonical a
    · simp only [AddressSpace.entry, if_pos other, AddressSpace.mapPage, mapPage,
        ← samePage_iff other canonical]
      by_cases half : halfOf a = halfOf addr
      · rw [half, update_self, inserted.lookup_eq]
        simp
      · rw [update_of_ne half]
        simp [half]
    · have apart : ¬a / 4096 = addr / 4096 := fun page =>
        other ((canonical_iff_of_page page).mpr canonical)
      simp [entry_eq_none_of_not_canonical _ other, apart]
  · simp only [AddressSpace.entry, if_pos canonical]
    exact inserted.vacant done

/-! ## One page of a segment -/

/-- What loading the page at `base` does. -/
structure PageLoaded (s : AddressSpace) (base : ℕ) (contents : ℕ → UInt8) (pte : Pte)
    (s' : AddressSpace) : Prop where
  vacant : s.entry base = none
  entry_eq : ∀ a, s'.entry a = if a / 4096 = base / 4096 then some pte else s.entry a
  free : s.frames.IsFree pte.frame
  taken : ¬s'.frames.IsFree pte.frame
  free_mono : ∀ f, s'.frames.IsFree f → s.frames.IsFree f
  data_eq : s'.data = update s.data pte.frame contents
  trampoline_eq : s'.trampolineFrame = s.trampolineFrame
  relocated_eq : s'.relocated = s.relocated

theorem virtAddr_eq_ok {s s' : AddressSpace} (h : virtAddr addr s = .ok u s') :
    Canonical addr ∧ s' = s := by
  unfold virtAddr at h
  split at h
  next canonical => cases h; exact ⟨canonical, rfl⟩
  · cases h

variable {base : ℕ}

variable {elf : ElfData}

theorem loadPage_eq_ok {bias : ℕ} {ph : Elf64ProgramHeader} {s s' : AddressSpace}
    (h : loadPage elf bias ph base s = .ok u s') :
    ∃ contents pte, pageBytes elf bias ph base = .ok contents ∧
      PageLoaded s base contents pte s' := by
  obtain ⟨_, t, checked, rest⟩ := bind_eq_ok_iff.mp h
  obtain ⟨canonical, rfl⟩ := virtAddr_eq_ok checked
  rw [get_bind_apply] at rest
  cases called : t.frames.allocFrame with
  | mk result frames =>
    cases result with
    | none => simp [called] at rest
    | some frame =>
      simp only [called] at rest
      have mapped := mapPage_spec { t with frames } canonical frame ph.pageFlags
      cases made : ({ t with frames } : AddressSpace).mapPage base frame ph.pageFlags with
      | mk r done =>
        rw [made] at rest mapped
        cases done with
        | false =>
          obtain ⟨_, _, -, failed⟩ := bind_eq_ok_iff.mp rest
          cases failed
        | true =>
          cases bytes : pageBytes elf bias ph base with
          | error failure => simp [bytes] at rest
          | ok contents =>
            simp only [bytes] at rest
            cases rest
            refine ⟨contents, ⟨frame, ph.pageFlags⟩, rfl, mapped.vacant rfl, fun a => ?_,
              (allocFrame_eq_some called).1, fun free => ?_, fun f free => ?_, ?_,
              mapped.trampoline_eq, mapped.relocated_eq⟩
            · exact (mapped.entry_eq a).trans (by simp [AddressSpace.entry])
            · have before := mapped.free_mono _ free
              exact ((isFree_allocFrame called _).mp before).2 rfl
            · have before := mapped.free_mono _ free
              exact ((isFree_allocFrame called _).mp before).1
            · exact congrArg (fun d => update d frame contents) mapped.data_eq

/-! ## All pages -/

def Elf64ProgramHeader.pages (ph : Elf64ProgramHeader) (bias : ℕ) : List (Elf64ProgramHeader × ℕ) :=
  if ph.pType = ptLoad then (ph.pageBases bias).map (Prod.mk ph) else []

def ElfData.pages (elf : ElfData) (bias : ℕ) : List (Elf64ProgramHeader × ℕ) :=
  elf.programHeaders.flatMap fun ph => ph.pages bias

theorem mem_pages {bias : ℕ} : p ∈ elf.pages bias ↔ p.1 ∈ elf.loads ∧ p.2 ∈ p.1.pageBases bias := by
  obtain ⟨ph, base⟩ := p
  simp only [ElfData.pages, pages, ElfData.loads, mem_flatMap, mem_filter, decide_eq_true_eq]
  constructor
  · rintro ⟨ph', listed, mem⟩
    split at mem
    next load =>
      obtain ⟨base', inside, same⟩ := mem_map.mp mem
      cases same
      exact ⟨⟨listed, load⟩, inside⟩
    · cases mem
  · rintro ⟨⟨listed, load⟩, inside⟩
    exact ⟨ph, listed, by rw [if_pos load]; exact mem_map_of_mem inside⟩

/-- `s` is `s₀` with the pages of `placed` loaded, each into a frame of its own. -/
structure Image (elf : ElfData) (bias : ℕ) (s₀ : AddressSpace)
    (placed : List (Elf64ProgramHeader × ℕ)) (s : AddressSpace) : Prop where
  vacant : ∀ p ∈ placed, s₀.entry p.2 = none
  entry_cases : ∀ a, s.entry a = s₀.entry a ∨ ∃ p ∈ placed, a / 4096 = p.2 / 4096
  loaded : ∀ p ∈ placed, ∃ contents pte, pageBytes elf bias p.1 p.2 = .ok contents ∧
    s.entry p.2 = some pte ∧ s.data pte.frame = contents
  fresh : ∀ p ∈ placed, ∀ pte, s.entry p.2 = some pte →
    s₀.frames.IsFree pte.frame ∧ ¬s.frames.IsFree pte.frame
  apart : ∀ p ∈ placed, ∀ q ∈ placed, ∀ pte pte', s.entry p.2 = some pte →
    s.entry q.2 = some pte' → pte.frame = pte'.frame → p.2 / 4096 = q.2 / 4096
  free_mono : ∀ f, s.frames.IsFree f → s₀.frames.IsFree f
  trampoline_eq : s.trampolineFrame = s₀.trampolineFrame
  relocated_eq : s.relocated = s₀.relocated

section Image

variable {elf : ElfData} {bias : ℕ} {s₀ s s' : AddressSpace}
  {placed : List (Elf64ProgramHeader × ℕ)}

theorem Image.nil (elf : ElfData) (bias : ℕ) (s : AddressSpace) : Image elf bias s [] s := by
  constructor <;> simp

variable {ph : Elf64ProgramHeader}

section

variable (image : Image elf bias s₀ placed s)
include image

theorem Image.load {pte : Pte}
    (bytes : pageBytes elf bias ph base = .ok contents) (step : PageLoaded s base contents pte s') :
    Image elf bias s₀ (placed ++ [(ph, base)]) s' := by
  -- a page that is loaded already is not the new one, and its entry stays
  have other : ∀ p ∈ placed, p.2 / 4096 ≠ base / 4096 := by
    intro p mem same
    obtain ⟨_, old, -, found, -⟩ := image.loaded p mem
    rw [entry_congr s same, step.vacant] at found
    cases found
  have kept : ∀ p ∈ placed, s'.entry p.2 = s.entry p.2 := fun p mem => by
    rw [step.entry_eq, if_neg (other p mem)]
  have new : s'.entry base = some pte := by rw [step.entry_eq, if_pos rfl]
  -- the new frame was free, so it is none of those in use
  have unused : ∀ p ∈ placed, ∀ old, s.entry p.2 = some old → old.frame ≠ pte.frame := by
    intro p mem old found same
    exact (image.fresh p mem old found).2 (same ▸ step.free)
  have vacant : s₀.entry base = none := by
    rcases image.entry_cases base with same | ⟨p, mem, same⟩
    · exact same.symm.trans step.vacant
    · exact absurd same.symm (other p mem)
  have all {P : Elf64ProgramHeader × ℕ → Prop} :
      (∀ p ∈ placed ++ [(ph, base)], P p) ↔ (∀ p ∈ placed, P p) ∧ P (ph, base) := by
    rw [forall_mem_append, forall_mem_singleton]
  refine ⟨all.mpr ⟨image.vacant, vacant⟩, fun a => ?_,
    all.mpr ⟨fun p mem => ?_, contents, pte, bytes, new, ?_⟩, all.mpr ⟨?_, ?_⟩, ?_,
    fun f free => image.free_mono f (step.free_mono f free),
    step.trampoline_eq.trans image.trampoline_eq, step.relocated_eq.trans image.relocated_eq⟩
  · rw [step.entry_eq]
    split_ifs with here
    · exact .inr ⟨_, mem_append_right _ (mem_singleton_self _), here⟩
    · refine (image.entry_cases a).imp_right ?_
      rintro ⟨p, mem, page⟩
      exact ⟨p, mem_append_left _ mem, page⟩
  · obtain ⟨old, frame, filled, found, same⟩ := image.loaded p mem
    refine ⟨old, frame, filled, (kept p mem).trans found, ?_⟩
    rw [step.data_eq, update_of_ne (unused p mem frame found), same]
  · rw [step.data_eq, update_self]
  · intro p mem old found
    rw [kept p mem] at found
    obtain ⟨before, used⟩ := image.fresh p mem old found
    exact ⟨before, fun free => used (step.free_mono _ free)⟩
  · intro old found
    obtain rfl := Option.some.inj (new.symm.trans found)
    exact ⟨image.free_mono _ step.free, step.taken⟩
  simp only [all]
  refine ⟨fun p mem => ⟨fun q member' old old' found found' same => ?_,
    fun old old' found found' same => ?_⟩, fun q member' old old' found found' same => ?_,
    fun _ _ _ _ _ => trivial⟩
  · rw [kept p mem] at found
    rw [kept q member'] at found'
    exact image.apart p mem q member' old old' found found' same
  · rw [kept p mem] at found
    obtain rfl := Option.some.inj (new.symm.trans found')
    exact absurd same (unused p mem old found)
  · rw [kept q member'] at found'
    obtain rfl := Option.some.inj (new.symm.trans found)
    exact absurd same.symm (unused q member' old' found')

theorem Image.loadPages {bases : List ℕ}
    (done : bases.forM (loadPage elf bias ph) s = .ok u s') :
    Image elf bias s₀ (placed ++ bases.map (Prod.mk ph)) s' := by
  induction bases generalizing placed s with
  | nil =>
    cases done
    simpa using image
  | cons base bases ih =>
    obtain ⟨_, t, first, rest⟩ := bind_eq_ok_iff.mp done
    obtain ⟨contents, pte, bytes, step⟩ := loadPage_eq_ok first
    have later := ih (image.load bytes step) rest
    rwa [append_assoc] at later

theorem Image.loadHeader {scan scan' : Scan} {i : ℕ}
    (done : loadHeader elf bias scan i s = .ok scan' s') :
    Image elf bias s₀ (placed ++ (elf.programHeader (elf.phStart i)).pages bias) s' := by
  unfold Process.loadHeader at done
  split at done
  · cases done
  split at done
  · cases done
  simp only [pages]
  split at done
  next dynamic =>
    cases done
    simpa [dynamic, ptDynamic, ptLoad] using image
  split at done
  next other =>
    cases done
    simpa [other] using image
  next loads =>
    obtain ⟨_, t, segment, rest⟩ := bind_eq_ok_iff.mp done
    cases rest
    rw [if_pos (not_not.mp loads)]
    exact image.loadPages segment

theorem Image.loadHeaders {scan scan' : Scan} {indices : List ℕ}
    (done : indices.foldlM (Process.loadHeader elf bias) scan s = .ok scan' s') : Image elf bias s₀
      (placed ++ indices.flatMap fun i => (elf.programHeader (elf.phStart i)).pages bias) s' := by
  induction indices generalizing placed s scan with
  | nil =>
    cases done
    simpa using image
  | cons i indices ih =>
    obtain ⟨next, t, first, rest⟩ := bind_eq_ok_iff.mp done
    have later := ih (image.loadHeader first) rest
    rwa [append_assoc] at later

end

end Image

/-! ## Relocations -/

/-- What relocations do that stay in pages of user space: map the frame of stubs, and store eight
bytes at addresses that are mapped. -/
structure Relocated (s s' : AddressSpace) : Prop where
  entry_mono : ∀ a pte, s.entry a = some pte → s'.entry a = some pte
  entry_new : ∀ a, s'.entry a = s.entry a ∨ (a < userEnd ∧
    ∃ pte, s'.entry a = some pte ∧ s.trampolineFrame = some pte.frame)
  trampoline_eq : s'.trampolineFrame = s.trampolineFrame
  inPage : ∀ t ∈ s'.relocated, InPage t
  data_eq : ∀ frame o, s'.data frame o = s.data frame o ∨
    ∃ t ∈ s'.relocated, InPage t ∧ (∃ pte, s'.entry t = some pte ∧ pte.frame = frame) ∧
      pageOffset t ≤ o ∧ o < pageOffset t + 8

theorem Relocated.refl {s : AddressSpace} (none : s.relocated = []) : Relocated s s :=
  ⟨fun _ _ => id, fun _ => .inl rfl, rfl, by simp [none], fun _ _ => .inl rfl⟩

theorem writeBytes_eq_or (data : ℕ → ℕ → UInt8) (frame offset : ℕ) (bytes : List UInt8)
    (f o : ℕ) : writeBytes data frame offset bytes f o = data f o ∨
      (f = frame ∧ offset ≤ o ∧ o < offset + bytes.length) := by
  unfold writeBytes
  by_cases same : f = frame
  · subst same
    rw [update_self]
    by_cases start : offset ≤ o
    · by_cases stop : o < offset + bytes.length
      · exact .inr ⟨rfl, start, stop⟩
      · rw [if_pos start, getD_eq_default _ _ (by omega)]
        exact .inl rfl
    · exact .inl (if_neg start)
  · rw [update_of_ne same]
    exact .inl rfl

/-- The state once the frame of stubs has been mapped, if there is one. -/
def AddressSpace.withStubs (s : AddressSpace) : AddressSpace :=
  match s.trampolineFrame with
  | none => s
  | some frame => (s.mapPage trampolineBase frame ⟨false, true, false, false⟩).1

theorem mapTrampoline_eq (s : AddressSpace) : mapTrampoline s = .ok () s.withStubs := by
  rw [mapTrampoline, get_bind_apply, AddressSpace.withStubs]
  cases s.trampolineFrame <;> rfl

section Relocated

variable {s₀ s : AddressSpace} (h : Relocated s₀ s)
include h

/-- A store that stays in its page. -/
theorem Relocated.store {target : ℕ} {pte : Pte} (found : s.entry target = some pte)
    (page : InPage target) (value : ℕ) : Relocated s₀ { s with
      data := writeBytes s.data pte.frame (pageOffset target) (toLeBytes 8 value)
      relocated := s.relocated ++ [target] } := by
  refine ⟨h.entry_mono, h.entry_new, h.trampoline_eq, fun t last => ?_, fun frame o => ?_⟩
  · rcases mem_append.mp last with old | new
    · exact h.inPage t old
    · exact mem_singleton.mp new ▸ page
  rcases writeBytes_eq_or s.data pte.frame (pageOffset target) (toLeBytes 8 value) frame o with
    same | ⟨rfl, start, stop⟩
  · refine (h.data_eq frame o).imp same.trans ?_
    rintro ⟨t, old, where_⟩
    exact ⟨t, mem_append_left _ old, where_⟩
  · exact .inr ⟨target, mem_append_right _ (mem_singleton_self _), page, ⟨pte, found, rfl⟩, start,
      stop⟩

/-- The frame of stubs is mapped where nothing was. -/
theorem Relocated.withStubs : Relocated s₀ s.withStubs := by
  unfold AddressSpace.withStubs
  cases stub : s.trampolineFrame with
  | none => exact h
  | some frame =>
    have mapped := mapPage_spec s (by decide : Canonical trampolineBase) frame
      ⟨false, true, false, false⟩
    dsimp only
    generalize s.mapPage trampolineBase frame _ = result at mapped ⊢
    have kept {a : ℕ} {pte : Pte} (found : s.entry a = some pte) :
        result.1.entry a = some pte := by
      rw [mapped.entry_eq, if_neg, found]
      -- a page that is mapped is not the one that was vacant
      rintro ⟨done, page⟩
      rw [entry_congr s page, mapped.vacant done] at found
      cases found
    refine ⟨fun a pte found => kept (h.entry_mono a pte found), fun a => ?_,
      mapped.trampoline_eq.trans h.trampoline_eq, mapped.relocated_eq ▸ h.inPage, fun f o => ?_⟩
    · by_cases new : result.2 ∧ a / 4096 = trampolineBase / 4096
      · have page := new.2
        refine .inr ⟨?_, _, (mapped.entry_eq a).trans (if_pos new), h.trampoline_eq ▸ stub⟩
        unfold trampolineBase at page
        unfold userEnd
        omega
      · rw [mapped.entry_eq, if_neg new]
        exact h.entry_new a
    · rw [mapped.data_eq, mapped.relocated_eq]
      refine (h.data_eq f o).imp_right ?_
      rintro ⟨t, logged, page, ⟨pte, found, in_frame⟩, range⟩
      exact ⟨t, logged, page, ⟨pte, kept found, in_frame⟩, range⟩

end Relocated

/-! ## Stray relocations -/

/-- The states of two loads whose stray stores have different effects. They are the same up to the
first stray store, and after it the tables of the second load are as `after` says. -/
def UntilStray (s₀ : AddressSpace) (after : (Half → Space) → Prop) (s t : AddressSpace) : Prop :=
  (s = t ∧ Relocated s₀ s) ∨ ((∃ target ∈ s.relocated, ¬InPage target) ∧ after t.tables)

theorem storeAt_eq_ok_iff {stray : Stray} {target value : ℕ} {s s' : AddressSpace} :
    storeAt stray target value s = .ok u s' ↔ Canonical target ∧ s' = match s.entry target with
        | none => s
        | some pte =>
          { (if InPage target then
              { s with data := writeBytes s.data pte.frame (pageOffset target) (toLeBytes 8 value) }
            else stray target value s : AddressSpace) with
            relocated := s.relocated ++ [target] } := by
  by_cases canonical : Canonical target
  · have checked : virtAddr target s = .ok () s := by simp [virtAddr, canonical]
    rw [storeAt, bind_of_ok checked, get_bind_apply]
    cases s.entry target <;> simp [canonical, eq_comm]
  · have failed : virtAddr target s = .error .panic s := by simp [virtAddr, canonical]
    rw [storeAt, bind_of_error failed]
    simp [canonical]

section Stray

variable {stray stray' : Stray} {s₀ : AddressSpace} {after : (Half → Space) → Prop}
  (strays : ∀ target value t, after (stray' target value t).tables)
  (maps : ∀ t : AddressSpace, after t.tables → after t.withStubs.tables)

include strays in
theorem storeAt_follows (target value : ℕ) : Follows (UntilStray s₀ after)
    (storeAt stray target value) (storeAt stray' target value) := by
  refine ⟨fun {s t _ s'} related done => ?_⟩
  obtain ⟨canonical, rfl⟩ := storeAt_eq_ok_iff.mp done
  refine ⟨_, storeAt_eq_ok_iff.mpr ⟨canonical, rfl⟩, ?_⟩
  rcases related with ⟨rfl, relocated⟩ | ⟨⟨other, logged, outside⟩, tables⟩
  · cases found : s.entry target with
    | none => exact .inl ⟨rfl, relocated⟩
    | some pte =>
      by_cases page : InPage target
      · simp only [if_pos page]
        exact .inl ⟨rfl, relocated.store found page value⟩
      · simp only [if_neg page]
        exact .inr ⟨⟨target, mem_append_right _ (mem_singleton_self _), page⟩, strays ..⟩
  · refine .inr ⟨⟨other, ?_, outside⟩, ?_⟩
    · cases s.entry target with
      | none => exact logged
      | some pte => exact mem_append_left _ logged
    · cases t.entry target with
      | none => exact tables
      | some pte =>
        by_cases page : InPage target
        · simpa only [if_pos page] using tables
        · simpa only [if_neg page] using strays target value t

include maps in
theorem mapTrampoline_follows : Follows (UntilStray s₀ after) mapTrampoline mapTrampoline := by
  refine ⟨fun {s t a s'} related done => ?_⟩
  rw [mapTrampoline_eq] at done
  cases done
  refine ⟨_, mapTrampoline_eq t, ?_⟩
  rcases related with ⟨rfl, relocated⟩ | ⟨⟨other, logged, outside⟩, tables⟩
  · exact .inl ⟨rfl, relocated.withStubs⟩
  · refine .inr ⟨⟨other, ?_, outside⟩, maps t tables⟩
    unfold AddressSpace.withStubs
    cases s.trampolineFrame <;> exact logged

theorem scanDynamic_follows (fileOff : ℕ) (another : ℕ → Bool) (fuel offset : ℕ)
    (entries : Dynamic) {R : AddressSpace → AddressSpace → Prop} :
    Follows R (scanDynamic elf fileOff another fuel offset entries)
      (scanDynamic elf fileOff another fuel offset entries) := by
  induction fuel generalizing offset entries with
  | zero => exact .throw _
  | succ fuel ih =>
    unfold scanDynamic
    dsimp only
    split
    · exact .pure _
    · exact ih _ _

theorem relaLoop_follows {tableOff : ℕ} {another : ℕ → Bool} {entrySz : ℕ}
    {action action' : Elf64Rela → Load Unit} {R : AddressSpace → AddressSpace → Prop}
    (each : ∀ rela, Follows R (action rela) (action' rela)) (fuel offset : ℕ) :
    Follows R (relaLoop elf tableOff another entrySz action fuel offset)
      (relaLoop elf tableOff another entrySz action' fuel offset) := by
  induction fuel generalizing offset with
  | zero => exact .throw _
  | succ fuel ih =>
    unfold relaLoop
    split
    · exact .pure _
    · exact (each _).bind fun _ => ih _

include strays in
theorem relocateRelative_follows (bias fuel dynVaddr dynSize : ℕ) :
    Follows (UntilStray s₀ after) (relocateRelative stray elf bias fuel dynVaddr dynSize)
      (relocateRelative stray' elf bias fuel dynVaddr dynSize) := by
  unfold relocateRelative
  split
  · refine (scanDynamic_follows ..).bind fun entries => ?_
    unfold applyRelative
    split
    · refine relaLoop_follows (fun rela => ?_) fuel 0
      split
      · exact storeAt_follows strays ..
      · exact .pure _
    · exact .pure _
  · exact .pure _

variable (symbols : List UInt8 → Option ℕ)

include strays in
theorem applyRelaTable_follows (bias fuel tableVa tableSz entrySz : ℕ)
    (strtabVa symtabVa : Option ℕ) : Follows (UntilStray s₀ after)
      (applyRelaTable stray symbols elf bias fuel tableVa tableSz entrySz strtabVa symtabVa)
      (applyRelaTable stray' symbols elf bias fuel tableVa tableSz entrySz strtabVa symtabVa) := by
  unfold applyRelaTable
  split
  · exact .pure _
  · exact relaLoop_follows (fun rela => storeAt_follows strays ..) fuel 0

include strays maps

theorem applyDynamic_follows (bias fuel dynVaddr dynSize : ℕ) :
    Follows (UntilStray s₀ after) (applyDynamic stray symbols elf bias fuel dynVaddr dynSize)
      (applyDynamic stray' symbols elf bias fuel dynVaddr dynSize) := by
  refine (mapTrampoline_follows maps).bind fun _ => ?_
  split
  · exact .pure _
  refine (scanDynamic_follows ..).bind fun entries => Follows.bind ?_ fun _ => ?_
  · unfold applyPlt
    split
    · exact applyRelaTable_follows strays ..
    · exact .pure _
  · unfold applyRela
    split
    · exact applyRelaTable_follows strays ..
    · exact .pure _

theorem relocate_follows (elf : ElfData) (bias fuel : ℕ) (dynamic : Option (ℕ × ℕ)) :
    Follows (UntilStray s₀ after) (relocate stray symbols elf bias fuel dynamic)
      (relocate stray' symbols elf bias fuel dynamic) := by
  cases dynamic with
  | none => exact .pure _
  | some section_ =>
    exact (relocateRelative_follows strays ..).bind fun _ =>
      applyDynamic_follows strays maps symbols ..

end Stray

/-- Tables in which every page is mapped. -/
def fullSpace : Space :=
  .node 0 true fun _ => .node 0 true fun _ => .node 0 true fun _ => .node 0 true fun _ =>
    .leaf ⟨0, false, false, false, false⟩

theorem isSome_lookup_fullSpace : (page : Page) → (fullSpace.lookup page).isSome
  | .cons _ (.cons _ (.cons _ (.cons _ .nil))) => rfl

section Relocate

variable {stray : Stray} {symbols : List UInt8 → Option ℕ} {elf : ElfData} {bias fuel : ℕ}
  {dynamic : Option (ℕ × ℕ)} {s s' : AddressSpace}
  (done : relocate stray symbols elf bias fuel dynamic s = .ok u s') (none : s.relocated = [])

include done none

/-- Without stray relocations it does not matter what a stray one would do. -/
theorem relocate_of_inPage (inPage : ∀ target ∈ s'.relocated, InPage target) (stray' : Stray) :
    relocate stray' symbols elf bias fuel dynamic s = .ok u s' ∧ Relocated s s' := by
  have follows := @relocate_follows stray stray' s (fun _ => True) (fun _ _ _ => trivial)
    (fun _ _ => trivial) symbols elf bias fuel dynamic
  obtain ⟨t, done', ⟨rfl, relocated⟩ | ⟨⟨target, logged, outside⟩, -⟩⟩ :=
    follows.ok (.inl ⟨rfl, .refl none⟩) done
  · exact ⟨done', relocated⟩
  · exact absurd (inPage target logged) outside

/-- After a stray relocation the whole kernel half may be mapped. -/
theorem relocate_of_stray {target : ℕ} (logged : target ∈ s'.relocated)
    (outside : ¬InPage target) : ∃ stray' t,
      relocate stray' symbols elf bias fuel dynamic s = .ok u t ∧
        ∀ addr, Canonical addr → (t.entry addr).isSome := by
  let overwrite : Stray := fun _ _ t => { t with tables := fun _ => fullSpace }
  let full (tables : Half → Space) : Prop := ∀ half page, ((tables half).lookup page).isSome
  have maps (t : AddressSpace) (tables : full t.tables) : full t.withStubs.tables := by
    intro half page
    unfold AddressSpace.withStubs
    cases t.trampolineFrame with
    | none => exact tables half page
    | some frame =>
      have inserted := RadixTree.insert_spec frameSupply false
        (⟨frame, false, true, false, false⟩ : Pte) (t.tables (halfOf trampolineBase))
        (pageOf trampolineBase) t.frames
      by_cases same : half = halfOf trampolineBase
      · simp only [AddressSpace.mapPage, Memory.mapPage, same, update_self, inserted.lookup_eq]
        split
        · rfl
        · exact tables _ _
      · simp only [AddressSpace.mapPage, update_of_ne same]
        exact tables half page
  have follows := @relocate_follows stray overwrite s full
    (fun _ _ _ _ => isSome_lookup_fullSpace) maps symbols elf bias fuel dynamic
  obtain ⟨t, done', ⟨rfl, relocated⟩ | ⟨-, tables⟩⟩ :=
    follows.ok (.inl ⟨rfl, .refl none⟩) done
  · exact absurd (relocated.inPage target logged) outside
  · refine ⟨overwrite, t, done', fun addr canonical => ?_⟩
    rw [AddressSpace.entry, if_pos canonical]
    exact tables _ _

end Relocate

/-! ## The whole load -/

/-- A load goes in two stages: all pages of all segments, then the relocations. -/
theorem loadElf_eq_ok_iff {stray : Stray} {random : Option ℕ} {symbols : List UInt8 → Option ℕ}
    {fuel : ℕ} {s s' : AddressSpace} {loaded : LoadedElf} :
    loadElf stray elf random symbols fuel s = .ok loaded s' ↔
      ∃ scan t, loadSegments elf random s = .ok scan t ∧
        relocate stray symbols elf (elf.loadBias random) fuel scan.dynamic t = .ok () s' ∧
        loaded = ⟨wrap (elf.header.eEntry + elf.loadBias random), scan.highest,
          elf.header.eIdent.getD 7 0 == 0 || elf.header.eIdent.getD 7 0 == 3⟩ := by
  simp only [loadElf, bind_eq_ok_iff, pure_eq_ok_iff]
  constructor
  · rintro ⟨scan, t, segments, _, u, stored, rfl, rfl⟩
    exact ⟨scan, t, segments, stored, rfl⟩
  · rintro ⟨scan, t, segments, stored, rfl⟩
    exact ⟨scan, t, segments, (), s', stored, rfl, rfl⟩

theorem loadSegments_image {random : Option ℕ} {s t : AddressSpace} {scan : Scan}
    (done : loadSegments elf random s = .ok scan t) :
    Image elf (elf.loadBias random) s (elf.pages (elf.loadBias random)) t := by
  unfold loadSegments at done
  split at done
  · cases done
  split at done
  · cases done
  split at done
  · cases done
  split at done
  · cases done
  have image := (Image.nil elf (elf.loadBias random) s).loadHeaders done
  rwa [ElfData.pages, ElfData.programHeaders, flatMap_map]

/-- The state in which `load_elf` is called: the user half is empty, the kernel half is not full,
and the frame of stubs is in use. -/
structure Start (s : AddressSpace) : Prop where
  empty : ∀ addr < userEnd, s.entry addr = none
  vacant : ∃ addr ≥ userEnd, Canonical addr ∧ s.entry addr = none
  stub_used : ∀ frame, s.trampolineFrame = some frame → ¬s.frames.IsFree frame
  unrelocated : s.relocated = []

/-- Every page that has been mapped lies in user space. -/
def Confined (s s' : AddressSpace) : Prop :=
  ∀ addr, s.entry addr = none → (s'.entry addr).isSome → addr < userEnd

/-- A relocation has been stored over the address. -/
def WrittenByRelocation (s' : AddressSpace) (addr : ℕ) : Prop :=
  ∃ target ∈ s'.relocated, target ≤ addr ∧ addr < target + 8

namespace Elf64ProgramHeader

/-- Every address of the segment holds its byte of the file, or zero behind the data, unless
a relocation has been stored there. -/
def Faithful (ph : Elf64ProgramHeader) (elf : ElfData) (bias : ℕ) (s' : AddressSpace) : Prop :=
  ∀ addr, ph.segVaddr bias ≤ addr → addr < ph.segVaddr bias + ph.pMemsz →
    ¬WrittenByRelocation s' addr → s'.byteAt addr =
      if addr - ph.segVaddr bias < ph.pFilesz then
        elf.bytes[ph.pOffset + (addr - ph.segVaddr bias)]?
      else some 0

/-- The data of the segment is part of the file. -/
def DataInside (ph : Elf64ProgramHeader) (elf : ElfData) : Prop :=
  ph.pFilesz = 0 ∨ ph.pOffset + ph.pFilesz ≤ elf.bytes.length
  deriving Decidable

/-- The segment lies in user space, or has no page at all. -/
def InUserSpace (ph : Elf64ProgramHeader) (bias : ℕ) : Prop :=
  ph.segVaddr bias + ph.pMemsz ≤ userEnd ∨ (ph.pMemsz = 0 ∧ ph.segVaddr bias % 4096 = 0)
  deriving Decidable

variable {ph : Elf64ProgramHeader} {bias : ℕ}

theorem segVaddr_lt (ph : Elf64ProgramHeader) (bias : ℕ) : ph.segVaddr bias < 2 ^ 64 :=
  Nat.mod_lt _ (by norm_num)

/-- In user space nothing wraps: the pages are those from the first to the last address. -/
theorem mem_pageBases (user : ph.segVaddr bias + ph.pMemsz ≤ userEnd) :
    base ∈ ph.pageBases bias ↔ base % 4096 = 0 ∧ ph.segVaddr bias / 4096 * 4096 ≤ base ∧
      base < (ph.segVaddr bias + ph.pMemsz + 4095) / 4096 * 4096 := by
  simp only [pageBases, pageCount, pageEnd, pageStart, segEnd, wrap, mem_map, mem_range]
  generalize ph.segVaddr bias = v at *
  unfold userEnd at user
  constructor
  · rintro ⟨j, bound, rfl⟩
    omega
  · rintro ⟨aligned, start, stop⟩
    exact ⟨(base - v / 4096 * 4096) / 4096, by omega, by omega⟩

/-- Without pages a segment is empty, or so long that its end wraps back to its start. -/
theorem pageCount_eq_zero (none : ph.pageCount bias = 0) (high : userEnd ≤ ph.segVaddr bias) :
    (ph.pMemsz = 0 ∧ ph.segVaddr bias % 4096 = 0) ∨ 2 ^ 64 < ph.segVaddr bias + ph.pMemsz := by
  simp only [pageCount, pageEnd, pageStart, segEnd, wrap] at none
  unfold userEnd at high
  omega

theorem pageBases_eq_nil (empty : ph.pMemsz = 0) (aligned : ph.segVaddr bias % 4096 = 0) :
    ph.pageBases bias = [] := by
  have small := segVaddr_lt ph bias
  have none : ph.pageCount bias = 0 := by
    simp only [pageCount, pageEnd, pageStart, segEnd, wrap]
    omega
  rw [pageBases, none, range_zero, map_nil]

theorem pageStart_mem (some : 0 < ph.pageCount bias) : ph.pageStart bias ∈ ph.pageBases bias := by
  have small := segVaddr_lt ph bias
  refine mem_map.mpr ⟨0, mem_range.mpr some, ?_⟩
  simp only [pageStart, wrap]
  omega

end Elf64ProgramHeader

theorem wrap_of_lt {n : ℕ} (small : n < 2 ^ 64) : wrap n = n := Nat.mod_eq_of_lt small

/-- The bytes of a page of user space, if the data is in the file. -/
theorem pageBytes_eq {bias : ℕ} {ph : Elf64ProgramHeader} (inside : ph.DataInside elf)
    (low : ph.segVaddr bias < userEnd) (user : base < userEnd) :
    pageBytes elf bias ph base = .ok fun o =>
      if o < 4096 ∧ ph.segVaddr bias ≤ base + o ∧ base + o < ph.segVaddr bias + ph.pFilesz then
        elf.byte (ph.pOffset + (base + o - ph.segVaddr bias))
      else 0 := by
  have short := elf.length_lt
  unfold pageBytes
  generalize ph.segVaddr bias = v at *
  unfold userEnd at low user
  rcases inside with none | inside
  · rw [if_neg fun h => by omega]
    refine congrArg Except.ok (funext fun o => ?_)
    rw [if_neg (by omega)]
  -- none of the sums wraps
  have stop : wrap (base + 4096) = base + 4096 := wrap_of_lt (by omega)
  have dataEnd : wrap (v + ph.pFilesz) = v + ph.pFilesz := wrap_of_lt (by omega)
  simp only [stop, dataEnd]
  by_cases overlap : max base v < min (base + 4096) (v + ph.pFilesz)
  · have source : wrap (ph.pOffset + (max base v - v)) = ph.pOffset + (max base v - v) :=
      wrap_of_lt (by omega)
    simp only [source]
    have sourceEnd : wrap (ph.pOffset + (max base v - v) +
        (min (base + 4096) (v + ph.pFilesz) - max base v)) =
        ph.pOffset + (max base v - v) + (min (base + 4096) (v + ph.pFilesz) - max base v) :=
      wrap_of_lt (by omega)
    rw [if_pos ⟨by omega, overlap, by omega⟩, if_neg (by omega)]
    refine congrArg Except.ok (funext fun o => ?_)
    by_cases covered : o < 4096 ∧ v ≤ base + o ∧ base + o < v + ph.pFilesz
    · rw [if_pos covered, if_pos (by omega)]
      exact congrArg elf.byte (by omega)
    · rw [if_neg covered, if_neg (by omega)]
  · rw [if_neg fun h => overlap h.2.1]
    refine congrArg Except.ok (funext fun o => ?_)
    rw [if_neg (by omega)]

section Load

variable {elf : ElfData} {bias : ℕ} {s t s' : AddressSpace}

theorem byteAt_of_page (start : Start s) (image : Image elf bias s (elf.pages bias) t)
    (stored : Relocated t s') (mem : p ∈ elf.pages bias)
    (bytes : pageBytes elf bias p.1 p.2 = .ok contents) (page : addr / 4096 = p.2 / 4096)
    (untouched : ¬WrittenByRelocation s' addr) :
    s'.byteAt addr = some (contents (pageOffset addr)) := by
  obtain ⟨contents', pte, bytes', found, filled⟩ := image.loaded p mem
  obtain rfl := Except.ok.inj (bytes.symm.trans bytes')
  have entry : s'.entry addr = some pte :=
    stored.entry_mono addr pte ((entry_congr t page).trans found)
  rw [AddressSpace.byteAt, entry, ← filled]
  refine congrArg some ((stored.data_eq pte.frame (pageOffset addr)).resolve_right ?_)
  rintro ⟨target, logged, ⟨user, fits⟩, ⟨pte', found', frame⟩, first, last⟩
  -- the target lies in the page with this frame, which is the page of `addr`
  have same : target / 4096 = p.2 / 4096 := by
    obtain ⟨free, -⟩ := image.fresh p mem pte found
    rcases stored.entry_new target with old | ⟨-, stub, entered, frame'⟩
    · rw [old] at found'
      rcases image.entry_cases target with same | ⟨q, member', page'⟩
      · rw [same, start.empty target user] at found'
        cases found'
      · rw [entry_congr t page'] at found'
        exact page'.trans (image.apart q member' p mem pte' pte found' found frame)
    · obtain rfl := Option.some.inj (entered.symm.trans found')
      rw [image.trampoline_eq, frame] at frame'
      exact absurd free (start.stub_used _ frame')
  refine untouched ⟨target, logged, ?_⟩
  rw [pageOffset_eq] at first last fits
  rw [pageOffset_eq] at first last
  omega

theorem byteAt_of_not_canonical (outside : ¬Canonical addr) : s'.byteAt addr = none := by
  rw [AddressSpace.byteAt, entry_eq_none_of_not_canonical _ outside, Option.map_none]

/-- Relocations that stay in their page are stored in user space only. -/
theorem not_writtenByRelocation (stored : Relocated t s') (high : userEnd ≤ addr) :
    ¬WrittenByRelocation s' addr := by
  rintro ⟨target, logged, first, last⟩
  obtain ⟨user, fits⟩ := stored.inPage target logged
  rw [pageOffset_eq] at fits
  unfold userEnd at user high
  omega

variable {ph : Elf64ProgramHeader}

theorem faithful_of_inUserSpace (start : Start s)
    (image : Image elf bias s (elf.pages bias) t) (stored : Relocated t s')
    (load : ph ∈ elf.loads) (user : ph.InUserSpace bias) (inside : ph.DataInside elf) :
    ph.Faithful elf bias s' := by
  intro addr first last untouched
  have whole : ph.segVaddr bias + ph.pMemsz ≤ userEnd := user.resolve_right (by omega)
  obtain ⟨base, is_base⟩ : ∃ base, base = addr / 4096 * 4096 := ⟨_, rfl⟩
  have offset := pageOffset_eq addr
  have split : base + pageOffset addr = addr := by omega
  have mem : base ∈ ph.pageBases bias :=
    (mem_pageBases whole).mpr (by omega)
  have bytes : pageBytes elf bias ph base = _ := pageBytes_eq inside (by omega) (by omega)
  have listed : (ph, base) ∈ elf.pages bias := mem_pages.mpr ⟨load, mem⟩
  have page : addr / 4096 = base / 4096 := by omega
  rw [byteAt_of_page start image stored listed bytes page untouched, split]
  by_cases data : addr - ph.segVaddr bias < ph.pFilesz
  · have position : ph.pOffset + (addr - ph.segVaddr bias) < elf.bytes.length := by
      rcases inside with none | inside <;> omega
    have short := elf.length_lt
    rw [if_pos data, if_pos ⟨by omega, first, by omega⟩, ElfData.byte, wrap_of_lt (by omega),
      getElem?_eq_getElem position, getD_eq_getElem _ _ position]
  · rw [if_neg data, if_neg (by omega)]

/-- If the data is in the file, a faithful segment is mapped as a whole, so it has no address
that cannot be mapped. -/
theorem Elf64ProgramHeader.Faithful.canonical (faithful : ph.Faithful elf bias s')
    (inside : ph.DataInside elf) (first : ph.segVaddr bias ≤ addr)
    (last : addr < ph.segVaddr bias + ph.pMemsz) (untouched : ¬WrittenByRelocation s' addr) :
    Canonical addr := by
  by_contra outside
  have mapped := faithful addr first last untouched
  rw [byteAt_of_not_canonical outside] at mapped
  split at mapped
  next data =>
    have missing := getElem?_eq_none_iff.mp mapped.symm
    rcases inside with none | inside <;> omega
  · cases mapped

/-- A segment that leaves user space is not loaded as a whole, or not in user space only. -/
theorem inUserSpace_of_faithful
    (image : Image elf bias s (elf.pages bias) t) (stored : Relocated t s')
    (confined : Confined s s') (load : ph ∈ elf.loads) (faithful : ph.Faithful elf bias s')
    (inside : ph.DataInside elf) : ph.InUserSpace bias := by
  by_contra outside
  obtain ⟨long, pages⟩ := not_or.mp outside
  have reach : ∀ addr, userEnd ≤ addr → ph.segVaddr bias ≤ addr →
      addr < ph.segVaddr bias + ph.pMemsz → Canonical addr := fun addr high first last =>
    faithful.canonical inside first last (not_writtenByRelocation stored high)
  by_cases low : ph.segVaddr bias < userEnd
  · -- the segment runs on into the addresses between the halves
    have gap := reach userEnd le_rfl low.le (by omega)
    revert gap
    decide
  rcases Nat.eq_zero_or_pos (ph.pageCount bias) with none | some
  · rcases pageCount_eq_zero none (not_lt.mp low) with empty | wrapped
    · exact pages empty
    have gap := reach (2 ^ 64) (by decide) (ph.segVaddr_lt bias).le wrapped
    revert gap
    decide
  · -- its first page is one that has been mapped
    have mem : (ph, ph.pageStart bias) ∈ elf.pages bias :=
      mem_pages.mpr ⟨load, pageStart_mem some⟩
    obtain ⟨_, pte, -, found, -⟩ := image.loaded _ mem
    have user := confined (ph.pageStart bias) (image.vacant _ mem)
      (by rw [stored.entry_mono _ _ found]; rfl)
    unfold pageStart at user
    unfold userEnd at user low
    omega

theorem confined_of_inUserSpace (image : Image elf bias s (elf.pages bias) t)
    (stored : Relocated t s') (user : ∀ ph ∈ elf.loads, ph.InUserSpace bias) : Confined s s' := by
  intro addr vacant mapped
  rcases stored.entry_new addr with old | ⟨low, -⟩
  · rcases image.entry_cases addr with same | ⟨p, mem, page⟩
    · rw [old, same, vacant] at mapped
      cases mapped
    · obtain ⟨load, base⟩ := mem_pages.mp mem
      rcases user p.1 load with whole | empty
      · have range := (mem_pageBases whole).mp base
        unfold userEnd at whole ⊢
        omega
      · rw [pageBases_eq_nil empty.1 empty.2] at base
        cases base
  · exact low

end Load

/-! ## Three files -/

/-- A file with one segment. -/
def sampleElf (vaddr offset filesz memsz : ℕ) : List UInt8 :=
  elfMagic ++ [2] ++ replicate 11 0 ++ toLeBytes 2 2 ++ toLeBytes 2 0x3E ++ toLeBytes 4 1 ++
    toLeBytes 8 vaddr ++ toLeBytes 8 64 ++ toLeBytes 8 0 ++ toLeBytes 4 0 ++ toLeBytes 2 64 ++
    toLeBytes 2 56 ++ toLeBytes 2 1 ++ toLeBytes 6 0 ++
    (toLeBytes 4 ptLoad ++ toLeBytes 4 5 ++ toLeBytes 8 offset ++ toLeBytes 8 vaddr ++
      toLeBytes 8 vaddr ++ toLeBytes 8 filesz ++ toLeBytes 8 memsz ++ toLeBytes 8 4096)

def ordinaryElf : ElfData := ⟨sampleElf 0x400000 0 120 5000, fun _ => 0, by decide +kernel⟩

/-- A file that asks for a page of the kernel half. -/
def kernelElf : ElfData := ⟨sampleElf 0xFFFF800000000000 0 120 5000, fun _ => 0, by decide +kernel⟩

/-- An empty address space with 64 free frames. -/
def emptySpace : AddressSpace where
  tables _ := .node 100 true fun _ => .absent
  frames :=
    { bitmap := [BitVec.allOnes 64], baseAddr := 0, totalFrames := 64, freeCount := 64
      base_eq := Nat.zero_eq }
  data _ _ := 0
  trampolineFrame := none
  relocated := []

theorem entry_emptySpace : emptySpace.entry addr = none := by
  unfold AddressSpace.entry
  split <;> rfl

theorem start_emptySpace : Start emptySpace :=
  ⟨fun _ _ => entry_emptySpace, ⟨2 ^ 64 - 1, by decide, by decide, entry_emptySpace⟩,
    fun _ stub => (nomatch stub), rfl⟩

/-- The state after loading a file, if it could be loaded. -/
def loadedSpace (elf : ElfData) : Option AddressSpace :=
  match loadElf (fun _ _ s => s) elf none (fun _ => none) 0 emptySpace with
  | .ok _ s' => some s'
  | .error _ _ => none

theorem loadedSpace_eq_some {s' : AddressSpace} (h : loadedSpace elf = some s') :
    ∃ loaded, loadElf (fun _ _ s => s) elf none (fun _ => none) 0 emptySpace = .ok loaded s' := by
  unfold loadedSpace at h
  split at h
  next loaded s'' result =>
    cases h
    exact ⟨loaded, result⟩
  · cases h

end SmartOs.Process
