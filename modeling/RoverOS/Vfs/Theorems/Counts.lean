import RoverOS.Vfs.Theorems.Cases
import RoverOS.Library.Run

-- The reference counts along a run of the file system.

open Function (update update_self update_of_ne)
open Bytes (load load_lt)
open Run (Steps)

namespace RoverOS.Vfs

open Kmalloc

inductive Op
  | mount (type childCount : Nat) (letter : Ptr) (flags : Nat) (mfread : Word)
  | add (parent name : Ptr) (phys size flags : Nat)
  | open (path : Nat → Ptr)
  | close (fl : Option Ptr)
  | read (fl : Ptr) (sz : Nat)
  | other (heap : Kmalloc.Heap)

-- What has happened to each mount: the references that were left over in its memory when it was
-- made, and how many of its handles have been closed since.
structure Ledger where
  leftover : Ptr → Nat
  closes   : Ptr → Nat

def Ledger.mounted (l : Ledger) (mnt : Ptr) (references : Nat) : Ledger where
  leftover := update l.leftover mnt references
  closes   := update l.closes mnt 0

def Ledger.closed (l : Ledger) (mnt : Option Ptr) : Ledger :=
  { l with closes := fun p => if mnt = some p then l.closes p + 1 else l.closes p }

section Steps

variable (leftover : Bytes → Nat → Hashtable.Bucket) (memcpy : Memcpy) (fuel : Nat)
variable (code : Word → Option Driver)

-- Between the calls other code changes the heap, but what has been handed out stays in use.
inductive Step : Vfs × Ledger → Op → Vfs × Ledger → Prop
  | mount {s s' : Vfs} {l : Ledger} {type childCount flags : Nat} {letter mnt : Ptr} {mfread : Word} :
    mountVFS leftover memcpy type childCount letter flags mfread s = .ok (mnt, s') →
    Step (s, l) (.mount type childCount letter flags mfread)
      (s', l.mounted mnt (load (s.heap.mem mnt) offsetReferences 2))
  | add {s s' : Vfs} {l : Ledger} {parent name : Ptr} {phys size flags : Nat} {r : Bool} :
    addVFSFile memcpy fuel parent name phys size flags s = .ok (r, s') →
    Step (s, l) (.add parent name phys size flags) (s', l)
  | open {s s' : Vfs} {l : Ledger} {path : Nat → Ptr} {r : Option Ptr} :
    openFile fuel path s = .ok (r, s') → Step (s, l) (.open path) (s', l)
  | close {s s' : Vfs} {l : Ledger} {fl : Option Ptr} :
    closeFile fl s = .ok s' →
    Step (s, l) (.close fl) (s', l.closed ((fl.bind s.handle).bind VFile.mount))
  | read {s s' : Vfs} {l : Ledger} {fl : Ptr} {sz : Nat} {r : Option Reading} :
    readFile code fl sz s = .ok (r, s') → Step (s, l) (.read fl sz) (s', l)
  | other {s : Vfs} {l : Ledger} {heap : Kmalloc.Heap} :
    s.heap.next ≤ heap.next → Step (s, l) (.other heap) ({ s with heap }, l)

end Steps

-- How many handles of a file are open, and how many on a mount.
def openOf (s : Vfs) (file : Ptr) : Nat :=
  s.handles.countP (·.2.file = file)

def openOn (s : Vfs) (mnt : Ptr) : Nat :=
  s.handles.countP (·.2.mount = some mnt)

structure CountsRight (s : Vfs) : Prop where
  files {p : Ptr} {file : VfsFile} : s.files p = some file → file.references = s.openOf p
  mounts {p : Ptr} {mnt : VfsMountpoint} : s.mounts p = some mnt → mnt.references = s.openOn p

-- The counts have room, and a mount's closed handles happen to make up for what was left over.
structure CountsFit (s : Vfs) (l : Ledger) : Prop where
  files {p : Ptr} : s.files p ≠ none → s.openOf p < 2 ^ 16
  mounts {p : Ptr} : s.mounts p ≠ none →
    s.openOn p < 2 ^ 16 ∧ (l.leftover p + l.closes p) % 2 ^ 16 = 0

-- What the counts really are.
structure Inv (s : Vfs) (l : Ledger) : Prop where
  fresh {p : Ptr} : s.heap.next ≤ p → s.files p = none ∧ s.mounts p = none
  known {h : Ptr × VFile} : h ∈ s.handles → s.files h.2.file ≠ none ∧ ∀ m ∈ h.2.mount, s.mounts m ≠ none
  files {p : Ptr} {file : VfsFile} : s.files p = some file → file.references = s.openOf p % 2 ^ 16
  mounts {p : Ptr} {mnt : VfsMountpoint} : s.mounts p = some mnt →
    mnt.references = (l.leftover p + l.closes p + s.openOn p) % 2 ^ 16

variable {leftover : Bytes → Nat → Hashtable.Bucket} {memcpy : Memcpy} {fuel : Nat}
variable {code : Word → Option Driver} {s s' : Vfs} {l l' : Ledger} {p mnt fl : Ptr} {handle : VFile}

theorem Inv.openOf_fresh (hi : Inv s l) (hp : s.heap.next ≤ p) : s.openOf p = 0 := by
  apply List.countP_eq_zero.mpr
  intro h hh he
  exact (hi.known hh).left (of_decide_eq_true he ▸ (hi.fresh hp).left)

theorem Inv.openOn_fresh (hi : Inv s l) (hp : s.heap.next ≤ p) : s.openOn p = 0 := by
  apply List.countP_eq_zero.mpr
  intro h hh he
  exact (hi.known hh).right p (of_decide_eq_true he) (hi.fresh hp).right

-- An update of a structure that was there already, or of the next new one.
theorem update_ne_none {α : Type} {f : Ptr → Option α} {x : α} (h : f p ≠ none) :
    update f mnt (some x) p ≠ none := by
  rw [Function.update_apply]
  split
  case isTrue  => exact Option.some_ne_none x
  case isFalse => exact h

theorem Inv.mount {m : VfsMountpoint} (hi : Inv s l) (hm : Mounted s mnt m s') :
    Inv s' (l.mounted mnt (load (s.heap.mem mnt) offsetReferences 2)) where
  fresh hp := by
    have hlt := Nat.lt_of_lt_of_le hm.next hp
    rw [hm.files, hm.mounts, hm.ptr, update_of_ne (Nat.ne_of_gt hlt)]
    exact hi.fresh (Nat.le_of_lt hlt)
  known hh := by
    rw [hm.handles] at hh
    rw [hm.files, hm.mounts]
    exact ⟨(hi.known hh).left, fun p hp => update_ne_none ((hi.known hh).right p hp)⟩
  files hf := by
    rw [hm.files] at hf
    rw [openOf, hm.handles]
    exact hi.files hf
  mounts {p m'} hp := by
    have hopen : s'.openOn p = s.openOn p := by rw [openOn, hm.handles, openOn]
    rw [hm.mounts] at hp
    rw [hopen]
    by_cases h : p = mnt
    case pos =>
      subst h
      cases (Option.some.inj (update_self (f := s.mounts) .. ▸ hp))
      simp only [Ledger.mounted, update_self, hi.openOn_fresh (Nat.le_of_eq hm.ptr.symm), hm.references]
      exact (Nat.mod_eq_of_lt load_lt).symm
    case neg =>
      rw [update_of_ne h] at hp
      simp only [Ledger.mounted, update_of_ne h]
      exact hi.mounts hp

theorem Inv.add (hi : Inv s l) (ha : FileAdded s mnt s') : Inv s' l := by
  obtain ⟨f, hf, h0⟩ := ha.files
  have hmounts {p : Ptr} {m : VfsMountpoint} (hp : s'.mounts p = some m) :
      ∃ m₀, s.mounts p = some m₀ ∧ m.references = m₀.references := by
    rcases ha.mounts with h | ⟨m₀, table, hm₀, h⟩
    · exact ⟨m, h ▸ hp, rfl⟩
    · rw [h, Function.update_apply] at hp
      split at hp
      case isTrue he =>
        cases hp
        exact ⟨m₀, he ▸ hm₀, rfl⟩
      case isFalse => exact ⟨m, hp, rfl⟩
  have hkept {p : Ptr} (hp : s.mounts p ≠ none) : s'.mounts p ≠ none := by
    rcases ha.mounts with h | ⟨m₀, table, hm₀, h⟩
    · rwa [h]
    · rw [h]
      exact update_ne_none hp
  constructor
  case fresh =>
    intro p hp
    have hlt := Nat.lt_of_lt_of_le ha.next hp
    constructor
    · rw [hf, update_of_ne (Nat.ne_of_gt hlt)]
      exact (hi.fresh (Nat.le_of_lt hlt)).left
    · by_contra hm
      obtain ⟨m, hm⟩ := Option.ne_none_iff_exists'.mp hm
      obtain ⟨m₀, hm₀, _⟩ := hmounts hm
      rw [(hi.fresh (Nat.le_of_lt hlt)).right] at hm₀
      cases hm₀
  case known =>
    intro h hh
    rw [ha.handles] at hh
    rw [hf]
    exact ⟨update_ne_none (hi.known hh).left, fun p hp => hkept ((hi.known hh).right p hp)⟩
  case files =>
    intro p file hp
    have hopen : s'.openOf p = s.openOf p := by rw [openOf, ha.handles, openOf]
    rw [hf, Function.update_apply] at hp
    rw [hopen]
    split at hp
    case isTrue he =>
      cases hp
      rw [hi.openOf_fresh (Nat.le_of_eq he.symm), h0]
      rfl
    case isFalse => exact hi.files hp
  case mounts =>
    intro p m hp
    obtain ⟨m₀, hm₀, hr⟩ := hmounts hp
    have hopen : s'.openOn p = s.openOn p := by rw [openOn, ha.handles, openOn]
    rw [hr, hi.mounts hm₀, hopen]

theorem openOf_opened (h : s'.handles = (fl, handle) :: s.handles) :
    s'.openOf p = s.openOf p + if handle.file = p then 1 else 0 := by
  simp [openOf, h, List.countP_cons]

theorem openOn_opened (h : s'.handles = (fl, handle) :: s.handles) :
    s'.openOn p = s.openOn p + if handle.mount = some p then 1 else 0 := by
  simp [openOn, h, List.countP_cons]

theorem retain_references {n : Nat} {file : VfsFile} (h : file.references = n % 2 ^ 16) :
    file.retain.references = (n + 1) % 2 ^ 16 := by
  simp only [VfsFile.retain, u16, h]
  omega

theorem release_references {n : Nat} {file : VfsFile} (h : file.references = (n + 1) % 2 ^ 16) :
    file.release.references = n % 2 ^ 16 := by
  simp only [VfsFile.release, u16, h]
  omega

theorem retain_mount {n : Nat} {m : VfsMountpoint} (h : m.references = n % 2 ^ 16) :
    m.retain.references = (n + 1) % 2 ^ 16 := by
  simp only [VfsMountpoint.retain, u16, h]
  omega

-- A structure that was there is replaced.
theorem update_eq_none_iff {α : Type} {f : Ptr → Option α} {x y : α} (h : f mnt = some x) :
    update f mnt (some y) p = none ↔ f p = none := by
  rw [Function.update_apply]
  split
  case isTrue he  => simp [he, h]
  case isFalse he => exact Iff.rfl

theorem Opened.files_none (ho : Opened s fl handle s') : s'.files p = none ↔ s.files p = none := by
  obtain ⟨file, hf, hfiles⟩ := ho.files
  rw [hfiles]
  exact update_eq_none_iff hf

theorem Opened.mounts_none (ho : Opened s fl handle s') : s'.mounts p = none ↔ s.mounts p = none := by
  have hm := ho.mounts
  split at hm
  case h_1 => rw [hm]
  case h_2 =>
    obtain ⟨m, hf, hmounts⟩ := hm
    rw [hmounts]
    exact update_eq_none_iff hf

theorem Opened.mount_ne_none (ho : Opened s fl handle s') (h : handle.mount = some p) :
    s.mounts p ≠ none := by
  have hm := ho.mounts
  simp only [h] at hm
  obtain ⟨m, hf, _⟩ := hm
  simp [hf]

theorem Inv.open_mounts (hi : Inv s l) (ho : Opened s fl handle s') {m : VfsMountpoint}
    (hp : s'.mounts p = some m) :
    m.references = (l.leftover p + l.closes p + s'.openOn p) % 2 ^ 16 := by
  have hm := ho.mounts
  rw [openOn_opened ho.handles]
  split at hm
  case h_1 hh =>
    rw [hm] at hp
    simp only [hh, reduceCtorEq, if_false, Nat.add_zero]
    exact hi.mounts hp
  case h_2 q hh =>
    obtain ⟨m₀, hm₀, hmounts⟩ := hm
    rw [hmounts, Function.update_apply] at hp
    split at hp
    case isTrue he =>
      cases hp
      simp only [hh, he, if_true]
      exact retain_mount (hi.mounts hm₀)
    case isFalse hne =>
      simp only [hh, Option.some.injEq, Ne.symm hne, if_false, Nat.add_zero]
      exact hi.mounts hp

theorem Inv.open (hi : Inv s l) (ho : Opened s fl handle s') : Inv s' l := by
  obtain ⟨file, hfile, hfiles⟩ := ho.files
  constructor
  case fresh =>
    intro p hp
    have hlt := Nat.lt_of_lt_of_le ho.next hp
    rw [ho.files_none, ho.mounts_none]
    exact hi.fresh (Nat.le_of_lt hlt)
  case known =>
    intro h hh
    simp only [ne_eq, ho.files_none, ho.mounts_none]
    rw [ho.handles, List.mem_cons] at hh
    rcases hh with rfl | hh
    · exact ⟨by simp [hfile], fun p hp => ho.mount_ne_none hp⟩
    · exact hi.known hh
  case files =>
    intro p f hp
    rw [openOf_opened ho.handles]
    rw [hfiles, Function.update_apply] at hp
    split at hp
    case isTrue he =>
      cases hp
      rw [if_pos he.symm, he]
      exact retain_references (hi.files hfile)
    case isFalse hne =>
      rw [if_neg (Ne.symm hne), Nat.add_zero]
      exact hi.files hp
  case mounts =>
    intro p m hp
    exact hi.open_mounts ho hp

section Lookup

variable {handles : List (Ptr × VFile)} {q : VFile → Bool}

-- The handle that is looked up is the one that is dropped or replaced.
theorem countP_eraseP (h : handles.find? (·.1 = fl) = some (p, handle)) :
    (handles.eraseP (·.1 = fl)).countP (fun h => q h.2) + (if q handle then 1 else 0) =
      handles.countP (fun h => q h.2) := by
  induction handles
  case nil => cases h
  case cons x handles hi =>
    rw [List.find?_cons] at h
    split at h
    case h_1 hx =>
      cases h
      simp [hx, List.countP_cons]
    case h_2 hx =>
      have hc := hi h
      simp only [List.eraseP_cons, hx, List.countP_cons] at hc ⊢
      simp only [cond_false, List.countP_cons]
      omega

theorem countP_replaceHandle {handle' : VFile} (h : handles.find? (·.1 = fl) = some (p, handle))
    (hq : q handle' = q handle) :
    (replaceHandle fl handle' handles).countP (fun h => q h.2) = handles.countP (fun h => q h.2) := by
  induction handles
  case nil => cases h
  case cons x handles hi =>
    rw [List.find?_cons] at h
    split at h
    case h_1 hx =>
      cases h
      have he : p = fl := of_decide_eq_true hx
      simp [replaceHandle, he, List.countP_cons, hq]
    case h_2 hx =>
      simp [replaceHandle, of_decide_eq_false hx, List.countP_cons, hi h]

end Lookup

theorem handle_eq_some (h : s.handle fl = some handle) :
    ∃ p, s.handles.find? (·.1 = fl) = some (p, handle) := by
  obtain ⟨⟨p, _⟩, hf, rfl⟩ := Option.map_eq_some_iff.mp h
  exact ⟨p, hf⟩

theorem handle_mem (h : s.handle fl = some handle) : ∃ p, (p, handle) ∈ s.handles := by
  obtain ⟨p, hf⟩ := handle_eq_some h
  exact ⟨p, List.mem_of_find?_eq_some hf⟩

theorem openOf_closed (hc : Closed s fl handle s') :
    s'.openOf p + (if handle.file = p then 1 else 0) = s.openOf p := by
  obtain ⟨q, hf⟩ := handle_eq_some hc.found
  have h := countP_eraseP (q := fun h => h.file = p) hf
  simpa [openOf, hc.handles, dropHandle] using h

theorem openOn_closed (hc : Closed s fl handle s') :
    s'.openOn p + (if handle.mount = some p then 1 else 0) = s.openOn p := by
  obtain ⟨q, hf⟩ := handle_eq_some hc.found
  have h := countP_eraseP (q := fun h => h.mount = some p) hf
  simpa [openOn, hc.handles, dropHandle] using h

theorem Inv.close (hi : Inv s l) (hc : Closed s fl handle s') : Inv s' (l.closed handle.mount) := by
  obtain ⟨file, hfile, hfiles⟩ := hc.files
  have hnone {p : Ptr} : s'.files p = none ↔ s.files p = none := by
    rw [hfiles]
    exact update_eq_none_iff hfile
  constructor
  case fresh =>
    intro p hp
    rw [hc.next] at hp
    rw [hnone, hc.mounts]
    exact hi.fresh hp
  case known =>
    intro h hh
    rw [hc.handles] at hh
    simp only [ne_eq, hnone, hc.mounts]
    exact hi.known (List.mem_of_mem_eraseP hh)
  case files =>
    intro p f hp
    have hopen := @openOf_closed s s' p fl handle hc
    rw [hfiles, Function.update_apply] at hp
    split at hp
    case isTrue he =>
      cases hp
      subst he
      rw [if_pos rfl] at hopen
      exact release_references (hopen ▸ hi.files hfile)
    case isFalse hne =>
      rw [if_neg (Ne.symm hne), Nat.add_zero] at hopen
      exact hopen ▸ hi.files hp
  case mounts =>
    intro p m hp
    have hopen := @openOn_closed s s' p fl handle hc
    rw [hc.mounts] at hp
    rw [hi.mounts hp, ← hopen]
    simp only [Ledger.closed]
    split
    case isTrue  => congr 1; omega
    case isFalse => rfl

-- Only the offset of the handle is changed.
structure WasRead (s : Vfs) (fl : Ptr) (s' : Vfs) : Prop where
  handles : s'.handles = s.handles ∨ ∃ handle offset, s.handle fl = some handle ∧
    s'.handles = replaceHandle fl { handle with fileOffset := offset } s.handles
  rest    : s' = { s with handles := s'.handles }

theorem readFile_cases {sz : Nat} {r : Option Reading} (hk : readFile code fl sz s = .ok (r, s')) :
    WasRead s fl s' := by
  unfold readFile at hk
  split at hk
  case h_1 => cases hk
  case h_2 handle hh =>
    split at hk
    case h_1 =>
      cases hk
      exact ⟨.inl rfl, rfl⟩
    case h_2 mnt _ =>
      split at hk
      case h_2 => cases hk
      case h_1 =>
        split at hk
        case h_1 => cases hk
        case h_2 =>
          cases hk
          exact ⟨.inr ⟨handle, _, hh, rfl⟩, rfl⟩

theorem mem_replaceHandle {h : Ptr × VFile} {handles : List (Ptr × VFile)}
    (hm : h ∈ replaceHandle fl handle handles) : h = (fl, handle) ∨ h ∈ handles := by
  induction handles
  case nil => cases hm
  case cons x handles hi =>
    rw [replaceHandle] at hm
    split at hm
    case isTrue =>
      rcases List.mem_cons.mp hm with h | h
      · exact .inl h
      · exact .inr (List.mem_cons_of_mem _ h)
    case isFalse =>
      rcases List.mem_cons.mp hm with h | h
      · exact .inr (h ▸ List.mem_cons_self)
      · exact (hi h).imp id (List.mem_cons_of_mem _)

theorem Inv.read (hi : Inv s l) (hr : WasRead s fl s') : Inv s' l := by
  obtain ⟨handles, hrest⟩ := hr
  rw [hrest]
  rcases handles with h | ⟨handle, offset, hh, h⟩
  · rw [h]
    exact hi
  · obtain ⟨q, hf⟩ := handle_eq_some hh
    obtain ⟨p, hmem⟩ := handle_mem hh
    have hof (p : Ptr) : openOf { s with handles := s'.handles } p = s.openOf p := by
      rw [openOf, h]
      exact countP_replaceHandle (q := fun h => h.file = p) hf rfl
    have hon (p : Ptr) : openOn { s with handles := s'.handles } p = s.openOn p := by
      rw [openOn, h]
      exact countP_replaceHandle (q := fun h => h.mount = some p) hf rfl
    constructor
    case fresh => exact hi.fresh
    case known =>
      intro x hx
      rcases mem_replaceHandle (h ▸ hx) with rfl | hx
      · have hk := hi.known hmem
        exact hk
      · exact hi.known hx
    case files =>
      intro p f hp
      rw [hof]
      exact hi.files hp
    case mounts =>
      intro p m hp
      rw [hon]
      exact hi.mounts hp

theorem Inv.step {op : Op} (hi : Inv s l)
    (h : Step leftover memcpy fuel code (s, l) op (s', l')) : Inv s' l' := by
  cases h
  case mount h =>
    obtain ⟨m, hm⟩ := mountVFS_cases h
    exact hi.mount hm
  case add h => exact hi.add (addVFSFile_cases h)
  case «open» h =>
    rcases openFile_cases h with ⟨_, rfl, _⟩ | ⟨fl, handle, _, ho, _⟩
    · exact hi
    · exact hi.open ho
  case close h =>
    rcases closeFile_cases h with ⟨rfl, rfl⟩ | ⟨fl, handle, rfl, hc⟩
    · exact hi
    · simp only [Option.bind_some, hc.found]
      exact hi.close hc
  case read h => exact hi.read (readFile_cases h)
  case other h => exact ⟨fun hp => hi.fresh (Nat.le_trans h hp), hi.known, hi.files, hi.mounts⟩

theorem Inv.fits_iff (hi : Inv s l) : CountsRight s ↔ CountsFit s l := by
  constructor
  · intro hr
    constructor
    case files =>
      intro p hp
      obtain ⟨file, hf⟩ := Option.ne_none_iff_exists'.mp hp
      have h := hi.files hf
      rw [hr.files hf] at h
      omega
    case mounts =>
      intro p hp
      obtain ⟨m, hm⟩ := Option.ne_none_iff_exists'.mp hp
      have h := hi.mounts hm
      rw [hr.mounts hm] at h
      omega
  · intro hf
    constructor
    case files =>
      intro p file hp
      rw [hi.files hp, Nat.mod_eq_of_lt (hf.files (by simp [hp]))]
    case mounts =>
      intro p m hp
      obtain ⟨hlt, hz⟩ := hf.mounts (by simp [hp] : s.mounts p ≠ none)
      rw [hi.mounts hp]
      omega

-- The file system as `initVFS` leaves it: nothing is mounted yet.
structure Unused (s : Vfs) : Prop where
  mounts  : ∀ p, s.mounts p = none
  files   : ∀ p, s.files p = none
  handles : s.handles = []

theorem Unused.inv (hs : Unused s) (l : Ledger) : Inv s l where
  fresh _   := ⟨hs.files _, hs.mounts _⟩
  known hh  := by simp [hs.handles] at hh
  files hf  := by simp [hs.files] at hf
  mounts hm := by simp [hs.mounts] at hm

-- In every state of a run, the counts are right exactly when they fit.
theorem references_right_iff {l₀ : Ledger} {s₀ : Vfs} (hs : Unused s₀)
    (run : Steps (Step leftover memcpy fuel code) (fun _ _ => True) (s₀, l₀) (s, l)) :
    CountsRight s ↔ CountsFit s l := by
  have hi : Inv s l := run.invariant (I := fun t => Inv t.1 t.2) (hs.inv l₀) fun hi _ h => hi.step h
  exact hi.fits_iff

section Examples

def unusedBucket : Hashtable.Bucket where
  head  := { hash := none, hashLen := 0, flags := 0, data := 0 }
  chain := []

-- `R` at 0, `a` at 1 and `/R/a` from 2 on. The first new block has a 7 where a mount's driver is, and
-- all other memory is zero.
def exampleMem (p i : Nat) : BitVec 8 :=
  if p = 0 then [0x52].getD i 0
  else if p = 1 then [0x61].getD i 0
  else if p = 100 then if i = offsetMfread then 7 else 0
  else [0x2F, 0x52, 0x2F, 0x61].getD (p - 2 + i) 0

def unusedVfs : Vfs where
  heap     := { mem := exampleMem, blocks := fun _ => none, free := fun _ => 0, next := 100, lock := false }
  children := { bucketCount := 200, buckets := fun _ => unusedBucket }
  mounts   := fun _ => none
  files    := fun _ => none
  handles  := []

-- The state after a call, for a call that returns.
def after (x : Except Exit Vfs) : Vfs :=
  x.toOption.getD unusedVfs

-- `R` is mounted, `a` is added, `/R/a` is opened, and closed again.
def oneMount : Vfs :=
  after ((mountVFS (fun _ _ => unusedBucket) (fun d _ _ => d) 0 1 0 0 7 unusedVfs).map Prod.snd)
def oneFile : Vfs := after ((addVFSFile (fun d _ _ => d) 10 100 1 0 3 0 oneMount).map Prod.snd)
def oneHandle : Vfs := after ((openFile 10 (2 + ·) oneFile).map Prod.snd)
def noHandle : Vfs := after (closeFile (some 104) oneHandle)

theorem unused_unusedVfs : Unused unusedVfs :=
  ⟨fun _ => rfl, fun _ => rfl, rfl⟩

def noLedger : Ledger := ⟨fun _ => 0, fun _ => 0⟩

theorem oneHandle_steps : Steps (Step (fun _ _ => unusedBucket) (fun d _ _ => d) 10 fun _ => none)
    (fun _ _ => True) (unusedVfs, noLedger) (oneHandle, noLedger.mounted 100 0) := by
  have hm : mountVFS (fun _ _ => unusedBucket) (fun d _ _ => d) 0 1 0 0 7 unusedVfs = .ok (100, oneMount) := by rfl
  have ha : addVFSFile (fun d _ _ => d) 10 100 1 0 3 0 oneMount = .ok (true, oneFile) := by rfl
  have ho : openFile 10 (2 + ·) oneFile = .ok (some 104, oneHandle) := by rfl
  exact (((Steps.refl _).step trivial (.mount hm)).step trivial (.add ha)).step trivial (.open ho)

theorem references_right_oneHandle : CountsRight oneHandle := by
  apply (references_right_iff unused_unusedVfs oneHandle_steps).mpr
  have hlen : oneHandle.handles.length < 2 ^ 16 := by decide
  constructor
  case files =>
    intro p _
    exact Nat.lt_of_le_of_lt List.countP_le_length hlen
  case mounts =>
    intro p _
    refine ⟨Nat.lt_of_le_of_lt List.countP_le_length hlen, ?_⟩
    simp [Ledger.mounted, noLedger]

-- The mount still has a reference when its only handle has been closed.
theorem references_stay : ¬∀ (leftover : Bytes → Nat → Hashtable.Bucket) (memcpy : Memcpy) (fuel : Nat)
    (code : Word → Option Driver) (s₀ s : Vfs) (l₀ l : Ledger), Unused s₀ →
    Steps (Step leftover memcpy fuel code) (fun _ _ => True) (s₀, l₀) (s, l) → CountsRight s := by
  intro h
  have hc : closeFile (some 104) oneHandle = .ok noHandle := by rfl
  have hr := h _ _ _ _ _ _ _ _ unused_unusedVfs (oneHandle_steps.step trivial (.close hc))
  have hm : (noHandle.mounts 100).map VfsMountpoint.references = some 1 := by rfl
  obtain ⟨m, hm, hone⟩ := Option.map_eq_some_iff.mp hm
  have hzero : noHandle.openOn 100 = 0 := by decide
  rw [hr.mounts hm, hzero] at hone
  cases hone

end Examples

end RoverOS.Vfs
