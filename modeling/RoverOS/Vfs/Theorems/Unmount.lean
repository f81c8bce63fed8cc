import RoverOS.Vfs.Theorems.Counts
import RoverOS.Vfs.Devices

-- Whether a mount can be undone, after any run of the file system.

open Run (Steps)

namespace RoverOS.VfsGlobals

open Kmalloc Vfs

inductive Call
  | op (op : Vfs.Op)
  | seek (fl : Ptr) (offset seek : Nat)
  | unmount (mnt : Ptr)

section Steps

variable (leftover : Bytes → Nat → Hashtable.Bucket) (memcpy : Memcpy) (fuel : Nat)
variable (code : Word → Option Driver) (element : Nat → Ptr) (tables : Ptr → Option Ptr × Option Ptr)

-- Only `unmountVFS` has to do with the array.
inductive Step : VfsGlobals → Call → VfsGlobals → Prop
  | op {g : VfsGlobals} {op : Vfs.Op} {s : Vfs} {l l' : Ledger} :
    Vfs.Step leftover memcpy fuel code (g.vfs, l) op (s, l') → Step g (.op op) { g with vfs := s }
  | seek {g : VfsGlobals} {fl : Ptr} {offset seek r : Nat} {s : Vfs} :
    fileSeek fl offset seek g.vfs = .ok (r, s) → Step g (.seek fl offset seek) { g with vfs := s }
  | unmount {g g' : VfsGlobals} {mnt : Ptr} {r : Bool} :
    unmountVFS element tables mnt g = .ok (r, g') → Step g (.unmount mnt) g'

end Steps

variable {leftover : Bytes → Nat → Hashtable.Bucket} {memcpy : Memcpy} {fuel : Nat}
variable {code : Word → Option Driver} {element : Nat → Ptr} {tables : Ptr → Option Ptr × Option Ptr}
variable {g g' g₀ g₁ : VfsGlobals} {c : Call} {mnt : Ptr}

-- No path leads to the mount or through it.
def Unreachable (mnt : Ptr) (s : Vfs) : Prop :=
  ∀ fuel path header through, parsePath fuel path s = .ok (header, through) → header ≠ some mnt ∧ through ≠ some mnt

-- Every path that leads elsewhere still does.
def OthersReachable (mnt : Ptr) (s s' : Vfs) : Prop :=
  ∀ fuel path header through, parsePath fuel path s = .ok (some header, through) → header ≠ mnt →
    through ≠ some mnt → parsePath fuel path s' = .ok (some header, through)

-- The mount is undone, once.
def Undone (element : Nat → Ptr) (tables : Ptr → Option Ptr × Option Ptr) (mnt : Ptr) (g : VfsGlobals) : Prop :=
  ∃ g', unmountVFS element tables mnt g = .ok (true, g') ∧ Unreachable mnt g'.vfs ∧
    OthersReachable mnt g.vfs g'.vfs ∧ ∃ g'', unmountVFS element tables mnt g' = .ok (false, g'')

theorem unmountVFS_empty (h : g.devices = 0) : unmountVFS element tables mnt g = .ok (false, g) := by
  rw [unmountVFS, h]
  rfl

theorem initVFS_devices (h : initVFS leftover g = .ok g') : g'.devices = 0 := by
  simp only [initVFS, Except.bind_ok_iff] at h
  obtain ⟨_, _, _, _, h⟩ := h
  cases h
  rfl

-- No device is ever counted.
theorem Step.devices (h0 : g.devices = 0) (h : Step leftover memcpy fuel code element tables g c g') :
    g'.devices = 0 := by
  cases h
  case op           => exact h0
  case seek         => exact h0
  case unmount _ hu =>
    cases (unmountVFS_empty h0).symm.trans hu
    exact h0

theorem devices_of_steps (h0 : initVFS leftover g₀ = .ok g₁)
    (run : Steps (Step leftover memcpy fuel code element tables) (fun _ _ => True) g₁ g) : g.devices = 0 :=
  run.invariant (I := fun g => g.devices = 0) (initVFS_devices h0) fun h0 _ hs => hs.devices h0

-- Whatever has been mounted, the array is searched for nothing.
theorem unmountVFS_never_undone (h0 : initVFS leftover g₀ = .ok g₁)
    (run : Steps (Step leftover memcpy fuel code element tables) (fun _ _ => True) g₁ g) (mnt : Ptr) :
    unmountVFS element tables mnt g = .ok (false, g) ∧ ¬Undone element tables mnt g := by
  have hu : unmountVFS element tables mnt g = .ok (false, g) := unmountVFS_empty (devices_of_steps h0 run)
  refine ⟨hu, ?_⟩
  rintro ⟨g', h, _⟩
  cases hu.symm.trans h

section Examples

def unusedGlobals : VfsGlobals where
  vfs     := unusedVfs
  mount   := none
  slots   := 0
  devices := 0

def startGlobals : VfsGlobals :=
  (initVFS (fun _ _ => unusedBucket) unusedGlobals).toOption.getD unusedGlobals

def mountedVfs : Vfs :=
  after ((mountVFS (fun _ _ => unusedBucket) (fun d _ _ => d) 0 1 0 0 7 startGlobals.vfs).map Prod.snd)

theorem startGlobals_init : initVFS (fun _ _ => unusedBucket) unusedGlobals = .ok startGlobals := by rfl

theorem mountedVfs_mount :
    mountVFS (fun _ _ => unusedBucket) (fun d _ _ => d) 0 1 0 0 7 startGlobals.vfs = .ok (103, mountedVfs) := by rfl

theorem mountedVfs_steps (element : Nat → Ptr) (tables : Ptr → Option Ptr × Option Ptr) :
    Steps (Step (fun _ _ => unusedBucket) (fun d _ _ => d) 10 (fun _ => none) element tables) (fun _ _ => True)
      startGlobals { startGlobals with vfs := mountedVfs } :=
  (Steps.refl _).step trivial (.op (l := noLedger) (.mount mountedVfs_mount))

theorem unmountVFS_never_undone_mounted :
    unmountVFS (fun i => 200 + i) (fun _ => (some 104, some 105)) 103 { startGlobals with vfs := mountedVfs } =
      .ok (false, { startGlobals with vfs := mountedVfs }) ∧
    ¬Undone (fun i => 200 + i) (fun _ => (some 104, some 105)) 103 { startGlobals with vfs := mountedVfs } :=
  unmountVFS_never_undone startGlobals_init (mountedVfs_steps _ _) 103

-- One device is mounted after the file system has been initialized.
theorem mount_not_undone : ¬∀ (leftover : Bytes → Nat → Hashtable.Bucket) (memcpy : Memcpy) (fuel : Nat)
    (code : Word → Option Driver) (element : Nat → Ptr) (tables : Ptr → Option Ptr × Option Ptr)
    (g₀ g₁ g : VfsGlobals) (type childCount flags : Nat) (letter mnt : Ptr) (mfread : Word) (s : Vfs),
    initVFS leftover g₀ = .ok g₁ →
    Steps (Step leftover memcpy fuel code element tables) (fun _ _ => True) g₁ g →
    mountVFS leftover memcpy type childCount letter flags mfread g.vfs = .ok (mnt, s) →
    Undone element tables mnt { g with vfs := s } := by
  intro h
  obtain ⟨g', hu, _⟩ := h _ _ 10 (fun _ => none) (fun i => 200 + i) (fun _ => (some 104, some 105)) _ _ _ _ _ _ _ _ _ _
    startGlobals_init (.refl _) mountedVfs_mount
  rw [unmountVFS_empty (by rfl)] at hu
  cases hu

end Examples

end RoverOS.VfsGlobals
