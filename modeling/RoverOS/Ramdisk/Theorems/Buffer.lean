import RoverOS.Ramdisk.Theorems.Writer

-- The buffer that `addFile` writes the base name of a path to.

namespace RoverOS.Ramdisk

variable {fp dir name : List Byte} {sep : Byte} {sl : Nat} {w : Writer} {file : File}

-- The bytes that `malloc` is asked for, and the bytes that `sprintf` writes.
def nameBuffer (fp : List Byte) : Except Exit (Nat × List Byte) := do
  let sl ← findSeparator fp fp.length
  let sl := sl + 1
  return (sl + 1, fp.drop sl ++ [0#8])

theorem addFile_nameBuffer : addFile w file = do
    let (allocated, written) ← nameBuffer file.path
    if written.length > allocated then .error .fault else
      return { files := u16 (w.files + 1), disk := w.disk ++ record written.dropLast file.contents } := by
  simp only [addFile, nameBuffer]
  cases hs : findSeparator file.path file.path.length
  case error => rfl
  case ok sl => simp [bind, Except.bind, pure, Except.pure]

def Fits (fp : List Byte) : Prop :=
  ∃ allocated written, nameBuffer fp = .ok (allocated, written) ∧ written.length ≤ allocated

-- The base name is behind the last separator.
structure BaseName (fp dir : List Byte) (sep : Byte) (name : List Byte) : Prop where
  path  : fp = dir ++ sep :: name
  isSep : IsSeparator sep
  none  : ∀ b ∈ name, ¬IsSeparator b

theorem BaseName.findSeparator (h : BaseName fp dir sep name) :
    findSeparator fp fp.length = .ok dir.length := by
  have hlen : fp.length = dir.length + (name.length + 1) := by
    rw [h.path, List.length_append, List.length_cons]
  have hsep : IsSeparator (fp.getD dir.length 0) := by
    simpa [h.path] using h.isSep
  have hle : dir.length ≤ fp.length := by omega
  obtain ⟨sl, hs⟩ := findSeparator_finds hle hsep
  obtain ⟨hsl, hlast⟩ := findSeparator_last hs
  rw [hs]
  rcases Nat.lt_trichotomy sl dir.length with hlt | rfl | hgt
  · exact absurd hsep (hlast dir.length hlt (by omega))
  · rfl
  -- A separator behind this one would be in the name.
  · have hin := getD_separator hsl
    obtain ⟨i, rfl⟩ := Nat.exists_eq_add_of_lt hgt
    have hi : i < name.length := by omega
    have hget : fp.getD (dir.length + i + 1) 0 = name[i] := by
      rw [h.path, Nat.add_assoc, List.getD_append_right _ _ _ _ (by omega)]
      simp [hi]
    rw [hget] at hsl
    exact absurd hsl (h.none _ (List.getElem_mem hi))

theorem exists_baseName (h : ∃ b ∈ fp, IsSeparator b) : ∃ dir sep name, BaseName fp dir sep name := by
  induction fp
  case nil =>
    obtain ⟨b, hb, _⟩ := h
    cases hb
  case cons c fp hi =>
    by_cases hrest : ∃ b ∈ fp, IsSeparator b
    case pos =>
      obtain ⟨dir, sep, name, hp, hs, hn⟩ := hi hrest
      exact ⟨c :: dir, sep, name, by rw [hp, List.cons_append], hs, hn⟩
    case neg =>
      obtain ⟨b, hb, hs⟩ := h
      rcases List.mem_cons.mp hb with rfl | hb
      · exact ⟨[], b, fp, rfl, hs, fun b hb hs => hrest ⟨b, hb, hs⟩⟩
      · exact absurd ⟨b, hb, hs⟩ hrest

-- The buffer is as long as what is before the base name.
theorem BaseName.fits_iff (h : BaseName fp dir sep name) : Fits fp ↔ name.length ≤ dir.length + 1 := by
  have hb : nameBuffer fp = .ok (dir.length + 2, name ++ [0#8]) := by
    simp only [nameBuffer, h.findSeparator]
    simp [h.path, bind, Except.bind, pure, Except.pure]
  constructor
  case mp =>
    rintro ⟨allocated, written, hn, hle⟩
    cases hb.symm.trans hn
    simpa using hle
  case mpr =>
    intro hle
    exact ⟨_, _, hb, by simpa using hle⟩

theorem nameBuffer_fits_iff (h : ∃ b ∈ fp, IsSeparator b) : Fits fp ↔
    ∃ dir sep name, BaseName fp dir sep name ∧ name.length ≤ dir.length + 1 := by
  constructor
  case mp =>
    intro hf
    obtain ⟨dir, sep, name, hn⟩ := exists_baseName h
    exact ⟨dir, sep, name, hn, hn.fits_iff.mp hf⟩
  case mpr =>
    rintro ⟨dir, sep, name, hn, hle⟩
    exact hn.fits_iff.mpr hle

-- `./a`
theorem nameBuffer_fits_short : Fits [0x2E, slash, 0x61] := by
  apply (nameBuffer_fits_iff ⟨slash, by simp, .inr rfl⟩).mpr
  exact ⟨[0x2E], slash, [0x61], ⟨rfl, .inr rfl, by decide⟩, by decide⟩

-- `./abc`: 3 bytes are allocated, and 4 are written.
theorem nameBuffer_overflows : ¬∀ fp : List Byte, (∃ b ∈ fp, IsSeparator b) → Fits fp := by
  intro h
  have hn : BaseName [0x2E, slash, 0x61, 0x62, 0x63] [0x2E] slash [0x61, 0x62, 0x63] :=
    ⟨rfl, .inr rfl, by decide⟩
  exact absurd (hn.fits_iff.mp (h _ ⟨slash, by simp, .inr rfl⟩)) (by decide)

end RoverOS.Ramdisk
