import RoverOS.Vfs.Theorems.Names

-- When the paths lead to the files that were added, and to nothing else.

open Function (update update_self update_of_ne)

namespace RoverOS.Vfs

open Kmalloc Hashtable

variable {leftover : Bytes → Nat → Hashtable.Bucket} {memcpy : Memcpy} {fuel : Nat}
variable {ms : List (Ptr × BitVec 8)} {es : List Entry} {s s' : Vfs} {mnt : Ptr} {e : Entry}

section NoFiles

theorem Queried.slash_first {heap : Kmalloc.Heap} {path : Nat → Ptr} {letter : BitVec 8} {name : Name}
    (hq : Queried s heap path letter name) : heap.mem (path 0) 0 = slash :=
  hq.text 0 (Nat.zero_le _) 0 (Nat.zero_le _)

theorem nameSpace_of_empty (hi : NamesInv ms [] s) (hb : s.heap.next ≤ 2 ^ 64) (hf : 2 ^ 32 < fuel) :
    NameSpace fuel s [] where
  found he  := by cases he
  absent {letter name heap path} _ _ hq := by
    have hsorted : Sorted { s with heap } := by
      have hs := hi.sorted hb
      exact ⟨hs.mounts, hs.files, hs.root, hs.tables⟩
    have hnone (p : Ptr) (m : VfsMountpoint) (hm : s.mounts p = some m) (i : Nat) :
        (m.table.buckets i).datas = [] := by
      rw [List.eq_nil_iff_forall_not_mem]
      intro d hd
      obtain ⟨e, he, _⟩ := (hi.mounts hm).right.right.data hd
      cases he
    obtain ⟨⟨header, mnt⟩, hp, hm⟩ := @parsePath_mounts fuel { s with heap } path hsorted hi.root hnone
      hq.slash_first hf
    refine ⟨{ s with heap }, ?_⟩
    simp only [openFile, hp, bind, Except.bind]
    rcases header with _ | header
    · rfl
    · simp only [hsorted.headerType_mount (hm header rfl)]
      rfl

end NoFiles

section Paths

variable {h : Kmalloc.Heap} {P : Ptr} {t₁ t₂ : List (BitVec 8)}

-- Two paths in the memory from `P` on, at every other address.
def twoPaths (h : Kmalloc.Heap) (P : Ptr) (t₁ t₂ : List (BitVec 8)) : Kmalloc.Heap :=
  { h with
    mem  := fun p => if p < P then h.mem p else fun i =>
      (if (p - P) % 2 = 0 then t₁ else t₂).getD ((p - P) / 2 + i) 0
    lock := false }

theorem getD_concat {t : List (BitVec 8)} {i : Nat} : (t ++ [0#8]).getD i 0 = t.getD i 0 := by
  simp only [List.getD_eq_getElem?_getD, List.getElem?_append]
  split
  case isTrue => rfl
  case isFalse hi =>
    rw [List.getElem?_eq_none (Nat.le_of_not_lt hi)]
    rcases i - t.length with _ | i <;> rfl

theorem hasText_first : HasText (twoPaths h P t₁ t₂) (fun i => P + 2 * i) t₁ := by
  intro i _ j _
  have hp : ¬P + 2 * i < P := Nat.not_lt.mpr (Nat.le_add_right _ _)
  have hd : P + 2 * i - P = 2 * i := Nat.add_sub_cancel_left _ _
  have hm : 2 * i % 2 = 0 := Nat.mul_mod_right 2 i
  have hi : 2 * i / 2 = i := Nat.mul_div_cancel_left i (by decide)
  simp only [twoPaths, if_neg hp, hd, hm, hi, if_true, getD_concat]

theorem hasText_second : HasText (twoPaths h P t₁ t₂) (fun i => P + (2 * i + 1)) t₂ := by
  intro i _ j _
  have hp : ¬P + (2 * i + 1) < P := Nat.not_lt.mpr (Nat.le_add_right _ _)
  have hd : P + (2 * i + 1) - P = 2 * i + 1 := Nat.add_sub_cancel_left _ _
  have hm : ¬(2 * i + 1) % 2 = 0 := by omega
  have hi : (2 * i + 1) / 2 = i := by omega
  simp only [twoPaths, if_neg hp, hd, if_neg hm, hi, getD_concat]

theorem exists_above (s : Vfs) (n : Nat) : ∃ P : Ptr, ∀ p < n, ∀ f, s.files p = some f → f.name < P := by
  induction n
  case zero => exact ⟨0, fun p hp => absurd hp (Nat.not_lt_zero p)⟩
  case succ n hi =>
    obtain ⟨P, hP⟩ := hi
    rcases hn : s.files n with _ | f
    · refine ⟨P, fun p hp f hf => ?_⟩
      rcases Nat.lt_succ_iff_lt_or_eq.mp hp with hp | rfl
      · exact hP p hp f hf
      · rw [hn] at hf
        cases hf
    · refine ⟨max P (f.name + 1), fun p hp f' hf => ?_⟩
      rcases Nat.lt_succ_iff_lt_or_eq.mp hp with hp | rfl
      · exact Nat.lt_of_lt_of_le (hP p hp f' hf) (Nat.le_max_left _ _)
      · cases hn.symm.trans hf
        exact Nat.le_max_right _ _

theorem NamesInv.exists_names (hi : NamesInv ms es s) : ∃ P, ∀ t₁ t₂,
    KeepsNames s (twoPaths s.heap P t₁ t₂) := by
  obtain ⟨P, hP⟩ := exists_above s s.heap.next
  refine ⟨P, fun t₁ t₂ => ⟨Nat.le_refl _, fun p f hf => ?_⟩⟩
  have hlt := hP p (hi.lt_of_file (by simp [hf])) f hf
  simp only [twoPaths, if_pos hlt]

end Paths

section Files

variable {heap : Kmalloc.Heap} {path : Nat → Ptr} {letter : BitVec 8} {name : Name}

-- The text of a path, byte by byte.
theorem HasText.path_name (ht : HasText heap path (slash :: letter :: slash :: name)) {i : Nat}
    (hi : i ≤ name.length) : heap.mem (path 0) (3 + i) = (name ++ [0#8]).getD i 0 := by
  have h := ht 0 (Nat.zero_le _) (3 + i) (by simp; omega)
  rw [h, Nat.zero_add, Nat.add_comm 3 i]
  rfl

theorem HasText.letter_at (ht : HasText heap path (slash :: letter :: slash :: name)) :
    heap.mem (path 0) 1 = letter ∧ heap.mem (path 0) 2 = slash ∧ heap.mem (path 1) 0 = letter :=
  ⟨ht 0 (Nat.zero_le _) 1 (by simp), ht 0 (Nat.zero_le _) 2 (by simp),
    ht 1 (by simp) 0 (by simp)⟩

theorem HasText.name_at (ht : HasText heap path (slash :: letter :: slash :: name)) {i : Nat}
    (hi : i < name.length) : heap.mem (path 3) i = name.getD i 0 := by
  have h := ht 3 (by simp) i (by simp; omega)
  rw [h, Nat.add_comm 3 i]
  exact getD_concat

theorem HasText.length_letter (ht : HasText heap path (slash :: letter :: slash :: name))
    (hl : letter ≠ 0#8 ∧ letter ≠ slash) (hf : 1 < fuel) :
    pathNameLength (heap.mem (path 0)) fuel 1 = .ok 1 := by
  obtain ⟨h1, h2, _⟩ := ht.letter_at
  apply @pathNameLength_eq fuel 1 _ [letter] slash
  · simp [Ne.symm hl.left, Ne.symm hl.right]
  · exact .inr rfl
  · intro i hi
    rcases i with _ | i
    · exact h1
    · obtain rfl : i = 0 := by simpa using hi
      exact h2
  · simp
  · exact hf

theorem HasText.length_name (ht : HasText heap path (slash :: letter :: slash :: name)) (hn : IsName name)
    (hl : 3 + name.length < 2 ^ 32) (hf : name.length < fuel) :
    pathNameLength (heap.mem (path 0)) fuel 3 = .ok name.length :=
  pathNameLength_eq hn.right (.inl rfl) (fun _ hi => ht.path_name hi) hl hf

theorem HasText.readKey_name (ht : HasText heap path (slash :: letter :: slash :: name)) :
    readKey (heap.mem (path 3)) name.length = name := by
  apply List.ext_getElem
  case hl => simp [readKey]
  case h =>
    intro i _ hi
    simp [readKey, ht.name_at hi, hi]

variable {M F : Ptr} {slen₁ slen₂ : Nat} {m : VfsMountpoint} {d₁ d₂ : Word}

-- Only a letter that is not a separator can lead to a file.
theorem Leads.letter_ne (h : Leads fuel path s M F slen₁ slen₂ m d₁ d₂)
    (ht : HasText s.heap path (slash :: letter :: slash :: name)) (hf : 1 < fuel) :
    letter ≠ 0#8 ∧ letter ≠ slash := by
  obtain ⟨h1, h2, _⟩ := ht.letter_at
  obtain ⟨fuel, rfl⟩ : ∃ n, fuel = n + 1 := ⟨fuel - 1, by omega⟩
  rw [← not_or]
  intro hl
  have hlen₁ : pathNameLength (s.heap.mem (path 0)) (fuel + 1) 1 = .ok 0 := by
    rw [pathNameLength, h1]
    rcases hl with rfl | rfl <;> rfl
  cases hlen₁.symm.trans h.length₁
  -- The next name is empty.
  have hlen₂ : pathNameLength (s.heap.mem (path 0)) (fuel + 1) 2 = .ok 0 := by
    rw [pathNameLength, h2]
    rfl
  exact h.pos (Except.ok.inj (hlen₂.symm.trans h.length₂)).symm

theorem Leads.slen (h : Leads fuel path s M F slen₁ slen₂ m d₁ d₂)
    (ht : HasText s.heap path (slash :: letter :: slash :: name)) (hf : 1 < fuel) : slen₁ = 1 :=
  Except.ok.inj (h.length₁.symm.trans (ht.length_letter (h.letter_ne ht hf) hf))

-- Another name of the same bucket leads to the same file, when the file is the head of the bucket.
theorem Leads.collide {path' : Nat → Ptr} {name' : Name} {r : Nat}
    (h : Leads fuel path s M F slen₁ slen₂ m d₁ d₂) (hh : Holds es M m.table)
    (ht : HasText s.heap path (slash :: letter :: slash :: name))
    (ht' : HasText s.heap path' (slash :: letter :: slash :: name'))
    (hr : (m.table.buckets r).head.hash ≠ none) (hd : (m.table.buckets r).head.data = d₂)
    (hn : IsName name') (hl : 3 + name'.length < 2 ^ 32) (hf : 2 ^ 32 < fuel)
    (hname : (djb2 name').toNat % m.table.bucketCount = r) :
    Leads fuel path' s M F 1 name'.length m d₁ d₂ := by
  have hslen := h.slen ht (by omega)
  subst hslen
  obtain ⟨hdata, halone⟩ := fetch_datas h.fetch₂
  have hent : entOf m.table s.heap (path (u32 (1 + (1 + 1)))) slen₂ = r := by
    apply hh.apart hdata
    rw [Bucket.datas, if_neg hr, hd]
    exact List.mem_cons_self ..
  rw [hent] at halone
  have hent' : entOf m.table s.heap (path' 3) name'.length = r := by
    rw [entOf, hashData, ht'.readKey_name, hname]
  constructor
  case length₁ => exact ht'.length_letter (h.letter_ne ht (by omega)) (by omega)
  case fetch₁ =>
    have hkey : ∀ i < 1, s.heap.mem (path' 1) i = s.heap.mem (path 1) i := by
      intro i hi
      obtain rfl := Nat.lt_one_iff.mp hi
      exact ht'.letter_at.right.right.trans ht.letter_at.right.right.symm
    rw [fetch_congr hkey]
    exact h.fetch₁
  case null    => exact h.null
  case mount   => exact h.mount
  case length₂ => exact ht'.length_name hn hl (by omega)
  case pos     => exact fun h0 => hn.left (List.length_eq_zero_iff.mp h0)
  case fetch₂ =>
    have hchain := halone hd (hh.nodup r)
    have ha := @fetch_alone m.table s.heap (path' 3) name'.length
    rw [hent', hd] at ha
    exact ha hr hchain
  case file => exact h.file

theorem NamesInv.not_nameSpace (hi : NamesInv ms es s) (he : e ∈ es) (hb : s.heap.next ≤ 2 ^ 64)
    (hf : 2 ^ 32 < fuel) : ¬NameSpace fuel s es := by
  intro hn
  obtain ⟨m, hm⟩ := Option.ne_none_iff_exists'.mp (hi.known (hi.entries he).right)
  have hh := (hi.mounts hm).right.right
  obtain ⟨r, hr, hd⟩ := hh.placed he rfl
  -- The file that is the head of the bucket of the other one.
  have hhead : (m.table.buckets r).head.hash ≠ none := by
    intro h0
    rw [Bucket.datas, if_pos h0] at hd
    cases hd
  obtain ⟨e₀, he₀, hm₀, hdata⟩ : ∃ e₀ ∈ es, e₀.mount = e.mount ∧
      (m.table.buckets r).head.data = BitVec.ofNat 64 e₀.file := by
    apply hh.data (i := r)
    rw [Bucket.datas, if_neg hhead]
    exact List.mem_cons_self ..
  rw [← hm₀] at hm hh
  have hlen : (es.map Entry.name).length < 2 ^ 64 := by
    rw [List.length_map]
    exact Nat.lt_of_lt_of_le hi.pos hb
  obtain ⟨name, hnew, hname, hl, hhash⟩ := exists_colliding hr hh.count (es.map Entry.name) hlen
  -- The path of the file, and that of the name that no file has.
  obtain ⟨P, hP⟩ := hi.exists_names
  let heap := twoPaths s.heap P (slash :: e₀.letter :: slash :: e₀.name)
    (slash :: e₀.letter :: slash :: name)
  have hkeeps : KeepsNames s heap := hP _ _
  obtain ⟨fl, s', handle, ho, hhandle, hfile, hmount⟩ := hn.found he₀ ⟨hkeeps, rfl, hasText_first⟩
  obtain ⟨s'', ho'⟩ := hn.absent hname
    (fun e' he' h => hnew (h.right ▸ List.mem_map_of_mem he')) ⟨hkeeps, rfl, hasText_second⟩
  have hsorted : Sorted { s with heap } := by
    have hs := hi.sorted hb
    exact ⟨hs.mounts, hs.files, hs.root, hs.tables⟩
  obtain ⟨slen₁, slen₂, m', d₁, d₂, hleads⟩ :
      ∃ slen₁ slen₂ m' d₁ d₂, Leads fuel (fun i => P + 2 * i) { s with heap } e₀.mount e₀.file
        slen₁ slen₂ m' d₁ d₂ := by
    obtain ⟨hnull, _⟩ | ⟨fl', handle', hr', hopen, hpath⟩ := openFile_cases ho
    · cases hnull
    · cases hr'
      have hhandle' : handle' = handle := by
        simpa [Vfs.handle, hopen.handles] using hhandle
      rw [hhandle', hfile, hmount] at hpath
      exact hsorted.parsePath_leads hpath
  cases hm.symm.trans hleads.mount.right
  have hd₂ : (m.table.buckets r).head.data = d₂ := by
    rw [hdata, ← hleads.file, BitVec.ofNat_toNat, BitVec.setWidth_eq]
  have hleads' := hleads.collide hh hasText_first hasText_second hhead hd₂ hname (by omega) hf hhash
  obtain ⟨fuel, rfl⟩ : ∃ n, fuel = n + 1 := ⟨fuel - 1, by omega⟩
  have hpath' := hleads'.parsePath hsorted
  obtain ⟨_, _, hnone⟩ | ⟨fl', _, hr', _⟩ := openFile_cases ho'
  · exact hnone e₀.file (some e₀.mount) hpath' (hsorted.headerType_file (hi.entries he₀).left)
  · cases hr'

-- Any file that has been added is one too many.
theorem nameSpace_iff (hclean : ∀ b i, (leftover b i).datas = [] ∧ (leftover b i).Used)
    (run : AddRun leftover memcpy fuel ms es s) (hb : s.heap.next ≤ 2 ^ 64) (hf : 2 ^ 32 < fuel) :
    NameSpace fuel s es ↔ es = [] := by
  have hi := run.inv hclean hb
  constructor
  case mp =>
    intro hn
    rw [List.eq_nil_iff_forall_not_mem]
    exact fun e he => hi.not_nameSpace he hb hf hn
  case mpr =>
    rintro rfl
    exact nameSpace_of_empty hi hb hf

end Files

section Examples

theorem clean_unusedBucket : unusedBucket.datas = [] ∧ unusedBucket.Used :=
  ⟨rfl, fun _ hn => by cases hn⟩

theorem empty_unusedVfs : Empty unusedVfs where
  toUnused := unused_unusedVfs
  buckets _ := clean_unusedBucket
  pos      := by decide

theorem oneMount_run (n : Nat) :
    AddRun (fun _ _ => unusedBucket) (fun d _ _ => d) n [(100, 0x52)] [] oneMount := by
  have hm : mountVFS (fun _ _ => unusedBucket) (fun d _ _ => d) 0 1 0 0 7 unusedVfs = .ok (100, oneMount) := by rfl
  exact .start (.mount (.init empty_unusedVfs) (by simp) hm)

-- `R` is mounted, and no path leads to a file.
theorem nameSpace_oneMount : NameSpace (2 ^ 32 + 1) oneMount [] :=
  (nameSpace_iff (fun _ _ => clean_unusedBucket) (oneMount_run _) (by decide) (by decide)).mpr rfl

-- `/R/a` leads to a file, and so does some path that it should not.
theorem nameSpace_oneFile : ¬∀ (leftover : Bytes → Nat → Hashtable.Bucket) (memcpy : Memcpy) (fuel : Nat)
    (ms : List (Ptr × BitVec 8)) (es : List Entry) (s : Vfs),
    (∀ b i, (leftover b i).datas = [] ∧ (leftover b i).Used) →
    AddRun leftover memcpy fuel ms es s → s.heap.next ≤ 2 ^ 64 → 2 ^ 32 < fuel → NameSpace fuel s es := by
  intro h
  have hadd (n : Nat) : addVFSFile (fun d _ _ => d) (n + 10) 100 1 0 3 0 oneMount = .ok (true, oneFile) := by
    rfl
  have hname : ∀ i < 2, oneMount.heap.mem 1 i = ([0x61] ++ [0#8]).getD i 0 := by decide
  have run : AddRun (fun _ _ => unusedBucket) (fun d _ _ => d) (2 ^ 32 + 10) [(100, 0x52)]
      [⟨100, 0x52, 103, [0x61]⟩] oneFile :=
    .add (oneMount_run _) (by simp) (by decide) hname (fun _ he => by cases he) rfl (hadd _)
  have hb : oneFile.heap.next ≤ 2 ^ 64 := by decide
  have hi := run.inv (fun _ _ => clean_unusedBucket) hb
  exact hi.not_nameSpace (List.mem_singleton_self _) hb (by decide)
    (h _ _ _ _ _ _ (fun _ _ => clean_unusedBucket) run hb (by decide))

end Examples

end RoverOS.Vfs
