import RoverOS.Bootloader.Theorems.Refine

-- What the walk of `testPath` finds: a page is found exactly when it was mapped, and as the last call
-- mapped it.

open Radix (walk entry)

namespace RoverOS.Bootloader

open Paging

-- What a mapping says about its page.
structure Page where
  frame : Word
  write : Bool
  noExecute : Bool
  deriving DecidableEq, Repr

def MapCall.page (c : MapCall) : Page where
  frame     := kalign c.phys
  write     := c.write
  noExecute := !c.execute

def Trace.page (t : Trace) : Page where
  frame     := tableBase t.pte
  write     := [t.pml, t.pdpe, t.pde, t.pte].all fun e => e &&& pgWrite ≠ 0#64
  noExecute := t.pte &&& pgNx ≠ 0#64

def lastCall (calls : List MapCall) (virt : Word) : Option MapCall :=
  calls.reverse.find? fun c => SamePage virt c.virt

def mapCalls (clearMem : ClearMem) : List MapCall → Boot → Except Exit Boot
  | [],         s => .ok s
  | c :: calls, s => do
    let s ← mapPage clearMem c.phys c.virt c.write c.execute s
    mapCalls clearMem calls s

variable {clearMem : ClearMem} {s s' s₀ : Boot} {f tbl virt : Word} {n : Index} {q : List Index}
variable {c : MapCall} {calls : List MapCall} {m : Word → Option MapCall} {pool : List Word}
variable {tables : Tables} {allocMap : Nat → MmapEntry}

section TestPath

-- An entry that is present designates a table.
theorem Built.walk_present (b : Built s) (hq : q.length < 3)
    (hw : walk child s.tables s.pml q = some tbl) (hp : s.tables tbl n &&& pgPresent ≠ 0#64) :
    walk child s.tables s.pml (q ++ [n]) = some (tableBase (s.tables tbl n)) := by
  have hb : tableBase (s.tables tbl n) ≠ 0#64 := by
    intro hz
    have he : entry child s.tables s.pml q n = some (s.tables tbl n) := by rw [entry, hw]; rfl
    rw [b.blank q n _ hq he hz, BitVec.zero_and] at hp
    exact hp rfl
  rw [Radix.walk_concat, hw]
  exact child_eq_some hb

theorem Upper.walk {write : Bool} (u : HasUpper s q n write)
    (hw : walk child s.tables s.pml q = some tbl) :
    Upper write (s.tables tbl n) ∧
      Radix.walk child s.tables s.pml (q ++ [n]) = some (tableBase (s.tables tbl n)) := by
  have ⟨e, he, hu⟩ := u
  rw [entry, hw] at he
  cases he
  refine ⟨hu, ?_⟩
  rw [Radix.walk_concat, hw]
  exact child_eq_some hu.linked

theorem Mapped.testPath (h : Mapped s virt c) :
    ∃ t, testPath s virt = some t ∧ t.pte = leafEntry c ∧ Upper c.write t.pml ∧
      Upper c.write t.pdpe ∧ Upper c.write t.pde := by
  have hv : path (kalign virt) = path virt := path_kalign
  have ⟨u₁, w₁⟩ := Upper.walk (h.upper [] (pmlEntry (kalign virt)) (hv ▸ ⟨_, rfl⟩)) rfl
  have ⟨u₂, w₂⟩ := Upper.walk (h.upper [_] (pdpeEntry (kalign virt)) (hv ▸ ⟨_, rfl⟩)) w₁
  have ⟨u₃, w₃⟩ := Upper.walk (h.upper [_, _] (pdeEntry (kalign virt)) (hv ▸ ⟨_, rfl⟩)) w₂
  have w₃ : Radix.walk child s.tables s.pml (path (kalign virt)) = _ := w₃
  have hl := h.leaf
  rw [← hv, ← pteEntry_kalign, entry, w₃] at hl
  have hl := Option.some.inj hl
  have u₄ := leafEntry_present (c := c)
  rw [← hl] at u₄
  refine ⟨⟨_, _, _, _⟩, ?_, hl, u₁, u₂, u₃⟩
  rw [Bootloader.testPath]
  simp only [u₁.present, u₂.present, u₃.present, u₄, if_false]

theorem Unmapped.testPath (b : Built s) (h : Unmapped s virt) : testPath s virt = none := by
  unfold Bootloader.testPath
  dsimp only
  split
  case isTrue => rfl
  case isFalse h₁ =>
    split
    case isTrue => rfl
    case isFalse h₂ =>
      split
      case isTrue => rfl
      case isFalse h₃ =>
        split
        case isTrue => rfl
        case isFalse h₄ =>
          have w₁ := b.walk_present (q := []) (by simp) rfl h₁
          have w₂ := b.walk_present (q := [_]) (by simp) w₁ h₂
          have w₃ := b.walk_present (q := [_, _]) (by simp) w₂ h₃
          have w₃ : walk child s.tables s.pml (path (kalign virt)) = _ := w₃
          rw [Unmapped, ← path_kalign, ← pteEntry_kalign, entry, w₃] at h
          rcases h with h | h
          · cases h
          · have h := Option.some.inj h
            dsimp only at h
            rw [h, BitVec.zero_and] at h₄
            exact absurd rfl h₄

theorem Trace.page_eq {t : Trace} (hp : c.phys.toNat < 2 ^ 52) (h : t.pte = leafEntry c)
    (u₁ : Upper c.write t.pml) (u₂ : Upper c.write t.pdpe) (u₃ : Upper c.write t.pde) :
    t.page = c.page := by
  have hw := leafEntry_pgWrite (c := c)
  have hx := leafEntry_pgNx hp
  simp only [Trace.page, MapCall.page, h, tableBase_leafEntry hp, Page.mk.injEq, true_and]
  constructor
  · cases hc : c.write
    case false => simp [hc] at hw; simp [hw]
    case true =>
      rw [hc] at u₁ u₂ u₃ hw
      simp [u₁.write, u₂.write, u₃.write, hw.mpr]
  · cases hc : c.execute
    case false => rw [hc] at hx; simpa using hx
    case true  => rw [hc] at hx; simpa using hx

end TestPath

section Run

theorem lastCall_concat (virt : Word) :
    lastCall (calls ++ [c]) virt = if SamePage virt c.virt then some c else lastCall calls virt := by
  rw [lastCall, List.reverse_concat, List.find?_cons]
  split <;> simp_all [lastCall]

theorem Represents.mapCalls (hc : Clears clearMem) {pre : List MapCall}
    (r : Represents s (lastCall pre)) (h : mapCalls clearMem calls s = .ok s')
    (hf : Fresh (supply s)) : Represents s' (lastCall (pre ++ calls)) := by
  induction calls generalizing s pre
  case nil =>
    cases h
    rwa [List.append_nil]
  case cons c calls hi =>
    have ⟨s₁, h₁, h⟩ := Except.bind_ok_iff.mp h
    have r₁ := (r.mapPage hc h₁ (hf.perm (mapPage_supply h₁)).blocks).congr fun v => lastCall_concat v
    rw [List.append_cons]
    exact hi r₁ h (hf.perm (mapPage_supply h₁))

theorem Represents.testPath (r : Represents s (lastCall calls)) (hp : ∀ c ∈ calls, c.phys.toNat < 2 ^ 52) (virt : Word) :
    (testPath s virt).map Trace.page = (lastCall calls virt).map MapCall.page := by
  cases hm : lastCall calls virt
  case none => rw [(r.unmapped hm).testPath r.built]; rfl
  case some c =>
    have hc : c ∈ calls := List.mem_reverse.mp (List.mem_of_find?_eq_some hm)
    have ⟨t, ht, hleaf, u₁, u₂, u₃⟩ := (r.mapped hm).testPath
    rw [ht, Option.map_some, Option.map_some, t.page_eq (hp c hc) hleaf u₁ u₂ u₃]

end Run

section Enough

-- The number of tables that `pgAlloc` can still give.
def tablesLeft (s : Boot) : Nat :=
  (s.bumpSize.toNat - s.bumpPtr.toNat) / 0x1000 + 1024 * s.pool.length

-- What the first table leaves of a new chunk.
theorem tablesLeft_newBump (tables : Tables) (ptr : Word) : tablesLeft { newBump s ptr pool with
    tables, bumpPtr := (newBump s ptr pool).bumpPtr + 0x1000 } = 1023 + 1024 * pool.length := by
  have hsize : (BitVec.ofNat 64 bumpChunk).toNat = 0x400000 := by decide
  have hptr : ((0 : Word) + 0x1000).toNat = 0x1000 := by decide
  simp only [tablesLeft, newBump, hsize, hptr]

theorem pgAlloc_enough (hb : Bump s) (hf : Fresh (supply s)) (hl : 0 < tablesLeft s) :
    ∃ f s', pgAlloc clearMem s = .ok (f, s') ∧ tablesLeft s = tablesLeft s' + 1 := by
  by_cases hfull : s.bumpPtr = s.bumpSize
  case neg =>
    have hg : growBump s = .ok s := if_neg hfull
    have ⟨_, _, hnext, hroom, _⟩ := hb.frame hfull hf.blocks
    refine ⟨_, _, pgAlloc_of_growBump hg, ?_⟩
    have h₁ := hb.ptr
    have h₂ := hb.size
    simp only [tablesLeft, hnext]
    omega
  case pos =>
    cases hp : s.pool
    case nil => simp [tablesLeft, hp, hfull] at hl
    case cons ptr pool =>
      have hz : ptr ≠ 0#64 := hf.nonnull ⟨ptr, bumpChunk + 0x1000, .tables⟩ (by simp [supply, hp])
      refine ⟨_, _, pgAlloc_of_growBump (growBump_new hfull hp hz), ?_⟩
      rw [tablesLeft_newBump _ ptr, tablesLeft, hp, hfull, List.length_cons, Nat.sub_self]
      omega

theorem Built.linkTable_enough (hc : Clears clearMem) (b : Built s) (hf : Fresh (supply s))
    (hq : q.length < 3) (hw : walk child s.tables s.pml q = some tbl) (hl : 0 < tablesLeft s) :
    ∃ s', Bootloader.linkTable clearMem tbl n s = .ok s' ∧ tablesLeft s ≤ tablesLeft s' + 1 := by
  by_cases hb : tableBase (s.tables tbl n) = 0#64
  case neg => exact ⟨s, if_neg hb, Nat.le_succ _⟩
  case pos =>
    have ⟨f, s₁, ha, hl₁⟩ := @pgAlloc_enough clearMem _ b.bump hf hl
    have hf₁ := hf.perm (pgAlloc_supply ha)
    have hs : s₁.tables tbl n = s.tables tbl n :=
      congrFun (b.pgAlloc_tables hc ha hf₁.blocks ⟨_, rfl, q, hq.le, hw⟩) n
    refine ⟨s₁.orEntry tbl n (tableBase f), ?_, hl₁.le⟩
    rw [Bootloader.linkTable, if_pos hb, ha]
    exact if_pos hs

theorem mapPage_of_links {s₁ s₂ s₃ : Boot}
    (h₁ : linkTable clearMem s.pml (pmlEntry (kalign c.virt)) s = .ok s₁)
    (h₂ : linkTable clearMem (tableBase (s₁.tables s₁.pml (pmlEntry (kalign c.virt))))
      (pdpeEntry (kalign c.virt)) s₁ = .ok s₂)
    (h₃ : linkTable clearMem
      (tableBase (s₂.tables (tableBase (s₁.tables s₁.pml (pmlEntry (kalign c.virt))))
        (pdpeEntry (kalign c.virt)))) (pdeEntry (kalign c.virt)) s₂ = .ok s₃) :
    ∃ pdpe pde pte, mapPage clearMem c.phys c.virt c.write c.execute s =
      .ok (finish pdpe pde pte (kalign c.virt) (kalign c.phys) c.write c.execute s₃) := by
  let pdpe := tableBase (s₁.tables s₁.pml (pmlEntry (kalign c.virt)))
  let pde := tableBase (s₂.tables pdpe (pdpeEntry (kalign c.virt)))
  refine ⟨pdpe, pde, tableBase (s₃.tables pde (pdeEntry (kalign c.virt))), ?_⟩
  rw [mapPage]
  simp only [h₁, h₂, h₃, bind, Except.bind]
  rfl

theorem Built.mapPage_enough (hc : Clears clearMem) (b : Built s) (hf : Fresh (supply s))
    (hl : 3 ≤ tablesLeft s) :
    ∃ s', mapPage clearMem c.phys c.virt c.write c.execute s = .ok s' ∧
      tablesLeft s ≤ tablesLeft s' + 3 := by
  have ⟨s₁, h₁, hl₁⟩ := b.linkTable_enough hc (q := []) (n := pmlEntry (kalign c.virt)) hf
    (by simp) rfl (by omega)
  have hf₁ := hf.perm (linkTable_supply h₁)
  have ⟨b₁, x₁, w₁⟩ := b.linkTable hc (q := []) (by simp) rfl h₁ hf₁.blocks
  rw [← x₁.pml] at w₁
  have ⟨s₂, h₂, hl₂⟩ := b₁.linkTable_enough hc (n := pdpeEntry (kalign c.virt)) hf₁ (by simp) w₁
    (by omega)
  have hf₂ := hf₁.perm (linkTable_supply h₂)
  have ⟨b₂, x₂, w₂⟩ := b₁.linkTable hc (by simp) w₁ h₂ hf₂.blocks
  have ⟨s₃, h₃, hl₃⟩ := b₂.linkTable_enough hc (n := pdeEntry (kalign c.virt)) hf₂ (by simp) w₂
    (by omega)
  have ⟨pdpe, pde, pte, hm⟩ := mapPage_of_links h₁ h₂ h₃
  refine ⟨_, hm, ?_⟩
  change tablesLeft s ≤ tablesLeft s₃ + 3
  omega

theorem Represents.mapCalls_enough (hc : Clears clearMem) {pre : List MapCall}
    (r : Represents s (lastCall pre)) (hf : Fresh (supply s))
    (hl : 3 * calls.length ≤ tablesLeft s) :
    ∃ s', Bootloader.mapCalls clearMem calls s = .ok s' := by
  induction calls generalizing s pre
  case nil => exact ⟨s, rfl⟩
  case cons c calls hi =>
    rw [List.length_cons] at hl
    have ⟨s₁, h₁, hl₁⟩ := r.built.mapPage_enough hc (c := c) hf (by omega)
    have r₁ := (r.mapPage hc h₁ (hf.perm (mapPage_supply h₁)).blocks).congr fun v => lastCall_concat v
    have ⟨s', h⟩ := hi r₁ (hf.perm (mapPage_supply h₁)) (by omega)
    exact ⟨s', by rw [Bootloader.mapCalls, h₁]; exact h⟩

end Enough

section Initial

theorem initPml_ok (h : initPml clearMem (.start tables allocMap pool) = .ok s₀) :
    ∃ s₁ s₂ pml, s₀ = { s₂ with pml } ∧ s₁.bumpPtr = 0#64 ∧ s₁.bumpSize = 0#64 ∧
      s₁.bumpBase = 0#64 ∧ pgAlloc clearMem s₁ = .ok (pml, s₂) := by
  have ⟨⟨ptr, s⟩, ha, h⟩ := Except.bind_ok_iff.mp h
  have ⟨⟨pml, s₂⟩, hp, h⟩ := Except.bind_ok_iff.mp h
  cases h
  have ⟨pool, _, hs⟩ := allocTable_ok ha
  subst hs
  exact ⟨_, s₂, pml, rfl, rfl, rfl, rfl, hp⟩

-- Only an empty root can be reached.
theorem walk_of_empty {p : List Index} {a : Word} (hz : ∀ i, s.tables s.pml i = 0#64)
    (hw : walk child s.tables s.pml p = some a) : p = [] := by
  cases p
  case nil      => rfl
  case cons i p => simp [walk, hz, child] at hw

theorem built_of_empty (hz : ∀ i, s.tables s.pml i = 0#64) (hb : Bump s) (ha : s.pml.toNat % 0x1000 = 0)
    (hi : Issued s s.pml.toNat) : Built s where
  tree   := by
    rintro r r' p p' a rfl rfl _ _ hw hw'
    exact ⟨rfl, (walk_of_empty hz hw).trans (walk_of_empty hz hw').symm⟩
  bump   := hb
  frames := by
    rintro a ⟨r, rfl, p, _, hw⟩
    obtain rfl := walk_of_empty hz hw
    cases hw
    exact ⟨ha, hi⟩
  blank  := by
    intro q n e _ he _
    cases hq : walk child s.tables s.pml q
    case none   => simp [entry, hq] at he
    case some a =>
      obtain rfl := walk_of_empty hz hq
      cases hq
      rw [entry] at he
      cases he
      exact hz n

theorem represents_of_empty (hz : ∀ i, s.tables s.pml i = 0#64) (hb : Built s) : Represents s (lastCall []) where
  built      := hb
  mapped h   := by cases h
  unmapped {v} _ := by
    left
    cases hw : walk child s.tables s.pml (path v)
    case none   => simp [entry, hw]
    case some a => cases walk_of_empty hz hw

theorem bump_of_start (hptr : s.bumpPtr = 0#64) (hsize : s.bumpSize = 0#64) (hbase : s.bumpBase = 0#64) : Bump s where
  base    := by rw [hbase]; rfl
  ptr     := by rw [hptr]; rfl
  size    := by rw [hsize]; rfl
  le      := by rw [hptr, hsize]
  block h := absurd (hptr.trans hsize.symm) h

-- The first table is empty.
theorem represents_root {s₁ s₂ : Boot} {pml : Word} (hc : Clears clearMem) (hptr : s₁.bumpPtr = 0#64)
    (hsize : s₁.bumpSize = 0#64) (hbase : s₁.bumpBase = 0#64) (ha : pgAlloc clearMem s₁ = .ok (pml, s₂))
    (hf : Fresh s₂.blocks) : Represents { s₂ with pml } (lastCall []) := by
  have g := (bump_of_start hptr hsize hbase).pgAlloc ha hf
  have hz (i : Index) : s₂.tables pml i = 0#64 := by
    rw [g.tables]
    exact hc.same le_rfl i
  have hb : Bump { s₂ with pml } := ⟨g.bump.base, g.bump.ptr, g.bump.size, g.bump.le, g.bump.block⟩
  exact represents_of_empty hz (built_of_empty hz hb g.frame.aligned g.issued)

theorem initPml_represents (hc : Clears clearMem)
    (h : initPml clearMem (.start tables allocMap pool) = .ok s₀) (hf : Fresh (supply s₀)) :
    Represents s₀ (lastCall []) ∧ tablesLeft s₀ = 1023 + 1024 * s₀.pool.length := by
  obtain ⟨s₁, s₂, pml, he, hptr, hsize, hbase, ha⟩ := initPml_ok h
  subst he
  refine ⟨represents_root hc hptr hsize hbase ha hf.blocks, ?_⟩
  obtain ⟨s, hs, ha⟩ := Except.bind_ok_iff.mp ha
  rcases growBump_ok hs with ⟨hne, _⟩ | ⟨ptr, pool, _, rfl⟩
  case inl => exact absurd (hptr.trans hsize.symm) hne
  case inr =>
    obtain ⟨-, rfl⟩ := Prod.mk.inj (Except.ok.inj ha)
    exact tablesLeft_newBump s₁.tables ptr

end Initial

-- The walk from `pml` finds what the last call for a page asked for, and nothing else. A run ends
-- unless the pool has too few chunks for its tables.
theorem testPath_eq_lastCall (hc : Clears clearMem)
    (h₀ : initPml clearMem (.start tables allocMap pool) = .ok s₀) (hf : Fresh (supply s₀))
    (hp : ∀ c ∈ calls, c.phys.toNat < 2 ^ 52) :
    (∀ s, mapCalls clearMem calls s₀ = .ok s → ∀ virt,
        (testPath s virt).map Trace.page = (lastCall calls virt).map MapCall.page) ∧
      (3 * calls.length ≤ 1023 + 1024 * s₀.pool.length →
        ∃ s, mapCalls clearMem calls s₀ = .ok s) := by
  have ⟨r₀, hl⟩ := initPml_represents hc h₀ hf
  exact ⟨fun s h virt => (r₀.mapCalls hc h hf).testPath hp virt, fun hn => r₀.mapCalls_enough hc hf (by omega)⟩

section Example

def readThenWrite : List MapCall :=
  [{ phys := 0x2000, virt := 0x2000, write := false, execute := true },
    { phys := 0x5123, virt := 0x2FFF, write := true, execute := false }]

-- A page that was mapped to be executed is mapped again, to be written to.
theorem testPath_readThenWrite :
    ∃ s₀ s, initPml clearRange (.start (fun _ _ => 0xFFF#64) (fun _ => zeroEntry)
        [0x100000#64, 0x200000#64]) = .ok s₀ ∧ mapCalls clearRange readThenWrite s₀ = .ok s ∧
      (testPath s 0x2000).map Trace.page =
        some { frame := 0x5000, write := true, noExecute := true } := by
  have hok : ∃ s₀, initPml clearRange (.start (fun _ _ => 0xFFF#64) (fun _ => zeroEntry)
      [0x100000#64, 0x200000#64]) = .ok s₀ ∧ s₀.pool = [] ∧
      s₀.blocks = [⟨0x200000, 0x401000, .tables⟩, ⟨0x100000, 1920, .allocMap⟩] := ⟨_, rfl, rfl, rfl⟩
  obtain ⟨s₀, h₀, hpool, hblocks⟩ := hok
  have hf : Fresh (supply s₀) := by
    rw [supply, hpool, hblocks]
    exact ⟨by decide, by decide, by decide⟩
  obtain ⟨hrun, henough⟩ := @testPath_eq_lastCall _ _ readThenWrite _ _ _ clearRange_clears h₀ hf (by decide)
  obtain ⟨s, h⟩ := henough (by rw [hpool]; decide)
  exact ⟨s₀, s, h₀, h, hrun s h 0x2000⟩

end Example

end RoverOS.Bootloader
