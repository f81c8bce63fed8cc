import RoverOS.Vmm.Theorems.Contiguous
import RoverOS.Vmm.Theorems.PhysRange
import RoverOS.Bootloader.Theorems.TestPath

-- The kernel takes over the page tables that the bootloader has built. What it reads in them, and what of
-- it is left when it has allocated memory.

namespace RoverOS.Vmm

open Radix (walk Tree InUse entry)

open Paging
open Bootloader (Boot MapCall ClearMem Clears Represents Built Fresh Issued lastCall mapCalls kalign)

-- What the last call of the bootloader for a page makes of it.
def bootTranslation (calls : List MapCall) (virt : Word) : Word :=
  ((lastCall calls virt).map fun c => kalign c.phys).getD 0#64

-- The pages of the space that do not lie between `low` and `high`.
def Outside (root : Word) (low high : Nat) (r w : Word) : Prop :=
  r = root → w.toNat / 0x1000 % 2 ^ 36 < low / 0x1000 ∨ high / 0x1000 ≤ w.toNat / 0x1000 % 2 ^ 36

-- What the markers reserve, and what the pool can still grow by, ends below `high`.
structure Spans (low high : Nat) (vmem : List VMarker) (blocks : List (Word × Nat)) : Prop where
  room : Room low vmem blocks
  ends : listEnd vmem + growth blocks ≤ high

inductive OpStep (heapEnd : Word) : Vm → Op → Vm → Prop
  | call {s s' : Vm} {op : Op} {fuel : Nat} {virt : Word} :
    op.run heapEnd fuel s = .ok (virt, s') → OpStep heapEnd s op s'

-- The pages of the call and those of the pool end below `high`.
def EndsBelow (high : Nat) (s : Vm) (op : Op) : Prop :=
  listEnd s.vmem + (pagesFor op.bytes + 1) * 0x1000 + growth s.blocks ≤ high

-- The frames that the kernel will use for tables are whole frames, are cleared, and none of them is one of
-- the bootloader's.
structure NewFrames (boot : Boot) (frames : List Word) : Prop where
  nonzero : ∀ f ∈ frames, f ≠ 0#64
  aligned : ∀ f ∈ frames, tableBase f = f
  unused  : ∀ f ∈ frames, ¬Issued boot f.toNat
  blank   : ∀ f ∈ frames, ∀ i, tableBase (boot.tables f i) = 0#64
  nodup   : frames.Nodup

variable {roots : Set Word} {root heapEnd virt flags type : Word} {fuel low high b n : Nat}
variable {P : Word → Word → Prop} {M : List VMarker → List (Word × Nat) → Prop}
variable {newPagetable : Vm → Except Exit (Word × Vm)} {extra : List Word} {s s' v : Vm} {addr w : Word}
variable {boot boot₀ : Boot} {calls : List MapCall} {clearMem : ClearMem} {op : Op}

section Calls

theorem Outside.not_samePage {base : Word} (h : Outside root low high root w) (hlow : low ≤ base.toNat)
    (hb : base.toNat + (b + 1) * 0x1000 ≤ high) (hh : high ≤ 2 ^ 48) : ¬SamePage w (base + pageBytes b) := by
  intro hs
  have hw := h rfl
  have hle := Nat.mod_le (b * 0x1000) (2 ^ 32)
  have hf := le_trans (Nat.add_le_add_left (Nat.mul_le_mul_right 0x1000 b.le_succ) base.toNat) (hb.trans hh)
  rw [samePage_iff_page, offset_toNat hf] at hs
  omega

theorem Spans.allocMarker {head marker : VMarker} {next vmem : List VMarker} {blocks : List (Word × Nat)} {bytes : Nat}
    (sp : Spans low high (head :: next) blocks) (hh : high ≤ 2 ^ 48)
    (hf : listEnd (head :: next) + (pagesFor bytes * 0x1000 + growth blocks) ≤ high)
    (h : allocMarker heapEnd head next bytes type flags = (marker, vmem)) :
    marker.base.toNat = listEnd (head :: next) ∧ Spans low high vmem blocks := by
  have ⟨hb, he, hr⟩ := sp.room.allocMarker (hf.trans hh) h
  have hle := Nat.mod_le (pagesFor bytes * 0x1000) (2 ^ 32)
  have hreach := sp.room.reach
  exact ⟨hb, hr.mono (by omega), by omega⟩

theorem Spans.behind {vmem : List VMarker} {block : Word × Nat} {blocks : List (Word × Nat)}
    (sp : Spans low high vmem (block :: blocks)) : Spans low high vmem blocks := by
  have he := sp.ends
  rw [growth_cons] at he
  exact ⟨sp.room.behind, by omega⟩

-- Growing the pool maps its frames between the markers and `high`.
theorem protects_outside (hh : high ≤ 2 ^ 48) : Protects heapEnd root (Outside root low high) (Spans low high) where
  grow {head next phys sz blocks marker vmem} sp h := by
    have he := sp.ends
    rw [growth_cons] at he
    have ⟨hb, hs⟩ := sp.behind.allocMarker hh he h
    have hreach := sp.room.reach
    refine ⟨hs, fun b hlt w hw => hw.not_samePage (by omega) ?_ hh⟩
    have hle : (b + 1) * 0x1000 ≤ pagesFor sz * 0x1000 := Nat.mul_le_mul_right _ hlt
    rw [hb]
    simp only at he
    omega

-- A call maps no page outside of what it reserves and the pool grows by.
theorem Op.run_outside (hs : Ready roots root (Spans low high) [] s) (hh : high ≤ 2 ^ 48)
    (hf : EndsBelow high s op) (h : op.run heapEnd fuel s = .ok (virt, s')) :
    Ready roots root (Spans low high) [] s' ∧ Keeps roots (Outside root low high) s s' := by
  have supplies : Supplies roots root (Outside root low high) (Spans low high) (Vmm.newPagetable heapEnd fuel) :=
    newPagetable_supplies (protects_outside hh) fuel
  have marker {head marker : VMarker} {next vmem : List VMarker} {bytes : Nat} {type flags : Word}
      (hm : s.vmem = head :: next)
      (hf : listEnd s.vmem + (pagesFor bytes + 1) * 0x1000 + growth s.blocks ≤ high)
      (ha : allocMarker heapEnd head next bytes type flags = (marker, vmem)) :
      Ready roots root (Spans low high) [] { s with vmem } ∧ ∀ i < pagesFor bytes + 1, ∀ w,
        Outside root low high root w → ¬SamePage w (marker.base + pageBytes i) := by
    have sp : Spans low high (head :: next) s.blocks := hm ▸ hs.markers
    rw [hm] at hf
    have ⟨hb, hsp⟩ := sp.allocMarker hh (by omega) ha
    have hreach := sp.room.reach
    refine ⟨⟨hs.tables.move rfl rfl (.refl _), hs.blank, hsp, hs.space⟩, fun i hi w hw => ?_⟩
    refine hw.not_samePage (by omega) ?_ hh
    have hle : (i + 1) * 0x1000 ≤ (pagesFor bytes + 1) * 0x1000 := Nat.mul_le_mul_right _ hi
    omega
  cases op
  case vmalloc bytes type flags =>
    have ⟨head, next, m, vmem, hm, ha, hv, h⟩ := vmalloc_ok h
    have ⟨hs₁, hp⟩ := marker hm hf ha
    subst hv
    have hp : ∀ i < pagesFor bytes + 1, ∀ w, Outside root low high root w →
        ¬SamePage w (m.base + pageBytes (0 + i)) := by
      intro i hi w hw
      rw [Nat.zero_add]
      exact hp i hi w hw
    have ⟨hs', k⟩ := Supplies.backPages Spans.behind supplies hs₁ hp h
    exact ⟨hs', k.congr rfl rfl rfl rfl⟩
  case vmallocPhys phys bytes type flags =>
    have ⟨head, next, m, vmem, hm, ha, hv, h⟩ := vmallocPhys_ok h
    have ⟨hs₁, hp⟩ := marker hm hf ha
    subst hv
    have hp : ∀ i < pagesFor bytes, ∀ w, Outside root low high s.space.pml4e w →
        ¬SamePage w (m.base + pageBytes i) := by
      intro i hi w hw
      exact hp i (Nat.lt_succ_of_lt hi) w (hs.space ▸ hw)
    have ⟨hs', k⟩ := Supplies.mapPages supplies hs₁ hs₁.tables.task hp h
    exact ⟨hs', k.congr rfl rfl rfl rfl⟩

end Calls

section Handover

theorem listEnd_fakeMarker : listEnd [fakeMarker type] = 0x1000 := by
  have h : ((0 : Word) + pageBytes 1).toNat = 0x1000 := by decide
  rw [listEnd_singleton]
  exact h

theorem takeOver_ok (h : takeOver boot type s = .ok v) :
    v.tables = boot.tables ∧ v.space = ⟨boot.pml⟩ ∧ v.vmem = [fakeMarker type] := by
  cases h
  exact ⟨rfl, rfl, rfl⟩

-- The tables of the bootloader are what the kernel's functions expect of tables.
theorem takeOver_ready (hb : Built boot) (h : takeOver boot type s = .ok v)
    (hn : NewFrames boot (spareFrames v)) (hh : high ≤ 2 ^ 48) (hg : 0x1000 + growth v.blocks ≤ high) :
    Ready {boot.pml} boot.pml (Spans 0x1000 high) [] v := by
  have ⟨ht, hsp, hm⟩ := takeOver_ok h
  have hend : listEnd v.vmem = 0x1000 := by rw [hm, listEnd_fakeMarker]
  refine ⟨⟨ht ▸ hb.tree, by rw [hsp]; rfl, fun f hf => ?spare, hn.nodup⟩, fun f hf => ?blank, ⟨⟨?markers, ?aligned,
    hend.ge, hend ▸ hg.trans hh⟩, hend ▸ hg⟩, by rw [hsp]⟩
  case spare =>
    refine ⟨hn.nonzero f hf, hn.aligned f hf, fun hu => hn.unused f hf ?_⟩
    exact (hb.frames f (ht ▸ hu)).right
  case blank =>
    rw [Blank, ht]
    exact hn.blank f hf
  case markers =>
    rw [hm]
    refine ⟨.singleton _, fun m hmem => ?_⟩
    rw [List.mem_singleton.mp hmem]
    exact BitVec.le_def.mpr (Nat.zero_le _)
  case aligned => rw [hend]

theorem boot_translates (r : Represents boot (lastCall calls)) (hp : ∀ c ∈ calls, c.phys.toNat < 2 ^ 52)
    (ht : v.tables = boot.tables) (hsp : v.space = ⟨boot.pml⟩) :
    virtToPhysInt v v.space virt = bootTranslation calls virt := by
  have hl : leaf v v.space.pml4e virt = entry child boot.tables boot.pml (path virt) (pteEntry virt) := by
    rw [leaf, ht, hsp]
    rfl
  rw [virtToPhysInt_eq, hl, bootTranslation]
  cases hm : lastCall calls virt
  case none =>
    rcases r.unmapped hm with hu | hu
    · rw [hu]
      exact tableBase_zero
    · rw [hu]
      exact tableBase_zero
  case some c =>
    have hc : c ∈ calls := List.mem_reverse.mp (List.mem_of_find?_eq_some hm)
    rw [(r.mapped hm).leaf]
    exact Bootloader.tableBase_leafEntry (hp c hc)

variable {tables : Bootloader.Tables} {allocMap : Nat → MmapEntry} {pool : List Word}
variable (hc : Clears clearMem) (h₀ : Bootloader.initPml clearMem (.start tables allocMap pool) = .ok boot₀)
variable (hf : Fresh (Bootloader.supply boot₀)) (hm : mapCalls clearMem calls boot₀ = .ok boot)
variable (ht : takeOver boot type s = .ok v) (hn : NewFrames boot (spareFrames v)) (hh : high ≤ 2 ^ 48)

include hc h₀ hf hm ht hn hh

-- Whatever the kernel allocates, it reads each page before and behind its allocations as the bootloader has
-- mapped it.
theorem boot_translations_kept (hp : ∀ c ∈ calls, c.phys.toNat < 2 ^ 52) (hg : 0x1000 + growth v.blocks ≤ high)
    (run : Run.Steps (OpStep heapEnd) (EndsBelow high) v s')
    (hw : w.toNat / 0x1000 % 2 ^ 36 = 0 ∨ high / 0x1000 ≤ w.toNat / 0x1000 % 2 ^ 36) :
    virtToPhysInt s' s'.space w = bootTranslation calls w := by
  have ⟨r₀, _⟩ := Bootloader.initPml_represents hc h₀ hf
  have r : Represents boot (lastCall calls) := r₀.mapCalls hc hm hf
  have ⟨htab, hsp, _⟩ := takeOver_ok ht
  have init := takeOver_ready r.built ht hn hh hg
  have hroot : boot.pml ∈ ({boot.pml} : Set Word) := rfl
  have hout : Outside boot.pml 0x1000 high boot.pml w := fun _ => hw.imp_left fun h => by omega
  let kept (u : Vm) : Prop := Ready {boot.pml} boot.pml (Spans 0x1000 high) [] u ∧
    Keeps {boot.pml} (Outside boot.pml 0x1000 high) v u
  have hkept : kept s' := by
    refine run.invariant (I := kept) ⟨init, .refl _⟩ fun hk ha hstep => ?_
    cases hstep
    case call h =>
      have ⟨hs', k'⟩ := Op.run_outside hk.left hh ha h
      exact ⟨hs', hk.right.trans k'⟩
  have ⟨hs', k⟩ := hkept
  rw [← boot_translates r hp htab hsp, virtToPhysInt_eq, virtToPhysInt_eq, hs'.space, hsp]
  exact k.translate hroot hout

-- The first range that the kernel maps lies at `0x1000`, and replaces what the bootloader has mapped there.
theorem first_range_replaces {phys mtype : Word} {bytes : Nat}
    (hg : 0x1000 + (pagesFor bytes * 0x1000 + growth v.blocks) ≤ high)
    (hmake : Has flags vflagMake) (hb : 1 ≤ bytes) (hw : WholePages bytes) (h32 : bytes < 2 ^ 32)
    (hcov : isUnaligned phys = 0#64 ∧ phys.toNat + pagesFor bytes * 0x1000 ≤ 2 ^ 52)
    (hpat : ¬PicksPat (formFlags flags))
    (h : vmallocPhys heapEnd (Vmm.newPagetable heapEnd fuel) phys bytes mtype flags v = .ok (virt, s')) :
    virt = 0x1000 ∧ MapsBytes (leaf s' boot.pml) phys 0x1000 bytes := by
  have ⟨r₀, _⟩ := Bootloader.initPml_represents hc h₀ hf
  have r : Represents boot (lastCall calls) := r₀.mapCalls hc hm hf
  have ⟨_, hsp, hmark⟩ := takeOver_ok ht
  have init := takeOver_ready r.built ht hn hh (by omega : 0x1000 + growth v.blocks ≤ high)
  have hend : listEnd v.vmem = 0x1000 := by rw [hmark, listEnd_fakeMarker]
  have ready : Ready {boot.pml} v.space.pml4e (Room 0) [] v :=
    ⟨init.tables, init.blank, init.markers.room.mono (Nat.zero_le _), rfl⟩
  have hvirt : virt = 0x1000 := by
    have ⟨head, next, m, vmem, hv, ha, he, _⟩ := vmallocPhys_ok h
    have sp : Spans 0x1000 high (head :: next) v.blocks := hv ▸ init.markers
    have ⟨hbase, _⟩ := sp.allocMarker hh (by rw [← hv, hend]; exact hg) ha
    rw [he]
    apply BitVec.eq_of_toNat_eq
    rw [hbase, ← hv, hend]
    rfl
  have hle := (le_pagesFor h32 hw).trans (Nat.mod_le _ _)
  have hi := vmallocPhys_mapsBytes_iff ready (by rw [hend]; exact hg.trans hh) hmake hb (.inl ⟨hw, h32⟩) h
  have hcovers : Covers (leaf v v.space.pml4e) phys virt flags bytes := by
    refine ⟨hcov.left, by omega, hcov.right, fun hp => absurd hp hpat, fun i hi hlt => ?_⟩
    have hsize : pagesFor bytes * 0x1000 ≤ max bytes 0x1000 := pagesFor_le
    omega
  have hmaps := hi.mpr hcovers
  rw [hvirt, hsp] at hmaps
  exact ⟨hvirt, hmaps⟩

end Handover

section Example

open Bootloader (initPml clearRange clearRange_clears zeroEntry supply)

-- The page that the kernel allocates first, and the page of another allocation.
def bootCalls : List MapCall :=
  [{ phys := 0x1000, virt := 0x1000, write := true, execute := true },
    { phys := 0x10000, virt := 0x10000, write := true, execute := false }]

-- The pool has a block of two pages, and so three frames for tables.
def beforeTakeover : Vm :=
  { tables := fun _ _ => 0, pageFrames := { items := [], maxSize := 0 }, physStack := { items := [], maxSize := 800 },
    vmem := [], space := ⟨0⟩, blocks := [(0x800000, 0x2000)] }

def rangeCall : Op := .vmallocPhys 0x9000 0x1000 vtypeData (vflagMake ||| vflagWrite)

-- Its two frames are those of the block.
def pageCall : Op := .vmalloc 0x1000 vtypeData (vflagMake ||| vflagWrite)

theorem boot_bootCalls : ∃ boot₀ boot v s' s'',
    initPml clearRange (.start (fun _ _ => 0) (fun _ => zeroEntry) [0x100000#64, 0x200000#64]) = .ok boot₀ ∧
      Fresh (supply boot₀) ∧ mapCalls clearRange bootCalls boot₀ = .ok boot ∧
      takeOver boot 0 beforeTakeover = .ok v ∧ NewFrames boot (spareFrames v) ∧
      spareFrames v = [0x800000#64, 0x801000#64, 0x802000#64] ∧ growth v.blocks = 0x2000 ∧ listEnd v.vmem = 0x1000 ∧
      rangeCall.run 0 5 v = .ok (0x1000, s') ∧ growth s'.blocks = 0x2000 ∧ listEnd s'.vmem = 0x2000 ∧
      pageCall.run 0 5 s' = .ok (0x2000, s'') ∧ s''.blocks = [] := by
  have hok : ∃ boot₀ boot v s' s'',
      initPml clearRange (.start (fun _ _ => 0) (fun _ => zeroEntry) [0x100000#64, 0x200000#64]) = .ok boot₀ ∧
      boot₀.pool = [] ∧ boot₀.blocks = [⟨0x200000, 0x401000, .tables⟩, ⟨0x100000, 1920, .allocMap⟩] ∧
      mapCalls clearRange bootCalls boot₀ = .ok boot ∧ boot.blocks = boot₀.blocks ∧
      takeOver boot 0 beforeTakeover = .ok v ∧ spareFrames v = [0x800000#64, 0x801000#64, 0x802000#64] ∧
      growth v.blocks = 0x2000 ∧ listEnd v.vmem = 0x1000 ∧
      rangeCall.run 0 5 v = .ok (0x1000, s') ∧ growth s'.blocks = 0x2000 ∧ listEnd s'.vmem = 0x2000 ∧
      pageCall.run 0 5 s' = .ok (0x2000, s'') ∧ s''.blocks = [] ∧
      ∀ i, tableBase (boot.tables 0x800000#64 i) = 0#64 ∧ tableBase (boot.tables 0x801000#64 i) = 0#64 ∧
        tableBase (boot.tables 0x802000#64 i) = 0#64 :=
    ⟨_, _, _, _, _, rfl, rfl, rfl, rfl, rfl, rfl, rfl, rfl, rfl, rfl, rfl, rfl, rfl, rfl, by decide +kernel⟩
  obtain ⟨boot₀, boot, v, s', s'', h₀, hpool, hblocks, hm, hbm, ht, hsp, hg, hv, h₁, hg', hv', h₂, hb, hz⟩ := hok
  refine ⟨boot₀, boot, v, s', s'', h₀, ?fresh, hm, ht, ?frames, hsp, hg, hv, h₁, hg', hv', h₂, hb⟩
  case fresh =>
    rw [supply, hpool, hblocks]
    exact ⟨by decide, by decide, by decide⟩
  case frames =>
    rw [hsp]
    refine ⟨by simp, ?aligned, ?unused, ?blank, by simp⟩
    case aligned =>
      simp only [List.forall_mem_cons]
      exact ⟨rfl, rfl, rfl, List.forall_mem_nil _⟩
    case unused =>
      rintro f hf ⟨⟨b, hb, hlo, hhi⟩, -⟩
      rw [hbm, hblocks] at hb
      have hf : 0x800000 ≤ f.toNat := by
        revert f
        simp
      have hb : b.ptr.toNat + b.size ≤ 0x601000 := by
        revert b
        simp
      omega
    case blank =>
      intro f hf i
      obtain ⟨h₁, h₂, h₃⟩ := hz i
      revert f hf
      simp [h₁, h₂, h₃]

theorem boot_translations_kept_bootCalls : ∃ boot₀ boot v s' s'',
    initPml clearRange (.start (fun _ _ => 0) (fun _ => zeroEntry) [0x100000#64, 0x200000#64]) = .ok boot₀ ∧
      mapCalls clearRange bootCalls boot₀ = .ok boot ∧ takeOver boot 0 beforeTakeover = .ok v ∧
      spareFrames v = [0x800000#64, 0x801000#64, 0x802000#64] ∧ OpStep 0 v rangeCall s' ∧
      OpStep 0 s' pageCall s'' ∧ s''.blocks = [] ∧ virtToPhysInt s'' s''.space 0x10000 = 0x10000 := by
  have ⟨boot₀, boot, v, s', s'', h₀, hf, hm, ht, hn, hsp, hg, hv, h₁, hg', hv', h₂, hb⟩ := boot_bootCalls
  have step₁ : OpStep 0 v rangeCall s' := .call h₁
  have step₂ : OpStep 0 s' pageCall s'' := .call h₂
  have ends₁ : EndsBelow 0x10000 v rangeCall := by
    rw [EndsBelow, hv, hg]
    decide
  have ends₂ : EndsBelow 0x10000 s' pageCall := by
    rw [EndsBelow, hv', hg']
    decide
  have run : Run.Steps (OpStep 0) (EndsBelow 0x10000) v s'' := .step (.step (.refl v) ends₁ step₁) ends₂ step₂
  have hroom : 0x1000 + growth v.blocks ≤ 0x10000 := by
    rw [hg]
    decide
  refine ⟨boot₀, boot, v, s', s'', h₀, hm, ht, hsp, step₁, step₂, hb, ?_⟩
  exact boot_translations_kept clearRange_clears h₀ hf hm ht hn (by decide) (by decide) hroom run (.inr (by decide))

theorem first_range_replaces_bootCalls : ∃ boot₀ boot v s',
    initPml clearRange (.start (fun _ _ => 0) (fun _ => zeroEntry) [0x100000#64, 0x200000#64]) = .ok boot₀ ∧
      mapCalls clearRange bootCalls boot₀ = .ok boot ∧ takeOver boot 0 beforeTakeover = .ok v ∧
      spareFrames v = [0x800000#64, 0x801000#64, 0x802000#64] ∧
      bootTranslation bootCalls 0x1000 = 0x1000 ∧ MapsBytes (leaf s' boot.pml) 0x9000 0x1000 0x1000 := by
  have ⟨boot₀, boot, v, s', _, h₀, hf, hm, ht, hn, hsp, hg, _, h, _⟩ := boot_bootCalls
  have hroom : 0x1000 + (pagesFor 0x1000 * 0x1000 + growth v.blocks) ≤ 0x10000 := by
    rw [hg]
    decide
  have hboot : bootTranslation bootCalls 0x1000 = 0x1000 := by decide
  have hw : WholePages 0x1000 := .inr (by decide)
  have hcov : isUnaligned 0x9000 = 0#64 ∧ (0x9000 : Word).toNat + pagesFor 0x1000 * 0x1000 ≤ 2 ^ 52 :=
    ⟨by decide, by decide⟩
  refine ⟨boot₀, boot, v, s', h₀, hm, ht, hsp, hboot, ?_⟩
  exact (first_range_replaces clearRange_clears h₀ hf hm ht hn (by decide) hroom (by decide) (by decide) hw
    (by decide) hcov (by decide) h).right

end Example

end RoverOS.Vmm
