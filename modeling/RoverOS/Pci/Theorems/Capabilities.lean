import RoverOS.Pci.Msi
import RoverOS.Pci.Theorems.Address
import RoverOS.Library.Trail

-- The capabilities that the search comes by, the ones that are on the list, and when they are the same.

open Trail (Reached)

namespace RoverOS.Pci

-- A register is read through the upper six bits of its offset.
def Aligned (cfg : BitVec 32 → BitVec 32) : Prop :=
  ∀ p, cfg (p &&& 0xFC) = cfg p

section List

variable (cfg : BitVec 32 → BitVec 32)

def idAt (p : BitVec 32) : BitVec 32 := PCI_CAPABILITY_ID (cfg p)
def nextAt (p : BitVec 32) : BitVec 32 := PCI_CAPABILITY_NEXT (cfg p)

def firstPtr : BitVec 32 := PCI_HEADER_CAPABILITIES_POINTER (cfg PCI_HEADER_CAPABILITIES_PTR_RESERVED)

-- The capabilities on the list. The lower two bits of a pointer are reserved, and the list ends at 0.
inductive Listed : BitVec 32 → Prop
  | first : firstPtr cfg ≠ 0 → Listed (firstPtr cfg)
  | next {p : BitVec 32} : Listed p → nextAt cfg p &&& 0xFC ≠ 0 → Listed (nextAt cfg p &&& 0xFC)

-- Where the loop is left.
def Left (p : BitVec 32) : Prop := p = 0 ∨ idAt cfg p = PCI_CAPABILITY_ID_MSIX

abbrev Way : BitVec 32 → List (BitVec 32) → BitVec 32 → Prop := Trail (nextAt cfg) (Left cfg)

-- The pointers that the loop comes to.
abbrev Met : BitVec 32 → Prop := Reached (nextAt cfg) (Left cfg) (firstPtr cfg)

end List

section Walk

variable {cfg : BitVec 32 → BitVec 32} {p q e : BitVec 32} {l : List (BitVec 32)}

theorem Listed.ne_zero (h : Listed cfg p) : p ≠ 0 := by
  cases h
  case first h  => exact h
  case next _ h => exact h

theorem Listed.masked (h : Listed cfg p) : p &&& 0xFC = p := by
  cases h
  case first h  => rw [firstPtr, PCI_HEADER_CAPABILITIES_POINTER, BitVec.and_assoc, BitVec.and_self]
  case next _ h => rw [BitVec.and_assoc, BitVec.and_self]

theorem ne_zero_of_masked (h : p &&& 0xFC ≠ 0) : p ≠ 0 := by
  rintro rfl
  exact h (BitVec.zero_and)

theorem Aligned.eq (ha : Aligned cfg) (h : p &&& 0xFC = q &&& 0xFC) : cfg p = cfg q := by
  rw [← ha p, h, ha q]

-- Every capability of the list is come to, unless the search ends at one before it.
theorem Listed.met (ha : Aligned cfg) (h : Listed cfg q) :
    (∃ r, Met cfg r ∧ r &&& 0xFC = q) ∨ ∃ r, Met cfg r ∧ Listed cfg (r &&& 0xFC) ∧ idAt cfg r = PCI_CAPABILITY_ID_MSIX := by
  induction h
  case first hz => exact .inl ⟨_, .first, (Listed.first hz).masked⟩
  case next p hp hz hi =>
    rcases hi with ⟨r, hr, rfl⟩ | hi
    case inr => exact .inr hi
    case inl =>
      by_cases hx : idAt cfg r = PCI_CAPABILITY_ID_MSIX
      case pos => exact .inr ⟨r, hr, hp, hx⟩
      case neg =>
        have hn : ¬Left cfg r := by
          rintro (hz | hx')
          case inl => exact ne_zero_of_masked hp.ne_zero hz
          case inr => exact hx hx'
        refine .inl ⟨_, hr.next hn, ?_⟩
        rw [nextAt, nextAt, ha r]

-- A way that ends at 0 comes by the list's capabilities, and by no other one before them.
theorem Listed.on_way (ha : Aligned cfg) (hw : Way cfg (firstPtr cfg) l 0) (h : Listed cfg q) :
    ∃ l₁ r l₂, l = l₁ ++ r :: l₂ ∧ r &&& 0xFC = q ∧ ∀ p ∈ l₁, Listed cfg (p &&& 0xFC) := by
  induction h
  case first hz =>
    have hm := (Listed.first hz).masked
    generalize firstPtr cfg = s at hw hz hm
    cases hw
    case halt => exact absurd rfl hz
    case step => exact ⟨[], _, _, rfl, hm, by simp⟩
  case next p hp hz hi =>
    obtain ⟨l₁, r, l₂, rfl, rfl, hl⟩ := hi
    obtain ⟨-, hw'⟩ := hw.after
    have hn : nextAt cfg r = nextAt cfg (r &&& 0xFC) := by rw [nextAt, nextAt, ha r]
    rw [← hn] at hz ⊢
    generalize nextAt cfg r = s at hw' hz
    cases hw'
    case halt => exact absurd BitVec.zero_and hz
    case step l₂ _ _ =>
      refine ⟨l₁ ++ [r], s, l₂, by simp, rfl, ?_⟩
      exact List.forall_mem_append.mpr ⟨hl, by simpa using hp⟩

-- Behind a node that is not on the list there is none that is.
theorem listed_of_after (ha : Aligned cfg) {l₁ l₂ : List (BitVec 32)} (hw : Way cfg (firstPtr cfg) (l₁ ++ p :: l₂) 0)
    (hq : q ∈ l₂) (h : Listed cfg (q &&& 0xFC)) : Listed cfg (p &&& 0xFC) := by
  obtain ⟨l₃, r, l₄, hl, hr, hlisted⟩ := h.on_way ha hw
  rcases List.append_eq_append_iff.mp hl with ⟨c, rfl, hc⟩ | ⟨c, rfl, hc⟩
  all_goals cases c
  case inl.nil =>
    obtain ⟨rfl, -⟩ := List.cons.inj hc
    exact hr ▸ h
  case inl.cons d c =>
    obtain ⟨rfl, -⟩ := List.cons.inj hc
    exact hlisted p (by simp)
  case inr.nil =>
    obtain ⟨rfl, -⟩ := List.cons.inj hc
    exact hr ▸ h
  case inr.cons d c =>
    obtain ⟨rfl, rfl⟩ := List.cons.inj hc
    rw [List.append_assoc] at hw
    have hne := Trail.next_ne_next hw (show q ∈ c ++ p :: l₂ by simp [hq])
    exact absurd (congrArg PCI_CAPABILITY_NEXT (ha.eq hr)) hne

end Walk

section Loop

variable (top : Topology) (bus dev : BitVec 32)

-- The configuration space that the loop reads.
def loopCfg (p : BitVec 32) : BitVec 32 := getPCIData top bus dev 0 p

-- An iteration that goes on, with `next` at `p`.
def visited (s : Search) (p : BitVec 32) : Search :=
  let s := { s with asked := configAddress bus dev 0 p :: s.asked }
  let s := if idAt (loopCfg top bus dev) p = PCI_CAPABILITY_ID_MSI
    then { s with msix := false, found := true, ptr := p } else s
  { s with next := nextAt (loopCfg top bus dev) p }

-- The end of a search along the way through `l` to `e`.
def finish (s : Search) (l : List (BitVec 32)) (e : BitVec 32) : Search :=
  let s := l.foldl (visited top bus dev) s
  if e = 0 then s
  else { s with msix := true, found := true, ptr := e, asked := configAddress bus dev 0 e :: s.asked }

variable {top bus dev} {s w : Search} {p e : BitVec 32} {l : List (BitVec 32)} {fuel : Nat}

theorem searchLoop_halt (h : Left (loopCfg top bus dev) s.next) :
    searchLoop top bus dev (fuel + 1) s = some (finish top bus dev s [] s.next) := by
  rw [searchLoop, finish, List.foldl_nil]
  by_cases hz : s.next = 0
  case pos => rw [if_pos hz, if_pos hz]
  case neg =>
    have hx := h.resolve_left hz
    have hm : PCI_CAPABILITY_ID (getPCIData top bus dev 0 s.next) ≠ PCI_CAPABILITY_ID_MSI := by
      intro hm
      exact absurd (hx.symm.trans hm) (by decide)
    rw [if_neg hz, if_neg hz]
    simp only [if_neg hm]
    exact if_pos hx

theorem searchLoop_step (h : ¬Left (loopCfg top bus dev) s.next) :
    searchLoop top bus dev (fuel + 1) s = searchLoop top bus dev fuel (visited top bus dev s s.next) := by
  have hz : s.next ≠ 0 := fun hz => h (.inl hz)
  have hx : PCI_CAPABILITY_ID (getPCIData top bus dev 0 s.next) ≠ PCI_CAPABILITY_ID_MSIX := fun hx => h (.inr hx)
  rw [searchLoop, if_neg hz]
  simp only [if_neg hx]
  by_cases hm : idAt (loopCfg top bus dev) s.next = PCI_CAPABILITY_ID_MSI
  case pos =>
    have hm' : PCI_CAPABILITY_ID (getPCIData top bus dev 0 s.next) = PCI_CAPABILITY_ID_MSI := hm
    simp only [visited, if_pos hm, if_pos hm']
    rfl
  case neg =>
    have hm' : PCI_CAPABILITY_ID (getPCIData top bus dev 0 s.next) ≠ PCI_CAPABILITY_ID_MSI := hm
    simp only [visited, if_neg hm, if_neg hm']
    rfl

theorem visited_next (top : Topology) (bus dev : BitVec 32) (s : Search) (p : BitVec 32) :
    (visited top bus dev s p).next = nextAt (loopCfg top bus dev) p := rfl

theorem searchLoop_of_way (h : Way (loopCfg top bus dev) p l e) (hp : s.next = p) :
    ∃ fuel, searchLoop top bus dev fuel s = some (finish top bus dev s l e) := by
  induction h generalizing s
  case halt hl =>
    subst hp
    exact ⟨1, searchLoop_halt hl⟩
  case step hn _ hi =>
    subst hp
    obtain ⟨fuel, hf⟩ := hi (visited_next top bus dev s s.next)
    exact ⟨fuel + 1, (searchLoop_step hn).trans hf⟩

theorem way_of_searchLoop (h : searchLoop top bus dev fuel s = some w) :
    ∃ l e, Way (loopCfg top bus dev) s.next l e ∧ w = finish top bus dev s l e := by
  induction fuel generalizing s
  case zero => cases h
  case succ fuel hi =>
    by_cases hl : Left (loopCfg top bus dev) s.next
    case pos =>
      rw [searchLoop_halt hl] at h
      exact ⟨[], s.next, .halt hl, (Option.some.inj h).symm⟩
    case neg =>
      rw [searchLoop_step hl] at h
      obtain ⟨l, e, hw, rfl⟩ := hi h
      exact ⟨s.next :: l, e, .step hl hw, rfl⟩

theorem visited_msi (h : idAt (loopCfg top bus dev) p = PCI_CAPABILITY_ID_MSI) :
    (visited top bus dev s p).found = true ∧ (visited top bus dev s p).msix = false ∧
      (visited top bus dev s p).ptr = p := by
  simp only [visited, if_pos h, and_self]

theorem visited_other (h : idAt (loopCfg top bus dev) p ≠ PCI_CAPABILITY_ID_MSI) :
    (visited top bus dev s p).found = s.found ∧ (visited top bus dev s p).msix = s.msix ∧
      (visited top bus dev s p).ptr = s.ptr := by
  simp only [visited, if_neg h, and_self]

-- The last capability of the type that has been come to is kept.
theorem foldl_visited (top : Topology) (bus dev : BitVec 32) (l : List (BitVec 32)) (s : Search) : ((∀ p ∈ l, idAt (loopCfg top bus dev) p ≠ PCI_CAPABILITY_ID_MSI) ∧
      (l.foldl (visited top bus dev) s).found = s.found ∧ (l.foldl (visited top bus dev) s).msix = s.msix ∧
      (l.foldl (visited top bus dev) s).ptr = s.ptr) ∨
    ∃ l₁ p l₂, l = l₁ ++ p :: l₂ ∧ idAt (loopCfg top bus dev) p = PCI_CAPABILITY_ID_MSI ∧
      (∀ q ∈ l₂, idAt (loopCfg top bus dev) q ≠ PCI_CAPABILITY_ID_MSI) ∧
      (l.foldl (visited top bus dev) s).found = true ∧ (l.foldl (visited top bus dev) s).msix = false ∧
      (l.foldl (visited top bus dev) s).ptr = p := by
  induction l generalizing s
  case nil => exact .inl ⟨by simp, rfl, rfl, rfl⟩
  case cons p l hi =>
    rw [List.foldl_cons]
    rcases hi (s := visited top bus dev s p) with ⟨hn, hf, hx, hp⟩ | ⟨l₁, q, l₂, rfl, h⟩
    case inr => exact .inr ⟨p :: l₁, q, l₂, rfl, h⟩
    case inl =>
      by_cases hm : idAt (loopCfg top bus dev) p = PCI_CAPABILITY_ID_MSI
      case pos =>
        obtain ⟨hf', hx', hp'⟩ := visited_msi (s := s) hm
        exact .inr ⟨[], p, l, rfl, hm, hn, hf.trans hf', hx.trans hx', hp.trans hp'⟩
      case neg =>
        obtain ⟨hf', hx', hp'⟩ := visited_other (s := s) hm
        exact .inl ⟨List.forall_mem_cons.mpr ⟨hm, hn⟩, hf.trans hf', hx.trans hx', hp.trans hp'⟩

theorem mem_asked_foldl {a : BitVec 32} : a ∈ (l.foldl (visited top bus dev) s).asked ↔
    a ∈ s.asked ∨ ∃ p ∈ l, a = configAddress bus dev 0 p := by
  induction l generalizing s
  case nil => simp
  case cons p l hi =>
    have hv : (visited top bus dev s p).asked = configAddress bus dev 0 p :: s.asked := by
      by_cases hm : idAt (loopCfg top bus dev) p = PCI_CAPABILITY_ID_MSI
      case pos => simp only [visited, if_pos hm]
      case neg => simp only [visited, if_neg hm]
    rw [List.foldl_cons, hi, hv]
    simp only [List.mem_cons, exists_eq_or_imp]
    tauto

theorem mem_asked_finish {a : BitVec 32} : a ∈ (finish top bus dev s l e).asked ↔
    a ∈ s.asked ∨ (∃ p ∈ l, a = configAddress bus dev 0 p) ∨ (e ≠ 0 ∧ a = configAddress bus dev 0 e) := by
  rw [finish]
  split
  case isTrue he  => simp [mem_asked_foldl, he]
  case isFalse he =>
    simp only [List.mem_cons, mem_asked_foldl, ne_eq, he, not_false_eq_true, true_and]
    rw [or_comm, or_assoc]

end Loop

section Selection

-- The configuration space of a function.
def functionCfg (top : Topology) (bus : BitVec 8) (dev : BitVec 5) (fn : BitVec 3) (p : BitVec 32) : BitVec 32 :=
  getPCIData top (bus.setWidth 32) (dev.setWidth 32) (fn.setWidth 32) p

-- What the end of a search should be, for the list in a configuration space.
structure Selected (cfg : BitVec 32 → BitVec 32) (w : Search) : Prop where
  msix : (∃ p, Listed cfg p ∧ idAt cfg p = PCI_CAPABILITY_ID_MSIX) →
    w.found = true ∧ w.msix = true ∧ Listed cfg (w.ptr &&& 0xFC) ∧ idAt cfg w.ptr = PCI_CAPABILITY_ID_MSIX
  msi  : (∀ p, Listed cfg p → idAt cfg p ≠ PCI_CAPABILITY_ID_MSIX) →
    (∃ p, Listed cfg p ∧ idAt cfg p = PCI_CAPABILITY_ID_MSI) →
    w.found = true ∧ w.msix = false ∧ Listed cfg (w.ptr &&& 0xFC) ∧ idAt cfg w.ptr = PCI_CAPABILITY_ID_MSI
  none : (∀ p, Listed cfg p → idAt cfg p ≠ PCI_CAPABILITY_ID_MSIX ∧ idAt cfg p ≠ PCI_CAPABILITY_ID_MSI) →
    w.found = false

-- An address of a function.
def AddressOf (bus : BitVec 8) (dev : BitVec 5) (fn : BitVec 3) (a : BitVec 32) : Prop :=
  busOf a = bus ∧ devOf a = dev ∧ fnOf a = fn

-- The search ends, reads the configuration space of the function only, and selects from its list.
def Searches (top : Topology) (bus : BitVec 8) (dev : BitVec 5) (fn : BitVec 3) (msix : Bool) : Prop :=
  ∃ fuel w, searchMSIX top (bus.setWidth 32) (dev.setWidth 32) (fn.setWidth 32) msix fuel = some w ∧
    (∀ a ∈ w.asked, AddressOf bus dev fn a) ∧ Selected (functionCfg top bus dev fn) w

-- An MSI-X capability is on the list, or the pointers that the loop comes to end at 0 and the MSI and
-- MSI-X capabilities among them are on the list.
def Sound (cfg : BitVec 32 → BitVec 32) : Prop :=
  (∃ p, Listed cfg p ∧ idAt cfg p = PCI_CAPABILITY_ID_MSIX) ∨
  (Met cfg 0 ∧ ∀ p, Met cfg p → p ≠ 0 →
    idAt cfg p = PCI_CAPABILITY_ID_MSI ∨ idAt cfg p = PCI_CAPABILITY_ID_MSIX → Listed cfg (p &&& 0xFC))

variable {top : Topology} {bus : BitVec 8} {dev : BitVec 5} {fn : BitVec 3} {reg : BitVec 32} {msix : Bool}

theorem addressOf_configAddress :
    AddressOf bus dev fn (configAddress (bus.setWidth 32) (dev.setWidth 32) (fn.setWidth 32) reg) := by
  have hd := dev.isLt
  have h8 : (dev.setWidth 8).setWidth 32 = dev.setWidth 32 := by
    apply BitVec.eq_of_toNat_eq
    simp only [BitVec.toNat_setWidth]
    omega
  have h0 : dev.setWidth 8 >>> 5 = 0 := by
    apply BitVec.eq_of_toNat_eq
    simp only [BitVec.toNat_ushiftRight, BitVec.toNat_setWidth, Nat.shiftRight_eq_div_pow]
    exact Nat.div_eq_of_lt (Nat.lt_of_le_of_lt (Nat.mod_le _ _) hd)
  have h5 : (dev.setWidth 8).setWidth 5 = dev := by
    apply BitVec.eq_of_toNat_eq
    simp only [BitVec.toNat_setWidth]
    omega
  rw [← h8]
  refine ⟨?_, devOf_address.trans h5, fnOf_address⟩
  exact busOf_address.trans (by rw [h0]; exact BitVec.or_zero)

theorem addressOf_function0 : AddressOf bus dev 0 (configAddress (bus.setWidth 32) (dev.setWidth 32) 0 reg) :=
  addressOf_configAddress

theorem functionCfg_aligned : Aligned (functionCfg top bus dev fn) := by
  intro p
  rw [functionCfg, functionCfg, getPCIData, getPCIData, configAddress, configAddress, BitVec.and_assoc, BitVec.and_self]

section Function0

variable {cfg : BitVec 32 → BitVec 32} {s w : Search} {e : BitVec 32} {l : List (BitVec 32)}

-- The end of a way from a search that has found nothing yet.
structure Ended (cfg : BitVec 32 → BitVec 32) (l : List (BitVec 32)) (e : BitVec 32) (w : Search) : Prop where
  msix  : e ≠ 0 → w.found = true ∧ w.msix = true ∧ w.ptr = e
  none  : e = 0 → (∀ p ∈ l, idAt cfg p ≠ PCI_CAPABILITY_ID_MSI) → w.found = false
  msi   : e = 0 → (∃ p ∈ l, idAt cfg p = PCI_CAPABILITY_ID_MSI) → ∃ l₁ p l₂, l = l₁ ++ p :: l₂ ∧
    idAt cfg p = PCI_CAPABILITY_ID_MSI ∧ (∀ q ∈ l₂, idAt cfg q ≠ PCI_CAPABILITY_ID_MSI) ∧
    w.found = true ∧ w.msix = false ∧ w.ptr = p

theorem finish_ended {bus dev : BitVec 32} (hs : s.found = false) :
    Ended (loopCfg top bus dev) l e (finish top bus dev s l e) where
  msix he := by
    rw [finish, if_neg he]
    exact ⟨rfl, rfl, rfl⟩
  none he hn := by
    rcases foldl_visited top bus dev l s with ⟨-, hf, -⟩ | ⟨l₁, p, l₂, rfl, hm, -⟩
    case inl =>
      rw [finish, if_pos he, hf]
      exact hs
    case inr => exact absurd hm (hn p (by simp))
  msi he hm := by
    rcases foldl_visited top bus dev l s with ⟨hn, -⟩ | h
    case inl =>
      obtain ⟨p, hp, hm⟩ := hm
      exact absurd hm (hn p hp)
    case inr =>
      rw [finish, if_pos he]
      exact h

theorem Aligned.idAt_eq (ha : Aligned cfg) (p : BitVec 32) : idAt cfg (p &&& 0xFC) = idAt cfg p := by
  rw [idAt, idAt, ha p]

-- With an MSI-X capability on the list, the way ends at one that is.
theorem way_ends_listed (ha : Aligned cfg) (hw : Way cfg (firstPtr cfg) l e)
    (hx : ∃ p, Listed cfg p ∧ idAt cfg p = PCI_CAPABILITY_ID_MSIX) :
    Listed cfg (e &&& 0xFC) ∧ idAt cfg e = PCI_CAPABILITY_ID_MSIX := by
  obtain ⟨q, hq, hx⟩ := hx
  have hr : ∃ r, Met cfg r ∧ Listed cfg (r &&& 0xFC) ∧ idAt cfg r = PCI_CAPABILITY_ID_MSIX := by
    rcases hq.met ha with ⟨r, hr, rfl⟩ | hr
    case inl => exact ⟨r, hr, hq, ha.idAt_eq r ▸ hx⟩
    case inr => exact hr
  obtain ⟨r, hr, hlisted, hx⟩ := hr
  obtain ⟨l', hw'⟩ := hr.extend (Trail.halt (.inr hx))
  obtain ⟨-, rfl⟩ := hw.unique hw'
  exact ⟨hlisted, hx⟩

-- Selecting from the list leaves no other capability of the types on a way that ends at 0.
theorem Ended.listed (ha : Aligned cfg) (hw : Way cfg (firstPtr cfg) l 0) (h : Ended cfg l 0 w) (hs : Selected cfg w)
    (hn : ∀ p, Listed cfg p → idAt cfg p ≠ PCI_CAPABILITY_ID_MSIX) {p : BitVec 32} (hp : p ∈ l)
    (hm : idAt cfg p = PCI_CAPABILITY_ID_MSI) : Listed cfg (p &&& 0xFC) := by
  obtain ⟨l₁, q, l₂, rfl, -, hlast, hfound, -, rfl⟩ := h.msi rfl ⟨p, hp, hm⟩
  have hq : Listed cfg (w.ptr &&& 0xFC) := by
    by_cases hmsi : ∃ p, Listed cfg p ∧ idAt cfg p = PCI_CAPABILITY_ID_MSI
    case pos => exact (hs.msi hn hmsi).right.right.left
    case neg =>
      have hf := hs.none fun p hp => ⟨hn p hp, fun hm => hmsi ⟨p, hp, hm⟩⟩
      rw [hf] at hfound
      cases hfound
  rcases List.mem_append.mp hp with hp | hp
  case inl =>
    obtain ⟨l₃, l₄, rfl⟩ := List.append_of_mem hp
    rw [List.append_assoc, List.cons_append] at hw
    exact listed_of_after ha hw (by simp) hq
  case inr =>
    rcases List.mem_cons.mp hp with rfl | hp
    case inl => exact hq
    case inr => exact absurd hm (hlast p hp)

theorem Ended.sound (ha : Aligned cfg) (hw : Way cfg (firstPtr cfg) l e) (h : Ended cfg l e w) (hs : Selected cfg w) :
    Sound cfg := by
  by_cases hx : ∃ p, Listed cfg p ∧ idAt cfg p = PCI_CAPABILITY_ID_MSIX
  case pos => exact .inl hx
  case neg =>
    have hn : ∀ p, Listed cfg p → idAt cfg p ≠ PCI_CAPABILITY_ID_MSIX := fun p hp hx' => hx ⟨p, hp, hx'⟩
    by_cases he : e = 0
    case neg =>
      obtain ⟨hfound, hmsix, -⟩ := h.msix he
      by_cases hm : ∃ p, Listed cfg p ∧ idAt cfg p = PCI_CAPABILITY_ID_MSI
      case pos =>
        rw [(hs.msi hn hm).right.left] at hmsix
        cases hmsix
      case neg =>
        rw [hs.none fun p hp => ⟨hn p hp, fun hm' => hm ⟨p, hp, hm'⟩⟩] at hfound
        cases hfound
    case pos =>
      subst he
      refine .inr ⟨hw.reached_end .first, fun p hp hz hid => ?_⟩
      have hpl := (hp.mem hw).resolve_right hz
      have hm := hid.resolve_right fun hx => hw.not_halt_of_mem hpl (.inr hx)
      exact h.listed ha hw hs hn hpl hm

theorem Ended.selected (ha : Aligned cfg) (hw : Way cfg (firstPtr cfg) l e) (h : Ended cfg l e w) (hs : Sound cfg) :
    Selected cfg w := by
  by_cases hx : ∃ p, Listed cfg p ∧ idAt cfg p = PCI_CAPABILITY_ID_MSIX
  case pos =>
    obtain ⟨hlisted, hid⟩ := way_ends_listed ha hw hx
    obtain ⟨hfound, hmsix, hptr⟩ := h.msix (ne_zero_of_masked hlisted.ne_zero)
    obtain ⟨p, hp, hx⟩ := hx
    exact {
      msix := fun _ => ⟨hfound, hmsix, hptr ▸ hlisted, hptr ▸ hid⟩
      msi  := fun hn => absurd hx (hn p hp)
      none := fun hn => absurd hx (hn p hp).left
    }
  case neg =>
    obtain ⟨h0, hmet⟩ := hs.resolve_left hx
    have he : e = 0 := by
      rcases h0.mem hw with hm | he
      case inl => exact absurd (.inl rfl) (hw.not_halt_of_mem hm)
      case inr => exact he.symm
    subst he
    have hlisted : ∀ p ∈ l, idAt cfg p = PCI_CAPABILITY_ID_MSI → Listed cfg (p &&& 0xFC) := fun p hp hm =>
      hmet p (hw.reached_of_mem .first hp) (fun hz => hw.not_halt_of_mem hp (.inl hz)) (.inl hm)
    refine ⟨fun hx' => absurd hx' hx, ?_, ?_⟩
    case refine_1 =>
      rintro - ⟨q, hq, hm⟩
      obtain ⟨l₁, r, l₂, rfl, rfl, -⟩ := hq.on_way ha hw
      obtain ⟨l₃, p, l₄, hl, hm', -, hfound, hmsix, rfl⟩ := h.msi rfl ⟨r, by simp, ha.idAt_eq r ▸ hm⟩
      exact ⟨hfound, hmsix, hlisted _ (by simp [hl]) hm', hm'⟩
    case refine_2 =>
      intro hn
      refine h.none rfl fun p hp hm => ?_
      exact (hn _ (hlisted p hp hm)).right ((ha.idAt_eq p).trans hm)

end Function0

theorem Sound.way {cfg : BitVec 32 → BitVec 32} (ha : Aligned cfg) (hs : Sound cfg) :
    ∃ l e, Way cfg (firstPtr cfg) l e := by
  have hleft : ∃ r, Met cfg r ∧ Left cfg r := by
    rcases hs with ⟨q, hq, hx⟩ | ⟨h0, -⟩
    case inr => exact ⟨0, h0, .inl rfl⟩
    case inl =>
      rcases hq.met ha with ⟨r, hr, rfl⟩ | ⟨r, hr, -, hx⟩
      case inl => exact ⟨r, hr, .inr (ha.idAt_eq r ▸ hx)⟩
      case inr => exact ⟨r, hr, .inr hx⟩
  obtain ⟨r, hr, hl⟩ := hleft
  obtain ⟨l, hw⟩ := hr.extend (Trail.halt hl)
  exact ⟨l, r, hw⟩

theorem not_listed_of_firstPtr {cfg : BitVec 32 → BitVec 32} (hz : firstPtr cfg = 0) {p : BitVec 32} :
    ¬Listed cfg p := by
  intro h
  induction h
  case first h   => exact h hz
  case next hi   => exact hi

-- The search before its loop.
def begun (top : Topology) (bus : BitVec 8) (dev : BitVec 5) (fn : BitVec 3) (msix : Bool) : Search where
  next  := firstPtr (functionCfg top bus dev fn)
  found := false
  msix  := msix
  ptr   := 0
  asked := [configAddress (bus.setWidth 32) (dev.setWidth 32) (fn.setWidth 32) PCI_HEADER_CAPABILITIES_PTR_RESERVED]

theorem searchMSIX_eq {fuel : Nat} : searchMSIX top (bus.setWidth 32) (dev.setWidth 32) (fn.setWidth 32) msix fuel =
    searchLoop top (bus.setWidth 32) (dev.setWidth 32) fuel (begun top bus dev fn msix) := rfl

theorem loopCfg_eq : loopCfg top (bus.setWidth 32) (dev.setWidth 32) = functionCfg top bus dev 0 := rfl

theorem searches_of_empty (hz : firstPtr (functionCfg top bus dev fn) = 0) : Searches top bus dev fn msix := by
  have hl : Left (loopCfg top (bus.setWidth 32) (dev.setWidth 32)) (begun top bus dev fn msix).next := .inl hz
  refine ⟨1, _, searchMSIX_eq.trans (searchLoop_halt hl), ?_, ?_⟩
  case refine_1 =>
    intro a hm
    have hn : (begun top bus dev fn msix).next = 0 := hz
    rw [mem_asked_finish, hn] at hm
    obtain rfl : a = _ := by simpa [begun] using hm
    exact addressOf_configAddress
  case refine_2 =>
    have hn : (begun top bus dev fn msix).next = 0 := hz
    rw [hn]
    refine ⟨?_, ?_, fun _ => rfl⟩
    case refine_1 =>
      rintro ⟨p, hp, -⟩
      exact absurd hp (not_listed_of_firstPtr hz)
    case refine_2 =>
      rintro - ⟨p, hp, -⟩
      exact absurd hp (not_listed_of_firstPtr hz)

theorem searches_of_sound (hs : Sound (functionCfg top bus dev 0)) : Searches top bus dev 0 msix := by
  obtain ⟨l, e, hw⟩ := hs.way functionCfg_aligned
  obtain ⟨fuel, hf⟩ := searchLoop_of_way (s := begun top bus dev 0 msix) (loopCfg_eq ▸ hw) rfl
  have hend : Ended (functionCfg top bus dev 0) l e _ := finish_ended (s := begun top bus dev 0 msix) rfl
  refine ⟨fuel, _, searchMSIX_eq.trans hf, ?_, hend.selected functionCfg_aligned hw hs⟩
  intro a hm
  rcases mem_asked_finish.mp hm with hm | ⟨p, -, rfl⟩ | ⟨-, rfl⟩
  case inl =>
    obtain rfl := List.mem_singleton.mp hm
    exact addressOf_configAddress
  all_goals exact addressOf_function0

theorem Searches.fits (h : Searches top bus dev fn msix) :
    firstPtr (functionCfg top bus dev fn) = 0 ∨ (fn = 0 ∧ Sound (functionCfg top bus dev fn)) := by
  obtain ⟨fuel, w, hf, hasked, hsel⟩ := h
  by_cases hz : firstPtr (functionCfg top bus dev fn) = 0
  case pos => exact .inl hz
  case neg =>
    rw [searchMSIX_eq] at hf
    obtain ⟨l, e, hw, rfl⟩ := way_of_searchLoop hf
    -- The first iteration asks for function 0.
    have hm : configAddress (bus.setWidth 32) (dev.setWidth 32) 0 (firstPtr (functionCfg top bus dev fn)) ∈
        (finish top (bus.setWidth 32) (dev.setWidth 32) (begun top bus dev fn msix) l e).asked := by
      rw [mem_asked_finish]
      rcases Reached.first.mem hw with hm | he
      case inl => exact .inr (.inl ⟨_, hm, rfl⟩)
      case inr => exact .inr (.inr ⟨fun h0 => hz (he.trans h0), he ▸ rfl⟩)
    obtain ⟨-, -, hfn⟩ := hasked _ hm
    obtain ⟨-, -, h0⟩ : AddressOf bus dev 0 _ := addressOf_function0
    obtain rfl : fn = 0 := hfn.symm.trans h0
    have hend : Ended (functionCfg top bus dev 0) l e _ := finish_ended (s := begun top bus dev 0 msix) rfl
    exact .inr ⟨rfl, hend.sound functionCfg_aligned hw hsel⟩

-- The loop reads function 0, whatever the function is, and what it comes to behind a reserved pointer
-- need not be a capability.
theorem searchMSIX_searches_iff : Searches top bus dev fn msix ↔
    firstPtr (functionCfg top bus dev fn) = 0 ∨ (fn = 0 ∧ Sound (functionCfg top bus dev fn)) := by
  constructor
  case mp => exact Searches.fits
  case mpr =>
    rintro (hz | ⟨rfl, hs⟩)
    case inl => exact searches_of_empty hz
    case inr => exact searches_of_sound hs

-- The second function of a device, with an MSI-X capability at 0x40.
def secondFunction : Topology := fun _ _ fn reg =>
  if fn = 1 then if reg = 0x34 then 0x40 else if reg = 0x40 then 0x11 else 0 else 0

theorem searchMSIX_other_function :
    ¬∀ (top : Topology) (bus : BitVec 8) (dev : BitVec 5) (fn : BitVec 3), Searches top bus dev fn false := by
  intro h
  rcases (h secondFunction 0 3 1).fits with hz | ⟨hfn, -⟩
  case inl => exact absurd hz (by decide)
  case inr => exact absurd hfn (by decide)

end Selection

end RoverOS.Pci
