import RoverOS.Pmm.Theorems.Orders

-- The region that `allocPhys` takes its block from.

namespace RoverOS.Pmm

variable {s s' : Regions} {r r' : MemRegion} {region : List MemRegion} {best : Option Nat}
  {bytes type order i k n : Nat} {flags : BitVec 16}

-- The array of orders in a region is `order[MAXORDER]`.
def AllOrders (region : List MemRegion) : Prop :=
  ∀ r ∈ region, r.order.length = maxOrder

def HasBitmap (order : Nat) (r : MemRegion) : Prop :=
  ∃ o, r.order[order]? = some o ∧ o.entry ≠ []

-- The request is for memory of its own type only.
def OnlyOwnType (type : Nat) (flags : BitVec 16) : Prop :=
  hasStrict flags ∧ type ≠ memoryTypeAny ∨ type = memoryType1MB

-- The regions that may serve a request.
structure Eligible (type : Nat) (flags : BitVec 16) (order : Nat) (r : MemRegion) : Prop where
  bitmap : HasBitmap order r
  low    : r.type = memoryType1MB → type = memoryType1MB
  exact  : OnlyOwnType type flags → r.type = type

def LowOrHigh (r : MemRegion) : Prop :=
  r.type > memoryType1MB ∧ r.type < memoryTypeIsa

-- The regions that replace one that was found before.
def Replaces (type : Nat) (r : MemRegion) : Prop :=
  r.type = type ∨ LowOrHigh r

-- The best of the first `n` regions: the last one that replaces others, or else the first one of all.
structure Best (type : Nat) (flags : BitVec 16) (order : Nat) (region : List MemRegion) (n : Nat)
    (best : Option Nat) : Prop where
  empty : best = none → ∀ j < n, ∀ r, region[j]? = some r → ¬Eligible type flags order r
  found {k : Nat} : best = some k → k < n ∧ ∃ r, region[k]? = some r ∧ Eligible type flags order r ∧
    (Replaces type r ∨ ∀ j < n, ∀ r', region[j]? = some r' → Eligible type flags order r' → ¬Replaces type r') ∧
    ∀ j < n, k < j → ∀ r', region[j]? = some r' → Eligible type flags order r' → ¬Replaces type r'

-- The loop breaks at the region with the number 3.
def StopsAt3 (type : Nat) (flags : BitVec 16) (order : Nat) (region : List MemRegion) : Prop :=
  (∃ r, region[3]? = some r ∧ Eligible type flags order r ∧ r.type ≠ type ∧ LowOrHigh r) ∧
    ∃ j < 3, ∃ r, region[j]? = some r ∧ Eligible type flags order r

-- The number of regions before the break, or of all of them.
def Looked (type : Nat) (flags : BitVec 16) (order : Nat) (region : List MemRegion) (n : Nat) : Prop :=
  StopsAt3 type flags order region ∧ n = 3 ∨ ¬StopsAt3 type flags order region ∧ n = region.length

section Strict

theorem hasStrict_off : ¬hasStrict (flags &&& ~~~orderFlagStrictMatch) := by
  unfold hasStrict
  rw [not_not, BitVec.and_assoc, BitVec.and_comm (~~~orderFlagStrictMatch)]
  simp [orderFlagStrictMatch]

theorem hasStrict_on : hasStrict (flags ||| orderFlagStrictMatch) := by
  unfold hasStrict
  intro h
  have hbit := congrArg (BitVec.getLsbD · 0) h
  simp [orderFlagStrictMatch] at hbit

theorem hasStrict_strictFlags : hasStrict (strictFlags type flags) ↔ OnlyOwnType type flags := by
  unfold strictFlags OnlyOwnType
  by_cases h1 : type = memoryType1MB
  · simp [h1, hasStrict_on]
  · by_cases hany : type = memoryTypeAny
    · by_cases hs : hasStrict flags
      · simp [hany, hs, hasStrict_off, memoryTypeAny, memoryType1MB]
      · simp [hany, hs, memoryTypeAny, memoryType1MB]
    · simp [h1, hany]

end Strict

section Loop

theorem not_isIncomplete : ¬isIncomplete r := by
  simp [isIncomplete, regionFlagComplete]

-- One turn of the loop.
theorem bestRegion_cons {rs : List MemRegion} (ho : ∃ o, r.order[order]? = some o) :
    (¬Eligible type flags order r ∧
      bestRegion type (strictFlags type flags) order i best (r :: rs) =
        bestRegion type (strictFlags type flags) order (i + 1) best rs) ∨
    (Eligible type flags order r ∧ (r.type = type ∨ best = none ∨ LowOrHigh r ∧ i ≠ 3) ∧
      bestRegion type (strictFlags type flags) order i best (r :: rs) =
        bestRegion type (strictFlags type flags) order (i + 1) (some i) rs) ∨
    (Eligible type flags order r ∧ r.type ≠ type ∧ best ≠ none ∧ LowOrHigh r ∧ i = 3 ∧
      bestRegion type (strictFlags type flags) order i best (r :: rs) = .ok best) ∨
    (Eligible type flags order r ∧ best ≠ none ∧ ¬Replaces type r ∧
      bestRegion type (strictFlags type flags) order i best (r :: rs) =
        bestRegion type (strictFlags type flags) order (i + 1) best rs) := by
  obtain ⟨o, ho⟩ := ho
  have hbitmap : HasBitmap order r ↔ o.entry ≠ [] := by
    simp [HasBitmap, ho]
  generalize hx : bestRegion type (strictFlags type flags) order i best (r :: rs) = x
  rw [bestRegion, if_neg not_isIncomplete] at hx
  simp only [ho] at hx
  split_ifs at hx with h1 h2 h3 h4 h5 h6 h7
  · exact .inl ⟨fun e => h1.1 (e.low h1.2), hx.symm⟩
  · exact .inl ⟨fun e => h2.2 (e.exact (hasStrict_strictFlags.mp h2.1)), hx.symm⟩
  · exact .inl ⟨fun e => hbitmap.mp e.bitmap h3, hx.symm⟩
  all_goals
    have he : Eligible type flags order r := by
      refine ⟨hbitmap.mpr h3, fun hlow => ?_, fun hown => ?_⟩
      · exact by_contra fun hn => h1 ⟨hn, hlow⟩
      · exact by_contra fun hn => h2 ⟨hasStrict_strictFlags.mpr hown, hn⟩
  · exact .inr (.inl ⟨he, .inl h4, hx.symm⟩)
  · exact .inr (.inl ⟨he, .inr (.inl h5), hx.symm⟩)
  · exact .inr (.inr (.inl ⟨he, h4, h5, h6, h7, hx.symm⟩))
  · exact .inr (.inl ⟨he, .inr (.inr ⟨h6, h7⟩), hx.symm⟩)
  · exact .inr (.inr (.inr ⟨he, h5, fun hr => hr.elim h4 h6, hx.symm⟩))

namespace Best

theorem zero : Best type flags order region 0 none := by
  constructor
  case empty => exact fun _ j hj => absurd hj (Nat.not_lt_zero j)
  case found =>
    intro k hb
    cases hb

-- A region that changes nothing is passed.
theorem pass (h : Best type flags order region n best) (hr : region[n]? = some r)
    (hp : ¬Eligible type flags order r ∨ best ≠ none ∧ ¬Replaces type r) :
    Best type flags order region (n + 1) best := by
  have hlast {r' : MemRegion} (hn : region[n]? = some r') (he : Eligible type flags order r') :
      best ≠ none ∧ ¬Replaces type r' := by
    rw [hr] at hn
    cases hn
    exact hp.resolve_left fun hne => hne he
  constructor
  case empty =>
    intro hb j hj r' hr' he
    rcases Nat.lt_succ_iff_lt_or_eq.mp hj with hlt | rfl
    · exact h.empty hb j hlt r' hr' he
    · exact (hlast hr' he).1 hb
  case found =>
    intro k hb
    obtain ⟨hk, r₁, hr₁, he₁, hfirst, hlater⟩ := h.found hb
    refine ⟨Nat.lt_succ_of_lt hk, r₁, hr₁, he₁, hfirst.imp_right fun hnone j hj r' hr' he => ?_,
      fun j hj hkj r' hr' he => ?_⟩
    · rcases Nat.lt_succ_iff_lt_or_eq.mp hj with hlt | rfl
      · exact hnone j hlt r' hr' he
      · exact (hlast hr' he).2
    · rcases Nat.lt_succ_iff_lt_or_eq.mp hj with hlt | rfl
      · exact hlater j hlt hkj r' hr' he
      · exact (hlast hr' he).2

-- A region is taken.
theorem take (h : Best type flags order region n best) (hr : region[n]? = some r)
    (he : Eligible type flags order r) (ht : Replaces type r ∨ best = none) :
    Best type flags order region (n + 1) (some n) := by
  constructor
  case empty => exact fun hb => absurd hb (Option.some_ne_none n)
  case found =>
    intro k hb
    cases hb
    refine ⟨Nat.lt_succ_self n, r, hr, he, ?_, fun j hj hnj => absurd hj (Nat.not_lt_of_le hnj)⟩
    by_cases hrep : Replaces type r
    · exact .inl hrep
    · refine .inr fun j hj r' hr' he' => ?_
      rcases Nat.lt_succ_iff_lt_or_eq.mp hj with hlt | rfl
      · exact absurd he' (h.empty (ht.resolve_left hrep) j hlt r' hr')
      · cases hr.symm.trans hr'
        exact hrep

theorem exists_eligible (h : Best type flags order region n best) (hb : best ≠ none) :
    ∃ j < n, ∃ r, region[j]? = some r ∧ Eligible type flags order r := by
  obtain ⟨k, hk⟩ := Option.ne_none_iff_exists'.mp hb
  obtain ⟨hlt, r, hr, he, _⟩ := h.found hk
  exact ⟨k, hlt, r, hr, he⟩

end Best

-- The break is still ahead, or there is none.
def Ahead (type : Nat) (flags : BitVec 16) (order : Nat) (region : List MemRegion) (n : Nat) : Prop :=
  n ≤ 3 ∨ ¬StopsAt3 type flags order region

theorem Ahead.next (h : Ahead type flags order region n)
    (h3 : n = 3 → ¬StopsAt3 type flags order region) : Ahead type flags order region (n + 1) := by
  rcases h with hle | hn
  · rcases Nat.lt_or_eq_of_le hle with hlt | heq
    · exact .inl hlt
    · exact .inr (h3 heq)
  · exact .inr hn

theorem bestRegion_best (ho : AllOrders region) (hk : order < maxOrder) {rs : List MemRegion}
    (hd : region.drop n = rs) (hn : n ≤ region.length) (ha : Ahead type flags order region n)
    (h : Best type flags order region n best) :
    ∃ res m, bestRegion type (strictFlags type flags) order n best rs = .ok res ∧
      Looked type flags order region m ∧ Best type flags order region m res := by
  induction rs generalizing n best
  case nil =>
    have hlen : n = region.length := Nat.le_antisymm hn (List.drop_eq_nil_iff.mp hd)
    refine ⟨best, n, rfl, .inr ⟨fun hs => ?_, hlen⟩, h⟩
    obtain ⟨r, hr, _⟩ := hs.1
    have hlt : 3 < region.length := (List.getElem?_eq_some_iff.mp hr).1
    exact ha.elim (fun hle => absurd hle (by omega)) fun hns => hns hs
  case cons r rs hi =>
    have hr : region[n]? = some r := by
      rw [← List.head?_drop, hd]
      rfl
    have hlt : n < region.length := (List.getElem?_eq_some_iff.mp hr).1
    have hd' : region.drop (n + 1) = rs := by
      rw [← List.tail_drop, hd]
      rfl
    have hlen : r.order.length = maxOrder := ho r (List.mem_of_getElem? hr)
    have hat : ∃ o, r.order[order]? = some o := ⟨_, List.getElem?_eq_getElem (hlen ▸ hk)⟩
    rcases @bestRegion_cons r best type order n flags rs hat
      with ⟨hne, heq⟩ | ⟨he, ht, heq⟩ | ⟨he, htype, hb, hlh, h3, heq⟩ | ⟨he, hb, hrep, heq⟩
    · rw [heq]
      refine hi hd' hlt (ha.next fun h3 hs => ?_) (h.pass hr (.inl hne))
      obtain ⟨r', hr', he', _⟩ := hs.1
      subst h3
      cases hr.symm.trans hr'
      exact hne he'
    · rw [heq]
      refine hi hd' hlt (ha.next fun h3 hs => ?_) (h.take hr he ?_)
      · obtain ⟨⟨r', hr', he', htype', _⟩, j, hj, r₁, hr₁, he₁⟩ := hs
        subst h3
        cases hr.symm.trans hr'
        rcases ht with ht | ht | ht
        · exact htype' ht
        · exact h.empty ht j hj r₁ hr₁ he₁
        · exact ht.2 rfl
      · rcases ht with ht | ht | ht
        · exact .inl (.inl ht)
        · exact .inr ht
        · exact .inl (.inr ht.1)
    · subst h3
      exact ⟨best, 3, heq, .inl ⟨⟨⟨r, hr, he, htype, hlh⟩, h.exists_eligible hb⟩, rfl⟩, h⟩
    · rw [heq]
      refine hi hd' hlt (ha.next fun h3 hs => ?_) (h.pass hr (.inr ⟨hb, hrep⟩))
      obtain ⟨r', hr', _, _, hlh⟩ := hs.1
      subst h3
      cases hr.symm.trans hr'
      exact hrep (.inr hlh)

theorem exists_best (ho : AllOrders region) (hk : order < maxOrder) :
    ∃ res m, bestRegion type (strictFlags type flags) order 0 none region = .ok res ∧
      Looked type flags order region m ∧ Best type flags order region m res :=
  bestRegion_best ho hk rfl (Nat.zero_le _) (.inl (Nat.zero_le 3)) .zero

theorem Best.none_iff {res : Option Nat} (h : Best type flags order region n res)
    (hl : Looked type flags order region n) :
    res = none ↔ ∀ r ∈ region, ¬Eligible type flags order r := by
  constructor
  case mp =>
    intro hres r hr he
    obtain ⟨j, hj⟩ := List.getElem?_of_mem hr
    rcases hl with ⟨hs, rfl⟩ | ⟨_, rfl⟩
    · obtain ⟨k, hk, r', hr', he'⟩ := hs.2
      exact h.empty hres k hk r' hr' he'
    · exact h.empty hres j (List.getElem?_eq_some_iff.mp hj).1 r hj he
  case mpr =>
    intro hne
    by_contra hres
    obtain ⟨j, _, r, hr, he⟩ := h.exists_eligible hres
    exact hne r (List.mem_of_getElem? hr) he

end Loop

section Panic

theorem bind_ne_halt {α β : Type} {x : Except Exit α} {f : α → Except Exit β}
    (hx : x ≠ .error .halt) (hf : ∀ a, x = .ok a → f a ≠ .error .halt) :
    (x >>= f) ≠ .error .halt := by
  intro h
  rcases x with e | a
  · exact hx (by cases h; rfl)
  · exact hf a rfl h

theorem modify_ne_halt {f : Word → Word} {idx : Nat} : r.modify k idx f n ≠ .error .halt := by
  unfold MemRegion.modify
  split
  · simp
  · split <;> simp

theorem setChildren_ne_halt {idx bit : Nat} : setChildren idx bit i n r ≠ .error .halt := by
  induction n generalizing idx bit i r
  case zero => simp [setChildren]
  case succ n hi => exact bind_ne_halt modify_ne_halt fun _ _ => hi

theorem setParents_ne_halt {idx bit : Nat} : setParents k idx bit n r ≠ .error .halt := by
  induction n generalizing k idx bit r
  case zero => simp [setParents]
  case succ n hi =>
    unfold setParents
    split
    · intro h
      cases h
    · exact bind_ne_halt modify_ne_halt fun _ _ => hi

theorem setBit_ne_halt {idx bit : Nat} : setBit r order idx bit ≠ .error .halt :=
  bind_ne_halt setChildren_ne_halt fun _ _ => bind_ne_halt modify_ne_halt fun _ _ => setParents_ne_halt

theorem findWord_ne_halt {entry : List Word} {idx : Nat} : findWord entry idx n ≠ .error .halt := by
  induction n generalizing idx
  case zero => simp [findWord]
  case succ n hi =>
    unfold findWord
    split
    · simp
    · split
      · exact hi
      · simp

theorem allocRegion_ne_halt : allocRegion r order ≠ .error .halt := by
  unfold allocRegion
  split
  · simp
  · split
    · intro h
      cases h
    · apply bind_ne_halt findWord_ne_halt
      intro found _
      rcases found with _ | ⟨idx, w⟩
      · intro h
        cases h
      · apply bind_ne_halt setBit_ne_halt
        intro r' _ h
        cases h

theorem allocIn_ne_halt : allocIn order s (some i) ≠ .error .halt := by
  simp only [allocIn]
  split
  · simp
  · apply bind_ne_halt allocRegion_ne_halt
    intro ret _ h
    cases h

end Panic

theorem length_makeOrders {blc : Nat} {os : List MemOrder} : (makeOrders blc os).length = os.length := by
  induction os generalizing blc
  case nil => rfl
  case cons o os hi => exact congrArg Nat.succ hi

theorem allOrders_initial {entries : List MmapEntry} : AllOrders (initial entries).pmm.region := by
  intro r hr
  obtain ⟨e, _, rfl⟩ := List.mem_map.mp hr
  exact length_makeOrders

-- The region that `allocPhys` takes its block from.
def Selects (bytes type : Nat) (flags : BitVec 16) (s : Regions) (i : Nat) : Prop :=
  bestRegion type (strictFlags type flags) (orderOf bytes) 0 none s.region = .ok (some i)

-- The selected region is an eligible one, and the kernel panics only when there is none.
theorem allocPhys_selects (hl : s.buddyLock = false) (ho : AllOrders s.region)
    (hk : orderOf bytes < maxOrder) :
    (∀ i, Selects bytes type flags s i →
      allocPhys bytes type flags s = allocIn (orderOf bytes) s (some i) ∧
      ∃ r, s.region[i]? = some r ∧ Eligible type flags (orderOf bytes) r) ∧
    (allocPhys bytes type flags s = .error .halt ↔
      ∀ r ∈ s.region, ¬Eligible type flags (orderOf bytes) r) := by
  obtain ⟨res, n, hres, hlooked, hbest⟩ := @exists_best _ type _ flags ho hk
  have heq : allocPhys bytes type flags s = allocIn (orderOf bytes) s res := by
    rw [allocPhys_eq hl, hres]
    rfl
  constructor
  · intro i hi
    cases hres.symm.trans hi
    obtain ⟨_, r, hr, he, _⟩ := hbest.found rfl
    exact ⟨heq, r, hr, he⟩
  · rw [heq, ← hbest.none_iff hlooked]
    cases res
    case none   => exact iff_of_true rfl rfl
    case some i => exact iff_of_false allocIn_ne_halt (Option.some_ne_none i)

-- A region below 1 MB, one below 4 GB and one above.
def threeTypes : List MmapEntry :=
  [{ tenOrders with phys := 0x10000, bytes := 0x8000 }, tenOrders, { tenOrders with phys := 0x100000000 }]

-- A request for high memory passes over the region below 1 MB, takes the low one, and then the high one.
theorem allocPhys_selects_threeTypes : Selects 1 memoryTypeHgh 0 (initial threeTypes).pmm 2 ∧
    allocPhys 1 memoryTypeHgh 0 (initial threeTypes).pmm = allocIn (orderOf 1) (initial threeTypes).pmm (some 2) ∧
    (∃ r, (initial threeTypes).pmm.region[2]? = some r ∧ Eligible memoryTypeHgh 0 (orderOf 1) r) ∧
    allocPhys 1 memoryTypeHgh 0 (initial threeTypes).pmm ≠ .error .halt := by
  have hsel : Selects 1 memoryTypeHgh 0 (initial threeTypes).pmm 2 := rfl
  obtain ⟨hfound, hpanic⟩ := @allocPhys_selects (initial threeTypes).pmm 1 memoryTypeHgh 0 rfl
    allOrders_initial (by decide)
  obtain ⟨heq, r, hr, he⟩ := hfound 2 hsel
  exact ⟨hsel, heq, ⟨r, hr, he⟩, fun h => hpanic.mp h r (List.mem_of_getElem? hr) he⟩

section Preferred

-- The request gets memory of its own type when a region of that type has the order.
def Preferred (bytes type : Nat) (flags : BitVec 16) (s : Regions) : Prop :=
  (∃ r ∈ s.region, HasBitmap (orderOf bytes) r ∧ r.type = type) →
    ∀ i r, Selects bytes type flags s i → s.region[i]? = some r → r.type = type

-- Before the break there is a region of the requested type, and no low or high one of another type
-- after it.
def Survives (type : Nat) (flags : BitVec 16) (order : Nat) (region : List MemRegion) : Prop :=
  ∃ n, Looked type flags order region n ∧
    ∃ j < n, ∃ r, region[j]? = some r ∧ Eligible type flags order r ∧ r.type = type ∧
      ∀ k < n, j < k → ∀ r', region[k]? = some r' → Eligible type flags order r' → LowOrHigh r' →
        r'.type = type

theorem Looked.unique {m : Nat} (h : Looked type flags order region n)
    (h' : Looked type flags order region m) : n = m := by
  rcases h with ⟨hs, rfl⟩ | ⟨hs, rfl⟩
  · exact h'.elim (fun h' => h'.2.symm) fun h' => absurd hs h'.1
  · exact h'.elim (fun h' => absurd h'.1 hs) fun h' => h'.2.symm

theorem Best.exact_iff (hb : Best type flags order region n (some i)) (hr : region[i]? = some r)
    (hl : Looked type flags order region n) : r.type = type ↔ Survives type flags order region := by
  obtain ⟨hi, r₁, hr₁, he, hfirst, hlater⟩ := hb.found rfl
  cases hr.symm.trans hr₁
  constructor
  case mp =>
    intro htype
    exact ⟨n, hl, i, hi, r, hr, he, htype,
      fun k hk hik r' hr' he' hlh => absurd (.inr hlh) (hlater k hk hik r' hr' he')⟩
  case mpr =>
    rintro ⟨m, hm, j, hj, r', hr', he', htype', hafter⟩
    cases hl.unique hm
    rcases Nat.lt_trichotomy i j with hlt | rfl | hlt
    · exact absurd (.inl htype') (hlater j hj hlt r' hr' he')
    · cases hr.symm.trans hr'
      exact htype'
    · rcases hfirst with hrep | hnone
      · exact hrep.elim id (hafter i hi hlt r hr he)
      · exact absurd (.inl htype') (hnone j hj r' hr' he')

theorem Eligible.of_exact (hb : HasBitmap order r) (ht : r.type = type) :
    Eligible type flags order r where
  bitmap := hb
  low    := fun h => ht ▸ h
  exact  := fun _ => ht

theorem HasBitmap.lt (ho : AllOrders region) (hr : r ∈ region) (h : HasBitmap order r) :
    order < maxOrder := by
  obtain ⟨o, ho', _⟩ := h
  rw [← ho r hr]
  exact (List.getElem?_eq_some_iff.mp ho').1

-- A selected region is of the requested type, when there is one, exactly for these tables.
theorem allocPhys_prefers_iff (ho : AllOrders s.region) : Preferred bytes type flags s ↔
      (∀ r ∈ s.region, HasBitmap (orderOf bytes) r → r.type ≠ type) ∨
        Survives type flags (orderOf bytes) s.region := by
  constructor
  case mp =>
    intro hp
    apply or_iff_not_imp_left.mpr
    intro hnot
    push Not at hnot
    obtain ⟨r, hr, hb, htype⟩ := hnot
    obtain ⟨res, n, hres, hl, hbest⟩ := @exists_best _ type _ flags ho (hb.lt ho hr)
    have hsome : res ≠ none := by
      intro hnone
      exact hbest.none_iff hl |>.mp hnone r hr (.of_exact hb htype)
    obtain ⟨i, rfl⟩ := Option.ne_none_iff_exists'.mp hsome
    obtain ⟨_, r', hr', _⟩ := hbest.found rfl
    exact hbest.exact_iff hr' hl |>.mp (hp ⟨r, hr, hb, htype⟩ i r' hres hr')
  case mpr =>
    rintro (hnone | hs) ⟨r, hr, hb, htype⟩ i r' hi hr'
    · exact absurd htype (hnone r hr hb)
    · obtain ⟨res, n, hres, hl, hbest⟩ := @exists_best _ type _ flags ho (hb.lt ho hr)
      cases hi.symm.trans hres
      exact hbest.exact_iff hr' hl |>.mpr hs

-- One region of 512 blocks on either side of 4 GB.
def bothSides : List MmapEntry :=
  [tenOrders, { tenOrders with phys := 0x100000000 }]

theorem allocPhys_prefers_iff_bothSides : Preferred 1 memoryTypeHgh 0 (initial bothSides).pmm ↔
    (∀ r ∈ (initial bothSides).pmm.region, HasBitmap (orderOf 1) r → r.type ≠ memoryTypeHgh) ∨
      Survives memoryTypeHgh 0 (orderOf 1) (initial bothSides).pmm.region :=
  allocPhys_prefers_iff allOrders_initial

-- The region above 4 GB replaces the one below it that was asked for.
theorem allocPhys_prefers_other : ¬∀ (bytes type : Nat) (flags : BitVec 16) (s : Regions),
    AllOrders s.region → ¬hasStrict flags → type ≠ memoryTypeAny → Preferred bytes type flags s := by
  intro h
  have hp := h 1 memoryTypeLow 0 (initial bothSides).pmm allOrders_initial (by decide) (by decide)
  have hex : ∃ r ∈ (initial bothSides).pmm.region, HasBitmap (orderOf 1) r ∧ r.type = memoryTypeLow :=
    ⟨_, .head _, ⟨_, rfl, by decide⟩, rfl⟩
  exact absurd (hp hex 1 _ rfl rfl) (by decide)

end Preferred

end RoverOS.Pmm
