import RoverOS.Paging.Theorems.MapPage

-- What the processor makes of the four entries that it reads for an address. `mapPage` adds `PG_WRITE`
-- to all of them, but decides about the user and about execution in the leaf only.

open Radix (walk Tree entry walk_concat)

namespace RoverOS.Paging

-- The entries of all levels, from the top.
def levels (s : Vm) (root virt : Word) : List Word :=
  let pml := s.tables root (pmlEntry virt)
  let pdp := s.tables (tableBase pml) (pdpeEntry virt)
  let pd  := s.tables (tableBase pdp) (pdeEntry virt)
  [pml, pdp, pd, s.tables (tableBase pd) (pteEntry virt)]

def Writable (entries : List Word) : Prop :=
  ∀ e ∈ entries, Has e pgWrite

def ForUser (entries : List Word) : Prop :=
  ∀ e ∈ entries, Has e pgUser

def Executable (entries : List Word) : Prop :=
  ∀ e ∈ entries, ¬Has e pgNx

structure Permits (flags : Word) (entries : List Word) : Prop where
  write   : Writable entries ↔ Has flags pageFlagWrite
  user    : ForUser entries ↔ Has flags pageFlagUser
  execute : Executable entries ↔ Has flags pageFlagExecute

-- The entries above the leaf grant what the flags ask for.
structure Granted (phys flags : Word) (entries : List Word) : Prop where
  user    : Has flags pageFlagUser → ForUser entries
  execute : Has flags pageFlagExecute → Executable entries ∧ ¬Has phys pgNx

-- The bits that `mapPage` never writes above the leaf.
def leafBits : Word := pgUser ||| pgNx

variable {roots : Set Word} {s : Vm} {root r r' tbl f a b e e' flags phys virt bit : Word} {i n : Index}
variable {p q : List Index} {entries entries' : List Word}

section Words

theorem has_or : Has (a ||| b) bit ↔ Has a bit ∨ Has b bit := by
  rw [Has, Has, Has, BitVec.and_or_distrib_right, ne_eq, BitVec.or_eq_zero_iff, not_and_or]

theorem not_has_of_within {mask : Word} (h : a &&& mask = a) (hb : mask &&& bit = 0#64) : ¬Has a bit := by
  rw [not_not, ← h, BitVec.and_assoc, hb, BitVec.and_zero]

theorem not_has_of_aligned (ha : isUnaligned phys = 0#64) (hb : 0xFFF &&& bit = bit) : ¬Has phys bit := by
  have ha : phys &&& 0xFFF = 0#64 := ha
  rw [not_not, ← hb, ← BitVec.and_assoc, ha, BitVec.zero_and]

theorem cacheFlags_within : cacheFlags flags &&& pgUc = cacheFlags flags := by
  unfold cacheFlags
  split_ifs <;> decide

theorem tableFlags_within : tableFlags flags &&& (pgPresent ||| pgWrite) = tableFlags flags := by
  unfold tableFlags
  split <;> decide

theorem has_tableFlags_write : Has (tableFlags flags) pgWrite ↔ Has flags pageFlagWrite := by
  unfold tableFlags
  split
  case isTrue h  => exact iff_of_true (by decide) h
  case isFalse h => exact iff_of_false (by decide) h

theorem has_leaf_write (ha : isUnaligned phys = 0#64) :
    Has (pgflags flags ||| phys) pgWrite ↔ Has flags pageFlagWrite := by
  have hu : ¬Has (if Has flags pageFlagUser then pgUser else 0#64) pgWrite := by split <;> decide
  have hx : ¬Has (if Has flags pageFlagExecute then 0#64 else pgNx) pgWrite := by split <;> decide
  have hc : ¬Has (cacheFlags flags) pgWrite := not_has_of_within cacheFlags_within (by decide)
  have hp : ¬Has phys pgWrite := not_has_of_aligned ha (by decide)
  simp only [pgflags, has_or, hu, hx, hc, hp, has_tableFlags_write, or_false]

theorem has_leaf_user (ha : isUnaligned phys = 0#64) :
    Has (pgflags flags ||| phys) pgUser ↔ Has flags pageFlagUser := by
  have ht : ¬Has (tableFlags flags) pgUser := not_has_of_within tableFlags_within (by decide)
  have hx : ¬Has (if Has flags pageFlagExecute then 0#64 else pgNx) pgUser := by split <;> decide
  have hc : ¬Has (cacheFlags flags) pgUser := not_has_of_within cacheFlags_within (by decide)
  have hp : ¬Has phys pgUser := not_has_of_aligned ha (by decide)
  have hu : Has (if Has flags pageFlagUser then pgUser else 0#64) pgUser ↔ Has flags pageFlagUser := by
    split
    case isTrue h  => exact iff_of_true (by decide) h
    case isFalse h => exact iff_of_false (by decide) h
  simp only [pgflags, has_or, ht, hx, hc, hp, hu, false_or, or_false]

theorem not_has_leaf_nx : ¬Has (pgflags flags ||| phys) pgNx ↔ Has flags pageFlagExecute ∧ ¬Has phys pgNx := by
  have ht : ¬Has (tableFlags flags) pgNx := not_has_of_within tableFlags_within (by decide)
  have hu : ¬Has (if Has flags pageFlagUser then pgUser else 0#64) pgNx := by split <;> decide
  have hc : ¬Has (cacheFlags flags) pgNx := not_has_of_within cacheFlags_within (by decide)
  have hx : ¬Has (if Has flags pageFlagExecute then 0#64 else pgNx) pgNx ↔ Has flags pageFlagExecute := by
    split
    case isTrue h  => exact iff_of_true (by decide) h
    case isFalse h => exact iff_of_false (by decide) h
  rw [pgflags, has_or, has_or, has_or, has_or, not_or, not_or, not_or, not_or, hx]
  exact ⟨fun h => ⟨h.left.left.right, h.right⟩, fun h => ⟨⟨⟨⟨ht, hu⟩, h.left⟩, hc⟩, h.right⟩⟩

-- The leaf is as the flags ask for, so that the upper levels decide.
theorem permits_iff (ha : isUnaligned phys = 0#64) (hw : Has flags pageFlagWrite → Writable entries) :
    Permits flags (entries ++ [pgflags flags ||| phys]) ↔ Granted phys flags entries := by
  have hw' : Writable (entries ++ [pgflags flags ||| phys]) ↔ Has flags pageFlagWrite := by
    rw [Writable, List.forall_mem_append, List.forall_mem_singleton, has_leaf_write ha]
    exact ⟨And.right, fun h => ⟨hw h, h⟩⟩
  have hu : ForUser (entries ++ [pgflags flags ||| phys]) ↔ ForUser entries ∧ Has flags pageFlagUser := by
    rw [ForUser, List.forall_mem_append, List.forall_mem_singleton, has_leaf_user ha, ForUser]
  have hx : Executable (entries ++ [pgflags flags ||| phys]) ↔
      Executable entries ∧ Has flags pageFlagExecute ∧ ¬Has phys pgNx := by
    rw [Executable, List.forall_mem_append, List.forall_mem_singleton, not_has_leaf_nx, Executable]
  constructor
  case mp =>
    intro h
    have hu := hu.symm.trans h.user
    have hx := hx.symm.trans h.execute
    exact ⟨fun h => (hu.mpr h).left, fun h => ⟨(hx.mpr h).left, (hx.mpr h).right.right⟩⟩
  case mpr =>
    intro h
    refine ⟨hw', hu.trans ?user, hx.trans ?execute⟩
    case user    => exact ⟨And.right, fun hf => ⟨h.user hf, hf⟩⟩
    case execute => exact ⟨fun h => h.right.left, fun hf => ⟨(h.execute hf).left, hf, (h.execute hf).right⟩⟩

theorem has_iff_of_leafBits (h : e &&& leafBits = e' &&& leafBits) (hb : leafBits &&& bit = bit) :
    Has e bit ↔ Has e' bit := by
  rw [Has, Has, ← hb, ← BitVec.and_assoc, ← BitVec.and_assoc, h]

theorem Granted.congr (h : entries.map (· &&& leafBits) = entries'.map (· &&& leafBits)) :
    Granted phys flags entries ↔ Granted phys flags entries' := by
  have hall {Q : Word → Prop} (hQ : ∀ e e', e &&& leafBits = e' &&& leafBits → (Q e ↔ Q e')) :
      (∀ e ∈ entries, Q e) ↔ ∀ e ∈ entries', Q e := by
    have hm (l : List Word) : (∀ e ∈ l, Q e) ↔ ∀ b ∈ l.map (· &&& leafBits), ∃ e, b = e &&& leafBits ∧ Q e := by
      simp only [List.forall_mem_map]
      constructor
      · exact fun hl e he => ⟨e, rfl, hl e he⟩
      · intro hl e he
        obtain ⟨e', heq, hq⟩ := hl e he
        exact (hQ e e' heq).mpr hq
    rw [hm, hm, h]
  have hu := hall fun e e' h => has_iff_of_leafBits h (by decide : leafBits &&& pgUser = pgUser)
  have hx := hall fun e e' h => not_congr (has_iff_of_leafBits h (by decide : leafBits &&& pgNx = pgNx))
  constructor
  · exact fun g => ⟨fun h => hu.mp (g.user h), fun h => ⟨hx.mp (g.execute h).left, (g.execute h).right⟩⟩
  · exact fun g => ⟨fun h => hu.mpr (g.user h), fun h => ⟨hx.mpr (g.execute h).left, (g.execute h).right⟩⟩

end Words

section Uppers

-- The entries on a path through frames of the pool, as they come. When there are no frames left, the
-- pool is filled again with cleared ones.
def fresh (s : Vm) : List Word → List Index → List Word
  | _, []               => []
  | [], _ :: p          => 0#64 :: fresh s [] p
  | f :: frames, n :: p => s.tables f n :: fresh s frames p

-- The entries that `mapPage` finds on its way down. From the first table on that is missing, the tables
-- are frames of the pool.
def uppers (s : Vm) (frames : List Word) : Word → List Index → List Word
  | _, []       => []
  | tbl, n :: p =>
    let e := s.tables tbl n
    e :: if tableBase e = 0#64 then fresh s frames p else uppers s frames (tableBase e) p

variable {frames : List Word} {s' : Vm}

@[simp]
theorem fresh_nil : fresh s frames [] = [] := by
  simp [fresh]

theorem child_eq_some_iff : child e = some a ↔ tableBase e ≠ 0#64 ∧ tableBase e = a := by
  unfold child
  split
  case isTrue h  => simp [h]
  case isFalse h => simp [h]

theorem levels_eq (h : leaf s root virt = some e) : levels s root virt = uppers s frames root (path virt) ++ [e] := by
  rw [leaf, walk_path] at h
  simp only [Option.map_eq_some_iff, Option.bind_eq_some_iff, child_eq_some_iff] at h
  obtain ⟨_, ⟨_, ⟨h₁, rfl⟩, _, ⟨h₂, rfl⟩, h₃, rfl⟩, rfl⟩ := h
  simp [levels, uppers, path, h₁, h₂]

theorem uppers_append (h : walk child s.tables root q = some tbl) :
    uppers s frames root (q ++ p) = uppers s frames root q ++ uppers s frames tbl p := by
  induction q generalizing root
  case nil =>
    cases h
    rfl
  case cons n q hi =>
    simp only [walk, Option.bind_eq_some_iff, child_eq_some_iff] at h
    obtain ⟨_, ⟨hb, rfl⟩, hw⟩ := h
    simp [uppers, hb, hi hw]

theorem uppers_of_walk {pdpe pde : Word} (h₁ : walk child s.tables root [pmlEntry virt] = some pdpe)
    (h₂ : walk child s.tables root [pmlEntry virt, pdpeEntry virt] = some pde) : uppers s frames root (path virt) =
      [s.tables root (pmlEntry virt), s.tables pdpe (pdpeEntry virt), s.tables pde (pdeEntry virt)] := by
  simp only [walk, Option.bind_eq_some_iff, child_eq_some_iff, Option.some.injEq] at h₁ h₂
  obtain ⟨_, ⟨hb₁, rfl⟩, rfl⟩ := h₁
  obtain ⟨_, ⟨-, rfl⟩, _, ⟨hb₂, rfl⟩, rfl⟩ := h₂
  simp [uppers, path, hb₁, hb₂]

theorem fresh_congr (h : ∀ f ∈ frames, s'.tables f = s.tables f) : fresh s' frames p = fresh s frames p := by
  induction p generalizing frames
  case nil => simp
  case cons n p hi =>
    cases frames
    case nil => rw [fresh, fresh, hi h]
    case cons f frames =>
      rw [fresh, fresh, h f (.head _), hi fun f hf => h f (.tail _ hf)]

theorem uppers_congr (h : s'.tables = s.tables) : uppers s' frames root p = uppers s frames root p := by
  have hfresh : fresh s' frames = fresh s frames := funext fun p => fresh_congr fun f _ => congrFun h f
  induction p generalizing root
  case nil => rfl
  case cons n p hi => rw [uppers, uppers, h, hfresh, hi]

theorem fresh_zero (h : ∀ f ∈ frames, ∀ n, s.tables f n = 0#64) :
    fresh s frames p = List.replicate p.length 0#64 := by
  induction p generalizing frames
  case nil => simp
  case cons n p hi =>
    cases frames
    case nil => rw [fresh, hi h, List.length_cons, List.replicate_succ]
    case cons f frames =>
      rw [fresh, h f (.head _), hi fun f hf => h f (.tail _ hf), List.length_cons, List.replicate_succ]

-- The bits of an entry above the leaf. A table that is missing counts as cleared.
def upperBits (s : Vm) (r : Word) (p : List Index) (i : Index) : Word :=
  (entry child s.tables r p i).getD 0#64 &&& leafBits

theorem upperBits_congr (h : s'.tables = s.tables) : upperBits s' r p i = upperBits s r p i := by
  rw [upperBits, upperBits, h]

theorem uppers_zero (h : ∀ f ∈ frames, ∀ n, s.tables f n = 0#64) :
    (uppers s frames root (path virt)).map (· &&& leafBits) =
      [upperBits s root [] (pmlEntry virt), upperBits s root [pmlEntry virt] (pdpeEntry virt),
        upperBits s root [pmlEntry virt, pdpeEntry virt] (pdeEntry virt)] := by
  simp only [uppers, path, upperBits, entry, walk, child, fresh_zero h]
  split
  case isTrue => simp
  case isFalse =>
    split
    case isTrue h  => simp [h]
    case isFalse h => simp [h]

end Uppers

section Writes

theorem or_and_leafBits (h : b &&& leafBits = 0#64) : (a ||| b) &&& leafBits = a &&& leafBits := by
  rw [BitVec.and_or_distrib_right, h, BitVec.or_zero]

theorem tableFlags_and_leafBits : tableFlags flags &&& leafBits = 0#64 := by
  unfold tableFlags
  split <;> decide

-- A frame's address has none of these bits.
theorem and_leafBits_of_tableBase (h : tableBase f = f) : f &&& leafBits = 0#64 := by
  have hm : baseMask &&& leafBits = 0#64 := by decide
  rw [← h, tableBase, BitVec.and_assoc, hm, BitVec.and_zero]

variable (t : Tree child s.tables roots 3) (hr : r ∈ roots)

include t hr

-- An entry that only gets other bits.
theorem upperBits_set (hq : q.length < 3) (hw : walk child s.tables r q = some tbl)
    (he : e &&& leafBits = s.tables tbl n &&& leafBits) (hr' : r' ∈ roots) (hp : p.length < 3)
    (hwalk : walk child (s.setEntry tbl n e).tables r' p = walk child s.tables r' p) :
    upperBits (s.setEntry tbl n e) r' p i = upperBits s r' p i := by
  by_cases hs : r' = r ∧ p = q ∧ i = n
  case pos =>
    obtain ⟨rfl, rfl, rfl⟩ := hs
    rw [upperBits, upperBits, entry, entry, hwalk, hw]
    simp [he]
  case neg =>
    rw [upperBits, upperBits, Vm.setEntry_tables, t.entry_set hr hq.le hw hr' hp.le hwalk hs]

theorem upperBits_orFlags (hq : q.length < 3) (hw : walk child s.tables r q = some tbl) (hr' : r' ∈ roots)
    (hp : p.length < 3) : upperBits (s.orEntry tbl n (tableFlags flags)) r' p i = upperBits s r' p i :=
  upperBits_set t hr hq hw (or_and_leafBits tableFlags_and_leafBits) hr' hp walk_orFlags

theorem upperBits_setLeaf (hw : walk child s.tables r (path virt) = some tbl) (hr' : r' ∈ roots)
    (hp : p.length < 3) : upperBits (s.setEntry tbl n e) r' p i = upperBits s r' p i := by
  have hs : ¬(r' = r ∧ p = path virt ∧ i = n) := by
    rintro ⟨-, rfl, -⟩
    exact absurd hp (by simp)
  have hwalk := walk_setLeaf t hr (e := e) (n := n) hw hr' hp.le
  rw [upperBits, upperBits, Vm.setEntry_tables, t.entry_set hr (by simp) hw hr' hp.le hwalk hs]

-- A cleared frame that is linked shows in no entry.
theorem upperBits_link (hq : q.length < 3) (hw : walk child s.tables r q = some tbl)
    (hb : tableBase (s.tables tbl n) = 0#64) (hf : Spare roots s f) (hz : ∀ j, s.tables f j = 0#64)
    (hr' : r' ∈ roots) (hp : p.length < 3) : upperBits (s.orEntry tbl n f) r' p i = upperBits s r' p i := by
  have hbl (_ : q.length + 1 < 3) : Blank s f := fun j => by rw [hz, tableBase_zero]
  by_cases hs : r' = r ∧ p = q ++ [n]
  case pos =>
    have hft : f ≠ tbl := hf.ne_of_inUse ⟨r, hr, q, hq.le, hw⟩
    obtain ⟨rfl, rfl⟩ := hs
    rw [upperBits, upperBits, entry, entry, hf.walk_link_new t hr hq hw hb, walk_link_none hw hb]
    simp [Radix.Tables.set_of_ne_table hft, hz]
  case neg =>
    have hwalk := hf.walk_link t hr hq hw hb hbl hr' hp.le hs
    exact upperBits_set t hr hq hw (or_and_leafBits (and_leafBits_of_tableBase hf.aligned)) hr' hp hwalk

variable {pdpe pde pte : Word} {frames : List Word}

theorem upperBits_finish (h₁ : walk child s.tables r [pmlEntry virt] = some pdpe)
    (h₂ : walk child s.tables r [pmlEntry virt, pdpeEntry virt] = some pde)
    (h₃ : walk child s.tables r (path virt) = some pte) (hr' : r' ∈ roots) (hp : p.length < 3) :
    upperBits (finish r pdpe pde pte virt phys flags s) r' p i = upperBits s r' p i := by
  let u := s.orEntry r (pmlEntry virt) (tableFlags flags)
  have t₁ : Tree child u.tables roots 3 := tree_orFlags t
  have t₂ : Tree child (u.orEntry pdpe (pdpeEntry virt) (tableFlags flags)).tables roots 3 := tree_orFlags t₁
  unfold finish
  rw [upperBits_setLeaf (tree_orFlags t₂) hr (by simpa only [u, walk_orFlags] using h₃) hr' hp]
  rw [upperBits_orFlags (q := [pmlEntry virt, pdpeEntry virt]) t₂ hr (by simp)
    (by simpa only [u, walk_orFlags] using h₂) hr' hp]
  rw [upperBits_orFlags (q := [pmlEntry virt]) t₁ hr (by simp) (by simpa only [u, walk_orFlags] using h₁) hr' hp]
  exact upperBits_orFlags (q := []) t hr (by simp) rfl hr' hp

-- The entries above a table do not change with it.
theorem uppers_set {frames frames' : List Word} (hq : q.length ≤ 3) (hw : walk child s.tables r q = some tbl)
    (hp : p.length ≤ q.length) (hb : walk child s.tables r p = some b) :
    uppers (s.setEntry tbl n e) frames r p = uppers s frames' r p := by
  induction p using List.reverseRecOn generalizing b
  case nil => rfl
  case append_singleton p i hi =>
    simp only [List.length_append, List.length_singleton] at hp
    rw [walk_concat, Option.bind_eq_some_iff] at hb
    obtain ⟨c, hc, -⟩ := hb
    have hne : c ≠ tbl := by
      rintro rfl
      obtain ⟨-, rfl⟩ := t hr hr hq (by omega) hw hc
      omega
    have hc' : walk child (s.setEntry tbl n e).tables r p = some c := by
      rw [← hc]
      exact t.walk_set hr hq hw hr (by omega)
    rw [uppers_append hc, uppers_append hc', hi (by omega) hc]
    simp [uppers, Radix.Tables.set_of_ne_table hne]

-- Linking the next frame of the pool does not change what will be found on the way down.
theorem uppers_link (hq : q.length < 3) (hw : walk child s.tables r q = some tbl)
    (hb : tableBase (s.tables tbl n) = 0#64) (hf : Spare roots s f) {frames : List Word}
    (hfr : ∀ g ∈ frames, Spare roots s g) (hbl : p ≠ [] → Blank s f) :
    (uppers (s.orEntry tbl n f) frames r (q ++ n :: p)).map (· &&& leafBits) =
      (uppers s (f :: frames) r (q ++ n :: p)).map (· &&& leafBits) := by
  have hin : Radix.InUse child s.tables roots 3 tbl := ⟨r, hr, q, hq.le, hw⟩
  have hw' : walk child (s.orEntry tbl n f).tables r q = some tbl := by
    rw [← hw]
    exact t.walk_set hr hq.le hw hr le_rfl
  have hbase : tableBase (s.tables tbl n ||| f) = f := tableBase_link hb hf.aligned
  have hbits := or_and_leafBits (a := s.tables tbl n) (and_leafBits_of_tableBase hf.aligned)
  have htail : uppers (s.orEntry tbl n f) frames f p = fresh s (f :: frames) p := by
    cases p
    case nil => rw [uppers, fresh_nil]
    case cons j p =>
      have hframes : fresh (s.orEntry tbl n f) frames p = fresh s frames p :=
        fresh_congr fun g hg => (hfr g hg).contents hin
      have hcontents : (s.orEntry tbl n f).tables f = s.tables f := hf.contents hin
      rw [uppers, fresh, hcontents, if_pos (hbl (by simp) j), hframes]
  rw [uppers_append hw, uppers_append hw', uppers, uppers]
  rw [Vm.orEntry_tables, Radix.Tables.set_same, hbase, if_neg hf.nonzero, if_pos hb, htail]
  have habove : uppers (s.setEntry tbl n (s.tables tbl n ||| f)) frames r q = uppers s (f :: frames) r q :=
    uppers_set t hr hq.le hw le_rfl hw
  rw [Vm.orEntry, habove, List.map_append, List.map_append, List.map_cons, List.map_cons, hbits]

omit t hr in
theorem has_orEntry (h : Has (s.tables a i) bit ∨ (a = tbl ∧ i = n ∧ Has b bit)) :
    Has ((s.orEntry tbl n b).tables a i) bit := by
  by_cases hs : a = tbl ∧ i = n
  case pos =>
    obtain ⟨rfl, rfl⟩ := hs
    rw [Vm.orEntry_tables, Radix.Tables.set_same, has_or]
    exact h.imp_right fun h => h.right.right
  case neg =>
    rw [Vm.orEntry_tables, Radix.Tables.set_of_ne hs]
    exact h.resolve_right fun h => hs ⟨h.left, h.right.left⟩

-- The tables on the way down are none of the lowest ones.
theorem ne_leafTable (hq : q.length < 3) (hw : walk child s.tables r q = some tbl)
    (h₃ : walk child s.tables r (path virt) = some pte) : tbl ≠ pte := by
  rintro rfl
  obtain ⟨-, rfl⟩ := t hr hr hq.le (by simp) hw h₃
  exact absurd hq (by simp)

theorem writable_finish (h₁ : walk child s.tables r [pmlEntry virt] = some pdpe)
    (h₂ : walk child s.tables r [pmlEntry virt, pdpeEntry virt] = some pde)
    (h₃ : walk child s.tables r (path virt) = some pte) (hf : Has flags pageFlagWrite) :
    Writable (uppers (finish r pdpe pde pte virt phys flags s) frames r (path virt)) := by
  have hb : Has (tableFlags flags) pgWrite := has_tableFlags_write.mpr hf
  let v := s.orEntry r (pmlEntry virt) (tableFlags flags)
    |>.orEntry pdpe (pdpeEntry virt) (tableFlags flags)
    |>.orEntry pde (pdeEntry virt) (tableFlags flags)
  have hv {q : List Index} {a : Word} {j : Index} (hq : q.length < 3) (hw : walk child s.tables r q = some a)
      (h : Has (v.tables a j) pgWrite) : Has ((finish r pdpe pde pte virt phys flags s).tables a j) pgWrite := by
    have he : (finish r pdpe pde pte virt phys flags s).tables a j = v.tables a j :=
      Radix.Tables.set_of_ne_table (ne_leafTable t hr hq hw h₃)
    rwa [he]
  rw [uppers_of_walk ((finish_walk t hr h₃ hr (by simp)).trans h₁) ((finish_walk t hr h₃ hr (by simp)).trans h₂)]
  have hpml : Has (v.tables r (pmlEntry virt)) pgWrite :=
    has_orEntry (.inl (has_orEntry (.inl (has_orEntry (.inr ⟨rfl, rfl, hb⟩)))))
  have hpdp : Has (v.tables pdpe (pdpeEntry virt)) pgWrite :=
    has_orEntry (.inl (has_orEntry (.inr ⟨rfl, rfl, hb⟩)))
  have hpd : Has (v.tables pde (pdeEntry virt)) pgWrite := has_orEntry (.inr ⟨rfl, rfl, hb⟩)
  exact List.forall_mem_cons.mpr ⟨hv (q := []) (by simp) rfl hpml,
    List.forall_mem_cons.mpr ⟨hv (by simp) h₁ hpdp, List.forall_mem_singleton.mpr (hv (by simp) h₂ hpd)⟩⟩

-- What the processor makes of the page depends on the entries above its leaf, and `mapPage` has left
-- these bits as they were before its last writes.
theorem permits_finish {entries : List Word} (ha : isUnaligned phys = 0#64)
    (h₁ : walk child s.tables r [pmlEntry virt] = some pdpe)
    (h₂ : walk child s.tables r [pmlEntry virt, pdpeEntry virt] = some pde)
    (h₃ : walk child s.tables r (path virt) = some pte)
    (hu : (uppers s frames r (path virt)).map (· &&& leafBits) = entries.map (· &&& leafBits)) :
    Permits flags (levels (finish r pdpe pde pte virt phys flags s) r virt) ↔ Granted phys flags entries := by
  have hl : leaf (finish r pdpe pde pte virt phys flags s) r virt = some (pgflags flags ||| phys) :=
    finish_leaf_same t hr h₃
  have hlevels : levels (finish r pdpe pde pte virt phys flags s) r virt =
      uppers (finish r pdpe pde pte virt phys flags s) [] r (path virt) ++ [pgflags flags ||| phys] := levels_eq hl
  have hframes : uppers s frames r (path virt) = uppers s [] r (path virt) :=
    (uppers_of_walk h₁ h₂).trans (uppers_of_walk h₁ h₂).symm
  rw [hlevels, permits_iff ha (writable_finish t hr h₁ h₂ h₃)]
  apply Granted.congr
  rw [← hu, hframes, uppers_zero (by simp), uppers_zero (by simp)]
  simp only [upperBits_finish t hr h₁ h₂ h₃ hr, List.length_nil, List.length_cons, Nat.reduceLT,
    Nat.reduceAdd]

end Writes

end RoverOS.Paging
