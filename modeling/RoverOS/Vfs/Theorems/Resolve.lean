import RoverOS.Vfs.Theorems.Inside
import RoverOS.Vfs.Theorems.Collide

-- What `parsePath` makes of a path of names, when the lookups in a table are those of a map.

namespace RoverOS.Vfs

open Kmalloc Hashtable

section Resolve

variable (entries : Hashtable → Name → Option Word) (s : Vfs)

-- The lookups of the names in turn, from a structure on that `mnt` holds.
def resolveFrom (p : Ptr) (mnt : Option Ptr) : List Name → Option (Ptr × Option Ptr)
  | []      => some (p, mnt)
  | c :: cs =>
    match s.mounts p with
    | none   => none
    | some m =>
      match entries m.table c with
      | none   => none
      | some d => resolveFrom d.toNat (some p) cs

def resolve : List Name → Option (Ptr × Option Ptr)
  | []      => none
  | c :: cs =>
    match entries s.children c with
    | none   => none
    | some d => resolveFrom entries s d.toNat none cs

-- The call returns the structure, and the mount that holds it when it is a file.
def Matches : Option (Ptr × Option Ptr) → Option Ptr × Option Ptr → Prop
  | none,          r => r.1 = none
  | some (p, mnt), r => r.1 = some p ∧ (s.files p ≠ none → r.2 = mnt)

def ResolvesRight (fetch : Fetch) (path : Nat → Ptr) (cs : List Name) : Prop :=
  ∃ fuel r, parsePathWith (readAny (s.heap.mem (path 0))) fetch fuel path s = .ok r ∧
    Matches s (resolve entries s cs) r

-- As much of a name from `base` on as the 32-bit index gets to before it is at the first `/` again.
def cut (base : Nat) (name : Name) : Name :=
  name.take (2 ^ 32 - base)

-- What a name leads to when the index goes around in it or right behind it.
def wrapped (c : Name) : Option (Ptr × Option Ptr) :=
  match entries s.children (cut 1 c) with
  | none   => none
  | some d =>
    match s.mounts d.toNat with
    | none   => some (d.toNat, none)
    | some m =>
      if c.length + 2 = 2 ^ 32 then some (d.toNat, none)
      else (entries m.table (cut 1 c)).map fun e => (e.toNat, some d.toNat)

-- When the path ends at a mount, the byte behind the NUL must look like the end of a name. There are
-- no names behind that of a file, and the names are where the index gets to.
def KeepsToNames (after : BitVec 8) : List Name → Prop
  | []      => True
  | c :: cs =>
    if c.length + 2 < 2 ^ 32 then
      ∀ d, entries s.children c = some d →
        match s.mounts d.toNat, cs with
        | none,   _        => cs = []
        | some _, []       => Stops after
        | some m, c₂ :: cs =>
          entries m.table (cut (c.length + 2) c₂) = if cs = [] then entries m.table c₂ else none
    else wrapped entries s c = resolve entries s (c :: cs)

end Resolve

-- `fetch` is the lookup in a map from names.
def IsMap (fetch : Fetch) (entries : Hashtable → Name → Option Word) : Prop :=
  ∀ table hash bytes h, fetch table hash bytes h = .ok (entries table (readKey (h.mem hash) bytes))

def Gives (entries : Hashtable → Name → Option Word) (table : Hashtable) (d : Word) : Prop :=
  ∃ name, entries table name = some d

-- The text of a path.
def joined (cs : List Name) : List (BitVec 8) :=
  cs.flatMap (slash :: ·)

structure PlainName (c : Name) : Prop where
  nonempty : c ≠ []
  nul      : 0#8 ∉ c
  slash    : Vfs.slash ∉ c

-- A name in a text, with its end.
structure NameAt (text : List (BitVec 8)) (base : Nat) (name : Name) : Prop where
  le    : base + name.length ≤ text.length
  chars : ∀ j < name.length, (text ++ [0#8]).getD (base + j) 0 = name.getD j 0
  stop  : Stops ((text ++ [0#8]).getD (base + name.length) 0)

variable {entries : Hashtable → Name → Option Word} {fetch : Fetch} {s : Vfs} {path : Nat → Ptr}
variable {text : List (BitVec 8)} {c name k₁ k₂ : Name} {cs : List Name} {base n fuel : Nat} {h : Kmalloc.Heap}
variable {p : Ptr} {mnt : Option Ptr} {d e : Word} {m : VfsMountpoint} {str : Bytes}

section Names

theorem joined_cons : joined (c :: cs) = slash :: c ++ joined cs :=
  List.flatMap_cons

theorem getD_joined_stops : Stops ((joined cs ++ [0#8]).getD 0 0) := by
  cases cs
  case nil  => exact .inl rfl
  case cons => exact .inr rfl

theorem nameAt_joined {pre : List (BitVec 8)} :
    NameAt (pre ++ joined (c :: cs)) (pre.length + 1) c := by
  have he : pre ++ joined (c :: cs) ++ [0#8] = (pre ++ [slash]) ++ (c ++ (joined cs ++ [0#8])) := by
    simp [joined_cons]
  have hl : pre.length + 1 = (pre ++ [slash]).length := by simp
  refine ⟨?_, fun j hj => ?_, ?_⟩
  · simp only [joined_cons, List.length_append, List.length_cons]
    omega
  · rw [he, hl, List.getD_append_right _ _ _ _ (Nat.le_add_right _ _), Nat.add_sub_cancel_left,
      List.getD_append _ _ _ _ hj]
  · rw [he, hl, List.getD_append_right _ _ _ _ (Nat.le_add_right _ _), Nat.add_sub_cancel_left,
      List.getD_append_right _ _ _ _ (Nat.le_refl _), Nat.sub_self]
    exact getD_joined_stops

theorem length_cut : (cut base name).length = min (2 ^ 32 - base) name.length :=
  List.length_take

theorem cut_eq (hl : base + name.length ≤ 2 ^ 32) : cut base name = name :=
  List.take_of_length_le (by omega)

theorem NameAt.first (hn : NameAt text base name) (ht : HasText h path text) (hp : PlainName name)
    (hs : h.mem (path 0) 0 = slash) (h1 : 1 ≤ base) (hb : base < 2 ^ 32) :
    First (readAny (h.mem (path 0))) base (cut base name).length := by
  have hle := hn.le
  have hchar {i : Nat} (hi : i ≤ text.length) : h.mem (path 0) i = (text ++ [0#8]).getD i 0 := by
    have := ht 0 (Nat.zero_le _) i (by omega)
    rwa [Nat.zero_add] at this
  rw [length_cut]
  refine ⟨by omega, fun j hj => ⟨_, rfl, ?_⟩, _, rfl, ?_⟩
  · have hj' : j < name.length := by omega
    rw [u32_of_lt (by omega), hchar (by omega), hn.chars j hj', List.getD_eq_getElem _ _ hj']
    rintro (h0 | h0)
    · exact hp.nul (h0 ▸ List.getElem_mem hj')
    · exact hp.slash (h0 ▸ List.getElem_mem hj')
  · rcases Nat.lt_or_ge (base + name.length) (2 ^ 32) with hlt | hge
    · rw [Nat.min_eq_right (by omega), u32_of_lt hlt, hchar hle]
      exact hn.stop
    · have hz : u32 (base + min (2 ^ 32 - base) name.length) = 0 := by
        rw [Nat.min_eq_left (by omega), Nat.add_sub_cancel' hb.le]
        rfl
      rw [hz]
      exact .inr hs

theorem NameAt.key (hn : NameAt text base name) (ht : HasText h path text) :
    readKey (h.mem (path base)) (cut base name).length = cut base name := by
  have hle := hn.le
  apply List.ext_getElem
  case hl => simp [readKey]
  case h =>
    intro j h₁ h₂
    have hj : j < name.length := by
      rw [length_cut] at h₂
      omega
    simp only [readKey, List.getElem_map, List.getElem_range, cut, List.getElem_take]
    rw [ht base (by omega) j (by omega), hn.chars j hj, List.getD_eq_getElem _ _ hj]

end Names

section Walk

-- What `parsePath` returns for the two names that it reads. The second one is empty at the end.
def walked (entries : Hashtable → Name → Option Word) (s : Vfs) (k₁ k₂ : Name) : Option Ptr × Option Ptr :=
  match entries s.children k₁ with
  | none   => (none, none)
  | some d =>
    match s.mounts d.toNat with
    | none   => (some d.toNat, none)
    | some m =>
      if k₂ = [] then (some d.toNat, none)
      else ((entries m.table k₂).map (·.toNat), some d.toNat)

-- Nothing is at `NULL`.
structure NullUnused (s : Vfs) : Prop where
  mounts : s.mounts 0 = none
  files  : s.files 0 = none

theorem parsePathWith_walked (hx : IsMap fetch entries) (ht : Tree (Gives entries) s) (h0 : NullUnused s)
    (f₁ : First (readAny (s.heap.mem (path 0))) 1 k₁.length)
    (hk₁ : readKey (s.heap.mem (path 1)) k₁.length = k₁)
    (f₂ : First (readAny (s.heap.mem (path 0))) (u32 (1 + (k₁.length + 1))) k₂.length)
    (hk₂ : readKey (s.heap.mem (path (u32 (1 + (k₁.length + 1))))) k₂.length = k₂) :
    parsePathWith (readAny (s.heap.mem (path 0))) fetch (2 ^ 32 + 1) path s = .ok (walked entries s k₁ k₂) := by
  have hl₁ := f₁.length (by decide) (Nat.lt_succ_of_lt f₁.small)
  have hl₂ := f₂.length (u32_lt _) (Nat.lt_succ_of_lt f₂.small)
  have hf₁ := hx s.children (path 1) k₁.length s.heap
  rw [hk₁] at hf₁
  rw [walked]
  cases hd : entries s.children k₁
  case none =>
    rw [hd] at hf₁
    exact parsePathWith_none hl₁ hf₁
  case some d =>
    rw [hd] at hf₁
    have hg : Gives entries s.children d := ⟨k₁, hd⟩
    have hne : d ≠ 0 := by
      rintro rfl
      exact (ht.root hg).elim (fun h => h h0.mounts) (fun h => h h0.files)
    dsimp only
    cases hm : s.mounts d.toNat
    case none => exact ht.parsePathWith_file hl₁ hf₁ hne (ht.root_file hg hm)
    case some m =>
      rw [ht.parsePathWith_mount hl₁ hf₁ hne hm]
      dsimp only
      split
      case isTrue hz =>
        rw [hz] at hl₂
        exact parseFromWith_end hl₂
      case isFalse hz =>
        have hlen : k₂.length ≠ 0 := fun h => hz (List.length_eq_zero_iff.mp h)
        have hf₂ := hx m.table (path (u32 (1 + (k₁.length + 1)))) k₂.length s.heap
        rw [hk₂] at hf₂
        cases he : entries m.table k₂
        case none =>
          rw [he] at hf₂
          exact ht.parseFromWith_none hl₂ hlen hm hf₂
        case some e =>
          rw [he] at hf₂
          exact ht.parseFromWith_file hl₂ hlen hm hf₂ ⟨k₂, he⟩

-- There is only one thing that a call can return.
theorem resolvesRight_iff {r : Option Ptr × Option Ptr}
    (hr : parsePathWith (readAny (s.heap.mem (path 0))) fetch fuel path s = .ok r) :
    ResolvesRight entries s fetch path cs ↔ Matches s (resolve entries s cs) r := by
  constructor
  case mpr => exact fun hm => ⟨fuel, r, hr, hm⟩
  case mp =>
    rintro ⟨fuel', r', hr', hm⟩
    have h := parsePathWith_refines (fun _ => .refl _) (Nat.le_max_left fuel fuel') r hr
    have h' := parsePathWith_refines (fun _ => .refl _) (Nat.le_max_right fuel fuel') r' hr'
    cases h.symm.trans h'
    exact hm

end Walk

section Right

theorem Tree.not_mount (ht : Tree (Gives entries) s) (hm : s.mounts p = some m) (he : entries m.table name = some e) :
    s.mounts e.toNat = none ∧ s.files e.toNat ≠ none := by
  have hf := ht.tables hm ⟨name, he⟩
  obtain ⟨f, hf'⟩ := Option.ne_none_iff_exists'.mp hf
  exact ⟨(ht.files hf').right, hf⟩

-- Behind a mount there is one more name.
theorem Tree.resolveFrom_mount (ht : Tree (Gives entries) s) (hm : s.mounts p = some m) :
    resolveFrom entries s p mnt (c :: cs) =
      (if cs = [] then entries m.table c else none).map fun e => (e.toNat, some p) := by
  rw [resolveFrom, hm]
  dsimp only
  cases he : entries m.table c
  case none => cases cs <;> rfl
  case some e =>
    cases cs
    case nil  => rfl
    case cons => simp [resolveFrom, (ht.not_mount hm he).left]

theorem resolveFrom_file (hm : s.mounts p = none) :
    resolveFrom entries s p mnt cs = if cs = [] then some (p, mnt) else none := by
  cases cs
  case nil  => rfl
  case cons => simp [resolveFrom, hm]

theorem matches_lookup {o o' : Option Word} (ho : ∀ e, o = some e → s.files e.toNat ≠ none) :
    Matches s (o'.map fun e => (e.toNat, some p)) (o.map (·.toNat), some p) ↔ o = o' := by
  cases o' <;> cases o
  · simp [Matches]
  · simp [Matches]
  · simp [Matches]
  · simp [Matches, BitVec.toNat_inj]

theorem walked_file (hd : entries s.children k₁ = some d) (hm : s.mounts d.toNat = none) :
    walked entries s k₁ k₂ = (some d.toNat, none) := by
  simp [walked, hd, hm]

theorem walked_end (hd : entries s.children k₁ = some d) (hm : s.mounts d.toNat = some m) :
    walked entries s k₁ [] = (some d.toNat, none) := by
  simp [walked, hd, hm]

theorem walked_mount (hd : entries s.children k₁ = some d) (hm : s.mounts d.toNat = some m) (hk : k₂ ≠ []) :
    walked entries s k₁ k₂ = ((entries m.table k₂).map (·.toNat), some d.toNat) := by
  simp [walked, hd, hm, hk]

-- What is found in a mount's table is not the mount.
theorem Tree.walked_ne (ht : Tree (Gives entries) s) (hm : s.mounts d.toNat = some m) :
    (entries m.table k₂).map (·.toNat) ≠ some d.toNat := by
  intro h
  obtain ⟨e, he, hn⟩ := Option.map_eq_some_iff.mp h
  have := (ht.not_mount hm he).left
  rw [hn, hm] at this
  cases this

-- The path's names are read, as long as the index does not go around in the first one.
theorem Tree.matches_walked (ht : Tree (Gives entries) s) {after : BitVec 8} (hlt : c.length + 2 < 2 ^ 32)
    (hnil : cs = [] → (k₂ = [] ↔ Stops after))
    (hcons : ∀ c₂ cs', cs = c₂ :: cs' → k₂ = cut (c.length + 2) c₂ ∧ k₂ ≠ []) :
    Matches s (resolve entries s (c :: cs)) (walked entries s c k₂) ↔ KeepsToNames entries s after (c :: cs) := by
  rw [KeepsToNames, if_pos hlt, resolve]
  cases hd : entries s.children c
  case none => simp [walked, hd, Matches]
  case some d =>
    simp only [Option.some.injEq, forall_eq']
    cases hm : s.mounts d.toNat
    case none =>
      rw [walked_file hd hm, resolveFrom_file hm]
      cases cs <;> simp [Matches]
    case some m =>
      cases cs
      case nil =>
        simp only [resolveFrom]
        rw [← hnil rfl]
        by_cases hk : k₂ = []
        case pos =>
          rw [hk, walked_end hd hm]
          simp [Matches]
        case neg =>
          rw [walked_mount hd hm hk]
          exact iff_of_false (fun h => ht.walked_ne hm h.left) hk
      case cons c₂ cs =>
        obtain ⟨rfl, hk⟩ := hcons c₂ cs rfl
        rw [walked_mount hd hm hk, ht.resolveFrom_mount hm]
        exact matches_lookup fun e he => (ht.not_mount hm he).right

-- Only files are held by a mount.
theorem Tree.resolve_held (ht : Tree (Gives entries) s) (hr : resolve entries s (c :: cs) = some (p, mnt))
    (hf : s.files p = none) : mnt = none := by
  rw [resolve] at hr
  cases hd : entries s.children c
  case none =>
    rw [hd] at hr
    cases hr
  case some d =>
    rw [hd] at hr
    dsimp only at hr
    cases cs
    case nil =>
      cases hr
      rfl
    case cons c₂ cs =>
      cases hm : s.mounts d.toNat
      case none =>
        rw [resolveFrom_file hm] at hr
        cases hr
      case some m =>
        rw [ht.resolveFrom_mount hm] at hr
        obtain ⟨e, he, hp⟩ := Option.map_eq_some_iff.mp hr
        cases hp
        split at he
        case isTrue  => exact absurd hf (ht.not_mount hm he).right
        case isFalse => cases he

theorem Tree.wrapped_held (ht : Tree (Gives entries) s) (hr : wrapped entries s c = some (p, mnt))
    (hf : s.files p = none) : mnt = none := by
  rw [wrapped] at hr
  cases hd : entries s.children (cut 1 c)
  case none =>
    rw [hd] at hr
    cases hr
  case some d =>
    rw [hd] at hr
    dsimp only at hr
    cases hm : s.mounts d.toNat
    case none =>
      rw [hm] at hr
      cases hr
      rfl
    case some m =>
      rw [hm] at hr
      dsimp only at hr
      split at hr
      case isTrue =>
        cases hr
        rfl
      case isFalse =>
        obtain ⟨e, he, hp⟩ := Option.map_eq_some_iff.mp hr
        cases hp
        exact absurd hf (ht.not_mount hm he).right

theorem walked_wrapped (hk : k₂ = if c.length + 2 = 2 ^ 32 then [] else cut 1 c) (hc : cut 1 c ≠ []) :
    (walked entries s (cut 1 c) k₂).1 = (wrapped entries s c).map Prod.fst ∧
      ∀ p mnt, wrapped entries s c = some (p, mnt) → walked entries s (cut 1 c) k₂ = (some p, mnt) := by
  rw [wrapped]
  cases hd : entries s.children (cut 1 c)
  case none => simp [walked, hd]
  case some d =>
    dsimp only
    cases hm : s.mounts d.toNat
    case none => simp [walked_file hd hm]
    case some m =>
      dsimp only
      split at hk
      case isTrue hz =>
        subst hk
        simp [walked_end hd hm, hz]
      case isFalse hz =>
        subst hk
        rw [walked_mount hd hm hc, if_neg hz]
        cases entries m.table (cut 1 c) <;> simp

-- What the name that is cut off leads to must be what the path leads to.
theorem Tree.matches_wrapped (ht : Tree (Gives entries) s)
    (hk : k₂ = if c.length + 2 = 2 ^ 32 then [] else cut 1 c) (hc : cut 1 c ≠ []) :
    Matches s (resolve entries s (c :: cs)) (walked entries s (cut 1 c) k₂) ↔
      wrapped entries s c = resolve entries s (c :: cs) := by
  obtain ⟨hfst, hpair⟩ := @walked_wrapped entries s c k₂ hk hc
  generalize walked entries s (cut 1 c) k₂ = r at hfst hpair
  cases hr : resolve entries s (c :: cs)
  case none => rw [Matches, hfst, Option.map_eq_none_iff]
  case some q =>
    obtain ⟨p, mnt⟩ := q
    constructor
    case mpr =>
      intro hw
      rw [hpair p mnt hw]
      exact ⟨rfl, fun _ => rfl⟩
    case mp =>
      rintro ⟨hp, hm⟩
      rw [hfst] at hp
      obtain ⟨⟨p', mnt'⟩, hw, rfl⟩ := Option.map_eq_some_iff.mp hp
      have he := hpair p' mnt' hw
      rw [hw]
      by_cases hf : s.files p' = none
      case pos => rw [ht.wrapped_held hw hf, ht.resolve_held hr hf]
      case neg =>
        have := hm hf
        rw [he] at this
        exact congrArg (fun x => some (p', x)) this

end Right

section Resolve

-- The second name that is read: at the end of the path, it is one that begins behind the NUL.
theorem exists_second (hp : ∀ name ∈ c :: cs, PlainName name) (ht : HasText h path (joined (c :: cs)))
    (hs : h.mem (path 0) 0 = slash) (hlt : c.length + 2 < 2 ^ 32) :
    ∃ k₂ : Name, First (readAny (h.mem (path 0))) (c.length + 2) k₂.length ∧
      readKey (h.mem (path (c.length + 2))) k₂.length = k₂ ∧
      (cs = [] → (k₂ = [] ↔ Stops (h.mem (path 0) ((joined (c :: cs)).length + 1)))) ∧
      ∀ c₂ cs', cs = c₂ :: cs' → k₂ = cut (c.length + 2) c₂ ∧ k₂ ≠ [] := by
  cases cs
  case nil =>
    have hz : u32 (c.length + 2 + (2 ^ 32 - (c.length + 2))) = 0 := by
      rw [Nat.add_sub_cancel' hlt.le]
      rfl
    obtain ⟨n, -, f⟩ := @exists_first (readAny (h.mem (path 0))) (c.length + 2) (2 ^ 32 - (c.length + 2)) (by omega)
      (fun _ _ => ⟨_, rfl⟩) ⟨_, rfl, by rw [hz]; exact .inr hs⟩
    have hlen : (readKey (h.mem (path (c.length + 2))) n).length = n := readKey_length
    have hend : (joined [c]).length + 1 = c.length + 2 := by simp [joined]
    refine ⟨readKey (h.mem (path (c.length + 2))) n, hlen.symm ▸ f, by rw [hlen], fun _ => ?_, nofun⟩
    rw [← List.length_eq_zero_iff, hlen, hend]
    have hat : u32 (c.length + 2 + 0) = c.length + 2 := u32_of_lt hlt
    constructor
    case mp =>
      rintro rfl
      obtain ⟨_, hc, hst⟩ := f.stop
      rw [hat] at hc
      cases hc
      exact hst
    case mpr =>
      intro hst
      by_contra hne
      obtain ⟨_, hc, hns⟩ := f.before 0 (Nat.pos_of_ne_zero hne)
      rw [hat] at hc
      cases hc
      exact hns hst
  case cons c₂ cs =>
    have hc₂ := hp c₂ (.tail _ (.head _))
    have hn : NameAt (joined (c :: c₂ :: cs)) (c.length + 2) c₂ := by
      rw [joined_cons]
      exact @nameAt_joined c₂ cs (slash :: c)
    have hpos : 0 < c₂.length := List.length_pos_iff.mpr hc₂.nonempty
    refine ⟨cut (c.length + 2) c₂, hn.first ht hc₂ hs (by omega) hlt, hn.key ht, nofun, ?_⟩
    rintro _ _ ⟨rfl, rfl⟩
    refine ⟨rfl, fun he => ?_⟩
    have hlen := @length_cut c₂ (c.length + 2)
    rw [he, List.length_nil] at hlen
    omega

-- `parsePath` resolves a path, exactly when it keeps to the path's names.
theorem parsePath_resolves_iff (hx : IsMap fetch entries) (ht : Tree (Gives entries) s) (h0 : NullUnused s)
    (hp : ∀ name ∈ c :: cs, PlainName name) (htext : HasText s.heap path (joined (c :: cs))) :
    ResolvesRight entries s fetch path (c :: cs) ↔
      KeepsToNames entries s (s.heap.mem (path 0) ((joined (c :: cs)).length + 1)) (c :: cs) := by
  have hs : s.heap.mem (path 0) 0 = slash := htext 0 (Nat.zero_le _) 0 (Nat.zero_le _)
  have hc := hp c (.head _)
  have hn₁ : NameAt (joined (c :: cs)) 1 c := @nameAt_joined c cs []
  have f₁ := hn₁.first htext hc hs (Nat.le_refl 1) (by decide)
  have hpos : 0 < c.length := List.length_pos_iff.mpr hc.nonempty
  have hlen := @length_cut c 1
  by_cases hlt : c.length + 2 < 2 ^ 32
  case pos =>
    have hcut : cut 1 c = c := cut_eq (by omega)
    have hbase : u32 (1 + (c.length + 1)) = c.length + 2 := by
      rw [u32_of_lt (by omega)]
      omega
    have hk₂ := exists_second hp htext hs hlt
    obtain ⟨k₂, f₂, hr₂, hnil, hcons⟩ := hk₂
    rw [hcut] at f₁
    have hr := parsePathWith_walked hx ht h0 f₁ (hcut ▸ hn₁.key htext) (hbase.symm ▸ f₂) (hbase.symm ▸ hr₂)
    rw [resolvesRight_iff hr]
    exact ht.matches_walked hlt hnil hcons
  case neg =>
    have hne : cut 1 c ≠ [] := by
      intro h
      rw [h, List.length_nil] at hlen
      omega
    have hk₂ : ∃ k₂, k₂ = (if c.length + 2 = 2 ^ 32 then [] else cut 1 c) ∧
        First (readAny (s.heap.mem (path 0))) (u32 (1 + ((cut 1 c).length + 1))) k₂.length ∧
        readKey (s.heap.mem (path (u32 (1 + ((cut 1 c).length + 1))))) k₂.length = k₂ := by
      refine ⟨_, rfl, ?_⟩
      split
      case isTrue he =>
        have hz : u32 (1 + ((cut 1 c).length + 1)) = 0 := by
          rw [hlen]
          unfold u32
          omega
        rw [hz]
        exact ⟨⟨by decide, fun j hj => absurd hj (Nat.not_lt_zero j), _, rfl, .inr hs⟩, rfl⟩
      case isFalse he =>
        have hz : u32 (1 + ((cut 1 c).length + 1)) = 1 := by
          rw [hlen]
          unfold u32
          omega
        rw [hz]
        exact ⟨f₁, hn₁.key htext⟩
    obtain ⟨k₂, hk, f₂, hr₂⟩ := hk₂
    rw [resolvesRight_iff (parsePathWith_walked hx ht h0 f₁ (hn₁.key htext) f₂ hr₂), ht.matches_wrapped hk hne,
      KeepsToNames, if_neg hlt]

end Resolve

section Example

-- `R` is mounted at 7, and has the file `a` at 9.
def mountWithFile (text : List (BitVec 8)) : Vfs :=
  { mountOnly text with files := fun p => if p = 9 then some {
      header     := { type := vfsTypeFile, flags := 0, length := sizeofVfsFile }
      name       := 0
      phys       := 0
      size       := 0
      references := 0 } else none }

-- The map has `R` in the root's table, and `a` in the other one.
def rootOrMount (table : Hashtable) (name : Name) : Option Word :=
  if (table.buckets 0).head.hash = some 3 then if name = [0x52] then some 7 else none
  else if name = [0x61] then some 9 else none

def fetchRootOrMount : Fetch :=
  fun table hash bytes h => .ok (rootOrMount table (readKey (h.mem hash) bytes))

theorem tree_mountWithFile : Tree (Gives rootOrMount) (mountWithFile text) where
  mounts {p _} hm := by
    simp only [mountWithFile, mountOnly, Option.ite_none_right_eq_some, Option.some.injEq] at hm
    obtain ⟨rfl, rfl⟩ := hm
    exact ⟨rfl, rfl⟩
  files hf := by
    simp only [mountWithFile, Option.ite_none_right_eq_some, Option.some.injEq] at hf
    obtain ⟨rfl, rfl⟩ := hf
    exact ⟨rfl, rfl⟩
  root hd := by
    obtain ⟨name, hd⟩ := hd
    have hroot : ((mountWithFile text).children.buckets 0).head.hash = some 3 := rfl
    rw [rootOrMount, if_pos hroot, Option.ite_none_right_eq_some] at hd
    obtain ⟨-, ⟨⟩⟩ := hd
    exact .inl (Option.some_ne_none _)
  tables hm hd := by
    obtain ⟨name, hd⟩ := hd
    simp only [mountWithFile, mountOnly, Option.ite_none_right_eq_some, Option.some.injEq] at hm
    obtain ⟨-, rfl⟩ := hm
    rw [rootOrMount, if_neg (fun h => by cases h), Option.ite_none_right_eq_some] at hd
    obtain ⟨-, ⟨⟩⟩ := hd
    exact Option.some_ne_none _

theorem nullUnused_mountWithFile : NullUnused (mountWithFile text) :=
  ⟨rfl, rfl⟩

theorem hasText_mountWithFile : HasText (mountWithFile text).heap (2 + ·) text := by
  intro i _ j _
  have hi : 2 + i - 2 + j = i + j := by omega
  change text.getD (2 + i - 2 + j) 0 = _
  rw [hi, List.getD_eq_getElem?_getD, List.getD_eq_getElem?_getD, List.getElem?_append]
  split
  case isTrue  => rfl
  case isFalse h =>
    rw [List.getElem?_eq_none (Nat.le_of_not_lt h)]
    cases i + j - text.length <;> rfl

instance (c : Name) : Decidable (PlainName c) :=
  decidable_of_iff (c ≠ [] ∧ 0#8 ∉ c ∧ slash ∉ c) ⟨fun ⟨h, h', h''⟩ => ⟨h, h', h''⟩, fun h => ⟨h.nonempty, h.nul, h.slash⟩⟩

theorem parsePath_resolves_file :
    ResolvesRight rootOrMount (mountWithFile (joined [[0x52], [0x61]])) fetchRootOrMount (2 + ·) [[0x52], [0x61]] := by
  have hp : ∀ name ∈ [[0x52], [0x61]], PlainName name := by decide
  refine (parsePath_resolves_iff (fun _ _ _ _ => rfl) tree_mountWithFile nullUnused_mountWithFile hp
    hasText_mountWithFile).mpr ?_
  rw [KeepsToNames, if_pos (by decide)]
  rintro d ⟨⟩
  rfl

-- `/R/a/a` leads to the file, although a name is left.
theorem parsePath_ignores_rest : ¬∀ (entries : Hashtable → Name → Option Word) (fetch : Fetch) (s : Vfs)
    (path : Nat → Ptr) (c : Name) (cs : List Name), IsMap fetch entries → Tree (Gives entries) s → NullUnused s →
    (∀ name ∈ c :: cs, PlainName name) → HasText s.heap path (joined (c :: cs)) →
    ResolvesRight entries s fetch path (c :: cs) := by
  intro h
  have hp : ∀ name ∈ [[0x52], [0x61], [0x61]], PlainName name := by decide
  have hr := h rootOrMount fetchRootOrMount (mountWithFile (joined [[0x52], [0x61], [0x61]])) (2 + ·) _ _
    (fun _ _ _ _ => rfl) tree_mountWithFile nullUnused_mountWithFile hp hasText_mountWithFile
  have hrun : parsePathWith (readAny ((mountWithFile (joined [[0x52], [0x61], [0x61]])).heap.mem 2)) fetchRootOrMount 9
      (2 + ·) (mountWithFile (joined [[0x52], [0x61], [0x61]])) = .ok (some 9, some 7) := by rfl
  cases (resolvesRight_iff hrun).mp hr

end Example

end RoverOS.Vfs
