import Mathlib

-- Entries that are kept in buckets by their keys, as in a hash table, and the map they stand for.

open List (Perm Pairwise)
open Function (update update_apply)

namespace Buckets

variable {ι ε κ ν : Type} {index : κ → ι} {key key' : ε → κ} {value : ε → ν}
variable {entries entries' : ι → List ε} {m : κ → Option ν} {i j : ι} {e e' : ε} {k : κ} {v : ν}

-- Each entry is in the bucket of its key, and `m` has the entries' values.
structure Represents (index : κ → ι) (key : ε → κ) (value : ε → ν) (entries : ι → List ε)
    (m : κ → Option ν) : Prop where
  place    : ∀ {i e}, e ∈ entries i → index (key e) = i
  distinct : ∀ i, (entries i).Pairwise fun e e' => key e ≠ key e'
  lookup   : ∀ {k v}, m k = some v ↔ ∃ e ∈ entries (index k), key e = k ∧ value e = v

namespace Represents

variable (h : Represents index key value entries m)
include h

theorem get (he : e ∈ entries i) : m (key e) = some (value e) :=
  h.lookup.mpr ⟨e, by rwa [h.place he], rfl, rfl⟩

theorem eq_none (hk : ∀ e ∈ entries (index k), key e ≠ k) : m k = none := by
  cases hm : m k
  case none => rfl
  case some v =>
    have ⟨e, he, hke, _⟩ := h.lookup.mp hm
    exact absurd hke (hk e he)

theorem ne_of_eq_none (hm : m k = none) (he : e ∈ entries i) : key e ≠ k := by
  intro hk
  rw [← hk, h.get he] at hm
  cases hm

theorem congr (hk : ∀ i, ∀ e ∈ entries i, key' e = key e) :
    Represents index key' value entries m where
  place he   := by rw [hk _ _ he, h.place he]
  distinct i := by
    refine (h.distinct i).imp_of_mem fun he he' hne => ?_
    rwa [hk i _ he, hk i _ he']
  lookup {k v} := by
    rw [h.lookup]
    refine exists_congr fun e => and_congr_right fun he => ?_
    rw [hk _ _ he]

variable [DecidableEq κ]

theorem insert (hi : index (key e) = i) (hp : Perm (entries' i) (e :: entries i))
    (ho : ∀ j ≠ i, entries' j = entries j) (hm : m (key e) = none) :
    Represents index key value entries' (update m (key e) (some (value e))) where
  place {j e'} he' := by
    by_cases hj : j = i
    case neg =>
      rw [ho j hj] at he'
      exact h.place he'
    case pos =>
      subst hj
      cases hp.mem_iff.mp he'
      case head      => exact hi
      case tail he'  => exact h.place he'
  distinct j := by
    by_cases hj : j = i
    case neg =>
      rw [ho j hj]
      exact h.distinct j
    case pos =>
      subst hj
      refine (hp.pairwise_iff fun h => h.symm).mpr (.cons (fun e' he' => ?_) (h.distinct j))
      exact (h.ne_of_eq_none hm he').symm
  lookup {k v} := by
    rw [update_apply]
    by_cases hk : k = key e
    case pos =>
      subst hk
      rw [if_pos rfl, hi, Option.some_inj]
      constructor
      case mp => exact fun hv => ⟨e, hp.mem_iff.mpr (.head _), rfl, hv⟩
      case mpr =>
        intro ⟨e', he', hk, hv⟩
        cases hp.mem_iff.mp he'
        case head     => exact hv
        case tail he' => exact absurd hk (h.ne_of_eq_none hm he')
    case neg =>
      rw [if_neg hk, h.lookup]
      refine exists_congr fun e' => and_congr_left fun ⟨hk', _⟩ => ?_
      by_cases hj : index k = i
      case neg => rw [ho _ hj]
      case pos =>
        rw [hj, hp.mem_iff, List.mem_cons, or_iff_right]
        intro he
        exact hk (hk'.symm.trans (congrArg key he))

theorem remove (hp : Perm (entries i) (e :: entries' i)) (ho : ∀ j ≠ i, entries' j = entries j) :
    Represents index key value entries' (update m (key e) none) where
  place {j e'} he' := by
    by_cases hj : j = i
    case neg =>
      rw [ho j hj] at he'
      exact h.place he'
    case pos =>
      subst hj
      exact h.place (hp.mem_iff.mpr (.tail _ he'))
  distinct j := by
    by_cases hj : j = i
    case neg =>
      rw [ho j hj]
      exact h.distinct j
    case pos =>
      subst hj
      exact ((hp.pairwise_iff fun h => h.symm).mp (h.distinct j)).of_cons
  lookup {k v} := by
    have hi : index (key e) = i := h.place (hp.mem_iff.mpr (.head _))
    have hd := (hp.pairwise_iff fun h => h.symm).mp (h.distinct i)
    rw [update_apply]
    by_cases hk : k = key e
    case pos =>
      subst hk
      rw [if_pos rfl, hi]
      constructor
      case mp => exact fun h => nomatch h
      case mpr =>
        intro ⟨e', he', hk, _⟩
        exact absurd hk.symm (List.rel_of_pairwise_cons hd he')
    case neg =>
      rw [if_neg hk, h.lookup]
      refine exists_congr fun e' => and_congr_left fun ⟨hk', _⟩ => ?_
      by_cases hj : index k = i
      case neg => rw [ho _ hj]
      case pos =>
        rw [hj, hp.mem_iff, List.mem_cons, or_iff_right]
        intro he
        exact hk (hk'.symm.trans (congrArg key he))

theorem replace [DecidableEq ι] {rest : List ε} (hp : Perm (entries i) (e :: rest))
    (hp' : Perm (entries' i) (e' :: rest)) (ho : ∀ j ≠ i, entries' j = entries j)
    (hk : key e' = key e) :
    Represents index key value entries' (update m (key e) (some (value e'))) := by
  have hr : Represents index key value (update entries i rest) (update m (key e) none) :=
    h.remove (i := i) (by simpa using hp) fun j hj => by simp [hj]
  have hi : index (key e') = i := hk ▸ h.place (hp.mem_iff.mpr (.head _))
  have h' := hr.insert hi (by simpa using hp') (fun j hj => by simp [ho j hj, hj]) (by simp [hk])
  rwa [hk, Function.update_idem] at h'

end Represents
end Buckets
