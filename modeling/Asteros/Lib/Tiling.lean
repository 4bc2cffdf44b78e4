import Mathlib.Data.Set.Lattice
import Mathlib.Data.List.Pairwise
import Mathlib.Order.CompletePartialOrder
import Mathlib.Order.Interval.Set.Disjoint

set_option autoImplicit false

/-!
# Tilings

A list of tiles covers a region when the sets of points of the tiles are pairwise disjoint and
their union is the region. Cutting some neighbouring tiles in another way keeps the tiling, and
two tilings of disjoint regions make one of their union.

## Main definitions

* `Tiles` — the tiles of a list are disjoint and cover the region.
* `Recut` — one list of tiles covers the same points as another.

## Main results

* `Tiles.eq_of_mem` — a point lies in one tile.
* `Tiles.recut` — neighbouring tiles can be cut anew.
* `Tiles.append` — tilings of disjoint regions.
-/

namespace Tiling

variable {α β : Type}

/-- The tiles have no point in common and cover exactly the region. -/
structure Tiles (span : β → Set α) (region : Set α) (ts : List β) : Prop where
  /-- No point is in two tiles. -/
  disjoint : ts.Pairwise fun t u => Disjoint (span t) (span u)
  /-- The points of the region are those of the tiles. -/
  cover : ∀ x, x ∈ region ↔ ∃ t ∈ ts, x ∈ span t

/-- The tiles `us` are disjoint and cover the same points as the tiles `ts`. -/
structure Recut (span : β → Set α) (ts us : List β) : Prop where
  /-- No point is in two of the new tiles. -/
  disjoint : us.Pairwise fun t u => Disjoint (span t) (span u)
  /-- The points are the same. -/
  cover : ∀ x, (∃ t ∈ ts, x ∈ span t) ↔ ∃ u ∈ us, x ∈ span u

variable {span : β → Set α} {region region' : Set α} {ts us left right : List β} {t u : β} {x : α}

/-- The empty region. -/
lemma tiles_nil : Tiles span (∅ : Set α) ([] : List β) :=
  ⟨List.Pairwise.nil, by simp⟩

/-- One tile covers its own points. -/
lemma tiles_singleton : Tiles span (span t) [t] :=
  ⟨List.pairwise_singleton _ _, by simp⟩

/-- Two different tiles of a tiling have no point in common. -/
lemma Tiles.disjoint_of_ne (h : Tiles span region ts) (ht : t ∈ ts) (hu : u ∈ ts) (hne : t ≠ u) :
    Disjoint (span t) (span u) := by
  have hsymm : Std.Symm fun t u => Disjoint (span t) (span u) := ⟨fun _ _ hd => hd.symm⟩
  exact h.disjoint.forall ht hu hne

/-- A point lies in one tile. -/
lemma Tiles.eq_of_mem (h : Tiles span region ts) (ht : t ∈ ts) (hu : u ∈ ts) (hxt : x ∈ span t)
    (hxu : x ∈ span u) : t = u := by
  by_contra hne
  exact Set.disjoint_left.mp (h.disjoint_of_ne ht hu hne) hxt hxu

/-- A tile at a split of the list has no point in common with the tiles beside it. -/
lemma Tiles.disjoint_of_mem_beside (h : Tiles span region (left ++ ts ++ right)) (ht : t ∈ ts)
    (hu : u ∈ left ++ right) : Disjoint (span t) (span u) := by
  have hd := h.disjoint
  rw [List.pairwise_append, List.pairwise_append] at hd
  rcases List.mem_append.mp hu with hu | hu
  · exact (hd.1.2.2 u hu t ht).symm
  · exact hd.2.2 t (List.mem_append_right _ ht) u hu

/-- The points of the new tiles are not those of the tiles beside them. -/
lemma Tiles.not_mem_of_recut (h : Tiles span region (left ++ ts ++ right))
    (hr : Recut span ts us) (hu : u ∈ us) (hx : x ∈ span u) (ht : t ∈ left ++ right) :
    x ∉ span t := by
  obtain ⟨v, hv, hxv⟩ := (hr.cover x).mpr ⟨u, hu, hx⟩
  exact Set.disjoint_left.mp (h.disjoint_of_mem_beside hv ht) hxv

/-- **Neighbouring tiles can be cut anew.** -/
theorem Tiles.recut (h : Tiles span region (left ++ ts ++ right)) (hr : Recut span ts us) :
    Tiles span region (left ++ us ++ right) := by
  have hbeside : ∀ u ∈ us, ∀ t ∈ left ++ right, Disjoint (span u) (span t) := fun u hu t ht =>
    Set.disjoint_left.mpr fun x hx => h.not_mem_of_recut hr hu hx ht
  constructor
  · have hd := h.disjoint
    rw [List.pairwise_append, List.pairwise_append] at hd ⊢
    obtain ⟨⟨hl, -, -⟩, hright, hlr⟩ := hd
    refine ⟨⟨hl, hr.disjoint, fun t ht u hu => ?_⟩, hright, fun t ht u hu => ?_⟩
    · exact (hbeside u hu t (List.mem_append_left _ ht)).symm
    · rcases List.mem_append.mp ht with ht | ht
      · exact hlr t (List.mem_append_left _ ht) u hu
      · exact hbeside t ht u (List.mem_append_right _ hu)
  · intro x
    rw [h.cover x]
    have hx := hr.cover x
    constructor
    · rintro ⟨t, ht, hxt⟩
      rcases List.mem_append.mp ht with ht | ht
      · rcases List.mem_append.mp ht with ht | ht
        · exact ⟨t, by simp [ht], hxt⟩
        · obtain ⟨u, hu, hxu⟩ := hx.mp ⟨t, ht, hxt⟩
          exact ⟨u, by simp [hu], hxu⟩
      · exact ⟨t, by simp [ht], hxt⟩
    · rintro ⟨t, ht, hxt⟩
      rcases List.mem_append.mp ht with ht | ht
      · rcases List.mem_append.mp ht with ht | ht
        · exact ⟨t, by simp [ht], hxt⟩
        · obtain ⟨u, hu, hxu⟩ := hx.mpr ⟨t, ht, hxt⟩
          exact ⟨u, by simp [hu], hxu⟩
      · exact ⟨t, by simp [ht], hxt⟩

/-- Tilings of disjoint regions make a tiling of their union. -/
lemma Tiles.append (h : Tiles span region ts) (h' : Tiles span region' us)
    (hd : Disjoint region region') : Tiles span (region ∪ region') (ts ++ us) := by
  constructor
  · rw [List.pairwise_append]
    refine ⟨h.disjoint, h'.disjoint, fun t ht u hu => Set.disjoint_left.mpr fun x hxt hxu => ?_⟩
    exact Set.disjoint_left.mp hd ((h.cover x).mpr ⟨t, ht, hxt⟩) ((h'.cover x).mpr ⟨u, hu, hxu⟩)
  · intro x
    rw [Set.mem_union, h.cover x, h'.cover x]
    simp [or_and_right, exists_or]

end Tiling
