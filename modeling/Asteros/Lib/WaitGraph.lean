import Mathlib.Data.Fintype.Card
import Mathlib.Data.Set.Finite.Basic
import Mathlib.Logic.Relation
import Mathlib.Order.WellFounded

set_option autoImplicit false

/-!
# Waiting without cycles

Parties that wait for each other. Where nobody waits for itself around a cycle, and the parties are
finitely many, some party waits for none of them.

## Main results

* `exists_sink` — somebody waits for nobody.
-/

namespace WaitGraph

open Relation

variable {α : Type} {R : α → α → Prop}

/-- **Somebody waits for nobody**, among finitely many who do not wait in a cycle.

**Proof sketch.** On the finite set the transitive closure is a strict order, which is
well-founded, and a minimal party waits for none of them. -/
theorem exists_sink (h : ∀ a, ¬TransGen R a a) {S : Set α} (hfin : S.Finite)
    (hne : S.Nonempty) : ∃ a ∈ S, ∀ b ∈ S, ¬R a b := by
  let Later : S → S → Prop := fun b a => TransGen R a.1 b.1
  have : Finite S := hfin
  have : IsTrans S Later := ⟨fun _ _ _ hcb hba => hba.trans hcb⟩
  have : Std.Irrefl Later := ⟨fun a => h a.1⟩
  have hwf : WellFounded Later := Finite.wellFounded_of_trans_of_irrefl Later
  obtain ⟨x, hx⟩ := hne
  obtain ⟨a, -, hmin⟩ := hwf.has_min Set.univ ⟨⟨x, hx⟩, trivial⟩
  exact ⟨a.1, a.2, fun b hb hab => hmin ⟨b, hb⟩ trivial (TransGen.single hab)⟩

end WaitGraph
