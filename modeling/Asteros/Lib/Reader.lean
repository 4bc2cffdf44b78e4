import Mathlib.Data.List.Infix

set_option autoImplicit false

/-!
# Readers that do not look ahead

A reader takes something from the front of a list, or fails. If what it takes does not depend on what
is left, anything can be put in the place of the rest. So it is for a loop that reads items up to a
closing mark, if no item can be taken for the mark.

## Main definitions

* `Reads` — what the reader takes does not depend on what is left.
* `run` — the loop.
* `Loopable` — what a loop needs of its mark and its items.
* `Reaches` — the loop comes to a place.

## Main results

* `Loopable.reads_run` — the loop does not look ahead either.
* `Loopable.reaches_append` — a loop that comes to a place comes there whatever follows it.
-/

namespace Reader

variable {α β γ σ : Type}

/-- What the reader takes does not depend on what is left. -/
def Reads (f : List β → Option (α × List β)) : Prop :=
  ∀ s v r, f s = some (v, r) → ∃ a, s = a ++ r ∧ ∀ x, f (a ++ x) = some (v, x)

/-- A reader that does nothing. -/
lemma reads_pure (v : α) : Reads fun s : List β => some (v, s) := by
  intro s v' r h
  obtain ⟨rfl, rfl⟩ := Prod.mk.inj (Option.some.inj h)
  exact ⟨[], rfl, fun _ => rfl⟩

/-- A reader that fails. -/
lemma reads_none : Reads fun _ : List β => (none : Option (α × List β)) := nofun

/-- One reader after the other. -/
lemma Reads.bind {f : List β → Option (α × List β)} {g : α → List β → Option (γ × List β)}
    (hf : Reads f) (hg : ∀ v, Reads (g v)) : Reads fun s => (f s).bind fun r => g r.1 r.2 := by
  intro s w t h
  obtain ⟨⟨v, r⟩, hread, hnext⟩ := Option.bind_eq_some_iff.mp h
  obtain ⟨a, rfl, ha⟩ := hf s v r hread
  obtain ⟨b, rfl, hb⟩ := hg v r w t hnext
  refine ⟨a ++ b, (List.append_assoc a b t).symm, fun x => ?_⟩
  rw [List.append_assoc]
  simp only [ha, Option.bind_some, hb]

/-- A reader whose result is changed. -/
lemma Reads.map {f : List β → Option (α × List β)} (hf : Reads f) (g : α → γ) :
    Reads fun s => (f s).map fun r => (g r.1, r.2) := by
  have hbind := hf.bind fun v => reads_pure (g v)
  simpa only [Option.map_eq_bind, Function.comp_def] using hbind

/-- Nothing is put back. -/
lemma Reads.suffix {f : List β → Option (α × List β)} (hf : Reads f) {s r : List β} {v : α}
    (h : f s = some (v, r)) : r <:+ s := by
  obtain ⟨a, rfl, -⟩ := hf s v r h
  exact List.suffix_append a r

/-! ## Loops -/

variable (closed : List β → Bool × List β) (item : σ → List β → Option (σ × List β))

/-- So many rounds of a loop that ends at a closing mark. The look for the mark may move the reader
also if it is not there. -/
def loopUntil : ℕ → σ → List β → Option (σ × List β)
  | 0, _, _ => none
  | fuel + 1, st, s =>
    if (closed s).1 then some (st, (closed s).2)
    else (item st (closed s).2).bind fun r => loopUntil fuel r.1 r.2

/-- The loop, whose every item takes something. -/
def run (st : σ) (s : List β) : Option (σ × List β) := loopUntil closed item (s.length + 1) st s

/-- The loop comes to a place where it looks for the mark. -/
inductive Reaches (st : σ) (s : List β) : σ → List β → Prop
  | start : Reaches st s st s
  | next {st₁ st₂ : σ} {s₁ s₂ : List β} : Reaches st s st₁ s₁ → (closed s₁).1 = false →
      item st₁ s₁ = some (st₂, s₂) → Reaches st s st₂ s₂

/-- What a loop needs of its mark and its items. -/
structure Loopable : Prop where
  /-- The mark is found whatever follows it. -/
  mark : ∀ s r, closed s = (true, r) → ∃ a, s = a ++ r ∧ ∀ x, closed (a ++ x) = (true, x)
  /-- What the look for the mark takes is nothing to the items. -/
  skip : ∀ st s, (closed s).1 = false → item st (closed s).2 = item st s
  /-- An item is no mark. -/
  excludes : ∀ st s r, item st s = some r → (closed s).1 = false
  /-- The items do not look ahead. -/
  reads : ∀ st, Reads (item st)
  /-- An item takes something. -/
  progress : ∀ st s st' r, item st s = some (st', r) → r.length < s.length

variable {closed item}

/-- A round. -/
lemma Loopable.loopUntil_succ (h : Loopable closed item) (fuel : ℕ) (st : σ) (s : List β) :
    loopUntil closed item (fuel + 1) st s = if (closed s).1 then some (st, (closed s).2)
      else (item st s).bind fun r => loopUntil closed item fuel r.1 r.2 := by
  rw [loopUntil]
  cases hmark : (closed s).1 with
  | true => rfl
  | false => rw [h.skip st s hmark]

/-- There are never more rounds than there is to read. -/
lemma Loopable.loopUntil_eq (h : Loopable closed item) {fuel fuel' : ℕ} {st : σ} {s : List β}
    (hfuel : s.length < fuel) (hfuel' : s.length < fuel') :
    loopUntil closed item fuel st s = loopUntil closed item fuel' st s := by
  induction fuel generalizing fuel' st s with
  | zero => exact absurd hfuel (Nat.not_lt_zero _)
  | succ fuel ih =>
    obtain ⟨fuel', rfl⟩ : ∃ k, fuel' = k + 1 := ⟨fuel' - 1, by omega⟩
    rw [h.loopUntil_succ, h.loopUntil_succ]
    refine if_congr Iff.rfl rfl (Option.bind_congr fun r hr => ?_)
    have hlt := h.progress st s r.1 r.2 hr
    exact ih (by omega) (by omega)

/-- The loop, round by round. -/
lemma Loopable.run_eq (h : Loopable closed item) (st : σ) (s : List β) :
    run closed item st s = if (closed s).1 then some (st, (closed s).2)
      else (item st s).bind fun r => run closed item r.1 r.2 := by
  rw [run, h.loopUntil_succ]
  refine if_congr Iff.rfl rfl (Option.bind_congr fun r hr => ?_)
  have hlt := h.progress st s r.1 r.2 hr
  exact h.loopUntil_eq hlt (Nat.lt_succ_self _)

/-- Only what the items do with the rest of the list matters. -/
lemma Loopable.run_congr (h : Loopable closed item) {item' : σ → List β → Option (σ × List β)}
    (h' : Loopable closed item') {st : σ} {s : List β}
    (hitem : ∀ st r, r.length ≤ s.length → item st r = item' st r) :
    run closed item st s = run closed item' st s := by
  induction hn : s.length using Nat.strong_induction_on generalizing st s with
  | _ n ih =>
    rw [h.run_eq, h'.run_eq, hitem st s le_rfl]
    refine if_congr Iff.rfl rfl (Option.bind_congr fun r hr => ?_)
    have hlt := h'.progress st s r.1 r.2 hr
    exact ih r.2.length (by omega) (fun st r' hr' => hitem st r' (by omega)) rfl

/-- **The loop does not look ahead.** -/
theorem Loopable.reads_run (h : Loopable closed item) (st : σ) : Reads (run closed item st) := by
  intro s
  induction hn : s.length using Nat.strong_induction_on generalizing st s with
  | _ n ih =>
    intro v r hrun
    rw [h.run_eq] at hrun
    by_cases hmark : (closed s).1 = true
    · rw [if_pos hmark] at hrun
      obtain ⟨rfl, rfl⟩ := Prod.mk.inj (Option.some.inj hrun)
      obtain ⟨a, ha, hclosed⟩ := h.mark s (closed s).2 (Prod.ext hmark rfl)
      refine ⟨a, ha, fun x => ?_⟩
      rw [h.run_eq, hclosed, if_pos rfl]
    · rw [if_neg hmark] at hrun
      obtain ⟨⟨st', s'⟩, hitem, hrest⟩ := Option.bind_eq_some_iff.mp hrun
      have hlt := h.progress st s st' s' hitem
      obtain ⟨a, ha, hreads⟩ := h.reads st s st' s' hitem
      obtain ⟨b, rfl, hloop⟩ := ih s'.length (by omega) st' s' rfl v r hrest
      refine ⟨a ++ b, by rw [ha, List.append_assoc], fun x => ?_⟩
      have hopen := h.excludes st _ _ (hreads (b ++ x))
      rw [List.append_assoc, h.run_eq, hopen, if_neg Bool.false_ne_true, hreads]
      exact hloop x

/-- **A loop that comes to a place comes there whatever follows it.** -/
theorem Loopable.reaches_append (h : Loopable closed item) {st st' : σ} {s s' : List β}
    (hreach : Reaches closed item st s st' s') :
    ∃ a, s = a ++ s' ∧ ∀ x, Reaches closed item st (a ++ x) st' x := by
  induction hreach with
  | start => exact ⟨[], rfl, fun x => .start⟩
  | next _ _ hitem ih =>
    obtain ⟨a, rfl, ha⟩ := ih
    obtain ⟨b, rfl, hb⟩ := h.reads _ _ _ _ hitem
    refine ⟨a ++ b, (List.append_assoc a b _).symm, fun x => ?_⟩
    rw [List.append_assoc]
    exact .next (ha (b ++ x)) (h.excludes _ _ _ (hb x)) (hb x)

/-- The loop goes on from where it came to. -/
lemma Loopable.run_of_reaches (h : Loopable closed item) {st st' : σ} {s s' : List β}
    (hreach : Reaches closed item st s st' s') :
    run closed item st s = run closed item st' s' := by
  induction hreach with
  | start => rfl
  | next _ hopen hitem ih =>
    rw [ih, h.run_eq, hopen, if_neg Bool.false_ne_true, hitem]
    rfl

end Reader
