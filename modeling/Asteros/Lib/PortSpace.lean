import Mathlib.Data.Nat.Notation
import Mathlib.Logic.Function.Basic
import Mathlib.Tactic.SplitIfs

set_option autoImplicit false

/-!
# Send rights under names

The name space of a task: a name stands for a port, all the send rights the task holds for one port
are under one name, and each of them counts as a user reference of that name. A right that is
delivered adds a reference; giving one up takes it away, and with the last one the name goes,
unless it also stands for the receive right of the port.

## Main definitions

* `Space` — a name space, with the fact that names and ports are one to one.
* `Space.deliver`, `Space.deallocate` — a send right comes and goes.
* `Space.Accounted` — the references of a name are those of one part of the task, counted by name,
  and those of the rest, counted by port.

## Main results

* `Space.Delivers` — what a delivery does to names and references.
* `Space.refs_deallocate`, `Space.portOf_deallocate` — what giving up a right does.
* `Space.Accounted.deliver`, `Space.Accounted.deallocate` — the account is kept when either part
  takes a right or gives one up.
-/

namespace PortSpace

variable {ν π : Type} [DecidableEq ν] [DecidableEq π]

/-- What a name stands for. -/
structure Entry (π : Type) where
  port : π
  urefs : ℕ
  receive : Bool

/-- The names of a task. -/
structure Space (ν π : Type) where
  nameOf : π → Option ν
  entry : ν → Option (Entry π)
  coalesced : ∀ p n, nameOf p = some n ↔ ∃ e, entry n = some e ∧ e.port = p

namespace Space

variable (s : Space ν π)

/-- The port a name stands for. -/
def portOf (n : ν) : Option π := (s.entry n).map Entry.port

/-- The user references of a name. -/
def refs (n : ν) : ℕ := ((s.entry n).map Entry.urefs).getD 0

/-- The user references held for a port. -/
def urefs (p : π) : ℕ := ((s.nameOf p).map s.refs).getD 0

omit [DecidableEq ν] [DecidableEq π] in
/-- Names and ports are one to one. -/
lemma nameOf_eq_some_iff {p : π} {n : ν} : s.nameOf p = some n ↔ s.portOf n = some p := by
  rw [s.coalesced, portOf, Option.map_eq_some_iff]

omit [DecidableEq ν] [DecidableEq π] in
/-- The references of a name are those for its port. -/
lemma urefs_of_portOf {p : π} {n : ν} (h : s.portOf n = some p) : s.urefs p = s.refs n := by
  rw [urefs, s.nameOf_eq_some_iff.mpr h]
  rfl

/-- A name space in which nothing has a name. -/
def empty : Space ν π where
  nameOf _ := none
  entry _ := none
  coalesced p n := by simp

/-- What a name stands for changes, but not the port. -/
def withEntry (n : ν) (e e' : Entry π) (he : s.entry n = some e) (hport : e'.port = e.port) :
    Space ν π where
  nameOf := s.nameOf
  entry := Function.update s.entry n (some e')
  coalesced p m := by
    rw [s.coalesced, Function.update_apply]
    split_ifs with hm
    · subst hm
      simp [he, hport]
    · rfl

/-- A new name for a port that has none. -/
def withName (n : ν) (e : Entry π) (hn : s.entry n = none) (hp : s.nameOf e.port = none) :
    Space ν π where
  nameOf := Function.update s.nameOf e.port (some n)
  entry := Function.update s.entry n (some e)
  coalesced p m := by
    have hother := s.coalesced p m
    rw [Function.update_apply, Function.update_apply]
    split_ifs with hp' hm hm
    · simp [hp', hm]
    · subst hp'
      rw [← s.coalesced, hp]
      simp [Ne.symm hm]
    · subst hm
      rw [hother, hn]
      simp [Ne.symm hp']
    · exact hother

/-- A name is taken back. -/
def withoutName (n : ν) (e : Entry π) (he : s.entry n = some e) : Space ν π where
  nameOf := Function.update s.nameOf e.port none
  entry := Function.update s.entry n none
  coalesced p m := by
    have hname : s.nameOf e.port = some n := (s.coalesced _ _).mpr ⟨e, he, rfl⟩
    have hother := s.coalesced p m
    rw [Function.update_apply, Function.update_apply]
    split_ifs with hp hm hm
    · simp
    · subst hp
      rw [← s.coalesced, hname]
      simp [Ne.symm hm]
    · subst hm
      rw [hother, he]
      simp [Ne.symm hp]
    · exact hother

/-- A send right for a port is delivered: under the name the port has, or under a new one, which
is not in use. -/
def deliver (p : π) (fresh : ν) : Option (ν × Space ν π) :=
  match hp : s.nameOf p with
  | some n =>
    match hn : s.entry n with
    | some e => some (n, s.withEntry n e { e with urefs := e.urefs + 1 } hn rfl)
    | none => none
  | none =>
    match hn : s.entry fresh with
    | some _ => none
    | none => some (fresh, s.withName fresh { port := p, urefs := 1, receive := false } hn hp)

/-- A send right is given up. -/
def deallocate (n : ν) : Space ν π :=
  match hn : s.entry n with
  | none => s
  | some e =>
    if 1 < e.urefs ∨ e.receive then s.withEntry n e { e with urefs := e.urefs - 1 } hn rfl
    else s.withoutName n e hn

/-- What a delivery of a right for `p` under `n` does. -/
structure Delivers (s : Space ν π) (p : π) (n : ν) (t : Space ν π) : Prop where
  here : t.portOf n = some p
  kept : ∀ m q, s.portOf m = some q → t.portOf m = some q
  only : ∀ m q, t.portOf m = some q → s.portOf m = some q ∨ m = n
  refs : ∀ m, t.refs m = s.refs m + if m = n then 1 else 0

variable {s}

/-- **A delivery** gives the port a name, changes no other, and adds one reference. -/
theorem Delivers.of_deliver {p : π} {fresh n : ν} {t : Space ν π}
    (h : s.deliver p fresh = some (n, t)) : Delivers s p n t := by
  unfold deliver at h
  split at h
  · next m hp =>
    split at h
    · next e hn =>
      obtain ⟨rfl, rfl⟩ := Prod.mk.inj (Option.some.inj h)
      have hport : s.portOf m = some p := s.nameOf_eq_some_iff.mp hp
      have hsame : ∀ m', (s.withEntry m e { e with urefs := e.urefs + 1 } hn rfl).portOf m' =
          s.portOf m' := by
        intro m'
        simp only [portOf, withEntry, Function.update_apply]
        split_ifs with hm
        · rw [hm, hn]
          rfl
        · rfl
      refine ⟨(hsame m).trans hport, fun m' q hq => (hsame m').trans hq,
        fun m' q hq => Or.inl ((hsame m').symm.trans hq), fun m' => ?_⟩
      simp only [Space.refs, withEntry, Function.update_apply]
      split_ifs with hm
      · rw [hm, hn]
        rfl
      · rfl
    · cases h
  · next hp =>
    split at h
    · cases h
    · next hn =>
      obtain ⟨rfl, rfl⟩ := Prod.mk.inj (Option.some.inj h)
      refine ⟨?_, fun m q hq => ?_, fun m q hq => ?_, fun m => ?_⟩
      · simp [portOf, withName]
      · have hm : m ≠ fresh := by
          rintro rfl
          rw [portOf, hn] at hq
          cases hq
        simp only [portOf, withName, Function.update_apply, if_neg hm]
        exact hq
      · by_cases hm : m = fresh
        · exact Or.inr hm
        · simp only [portOf, withName, Function.update_apply, if_neg hm] at hq
          exact Or.inl hq
      · simp only [Space.refs, withName, Function.update_apply]
        split_ifs with hm
        · rw [hm, hn]
          rfl
        · rfl

/-- A right can be delivered if a name is free. -/
lemma isSome_deliver {fresh : ν} (hfresh : s.entry fresh = none) (p : π) :
    (s.deliver p fresh).isSome := by
  unfold deliver
  split
  · next n hn =>
    obtain ⟨e, he, -⟩ := (s.coalesced p n).mp hn
    split
    · rfl
    · next hnone =>
      rw [he] at hnone
      cases hnone
  · split
    · next hsome =>
      rw [hfresh] at hsome
      cases hsome
    · rfl

omit [DecidableEq ν] [DecidableEq π] in
/-- A port has one name. -/
lemma portOf_inj {n m : ν} {p : π} (hn : s.portOf n = some p) (hm : s.portOf m = some p) : n = m :=
  Option.some.inj ((s.nameOf_eq_some_iff.mpr hn).symm.trans (s.nameOf_eq_some_iff.mpr hm))

omit [DecidableEq ν] [DecidableEq π] in
/-- A name that stands for nothing has no references. -/
lemma refs_of_portOf_eq_none {n : ν} (h : s.portOf n = none) : s.refs n = 0 := by
  rw [refs, Option.map_eq_none_iff.mp h]
  rfl

/-- What names stand for after a right was given up. -/
lemma entry_deallocate (n m : ν) : (s.deallocate n).entry m =
    if m = n then (s.entry n).bind fun e =>
      if 1 < e.urefs ∨ e.receive then some { e with urefs := e.urefs - 1 } else none
    else s.entry m := by
  unfold deallocate
  split
  · next hn =>
    split_ifs with hm
    · rw [hm, hn]
      rfl
    · rfl
  · next e hn =>
    by_cases hm : m = n
    · subst hm
      simp only [↓reduceIte, hn, Option.bind_some]
      split_ifs with hkept
      · exact Function.update_self ..
      · exact Function.update_self ..
    · rw [if_neg hm]
      split_ifs with hkept
      · exact Function.update_of_ne hm ..
      · exact Function.update_of_ne hm ..

/-- Giving up a right takes one reference away. -/
lemma refs_deallocate (n m : ν) :
    (s.deallocate n).refs m = s.refs m - if m = n then 1 else 0 := by
  rw [refs, refs, entry_deallocate]
  by_cases hm : m = n
  · rw [if_pos hm, if_pos hm, hm]
    cases s.entry n with
    | none => rfl
    | some e =>
      rw [Option.bind_some, Option.map_some, Option.getD_some]
      split_ifs with hkept
      · rfl
      · rw [Option.map_none, Option.getD_none]
        omega
  · rw [if_neg hm, if_neg hm, Nat.sub_zero]

/-- A name that has references left stands for the same port. -/
lemma portOf_deallocate {n m : ν} {p : π} (hm : s.portOf m = some p)
    (hleft : 0 < (s.deallocate n).refs m) : (s.deallocate n).portOf m = some p := by
  rw [refs, entry_deallocate] at hleft
  rw [portOf, entry_deallocate]
  by_cases hmn : m = n
  · subst hmn
    obtain ⟨e, he, rfl⟩ := Option.map_eq_some_iff.mp hm
    rw [if_pos rfl, he, Option.bind_some] at hleft ⊢
    split_ifs at hleft ⊢ with hkept
    · rfl
    · exact absurd hleft (Nat.lt_irrefl 0)
  · rw [if_neg hmn]
    exact hm

/-- No name comes to stand for a port. -/
lemma portOf_of_deallocate {n m : ν} {p : π} (hm : (s.deallocate n).portOf m = some p) :
    s.portOf m = some p := by
  rw [portOf, entry_deallocate] at hm
  by_cases hmn : m = n
  · subst hmn
    rw [if_pos rfl] at hm
    obtain ⟨e', he', rfl⟩ := Option.map_eq_some_iff.mp hm
    obtain ⟨e, he, hkept⟩ := Option.bind_eq_some_iff.mp he'
    rw [portOf, he]
    split_ifs at hkept
    obtain rfl := Option.some.inj hkept
    rfl
  · rw [if_neg hmn] at hm
    exact hm

/-- What a name that does not stand for anything is given up for: nothing. -/
lemma deallocate_of_portOf_eq_none {n : ν} (h : s.portOf n = none) : s.deallocate n = s := by
  unfold deallocate
  split
  · rfl
  · next e he =>
    rw [portOf, he] at h
    cases h

/-- Other names stand for what they did. -/
lemma portOf_deallocate_of_ne {n m : ν} (h : m ≠ n) :
    (s.deallocate n).portOf m = s.portOf m := by
  rw [portOf, entry_deallocate, if_neg h, portOf]

/-- A right is delivered under the name the port had, or the new one. -/
lemma portOf_of_deliver {p : π} {fresh n : ν} {t : Space ν π}
    (h : s.deliver p fresh = some (n, t)) : s.portOf n = some p ∨ n = fresh := by
  unfold deliver at h
  split at h
  · next m hp =>
    split at h
    · obtain ⟨rfl, -⟩ := Prod.mk.inj (Option.some.inj h)
      exact Or.inl (s.nameOf_eq_some_iff.mp hp)
    · cases h
  · split at h
    · cases h
    · exact Or.inr (Prod.mk.inj (Option.some.inj h)).1.symm

/-! ## Accounts -/

/-- The references of a name are those of one part of the task, `mine`, and those of the rest,
`others`. -/
structure Accounted (s : Space ν π) (others : π → ℕ) (mine : ν → ℕ) : Prop where
  refs : ∀ n p, s.portOf n = some p → s.refs n = others p + mine n
  named : ∀ n, 0 < mine n → ∃ p, s.portOf n = some p
  held : ∀ p, 0 < others p → ∃ n, s.portOf n = some p

variable {others : π → ℕ} {mine : ν → ℕ}

omit [DecidableEq π] in
/-- A port that nobody else holds a right for, under a name that is nobody's, has no references. -/
lemma Accounted.refs_delivered (h : s.Accounted others mine) {p : π} {n : ν}
    {t : Space ν π} (hd : s.Delivers p n t) {m : ν} {q : π} (hm : t.portOf m = some q) :
    t.refs m = others q + mine m + if m = n then 1 else 0 := by
  rw [hd.refs]
  cases hold : s.portOf m with
  | some q' =>
    obtain rfl : q' = q := Option.some.inj ((hd.kept m q' hold).symm.trans hm)
    rw [h.refs m q' hold]
  | none =>
    have hmine : mine m = 0 := by
      by_contra hne
      obtain ⟨q', hq'⟩ := h.named m (Nat.pos_of_ne_zero hne)
      rw [hold] at hq'
      cases hq'
    have hothers : others q = 0 := by
      by_contra hne
      obtain ⟨m', hm'⟩ := h.held q (Nat.pos_of_ne_zero hne)
      obtain rfl := portOf_inj (hd.kept m' q hm') hm
      rw [hold] at hm'
      cases hm'
    rw [refs_of_portOf_eq_none hold, hothers, hmine]

omit [DecidableEq π] in
/-- **A right is delivered** to the part that counts by name. -/
theorem Accounted.deliver (h : s.Accounted others mine) {p : π} {n : ν} {t : Space ν π}
    (hd : s.Delivers p n t) :
    t.Accounted others fun m => mine m + if m = n then 1 else 0 where
  refs m q hm := by
    rw [h.refs_delivered hd hm, Nat.add_assoc]
  named m hm := by
    by_cases hmn : m = n
    · exact ⟨p, hmn ▸ hd.here⟩
    · rw [if_neg hmn, Nat.add_zero] at hm
      obtain ⟨q, hq⟩ := h.named m hm
      exact ⟨q, hd.kept m q hq⟩
  held q hq := by
    obtain ⟨m, hm⟩ := h.held q hq
    exact ⟨m, hd.kept m q hm⟩

/-- A right is delivered to the rest of the task. -/
theorem Accounted.deliver_others (h : s.Accounted others mine) {p : π} {n : ν} {t : Space ν π}
    (hd : s.Delivers p n t) :
    t.Accounted (fun q => others q + if q = p then 1 else 0) mine where
  refs m q hm := by
    have hiff : m = n ↔ q = p := by
      constructor
      · rintro rfl
        exact Option.some.inj (hm.symm.trans hd.here)
      · rintro rfl
        exact portOf_inj hm hd.here
    rw [h.refs_delivered hd hm]
    simp only [hiff]
    omega
  named m hm := by
    obtain ⟨q, hq⟩ := h.named m hm
    exact ⟨q, hd.kept m q hq⟩
  held q hq := by
    by_cases hqp : q = p
    · exact ⟨n, hqp ▸ hd.here⟩
    · rw [if_neg hqp, Nat.add_zero] at hq
      obtain ⟨m, hm⟩ := h.held q hq
      exact ⟨m, hd.kept m q hm⟩

/-- Names that somebody has references of stay when one of the others is given up. -/
lemma Accounted.portOf_kept (h : s.Accounted others mine) {n m : ν} {p q : π}
    (hn : s.portOf n = some p) (hm : s.portOf m = some q)
    (hleft : m = n → 1 < others p + mine n) : (s.deallocate n).portOf m = some q := by
  by_cases hmn : m = n
  · refine portOf_deallocate hm ?_
    have hrefs := h.refs n p hn
    have hlt := hleft hmn
    rw [refs_deallocate, if_pos hmn, hmn, hrefs]
    omega
  · rw [portOf_deallocate_of_ne hmn, hm]

/-- **A right is given up** by the part that counts by name. -/
theorem Accounted.deallocate (h : s.Accounted others mine) {n : ν} (hn : 0 < mine n) :
    (s.deallocate n).Accounted others fun m => mine m - if m = n then 1 else 0 where
  refs m q hm := by
    rw [refs_deallocate, h.refs m q (portOf_of_deallocate hm)]
    split_ifs with hmn
    · rw [hmn]
      omega
    · rfl
  named m hm := by
    obtain ⟨p, hp⟩ := h.named n hn
    obtain ⟨q, hq⟩ := h.named m (by omega)
    refine ⟨q, h.portOf_kept hp hq fun hmn => ?_⟩
    rw [if_pos hmn, hmn] at hm
    omega
  held q hq := by
    obtain ⟨p, hp⟩ := h.named n hn
    obtain ⟨m, hm⟩ := h.held q hq
    refine ⟨m, h.portOf_kept hp hm fun hmn => ?_⟩
    have hpq : p = q := by
      subst hmn
      exact Option.some.inj (hp.symm.trans hm)
    rw [hpq]
    omega

/-- A right is given up by the rest of the task. -/
theorem Accounted.deallocate_others (h : s.Accounted others mine) {n : ν} {p : π}
    (hn : s.portOf n = some p) (hp : 0 < others p) :
    (s.deallocate n).Accounted (fun q => others q - if q = p then 1 else 0) mine where
  refs m q hm := by
    have hq := portOf_of_deallocate hm
    have hiff : m = n ↔ q = p := by
      constructor
      · rintro rfl
        exact Option.some.inj (hq.symm.trans hn)
      · rintro rfl
        exact portOf_inj hq hn
    rw [refs_deallocate, h.refs m q hq]
    simp only [hiff]
    split_ifs with hqp
    · rw [hqp]
      omega
    · rfl
  named m hm := by
    obtain ⟨q, hq⟩ := h.named m hm
    refine ⟨q, h.portOf_kept hn hq fun hmn => ?_⟩
    rw [hmn] at hm
    omega
  held q hq := by
    obtain ⟨m, hm⟩ := h.held q (by omega)
    refine ⟨m, h.portOf_kept hn hm fun hmn => ?_⟩
    have hpq : q = p := by
      subst hmn
      exact Option.some.inj (hm.symm.trans hn)
    rw [if_pos hpq, hpq] at hq
    omega

end Space

end PortSpace
