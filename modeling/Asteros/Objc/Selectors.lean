import Asteros.Lib.Intern
import Asteros.Objc.Classes

set_option autoImplicit false

/-!
# Selectors

`selector.c`: a selector is the address of the one copy that the runtime keeps of a name, so that
names are compared once, when they are registered, and selectors ever after. The table of the
copies has 4096 places. A name that comes up when they are taken gets the null selector.

## Main definitions

* `selRegisterName`, `selGetName` — the functions.
* `selOf` — the selector that a name has.

## Main results

* `selRegisterName_eq` — a name keeps the selector it gets.
* `selOf_injective` — names that are in the table have selectors of their own.
-/

namespace Asteros.Objc.Selectors

open Classes (Sel)

/-- `OBJC_MAX_SELECTORS`. -/
def objcMaxSelectors : ℕ := 4096

/-- `g_selectors`, up to `g_nselectors`. -/
abbrev Table := List String

/-- The addresses that `malloc` gives the copies, in order: no two are the same, and none is
null. -/
structure Copies where
  /-- The address of a copy. -/
  addr : ℕ → Sel
  /-- No two are the same. -/
  injective : Function.Injective addr
  /-- None is null. -/
  ne_zero : ∀ i, addr i ≠ 0

/-- Copies of 16 bytes, one behind the other. -/
def Copies.adjacent : Copies where
  addr i := 16 * (i + 1)
  injective i j h := by
    have hmul : 16 * (i + 1) = 16 * (j + 1) := h
    omega
  ne_zero i := Nat.mul_ne_zero (by decide) (Nat.succ_ne_zero i)

variable (copies : Copies)

/-- `sel_registerName`; `none` is a null pointer. -/
def selRegisterName (table : Table) : Option String → Sel × Table
  | none => (0, table)
  | some str =>
    match Intern.lookup table str with
    | some i => (copies.addr i, table)
    | none =>
      if objcMaxSelectors ≤ table.length then (0, table)
      else (copies.addr table.length, table ++ [str])

/-- `objc_selref_fixup`, for the names of the selector references of an image: the table behind
it. -/
def fixup (table : Table) (names : List String) : Table :=
  names.foldl (fun table name => (selRegisterName copies table (some name)).2) table

/-- The selector that a name has, once it has come up. -/
def selOf (table : Table) (name : String) : Sel := (Intern.lookup table name).elim 0 copies.addr

/-- `sel_getName`, of a selector that is null or the address of a copy. -/
def selGetName (table : Table) (sel : Sel) : String :=
  (table.find? fun name => selOf copies table name == sel).getD "<null selector>"

/-- A later table. -/
abbrev Extends : Table → Table → Prop := Intern.Extends objcMaxSelectors

/-! ## Laws -/

section

variable {copies} {table table' : Table} {name name' : String}

/-- `sel_registerName` enters the name. -/
lemma selRegisterName_enter (table : Table) (name : String) :
    selRegisterName copies table (some name) =
      ((Intern.enter objcMaxSelectors table name).1.elim 0 copies.addr,
        (Intern.enter objcMaxSelectors table name).2) := by
  rw [selRegisterName, Intern.enter]
  cases Intern.lookup table name with
  | some i => rfl
  | none =>
    dsimp only
    split <;> rfl

/-- The table behind a call is a later one. -/
lemma selRegisterName_extends (table : Table) (name : String) :
    Extends table (selRegisterName copies table (some name)).2 := by
  rw [selRegisterName_enter]
  exact Intern.enter_extends _ table name

/-- **A name keeps the selector it gets**, whatever comes up later. -/
theorem selRegisterName_eq (h : Extends (selRegisterName copies table (some name)).2 table') :
    (selRegisterName copies table (some name)).1 = selOf copies table' name := by
  rw [selRegisterName_enter] at h ⊢
  have hlookup := (Intern.settled_enter objcMaxSelectors table name).lookup_eq h
  rw [selOf, hlookup, Intern.enter_fst]

/-- A name that is in the table keeps its selector. -/
lemma selOf_extends (hext : Extends table table') (h : name ∈ table) :
    selOf copies table' name = selOf copies table name := by
  have hsettled : Intern.Settled objcMaxSelectors table name := .inl h
  rw [selOf, selOf, hsettled.lookup_eq hext]

/-- The table behind the fixup is a later one. -/
lemma fixup_extends (table : Table) (names : List String) :
    Extends table (fixup copies table names) := by
  induction names generalizing table with
  | nil => exact .refl _ table
  | cons name names ih => exact (selRegisterName_extends table name).trans (ih _)

/-- A name that is in the table has a selector. -/
lemma selOf_ne_zero (h : name ∈ table) : selOf copies table name ≠ 0 := by
  rw [selOf, Intern.lookup, if_pos h]
  exact copies.ne_zero _

/-- A name that is not has none. -/
lemma selOf_eq_zero (h : name ∉ table) : selOf copies table name = 0 := by
  rw [selOf, Intern.lookup, if_neg h]
  rfl

/-- **Names that are in the table have selectors of their own.** -/
theorem selOf_injective (h : name ∈ table)
    (heq : selOf copies table name = selOf copies table name') : name = name' := by
  have hne : selOf copies table name' ≠ 0 := heq ▸ selOf_ne_zero h
  have h' : name' ∈ table := by
    by_contra hnew
    exact hne (selOf_eq_zero hnew)
  rw [selOf, selOf, Intern.lookup, Intern.lookup, if_pos h, if_pos h'] at heq
  exact (List.idxOf_inj h).mp (copies.injective heq)

/-- The name of a selector. -/
lemma selGetName_selOf (h : name ∈ table) :
    selGetName copies table (selOf copies table name) = name := by
  cases hfind : table.find? fun n => selOf copies table n == selOf copies table name with
  | none => exact absurd (List.find?_eq_none.mp hfind name h) (by simp)
  | some n =>
    have heq : selOf copies table n = selOf copies table name := by
      simpa using List.find?_some hfind
    rw [selGetName, hfind, selOf_injective (List.mem_of_find?_eq_some hfind) heq]
    rfl

end

end Asteros.Objc.Selectors
