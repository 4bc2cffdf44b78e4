import Asteros.Dyld.LoaderRuns
import Mathlib.Data.List.Nodup
import Mathlib.Logic.Relation

set_option autoImplicit false

/-!
# The order of initializers

Initializers run from the last image of the table to the first. A dependency that is loaded for an
image is behind it, but one that has been loaded before may be in front of it.

## Main definitions

* `DependsOn` — direct dependencies.
* `InitsAfterDeps` — all initializers run after those of the dependencies.

## Main results

* `initsAfterDeps_iff` — when they do.
* `initsOnce` — none runs twice, and none that is needed is left out.
-/

namespace Asteros.Dyld

open Asteros.Libc Outcome Relation

/-- The image `x` depends directly on the image `d`. -/
def DependsOn (t : Table) (x d : ℕ) : Prop := ∃ e, t.entries[x]? = some e ∧ d ∈ e.image.deps

/-- The initializers run in an order in which those of every image come after those of all images it
depends on, directly or through others. -/
def InitsAfterDeps (t : Table) (order : List ℕ) : Prop :=
  ∀ x d, TransGen (DependsOn t) x d → [d, x].Sublist order

/-- Two numbers in the order of a range. -/
lemma pair_sublist_range {x d n : ℕ} : [x, d].Sublist (List.range n) ↔ x < d ∧ d < n := by
  constructor
  · intro h
    have hsorted : [x, d].Pairwise (· < ·) := List.pairwise_lt_range.sublist h
    exact ⟨List.rel_of_pairwise_cons hsorted List.mem_cons_self,
      List.mem_range.mp (h.subset (List.mem_cons_of_mem _ List.mem_cons_self))⟩
  · rintro ⟨hxd, hdn⟩
    induction n with
    | zero => omega
    | succ n ih =>
      rw [List.range_succ]
      rcases Nat.lt_succ_iff_lt_or_eq.mp hdn with hlt | rfl
      · exact (ih hlt).trans (List.sublist_append_left _ _)
      · have hx : [x].Sublist (List.range d) := List.singleton_sublist.mpr (List.mem_range.mpr hxd)
        exact hx.append (List.Sublist.refl [d])

/-- The order in which the initializers run. -/
lemma order_eq {k : Kernel} {argv0 : Option CString} {mainMh : ℕ} {cmds : List LoadCommand}
    {runs : List (ℕ × List ℕ)} {t : Table}
    (h : dyldBootstrapMain k argv0 mainMh cmds Table.empty = .ok runs t) :
    Loaded k (mainEntry argv0 cmds) t ∧
      runs.map Prod.fst = (List.range t.entries.length).reverse := by
  have hends : Ends (dyldBootstrapMain k argv0 mainMh cmds) Table.empty
      (fun runs t => Loaded k (mainEntry argv0 cmds) t ∧
        runs.map Prod.fst = (List.range t.entries.length).reverse) (fun _ _ => True) := by
    refine Ends.bind ((loadMain_ends k argv0 mainMh cmds).mono ?_ fun _ _ _ => trivial)
    intro _ t hloaded
    refine Ends.bind (Ends.get (Ends.pure ⟨hloaded, ?_⟩))
    rw [List.map_map, List.range_eq_range', ← List.zipIdx_map_snd 0 t.entries, ← List.map_reverse]
    rfl
  exact hends.ok h

/-- An image that a call answers with is in the table. -/
lemma Answers.lt {k : Kernel} {main : KeptEntry} {t : Table} (h : Sound k main t) {c : Call}
    (hc : c ∈ t.calls) {i : ℕ} (ha : Answers t c i) : i < t.entries.length := by
  rcases ha with hfind | ⟨-, -, e, he, -⟩
  · obtain ⟨hlt, -⟩ := List.findIdx?_eq_some_iff_getElem.mp hfind
    have hle := (h.before c hc).length_le
    rw [List.length_map, List.length_map] at hle
    exact hlt.trans_le hle
  · exact (List.getElem?_eq_some_iff.mp he).1

/-- **Initializers run after those of the dependencies** exactly if no call finds the image it is
made for or one in front of that.

**Proof sketch.** The answer of a call becomes a dependency of its image. A new image is behind all
others, so a dependency is behind its image unless it was found in front; and then the same is true
of dependencies of dependencies. -/
theorem initsAfterDeps_iff {k : Kernel} {argv0 : Option CString} {mainMh : ℕ}
    {cmds : List LoadCommand} {runs : List (ℕ × List ℕ)} {t : Table}
    (h : dyldBootstrapMain k argv0 mainMh cmds Table.empty = .ok runs t) :
    InitsAfterDeps t (runs.map Prod.fst) ↔
      ∀ c ∈ t.calls, ∀ i, findLoaded c.entries c.path = some i → c.parent < i := by
  obtain ⟨⟨hsound, -, hrecorded⟩, horder⟩ := order_eq h
  have hpair : ∀ x d, [d, x].Sublist (runs.map Prod.fst) ↔ x < d ∧ d < t.entries.length := by
    intro x d
    rw [horder, ← List.reverse_sublist, List.reverse_reverse]
    exact pair_sublist_range
  constructor
  · intro hinits c hc i hfind
    obtain ⟨e, n, i', he, -, hdep, ha⟩ := hrecorded c hc
    have hi : i' = i := by
      rcases ha with hfind' | ⟨hnone, -⟩
      · exact Option.some.inj (hfind'.symm.trans hfind)
      · rw [hnone] at hfind
        cases hfind
    subst hi
    exact ((hpair _ _).mp (hinits _ _ (.single ⟨e, he, List.mem_of_getElem? hdep⟩))).1
  · intro hcalls
    have hdirect : ∀ x d, DependsOn t x d → x < d ∧ d < t.entries.length := by
      rintro x d ⟨e, he, hd⟩
      obtain ⟨n, hn⟩ := List.getElem?_of_mem hd
      obtain ⟨c, hc, rfl, -, ha⟩ := hsound.answered x e n d he hn
      refine ⟨?_, ha.lt hsound hc⟩
      rcases ha with hfind | ⟨-, rfl, -⟩
      · exact hcalls c hc d hfind
      · obtain ⟨e', he', -⟩ := hsound.parent c hc
        exact (List.getElem?_eq_some_iff.mp he').1
    intro x d hdep
    rw [hpair]
    induction hdep with
    | single hstep => exact hdirect _ _ hstep
    | tail _ hstep ih => exact ⟨ih.1.trans (hdirect _ _ hstep).1, (hdirect _ _ hstep).2⟩

/-- A dependency of an image is in the table. -/
lemma Sound.depends_lt {k : Kernel} {main : KeptEntry} {t : Table} (h : Sound k main t) {x d : ℕ}
    (hdep : DependsOn t x d) : d < t.entries.length := by
  obtain ⟨e, he, hd⟩ := hdep
  obtain ⟨n, hn⟩ := List.getElem?_of_mem hd
  obtain ⟨c, hc, -, -, ha⟩ := h.answered x e n d he hn
  exact ha.lt h hc

/-- Every image in the table is one the executable depends on, directly or through others. -/
lemma Loaded.reaches {k : Kernel} {main : KeptEntry} {t : Table} (h : Loaded k main t) {x : ℕ}
    (hx : x < t.entries.length) : ReflTransGen (DependsOn t) 0 x := by
  induction x using Nat.strong_induction_on with
  | _ x ih =>
    cases x with
    | zero => exact .refl
    | succ i =>
      -- the call that registered the image was made for one in front of it
      obtain ⟨c, hc, hlen, hnone, -⟩ := h.sound.registered i _ (List.getElem?_eq_getElem hx)
      obtain ⟨e, n, d, he, -, hdep, ha⟩ := h.recorded c hc
      obtain ⟨_, hparent, -⟩ := h.sound.parent c hc
      have hlt := (List.getElem?_eq_some_iff.mp hparent).1
      rcases ha with hfind | ⟨-, rfl, -⟩
      · rw [hnone] at hfind
        cases hfind
      · rw [hlen] at hdep hlt
        exact (ih c.parent hlt (by omega)).tail ⟨e, he, List.mem_of_getElem? hdep⟩

/-- **The initializers of each image that is needed run once**, whatever the graph of dependencies,
those of the executable last; those of no other image run.

**Proof sketch.** The images in the table are those the executable depends on: one is registered by a
call for an image in front of it. All images of the table are gone through once, from the last. -/
theorem initsOnce {k : Kernel} {argv0 : Option CString} {mainMh : ℕ} {cmds : List LoadCommand}
    {runs : List (ℕ × List ℕ)} {t : Table}
    (h : dyldBootstrapMain k argv0 mainMh cmds Table.empty = .ok runs t) :
    (∀ d, ReflTransGen (DependsOn t) 0 d → (runs.map Prod.fst).count d = 1) ∧
      (∀ d, ¬ReflTransGen (DependsOn t) 0 d → (runs.map Prod.fst).count d = 0) ∧
      (runs.map Prod.fst).getLast? = some 0 := by
  obtain ⟨hloaded, horder⟩ := order_eq h
  obtain ⟨_, hmain, -⟩ := hloaded.sound.first
  have hpos := (List.getElem?_eq_some_iff.mp hmain).1
  have hreach : ∀ d, ReflTransGen (DependsOn t) 0 d → d < t.entries.length := by
    intro d hd
    cases hd with
    | refl => exact hpos
    | tail _ hdep => exact hloaded.sound.depends_lt hdep
  rw [horder]
  refine ⟨fun d hd => ?_, fun d hd => ?_, ?_⟩
  · rw [List.count_reverse]
    exact List.count_eq_one_of_mem List.nodup_range (List.mem_range.2 (hreach d hd))
  · apply List.count_eq_zero_of_not_mem
    rw [List.mem_reverse, List.mem_range]
    exact fun hlt => hd (hloaded.reaches hlt)
  · obtain ⟨n, hn⟩ : ∃ n, t.entries.length = n + 1 := ⟨t.entries.length - 1, by omega⟩
    rw [hn, List.range_succ_eq_map, List.reverse_cons, List.getLast?_concat]

/-! ## Two executables -/

/-- The path of a dylib. -/
def pathA : CString := .ofBytes (ascii "/usr/lib/libA.dylib")

/-- The path of another one. -/
def pathB : CString := .ofBytes (ascii "/usr/lib/libB.dylib")

/-- A kernel with two dylibs, of which the second depends on the first. -/
def twoDylibs : Kernel where
  file path :=
    if path = pathA then .machO [headerSegment 0]
    else if path = pathB then .machO [headerSegment 0, .loadDylib pathA]
    else .missing
  mmap _ _ := true
  hasBytes _ _ _ := true

/-- Linked with the second dylib only, an executable has both initialized in the right order. -/
theorem initsAfterDeps_iff_chain : ∃ runs t,
    dyldBootstrapMain twoDylibs none 0x100000000 [headerSegment 0x100000000, .loadDylib pathB]
      Table.empty = .ok runs t ∧ InitsAfterDeps t (runs.map Prod.fst) := by
  have hrun : succeeds (dyldBootstrapMain twoDylibs none 0x100000000
      [headerSegment 0x100000000, .loadDylib pathB]) Table.empty
      (fun _ t => t.calls.all fun c => findLoaded c.entries c.path = none) = true := by
    decide +kernel
  obtain ⟨runs, t, hrun, hcalls⟩ := succeeds_iff.mp hrun
  refine ⟨runs, t, hrun, (initsAfterDeps_iff hrun).mpr ?_⟩
  intro c hc i hfind
  have hnone := of_decide_eq_true (List.all_eq_true.mp hcalls c hc)
  rw [hnone] at hfind
  cases hfind

/-- **A dylib that is linked before one that depends on it is initialized after that one.** -/
theorem not_initsAfterDeps_shared : ∃ runs t,
    dyldBootstrapMain twoDylibs none 0x100000000
      [headerSegment 0x100000000, .loadDylib pathA, .loadDylib pathB] Table.empty = .ok runs t ∧
      ¬InitsAfterDeps t (runs.map Prod.fst) := by
  have hrun : succeeds (dyldBootstrapMain twoDylibs none 0x100000000
      [headerSegment 0x100000000, .loadDylib pathA, .loadDylib pathB]) Table.empty
      (fun runs t => runs.map Prod.fst = [2, 1, 0] ∧
        t.entries.map (fun e => e.image.deps) = [[1, 2], [], [1]]) = true := by
    decide +kernel
  obtain ⟨runs, t, hrun, htest⟩ := succeeds_iff.mp hrun
  obtain ⟨horder, hdeps⟩ := of_decide_eq_true htest
  refine ⟨runs, t, hrun, fun hinits => ?_⟩
  obtain ⟨e, he, hd⟩ : ∃ e, t.entries[2]? = some e ∧ e.image.deps = [1] := by
    have hget : (t.entries.map fun e => e.image.deps)[2]? = some [1] := by
      rw [hdeps]
      rfl
    rw [List.getElem?_map, Option.map_eq_some_iff] at hget
    exact hget
  have hsub := hinits 2 1 (.single ⟨e, he, hd ▸ List.mem_cons_self⟩)
  rw [horder] at hsub
  exact absurd hsub (by decide)

/-- With a dylib that is needed twice, the executable is initialized last. -/
theorem initsOnce_shared : ∃ runs t,
    dyldBootstrapMain twoDylibs none 0x100000000
      [headerSegment 0x100000000, .loadDylib pathA, .loadDylib pathB] Table.empty = .ok runs t ∧
      (runs.map Prod.fst).getLast? = some 0 := by
  have hrun : succeeds (dyldBootstrapMain twoDylibs none 0x100000000
      [headerSegment 0x100000000, .loadDylib pathA, .loadDylib pathB]) Table.empty
      (fun _ _ => true) = true := by
    decide +kernel
  obtain ⟨runs, t, hrun, -⟩ := succeeds_iff.mp hrun
  exact ⟨runs, t, hrun, (initsOnce hrun).2.2⟩

end Asteros.Dyld
