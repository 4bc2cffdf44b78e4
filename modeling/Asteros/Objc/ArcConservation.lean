import Asteros.Objc.Arc

set_option autoImplicit false

/-!
# Who owns an object

The retain count of an object is what its owners are owed: the one from its allocation, the retains
of the program less its releases and autoreleases, and the entries of the autorelease stack that a
pool has yet to release. Every entry point keeps the account, with two exceptions.
`objc_retainAutoreleasedReturnValue` takes the last entry off the stack when it is the object's and
retains the object as well. And what a `dealloc` autoreleases while a pop is on its way, with no pool
of its own, lies above the entries that the loop goes through, and is gone when the pop is over.

## Main definitions

* `Runtime.pending` — the entries that a pool has yet to release.
* `Conserved` — the account of every live object.
* `NoOverflow`, `Undisturbed` — the side table has room, and neither of the two exceptions is met.

## Main results

* `Account.step` — every other step keeps the account.
* `conservation` — so do the runs.
* `not_conservation_reclaimed` — the fast path leaks.
-/

namespace Asteros.Objc.Arc

open KeyedList Transition

variable {Obj Loc : Type} [DecidableEq Obj]

/-! ## Pending entries -/

/-- How often the object is in the stack below a position. -/
def below (stack : ℕ → Option Obj) (obj : Obj) : ℕ → ℕ
  | 0 => 0
  | n + 1 => below stack obj n + if stack n = some obj then 1 else 0

/-- How often the object is among the entries that a pool has yet to release, in the stack up to a
top: the loop of a pop has released what lies between it and what was pushed since. -/
def pendingFrom (stack : ℕ → Option Obj) (obj : Obj) : List (Frame Obj) → ℕ → ℕ
  | [], top => below stack obj top
  | .pool mark :: frames, top =>
    below stack obj top - below stack obj mark + pendingFrom stack obj frames mark
  | .popping next mark :: frames, _ =>
    below stack obj next - below stack obj mark + pendingFrom stack obj frames mark
  | .dealloc _ :: frames, top => pendingFrom stack obj frames top

/-- The entries of the object that a pool has yet to release. -/
def Runtime.pending (s : Runtime Obj Loc) (obj : Obj) : ℕ :=
  pendingFrom s.stack obj s.frames s.top

/-- The marks of the pools, and where the loops are, from the top of the stack down. -/
def Nested : List (Frame Obj) → ℕ → Prop
  | [], _ => True
  | .pool mark :: frames, top => mark ≤ top ∧ Nested frames mark
  | .popping next mark :: frames, top => mark ≤ next ∧ next ≤ top ∧ Nested frames mark
  | .dealloc _ :: frames, top => Nested frames top

/-- The place of the loop of the innermost pool, if that is on its way to be popped. -/
def loopAt : List (Frame Obj) → Option ℕ
  | .dealloc _ :: frames => loopAt frames
  | .popping next _ :: _ => some next
  | .pool _ :: _ | [] => none

/-! ## The account -/

/-- The account of every live object. -/
structure Conserved (s : Runtime Obj Loc) : Prop where
  /-- The retain count. -/
  count : ∀ obj, s.live obj = true →
    rootRetainCount s.refcounts obj + s.releases obj + s.autoreleases obj =
      1 + s.retains obj + s.pending obj
  /-- A release sends `dealloc` exactly if it is the last owner's. -/
  last : ∀ obj, s.live obj = true →
    ((rootRelease s.refcounts obj).2 = true ↔
      s.releases obj + s.autoreleases obj = s.retains obj + s.pending obj)

/-- The side table does not overflow. -/
def NoOverflow (s : Runtime Obj Loc) : Action Obj Loc → Prop
  | .retain (some obj) | .retainAutoreleasedReturnValue (some obj) => HasRoom s.refcounts obj
  | .storeStrong location (some obj) =>
    some obj ≠ location.bind s.locations → HasRoom s.refcounts obj
  | _ => True

/-- The step does not take a pending entry off the stack for
`objc_retainAutoreleasedReturnValue`, and nothing is autoreleased in a `dealloc` that a pop runs,
outside of a pool of its own. -/
def Undisturbed (s : Runtime Obj Loc) : Action Obj Loc → Prop
  | .autorelease (some _) | .autoreleaseReturnValue (some _) => loopAt s.frames = none
  | .retainAutoreleasedReturnValue (some obj) =>
    s.isLast obj = true → ∃ next ∈ loopAt s.frames, next < s.top
  | _ => True

instance (s : Runtime Obj Loc) (a : Action Obj Loc) : Decidable (NoOverflow s a) := by
  unfold NoOverflow
  split <;> infer_instance

instance (s : Runtime Obj Loc) (a : Action Obj Loc) : Decidable (Undisturbed s a) := by
  unfold Undisturbed
  split <;> infer_instance

/-- The account with what is still due: so many releases of each object are to come. -/
structure Account (s : Runtime Obj Loc) (due : Obj → ℕ) : Prop where
  /-- The entries of the side table are apart. -/
  distinct : Distinct same s.refcounts
  /-- Pools are nested. -/
  nested : Nested s.frames s.top
  /-- What was not allocated is nowhere. -/
  fresh : ∀ obj, s.used obj = false →
    rootRetainCount s.refcounts obj = 1 ∧ s.live obj = false ∧ ∀ p, s.stack p ≠ some obj
  /-- The retain count. -/
  count : ∀ obj, s.live obj = true →
    rootRetainCount s.refcounts obj + s.releases obj + s.autoreleases obj =
      1 + s.retains obj + s.pending obj + due obj

section

variable {s s' : Runtime Obj Loc} {obj : Obj} {stack : ℕ → Option Obj} {due : Obj → ℕ}

/-- Counting goes up. -/
lemma below_mono {m n : ℕ} (h : m ≤ n) : below stack obj m ≤ below stack obj n := by
  induction h with
  | refl => exact Nat.le_refl _
  | step h ih => exact ih.trans (Nat.le_add_right _ _)

/-- An entry at a position is not below it. -/
lemma below_update {m n : ℕ} (h : m ≤ n) {entry : Option Obj} :
    below (Function.update stack n entry) obj m = below stack obj m := by
  induction m with
  | zero => rfl
  | succ m ih =>
    rw [below, below, ih (by omega), Function.update_of_ne (by omega)]

/-- What is pending does not see what lies above the top. -/
lemma pendingFrom_update {frames : List (Frame Obj)} {top n : ℕ} (h : Nested frames top)
    (hn : top ≤ n) {entry : Option Obj} :
    pendingFrom (Function.update stack n entry) obj frames top =
      pendingFrom stack obj frames top := by
  induction frames generalizing top with
  | nil => exact below_update hn
  | cons f frames ih =>
    cases f with
    | pool mark =>
      obtain ⟨hmark, hrest⟩ := h
      rw [pendingFrom, pendingFrom, below_update hn, below_update (hmark.trans hn),
        ih hrest (hmark.trans hn)]
    | popping next mark =>
      obtain ⟨hmark, hnext, hrest⟩ := h
      have hle := hmark.trans (hnext.trans hn)
      rw [pendingFrom, pendingFrom, below_update (hnext.trans hn), below_update hle, ih hrest hle]
    | dealloc x => exact ih h hn

/-- What is pushed is pending, if the innermost pool is not on its way to be popped. -/
lemma pendingFrom_succ {frames : List (Frame Obj)} {top : ℕ} (h : Nested frames top)
    (hloop : loopAt frames = none) :
    pendingFrom stack obj frames (top + 1) =
      pendingFrom stack obj frames top + if stack top = some obj then 1 else 0 := by
  induction frames with
  | nil => rfl
  | cons f frames ih =>
    cases f with
    | pool mark =>
      have hmono : below stack obj mark ≤ below stack obj top := below_mono h.1
      rw [pendingFrom, pendingFrom, below]
      omega
    | popping next mark => cases hloop
    | dealloc x => exact ih h hloop

omit [DecidableEq Obj] in
/-- Pools are nested below a higher top, too. -/
lemma Nested.mono {frames : List (Frame Obj)} {top top' : ℕ} (h : Nested frames top)
    (htop : top ≤ top') : Nested frames top' := by
  induction frames with
  | nil => trivial
  | cons f frames ih =>
    cases f with
    | pool mark => exact ⟨h.1.trans htop, h.2⟩
    | popping next mark => exact ⟨h.1, h.2.1.trans htop, h.2.2⟩
    | dealloc x => exact ih h

omit [DecidableEq Obj] in
/-- While a pop is on its way, the top can go down to where its loop is. -/
lemma Nested.lower {frames : List (Frame Obj)} {top top' next : ℕ} (h : Nested frames top)
    (hloop : loopAt frames = some next) (htop : next ≤ top') : Nested frames top' := by
  induction frames with
  | nil => cases hloop
  | cons f frames ih =>
    cases f with
    | pool mark => cases hloop
    | popping n mark =>
      cases hloop
      exact ⟨h.1, htop, h.2.2⟩
    | dealloc x => exact ih h hloop

/-- And what is pending does not change. -/
lemma pendingFrom_lower {frames : List (Frame Obj)} {top top' next : ℕ}
    (hloop : loopAt frames = some next) :
    pendingFrom stack obj frames top' = pendingFrom stack obj frames top := by
  induction frames with
  | nil => cases hloop
  | cons f frames ih =>
    cases f with
    | pool mark => cases hloop
    | popping n mark => rfl
    | dealloc x => exact ih hloop

/-- What is live was allocated. -/
lemma Account.used (h : Account s due) (hlive : s.live obj = true) : s.used obj = true := by
  by_contra hused
  rw [Bool.not_eq_true] at hused
  rw [(h.fresh obj hused).2.1] at hlive
  cases hlive

/-- What is live is another object than one that was not allocated. -/
lemma Account.ne_of_fresh (h : Account s due) (hlive : s.live obj = true) {other : Obj}
    (hother : s.used other = false) : obj ≠ other := by
  rintro rfl
  rw [h.used hlive] at hother
  cases hother

/-- A retain of the program. -/
lemma Account.retained (h : Account s due) (hlive : s.live obj = true)
    (hroom : HasRoom s.refcounts obj) :
    Account ((s.sendRetain obj).countRetain obj) due where
  distinct := distinct_rootRetain h.distinct
  nested := h.nested
  fresh other hother := by
    obtain ⟨hone, hdead, hstack⟩ := h.fresh other hother
    have hcount := rootRetainCount_rootRetain hroom other
    rw [if_neg (h.ne_of_fresh hlive hother), Nat.add_zero, hone] at hcount
    exact ⟨hcount, hdead, hstack⟩
  count other hother := by
    have hcount := rootRetainCount_rootRetain hroom other
    have hold := h.count other hother
    change rootRetainCount (rootRetain s.refcounts obj) other + s.releases other +
      s.autoreleases other = 1 + Function.update s.retains obj (s.retains obj + 1) other +
        s.pending other + due other
    by_cases ho : obj = other
    · subst ho
      rw [Function.update_self]
      rw [if_pos rfl] at hcount
      omega
    · rw [Function.update_of_ne (Ne.symm ho)]
      rw [if_neg ho] at hcount
      omega

/-- A release that is due. -/
lemma Account.sent (h : Account s fun o => due o + if obj = o then 1 else 0)
    (hlive : s.live obj = true) : Account (s.sendRelease obj) due := by
  have hother : ∀ {other : Obj}, obj ≠ other →
      rootRetainCount (rootRelease s.refcounts obj).1 other =
        rootRetainCount s.refcounts other := by
    intro other ho
    have hcount := rootRetainCount_rootRelease h.distinct other
      (fun heq => absurd heq ho)
    rwa [if_neg ho, Nat.add_zero] at hcount
  rw [Runtime.sendRelease]
  split
  · next hsends =>
    constructor
    · exact distinct_rootRelease h.distinct
    · exact h.nested
    · intro other hfresh
      obtain ⟨hone, hdead, hstack⟩ := h.fresh other hfresh
      have hne := h.ne_of_fresh hlive hfresh
      refine ⟨(hother hne).trans hone, ?_, hstack⟩
      change Function.update s.live obj false other = false
      rw [Function.update_of_ne (Ne.symm hne), hdead]
    · intro other hl
      change Function.update s.live obj false other = true at hl
      have hne : obj ≠ other := by
        rintro rfl
        rw [Function.update_self] at hl
        cases hl
      rw [Function.update_of_ne (Ne.symm hne)] at hl
      have hold := h.count other hl
      rw [if_neg hne] at hold
      exact (congrArg (· + s.releases other + s.autoreleases other) (hother hne)).trans hold
  · next hsends =>
    constructor
    · exact distinct_rootRelease h.distinct
    · exact h.nested
    · intro other hfresh
      obtain ⟨hone, hdead, hstack⟩ := h.fresh other hfresh
      exact ⟨(hother (h.ne_of_fresh hlive hfresh)).trans hone, hdead, hstack⟩
    · intro other hl
      have hcount := rootRetainCount_rootRelease h.distinct other
        (fun _ => Bool.not_eq_true _ ▸ hsends)
      have hold := h.count other hl
      change rootRetainCount (rootRelease s.refcounts obj).1 other + s.releases other +
        s.autoreleases other = 1 + s.retains other + s.pending other + due other
      omega

/-- A release of the program. -/
lemma Account.released (h : Account s due) (hlive : s.live obj = true) :
    Account ((s.countRelease obj).sendRelease obj) due := by
  refine Account.sent ⟨h.distinct, h.nested, h.fresh, fun other hl => ?_⟩ hlive
  have hold := h.count other hl
  change rootRetainCount s.refcounts other +
    Function.update s.releases obj (s.releases obj + 1) other + s.autoreleases other =
      1 + s.retains other + s.pending other + (due other + if obj = other then 1 else 0)
  by_cases ho : obj = other
  · subst ho
    rw [Function.update_self, if_pos rfl]
    omega
  · rw [Function.update_of_ne (Ne.symm ho), if_neg ho]
    omega

/-- An autorelease outside of a pop. -/
lemma Account.autoreleased (h : Account s due) (hlive : s.live obj = true)
    (hloop : loopAt s.frames = none) (hs : s.rootAutorelease obj = some s') :
    Account s' due := by
  rw [Runtime.rootAutorelease] at hs
  split at hs
  · cases hs
    constructor
    · exact h.distinct
    · exact h.nested.mono (Nat.le_succ _)
    · intro other hfresh
      obtain ⟨hone, hdead, hstack⟩ := h.fresh other hfresh
      refine ⟨hone, hdead, fun p => ?_⟩
      change Function.update s.stack s.top (some obj) p ≠ some other
      by_cases hp : p = s.top
      · subst hp
        rw [Function.update_self]
        exact fun heq => h.ne_of_fresh hlive hfresh (Option.some_inj.mp heq)
      · rw [Function.update_of_ne hp]
        exact hstack p
    · intro other hl
      have hold := h.count other hl
      have hpending : pendingFrom (Function.update s.stack s.top (some obj)) other s.frames
          (s.top + 1) = s.pending other + if obj = other then 1 else 0 := by
        rw [pendingFrom_succ h.nested hloop, pendingFrom_update h.nested (Nat.le_refl _),
          Function.update_self, Runtime.pending]
        simp only [Option.some_inj]
      change rootRetainCount s.refcounts other + s.releases other +
        Function.update s.autoreleases obj (s.autoreleases obj + 1) other =
          1 + s.retains other + pendingFrom (Function.update s.stack s.top (some obj)) other
            s.frames (s.top + 1) + due other
      rw [hpending]
      by_cases ho : obj = other
      · subst ho
        rw [Function.update_self, if_pos rfl]
        omega
      · rw [Function.update_of_ne (Ne.symm ho), if_neg ho]
        omega
  · cases hs

/-- The top goes down over entries that were released. -/
lemma Account.lowered (h : Account s due) {next : ℕ} (hloop : loopAt s.frames = some next)
    (htop : next < s.top) : Account { s with top := s.top - 1 } due where
  distinct := h.distinct
  nested := h.nested.lower hloop (Nat.le_sub_one_of_lt htop)
  fresh := h.fresh
  count other hl := by
    have hold := h.count other hl
    rw [Runtime.pending, pendingFrom_lower hloop]
    exact hold

/-- A store to a strong location. -/
lemma Account.stored [DecidableEq Loc] (h : Account s due) {location : Option Loc}
    {value : Option Obj}
    (hroom : ∀ obj, value = some obj → value ≠ location.bind s.locations →
      HasRoom s.refcounts obj) (hs : s.storeStrong location value = some s') :
    Account s' due := by
  rw [Runtime.storeStrong] at hs
  split at hs
  · cases hs
    exact h
  · next hne =>
    split at hs
    · cases hs
    · next r hr =>
      have hretained : Account r due := by
        cases value with
        | none =>
          cases hr
          exact h
        | some obj =>
          rw [Runtime.retain] at hr
          split at hr
          · next hlive =>
            cases hr
            exact h.retained hlive (hroom obj rfl hne)
          · cases hr
      have hmoved : ∀ {u : Runtime Obj Loc}, Account u due →
          u.release (location.bind s.locations) = some s' → Account s' due := by
        intro u hu hrel
        cases hold : location.bind s.locations with
        | none =>
          rw [hold] at hrel
          cases hrel
          exact hu
        | some old =>
          rw [hold, Runtime.release] at hrel
          split at hrel
          · next hlive =>
            cases hrel
            exact hu.released hlive
          · cases hrel
      refine hmoved ?_ hs
      cases location with
      | none => exact hretained
      | some l => exact ⟨hretained.distinct, hretained.nested, hretained.fresh, hretained.count⟩

/-- What is nowhere in the stack is not pending. -/
lemma pendingFrom_eq_zero (h : ∀ p, stack p ≠ some obj) (frames : List (Frame Obj)) (top : ℕ) :
    pendingFrom stack obj frames top = 0 := by
  have hbelow : ∀ n, below stack obj n = 0 := by
    intro n
    induction n with
    | zero => rfl
    | succ n ih => rw [below, ih, if_neg (h n)]
  induction frames generalizing top with
  | nil => exact hbelow top
  | cons f frames ih =>
    cases f with
    | pool mark => rw [pendingFrom, hbelow, hbelow mark, ih]
    | popping next mark => rw [pendingFrom, hbelow, hbelow mark, ih]
    | dealloc x => exact ih top

/-- An allocation. -/
lemma Account.allocated (h : Account s fun _ => 0) (hunused : s.used obj = false) :
    Account { s with
      live := Function.update s.live obj true
      used := Function.update s.used obj true
      retains := Function.update s.retains obj 0
      releases := Function.update s.releases obj 0
      autoreleases := Function.update s.autoreleases obj 0 } fun _ => 0 where
  distinct := h.distinct
  nested := h.nested
  fresh other hfresh := by
    have hne : other ≠ obj := by
      rintro rfl
      simp at hfresh
    simp only [Function.update_of_ne hne] at hfresh ⊢
    exact h.fresh other hfresh
  count other hl := by
    by_cases ho : other = obj
    · subst ho
      obtain ⟨hone, -, hstack⟩ := h.fresh other hunused
      have hnone : pendingFrom s.stack other s.frames s.top = 0 := pendingFrom_eq_zero hstack _ _
      simp only [Function.update_self, Runtime.pending, hone, hnone]
    · simp only [Function.update_of_ne ho] at hl ⊢
      exact h.count other hl

/-- A pass of the loop of a pop: the release of its entry is due. -/
lemma Account.passed (h : Account s fun _ => 0) {next mark : ℕ} {frames : List (Frame Obj)}
    (hframes : s.frames = .popping next mark :: frames) (hlt : mark < next) :
    Account { s with frames := .popping (next - 1) mark :: frames }
      fun o => 0 + if s.stack (next - 1) = some o then 1 else 0 where
  distinct := h.distinct
  nested := by
    have hnested := h.nested
    rw [hframes] at hnested
    exact ⟨Nat.le_sub_one_of_lt hlt, (Nat.sub_le _ _).trans hnested.2.1, hnested.2.2⟩
  fresh := h.fresh
  count other hl := by
    have hold := h.count other hl
    have hnext : below s.stack other next = below s.stack other (next - 1) +
        if s.stack (next - 1) = some other then 1 else 0 := by
      obtain ⟨n, rfl⟩ : ∃ n, next = n + 1 := ⟨next - 1, by omega⟩
      rfl
    have hmono : below s.stack other mark ≤ below s.stack other (next - 1) :=
      below_mono (by omega)
    have hbefore : s.pending other = below s.stack other next - below s.stack other mark +
        pendingFrom s.stack other frames mark := by
      rw [Runtime.pending, hframes]
      rfl
    change rootRetainCount s.refcounts other + s.releases other + s.autoreleases other =
      1 + s.retains other + (below s.stack other (next - 1) - below s.stack other mark +
        pendingFrom s.stack other frames mark) +
          (0 + if s.stack (next - 1) = some other then 1 else 0)
    omega

/-- **Every step that is undisturbed keeps the account**, where the side table has room.

**Proof sketch.** A push opens a pool with nothing in it, and a pop takes the entries of its pool
over; each pass of the loop makes one of them a release. -/
theorem Account.step [DecidableEq Loc] (h : Account s fun _ => 0) {a : Action Obj Loc}
    (hroom : NoOverflow s a) (hcalm : Undisturbed s a) (hs : Arc.step s a = some s') :
    Account s' fun _ => 0 := by
  have hretain : ∀ {x : Option Obj}, (∀ obj, x = some obj → HasRoom s.refcounts obj) →
      s.retain x = some s' → Account s' fun _ => 0 := by
    intro x hx hr
    cases x with
    | none =>
      cases hr
      exact h
    | some obj =>
      rw [Runtime.retain] at hr
      split at hr
      · next hlive =>
        cases hr
        exact h.retained hlive (hx obj rfl)
      · cases hr
  have hautorelease : ∀ {x : Option Obj}, (∀ obj, x = some obj → loopAt s.frames = none) →
      s.autorelease x = some s' → Account s' fun _ => 0 := by
    intro x hx hr
    cases x with
    | none =>
      cases hr
      exact h
    | some obj =>
      rw [Runtime.autorelease] at hr
      split at hr
      · next hlive => exact h.autoreleased hlive (hx obj rfl) hr
      · cases hr
  cases a with
  | alloc obj =>
    rw [Arc.step] at hs
    split at hs
    · next hguard =>
      cases hs
      obtain ⟨-, hunused⟩ := Bool.and_eq_true_iff.mp hguard
      exact h.allocated (by simpa using hunused)
    · cases hs
  | retain x =>
    rw [Arc.step] at hs
    split at hs
    · exact hretain (fun obj hx => by subst hx; exact hroom) hs
    · cases hs
  | release x =>
    rw [Arc.step] at hs
    split at hs
    · cases x with
      | none =>
        cases hs
        exact h
      | some obj =>
        rw [Runtime.release] at hs
        split at hs
        · next hlive =>
          cases hs
          exact h.released hlive
        · cases hs
    · cases hs
  | autorelease x =>
    rw [Arc.step] at hs
    split at hs
    · exact hautorelease (fun obj hx => by subst hx; exact hcalm) hs
    · cases hs
  | autoreleaseReturnValue x =>
    rw [Arc.step] at hs
    split at hs
    · exact hautorelease (fun obj hx => by subst hx; exact hcalm) hs
    · cases hs
  | retainAutoreleasedReturnValue x =>
    rw [Arc.step] at hs
    split at hs
    · cases x with
      | none =>
        cases hs
        exact h
      | some obj =>
        rw [Runtime.retainAutoreleasedReturnValue] at hs
        split at hs
        · next hlive =>
          split at hs
          · next hlast =>
            cases hs
            obtain ⟨next, hloop, htop⟩ := hcalm hlast
            exact (h.lowered hloop htop).retained hlive hroom
          · exact hretain (fun o ho => by cases ho; exact hroom) hs
        · cases hs
    · cases hs
  | storeStrong location value =>
    rw [Arc.step] at hs
    split at hs
    · exact h.stored (fun obj hx hne => by subst hx; exact hroom hne) hs
    · cases hs
  | push =>
    rw [Arc.step] at hs
    split at hs
    · cases hs
      refine ⟨h.distinct, ⟨Nat.le_refl _, h.nested⟩, h.fresh, fun other hl => ?_⟩
      have hpending : pendingFrom s.stack other (.pool s.top :: s.frames) s.top =
          s.pending other := by
        rw [pendingFrom, Nat.sub_self, Nat.zero_add, Runtime.pending]
      exact (h.count other hl).trans (by rw [← hpending]; rfl)
    · cases hs
  | pop =>
    rw [Arc.step] at hs
    split at hs
    · next mark frames hframes =>
      cases hs
      have hnested := h.nested
      rw [hframes] at hnested
      refine ⟨h.distinct, ⟨hnested.1, Nat.le_refl _, hnested.2⟩, h.fresh, fun other hl => ?_⟩
      have hpending : s.pending other =
          pendingFrom s.stack other (.popping s.top mark :: frames) s.top := by
        rw [Runtime.pending, hframes]
        rfl
      exact (h.count other hl).trans (by rw [hpending]; rfl)
    · cases hs
  | drain =>
    rw [Arc.step] at hs
    split at hs
    · next next mark frames hframes =>
      have hnested := h.nested
      rw [hframes] at hnested
      split at hs
      · next hlt =>
        have hpass := h.passed hframes hlt
        cases hentry : s.stack (next - 1) with
        | none =>
          simp only [hentry] at hs
          cases hs
          exact ⟨hpass.distinct, hpass.nested, hpass.fresh, fun other hl => by
            simpa [hentry] using hpass.count other hl⟩
        | some obj =>
          simp only [hentry] at hs
          split at hs
          · next hlive =>
            cases hs
            refine Account.sent ⟨hpass.distinct, hpass.nested, hpass.fresh, fun other hl => ?_⟩
              hlive
            simpa [hentry] using hpass.count other hl
          · cases hs
      · next hle =>
        cases hs
        refine ⟨h.distinct, hnested.2.2, h.fresh, fun other hl => ?_⟩
        obtain rfl : next = mark := by have := hnested.1; omega
        have hpending : s.pending other = pendingFrom s.stack other frames next := by
          rw [Runtime.pending, hframes, pendingFrom, Nat.sub_self, Nat.zero_add]
        exact (h.count other hl).trans (by rw [hpending]; rfl)
    · cases hs
  | endDealloc =>
    rw [Arc.step] at hs
    split at hs
    · next x frames hframes =>
      cases hs
      have hnested := h.nested
      rw [hframes] at hnested
      refine ⟨h.distinct, hnested, h.fresh, fun other hl => ?_⟩
      have hpending : s.pending other = pendingFrom s.stack other frames s.top := by
        rw [Runtime.pending, hframes]
        rfl
      exact (h.count other hl).trans (by rw [hpending]; rfl)
    · cases hs

/-- At first. -/
lemma Account.init : Account (init : Runtime Obj Loc) fun _ => 0 where
  distinct := List.Pairwise.nil
  nested := trivial
  fresh _ _ := ⟨rfl, rfl, fun _ => nofun⟩
  count _ hl := by cases hl

/-- An account with nothing due is the one of the claim on it. -/
lemma Account.conserved (h : Account s fun _ => 0) : Conserved s where
  count obj hlive := by
    have hcount := h.count obj hlive
    omega
  last obj hlive := by
    have hcount := h.count obj hlive
    rw [rootRelease_sends]
    omega

/-- **Ownership is conserved** in every run whose steps are undisturbed, where the side table has
room: the retain count of every live object is 1 and its retains less its releases and autoreleases,
and the entries that a pool has yet to release; and a release sends `dealloc` exactly if it is the
last owner's. -/
theorem conservation [DecidableEq Loc] {as : List (Action Obj Loc)}
    (h : exec Arc.step init as = some s) (hroom : Along Arc.step NoOverflow init as)
    (hcalm : Along Arc.step Undisturbed init as) : Conserved s := by
  refine Account.conserved (invariant_along (P := fun s => Account s fun _ => 0) ?_ .init
    (hroom.and hcalm) h)
  exact fun r a r' hr hC hs => hr.step hC.1 hC.2 hs

end

/-! ## Runs -/

/-- A pool whose pop deallocates an object, the `dealloc` of which uses a pool of its own. -/
def nestedRun : List (Action ℕ Unit) :=
  [.alloc 0, .alloc 1, .retain (some 1), .push, .autoreleaseReturnValue (some 0), .pop, .drain,
    .push, .autorelease (some 1), .pop, .drain, .drain, .endDealloc, .drain]

/-- The object of the inner pool is left with one owner. -/
theorem conservation_nested :
    ∃ s : Runtime ℕ Unit, exec step init nestedRun = some s ∧ s.live 1 = true ∧
      rootRetainCount s.refcounts 1 = 1 ∧ Conserved s := by
  obtain ⟨s, hs, hlive, hcount⟩ : ∃ s : Runtime ℕ Unit, exec step init nestedRun = some s ∧
      s.live 1 = true ∧ rootRetainCount s.refcounts 1 = 1 := ⟨_, rfl, rfl, rfl⟩
  exact ⟨s, hs, hlive, hcount, conservation hs (by decide +kernel) (by decide +kernel)⟩

/-- **The fast path leaks**: a method returns the object it has allocated, the caller claims it, and
its retain count is 2. -/
theorem not_conservation_reclaimed :
    ¬∀ (as : List (Action ℕ Unit)) (s : Runtime ℕ Unit), exec step init as = some s →
      Along step NoOverflow init as → Conserved s := by
  intro hlaw
  obtain ⟨s, hs, hlive, hcount, hhistory⟩ : ∃ s : Runtime ℕ Unit,
      exec step init [.alloc 0, .autoreleaseReturnValue (some 0),
        .retainAutoreleasedReturnValue (some 0)] = some s ∧ s.live 0 = true ∧
          rootRetainCount s.refcounts 0 = 2 ∧
            (s.releases 0 = 0 ∧ s.autoreleases 0 = 1 ∧ s.retains 0 = 1 ∧ s.pending 0 = 0) :=
    ⟨_, rfl, rfl, rfl, rfl, rfl, rfl, rfl⟩
  have hconserved := (hlaw _ s hs (by decide +kernel)).count 0 hlive
  omega

/-- What the `dealloc` of one object autoreleases while a pop runs it, of another object, is gone
behind the pop. -/
example : (exec step (init : Runtime ℕ Unit) [.alloc 0, .alloc 1, .retain (some 1), .push,
    .autorelease (some 0), .pop, .drain, .autorelease (some 1), .endDealloc, .drain]).map
      (fun s => (s.top, s.live 1, rootRetainCount s.refcounts 1)) = some (0, true, 2) := rfl

end Asteros.Objc.Arc
