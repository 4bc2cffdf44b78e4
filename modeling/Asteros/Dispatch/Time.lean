import Mathlib.Data.Int.Notation
import Mathlib.Order.MinMax
import Mathlib.Tactic.SplitIfs
import Mathlib.Tactic.Linarith

set_option autoImplicit false

/-!
# Deadlines

`dispatch_time.c`: a `dispatch_time_t` is a number of nanoseconds since the epoch in 64 bits, with
`DISPATCH_TIME_FOREVER` the greatest one. `dispatch_time` and `dispatch_walltime` add a signed
delta to a base. `add_delta` stops at 0 where a negative delta is greater than the base, but where a
delta that is not negative carries out of the 64 bits it wraps around, and so does the product of
the seconds. `dispatch_after_f` takes what comes out for a time that is over.

## Main definitions

* `dispatchTime`, `dispatchWalltime`, `dispatchAfterF` — the functions.
* `TimeCall.meant` — the time that a call is to come to.
* `TimeCall.Fits` — the condition: nothing wraps, or not to another time.

## Main results

* `TimeCall.adds_iff` — a call comes to the time it is to come to exactly where the condition holds.
* `TimeCall.not_adds` — forever, and a second more, is over.
-/

namespace Asteros.Dispatch

/-! ## The functions -/

/-- `struct timespec`: a `time_t` and a `long`, both signed. -/
structure Timespec where
  /-- `tv_sec`. -/
  tvSec : BitVec 64
  /-- `tv_nsec`. -/
  tvNsec : BitVec 64
  deriving DecidableEq

/-- `DISPATCH_TIME_NOW`. -/
def timeNow : BitVec 64 := 0

/-- `DISPATCH_TIME_FOREVER`. -/
def timeForever : BitVec 64 := ~~~0

/-- `(uint64_t)ts.tv_sec * 1000000000ull + (uint64_t)ts.tv_nsec`, which is `now_ns` for what
`clock_gettime` gives. -/
def nowNs (ts : Timespec) : BitVec 64 := ts.tvSec * 1000000000 + ts.tvNsec

/-- `add_delta`; the delta is signed. -/
def addDelta (base delta : BitVec 64) : BitVec 64 :=
  if 0 ≤ delta.toInt then base + delta
  else
    let d := -delta
    if base > d then base - d else 0

/-- `dispatch_time`, where `clock_gettime` gives `clock`. -/
def dispatchTime (clock : Timespec) (when delta : BitVec 64) : BitVec 64 :=
  let base := if when = timeNow then nowNs clock else when
  addDelta base delta

/-- `dispatch_walltime`, where `clock_gettime` gives `clock`. -/
def dispatchWalltime (clock : Timespec) (when : Option Timespec) (delta : BitVec 64) :
    BitVec 64 :=
  let base := match when with
    | some when => nowNs when
    | none => nowNs clock
  addDelta base delta

/-- What `dispatch_after_f` does with an item. -/
inductive After where
  /-- `_dispatch_queue_push_item`. -/
  | pushed
  /-- `_dispatch_timer_schedule`, with the deadline. -/
  | scheduled (when : BitVec 64)
  deriving DecidableEq

/-- `dispatch_after_f`, where `clock_gettime` gives `clock`. -/
def dispatchAfterF (clock : Timespec) (when : BitVec 64) : After :=
  if when ≤ nowNs clock then .pushed else .scheduled when

/-! ## What the calls are to come to -/

/-- The nanoseconds that a `struct timespec` stands for. -/
def Timespec.nanoseconds (ts : Timespec) : ℤ := ts.tvSec.toInt * 1000000000 + ts.tvNsec.toInt

/-- The nearest time to a number of nanoseconds. -/
def clamp (n : ℤ) : ℤ := max 0 (min n (2 ^ 64 - 1))

/-- A call that makes a deadline. -/
inductive TimeCall where
  /-- `dispatch_time`. -/
  | time (when : BitVec 64)
  /-- `dispatch_walltime`. -/
  | walltime (when : Option Timespec)
  deriving DecidableEq

namespace TimeCall

/-- What the call returns. -/
def result (clock : Timespec) (delta : BitVec 64) : TimeCall → BitVec 64
  | .time when => dispatchTime clock when delta
  | .walltime when => dispatchWalltime clock when delta

/-- The time that the delta is added to, in nanoseconds. -/
def base (clock : Timespec) : TimeCall → ℤ
  | .time when => if when = timeNow then clock.nanoseconds else when.toNat
  | .walltime none => clock.nanoseconds
  | .walltime (some when) => when.nanoseconds

/-- The time that the call is to come to: the sum, or the nearest time; and forever from
forever. -/
def meant (clock : Timespec) (delta : BitVec 64) (c : TimeCall) : ℤ :=
  if c = .time timeForever then 2 ^ 64 - 1 else clamp (c.base clock + delta.toInt)

/-- The condition. Nothing is added to forever or taken from it; the sum with a delta that is not
negative is a time, or wraps around to the nearest one; a negative delta is added to a time, or to
what is before all times and wraps around to one that the delta reaches back over. -/
def Fits (clock : Timespec) (delta : BitVec 64) (c : TimeCall) : Prop :=
  let base := c.base clock
  let sum := base + delta.toInt
  if c = .time timeForever then delta.toInt = 0
  else if 0 ≤ delta.toInt then
    (0 ≤ sum ∧ sum < 2 ^ 64) ∨ (sum < 0 ∧ sum % 2 ^ 64 = 0) ∨
      (2 ^ 64 ≤ sum ∧ sum % 2 ^ 64 = 2 ^ 64 - 1)
  else (0 ≤ base ∧ base < 2 ^ 64) ∨ (base < 0 ∧ base % 2 ^ 64 + delta.toInt ≤ 0)

instance (clock : Timespec) (delta : BitVec 64) (c : TimeCall) :
    Decidable (c.Fits clock delta) := by
  unfold Fits
  infer_instance

/-- What the clients rely on: the call comes to the time it is to come to, a greater delta does not
come to an earlier time, and an item whose deadline is in the future is not pushed at once. -/
structure Adds (clock : Timespec) (delta : BitVec 64) (c : TimeCall) : Prop where
  /-- The result. -/
  exact : ((c.result clock delta).toNat : ℤ) = c.meant clock delta
  /-- It grows with the delta. -/
  mono : ∀ delta', c.Fits clock delta' → delta.toInt ≤ delta'.toInt →
    c.result clock delta ≤ c.result clock delta'
  /-- The future is not over. -/
  future : ∀ now, ((nowNs now).toNat : ℤ) < c.meant clock delta →
    dispatchAfterF now (c.result clock delta) = .scheduled (c.result clock delta)

/-! ## What the calls come to -/

/-- The nanoseconds of a `struct timespec` wrap around. -/
lemma nowNs_eq_ofInt (ts : Timespec) : nowNs ts = BitVec.ofInt 64 ts.nanoseconds := by
  rw [Timespec.nanoseconds, BitVec.ofInt_add, BitVec.ofInt_mul, BitVec.ofInt_toInt,
    BitVec.ofInt_toInt]
  rfl

/-- The base wraps around. -/
lemma result_eq (clock : Timespec) (delta : BitVec 64) (c : TimeCall) :
    c.result clock delta = addDelta (BitVec.ofInt 64 (c.base clock)) delta := by
  cases c with
  | time when =>
    simp only [result, dispatchTime, base]
    split
    · rw [nowNs_eq_ofInt]
    · rw [BitVec.ofInt_natCast, BitVec.ofNat_toNat, BitVec.setWidth_eq]
  | walltime when =>
    cases when with
    | none => rw [result, dispatchWalltime, base, nowNs_eq_ofInt]
    | some when => rw [result, dispatchWalltime, base, nowNs_eq_ofInt]

/-- `add_delta` in numbers. -/
lemma toNat_addDelta (base : ℤ) (delta : BitVec 64) :
    ((addDelta (BitVec.ofInt 64 base) delta).toNat : ℤ) =
      if 0 ≤ delta.toInt then (base + delta.toInt) % 2 ^ 64
      else max 0 (base % 2 ^ 64 + delta.toInt) := by
  have hbase : ((BitVec.ofInt 64 base).toNat : ℤ) = base % 2 ^ 64 := by
    rw [BitVec.toNat_ofInt]
    omega
  have hlow := BitVec.le_toInt delta
  have hhigh := BitVec.toInt_lt (x := delta)
  have hdelta := BitVec.toInt_eq_toNat_cond delta
  unfold addDelta
  split
  · next hpos =>
    rw [BitVec.toNat_add]
    split at hdelta <;> omega
  · next hneg =>
    have hd : ((-delta).toNat : ℤ) = -delta.toInt := by
      rw [BitVec.toNat_neg]
      split at hdelta <;> omega
    simp only [gt_iff_lt, BitVec.lt_def]
    split
    · rw [BitVec.toNat_sub]
      omega
    · rw [show (0 : BitVec 64).toNat = 0 from rfl]
      omega

/-- **A call comes to the time it is to come to exactly where the condition holds.** -/
lemma result_eq_meant_iff (clock : Timespec) (delta : BitVec 64) (c : TimeCall) :
    ((c.result clock delta).toNat : ℤ) = c.meant clock delta ↔ c.Fits clock delta := by
  have hlow := BitVec.le_toInt delta
  have hhigh := BitVec.toInt_lt (x := delta)
  rw [result_eq, toNat_addDelta, meant, Fits, clamp]
  by_cases hforever : c = .time timeForever
  · have hbase : c.base clock = 2 ^ 64 - 1 := by rw [hforever]; rfl
    simp only [if_pos hforever, hbase]
    split <;> omega
  · simp only [if_neg hforever]
    split <;> omega

/-- A greater delta is to come to a greater time. -/
lemma meant_mono (clock : Timespec) {delta delta' : BitVec 64} (c : TimeCall)
    (h : delta.toInt ≤ delta'.toInt) : c.meant clock delta ≤ c.meant clock delta' := by
  unfold meant
  split
  · exact Int.le_refl _
  · unfold clamp
    omega

/-- **A call adds exactly where the condition holds.** For every base, every reading of the clock
and every delta: the call comes to the sum, or to the nearest time, does not come to an earlier time
for a smaller delta, and makes no deadline in the future one that `dispatch_after_f` takes for over,
if and only if nothing wraps around to another time.

**Proof sketch.** In numbers, `add_delta` of what the base wraps to is the sum modulo `2 ^ 64`, or
what is left of the base; it is compared with the sum case by case. The other two facts follow from
the first. -/
theorem adds_iff (clock : Timespec) (delta : BitVec 64) (c : TimeCall) :
    c.Adds clock delta ↔ c.Fits clock delta := by
  refine ⟨fun h => (result_eq_meant_iff clock delta c).mp h.exact, fun h => ?_⟩
  have hexact := (result_eq_meant_iff clock delta c).mpr h
  refine ⟨hexact, fun delta' h' hle => ?_, fun now hnow => ?_⟩
  · have hexact' := (result_eq_meant_iff clock delta' c).mpr h'
    have hmono := meant_mono clock c hle
    rw [BitVec.le_def]
    omega
  · rw [← hexact] at hnow
    refine if_neg fun hle => ?_
    rw [BitVec.le_def] at hle
    omega

/-- A nanosecond after forever is the beginning of the epoch, which is over, as is a second after
forever. -/
theorem not_adds :
    ¬(TimeCall.time timeForever).Adds ⟨1700000000, 0⟩ 1 ∧
      (TimeCall.time timeForever).result ⟨1700000000, 0⟩ 1 = 0 ∧
      dispatchAfterF ⟨1700000000, 0⟩
        ((TimeCall.time timeForever).result ⟨1700000000, 0⟩ 1000000000) = .pushed :=
  ⟨fun h => absurd h.exact (by decide), by decide, by decide⟩

end TimeCall

end Asteros.Dispatch
