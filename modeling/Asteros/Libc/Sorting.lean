import Asteros.Lib.ByteMemory
import Asteros.Lib.StableSort

set_option autoImplicit false

/-!
# Sorting and searching

`qsort`, `qsort_r` and `bsearch` of `stdlib_misc.c`. An array is a range of memory; the elements are
exchanged byte by byte. A comparator reads the bytes of two elements and returns an `int` of which
only the sign counts; the key of a search is bytes that need not be an element. As the array is in
memory, no address in it wraps.

## Main definitions

* `qsort`, `qsortR`, `bsearch` — the functions.
* `elements` — the elements of an array.

## Main results

* `elements_qsort` — the elements are sorted by insertion.
* `bsearch_spec` — what a search in a sorted array returns.
* `qsort_bsearch` — both together.
-/

namespace Asteros.Libc

open ByteMemory StableSort

/-- The bytes of an element. -/
abbrev ElementBytes := List UInt8

/-! ## The functions -/

/-- The body of the byte loop: `tmp` holds one byte while the other is moved. -/
def swapByte (p q : ℕ) (m : ℕ → UInt8) : ℕ → UInt8 :=
  let tmp := m p
  Function.update (Function.update m p (m q)) q tmp

/-- The byte loop. -/
def swapElements (p q size : ℕ) (m : ℕ → UInt8) : ℕ → UInt8 :=
  (List.range size).foldl (fun m k => swapByte (p + k) (q + k) m) m

/-- Element `j` of an array. -/
def element (base size : ℕ) (m : ℕ → UInt8) (j : ℕ) : ElementBytes := load m (base + j * size) size

/-- The inner loop of both sorts: element `j` is exchanged with the one before it as long as that
one is greater. -/
def sinkElement (compar : ElementBytes → ElementBytes → ℤ) (base size : ℕ) :
    ℕ → (ℕ → UInt8) → (ℕ → UInt8)
  | 0, m => m
  | j + 1, m =>
    if compar (element base size m j) (element base size m (j + 1)) > 0 then
      sinkElement compar base size j
        (swapElements (base + j * size) (base + (j + 1) * size) size m)
    else m

/-- The outer loop of both sorts. -/
def sortElements (compar : ElementBytes → ElementBytes → ℤ) (base nmemb size : ℕ)
    (m : ℕ → UInt8) : ℕ → UInt8 :=
  (List.range' 1 (nmemb - 1)).foldl (fun m i => sinkElement compar base size i m) m

/-- `qsort`. -/
def qsort (base nmemb size : ℕ) (compar : ElementBytes → ElementBytes → ℤ) (m : ℕ → UInt8) :
    ℕ → UInt8 :=
  sortElements compar base nmemb size m

/-- `qsort_r`, whose comparator is given `thunk`. -/
def qsortR {τ : Type} (base nmemb size : ℕ) (thunk : τ)
    (compar : τ → ElementBytes → ElementBytes → ℤ) (m : ℕ → UInt8) : ℕ → UInt8 :=
  sortElements (compar thunk) base nmemb size m

/-- The loop of `bsearch`. -/
def bsearchLoop (compar : ElementBytes → ElementBytes → ℤ) (key : ElementBytes) (base size : ℕ)
    (m : ℕ → UInt8) (lo hi : ℕ) : Option ℕ :=
  if lo < hi then
    let mid := lo + (hi - lo) / 2
    let c := compar key (element base size m mid)
    if c = 0 then some (base + mid * size)
    else if c < 0 then bsearchLoop compar key base size m lo mid
    else bsearchLoop compar key base size m (mid + 1) hi
  else none
termination_by hi - lo

/-- `bsearch`; `none` is `NULL`. -/
def bsearch (key : ElementBytes) (base nmemb size : ℕ)
    (compar : ElementBytes → ElementBytes → ℤ) (m : ℕ → UInt8) : Option ℕ :=
  bsearchLoop compar key base size m 0 nmemb

/-- The elements of an array. -/
def elements (base nmemb size : ℕ) (m : ℕ → UInt8) : List ElementBytes :=
  (List.range nmemb).map (element base size m)

/-- The comparator says that the first element is greater. -/
def greaterBy (compar : ElementBytes → ElementBytes → ℤ) (a b : ElementBytes) : Bool :=
  decide (compar a b > 0)

/-- The comparator is a total preorder of some elements. -/
structure TotalPreorder (compar : ElementBytes → ElementBytes → ℤ) (S : Set ElementBytes) :
    Prop where
  /-- The comparison the other way has the other sign. -/
  swap : ∀ {a b}, a ∈ S → b ∈ S → (compar a b > 0 ↔ compar b a < 0)
  /-- Not being greater is transitive. -/
  trans : ∀ {a b c}, a ∈ S → b ∈ S → c ∈ S → compar a b ≤ 0 → compar b c ≤ 0 → compar a c ≤ 0

/-- The comparator puts the key somewhere in the order of some elements: before all that come after
an element it is less than, and after all that come before one it is greater than. -/
structure Consistent (compar : ElementBytes → ElementBytes → ℤ) (S : Set ElementBytes)
    (key : ElementBytes) : Prop where
  /-- Less than an element, so less than a later one. -/
  less : ∀ {a b}, a ∈ S → b ∈ S → compar a b ≤ 0 → compar key a < 0 → compar key b < 0
  /-- Greater than an element, so greater than an earlier one. -/
  greater : ∀ {a b}, a ∈ S → b ∈ S → compar a b ≤ 0 → compar key b > 0 → compar key a > 0

variable {compar : ElementBytes → ElementBytes → ℤ} {base nmemb size p q : ℕ} {m : ℕ → UInt8}

/-! ## Exchanging two elements -/

/-- **The byte loop exchanges two elements that are apart.** After `n` bytes it has exchanged that
many. -/
lemma swapElements_apply (h : p + size ≤ q) (m : ℕ → UInt8) (a : ℕ) :
    swapElements p q size m a =
      if p ≤ a ∧ a < p + size then m (q + (a - p))
      else if q ≤ a ∧ a < q + size then m (p + (a - q))
      else m a := by
  have hloop : ∀ n ≤ size, swapElements p q n m a =
      if p ≤ a ∧ a < p + n then m (q + (a - p))
      else if q ≤ a ∧ a < q + n then m (p + (a - q))
      else m a := by
    intro n
    induction n generalizing a with
    | zero =>
      intro _
      rw [if_neg (by omega), if_neg (by omega)]
      rfl
    | succ n ih =>
      intro hn
      have hstep : swapElements p q (n + 1) m = swapByte (p + n) (q + n) (swapElements p q n m) := by
        rw [swapElements, List.range_succ, List.foldl_append]
        rfl
      have hfrom : swapElements p q n m (p + n) = m (p + n) := by
        rw [ih _ (by omega), if_neg (by omega), if_neg (by omega)]
      have hto : swapElements p q n m (q + n) = m (q + n) := by
        rw [ih _ (by omega), if_neg (by omega), if_neg (by omega)]
      rw [hstep]
      simp only [swapByte, Function.update_apply, hfrom, hto, ih a (by omega)]
      grind
  exact hloop size (le_refl _)

/-- Where element `j` ends, the next one begins. -/
lemma element_end (base size j : ℕ) : base + (j + 1) * size = base + j * size + size := by
  rw [Nat.succ_mul, Nat.add_assoc]

/-- An element before another ends where the other begins or before that. -/
lemma element_before {i j : ℕ} (h : i < j) (base size : ℕ) :
    base + i * size + size ≤ base + j * size := by
  have hmul := Nat.mul_le_mul_right size h
  rw [Nat.succ_mul] at hmul
  omega

/-- The elements after an exchange of two neighbours. -/
lemma element_swapElements (j i : ℕ) :
    element base size (swapElements (base + j * size) (base + (j + 1) * size) size m) i =
      if i = j then element base size m (j + 1)
      else if i = j + 1 then element base size m j
      else element base size m i := by
  have hapart := (element_end base size j).ge
  have happly := swapElements_apply hapart m
  apply List.ext_getElem (by split_ifs <;> simp [element])
  intro k hk hk'
  have hlt : k < size := by simpa [element] using hk
  split_ifs with hij hij'
  · subst hij
    simp only [element, load, List.getElem_map, List.getElem_range, happly]
    rw [if_pos (by omega), Nat.add_sub_cancel_left]
  · subst hij'
    simp only [element, load, List.getElem_map, List.getElem_range, happly]
    rw [if_neg (by omega), if_pos (by omega), Nat.add_sub_cancel_left]
  · simp only [element, load, List.getElem_map, List.getElem_range, happly]
    have hend := element_end base size j
    obtain hlow | hhigh : i < j ∨ j + 1 < i := by omega
    · have hbefore := element_before hlow base size
      rw [if_neg (by omega), if_neg (by omega)]
    · have hbefore := element_before hhigh base size
      rw [if_neg (by omega), if_neg (by omega)]

/-- The bytes that belong to no element before the end of element `j + 1` stay in an exchange. -/
lemma swapElements_outside {j a : ℕ} (h : a < base ∨ base + (j + 1 + 1) * size ≤ a) :
    swapElements (base + j * size) (base + (j + 1) * size) size m a = m a := by
  have hend := element_end base size j
  have hend' := element_end base size (j + 1)
  rw [swapElements_apply hend.ge, if_neg (by omega), if_neg (by omega)]

/-- The elements of an array, one by one. -/
lemma getElem?_elements (base size : ℕ) (m : ℕ → UInt8) {j : ℕ} (h : j < nmemb) :
    (elements base nmemb size m)[j]? = some (element base size m j) := by
  simp [elements, h]

/-- **Exchanging two neighbours**, as elements of the array. -/
lemma elements_swapElements {pre post : List ElementBytes} {a b : ElementBytes}
    (h : elements base nmemb size m = pre ++ a :: b :: post) :
    elements base nmemb size (swapElements (base + pre.length * size)
      (base + (pre.length + 1) * size) size m) = pre ++ b :: a :: post := by
  have hlen : nmemb = pre.length + 2 + post.length := by
    have := congrArg List.length h
    simp [elements] at this
    omega
  have hget : ∀ j < nmemb, (pre ++ a :: b :: post)[j]? = some (element base size m j) := by
    intro j hj
    rw [← h, getElem?_elements _ _ _ hj]
  have ha := hget pre.length (by omega)
  have hb := hget (pre.length + 1) (by omega)
  rw [List.getElem?_append_right (by omega)] at ha hb
  simp only [Nat.sub_self, List.getElem?_cons_zero, Option.some.injEq, Nat.add_sub_cancel_left,
    List.getElem?_cons_succ] at ha hb
  apply List.ext_getElem?
  intro j
  by_cases hj : j < nmemb
  · rw [getElem?_elements _ _ _ hj, element_swapElements, ← ha, ← hb]
    split_ifs with hij hij'
    · subst hij
      simp
    · subst hij'
      rw [List.getElem?_append_right (by omega), Nat.add_sub_cancel_left]
      rfl
    · rw [← hget j hj]
      obtain hlow | hhigh : j < pre.length ∨ pre.length + 2 ≤ j := by omega
      · rw [List.getElem?_append_left hlow, List.getElem?_append_left hlow]
      · obtain ⟨k, rfl⟩ := Nat.exists_eq_add_of_le hhigh
        rw [List.getElem?_append_right (by omega), List.getElem?_append_right (by omega),
          show pre.length + 2 + k - pre.length = k + 2 by omega]
        rfl
  · rw [List.getElem?_eq_none (by simp [elements]; omega),
      List.getElem?_eq_none (by simp; omega)]

/-! ## Sorting -/

/-- **The inner loop inserts an element** into those before it.

**Proof sketch.** Induction on the elements before it from the last one on: if that is greater, the
two are exchanged and the element is where the last one was. -/
lemma elements_sinkElement (compar : ElementBytes → ElementBytes → ℤ)
    {left post : List ElementBytes} {a : ElementBytes}
    (h : elements base nmemb size m = left ++ a :: post) :
    elements base nmemb size (sinkElement compar base size left.length m) =
      insertLast (greaterBy compar) left a ++ post := by
  induction left using List.reverseRecOn generalizing m post with
  | nil => simpa [sinkElement] using h
  | append_singleton left b ih =>
    rw [List.append_assoc, List.singleton_append] at h
    have hlen : nmemb = left.length + 2 + post.length := by
      have := congrArg List.length h
      simp [elements] at this
      omega
    have hb : element base size m left.length = b := by
      have := getElem?_elements base size m (show left.length < nmemb by omega)
      rw [h, List.getElem?_append_right (le_refl _)] at this
      simpa using this.symm
    have ha : element base size m (left.length + 1) = a := by
      have := getElem?_elements base size m (show left.length + 1 < nmemb by omega)
      rw [h, List.getElem?_append_right (by omega)] at this
      simpa using this.symm
    rw [List.length_append, List.length_singleton, sinkElement, ha, hb]
    by_cases hgt : compar b a > 0
    · rw [if_pos hgt, ih (elements_swapElements h), insertLast_concat_pos (by simpa [greaterBy])]
      simp
    · rw [if_neg hgt, insertLast_concat_neg (by simpa [greaterBy] using hgt), h]
      simp

/-- The inner loop stays inside the elements up to the one it starts with. -/
lemma sinkElement_outside {j a : ℕ} (h : a < base ∨ base + (j + 1) * size ≤ a) :
    sinkElement compar base size j m a = m a := by
  induction j generalizing m with
  | zero => rfl
  | succ j ih =>
    have hnext := element_end base size (j + 1)
    rw [sinkElement]
    split_ifs
    · rw [ih (by omega), swapElements_outside h]
    · rfl

/-- **The outer loop sorts the elements by insertion.** -/
lemma elements_sortElements (compar : ElementBytes → ElementBytes → ℤ) (base nmemb size : ℕ)
    (m : ℕ → UInt8) :
    elements base nmemb size (sortElements compar base nmemb size m) =
      insertionSort (greaterBy compar) (elements base nmemb size m) := by
  have hloop : ∀ n, n + 1 ≤ nmemb →
      elements base nmemb size
        ((List.range' 1 n).foldl (fun m i => sinkElement compar base size i m) m) =
      insertionSort (greaterBy compar) ((elements base nmemb size m).take (n + 1)) ++
        (elements base nmemb size m).drop (n + 1) := by
    intro n
    induction n with
    | zero =>
      intro hn
      obtain ⟨a, rest, hrest⟩ : ∃ a rest, elements base nmemb size m = a :: rest := by
        apply List.exists_cons_of_length_pos
        rw [elements, List.length_map, List.length_range]
        exact hn
      simp [hrest, insertionSort]
    | succ n ih =>
      intro hn
      have hlen : (elements base nmemb size m).length = nmemb := by simp [elements]
      obtain ⟨a, rest, hrest⟩ : ∃ a rest, (elements base nmemb size m).drop (n + 1) = a :: rest := by
        apply List.exists_cons_of_length_pos
        rw [List.length_drop, hlen]
        omega
      have htake : (elements base nmemb size m).take (n + 1 + 1) =
          (elements base nmemb size m).take (n + 1) ++ [a] := by
        have ha : (elements base nmemb size m)[n + 1]? = some a := by
          have := congrArg (·[0]?) hrest
          simpa [List.getElem?_drop] using this
        rw [List.take_add_one, ha]
        rfl
      have hdrop : (elements base nmemb size m).drop (n + 1 + 1) = rest := by
        rw [← List.tail_drop, hrest]
        rfl
      have hprev := ih (by omega)
      rw [hrest] at hprev
      have hsink := elements_sinkElement compar hprev
      rw [length_insertionSort, List.length_take, hlen, Nat.min_eq_left (by omega)] at hsink
      rw [List.range'_concat, List.foldl_append, List.foldl_cons, List.foldl_nil, Nat.one_mul,
        Nat.add_comm 1 n, hsink, htake, hdrop, insertionSort_concat]
  cases nmemb with
  | zero => rfl
  | succ n =>
    have h := hloop n (le_refl _)
    rw [List.take_of_length_le (by simp [elements]), List.drop_eq_nil_of_le (by simp [elements]),
      List.append_nil] at h
    exact h

/-- The bytes outside the array stay. -/
lemma sortElements_outside {a : ℕ} (h : a < base ∨ base + nmemb * size ≤ a) :
    sortElements compar base nmemb size m a = m a := by
  have hloop : ∀ n, n + 1 ≤ nmemb → ((List.range' 1 n).foldl
      (fun m i => sinkElement compar base size i m) m) a = m a := by
    intro n
    induction n with
    | zero => exact fun _ => rfl
    | succ n ih =>
      intro hn
      have hmul := Nat.mul_le_mul_right size hn
      rw [List.range'_concat, List.foldl_append, List.foldl_cons, List.foldl_nil, Nat.one_mul,
        Nat.add_comm 1 n, sinkElement_outside (by omega), ih (by omega)]
  cases nmemb with
  | zero => rfl
  | succ n => exact hloop n (le_refl _)

/-- A comparator that is a total preorder gives a test that is one. -/
lemma TotalPreorder.totalOn {S : Set ElementBytes} (h : TotalPreorder compar S) :
    TotalOn (greaterBy compar) S where
  asymm := by
    intro a b ha hb hab
    have hgt : compar a b > 0 := by simpa [greaterBy] using hab
    have hlt := (h.swap ha hb).mp hgt
    simp only [greaterBy, decide_eq_false_iff_not]
    omega
  trans := by
    intro a b c ha hb hc hab hbc
    have hle : compar a b ≤ 0 := by simpa [greaterBy] using hab
    have hle' : compar b c ≤ 0 := by simpa [greaterBy] using hbc
    have := h.trans ha hb hc hle hle'
    simp only [greaterBy, decide_eq_false_iff_not]
    omega

/-- Two elements are the same to the test exactly if the comparator returns zero. -/
lemma TotalPreorder.same_eq {S : Set ElementBytes} (h : TotalPreorder compar S)
    {a b : ElementBytes} (ha : a ∈ S) (hb : b ∈ S) :
    same (greaterBy compar) a b = decide (compar a b = 0) := by
  have hswap := h.swap hb ha
  rw [Bool.eq_iff_iff]
  simp only [same, greaterBy, Bool.and_eq_true, Bool.not_eq_true', decide_eq_false_iff_not,
    decide_eq_true_eq]
  omega

/-! ## Searching -/

/-- **The loop of `bsearch`.** The elements before `lo` are less than the key, those from `hi` on are
greater; what is found is equal to the key, and nothing is found only if no element is.

**Proof sketch.** Induction on the calls of the loop; the middle element tells on which side of it no
element is equal to the key. -/
lemma bsearchLoop_spec {key : ElementBytes} {lo hi : ℕ}
    (hless : ∀ i j, i ≤ j → j < nmemb → compar key (element base size m i) < 0 →
      compar key (element base size m j) < 0)
    (hgreater : ∀ i j, i ≤ j → j < nmemb → compar key (element base size m j) > 0 →
      compar key (element base size m i) > 0)
    (hhi : hi ≤ nmemb) (hbefore : ∀ j < lo, compar key (element base size m j) > 0)
    (hbehind : ∀ j, hi ≤ j → j < nmemb → compar key (element base size m j) < 0) :
    (∀ r, bsearchLoop compar key base size m lo hi = some r →
      ∃ j < nmemb, r = base + j * size ∧ compar key (element base size m j) = 0) ∧
    (bsearchLoop compar key base size m lo hi = none →
      ∀ j < nmemb, compar key (element base size m j) ≠ 0) := by
  induction lo, hi using bsearchLoop.induct compar key base size m with
  | case1 lo hi hlt mid c hc =>
    rw [bsearchLoop, if_pos hlt]
    simp only [mid, c] at hc
    simp only [hc, if_true]
    refine ⟨fun r hr => ⟨mid, ?_, (Option.some.inj hr).symm, hc⟩, fun h => by cases h⟩
    simp only [mid]
    omega
  | case2 lo hi hlt mid c hc hneg ih =>
    rw [bsearchLoop, if_pos hlt]
    simp only [mid, c] at hc hneg ih
    simp only [hc, hneg, if_true, if_false]
    apply ih (by omega) hbefore
    intro j hj hjn
    exact hless _ j hj hjn hneg
  | case3 lo hi hlt mid c hc hneg ih =>
    rw [bsearchLoop, if_pos hlt]
    simp only [mid, c] at hc hneg ih
    simp only [hc, hneg, if_false]
    apply ih hhi ?_ hbehind
    intro j hj
    exact hgreater j (lo + (hi - lo) / 2) (by omega) (by omega) (by omega)
  | case4 lo hi hlt =>
    rw [bsearchLoop, if_neg hlt]
    refine ⟨fun r hr => absurd hr (by simp), fun _ j hj hzero => ?_⟩
    obtain hlow | hhigh : j < lo ∨ hi ≤ j := by omega
    · have := hbefore j hlow
      omega
    · have := hbehind j hhigh hj
      omega

/-- An element of the array. -/
lemma element_mem {j : ℕ} (h : j < nmemb) : element base size m j ∈ elements base nmemb size m :=
  List.mem_map_of_mem (List.mem_range.mpr h)

/-- **A search in a sorted array** finds an element that is equal to the key, if there is one. -/
lemma bsearch_spec {S : Set ElementBytes} {key : ElementBytes}
    (hsorted : (elements base nmemb size m).Pairwise fun a b => compar a b ≤ 0)
    (hS : ∀ a ∈ elements base nmemb size m, a ∈ S) (hkey : Consistent compar S key) :
    (∀ r, bsearch key base nmemb size compar m = some r →
      ∃ j < nmemb, r = base + j * size ∧ compar key (element base size m j) = 0) ∧
    ((bsearch key base nmemb size compar m).isSome ↔
      ∃ a ∈ elements base nmemb size m, compar key a = 0) := by
  have hlen : (elements base nmemb size m).length = nmemb := by simp [elements]
  have hle : ∀ i j, i < j → j < nmemb →
      compar (element base size m i) (element base size m j) ≤ 0 := by
    intro i j hij hj
    have hpair := List.pairwise_iff_getElem.mp hsorted i j (by omega) (by omega) hij
    simpa [elements] using hpair
  have hless : ∀ i j, i ≤ j → j < nmemb → compar key (element base size m i) < 0 →
      compar key (element base size m j) < 0 := by
    intro i j hij hj hi
    obtain rfl | hlt := Nat.eq_or_lt_of_le hij
    · exact hi
    · exact hkey.less (hS _ (element_mem (by omega))) (hS _ (element_mem hj)) (hle i j hlt hj) hi
  have hgreater : ∀ i j, i ≤ j → j < nmemb → compar key (element base size m j) > 0 →
      compar key (element base size m i) > 0 := by
    intro i j hij hj hgt
    obtain rfl | hlt := Nat.eq_or_lt_of_le hij
    · exact hgt
    · exact hkey.greater (hS _ (element_mem (by omega))) (hS _ (element_mem hj)) (hle i j hlt hj)
        hgt
  obtain ⟨hsome, hnone⟩ := bsearchLoop_spec hless hgreater (le_refl nmemb)
    (fun j (hj : j < 0) => absurd hj (Nat.not_lt_zero j)) (fun j hj hjn => absurd hjn (by omega))
  refine ⟨hsome, ?_, ?_⟩
  · intro h
    obtain ⟨r, hr⟩ := Option.isSome_iff_exists.mp h
    obtain ⟨j, hj, -, hzero⟩ := hsome r hr
    exact ⟨_, element_mem hj, hzero⟩
  · rintro ⟨a, ha, hzero⟩
    by_contra hfound
    obtain ⟨j, hj, rfl⟩ := List.mem_map.mp ha
    exact hnone (by simpa [bsearch] using hfound) j (List.mem_range.mp hj) hzero

/-- **`qsort` and `bsearch` fit together.** For every array of elements of any size and every
comparator that is a total preorder of its elements, `qsort` and `qsort_r` leave the elements as a
permutation of what they were, in order, those equal to any one of them in their old order, and
every byte outside the array as it was. For every key that the comparator puts somewhere in the
order, `bsearch` in the result returns a pointer to an element that is equal to the key, or `NULL` if
no element is. -/
theorem qsort_bsearch {τ : Type} (thunk : τ) (compar : τ → ElementBytes → ElementBytes → ℤ)
    (base nmemb size : ℕ) (m : ℕ → UInt8)
    (horder : TotalPreorder (compar thunk) {a | a ∈ elements base nmemb size m}) :
    ∃ sorted : ℕ → UInt8,
      qsort base nmemb size (compar thunk) m = sorted ∧
      qsortR base nmemb size thunk compar m = sorted ∧
      (elements base nmemb size sorted).Perm (elements base nmemb size m) ∧
      ((elements base nmemb size sorted).Pairwise fun a b => compar thunk a b ≤ 0) ∧
      (∀ a ∈ elements base nmemb size m,
        ((elements base nmemb size sorted).filter fun b => compar thunk a b = 0) =
          (elements base nmemb size m).filter fun b => compar thunk a b = 0) ∧
      (∀ a, a < base ∨ base + nmemb * size ≤ a → sorted a = m a) ∧
      ∀ key, Consistent (compar thunk) {a | a ∈ elements base nmemb size m} key →
        (∀ r, bsearch key base nmemb size (compar thunk) sorted = some r →
          ∃ j < nmemb, r = base + j * size ∧
            compar thunk key (element base size sorted j) = 0) ∧
        ((bsearch key base nmemb size (compar thunk) sorted).isSome ↔
          ∃ a ∈ elements base nmemb size sorted, compar thunk key a = 0) := by
  have hsorts := sorts_insertionSort horder.totalOn (l := elements base nmemb size m)
    fun a ha => ha
  rw [← elements_sortElements] at hsorts
  have hmem : ∀ a ∈ elements base nmemb size (sortElements (compar thunk) base nmemb size m),
      a ∈ elements base nmemb size m := fun a ha => hsorts.perm.subset ha
  have hsorted : (elements base nmemb size (sortElements (compar thunk) base nmemb size m)).Pairwise
      fun a b => compar thunk a b ≤ 0 := by
    apply hsorts.sorted.imp
    intro a b hab
    simpa [greaterBy] using hab
  refine ⟨_, rfl, rfl, hsorts.perm, hsorted, ?_, fun a ha => sortElements_outside ha, ?_⟩
  · intro a ha
    have hstable := hsorts.stable a ha
    rw [List.filter_congr fun b hb => horder.same_eq ha (hmem b hb),
      List.filter_congr fun b hb => horder.same_eq ha hb] at hstable
    exact hstable
  · intro key hkey
    exact bsearch_spec hsorted hmem hkey

/-- A comparator of records by their first byte, up or down. -/
def compareFirst (down : Bool) (a b : ElementBytes) : ℤ :=
  if down then (b.headD 0).toNat - (a.headD 0).toNat else (a.headD 0).toNat - (b.headD 0).toNat

/-- Three records of two bytes, two of them equal to the comparator. -/
def records (a : ℕ) : UInt8 := [9, 9, 1, 7, 4, 8, 1, 6].getD a 0

/-- The records are sorted by their first byte, and each of them is found. -/
theorem qsort_bsearch_records :
    ∃ sorted : ℕ → UInt8,
      qsort 2 3 2 (compareFirst true) records = sorted ∧
      qsortR 2 3 2 true compareFirst records = sorted ∧
      (elements 2 3 2 sorted).Perm (elements 2 3 2 records) ∧
      ((elements 2 3 2 sorted).Pairwise fun a b => compareFirst true a b ≤ 0) ∧
      (∀ a ∈ elements 2 3 2 records,
        ((elements 2 3 2 sorted).filter fun b => compareFirst true a b = 0) =
          (elements 2 3 2 records).filter fun b => compareFirst true a b = 0) ∧
      (∀ a, a < 2 ∨ 8 ≤ a → sorted a = records a) ∧
      ∀ key, Consistent (compareFirst true) {a | a ∈ elements 2 3 2 records} key →
        (∀ r, bsearch key 2 3 2 (compareFirst true) sorted = some r →
          ∃ j < 3, r = 2 + j * 2 ∧ compareFirst true key (element 2 2 sorted j) = 0) ∧
        ((bsearch key 2 3 2 (compareFirst true) sorted).isSome ↔
          ∃ a ∈ elements 2 3 2 sorted, compareFirst true key a = 0) :=
  qsort_bsearch true compareFirst 2 3 2 records {
    swap := by
      intro a b _ _
      simp only [compareFirst, if_true]
      omega
    trans := by
      intro a b c _ _ _
      simp only [compareFirst, if_true]
      omega }

end Asteros.Libc
