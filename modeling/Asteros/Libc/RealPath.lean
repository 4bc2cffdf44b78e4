import Asteros.Lib.LexicalPath
import Asteros.Libc.Ascii

set_option autoImplicit false

/-!
# Resolving a path

`realpath` of `stdlib_misc.c`: the path is put behind the current directory in one buffer, and its
components are taken into a second one, where `..` cuts off what is behind the last `/`. It does
not cut off the `/` itself. The next component puts a `/` of its own behind it, and the text has an
empty component there, which one more `..` is spent on.

## Main definitions

* `PathBuffer`, `PathBuffer.memcpy` — the buffers of `PATH_MAX` bytes.
* `realpath` — the function.
* `slots`, `level` — the components that the output buffer has, and how many `..` it takes to remove
  them.
* `RealPath` — a result as it should be.

## Main results

* `realpath_succeeds` — when there is a result.
* `realPath_iff` — when it is as it should be.
-/

namespace Asteros.Libc

open LexicalPath

/-! ## Buffers -/

/-- `PATH_MAX`. -/
def PATH_MAX : ℕ := 1024

/-- How a call ends without a path. -/
inductive Stop where
  /-- A write goes outside of a buffer. -/
  | outOfBounds
  /-- `return NULL`. -/
  | null
  deriving DecidableEq

/-- A `char` array of `PATH_MAX` elements. -/
structure PathBuffer where
  /-- The elements. -/
  bytes : List UInt8
  /-- There are so many. -/
  length_eq : bytes.length = PATH_MAX

namespace PathBuffer

/-- Bytes are copied into the array. -/
def memcpy (b : PathBuffer) (i : ℕ) (src : List UInt8) : Except Stop PathBuffer :=
  if h : i + src.length ≤ PATH_MAX then
    .ok ⟨b.bytes.take i ++ (src ++ b.bytes.drop (i + src.length)), by
      simp only [List.length_append, List.length_take, List.length_drop, b.length_eq]
      omega⟩
  else .error .outOfBounds

/-- The string in the array. -/
def string (b : PathBuffer) : CString := CString.ofBytes b.bytes

end PathBuffer

/-! ## The function -/

/-- The separator. -/
def slash : UInt8 := byte '/'

/-- The character of `.` and `..`. -/
def dot : UInt8 := byte '.'

/-- `getcwd`, for a buffer of `PATH_MAX` bytes. -/
def getcwd (cwd : CString) (buf : PathBuffer) : Except Stop PathBuffer :=
  if cwd.strlen + 1 > PATH_MAX then .error .null else buf.memcpy 0 (cwd.bytes ++ [0])

/-- The current directory, with a `/` behind it: the array, and where the path goes. -/
def startDirectory (cwd : CString) (buf : PathBuffer) : Except Stop (PathBuffer × ℕ) := do
  let buf ← getcwd cwd buf
  let len := buf.string.strlen
  if len = 0 ∨ buf.bytes[len - 1]? ≠ some slash then do
    let buf ← buf.memcpy len [slash]
    pure (buf, len + 1)
  else pure (buf, len)

/-- The check of the length, and the copy of the path. -/
def copyPath (path : CString) (buf : PathBuffer) (len : ℕ) : Except Stop PathBuffer :=
  if len + path.strlen + 1 > PATH_MAX then .error .null else buf.memcpy len (path.bytes ++ [0])

/-- `realpath` in front of its loop: the array with the text that it goes through. -/
def absolutePath (cwd path : CString) (buf : PathBuffer) : Except Stop PathBuffer :=
  if path.bytes = [] then .error .null
  else do
    let (buf, len) ← if path.bytes.head? = some slash then pure (buf, 0) else startDirectory cwd buf
    copyPath path buf len

/-- `while (outlen > 1 && out[outlen - 1] != '/')`. -/
def backUp (out : PathBuffer) : ℕ → ℕ
  | 0 => 0
  | n + 1 => if 1 < n + 1 ∧ out.bytes[n]? ≠ some slash then backUp out n else n + 1

/-- `if (outlen > 1) out[outlen++] = '/'`. -/
def separate (out : PathBuffer) (outlen : ℕ) : Except Stop (PathBuffer × ℕ) :=
  if outlen > 1 then do
    let out ← out.memcpy outlen [slash]
    pure (out, outlen + 1)
  else pure (out, outlen)

/-- The body of the loop of `realpath`, for the component it has found. -/
def component (out : PathBuffer) (outlen : ℕ) (comp : List UInt8) :
    Except Stop (PathBuffer × ℕ) :=
  if comp.length = 0 ∨ comp = [dot] then .ok (out, outlen)
  else if comp = [dot, dot] then .ok (out, if outlen > 1 then backUp out (outlen - 1) else outlen)
  else do
    let (out, outlen) ← separate out outlen
    if outlen + comp.length ≥ PATH_MAX then .error .null
    else do
      let out ← out.memcpy outlen comp
      pure (out, outlen + comp.length)

/-- A turn of the loop gets further. -/
lemma length_next_lt {p : List UInt8} (hp : p ≠ []) :
    ((p.dropWhile (· = slash)).dropWhile (· ≠ slash)).length < p.length := by
  cases p with
  | nil => exact absurd rfl hp
  | cons b p =>
    by_cases hb : b = slash
    · have hle := ((p.dropWhile (· = slash)).dropWhile_sublist (· ≠ slash)).length_le
      have hle' := (p.dropWhile_sublist (· = slash)).length_le
      rw [hb, List.dropWhile_cons, if_pos (decide_eq_true rfl), List.length_cons]
      omega
    · have hle := (p.dropWhile_sublist (· ≠ slash)).length_le
      rw [List.dropWhile_cons, if_neg (by simpa using hb), List.dropWhile_cons,
        if_pos (by simpa using hb), List.length_cons]
      omega

/-- `while (*p)`. -/
def realpathLoop (p : List UInt8) (out : PathBuffer) (outlen : ℕ) :
    Except Stop (PathBuffer × ℕ) :=
  if p = [] then pure (out, outlen)
  else
    let start := p.dropWhile (· = slash)
    let comp := start.takeWhile (· ≠ slash)
    match component out outlen comp with
    | .error e => .error e
    | .ok (out, outlen) => realpathLoop (start.dropWhile (· ≠ slash)) out outlen
termination_by p.length
decreasing_by exact length_next_lt ‹_›

/-- Where the result goes. -/
inductive Destination where
  /-- `resolved_path`. -/
  | resolvedPath (resolved : PathBuffer)
  /-- Memory from `malloc`, if there is any. -/
  | malloc (succeeds : Bool)

/-- The end of `realpath`: the terminator, and the copy to where the result goes. -/
def finish (out : PathBuffer) (outlen : ℕ) (dest : Destination) : Except Stop CString := do
  let out ← out.memcpy outlen [0]
  match dest with
  | .resolvedPath resolved => do
    let resolved ← resolved.memcpy 0 (out.bytes.take (outlen + 1))
    pure resolved.string
  | .malloc succeeds =>
    if succeeds then pure (CString.ofBytes (out.bytes.take (outlen + 1))) else .error .null

/-- `realpath`. -/
def realpath (cwd path : CString) (buf out : PathBuffer) (dest : Destination) :
    Except Stop CString := do
  let buf ← absolutePath cwd path buf
  let out ← out.memcpy 0 [slash]
  let (out, outlen) ← realpathLoop buf.string.bytes out 1
  finish out outlen dest

/-! ## What it should give -/

/-- The components of the path, behind those of the current directory if it is relative. -/
def pathComponents (cwd path : CString) : List (List UInt8) :=
  if path.bytes.head? = some slash then components slash dot path.bytes
  else components slash dot cwd.bytes ++ components slash dot path.bytes

/-- A result as it should be. -/
structure RealPath (cwd path s : CString) : Prop where
  /-- It is canonical. -/
  canonical : Canonical slash dot s.bytes
  /-- Its names are those that the components lead to. -/
  resolved : s.bytes = text slash (resolve dot (pathComponents cwd path))
  /-- It is its own result, wherever there is memory for that. -/
  fixed : ∀ (cwd : CString) (buf out : PathBuffer) (dest : Destination), dest ≠ .malloc false →
    realpath cwd s buf out dest = .ok s

/-! ## Slots -/

/-- The slots below a `/` that is left. -/
def trailing (names : List (List UInt8)) : List (List UInt8) := if names = [] then [] else [] :: names

/-- What `..` leaves of the components in the output buffer, innermost first. A `/` at the end has
an empty component behind it. -/
def cutOff : List (List UInt8) → List (List UInt8)
  | [] => []
  | [] :: _ :: names => trailing names
  | _ :: names => trailing names

/-- What a component makes of those in the output buffer. -/
def slot (st : List (List UInt8)) (c : List UInt8) : List (List UInt8) :=
  if c = [dot, dot] then cutOff st else c :: st

/-- The components in the output buffer. -/
def slots (cs : List (List UInt8)) : List (List UInt8) := cs.foldl slot []

/-- A name adds one to the count, or two if it comes right behind a `..` that has not brought the
count to zero; `..` takes one off. -/
def levelStep (l : ℕ × Bool) (c : List UInt8) : ℕ × Bool :=
  if c = [dot, dot] then (l.1 - 1, true) else (l.1 + (if l.2 ∧ 0 < l.1 then 2 else 1), false)

/-- The count of the components. -/
def level (cs : List (List UInt8)) : ℕ := (cs.foldl levelStep (0, false)).1

/-- Components as the output buffer may have them. -/
structure Slots (st : List (List UInt8)) : Prop where
  /-- They have no separator. -/
  noSlash : ∀ c ∈ st, slash ∉ c
  /-- The outermost is not empty. -/
  outermost : st.getLast? ≠ some []

/-- How many `..` it takes to remove them. -/
def depth : List (List UInt8) → ℕ
  | [] :: names => names.length
  | st => st.length

lemma Slots.trailing {c : List UInt8} {names : List (List UInt8)} (h : Slots (c :: names)) :
    Slots (trailing names) := by
  unfold Libc.trailing
  split_ifs with hnil
  · exact ⟨by simp, by simp⟩
  · refine ⟨fun d hd => ?_, ?_⟩
    · rcases List.mem_cons.mp hd with rfl | hd
      · exact List.not_mem_nil
      · exact h.noSlash d (List.mem_cons_of_mem c hd)
    · have hlast := h.outermost
      rw [List.getLast?_cons_of_ne_nil hnil] at hlast ⊢
      exact hlast

lemma Slots.tail {c : List UInt8} {names : List (List UInt8)} (h : Slots (c :: names)) :
    Slots names := by
  refine ⟨fun d hd => h.noSlash d (List.mem_cons_of_mem c hd), fun hlast => ?_⟩
  cases names with
  | nil => simp at hlast
  | cons d names =>
    exact h.outermost (by rw [List.getLast?_cons_of_ne_nil (by simp)]; exact hlast)

lemma Slots.cutOff {st : List (List UInt8)} (h : Slots st) : Slots (cutOff st) := by
  match st, h with
  | [], h => exact h
  | [] :: _ :: _, h => exact h.tail.trailing
  | [[]], h => exact absurd rfl h.outermost
  | (_ :: _) :: _, h => exact h.trailing

lemma Slots.push {c : List UInt8} {st : List (List UInt8)} (h : Slots st) (hc : c ≠ [])
    (hslash : slash ∉ c) : Slots (c :: st) := by
  refine ⟨fun d hd => ?_, ?_⟩
  · rcases List.mem_cons.mp hd with rfl | hd
    · exact hslash
    · exact h.noSlash d hd
  · cases st with
    | nil => simpa using hc
    | cons d st =>
      rw [List.getLast?_cons_of_ne_nil (by simp)]
      exact h.outermost

/-- What is above a `/` that is left. -/
lemma depth_trailing (names : List (List UInt8)) : depth (trailing names) = names.length := by
  unfold trailing
  split_ifs with h
  · rw [h]
    rfl
  · rfl

/-- A `..` removes one. -/
lemma depth_cutOff {st : List (List UInt8)} (h : Slots st) : depth (cutOff st) = depth st - 1 := by
  match st, h with
  | [], _ => rfl
  | [] :: _ :: names, _ => exact depth_trailing names
  | [[]], h => exact absurd rfl h.outermost
  | (_ :: _) :: names, _ => exact depth_trailing names

/-- After a `..` there is a `/` left, or nothing. -/
lemma head_cutOff (st : List (List UInt8)) :
    0 < depth (cutOff st) ↔ (cutOff st).head? = some [] := by
  have htrailing : ∀ names, 0 < depth (trailing names) ↔ (trailing names).head? = some [] := by
    intro names
    rw [depth_trailing]
    unfold trailing
    split_ifs with h
    · simp [h]
    · simpa using List.length_pos_iff.mpr h
  match st with
  | [] => simp [cutOff, depth]
  | [] :: _ :: names => exact htrailing names
  | [[]] => exact htrailing []
  | (_ :: _) :: names => exact htrailing names

/-- There is nothing new below a `/` that is left, except for an empty component. -/
lemma trailing_subset (names : List (List UInt8)) : trailing names ⊆ [] :: names := by
  unfold trailing
  split_ifs with h
  · exact List.nil_subset _
  · exact List.Subset.refl _

/-- Nor in what `..` leaves. -/
lemma cutOff_subset (st : List (List UInt8)) : cutOff st ⊆ [] :: st := by
  have htail : ∀ {c : List UInt8} {names}, trailing names ⊆ [] :: c :: names := fun {c names} =>
    List.Subset.trans (trailing_subset names) (List.cons_subset_cons _ (List.subset_cons_self c names))
  match st with
  | [] => exact List.nil_subset _
  | [] :: _ :: _ => exact List.Subset.trans htail (List.cons_subset_cons _ (List.subset_cons_self _ _))
  | [[]] => exact htail
  | (_ :: _) :: _ => exact htail

/-- A property of the components is one of the slots. -/
lemma forall_foldl_slot {P : List UInt8 → Prop} (hnil : P []) {cs st : List (List UInt8)}
    (hcs : ∀ c ∈ cs, P c) (hst : ∀ c ∈ st, P c) : ∀ c ∈ cs.foldl slot st, P c := by
  induction cs generalizing st with
  | nil => exact hst
  | cons c cs ih =>
    refine ih (fun d hd => hcs d (List.mem_cons_of_mem c hd)) fun d hd => ?_
    unfold slot at hd
    split_ifs at hd
    · rcases List.mem_cons.mp (cutOff_subset st hd) with rfl | hd
      · exact hnil
      · exact hst d hd
    · rcases List.mem_cons.mp hd with rfl | hd
      · exact hcs d List.mem_cons_self
      · exact hst d hd

/-- The slots are not larger than the components. -/
lemma extent_slot_le (st : List (List UInt8)) (c : List UInt8) :
    extent (slot st c) ≤ extent st + (c.length + 1) := by
  have htrailing : ∀ names, extent (trailing names) ≤ extent names + 1 := by
    intro names
    unfold trailing
    split_ifs
    · simp [extent]
    · simp [extent, Nat.add_comm]
  unfold slot
  split_ifs
  · rcases st with _ | ⟨_ | ⟨x, xs⟩, names⟩
    · simp [cutOff, extent]
    · rcases names with _ | ⟨d, names⟩
      · simp [cutOff, trailing, extent]
      · have h := htrailing names
        simp only [cutOff, extent, List.map_cons, List.sum_cons] at h ⊢
        omega
    · have h := htrailing names
      simp only [cutOff, extent, List.map_cons, List.sum_cons] at h ⊢
      omega
  · simp only [extent, List.map_cons, List.sum_cons]
    omega

/-! ## The buffers -/

namespace PathBuffer

/-- Bytes behind what is known of the array. -/
lemma memcpy_begins {b : PathBuffer} {pre : List UInt8} (src : List UInt8) (h : pre <+: b.bytes)
    (hfit : pre.length + src.length ≤ PATH_MAX) :
    ∃ b', b.memcpy pre.length src = .ok b' ∧ pre ++ src <+: b'.bytes := by
  refine ⟨_, dif_pos hfit, ?_⟩
  have htake : b.bytes.take pre.length = pre := (List.prefix_iff_eq_take.mp h).symm
  simp only [htake, ← List.append_assoc]
  exact List.prefix_append _ _

/-- The string in an array that has a terminator. -/
lemma bytes_string {b : PathBuffer} {s : List UInt8} (hs : 0 ∉ s) (h : s ++ [0] <+: b.bytes) :
    b.string.bytes = s := by
  obtain ⟨rest, hrest⟩ := h
  have hpos : ∀ a ∈ s, decide (a ≠ 0) = true := by
    intro a ha
    exact decide_eq_true fun h0 => hs (h0 ▸ ha)
  have htake : b.bytes.takeWhile (· ≠ 0) = s := by
    rw [← hrest, List.append_assoc, List.takeWhile_append_of_pos hpos]
    simp
  exact htake

end PathBuffer

/-- The output buffer has these slots. -/
structure Holds (out : PathBuffer) (outlen : ℕ) (st : List (List UInt8)) : Prop where
  /-- The output ends where their text does. -/
  length : outlen = (text slash st).length
  /-- It is their text. -/
  begins : text slash st <+: out.bytes
  /-- There is room for a terminator. -/
  fits : outlen < PATH_MAX

/-- Backing up to the `/` in front of a component. -/
lemma backUp_eq {out : PathBuffer} {pre comp : List UInt8} (hslash : slash ∉ comp)
    (h : pre ++ slash :: comp <+: out.bytes) {k : ℕ} (hk : k ≤ comp.length) :
    backUp out (pre.length + 1 + k) = pre.length + 1 := by
  obtain ⟨rest, hrest⟩ := h
  induction k with
  | zero =>
    have hat : out.bytes[pre.length]? = some slash := by simp [← hrest]
    rw [Nat.add_zero, backUp, if_neg fun hne => hne.2 hat]
  | succ k ih =>
    have hat : out.bytes[pre.length + 1 + k]? = some comp[k] := by
      rw [← hrest, List.append_assoc, List.getElem?_append_right (by omega),
        show pre.length + 1 + k - pre.length = k + 1 by omega, List.cons_append,
        List.getElem?_cons_succ, List.getElem?_append_left hk, List.getElem?_eq_getElem hk]
    have hne : out.bytes[pre.length + 1 + k]? ≠ some slash := fun he =>
      hslash (Option.some.inj (hat.symm.trans he) ▸ List.getElem_mem hk)
    rw [← Nat.add_assoc, backUp, if_pos ⟨by omega, hne⟩, ih (by omega)]

/-- A `/` that is left. -/
lemma Holds.of_trailing {out : PathBuffer} {names : List (List UInt8)}
    (h : body slash names ++ [slash] <+: out.bytes)
    (hfits : (body slash names).length + 1 < PATH_MAX) :
    Holds out ((body slash names).length + 1) (trailing names) := by
  unfold trailing
  split_ifs with hnil
  · subst hnil
    exact ⟨rfl, h, hfits⟩
  · exact ⟨by simp, by simpa using h, hfits⟩

/-- The output of slots is longer than the root. -/
lemma one_lt_length_text {st : List (List UInt8)} (h : Slots st) (hne : st ≠ []) :
    1 < (text slash st).length := by
  cases st with
  | nil => exact absurd rfl hne
  | cons c names =>
    rw [length_text, if_neg hne]
    cases names with
    | nil =>
      have hc : c ≠ [] := by
        rintro rfl
        exact h.outermost rfl
      have hpos := List.length_pos_iff.mpr hc
      simp only [extent, List.map_cons, List.map_nil, List.sum_cons, List.sum_nil]
      omega
    | cons d names =>
      simp only [extent, List.map_cons, List.sum_cons]
      omega

/-- A `..`. -/
lemma component_up {out : PathBuffer} {outlen : ℕ} {st : List (List UInt8)} (hst : Slots st)
    (h : Holds out outlen st) :
    ∃ r, component out outlen [dot, dot] = .ok r ∧ Holds r.1 r.2 (cutOff st) := by
  have hdots : ([dot, dot] : List UInt8) ≠ [dot] := by simp
  by_cases hnil : st = []
  · subst hnil
    have hone : outlen = 1 := h.length
    subst hone
    exact ⟨(out, 1), by simp [component, hdots], h⟩
  · have hlt := one_lt_length_text hst hnil
    rw [← h.length] at hlt
    refine ⟨(out, backUp out (outlen - 1)), by simp [component, hdots, hlt], ?_⟩
    have hcut : ∀ {c : List UInt8} {names : List (List UInt8)} {k : ℕ}, slash ∉ c → k ≤ c.length →
        body slash names ++ slash :: c <+: out.bytes →
        outlen - 1 = (body slash names).length + 1 + k →
        Holds out (backUp out (outlen - 1)) (trailing names) := by
      intro c names k hc hk hbegins hlen
      have hfits := h.fits
      rw [hlen, backUp_eq hc hbegins hk]
      refine Holds.of_trailing (List.IsPrefix.trans ?_ hbegins) (by omega)
      exact (List.prefix_append_right_inj _).mpr (List.prefix_append [slash] c)
    have hlength := h.length
    have hbegins := h.begins
    match st, hst, hnil with
    | [], _, hnil => exact absurd rfl hnil
    | [[]], hst, _ => exact absurd rfl hst.outermost
    | [] :: d :: names, hst, _ =>
      rw [text_cons, body] at hbegins hlength
      refine hcut (k := d.length) (hst.noSlash d (by simp)) (le_refl _)
        (List.IsPrefix.trans (List.prefix_append _ _) hbegins) ?_
      simp only [List.length_append, List.length_cons, List.length_nil] at hlength ⊢
      omega
    | (a :: c) :: names, hst, _ =>
      rw [text_cons] at hbegins hlength
      refine hcut (k := c.length) (hst.noSlash _ List.mem_cons_self) (by simp) hbegins ?_
      simp only [List.length_append, List.length_cons] at hlength ⊢
      omega

/-- The `/` in front of a name. -/
lemma separate_eq {out : PathBuffer} {outlen : ℕ} {st : List (List UInt8)} (hst : Slots st)
    (h : Holds out outlen st) :
    ∃ out', separate out outlen = .ok (out', (body slash st).length + 1) ∧
      body slash st ++ [slash] <+: out'.bytes := by
  have hlen := h.length
  have hbegins := h.begins
  have hfits := h.fits
  by_cases hnil : st = []
  · subst hnil
    subst hlen
    exact ⟨out, rfl, hbegins⟩
  · have hlt := one_lt_length_text hst hnil
    have hbody : text slash st = body slash st := if_neg hnil
    rw [← hlen] at hlt
    rw [hbody] at hlen hbegins
    rw [hlen] at hfits
    obtain ⟨out', hmem, hbegins'⟩ := PathBuffer.memcpy_begins [slash] hbegins hfits
    refine ⟨out', ?_, hbegins'⟩
    rw [separate, if_pos hlt, hlen, hmem]
    rfl

/-- A name. -/
lemma component_name {out : PathBuffer} {outlen : ℕ} {st : List (List UInt8)} {c : List UInt8}
    (hst : Slots st) (h : Holds out outlen st) (hc : c ≠ [] ∧ c ≠ [dot]) (hup : c ≠ [dot, dot]) :
    (∃ r, component out outlen c = .ok r ∧ Holds r.1 r.2 (c :: st)) ∨
      (component out outlen c = .error .null ∧ PATH_MAX ≤ extent (c :: st)) := by
  obtain ⟨out', hsep, hbegins⟩ := separate_eq hst h
  have hlen0 : c.length ≠ 0 := fun h0 => hc.1 (List.length_eq_zero_iff.mp h0)
  have hextent : extent (c :: st) = (body slash st).length + 1 + c.length := by
    simp only [length_body, extent, List.map_cons, List.sum_cons]
    omega
  rw [hextent]
  unfold component
  rw [if_neg (by simp [hlen0, hc.2]), if_neg hup, hsep]
  simp only [bind, Except.bind]
  by_cases hfits : (body slash st).length + 1 + c.length ≥ PATH_MAX
  · right
    exact ⟨if_pos hfits, hfits⟩
  · left
    have hlength : (body slash st ++ [slash]).length = (body slash st).length + 1 := by simp
    obtain ⟨out'', hmem, hbegins'⟩ := PathBuffer.memcpy_begins c hbegins
      (by rw [hlength]; omega)
    rw [hlength] at hmem
    refine ⟨(out'', (body slash st).length + 1 + c.length), ?_, ?_, ?_, by omega⟩
    · rw [if_neg hfits, hmem]
      rfl
    · rw [text_cons, List.length_append, List.length_cons]
      omega
    · rw [text_cons]
      simpa using hbegins'

/-- A turn of the loop. -/
lemma component_eq {out : PathBuffer} {outlen : ℕ} {st : List (List UInt8)} {c : List UInt8}
    (hst : Slots st) (h : Holds out outlen st) (hslash : slash ∉ c) :
    (∃ r, component out outlen c = .ok r ∧
      Holds r.1 r.2 ((components slash dot c).foldl slot st) ∧
      Slots ((components slash dot c).foldl slot st)) ∨
    (component out outlen c = .error .null ∧
      PATH_MAX ≤ extent st + extent (components slash dot c)) := by
  rw [components_of_not_mem slash dot hslash]
  split_ifs with hc
  · rw [List.foldl_cons, List.foldl_nil]
    by_cases hup : c = [dot, dot]
    · subst hup
      left
      obtain ⟨r, hr, hholds⟩ := component_up hst h
      rw [slot, if_pos rfl]
      exact ⟨r, hr, hholds, hst.cutOff⟩
    · rw [slot, if_neg hup]
      rcases component_name hst h hc hup with ⟨r, hr, hholds⟩ | ⟨hr, hle⟩
      · left
        exact ⟨r, hr, hholds, hst.push hc.1 hslash⟩
      · right
        refine ⟨hr, ?_⟩
        simp only [extent, List.map_cons, List.sum_cons, List.map_nil, List.sum_nil] at hle ⊢
        omega
  · left
    refine ⟨(out, outlen), ?_, h, hst⟩
    rw [component, if_pos]
    by_contra hne
    exact hc (by simpa using hne)

/-- The slots of the rest are not larger than its components. -/
lemma extent_foldl_slot_le (cs st : List (List UInt8)) :
    extent (cs.foldl slot st) ≤ extent st + extent cs := by
  induction cs generalizing st with
  | nil => simp [extent]
  | cons c cs ih =>
    have hstep := extent_slot_le st c
    have hrest := ih (slot st c)
    have hcons : extent (c :: cs) = c.length + 1 + extent cs := by simp [extent]
    rw [List.foldl_cons, hcons]
    omega

/-- The component that a turn of the loop finds. -/
def firstComponent (p : List UInt8) : List UInt8 :=
  (p.dropWhile (· = slash)).takeWhile (· ≠ slash)

/-- What it leaves. -/
def behindFirst (p : List UInt8) : List UInt8 := (p.dropWhile (· = slash)).dropWhile (· ≠ slash)

/-- The component and those behind it. -/
lemma components_turn (p : List UInt8) : components slash dot p =
    components slash dot (firstComponent p) ++ components slash dot (behindFirst p) := by
  rw [firstComponent, behindFirst, ← components_takeWhile, components_dropWhile]

/-- A turn of the loop. -/
lemma realpathLoop_turn {p : List UInt8} (hp : p ≠ []) (out : PathBuffer) (outlen : ℕ) :
    realpathLoop p out outlen =
      (component out outlen (firstComponent p)).bind fun r =>
        realpathLoop (behindFirst p) r.1 r.2 := by
  rw [realpathLoop, if_neg hp]
  unfold firstComponent behindFirst
  dsimp only
  split
  · rename_i h
    rw [h]
    rfl
  · rename_i h
    rw [h]
    rfl

/-- **The loop** leaves the slots of the components in the output buffer, unless they are too
long. -/
lemma realpathLoop_eq {p : List UInt8} {out : PathBuffer} {outlen : ℕ} {st : List (List UInt8)}
    (hst : Slots st) (h : Holds out outlen st) :
    (∃ r, realpathLoop p out outlen = .ok r ∧
      Holds r.1 r.2 ((components slash dot p).foldl slot st)) ∨
    (realpathLoop p out outlen = .error .null ∧
      PATH_MAX ≤ extent st + extent (components slash dot p)) := by
  induction hn : p.length using Nat.strong_induction_on generalizing p out outlen st with
  | _ n ih =>
    by_cases hp : p = []
    · subst hp
      left
      exact ⟨(out, outlen), by rw [realpathLoop, if_pos rfl]; rfl, by simpa using h⟩
    · have hslash : slash ∉ firstComponent p := fun hmem => by
        simpa using List.mem_takeWhile_imp hmem
      rw [realpathLoop_turn hp, components_turn p, extent_append]
      rcases component_eq hst h hslash with ⟨r, hr, hholds, hslots⟩ | ⟨hr, hle⟩
      · have hle := extent_foldl_slot_le (components slash dot (firstComponent p)) st
        have hlt : (behindFirst p).length < n := hn ▸ length_next_lt hp
        rw [hr, List.foldl_append]
        rcases ih _ hlt hslots hholds rfl with hok | ⟨herr, hlong⟩
        · exact .inl hok
        · exact .inr ⟨herr, by omega⟩
      · rw [hr]
        exact .inr ⟨rfl, by omega⟩

/-! ## The text it goes through -/

/-- The current directory with a `/` at the end. -/
def directory (cwd : CString) : List UInt8 :=
  if cwd.bytes.getLast? = some slash then cwd.bytes else cwd.bytes ++ [slash]

/-- The path behind the current directory, if it is relative. -/
def joined (cwd path : CString) : List UInt8 :=
  if path.bytes.head? = some slash then path.bytes else directory cwd ++ path.bytes

/-- There is no NUL in it. -/
lemma zero_notMem_joined (cwd path : CString) : 0 ∉ joined cwd path := by
  have hslash : (0 : UInt8) ≠ slash := by decide
  unfold joined directory
  split_ifs <;> simp [path.nulFree, cwd.nulFree, hslash]

/-- Its components. -/
lemma components_joined (cwd path : CString) :
    components slash dot (joined cwd path) = pathComponents cwd path := by
  unfold joined pathComponents directory
  split_ifs with habs hlast
  · rfl
  · obtain ⟨init, hinit⟩ := List.getLast?_eq_some_iff.mp hlast
    rw [hinit, List.append_assoc, List.singleton_append, components_append_sep,
      components_append_sep, components_nil, List.append_nil]
  · rw [List.append_assoc, List.singleton_append, components_append_sep]

/-- The current directory goes into the buffer. -/
lemma getcwd_eq {cwd : CString} (buf : PathBuffer) (h : cwd.strlen + 1 ≤ PATH_MAX) :
    ∃ buf', getcwd cwd buf = .ok buf' ∧ buf'.string = cwd ∧ cwd.bytes <+: buf'.bytes := by
  rw [CString.strlen] at h
  have hnil : [] <+: buf.bytes := List.nil_prefix
  obtain ⟨buf', hmem, hbegins⟩ := PathBuffer.memcpy_begins (cwd.bytes ++ [0]) hnil (by simpa using h)
  refine ⟨buf', ?_, CString.ext (PathBuffer.bytes_string cwd.nulFree hbegins),
    List.IsPrefix.trans (List.prefix_append _ _) hbegins⟩
  rw [getcwd, if_neg (by rw [CString.strlen]; omega)]
  exact hmem

/-- A `/` goes behind it, if there is none. -/
lemma startDirectory_eq {cwd : CString} (buf : PathBuffer) (h : cwd.strlen + 1 ≤ PATH_MAX) :
    ∃ buf', startDirectory cwd buf = .ok (buf', (directory cwd).length) ∧
      directory cwd <+: buf'.bytes := by
  obtain ⟨buf₁, hget, hstring, hbegins⟩ := getcwd_eq buf h
  have hlast : (cwd.strlen = 0 ∨ buf₁.bytes[cwd.strlen - 1]? ≠ some slash) ↔
      cwd.bytes.getLast? ≠ some slash := by
    rw [CString.strlen, List.getLast?_eq_getElem?]
    by_cases h0 : cwd.bytes.length = 0
    · simp [List.length_eq_zero_iff.mp h0]
    · obtain ⟨rest, hrest⟩ := hbegins
      rw [← hrest, List.getElem?_append_left (by omega)]
      simp [h0]
  unfold startDirectory directory
  rw [hget]
  simp only [bind, Except.bind, hstring, hlast]
  by_cases hslash : cwd.bytes.getLast? = some slash
  · rw [if_neg (not_not.mpr hslash), if_pos hslash]
    exact ⟨buf₁, rfl, hbegins⟩
  · obtain ⟨buf₂, hmem, hbegins₂⟩ := PathBuffer.memcpy_begins [slash] hbegins h
    rw [if_pos hslash, if_neg hslash, CString.strlen, hmem]
    exact ⟨buf₂, by simp [pure, Except.pure], hbegins₂⟩

/-- The path goes behind it. -/
lemma copyPath_eq {cwd path : CString} {buf : PathBuffer} {pre : List UInt8}
    (h : pre <+: buf.bytes) (hjoined : joined cwd path = pre ++ path.bytes) :
    (∃ buf', copyPath path buf pre.length = .ok buf' ∧ buf'.string.bytes = joined cwd path) ∨
    (copyPath path buf pre.length = .error .null ∧ PATH_MAX ≤ (joined cwd path).length) := by
  rw [copyPath, CString.strlen]
  by_cases hfits : pre.length + path.bytes.length + 1 > PATH_MAX
  · right
    refine ⟨if_pos hfits, ?_⟩
    rw [hjoined, List.length_append]
    omega
  · left
    obtain ⟨buf', hmem, hbegins⟩ := PathBuffer.memcpy_begins (path.bytes ++ [0]) h
      (by rw [List.length_append, List.length_singleton]; omega)
    rw [if_neg hfits, hmem]
    refine ⟨buf', rfl, PathBuffer.bytes_string (zero_notMem_joined cwd path) ?_⟩
    rw [hjoined, List.append_assoc]
    exact hbegins

/-- **The text that the loop goes through**, unless it is too long. -/
lemma absolutePath_eq (cwd path : CString) (buf : PathBuffer) :
    (∃ buf', absolutePath cwd path buf = .ok buf' ∧ buf'.string.bytes = joined cwd path) ∨
    (absolutePath cwd path buf = .error .null ∧
      (path.bytes = [] ∨ PATH_MAX ≤ (joined cwd path).length)) := by
  have hweaken : ∀ {x : Except Stop PathBuffer},
      (∃ buf', x = .ok buf' ∧ buf'.string.bytes = joined cwd path) ∨
        (x = .error .null ∧ PATH_MAX ≤ (joined cwd path).length) →
      (∃ buf', x = .ok buf' ∧ buf'.string.bytes = joined cwd path) ∨
        (x = .error .null ∧ (path.bytes = [] ∨ PATH_MAX ≤ (joined cwd path).length)) :=
    fun hx => hx.imp_right fun herr => ⟨herr.1, .inr herr.2⟩
  unfold absolutePath
  by_cases hnil : path.bytes = []
  · right
    exact ⟨if_pos hnil, .inl hnil⟩
  rw [if_neg hnil]
  by_cases habs : path.bytes.head? = some slash
  · simp only [if_pos habs, pure_bind]
    have hstart : [] <+: buf.bytes := List.nil_prefix
    exact hweaken (copyPath_eq hstart (if_pos habs))
  · simp only [if_neg habs]
    by_cases hcwd : cwd.strlen + 1 ≤ PATH_MAX
    · obtain ⟨b, hb, hbegins⟩ := startDirectory_eq buf hcwd
      rw [hb]
      exact hweaken (copyPath_eq hbegins (if_neg habs))
    · have hlong : cwd.bytes.length ≤ (directory cwd).length := by
        unfold directory
        split_ifs <;> simp
      refine hweaken (.inr ⟨?_, ?_⟩)
      · rw [startDirectory, getcwd, if_pos (by omega)]
        rfl
      · rw [CString.strlen] at hcwd
        rw [joined, if_neg habs, List.length_append]
        omega

/-! ## The result -/

/-- There is no NUL in the output. -/
lemma zero_notMem_text (cwd path : CString) :
    0 ∉ text slash (slots (pathComponents cwd path)) := by
  intro h
  have hslots : ∀ c ∈ slots (pathComponents cwd path), 0 ∉ c := by
    refine forall_foldl_slot List.not_mem_nil (fun c hc h0 => ?_) fun c hc =>
      absurd hc List.not_mem_nil
    rw [← components_joined] at hc
    exact zero_notMem_joined cwd path (subset_of_mem_components slash dot hc h0)
  rcases mem_text slash h with h0 | ⟨c, hc, h0⟩
  · exact absurd h0 (by decide)
  · exact hslots c hc h0

/-- Nothing is in the output at first. -/
lemma slots_nil : Slots [] := ⟨by simp, by simp⟩

/-- The text of the slots is what is returned. -/
lemma finish_eq {out : PathBuffer} {outlen : ℕ} {st : List (List UInt8)} (h : Holds out outlen st)
    (hzero : 0 ∉ text slash st) (dest : Destination) :
    (∃ s, finish out outlen dest = .ok s ∧ s.bytes = text slash st) ∨
    (finish out outlen dest = .error .null ∧ dest = .malloc false) := by
  have hfits := h.fits
  rw [h.length] at hfits
  obtain ⟨out', hmem, hbegins⟩ := PathBuffer.memcpy_begins [0] h.begins hfits
  have htake : out'.bytes.take ((text slash st).length + 1) = text slash st ++ [0] := by
    simpa using (List.prefix_iff_eq_take.mp hbegins).symm
  unfold finish
  rw [h.length, hmem]
  simp only [bind, Except.bind, htake]
  cases dest with
  | resolvedPath resolved =>
    left
    have hnil : [] <+: resolved.bytes := List.nil_prefix
    obtain ⟨r, hr, hbegins'⟩ := PathBuffer.memcpy_begins (text slash st ++ [0]) hnil
      (by simpa using Nat.succ_le_of_lt hfits)
    have hr' : resolved.memcpy 0 (text slash st ++ [0]) = .ok r := hr
    dsimp only
    rw [hr']
    exact ⟨r.string, rfl, PathBuffer.bytes_string hzero hbegins'⟩
  | malloc succeeds =>
    cases succeeds with
    | false => exact .inr ⟨rfl, rfl⟩
    | true =>
      left
      refine ⟨CString.ofBytes (text slash st ++ [0]), rfl, ?_⟩
      rw [CString.bytes_ofBytes_terminated, CString.bytes_ofBytes_of_nulFree hzero]

/-- **The result of `realpath`** is the text of the slots of its components. There is none if the
path is empty or too long, or if there is no memory. -/
lemma realpath_eq (cwd path : CString) (buf out : PathBuffer) (dest : Destination) :
    (∃ s, realpath cwd path buf out dest = .ok s ∧
      s.bytes = text slash (slots (pathComponents cwd path)) ∧ s.strlen < PATH_MAX) ∨
    (realpath cwd path buf out dest = .error .null ∧
      (path.bytes = [] ∨ PATH_MAX ≤ (joined cwd path).length ∨
        PATH_MAX ≤ extent (pathComponents cwd path) ∨ dest = .malloc false)) := by
  unfold realpath
  rcases absolutePath_eq cwd path buf with ⟨buf', hbuf, hstring⟩ | ⟨hbuf, hcause⟩
  · have hstart : [] <+: out.bytes := List.nil_prefix
    obtain ⟨out₁, hmem, hbegins⟩ := PathBuffer.memcpy_begins [slash] hstart (by decide)
    have hmem' : out.memcpy 0 [slash] = .ok out₁ := hmem
    rw [hbuf]
    simp only [bind, Except.bind, hmem', hstring]
    have hroot : Holds out₁ 1 [] := ⟨rfl, hbegins, by decide⟩
    rcases realpathLoop_eq slots_nil hroot (p := joined cwd path) with
      ⟨r, hloop, hholds⟩ | ⟨hloop, hlong⟩
    · rw [components_joined] at hholds
      rw [hloop]
      rcases finish_eq hholds (zero_notMem_text cwd path) dest with ⟨s, hs, hbytes⟩ | ⟨hs, hdest⟩
      · refine .inl ⟨s, hs, hbytes, ?_⟩
        have hfits := hholds.fits
        rw [hholds.length] at hfits
        rw [CString.strlen, hbytes]
        exact hfits
      · exact .inr ⟨hs, .inr (.inr (.inr hdest))⟩
    · right
      rw [components_joined] at hlong
      rw [hloop]
      refine ⟨rfl, .inr (.inr (.inl ?_))⟩
      simpa [extent] using hlong
  · right
    rw [hbuf]
    exact ⟨rfl, hcause.imp_right .inl⟩

/-- **There is a result** for an absolute path, or one in an absolute directory, that is not empty
and fits in the buffer, if there is memory for it. -/
theorem realpath_succeeds (cwd path : CString) (buf out : PathBuffer) (dest : Destination)
    (habs : (joined cwd path).head? = some slash) (hpath : path.bytes ≠ [])
    (hfits : (joined cwd path).length < PATH_MAX) (hdest : dest ≠ .malloc false) :
    ∃ s, realpath cwd path buf out dest = .ok s := by
  obtain ⟨rest, hrest⟩ : ∃ rest, joined cwd path = slash :: rest := by
    rw [List.head?_eq_some_iff] at habs
    exact habs
  have hextent := length_components_le slash dot rest
  rw [← components_sep, ← hrest, components_joined] at hextent
  rw [hrest, List.length_cons] at hfits
  rcases realpath_eq cwd path buf out dest with ⟨s, hs, -⟩ | ⟨-, hcause⟩
  · exact ⟨s, hs⟩
  · rcases hcause with h | h | h | h
    · exact absurd h hpath
    · rw [hrest, List.length_cons] at h
      omega
    · omega
    · exact absurd h hdest

/-! ## When it is canonical -/

/-- Names are put into slots. -/
lemma foldl_slot {cs : List (List UInt8)} (h : [dot, dot] ∉ cs) (st : List (List UInt8)) :
    cs.foldl slot st = cs.reverse ++ st := by
  induction cs generalizing st with
  | nil => rfl
  | cons c cs ih =>
    rw [List.mem_cons, not_or] at h
    rw [List.foldl_cons, slot, if_neg (Ne.symm h.1), ih h.2, List.reverse_cons, List.append_assoc,
      List.singleton_append]

/-- Components as the loop finds them. -/
def Components (cs : List (List UInt8)) : Prop := ∀ c ∈ cs, c ≠ [] ∧ c ≠ [dot] ∧ slash ∉ c

/-- Those of a path are. -/
lemma components_pathComponents (cwd path : CString) : Components (pathComponents cwd path) := by
  rw [← components_joined]
  exact fun c hc => of_mem_components slash dot hc

/-- Their slots. -/
lemma slots_slots {cs : List (List UInt8)} (h : Components cs) : Slots (slots cs) := by
  induction cs using List.reverseRecOn with
  | nil => exact slots_nil
  | append_singleton cs c ih =>
    have hst := ih fun d hd => h d (List.mem_append_left _ hd)
    have hc := h c (by simp)
    rw [slots, List.foldl_append, List.foldl_cons, List.foldl_nil, slot]
    split_ifs
    · exact hst.cutOff
    · exact hst.push hc.1 hc.2.2

/-- The step of the count. -/
lemma level_append (cs : List (List UInt8)) (c : List UInt8) :
    (cs ++ [c]).foldl levelStep (0, false) = levelStep (cs.foldl levelStep (0, false)) c := by
  rw [List.foldl_append, List.foldl_cons, List.foldl_nil]

/-- Slots without a `/` at the end. -/
lemma depth_of_head?_ne {st : List (List UInt8)} (h : st.head? ≠ some []) :
    depth st = st.length := by
  match st, h with
  | [], _ => rfl
  | [] :: _, h => exact absurd rfl h
  | (_ :: _) :: _, _ => rfl

/-- Slots with one. -/
lemma length_of_head? {st : List (List UInt8)} (h : st.head? = some []) :
    st.length = depth st + 1 := by
  obtain ⟨names, rfl⟩ := List.head?_eq_some_iff.mp h
  rfl

/-- There is nothing to remove only at the root. -/
lemma eq_nil_of_depth {st : List (List UInt8)} (h : Slots st) (hdepth : depth st = 0) : st = [] := by
  match st, h, hdepth with
  | [], _, _ => rfl
  | [[]], h, _ => exact absurd rfl h.outermost

/-- **The count is the number of `..`** that it takes to remove the slots. -/
lemma level_eq {cs : List (List UInt8)} (h : Components cs) : level cs = depth (slots cs) ∧
    (0 < level cs → ((cs.foldl levelStep (0, false)).2 = true ↔ (slots cs).head? = some [])) := by
  induction cs using List.reverseRecOn with
  | nil => exact ⟨rfl, by simp [level]⟩
  | append_singleton cs c ih =>
    have hcs : Components cs := fun d hd => h d (List.mem_append_left _ hd)
    have hc := h c (by simp)
    have hst := slots_slots hcs
    obtain ⟨hlevel, hup⟩ := ih hcs
    have hslots : slots (cs ++ [c]) = slot (slots cs) c := by
      rw [slots, List.foldl_append, List.foldl_cons, List.foldl_nil, slots]
    rw [level, level_append, hslots, levelStep, slot]
    unfold level at hlevel hup
    split_ifs with hdots hadd
    · have hcut := depth_cutOff hst
      refine ⟨by rw [hcut, hlevel], fun hpos => ?_⟩
      rw [hlevel, ← hcut, head_cutOff] at hpos
      simp [hpos]
    · have hhead := (hup hadd.2).mp hadd.1
      have hlen := length_of_head? hhead
      rw [depth_of_head?_ne (by simpa using hc.1), List.length_cons]
      exact ⟨by omega, fun _ => by simp [hc.1]⟩
    · have hlen : (slots cs).length = depth (slots cs) := by
        by_cases hpos : 0 < (cs.foldl levelStep (0, false)).1
        · have hhead : (slots cs).head? ≠ some [] := fun hh => hadd ⟨(hup hpos).mpr hh, hpos⟩
          exact (depth_of_head?_ne hhead).symm
        · rw [eq_nil_of_depth hst (by omega)]
          rfl
      rw [depth_of_head?_ne (by simpa using hc.1), List.length_cons]
      exact ⟨by omega, fun _ => by simp [hc.1]⟩

/-- The names that the components lead to are no more than the count. -/
lemma length_resolve_le (cs : List (List UInt8)) : (resolve dot cs).length ≤ level cs := by
  induction cs using List.reverseRecOn with
  | nil => exact le_refl _
  | append_singleton cs c ih =>
    rw [level, level_append, levelStep, resolve, List.foldl_append, List.foldl_cons, List.foldl_nil,
      enter]
    unfold level resolve at ih
    split_ifs
    · rw [List.length_tail]
      exact Nat.sub_le_sub_right ih 1
    · rw [List.length_cons]
      dsimp only
      omega
    · rw [List.length_cons]
      exact Nat.succ_le_succ ih

/-- The count is zero after the last `..`. -/
def Balanced (cs : List (List UInt8)) : Prop :=
  ∃ before behind, cs = before ++ behind ∧ level before = 0 ∧ [dot, dot] ∉ behind

/-- **No component is empty** if the count is zero after the last `..`, and only then. -/
lemma balanced_iff {cs : List (List UInt8)} (h : Components cs) :
    Balanced cs ↔ ∀ c ∈ slots cs, c ≠ [] := by
  constructor
  · rintro ⟨before, behind, rfl, hlevel, hdots⟩
    have hbefore : Components before := fun d hd => h d (List.mem_append_left _ hd)
    have hroot : slots before = [] :=
      eq_nil_of_depth (slots_slots hbefore) ((level_eq hbefore).1 ▸ hlevel)
    unfold slots at hroot ⊢
    rw [List.foldl_append, hroot, foldl_slot hdots, List.append_nil]
    intro c hc
    exact (h c (List.mem_append_right _ (List.mem_reverse.mp hc))).1
  · intro hne
    induction cs using List.reverseRecOn with
    | nil => exact ⟨[], [], rfl, rfl, List.not_mem_nil⟩
    | append_singleton cs c ih =>
      have hcs : Components cs := fun d hd => h d (List.mem_append_left _ hd)
      have hslots : slots (cs ++ [c]) = slot (slots cs) c := by
        rw [slots, List.foldl_append, List.foldl_cons, List.foldl_nil, slots]
      by_cases hdots : c = [dot, dot]
      · -- a `..` that leaves something leaves a `/`
        refine ⟨cs ++ [c], [], (List.append_nil _).symm, ?_, List.not_mem_nil⟩
        rw [(level_eq h).1]
        by_contra hpos
        rw [hslots, slot, if_pos hdots] at hpos hne
        have hhead := (head_cutOff _).mp (Nat.pos_of_ne_zero hpos)
        exact hne [] (List.mem_of_head? hhead) rfl
      · rw [hslots, slot, if_neg hdots] at hne
        obtain ⟨before, behind, rfl, hlevel, hbehind⟩ :=
          ih hcs fun d hd => hne d (List.mem_cons_of_mem c hd)
        refine ⟨before, behind ++ [c], List.append_assoc _ _ _, hlevel, fun hmem => ?_⟩
        rcases List.mem_append.mp hmem with hmem | hmem
        · exact hbehind hmem
        · exact hdots (List.mem_singleton.mp hmem).symm

/-- The slots are the names then. -/
lemma slots_of_balanced {cs : List (List UInt8)} (h : Components cs) (hbal : Balanced cs) :
    slots cs = resolve dot cs ∧ ∀ c ∈ slots cs, IsName slash dot c := by
  obtain ⟨before, behind, rfl, hlevel, hdots⟩ := hbal
  have hbefore : Components before := fun d hd => h d (List.mem_append_left _ hd)
  have hroot : slots before = [] :=
    eq_nil_of_depth (slots_slots hbefore) ((level_eq hbefore).1 ▸ hlevel)
  have hnames : resolve dot before = [] :=
    List.length_eq_zero_iff.mp (Nat.le_zero.mp (hlevel ▸ length_resolve_le before))
  have hslots : slots (before ++ behind) = behind.reverse := by
    unfold slots at hroot ⊢
    rw [List.foldl_append, hroot, foldl_slot hdots, List.append_nil]
  rw [hslots]
  constructor
  · unfold resolve at hnames ⊢
    rw [List.foldl_append, hnames, foldl_enter dot hdots, List.append_nil]
  · intro c hc
    rw [List.mem_reverse] at hc
    have hcomp := h c (List.mem_append_right _ hc)
    exact ⟨hcomp.1, hcomp.2.2, hcomp.2.1, fun he => hdots (he ▸ hc)⟩

/-- **A canonical text that fits** is its own result. -/
lemma realpath_text {s : CString} {names : List (List UInt8)}
    (hnames : ∀ c ∈ names, IsName slash dot c) (hs : s.bytes = text slash names)
    (hfits : s.strlen < PATH_MAX) (cwd : CString) (buf out : PathBuffer) {dest : Destination}
    (hdest : dest ≠ .malloc false) : realpath cwd s buf out dest = .ok s := by
  have habs : s.bytes.head? = some slash := hs ▸ head?_text slash names
  have hjoined : joined cwd s = s.bytes := if_pos habs
  have hcomps : pathComponents cwd s = names.reverse := by
    rw [← components_joined, hjoined, hs, components_text slash dot hnames]
  have hdots : [dot, dot] ∉ names.reverse := fun hmem =>
    (hnames _ (List.mem_reverse.mp hmem)).2.2.2 rfl
  have hnil : s.bytes ≠ [] := by
    rintro h
    rw [h] at habs
    exact absurd habs nofun
  obtain ⟨s', hs'⟩ := realpath_succeeds cwd s buf out dest (by rwa [hjoined]) hnil
    (by rwa [hjoined]) hdest
  rcases realpath_eq cwd s buf out dest with ⟨t, ht, hbytes, -⟩ | ⟨herr, -⟩
  · rw [hcomps, slots, foldl_slot hdots, List.append_nil, List.reverse_reverse, ← hs] at hbytes
    rw [ht, CString.ext hbytes]
  · rw [hs'] at herr
    exact absurd herr nofun

/-- **The result is canonical**, and what the components lead to, exactly if the count is back at
zero after the last `..`: each name adds one to it, one right behind a `..` that has not brought it
to zero adds two, and each `..` takes one off. -/
theorem realPath_iff {cwd path : CString} {buf out : PathBuffer} {dest : Destination}
    (hsucceeds : realpath cwd path buf out dest ≠ .error .null) :
    (∃ s, realpath cwd path buf out dest = .ok s ∧ RealPath cwd path s) ↔
      Balanced (pathComponents cwd path) := by
  have hcomps := components_pathComponents cwd path
  rcases realpath_eq cwd path buf out dest with ⟨s, hs, hbytes, hfits⟩ | ⟨herr, -⟩
  · constructor
    · rintro ⟨s', hs', hreal⟩
      obtain rfl : s = s' := Except.ok.inj (hs.symm.trans hs')
      obtain ⟨names, hnames, htext⟩ := hreal.canonical
      have hslots := slots_slots hcomps
      have hlast : names.getLast? ≠ some [] := fun h =>
        (hnames [] (List.mem_of_getLast? h)).1 rfl
      have heq := text_injective slash (fun c hc => (hnames c hc).2.1) hslots.noSlash hlast
        hslots.outermost (htext.symm.trans hbytes)
      rw [balanced_iff hcomps, ← heq]
      exact fun c hc => (hnames c hc).1
    · intro hbal
      obtain ⟨hresolve, hnames⟩ := slots_of_balanced hcomps hbal
      exact ⟨s, hs, ⟨_, hnames, hbytes⟩, hresolve ▸ hbytes, fun cwd buf out dest hdest =>
        realpath_text hnames hbytes hfits cwd buf out hdest⟩
  · exact absurd herr hsucceeds

/-- An array of zeros. -/
def PathBuffer.zeros : PathBuffer := ⟨List.replicate PATH_MAX 0, List.length_replicate⟩

/-- A `..` that leads back to the root. -/
theorem realPath_iff_root :
    ∃ s, realpath (.ofBytes (ascii "/")) (.ofBytes (ascii "/a/../b")) .zeros .zeros (.malloc true) =
      .ok s ∧ RealPath (.ofBytes (ascii "/")) (.ofBytes (ascii "/a/../b")) s := by
  have hsucceeds := realpath_succeeds (.ofBytes (ascii "/")) (.ofBytes (ascii "/a/../b")) .zeros
    .zeros (.malloc true) (by decide) (by decide) (by decide) nofun
  refine (realPath_iff ?_).mpr ⟨[ascii "a", [dot, dot]], [ascii "b"], by decide, by decide,
    by decide⟩
  obtain ⟨s, hs⟩ := hsucceeds
  rw [hs]
  exact nofun

/-- **A `..` below the root** leaves a `/` in front of the next one: the result for `/a/b/../c` is
`/a//c`. -/
theorem not_realPath_parent :
    ¬∀ (cwd path : CString) (buf out : PathBuffer) (dest : Destination),
      path.bytes.head? = some slash → realpath cwd path buf out dest ≠ .error .null →
      ∃ s, realpath cwd path buf out dest = .ok s ∧ RealPath cwd path s := by
  intro h
  obtain ⟨t, ht⟩ := realpath_succeeds (.ofBytes (ascii "/")) (.ofBytes (ascii "/a/b/../c")) .zeros
    .zeros (.malloc true) (by decide) (by decide) (by decide) nofun
  obtain ⟨s, hs, hreal⟩ := h (.ofBytes (ascii "/")) (.ofBytes (ascii "/a/b/../c")) .zeros .zeros
    (.malloc true) (by decide) (by rw [ht]; exact nofun)
  rcases realpath_eq (.ofBytes (ascii "/")) (.ofBytes (ascii "/a/b/../c")) .zeros .zeros
    (.malloc true) with ⟨s', hs', hbytes, -⟩ | ⟨herr, -⟩
  · obtain rfl : s' = s := Except.ok.inj (hs'.symm.trans hs)
    have htext := hbytes.symm.trans hreal.resolved
    exact absurd htext (by decide)
  · exact absurd (herr.symm.trans ht) nofun

end Asteros.Libc
