import Asteros.Xpc.Deserialize

set_option autoImplicit false

/-!
# The cost of decoding

The decoder runs on bytes chosen by another process: counts and lengths are any 32-bit numbers,
and containers nest as deeply as the sender likes. Everything the decoder does is paid for by
bytes of the input. A value costs its tag byte before an object is created or a nested value is
decoded, so that the objects created and the nesting depth are bounded by the bytes consumed,
whatever counts the input declares.

## Main definitions

* `Event.Safe` — what an event may do, given the bytes consumed.
* `Spent` — a step of the decoder that stays inside the buffer and creates fewer objects than it
  consumes bytes, by a given credit.

## Main results

* `decode_spent` — decoding ends within a limit above the number of bytes left, and is such a step.
* `decode_mono` — a higher limit does not change the outcome.
-/

namespace Asteros.Xpc

open Asteros.Libc LittleEndian

/-- The event is the creation of an object. -/
def Event.isCreate : Event → Bool
  | .create => true
  | _ => false

/-- The number of objects created in a trace. -/
def created (t : List Event) : ℕ := t.countP Event.isCreate

/-- What an event may do in a buffer of `len` bytes, in a call at nesting depth `depth` that
consumes `consumed` bytes. -/
def Event.Safe (len depth consumed : ℕ) : Event → Prop
  | .enter d => depth ≤ d ∧ d - depth ≤ consumed
  | .copy off n _ => off + n ≤ len
  | .move pos => pos ≤ len
  | .create => True

/-- An event stays safe when more bytes are consumed. -/
lemma Event.Safe.mono {len depth m n : ℕ} {e : Event} (h : e.Safe len depth m) (hmn : m ≤ n) :
    e.Safe len depth n := by
  cases e with
  | enter d => exact ⟨h.1, h.2.trans hmn⟩
  | copy off n cap => exact h
  | move pos => exact h
  | create => trivial

/-- An event of a nested call is safe in the calling one, which has consumed a byte before. -/
lemma Event.Safe.nest {len depth m n : ℕ} {e : Event} (h : e.Safe len (depth + 1) m)
    (hmn : m + 1 ≤ n) : e.Safe len depth n := by
  cases e with
  | enter d => exact ⟨by have := h.1; omega, by have := h.2; omega⟩
  | copy off n cap => exact h
  | move pos => exact h
  | create => trivial

/-- From `r` to `r'` the decoder stays inside the buffer, and the objects it creates together
with `credit` further ones are paid for by bytes it consumes. -/
structure Spent (depth credit : ℕ) (r r' : Reader) : Prop where
  /-- The buffer stays. -/
  buf : r'.buf = r.buf
  /-- The position does not go back. -/
  pos_le : r.pos ≤ r'.pos
  /-- The position stays inside the buffer. -/
  ok : r'.Ok
  /-- What happened is safe and paid for. -/
  trace : ∃ new, r'.trace = new ++ r.trace ∧
    (∀ e ∈ new, e.Safe r.buf.len depth (r'.pos - r.pos)) ∧
    created new + credit ≤ r'.pos - r.pos

namespace Spent

variable {depth j k : ℕ} {r r₁ r₂ : Reader}

/-- Doing nothing costs nothing. -/
lemma refl (depth : ℕ) (hr : r.Ok) : Spent depth 0 r r :=
  ⟨rfl, le_rfl, hr, [], rfl, by simp, by simp [created]⟩

/-- Credits of consecutive steps add up. -/
lemma trans (h₁ : Spent depth j r r₁) (h₂ : Spent depth k r₁ r₂) :
    Spent depth (j + k) r r₂ := by
  obtain ⟨hbuf₁, hpos₁, -, new₁, htrace₁, hsafe₁, hcount₁⟩ := h₁
  obtain ⟨hbuf₂, hpos₂, hok₂, new₂, htrace₂, hsafe₂, hcount₂⟩ := h₂
  refine ⟨hbuf₂.trans hbuf₁, hpos₁.trans hpos₂, hok₂, new₂ ++ new₁, ?_, ?_, ?_⟩
  · rw [htrace₂, htrace₁, List.append_assoc]
  · intro e he
    rcases List.mem_append.mp he with he | he
    · exact (hbuf₁ ▸ hsafe₂ e he).mono (by omega)
    · exact (hsafe₁ e he).mono (by omega)
  · rw [created, List.countP_append, ← created, ← created]
    omega

/-- A step of nested calls is a step of the calling one, once that has consumed a byte. -/
lemma nest (h₁ : Spent depth (j + 1) r r₁) (h₂ : Spent (depth + 1) k r₁ r₂) :
    Spent depth (j + 1 + k) r r₂ := by
  obtain ⟨hbuf₁, hpos₁, -, new₁, htrace₁, hsafe₁, hcount₁⟩ := h₁
  obtain ⟨hbuf₂, hpos₂, hok₂, new₂, htrace₂, hsafe₂, hcount₂⟩ := h₂
  refine ⟨hbuf₂.trans hbuf₁, hpos₁.trans hpos₂, hok₂, new₂ ++ new₁, ?_, ?_, ?_⟩
  · rw [htrace₂, htrace₁, List.append_assoc]
  · intro e he
    rcases List.mem_append.mp he with he | he
    · exact (hbuf₁ ▸ hsafe₂ e he).nest (by omega)
    · exact (hsafe₁ e he).mono (by omega)
  · rw [created, List.countP_append, ← created, ← created]
    omega

/-- Credit may be forfeited. -/
lemma forfeit (h : Spent depth k r r₁) (hjk : j ≤ k) : Spent depth j r r₁ := by
  obtain ⟨hbuf, hpos, hok, new, htrace, hsafe, hcount⟩ := h
  exact ⟨hbuf, hpos, hok, new, htrace, hsafe, by omega⟩

/-- Creating an object uses up one credit. -/
lemma create (h : Spent depth (k + 1) r r₁) : Spent depth k r (r₁.log .create) := by
  obtain ⟨hbuf, hpos, hok, new, htrace, hsafe, hcount⟩ := h
  refine ⟨hbuf, hpos, hok, .create :: new, congrArg (Event.create :: ·) htrace, ?_, ?_⟩
  · rintro e he
    rcases List.mem_cons.mp he with rfl | he
    · trivial
    · exact hsafe e he
  · rw [created, List.countP_cons_of_pos (by rfl), ← created]
    exact Nat.le_trans (by omega) hcount

/-- Setting the error flag costs nothing. -/
lemma fail (h : Spent depth k r r₁) : Spent depth k r r₁.fail :=
  ⟨h.buf, h.pos_le, h.ok, h.trace⟩

/-- Entering a call at its own depth costs nothing. -/
lemma enter (depth : ℕ) (hr : r.Ok) : Spent depth 0 r (r.log (.enter depth)) :=
  ⟨rfl, le_rfl, hr, [.enter depth], rfl, by simp [Event.Safe], by simp [created, Event.isCreate]⟩

/-- Consuming bytes that are there earns as many credits. -/
lemma consume (depth : ℕ) {n : ℕ} (hr : r.Ok) (hn : n ≤ r.rest.length) (cap : ℕ) :
    Spent depth n r (r.consume n cap) := by
  have hle : r.pos + n ≤ r.buf.len := by
    simp only [Reader.rest, List.length_drop] at hn
    unfold Reader.Ok Buffer.len at *
    omega
  have hpos : sizeAdd r.pos n = r.pos + n := sizeAdd_of_lt (lt_of_le_of_lt hle r.buf.size_lt)
  refine ⟨rfl, ?_, ?_, [.move (sizeAdd r.pos n), .copy r.pos n cap], rfl, ?_, ?_⟩
  · simp [Reader.consume, hpos]
  · simpa [Reader.consume, Reader.Ok, hpos] using hle
  · simp [Event.Safe, hpos, hle]
  · simp [created, Event.isCreate, Reader.consume, hpos]

/-- Fewer bytes are left afterwards, by at least the credit. -/
lemma left_le (h : Spent depth k r r₁) : r₁.buf.len - r₁.pos + k ≤ r.buf.len - r.pos := by
  obtain ⟨hbuf, hpos, hok, new, -, -, hcount⟩ := h
  unfold Reader.Ok at hok
  rw [hbuf] at hok ⊢
  omega

end Spent

/-! ## Reading -/

/-- The credit earned by a read: `n` when it succeeds. -/
def creditOf {α : Type} (n : ℕ) : Option α → ℕ
  | some _ => n
  | none => 0

/-- `r_bytes` stays inside the buffer. -/
lemma rBytes_spent (depth : ℕ) {r : Reader} (hr : r.Ok) (n : ℕ) :
    Spent depth (creditOf n (rBytes r n n).1) r (rBytes r n n).2 := by
  unfold rBytes
  split_ifs with hc
  · exact (Spent.refl depth hr).fail
  · obtain ⟨-, hn⟩ := not_or.mp hc
    rw [Reader.sizeSub_len_pos hr, not_lt] at hn
    exact Spent.consume depth hr hn n

/-- `r_u8` stays inside the buffer. -/
lemma rU8_spent (depth : ℕ) {r : Reader} (hr : r.Ok) :
    Spent depth (creditOf 1 (rU8 r).1) r (rU8 r).2 := by
  have h := rBytes_spent depth hr 1
  unfold rU8
  split <;> next heq => rwa [heq] at h

/-- `r_u32` stays inside the buffer. -/
lemma rU32_spent (depth : ℕ) {r : Reader} (hr : r.Ok) :
    Spent depth (creditOf 4 (rU32 r).1) r (rU32 r).2 := by
  have h := rBytes_spent depth hr 4
  unfold rU32
  split <;> next heq => rwa [heq] at h

/-- `r_u64` stays inside the buffer. -/
lemma rU64_spent (depth : ℕ) {r : Reader} (hr : r.Ok) :
    Spent depth (creditOf 8 (rU64 r).1) r (rU64 r).2 := by
  have h := rBytes_spent depth hr 8
  unfold rU64
  split <;> next heq => rwa [heq] at h

/-- The read of a string or data body stays inside the buffer. -/
lemma rBlob_spent (depth : ℕ) {r : Reader} (hr : r.Ok) (cap : ℕ → ℕ) :
    Spent depth (creditOf 4 (rBlob r cap).1) r (rBlob r cap).2 := by
  have h := rU32_spent depth hr
  unfold rBlob
  split
  · next heq =>
    rw [heq] at h
    exact h.fail
  · next len r₁ heq =>
    rw [heq] at h
    split_ifs with hn
    · exact (h.forfeit (Nat.zero_le _)).fail
    · rw [Reader.sizeSub_len_pos h.ok, not_lt] at hn
      exact (h.trans (Spent.consume depth h.ok hn (cap len))).forfeit (Nat.le_add_right 4 len)

/-- The read of a key stays inside the buffer. -/
lemma rKey_spent (depth : ℕ) {r : Reader} (hr : r.Ok) :
    Spent depth (creditOf 4 (rKey r).1) r (rKey r).2 := by
  have h := rU32_spent depth hr
  unfold rKey
  split
  · next heq =>
    rw [heq] at h
    exact h
  · next klen r₁ heq =>
    rw [heq] at h
    split_ifs with hn hwrap
    · exact h.forfeit (Nat.zero_le _)
    all_goals
      rw [Reader.sizeSub_len_pos h.ok, not_lt] at hn
      have hread := h.trans (Spent.consume depth h.ok hn (toUint32 (klen + 1)))
    · exact hread.forfeit (Nat.zero_le _)
    · exact hread.forfeit (Nat.le_add_right 4 klen)

/-! ## Decoding -/

/-- A decoding step ends and is paid for, on any reader with fewer than `limit` bytes left. -/
def Bounded {α : Type} (depth limit : ℕ) (dec : Reader → Decoded α) : Prop :=
  ∀ r, r.Ok → r.buf.len - r.pos < limit → ∃ res r', dec r = some (res, r') ∧ Spent depth 0 r r'

section

variable {dec : Reader → Decoded XpcObject} {depth limit : ℕ}

/-- The loop over items ends and is paid for.

**Proof sketch.** Induction on the count: an item that fails ends the loop, and one that succeeds
leaves a reader with no more bytes than before. -/
lemma decodeItems_bounded (hdec : Bounded depth limit dec) (count : ℕ) (xs : List XpcObject) :
    Bounded depth limit (decodeItems dec count xs) := by
  induction count generalizing xs with
  | zero => exact fun r hr _ => ⟨_, r, rfl, Spent.refl depth hr⟩
  | succ count ih =>
    intro r hr hlimit
    obtain ⟨res, r₁, hv, hspent⟩ := hdec r hr hlimit
    cases res with
    | none => exact ⟨none, r₁, by simp [decodeItems, hv], hspent⟩
    | some v =>
      have hleft := hspent.left_le
      obtain ⟨res, r₂, hloop, hspent'⟩ := ih (xs ++ [v]) r₁ hspent.ok (by omega)
      exact ⟨res, r₂, by simp [decodeItems, hv, hloop], hspent.trans hspent'⟩

/-- The loop over entries ends and is paid for. -/
lemma decodeKvs_bounded (hdec : Bounded depth limit dec) (count : ℕ) (es : XpcKvs) :
    Bounded depth limit (decodeKvs dec count es) := by
  induction count generalizing es with
  | zero => exact fun r hr _ => ⟨_, r, rfl, Spent.refl depth hr⟩
  | succ count ih =>
    intro r hr hlimit
    have hkey := rKey_spent depth hr
    cases hb : rKey r with
    | mk res r₁ =>
      rw [hb] at hkey
      replace hkey : Spent depth 0 r r₁ := hkey.forfeit (Nat.zero_le _)
      cases res with
      | none => exact ⟨none, r₁, by simp [decodeKvs, hb], hkey⟩
      | some key =>
        have hleft := hkey.left_le
        obtain ⟨res, r₂, hv, hspent⟩ := hdec r₁ hkey.ok (by omega)
        have hboth := hkey.trans hspent
        cases res with
        | none => exact ⟨none, r₂, by simp [decodeKvs, hb, hv], hboth⟩
        | some v =>
          have hleft' := hboth.left_le
          obtain ⟨res, r₃, hloop, hspent'⟩ :=
            ih (xpcDictionarySetValue es (CString.ofBytes key) v) r₂ hspent.ok (by omega)
          exact ⟨res, r₃, by simp [decodeKvs, hb, hv, hloop], hboth.trans hspent'⟩

/-- A leaf whose tag byte is paid ends and is paid for. -/
private lemma decodeLeaf_spent {α : Type} {r r₁ : Reader} (f : α → XpcObject)
    (h : Spent depth 1 r r₁) {n : ℕ} {res : Option α × Reader}
    (hres : Spent depth (creditOf n res.1) r₁ res.2) :
    ∃ out r', decodeLeaf f res = some (out, r') ∧ Spent depth 0 r r' := by
  obtain ⟨v, r₂⟩ := res
  have hboth := h.trans hres
  cases v with
  | none => exact ⟨none, r₂, rfl, hboth.forfeit (Nat.zero_le _)⟩
  | some v => exact ⟨some (f v), _, rfl, (hboth.forfeit (Nat.le_add_right 1 n)).create⟩

/-- A container whose tag byte is paid ends and is paid for, if its loop is as a nested call. -/
private lemma decodeContainer_spent {α : Type} {r r₁ : Reader} (f : α → XpcObject)
    {loop : ℕ → Reader → Decoded α} (hloop : ∀ count, Bounded (depth + 1) limit (loop count))
    (h : Spent depth 1 r r₁) (hlimit : r₁.buf.len - r₁.pos < limit) :
    ∃ out r', decodeContainer f loop r₁ = some (out, r') ∧ Spent depth 0 r r' := by
  have hcount := rU32_spent depth h.ok
  unfold decodeContainer
  cases hb : rU32 r₁ with
  | mk res r₂ =>
    rw [hb] at hcount
    cases res with
    | none => exact ⟨none, r₂, rfl, (h.trans hcount).forfeit (Nat.zero_le _)⟩
    | some count =>
      replace hcount : Spent depth 4 r₁ r₂ := hcount
      have hleft := hcount.left_le
      have hhead : Spent depth 4 r (r₂.log .create) := (h.trans hcount).create
      obtain ⟨res, r₃, hv, hspent⟩ := hloop count (r₂.log .create) hhead.ok (by
        simp only [Reader.log]; omega)
      exact ⟨res.map f, r₃, by simp [hv], (hhead.nest hspent).forfeit (Nat.zero_le _)⟩

/-- The body of a value whose tag byte is paid ends and is paid for. -/
lemma decodeBody_spent (hdec : Bounded (depth + 1) limit dec) (t : WireTag) {r r₁ : Reader}
    (h : Spent depth 1 r r₁) (hlimit : r₁.buf.len - r₁.pos < limit) :
    ∃ out r', decodeBody dec t r₁ = some (out, r') ∧ Spent depth 0 r r' := by
  cases t with
  | null => exact ⟨_, _, rfl, h.create⟩
  | bool => exact decodeLeaf_spent _ h (rU8_spent depth h.ok)
  | int64 => exact decodeLeaf_spent _ h (rU64_spent depth h.ok)
  | uint64 => exact decodeLeaf_spent _ h (rU64_spent depth h.ok)
  | double => exact decodeLeaf_spent _ h (rU64_spent depth h.ok)
  | string => exact decodeLeaf_spent _ h (rBlob_spent depth h.ok _)
  | data => exact decodeLeaf_spent _ h (rBlob_spent depth h.ok _)
  | array => exact decodeContainer_spent _ (fun count => decodeItems_bounded hdec count []) h hlimit
  | dict => exact decodeContainer_spent _ (fun count => decodeKvs_bounded hdec count []) h hlimit

end

/-- **Decoding ends**, within any limit above the number of bytes left, and everything it does is
paid for by bytes it consumes.

**Proof sketch.** Induction on the limit. The tag byte pays for the object of this call, and it
leaves fewer bytes to the nested calls than the limit they are given. -/
theorem decode_spent (limit depth : ℕ) : Bounded depth limit (decode limit depth) := by
  induction limit generalizing depth with
  | zero => exact fun r _ hlimit => absurd hlimit (Nat.not_lt_zero _)
  | succ limit ih =>
    intro r hr hlimit
    have henter := Spent.enter depth hr
    have htag := rU8_spent depth henter.ok
    rw [decode]
    cases hb : rU8 (r.log (.enter depth)) with
    | mk res r₁ =>
      rw [hb] at htag
      have hboth := henter.trans htag
      cases res with
      | none => exact ⟨none, r₁, rfl, hboth⟩
      | some tag =>
        cases ht : WireTag.ofByte tag with
        | none => exact ⟨none, r₁.fail, by simp [ht], (hboth.forfeit (Nat.zero_le _)).fail⟩
        | some t =>
          have hleft := hboth.left_le
          simp only [ht]
          exact decodeBody_spent (ih (depth + 1)) t hboth (by simp [creditOf] at hleft; omega)

/-! ## The limit does not matter -/

/-- `dec'` has the outcomes of `dec`, and possibly more. -/
private def Extends {α : Type} (dec dec' : Reader → Decoded α) : Prop :=
  ∀ r res, dec r = some res → dec' r = some res

section

variable {dec dec' : Reader → Decoded XpcObject}

/-- The loop over items has the outcomes its decoder allows. -/
private lemma decodeItems_extends (h : Extends dec dec') (count : ℕ) (xs : List XpcObject) :
    Extends (decodeItems dec count xs) (decodeItems dec' count xs) := by
  induction count generalizing xs with
  | zero => exact fun r res hres => hres
  | succ count ih =>
    intro r res hres
    rw [decodeItems] at hres ⊢
    split at hres
    · cases hres
    · next heq => simpa [h _ _ heq] using hres
    · next v r₁ heq =>
      rw [h _ _ heq]
      exact ih _ _ _ hres

/-- The loop over entries has the outcomes its decoder allows. -/
private lemma decodeKvs_extends (h : Extends dec dec') (count : ℕ) (es : XpcKvs) :
    Extends (decodeKvs dec count es) (decodeKvs dec' count es) := by
  induction count generalizing es with
  | zero => exact fun r res hres => hres
  | succ count ih =>
    intro r res hres
    rw [decodeKvs] at hres ⊢
    split at hres
    · exact hres
    · next key r₁ hkey =>
      split at hres
      · cases hres
      · next heq => simpa [h _ _ heq] using hres
      · next v r₂ heq =>
        rw [h _ _ heq]
        exact ih _ _ _ hres

/-- A container has the outcomes its loop allows. -/
private lemma decodeContainer_extends {α : Type} (f : α → XpcObject)
    {loop loop' : ℕ → Reader → Decoded α} (h : ∀ count, Extends (loop count) (loop' count)) :
    Extends (decodeContainer f loop) (decodeContainer f loop') := by
  intro r res hres
  unfold decodeContainer at hres ⊢
  split at hres
  · exact hres
  · next count r₁ heq =>
    obtain ⟨res', hloop, rfl⟩ := Option.map_eq_some_iff.mp hres
    rw [h count _ _ hloop]
    rfl

/-- The body of a value has the outcomes the recursive call allows. -/
private lemma decodeBody_extends (h : Extends dec dec') (t : WireTag) :
    Extends (decodeBody dec t) (decodeBody dec' t) := by
  cases t with
  | array => exact decodeContainer_extends _ fun count => decodeItems_extends h count []
  | dict => exact decodeContainer_extends _ fun count => decodeKvs_extends h count []
  | _ => exact fun r res hres => hres

end

/-- A higher limit does not change the outcome.

**Proof sketch.** Induction on the lower limit; every part of the decoder has at least the
outcomes that its recursive calls have. -/
theorem decode_mono {limit limit' : ℕ} (hle : limit ≤ limit') (depth : ℕ) (r : Reader)
    {res : Option XpcObject × Reader} (h : decode limit depth r = some res) :
    decode limit' depth r = some res := by
  induction limit generalizing limit' depth r res with
  | zero => cases h
  | succ limit ih =>
    obtain ⟨limit', rfl⟩ : ∃ m, limit' = m + 1 := ⟨limit' - 1, by omega⟩
    rw [decode] at h ⊢
    split at h
    · exact h
    · next tag r₁ htag =>
      split at h
      · next ht => simpa [ht] using h
      · next t ht =>
        exact decodeBody_extends (fun r res hres => ih (by omega) (depth + 1) r hres) t r₁ res h

end Asteros.Xpc
