import Mathlib.Data.List.Basic
import Mathlib.Tactic.Linarith

set_option autoImplicit false

/-!
# Base64

The standard alphabet, the sextets of a byte list, and a decoder that skips every character
outside the alphabet. Decoding depends on the alphabet characters of the text alone
(`decodeFrom_eq`), so line breaks and padding in any place do not matter.

## Main definitions

* `alphabet`, `sextet` — the characters and their values.
* `sextets` — the values that encode a byte list.
* `decode` — the skipping decoder.

## Main results

* `decode_of_sextets` — a text whose alphabet characters are the sextets of `bs` decodes to `bs`.
-/

namespace Base64

/-- The character that stands for a sextet. -/
def alphabet (v : ℕ) : UInt8 :=
  if v < 26 then UInt8.ofNat (65 + v)
  else if v < 52 then UInt8.ofNat (71 + v)
  else if v < 62 then UInt8.ofNat (v - 4)
  else if v = 62 then 43
  else 47

/-- The value of a character, if it is in the alphabet. -/
def sextet (c : UInt8) : Option ℕ :=
  if 65 ≤ c ∧ c ≤ 90 then some (c.toNat - 65)
  else if 97 ≤ c ∧ c ≤ 122 then some (c.toNat - 97 + 26)
  else if 48 ≤ c ∧ c ≤ 57 then some (c.toNat - 48 + 52)
  else if c = 43 then some 62
  else if c = 47 then some 63
  else none

/-- A character stands for its value. -/
@[simp] lemma sextet_alphabet {v : ℕ} (h : v < 64) : sextet (alphabet v) = some v := by
  have hall : ∀ v : Fin 64, sextet (alphabet v) = some v.val := by decide
  exact hall ⟨v, h⟩

/-- The sextets of a group of three bytes. -/
def group (b₀ b₁ b₂ : UInt8) : ℕ := b₀.toNat * 2 ^ 16 + b₁.toNat * 2 ^ 8 + b₂.toNat

/-- The sextet of a group that starts `k` bits from its low end. -/
def sextetAt (v k : ℕ) : ℕ := v / 2 ^ k % 64

/-- The sextets of a byte list: four for three bytes, three or two for what remains. -/
def sextets : List UInt8 → List ℕ
  | b₀ :: b₁ :: b₂ :: bs =>
    sextetAt (group b₀ b₁ b₂) 18 :: sextetAt (group b₀ b₁ b₂) 12 ::
      sextetAt (group b₀ b₁ b₂) 6 :: sextetAt (group b₀ b₁ b₂) 0 :: sextets bs
  | [b₀, b₁] =>
    [sextetAt (group b₀ b₁ 0) 18, sextetAt (group b₀ b₁ 0) 12, sextetAt (group b₀ b₁ 0) 6]
  | [b₀] => [sextetAt (group b₀ 0 0) 18, sextetAt (group b₀ 0 0) 12]
  | [] => []

/-- The first byte of a quadruple of sextets. -/
def byte₀ (v₀ v₁ : ℕ) : UInt8 := UInt8.ofNat (v₀ * 4 + v₁ / 16)

/-- The second byte of a quadruple of sextets. -/
def byte₁ (v₁ v₂ : ℕ) : UInt8 := UInt8.ofNat (v₁ * 16 + v₂ / 4)

/-- The third byte of a quadruple of sextets. -/
def byte₂ (v₂ v₃ : ℕ) : UInt8 := UInt8.ofNat (v₂ * 64 + v₃)

/-- The bytes of a list of sextets, by fours; a single sextet at the end is dropped. -/
def decodeSextets : List ℕ → List UInt8
  | v₀ :: v₁ :: v₂ :: v₃ :: vs => byte₀ v₀ v₁ :: byte₁ v₁ v₂ :: byte₂ v₂ v₃ :: decodeSextets vs
  | [v₀, v₁, v₂] => [byte₀ v₀ v₁, byte₁ v₁ v₂]
  | [v₀, v₁] => [byte₀ v₀ v₁]
  | _ => []

/-- The decoder, with the sextets collected since the last complete quadruple. -/
def decodeFrom (vals : List ℕ) : List UInt8 → List UInt8
  | [] => decodeSextets vals
  | c :: text =>
    match sextet c with
    | none => decodeFrom vals text
    | some v =>
      match vals with
      | [v₀, v₁, v₂] => byte₀ v₀ v₁ :: byte₁ v₁ v₂ :: byte₂ v₂ v :: decodeFrom [] text
      | _ => decodeFrom (vals ++ [v]) text

/-- The decoder. -/
def decode (text : List UInt8) : List UInt8 := decodeFrom [] text

/-- A byte is what its value makes. -/
private lemma eq_ofNat {b : UInt8} {n : ℕ} (h : n % 256 = b.toNat) : UInt8.ofNat n = b :=
  UInt8.toNat_inj.mp (by rw [UInt8.toNat_ofNat', ← h])

/-- The first byte of a group comes back. -/
private lemma byte₀_group (b₀ b₁ b₂ : UInt8) :
    byte₀ (sextetAt (group b₀ b₁ b₂) 18) (sextetAt (group b₀ b₁ b₂) 12) = b₀ := by
  have h₀ := b₀.toNat_lt
  have h₁ := b₁.toNat_lt
  have h₂ := b₂.toNat_lt
  apply eq_ofNat
  unfold sextetAt group
  omega

/-- The second byte of a group comes back. -/
private lemma byte₁_group (b₀ b₁ b₂ : UInt8) :
    byte₁ (sextetAt (group b₀ b₁ b₂) 12) (sextetAt (group b₀ b₁ b₂) 6) = b₁ := by
  have h₀ := b₀.toNat_lt
  have h₁ := b₁.toNat_lt
  have h₂ := b₂.toNat_lt
  apply eq_ofNat
  unfold sextetAt group
  omega

/-- The third byte of a group comes back. -/
private lemma byte₂_group (b₀ b₁ b₂ : UInt8) :
    byte₂ (sextetAt (group b₀ b₁ b₂) 6) (sextetAt (group b₀ b₁ b₂) 0) = b₂ := by
  have h₀ := b₀.toNat_lt
  have h₁ := b₁.toNat_lt
  have h₂ := b₂.toNat_lt
  apply eq_ofNat
  unfold sextetAt group
  omega

/-- The sextets of a byte list stand for it. -/
lemma decodeSextets_sextets (bs : List UInt8) : decodeSextets (sextets bs) = bs := by
  induction bs using sextets.induct with
  | case1 b₀ b₁ b₂ bs ih => simp only [sextets, decodeSextets, byte₀_group, byte₁_group,
      byte₂_group, ih]
  | case2 b₀ b₁ => simp only [sextets, decodeSextets, byte₀_group, byte₁_group]
  | case3 b₀ => simp only [sextets, decodeSextets, byte₀_group]
  | case4 => rfl

/-- The decoder sees the alphabet characters of the text alone. -/
lemma decodeFrom_eq (vals : List ℕ) (h : vals.length ≤ 3) (text : List UInt8) :
    decodeFrom vals text = decodeSextets (vals ++ text.filterMap sextet) := by
  induction text generalizing vals with
  | nil => simp [decodeFrom]
  | cons c text ih =>
    rw [decodeFrom]
    cases hc : sextet c with
    | none => rw [List.filterMap_cons_none hc]; exact ih vals h
    | some v =>
      rw [List.filterMap_cons_some hc]
      match vals, h with
      | [], _ => exact ih [v] (by simp)
      | [v₀], _ => exact ih [v₀, v] (by simp)
      | [v₀, v₁], _ => exact ih [v₀, v₁, v] (by simp)
      | [v₀, v₁, v₂], _ =>
        simp only [ih [] (by decide), List.cons_append, List.nil_append, decodeSextets]

/-- **A text whose alphabet characters are the sextets of `bs` decodes to `bs`**, whatever else
it contains. -/
theorem decode_of_sextets {text bs : List UInt8} (h : text.filterMap sextet = sextets bs) :
    decode text = bs := by
  rw [decode, decodeFrom_eq [] (by decide), List.nil_append, h, decodeSextets_sextets]

end Base64
