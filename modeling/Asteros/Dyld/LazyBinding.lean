import Asteros.Dyld.Fixup
import Mathlib.Data.List.Forall2

set_option autoImplicit false

/-!
# Lazy binding and eager binding

A lazy-bind stream is made of records, one for each symbol: opcodes that set variables, one that
binds, more that set variables, and the end of the record, which resets them. So the interpreter is
in its initial state at the start of every record, whether it comes there from the record before or
is entered there.

## Main definitions

* `SetOp`, `Record` — opcodes and records, with their bytes.
* `Record.SelfContained` — a record that needs no variables from before it.
* `bindTarget` — the slot and the value that a record binds.
* `LazyStream` — a stream of records in memory whose slots are apart.
* `lazyCalls` — calls of `dyld_bind_lazy_symbol`.

## Main results

* `lazy_agrees` — the calls and the run over the whole stream agree.
-/

namespace Asteros.Dyld

open Asteros.Libc ByteMemory

/-! ## Records -/

/-- A number of a stream: the high bit is set in all of its bytes but the last. -/
structure Groups where
  bytes : List UInt8
  terminated : Leb128.Terminated bytes

/-- An opcode that sets variables, with its immediate and its operand. -/
inductive SetOp where
  | ordinalImm (imm : Fin 16)
  | ordinalUleb (imm : Fin 16) (n : Groups)
  | specialImm (imm : Fin 16)
  | symbol (imm : Fin 16) (name : CString)
  | typeImm (imm : Fin 16)
  | addendSleb (imm : Fin 16) (n : Groups)
  | segmentAndOffset (imm : Fin 16) (n : Groups)
  | addAddr (imm : Fin 16) (n : Groups)

/-- The byte of an opcode with its immediate. -/
def opcodeByte (k : ℕ) (imm : Fin 16) : UInt8 := UInt8.ofNat (16 * k + imm)

namespace SetOp

/-- The bytes of an opcode. -/
def bytes : SetOp → List UInt8
  | .ordinalImm imm => [opcodeByte 1 imm]
  | .ordinalUleb imm n => opcodeByte 2 imm :: n.bytes
  | .specialImm imm => [opcodeByte 3 imm]
  | .symbol imm name => opcodeByte 4 imm :: (name.bytes ++ [0])
  | .typeImm imm => [opcodeByte 5 imm]
  | .addendSleb imm n => opcodeByte 6 imm :: n.bytes
  | .segmentAndOffset imm n => opcodeByte 7 imm :: n.bytes
  | .addAddr imm n => opcodeByte 8 imm :: n.bytes

/-- The number that `read_sleb128` makes of groups. -/
def slebValue (bs : List UInt8) : ℕ :=
  let bit := 7 * bs.length
  if bit < 64 ∧ bs.getLastD 0 &&& 0x40 ≠ 0 then
    Leb128.gather 64 0 0 bs ||| (2 ^ 64 - 2 ^ bit)
  else Leb128.gather 64 0 0 bs

/-- The variables after an opcode whose operand is at `p`. -/
def apply (p : ℕ) (st : BindState) : SetOp → BindState
  | .ordinalImm imm => { st with dylibOrdinal := imm.val }
  | .ordinalUleb _ n =>
    { st with dylibOrdinal := (BitVec.ofNat 32 (Leb128.gather 64 0 0 n.bytes)).toInt }
  | .specialImm imm =>
    { st with dylibOrdinal := if imm.val = 0 then 0 else (BitVec.ofNat 8 (0xf0 ||| imm.val)).toInt }
  | .symbol _ _ => { st with symbol := p }
  | .typeImm imm => { st with type := imm }
  | .addendSleb _ n => { st with addend := slebValue n.bytes }
  | .segmentAndOffset imm n =>
    { st with segIndex := imm, segOffset := Leb128.gather 64 0 0 n.bytes }
  | .addAddr _ n => { st with segOffset := sizeAdd st.segOffset (Leb128.gather 64 0 0 n.bytes) }

/-- It sets the segment and the offset. -/
def setsSegment : SetOp → Bool
  | .segmentAndOffset _ _ => true
  | _ => false

/-- It sets the ordinal. -/
def setsOrdinal : SetOp → Bool
  | .ordinalImm _ | .ordinalUleb _ _ | .specialImm _ => true
  | _ => false

/-- It sets the symbol. -/
def setsSymbol : SetOp → Bool
  | .symbol _ _ => true
  | _ => false

/-- The name after an opcode. -/
def nameAfter (name : Option CString) : SetOp → Option CString
  | .symbol _ name => some name
  | _ => name

end SetOp

/-- The bytes of some opcodes. -/
def opsBytes (ops : List SetOp) : List UInt8 := ops.flatMap SetOp.bytes

/-- The variables after some opcodes at `p`. -/
def applyOps : List SetOp → ℕ → BindState → BindState
  | [], _, st => st
  | op :: ops, p, st => applyOps ops (p + op.bytes.length) (op.apply (p + 1) st)

/-- A record: the opcodes before and after the one `DO_BIND`, and the immediates of that one and of
the `DONE` at the end. -/
structure Record where
  before : List SetOp
  bindImm : Fin 16
  after : List SetOp
  doneImm : Fin 16

namespace Record

/-- The bytes of a record. -/
def bytes (r : Record) : List UInt8 :=
  opsBytes r.before ++ (opcodeByte 9 r.bindImm :: (opsBytes r.after ++ [opcodeByte 0 r.doneImm]))

/-- The record is self-contained: it sets its own segment and offset, ordinal and symbol. -/
def SelfContained (r : Record) : Prop :=
  r.before.any SetOp.setsSegment = true ∧ r.before.any SetOp.setsOrdinal = true ∧
    r.before.any SetOp.setsSymbol = true

/-- The variables with which a record at `p` binds. -/
def state (r : Record) (p : ℕ) : BindState := applyOps r.before p BindState.initial

/-- The name it binds. -/
def name (r : Record) : Option CString := r.before.foldl SetOp.nameAfter none

end Record

/-- The bytes of a stream. -/
def streamBytes (rs : List Record) : List UInt8 := rs.flatMap Record.bytes

/-- The records of a stream with their addresses. -/
def placed : ℕ → List Record → List (ℕ × Record)
  | _, [] => []
  | p, r :: rs => (p, r) :: placed (p + r.bytes.length) rs

/-! ## What a record binds -/

/-- The slot and the value of a bind with these variables. -/
def bindTarget (g : Linked) (v : View) (rounds : ℕ) (im : Image) (st : BindState) :
    Except Stop (ℕ × ℕ) :=
  if st.type ≠ bindTypePointer then .error .panic
  else
    match im.segs[st.segIndex]? with
    | none => .error .panic
    | some seg => do
      let symbol ← symbolAt v st.symbol
      let resolved ← resolveSymbol g v rounds im st.dylibOrdinal symbol
      if resolved = 0 then .error .panic
      else .ok (imageAddr im (sizeAdd seg.vmaddr st.segOffset), sizeAdd resolved st.addend)

/-- The slot that a record names, if there is its segment. -/
def recordSlot (im : Image) (c : ℕ × Record) : Option ℕ :=
  (im.segs[(c.2.state c.1).segIndex]?).map fun seg =>
    imageAddr im (sizeAdd seg.vmaddr (c.2.state c.1).segOffset)

/-- The address belongs to no slot of the records. -/
def OutsideSlots (im : Image) (cs : List (ℕ × Record)) (a : ℕ) : Prop :=
  ∀ c ∈ cs, ∀ slot, recordSlot im c = some slot → a < slot ∨ slot + pointerSize ≤ a

/-- **A lazy-bind stream of self-contained records** in memory: the slots are apart from each other and
from the stream, and what the slots hold does not change what a symbol resolves to. -/
structure LazyStream (g : Linked) (rounds : ℕ) (im : Image) (m : ℕ → UInt8)
    (rs : List Record) : Prop where
  selfContained : ∀ r ∈ rs, r.SelfContained
  start : im.lazyBind.start ≠ 0
  size : (streamBytes rs).length < 2 ^ 32
  fend : im.lazyBind.fend = im.lazyBind.start + (streamBytes rs).length
  fits : im.lazyBind.fend < 2 ^ 64
  bytes : load m im.lazyBind.start (streamBytes rs).length = streamBytes rs
  apart : ∀ c ∈ placed im.lazyBind.start rs, ∀ c' ∈ placed im.lazyBind.start rs, c ≠ c' →
    ∀ slot slot', recordSlot im c = some slot → recordSlot im c' = some slot' →
      Apart pointerSize slot slot'
  stream : ∀ a, im.lazyBind.start ≤ a → a < im.lazyBind.fend →
    OutsideSlots im (placed im.lazyBind.start rs) a
  resolves : ∀ m' : ℕ → UInt8, (∀ a, OutsideSlots im (placed im.lazyBind.start rs) a → m' a = m a) →
    ∀ c ∈ placed im.lazyBind.start rs,
      resolveSymbol g (fun a => .ok (m' a)) rounds im (c.2.state c.1).dylibOrdinal c.2.name =
        resolveSymbol g (fun a => .ok (m a)) rounds im (c.2.state c.1).dylibOrdinal c.2.name

/-- Calls of `dyld_bind_lazy_symbol` at some offsets: the values they return. -/
def lazyCalls (g : Linked) (rounds : ℕ) (im : Image) : List ℕ → Linker (List ℕ)
  | [] => pure []
  | off :: offs => do
    let value ← dyldBindLazySymbol g rounds im off
    let values ← lazyCalls g rounds im offs
    pure (value :: values)

/-! ## The interpreter on a record -/

/-- A computation that goes on after a result. -/
lemma linker_bind_ok {α β : Type} {x : Linker α} {f : α → Linker β} {w w' : Memory} {a : α}
    (h : x w = .ok a w') : (x >>= f) w = f a w' := by
  have hbind : (x >>= f) w = EStateM.bind x f w := rfl
  rw [hbind, EStateM.bind, h]

/-- A computation that stopped. -/
lemma linker_bind_error {α β : Type} {x : Linker α} {f : α → Linker β} {w w' : Memory} {e : Stop}
    (h : x w = .error e w') : (x >>= f) w = .error e w' := by
  have hbind : (x >>= f) w = EStateM.bind x f w := rfl
  rw [hbind, EStateM.bind, h]

/-- A read that gives a result. -/
lemma reading_ok {α : Type} {f : View → Except Stop α} {w : Memory} {a : α}
    (h : f w.view = .ok a) : reading f w = .ok a w := by
  rw [reading, h]

/-- An opcode is taken apart. -/
lemma opcodeByte_parts : ∀ (k : Fin 16) (imm : Fin 16),
    (opcodeByte k imm &&& 0xf0).toNat = 16 * k ∧ (opcodeByte k imm &&& 0x0f).toNat = imm := by
  decide +kernel

/-- The loop of the reader of signed numbers gathers the groups as well. -/
lemma readSlebLoop_reads {v : View} {bs : List UInt8} (hbs : Leb128.Terminated bs) {p left : ℕ}
    (hp : Reads v p bs) (hleft : bs.length ≤ left) (bit result : ℕ) :
    readSlebLoop v left p bit result =
      .ok (Leb128.gather 64 bit result bs, p + bs.length, bit + 7 * bs.length, bs.getLastD 0) := by
  induction bs generalizing p left bit result with
  | nil => exact hbs.elim
  | cons b bs ih =>
    obtain ⟨left, rfl⟩ : ∃ k, left = k + 1 := ⟨left - 1, by rw [List.length_cons] at hleft; omega⟩
    rw [readSlebLoop, hp.cons.1]
    cases bs with
    | nil =>
      have hlast : ¬(b &&& 0x80 ≠ 0) := not_not.mpr hbs
      simp only [Except.bind, bind, if_neg hlast]
      rfl
    | cons b' bs =>
      have hnext := ih hbs.2 hp.cons.2 (Nat.le_of_succ_le_succ hleft) (bit + 7)
        (result ||| ((b &&& 0x7f).toNat <<< (bit % 64)) % 2 ^ 64)
      simp only [Except.bind, bind, if_pos hbs.1]
      have hcursor : p + 1 + (b' :: bs).length = p + (b :: b' :: bs).length := by
        simp only [List.length_cons]
        omega
      have hbits : bit + 7 + 7 * (b' :: bs).length = bit + 7 * (b :: b' :: bs).length := by
        simp only [List.length_cons]
        omega
      rw [hnext, hcursor, hbits]
      rfl

/-- A signed number before the end is read. -/
lemma readSleb128_reads {v : View} {bs : List UInt8} (hbs : Leb128.Terminated bs) {p fend : ℕ}
    (hp : Reads v p bs) (hfend : p + bs.length ≤ fend) :
    readSleb128 v p fend = .ok (SetOp.slebValue bs, p + bs.length) := by
  rw [readSleb128, readSlebLoop_reads hbs hp (by omega)]
  simp only [Except.bind, bind, SetOp.slebValue, Nat.zero_add]
  split_ifs
  · rfl
  · rfl

/-- The end of a name is its NUL. -/
lemma symbolEnd_reads {m : ℕ → UInt8} {s : List UInt8} (hs : 0 ∉ s) {p left : ℕ}
    (hp : Reads (fun a => .ok (m a)) p (s ++ [0])) (hleft : s.length < left) :
    symbolEnd m left p = p + s.length := by
  induction s generalizing p left with
  | nil =>
    obtain ⟨left, rfl⟩ : ∃ k, left = k + 1 := ⟨left - 1, by omega⟩
    rw [symbolEnd, if_pos (Except.ok.inj hp.cons.1)]
    rfl
  | cons b s ih =>
    obtain ⟨left, rfl⟩ : ∃ k, left = k + 1 := ⟨left - 1, by omega⟩
    rw [List.mem_cons, not_or] at hs
    rw [List.length_cons] at hleft
    have hbyte : m p = b := Except.ok.inj hp.cons.1
    rw [symbolEnd, hbyte, if_neg (Ne.symm hs.1), ih hs.2 hp.cons.2 (by omega), List.length_cons]
    omega

/-- **An opcode that sets variables is executed as it says**, and changes no memory. -/
lemma bindSet_eq {w : Memory} {fend p : ℕ} (op : SetOp) {operand : List UInt8} {byte : UInt8}
    (hbytes : op.bytes = byte :: operand) (hp : Reads w.view p operand)
    (hfend : p + operand.length ≤ fend) (st : BindState) :
    bindSet fend (byte &&& 0xf0).toNat (byte &&& 0x0f).toNat p st w =
      .ok (p + operand.length, op.apply p st) w := by
  cases op with
  | ordinalImm imm =>
    obtain ⟨rfl, rfl⟩ := List.cons.inj hbytes
    obtain ⟨hop, himm⟩ := opcodeByte_parts 1 imm
    rw [show (opcodeByte 1 imm &&& 0xf0).toNat = 16 from hop,
      show (opcodeByte 1 imm &&& 0x0f).toNat = imm from himm]
    rfl
  | ordinalUleb imm n =>
    obtain ⟨rfl, rfl⟩ := List.cons.inj hbytes
    obtain ⟨hop, himm⟩ := opcodeByte_parts 2 imm
    rw [show (opcodeByte 2 imm &&& 0xf0).toNat = 32 from hop,
      show (opcodeByte 2 imm &&& 0x0f).toNat = imm from himm]
    exact linker_bind_ok (reading_ok (f := fun v => readUleb128 v p fend)
      (readUleb128_reads n.terminated hp hfend))
  | specialImm imm =>
    obtain ⟨rfl, rfl⟩ := List.cons.inj hbytes
    obtain ⟨hop, himm⟩ := opcodeByte_parts 3 imm
    rw [show (opcodeByte 3 imm &&& 0xf0).toNat = 48 from hop,
      show (opcodeByte 3 imm &&& 0x0f).toNat = imm from himm]
    rfl
  | symbol imm name =>
    obtain ⟨rfl, rfl⟩ := List.cons.inj hbytes
    obtain ⟨hop, himm⟩ := opcodeByte_parts 4 imm
    rw [show (opcodeByte 4 imm &&& 0xf0).toNat = 64 from hop,
      show (opcodeByte 4 imm &&& 0x0f).toNat = imm from himm]
    rw [List.length_append, List.length_singleton] at hfend ⊢
    have hend : symbolEnd w (fend - p) p = p + name.bytes.length :=
      symbolEnd_reads name.nulFree hp (by omega)
    have hget : (get : Linker Memory) w = EStateM.Result.ok w w := rfl
    change (get >>= fun w => pure (symbolEnd w (fend - p) p + 1, { st with symbol := p }) :
      Linker (ℕ × BindState)) w = _
    rw [linker_bind_ok hget, hend]
    rfl
  | typeImm imm =>
    obtain ⟨rfl, rfl⟩ := List.cons.inj hbytes
    obtain ⟨hop, himm⟩ := opcodeByte_parts 5 imm
    rw [show (opcodeByte 5 imm &&& 0xf0).toNat = 80 from hop,
      show (opcodeByte 5 imm &&& 0x0f).toNat = imm from himm]
    rfl
  | addendSleb imm n =>
    obtain ⟨rfl, rfl⟩ := List.cons.inj hbytes
    obtain ⟨hop, himm⟩ := opcodeByte_parts 6 imm
    rw [show (opcodeByte 6 imm &&& 0xf0).toNat = 96 from hop,
      show (opcodeByte 6 imm &&& 0x0f).toNat = imm from himm]
    exact linker_bind_ok (reading_ok (f := fun v => readSleb128 v p fend)
      (readSleb128_reads n.terminated hp hfend))
  | segmentAndOffset imm n =>
    obtain ⟨rfl, rfl⟩ := List.cons.inj hbytes
    obtain ⟨hop, himm⟩ := opcodeByte_parts 7 imm
    rw [show (opcodeByte 7 imm &&& 0xf0).toNat = 112 from hop,
      show (opcodeByte 7 imm &&& 0x0f).toNat = imm from himm]
    exact linker_bind_ok (reading_ok (f := fun v => readUleb128 v p fend)
      (readUleb128_reads n.terminated hp hfend))
  | addAddr imm n =>
    obtain ⟨rfl, rfl⟩ := List.cons.inj hbytes
    obtain ⟨hop, himm⟩ := opcodeByte_parts 8 imm
    rw [show (opcodeByte 8 imm &&& 0xf0).toNat = 128 from hop,
      show (opcodeByte 8 imm &&& 0x0f).toNat = imm from himm]
    exact linker_bind_ok (reading_ok (f := fun v => readUleb128 v p fend)
      (readUleb128_reads n.terminated hp hfend))

/-- The first byte of an opcode that sets variables says so. -/
lemma SetOp.exists_bytes (op : SetOp) : ∃ byte operand, op.bytes = byte :: operand ∧
    (byte &&& 0xf0).toNat ≠ 0 ∧ ¬IsBind (byte &&& 0xf0).toNat := by
  have hset : ∀ (k : Fin 16) (imm : Fin 16), 1 ≤ k.val → k.val ≤ 8 →
      (opcodeByte k imm &&& 0xf0).toNat ≠ 0 ∧ ¬IsBind (opcodeByte k imm &&& 0xf0).toNat := by
    intro k imm hk hk'
    rw [(opcodeByte_parts k imm).1, IsBind]
    omega
  cases op with
  | ordinalImm imm => exact ⟨_, _, rfl, hset 1 imm (by decide) (by decide)⟩
  | ordinalUleb imm n => exact ⟨_, _, rfl, hset 2 imm (by decide) (by decide)⟩
  | specialImm imm => exact ⟨_, _, rfl, hset 3 imm (by decide) (by decide)⟩
  | symbol imm name => exact ⟨_, _, rfl, hset 4 imm (by decide) (by decide)⟩
  | typeImm imm => exact ⟨_, _, rfl, hset 5 imm (by decide) (by decide)⟩
  | addendSleb imm n => exact ⟨_, _, rfl, hset 6 imm (by decide) (by decide)⟩
  | segmentAndOffset imm n => exact ⟨_, _, rfl, hset 7 imm (by decide) (by decide)⟩
  | addAddr imm n => exact ⟨_, _, rfl, hset 8 imm (by decide) (by decide)⟩

section Run

variable (g : Linked) (rounds : ℕ) (im : Image) (fend : ℕ) (single : Bool) {w : Memory}

/-- The loop reads an opcode before the end. -/
lemma bindLoop_step {left p : ℕ} (hp : p < fend) (st : BindState) (result : ℕ) :
    bindLoop g rounds im fend single (left + 1) p st result w =
      (if (w p &&& 0xf0).toNat = 0x00 then
        bindLoop g rounds im fend single left (p + 1) BindState.initial result
      else if IsBind (w p &&& 0xf0).toNat then do
        let (count, skip, q) ← bindCount fend (w p &&& 0xf0).toNat (p + 1)
        let (q, st, result) ← bindSlots g rounds im fend (w p &&& 0xf0).toNat
          (w p &&& 0x0f).toNat skip count q st result
        if single then pure result else bindLoop g rounds im fend single left q st result
      else do
        let (q, st) ← bindSet fend (w p &&& 0xf0).toNat (w p &&& 0x0f).toNat (p + 1) st
        bindLoop g rounds im fend single left q st result) w := by
  rw [bindLoop, if_neg (not_le.mpr hp)]
  exact (linker_bind_ok (reading_ok (f := fun v => v p) rfl)).trans rfl

/-- Opcodes that set variables are executed one after another. -/
lemma bindLoop_ops {ops : List SetOp} {left p : ℕ} (hops : Reads w.view p (opsBytes ops))
    (hfend : p + (opsBytes ops).length ≤ fend) (hleft : fend ≤ p + left) (st : BindState)
    (result : ℕ) : ∃ left', fend ≤ p + (opsBytes ops).length + left' ∧
      bindLoop g rounds im fend single left p st result w =
        bindLoop g rounds im fend single left' (p + (opsBytes ops).length) (applyOps ops p st)
          result w := by
  induction ops generalizing left p st with
  | nil => exact ⟨left, hleft, rfl⟩
  | cons op ops ih =>
    obtain ⟨byte, operand, hbytes, hdone, hbind⟩ := op.exists_bytes
    have hcat : opsBytes (op :: ops) = op.bytes ++ opsBytes ops := rfl
    have hlen : op.bytes.length = operand.length + 1 := by rw [hbytes, List.length_cons]
    rw [hcat] at hops hfend ⊢
    rw [List.length_append] at hfend
    have hop := hops.left
    rw [hbytes] at hop
    have hbyte : w p = byte := Except.ok.inj hop.cons.1
    obtain ⟨left, rfl⟩ : ∃ k, left = k + 1 := ⟨left - 1, by omega⟩
    have hset := @bindSet_eq w fend (p + 1) op operand byte hbytes hop.cons.2 (by omega) st
    obtain ⟨left', hleft', hrest⟩ := @ih left (p + op.bytes.length) hops.right (by omega) (by omega)
      (op.apply (p + 1) st)
    refine ⟨left', by rw [List.length_append]; omega, ?_⟩
    rw [bindLoop_step g rounds im fend single (by omega), hbyte, if_neg hdone, if_neg hbind]
    refine (linker_bind_ok hset).trans ?_
    rw [show p + 1 + operand.length = p + op.bytes.length by omega]
    refine hrest.trans ?_
    rw [List.length_append, Nat.add_assoc]
    rfl

/-- One slot is bound. -/
lemma bindSlots_one {p : ℕ} {st : BindState} {result value : ℕ} {w' : Memory} (imm : ℕ)
    (h : bindSlot g rounds im st w = .ok value w') :
    bindSlots g rounds im fend 0x90 imm 0 1 p st result w =
      .ok (p, { st with segOffset := sizeAdd (sizeAdd st.segOffset 0) pointerSize }, value) w' := by
  rw [bindSlots, linker_bind_ok h]
  rfl

/-- The opcode that binds. -/
lemma bindLoop_bind {left p : ℕ} {imm : Fin 16} (hp : p < fend)
    (hbyte : w p = opcodeByte 9 imm) {st : BindState} {result value : ℕ} {w' : Memory}
    (h : bindSlot g rounds im st w = .ok value w') :
    bindLoop g rounds im fend single (left + 1) p st result w =
      if single then .ok value w'
      else bindLoop g rounds im fend single left (p + 1)
        { st with segOffset := sizeAdd (sizeAdd st.segOffset 0) pointerSize } value w' := by
  obtain ⟨hop, himm⟩ := opcodeByte_parts 9 imm
  have hop' : (opcodeByte 9 imm &&& 0xf0).toNat = 0x90 := hop
  rw [bindLoop_step g rounds im fend single hp, hbyte, hop', if_neg (by decide),
    if_pos (show IsBind 0x90 from Or.inl rfl)]
  have hcount : bindCount fend 0x90 (p + 1) w = EStateM.Result.ok (1, 0, p + 1) w := rfl
  refine (linker_bind_ok hcount).trans ?_
  refine (linker_bind_ok (bindSlots_one g rounds im fend _ h)).trans ?_
  dsimp only
  cases single with
  | true => rfl
  | false => rfl

/-- The opcode that binds, when it stops. -/
lemma bindLoop_bind_error {left p : ℕ} {imm : Fin 16} (hp : p < fend)
    (hbyte : w p = opcodeByte 9 imm) {st : BindState} {result : ℕ} {e : Stop} {w' : Memory}
    (h : bindSlot g rounds im st w = .error e w') :
    bindLoop g rounds im fend single (left + 1) p st result w = .error e w' := by
  obtain ⟨hop, himm⟩ := opcodeByte_parts 9 imm
  have hop' : (opcodeByte 9 imm &&& 0xf0).toNat = 0x90 := hop
  rw [bindLoop_step g rounds im fend single hp, hbyte, hop', if_neg (by decide),
    if_pos (show IsBind 0x90 from Or.inl rfl)]
  have hcount : bindCount fend 0x90 (p + 1) w = EStateM.Result.ok (1, 0, p + 1) w := rfl
  refine (linker_bind_ok hcount).trans ?_
  exact linker_bind_error (linker_bind_error h)

/-- The end of a record. -/
lemma bindLoop_done {left p : ℕ} {imm : Fin 16} (hp : p < fend)
    (hbyte : w p = opcodeByte 0 imm) (st : BindState) (result : ℕ) :
    bindLoop g rounds im fend single (left + 1) p st result w =
      bindLoop g rounds im fend single left (p + 1) BindState.initial result w := by
  have hop : (opcodeByte 0 imm &&& 0xf0).toNat = 0 := (opcodeByte_parts 0 imm).1
  rw [bindLoop_step g rounds im fend single hp, hbyte, hop, if_pos rfl]

/-- What a target is made of. -/
lemma bindTarget_ok {v : View} {st : BindState} {slot value : ℕ}
    (h : bindTarget g v rounds im st = .ok (slot, value)) :
    ∃ seg symbol resolved, st.type = bindTypePointer ∧ im.segs[st.segIndex]? = some seg ∧
      symbolAt v st.symbol = .ok symbol ∧
      resolveSymbol g v rounds im st.dylibOrdinal symbol = .ok resolved ∧ resolved ≠ 0 ∧
      slot = imageAddr im (sizeAdd seg.vmaddr st.segOffset) ∧ value = sizeAdd resolved st.addend := by
  unfold bindTarget at h
  split_ifs at h with htype
  split at h
  · cases h
  · next seg hseg =>
    cases hsymbol : symbolAt v st.symbol with
    | error e =>
      rw [hsymbol] at h
      cases h
    | ok symbol =>
      rw [hsymbol] at h
      change ((resolveSymbol g v rounds im st.dylibOrdinal symbol).bind fun resolved => _) = _ at h
      cases hresolve : resolveSymbol g v rounds im st.dylibOrdinal symbol with
      | error e =>
        rw [hresolve] at h
        cases h
      | ok resolved =>
        rw [hresolve] at h
        dsimp only [Except.bind] at h
        split_ifs at h with hzero
        obtain ⟨rfl, rfl⟩ := Prod.mk.inj (Except.ok.inj h)
        exact ⟨seg, symbol, resolved, not_not.mp htype, hseg, rfl, hresolve, hzero, rfl, rfl⟩

/-- **A bind stores its target.** -/
lemma bindSlot_eq {st : BindState} {slot value : ℕ}
    (h : bindTarget g w.view rounds im st = .ok (slot, value)) :
    bindSlot g rounds im st w = .ok value (storeNat w slot 8 value) := by
  obtain ⟨seg, symbol, resolved, htype, hseg, hsymbol, hresolve, hzero, rfl, rfl⟩ :=
    bindTarget_ok g rounds im h
  have hread : reading (fun v => symbolAt v st.symbol) w = EStateM.Result.ok symbol w :=
    reading_ok hsymbol
  have hread' : reading (fun v => resolveSymbol g v rounds im st.dylibOrdinal symbol) w =
      EStateM.Result.ok resolved w := reading_ok hresolve
  rw [bindSlot, if_neg (not_not.mpr htype), hseg]
  refine (linker_bind_ok hread).trans ((linker_bind_ok hread').trans ?_)
  rw [if_neg hzero]
  rfl

/-- A bind without a target stops. -/
lemma bindSlot_error {st : BindState} {e : Stop}
    (h : bindTarget g w.view rounds im st = .error e) :
    ∃ w', bindSlot g rounds im st w = .error e w' := by
  unfold bindTarget at h
  unfold bindSlot
  split_ifs at h ⊢ with htype
  · cases h
    exact ⟨w, rfl⟩
  · cases hseg : im.segs[st.segIndex]? with
    | none =>
      rw [hseg] at h
      cases h
      exact ⟨w, rfl⟩
    | some seg =>
      rw [hseg] at h
      refine ⟨w, ?_⟩
      cases hsymbol : symbolAt w.view st.symbol with
      | error e' =>
        rw [hsymbol] at h
        cases h
        refine linker_bind_error ?_
        rw [reading, hsymbol]
      | ok symbol =>
        rw [hsymbol] at h
        have hread : reading (fun v => symbolAt v st.symbol) w = EStateM.Result.ok symbol w :=
          reading_ok hsymbol
        refine (linker_bind_ok hread).trans ?_
        change ((resolveSymbol g w.view rounds im st.dylibOrdinal symbol).bind fun resolved => _) = _
          at h
        cases hresolve : resolveSymbol g w.view rounds im st.dylibOrdinal symbol with
        | error e' =>
          rw [hresolve] at h
          cases h
          refine linker_bind_error ?_
          rw [reading, hresolve]
        | ok resolved =>
          rw [hresolve] at h
          have hread' : reading (fun v => resolveSymbol g v rounds im st.dylibOrdinal symbol) w =
              EStateM.Result.ok resolved w := reading_ok hresolve
          refine (linker_bind_ok hread').trans ?_
          dsimp only [Except.bind] at h
          by_cases hzero : resolved = 0
          · rw [if_pos hzero] at h ⊢
            cases h
            rfl
          · rw [if_neg hzero] at h
            cases h

/-- A record that is entered alone binds its target and returns the value. -/
lemma record_single {r : Record} {p left slot value : ℕ} (hr : Reads w.view p r.bytes)
    (hfend : p + r.bytes.length ≤ fend) (hleft : fend ≤ p + left)
    (h : bindTarget g w.view rounds im (r.state p) = .ok (slot, value)) (result : ℕ) :
    bindLoop g rounds im fend true left p BindState.initial result w =
      .ok value (storeNat w slot 8 value) := by
  rw [Record.bytes, List.length_append, List.length_cons] at hfend
  obtain ⟨left', hleft', hops⟩ := bindLoop_ops g rounds im fend true hr.left (by omega) hleft
    BindState.initial result
  obtain ⟨left', rfl⟩ : ∃ k, left' = k + 1 := ⟨left' - 1, by omega⟩
  have hbind := bindSlot_eq g rounds im h
  exact hops.trans
    (bindLoop_bind g rounds im fend true (by omega) (Except.ok.inj hr.right.cons.1) hbind)

/-- A record without a target stops, however it is entered. -/
lemma record_error {r : Record} {p left : ℕ} {e : Stop} (hr : Reads w.view p r.bytes)
    (hfend : p + r.bytes.length ≤ fend) (hleft : fend ≤ p + left)
    (h : bindTarget g w.view rounds im (r.state p) = .error e) (result : ℕ) :
    ∃ w', bindLoop g rounds im fend single left p BindState.initial result w = .error e w' := by
  rw [Record.bytes, List.length_append, List.length_cons] at hfend
  obtain ⟨left', hleft', hops⟩ := bindLoop_ops g rounds im fend single hr.left (by omega) hleft
    BindState.initial result
  obtain ⟨left', rfl⟩ : ∃ k, left' = k + 1 := ⟨left' - 1, by omega⟩
  obtain ⟨w', hbind⟩ := bindSlot_error g rounds im h
  exact ⟨w', hops.trans (bindLoop_bind_error g rounds im fend single (by omega)
    (Except.ok.inj hr.right.cons.1) hbind)⟩

/-- A record in the run over the stream binds its target, and the interpreter goes on in its
initial state, if the store leaves the record as it is. -/
lemma record_eager {r : Record} {p left slot value : ℕ} (hr : Reads w.view p r.bytes)
    (hfend : p + r.bytes.length ≤ fend) (hleft : fend ≤ p + left)
    (h : bindTarget g w.view rounds im (r.state p) = .ok (slot, value))
    (hr' : Reads (fun a => .ok (storeNat w slot 8 value a)) p r.bytes) (result : ℕ) :
    ∃ left', fend ≤ p + r.bytes.length + left' ∧
      bindLoop g rounds im fend false left p BindState.initial result w =
        bindLoop g rounds im fend false left' (p + r.bytes.length) BindState.initial value
          (storeNat w slot 8 value) := by
  have hlen : r.bytes.length =
      (opsBytes r.before).length + (1 + ((opsBytes r.after).length + 1)) := by
    rw [Record.bytes, List.length_append, List.length_cons, List.length_append,
      List.length_singleton]
    omega
  obtain ⟨left₁, hleft₁, hops⟩ := bindLoop_ops g rounds im fend false hr.left (by omega) hleft
    BindState.initial result
  obtain ⟨left₁, rfl⟩ : ∃ k, left₁ = k + 1 := ⟨left₁ - 1, by omega⟩
  have hbind := bindSlot_eq g rounds im h
  let w' : Memory := storeNat w slot 8 value
  have hafter : Reads w'.view (p + (opsBytes r.before).length + 1)
      (opsBytes r.after ++ [opcodeByte 0 r.doneImm]) := hr'.right.cons.2
  obtain ⟨left₂, hleft₂, hops'⟩ := @bindLoop_ops g rounds im fend false w' r.after left₁ _
    hafter.left (by omega) (by omega)
    { r.state p with segOffset := sizeAdd (sizeAdd (r.state p).segOffset 0) pointerSize } value
  obtain ⟨left₂, rfl⟩ : ∃ k, left₂ = k + 1 := ⟨left₂ - 1, by omega⟩
  refine ⟨left₂, by omega, ?_⟩
  have hone := hops.trans
    (bindLoop_bind g rounds im fend false (by omega) (Except.ok.inj hr.right.cons.1) hbind)
  refine hone.trans (hops'.trans ?_)
  have hdone : w' (p + (opsBytes r.before).length + 1 + (opsBytes r.after).length) =
      opcodeByte 0 r.doneImm := Except.ok.inj hafter.right.cons.1
  rw [bindLoop_done g rounds im fend false (by omega) hdone]
  congr 1
  omega

end Run

/-! ## Records in place -/

/-- A record of a stream is in its bytes. -/
lemma placed_bytes {p : ℕ} {rs : List Record} {c : ℕ × Record} (hc : c ∈ placed p rs) :
    p ≤ c.1 ∧ c.1 + c.2.bytes.length ≤ p + (streamBytes rs).length ∧
      ∀ v : View, Reads v p (streamBytes rs) → Reads v c.1 c.2.bytes := by
  induction rs generalizing p with
  | nil => exact absurd hc List.not_mem_nil
  | cons r rs ih =>
    have hcat : streamBytes (r :: rs) = r.bytes ++ streamBytes rs := rfl
    rw [hcat, List.length_append]
    rcases List.mem_cons.mp hc with rfl | hc
    · exact ⟨Nat.le_refl _, Nat.add_le_add_left (Nat.le_add_right _ _) p, fun v hv => hv.left⟩
    · obtain ⟨hle, hend, hreads⟩ := ih hc
      exact ⟨by omega, by omega, fun v hv => hreads v hv.right⟩

/-- There is at least the opcode that binds in a record. -/
lemma Record.length_pos (r : Record) : 0 < r.bytes.length := by
  rw [Record.bytes, List.length_append, List.length_cons]
  omega

/-- The pointer to the name is null or at the name. -/
lemma symbolAt_applyOps {v : View} {ops : List SetOp} {p : ℕ} (hops : Reads v p (opsBytes ops))
    (hfits : p + (opsBytes ops).length < 2 ^ 64) {st : BindState} {name : Option CString}
    (hst : symbolAt v st.symbol = .ok name) :
    symbolAt v (applyOps ops p st).symbol = .ok (ops.foldl SetOp.nameAfter name) := by
  induction ops generalizing p st name with
  | nil => exact hst
  | cons op ops ih =>
    have hcat : opsBytes (op :: ops) = op.bytes ++ opsBytes ops := rfl
    rw [hcat] at hops hfits
    rw [List.length_append] at hfits
    refine ih hops.right (by omega) ?_
    cases op with
    | symbol imm name' =>
      have hname := hops.left.cons.2
      rw [SetOp.bytes, List.length_cons, List.length_append, List.length_singleton] at hfits
      have hread := cString_reads name'.nulFree hname (by omega)
      change symbolAt v (p + 1) = .ok (some name')
      rw [symbolAt, if_neg (Nat.succ_ne_zero p), hread]
      exact congrArg (fun s => Except.ok (some s)) (CString.ofBytes_bytes name')
    | _ => exact hst

/-! ## Whole streams -/

section Streams

variable {g : Linked} {rounds : ℕ} {im : Image} {m : ℕ → UInt8} {rs : List Record} {w : Memory}

/-- What a record binds in memory `m`. -/
def recordTarget (g : Linked) (rounds : ℕ) (im : Image) (m : ℕ → UInt8) (c : ℕ × Record) :
    Except Stop (ℕ × ℕ) :=
  bindTarget g (fun a => .ok (m a)) rounds im (c.2.state c.1)

/-- The slot of a record that has a target. -/
def targetSlot (g : Linked) (rounds : ℕ) (im : Image) (m : ℕ → UInt8) (c : ℕ × Record) : ℕ :=
  ((recordTarget g rounds im m c).toOption.getD (0, 0)).1

/-- The value of a record that has a target. -/
def targetValue (g : Linked) (rounds : ℕ) (im : Image) (m : ℕ → UInt8) (c : ℕ × Record) : ℕ :=
  ((recordTarget g rounds im m c).toOption.getD (0, 0)).2

/-- The target is of its slot and value. -/
lemma recordTarget_eq {c : ℕ × Record} {t : ℕ × ℕ} (h : recordTarget g rounds im m c = .ok t) :
    t = (targetSlot g rounds im m c, targetValue g rounds im m c) := by
  rw [targetSlot, targetValue, h]
  rfl

/-- The slot of a target is the one the record names. -/
lemma recordSlot_of_target {v : View} {c : ℕ × Record} {slot value : ℕ}
    (h : bindTarget g v rounds im (c.2.state c.1) = .ok (slot, value)) :
    recordSlot im c = some slot := by
  obtain ⟨seg, symbol, resolved, -, hseg, -, -, -, rfl, -⟩ := bindTarget_ok g rounds im h
  rw [recordSlot, hseg]
  rfl

/-- Memory is as at the start but for the slots. -/
def Good (im : Image) (m : ℕ → UInt8) (rs : List Record) (w : Memory) : Prop :=
  ∀ a, OutsideSlots im (placed im.lazyBind.start rs) a → w a = m a

/-- The stream is there. -/
lemma Good.reads (s : LazyStream g rounds im m rs) (hw : Good im m rs w) :
    Reads w.view im.lazyBind.start (streamBytes rs) := by
  intro i b hb
  obtain ⟨hlt, -⟩ := List.getElem?_eq_some_iff.mp hb
  have hload := getElem?_load (m := m) (a := im.lazyBind.start) hlt
  rw [s.bytes, hb] at hload
  have hfend := s.fend
  have hsame := hw (im.lazyBind.start + i) (s.stream _ (by omega) (by omega))
  rw [Memory.view, hsame, Option.some.inj hload]

/-- So is every record. -/
lemma Good.reads_record (s : LazyStream g rounds im m rs) (hw : Good im m rs w) {c : ℕ × Record}
    (hc : c ∈ placed im.lazyBind.start rs) : Reads w.view c.1 c.2.bytes :=
  (placed_bytes hc).2.2 _ (hw.reads s)

/-- **A record binds the same target** whatever has been bound before. -/
lemma Good.target (s : LazyStream g rounds im m rs) (hw : Good im m rs w) {c : ℕ × Record}
    (hc : c ∈ placed im.lazyBind.start rs) :
    bindTarget g w.view rounds im (c.2.state c.1) = recordTarget g rounds im m c := by
  have hsymbol : ∀ w, Good im m rs w →
      symbolAt w.view (c.2.state c.1).symbol = .ok c.2.name := by
    intro w hw
    have hend := (placed_bytes hc).2.1
    have hfits := s.fits
    rw [s.fend] at hfits
    rw [Record.bytes, List.length_append] at hend
    have hbytes := hw.reads_record s hc
    exact symbolAt_applyOps hbytes.left (by omega) rfl
  have hstart : symbolAt (fun a => .ok (m a)) (c.2.state c.1).symbol = .ok c.2.name :=
    hsymbol m fun _ _ => rfl
  have hresolves := s.resolves w hw c hc
  rw [recordTarget, bindTarget, bindTarget, hsymbol w hw, hstart]
  dsimp only [Except.bind, bind]
  rw [show resolveSymbol g w.view rounds im (c.2.state c.1).dylibOrdinal c.2.name =
    resolveSymbol g (fun a => .ok (m a)) rounds im (c.2.state c.1).dylibOrdinal c.2.name from
      hresolves]

/-- A bind keeps the rest of memory. -/
lemma Good.store (hw : Good im m rs w) {c : ℕ × Record} (hc : c ∈ placed im.lazyBind.start rs)
    {slot : ℕ} (hslot : recordSlot im c = some slot) (value : ℕ) :
    Good im m rs (storeNat w slot 8 value) := by
  intro a ha
  have hout : a < slot ∨ slot + 8 ≤ a := ha c hc slot hslot
  exact (storeNat_of_not_mem hout).trans (hw a ha)

/-- The run over the rest of the stream, if all of its records have targets. -/
lemma eager_run (s : LazyStream g rounds im m rs) {rs' : List Record} {p left result : ℕ}
    (hsub : ∀ c ∈ placed p rs', c ∈ placed im.lazyBind.start rs)
    (hend : p + (streamBytes rs').length = im.lazyBind.fend) (hleft : im.lazyBind.fend ≤ p + left)
    (hw : Good im m rs w) (h : ∀ c ∈ placed p rs', ∃ t, recordTarget g rounds im m c = .ok t) :
    ∃ result',
      bindLoop g rounds im im.lazyBind.fend false left p BindState.initial result w =
        .ok result' (storeAll 8 (targetSlot g rounds im m) (targetValue g rounds im m) w
          (placed p rs')) := by
  induction rs' generalizing p left result w with
  | nil =>
    have hp : im.lazyBind.fend ≤ p := hend.symm.le
    refine ⟨result, ?_⟩
    cases left with
    | zero => rfl
    | succ left =>
      rw [bindLoop, if_pos hp]
      rfl
  | cons r rs' ih =>
    have hcat : streamBytes (r :: rs') = r.bytes ++ streamBytes rs' := rfl
    rw [hcat, List.length_append] at hend
    have hc := hsub (p, r) List.mem_cons_self
    obtain ⟨t, ht⟩ := h (p, r) List.mem_cons_self
    have htarget := (hw.target s hc).trans ht
    rw [recordTarget_eq ht] at htarget
    have hgood := hw.store hc (recordSlot_of_target htarget) (targetValue g rounds im m (p, r))
    obtain ⟨left', hleft', hrecord⟩ := record_eager g rounds im im.lazyBind.fend
      (hw.reads_record s hc) (show p + r.bytes.length ≤ im.lazyBind.fend by omega) hleft htarget
      (hgood.reads_record s hc) result
    obtain ⟨result', hrest⟩ := @ih _ (p + r.bytes.length) left' _
      (fun c hc => hsub c (List.mem_cons_of_mem _ hc)) (by omega) hleft' hgood
      fun c hc => h c (List.mem_cons_of_mem _ hc)
    exact ⟨result', hrecord.trans hrest⟩

/-- The run over the rest of the stream, if a record has no target. -/
lemma eager_error (s : LazyStream g rounds im m rs) {rs' : List Record} {p left result : ℕ}
    (hsub : ∀ c ∈ placed p rs', c ∈ placed im.lazyBind.start rs)
    (hend : p + (streamBytes rs').length = im.lazyBind.fend) (hleft : im.lazyBind.fend ≤ p + left)
    (hw : Good im m rs w) (h : ∃ c ∈ placed p rs', ∃ e, recordTarget g rounds im m c = .error e) :
    ∃ e w', bindLoop g rounds im im.lazyBind.fend false left p BindState.initial result w =
      .error e w' := by
  induction rs' generalizing p left result w with
  | nil =>
    obtain ⟨c, hc, -⟩ := h
    exact absurd hc List.not_mem_nil
  | cons r rs' ih =>
    have hcat : streamBytes (r :: rs') = r.bytes ++ streamBytes rs' := rfl
    rw [hcat, List.length_append] at hend
    have hc := hsub (p, r) List.mem_cons_self
    have hreads := hw.reads_record s hc
    cases ht : recordTarget g rounds im m (p, r) with
    | error e =>
      obtain ⟨w', hw'⟩ := record_error g rounds im im.lazyBind.fend false hreads
        (show p + r.bytes.length ≤ im.lazyBind.fend by omega) hleft ((hw.target s hc).trans ht) result
      exact ⟨e, w', hw'⟩
    | ok t =>
      obtain ⟨slot, value⟩ := t
      have htarget := (hw.target s hc).trans ht
      have hgood := hw.store hc (recordSlot_of_target htarget) value
      obtain ⟨left', hleft', hrecord⟩ := record_eager g rounds im im.lazyBind.fend hreads
        (show p + r.bytes.length ≤ im.lazyBind.fend by omega) hleft htarget
        (hgood.reads_record s hc) result
      have hrest : ∃ c ∈ placed (p + r.bytes.length) rs', ∃ e,
          recordTarget g rounds im m c = .error e := by
        obtain ⟨c, hmem, e, he⟩ := h
        rcases List.mem_cons.mp hmem with rfl | hmem
        · rw [ht] at he
          cases he
        · exact ⟨c, hmem, e, he⟩
      obtain ⟨e, w', hw'⟩ := @ih _ (p + r.bytes.length) left' value
        (fun c hc => hsub c (List.mem_cons_of_mem _ hc)) (by omega) hleft' hgood hrest
      exact ⟨e, w', hrecord.trans hw'⟩

/-- A call enters the stream at its record. -/
lemma lazy_enters (s : LazyStream g rounds im m rs) {c : ℕ × Record}
    (hc : c ∈ placed im.lazyBind.start rs) :
    dyldBindLazySymbol g rounds im (c.1 - im.lazyBind.start) =
      bindLoop g rounds im im.lazyBind.fend true (im.lazyBind.fend - c.1) c.1
        BindState.initial 0 := by
  obtain ⟨hle, hend, -⟩ := placed_bytes hc
  have hpos := c.2.length_pos
  have hfend := s.fend
  have hsize := s.size
  have hsub : im.lazyBind.fend - im.lazyBind.start = (streamBytes rs).length := by omega
  rw [dyldBindLazySymbol, hsub, toUint32_of_lt hsize, if_neg (by have := s.start; omega),
    runBindStream, show im.lazyBind.start + (c.1 - im.lazyBind.start) = c.1 by omega]

/-- The calls, if all of their records have targets. -/
lemma lazy_run (s : LazyStream g rounds im m rs) {calls : List (ℕ × Record)}
    (hsub : ∀ c ∈ calls, c ∈ placed im.lazyBind.start rs) (hw : Good im m rs w)
    (h : ∀ c ∈ calls, ∃ t, recordTarget g rounds im m c = .ok t) :
    lazyCalls g rounds im (calls.map fun c => c.1 - im.lazyBind.start) w =
      .ok (calls.map (targetValue g rounds im m))
        (storeAll 8 (targetSlot g rounds im m) (targetValue g rounds im m) w calls) := by
  induction calls generalizing w with
  | nil => rfl
  | cons c calls ih =>
    have hc := hsub c List.mem_cons_self
    obtain ⟨t, ht⟩ := h c List.mem_cons_self
    have htarget := (hw.target s hc).trans ht
    rw [recordTarget_eq ht] at htarget
    have hend := (placed_bytes hc).2.1
    rw [← s.fend] at hend
    have hcall := record_single g rounds im im.lazyBind.fend
      (hw.reads_record s hc) hend (show _ ≤ c.1 + (im.lazyBind.fend - c.1) by omega) htarget 0
    rw [← lazy_enters s hc] at hcall
    have hgood := hw.store hc (recordSlot_of_target htarget) (targetValue g rounds im m c)
    have hrest := ih (fun c hc => hsub c (List.mem_cons_of_mem _ hc)) hgood
      fun c hc => h c (List.mem_cons_of_mem _ hc)
    exact (linker_bind_ok hcall).trans (linker_bind_ok hrest)

/-- The calls, if a record has no target. -/
lemma lazy_error (s : LazyStream g rounds im m rs) {calls : List (ℕ × Record)}
    (hsub : ∀ c ∈ calls, c ∈ placed im.lazyBind.start rs) (hw : Good im m rs w)
    (h : ∃ c ∈ calls, ∃ e, recordTarget g rounds im m c = .error e) :
    ∃ e w', lazyCalls g rounds im (calls.map fun c => c.1 - im.lazyBind.start) w = .error e w' := by
  induction calls generalizing w with
  | nil =>
    obtain ⟨c, hc, -⟩ := h
    exact absurd hc List.not_mem_nil
  | cons c calls ih =>
    have hc := hsub c List.mem_cons_self
    have hend := (placed_bytes hc).2.1
    rw [← s.fend] at hend
    cases ht : recordTarget g rounds im m c with
    | error e =>
      obtain ⟨w', hw'⟩ := record_error g rounds im im.lazyBind.fend true (hw.reads_record s hc) hend
        (show _ ≤ c.1 + (im.lazyBind.fend - c.1) by omega) ((hw.target s hc).trans ht) 0
      rw [← lazy_enters s hc] at hw'
      exact ⟨e, w', linker_bind_error hw'⟩
    | ok t =>
      obtain ⟨slot, value⟩ := t
      have htarget := (hw.target s hc).trans ht
      have hcall := record_single g rounds im im.lazyBind.fend
        (hw.reads_record s hc) hend (show _ ≤ c.1 + (im.lazyBind.fend - c.1) by omega) htarget 0
      rw [← lazy_enters s hc] at hcall
      have hrest : ∃ c ∈ calls, ∃ e, recordTarget g rounds im m c = .error e := by
        obtain ⟨d, hmem, e, he⟩ := h
        rcases List.mem_cons.mp hmem with rfl | hmem
        · rw [ht] at he
          cases he
        · exact ⟨d, hmem, e, he⟩
      obtain ⟨e, w', hw'⟩ := ih (fun c hc => hsub c (List.mem_cons_of_mem _ hc))
        (hw.store hc (recordSlot_of_target htarget) value) hrest
      exact ⟨e, w', (linker_bind_ok hcall).trans (linker_bind_error hw')⟩

/-- Either all records have targets or one has not. -/
lemma targets_or (g : Linked) (rounds : ℕ) (im : Image) (m : ℕ → UInt8) (cs : List (ℕ × Record)) :
    (∀ c ∈ cs, ∃ t, recordTarget g rounds im m c = .ok t) ∨
      ∃ c ∈ cs, ∃ e, recordTarget g rounds im m c = .error e := by
  by_cases h : ∀ c ∈ cs, ∃ t, recordTarget g rounds im m c = .ok t
  · exact Or.inl h
  · push Not at h
    obtain ⟨c, hc, hne⟩ := h
    cases ht : recordTarget g rounds im m c with
    | ok t => exact absurd ht (hne t)
    | error e => exact Or.inr ⟨c, hc, e, ht⟩

/-- The slot of a record that has a target is the one it names. -/
lemma recordSlot_targetSlot {c : ℕ × Record} (h : ∃ t, recordTarget g rounds im m c = .ok t) :
    recordSlot im c = some (targetSlot g rounds im m c) := by
  obtain ⟨t, ht⟩ := h
  rw [recordTarget_eq ht] at ht
  exact recordSlot_of_target ht

/-- A value fits its slot. -/
lemma targetValue_lt {c : ℕ × Record} (h : ∃ t, recordTarget g rounds im m c = .ok t) :
    targetValue g rounds im m c < 256 ^ 8 := by
  obtain ⟨t, ht⟩ := h
  rw [recordTarget_eq ht] at ht
  obtain ⟨-, -, resolved, -, -, -, -, -, -, hvalue⟩ := bindTarget_ok g rounds im ht
  rw [hvalue]
  exact Nat.mod_lt _ (by decide)

/-- The slots of a stream whose records have targets are apart. -/
lemma LazyStream.targets_apart (s : LazyStream g rounds im m rs)
    (h : ∀ c ∈ placed im.lazyBind.start rs, ∃ t, recordTarget g rounds im m c = .ok t) :
    ∀ c ∈ placed im.lazyBind.start rs, ∀ c' ∈ placed im.lazyBind.start rs, c ≠ c' →
      Apart 8 (targetSlot g rounds im m c) (targetSlot g rounds im m c') := by
  intro c hc c' hc' hne
  exact s.apart c hc c' hc' hne _ _ (recordSlot_targetSlot (h c hc))
    (recordSlot_targetSlot (h c' hc'))

/-- A slot holds the value of its record after all stores. -/
lemma loadNat_storeAll {cs : List (ℕ × Record)}
    (happ : ∀ c ∈ cs, ∀ c' ∈ cs, c ≠ c' →
      Apart 8 (targetSlot g rounds im m c) (targetSlot g rounds im m c'))
    {c : ℕ × Record} (hc : c ∈ cs) (h : ∃ t, recordTarget g rounds im m c = .ok t) :
    loadNat (storeAll 8 (targetSlot g rounds im m) (targetValue g rounds im m) m cs)
      (targetSlot g rounds im m c) 8 = targetValue g rounds im m c := by
  have hsame : loadNat (storeAll 8 (targetSlot g rounds im m) (targetValue g rounds im m) m cs)
      (targetSlot g rounds im m c) 8 =
        loadNat (storeNat m (targetSlot g rounds im m c) 8 (targetValue g rounds im m c))
          (targetSlot g rounds im m c) 8 :=
    loadNat_congr fun a ha ha' => storeAll_of_mem happ hc ha ha'
  rw [hsame]
  exact loadNat_storeNat_same (targetValue_lt h)

/-- **Lazy binding agrees with eager binding** on a stream of records: if the run over the stream
succeeds, calls at the records, in any order and as often as one likes, leave the same memory and
return what they stored; nothing but the slots is written; and if the calls succeed, so does the
run.

**Proof sketch.** A record reads its target from bytes that no slot covers, so it has the same
target at every time; both runs then are the stores of the targets, and stores to disjoint slots
commute. A record without a target stops both. -/
theorem lazy_agrees (s : LazyStream g rounds im m rs) {calls : List (ℕ × Record)}
    (hcalls : ∀ c, c ∈ calls ↔ c ∈ placed im.lazyBind.start rs) :
    (∀ result w', runBindStream g rounds im im.lazyBind.start im.lazyBind.fend false m =
        .ok result w' →
      (∃ values w'', lazyCalls g rounds im (calls.map fun c => c.1 - im.lazyBind.start) m =
          .ok values w'' ∧ w'' = w' ∧
        List.Forall₂ (fun c value => ∃ slot, recordSlot im c = some slot ∧
          loadNat w'' slot pointerSize = value) calls values) ∧
      ∀ a, OutsideSlots im (placed im.lazyBind.start rs) a → w' a = m a) ∧
    ∀ values w'', lazyCalls g rounds im (calls.map fun c => c.1 - im.lazyBind.start) m =
        .ok values w'' →
      ∃ result w', runBindStream g rounds im im.lazyBind.start im.lazyBind.fend false m =
        .ok result w' := by
  have hgood : Good im m rs m := fun _ _ => rfl
  have hsub : ∀ c ∈ calls, c ∈ placed im.lazyBind.start rs := fun c hc => (hcalls c).mp hc
  have hleft : im.lazyBind.fend ≤
      im.lazyBind.start + (im.lazyBind.fend - im.lazyBind.start) := by omega
  rcases targets_or g rounds im m (placed im.lazyBind.start rs) with hall | ⟨c, hc, e, he⟩
  · obtain ⟨result, heager⟩ := @eager_run _ _ _ _ _ _ s rs im.lazyBind.start _ 0
      (fun c hc => hc) s.fend.symm hleft hgood hall
    have hlazy := lazy_run s hsub hgood fun c hc => hall c (hsub c hc)
    have happ := s.targets_apart hall
    have happ' : ∀ c ∈ calls, ∀ c' ∈ calls, c ≠ c' →
        Apart 8 (targetSlot g rounds im m c) (targetSlot g rounds im m c') :=
      fun c hc c' hc' => happ c (hsub c hc) c' (hsub c' hc')
    constructor
    · intro result' w' hrun
      obtain ⟨-, rfl⟩ := EStateM.Result.ok.inj (heager.symm.trans hrun)
      refine ⟨⟨_, _, hlazy, storeAll_eq hcalls happ', ?_⟩, ?_⟩
      · rw [List.forall₂_map_right_iff, List.forall₂_same]
        intro c hc
        have ht := hall c (hsub c hc)
        exact ⟨_, recordSlot_targetSlot ht, loadNat_storeAll happ' hc ht⟩
      · intro a ha
        exact storeAll_of_not_mem fun c hc => ha c hc _ (recordSlot_targetSlot (hall c hc))
    · intro values w'' _
      exact ⟨_, _, heager⟩
  · have hcall : ∃ c ∈ calls, ∃ e, recordTarget g rounds im m c = .error e :=
      ⟨c, (hcalls c).mpr hc, e, he⟩
    obtain ⟨e', w₁, heager⟩ := @eager_error _ _ _ _ _ _ s rs im.lazyBind.start _ 0
      (fun c hc => hc) s.fend.symm hleft hgood ⟨c, hc, e, he⟩
    obtain ⟨e'', w₂, hlazy⟩ := lazy_error s hsub hgood hcall
    constructor
    · intro result w' hrun
      cases heager.symm.trans hrun
    · intro values w'' hrun
      cases hlazy.symm.trans hrun

end Streams

/-! ## Two streams -/

/-- A record that binds the stub binder to a slot of the first segment, with an addend. -/
def binderRecord (offset addend : Groups) : Record :=
  ⟨[.ordinalImm ⟨1, by decide⟩,
    .symbol ⟨0, by decide⟩ (CString.ofBytes (ascii "dyld_stub_binder")),
    .segmentAndOffset ⟨0, by decide⟩ offset, .addendSleb ⟨0, by decide⟩ addend],
    ⟨0, by decide⟩, [], ⟨0, by decide⟩⟩

/-- A number of one byte. -/
def oneGroup (b : UInt8) (h : Leb128.Terminated [b]) : Groups := ⟨[b], h⟩

/-- Memory with a stream at 4096. -/
def streamMemory (rs : List Record) : ℕ → UInt8 := fun a => (streamBytes rs).getD (a - 4096) 0

/-- An image of one segment with that stream. -/
def streamImage (rs : List Record) : Image :=
  ⟨[], 32768, 0, [⟨32768, 4096, 0, 4096⟩], .null, .null, .null,
    ⟨4096, 4096 + (streamBytes rs).length⟩, .null, []⟩

/-- The image is all there is. -/
def streamLinked (rs : List Record) : Linked := ⟨[streamImage rs], streamImage rs, 8⟩

/-- A record that binds the binder to the first slot. -/
def firstRecord : Record := binderRecord (oneGroup 0 rfl) (oneGroup 0 rfl)

/-- A record that binds the byte behind it to the second slot. -/
def secondRecord : Record := binderRecord (oneGroup 8 rfl) (oneGroup 1 rfl)

/-- A stream of the two. -/
def twoRecords : List Record := [firstRecord, secondRecord]

/-- Where they are. -/
lemma placed_twoRecords : placed (streamImage twoRecords).lazyBind.start twoRecords =
    [(4096, firstRecord), (4121, secondRecord)] := rfl

/-- The slot of the first. -/
lemma recordSlot_first : recordSlot (streamImage twoRecords) (4096, firstRecord) = some 32768 := by
  decide +kernel

/-- The slot of the second. -/
lemma recordSlot_second : recordSlot (streamImage twoRecords) (4121, secondRecord) = some 32776 := by
  decide +kernel

/-- The two slots. -/
lemma recordSlot_twoRecords {c : ℕ × Record} {slot : ℕ}
    (hc : c ∈ placed (streamImage twoRecords).lazyBind.start twoRecords)
    (hslot : recordSlot (streamImage twoRecords) c = some slot) :
    c = (4096, firstRecord) ∧ slot = 32768 ∨ c = (4121, secondRecord) ∧ slot = 32776 := by
  rw [placed_twoRecords, List.mem_pair] at hc
  rcases hc with rfl | rfl
  · exact .inl ⟨rfl, Option.some.inj (hslot.symm.trans recordSlot_first)⟩
  · exact .inr ⟨rfl, Option.some.inj (hslot.symm.trans recordSlot_second)⟩

/-- It is a stream as the theorem wants it. -/
lemma twoRecords_lazyStream :
    LazyStream (streamLinked twoRecords) 0 (streamImage twoRecords) (streamMemory twoRecords)
      twoRecords where
  selfContained := by
    intro r hr
    rcases List.mem_pair.mp hr with rfl | rfl <;> exact ⟨rfl, rfl, rfl⟩
  start := by decide
  size := by decide +kernel
  fend := rfl
  fits := by decide +kernel
  bytes := by decide +kernel
  apart := by
    intro c hc c' hc' hne slot slot' hslot hslot'
    rcases recordSlot_twoRecords hc hslot with ⟨rfl, rfl⟩ | ⟨rfl, rfl⟩ <;>
      rcases recordSlot_twoRecords hc' hslot' with ⟨rfl, rfl⟩ | ⟨rfl, rfl⟩
    · exact absurd rfl hne
    · exact .inl (by decide)
    · exact .inr (by decide)
    · exact absurd rfl hne
  stream := by
    intro a _ ha c hc slot hslot
    have hend : (streamImage twoRecords).lazyBind.fend ≤ 32768 := by decide +kernel
    rcases recordSlot_twoRecords hc hslot with ⟨-, rfl⟩ | ⟨-, rfl⟩ <;> exact .inl (by omega)
  resolves := by
    intro m' _ c hc
    have hname : c.2.name = some (CString.ofBytes (ascii "dyld_stub_binder")) := by
      rw [placed_twoRecords, List.mem_pair] at hc
      rcases hc with rfl | rfl <;> rfl
    rw [hname, resolveSymbol, resolveSymbol, if_pos rfl, if_pos rfl]

/-- A run that succeeds and leaves a number at an address. -/
def leaves {α : Type} (addr value : ℕ) (x : EStateM.Result Stop Memory α) : Bool :=
  match x with
  | .ok _ w => loadNat w addr 8 = value
  | .error _ _ => false

/-- What such a run is. -/
lemma leaves_iff {α : Type} {addr value : ℕ} {x : EStateM.Result Stop Memory α} :
    leaves addr value x = true ↔ ∃ a w, x = .ok a w ∧ loadNat w addr 8 = value := by
  cases x with
  | ok a w => simp [leaves]
  | error e w => simp [leaves]

/-- The second record called twice, and the first one between. -/
def twoCalls : List (ℕ × Record) :=
  [(4121, secondRecord), (4096, firstRecord), (4121, secondRecord)]

/-- The calls agree with the run. -/
theorem lazy_agrees_twoRecords :
    ∃ result w' values w'', runBindStream (streamLinked twoRecords) 0 (streamImage twoRecords)
        (streamImage twoRecords).lazyBind.start (streamImage twoRecords).lazyBind.fend false
        (streamMemory twoRecords) = .ok result w' ∧
      lazyCalls (streamLinked twoRecords) 0 (streamImage twoRecords)
        (twoCalls.map fun c => c.1 - (streamImage twoRecords).lazyBind.start)
        (streamMemory twoRecords) = .ok values w'' ∧ w'' = w' := by
  have heager : leaves 32776 9 (runBindStream (streamLinked twoRecords) 0 (streamImage twoRecords)
      (streamImage twoRecords).lazyBind.start (streamImage twoRecords).lazyBind.fend false
      (streamMemory twoRecords)) = true := by
    decide +kernel
  obtain ⟨result, w', hrun, -⟩ := leaves_iff.1 heager
  have hcalls : ∀ c, c ∈ twoCalls ↔
      c ∈ placed (streamImage twoRecords).lazyBind.start twoRecords := by
    intro c
    rw [placed_twoRecords]
    simp only [twoCalls, List.mem_cons, List.not_mem_nil, or_false]
    constructor
    · rintro (h | h | h)
      exacts [.inr h, .inl h, .inr h]
    · rintro (h | h)
      exacts [.inr (.inl h), .inl h]
  obtain ⟨⟨values, w'', hlazy, hmem, -⟩, -⟩ :=
    (lazy_agrees twoRecords_lazyStream hcalls).1 result w' hrun
  exact ⟨result, w', values, w'', hrun, hlazy, hmem⟩

/-- A stream of two records that bind different values to one slot. -/
def sharedRecords : List Record :=
  [firstRecord, binderRecord (oneGroup 0 rfl) (oneGroup 1 rfl)]

/-- **Calls in another order may leave other values** in a slot that two self-contained records
bind. -/
theorem not_lazy_agrees_shared :
    (∀ r ∈ sharedRecords, r.SelfContained) ∧
    load (streamMemory sharedRecords) 4096 (streamBytes sharedRecords).length =
        streamBytes sharedRecords ∧
      ∃ values w'' result w', lazyCalls (streamLinked sharedRecords) 0 (streamImage sharedRecords)
          [25, 0] (streamMemory sharedRecords) = .ok values w'' ∧
        runBindStream (streamLinked sharedRecords) 0 (streamImage sharedRecords) 4096
          (4096 + (streamBytes sharedRecords).length) false (streamMemory sharedRecords) =
          .ok result w' ∧ w'' ≠ w' := by
  have hlazy : leaves 32768 8 (lazyCalls (streamLinked sharedRecords) 0
      (streamImage sharedRecords) [25, 0] (streamMemory sharedRecords)) = true := by
    decide +kernel
  have heager : leaves 32768 9 (runBindStream (streamLinked sharedRecords) 0
      (streamImage sharedRecords) 4096 (4096 + (streamBytes sharedRecords).length) false
      (streamMemory sharedRecords)) = true := by
    decide +kernel
  obtain ⟨values, w'', hvalues, hlazy⟩ := leaves_iff.1 hlazy
  obtain ⟨result, w', hresult, heager⟩ := leaves_iff.1 heager
  refine ⟨?_, by decide +kernel, values, w'', result, w', hvalues, hresult, ?_⟩
  · intro r hr
    rcases List.mem_pair.mp hr with rfl | rfl <;> exact ⟨rfl, rfl, rfl⟩
  · intro hmem
    rw [hmem, heager] at hlazy
    exact absurd hlazy (by decide)

end Asteros.Dyld
