import Asteros.Dyld.ExportTrie
import Asteros.Lib.ByteMemory
import Asteros.Libc.Ascii

set_option autoImplicit false

/-!
# Binding

The interpreter of `bind.c`. It runs over a stream of opcodes in memory and changes pointers in
memory; a stream ends below the end of the address space. A run keeps its memory when it panics.

## Main definitions

* `Linker` — a computation on memory that may stop.
* `resolveSymbol` — where a symbol is looked up.
* `runBindStream` — binding.
* `dyldBindLazySymbol` — what runs it.
-/

namespace Asteros.Dyld

open Asteros.Libc ByteMemory

/-! ## Computations on memory -/

/-- The bytes of memory. -/
abbrev Memory := ℕ → UInt8

/-- A computation that may stop, and keeps its memory when it does. -/
abbrev Linker := EStateM Stop Memory

/-- All of memory can be read. -/
def Memory.view (m : Memory) : View := fun a => .ok (m a)

/-- A computation that only reads. -/
def reading {α : Type} (f : View → Except Stop α) : Linker α := fun m =>
  match f m.view with
  | .ok a => .ok a m
  | .error e => .error e m

/-- `*(uintptr_t *)addr = value`. -/
def storePointer (addr value : ℕ) : Linker Unit := fun m => .ok () (storeNat m addr 8 value)

/-- `sizeof(uintptr_t)`. -/
def pointerSize : ℕ := 8

/-! ## Resolving symbols -/

/-- What `bind.c` finds outside the image: `g_images`, `g_main_image` and the address of
`_dyld_stub_binder_entry`. -/
structure Linked where
  images : List Image
  main : Image
  stubBinder : ℕ

/-- `ordinal_to_image`. -/
def ordinalToImage (g : Linked) (im : Image) (ordinal : ℤ) : Option Image :=
  if ordinal = 0 then some im
  else if ordinal = -1 then some g.main
  else if 1 ≤ ordinal ∧ ordinal ≤ im.deps.length then
    (im.deps[ordinal.toNat - 1]?).bind fun i => g.images[i]?
  else none

/-- The search of `resolve_symbol` through all images. -/
def flatSearch (v : View) (rounds : ℕ) (symbol : Option CString) : List Image → Except Stop ℕ
  | [] => .ok 0
  | im :: ims => do
    let addr ← imageResolveExport v rounds im symbol
    if addr ≠ 0 then .ok addr else flatSearch v rounds symbol ims

/-- `resolve_symbol`; a null symbol is `none`. -/
def resolveSymbol (g : Linked) (v : View) (rounds : ℕ) (im : Image) (ordinal : ℤ)
    (symbol : Option CString) : Except Stop ℕ :=
  if symbol = some (CString.ofBytes (ascii "dyld_stub_binder")) then .ok g.stubBinder
  else
    match ordinalToImage g im ordinal with
    | none => flatSearch v rounds symbol g.images
    | some target => do
      let addr ← imageResolveExport v rounds target symbol
      if addr ≠ 0 then .ok addr else flatSearch v rounds symbol g.images

/-! ## Binding -/

/-- `BIND_TYPE_POINTER`. -/
def bindTypePointer : ℕ := 1

/-- `struct bind_state`; the addend is in two's complement. -/
structure BindState where
  segIndex : ℕ
  segOffset : ℕ
  type : ℕ
  addend : ℕ
  dylibOrdinal : ℤ
  symbol : ℕ

/-- The state at the start and after `BIND_OPCODE_DONE`. -/
def BindState.initial : BindState := ⟨0, 0, bindTypePointer, 0, 0, 0⟩

/-- The C string at a pointer, if it is not null. -/
def symbolAt (v : View) (p : ℕ) : Except Stop (Option CString) :=
  if p = 0 then .ok none
  else do
    let s ← cString v p
    .ok (some (CString.ofBytes s))

/-- The part of the loop over slots that binds one: the value it stores. -/
def bindSlot (g : Linked) (rounds : ℕ) (im : Image) (st : BindState) : Linker ℕ :=
  if st.type ≠ bindTypePointer then throw .panic
  else
    match im.segs[st.segIndex]? with
    | none => throw .panic
    | some seg => do
      let symbol ← reading fun v => symbolAt v st.symbol
      let resolved ← reading fun v => resolveSymbol g v rounds im st.dylibOrdinal symbol
      if resolved = 0 then throw .panic
      else do
        let value := sizeAdd resolved st.addend
        storePointer (imageAddr im (sizeAdd seg.vmaddr st.segOffset)) value
        pure value

/-- How far the offset moves after a slot, before the size of the slot is added. -/
def bindAdvance (fend opcode imm skip p : ℕ) : Linker (ℕ × ℕ) :=
  if opcode = 0xA0 then reading fun v => readUleb128 v p fend
  else if opcode = 0xB0 then pure (imm * pointerSize, p)
  else pure (skip, p)

/-- The loop over `count` slots. -/
def bindSlots (g : Linked) (rounds : ℕ) (im : Image) (fend opcode imm skip : ℕ) :
    ℕ → ℕ → BindState → ℕ → Linker (ℕ × BindState × ℕ)
  | 0, p, st, result => pure (p, st, result)
  | count + 1, p, st, _ => do
    let value ← bindSlot g rounds im st
    let (n, p) ← bindAdvance fend opcode imm skip p
    bindSlots g rounds im fend opcode imm skip count p
      { st with segOffset := sizeAdd (sizeAdd st.segOffset n) pointerSize } value

/-- The end of a symbol name: its NUL, or the end of the stream. -/
def symbolEnd (m : ℕ → UInt8) : ℕ → ℕ → ℕ
  | 0, p => p
  | left + 1, p => if m p = 0 then p else symbolEnd m left (p + 1)

/-- The cases of the `switch` that only set variables. -/
def bindSet (fend opcode imm p : ℕ) (st : BindState) : Linker (ℕ × BindState) := do
  if opcode = 0x10 then
    pure (p, { st with dylibOrdinal := imm })
  else if opcode = 0x20 then
    let (n, p) ← reading fun v => readUleb128 v p fend
    pure (p, { st with dylibOrdinal := (BitVec.ofNat 32 n).toInt })
  else if opcode = 0x30 then
    pure (p, { st with dylibOrdinal := if imm = 0 then 0 else (BitVec.ofNat 8 (0xf0 ||| imm)).toInt })
  else if opcode = 0x40 then
    let m ← get
    pure (symbolEnd m (fend - p) p + 1, { st with symbol := p })
  else if opcode = 0x50 then
    pure (p, { st with type := imm })
  else if opcode = 0x60 then
    let (n, p) ← reading fun v => readSleb128 v p fend
    pure (p, { st with addend := n })
  else if opcode = 0x70 then
    let (n, p) ← reading fun v => readUleb128 v p fend
    pure (p, { st with segIndex := imm, segOffset := n })
  else if opcode = 0x80 then
    let (n, p) ← reading fun v => readUleb128 v p fend
    pure (p, { st with segOffset := sizeAdd st.segOffset n })
  else throw .panic

/-- The opcodes `BIND_OPCODE_DO_BIND*`. -/
def IsBind (opcode : ℕ) : Prop := opcode = 0x90 ∨ opcode = 0xA0 ∨ opcode = 0xB0 ∨ opcode = 0xC0

/-- Whether an opcode binds can be decided. -/
instance (opcode : ℕ) : Decidable (IsBind opcode) :=
  inferInstanceAs (Decidable (_ ∨ _ ∨ _ ∨ _))

/-- The number of slots and the bytes between them. -/
def bindCount (fend opcode p : ℕ) : Linker (ℕ × ℕ × ℕ) := do
  if opcode = 0xC0 then
    let (count, p) ← reading fun v => readUleb128 v p fend
    let (skip, p) ← reading fun v => readUleb128 v p fend
    pure (count, skip, p)
  else pure (1, 0, p)

/-- The loop of `run_bind_stream`, at most `left` opcodes before the end. -/
def bindLoop (g : Linked) (rounds : ℕ) (im : Image) (fend : ℕ) (single : Bool) :
    ℕ → ℕ → BindState → ℕ → Linker ℕ
  | 0, _, _, result => pure result
  | left + 1, p, st, result =>
    if fend ≤ p then pure result
    else do
      let byte ← reading fun v => v p
      let opcode := (byte &&& 0xf0).toNat
      let imm := (byte &&& 0x0f).toNat
      if opcode = 0x00 then bindLoop g rounds im fend single left (p + 1) BindState.initial result
      else if IsBind opcode then do
        let (count, skip, p) ← bindCount fend opcode (p + 1)
        let (p, st, result) ← bindSlots g rounds im fend opcode imm skip count p st result
        if single then pure result else bindLoop g rounds im fend single left p st result
      else do
        let (p, st) ← bindSet fend opcode imm (p + 1) st
        bindLoop g rounds im fend single left p st result

/-- `run_bind_stream`; `rounds` bounds the loop of a lookup. -/
def runBindStream (g : Linked) (rounds : ℕ) (im : Image) (p fend : ℕ) (single : Bool) :
    Linker ℕ :=
  bindLoop g rounds im fend single (fend - p) p BindState.initial 0

/-- `dyld_bind_lazy_symbol`. -/
def dyldBindLazySymbol (g : Linked) (rounds : ℕ) (im : Image) (lazyOffset : ℕ) : Linker ℕ :=
  if im.lazyBind.start = 0 ∨ toUint32 (im.lazyBind.fend - im.lazyBind.start) ≤ lazyOffset then
    throw .panic
  else runBindStream g rounds im (im.lazyBind.start + lazyOffset) im.lazyBind.fend true

end Asteros.Dyld
