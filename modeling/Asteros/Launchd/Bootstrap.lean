import Asteros.Lib.KeyedList
import Asteros.Lib.LittleEndian

set_option autoImplicit false

/-!
# The bootstrap server

`bootstrap_server.c`: the thread of `launchd` that receives messages into a union on its stack, takes
them for requests by their `msgh_id` alone, and keeps the registered services in a list. The
messages are bytes; what the kernel writes into the buffer of the receiver is in
`Message.bytes`, and what it leaves there is what was in it before.

## Main definitions

* `Message` — a message as it is received.
* `handleRegister`, `handleLookUp` — the two requests.
* `turn` — one round of `server_thread_main`.

## Main results

* `lawful_strncmp` — names are compared up to their length.
* `findLocked_storePort` — what is found after a port was stored.
* `field_fill` — what is read from a part of a message.
-/

namespace Asteros.Launchd

open LittleEndian

/-! ## Messages -/

/-- The receive buffer, `union bootstrap_request`, byte by byte. -/
abbrev Buffer := ℕ → UInt8

/-- The names of the rights of a task, `mach_port_name_t`. -/
abbrev PortName := UInt32

/-- `MACH_PORT_NULL`. -/
def machPortNull : PortName := 0

/-- `MACH_PORT_DEAD`. -/
def machPortDead : PortName := 0xffffffff

/-- `MACH_MSGH_BITS_COMPLEX`. -/
def complexBit : UInt32 := 0x80000000

/-- `MACH_MSG_TYPE_MOVE_SEND`, which is what a receiver sees for every kind of send right. -/
def typePortSend : UInt8 := 17

/-- `BOOTSTRAP_MAX_NAME_LEN`. -/
def maxNameLen : ℕ := 128

/-- `BOOTSTRAP_REGISTER_MSGH_ID`. -/
def registerMsghId : UInt32 := 9000

/-- `BOOTSTRAP_LOOK_UP_MSGH_ID`. -/
def lookUpMsghId : UInt32 := 9001

/-- `sizeof(union bootstrap_request)`: a register request and a trailer. -/
def bufferSize : ℕ := 176 + 68

/-- A word in memory. -/
def word (n : UInt32) : List UInt8 := leBytes 4 n.toNat

/-- A descriptor of a complex message, after the kernel has translated it. Those that are no port
descriptors have sixteen bytes. -/
inductive Descriptor where
  | port (name : PortName) (pad1 : UInt32) (pad2 : UInt16) (disposition : UInt8)
  | other (raw : List UInt8)

/-- The descriptor in memory. -/
def Descriptor.bytes : Descriptor → List UInt8
  | .port name pad1 pad2 disposition =>
    word name ++ word pad1 ++ leBytes 2 pad2.toNat ++ [disposition, 0]
  | .other raw => raw

/-- A message as the kernel hands it to the receiver. The kernel translates port names in the
descriptors of a complex message only; everything else behind the header is what the sender wrote.
-/
structure Message where
  bits : UInt32
  remote : PortName
  reply : PortName
  voucher : PortName
  id : UInt32
  descriptors : List Descriptor
  body : List UInt8

namespace Message

variable (m : Message)

/-- `MACH_MSGH_BITS_IS_COMPLEX`. -/
def IsComplex : Prop := m.bits &&& complexBit ≠ 0

instance : Decidable m.IsComplex := inferInstanceAs (Decidable (_ ≠ _))

/-- What is behind the header. -/
def payload : List UInt8 :=
  if m.IsComplex then
    word (.ofNat m.descriptors.length) ++ m.descriptors.flatMap Descriptor.bytes ++ m.body
  else m.body

/-- The header. -/
def header : List UInt8 :=
  word m.bits ++ word (.ofNat (24 + m.payload.length)) ++ word m.remote ++ word m.reply ++
    word m.voucher ++ word m.id

/-- What the kernel writes: the message and the smallest trailer. -/
def bytes : List UInt8 := m.header ++ m.payload ++ (word 0 ++ word 8)

end Message

/-- The kernel writes the first bytes of the buffer. -/
def fill (req : Buffer) (written : List UInt8) : Buffer := fun i => written.getD i (req i)

/-- A part of the buffer. -/
def field (req : Buffer) (offset length : ℕ) : List UInt8 :=
  (List.range' offset length).map req

/-- A word of the buffer. -/
def wordAt (req : Buffer) (offset : ℕ) : UInt32 := .ofNat (leVal (field req offset 4))

/-! ## Names -/

/-- `strncpy`: the bytes up to the first NUL, as far as there is room, and NULs behind them. -/
def strncpy : ℕ → List UInt8 → List UInt8
  | 0, _ => []
  | n + 1, [] => 0 :: strncpy n []
  | n + 1, b :: src => if b = 0 then List.replicate (n + 1) 0 else b :: strncpy n src

/-- `strncmp(a, b, n) == 0`. -/
def strncmp : ℕ → List UInt8 → List UInt8 → Bool
  | 0, _, _ => true
  | n + 1, a, b =>
    if a.headD 0 ≠ b.headD 0 then false
    else if a.headD 0 = 0 then true
    else strncmp n a.tail b.tail

/-- A name as both handlers copy it: `strncpy` to all but the last byte, and a NUL. -/
def copyName (src : List UInt8) : List UInt8 := strncpy (maxNameLen - 1) src ++ [0]

/-! ## The server -/

/-- `struct bs_service`: the name and the port. -/
abbrev Service := List UInt8 × PortName

/-- The calls that the server makes to the kernel, with the ports they name. -/
inductive Call where
  /-- `mach_port_deallocate` of a stored port. -/
  | deallocate (name : PortName)
  /-- A `bootstrap_mig_simple_reply`. -/
  | replySimple (remote : PortName) (id : UInt32) (retCode : UInt32)
  /-- A `bootstrap_look_up_reply_success`, whose descriptor has `MACH_MSG_TYPE_COPY_SEND`. -/
  | replyPort (remote : PortName) (id : UInt32) (name : PortName)
  deriving DecidableEq

/-- `KERN_SUCCESS`. -/
def kernSuccess : UInt32 := 0

/-- `KERN_INVALID_NAME`. -/
def kernInvalidName : UInt32 := 15

/-- `find_locked`. -/
def findLocked (services : List Service) (name : List UInt8) : Option PortName :=
  KeyedList.find (strncmp maxNameLen) services name

/-- The change that `handle_register` makes to `g_services`. -/
def storePort (services : List Service) (name : List UInt8) (port : PortName) : List Service :=
  match findLocked services name with
  | some _ => KeyedList.replace (strncmp maxNameLen) name port services
  | none => (copyName name, port) :: services

/-- `req->reg.name`. -/
def regName (req : Buffer) : List UInt8 := field req 48 maxNameLen

/-- `req->reg.service_port.name`. -/
def regPort (req : Buffer) : PortName := wordAt req 28

/-- `req->lookup.name`. -/
def lookupName (req : Buffer) : List UInt8 := field req 32 maxNameLen

/-- `req->Head.msgh_remote_port`. -/
def headRemote (req : Buffer) : PortName := wordAt req 8

/-- `req->Head.msgh_id`. -/
def headId (req : Buffer) : UInt32 := wordAt req 20

/-- `handle_register`. -/
def handleRegister (services : List Service) (req : Buffer) : List Service × List Call :=
  let name := copyName (regName req)
  let port := regPort req
  let dropped := (findLocked services name).toList.map Call.deallocate
  (storePort services name port,
    dropped ++ [Call.replySimple (headRemote req) (registerMsghId + 100) kernSuccess])

/-- `handle_look_up`. -/
def handleLookUp (services : List Service) (req : Buffer) : List Call :=
  match findLocked services (copyName (lookupName req)) with
  | some port => [.replyPort (headRemote req) (lookUpMsghId + 100) port]
  | none => [.replySimple (headRemote req) (lookUpMsghId + 100) kernInvalidName]

/-- The server between two rounds: its list and its buffer. -/
structure Server where
  services : List Service
  req : Buffer

/-- How `mach_msg(MACH_RCV_MSG)` returns: with a message, or with an error, after the kernel may
have written something. -/
inductive Receipt where
  | message (m : Message)
  | failure (written : List UInt8)

/-- The branches of `server_thread_main` after a message was received, with the calls made. -/
def dispatch (s : Server) : Server × List Call :=
  if headId s.req = registerMsghId then
    let (services, calls) := handleRegister s.services s.req
    ({ s with services }, calls)
  else if headId s.req = lookUpMsghId then (s, handleLookUp s.services s.req)
  else (s, [])

/-- One round of the loop of `server_thread_main`. A message that does not fit is not received. -/
def turn (s : Server) : Receipt → Option (Server × List Call)
  | .message m =>
    if m.bytes.length ≤ bufferSize then some (dispatch { s with req := fill s.req m.bytes })
    else none
  | .failure written => some ({ s with req := fill s.req written }, [])

/-! ## Names, compared -/

/-- The characters of a name of at most `n` bytes. -/
def cut (n : ℕ) (name : List UInt8) : List UInt8 := (name.take n).takeWhile (· ≠ 0)

/-- One more byte of a name. -/
lemma cut_succ (n : ℕ) (b : UInt8) (name : List UInt8) :
    cut (n + 1) (b :: name) = if b = 0 then [] else b :: cut n name := by
  unfold cut
  rw [List.take_succ_cons, List.takeWhile_cons]
  by_cases hb : b = 0 <;> simp [hb]

/-- Names compare equal if their characters are the same. -/
lemma strncmp_iff (n : ℕ) (a b : List UInt8) : strncmp n a b = true ↔ cut n a = cut n b := by
  induction n generalizing a b with
  | zero => simp [strncmp, cut]
  | succ n ih =>
    have hnil : cut (n + 1) [] = [] := by rw [cut, List.take_nil, List.takeWhile_nil]
    rw [strncmp]
    cases a with
    | nil =>
      cases b with
      | nil => simp
      | cons y b =>
        rw [cut_succ, hnil]
        by_cases hy : y = 0
        · simp [hy]
        · simp [hy, Ne.symm hy]
    | cons x a =>
      cases b with
      | nil =>
        rw [cut_succ, hnil]
        by_cases hx : x = 0 <;> simp [hx]
      | cons y b =>
        rw [cut_succ, cut_succ]
        by_cases hxy : x = y
        · subst hxy
          by_cases hx : x = 0
          · simp [hx]
          · simp [hx, ih]
        · by_cases hx : x = 0
          · subst hx
            simp [hxy, Ne.symm hxy]
          · by_cases hy : y = 0 <;> simp [hxy, hx, hy]

/-- **The comparison of names is an equivalence.** -/
theorem lawful_strncmp (n : ℕ) : KeyedList.Lawful (strncmp n) where
  refl a := (strncmp_iff n a a).mpr rfl
  symm h := (strncmp_iff ..).mpr ((strncmp_iff ..).mp h).symm
  trans h h' := (strncmp_iff ..).mpr (((strncmp_iff ..).mp h).trans ((strncmp_iff ..).mp h'))

/-- The characters of a copy. -/
lemma cut_strncpy (n : ℕ) (src : List UInt8) : cut (n + 1) (strncpy n src ++ [0]) = cut n src := by
  induction n generalizing src with
  | zero => rfl
  | succ n ih =>
    cases src with
    | nil => rfl
    | cons b src =>
      rw [strncpy, cut_succ]
      split_ifs with hb
      · rfl
      · rw [List.cons_append, cut_succ, if_neg hb, ih]

/-- The characters of a name as it is stored. -/
lemma cut_copyName (src : List UInt8) : cut maxNameLen (copyName src) = cut 127 src :=
  cut_strncpy 127 src

/-- A copy of a copy has the same characters. -/
lemma strncmp_copyName (src src' : List UInt8) :
    strncmp maxNameLen (copyName src) (copyName src') = true ↔ cut 127 src = cut 127 src' := by
  rw [strncmp_iff, cut_copyName, cut_copyName]

/-- A copy of a name is as long as the name can be. -/
lemma cut_copyName_eq (src : List UInt8) : cut 127 (copyName src) = cut 127 src := by
  have hcopy : ∀ (n : ℕ) (src : List UInt8), cut n (strncpy n src ++ [0]) = cut n src := by
    intro n
    induction n with
    | zero => exact fun src => rfl
    | succ n ih =>
      intro src
      cases src with
      | nil => rfl
      | cons b src =>
        rw [strncpy, cut_succ]
        split_ifs with hb
        · rfl
        · rw [List.cons_append, cut_succ, if_neg hb, ih]
  exact hcopy 127 src

/-- A port that is found is stored. -/
lemma mem_of_findLocked {services : List Service} {name : List UInt8} {port : PortName}
    (h : findLocked services name = some port) : ∃ e ∈ services, e.2 = port := by
  obtain ⟨e, he, hport⟩ := Option.map_eq_some_iff.mp h
  exact ⟨e, List.mem_of_find?_eq_some he, hport⟩

/-- **What is found after a port was stored**: it, for names with these characters, and for the
others what was found before. -/
theorem findLocked_storePort (services : List Service) (name name' : List UInt8)
    (port : PortName) : findLocked (storePort services (copyName name) port) (copyName name') =
      if cut 127 name = cut 127 name' then some port else findLocked services (copyName name') := by
  unfold storePort findLocked
  split
  · next old hfound =>
    rw [KeyedList.find_replace (lawful_strncmp maxNameLen)]
    simp only [strncmp_copyName, Option.isSome_of_eq_some hfound, and_true]
  · rw [KeyedList.find_cons]
    simp only [strncmp_copyName, cut_copyName_eq]

/-! ## Reading the buffer -/

/-- What is read from a part of a message is what the message has there. -/
theorem field_fill (req : Buffer) (pre part post : List UInt8) :
    field (fill req (pre ++ part ++ post)) pre.length part.length = part := by
  apply List.ext_getElem
  · rw [field, List.length_map, List.length_range']
  · intro i hi hi'
    simp only [field, List.getElem_map, List.getElem_range', fill, Nat.one_mul]
    rw [List.getD_eq_getElem?_getD, List.append_assoc, List.getElem?_append_right (by omega),
      Nat.add_sub_cancel_left, List.getElem?_append_left hi', List.getElem?_eq_getElem hi']
    rfl

/-- A word that is read. -/
lemma wordAt_fill (req : Buffer) {offset : ℕ} (pre : List UInt8) (n : UInt32) (post : List UInt8)
    (hoffset : pre.length = offset) : wordAt (fill req (pre ++ word n ++ post)) offset = n := by
  subst hoffset
  have hfield := field_fill req pre (word n) post
  rw [word, length_leBytes] at hfield
  rw [wordAt, word, hfield, leVal_leBytes_of_lt n.toNat_lt, UInt32.ofNat_toNat]

/-- A word has four bytes. -/
@[simp] lemma length_word (n : UInt32) : (word n).length = 4 := length_leBytes 4 _

namespace Message

variable (req : Buffer) (m : Message)

/-- The id is read from the header. -/
lemma headId_fill : headId (fill req m.bytes) = m.id := by
  have hsplit : m.bytes = word m.bits ++ word (.ofNat (24 + m.payload.length)) ++ word m.remote ++
      word m.reply ++ word m.voucher ++ word m.id ++ (m.payload ++ (word 0 ++ word 8)) := by
    rw [bytes, header, List.append_assoc]
  rw [headId, hsplit]
  exact wordAt_fill req _ m.id _ (by simp)

/-- The port for the reply is read from the header. -/
lemma headRemote_fill : headRemote (fill req m.bytes) = m.remote := by
  have hsplit : m.bytes = word m.bits ++ word (.ofNat (24 + m.payload.length)) ++ word m.remote ++
      (word m.reply ++ word m.voucher ++ word m.id ++ m.payload ++ (word 0 ++ word 8)) := by
    simp only [bytes, header, List.append_assoc]
  rw [headRemote, hsplit]
  exact wordAt_fill req _ m.remote _ (by simp)

/-- What is done with a register request, by what is read. -/
lemma turn_register {m : Message} (s : Server) (hid : m.id = registerMsghId)
    (hfits : m.bytes.length ≤ bufferSize) {name : List UInt8} {port : PortName}
    (hname : regName (fill s.req m.bytes) = name) (hport : regPort (fill s.req m.bytes) = port) :
    turn s (.message m) = some (⟨storePort s.services (copyName name) port, fill s.req m.bytes⟩,
      (findLocked s.services (copyName name)).toList.map Call.deallocate ++
        [.replySimple m.remote (registerMsghId + 100) kernSuccess]) := by
  rw [turn, if_pos hfits, dispatch, headId_fill, if_pos hid]
  simp only [handleRegister, hname, hport, headRemote_fill]

/-- The first descriptor of a complex message is where the port of a request is read. -/
lemma regPort_fill {name : PortName} {pad1 : UInt32} {pad2 : UInt16} {disposition : UInt8}
    {ds : List Descriptor} (hcomplex : m.IsComplex)
    (hds : m.descriptors = .port name pad1 pad2 disposition :: ds) :
    regPort (fill req m.bytes) = name := by
  have hsplit : m.bytes = m.header ++ word (.ofNat m.descriptors.length) ++ word name ++
      (word pad1 ++ leBytes 2 pad2.toNat ++ [disposition, 0] ++ ds.flatMap Descriptor.bytes ++
        m.body ++ (word 0 ++ word 8)) := by
    rw [bytes, payload, if_pos hcomplex, hds]
    simp only [List.flatMap_cons, Descriptor.bytes, List.append_assoc]
  rw [regPort, hsplit]
  exact wordAt_fill req _ name _ (by simp [header])

end Message

end Asteros.Launchd
