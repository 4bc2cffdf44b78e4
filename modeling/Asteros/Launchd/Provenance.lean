import Asteros.Lib.Transition
import Asteros.Launchd.Bootstrap

set_option autoImplicit false

/-!
# Where the ports of the bootstrap server come from

The server should only store, drop and hand out ports whose send rights were delivered to it. It reads
a port name at the place where a register request has its descriptor, whether there is one or not: a
message that is not complex has there what its sender wrote, and a short one what an earlier message
has left.

## Main definitions

* `Delivered` — the names of the send rights that register requests have delivered.
* `Provenance` — the server uses no others.
* `CarriesPort` — a register request with a send right in its first descriptor.

## Main results

* `provenance` — the server uses no others if all register requests carry a port.
* `not_provenance_forged` — a name that was written in a simple message.
-/

namespace Asteros.Launchd

open KeyedList Transition

/-! ## What is delivered and what is used -/

/-- A descriptor that delivers a send right under a name. -/
def Descriptor.Sends : Descriptor → PortName → Prop
  | .port name _ _ disposition, n =>
    name = n ∧ disposition = typePortSend ∧ n ≠ machPortNull ∧ n ≠ machPortDead
  | .other _, _ => False

/-- The names that were delivered as send rights in port descriptors of register requests. -/
def Delivered (rs : List Receipt) : Set PortName :=
  {n | ∃ m, .message m ∈ rs ∧ m.id = registerMsghId ∧ m.IsComplex ∧ ∃ d ∈ m.descriptors, d.Sends n}

/-- The name of a right that a call drops or gives away. -/
def Call.used : Call → Option PortName
  | .deallocate name => some name
  | .replySimple .. => none
  | .replyPort _ _ name => some name

/-- One round, with the calls of all rounds so far. -/
def loopStep (s : Server × List Call) (r : Receipt) : Option (Server × List Call) :=
  (turn s.1 r).map fun t => (t.1, s.2 ++ t.2)

/-- **Only delivered ports are used**: those of the list, and those of all calls. -/
structure Provenance (rs : List Receipt) (s : Server × List Call) : Prop where
  stored : ∀ e ∈ s.1.services, e.2 ∈ Delivered rs
  used : ∀ call ∈ s.2, ∀ n ∈ call.used, n ∈ Delivered rs

/-- A message with a send right in its first descriptor, if it is a register request. -/
def CarriesPort (m : Message) : Prop :=
  m.id = registerMsghId → m.IsComplex ∧ ∃ d ∈ m.descriptors.head?, ∃ n, d.Sends n

/-- Every message that is received does. -/
def EveryCarriesPort (rs : List Receipt) : Prop := ∀ m, .message m ∈ rs → CarriesPort m

/-! ## One round -/

/-- What was delivered stays so. -/
lemma Delivered.mono {rs : List Receipt} (rs' : List Receipt) {n : PortName}
    (hn : n ∈ Delivered rs) : n ∈ Delivered (rs ++ rs') := by
  obtain ⟨m, hm, hrest⟩ := hn
  exact ⟨m, List.mem_append_left rs' hm, hrest⟩

/-- A register request that carries a port delivers what is read. -/
lemma regPort_mem_delivered {rs : List Receipt} {m : Message} (req : Buffer)
    (hid : m.id = registerMsghId) (hm : CarriesPort m) :
    regPort (fill req m.bytes) ∈ Delivered (rs ++ [Receipt.message m]) := by
  obtain ⟨hcomplex, d, hd, n, hsends⟩ := hm hid
  obtain ⟨ds, hds⟩ := List.head?_eq_some_iff.mp hd
  cases d with
  | other raw => exact hsends.elim
  | port name pad1 pad2 disposition =>
    rw [m.regPort_fill req hcomplex hds, hsends.1]
    refine ⟨m, List.mem_append_right rs (List.mem_singleton_self _), hid, hcomplex, ?_⟩
    exact ⟨.port name pad1 pad2 disposition, by rw [hds]; exact List.mem_cons_self, hsends⟩

/-- The list after a register request has one more port at most. -/
lemma mem_storePort {services : List Service} {name : List UInt8} {port : PortName} {e : Service}
    (he : e ∈ storePort services name port) : e ∈ services ∨ e.2 = port := by
  unfold storePort at he
  split at he
  · exact mem_replace he
  · obtain rfl | he := List.mem_cons.mp he
    · exact Or.inr rfl
    · exact Or.inl he

/-- What a register request stores and drops. -/
lemma handleRegister_spec {ns : Set PortName} {services : List Service} {req : Buffer}
    (hservices : ∀ e ∈ services, e.2 ∈ ns) (hport : regPort req ∈ ns) :
    (∀ e ∈ (handleRegister services req).1, e.2 ∈ ns) ∧
      ∀ call ∈ (handleRegister services req).2, ∀ n ∈ call.used, n ∈ ns := by
  constructor
  · intro e he
    rcases mem_storePort he with he | he
    · exact hservices e he
    · rw [he]
      exact hport
  · intro call hcall n hn
    rcases List.mem_append.mp hcall with hcall | hcall
    · obtain ⟨port, hfound, rfl⟩ := List.mem_map.mp hcall
      obtain rfl := Option.some.inj hn
      obtain ⟨e, he, rfl⟩ := mem_of_findLocked (Option.mem_toList.mp hfound)
      exact hservices e he
    · obtain rfl := List.mem_singleton.mp hcall
      cases hn

/-- What a look-up hands out. -/
lemma handleLookUp_spec {ns : Set PortName} {services : List Service} {req : Buffer}
    (hservices : ∀ e ∈ services, e.2 ∈ ns) :
    ∀ call ∈ handleLookUp services req, ∀ n ∈ call.used, n ∈ ns := by
  intro call hcall n hn
  unfold handleLookUp at hcall
  split at hcall
  · next port hfound =>
    obtain rfl := List.mem_singleton.mp hcall
    obtain rfl := Option.some.inj hn
    obtain ⟨e, he, rfl⟩ := mem_of_findLocked hfound
    exact hservices e he
  · obtain rfl := List.mem_singleton.mp hcall
    cases hn

/-- What a round stores and uses. -/
lemma turn_spec {ns : Set PortName} {s t : Server} {r : Receipt} {calls : List Call}
    (hservices : ∀ e ∈ s.services, e.2 ∈ ns)
    (hport : ∀ m, r = .message m → m.id = registerMsghId → regPort (fill s.req m.bytes) ∈ ns)
    (h : turn s r = some (t, calls)) :
    (∀ e ∈ t.services, e.2 ∈ ns) ∧ ∀ call ∈ calls, ∀ n ∈ call.used, n ∈ ns := by
  cases r with
  | failure written =>
    obtain ⟨rfl, rfl⟩ := Prod.mk.inj (Option.some.inj h)
    exact ⟨hservices, fun call hcall => absurd hcall List.not_mem_nil⟩
  | message m =>
    rw [turn] at h
    split_ifs at h with hfits
    have hdispatch := Option.some.inj h
    unfold dispatch at hdispatch
    rw [m.headId_fill] at hdispatch
    split_ifs at hdispatch with hid hid
    · obtain ⟨rfl, rfl⟩ := Prod.mk.inj hdispatch
      exact handleRegister_spec hservices (hport m rfl hid)
    · obtain ⟨rfl, rfl⟩ := Prod.mk.inj hdispatch
      exact ⟨hservices, handleLookUp_spec hservices⟩
    · obtain ⟨rfl, rfl⟩ := Prod.mk.inj hdispatch
      exact ⟨hservices, fun call hcall => absurd hcall List.not_mem_nil⟩

/-! ## All rounds -/

/-- The server at the start, with whatever is in its buffer. -/
def start (req : Buffer) : Server × List Call := ({ services := [], req }, [])

/-- One more round keeps to delivered ports. -/
lemma Provenance.step {rs : List Receipt} {r : Receipt} {s t : Server × List Call}
    (hs : Provenance rs s) (hr : ∀ m, r = .message m → CarriesPort m)
    (h : loopStep s r = some t) : Provenance (rs ++ [r]) t := by
  obtain ⟨⟨t', calls⟩, hturn, rfl⟩ := Option.map_eq_some_iff.mp h
  have hkept : ∀ e ∈ s.1.services, e.2 ∈ Delivered (rs ++ [r]) :=
    fun e he => Delivered.mono _ (hs.stored e he)
  have hport : ∀ m, r = .message m → m.id = registerMsghId →
      regPort (fill s.1.req m.bytes) ∈ Delivered (rs ++ [r]) := by
    rintro m rfl hid
    exact regPort_mem_delivered s.1.req hid (hr m rfl)
  obtain ⟨hstored, hused⟩ := turn_spec hkept hport hturn
  refine ⟨hstored, fun call hcall n hn => ?_⟩
  rcases List.mem_append.mp hcall with hcall | hcall
  · exact Delivered.mono _ (hs.used call hcall n hn)
  · exact hused call hcall n hn

/-- **Only delivered ports are used**, in every run in which all register requests carry a port.

**Proof sketch.** Induction on the rounds. A request that carries a port has it where the server
reads it, so the name was delivered by this request; whatever else is used is in the list. -/
theorem provenance {req : Buffer} {rs : List Receipt} {s : Server × List Call}
    (hrs : EveryCarriesPort rs) (h : exec loopStep (start req) rs = some s) : Provenance rs s := by
  have hrun : EveryCarriesPort rs → Provenance rs s := by
    refine trace_invariant (P := fun rs s => EveryCarriesPort rs → Provenance rs s) ?_ ?_ h
    · exact fun _ => ⟨fun e he => absurd he List.not_mem_nil, fun c hc => absurd hc List.not_mem_nil⟩
    · intro rs r s t hs hstep hrs
      refine (hs fun m hm => hrs m (List.mem_append_left _ hm)).step ?_ hstep
      rintro m rfl
      exact hrs m (List.mem_append_right _ (List.mem_singleton_self _))
  exact hrun hrs

/-! ## Forged names -/

/-- A simple message with the id of a register request and a name where it has its port. -/
def forged (n : PortName) : Message where
  bits := 18
  remote := 0x907
  reply := 0
  voucher := 0
  id := registerMsghId
  descriptors := []
  body := word 1 ++ word n ++ List.replicate 144 0

/-- It is no complex message. -/
lemma not_isComplex_forged (n : PortName) : ¬(forged n).IsComplex :=
  show ¬(18 : UInt32) &&& complexBit ≠ 0 by decide

/-- What is behind its header. -/
lemma payload_forged (n : PortName) :
    (forged n).payload = word 1 ++ word n ++ List.replicate 144 0 :=
  if_neg (not_isComplex_forged n)

/-- What the server reads in such a message. -/
lemma read_forged (req : Buffer) (n : PortName) :
    regPort (fill req (forged n).bytes) = n ∧
      regName (fill req (forged n).bytes) = List.replicate 128 0 := by
  have hheader : (forged n).header.length = 24 := by simp [Message.header]
  constructor
  · have hsplit : (forged n).bytes = (forged n).header ++ word 1 ++ word n ++
        (List.replicate 144 0 ++ (word 0 ++ word 8)) := by
      simp only [Message.bytes, payload_forged, List.append_assoc]
    rw [regPort, hsplit]
    exact wordAt_fill req _ n _ (by simp [hheader])
  · have hsplit : (forged n).bytes = (forged n).header ++ word 1 ++ word n ++
        List.replicate 16 0 ++ List.replicate 128 0 ++ (word 0 ++ word 8) := by
      have hzeros : List.replicate 144 (0 : UInt8) = List.replicate 16 0 ++ List.replicate 128 0 := by
        rw [List.replicate_append_replicate]
      simp only [Message.bytes, payload_forged, hzeros, List.append_assoc]
    have hfield := field_fill req ((forged n).header ++ word 1 ++ word n ++ List.replicate 16 0)
      (List.replicate 128 0) (word 0 ++ word 8)
    rw [← hsplit] at hfield
    simp only [List.length_append, List.length_replicate, length_word, hheader] at hfield
    exact hfield

/-- What the server does with such a message. -/
lemma turn_forged (s : Server) (n : PortName) : ∃ req, turn s (.message (forged n)) = some
    (⟨storePort s.services (copyName (List.replicate 128 0)) n, req⟩,
      (findLocked s.services (copyName (List.replicate 128 0))).toList.map Call.deallocate ++
        [.replySimple 0x907 (registerMsghId + 100) kernSuccess]) := by
  have hfits : (forged n).bytes.length ≤ bufferSize := by
    simp [Message.bytes, Message.header, payload_forged, bufferSize]
  obtain ⟨hport, hname⟩ := read_forged s.req n
  exact ⟨_, Message.turn_register s rfl hfits hname hport⟩

/-- A request as the client library sends it, for the service `s`. -/
def genuine : Message where
  bits := complexBit ||| 18
  remote := 0x907
  reply := 0
  voucher := 0
  id := registerMsghId
  descriptors := [.port 0xa03 0 0 typePortSend]
  body := List.replicate 8 0 ++ 115 :: List.replicate 127 0

/-- A request for the port of the service. -/
def inquiry : Message where
  bits := 18
  remote := 0xb07
  reply := 0
  voucher := 0
  id := lookUpMsghId
  descriptors := []
  body := List.replicate 8 0 ++ 115 :: List.replicate 127 0

/-- A port is registered, and handed out to who asks for it. -/
theorem provenance_genuine :
    ∃ s, exec loopStep (start fun _ => 0) [.message genuine, .message inquiry] = some s ∧
      Call.replyPort 0xb07 9101 0xa03 ∈ s.2 ∧
      Provenance [.message genuine, .message inquiry] s := by
  have hrun : (exec loopStep (start fun _ => 0) [.message genuine, .message inquiry]).any
      (fun s => decide (Call.replyPort 0xb07 9101 0xa03 ∈ s.2)) = true := by decide +kernel
  obtain ⟨s, hs, hcall⟩ := (Option.any_eq_true _ _).mp hrun
  refine ⟨s, hs, of_decide_eq_true hcall, provenance ?_ hs⟩
  intro m hm hid
  obtain h | h := List.mem_pair.mp hm
  · obtain rfl := Receipt.message.inj h
    exact ⟨by decide, _, rfl, 0xa03, rfl, rfl, by decide, by decide⟩
  · obtain rfl := Receipt.message.inj h
    exact absurd hid (by decide)

/-- One simple message is enough for a name that was never delivered. -/
theorem not_provenance_forged : ∃ s,
    exec loopStep (start fun _ => 0) [.message (forged 0x103)] = some s ∧
      ¬Provenance [.message (forged 0x103)] s := by
  obtain ⟨req, ht⟩ := turn_forged (start fun _ => 0).1 0x103
  refine ⟨_, by rw [exec, loopStep, ht]; rfl, fun h => ?_⟩
  obtain ⟨m, hm, -, hcomplex, -⟩ := h.stored _ List.mem_cons_self
  obtain rfl := Receipt.message.inj (List.mem_singleton.mp hm)
  exact not_isComplex_forged 0x103 hcomplex

end Asteros.Launchd
