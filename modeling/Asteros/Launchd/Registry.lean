import Asteros.Lib.PortSpace
import Asteros.Lib.Transition
import Asteros.Launchd.Bootstrap

set_option autoImplicit false

/-!
# The registry as a map

What the bootstrap server does for clients that keep to its protocol. The kernel hands it every right
under one name for each port, with one more user reference for each copy; the server gives a reference
back when it replaces an entry. So it has one reference for each entry, and a look-up finds the port
that was registered last.

## Main definitions

* `Request` — what clients ask for.
* `Machine` — the server and the names of its task.
* `lastPort` — the port a name was registered with last.
* `IsMap` — the server answers so, and its references are balanced.

## Main results

* `isMap` — after every sequence of requests.
-/

namespace Asteros.Launchd

open KeyedList PortSpace Transition

variable {π : Type} [DecidableEq π]

/-! ## Requests -/

/-- What a client asks for, with the bytes of the name field and the right to reply with. -/
inductive Request (π : Type) where
  | register (name : Vector UInt8 maxNameLen) (port : π) (remote : PortName)
  | lookUp (name : Vector UInt8 maxNameLen) (remote : PortName)

/-- A `bootstrap_register_request`, with the name the port has in the task of the server. -/
def registerMessage (name : Vector UInt8 maxNameLen) (port remote : PortName) : Message where
  bits := complexBit ||| 18
  remote := remote
  reply := machPortNull
  voucher := machPortNull
  id := registerMsghId
  descriptors := [.port port 0 0 typePortSend]
  body := List.replicate 8 0 ++ name.toList

/-- A `bootstrap_look_up_request`. -/
def lookUpMessage (name : Vector UInt8 maxNameLen) (remote : PortName) : Message where
  bits := 18
  remote := remote
  reply := machPortNull
  voucher := machPortNull
  id := lookUpMsghId
  descriptors := []
  body := List.replicate 8 0 ++ name.toList

/-- The server, and what the names of its task stand for. -/
structure Machine (π : Type) where
  server : Server
  space : Space PortName π

/-- What the kernel does with the rights of the server for a call. A right that is sent as a copy
stays. -/
def perform (space : Space PortName π) : Call → Space PortName π
  | .deallocate name => space.deallocate name
  | .replySimple .. => space
  | .replyPort .. => space

/-- A request is received and served. The kernel delivers a port for which the task has no name yet
under `fresh`. -/
def serve (m : Machine π) : Request π × PortName → Option (Machine π × List Call)
  | (.register name port remote, fresh) => do
    let (n, space) ← m.space.deliver port fresh
    let (server, calls) ← turn m.server (.message (registerMessage name n remote))
    some (⟨server, calls.foldl perform space⟩, calls)
  | (.lookUp name remote, _) => do
    let (server, calls) ← turn m.server (.message (lookUpMessage name remote))
    some (⟨server, calls.foldl perform m.space⟩, calls)

/-- The machine after a request. -/
def serveStep (m : Machine π) (r : Request π × PortName) : Option (Machine π) :=
  (serve m r).map Prod.fst

/-- The server at the start, with the rights its task has. -/
def Machine.start (space : Space PortName π) (req : Buffer) : Machine π :=
  ⟨{ services := [], req }, space⟩

/-! ## What it should be -/

/-- Names are the same if their first 127 bytes are, up to a NUL. -/
def SameName (name name' : List UInt8) : Prop := cut 127 name = cut 127 name'

instance (name name' : List UInt8) : Decidable (SameName name name') :=
  inferInstanceAs (Decidable (_ = _))

/-- The port of the most recent register request for a name. -/
def lastPort (rs : List (Request π)) (name : List UInt8) : Option π :=
  rs.foldl (fun last r =>
    match r with
    | .register name' port _ => if SameName name'.toList name then some port else last
    | .lookUp .. => last) none

/-- The answer to a look-up: the name of the port, if there is one. -/
def answer (remote : PortName) : Option PortName → Call
  | some n => .replyPort remote (lookUpMsghId + 100) n
  | none => .replySimple remote (lookUpMsghId + 100) kernInvalidName

/-- The port that the list has for a name. -/
def Machine.registered (m : Machine π) (name : List UInt8) : Option π :=
  (findLocked m.server.services (copyName name)).bind m.space.portOf

/-- **The server is a map**, after these requests, and its references are balanced: but for those the
task had at the start, there is one for each entry. -/
structure IsMap (start : Space PortName π) (rs : List (Request π)) (m : Machine π) : Prop where
  distinct : m.server.services.Pairwise fun e e' => strncmp maxNameLen e.1 e'.1 = false
  answers : ∀ name remote fresh, ∃ m' n, serve m (.lookUp name remote, fresh) =
    some (m', [answer remote n]) ∧ n.bind m.space.portOf = lastPort rs name.toList ∧
      (n.isSome ↔ (lastPort rs name.toList).isSome)
  others : ∀ name port remote fresh m', serveStep m (.register name port remote, fresh) = some m' →
    ∀ name' : List UInt8, ¬SameName name.toList name' → m'.registered name' = m.registered name' ∧
      findLocked m'.server.services (copyName name') = findLocked m.server.services (copyName name')
  valid : ∀ e ∈ m.server.services, ∃ p, m.space.portOf e.2 = some p ∧ 0 < m.space.refs e.2
  balance : ∀ p, m.space.urefs p = start.urefs p +
    m.server.services.countP fun e => m.space.portOf e.2 = some p
  served : ∀ r fresh, m.space.entry fresh = none → (serve m (r, fresh)).isSome

/-! ## What the server reads -/

/-- The name in a message of a client. -/
lemma name_of_split {req : Buffer} {bytes pre : List UInt8} {name : Vector UInt8 maxNameLen}
    {post : List UInt8} (hsplit : bytes = pre ++ name.toList ++ post) {offset : ℕ}
    (hoffset : pre.length = offset) : field (fill req bytes) offset maxNameLen = name.toList := by
  subst hoffset
  have hfield := field_fill req pre name.toList post
  rw [Vector.length_toList] at hfield
  rw [hsplit]
  exact hfield

/-- What is done with a register request of a client. -/
lemma turn_registerMessage (s : Server) (name : Vector UInt8 maxNameLen) (n remote : PortName) :
    ∃ req, turn s (.message (registerMessage name n remote)) = some
      (⟨storePort s.services (copyName name.toList) n, req⟩,
        (findLocked s.services (copyName name.toList)).toList.map Call.deallocate ++
          [.replySimple remote (registerMsghId + 100) kernSuccess]) := by
  let m : Message := registerMessage name n remote
  have hcomplex : m.IsComplex := show (complexBit ||| 18) &&& complexBit ≠ 0 by decide
  have hpayload : m.payload = word 1 ++ (Descriptor.port n 0 0 typePortSend).bytes ++
      (List.replicate 8 0 ++ name.toList) := by
    rw [Message.payload, if_pos hcomplex]
    simp only [m, registerMessage, List.flatMap_singleton]
    rfl
  have hsplit : m.bytes = m.header ++ word 1 ++ (Descriptor.port n 0 0 typePortSend).bytes ++
      List.replicate 8 0 ++ name.toList ++ (word 0 ++ word 8) := by
    simp only [Message.bytes, hpayload, List.append_assoc]
  have hlength : (Descriptor.port n 0 0 typePortSend).bytes.length = 12 := by
    simp [Descriptor.bytes]
  have hfits : m.bytes.length ≤ bufferSize := by
    have hname : name.toList.length = 128 := name.length_toList
    rw [hsplit]
    simp [Message.header, hlength, bufferSize, hname]
  refine ⟨_, Message.turn_register s rfl hfits ?_ (m.regPort_fill s.req hcomplex rfl)⟩
  exact name_of_split hsplit (by simp [Message.header, hlength])

/-- What is done with a look-up of a client. -/
lemma turn_lookUpMessage (s : Server) (name : Vector UInt8 maxNameLen) (remote : PortName) :
    ∃ req, turn s (.message (lookUpMessage name remote)) =
      some (⟨s.services, req⟩, [answer remote (findLocked s.services (copyName name.toList))]) := by
  generalize hmessage : lookUpMessage name remote = m
  have hsimple : ¬m.IsComplex := by
    subst hmessage
    exact show ¬(18 : UInt32) &&& complexBit ≠ 0 by decide
  have hsplit : m.bytes = m.header ++ List.replicate 8 0 ++ name.toList ++ (word 0 ++ word 8) := by
    rw [Message.bytes, Message.payload, if_neg hsimple]
    subst hmessage
    simp only [lookUpMessage, List.append_assoc]
  have hfits : m.bytes.length ≤ bufferSize := by
    have hname : name.toList.length = 128 := name.length_toList
    rw [hsplit]
    simp [Message.header, bufferSize, hname]
  have hname : lookupName (fill s.req m.bytes) = name.toList :=
    name_of_split hsplit (by simp [Message.header])
  have hid : m.id = lookUpMsghId := by rw [← hmessage, lookUpMessage]
  have hremote : m.remote = remote := by rw [← hmessage, lookUpMessage]
  refine ⟨fill s.req m.bytes, ?_⟩
  rw [turn, if_pos hfits, dispatch]
  simp only [m.headId_fill, hid, show ¬lookUpMsghId = registerMsghId by decide, ↓reduceIte,
    handleLookUp, hname, m.headRemote_fill, hremote]
  cases findLocked s.services (copyName name.toList) with
  | none => rfl
  | some n => rfl

/-! ## One request -/

/-- The entries with a name of a port. -/
def entriesNaming (services : List Service) (n : PortName) : ℕ :=
  services.countP fun e => e.2 = n

/-- **The invariant**: all names of the list are valid and counted, and the list has the ports that
were registered last. -/
structure Balanced (start : Space PortName π) (rs : List (Request π)) (m : Machine π) : Prop where
  distinct : Distinct (strncmp maxNameLen) m.server.services
  valid : ∀ e ∈ m.server.services, ∃ p, m.space.portOf e.2 = some p
  refs : ∀ n p, m.space.portOf n = some p →
    m.space.refs n = start.urefs p + entriesNaming m.server.services n
  named : ∀ p, 0 < start.urefs p → ∃ n, m.space.portOf n = some p
  registered : ∀ name, m.registered name = lastPort rs name

/-- An entry is counted. -/
lemma entriesNaming_pos {services : List Service} {e : Service} (he : e ∈ services) :
    0 < entriesNaming services e.2 :=
  List.countP_pos_iff.mpr ⟨e, he, decide_eq_true rfl⟩

omit [DecidableEq π] in
/-- What is registered last does not depend on look-ups. -/
lemma lastPort_concat_lookUp (rs : List (Request π)) (name : Vector UInt8 maxNameLen)
    (remote : PortName) (name' : List UInt8) :
    lastPort (rs ++ [Request.lookUp name remote]) name' = lastPort rs name' := by
  rw [lastPort, List.foldl_concat]
  rfl

omit [DecidableEq π] in
/-- A register request sets what is registered last. -/
lemma lastPort_concat_register (rs : List (Request π)) (name : Vector UInt8 maxNameLen) (port : π)
    (remote : PortName) (name' : List UInt8) :
    lastPort (rs ++ [Request.register name port remote]) name' =
      if SameName name.toList name' then some port else lastPort rs name' := by
  rw [lastPort, List.foldl_concat]
  rfl

/-- What a look-up does. -/
lemma serve_lookUp (m : Machine π) (name : Vector UInt8 maxNameLen) (remote fresh : PortName) :
    ∃ req, serve m (.lookUp name remote, fresh) =
      some (⟨⟨m.server.services, req⟩, m.space⟩,
        [answer remote (findLocked m.server.services (copyName name.toList))]) := by
  obtain ⟨req, hturn⟩ := turn_lookUpMessage m.server name remote
  refine ⟨req, ?_⟩
  rw [serve, hturn]
  cases findLocked m.server.services (copyName name.toList) with
  | none => rfl
  | some n => rfl

/-- What a register request does to the rights: those of an entry that is replaced lose one. -/
def drop (space : Space PortName π) : Option PortName → Space PortName π
  | some old => space.deallocate old
  | none => space

/-- What a register request does. -/
lemma serve_register {m : Machine π} (name : Vector UInt8 maxNameLen) {port : π}
    (remote : PortName) {fresh n : PortName} {space : Space PortName π}
    (hdeliver : m.space.deliver port fresh = some (n, space)) :
    ∃ req calls, serve m (.register name port remote, fresh) =
      some (⟨⟨storePort m.server.services (copyName name.toList) n, req⟩,
        drop space (findLocked m.server.services (copyName name.toList))⟩, calls) := by
  obtain ⟨req, hturn⟩ := turn_registerMessage m.server name n remote
  rw [serve, hdeliver]
  simp only [Option.bind_eq_bind, Option.bind_some, hturn]
  refine ⟨req, _, congrArg some (Prod.ext (congrArg (Machine.mk _) ?_) rfl)⟩
  cases findLocked m.server.services (copyName name.toList) with
  | none => rfl
  | some old => rfl

/-- The entries that name a port after a register request: one more for the new name, one less for
the old. -/
lemma entriesNaming_storePort (services : List Service) (name : List UInt8) (n m : PortName) :
    entriesNaming (storePort services name n) m +
        (if findLocked services name = some m then 1 else 0) =
      entriesNaming services m + if m = n then 1 else 0 := by
  unfold storePort
  split
  · next old hfound =>
    have hcount := countP_replace (v := n) hfound (fun x => x = m)
    rw [hfound]
    simp only [Option.some.injEq, eq_comm (a := m)]
    exact hcount
  · next hnone =>
    rw [hnone]
    simp only [entriesNaming, List.countP_cons, decide_eq_true_eq, eq_comm (a := m)]
    rfl

/-- The references of a name after a right was dropped. -/
lemma refs_drop (space : Space PortName π) (old : Option PortName) (m : PortName) :
    (drop space old).refs m = space.refs m - if old = some m then 1 else 0 := by
  cases old with
  | none => rfl
  | some old =>
    rw [drop, Space.refs_deallocate]
    simp only [Option.some.injEq, eq_comm]

/-- Names with references are kept. -/
lemma portOf_drop {space : Space PortName π} {old : Option PortName} {m : PortName} {p : π}
    (hm : space.portOf m = some p) (hleft : 0 < (drop space old).refs m) :
    (drop space old).portOf m = some p := by
  cases old with
  | none => exact hm
  | some old => exact Space.portOf_deallocate hm hleft

/-- No new ones are made. -/
lemma portOf_of_drop {space : Space PortName π} {old : Option PortName} {m : PortName} {p : π}
    (hm : (drop space old).portOf m = some p) : space.portOf m = some p := by
  cases old with
  | none => exact hm
  | some old => exact Space.portOf_of_deallocate hm

section Register

variable {start : Space PortName π} {rs : List (Request π)} {m : Machine π}
  {port : π} {n : PortName} {space : Space PortName π} {name : List UInt8}

omit [DecidableEq π] in
/-- After the delivery the new name has one reference more than entries. -/
lemma Balanced.refs_delivered (hm : Balanced start rs m) (hd : m.space.Delivers port n space)
    {x : PortName} {p : π} (hx : space.portOf x = some p) : space.refs x =
      start.urefs p + entriesNaming m.server.services x + if x = n then 1 else 0 := by
  rw [hd.refs]
  congr 1
  cases hold : m.space.portOf x with
  | some q =>
    obtain rfl := Option.some.inj ((hd.kept x q hold).symm.trans hx)
    exact hm.refs x q hold
  | none =>
    -- the name is new, so nothing is counted under it yet
    have hentries : entriesNaming m.server.services x = 0 := by
      refine List.countP_eq_zero.mpr fun e he hex => ?_
      obtain ⟨q, hq⟩ := hm.valid e he
      rw [of_decide_eq_true hex, hold] at hq
      cases hq
    have hstart : start.urefs p = 0 := by
      by_contra hpos
      obtain ⟨y, hy⟩ := hm.named p (Nat.pos_of_ne_zero hpos)
      obtain rfl := Space.portOf_inj (hd.kept y p hy) hx
      rw [hold] at hy
      cases hy
    rw [Space.refs_of_portOf_eq_none hold, hentries, hstart]

/-- After the request there are as many again. -/
lemma Balanced.refs_stored (hm : Balanced start rs m) (hd : m.space.Delivers port n space)
    {x : PortName} {p : π} (hx : space.portOf x = some p) :
    (drop space (findLocked m.server.services name)).refs x =
      start.urefs p + entriesNaming (storePort m.server.services name n) x := by
  have hcount := entriesNaming_storePort m.server.services name n x
  have hdelivered := hm.refs_delivered hd hx
  rw [refs_drop]
  by_cases hold : findLocked m.server.services name = some x
  · obtain ⟨e, he, rfl⟩ := Option.map_eq_some_iff.mp hold
    have hpos := entriesNaming_pos (List.mem_of_find?_eq_some he)
    rw [if_pos hold] at hcount ⊢
    omega
  · rw [if_neg hold] at hcount ⊢
    omega

omit [DecidableEq π] in
/-- The names of the list after the request were valid before. -/
lemma Balanced.valid_delivered (hm : Balanced start rs m) (hd : m.space.Delivers port n space)
    {e : Service} (he : e ∈ storePort m.server.services name n) :
    ∃ p, space.portOf e.2 = some p ∧ ∀ q, m.space.portOf e.2 = some q → q = p := by
  have hold : e ∈ m.server.services ∨ e.2 = n := by
    unfold storePort at he
    split at he
    · exact mem_replace he
    · obtain rfl | he := List.mem_cons.mp he
      · exact Or.inr rfl
      · exact Or.inl he
  have hvalid : ∃ p, space.portOf e.2 = some p := by
    rcases hold with hmem | hn
    · obtain ⟨p, hp⟩ := hm.valid e hmem
      exact ⟨p, hd.kept _ p hp⟩
    · exact ⟨port, by rw [hn]; exact hd.here⟩
  obtain ⟨p, hp⟩ := hvalid
  exact ⟨p, hp, fun q hq => Option.some.inj ((hd.kept _ q hq).symm.trans hp)⟩

/-- They still are. -/
lemma Balanced.valid_stored (hm : Balanced start rs m) (hd : m.space.Delivers port n space)
    {e : Service} (he : e ∈ storePort m.server.services name n) {p : π}
    (hp : space.portOf e.2 = some p) :
    (drop space (findLocked m.server.services name)).portOf e.2 = some p := by
  refine portOf_drop hp ?_
  have hpos := entriesNaming_pos he
  rw [hm.refs_stored hd hp]
  omega

/-- **A register request keeps the invariant.** -/
lemma Balanced.register (hm : Balanced start rs m) {vname : Vector UInt8 maxNameLen}
    {remote : PortName} (hd : m.space.Delivers port n space) (req : Buffer) :
    Balanced start (rs ++ [Request.register vname port remote])
      ⟨⟨storePort m.server.services (copyName vname.toList) n, req⟩,
        drop space (findLocked m.server.services (copyName vname.toList))⟩ := by
  refine ⟨?_, fun e he => ?_, fun x p hx => ?_, fun p hp => ?_, fun name' => ?_⟩
  · unfold storePort
    split
    · exact hm.distinct.replace _ _
    · next hnone =>
      refine hm.distinct.cons (lawful_strncmp _) ?_ n
      rw [← hnone]
      refine find_congr (lawful_strncmp _) ?_ _
      rw [strncmp_copyName, cut_copyName_eq]
  · obtain ⟨p, hp, -⟩ := hm.valid_delivered hd he
    exact ⟨p, hm.valid_stored hd he hp⟩
  · exact hm.refs_stored hd (portOf_of_drop hx)
  · obtain ⟨x, hx⟩ := hm.named p hp
    have hx' := hd.kept x p hx
    refine ⟨x, portOf_drop hx' ?_⟩
    rw [hm.refs_stored hd hx']
    omega
  · rw [lastPort_concat_register, ← hm.registered]
    unfold Machine.registered
    dsimp only
    by_cases hsame : SameName vname.toList name'
    · have hstored := (findLocked_storePort m.server.services _ name' n).trans (if_pos hsame)
      rw [if_pos hsame, hstored, Option.bind_some]
      obtain ⟨e, he, rfl⟩ := mem_of_findLocked hstored
      exact hm.valid_stored hd he hd.here
    · have hstored := (findLocked_storePort m.server.services _ name' n).trans (if_neg hsame)
      rw [if_neg hsame, hstored]
      cases hfound : findLocked m.server.services (copyName name') with
      | none => rfl
      | some x =>
        obtain ⟨e, he, rfl⟩ := mem_of_findLocked (hstored.trans hfound)
        obtain ⟨e', he', hsame'⟩ := mem_of_findLocked hfound
        obtain ⟨p, hp, hagree⟩ := hm.valid_delivered hd he
        obtain ⟨q, hq⟩ := hm.valid e' he'
        rw [hsame'] at hq
        rw [Option.bind_some, Option.bind_some, hm.valid_stored hd he hp, hq, hagree q hq]

end Register

/-- **Every request keeps the invariant.** -/
lemma Balanced.step {start : Space PortName π} {rs : List (Request π)} {m m' : Machine π}
    {r : Request π × PortName} (hm : Balanced start rs m) (h : serveStep m r = some m') :
    Balanced start (rs ++ [r.1]) m' := by
  obtain ⟨⟨m'', calls⟩, hserve, rfl⟩ := Option.map_eq_some_iff.mp h
  obtain ⟨r, fresh⟩ := r
  cases r with
  | lookUp name remote =>
    obtain ⟨req, hreq⟩ := serve_lookUp m name remote fresh
    obtain ⟨rfl, -⟩ := Prod.mk.inj (Option.some.inj (hreq.symm.trans hserve))
    refine ⟨hm.distinct, hm.valid, hm.refs, hm.named, fun name' => ?_⟩
    rw [lastPort_concat_lookUp]
    exact hm.registered name'
  | register name port remote =>
    cases hdeliver : m.space.deliver port fresh with
    | none =>
      rw [serve, hdeliver] at hserve
      cases hserve
    | some t =>
      obtain ⟨req, calls', hreq⟩ := serve_register name remote hdeliver
      obtain ⟨rfl, -⟩ := Prod.mk.inj (Option.some.inj (hreq.symm.trans hserve))
      exact hm.register (.of_deliver hdeliver) req

omit [DecidableEq π] in
/-- The invariant at the start. -/
lemma balanced_start (space : Space PortName π) (req : Buffer) :
    Balanced space [] (Machine.start space req) := by
  refine ⟨List.Pairwise.nil, fun e he => absurd he List.not_mem_nil, fun n p hn => ?_,
    fun p hp => ?_, fun name => rfl⟩
  · exact (space.urefs_of_portOf hn).symm
  · cases hname : space.nameOf p with
    | none =>
      change 0 < space.urefs p at hp
      rw [Space.urefs, hname] at hp
      exact absurd hp (Nat.lt_irrefl 0)
    | some n => exact ⟨n, space.nameOf_eq_some_iff.mp hname⟩

/-! ## The registry is a map -/

section Map

variable {start : Space PortName π} {rs : List (Request π)} {m : Machine π}
  (hm : Balanced start rs m)

include hm

/-- A look-up is answered with what was registered last. -/
lemma Balanced.answers (name : Vector UInt8 maxNameLen) (remote fresh : PortName) :
    ∃ m' n, serve m (.lookUp name remote, fresh) = some (m', [answer remote n]) ∧
      n.bind m.space.portOf = lastPort rs name.toList ∧
      (n.isSome ↔ (lastPort rs name.toList).isSome) := by
  obtain ⟨req, hserve⟩ := serve_lookUp m name remote fresh
  refine ⟨_, _, hserve, hm.registered name.toList, ?_⟩
  rw [← hm.registered, Machine.registered]
  cases hfound : findLocked m.server.services (copyName name.toList) with
  | none => rfl
  | some n =>
    obtain ⟨e, he, rfl⟩ := mem_of_findLocked hfound
    obtain ⟨p, hp⟩ := hm.valid e he
    rw [Option.bind_some, hp]
    exact Iff.rfl

/-- Other names keep their entries. -/
lemma Balanced.others (name : Vector UInt8 maxNameLen) (port : π) (remote fresh : PortName)
    {m' : Machine π} (h : serveStep m (.register name port remote, fresh) = some m')
    {name' : List UInt8} (hother : ¬SameName name.toList name') :
    m'.registered name' = m.registered name' ∧
      findLocked m'.server.services (copyName name') =
        findLocked m.server.services (copyName name') := by
  refine ⟨?_, ?_⟩
  · rw [(hm.step h).registered, lastPort_concat_register, if_neg hother, hm.registered]
  · obtain ⟨⟨m'', calls⟩, hserve, rfl⟩ := Option.map_eq_some_iff.mp h
    cases hdeliver : m.space.deliver port fresh with
    | none =>
      rw [serve, hdeliver] at hserve
      cases hserve
    | some t =>
      obtain ⟨req, calls', hreq⟩ := serve_register name remote hdeliver
      obtain ⟨rfl, -⟩ := Prod.mk.inj (Option.some.inj (hreq.symm.trans hserve))
      exact (findLocked_storePort ..).trans (if_neg hother)

/-- The references are those at the start and one for each entry. -/
lemma Balanced.balance (p : π) : m.space.urefs p = start.urefs p +
    m.server.services.countP fun e => m.space.portOf e.2 = some p := by
  cases hname : m.space.nameOf p with
  | some n =>
    have hport := m.space.nameOf_eq_some_iff.mp hname
    rw [m.space.urefs_of_portOf hport, hm.refs n p hport, entriesNaming]
    congr 1
    refine List.countP_congr fun e _ => ?_
    simp only [decide_eq_true_eq]
    refine ⟨fun he => by rw [he]; exact hport, fun he => Space.portOf_inj he hport⟩
  | none =>
    have hunnamed : ∀ n, m.space.portOf n ≠ some p := by
      intro n hn
      rw [m.space.nameOf_eq_some_iff.mpr hn] at hname
      cases hname
    have hstart : start.urefs p = 0 := by
      by_contra hpos
      obtain ⟨n, hn⟩ := hm.named p (Nat.pos_of_ne_zero hpos)
      exact hunnamed n hn
    have hcount : (m.server.services.countP fun e => m.space.portOf e.2 = some p) = 0 :=
      List.countP_eq_zero.mpr fun e _ he => hunnamed e.2 (of_decide_eq_true he)
    rw [Space.urefs, hname, hstart, hcount]
    rfl

omit hm in
/-- A request is served if the kernel has a name for the port. -/
lemma isSome_serve (r : Request π) {fresh : PortName} (hfresh : m.space.entry fresh = none) :
    (serve m (r, fresh)).isSome := by
  cases r with
  | lookUp name remote =>
    obtain ⟨req, hserve⟩ := serve_lookUp m name remote fresh
    exact Option.isSome_of_eq_some hserve
  | register name port remote =>
    obtain ⟨t, ht⟩ := Option.isSome_iff_exists.mp (Space.isSome_deliver hfresh port)
    obtain ⟨req, calls, hserve⟩ := serve_register name remote ht
    exact Option.isSome_of_eq_some hserve

end Map

/-- **The bootstrap registry is a name-to-port map**, after every sequence of requests of clients,
whatever rights the task of the server has at the start.

**Proof sketch.** Induction on the requests. A delivery adds a reference under the name of the port,
and a replacement drops one of the name that was stored: even if both are the same name, there is one
for each entry afterwards, so that no name of the list goes. -/
theorem isMap {start : Space PortName π} {req : Buffer} {as : List (Request π × PortName)}
    {m : Machine π} (h : exec serveStep (Machine.start start req) as = some m) :
    IsMap start (as.map Prod.fst) m := by
  have hm : Balanced start (as.map Prod.fst) m := by
    refine trace_invariant (P := fun as m => Balanced start (as.map Prod.fst) m)
      (balanced_start start req) (fun as a t v ht hstep => ?_) h
    rw [List.map_append]
    exact ht.step hstep
  refine ⟨hm.distinct, hm.answers, fun name port remote fresh m' h name' hother => ?_,
    fun e he => ?_, hm.balance, fun r fresh => isSome_serve r⟩
  · exact hm.others name port remote fresh h hother
  · obtain ⟨p, hp⟩ := hm.valid e he
    refine ⟨p, hp, ?_⟩
    rw [hm.refs _ p hp]
    exact Nat.lt_of_lt_of_le (entriesNaming_pos he) (Nat.le_add_left _ _)

/-- The name `s`. -/
def nameS : Vector UInt8 maxNameLen := .ofFn fun i => if i.1 = 0 then 115 else 0

/-- A port that is registered twice under one name is still there. -/
theorem isMap_twice : ∃ m : Machine ℕ, exec serveStep (Machine.start Space.empty fun _ => 0)
      [(.register nameS 5 0x907, 0xa03), (.register nameS 5 0x907, 0xb03)] = some m ∧
    IsMap Space.empty [.register nameS 5 0x907, .register nameS 5 0x907] m := by
  have hrun : (exec serveStep (Machine.start (Space.empty : Space PortName ℕ) fun _ => 0)
      [(.register nameS 5 0x907, 0xa03), (.register nameS 5 0x907, 0xb03)]).isSome := by
    decide +kernel
  obtain ⟨m, hm⟩ := Option.isSome_iff_exists.mp hrun
  exact ⟨m, hm, isMap hm⟩

end Asteros.Launchd
