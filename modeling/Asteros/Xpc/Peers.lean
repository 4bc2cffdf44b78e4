import Asteros.Lib.PortSpace
import Asteros.Lib.Transition
import Mathlib.Data.List.Nodup
import Mathlib.Data.Nat.Basic
import Mathlib.Order.Basic

set_option autoImplicit false

/-!
# The peers of a listener

A listener gets the messages of all its clients on one port, and tells them apart by the right for
answers that a message carries: the kernel delivers it under the name that the task has for the
client's port. `find_or_create_peer` looks the name up among the peers. If it is there, the
reference that came with the message is given up; if not, the reference is kept and a new connection
goes on the list, which the handler of the listener is called with.

A message may carry no right, and its name is `MACH_PORT_NULL` or `MACH_PORT_DEAD` then; and the
rest of the task may hold rights for the same ports, its references being counted under the same
names. Both go on beside the listener here.

## Main definitions

* `Listener`, `step` — the listener with its peers, what holds references to them, and the names of
  the task.
* `Demultiplexed` — one peer for each name, and one reference beside those of the rest of the task.

## Main results

* `demultiplexed_run` — in every run.
* `not_refs_one` — which are two references for a port the task has a right for.
-/

namespace Asteros.Xpc.Peers

open PortSpace Transition

/-- `mach_port_name_t`. -/
abbrev PortName := UInt32

/-- `MACH_PORT_NULL`. -/
def machPortNull : PortName := 0

/-- `MACH_PORT_DEAD`. -/
def machPortDead : PortName := 0xffffffff

/-- The names that never stand for a port. -/
def reserved (n : PortName) : Bool := n = machPortNull || n = machPortDead

/-- The right for answers in a message. -/
inductive ReplyRight (π : Type) where
  /-- A send right; a port that the task has no name for gets the name `fresh`. -/
  | send (port : π) (fresh : PortName)
  /-- None: the sender has given none, or its port is gone. -/
  | none (name : PortName)

/-- `struct xpc_peer_entry`. -/
structure PeerEntry where
  /-- `remote_port`. -/
  remotePort : PortName
  /-- `conn`; connections are numbered in the order of their creation. -/
  conn : ℕ

/-- Where the receive thread is. -/
inductive RecvPc where
  /-- In `mach_msg`, or beyond `find_or_create_peer`. -/
  | receiving
  /-- It has made a connection, and the handler of the listener is called with it. -/
  | accepting (name : PortName) (c : ℕ)
  deriving DecidableEq

/-- A listener, in its task. -/
structure Listener (π : Type) where
  /-- The names of the task. -/
  space : Space PortName π
  /-- `peers`. -/
  peers : List PeerEntry := []
  /-- The number of connections made so far. -/
  created : ℕ := 0
  /-- The reference counts of the connections. -/
  refcnt : ℕ → ℕ := fun _ => 0
  /-- The connections that are destroyed. -/
  destroyed : ℕ → Bool := fun _ => false
  /-- The references to the connections that the program, its events and its dispatches have
  taken. -/
  held : ℕ → ℕ := fun _ => 0
  /-- The references to ports that the rest of the task has. -/
  others : π → ℕ
  /-- The receive thread. -/
  recv : RecvPc := .receiving
  /-- What the messages were routed to, latest first. -/
  routed : List PeerEntry := []

variable {π : Type} [DecidableEq π]

namespace Listener

variable (l : Listener π)

/-- `xpc_retain` of a connection. -/
def retain (c : ℕ) : Listener π :=
  { l with refcnt := Function.update l.refcnt c (l.refcnt c + 1) }

/-- `xpc_release` of a connection. -/
def release (c : ℕ) : Listener π :=
  { l with
    refcnt := Function.update l.refcnt c (l.refcnt c - 1)
    destroyed := Function.update l.destroyed c (l.destroyed c || l.refcnt c == 1) }

end Listener

/-- How the kernel delivers the right of a message: the name, and the names of the task. -/
def copyout (space : Space PortName π) : ReplyRight π → Option (PortName × Space PortName π)
  | .send port fresh => if reserved fresh then none else space.deliver port fresh
  | .none name => if reserved name then some (name, space) else none

/-- `find_or_create_peer`, up to the call of the handler. -/
def findOrCreatePeer (l : Listener π) (remoteName : PortName) : Listener π :=
  match l.peers.find? fun pe => pe.remotePort = remoteName with
  | some pe =>
    { l with
      space := l.space.deallocate remoteName
      routed := ⟨remoteName, pe.conn⟩ :: l.routed }
  | none =>
    let peer := l.created
    let l := { l with created := l.created + 1, refcnt := Function.update l.refcnt peer 1 }
    let l := l.retain peer
    { l with peers := ⟨remoteName, peer⟩ :: l.peers, recv := .accepting remoteName peer }

/-- A step of the receive thread, or of the rest of the task. -/
inductive Action (π : Type) where
  /-- The listener receives a message. -/
  | receive (reply : ReplyRight π)
  /-- The handler has returned, and `find_or_create_peer` returns the peer. -/
  | accepted
  /-- Somebody who can reach a connection takes a reference. -/
  | retain (c : ℕ)
  /-- Somebody gives up a reference they have taken. -/
  | release (c : ℕ)
  /-- The rest of the task gets a right for a port. -/
  | take (port : π) (fresh : PortName)
  /-- The rest of the task gives up a right it has. -/
  | drop (name : PortName)

/-- One step. -/
def step (l : Listener π) : Action π → Option (Listener π)
  | .receive reply =>
    match l.recv with
    | .receiving =>
      (copyout l.space reply).map fun r => findOrCreatePeer { l with space := r.2 } r.1
    | .accepting _ _ => none
  | .accepted =>
    match l.recv with
    | .accepting name c =>
      some { l.release c with recv := .receiving, routed := ⟨name, c⟩ :: l.routed }
    | .receiving => none
  | .retain c =>
    if c < l.created ∧ l.destroyed c = false then
      some { l.retain c with held := Function.update l.held c (l.held c + 1) }
    else none
  | .release c =>
    if 0 < l.held c then
      some { l.release c with held := Function.update l.held c (l.held c - 1) }
    else none
  | .take port fresh =>
    if reserved fresh then none
    else (l.space.deliver port fresh).map fun r =>
      { l with space := r.2, others := Function.update l.others port (l.others port + 1) }
  | .drop name =>
    match l.space.portOf name with
    | some port =>
      if 0 < l.others port then
        some { l with
          space := l.space.deallocate name
          others := Function.update l.others port (l.others port - 1) }
      else none
    | none => none

/-- A listener in a task whose rights are those of others. -/
def start (space : Space PortName π) : Listener π := { space := space, others := space.urefs }

/-- The run of a schedule. -/
def run (space : Space PortName π) (as : List (Action π)) : Option (Listener π) :=
  exec step (start space) as

/-- **The messages are demultiplexed.** -/
structure Demultiplexed (l : Listener π) : Prop where
  /-- No name is on the list twice. -/
  distinct : (l.peers.map PeerEntry.remotePort).Nodup
  /-- Messages with one name went to one connection, and with different names to different ones. -/
  routes : ∀ r ∈ l.routed, ∀ r' ∈ l.routed, r.remotePort = r'.remotePort ↔ r.conn = r'.conn
  /-- Between two messages, a known name stands for a port, with one reference beside those of the
  rest of the task, unless it never stands for one. -/
  refs : l.recv = .receiving → ∀ pe ∈ l.peers, reserved pe.remotePort ∨
    ∃ p, l.space.portOf pe.remotePort = some p ∧ l.space.refs pe.remotePort = l.others p + 1
  /-- A peer on the list is not destroyed. -/
  alive : ∀ pe ∈ l.peers, l.destroyed pe.conn = false ∧ 0 < l.refcnt pe.conn

/-! ## The invariant -/

/-- The reference that a list has for a name. -/
def listed (peers : List PeerEntry) (n : PortName) : ℕ :=
  if n ∈ peers.map PeerEntry.remotePort ∧ reserved n = false then 1 else 0

/-- The reference of `find_or_create_peer` for the connection it has made. -/
def RecvPc.refs (pc : RecvPc) (c : ℕ) : ℕ :=
  match pc with
  | .receiving => 0
  | .accepting _ d => if c = d then 1 else 0

/-- The invariant of a listener. -/
structure Balanced (l : Listener π) : Prop where
  /-- The references of the names are accounted for. -/
  account : l.space.Accounted l.others (listed l.peers)
  /-- The reserved names stand for nothing. -/
  clean : ∀ n, reserved n = true → l.space.portOf n = none
  /-- No name is on the list twice. -/
  names : (l.peers.map PeerEntry.remotePort).Nodup
  /-- No connection is on the list twice. -/
  conns : (l.peers.map PeerEntry.conn).Nodup
  /-- The connections on the list were made. -/
  made : ∀ pe ∈ l.peers, pe.conn < l.created
  /-- Connections that were not made are held by nobody. -/
  unmade : ∀ c, l.created ≤ c → l.held c = 0 ∧ l.destroyed c = false
  /-- Every reference of a connection on the list has a holder. -/
  count : ∀ pe ∈ l.peers, l.refcnt pe.conn = l.held pe.conn + l.recv.refs pe.conn + 1
  /-- A connection on the list is not destroyed. -/
  alive : ∀ pe ∈ l.peers, l.destroyed pe.conn = false
  /-- The new connection is on the list. -/
  accepting : ∀ n c, l.recv = .accepting n c → ⟨n, c⟩ ∈ l.peers
  /-- Messages were routed to connections on the list, under their names. -/
  routed : ∀ r ∈ l.routed, r ∈ l.peers

section

variable {l l' : Listener π} {n : PortName} {c d : ℕ} {sp : Space PortName π}
  {reply : ReplyRight π}

omit [DecidableEq π] in
/-- A name that is not on the list, put on it. -/
lemma listed_cons {peers : List PeerEntry} (hn : n ∉ peers.map PeerEntry.remotePort) :
    listed (⟨n, c⟩ :: peers) = fun m => listed peers m + if m = n ∧ reserved n = false then 1 else 0 := by
  funext m
  unfold listed
  by_cases hm : m = n
  · subst hm
    simp [hn]
  · simp [hm]

/-- **What the kernel delivers**: one reference more under the name, unless that is reserved. -/
lemma Balanced.copyout (h : Balanced l) (hr : copyout l.space reply = some (n, sp)) :
    (sp.Accounted l.others fun m =>
      listed l.peers m + if m = n ∧ reserved n = false then 1 else 0) ∧
    ∀ m, reserved m = true → sp.portOf m = none := by
  cases reply with
  | send port fresh =>
    simp only [Peers.copyout] at hr
    split at hr
    · cases hr
    · next hfresh =>
      have hd := Space.Delivers.of_deliver hr
      have hclean : ∀ m, reserved m = true → m ≠ n := by
        rintro m hm rfl
        rcases Space.portOf_of_deliver hr with hold | rfl
        · rw [h.clean m hm] at hold
          cases hold
        · exact hfresh hm
      have hn : reserved n = false := by
        by_contra hne
        exact hclean n (by simpa using hne) rfl
      refine ⟨?_, fun m hm => ?_⟩
      · simpa [hn] using h.account.deliver hd
      · by_contra hne
        obtain ⟨p, hp⟩ := Option.ne_none_iff_exists'.mp hne
        rcases hd.only m p hp with hold | hmn
        · rw [h.clean m hm] at hold
          cases hold
        · exact hclean m hm hmn
  | none name =>
    simp only [Peers.copyout] at hr
    split at hr
    · next hname =>
      cases hr
      refine ⟨?_, h.clean⟩
      simpa [hname] using h.account
    · cases hr

/-- A name that is on the list: the new reference is given up. -/
lemma Balanced.found (h : Balanced l) (hrecv : l.recv = .receiving)
    (haccount : sp.Accounted l.others fun m =>
      listed l.peers m + if m = n ∧ reserved n = false then 1 else 0)
    (hclean : ∀ m, reserved m = true → sp.portOf m = none) {pe : PeerEntry} (hpe : pe ∈ l.peers)
    (hname : pe.remotePort = n) :
    Balanced { l with
      space := sp.deallocate n
      routed := ⟨n, pe.conn⟩ :: l.routed } where
  account := by
    show (sp.deallocate n).Accounted l.others (listed l.peers)
    by_cases hres : reserved n = true
    · rw [Space.deallocate_of_portOf_eq_none (hclean n hres)]
      simpa [hres] using haccount
    · have hfree : reserved n = false := by simpa using hres
      have hdrop := haccount.deallocate (n := n) (by simp [hfree])
      simpa [hfree] using hdrop
  clean m hm := by
    by_contra hne
    obtain ⟨p, hp⟩ := Option.ne_none_iff_exists'.mp hne
    have hold := Space.portOf_of_deallocate hp
    rw [hclean m hm] at hold
    cases hold
  names := h.names
  conns := h.conns
  made := h.made
  unmade := h.unmade
  count := h.count
  alive := h.alive
  accepting m d hm := by
    rw [hrecv] at hm
    cases hm
  routed r hr := by
    rcases List.mem_cons.mp hr with rfl | hr
    · rw [← hname]
      exact hpe
    · exact h.routed r hr

omit [DecidableEq π] in
/-- A new name: the reference is kept, and a new connection goes on the list. -/
lemma Balanced.created (h : Balanced l) (hrecv : l.recv = .receiving)
    (haccount : sp.Accounted l.others fun m =>
      listed l.peers m + if m = n ∧ reserved n = false then 1 else 0)
    (hclean : ∀ m, reserved m = true → sp.portOf m = none)
    (hn : n ∉ l.peers.map PeerEntry.remotePort) :
    Balanced { l with
      space := sp
      created := l.created + 1
      refcnt := Function.update l.refcnt l.created 2
      peers := ⟨n, l.created⟩ :: l.peers
      recv := .accepting n l.created } where
  account := by
    show sp.Accounted l.others (listed (⟨n, l.created⟩ :: l.peers))
    rw [listed_cons hn]
    exact haccount
  clean := hclean
  names := List.nodup_cons.mpr ⟨hn, h.names⟩
  conns := by
    refine List.nodup_cons.mpr ⟨fun hmem => ?_, h.conns⟩
    obtain ⟨pe, hpe, hc⟩ := List.mem_map.mp hmem
    exact absurd hc (h.made pe hpe).ne
  made pe hpe := by
    rcases List.mem_cons.mp hpe with rfl | hpe
    · exact Nat.lt_succ_self _
    · exact (h.made pe hpe).trans (Nat.lt_succ_self _)
  unmade d hd := h.unmade d (Nat.le_of_succ_le hd)
  count pe hpe := by
    rcases List.mem_cons.mp hpe with rfl | hpe
    · simp [RecvPc.refs, (h.unmade l.created le_rfl).1]
    · have hne : pe.conn ≠ l.created := (h.made pe hpe).ne
      have hcount := h.count pe hpe
      rw [hrecv] at hcount
      simpa [RecvPc.refs, hne] using hcount
  alive pe hpe := by
    rcases List.mem_cons.mp hpe with rfl | hpe
    · exact (h.unmade l.created le_rfl).2
    · exact h.alive pe hpe
  accepting m d hm := by
    cases hm
    exact List.mem_cons_self
  routed r hr := List.mem_cons_of_mem _ (h.routed r hr)

/-- **A message is received.** -/
lemma Balanced.receive (h : Balanced l) (hs : step l (.receive reply) = some l') :
    Balanced l' := by
  simp only [step] at hs
  split at hs
  · next hrecv =>
    obtain ⟨⟨n, sp⟩, hr, rfl⟩ := Option.map_eq_some_iff.mp hs
    obtain ⟨haccount, hclean⟩ := h.copyout hr
    unfold findOrCreatePeer
    split
    · next pe hfind =>
      have hpe : pe ∈ l.peers := List.mem_of_find?_eq_some hfind
      have hname : pe.remotePort = n := by simpa using List.find?_some hfind
      exact h.found hrecv haccount hclean hpe hname
    · next hfind =>
      have hn : n ∉ l.peers.map PeerEntry.remotePort := by
        rintro hmem
        obtain ⟨pe, hpe, hname⟩ := List.mem_map.mp hmem
        simpa [hname] using List.find?_eq_none.mp hfind pe hpe
      simpa [Listener.retain] using h.created hrecv haccount hclean hn
  · cases hs

omit [DecidableEq π] in
/-- A reference of a connection is given up, when there is another one: it is not destroyed. -/
lemma destroyed_release (hc : l.refcnt c ≠ 1) : (l.release c).destroyed = l.destroyed := by
  funext d
  simp only [Listener.release, Function.update_apply]
  split
  · next hd => simp [hd, hc]
  · rfl

/-- **The handler has returned**, and `find_or_create_peer` gives up its own reference. -/
lemma Balanced.accepted (h : Balanced l) (hs : step l .accepted = some l') : Balanced l' := by
  simp only [step] at hs
  split at hs
  · next n c hrecv =>
    cases hs
    have hmem := h.accepting n c hrecv
    have hcount : l.refcnt c = l.held c + 2 := by
      have hcount := h.count _ hmem
      rw [hrecv] at hcount
      simpa [RecvPc.refs] using hcount
    have hdestroyed : (l.release c).destroyed = l.destroyed := destroyed_release (by omega)
    refine ⟨h.account, h.clean, h.names, h.conns, h.made, ?_, fun pe hpe => ?_, ?_, ?_, ?_⟩
    · show ∀ d, l.created ≤ d → l.held d = 0 ∧ (l.release c).destroyed d = false
      rw [hdestroyed]
      exact h.unmade
    · show (l.release c).refcnt pe.conn = l.held pe.conn + 0 + 1
      simp only [Listener.release, Function.update_apply]
      split
      · next hpc =>
        rw [hpc]
        omega
      · next hpc =>
        have hother := h.count pe hpe
        rw [hrecv] at hother
        simpa [RecvPc.refs, hpc] using hother
    · show ∀ pe ∈ l.peers, (l.release c).destroyed pe.conn = false
      rw [hdestroyed]
      exact h.alive
    · intro m d hm
      cases hm
    · intro r hr
      rcases List.mem_cons.mp hr with rfl | hr
      · exact hmem
      · exact h.routed r hr
  · cases hs

/-- Somebody takes a reference of a connection. -/
lemma Balanced.retain (h : Balanced l) (hs : step l (.retain c) = some l') : Balanced l' := by
  simp only [step] at hs
  split at hs
  · next hmade =>
    cases hs
    refine ⟨h.account, h.clean, h.names, h.conns, h.made, fun d hd => ?_, fun pe hpe => ?_, h.alive,
      h.accepting, h.routed⟩
    · have hne : d ≠ c := (hmade.1.trans_le hd).ne'
      have hunmade := h.unmade d hd
      simpa [Listener.retain, Function.update_apply, hne] using hunmade
    · have hcount := h.count pe hpe
      simp only [Listener.retain, Function.update_apply]
      split
      · next hpc =>
        rw [hpc] at hcount
        rw [hpc]
        omega
      · exact hcount
  · cases hs

/-- Somebody gives up a reference they have taken. -/
lemma Balanced.release (h : Balanced l) (hs : step l (.release c) = some l') : Balanced l' := by
  simp only [step] at hs
  split at hs
  · next hheld =>
    cases hs
    have hmade : c < l.created := by
      by_contra hge
      have := (h.unmade c (not_lt.mp hge)).1
      omega
    refine ⟨h.account, h.clean, h.names, h.conns, h.made, fun d hd => ?_, fun pe hpe => ?_,
      fun pe hpe => ?_, h.accepting, h.routed⟩
    · have hne : d ≠ c := (hmade.trans_le hd).ne'
      have hunmade := h.unmade d hd
      simpa [Listener.release, Function.update_apply, hne] using hunmade
    · have hcount := h.count pe hpe
      simp only [Listener.release, Function.update_apply]
      split
      · next hpc =>
        rw [hpc] at hcount
        rw [hpc]
        show l.refcnt c - 1 = l.held c - 1 + l.recv.refs c + 1
        omega
      · exact hcount
    · have hcount := h.count pe hpe
      have halive := h.alive pe hpe
      simp only [Listener.release, Function.update_apply]
      split
      · next hpc =>
        rw [hpc] at hcount halive
        have hne : l.refcnt c ≠ 1 := by omega
        simp [halive, hne]
      · exact halive
  · cases hs

/-- The rest of the task gets a right. -/
lemma Balanced.take (h : Balanced l) {port : π} {fresh : PortName}
    (hs : step l (.take port fresh) = some l') : Balanced l' := by
  simp only [step] at hs
  split at hs
  · cases hs
  · next hfresh =>
    obtain ⟨⟨n, sp⟩, hr, rfl⟩ := Option.map_eq_some_iff.mp hs
    have hd := Space.Delivers.of_deliver hr
    refine ⟨?_, fun m hm => ?_, h.names, h.conns, h.made, h.unmade, h.count, h.alive, h.accepting,
      h.routed⟩
    · have hothers : Function.update l.others port (l.others port + 1) =
          fun q => l.others q + if q = port then 1 else 0 := by
        funext q
        rw [Function.update_apply]
        split
        · next hq => rw [hq]
        · rfl
      show sp.Accounted (Function.update l.others port (l.others port + 1)) (listed l.peers)
      rw [hothers]
      exact h.account.deliver_others hd
    · by_contra hne
      obtain ⟨p, hp⟩ := Option.ne_none_iff_exists'.mp hne
      rcases hd.only m p hp with hold | rfl
      · rw [h.clean m hm] at hold
        cases hold
      · rcases Space.portOf_of_deliver hr with hold | rfl
        · rw [h.clean m hm] at hold
          cases hold
        · exact hfresh hm

/-- The rest of the task gives up a right. -/
lemma Balanced.drop (h : Balanced l) (hs : step l (.drop n) = some l') : Balanced l' := by
  simp only [step] at hs
  split at hs
  · next port hport =>
    split at hs
    · next hheld =>
      cases hs
      refine ⟨?_, fun m hm => ?_, h.names, h.conns, h.made, h.unmade, h.count, h.alive,
        h.accepting, h.routed⟩
      · have hothers : Function.update l.others port (l.others port - 1) =
            fun q => l.others q - if q = port then 1 else 0 := by
          funext q
          rw [Function.update_apply]
          split
          · next hq => rw [hq]
          · rfl
        show (l.space.deallocate n).Accounted (Function.update l.others port (l.others port - 1))
          (listed l.peers)
        rw [hothers]
        exact h.account.deallocate_others hport hheld
      · by_contra hne
        obtain ⟨p, hp⟩ := Option.ne_none_iff_exists'.mp hne
        have hold := Space.portOf_of_deallocate hp
        rw [h.clean m hm] at hold
        cases hold
    · cases hs
  · cases hs

/-- **Every step** keeps the invariant. -/
lemma Balanced.step {a : Action π} (h : Balanced l) (hs : step l a = some l') : Balanced l' := by
  cases a with
  | receive reply => exact h.receive hs
  | accepted => exact h.accepted hs
  | retain c => exact h.retain hs
  | release c => exact h.release hs
  | take port fresh => exact h.take hs
  | drop name => exact h.drop hs

omit [DecidableEq π] in
/-- Two entries of a list with one name, or one connection, are one. -/
lemma Balanced.demultiplexed (h : Balanced l) : Demultiplexed l where
  distinct := h.names
  routes r hr r' hr' := by
    have hname := List.inj_on_of_nodup_map h.names (h.routed r hr) (h.routed r' hr')
    have hconn := List.inj_on_of_nodup_map h.conns (h.routed r hr) (h.routed r' hr')
    exact ⟨fun heq => by rw [hname heq], fun heq => by rw [hconn heq]⟩
  refs _ pe hpe := by
    by_cases hres : reserved pe.remotePort = true
    · exact Or.inl hres
    · have hlisted : listed l.peers pe.remotePort = 1 := by
        have hmem := List.mem_map_of_mem (f := PeerEntry.remotePort) hpe
        simpa [listed, hres] using hmem
      obtain ⟨p, hp⟩ := h.account.named pe.remotePort (by omega)
      refine Or.inr ⟨p, hp, ?_⟩
      rw [h.account.refs _ p hp, hlisted]
  alive pe hpe := by
    have hcount := h.count pe hpe
    exact ⟨h.alive pe hpe, by omega⟩

end

/-! ## Runs -/

/-- **The messages of a listener are demultiplexed** in every run: whatever messages come from
whatever senders, with rights for answers or without, whoever takes and gives up references of the
peers, in the handler and at any other time, and whatever rights the rest of the task has.

**Proof sketch.** The list has one of the references that are counted for each of its names and for
each of its connections: the one of the message that made the entry, and the one of
`xpc_retain`. -/
theorem demultiplexed_run {space : Space PortName π} {as : List (Action π)} {l : Listener π}
    (hclean : ∀ n, reserved n = true → space.portOf n = none) (h : run space as = some l) :
    Demultiplexed l := by
  refine Balanced.demultiplexed (invariant (P := Balanced) (fun _ _ _ hl hs => hl.step hs) ?_ h)
  have haccount : space.Accounted space.urefs (listed []) := by
    refine ⟨fun n p hp => ?_, fun n hn => ?_, fun p hp => ?_⟩
    · rw [space.urefs_of_portOf hp]
      rfl
    · simp [listed] at hn
    · cases hname : space.nameOf p with
      | none =>
        rw [Space.urefs, hname] at hp
        cases hp
      | some n => exact ⟨n, space.nameOf_eq_some_iff.mp hname⟩
  exact ⟨haccount, hclean, List.nodup_nil, List.nodup_nil, by simp [start], by simp [start],
    by simp [start], by simp [start], by simp [start], by simp [start]⟩

/-- The task already has a right for the port 7 when a client sends two messages with it, and a
message without a right comes between them; the handler keeps the peer. -/
def sharedPort : List (Action ℕ) :=
  [.take 7 1, .receive (.send 7 2), .retain 0, .accepted, .receive (.none machPortNull), .accepted,
    .receive (.send 7 3)]

/-- They are demultiplexed, to two peers. -/
theorem demultiplexed_sharedPort :
    ∃ l, run Space.empty sharedPort = some l ∧ Demultiplexed l :=
  ⟨_, rfl, demultiplexed_run (fun _ _ => rfl) (show run Space.empty sharedPort = some _ from rfl)⟩

/-- **One reference for each known name** is what there is only if the rest of the task has none: with
a right of its own for the port of a client there are two. -/
theorem not_refs_one :
    ¬∀ (space : Space PortName ℕ) as l, (∀ n, reserved n = true → space.portOf n = none) →
      run space as = some l → l.recv = .receiving →
        ∀ pe ∈ l.peers, l.space.refs pe.remotePort = 1 := by
  intro h
  have hrun : (run Space.empty (sharedPort.take 4)).map (fun l =>
      (l.recv, l.peers.map PeerEntry.remotePort, l.space.refs 1)) = some (.receiving, [1], 2) := by
    decide
  obtain ⟨l, hl, heq⟩ := Option.map_eq_some_iff.mp hrun
  obtain ⟨hrecv, hpeers, hrefs⟩ : l.recv = .receiving ∧ l.peers.map PeerEntry.remotePort = [1] ∧
      l.space.refs 1 = 2 := by
    simpa using heq
  obtain ⟨pe, hpe, hname⟩ : ∃ pe ∈ l.peers, pe.remotePort = 1 := by
    refine List.mem_map.mp ?_
    rw [hpeers]
    exact List.mem_singleton_self 1
  have hone := h _ _ l (fun _ _ => rfl) hl hrecv pe hpe
  rw [hname, hrefs] at hone
  cases hone

end Asteros.Xpc.Peers
