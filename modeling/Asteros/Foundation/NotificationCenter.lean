import Asteros.Lib.Transition
import Mathlib.Data.List.Nodup

set_option autoImplicit false

/-!
# The notification centre

`NSNotificationCenter` keeps its registrations in one array. A post copies the array and goes
through the copy, and each message it sends may run code that registers, removes or posts in turn.
A run is a list of what is called and of the steps that posts take; the posts that are not finished
are a stack, and only the innermost takes a step. The number of the call that made it tells two
registrations of one observer apart.

## Main definitions

* `step` — one call, or one step of the innermost post.
* `Delivers` — what a step of a post must do.
* `Considerate` — what no removal may do.

## Main results

* `delivers_of_considerate` — then posts do what they must.
-/

namespace Asteros.Foundation.Notification

/-- `_NSNotificationObserverEntry`: the observer is not retained, and `none` is any name or any
object. -/
structure Entry (ν ω : Type) where
  observer : ℕ
  selector : ℕ
  name : Option ν
  object : Option ω
  /-- Which call made it. -/
  serial : ℕ
  deriving DecidableEq

/-- A post that is not finished. -/
structure Post (ν ω : Type) where
  /-- The name of the notification. -/
  name : Option ν
  /-- Its object. -/
  object : Option ω
  /-- What is left of `snapshot`. -/
  ahead : List (Entry ν ω)
  /-- The serial that was next when the post began. -/
  begun : ℕ
  /-- The registrations for which a message was sent. -/
  messaged : List (Entry ν ω)

/-- The centre, with the posts that are not finished, the innermost first. -/
structure Center (ν ω : Type) where
  /-- `_entries`. -/
  entries : List (Entry ν ω)
  next : ℕ
  posts : List (Post ν ω)

/-- A call, or a step of the innermost post. -/
inductive Action (ν ω : Type) where
  | addObserver (observer selector : ℕ) (name : Option ν) (object : Option ω)
  | removeObserver (observer : ℕ) (name : Option ν) (object : Option ω)
  | postNotification (name : Option ν) (object : Option ω)
  /-- The next round of the loop in `postNotification:`, or its return. -/
  | advance

variable {ν ω : Type} [DecidableEq ν] [DecidableEq ω]

/-- The registration is for the notification that is posted. -/
abbrev Entry.Wants (e : Entry ν ω) (p : Post ν ω) : Prop :=
  (e.name = none ∨ e.name = p.name) ∧ (e.object = none ∨ e.object = p.object)

/-- `removeObserver:name:object:` removes the registration. -/
abbrev Entry.GoesWith (e : Entry ν ω) (observer : ℕ) (name : Option ν) (object : Option ω) : Prop :=
  e.observer = observer ∧ (name = none ∨ e.name = name) ∧ (object = none ∨ e.object = object)

/-- `removeObserver:name:object:`. The loop goes from the last registration to the first, so that
what it removes moves none that is still to be looked at. -/
def removeObserver (observer : ℕ) (name : Option ν) (object : Option ω) (l : List (Entry ν ω)) :
    List (Entry ν ω) :=
  l.filter fun e => ¬e.GoesWith observer name object

/-- One call, or one step of the innermost post. -/
def step (s : Center ν ω) : Action ν ω → Option (Center ν ω)
  | .addObserver observer selector name object =>
    some { s with
      entries := s.entries ++ [Entry.mk observer selector name object s.next]
      next := s.next + 1 }
  | .removeObserver observer name object =>
    some { s with entries := removeObserver observer name object s.entries }
  | .postNotification name object =>
    some { s with posts := Post.mk name object s.entries s.next [] :: s.posts }
  | .advance =>
    match s.posts with
    | [] => none
    | p :: posts =>
      match p.ahead with
      | [] => some { s with posts }
      | e :: ahead =>
        let messaged := if e.Wants p then p.messaged ++ [e] else p.messaged
        some { s with posts := { p with ahead, messaged } :: posts }

/-- A centre at the start. -/
def Center.start : Center ν ω := ⟨[], 0, []⟩

/-- What a step of a post must do: it sends a message only for a registration that is in the centre,
and when it returns it has sent one for each that wanted it and was there all the time, that is, was
made before the post began and is there still. -/
def Delivers (s : Center ν ω) : Action ν ω → Prop
  | .advance => ∀ p ∈ s.posts.head?,
      (∀ e ∈ p.ahead.head?, e.Wants p → e ∈ s.entries) ∧
        (p.ahead = [] →
          ∀ e ∈ s.entries, e.serial < p.begun → e.Wants p → p.messaged.count e = 1)
  | _ => True

/-- No registration is removed that a post which is not finished has a message for ahead. -/
def Considerate (s : Center ν ω) : Action ν ω → Prop
  | .removeObserver observer name object =>
    ∀ p ∈ s.posts, ∀ e ∈ p.ahead, e.Wants p → ¬e.GoesWith observer name object
  | _ => True

/-! ## The invariant -/

/-- What holds between any two steps. -/
structure Inv (s : Center ν ω) : Prop where
  /-- No registration is there twice. -/
  nodup : s.entries.Nodup
  /-- Serials are given out in turn. -/
  fresh : ∀ e ∈ s.entries, e.serial < s.next
  begun : ∀ p ∈ s.posts, p.begun ≤ s.next
  /-- What a post has a message for ahead is in the centre. -/
  live : ∀ p ∈ s.posts, ∀ e ∈ p.ahead, e.Wants p → e ∈ s.entries
  /-- A post has come to each old registration once, or will. -/
  once : ∀ p ∈ s.posts, ∀ e ∈ s.entries, e.serial < p.begun → e.Wants p →
    (p.messaged ++ p.ahead).count e = 1

/-- What a removal leaves. -/
lemma mem_removeObserver {observer : ℕ} {name : Option ν} {object : Option ω}
    {l : List (Entry ν ω)} {e : Entry ν ω} :
    e ∈ removeObserver observer name object l ↔ e ∈ l ∧ ¬e.GoesWith observer name object := by
  rw [removeObserver, List.mem_filter, decide_eq_true_iff]

/-- A considerate step keeps the invariant. -/
lemma Inv.step {s t : Center ν ω} {a : Action ν ω} (h : Inv s) (ha : Considerate s a)
    (hstep : step s a = some t) : Inv t := by
  cases a with
  | addObserver observer selector name object =>
    cases hstep
    have hnew : ∀ e ∈ s.entries ++ [Entry.mk observer selector name object s.next],
        e ∈ s.entries ∨ e.serial = s.next := by
      intro e he
      rcases List.mem_append.mp he with he | he
      · exact Or.inl he
      · exact Or.inr (by rw [List.mem_singleton.mp he])
    refine ⟨?_, fun e he => ?_, fun p hp => Nat.le_succ_of_le (h.begun p hp),
      fun p hp e he hw => List.mem_append_left _ (h.live p hp e he hw), fun p hp e he hlt hw => ?_⟩
    · refine List.nodup_append.mpr ⟨h.nodup, List.nodup_singleton _, fun e he e' he' heq => ?_⟩
      have hlt := h.fresh e he
      rw [heq, List.mem_singleton.mp he'] at hlt
      exact absurd hlt (Nat.lt_irrefl _)
    · rcases hnew e he with he | he
      · exact Nat.lt_succ_of_lt (h.fresh e he)
      · exact he ▸ Nat.lt_succ_self _
    · rcases hnew e he with he | he
      · exact h.once p hp e he hlt hw
      · have hle := h.begun p hp
        omega
  | removeObserver observer name object =>
    cases hstep
    refine ⟨?_, fun e he => h.fresh e (mem_removeObserver.mp he).1, h.begun,
      fun p hp e he hw => mem_removeObserver.mpr ⟨h.live p hp e he hw, ha p hp e he hw⟩,
      fun p hp e he => h.once p hp e (mem_removeObserver.mp he).1⟩
    exact h.nodup.filter _
  | postNotification name object =>
    cases hstep
    refine ⟨h.nodup, h.fresh, ?_, ?_, ?_⟩
    · exact List.forall_mem_cons.mpr ⟨Nat.le_refl _, h.begun⟩
    · exact List.forall_mem_cons.mpr ⟨fun e he _ => he, h.live⟩
    · refine List.forall_mem_cons.mpr ⟨fun e he _ _ => ?_, h.once⟩
      exact List.count_eq_one_of_mem h.nodup he
  | advance =>
    rw [Notification.step] at hstep
    obtain ⟨hnodup, hfresh, hbegun, hlive, honce⟩ := h
    split at hstep
    · cases hstep
    next p posts hposts =>
    rw [hposts] at hbegun hlive honce
    rw [List.forall_mem_cons] at hbegun hlive honce
    split at hstep
    · cases hstep
      exact ⟨hnodup, hfresh, hbegun.2, hlive.2, honce.2⟩
    next e ahead hahead =>
    cases hstep
    rw [hahead] at hlive honce
    refine ⟨hnodup, hfresh, List.forall_mem_cons.mpr hbegun,
      List.forall_mem_cons.mpr ⟨fun e' he' => hlive.1 e' (List.mem_cons_of_mem _ he'), hlive.2⟩,
      List.forall_mem_cons.mpr ⟨fun e' he' hlt hw => ?_, honce.2⟩⟩
    have hcount := honce.1 e' he' hlt hw
    dsimp only
    split_ifs with he
    · rw [List.append_assoc]
      exact hcount
    · have hne : e ≠ e' := fun heq => he (heq ▸ hw)
      rw [List.count_append, List.count_cons_of_ne hne] at hcount
      rw [List.count_append]
      exact hcount

/-- The invariant says what a step of a post must do. -/
lemma Inv.delivers {s : Center ν ω} (h : Inv s) (a : Action ν ω) : Delivers s a := by
  cases a with
  | advance =>
    intro p hp
    have hmem := List.mem_of_mem_head? hp
    refine ⟨fun e he => h.live p hmem e (List.mem_of_mem_head? he), fun hnil e he hlt hw => ?_⟩
    have hcount := h.once p hmem e he hlt hw
    rw [hnil, List.append_nil] at hcount
    exact hcount
  | _ => trivial

/-- **Posts deliver to the registrations that are there**, each once, in every run in which nothing
is removed that a post which is not finished has a message for ahead.

**Proof sketch.** Such a removal leaves all that posts have messages for ahead, and nothing else
takes anything out of the centre; what was there when a post began is in the part of its copy that
was gone through or in the part that is left, once. -/
theorem delivers_of_considerate (as : List (Action ν ω))
    (h : Transition.Along step Considerate Center.start as) :
    Transition.Along step Delivers Center.start as := by
  have hstart : Inv (Center.start : Center ν ω) :=
    ⟨List.nodup_nil, by simp [Center.start], by simp [Center.start], by simp [Center.start],
      by simp [Center.start]⟩
  refine (Transition.along_iff_of_along (P := Inv) (E := Considerate)
    (fun s a t hs ha ht => hs.step ha ht) (fun s a hs ha => ?_) hstart h).mpr h
  exact ⟨fun _ => ha, fun _ => hs.delivers a⟩

/-- Two observers of one name, a post, and the removal of the first by the first. -/
def removesItself : List (Action ℕ ℕ) :=
  [.addObserver 1 0 (some 7) none, .addObserver 2 0 (some 7) none, .postNotification (some 7) none,
    .advance, .removeObserver 1 none none, .advance, .advance]

/-- All is well then. -/
theorem delivers_removesItself : Transition.Along step Delivers Center.start removesItself :=
  delivers_of_considerate _ (by
    simp [removesItself, Transition.Along, step, Center.start, Considerate])

/-- **The second observer is sent a message after it was removed by the first.** -/
theorem not_delivers : ¬∀ as : List (Action ℕ ℕ), Transition.Along step Delivers Center.start as := by
  intro h
  have hrun := h [.addObserver 1 0 (some 7) none, .addObserver 2 0 (some 7) none,
    .postNotification (some 7) none, .advance, .removeObserver 2 none none, .advance]
  simp [Transition.Along, step, Center.start, Delivers, removeObserver] at hrun

end Asteros.Foundation.Notification
