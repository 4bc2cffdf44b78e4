import Asteros.Libc.Environment

set_option autoImplicit false

/-!
# Command line options

`getopt` of `getopt.c`: the public `optind`, `optarg` and `optopt`, and the hidden position in a
cluster of options. What it prints is left out. POSIX has `:` for a missing argument if the option
string begins with one; the code looks at no such colon.

## Main definitions

* `getopt` — a call.
* `OptionString`, `OptionString.parse` — the parse of POSIX.
* `Calls`, `Conforms` — the calls until -1, and those that report the parse.

## Main results

* `getopt_cluster`, `getopt_next` — what one call reports.
* `conforms_iff` — when the calls report the parse.
-/

namespace Asteros.Libc

/-! ## The function -/

/-- The variables of `getopt.c`. -/
structure Getopt where
  optind : ℕ
  /-- The position in the argument at `optind`. -/
  sp : ℕ
  optarg : Option (List UInt8)
  optopt : ℤ

/-- The value of a `char`, which is signed. -/
def charValue (c : UInt8) : ℤ := if c < 128 then c.toNat else c.toNat - 256

/-- `s[i]`, the terminator included. -/
def charAt (s : CString) (i : ℕ) : Option UInt8 := (s.bytes ++ [0])[i]?

/-- The step to the next option of the cluster, or to the next argument. -/
def Getopt.advance (a : CString) (s : Getopt) : Option Getopt := do
  let c ← charAt a (s.sp + 1)
  some (if c = 0 then { s with optind := s.optind + 1, sp := 1 } else { s with sp := s.sp + 1 })

/-- `getopt` from `optopt = argv[optind][sp]` on. -/
def getoptCluster (argv : List CString) (optstring : CString) (s : Getopt) :
    Option (ℤ × Getopt) := do
  let a ← argv[s.optind]?
  let c ← charAt a s.sp
  let s := { s with optopt := charValue c }
  match (optstring.bytes ++ [0]).dropWhile (· ≠ c) with
  | _ :: cp =>
    if c = byte ':' then
      some (charValue (byte '?'), ← s.advance a)
    else if (← cp.head?) = byte ':' then
      if (← charAt a (s.sp + 1)) ≠ 0 then
        some (s.optopt, { s with
          optarg := some (a.bytes.drop (s.sp + 1)), optind := s.optind + 1, sp := 1 })
      else if s.optind + 1 < argv.length then
        let b ← argv[s.optind + 1]?
        some (s.optopt, { s with optarg := some b.bytes, optind := s.optind + 2, sp := 1 })
      else some (charValue (byte '?'), { s with optind := s.optind + 1, sp := 1 })
    else do
      let s ← s.advance a
      some (s.optopt, { s with optarg := none })
  | [] => some (charValue (byte '?'), ← s.advance a)

/-- `getopt`: the value that is returned, and the variables afterwards; `none` is a read outside
the arrays. -/
def getopt (argv : List CString) (optstring : CString) (s : Getopt) : Option (ℤ × Getopt) :=
  let s := if s.optind = 0 then { s with optind := 1, sp := 1 } else s
  if s.sp = 1 then
    match argv[s.optind]? with
    | none => some (-1, s)
    | some a =>
      if a.bytes.head? ≠ some (byte '-') ∨ a.bytes.tail = [] then some (-1, s)
      else if a.bytes = ascii "--" then some (-1, { s with optind := s.optind + 1 })
      else getoptCluster argv optstring s
  else getoptCluster argv optstring s

/-! ## The parse of POSIX -/

/-- An option string: the options, with whether they take an argument, and whether a colon stands
in front of them. -/
structure OptionString where
  colon : Bool
  options : List (UInt8 × Bool)
  /-- An option is a character, but no colon. -/
  valid : ∀ o ∈ options, o.1 ≠ 0 ∧ o.1 ≠ byte ':'

/-- The text of an option. -/
def optionText (o : UInt8 × Bool) : List UInt8 := o.1 :: if o.2 then [byte ':'] else []

/-- What the calls are to report. -/
inductive Event where
  /-- An option of the string, with its argument. -/
  | option (c : UInt8) (arg : Option (List UInt8))
  /-- An option that the string does not have. -/
  | unknown (c : UInt8)
  /-- An option without the argument that it takes. -/
  | missing (c : UInt8)

namespace OptionString

variable (o : OptionString)

/-- Its text. -/
def text : CString where
  bytes := (if o.colon then [byte ':'] else []) ++ o.options.flatMap optionText
  nulFree h := by
    rcases List.mem_append.mp h with h | h
    · split_ifs at h
      · exact absurd h (by decide)
      · cases h
    · obtain ⟨p, hp, hmem⟩ := List.mem_flatMap.mp h
      rcases List.mem_cons.mp hmem with hzero | hmem
      · exact (o.valid p hp).1 hzero.symm
      · split_ifs at hmem
        · exact absurd hmem (by decide)
        · cases hmem

/-- Whether an option takes an argument. -/
def lookup (c : UInt8) : Option Bool := (o.options.find? (·.1 = c)).map (·.2)

/-- The parse of the rest of a cluster and of the arguments behind it: the events, and the
operands. -/
def parse : List UInt8 → List CString → List Event × List CString
  | c :: cs, args =>
    match o.lookup c, cs, args with
    | none, cs, args => ((parse cs args).1.cons (.unknown c), (parse cs args).2)
    | some false, cs, args => ((parse cs args).1.cons (.option c none), (parse cs args).2)
    | some true, [], [] => ([.missing c], [])
    | some true, [], b :: args =>
      ((parse [] args).1.cons (.option c (some b.bytes)), (parse [] args).2)
    | some true, d :: cs, args =>
      ((parse [] args).1.cons (.option c (some (d :: cs))), (parse [] args).2)
  | [], [] => ([], [])
  | [], a :: args =>
    if a.bytes.head? ≠ some (byte '-') ∨ a.bytes.tail = [] then ([], a :: args)
    else if a.bytes = ascii "--" then ([], args)
    else parse a.bytes.tail args
  termination_by cs args => (args.length, cs.length)

end OptionString

/-- What a call reports. -/
structure Reported where
  value : ℤ
  optarg : Option (List UInt8)
  optopt : ℤ

/-- A report of an event; `colon` is whether the option string begins with a colon. -/
def Event.Reports (colon : Bool) (r : Reported) : Event → Prop
  | .option c arg => r.value = charValue c ∧ ∀ a, arg = some a → r.optarg = some a
  | .unknown c => r.value = charValue (byte '?') ∧ r.optopt = charValue c
  | .missing c => r.value = charValue (byte (if colon then ':' else '?')) ∧
      r.optopt = charValue c

/-- Calls until -1 is returned: what they report, and the variables at the end. -/
inductive Calls (argv : List CString) (optstring : CString) :
    Getopt → List Reported → Getopt → Prop where
  | stop {s s' : Getopt} : getopt argv optstring s = some (-1, s') → Calls argv optstring s [] s'
  | next {s s' t : Getopt} {value : ℤ} {rs : List Reported} :
      getopt argv optstring s = some (value, s') → value ≠ -1 → Calls argv optstring s' rs t →
      Calls argv optstring s (⟨value, s'.optarg, s'.optopt⟩ :: rs) t

/-- **The calls report the parse of POSIX**, and leave `optind` at the first operand. -/
def Conforms (argv : List CString) (o : OptionString) (s : Getopt) : Prop :=
  ∃ rs t, Calls argv o.text s rs t ∧
    List.Forall₂ (fun e r => e.Reports o.colon r) (o.parse [] argv.tail).1 rs ∧
    argv.drop t.optind = (o.parse [] argv.tail).2

/-! ## Looking an option up -/

/-- What `strchr` is to find: the option, and behind it a colon if it takes an argument. -/
def Found (c : UInt8) (cp : List UInt8) : Option Bool → Prop
  | none => cp = []
  | some arg => ∃ d rest, cp = c :: d :: rest ∧ (d = byte ':' ↔ arg = true)

/-- What the texts of some options have of an option. -/
lemma found_options {c : UInt8} (hzero : c ≠ 0) (hcolon : c ≠ byte ':')
    (options : List (UInt8 × Bool)) (hoptions : ∀ o ∈ options, o.1 ≠ byte ':') :
    Found c ((options.flatMap optionText ++ [0]).dropWhile (· ≠ c))
      ((options.find? (·.1 = c)).map (·.2)) := by
  induction options with
  | nil => simp [Found, hzero.symm]
  | cons o options ih =>
    obtain ⟨-, htail⟩ := List.forall_mem_cons.mp hoptions
    have ih := ih htail
    obtain ⟨x, arg⟩ := o
    by_cases hx : x = c
    · subst hx
      rw [List.find?_cons_of_pos (by simp)]
      cases arg with
      | true => exact ⟨byte ':', options.flatMap optionText ++ [0], by simp [optionText], by simp⟩
      | false =>
        cases options with
        | nil => exact ⟨0, [], by simp [optionText], by simp [byte]⟩
        | cons o options =>
          have hfirst := (List.forall_mem_cons.mp htail).1
          exact ⟨o.1, (optionText o).tail ++ (options.flatMap optionText ++ [0]),
            by simp [optionText], by simpa using hfirst⟩
    · rw [List.find?_cons_of_neg (by simpa using hx)]
      have hdrop : ((((x, arg) :: options).flatMap optionText) ++ [0]).dropWhile (· ≠ c) =
          (options.flatMap optionText ++ [0]).dropWhile (· ≠ c) := by
        cases arg <;> simp [optionText, hx, hcolon.symm]
      rw [hdrop]
      exact ih

variable (o : OptionString)

/-- A colon is no option. -/
lemma OptionString.lookup_colon : o.lookup (byte ':') = none := by
  rw [OptionString.lookup, Option.map_eq_none_iff, List.find?_eq_none]
  intro p hp
  simpa using (o.valid p hp).2

/-- What `strchr` finds in the text. -/
lemma OptionString.found_text {c : UInt8} (hzero : c ≠ 0) (hcolon : c ≠ byte ':') :
    Found c ((o.text.bytes ++ [0]).dropWhile (· ≠ c)) (o.lookup c) := by
  have htext : (o.text.bytes ++ [0]).dropWhile (· ≠ c) =
      (o.options.flatMap optionText ++ [0]).dropWhile (· ≠ c) := by
    cases h : o.colon <;> simp [OptionString.text, h, hcolon.symm]
  rw [htext]
  exact found_options hzero hcolon o.options fun p hp => (o.valid p hp).2

/-! ## One call -/

/-- The variables stand at the rest of a cluster, in front of the arguments. -/
def At (argv : List CString) (s : Getopt) (cs : List UInt8) (args : List CString) : Prop :=
  0 < s.optind ∧ if cs = [] then s.sp = 1 ∧ argv.drop s.optind = args
    else 1 < s.sp ∧ ∃ a, argv.drop s.optind = a :: args ∧ a.bytes.drop s.sp = cs

/-- What the calls can report as it should be. -/
def Event.Supported (colon : Bool) : Event → Prop
  | .option c _ => c ≠ 255
  | .unknown _ => True
  | .missing _ => colon = false

/-- Only one character has the value -1. -/
lemma charValue_eq_neg_one_iff (c : UInt8) : charValue c = -1 ↔ c = 255 := by
  have hlt := c.toNat_lt
  have htop : c = 255 ↔ c.toNat = 255 := UInt8.toNat_inj.symm
  have hsmall : c < 128 ↔ c.toNat < 128 := UInt8.lt_iff_toNat_lt
  rw [htop]
  unfold charValue
  by_cases h : c < 128
  · rw [if_pos h]
    rw [hsmall] at h
    constructor <;> intro heq <;> omega
  · rw [if_neg h]
    rw [hsmall] at h
    constructor <;> intro heq <;> omega

variable {argv : List CString} {s : Getopt} {a : CString} {args : List CString} {c : UInt8}
  {cs : List UInt8}

/-- The arguments behind the one at `optind`. -/
lemma drop_succ_of_drop {i : ℕ} (h : argv.drop i = a :: args) :
    argv[i]? = some a ∧ argv.drop (i + 1) = args := by
  constructor
  · rw [← List.head?_drop, h, List.head?_cons]
  · rw [← List.tail_drop, h, List.tail_cons]

/-- The characters behind the one at `sp`. -/
lemma charAt_of_drop (h : a.bytes.drop s.sp = c :: cs) :
    charAt a s.sp = some c ∧ charAt a (s.sp + 1) = some (cs.headD 0) ∧
      a.bytes.drop (s.sp + 1) = cs ∧ c ≠ 0 ∧ (cs.headD 0 = 0 ↔ cs = []) := by
  have hlt : s.sp < a.bytes.length := by
    by_contra hle
    rw [List.drop_eq_nil_of_le (by omega)] at h
    cases h
  have hsucc : a.bytes.drop (s.sp + 1) = cs := by rw [← List.tail_drop, h, List.tail_cons]
  have hnul : 0 ∉ c :: cs := fun hmem => a.nulFree (List.mem_of_mem_drop (h ▸ hmem))
  refine ⟨?_, ?_, hsucc, fun heq => hnul (heq ▸ List.mem_cons_self), ?_⟩
  · rw [charAt, ← List.head?_drop, List.drop_append_of_le_length hlt.le, h]
    rfl
  · rw [charAt, ← List.head?_drop, List.drop_append_of_le_length hlt, hsucc]
    cases cs <;> rfl
  · cases cs with
    | nil => simp
    | cons d cs =>
      have hd : d ≠ 0 := fun heq => hnul (by simp [heq])
      simp [hd]

/-- The step in a cluster. -/
lemma advance_at (hind : 0 < s.optind) (hsp : 1 ≤ s.sp) (hdrop : argv.drop s.optind = a :: args)
    (hrest : a.bytes.drop s.sp = c :: cs) :
    ∃ t, s.advance a = some t ∧ At argv t cs args ∧ t.optopt = s.optopt := by
  obtain ⟨-, hnext, hsucc, -, hnil⟩ := charAt_of_drop hrest
  rw [Getopt.advance, hnext]
  simp only [Option.bind_eq_bind, Option.bind_some, hnil]
  refine ⟨_, rfl, ?_, ?_⟩
  · split_ifs with hcs
    · exact ⟨Nat.succ_pos _, by rw [if_pos hcs]; exact ⟨rfl, (drop_succ_of_drop hdrop).2⟩⟩
    · refine ⟨hind, ?_⟩
      rw [if_neg hcs]
      exact ⟨Nat.lt_succ_of_le hsp, a, hdrop, hsucc⟩
  · split_ifs <;> rfl

/-- The events and operands of a parse that begins with an event. -/
def OptionString.Continues (e : Event) (cs : List UInt8) (args : List CString)
    (r : List Event × List CString) : Prop :=
  r = (e :: (o.parse cs args).1, (o.parse cs args).2)

/-- What a call does that reports an event of the parse. -/
def Answers (argv : List CString) (answer : Option (ℤ × Getopt))
    (r : List Event × List CString) : Prop :=
  ∃ e cs args value t, o.Continues e cs args r ∧ answer = some (value, t) ∧ At argv t cs args ∧
    ((value ≠ -1 ∧ e.Reports o.colon ⟨value, t.optarg, t.optopt⟩) ↔ e.Supported o.colon)

/-- **A call in a cluster** reports the next option. -/
lemma getopt_cluster (hind : 0 < s.optind) (hsp : 1 ≤ s.sp)
    (hdrop : argv.drop s.optind = a :: args) (hrest : a.bytes.drop s.sp = c :: cs) :
    Answers o argv (getoptCluster argv o.text s) (o.parse (c :: cs) args) := by
  obtain ⟨hchar, hnext, hsucc, hzero, hnil⟩ := charAt_of_drop hrest
  obtain ⟨harg, hargs⟩ := drop_succ_of_drop hdrop
  set s₁ : Getopt := { s with optopt := charValue c } with hs₁
  obtain ⟨t, hadvance, hat, hoptopt⟩ := advance_at (s := s₁) hind hsp hdrop hrest
  have hquestion : charValue (byte '?') ≠ -1 := by decide
  have hunknown : o.lookup c = none → getoptCluster argv o.text s = some (charValue (byte '?'), t) →
      Answers o argv (getoptCluster argv o.text s) (o.parse (c :: cs) args) := by
    intro hlookup hcall
    refine ⟨.unknown c, cs, args, _, t, ?_, hcall, hat, ?_⟩
    · rw [OptionString.Continues, OptionString.parse.eq_def]
      simp only [hlookup]
    · simp [Event.Reports, Event.Supported, hquestion, hoptopt, hs₁]
  by_cases hcolon : c = byte ':'
  · apply hunknown (hcolon ▸ o.lookup_colon)
    simp only [getoptCluster, harg, hchar, Option.bind_eq_bind, Option.bind_some, hcolon]
    rw [hcolon] at hs₁ 
    rw [← hs₁, hadvance]
    cases (o.text.bytes ++ [0]).dropWhile (· ≠ byte ':') <;> rfl
  have hfound := o.found_text hzero hcolon
  cases hlookup : o.lookup c with
  | none =>
    rw [hlookup] at hfound
    apply hunknown hlookup
    simp only [getoptCluster, harg, hchar, Option.bind_eq_bind, Option.bind_some, ← hs₁]
    rw [hfound, hadvance]
    rfl
  | some takes =>
    rw [hlookup] at hfound
    obtain ⟨d, rest, hcp, hd⟩ := hfound
    have hvalue := not_congr (charValue_eq_neg_one_iff c)
    cases takes with
    | false =>
      have hne : d ≠ byte ':' := fun heq => absurd (hd.mp heq) (by decide)
      refine ⟨.option c none, cs, args, charValue c, { t with optarg := none }, ?_, ?_, hat, ?_⟩
      · rw [OptionString.Continues, OptionString.parse.eq_def]
        simp only [hlookup]
      · simp only [getoptCluster, harg, hchar, Option.bind_eq_bind, Option.bind_some, ← hs₁]
        rw [hcp]
        simp only [hcolon, if_false, List.head?_cons, Option.bind_some, hne, hadvance]
        rw [show t.optopt = charValue c from hoptopt]
      · simp [Event.Reports, Event.Supported, hvalue]
    | true =>
      have heq : d = byte ':' := hd.mpr rfl
      subst heq
      have hanswer : ∀ (e : Event) (args' : List CString) (value : ℤ) (t : Getopt),
          o.Continues e [] args' (o.parse (c :: cs) args) →
          getoptCluster argv o.text s = some (value, t) →
          At argv t [] args' →
          ((value ≠ -1 ∧ e.Reports o.colon ⟨value, t.optarg, t.optopt⟩) ↔ e.Supported o.colon) →
          Answers o argv (getoptCluster argv o.text s) (o.parse (c :: cs) args) :=
        fun e args' value t h₁ h₂ h₃ h₄ => ⟨e, [], args', value, t, h₁, h₂, h₃, h₄⟩
      have hcall : getoptCluster argv o.text s =
          if cs ≠ [] then
            some (charValue c, { s₁ with optarg := some cs, optind := s.optind + 1, sp := 1 })
          else if s.optind + 1 < argv.length then do
            let b ← argv[s.optind + 1]?
            some (charValue c, { s₁ with optarg := some b.bytes, optind := s.optind + 2, sp := 1 })
          else some (charValue (byte '?'), { s₁ with optind := s.optind + 1, sp := 1 }) := by
        simp only [getoptCluster, harg, hchar, Option.bind_eq_bind, Option.bind_some]
        rw [hcp]
        simp only [hcolon, if_false, if_true, List.head?_cons, Option.bind_some, hnext, hsucc, hnil,
          ne_eq]
        rfl
      cases cs with
      | cons x cs =>
        refine hanswer (.option c (some (x :: cs))) args _ _ ?_ (hcall.trans (if_pos (by simp)))
          ⟨Nat.succ_pos _, ?_⟩ ?_
        · rw [OptionString.Continues, OptionString.parse.eq_def]
          simp only [hlookup]
        · exact ⟨rfl, hargs⟩
        · simp [Event.Reports, Event.Supported, hvalue]
      | nil =>
        rw [if_neg (by simp)] at hcall
        cases args with
        | nil =>
          have hlast : ¬s.optind + 1 < argv.length := by
            have hlen := congrArg List.length hargs
            rw [List.length_drop, List.length_nil] at hlen
            omega
          rw [if_neg hlast] at hcall
          refine hanswer (.missing c) [] _ _ ?_ hcall ⟨Nat.succ_pos _, rfl, hargs⟩ ?_
          · rw [OptionString.Continues, OptionString.parse.eq_def, OptionString.parse.eq_def]
            simp only [hlookup]
          · cases hlead : o.colon
            · simp [Event.Reports, Event.Supported, hquestion, hs₁]
            · simp [Event.Reports, Event.Supported, hs₁, charValue, byte]
        | cons b args =>
          obtain ⟨hb, hrest⟩ := drop_succ_of_drop hargs
          have hmore : s.optind + 1 < argv.length := by
            have hlen := congrArg List.length hargs
            rw [List.length_drop, List.length_cons] at hlen
            omega
          rw [if_pos hmore, hb] at hcall
          refine hanswer (.option c (some b.bytes)) args _ _ ?_ hcall ⟨Nat.succ_pos _, rfl, hrest⟩ ?_
          · rw [OptionString.Continues, OptionString.parse.eq_def]
            simp only [hlookup]
          · simp [Event.Reports, Event.Supported, hvalue]

/-- **A call** reports the next event of the parse, or ends the scan with `optind` at the first
operand. -/
lemma getopt_next (hat : At argv s cs args) :
    Answers o argv (getopt argv o.text s) (o.parse cs args) ∨
      (o.parse cs args).1 = [] ∧ ∃ t, getopt argv o.text s = some (-1, t) ∧
        argv.drop t.optind = (o.parse cs args).2 := by
  obtain ⟨hind, hat⟩ := hat
  rw [getopt, if_neg hind.ne']
  cases cs with
  | cons c cs =>
    rw [if_neg (by simp)] at hat
    obtain ⟨hsp, a, hdrop, hrest⟩ := hat
    rw [if_neg hsp.ne']
    exact .inl (getopt_cluster o hind hsp.le hdrop hrest)
  | nil =>
    rw [if_pos rfl] at hat
    obtain ⟨hsp, hdrop⟩ := hat
    rw [if_pos hsp]
    cases args with
    | nil =>
      have hend : argv[s.optind]? = none := by rw [← List.head?_drop, hdrop, List.head?_nil]
      rw [hend, OptionString.parse]
      exact .inr ⟨rfl, s, rfl, hdrop⟩
    | cons a args =>
      obtain ⟨harg, hargs⟩ := drop_succ_of_drop hdrop
      rw [harg, OptionString.parse]
      dsimp only
      split_ifs with hoperand hdashes
      · exact .inr ⟨rfl, s, rfl, hdrop⟩
      · exact .inr ⟨rfl, _, rfl, hargs⟩
      · rw [not_or] at hoperand
        obtain ⟨c, cs, hcs⟩ := List.exists_cons_of_ne_nil hoperand.2
        rw [hcs]
        exact .inl (getopt_cluster o hind hsp.ge hdrop (by rw [hsp, List.drop_one, hcs]))

/-! ## The calls -/

/-- The calls from a place in the scan report the rest of the parse exactly if its events can be
reported.

**Proof sketch.** Induction on the number of events: a call that reports one leaves the variables
in front of the next. -/
lemma calls_iff (n : ℕ) (hat : At argv s cs args) (hn : (o.parse cs args).1.length = n) :
    (∃ rs t, Calls argv o.text s rs t ∧
      List.Forall₂ (fun e r => e.Reports o.colon r) (o.parse cs args).1 rs ∧
      argv.drop t.optind = (o.parse cs args).2) ↔
      ∀ e ∈ (o.parse cs args).1, e.Supported o.colon := by
  induction n generalizing s cs args with
  | zero =>
    rcases getopt_next o hat with ⟨e, cs', args', _, _, hparse, -⟩ | ⟨hnone, t, hcall, hdrop⟩
    · rw [hparse] at hn
      cases hn
    · rw [hnone]
      exact iff_of_true ⟨[], t, .stop hcall, .nil, hdrop⟩ (by simp)
  | succ n ih =>
    rcases getopt_next o hat with ⟨e, cs', args', value, t, hparse, hcall, hat', hreport⟩ | h
    · rw [hparse] at hn
      have ih := ih hat' (by simpa using hn)
      rw [hparse, List.forall_mem_cons, ← hreport, ← ih]
      dsimp only
      constructor
      · rintro ⟨rs, u, hcalls, hall, hdrop⟩
        cases hcalls with
        | stop => cases hall
        | next hcall' hne hcalls =>
          rw [hcall] at hcall'
          cases hcall'
          obtain ⟨hhead, htail⟩ := List.forall₂_cons.mp hall
          exact ⟨⟨hne, hhead⟩, _, u, hcalls, htail, hdrop⟩
      · rintro ⟨⟨hne, hhead⟩, rs, u, hcalls, hall, hdrop⟩
        exact ⟨_, u, .next hcall hne hcalls, .cons hhead hall, hdrop⟩
    · rw [h.1] at hn
      cases hn

/-- The variables at the start of a scan: `optind` is 1, with no cluster begun, or 0. -/
def Getopt.Fresh (s : Getopt) : Prop := s.optind = 1 ∧ s.sp = 1 ∨ s.optind = 0

/-- An `optind` of 0 starts the scan anew. -/
lemma getopt_reset (h : s.optind = 0) :
    getopt argv o.text s = getopt argv o.text { s with optind := 1, sp := 1 } := by
  rw [getopt, if_pos h]
  rfl

/-- A scan reports the parse exactly if its events can be reported. -/
lemma conforms_iff_supported {s : Getopt} (hs : s.Fresh) :
    Conforms argv o s ↔ ∀ e ∈ (o.parse [] argv.tail).1, e.Supported o.colon := by
  have hat : ∀ s : Getopt, s.optind = 1 → s.sp = 1 → At argv s [] argv.tail := by
    intro s hind hsp
    refine ⟨by omega, ?_⟩
    rw [if_pos rfl, hind, List.drop_one]
    exact ⟨hsp, rfl⟩
  rcases hs with ⟨hind, hsp⟩ | hind
  · exact calls_iff o _ (hat s hind hsp) rfl
  · rw [← calls_iff o _ (hat { s with optind := 1, sp := 1 } rfl rfl) rfl]
    have hcalls : ∀ rs t, Calls argv o.text s rs t ↔
        Calls argv o.text { s with optind := 1, sp := 1 } rs t := by
      intro rs t
      constructor <;> intro h
      · cases h with
        | stop h => exact .stop (getopt_reset o hind ▸ h)
        | next h hne h' => exact .next (getopt_reset o hind ▸ h) hne h'
      · cases h with
        | stop h => exact .stop (getopt_reset o hind ▸ h)
        | next h hne h' => exact .next (getopt_reset o hind ▸ h) hne h'
    simp only [Conforms, hcalls]

/-- **The calls report the parse of POSIX** exactly if no argument is missing while the option
string begins with a colon, and the option with the character 255 is not given. -/
theorem conforms_iff (argv : List CString) (o : OptionString) {s : Getopt} (hs : s.Fresh) :
    Conforms argv o s ↔
      (∀ c, .missing c ∈ (o.parse [] argv.tail).1 → o.colon = false) ∧
        ∀ arg, .option 255 arg ∉ (o.parse [] argv.tail).1 := by
  rw [conforms_iff_supported o hs]
  constructor
  · intro h
    exact ⟨fun c hc => h _ hc, fun arg harg => h _ harg rfl⟩
  · rintro ⟨hmissing, hoption⟩ e he
    cases e with
    | option c arg =>
      rintro rfl
      exact hoption arg he
    | unknown c => trivial
    | missing c => exact hmissing c he

/-- An option string with one option, which takes an argument. -/
def oneOption (colon : Bool) : OptionString where
  colon := colon
  options := [(byte 'a', true)]
  valid p hp := by
    obtain rfl := List.mem_singleton.mp hp
    decide

/-- An option with its argument. -/
theorem conforms_iff_argument : Conforms (["ls", "-a", "x"].map fun s => .ofBytes (ascii s))
    (oneOption true) ⟨1, 1, none, 0⟩ ↔
      (∀ c, .missing c ∈ ((oneOption true).parse []
        (["-a", "x"].map fun s => .ofBytes (ascii s))).1 → true = false) ∧
        ∀ arg, .option 255 arg ∉ ((oneOption true).parse []
          (["-a", "x"].map fun s => .ofBytes (ascii s))).1 :=
  conforms_iff (["ls", "-a", "x"].map fun s => .ofBytes (ascii s)) (oneOption true)
    (.inl ⟨rfl, rfl⟩)

/-- **`ls -a` with the option string `:a:`** is answered with `?`. -/
theorem not_conforms : ¬∀ (argv : List CString) (o : OptionString) (s : Getopt), s.Fresh →
    Conforms argv o s := by
  intro h
  have hconforms := h [.ofBytes (ascii "ls"), .ofBytes (ascii "-a")] (oneOption true)
    ⟨1, 1, none, 0⟩ (.inl ⟨rfl, rfl⟩)
  rw [conforms_iff_supported _ (.inl ⟨rfl, rfl⟩)] at hconforms
  have hparse : ((oneOption true).parse [] [.ofBytes (ascii "-a")]).1 = [.missing (byte 'a')] := by
    rw [OptionString.parse, if_neg (by decide), if_neg (by decide)]
    exact congrArg Prod.fst (OptionString.parse.eq_def _ _ _)
  rw [List.tail_cons, hparse] at hconforms
  exact absurd (hconforms _ List.mem_cons_self) (by simp [Event.Supported, oneOption])

end Asteros.Libc
