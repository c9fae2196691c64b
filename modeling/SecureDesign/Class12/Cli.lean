/-
# The option loop of `class12/cli.cpp`

    cout << argc << " arguments" << endl;
    cout << "Hello ";
    for(int i=0; i < argc; i++){
      if (string(argv[i]) == "-t"){
          title = argv[i+1];
          cout << title;
      }else if(string(argv[i]) == "-n"){
          name = argv[i+1];
          cout << name << endl;
      }
    }

The loop starts at the program name, looks one token ahead without asking
whether there is one, and does not step over what it has taken as a value.  It
is the scan of the whole vector (`runs_of_scan_eq_some`), and where a flag
stands last it makes a string of the null pointer `argv[argc]`
(`runs_of_scan_eq_none`).  `cli_readsOptions_iff` compares it with the
left-to-right reading of the arguments.
-/

import SecureDesign.CLang.Integer
import SecureDesign.CLang.Loop
import SecureDesign.Class12.Options

namespace SecureDesign
namespace Class12

open CLang Exec

/-- The arguments of `main`: the strings `argv[0]`, …, `argv[argc - 1]`, of which
there is at least one, and no more than an `int` counts.  `argv[argc]` is null. -/
structure Argv where
  tokens : List CString
  ne_nil : tokens ≠ []
  fits : (tokens.length : ℤ) ≤ intMax

/-- `argc`. -/
def Argv.argc (argv : Argv) : ℤ := argv.tokens.length

/-- What `main` writes to `cout`. -/
inductive Event
  | arguments (argc : ℤ)
  | hello
  | title (s : CString)
  | name (s : CString)
  deriving DecidableEq

/-- The text of an output. -/
def Event.text : Event → List UInt8
  | .arguments argc => ascii (toString argc) ++ ascii " arguments" ++ ascii "\n"
  | .hello => ascii "Hello "
  | .title s => s.bytes
  | .name s => s.bytes ++ ascii "\n"

/-- The locals of `main`. -/
structure Locals where
  i : ℤ
  title : CString
  name : CString
  deriving DecidableEq

/-- The empty string. -/
def emptyString : CString := ⟨[], List.not_mem_nil⟩

/-- The locals before the loop. -/
def start : Locals := { i := 0, title := emptyString, name := emptyString }

/-- The string made of the pointer `argv[i]`; the null pointer makes none. -/
def Argv.string (argv : Argv) (i : ℤ) : Exec Event Fault CString :=
  if 0 ≤ i ∧ i ≤ argv.argc then ofOption .nullPointer argv.tokens[i.toNat]? else fault .outOfBounds

/-- The body of the loop. -/
def body (argv : Argv) (s : Locals) : Exec Event Fault Locals := do
  let arg ← argv.string s.i
  if arg = dashT then do
    let next ← addInt s.i 1
    let title ← argv.string next
    emit (.title title)
    pure { s with title := title }
  else if arg = dashN then do
    let next ← addInt s.i 1
    let name ← argv.string next
    emit (.name name)
    pure { s with name := name }
  else pure s

/-- One test of `i < argc` with the body and the increment after it. -/
def round (argv : Argv) (s : Locals) : Exec Event Fault (Locals ⊕ Locals) :=
  if s.i < argv.argc then do
    let s ← body argv s
    let i ← addInt s.i 1
    pure (.inl { s with i := i })
  else pure (.inr s)

/-- What is written before the loop. -/
def preamble (argv : Argv) : List Event := [.arguments argv.argc, .hello]

/-- `main` ends and does `x`, with the locals it leaves. -/
def MainRuns (argv : Argv) (x : Exec Event Fault Locals) : Prop :=
  ∃ y, Runs (round argv) start y ∧ x = y.after (preamble argv)

/-- What is written for an option and its value. -/
def event : Flag × CString → Event
  | (.t, v) => .title v
  | (.n, v) => .name v

/-- The last value of an option, `d` when it has none. -/
def lastValue (d : CString) (k : Flag) (ps : List (Flag × CString)) : CString :=
  ((ps.filter fun p => p.1 = k).getLast?.map Prod.snd).getD d

/-- What the loop is for: no undefined behaviour, the options of the arguments
written in order, and the locals at their last values. -/
def ReadsOptions (argv : Argv) : Prop :=
  ∃ x s, MainRuns argv x ∧ x.result = .ok s ∧
    x.trace = preamble argv ++ (parse argv.tokens.tail).map event ∧
      s.title = lastValue emptyString .t (parse argv.tokens.tail) ∧
        s.name = lastValue emptyString .n (parse argv.tokens.tail)

section Rounds

variable {argv : Argv} {s : Locals} {k : ℕ} {token v : CString} {f : Flag}

/-- The local an option sets. -/
def Locals.set (s : Locals) : Flag × CString → Locals
  | (.t, v) => { s with title := v }
  | (.n, v) => { s with name := v }

theorem string_eq (h : k ≤ argv.tokens.length) :
    argv.string k = ofOption .nullPointer argv.tokens[k]? := by
  rw [Argv.string, if_pos ⟨by omega, by simp only [Argv.argc]; omega⟩, Int.toNat_natCast]

theorem lt_of_getElem? (ht : argv.tokens[k]? = some token) : k < argv.tokens.length :=
  (List.getElem?_eq_some_iff.1 ht).1

/-- Below `argc` the counter has room. -/
theorem addInt_index (ht : argv.tokens[k]? = some token) :
    (addInt (k : ℤ) 1 : Exec Event Fault ℤ) = pure ((k + 1 : ℕ) : ℤ) := by
  have hlt := lt_of_getElem? ht
  have hfits := argv.fits
  rw [addInt_one (by omega) (by omega)]
  rfl

/-- The body does nothing on a token that spells no option. -/
theorem body_none (hk : s.i = k) (ht : argv.tokens[k]? = some token) (hf : flag? token = none) :
    body argv s = pure s := by
  have hlt := lt_of_getElem? ht
  obtain ⟨hneT, hneN⟩ := flag?_eq_none_iff.1 hf
  rw [body, hk, string_eq (by omega), ht, ofOption_some, Exec.pure_bind, if_neg hneT, if_neg hneN]

/-- On an option the body looks at the token after it. -/
theorem body_some (hk : s.i = k) (ht : argv.tokens[k]? = some token) (hf : flag? token = some f) :
    body argv s = (do
      let v ← ofOption .nullPointer argv.tokens[k + 1]?
      emit (event (f, v))
      pure (s.set (f, v))) := by
  have hlt := lt_of_getElem? ht
  obtain ⟨i, title, name⟩ := s
  obtain rfl : i = k := hk
  rw [body, string_eq (by omega), ht, ofOption_some, Exec.pure_bind]
  obtain ⟨rfl, rfl⟩ | ⟨rfl, rfl⟩ := flag?_eq_some hf
  · rw [if_pos rfl, addInt_index ht, Exec.pure_bind, string_eq (by omega)]
    rfl
  · rw [if_neg (by decide), if_pos rfl, addInt_index ht, Exec.pure_bind, string_eq (by omega)]
    rfl

theorem round_of_lt (hk : s.i = k) (h : k < argv.tokens.length) :
    round argv s =
      body argv s >>= fun s => addInt s.i 1 >>= fun i => pure (.inl { s with i := i }) :=
  if_pos (by rw [hk, Argv.argc]; omega)

/-- A round on a token that spells no option steps over it. -/
theorem round_none (hk : s.i = k) (ht : argv.tokens[k]? = some token) (hf : flag? token = none) :
    round argv s = ⟨[], .ok (.inl { s with i := (k + 1 : ℕ) })⟩ := by
  rw [round_of_lt hk (lt_of_getElem? ht), body_none hk ht hf, Exec.pure_bind, hk, addInt_index ht]
  rfl

/-- A round on an option with a token after it writes that token and keeps it. -/
theorem round_some (hk : s.i = k) (ht : argv.tokens[k]? = some token) (hf : flag? token = some f)
    (hv : argv.tokens[k + 1]? = some v) :
    round argv s = ⟨[event (f, v)], .ok (.inl { s.set (f, v) with i := (k + 1 : ℕ) })⟩ := by
  rw [round_of_lt hk (lt_of_getElem? ht), body_some hk ht hf, hv, ofOption_some, Exec.pure_bind]
  have hset : (s.set (f, v)).i = k := by cases f <;> exact hk
  rw [emit_bind, bind_of_ok (a := s.set (f, v)) rfl, hset, addInt_index ht]
  rfl

/-- A round on an option that stands last makes a string of `argv[argc]`. -/
theorem round_last (hk : s.i = k) (ht : argv.tokens[k]? = some token) (hf : flag? token = some f)
    (hv : argv.tokens[k + 1]? = none) : round argv s = ⟨[], .error .nullPointer⟩ := by
  rw [round_of_lt hk (lt_of_getElem? ht), body_some hk ht hf, hv]
  rfl

/-- Past the last token the loop is left. -/
theorem round_end (hk : s.i = k) (h : argv.tokens.length ≤ k) :
    round argv s = ⟨[], .ok (.inr s)⟩ := by
  rw [round, if_neg (by rw [hk, Argv.argc]; omega)]
  rfl

end Rounds

/-- One more option at the front is the value to fall back on. -/
theorem lastValue_cons (d : CString) (k f : Flag) (v : CString) (ps : List (Flag × CString)) :
    lastValue d k ((f, v) :: ps) = lastValue (if f = k then v else d) k ps := by
  unfold lastValue
  by_cases h : f = k
  · rw [if_pos h, List.filter_cons_of_pos (by simpa using h), List.getLast?_cons]
    cases (ps.filter fun p => p.1 = k).getLast? <;> rfl
  · rw [if_neg h, List.filter_cons_of_neg (by simpa using h)]

theorem event_injective : Function.Injective event := by
  rintro ⟨f, v⟩ ⟨f', v'⟩ h
  cases f <;> cases f' <;> simp_all [event]

section Runs

variable {argv : Argv} {rest : List CString} {ps : List (Flag × CString)}

/-- The tokens left at `k`, one by one. -/
theorem drop_eq_cons {k : ℕ} {token : CString} (h : argv.tokens.drop k = token :: rest) :
    argv.tokens[k]? = some token ∧ argv.tokens.drop (k + 1) = rest ∧
      argv.tokens[k + 1]? = rest.head? := by
  have hrest : argv.tokens.drop (k + 1) = rest := by
    rw [← List.drop_drop, h, List.drop_one, List.tail_cons]
  refine ⟨?_, hrest, ?_⟩
  · rw [← List.head?_drop, h, List.head?_cons]
  · rw [← List.head?_drop, hrest]

/-- **The loop writes what `scan` finds**, and leaves the last values behind. -/
theorem runs_of_scan_eq_some {k : ℕ} {s : Locals} (hk : s.i = k)
    (hrest : argv.tokens.drop k = rest) (h : scan rest = some ps) :
    ∃ s', Runs (round argv) s ⟨ps.map event, .ok s'⟩ ∧ s'.title = lastValue s.title .t ps ∧
      s'.name = lastValue s.name .n ps := by
  induction rest generalizing k s ps with
  | nil =>
      obtain rfl : [] = ps := by simpa [scan] using h
      exact ⟨s, .leave (round_end hk (List.drop_eq_nil_iff.1 hrest)), rfl, rfl⟩
  | cons token rest ih =>
      obtain ⟨ht, hdrop, hhead⟩ := drop_eq_cons hrest
      cases hf : flag? token with
      | none =>
          rw [scan_cons_none hf] at h
          obtain ⟨s', hs', htitle, hname⟩ := ih (s := { s with i := (k + 1 : ℕ) }) rfl hdrop h
          exact ⟨s', .again (round_none hk ht hf) hs', htitle, hname⟩
      | some f =>
          rw [scan_cons_some hf] at h
          obtain ⟨v, hv, h⟩ := Option.bind_eq_some_iff.1 h
          obtain ⟨qs, hqs, rfl⟩ := Option.map_eq_some_iff.1 h
          obtain ⟨s', hs', htitle, hname⟩ :=
            ih (s := { s.set (f, v) with i := (k + 1 : ℕ) }) rfl hdrop hqs
          refine ⟨s', .again (round_some hk ht hf (hhead.trans hv)) hs', ?_, ?_⟩
          · rw [htitle, lastValue_cons]
            cases f <;> rfl
          · rw [hname, lastValue_cons]
            cases f <;> rfl

/-- **The loop dereferences null where `scan` finds nothing.** -/
theorem runs_of_scan_eq_none {k : ℕ} {s : Locals} (hk : s.i = k)
    (hrest : argv.tokens.drop k = rest) (h : scan rest = none) :
    ∃ t, Runs (round argv) s ⟨t, .error .nullPointer⟩ := by
  induction rest generalizing k s with
  | nil => simp [scan] at h
  | cons token rest ih =>
      obtain ⟨ht, hdrop, hhead⟩ := drop_eq_cons hrest
      cases hf : flag? token with
      | none =>
          rw [scan_cons_none hf] at h
          obtain ⟨t, ht'⟩ := ih (s := { s with i := (k + 1 : ℕ) }) rfl hdrop h
          exact ⟨_, .again (round_none hk ht hf) ht'⟩
      | some f =>
          cases hv : rest.head? with
          | none => exact ⟨_, .fault (round_last hk ht hf (hhead.trans hv))⟩
          | some v =>
              have hnone : scan rest = none := by
                simpa [scan_cons_some hf, hv] using h
              obtain ⟨t, ht'⟩ := ih (s := { s.set (f, v) with i := (k + 1 : ℕ) }) rfl hdrop hnone
              exact ⟨_, .again (round_some hk ht hf (hhead.trans hv)) ht'⟩

end Runs

/-- The loop does its task when looking ahead finds what reading finds. -/
theorem readsOptions_iff_scan (argv : Argv) :
    ReadsOptions argv ↔ scan argv.tokens = some (parse argv.tokens.tail) := by
  constructor
  · rintro ⟨x, s, ⟨y, hy, rfl⟩, hresult, htrace, -, -⟩
    cases hscan : scan argv.tokens with
    | none =>
        obtain ⟨t, ht⟩ := runs_of_scan_eq_none (s := start) (k := 0) rfl rfl hscan
        rw [hy.unique ht] at hresult
        cases hresult
    | some ps =>
        obtain ⟨s', hs', -, -⟩ := runs_of_scan_eq_some (s := start) (k := 0) rfl rfl hscan
        rw [hy.unique hs', after_trace] at htrace
        rw [event_injective.list_map (List.append_cancel_left htrace)]
  · intro hscan
    obtain ⟨s, hs, htitle, hname⟩ := runs_of_scan_eq_some (s := start) (k := 0) rfl rfl hscan
    exact ⟨_, s, ⟨_, hs, rfl⟩, rfl, rfl, htitle, hname⟩

/-- **The loop reads the options exactly when the vector is unambiguous**: every
`-t` and `-n` stands after the program name and before a token that is neither. -/
theorem cli_readsOptions_iff (argv : Argv) : ReadsOptions argv ↔ Unambiguous argv.tokens := by
  obtain ⟨token, rest, htokens⟩ := List.exists_cons_of_ne_nil argv.ne_nil
  rw [readsOptions_iff_scan, htokens, List.tail_cons]
  exact scan_eq_parse_tail_iff

/-- The arguments of `cli -t -n x`. -/
def takesFlag : Argv where
  tokens := [⟨ascii "cli", by decide⟩, dashT, dashN, ⟨ascii "x", by decide⟩]
  ne_nil := by decide
  fits := by decide

/-- `-n` is the value of `-t`, and the loop reads it as an option again. -/
theorem takesFlag_not_readsOptions : ¬ ReadsOptions takesFlag := by
  rw [readsOptions_iff_scan]
  decide

example : (iterate (round takesFlag) 5 start).map (fun x => x.trace.map Event.text) =
    some [ascii "-n", ascii "x\n"] := by decide

end Class12
end SecureDesign
