import PipeSheet.Command.Options
import PipeSheet.Proofs.Number.Natural
/-!
# PipeSheet.Proofs.Command.Options

**The arguments of `run` say the same in every order.**

Each argument is looked at by itself, and all that is kept of those before it is the file and the
last precision. So the file may stand anywhere, and of the precisions only their own order counts.
What is wrong is found from left to right: a bad argument is reported as soon as it is reached, and
that the file is missing only at the end.

* `IsOption`, `IsPrecision`, `SetsPrecision`: what an argument says;
* `AsksFor`: the precision that some arguments ask for;
* `Refused`, `FirstRefused`: what is said of a bad argument, and of the first one;
* `RunOptions.ofArgs_any_order`: the law.
-/

namespace PipeSheet.Command

/-! ### What arguments say -/

/-- The argument is an option: it begins with a dash. -/
def IsOption (argument : String) : Prop :=
  argument.toList.head? = some '-'

/-- The argument is the option for the precision, whatever its value is. -/
def IsPrecision (argument : String) : Prop :=
  "--precision=".toList <+: argument.toList

instance : DecidablePred IsOption := fun argument =>
  inferInstanceAs (Decidable (argument.toList.head? = some '-'))

instance : DecidablePred IsPrecision := fun argument =>
  inferInstanceAs (Decidable ("--precision=".toList <+: argument.toList))

/-- The text writes a number of places: digits, and a plus sign in front of them if one likes. The
number has 64 bits. -/
def WritesPrecision (value : List Char) (n : Nat) : Prop :=
  ∃ digits, (value = digits ∨ value = '+' :: digits) ∧ digits ≠ [] ∧ (∀ d ∈ digits, d.isDigit) ∧
    n = Nat.ofDigitChars 10 digits 0 ∧ n < 2 ^ 64

/-- The argument is the option for a precision of `n` places. -/
def SetsPrecision (argument : String) (n : Nat) : Prop :=
  ∃ value, argument.toList = "--precision=".toList ++ value ∧ WritesPrecision value n

/-- The precision that some arguments ask for: that of the last option for it, or `otherwise` if
there is none. -/
def AsksFor (otherwise : Nat) (args : List String) (n : Nat) : Prop :=
  match (args.filter IsPrecision).getLast? with
  | some argument => SetsPrecision argument n
  | none => n = otherwise

/-- What is said of an argument that cannot stand behind the arguments `before`. -/
inductive Refused (before : List String) (argument : String) : String → Prop
  | invalidPrecision {value : List Char} : argument.toList = "--precision=".toList ++ value →
      (∀ n, ¬ WritesPrecision value n) →
      Refused before argument ("invalid precision '" ++ String.ofList value ++ "'")
  | unknownOption : IsOption argument → ¬ IsPrecision argument →
      Refused before argument ("unknown option '" ++ argument ++ "'")
  /-- A second file. -/
  | unexpectedArgument {file : String} : ¬ IsOption argument → file ∈ before → ¬ IsOption file →
      Refused before argument ("unexpected argument '" ++ argument ++ "'")

/-- What is said of the first of some arguments that cannot stand where it stands. The arguments
`before` are in front of all of them. -/
def FirstRefused (before args : List String) (message : String) : Prop :=
  ∃ front argument back, args = front ++ argument :: back ∧
    Refused (before ++ front) argument message ∧
    ∀ start other rest, front = start ++ other :: rest →
      ∀ message, ¬ Refused (before ++ start) other message

variable {before args rest : List String} {argument message : String} {value : List Char}
  {n m : Nat} {e : OptionError} {path : Option String} {options : RunOptions}

/-! ### One argument -/

theorem readPrecision?_eq_some_iff : readPrecision? value = some n ↔ WritesPrecision value n := by
  unfold readPrecision? WritesPrecision
  split
  · next digits =>
    rw [Number.naturalOf?_eq_some_iff]
    constructor
    · intro h
      exact ⟨digits, .inr rfl, h⟩
    · rintro ⟨_, rfl | heq, hne, hdigits, hrest⟩
      · -- A plus sign is no digit.
        exact absurd (hdigits '+' List.mem_cons_self) (by decide)
      · cases heq
        exact ⟨hne, hdigits, hrest⟩
  · next hplus =>
    rw [Number.naturalOf?_eq_some_iff]
    constructor
    · intro h
      exact ⟨value, .inl rfl, h⟩
    · rintro ⟨digits, rfl | rfl, h⟩
      · exact h
      · exact absurd rfl (hplus digits)

theorem WritesPrecision.unique (h : WritesPrecision value n) (h' : WritesPrecision value m) :
    n = m := by
  rw [← readPrecision?_eq_some_iff] at h h'
  exact Option.some.inj (h.symm.trans h')

theorem SetsPrecision.unique (h : SetsPrecision argument n) (h' : SetsPrecision argument m) :
    n = m := by
  obtain ⟨value, hvalue, hn⟩ := h
  obtain ⟨value', hvalue', hm⟩ := h'
  obtain rfl := List.append_cancel_left (hvalue.symm.trans hvalue')
  exact hn.unique hm

theorem SetsPrecision.isPrecision (h : SetsPrecision argument n) : IsPrecision argument :=
  have ⟨value, hvalue, _⟩ := h
  ⟨value, hvalue.symm⟩

theorem IsPrecision.isOption (h : IsPrecision argument) : IsOption argument := by
  obtain ⟨value, hvalue⟩ := h
  rw [IsOption, ← hvalue]
  rfl

/-- What an argument says, and what it is looked at as. -/
inductive Argument.IsOf (argument : String) : Argument → Prop
  | precision {n : Nat} : SetsPrecision argument n → IsOf argument (.precision n)
  | invalidPrecision {value : List Char} : argument.toList = "--precision=".toList ++ value →
      (∀ n, ¬ WritesPrecision value n) →
      IsOf argument (.bad (.invalidPrecision (String.ofList value)))
  | unknownOption : IsOption argument → ¬ IsPrecision argument →
      IsOf argument (.bad (.unknownOption argument))
  | file : ¬ IsOption argument → IsOf argument (.file argument)

theorem Argument.isOf_ofString (argument : String) :
    IsOf argument (Argument.ofString argument) := by
  have hprefix : precisionOption.isPrefixOf argument.toList ↔ IsPrecision argument :=
    List.isPrefixOf_iff_prefix
  unfold ofString
  dsimp only
  split
  · next h =>
    obtain ⟨value, hvalue⟩ := hprefix.1 h
    have hdrop : argument.toList.drop precisionOption.length = value := by
      rw [← hvalue]
      exact List.drop_left
    rw [hdrop]
    split
    · next n hn =>
      exact .precision ⟨value, hvalue.symm, readPrecision?_eq_some_iff.1 hn⟩
    · next hnone =>
      refine .invalidPrecision hvalue.symm fun n hn => ?_
      rw [← readPrecision?_eq_some_iff, hnone] at hn
      cases hn
  · next h =>
    split
    · next hoption => exact .unknownOption hoption (mt hprefix.2 h)
    · next hoption => exact .file hoption

/-- An argument that sets the precision can stand anywhere. -/
theorem SetsPrecision.not_refused (h : SetsPrecision argument n) :
    ¬ Refused before argument message := by
  rintro (⟨hvalue, hnone⟩ | ⟨_, hno⟩ | ⟨hno, _, _⟩)
  · obtain ⟨value, hvalue', hn⟩ := h
    obtain rfl := List.append_cancel_left (hvalue.symm.trans hvalue')
    exact hnone n hn
  · exact hno h.isPrecision
  · exact hno h.isPrecision.isOption

/-- A file can stand behind options. -/
theorem not_refused_of_file (h : ¬ IsOption argument) (hbefore : ∀ file ∈ before, IsOption file) :
    ¬ Refused before argument message := by
  rintro (⟨hvalue, _⟩ | ⟨hoption, _⟩ | ⟨_, hfile, hno⟩)
  · exact h (IsPrecision.isOption ⟨_, hvalue.symm⟩)
  · exact h hoption
  · exact hno (hbefore _ hfile)

theorem Refused.unique {other : String} (h : Refused before argument message)
    (h' : Refused before argument other) : message = other := by
  cases h with
  | invalidPrecision hvalue hnone =>
      cases h' with
      | invalidPrecision hvalue' _ =>
          obtain rfl := List.append_cancel_left (hvalue.symm.trans hvalue')
          rfl
      | unknownOption _ hno => exact absurd ⟨_, hvalue.symm⟩ hno
      | unexpectedArgument hno _ _ =>
          exact absurd (IsPrecision.isOption ⟨_, hvalue.symm⟩) hno
  | unknownOption hoption hno =>
      cases h' with
      | invalidPrecision hvalue' _ => exact absurd ⟨_, hvalue'.symm⟩ hno
      | unknownOption => rfl
      | unexpectedArgument hno' _ _ => exact absurd hoption hno'
  | unexpectedArgument hno _ _ =>
      cases h' with
      | invalidPrecision hvalue' _ =>
          exact absurd (IsPrecision.isOption ⟨_, hvalue'.symm⟩) hno
      | unknownOption hoption _ => exact absurd hoption hno
      | unexpectedArgument => rfl

/-! ### Some arguments -/

theorem AsksFor.exists (otherwise : Nat)
    (h : ∀ argument ∈ args, IsOption argument → ∃ n, SetsPrecision argument n) :
    ∃ n, AsksFor otherwise args n := by
  unfold AsksFor
  split
  · next argument hlast =>
    have hmem := List.mem_filter.1 (List.mem_of_getLast? hlast)
    exact h argument hmem.1 (IsPrecision.isOption (of_decide_eq_true hmem.2))
  · exact ⟨otherwise, rfl⟩

/-- An option for the precision takes the place of the precision before it. -/
theorem asksFor_cons_of_setsPrecision (h : SetsPrecision argument m) (otherwise : Nat) :
    AsksFor otherwise (argument :: rest) n ↔ AsksFor m rest n := by
  rw [AsksFor, List.filter_cons_of_pos (by simpa using h.isPrecision), List.getLast?_cons, AsksFor]
  cases hlast : (rest.filter IsPrecision).getLast? with
  | some last => rfl
  | none =>
      constructor
      · exact fun hn => hn.unique h
      · rintro rfl
        exact h

theorem asksFor_cons_of_file (h : ¬ IsOption argument) (otherwise : Nat) :
    AsksFor otherwise (argument :: rest) n ↔ AsksFor otherwise rest n := by
  have hno : ¬ IsPrecision argument := mt IsPrecision.isOption h
  rw [AsksFor, List.filter_cons_of_neg (by simpa using hno), AsksFor]

/-- The first argument is refused, or it can stand there and another one is the first that is
refused. -/
theorem firstRefused_cons_iff : FirstRefused before (argument :: rest) message ↔
    Refused before argument message ∨
      (∀ message, ¬ Refused before argument message) ∧
        FirstRefused (before ++ [argument]) rest message := by
  constructor
  · rintro ⟨front, other, back, hargs, hrefused, hfirst⟩
    cases front with
    | nil =>
        cases hargs
        rw [List.append_nil] at hrefused
        exact .inl hrefused
    | cons first front =>
        cases hargs
        have hhead := hfirst [] argument front rfl
        rw [List.append_nil] at hhead
        rw [List.append_cons] at hrefused
        refine .inr ⟨hhead, front, other, back, rfl, hrefused, fun start o more hfront => ?_⟩
        have hlater := hfirst (argument :: start) o more (congrArg _ hfront)
        rwa [List.append_cons] at hlater
  · rintro (hrefused | ⟨hhead, front, other, back, rfl, hrefused, hfirst⟩)
    · refine ⟨[], argument, rest, rfl, by rwa [List.append_nil], fun start o more hnil => ?_⟩
      cases start <;> cases hnil
    · refine ⟨argument :: front, other, back, rfl, by rwa [List.append_cons], ?_⟩
      intro start o more hfront
      cases start with
      | nil =>
          cases hfront
          rwa [List.append_nil]
      | cons first start =>
          cases hfront
          rw [List.append_cons]
          exact hfirst start o more rfl

/-! ### Reading -/

/-- What is read of some arguments: the only file, which may have been there before, and the
precision that they ask for. -/
theorem readArgs_eq_ok_iff {precision : Nat} : readArgs path precision args = .ok options ↔
    (∀ argument ∈ args, IsOption argument → ∃ n, SetsPrecision argument n) ∧
      path.toList ++ args.filter (¬ IsOption ·) = [options.path] ∧
      AsksFor precision args options.precision := by
  induction args generalizing path precision with
  | nil =>
      obtain ⟨file, n⟩ := options
      cases path with
      | none => simp [readArgs]
      | some path => simp [readArgs, AsksFor, eq_comm]
  | cons argument rest ih =>
      rw [readArgs, List.forall_mem_cons]
      have hargument := Argument.isOf_ofString argument
      generalize Argument.ofString argument = kind at hargument ⊢
      cases hargument with
      | precision h =>
          have hoption := h.isPrecision.isOption
          have hgood : IsOption argument → ∃ n, SetsPrecision argument n := fun _ => ⟨_, h⟩
          dsimp only
          rw [ih, asksFor_cons_of_setsPrecision h,
            List.filter_cons_of_neg (by simpa using hoption), and_assoc, and_iff_right hgood]
      | invalidPrecision hvalue hnone =>
          refine iff_of_false nofun fun h => ?_
          obtain ⟨n, value, hvalue', hn⟩ := h.1.1 (IsPrecision.isOption ⟨_, hvalue.symm⟩)
          obtain rfl := List.append_cancel_left (hvalue.symm.trans hvalue')
          exact hnone n hn
      | unknownOption hoption hno =>
          refine iff_of_false nofun fun h => ?_
          obtain ⟨n, hn⟩ := h.1.1 hoption
          exact hno hn.isPrecision
      | file hfile =>
          dsimp only
          rw [asksFor_cons_of_file hfile, List.filter_cons_of_pos (by simpa using hfile), and_assoc,
            and_iff_right fun hoption => absurd hoption hfile]
          cases path with
          | none => exact ih
          | some path => simp

/-- Reading fails at the first argument that is refused, and if there is none, at the end because
there is no file. -/
theorem readArgs_eq_error_iff {precision : Nat}
    (hpath : path = none ↔ ∀ file ∈ before, IsOption file) :
    (∃ e, readArgs path precision args = .error e ∧ e.message = message) ↔
      FirstRefused before args message ∨
        path = none ∧ (∀ argument ∈ args, ∃ n, SetsPrecision argument n) ∧
          message = "input file is not provided" := by
  induction args generalizing before path precision with
  | nil =>
      have hno : ¬ FirstRefused before [] message := by
        rintro ⟨front, _, _, hnil, _⟩
        simp at hnil
      cases path with
      | none =>
          constructor
          · rintro ⟨_, ⟨⟩, rfl⟩
            exact .inr ⟨rfl, nofun, rfl⟩
          · rintro (h | ⟨_, _, rfl⟩)
            · exact absurd h hno
            · exact ⟨.missingFile, rfl, rfl⟩
      | some path => simp [readArgs, hno]
  | cons argument rest ih =>
      rw [readArgs, firstRefused_cons_iff, List.forall_mem_cons]
      have hargument := Argument.isOf_ofString argument
      generalize Argument.ofString argument = kind at hargument ⊢
      -- An argument that is refused ends the reading, and what is said of it is its message.
      have hbad : ∀ e : OptionError, Refused before argument e.message →
          ((∃ e', (.error e : Except OptionError RunOptions) = .error e' ∧ e'.message = message) ↔
            (Refused before argument message ∨ (∀ message, ¬ Refused before argument message) ∧
              FirstRefused (before ++ [argument]) rest message) ∨
            path = none ∧ ((∃ n, SetsPrecision argument n) ∧
              ∀ argument ∈ rest, ∃ n, SetsPrecision argument n) ∧
                message = "input file is not provided") := by
        intro e he
        constructor
        · rintro ⟨_, ⟨⟩, rfl⟩
          exact .inl (.inl he)
        · rintro ((h | ⟨h, _⟩) | ⟨_, ⟨⟨n, hn⟩, _⟩, _⟩)
          · exact ⟨e, rfl, he.unique h⟩
          · exact absurd he (h _)
          · exact absurd he hn.not_refused
      cases hargument with
      | @precision n h =>
          have hoption := h.isPrecision.isOption
          have hsets : ∃ n, SetsPrecision argument n := ⟨n, h⟩
          have hno : ∀ message, ¬ Refused before argument message := fun _ => h.not_refused
          dsimp only
          have hbefore : path = none ↔ ∀ file ∈ before ++ [argument], IsOption file := by
            rw [hpath, List.forall_mem_append, List.forall_mem_singleton, and_iff_left hoption]
          rw [ih hbefore]
          simp [hno, hsets]
      | invalidPrecision hvalue hnone => exact hbad _ (.invalidPrecision hvalue hnone)
      | unknownOption hoption hno => exact hbad _ (.unknownOption hoption hno)
      | file hfile =>
          have hsets : ¬ ∃ n, SetsPrecision argument n := fun ⟨n, hn⟩ =>
            hfile hn.isPrecision.isOption
          cases path with
          | none =>
              have hno : ∀ message, ¬ Refused before argument message := fun _ =>
                not_refused_of_file hfile (hpath.1 rfl)
              have hbefore : some argument = none ↔
                  ∀ file ∈ before ++ [argument], IsOption file := by
                simp [hfile]
              dsimp only
              rw [ih hbefore]
              simp [hno, hsets]
          | some path =>
              obtain ⟨file, hmem, hno⟩ : ∃ file ∈ before, ¬ IsOption file := by
                simpa using hpath
              exact hbad _ (.unexpectedArgument hfile hmem hno)

/-- Arguments are read if all their options are good and they have exactly one file. That file is
the path, and the last precision counts, whose order is all that matters. If they are not read, the
first bad argument is reported, and that there is no file if no argument is bad. -/
theorem RunOptions.ofArgs_any_order (args : List String) :
    ((∃ options, RunOptions.ofArgs args = .ok options) ↔
      (∀ argument ∈ args, IsOption argument → ∃ n, SetsPrecision argument n) ∧
        (args.filter (¬ IsOption ·)).length = 1) ∧
    (∀ options, RunOptions.ofArgs args = .ok options →
      args.filter (¬ IsOption ·) = [options.path] ∧ AsksFor 6 args options.precision ∧
      ∀ others : List String, others.Perm args →
        others.filter IsPrecision = args.filter IsPrecision →
        RunOptions.ofArgs others = .ok options) ∧
    ∀ message, (∃ e, RunOptions.ofArgs args = .error e ∧ e.message = message) ↔
      FirstRefused [] args message ∨
        (∀ argument ∈ args, ∃ n, SetsPrecision argument n) ∧
          message = "input file is not provided" := by
  have hok : ∀ {args options}, RunOptions.ofArgs args = .ok options ↔
      (∀ argument ∈ args, IsOption argument → ∃ n, SetsPrecision argument n) ∧
        args.filter (¬ IsOption ·) = [options.path] ∧ AsksFor 6 args options.precision :=
    readArgs_eq_ok_iff
  refine ⟨?_, fun options hread => ?_, fun message => ?_⟩
  · rw [List.length_eq_one_iff]
    constructor
    · rintro ⟨options, hread⟩
      exact ⟨(hok.1 hread).1, options.path, (hok.1 hread).2.1⟩
    · rintro ⟨hgood, path, hpath⟩
      obtain ⟨n, hn⟩ := AsksFor.exists 6 hgood
      exact ⟨⟨path, n⟩, hok.2 ⟨hgood, hpath, hn⟩⟩
  · obtain ⟨hgood, hpath, hasks⟩ := hok.1 hread
    refine ⟨hpath, hasks, fun others hperm hprecisions => ?_⟩
    refine hok.2 ⟨fun argument hmem => hgood argument (hperm.mem_iff.1 hmem), ?_, ?_⟩
    · exact List.perm_singleton.1 (hpath ▸ hperm.filter _)
    · rwa [AsksFor, hprecisions]
  · have herror := @readArgs_eq_error_iff [] args message none defaultPrecision (by simp)
    rw [RunOptions.ofArgs, herror, and_iff_right rfl]

/-- Two precisions around a file, the file in front of both, and three bad arguments. -/
theorem RunOptions.ofArgs_any_order_of_three :
    RunOptions.ofArgs ["--precision=2", "in.csv", "--precision=+07"] = .ok ⟨"in.csv", 7⟩ ∧
    ["in.csv", "--precision=2", "--precision=+07"].Perm
      ["--precision=2", "in.csv", "--precision=+07"] ∧
    RunOptions.ofArgs ["in.csv", "--precision=2", "--precision=+07"] = .ok ⟨"in.csv", 7⟩ ∧
    ∃ e, RunOptions.ofArgs ["a", "--precision=x", "-p", "b"] = .error e ∧
      e.message = "invalid precision 'x'" := by
  have hread : RunOptions.ofArgs ["--precision=2", "in.csv", "--precision=+07"] =
      .ok ⟨"in.csv", 7⟩ := rfl
  have hperm : ["in.csv", "--precision=2", "--precision=+07"].Perm
      ["--precision=2", "in.csv", "--precision=+07"] := .swap _ _ _
  have hrefused : Refused ["a"] "--precision=x" "invalid precision 'x'" := by
    have hmessage : "invalid precision '" ++ String.ofList ['x'] ++ "'" =
        "invalid precision 'x'" := by
      decide +kernel
    rw [← hmessage]
    refine .invalidPrecision rfl fun n hn => ?_
    rw [← readPrecision?_eq_some_iff] at hn
    cases hn
  obtain ⟨_, hok, _⟩ := RunOptions.ofArgs_any_order ["--precision=2", "in.csv", "--precision=+07"]
  obtain ⟨_, _, hany⟩ := hok _ hread
  obtain ⟨_, _, herror⟩ := RunOptions.ofArgs_any_order ["a", "--precision=x", "-p", "b"]
  refine ⟨hread, hperm, hany _ hperm (by decide +kernel), (herror _).2 (.inl ?_)⟩
  refine ⟨["a"], "--precision=x", ["-p", "b"], rfl, hrefused, fun start other rest hstart _ => ?_⟩
  cases start with
  | nil =>
      cases hstart
      exact not_refused_of_file (by decide) (by simp)
  | cons first start => simp at hstart

end PipeSheet.Command
