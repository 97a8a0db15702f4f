import Fibonacci.CommandLine.Invocation

set_option autoImplicit false

/-! # Which arguments are accepted

The command obeys a flag exactly if the first argument is its long name, or starts with its
short name; `Flag.AskedBy` states this without the steps by which arguments are read. The steps
are then taken one by one: long names, short names, single arguments, lists of arguments. Every
other list that leads to a decision is refused.
-/

namespace Fibonacci.CommandLine

/-- The argument asks for the flag: it is the long name, or it starts with the short name. -/
def Flag.AskedBy (f : Flag) (arg : String) : Prop :=
  arg = f.long ∨ ['-', f.letter] <+: arg.toList

theorem Flag.exists_askedBy_iff (arg : String) :
    (∃ f : Flag, f.AskedBy arg) ↔ arg = "--help" ∨ arg = "--version" ∨
      "-h".toList <+: arg.toList ∨ "-V".toList <+: arg.toList := by
  constructor
  · rintro ⟨f, hLong | hShort⟩
    · cases f with
      | help => exact .inl hLong
      | version => exact .inr (.inl hLong)
    · cases f with
      | help => exact .inr (.inr (.inl hShort))
      | version => exact .inr (.inr (.inr hShort))
  · rintro (h | h | h | h)
    · exact ⟨.help, .inl h⟩
    · exact ⟨.version, .inl h⟩
    · exact ⟨.help, .inr h⟩
    · exact ⟨.version, .inr h⟩

namespace Decision

/-! ## Single arguments -/

theorem ofLong_eq_obeyed_iff (s : List Char) (f : Flag) :
    ofLong s = .obeyed f ↔ s = f.name.toList := by
  constructor
  · intro h
    rcases ofLong_cases s with
      ⟨g, hs, hLong⟩ | ⟨g, value, -, hLong⟩ | ⟨name, dropped, -, -, -, -, hLong⟩
    · rw [hLong] at h
      rw [hs, Decision.obeyed.inj h]
    · rw [hLong] at h
      cases h
    · rw [hLong] at h
      cases h
  · rintro rfl
    exact ofLong_flag f

theorem ofShort_eq_obeyed_iff (c : Char) (f : Flag) : ofShort c = .obeyed f ↔ c = f.letter := by
  have hLetter : Flag.ofLetter? c = some f ↔ c = f.letter := by
    rw [Flag.ofLetter?_eq_some_iff, eq_comm]
  rw [← hLetter]
  unfold ofShort
  cases Flag.ofLetter? c with
  | none => simp
  | some g => simp

theorem ofArgument_eq_obeyed_iff (arg : String) (f : Flag) :
    ofArgument arg = .obeyed f ↔ f.AskedBy arg := by
  have hletter : f.letter ≠ '-' := by cases f <;> decide
  unfold Flag.AskedBy
  rw [← String.toList_inj, Flag.toList_long]
  rcases argument_cases arg with ⟨s, h⟩ | ⟨c, s, h, hc⟩ | h
  · have hShort : ¬ ['-', f.letter] <+: '-' :: '-' :: s := by
      simp [hletter]
    rw [ofArgument_long h, ofLong_eq_obeyed_iff, h]
    simp [hShort]
  · rw [ofArgument_short h hc, ofShort_eq_obeyed_iff, h]
    simp [hc, eq_comm]
  · rw [ofArgument_literal h]
    constructor
    · intro he
      cases he
    · rintro (he | ⟨s, he⟩)
      · exact absurd he (h '-' f.name.toList)
      · exact absurd he.symm (h f.letter s)

/-! ## Lists of arguments -/

theorem not_askedBy_mark (f : Flag) : ¬ f.AskedBy "--" := by
  cases f <;> unfold Flag.AskedBy <;> decide

theorem exists_ofArguments? {args : List String} (hNil : args ≠ []) (hMark : args ≠ ["--"]) :
    ∃ d, ofArguments? args = some d ∧ ∀ f, d = .obeyed f ↔ f.AskedBy (args.head hNil) := by
  cases args with
  | nil => exact absurd rfl hNil
  | cons arg rest =>
      by_cases harg : arg = "--"
      · -- the next argument decides, but it is read literally and asks for nothing
        subst harg
        cases rest with
        | nil => exact absurd rfl hMark
        | cons next rest =>
            refine ⟨ofLiteral next, ofArguments?_mark (next :: rest), fun f => ?_⟩
            exact iff_of_false (fun h => by cases h) (not_askedBy_mark f)
      · exact ⟨ofArgument arg, ofArguments?_cons harg rest, ofArgument_eq_obeyed_iff arg⟩

end Decision

/-! ## Replies -/

theorem Reply.ofFlag_streams (f : Flag) :
    (ofFlag f).code = 0 ∧ (ofFlag f).stdout ≠ "" ∧ (ofFlag f).stderr = "" := by
  cases f <;> decide

namespace Invocation

variable {i : Invocation} (hNil : i.arguments ≠ []) (hMark : i.arguments ≠ ["--"])
include hMark

theorem reply_of_askedBy {f : Flag} (h : f.AskedBy (i.arguments.head hNil)) :
    i.reply = .ofFlag f := by
  obtain ⟨d, hd, hAsked⟩ := Decision.exists_ofArguments? hNil hMark
  obtain rfl := (hAsked f).mpr h
  exact reply_of_decision hd

theorem reply_of_not_askedBy (h : ∀ f : Flag, ¬ f.AskedBy (i.arguments.head hNil)) :
    ∃ rest, i.reply = ⟨2, "", "error: unexpected " ++ rest⟩ := by
  obtain ⟨d, hd, hAsked⟩ := Decision.exists_ofArguments? hNil hMark
  have hRefused : ∀ f, d ≠ .obeyed f := fun f hf => h f ((hAsked f).mp hf)
  obtain ⟨fault, tip, shown, hReply⟩ := Reply.ofDecision_of_not_obeyed hRefused
  refine ⟨fault ++ Reply.closing tip shown, ?_⟩
  rw [reply_of_decision hd, hReply, Reply.refusalText_eq]

end Invocation

/-- **Acceptance.** The code is `0` exactly if the first argument is `--help` or `--version`, or
starts with `-h` or `-V`; then the help or the line with the version is on standard output and
nothing on the other stream. Every other list has code `2`, an error text and no output. -/
theorem Invocation.reply_code_eq_zero_iff (i : Invocation)
    (hNil : i.arguments ≠ []) (hMark : i.arguments ≠ ["--"]) :
    (i.reply.code = 0 ↔
      i.arguments.head hNil = "--help" ∨ i.arguments.head hNil = "--version" ∨
      "-h".toList <+: (i.arguments.head hNil).toList ∨
      "-V".toList <+: (i.arguments.head hNil).toList) ∧
    (i.arguments.head hNil = "--help" ∨ "-h".toList <+: (i.arguments.head hNil).toList →
      i.reply = ⟨0, "Compute fib(42) by naive recursion\n\nUsage: fib\n\nOptions:\n" ++
        "  -h, --help     Print help\n  -V, --version  Print version\n", ""⟩) ∧
    (i.arguments.head hNil = "--version" ∨ "-V".toList <+: (i.arguments.head hNil).toList →
      i.reply = ⟨0, "fib 0.1.0\n", ""⟩) ∧
    (i.reply.code ≠ 0 → i.reply.code = 2 ∧ i.reply.stdout = "" ∧ i.reply.stderr ≠ "" ∧
      "error: unexpected ".toList <+: i.reply.stderr.toList) ∧
    (i.reply.stdout = "" ↔ i.reply.stderr ≠ "") := by
  have hObeyed : ∀ f : Flag, f.AskedBy (i.arguments.head hNil) → i.reply = .ofFlag f :=
    fun f hf => Invocation.reply_of_askedBy hNil hMark hf
  have hHelp (hf : Flag.help.AskedBy (i.arguments.head hNil)) :=
    (hObeyed .help hf).trans Reply.ofFlag_help
  have hVersion (hf : Flag.version.AskedBy (i.arguments.head hNil)) :=
    (hObeyed .version hf).trans Reply.ofFlag_version
  rw [← Flag.exists_askedBy_iff]
  by_cases h : ∃ f : Flag, f.AskedBy (i.arguments.head hNil)
  · obtain ⟨f, hf⟩ := h
    obtain ⟨hCode, hStdout, hStderr⟩ := Reply.ofFlag_streams f
    rw [← hObeyed f hf] at hCode hStdout hStderr
    refine ⟨iff_of_true hCode ⟨f, hf⟩, hHelp, hVersion, ?_, ?_⟩
    · intro hne
      exact absurd hCode hne
    · exact iff_of_false hStdout (fun hne => hne hStderr)
  · have hNone : ∀ f : Flag, ¬ f.AskedBy (i.arguments.head hNil) := fun f hf => h ⟨f, hf⟩
    obtain ⟨rest, hReply⟩ := Invocation.reply_of_not_askedBy hNil hMark hNone
    have hCode : i.reply.code = 2 := by rw [hReply]
    have hStdout : i.reply.stdout = "" := by rw [hReply]
    have hText : "error: unexpected ".toList <+: i.reply.stderr.toList := by
      rw [hReply, String.toList_append]
      exact List.prefix_append _ _
    have hNonempty : i.reply.stderr ≠ "" := by
      intro he
      rw [he] at hText
      exact absurd hText (by decide)
    refine ⟨iff_of_false ?_ h, hHelp, hVersion, ?_, iff_of_true hStdout hNonempty⟩
    · rw [hCode]
      decide
    · intro _
      exact ⟨hCode, hStdout, hNonempty, hText⟩

/-- The first argument alone is obeyed or refused: help by the first of two short names, the
version before a short name that asks for help, and a longer name before the help. -/
theorem Invocation.reply_obeyed_or_refused :
    ["-hV", "--memo"] ≠ [] ∧ ["-hV", "--memo"] ≠ ["--"] ∧
      "-h".toList <+: "-hV".toList ∧
      (Invocation.mk ["-hV", "--memo"] none).reply =
        ⟨0, "Compute fib(42) by naive recursion\n\nUsage: fib\n\nOptions:\n" ++
          "  -h, --help     Print help\n  -V, --version  Print version\n", ""⟩ ∧
    ["--version", "-h"] ≠ [] ∧ ["--version", "-h"] ≠ ["--"] ∧
      (Invocation.mk ["--version", "-h"] none).reply = ⟨0, "fib 0.1.0\n", ""⟩ ∧
    ["--helpx", "--help"] ≠ [] ∧ ["--helpx", "--help"] ≠ ["--"] ∧
      (Invocation.mk ["--helpx", "--help"] (some "trace")).reply.code = 2 ∧
      (Invocation.mk ["--helpx", "--help"] (some "trace")).reply.stdout = "" := by
  have hNilShort : ["-hV", "--memo"] ≠ [] := by decide
  have hMarkShort : ["-hV", "--memo"] ≠ ["--"] := by decide
  have hNilLong : ["--version", "-h"] ≠ [] := by decide
  have hMarkLong : ["--version", "-h"] ≠ ["--"] := by decide
  have hNilLonger : ["--helpx", "--help"] ≠ [] := by decide
  have hMarkLonger : ["--helpx", "--help"] ≠ ["--"] := by decide
  have hShort : "-h".toList <+: "-hV".toList := by decide
  have hLonger : ¬ ("--helpx" = "--help" ∨ "--helpx" = "--version" ∨
      "-h".toList <+: "--helpx".toList ∨ "-V".toList <+: "--helpx".toList) := by decide
  obtain ⟨-, hHelp, -⟩ :=
    Invocation.reply_code_eq_zero_iff ⟨["-hV", "--memo"], none⟩ hNilShort hMarkShort
  obtain ⟨-, -, hVersion, -⟩ :=
    Invocation.reply_code_eq_zero_iff ⟨["--version", "-h"], none⟩ hNilLong hMarkLong
  obtain ⟨hZero, -, -, hRefused, -⟩ :=
    Invocation.reply_code_eq_zero_iff ⟨["--helpx", "--help"], some "trace"⟩ hNilLonger hMarkLonger
  obtain ⟨hCode, hStdout, -⟩ := hRefused (mt hZero.mp hLonger)
  exact ⟨hNilShort, hMarkShort, hShort, hHelp (.inr hShort), hNilLong, hMarkLong,
    hVersion (.inl rfl), hNilLonger, hMarkLonger, hCode, hStdout⟩

end Fibonacci.CommandLine
