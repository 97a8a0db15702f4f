import Fibonacci.CommandLine.Decision
import Fibonacci.Line
import Fibonacci.Visible

set_option autoImplicit false

/-! # What the command answers

A reply is an exit code and the texts for the two output streams. A flag that is obeyed has code
`0` and a text for standard output. A refusal has code `2` and an error text, which names the
fault, shows how the command is used and points to the help. An index is answered by its line
with code `0`, or by its error with code `1`.

Replies are not meant for a terminal. Of a text of the caller, an error text holds the visible
part between quotes, unescaped. The text ends with its quote, so that a sequence left open in it
hides nothing of what follows.
-/

namespace Fibonacci.CommandLine

/-- What a run of the command leaves behind. -/
structure Reply where
  code : UInt32
  stdout : String
  stderr : String
  deriving DecidableEq, Repr

/-- A long name of shown characters is visible as it is written. -/
theorem visible_mark_append {name : String} (h : ∀ c ∈ name.toList, Visible.isShown c = true) :
    visible ("--" ++ name) = "--" ++ name := by
  have hMark : Visible.isShown '-' = true := by decide
  apply visible_eq_self
  rw [Flag.toList_mark_append]
  intro c hc
  rcases List.mem_cons.mp hc with rfl | hc
  · exact hMark
  rcases List.mem_cons.mp hc with rfl | hc
  · exact hMark
  · exact h c hc

namespace Reply

/-! ## Flags -/

/-- How the command is used, with a flag or without. -/
def usage : Option Flag → String
  | none => "Usage: fib"
  | some f => "Usage: fib " ++ f.long

/-- The text that the flag `help` asks for. -/
def helpText : String :=
  "Compute fib(42) by naive recursion\n\n" ++ usage none ++ "\n\n" ++
    "Options:\n" ++
    "  -h, --help     Print help\n" ++
    "  -V, --version  Print version\n"

/-- The text that the flag `version` asks for. -/
def versionText : String := "fib 0.1.0\n"

/-- The reply that obeys a flag. -/
def ofFlag : Flag → Reply
  | .help => ⟨0, helpText, ""⟩
  | .version => ⟨0, versionText, ""⟩

/-- The whole reply with the help. -/
theorem ofFlag_help :
    ofFlag .help
      = ⟨0, "Compute fib(42) by naive recursion\n\nUsage: fib\n\nOptions:\n" ++
          "  -h, --help     Print help\n  -V, --version  Print version\n", ""⟩ := by
  decide

/-- The whole reply with the version. -/
theorem ofFlag_version : ofFlag .version = ⟨0, "fib 0.1.0\n", ""⟩ := rfl

/-! ## Refusals -/

/-- The line that offers a flag. -/
def tipText : Option Flag → String
  | none => ""
  | some f => "  tip: a similar argument exists: '" ++ f.long ++ "'\n\n"

/-- The error text for a fault, with the flag to offer and the flag to show in use. -/
def refusalText (fault : String) (tip shown : Option Flag) : String :=
  "error: unexpected " ++ fault ++ "\n\n" ++ tipText tip ++ usage shown ++ "\n\n" ++
    "For more information, try '--help'.\n"

/-- What follows the fault in an error text. -/
def closing (tip shown : Option Flag) : String :=
  "\n\n" ++ tipText tip ++ usage shown ++ "\n\n" ++ "For more information, try '--help'.\n"

theorem refusalText_eq (fault : String) (tip shown : Option Flag) :
    refusalText fault tip shown = "error: unexpected " ++ (fault ++ closing tip shown) := by
  unfold refusalText closing
  simp only [← String.append_assoc]

/-- The reply to a decision. -/
def ofDecision : Decision → Reply
  | .obeyed f => ofFlag f
  | .unexpectedValue f value =>
    ⟨2, "", refusalText ("value '" ++ visible value ++ "' for '" ++ f.long ++
      "' found; no more were expected") none (some f)⟩
  | .unexpectedArgument shown tip =>
    ⟨2, "", refusalText ("argument '" ++ visible shown ++ "' found") tip tip⟩

theorem ofDecision_unexpectedValue (f : Flag) (value : String) :
    ofDecision (.unexpectedValue f value)
      = ⟨2, "", refusalText ("value '" ++ visible value ++ "' for '" ++ f.long ++
          "' found; no more were expected") none (some f)⟩ := rfl

theorem ofDecision_unexpectedArgument (shown : String) (tip : Option Flag) :
    ofDecision (.unexpectedArgument shown tip)
      = ⟨2, "", refusalText ("argument '" ++ visible shown ++ "' found") tip tip⟩ := rfl

/-- The error text for an argument that is refused without a tip. -/
theorem refusalText_argument (shown : String) :
    refusalText ("argument '" ++ shown ++ "' found") none none
      = "error: unexpected argument '" ++ shown ++
          "' found\n\nUsage: fib\n\nFor more information, try '--help'.\n" := by
  have hBegin : "error: unexpected argument '" = "error: unexpected " ++ "argument '" := by decide
  have hEnd : "' found\n\nUsage: fib\n\nFor more information, try '--help'.\n"
      = "' found" ++ closing none none := by decide
  rw [refusalText_eq, hBegin, hEnd]
  simp only [String.append_assoc]

/-- The error text for an argument that is refused with a tip. -/
theorem refusalText_argument_tip (shown : String) (f : Flag) :
    refusalText ("argument '" ++ shown ++ "' found") (some f) (some f)
      = "error: unexpected argument '" ++ shown ++
          "' found\n\n  tip: a similar argument exists: '--" ++ f.name ++
          "'\n\nUsage: fib --" ++ f.name ++ "\n\nFor more information, try '--help'.\n" := by
  have hBegin : "error: unexpected argument '" = "error: unexpected " ++ "argument '" := by decide
  have hEnd : "' found\n\n  tip: a similar argument exists: '--" ++ (f.name ++
      ("'\n\nUsage: fib --" ++ (f.name ++ "\n\nFor more information, try '--help'.\n")))
        = "' found" ++ closing (some f) (some f) := by
    cases f <;> decide
  rw [refusalText_eq, hBegin]
  simp only [String.append_assoc]
  rw [hEnd]

/-- The error text for a value that a flag does not take. -/
theorem refusalText_value (value : String) (f : Flag) :
    refusalText ("value '" ++ value ++ "' for '" ++ f.long ++ "' found; no more were expected")
        none (some f)
      = "error: unexpected value '" ++ value ++ "' for '--" ++ f.name ++
          "' found; no more were expected\n\nUsage: fib --" ++ f.name ++
          "\n\nFor more information, try '--help'.\n" := by
  have hBegin : "error: unexpected value '" = "error: unexpected " ++ "value '" := by decide
  have hEnd : "' for '--" ++ (f.name ++ ("' found; no more were expected\n\nUsage: fib --" ++
      (f.name ++ "\n\nFor more information, try '--help'.\n")))
        = "' for '" ++ (f.long ++ ("' found; no more were expected" ++ closing none (some f))) := by
    cases f <;> decide
  rw [refusalText_eq, hBegin]
  simp only [String.append_assoc]
  rw [hEnd]

theorem ofDecision_of_not_obeyed {d : Decision} (h : ∀ f, d ≠ .obeyed f) :
    ∃ fault tip shown, ofDecision d = ⟨2, "", refusalText fault tip shown⟩ := by
  cases d with
  | obeyed f => exact absurd rfl (h f)
  | unexpectedValue f value => exact ⟨_, _, _, ofDecision_unexpectedValue f value⟩
  | unexpectedArgument shown tip => exact ⟨_, _, _, ofDecision_unexpectedArgument shown tip⟩

/-! ## Indices -/

/-- The reply that shows the line for an index, or the error. -/
def ofIndex (n : Int32) : Reply :=
  match lineAt n with
  | .ok l => ⟨0, l.render ++ "\n", ""⟩
  | .error e => ⟨1, "", "Error: " ++ e.message ++ "\n"⟩

end Reply

end Fibonacci.CommandLine
