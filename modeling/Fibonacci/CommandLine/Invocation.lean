import Fibonacci.CommandLine.Reply

set_option autoImplicit false

/-! # Runs of the command

An invocation holds all that a run of the command depends on: the arguments, and the filter that
the environment sets for diagnostics. The arguments come first. If they lead to a decision, the
run exits with the reply to it. If not, the run goes on to evaluate an index, and only then is
the filter used. Diagnostics are no part of a reply.
-/

namespace Fibonacci.CommandLine

/-- The index that the command evaluates. -/
def evaluatedIndex : Int32 := 42

/-- What a run depends on. The arguments do not include the name of the command. -/
structure Invocation where
  arguments : List String
  logFilter : Option String

/-- How a run goes on once the arguments are read. -/
inductive Course where
  /-- The run exits with a reply. -/
  | exit (reply : Reply)
  /-- The run evaluates an index, with diagnostics under a filter. -/
  | evaluate (index : Int32) (logFilter : Option String)

/-- How the run goes on. -/
def Invocation.course (i : Invocation) : Course :=
  match Decision.ofArguments? i.arguments with
  | some d => .exit (.ofDecision d)
  | none => .evaluate evaluatedIndex i.logFilter

/-- The reply in which a run ends, without diagnostics. -/
def Course.reply : Course → Reply
  | .exit r => r
  | .evaluate n _ => .ofIndex n

/-- The reply to an invocation. -/
def Invocation.reply (i : Invocation) : Reply := i.course.reply

/-- A decision is answered without a look at the filter. -/
theorem Invocation.course_of_decision {i : Invocation} {d : Decision}
    (h : Decision.ofArguments? i.arguments = some d) : i.course = .exit (.ofDecision d) := by
  simp only [course, h]

theorem Invocation.reply_of_decision {i : Invocation} {d : Decision}
    (h : Decision.ofArguments? i.arguments = some d) : i.reply = .ofDecision d := by
  rw [reply, course_of_decision h, Course.reply]

/-- The whole reply to a refusal with a tip. -/
theorem Invocation.reply_of_tip {i : Invocation} {text : String} {f : Flag}
    (h : Decision.ofArguments? i.arguments = some (.unexpectedArgument text (some f))) :
    i.reply = ⟨2, "", "error: unexpected argument '" ++ visible text ++
      "' found\n\n  tip: a similar argument exists: '--" ++ f.name ++
      "'\n\nUsage: fib --" ++ f.name ++ "\n\nFor more information, try '--help'.\n"⟩ := by
  rw [reply_of_decision h, Reply.ofDecision_unexpectedArgument, Reply.refusalText_argument_tip]

theorem Invocation.reply_mark_cons (arg : String) (rest : List String) (filter : Option String) :
    (mk ("--" :: arg :: rest) filter).reply = .ofDecision (.ofLiteral arg) :=
  reply_of_decision (Decision.ofArguments?_mark (arg :: rest))

theorem Invocation.reply_cons {arg : String} (h : arg ≠ "--") (rest : List String)
    (filter : Option String) :
    (mk (arg :: rest) filter).reply = .ofDecision (.ofArgument arg) :=
  reply_of_decision (Decision.ofArguments?_cons h rest)

theorem Invocation.reply_flag (f : Flag) (rest : List String) (filter : Option String) :
    (mk (("--" ++ f.name) :: rest) filter).reply = .ofFlag f := by
  rw [reply_cons (Decision.mark_append_ne f.name_ne_empty), Decision.ofArgument_flag]
  rfl

end Fibonacci.CommandLine
