import Fibonacci.Proofs.Acceptance

set_option autoImplicit false

/-! # The argument that decides

Once arguments have led to a decision, the run exits with the reply to it, whatever arguments
follow and whatever filter the environment sets (`Invocation.exit_of_decision`). A single
argument other than the mark leads to a decision, and so does any argument after the mark. All
that comes later is therefore neither obeyed nor refused.
-/

namespace Fibonacci.CommandLine

namespace Invocation

/-- Runs whose arguments begin with the same decision exit, and with the same reply. -/
theorem exit_of_decision {args : List String} {d : Decision}
    (h : Decision.ofArguments? args = some d) (rest rest' : List String)
    (filter filter' : Option String) :
    (mk (args ++ rest) filter).reply = (mk (args ++ rest') filter').reply ∧
    (mk (args ++ rest) filter).course = .exit (mk (args ++ rest) filter).reply := by
  have hDecision : Decision.ofArguments? (args ++ rest) = some d :=
    Decision.ofArguments?_append h rest
  have hDecision' : Decision.ofArguments? (args ++ rest') = some d :=
    Decision.ofArguments?_append h rest'
  have hReply : (mk (args ++ rest) filter).reply = .ofDecision d := reply_of_decision hDecision
  have hReply' : (mk (args ++ rest') filter').reply = .ofDecision d := reply_of_decision hDecision'
  refine ⟨hReply.trans hReply'.symm, ?_⟩
  rw [hReply]
  exact course_of_decision hDecision

/-- **Only the deciding argument matters.** Two runs with the same first argument, or with the
same argument after the mark, exit at once and with the same reply, whatever arguments follow
and whatever filters are set. So a flag asked for after a refused argument is not obeyed, and
an argument after a flag that is obeyed does not turn the reply into a refusal. -/
theorem reply_eq_of_deciding (arg : String) (rest rest' : List String)
    (filter filter' : Option String) :
    (arg ≠ "--" →
      (mk (arg :: rest) filter).reply = (mk (arg :: rest') filter').reply ∧
      (mk (arg :: rest) filter).course = .exit (mk (arg :: rest) filter).reply) ∧
    ((mk ("--" :: arg :: rest) filter).reply = (mk ("--" :: arg :: rest') filter').reply ∧
      (mk ("--" :: arg :: rest) filter).course = .exit (mk ("--" :: arg :: rest) filter).reply) ∧
    (arg ≠ "--" → (∀ f : Flag, ¬ f.AskedBy arg) →
      (mk (arg :: rest) filter).reply.code = 2 ∧ (mk (arg :: rest) filter).reply.stdout = "") ∧
    (∀ f : Flag, f.AskedBy arg → (mk (arg :: rest) filter).reply = .ofFlag f) := by
  have hMark : arg ≠ "--" → arg :: rest ≠ ["--"] := fun h he => h (List.cons.inj he).1
  refine ⟨?_, ?_, ?_, ?_⟩
  · intro h
    have hDecision : Decision.ofArguments? [arg] = some (.ofArgument arg) :=
      Decision.ofArguments?_cons h []
    exact exit_of_decision hDecision rest rest' filter filter'
  · have hDecision : Decision.ofArguments? ["--", arg] = some (.ofLiteral arg) :=
      Decision.ofArguments?_mark [arg]
    exact exit_of_decision hDecision rest rest' filter filter'
  · intro h hNone
    obtain ⟨text, hReply⟩ := reply_of_not_askedBy (i := mk (arg :: rest) filter)
      (List.cons_ne_nil arg rest) (hMark h) hNone
    rw [hReply]
    exact ⟨rfl, rfl⟩
  · intro f hf
    have h : arg ≠ "--" := by
      rintro rfl
      exact Decision.not_askedBy_mark f hf
    exact reply_of_askedBy (i := mk (arg :: rest) filter) (List.cons_ne_nil arg rest) (hMark h) hf

/-- Help asked for after a refused argument is not given, with any filter. -/
theorem reply_help_too_late :
    "-x" ≠ "--" ∧ (∀ f : Flag, ¬ f.AskedBy "-x") ∧
    (mk ["-x", "--help"] (some "trace")).reply = (mk ["-x"] none).reply ∧
    (mk ["-x", "--help"] (some "trace")).reply.stdout = "" := by
  have h : "-x" ≠ "--" := by decide
  have hNone : ∀ f : Flag, ¬ f.AskedBy "-x" := by
    intro f
    cases f <;> unfold Flag.AskedBy <;> decide
  obtain ⟨hSame, -, hRefused, -⟩ := reply_eq_of_deciding "-x" ["--help"] [] (some "trace") none
  exact ⟨h, hNone, (hSame h).1, (hRefused h hNone).2⟩

end Invocation

end Fibonacci.CommandLine
