import Fibonacci.CommandLine.Invocation

set_option autoImplicit false

/-! # The command

Writes the reply to the arguments on the two output streams and exits with its code. No
diagnostics are written.
-/

/-- Runs the command. -/
def main (args : List String) : IO UInt32 := do
  let reply := (Fibonacci.CommandLine.Invocation.mk args none).reply
  (← IO.getStdout).putStr reply.stdout
  (← IO.getStderr).putStr reply.stderr
  return reply.code
