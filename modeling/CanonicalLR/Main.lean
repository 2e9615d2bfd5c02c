import CanonicalLR.Calculator.CommandLine

open CanonicalLR

def main (args : List String) : IO UInt32 := do
  let outcome := Calculator.command args
  IO.print outcome.stdout
  IO.eprint outcome.stderr
  return outcome.code.toUInt32
