import ManySorted.Demo

/-- Prints the tour. -/
def main : IO UInt32 := do
  match ManySorted.Demo.output with
  | .ok text =>
    IO.print text
    return 0
  | .error f =>
    IO.eprintln f.message
    return 1
