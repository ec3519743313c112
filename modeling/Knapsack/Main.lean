import Knapsack.CommandLine.Response

/-! # The program -/

open Knapsack Knapsack.CommandLine

/-- What a path leads to. -/
def lookUp (path : String) : IO File := do
  try return .contents (← IO.FS.readBinFile path).toList
  catch
    | .inappropriateType .. => return .directory
    | _ => return .missing

/-- Answers the command line. -/
def main (arguments : List String) : IO UInt32 := do
  let start ← IO.monoMsNow
  let response ← match read arguments with
    | .error fault => pure (refuse fault)
    | .ok request => do
      let file ← match request with
        | .solve path _ => lookUp path
        | _ => pure .missing
      pure (answer request file)
  for notice in response.notices do
    IO.eprintln s!"[{notice.level.name}] {notice.text}"
  for complaint in response.complaint?.toList do
    IO.eprintln complaint
  if response.searched then
    let elapsed := (← IO.monoMsNow) - start
    IO.println s!"Duration:   {Decimal.placePoint 3 elapsed} seconds "
  for line in response.lines do
    IO.println line
  return response.code
