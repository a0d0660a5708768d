import PackageSeal.Sealing
import PackageSeal.Verification

/-!
# Summaries

What is said of a finished run, line by line.
-/

namespace PackageSeal

/-- The lines about a sealing. -/
def Sealing.Report.summary (report : Report) : List String :=
  let first :=
    match report.outcome with
    | .signed key => "Signed with public key " ++ Text.hex key.bytes
    | .unsigned problem => "UNSIGNED package: " ++ problem.message
  let n := report.sidecars
  let noun := if n = 1 then "sidecar" else "sidecars"
  first :: report.artifacts.map (fun path => "  " ++ path.text) ++ [s!"Wrote {n} digest {noun}"]

namespace Verification

/-- The line about one signature. -/
def targetLine (target : String × Status) : String :=
  match target.2 with
  | .verified key => "  " ++ target.1 ++ ": verified (" ++ Text.hex key.bytes ++ ")"
  | .unsigned => "  " ++ target.1 ++ ": unsigned placeholder"

/-- The lines about a verification of the package at `root`. -/
def Report.summary (root : Path) (report : Report) : List String :=
  let place := root.text
  let artifacts := report.targets.length
  let digests := report.sidecars
  report.targets.map targetLine ++ [s!"{place}: {artifacts} artifacts, {digests} digests intact"]

end Verification

end PackageSeal
