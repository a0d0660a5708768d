import PackageSeal.Disk.Inventory
import PackageSeal.Disk.WellFormed
import PackageSeal.Main
import PackageSeal.Sample
import PackageSeal.Proofs.Disk.Below
import PackageSeal.Proofs.Frame.Stream
import PackageSeal.Proofs.Disk.Walk
import PackageSeal.Proofs.Coverage.Rosters
import PackageSeal.Proofs.Coverage.Holdings
import PackageSeal.Proofs.Verification.Signatures
import PackageSeal.Proofs.Verification.Tampering
import PackageSeal.Proofs.Disk.Flat
import PackageSeal.Proofs.Path.Sources
import PackageSeal.Proofs.Layout.Valid
import PackageSeal.Proofs.Disk.Rewrites
import PackageSeal.Proofs.Sealing.Steps
import PackageSeal.Proofs.Coverage.Kept
import PackageSeal.Proofs.Sealing.Sidecars
import PackageSeal.Proofs.Sealing.Signatures
import PackageSeal.Proofs.Sealing.Sealed
import PackageSeal.Proofs.Sealing.Covered
import PackageSeal.Proofs.Verification.Package
import PackageSeal.Proofs.Verification.Accepted
import PackageSeal.Proofs.Sealing.RoundTrip
import PackageSeal.Proofs.Sealing.Digests
import PackageSeal.Proofs.Disk.Alike
import PackageSeal.Proofs.Sealing.Repeated
import PackageSeal.Proofs.Sealing.Sources
import PackageSeal.Proofs.Disk.Through
import PackageSeal.Proofs.Coverage.Refusals
import PackageSeal.Proofs.Sealing.Refusals
import PackageSeal.Proofs.Sealing.Confined
import PackageSeal.Proofs.Sealing.Aborted
import PackageSeal.Proofs.Sealing.Inside
import PackageSeal.Proofs.Layout.Placeholders
import PackageSeal.Proofs.Layout.Declared
import PackageSeal.Proofs.Layout.Reordered
import PackageSeal.Proofs.Sealing.Reordered
import PackageSeal.Proofs.Layout.Outputs
import PackageSeal.Proofs.Frame.Copied
import PackageSeal.Proofs.Sealing.Streamed
import PackageSeal.Proofs.Coverage.Tree
import PackageSeal.Proofs.Disk.Listing
import PackageSeal.Proofs.NormalForms
import PackageSeal.Proofs.Verification.Artifacts
import PackageSeal.Proofs.Coverage.Enrolling
import PackageSeal.Proofs.Disk.Emptied
import PackageSeal.Proofs.Keys
import PackageSeal.Proofs.Sealing.Unsigned
import PackageSeal.Proofs.Disk.Entry
import PackageSeal.Proofs.Checksums
