import Relief.Command.Files
import Relief.Main
import Relief.Proofs.Depth.Additions
import Relief.Proofs.Depth.Cancellation
import Relief.Proofs.Shading.Lowering
import Relief.Proofs.Shading.Soundness
import Relief.Proofs.Reconstruction.Parts
import Relief.Proofs.Depth.Leaving
import Relief.Proofs.Reconstruction.Errand
import Relief.Proofs.Reconstruction.Superseded
import Relief.Proofs.Reconstruction.Suppression
import Relief.Proofs.Reconstruction.Withdrawal
import Relief.Proofs.Reconstruction.Answers
import Relief.Proofs.Depth.Coverage
import Relief.Proofs.Depth.Remembering
import Relief.Proofs.Depth.Opposite
import Relief.Proofs.Depth.Refinement
import Relief.Proofs.Depth.Masks
import Relief.Proofs.Shading.Division
import Relief.Proofs.Shading.Accesses
import Relief.Proofs.Shading.Stability
import Relief.Proofs.Shading.Source
import Relief.Proofs.Wgsl.Emission
import Relief.Proofs.Run.Lineage
import Relief.Proofs.Depth.Once
import Relief.Proofs.Depth.Evenness
import Relief.Proofs.Depth.Levelling
import Relief.Proofs.Depth.Rows
import Relief.Proofs.Depth.Unknown
import Relief.Proofs.Reconstruction.Facing
import Relief.Proofs.Shading.Slices
import Relief.Proofs.Wgsl.Scope
import Relief.Proofs.Depth.Margin
import Relief.Proofs.Depth.Skips
import Relief.Proofs.Depth.Stopping
import Relief.Proofs.Depth.TurningAway
import Relief.Proofs.Depth.Addressing
import Relief.Proofs.Depth.Quotients
import Relief.Proofs.Depth.Mirroring
import Relief.Proofs.Shading.Algebra
import Relief.Proofs.Shading.Sampling
import Relief.Proofs.Json.Options
import Relief.Proofs.Depth.Wrapping
import Relief.Proofs.Depth.Shares
import Relief.Proofs.Shading.Fingerprints
import Relief.Proofs.Image.Making
