import StyleHoist.Markup.Layout
import StyleHoist.Session
import StyleHoist.Files.Disk
import StyleHoist.Main
import StyleHoist.Proofs.Sweep
import StyleHoist.Proofs.Boundary
import StyleHoist.Proofs.Segmentation
import StyleHoist.Proofs.Reference
import StyleHoist.Proofs.Substitution
import StyleHoist.Proofs.Direct
import StyleHoist.Proofs.Extension
import StyleHoist.Proofs.Reading
import StyleHoist.Proofs.Refill
import StyleHoist.Proofs.Clean
import StyleHoist.Proofs.Preservation
import StyleHoist.Proofs.Separation
import StyleHoist.Proofs.Idempotence
import StyleHoist.Proofs.Composition
import StyleHoist.Proofs.Occurrence
import StyleHoist.Proofs.Selection
import StyleHoist.Proofs.Slices
import StyleHoist.Proofs.Checked
import StyleHoist.Proofs.FileSystem
import StyleHoist.Proofs.Conversion
import StyleHoist.Proofs.Retagging
import StyleHoist.Proofs.Placement
import StyleHoist.Proofs.Choice
import StyleHoist.Proofs.Strictness
import StyleHoist.Proofs.Blocks
import StyleHoist.Proofs.Lines
import StyleHoist.Proofs.Enclosure
import StyleHoist.Proofs.Identifier
import StyleHoist.Proofs.Tiling
import StyleHoist.Proofs.Reports
import StyleHoist.Proofs.Path
