import PatternSampler.Main
import PatternSampler.Pattern.Build
import PatternSampler.Pattern.Encode
import PatternSampler.Proofs.BottomUp
import PatternSampler.Proofs.Numerals
import PatternSampler.Proofs.Meaning
import PatternSampler.Proofs.Samples
import PatternSampler.Proofs.Exclusion
import PatternSampler.Proofs.Regular
import PatternSampler.Proofs.History
import PatternSampler.Proofs.Recall
import PatternSampler.Proofs.JsonScalars
import PatternSampler.Proofs.JsonValues
import PatternSampler.Proofs.NodeJson
import PatternSampler.Proofs.JsonDepth
import PatternSampler.Proofs.NodeText
import PatternSampler.Proofs.Guarantees
import PatternSampler.Proofs.Progress
import PatternSampler.Proofs.Checked
import PatternSampler.Proofs.Safety
import PatternSampler.Proofs.Members
import PatternSampler.Proofs.NodeDocument
import PatternSampler.Proofs.NodeShape
import PatternSampler.Proofs.JsonRuns
import PatternSampler.Proofs.Respelling
import PatternSampler.Proofs.Rephrasing
import PatternSampler.Proofs.Frames
import PatternSampler.Proofs.Faults
import PatternSampler.Proofs.Metadata
import PatternSampler.Proofs.Levels
import PatternSampler.Proofs.Limits
import PatternSampler.Proofs.Arguments
import PatternSampler.Proofs.Output
import PatternSampler.Proofs.DecodedHeight
import PatternSampler.Proofs.Spans
import PatternSampler.Proofs.Remainder
import PatternSampler.Proofs.Repetitions
import PatternSampler.Proofs.Tours
import PatternSampler.Proofs.GroupOrder
import PatternSampler.Proofs.Replay
import PatternSampler.Proofs.Numbering
import PatternSampler.Proofs.InStep
import PatternSampler.Proofs.Unrolling
import PatternSampler.Proofs.Flattening
import PatternSampler.Proofs.Wrappers
import PatternSampler.Proofs.Uniformity
import PatternSampler.Proofs.Digits
import PatternSampler.Proofs.ArgumentGroups
