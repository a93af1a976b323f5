import NearMemory.Assembly
import NearMemory.CommandLine.Run
import NearMemory.Hardware.Reader
import NearMemory.Main
import NearMemory.Schedule.Operands
import NearMemory.Schedule.Summary
import NearMemory.Proofs.StreamSupply
import NearMemory.Proofs.Visit
import NearMemory.Proofs.Rounding
import NearMemory.Proofs.TreeWidths
import NearMemory.Proofs.WidthGrowth
import NearMemory.Proofs.PackPlaces
import NearMemory.Proofs.WalkOrder
import NearMemory.Proofs.LayerFold
import NearMemory.Proofs.FoldRun
import NearMemory.Proofs.PlanBounds
import NearMemory.Proofs.BodyLimits
import NearMemory.Proofs.ScheduleRun
import NearMemory.Proofs.HardwareLimits
import NearMemory.Proofs.PartialSums
import NearMemory.Proofs.LineText
import NearMemory.Proofs.NumeralText
import NearMemory.Proofs.StreamText
import NearMemory.Proofs.TokenText
import NearMemory.Proofs.OperandText
import NearMemory.Proofs.StatementText
import NearMemory.Proofs.PackedWord
import NearMemory.Proofs.WordFields
import NearMemory.Proofs.AssemblerRun
import NearMemory.Proofs.PassRun
import NearMemory.Proofs.AssembledSchedule
import NearMemory.Proofs.AcceptedLines
import NearMemory.Proofs.PrintedText
import NearMemory.Proofs.ChunkSizes
import NearMemory.Proofs.RegisterAddresses
import NearMemory.Proofs.LineSteps
import NearMemory.Proofs.TraceMirror
import NearMemory.Proofs.StagedPrograms
import NearMemory.Proofs.RemainderFold
import NearMemory.Proofs.CountedCommands
import NearMemory.Proofs.LongerStreams
import NearMemory.Proofs.AlikeRuns
import NearMemory.Proofs.ProgramVariants
import NearMemory.Proofs.LayerLayout
import NearMemory.Proofs.FoldedSums
import NearMemory.Proofs.BodyOrder
import NearMemory.Proofs.LargestChunk
import NearMemory.Proofs.AddressFields
import NearMemory.Proofs.FailedLines
import NearMemory.Proofs.OpenRow
import NearMemory.Proofs.LinePieces
import NearMemory.Proofs.WrittenNumbers
import NearMemory.Proofs.StockReductions
import NearMemory.Proofs.StockSchedule
import NearMemory.Proofs.AddressRoundTrip
import NearMemory.Proofs.StorageAddresses
import NearMemory.Proofs.ConstantDigits
import NearMemory.Proofs.FoldStops
import NearMemory.Proofs.AnnotatedStreams
import NearMemory.Proofs.TraceLines
import NearMemory.Proofs.PackTiling
import NearMemory.Proofs.ReductionLoop
import NearMemory.Proofs.JoinedTexts
