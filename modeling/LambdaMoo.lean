import LambdaMoo.StmtToCode
import LambdaMoo.VerbCache
import LambdaMoo.VerbProtection
import LambdaMoo.Renumbering
import LambdaMoo.DbFileObjects
import LambdaMoo.QueueInvariant
import LambdaMoo.LookupRuns
import LambdaMoo.FilePaths
import LambdaMoo.Validation
import LambdaMoo.CountBytes
import LambdaMoo.Recycling
import LambdaMoo.Creation
import LambdaMoo.Arithmetic
import LambdaMoo.OverlapLoops
import LambdaMoo.BinaryCodec
import LambdaMoo.CommandWords
import LambdaMoo.Editing
import LambdaMoo.ScatterRuns
import LambdaMoo.CompiledCode
import LambdaMoo.ReadBack
import LambdaMoo.Resumptions
import LambdaMoo.ReturnedValues
import LambdaMoo.InputLines
import LambdaMoo.Prepositions
import LambdaMoo.Substitution
import LambdaMoo.MatchObject
import LambdaMoo.Sorting
import LambdaMoo.PatternCache
import LambdaMoo.OutputQueue
import LambdaMoo.ResumedTasks
import LambdaMoo.DefinitionFrames
import LambdaMoo.MoveCalls
import LambdaMoo.Raising
import LambdaMoo.TagSafety
import LambdaMoo.Columns
import LambdaMoo.Timers
import LambdaMoo.LineReads
import LambdaMoo.LineFileCalls
import LambdaMoo.StreamBuffers
import LambdaMoo.SharedStrings
import LambdaMoo.Privileges
import LambdaMoo.ProgramRuns
