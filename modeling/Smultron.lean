import Smultron.Basic
import Smultron.Lib.Buffer
import Smultron.Lib.Checked
import Smultron.Lib.Memory
import Smultron.Lib.Program
import Smultron.Lib.Proc
import Smultron.Lib.Simulation
import Smultron.Lib.Eval
import Smultron.Lib.SlotTable
import Smultron.Lib.Chunks
import Smultron.Lib.Terminated
import Smultron.Lib.Utf8
import Smultron.Lib.ScrollText
import Smultron.Lib.Replace
import Smultron.Lib.Delimited
import Smultron.Lib.Stepped
import Smultron.Lib.Tiling
import Smultron.Lib.Polled
import Smultron.Kernel.ElfLoader
import Smultron.Kernel.Vfs
import Smultron.Kernel.VgaBuffer
import Smultron.Kernel.Process
import Smultron.Kernel.FrameAllocator
import Smultron.Kernel.Paging
import Smultron.Kernel.Ports
import Smultron.Kernel.Syscall
import Smultron.Kernel.Main
import Smultron.Userspace.Libos
import Smultron.Userspace.MemFns
import Smultron.Userspace.Env
import Smultron.Userspace.FileApps
import Smultron.Userspace.Tokenizer
import Smultron.Userspace.Sed
import Smultron.Userspace.Shell
import Smultron.Userspace.Apps
import Smultron.Userspace.Start
import Smultron.Machine.World
import Smultron.Machine.Programs
import Smultron.Machine.Commands
import Smultron.Machine.Session
import Smultron.Properties.ElfImage
import Smultron.Properties.Overlay
import Smultron.Properties.DirListing
import Smultron.Properties.SlotSafety
import Smultron.Properties.EntryPoint
import Smultron.Properties.Stdio
import Smultron.Properties.Redirection
import Smultron.Properties.StageRuns
import Smultron.Properties.RedirectedReads
import Smultron.Properties.ProcessTable
import Smultron.Properties.Grammar
import Smultron.Properties.TokenizerMeaning
import Smultron.Properties.Stages
import Smultron.Properties.StageParts
import Smultron.Properties.CompoundErrors
import Smultron.Properties.ShellBounds
import Smultron.Properties.ShellCalls
import Smultron.Properties.SerialOutput
import Smultron.Properties.FrameHandout
import Smultron.Properties.Expansion
import Smultron.Properties.WordRanges
import Smultron.Properties.ArgsAgree
import Smultron.Properties.ShellPanics
import Smultron.Properties.ExecStrings
import Smultron.Properties.WordTexts
import Smultron.Properties.WordLines
import Smultron.Properties.QuotedArgs
import Smultron.Properties.EnvTable
import Smultron.Properties.EnvTransport
import Smultron.Properties.Quoting
import Smultron.Properties.LineParses
import Smultron.Properties.Substitution
import Smultron.Properties.StageExecs
import Smultron.Properties.Pipeline
import Smultron.Properties.RefusedLines
import Smultron.Properties.CutLines
import Smultron.Properties.ResolvedPaths
import Smultron.Properties.FileAppRuns
import Smultron.Properties.WriteCounts
import Smultron.Properties.WorkingDir
import Smultron.Properties.Screen
import Smultron.Properties.SedEdits
import Smultron.Properties.SedFiles
import Smultron.Properties.SedStreams
import Smultron.Properties.SedScripts
import Smultron.Properties.ProgramLines
import Smultron.Properties.SedRedirection
import Smultron.Properties.SedLines
import Smultron.Properties.ProgramStarts
import Smultron.Properties.CatCopies
import Smultron.Properties.EnvMap
import Smultron.Properties.ImageProbe
import Smultron.Properties.UndecodablePaths
import Smultron.Properties.TeeCopies
import Smultron.Properties.SamePaths
import Smultron.Properties.StageGrammar
import Smultron.Properties.LsListing
import Smultron.Properties.ScreenRows
import Smultron.Properties.LineEditing
import Smultron.Properties.TokenizerErrors
import Smultron.Properties.TrimmedLines
import Smultron.Properties.MachineKernel
import Smultron.Properties.ProgramMeanings
import Smultron.Properties.CommandMeanings
import Smultron.Properties.LineEffects
import Smultron.Properties.PipelineLaws
import Smultron.Properties.SessionMeanings
import Smultron.Properties.LineFiles
import Smultron.Properties.MappedRegions
import Smultron.Properties.BootSession
import Smultron.Properties.Nesting
import Smultron.Properties.RunsEnd
import Smultron.Properties.ConsolePolls
import Smultron.Properties.KernelFiles
import Smultron.Properties.MemoryBlocks
