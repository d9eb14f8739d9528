import LuaBundle.Analysis.Error
import LuaBundle.Build.Basic
import LuaBundle.Build.Error
import LuaBundle.Bundle.Basic
import LuaBundle.Bundle.Embedding
import LuaBundle.Bundle.Error
import LuaBundle.Bundle.Header
import LuaBundle.Bundle.Names
import LuaBundle.Bundle.Prelude
import LuaBundle.Bundle.Write
import LuaBundle.CommandLine.Arguments
import LuaBundle.CommandLine.Commands
import LuaBundle.CommandLine.Help
import LuaBundle.CommandLine.Output
import LuaBundle.CommandLine.Run
import LuaBundle.CommandLine.Settings
import LuaBundle.Config.Basic
import LuaBundle.Diagnostic
import LuaBundle.Engine.Basic
import LuaBundle.Engine.Error
import LuaBundle.Engine.Invoke
import LuaBundle.Engine.Job
import LuaBundle.Engine.Luastatic
import LuaBundle.Engine.Srlua
import LuaBundle.Engine.Toolchain
import LuaBundle.Event
import LuaBundle.Execution.Basic
import LuaBundle.Execution.Refusal
import LuaBundle.Failure
import LuaBundle.Graph.Basic
import LuaBundle.Graph.Discovery
import LuaBundle.Graph.Search
import LuaBundle.Json.Basic
import LuaBundle.Json.Reader
import LuaBundle.Main
import LuaBundle.Manifest
import LuaBundle.Module.Key
import LuaBundle.Module.Name
import LuaBundle.Module.Resolve
import LuaBundle.Number.Basic
import LuaBundle.Number.Binary
import LuaBundle.Number.Shortest
import LuaBundle.OrderedMap
import LuaBundle.Path
import LuaBundle.Session
import LuaBundle.Source.Escape
import LuaBundle.Source.Lexeme
import LuaBundle.Source.Position
import LuaBundle.Source.Quoted
import LuaBundle.Source.RequireSite
import LuaBundle.Source.Token
import LuaBundle.Text.Basic
import LuaBundle.Text.Shown
import LuaBundle.Text.Utf8
import LuaBundle.Workspace.Basic
import LuaBundle.Workspace.Fault
import LuaBundle.Workspace.Read
import LuaBundle.Workspace.Write
import LuaBundle.Proofs.Graph.Discovery
import LuaBundle.Proofs.Graph.Path
import LuaBundle.Proofs.Graph.Program
import LuaBundle.Proofs.Graph.Requirement
import LuaBundle.Proofs.Recorded
import LuaBundle.Proofs.Bundle.Grouping
import LuaBundle.Proofs.Graph.Manifest
import LuaBundle.Proofs.Bundle.Acceptance
import LuaBundle.Proofs.Source.Quoted
import LuaBundle.Proofs.Source.Sequence
import LuaBundle.Proofs.Bundle.Reading
import LuaBundle.Proofs.Bundle.Linking
import LuaBundle.Proofs.Lua.Piece
import LuaBundle.Proofs.Lua.Numeral
import LuaBundle.Proofs.Lua.Strings
import LuaBundle.Proofs.Lua.Lexemes
import LuaBundle.Proofs.Source.Accounting
import LuaBundle.Proofs.Graph.Cycle
import LuaBundle.Proofs.Source.Reading
import LuaBundle.Proofs.Source.Steps
import LuaBundle.Proofs.Source.Rebinding
import LuaBundle.Proofs.Source.Context
import LuaBundle.Proofs.Source.LineEnd
import LuaBundle.Proofs.Source.Shape
import LuaBundle.Proofs.Source.Site
import LuaBundle.Proofs.Source.Embedding
import LuaBundle.Proofs.Source.Respacing
import LuaBundle.Proofs.Source.Spacing
import LuaBundle.Proofs.Bundle.Isolation
import LuaBundle.Proofs.Bundle.Literals
import LuaBundle.Proofs.Bundle.Host
import LuaBundle.Proofs.Path
import LuaBundle.Proofs.Workspace.Lookup
import LuaBundle.Proofs.Workspace.Tree
import LuaBundle.Proofs.Workspace.Change
import LuaBundle.Proofs.Session
import LuaBundle.Proofs.Bundle.Output
import LuaBundle.Proofs.Workspace.Reading
import LuaBundle.Proofs.Text.Utf8
import LuaBundle.Proofs.Bundle.Content
import LuaBundle.Proofs.Engine.Sources
import LuaBundle.Proofs.Build.Sources
import LuaBundle.Proofs.Engine.Run
import LuaBundle.Proofs.Engine.Artifact
import LuaBundle.Proofs.Engine.Delivery
import LuaBundle.Proofs.Workspace.Directories
import LuaBundle.Proofs.Workspace.Frame
import LuaBundle.Proofs.Workspace.Canonical
import LuaBundle.Proofs.Results
import LuaBundle.Proofs.Graph.Lockstep
import LuaBundle.Proofs.Graph.Limit
import LuaBundle.Proofs.Graph.SearchRoots
import LuaBundle.Proofs.Build.Reports
import LuaBundle.Proofs.Build.Files
import LuaBundle.Proofs.Engine.Temporary
import LuaBundle.Proofs.Graph.Distance
import LuaBundle.Proofs.Graph.Events
import LuaBundle.Proofs.Text.Join
import LuaBundle.Proofs.Module.Key
import LuaBundle.Proofs.Graph.FileList
import LuaBundle.Proofs.CommandLine.Action
import LuaBundle.Proofs.CommandLine.Detail
import LuaBundle.Proofs.Build.Failure
import LuaBundle.Proofs.CommandLine.Exit
import LuaBundle.Proofs.Module.Choice
import LuaBundle.Proofs.Bundle.Registration
import LuaBundle.Proofs.Source.Expression
import LuaBundle.Proofs.Text.Returns
import LuaBundle.Proofs.Source.Returns
import LuaBundle.Proofs.Source.ReturnScan
import LuaBundle.Proofs.Module.Candidates
import LuaBundle.Proofs.Text.Unicode
import LuaBundle.Proofs.Bundle.Storage
import LuaBundle.Proofs.Source.Comment
import LuaBundle.Proofs.Source.ByteOrderMark
import LuaBundle.Proofs.Engine.Refusal
import LuaBundle.Proofs.Relative
import LuaBundle.Proofs.Engine.Arguments
import LuaBundle.Proofs.Diagnostic
import LuaBundle.Proofs.Workspace.Names
import LuaBundle.Proofs.Graph.OneLine
import LuaBundle.Proofs.Bundle.Header
import LuaBundle.Proofs.Graph.DepthFirst
import LuaBundle.Proofs.Number
import LuaBundle.Proofs.CommandLine.Invocation
