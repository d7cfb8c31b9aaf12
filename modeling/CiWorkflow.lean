import CiWorkflow.Context.Leaf
import CiWorkflow.Expression.Call
import CiWorkflow.Expression.Template
import CiWorkflow.Files.Tree
import CiWorkflow.Main
import CiWorkflow.Text.Dedent
import CiWorkflow.Workflow.Edit
import CiWorkflow.Proofs.Workflow.RunnerLabels
import CiWorkflow.Proofs.Yaml.Position
import CiWorkflow.Proofs.Yaml.Scan
import CiWorkflow.Proofs.Yaml.DoubleQuoted
import CiWorkflow.Proofs.Decimal.Rounding
import CiWorkflow.Proofs.Decimal.Shortest
import CiWorkflow.Proofs.Decimal.Text
import CiWorkflow.Proofs.Yaml.Number
import CiWorkflow.Proofs.Yaml.Resolve
import CiWorkflow.Proofs.Yaml.Parse
import CiWorkflow.Proofs.Json.Quoted
import CiWorkflow.Proofs.Yaml.Flow
import CiWorkflow.Proofs.Yaml.Plain
import CiWorkflow.Proofs.Json.Scan
import CiWorkflow.Proofs.Json.Parse
import CiWorkflow.Proofs.Yaml.Value
import CiWorkflow.Proofs.Render.Fresh
import CiWorkflow.Proofs.Render.Restore
import CiWorkflow.Proofs.Json.Restore
import CiWorkflow.Proofs.Json.RoundTrip
import CiWorkflow.Proofs.Yaml.Places
import CiWorkflow.Proofs.Yaml.Shift
import CiWorkflow.Proofs.Yaml.Directive
import CiWorkflow.Proofs.Render.Encoder
import CiWorkflow.Proofs.Workflow.Validity
import CiWorkflow.Proofs.Yaml.Content
import CiWorkflow.Proofs.Workflow.Schema
import CiWorkflow.Proofs.Workflow.StrayKey
import CiWorkflow.Yaml.Datum
import CiWorkflow.Proofs.Yaml.Rebuilt
import CiWorkflow.Proofs.Yaml.ReadBack
import CiWorkflow.Proofs.Workflow.ReadBack.Setting
import CiWorkflow.Proofs.Workflow.ReadBack.Trigger
import CiWorkflow.Proofs.Workflow.ReadBack.Document
import CiWorkflow.Proofs.Text.Split
import CiWorkflow.Proofs.Files.Path
import CiWorkflow.Proofs.Files.Growth
import CiWorkflow.Proofs.Generate.Runs
import CiWorkflow.Proofs.Generate.Name
import CiWorkflow.Proofs.Generate.Scan
import CiWorkflow.Proofs.Generate.Settings
import CiWorkflow.Proofs.Generate.Output
import CiWorkflow.Proofs.CommandLine.Generate
import CiWorkflow.Proofs.Expression.Wrapped
import CiWorkflow.Proofs.Expression.Closing
import CiWorkflow.Proofs.Expression.Call
import CiWorkflow.Proofs.Expression.Content
import CiWorkflow.Proofs.Expression.Origin
import CiWorkflow.Proofs.Expression.Reading
import CiWorkflow.Proofs.Expression.Grouped
import CiWorkflow.Proofs.Expression.Structure
import CiWorkflow.Proofs.Files.Again
import CiWorkflow.Proofs.Generate.Again
import CiWorkflow.Proofs.CommandLine.Regenerate
import CiWorkflow.Proofs.Workflow.BuildOrder
import CiWorkflow.Proofs.Workflow.FieldOrder
import CiWorkflow.Proofs.Workflow.EntryOrder
import CiWorkflow.Proofs.Generate.Calls
import CiWorkflow.Proofs.CommandLine.Effects
import CiWorkflow.Proofs.Workflow.TriggerKeys
import CiWorkflow.Proofs.Yaml.Progress
import CiWorkflow.Proofs.Yaml.Comments
import CiWorkflow.Proofs.Render.Header
import CiWorkflow.Proofs.Render.Literal
import CiWorkflow.Proofs.Yaml.BlockColumn
import CiWorkflow.Proofs.Render.LiteralColumn
import CiWorkflow.Proofs.Render.Scripts
import CiWorkflow.Proofs.Render.Replaced
import CiWorkflow.Proofs.Render.Restored
import CiWorkflow.Proofs.Yaml.LineFeed
import CiWorkflow.Proofs.Yaml.FinalFeed
import CiWorkflow.Proofs.Yaml.MapText
import CiWorkflow.Proofs.Yaml.Leaves
import CiWorkflow.Proofs.Yaml.MapNode
import CiWorkflow.Proofs.Yaml.FedWord
import CiWorkflow.Proofs.Yaml.FedNode
import CiWorkflow.Proofs.Yaml.Same
import CiWorkflow.Proofs.Render.Ending
import CiWorkflow.Proofs.Render.Standing
import CiWorkflow.Proofs.Yaml.Markers
import CiWorkflow.Proofs.Json.Markers
import CiWorkflow.Proofs.Render.Marked
import CiWorkflow.Proofs.Expression.Template
import CiWorkflow.Proofs.Expression.Operand
import CiWorkflow.Proofs.Workflow.MachineLabel
import CiWorkflow.Proofs.Context.Walk
import CiWorkflow.Proofs.Expression.Balance
import CiWorkflow.Proofs.Expression.Arguments
import CiWorkflow.Proofs.Files.Listing
import CiWorkflow.Proofs.Files.FileName
import CiWorkflow.Proofs.Expression.Placeholder
import CiWorkflow.Proofs.Expression.Combined
import CiWorkflow.Proofs.Text.Dedent
import CiWorkflow.Proofs.Generate.Selection
import CiWorkflow.Proofs.Expression.SingleGroup
import CiWorkflow.Proofs.Toml.Section
import CiWorkflow.Proofs.Generate.FileSettings
import CiWorkflow.Proofs.CommandLine.Layers
import CiWorkflow.Proofs.Yaml.Outside
import CiWorkflow.Proofs.Yaml.PlainLine
import CiWorkflow.Proofs.Yaml.QuotedLine
import CiWorkflow.Proofs.Yaml.LiteralLines
import CiWorkflow.Proofs.Yaml.TagText
import CiWorkflow.Proofs.Yaml.Represents
import CiWorkflow.Proofs.Yaml.Atoms
import CiWorkflow.Proofs.Yaml.SimpleKey
import CiWorkflow.Proofs.Yaml.AtPlace
import CiWorkflow.Proofs.Yaml.NodeText
import CiWorkflow.Proofs.Render.ScriptBlock
import CiWorkflow.Proofs.Render.Laid
import CiWorkflow.Proofs.Render.LaidReading
import CiWorkflow.Proofs.Render.Resumed
import CiWorkflow.Proofs.Render.LaidRestored
import CiWorkflow.Proofs.Render.RoundTrip
