import ApiCommands.Main
import ApiCommands.Proofs.Command.Division
import ApiCommands.Proofs.Command.Written
import ApiCommands.Proofs.Compile.Complete
import ApiCommands.Proofs.Compile.Locality
import ApiCommands.Proofs.Compile.MemberOrder
import ApiCommands.Proofs.Compile.Names
import ApiCommands.Proofs.Compile.Respelled
import ApiCommands.Proofs.Naming.Search
import ApiCommands.Proofs.Program.Dispatch
import ApiCommands.Proofs.Request.Address
import ApiCommands.Proofs.Request.Carried
import ApiCommands.Proofs.Request.Detail
import ApiCommands.Proofs.Request.Substitution
import ApiCommands.Proofs.Schema.Pointer
import ApiCommands.Proofs.Schema.Resolution
import ApiCommands.Proofs.Settings
import ApiCommands.Proofs.Surface.Choices
import ApiCommands.Proofs.Surface.Collected
import ApiCommands.Proofs.Surface.Delivery
import ApiCommands.Proofs.Surface.Guarded
import ApiCommands.Proofs.Surface.Invocable
import ApiCommands.Proofs.Surface.Lookups
import ApiCommands.Proofs.Surface.Numbers
import ApiCommands.Proofs.Surface.Refusals
import ApiCommands.Proofs.Surface.Required
import ApiCommands.Proofs.Surface.Sendable
import ApiCommands.Proofs.Surface.WellFormed
import ApiCommands.Proofs.Surface.Words
import ApiCommands.Proofs.Text.Scan
import ApiCommands.Proofs.Tree.Parents
import ApiCommands.Proofs.Yaml.Rendered
import ApiCommands.Source.Folder
