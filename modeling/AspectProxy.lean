import AspectProxy.Decimal.Reader
import AspectProxy.Main
import AspectProxy.CommandLine
import AspectProxy.Machine.Summary
import AspectProxy.Session
import AspectProxy.Proxy.Weaving
import AspectProxy.Proxy.Ledger
import AspectProxy.Machine.Host
import AspectProxy.Machine.Loading
import AspectProxy.Sources.UnitStore
import AspectProxy.Value.Arithmetic
import AspectProxy.Value.Json
import AspectProxy.Text.Quoted
import AspectProxy.Text.CaseMap
import AspectProxy.Proxy.Retarget
import AspectProxy.Tree.References
import AspectProxy.Tree.Names
import AspectProxy.Tree.Printer
import AspectProxy.Json.Writer
import AspectProxy.Json.Reader
import AspectProxy.Tree.Parser
import AspectProxy.Tree.Equality
import AspectProxy.Token.Lexer
import AspectProxy.Proofs.ClassTable.Lawful
import AspectProxy.Proofs.ClassTable.Loading
import AspectProxy.Proofs.Machine.Steps
import AspectProxy.Proofs.ClassTable.Reachable
import AspectProxy.Proofs.Machine.Loads
import AspectProxy.Proofs.Machine.LoadFrame
import AspectProxy.Proofs.Weaving.AdviceRuns
import AspectProxy.Proofs.Weaving.Wrapper
import AspectProxy.Proofs.Weaving.Generated
import AspectProxy.Proofs.Printing.Scanning
import AspectProxy.Proofs.Weaving.WrappedCall
import AspectProxy.Proofs.Weaving.Parentage
import AspectProxy.Proofs.Printing.Pieces
import AspectProxy.Proofs.Printing.WellFormed
import AspectProxy.Proofs.Printing.Spacing
import AspectProxy.Proofs.Reading.Leads
import AspectProxy.Proofs.Reading.Operands
import AspectProxy.Proofs.Reading.Expressions
import AspectProxy.Proofs.Reading.Statements
import AspectProxy.Proofs.Reading.Declarations
import AspectProxy.Proofs.Reading.Yields
import AspectProxy.Proofs.Reading.Trees
import AspectProxy.Proofs.Reading.RoundTrip
import AspectProxy.Proofs.References.Renaming
import AspectProxy.Proofs.Weaving.Retargeting
import AspectProxy.Proofs.Weaving.Defaults
import AspectProxy.Proofs.Weaving.Printed
import AspectProxy.Proofs.Session.ProxyOfProxy
import AspectProxy.Proofs.Machine.Requests
import AspectProxy.Proofs.Machine.CallBound
import AspectProxy.Proofs.Weaving.Hierarchy
import AspectProxy.Proofs.ClassTable.Autoload
import AspectProxy.Proofs.ClassTable.Atomic
import AspectProxy.Proofs.Reading.Recognition
import AspectProxy.Proofs.Reading.Ending
import AspectProxy.Proofs.Session.Repeated
import AspectProxy.Proofs.Session.KeptUnits
import AspectProxy.Proofs.Reading.Insertion
import AspectProxy.Proofs.Machine.DeclaredFields
import AspectProxy.Proofs.Session.Requested
import AspectProxy.Proofs.Weaving.Dispatch
import AspectProxy.Proofs.Advice.History
import AspectProxy.Proofs.Machine.NestedStores
import AspectProxy.Proofs.Machine.TargetParts
import AspectProxy.Proofs.References.Traversal
import AspectProxy.Proofs.ClassTable.Nesting
import AspectProxy.Proofs.ClassTable.Retrying
import AspectProxy.Proofs.ClassTable.Reordered
import AspectProxy.Proofs.Sources.Lookup
import AspectProxy.Proofs.Advice.Globs
import AspectProxy.Proofs.Values.JsonRoundTrip
import AspectProxy.Proofs.Values.ObjectGraphs
import AspectProxy.Proofs.Weaving.Rounds
import AspectProxy.Proofs.Weaving.Hygiene
