import SiteMacros.Cache
import SiteMacros.CommandLine.Command
import SiteMacros.CommandLine.Console
import SiteMacros.CommandLine.Listing
import SiteMacros.CommandLine.Run
import SiteMacros.CommandLine.Watch
import SiteMacros.Configuration
import SiteMacros.Configuration.Document
import SiteMacros.Dependencies
import SiteMacros.Edit
import SiteMacros.Emission
import SiteMacros.Error
import SiteMacros.Expansion
import SiteMacros.Expansion.Module
import SiteMacros.Expression
import SiteMacros.Expression.Render
import SiteMacros.Failure
import SiteMacros.FileTree
import SiteMacros.FileTree.Access
import SiteMacros.FileTree.Difference
import SiteMacros.Glob.Pattern
import SiteMacros.Glob.Search
import SiteMacros.ImportPattern
import SiteMacros.ImportScope
import SiteMacros.MacroName
import SiteMacros.Main
import SiteMacros.Menu
import SiteMacros.Namespace
import SiteMacros.Page
import SiteMacros.PageName
import SiteMacros.PageTree
import SiteMacros.Path
import SiteMacros.Path.Map
import SiteMacros.Project
import SiteMacros.Proofs.Accounts
import SiteMacros.Proofs.Alike
import SiteMacros.Proofs.Ancestors
import SiteMacros.Proofs.Answers
import SiteMacros.Proofs.ArrowFunctions
import SiteMacros.Proofs.Attempts
import SiteMacros.Proofs.BatchOrder
import SiteMacros.Proofs.Batches
import SiteMacros.Proofs.Beside
import SiteMacros.Proofs.Captures
import SiteMacros.Proofs.Coherence
import SiteMacros.Proofs.ComponentMatches
import SiteMacros.Proofs.Deliveries
import SiteMacros.Proofs.Destinations
import SiteMacros.Proofs.Detection
import SiteMacros.Proofs.Edits
import SiteMacros.Proofs.Emissions
import SiteMacros.Proofs.EmittedPaths
import SiteMacros.Proofs.ExactSearches
import SiteMacros.Proofs.FailedLoads
import SiteMacros.Proofs.Fallbacks
import SiteMacros.Proofs.FileTexts
import SiteMacros.Proofs.FlatProjects
import SiteMacros.Proofs.Forced
import SiteMacros.Proofs.FoundFiles
import SiteMacros.Proofs.GlobTexts
import SiteMacros.Proofs.GuardPlaces
import SiteMacros.Proofs.Guards
import SiteMacros.Proofs.Histories
import SiteMacros.Proofs.Leads
import SiteMacros.Proofs.Leftovers
import SiteMacros.Proofs.Lexemes
import SiteMacros.Proofs.LiteralPatterns
import SiteMacros.Proofs.Literals
import SiteMacros.Proofs.LocalNames
import SiteMacros.Proofs.Lockstep
import SiteMacros.Proofs.MarkedNames
import SiteMacros.Proofs.Mentions
import SiteMacros.Proofs.Menus
import SiteMacros.Proofs.Mirror
import SiteMacros.Proofs.NameScopes
import SiteMacros.Proofs.Openings
import SiteMacros.Proofs.Operands
import SiteMacros.Proofs.Owners
import SiteMacros.Proofs.PageDirectories
import SiteMacros.Proofs.PageNames
import SiteMacros.Proofs.PageRegistrations
import SiteMacros.Proofs.PageTranslations
import SiteMacros.Proofs.PageTree
import SiteMacros.Proofs.Parameters
import SiteMacros.Proofs.ParserRuns
import SiteMacros.Proofs.Patterns
import SiteMacros.Proofs.Perform
import SiteMacros.Proofs.Places
import SiteMacros.Proofs.Plans
import SiteMacros.Proofs.Presence
import SiteMacros.Proofs.ReadBack
import SiteMacros.Proofs.ReadExpressions
import SiteMacros.Proofs.ReadOrder
import SiteMacros.Proofs.Rearrangements
import SiteMacros.Proofs.Rebuilds
import SiteMacros.Proofs.RegisteredPages
import SiteMacros.Proofs.Registrable
import SiteMacros.Proofs.Registration
import SiteMacros.Proofs.RelativePaths
import SiteMacros.Proofs.Remembered
import SiteMacros.Proofs.Removals
import SiteMacros.Proofs.RemovedPaths
import SiteMacros.Proofs.Rendered
import SiteMacros.Proofs.Repeats
import SiteMacros.Proofs.Requests
import SiteMacros.Proofs.ResourceFiles
import SiteMacros.Proofs.Resources
import SiteMacros.Proofs.Retry
import SiteMacros.Proofs.Rewrites
import SiteMacros.Proofs.RouteIds
import SiteMacros.Proofs.RouteTrees
import SiteMacros.Proofs.Scans
import SiteMacros.Proofs.SearchBases
import SiteMacros.Proofs.Searches
import SiteMacros.Proofs.SequentialEdits
import SiteMacros.Proofs.ShapeChanges
import SiteMacros.Proofs.SingleModules
import SiteMacros.Proofs.SourceSafety
import SiteMacros.Proofs.Sources
import SiteMacros.Proofs.Specifiers
import SiteMacros.Proofs.Splices
import SiteMacros.Proofs.Tags
import SiteMacros.Proofs.Takes
import SiteMacros.Proofs.Templates
import SiteMacros.Proofs.TreeExpressions
import SiteMacros.Proofs.TreeSites
import SiteMacros.Proofs.Turns
import SiteMacros.Proofs.UrlPaths
import SiteMacros.Proofs.ValidPatterns
import SiteMacros.Proofs.VisitOrder
import SiteMacros.Proofs.Waiting
import SiteMacros.Proofs.Walks
import SiteMacros.Proofs.Watched
import SiteMacros.Proofs.WrittenPaths
import SiteMacros.Registry
import SiteMacros.Route
import SiteMacros.RoutePath
import SiteMacros.Script.Call
import SiteMacros.Script.Grammar.Exchange
import SiteMacros.Script.Grammar.Expression
import SiteMacros.Script.Grammar.Function
import SiteMacros.Script.Grammar.Markup
import SiteMacros.Script.Grammar.Statement
import SiteMacros.Script.Grammar.Target
import SiteMacros.Script.Grammar.Type
import SiteMacros.Script.Import
import SiteMacros.Script.Node
import SiteMacros.Script.Parse
import SiteMacros.Script.Parser
import SiteMacros.Script.Scanner
import SiteMacros.Script.Token
import SiteMacros.Session
import SiteMacros.Session.Batch
import SiteMacros.Session.Build
import SiteMacros.Session.Change
import SiteMacros.Session.Output
import SiteMacros.Session.Process
import SiteMacros.Sort
import SiteMacros.Text.Blank
import SiteMacros.Text.Digest
import SiteMacros.Text.Digit
import SiteMacros.Text.Identifier
import SiteMacros.Text.Quoted
import SiteMacros.Text.Split
import SiteMacros.Text.Uppercase
import SiteMacros.Toml
import SiteMacros.Toml.Document
import SiteMacros.Toml.Scalar
import SiteMacros.Translations
import SiteMacros.UrlPath
