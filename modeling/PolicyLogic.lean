import PolicyLogic.Binding.Deref
import PolicyLogic.Binding.Log
import PolicyLogic.Config
import PolicyLogic.Digest.Blake3
import PolicyLogic.Engine
import PolicyLogic.Error
import PolicyLogic.Event
import PolicyLogic.Fields
import PolicyLogic.Fresh
import PolicyLogic.Host.Absent
import PolicyLogic.Host.Interface
import PolicyLogic.Host.Registry
import PolicyLogic.Knowledge.Base
import PolicyLogic.Knowledge.Fingerprint
import PolicyLogic.Machine.Answer
import PolicyLogic.Machine.Call
import PolicyLogic.Machine.Debugging
import PolicyLogic.Machine.Evaluation
import PolicyLogic.Machine.Goal
import PolicyLogic.Machine.Lookup
import PolicyLogic.Machine.Matching
import PolicyLogic.Machine.Negation
import PolicyLogic.Machine.Run
import PolicyLogic.Machine.Solution
import PolicyLogic.Machine.State
import PolicyLogic.Machine.Step
import PolicyLogic.Machine.Unify
import PolicyLogic.Number.Double
import PolicyLogic.Number.Numeral
import PolicyLogic.Number.Shortest
import PolicyLogic.Proofs.Binding.Acyclic
import PolicyLogic.Proofs.Binding.Circles
import PolicyLogic.Proofs.Binding.Log
import PolicyLogic.Proofs.Binding.Replay
import PolicyLogic.Proofs.Binding.Splicing
import PolicyLogic.Proofs.Conditions.Agreement
import PolicyLogic.Proofs.Conditions.Counterpart
import PolicyLogic.Proofs.Conditions.Filters
import PolicyLogic.Proofs.Conditions.Form
import PolicyLogic.Proofs.Conditions.Open
import PolicyLogic.Proofs.Conditions.Pairing
import PolicyLogic.Proofs.Conditions.Search
import PolicyLogic.Proofs.Conditions.Steps
import PolicyLogic.Proofs.Engine.History
import PolicyLogic.Proofs.Engine.Interleaving
import PolicyLogic.Proofs.Engine.Loading
import PolicyLogic.Proofs.Engine.Reload
import PolicyLogic.Proofs.Host.Lineage
import PolicyLogic.Proofs.Machine.Balance
import PolicyLogic.Proofs.Machine.Breaks
import PolicyLogic.Proofs.Machine.Checks
import PolicyLogic.Proofs.Machine.Completion
import PolicyLogic.Proofs.Machine.Constants
import PolicyLogic.Proofs.Machine.Course
import PolicyLogic.Proofs.Machine.Cut
import PolicyLogic.Proofs.Machine.Dispatch
import PolicyLogic.Proofs.Machine.Domestic
import PolicyLogic.Proofs.Machine.Effects
import PolicyLogic.Proofs.Machine.Equates
import PolicyLogic.Proofs.Machine.Exploration
import PolicyLogic.Proofs.Machine.Finish
import PolicyLogic.Proofs.Machine.Guarded
import PolicyLogic.Proofs.Machine.Leads
import PolicyLogic.Proofs.Machine.Local
import PolicyLogic.Proofs.Machine.Masked
import PolicyLogic.Proofs.Machine.Moves
import PolicyLogic.Proofs.Machine.Negation
import PolicyLogic.Proofs.Machine.Notes
import PolicyLogic.Proofs.Machine.Openness
import PolicyLogic.Proofs.Machine.Ordered
import PolicyLogic.Proofs.Machine.Outcomes
import PolicyLogic.Proofs.Machine.Past
import PolicyLogic.Proofs.Machine.Preference
import PolicyLogic.Proofs.Machine.Reachable
import PolicyLogic.Proofs.Machine.Series
import PolicyLogic.Proofs.Machine.Served
import PolicyLogic.Proofs.Machine.Simulation
import PolicyLogic.Proofs.Machine.Trail
import PolicyLogic.Proofs.Machine.Unbound
import PolicyLogic.Proofs.Machine.Walks
import PolicyLogic.Proofs.Machine.Writing
import PolicyLogic.Proofs.Machine.Yields
import PolicyLogic.Proofs.Number.Exact
import PolicyLogic.Proofs.Number.Order
import PolicyLogic.Proofs.Number.Remainder
import PolicyLogic.Proofs.Number.Representation
import PolicyLogic.Proofs.Residual.Ancestors
import PolicyLogic.Proofs.Residual.Complete
import PolicyLogic.Proofs.Residual.Data
import PolicyLogic.Proofs.Residual.Isolation
import PolicyLogic.Proofs.Residual.Rendering
import PolicyLogic.Proofs.Residual.Rows
import PolicyLogic.Proofs.Residual.Satisfaction
import PolicyLogic.Proofs.Residual.Scopes
import PolicyLogic.Proofs.Residual.Scoping
import PolicyLogic.Proofs.Resolution.Equality
import PolicyLogic.Proofs.Resolution.Equations
import PolicyLogic.Proofs.Resolution.General
import PolicyLogic.Proofs.Resolution.Ground
import PolicyLogic.Proofs.Resolution.Itself
import PolicyLogic.Proofs.Resolution.Lists
import PolicyLogic.Proofs.Resolution.Matching
import PolicyLogic.Proofs.Resolution.Plain
import PolicyLogic.Proofs.Resolution.Refinement
import PolicyLogic.Proofs.Resolution.Reflection
import PolicyLogic.Proofs.Resolution.Search
import PolicyLogic.Proofs.Resolution.Tests
import PolicyLogic.Proofs.Resolution.Unification
import PolicyLogic.Proofs.Rule.Admission
import PolicyLogic.Proofs.Rule.Anonymous
import PolicyLogic.Proofs.Rule.Apart
import PolicyLogic.Proofs.Rule.Copies
import PolicyLogic.Proofs.Rule.Domestic
import PolicyLogic.Proofs.Rule.Drawn
import PolicyLogic.Proofs.Rule.Filtering
import PolicyLogic.Proofs.Rule.Heads
import PolicyLogic.Proofs.Rule.Lifts
import PolicyLogic.Proofs.Rule.Placement
import PolicyLogic.Proofs.Rule.Read
import PolicyLogic.Proofs.Rule.Restoring
import PolicyLogic.Proofs.Rule.Sorting
import PolicyLogic.Proofs.Rule.Specializers
import PolicyLogic.Proofs.Rule.Variant
import PolicyLogic.Proofs.Rule.Wildcards
import PolicyLogic.Proofs.Session.Bridge
import PolicyLogic.Proofs.Session.Conversation
import PolicyLogic.Proofs.Session.Debugging
import PolicyLogic.Proofs.Session.Direct
import PolicyLogic.Proofs.Session.Drive
import PolicyLogic.Proofs.Session.Masked
import PolicyLogic.Proofs.Session.Occurrences
import PolicyLogic.Proofs.Session.Protocol
import PolicyLogic.Proofs.Session.Quitting
import PolicyLogic.Proofs.Session.Tracing
import PolicyLogic.Proofs.Source.Brackets
import PolicyLogic.Proofs.Source.Expressions
import PolicyLogic.Proofs.Source.Levels
import PolicyLogic.Proofs.Source.Lexing
import PolicyLogic.Proofs.Source.Literals
import PolicyLogic.Proofs.Source.Nesting
import PolicyLogic.Proofs.Source.Patterns
import PolicyLogic.Proofs.Source.Positions
import PolicyLogic.Proofs.Source.Reading
import PolicyLogic.Proofs.Source.RoundTrip
import PolicyLogic.Proofs.Source.Rules
import PolicyLogic.Proofs.Source.Shape
import PolicyLogic.Proofs.Source.Spelling
import PolicyLogic.Proofs.Source.Tiling
import PolicyLogic.Proofs.Term.Hashing
import PolicyLogic.Proofs.Term.Parts
import PolicyLogic.Proofs.Term.Pure
import PolicyLogic.Proofs.Term.Rebuild
import PolicyLogic.Proofs.Term.Rename
import PolicyLogic.Proofs.Term.Same
import PolicyLogic.Proofs.Wire.Events
import PolicyLogic.Residual.Constraint
import PolicyLogic.Residual.Filter
import PolicyLogic.Residual.Log
import PolicyLogic.Rule.Basic
import PolicyLogic.Rule.Lifting
import PolicyLogic.Rule.Lint
import PolicyLogic.Rule.Renaming
import PolicyLogic.Session.Query
import PolicyLogic.Session.Solutions
import PolicyLogic.Session.Worker
import PolicyLogic.Source.Grammar
import PolicyLogic.Source.Lexer
import PolicyLogic.Source.Literal
import PolicyLogic.Source.Position
import PolicyLogic.Source.Token
import PolicyLogic.Term.Basic
import PolicyLogic.Term.Dump
import PolicyLogic.Term.Equality
import PolicyLogic.Term.Operator
import PolicyLogic.Term.Printer
import PolicyLogic.Term.Traversal
import PolicyLogic.Text.Alphabetic
import PolicyLogic.Text.Blank
import PolicyLogic.Text.Digits
import PolicyLogic.Text.Extending
import PolicyLogic.Text.Printable
import PolicyLogic.Text.Quoted
import PolicyLogic.Text.Ranges
import PolicyLogic.Trace
import PolicyLogic.Wire.Class
import PolicyLogic.Wire.Config
import PolicyLogic.Wire.Decode
import PolicyLogic.Wire.Error
import PolicyLogic.Wire.Event
import PolicyLogic.Wire.Json
import PolicyLogic.Wire.Reader
import PolicyLogic.Wire.Term
import PolicyLogic.Wire.Trace
import PolicyLogic.Wire.Writer
