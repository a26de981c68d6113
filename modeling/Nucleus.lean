import Nucleus.Lib.Prog
import Nucleus.Lib.Shadow
import Nucleus.Lib.Forest
import Nucleus.Lib.Scope
import Nucleus.Lib.Links
import Nucleus.Lib.Chain
import Nucleus.Lib.Precedence
import Nucleus.Lib.Frame
import Nucleus.Lib.Visit
import Nucleus.Lib.Gate
import Nucleus.Lib.IndexLoop
import Nucleus.Lib.WordOps
import Nucleus.Lib.Footprint
import Nucleus.Lib.FixedPoint
import Nucleus.Lang.Parser
import Nucleus.Lang.Symbol
import Nucleus.Lang.Archetype
import Nucleus.Lang.Compiler
import Nucleus.Vm.ObjectList
import Nucleus.Vm.Slotmap
import Nucleus.Vm.Table
import Nucleus.Vm.Numeral
import Nucleus.Vm.Ident
import Nucleus.Vm.Fixed
import Nucleus.Spec.Syntax
import Nucleus.Spec.Grammar
import Nucleus.Spec.Lexical
import Nucleus.Spec.Words
import Nucleus.Spec.Numerals
import Nucleus.Spec.Operators
import Nucleus.Spec.Printing
import Nucleus.Spec.Unparse
import Nucleus.Spec.Shape
import Nucleus.Spec.Alike
import Nucleus.Spec.Tables
import Nucleus.Spec.Scoping
import Nucleus.Spec.Archetypes
import Nucleus.Spec.Parsers
import Nucleus.Spec.Idents
import Nucleus.Spec.Fixed
import Nucleus.Proofs.Chars
import Nucleus.Proofs.Lexing
import Nucleus.Proofs.Spelling
import Nucleus.Proofs.Words
import Nucleus.Proofs.Lookahead
import Nucleus.Proofs.Spans
import Nucleus.Proofs.Lossless
import Nucleus.Proofs.Skipping
import Nucleus.Proofs.Operators
import Nucleus.Proofs.Arena
import Nucleus.Proofs.Tokens
import Nucleus.Proofs.Derivations
import Nucleus.Proofs.Expressions
import Nucleus.Proofs.Statements
import Nucleus.Proofs.Parse
import Nucleus.Proofs.Halting
import Nucleus.Proofs.Shapes
import Nucleus.Proofs.Tree
import Nucleus.Proofs.Printing
import Nucleus.Proofs.Unparse
import Nucleus.Proofs.Climbing
import Nucleus.Proofs.Grouping
import Nucleus.Proofs.ObjectList
import Nucleus.Proofs.ListMemory
import Nucleus.Proofs.Slotmap
import Nucleus.Proofs.Slotlist
import Nucleus.Proofs.Tables
import Nucleus.Proofs.Registry
import Nucleus.Proofs.Lookup
import Nucleus.Proofs.Layout
import Nucleus.Proofs.Columns
import Nucleus.Proofs.Fuel
import Nucleus.Proofs.Positions
import Nucleus.Proofs.Twins
import Nucleus.Proofs.TwinParse
import Nucleus.Proofs.TwinResolve
import Nucleus.Proofs.Capacity
import Nucleus.Proofs.Reuse
import Nucleus.Proofs.EmptyFunctions
import Nucleus.Proofs.ErrorSpans
import Nucleus.Proofs.Names
import Nucleus.Proofs.Scoping
import Nucleus.Proofs.Visibility
import Nucleus.Proofs.Walk
import Nucleus.Proofs.Frames
import Nucleus.Proofs.Archetypes
import Nucleus.Proofs.Initialisers
import Nucleus.Proofs.Overflow
import Nucleus.Proofs.Numerals
import Nucleus.Proofs.Parsers
import Nucleus.Proofs.Signs
import Nucleus.Proofs.Idents
import Nucleus.Proofs.FixedPoint
import Nucleus.Proofs.Logarithm
import Nucleus.Proofs.Exhaustion
import Nucleus.Spec.Static
import Nucleus.Proofs.Acceptance
import Nucleus.Proofs.Static
import Nucleus.Proofs.Alike
import Nucleus.Spec.Texts
import Nucleus.Proofs.Texts
import Nucleus.Spec.Writing
import Nucleus.Proofs.Writing
import Nucleus.Proofs.Respelling
import Nucleus.Lib.Reduce
import Nucleus.Proofs.Interpreter
import Nucleus.Lib.Lockstep
import Nucleus.Lib.Trace
import Nucleus.Spec.Session
import Nucleus.Proofs.Session
import Nucleus.Proofs.Library
import Nucleus.Proofs.Diagnostics
import Nucleus.Proofs.Print
import Nucleus.Lib.Predictive
import Nucleus.Lib.Tracking
import Nucleus.Lib.Metered
import Nucleus.Proofs.ParserLanguage
import Nucleus.Proofs.InStep
import Nucleus.Proofs.Ending
import Nucleus.Proofs.Exits
import Nucleus.Spec.Prediction
import Nucleus.Proofs.ParserTable
import Nucleus.Proofs.Completions
import Nucleus.Proofs.FirstError
