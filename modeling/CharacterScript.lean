import CharacterScript.Disk.Tree
import CharacterScript.Main
import CharacterScript.Proofs.Binding
import CharacterScript.Proofs.Calls
import CharacterScript.Proofs.Computation
import CharacterScript.Proofs.Continuity
import CharacterScript.Proofs.Declaring
import CharacterScript.Proofs.Image.Layout
import CharacterScript.Proofs.Image.Operands
import CharacterScript.Proofs.Image.Reader
import CharacterScript.Proofs.Image.Slots
import CharacterScript.Proofs.Lexemes
import CharacterScript.Proofs.Lowering.Bodies
import CharacterScript.Proofs.Lowering.Expressions
import CharacterScript.Proofs.Lowering.Growth
import CharacterScript.Proofs.Lowering.Scopes
import CharacterScript.Proofs.Lowering.Statements
import CharacterScript.Proofs.Reachable
import CharacterScript.Proofs.ScopeTree
import CharacterScript.Proofs.Steps
import CharacterScript.Proofs.TableLaws
import CharacterScript.Proofs.TopLevel
import CharacterScript.Proofs.TreeSpans
import CharacterScript.Proofs.WellFormed
import CharacterScript.Proofs.Image.Overlay
import CharacterScript.Proofs.Interface.Agreement
import CharacterScript.Proofs.Interface.Declaring
import CharacterScript.Proofs.Interface.Expanding
import CharacterScript.Proofs.Interface.Lowering
import CharacterScript.Proofs.Interface.Bodies
import CharacterScript.Proofs.Interface.Independence
import CharacterScript.Proofs.VisibleNames
import CharacterScript.Proofs.Overriding
import CharacterScript.Proofs.Words
import CharacterScript.Proofs.Substitution
import CharacterScript.Proofs.Lexing.Forms
import CharacterScript.Proofs.Lexing.Walk
import CharacterScript.Proofs.Grammar.Phrases
import CharacterScript.Proofs.Tokenization
import CharacterScript.Proofs.Grammar.Reading
import CharacterScript.Proofs.Grammar.Unambiguous
import CharacterScript.Proofs.Grammar.Reach
import CharacterScript.Proofs.Grammar.Statements
import CharacterScript.Proofs.Grammar.Files
import CharacterScript.Proofs.Grammar.Separation
import CharacterScript.Proofs.Lexing.Splicing
import CharacterScript.Proofs.Relocation.Phrases
import CharacterScript.Proofs.Relocation.Moves
import CharacterScript.Proofs.Relocation.Names
import CharacterScript.Proofs.Relocation.Lowering
import CharacterScript.Proofs.Relocation.Layers
import CharacterScript.Proofs.Relocation.Definitions
import CharacterScript.Proofs.Positions.Lines
import CharacterScript.Proofs.Positions.Stitching
import CharacterScript.Proofs.Positions.Markers
import CharacterScript.Proofs.Disk.Looking
import CharacterScript.Proofs.Requests
import CharacterScript.Proofs.LastGood
import CharacterScript.Proofs.Disk.Places
import CharacterScript.Proofs.SourceFiles
import CharacterScript.Proofs.Chains
import CharacterScript.Proofs.Disk.Changes
import CharacterScript.Proofs.Inlining
import CharacterScript.Proofs.Arithmetic
import CharacterScript.Proofs.ReportedSlots
import CharacterScript.Proofs.Disk.Replacing
import CharacterScript.Proofs.RecordedBases
import CharacterScript.Proofs.Relocation.Captured
import CharacterScript.Proofs.Rereading
import CharacterScript.Proofs.DefinedExpressions
import CharacterScript.Proofs.Recursion
import CharacterScript.Proofs.Redefining.Calculating
import CharacterScript.Proofs.Redefining.Expanding
import CharacterScript.Proofs.Redefining.Lowering
import CharacterScript.Proofs.Redefining.Layers
import CharacterScript.Proofs.Redefining.Appending
import CharacterScript.Proofs.LaterDefinitions
import CharacterScript.Proofs.PoolLimit
import CharacterScript.Proofs.Listing
import CharacterScript.Proofs.CachedVocabulary
import CharacterScript.Proofs.CompoundAssignment
import CharacterScript.Proofs.Positions.Columns
import CharacterScript.Proofs.WordBytes
import CharacterScript.Proofs.ScriptIds
import CharacterScript.Proofs.Comments
import CharacterScript.Proofs.NodeSpans
