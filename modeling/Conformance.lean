import Conformance.FileTree
import Conformance.Main
import Conformance.Proofs.Grammar.Derivation
import Conformance.Proofs.Grammar.ItemDerivation
import Conformance.Proofs.Grammar.Phrase
import Conformance.Proofs.Grammar.ItemSoundness
import Conformance.Proofs.Grammar.Completeness
import Conformance.Proofs.Grammar.TypeCompleteness
import Conformance.Proofs.Grammar.ItemCompleteness
import Conformance.Proofs.Grammar.Outline
import Conformance.Proofs.Grammar.Exactness
import Conformance.Proofs.Token.Spelling
import Conformance.Proofs.Token.Tiling
import Conformance.Proofs.Grammar.Settled
import Conformance.Proofs.Model.Fields
import Conformance.Proofs.Model.SourceFields
import Conformance.Proofs.Coding.Machine
import Conformance.Proofs.Code.Shown
import Conformance.Proofs.Coding.Keys
import Conformance.Proofs.Coding.RoundTrip
import Conformance.Proofs.Coding.Fields
import Conformance.Proofs.Token.Front
import Conformance.Proofs.Token.Moving
import Conformance.Proofs.Model.Variants
import Conformance.Proofs.Model.SourceVariants
import Conformance.Proofs.Comparing.Law
import Conformance.Proofs.Grammar.Prompt
import Conformance.Proofs.Grammar.PromptType
import Conformance.Proofs.Grammar.PromptItem
import Conformance.Proofs.Grammar.PromptRow
import Conformance.Proofs.Grammar.FirstFault
import Conformance.Proofs.Grammar.Move
import Conformance.Proofs.Grammar.MoveDeclarations
import Conformance.Proofs.Token.Joining
import Conformance.Proofs.Grammar.Ends
import Conformance.Proofs.Model.Neighbours
import Conformance.Proofs.Token.Layout
import Conformance.Proofs.Token.Places
import Conformance.Proofs.Token.Alone
import Conformance.Proofs.Model.Recorded
import Conformance.Proofs.Model.Verbatim
import Conformance.Proofs.Code.Scopes
import Conformance.Proofs.Code.Bindings
import Conformance.Proofs.Text.Collapse
import Conformance.Proofs.Token.Collapsed
import Conformance.Proofs.Model.Types
import Conformance.Proofs.Grammar.Nesting
import Conformance.Proofs.Token.Piece
import Conformance.Proofs.Token.Squashed
import Conformance.Proofs.Grammar.Fits
import Conformance.Proofs.Command.Outcomes
import Conformance.Proofs.Model.LooseCode
import Conformance.Proofs.Grammar.Bodies
import Conformance.Proofs.Token.Edits
import Conformance.Proofs.Model.OpaqueBodies
import Conformance.Proofs.Code.Printed
import Conformance.Proofs.Code.PrintedBlocks
import Conformance.Proofs.Code.PrintedConformances
import Conformance.Proofs.Model.Generated
import Conformance.Proofs.Text.Utf8
import Conformance.Proofs.Command.Channels
import Conformance.Proofs.Command.Nothing
import Conformance.Proofs.Model.Supertypes
import Conformance.Proofs.Code.Unindented
import Conformance.Proofs.Model.BlockTexts
import Conformance.Proofs.Coding.KeyNames
import Conformance.Proofs.Model.BlockProperty
import Conformance.Proofs.Model.SameTokens
import Conformance.Proofs.Token.Lookahead
import Conformance.Proofs.Settings.Checks
import Conformance.Proofs.Grammar.Excerpts
import Conformance.Proofs.Model.TypeRoundTrip
import Conformance.Proofs.Model.Locations
import Conformance.Proofs.Model.FunctionNames
import Conformance.Proofs.Code.LiteralPlaces
