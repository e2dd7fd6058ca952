import LiveC.Preprocess.Tokenize
import LiveC.Program.Unit
import LiveC.Typing.Operator
import LiveC.Typing.Constant
import LiveC.Parser.Basic
import LiveC.Parser.Source
import LiveC.Program.Written
import LiveC.Value
import LiveC.Machine.Assembler
import LiveC.Machine.Listing
import LiveC.Machine.Calling
import LiveC.Machine.Frame
import LiveC.Object.Validate
import LiveC.Lowering.Expression
import LiveC.Lowering.Object
import LiveC.Object.Elf
import LiveC.Elf.Read
import LiveC.Link.Image
import LiveC.Machine.Steps
import LiveC.Link.View
import LiveC.Session.Engine
import LiveC.Command.Run
import LiveC.Text.Shown
import LiveC.Main
import LiveC.Proofs.Evaluation
import LiveC.Proofs.Labelled
import LiveC.Proofs.Straight
import LiveC.Proofs.Simulation
import LiveC.Proofs.TypingRules
import LiveC.Proofs.Sequence
import LiveC.Proofs.Labels
import LiveC.Proofs.ExpressionCode
import LiveC.Proofs.IntegerCode
import LiveC.Proofs.Segments
import LiveC.Proofs.FunctionCode
import LiveC.Proofs.ConversionTyping
import LiveC.Proofs.OperatorTyping
import LiveC.Proofs.ParserState
import LiveC.Proofs.PlaceTyping
import LiveC.Proofs.BalancedCode
import LiveC.Proofs.CallDiscipline
import LiveC.Proofs.FoldedCode
import LiveC.Proofs.LayoutSound
import LiveC.Proofs.LinkOutcome
import LiveC.Proofs.MemoryStates
import LiveC.Proofs.SessionRuns
import LiveC.Proofs.LayoutOutcome
import LiveC.Proofs.LinkTargets
import LiveC.Proofs.Patches
import LiveC.Proofs.LinkedImage
import LiveC.Proofs.CompiledLinking
import LiveC.Proofs.MacroExpansion
import LiveC.Proofs.ConditionalGroups
import LiveC.Proofs.EmittedObjects
import LiveC.Proofs.ArgumentPassing
import LiveC.Proofs.ParserTermination
import LiveC.Proofs.AcceptedSources
import LiveC.Proofs.InitialAgreement
import LiveC.Proofs.BoundedHeight
import LiveC.Proofs.SkippedText
import LiveC.Proofs.NameResolution
import LiveC.Proofs.RecordedDefinitions
import LiveC.Proofs.LaidCode
import LiveC.Proofs.ArrangedData
import LiveC.Proofs.SectionParts
import LiveC.Proofs.RelocationFields
import LiveC.Proofs.ImportedNames
import LiveC.Proofs.ImportedBindings
import LiveC.Proofs.SpelledSources
import LiveC.Proofs.DeclaredTypes
import LiveC.Proofs.ParenthesisedExpressions
import LiveC.Proofs.MacroConditions
import LiveC.Proofs.DirectiveComments
import LiveC.Proofs.AssignedOperands
import LiveC.Proofs.PointerScaling
import LiveC.Proofs.WordValidation
import LiveC.Proofs.SectionLayout
import LiveC.Proofs.RegistryRuns
import LiveC.Proofs.DoubleConversion
import LiveC.Proofs.ConstantTypes
import LiveC.Proofs.AddendRanges
import LiveC.Proofs.TokenLocations
import LiveC.Proofs.FrameSlots
import LiveC.Proofs.SpecifierOrder
