import SqlFront.Config.Toml
import SqlFront.Parse
import SqlFront.Proofs.Distribution
import SqlFront.Proofs.ConditionTruth
import SqlFront.Proofs.Pieces
import SqlFront.Proofs.Reading
import SqlFront.Proofs.Shape
import SqlFront.Proofs.ExpressionShape
import SqlFront.Proofs.QueryShape
import SqlFront.Proofs.StatementShape
import SqlFront.Proofs.ParserForms
import SqlFront.Proofs.ParserQueries
import SqlFront.Proofs.ParserSchema
import SqlFront.Proofs.ParserBatch
import SqlFront.Proofs.ParseTree
import SqlFront.Proofs.ExpressionRefusal
import SqlFront.Proofs.QueryRefusal
import SqlFront.Proofs.StatementRefusal
import SqlFront.Proofs.ParseOutcome
import SqlFront.Proofs.InsideTree
import SqlFront.Proofs.StoredParts
import SqlFront.Proofs.Conditions
import SqlFront.Proofs.NormalForm
import SqlFront.Proofs.Connectives
import SqlFront.Proofs.Derivation
import SqlFront.Proofs.DerivationSound
import SqlFront.Proofs.StatementDerivation
import SqlFront.Proofs.DerivationReading
import SqlFront.Proofs.ExpressionGrammar
import SqlFront.Proofs.PieceLocality
import SqlFront.Proofs.Slices
import SqlFront.Proofs.Cutting
import SqlFront.Proofs.BuiltOperands
import SqlFront.Proofs.PartTokens
import SqlFront.Proofs.ExpressionText
import SqlFront.Proofs.DefaultAlias
import SqlFront.Proofs.Gaps
import SqlFront.Proofs.Tiling
import SqlFront.Token.Scan
import SqlFront.Proofs.PassedBytes
import SqlFront.Proofs.ByteScan
import SqlFront.Proofs.Simulation
import SqlFront.Proofs.PlainForms
import SqlFront.Proofs.BatchReading
import SqlFront.Proofs.View
import SqlFront.Proofs.Parallel
import SqlFront.Proofs.ParallelExpression
import SqlFront.Proofs.ParallelQuery
import SqlFront.Proofs.ParallelStatement
import SqlFront.Proofs.ParallelBatch
import SqlFront.Proofs.Limits
import SqlFront.Proofs.JoinedBatches
import SqlFront.Proofs.Sameness
import SqlFront.Proofs.Spacing
import SqlFront.Proofs.SizeGuard
import SqlFront.Proofs.Passes
import SqlFront.Proofs.QuotedStrings
import SqlFront.Proofs.Labels
import SqlFront.Proofs.ExpressionLabels
import SqlFront.Proofs.LabelledForms
import SqlFront.Proofs.QueryLabels
import SqlFront.Proofs.StatementLabels
import SqlFront.Proofs.Parameters
import SqlFront.Proofs.PassSizes
import SqlFront.Proofs.DigitValues
import SqlFront.Proofs.Significands
import SqlFront.Proofs.DroppedZeros
import SqlFront.Proofs.WrittenNumbers
import SqlFront.Proofs.DecimalReaders
import SqlFront.Proofs.NumberLiterals
import SqlFront.Proofs.ScaleCounter
import SqlFront.Proofs.ArithmeticDepth
import SqlFront.Proofs.DeepestArithmetic
import SqlFront.Proofs.Complement
import SqlFront.Proofs.ArithmeticReading
import SqlFront.Proofs.Cursor
import SqlFront.Proofs.CursorDepth
import SqlFront.Proofs.CursorProgress
import SqlFront.Proofs.CursorReading
import SqlFront.Proofs.GrammarProgress
import SqlFront.Proofs.BatchProgress
import SqlFront.Proofs.TreeHeight
import SqlFront.Proofs.NestingBound
import SqlFront.Proofs.StatementCores
import SqlFront.Proofs.WrittenColumns
import SqlFront.Proofs.KeyColumns
import SqlFront.Proofs.TableKeys
import SqlFront.Proofs.TypeArguments
import SqlFront.Proofs.ReplacedName
import SqlFront.Proofs.UpdateReading
import SqlFront.Proofs.StatementPlace
import SqlFront.Proofs.UpdateOfKeys
import SqlFront.Proofs.QuotedNames
import SqlFront.Proofs.HexadecimalText
import SqlFront.Proofs.StringUnits
import SqlFront.Proofs.HexSpellings
import SqlFront.Proofs.PredicateTexts
import SqlFront.Proofs.BalancedChains
import SqlFront.Proofs.ColumnOrder
import SqlFront.Proofs.WrittenRows
import SqlFront.Proofs.InsertedRows
import SqlFront.Proofs.TextPlaces
import SqlFront.Proofs.MisreadTokens
import SqlFront.Proofs.FaultPlaces
import SqlFront.Proofs.TomlTables
import SqlFront.Proofs.TomlText
import SqlFront.Proofs.Settings
