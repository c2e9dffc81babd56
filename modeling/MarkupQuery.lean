import MarkupQuery.Query.Batch
import MarkupQuery.Text.Scanner
import MarkupQuery.NodeTree.Description
import MarkupQuery.Proofs.NodeTree.WellNested
import MarkupQuery.Proofs.NodeTree.ReadBack
import MarkupQuery.Proofs.Location.Language
import MarkupQuery.Proofs.Query.DocumentOrder
import MarkupQuery.Proofs.Markup.Strictness
import MarkupQuery.Proofs.Markup.LexicalNames
import MarkupQuery.Proofs.Query.Composition
import MarkupQuery.Proofs.Query.RecencyMap
import MarkupQuery.Proofs.NodeTree.Sizes
import MarkupQuery.Proofs.Bytes.Calls
import MarkupQuery.Proofs.Query.SharedCache
import MarkupQuery.Proofs.Query.BatchAnswers
import MarkupQuery.Proofs.Query.AxisGeometry
import MarkupQuery.Proofs.Query.Unrepeated
import MarkupQuery.Proofs.Query.DoubleSlash
import MarkupQuery.Proofs.Location.CanonicalText
import MarkupQuery.Proofs.Text.Spellings
import MarkupQuery.Proofs.Markup.FailedReads
import MarkupQuery.Proofs.Query.StringValues
import MarkupQuery.Proofs.NodeTree.Numbering
import MarkupQuery.Proofs.Markup.Additions
