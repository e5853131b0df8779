import Stylesheet.Json.Reader
import Stylesheet.Name
import Stylesheet.Session
import Stylesheet.Summary
import Stylesheet.Main
import Stylesheet.Proofs.Scan
import Stylesheet.Proofs.Text.Letters
import Stylesheet.Proofs.Text.Trim
import Stylesheet.Proofs.Text.Pieces
import Stylesheet.Proofs.Occurrence.Span
import Stylesheet.Proofs.Occurrence.Variable
import Stylesheet.Proofs.Occurrence.Selector
import Stylesheet.Proofs.Occurrence.Declaration
import Stylesheet.Proofs.Findings
import Stylesheet.Proofs.Layout
import Stylesheet.Proofs.Cut
import Stylesheet.Proofs.Reconstruction
import Stylesheet.Proofs.References
import Stylesheet.Proofs.Merge
import Stylesheet.Proofs.Pipeline
import Stylesheet.Proofs.Text.Overwrite
import Stylesheet.Proofs.Occurrence.Spelling
import Stylesheet.Proofs.Rewriting
import Stylesheet.Proofs.Normalization
import Stylesheet.Proofs.Precedence
import Stylesheet.Proofs.Arrangement
import Stylesheet.Proofs.Placement
import Stylesheet.Proofs.Overlap
import Stylesheet.Proofs.Occurrence.Casing
import Stylesheet.Proofs.Recasing
import Stylesheet.Proofs.Occurrence.Moving
import Stylesheet.Proofs.Swap
import Stylesheet.Proofs.Reparse
import Stylesheet.Proofs.Flattening
import Stylesheet.Proofs.Occurrence.Renaming
import Stylesheet.Proofs.Occurrence.Retargeting
import Stylesheet.Proofs.Retext
import Stylesheet.Proofs.Json.Grammar
import Stylesheet.Proofs.Json.Writing
import Stylesheet.Proofs.Text.CodePoint
import Stylesheet.Proofs.Raw
import Stylesheet.Proofs.Export
import Stylesheet.Proofs.Occurrence.Anchor
import Stylesheet.Proofs.Occurrence.Pattern
import Stylesheet.Proofs.CommandLine
import Stylesheet.Proofs.Occurrence.UrlSearch
import Stylesheet.Proofs.Occurrence.Reference
import Stylesheet.Proofs.Occurrence.RootBlock
import Stylesheet.Proofs.Occurrence.UrlText
import Stylesheet.Proofs.Occurrence.Accounting
import Stylesheet.Proofs.NormalForm
import Stylesheet.Proofs.Text.Percent
import Stylesheet.Proofs.Inlining
import Stylesheet.Proofs.Interleaving
import Stylesheet.Proofs.RootRule
import Stylesheet.Proofs.Joining
