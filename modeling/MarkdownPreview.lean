import MarkdownPreview.Preview.Basic
import MarkdownPreview.Proofs.Checked.Cursor
import MarkdownPreview.Proofs.Links.Policy
import MarkdownPreview.Proofs.Lowering.Nesting
import MarkdownPreview.Proofs.Markup.Preview
import MarkdownPreview.Proofs.Nesting.Rules
import MarkdownPreview.Proofs.Prose.Reference
import MarkdownPreview.Proofs.Variables.Raised
import MarkdownPreview.Proofs.Veil.Preview
import MarkdownPreview.Text.Replacement
import MarkdownPreview.Walk.Script
import MarkdownPreview.Proofs.Walk.Splice
import MarkdownPreview.Proofs.Walk.Tracking
import MarkdownPreview.Proofs.Walk.Gap
import MarkdownPreview.Proofs.Walk.Recursion
import MarkdownPreview.Proofs.Checked.Text
import MarkdownPreview.Proofs.Checked.Lowering
import MarkdownPreview.Proofs.Checked.Blocks
import MarkdownPreview.Proofs.Checked.Walk
import MarkdownPreview.Proofs.Checked.Edits
import MarkdownPreview.Proofs.Checked.Variables
import MarkdownPreview.Proofs.Checked.Samples
import MarkdownPreview.Proofs.Checked.Partners
import MarkdownPreview.Proofs.Checked.Within
import MarkdownPreview.Proofs.Checked.Removal
import MarkdownPreview.Proofs.Checked.Rules
import MarkdownPreview.Proofs.Headings.Ids
import MarkdownPreview.Proofs.Comments.Span
import MarkdownPreview.Proofs.Markup.Reading
import MarkdownPreview.Proofs.Markup.Stock
import MarkdownPreview.Proofs.Comments.Reaction
import MarkdownPreview.Proofs.Comments.Rounds
import MarkdownPreview.Proofs.Comments.Reader
import MarkdownPreview.Proofs.Markup.Tags
import MarkdownPreview.Proofs.Text.Lines
import MarkdownPreview.Proofs.Variables.Lines
import MarkdownPreview.Proofs.Samples.Seen
import MarkdownPreview.Proofs.Samples.Text
import MarkdownPreview.Proofs.Samples.Nesting
import MarkdownPreview.Proofs.Notes.Wrap
import MarkdownPreview.Proofs.Text.Pieces
import MarkdownPreview.Proofs.Variables.Decomposition
import MarkdownPreview.Proofs.Lowering.Superscripts
import MarkdownPreview.Proofs.Lowering.Tidy
import MarkdownPreview.Proofs.Variables.Shown
import MarkdownPreview.Proofs.Lowering.Ink
import MarkdownPreview.Proofs.Links.Definitions
import MarkdownPreview.Proofs.Lowering.Texts
import MarkdownPreview.Proofs.Lowering.Continuations
import MarkdownPreview.Proofs.Headings.Clashes
import MarkdownPreview.Proofs.Lowering.Passages
import MarkdownPreview.Proofs.Lowering.Fences
import MarkdownPreview.Proofs.Lowering.Pictures
import MarkdownPreview.Proofs.Rules.Spacing
import MarkdownPreview.Proofs.Markup.Parts
import MarkdownPreview.Proofs.Markup.LineStarts
import MarkdownPreview.Proofs.Rules.Pictures
import MarkdownPreview.Proofs.Markup.AltText
import MarkdownPreview.Proofs.Text.Lowercase
import MarkdownPreview.Proofs.Headings.Slugs
import MarkdownPreview.Proofs.Samples.Labels
import MarkdownPreview.Proofs.Json.Spelling
import MarkdownPreview.Proofs.Options.RoundTrip
