import Markup.Name.Element
import Markup.Name.Attribute
import Markup.Escape
import Markup.Slice
import Markup.Words
import Markup.Environment
import Markup.Text
import Markup.Template.Basic
import Markup.Content
import Markup.Forest.Edit
import Markup.Forest.Read
import Markup.Command
import Markup.Woodland
import Markup.Proofs.Linked
import Markup.Proofs.Tags
import Markup.Proofs.Tokens
import Markup.Proofs.Blocks
import Markup.Proofs.Delivery
import Markup.Proofs.Stamps
import Markup.Proofs.ChildRows
import Markup.Proofs.Faults
import Markup.Proofs.Delimiters
import Markup.Proofs.Escaped
import Markup.Proofs.Noninterference
import Markup.Proofs.References
import Markup.Proofs.Items
import Markup.Proofs.Subtrees
import Markup.Proofs.CompactText
import Markup.Proofs.Kinds
import Markup.Proofs.Exchanges
import Markup.Proofs.SafeExpansion
import Markup.Proofs.Bindings
import Markup.Proofs.Fronts
import Markup.Proofs.Remembering
import Markup.Proofs.Accounts
import Markup.Proofs.Isolation
import Markup.Proofs.VisibleNames
import Markup.Proofs.TrapFree
import Markup.Proofs.Appended
import Markup.Proofs.TreeOrder
import Markup.Proofs.VisibleWalk
import Markup.Proofs.Removal
import Markup.Proofs.TagReading
import Markup.Proofs.Entities
import Markup.Proofs.CurrentSpans
import Markup.Proofs.LastWrite
import Markup.Proofs.ClassLists
import Markup.Proofs.Indentation
import Markup.Proofs.Copies
import Markup.Proofs.FrameDiscipline
