import HybridTemplate.Build
import HybridTemplate.Proofs.Lexer.Written
import HybridTemplate.Proofs.Utility.MarkupPatterns
import HybridTemplate.Proofs.Component.NamePattern
import HybridTemplate.Proofs.Lexer.Coverage
import HybridTemplate.Proofs.Lexer.Loop
import HybridTemplate.Proofs.Lexer.Identifiers
import HybridTemplate.Proofs.Lexer.Templates
import HybridTemplate.Proofs.Lexer.FormatStrings
import HybridTemplate.Proofs.Lexer.LineEnds
import HybridTemplate.Proofs.Run.OnePass
import HybridTemplate.Proofs.Highlight.Lossless
import HybridTemplate.Proofs.Highlight.Meaning
import HybridTemplate.Proofs.Highlight.Literals
import HybridTemplate.Proofs.Component.History
import HybridTemplate.Proofs.Component.Isolation
import HybridTemplate.Proofs.Component.Embeds
import HybridTemplate.Proofs.Component.Meaning
import HybridTemplate.Proofs.Component.Provenance
import HybridTemplate.Proofs.Component.Naming
import HybridTemplate.Proofs.Component.Separation
import HybridTemplate.Proofs.Component.Offences
import HybridTemplate.Proofs.Component.Clashes
import HybridTemplate.Proofs.Component.Nesting
import HybridTemplate.Proofs.Component.Hoisting
import HybridTemplate.Proofs.Component.Items
import HybridTemplate.Proofs.Component.Discarding
import HybridTemplate.Proofs.Traversal.Order
import HybridTemplate.Proofs.Tree.Slices
import HybridTemplate.Proofs.Utility.Orderless
import HybridTemplate.Proofs.Utility.Reading
import HybridTemplate.Proofs.Utility.Tags
import HybridTemplate.Proofs.Utility.Scanning
import HybridTemplate.Proofs.Files.Tree
import HybridTemplate.Proofs.Files.Walking
import HybridTemplate.Proofs.Files.Changing
import HybridTemplate.Proofs.Files.Destination
import HybridTemplate.Proofs.Files.Directories
import HybridTemplate.Proofs.Files.Below
import HybridTemplate.Proofs.Files.Containing
import HybridTemplate.Proofs.Files.Listing
import HybridTemplate.Proofs.Files.Ordering
import HybridTemplate.Proofs.Session
import HybridTemplate.Proofs.Component.Refusals
import HybridTemplate.Proofs.Path.Relative
import HybridTemplate.Proofs.Bundle.Copying
import HybridTemplate.Proofs.Bundle.Landing
import HybridTemplate.Proofs.Bundle.Importing
import HybridTemplate.Proofs.Bundle.Keeping
import HybridTemplate.Proofs.Bundle.Relocation
import HybridTemplate.Proofs.Bundle.Carrying
import HybridTemplate.Proofs.Bundle.Entry
import HybridTemplate.Proofs.Bundle.Recognition
import HybridTemplate.Proofs.Bundle.Intact
import HybridTemplate.Proofs.Build.Steps
import HybridTemplate.Proofs.Build.Failures
import HybridTemplate.Proofs.Build.Wrappers
import HybridTemplate.Proofs.Build.Bundled
import HybridTemplate.Proofs.Build.Containment
import HybridTemplate.Proofs.Build.Sharing
import HybridTemplate.Proofs.Bundle.Imports
import HybridTemplate.Proofs.ModuleText.Literals
import HybridTemplate.Proofs.ModuleText.Statements
import HybridTemplate.Proofs.Bundle.ReadingBack
import HybridTemplate.Proofs.Lexer.Comments
import HybridTemplate.Proofs.Lexer.Overruns
import HybridTemplate.Proofs.Component.Joining
import HybridTemplate.Proofs.Discovery
import HybridTemplate.Proofs.Location
import HybridTemplate.Proofs.Utility.ClosingSlash
import HybridTemplate.Proofs.Utility.TagNames
