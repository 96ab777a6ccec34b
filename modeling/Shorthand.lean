import Shorthand.FileTree
import Shorthand.Main
import Shorthand.Proofs.Artifact
import Shorthand.Proofs.Resolver.History
import Shorthand.Proofs.Alphabet.Assignments
import Shorthand.Proofs.Replay.Suffix
import Shorthand.Proofs.Edit
import Shorthand.Proofs.Resolver.Firing
import Shorthand.Proofs.Table.Reading
import Shorthand.Proofs.Table.Truncation
import Shorthand.Proofs.Pool.Order
import Shorthand.Proofs.Resolver.Order
import Shorthand.Proofs.Trie.Alike
import Shorthand.Proofs.Table.Canonical
import Shorthand.Proofs.Artifact.Order
import Shorthand.Proofs.Artifact.Rebuild
import Shorthand.Proofs.Artifact.Figures
import Shorthand.Proofs.Settings
import Shorthand.Proofs.CommandLine
import Shorthand.Proofs.Resolver.Least
import Shorthand.Proofs.Resolver.Wordbreak
import Shorthand.Proofs.Resolver.Lookup
import Shorthand.Proofs.Resolver.Footprint
import Shorthand.Proofs.Resolver.Deletion
import Shorthand.Proofs.Resolver.Records
import Shorthand.Proofs.Text.Fill
import Shorthand.Proofs.Text.Rows
import Shorthand.Proofs.Text.Hex
import Shorthand.Proofs.Header
import Shorthand.Proofs.Header.Reading
import Shorthand.Proofs.Header.Arrays
import Shorthand.Proofs.Pool.Blocks
import Shorthand.Proofs.Trie.Nodes
import Shorthand.Proofs.Matcher.Nodes
import Shorthand.Proofs.Table.Tiling
import Shorthand.Proofs.Table.Size
import Shorthand.Proofs.Table.Progress
import Shorthand.Proofs.Table.Faults
import Shorthand.Proofs.Table.Barren
import Shorthand.Proofs.Matcher.Culprit
import Shorthand.Proofs.Table.Trailing
import Shorthand.Proofs.Dictionary.Acceptance
import Shorthand.Proofs.Dictionary.Printing
import Shorthand.Proofs.Settings.Layout
