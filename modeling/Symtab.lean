import Symtab.Binary.Reader
import Symtab.Compatible
import Symtab.Directory
import Symtab.Frozen
import Symtab.Index.Walk
import Symtab.Table.Cursor
import Symtab.Proofs.Binary.Allocation
import Symtab.Proofs.Binary.Decoding
import Symtab.Proofs.Digest.Injectivity
import Symtab.Proofs.TextFormat.RoundTrip
import Symtab.Proofs.TextFormat.Writing
import Symtab.Proofs.TextFormat.Decoding
import Symtab.Proofs.TextFormat.Grammar
import Symtab.Proofs.Records
import Symtab.Proofs.Table.Adding
import Symtab.Proofs.Table.CheckedRuns
import Symtab.Proofs.Table.Merging
import Symtab.Proofs.Table.Removing
import Symtab.Proofs.Table.Traversal
import Symtab.Proofs.Table.Undoing
import Symtab.Proofs.Binary.Normalization
import Symtab.Proofs.Binary.Streaming
import Symtab.Proofs.Index.Runs
import Symtab.Proofs.Session
import Symtab.Proofs.Session.Digests
import Symtab.Proofs.Index.Growth
import Symtab.Proofs.KeyMap.Edits
import Symtab.Proofs.Binary.Consumption
